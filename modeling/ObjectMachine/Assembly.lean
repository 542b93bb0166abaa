import ObjectMachine.Assembly.Operand

/-! Assembly language. A source holds one or more blocks between `.irep` and `.end`
lines; the first one is the root, and a block is a child of every block that names it.
A source that assembles is acyclic and valid. -/

namespace ObjectMachine.Assembly

/-- Where a reader of lines stands: the finished blocks and the open one. -/
structure Reader where
  finished : Array Draft := #[]
  current : Option Draft := none
  deriving DecidableEq

/-- Reads the attributes of a block header. -/
def readAttributes (d : Draft) : List Token → Except Complaint Draft
  | [] => .ok d
  | t :: rest =>
    match t.text.cut (Text.byte '=') with
    | none => .error (.attributeShape t.text)
    | some (key, value) =>
      match Text.readInt64? value with
      | none => .error (.attributeValue key value)
      | some n =>
        if n < 0 then .error (.attributeValue key value)
        else if key = Text.ofString "nregs" then readAttributes { d with registers := n } rest
        else if key = Text.ofString "nlocals" then readAttributes { d with locals := n } rest
        else .error (.attributeUnknown key)

def Reader.beginBlock (r : Reader) (line : Nat) (args : List Token) :
    Except Complaint Reader :=
  match r.current with
  | some d => .error (.nestedBlock d.name)
  | none =>
    match args with
    | .word name :: attributes =>
      if r.finished.any (·.name == name) then .error (.blockTwice name)
      else do
        let d ← readAttributes { name, line } attributes
        return { r with current := some d }
    | _ => .error .blockNameMissing

def Reader.endBlock (r : Reader) (line : Nat) : Except SyntaxError Reader :=
  match r.current with
  | none => .error ⟨line, .endWithoutBlock⟩
  | some d => do
    let code ← d.resolve
    return { finished := r.finished.push { d with code }, current := none }

/-- The label a line defines: a single word that ends with a colon and starts with none. -/
def definedLabel? : List Token → Option Text
  | [.word t] =>
    if t.getLast? == some (Text.byte ':') && t.head? != some (Text.byte ':') then
      some t.dropLast
    else none
  | _ => none

def Draft.define (d : Draft) (label : Text) : Except Complaint Draft :=
  if (d.labels.lookup label).isSome then .error (.labelTwice label)
  else .ok { d with labels := (label, d.code.size) :: d.labels }

/-- Reads a line inside a block: a label or an instruction. -/
def Reader.content (r : Reader) (line : Nat) (head : Token) (args : List Token) :
    Except Complaint Reader :=
  match r.current with
  | none => .error (.outsideBlock head.text)
  | some d => do
    let d ← match definedLabel? (head :: args) with
      | some label => d.define label
      | none => d.instruction line head args
    return { r with current := some d }

def atLine {α : Type} (line : Nat) : Except Complaint α → Except SyntaxError α
  | .ok a => .ok a
  | .error complaint => .error ⟨line, complaint⟩

def Reader.line (r : Reader) (line : Nat) (text : Text) : Except SyntaxError Reader :=
  match tokens text with
  | .error e => .error ⟨line, .line e⟩
  | .ok [] => .ok r
  | .ok (head :: args) =>
    if head = .word ".irep" then atLine line (r.beginBlock line args)
    else if head = .word ".end" then r.endBlock line
    else atLine line (r.content line head args)

/-- Reads numbered lines. -/
def Reader.lines (r : Reader) : List (Text × Nat) → Except SyntaxError Reader
  | [] => .ok r
  | (text, line) :: rest => do
    let r ← r.line line text
    r.lines rest

/-- The finished block a draft stands for, its children found by name. -/
def Draft.link (d : Draft) (drafts : Array Draft) : Except SyntaxError Block := do
  let children ← d.references.mapM fun (line, name) =>
    match drafts.findIdx? (·.name == name) with
    | some i => .ok i
    | none => .error ⟨line, .undefinedBlock name⟩
  return { name := d.name, locals := d.locals, registers := d.registers, code := d.code,
           pool := d.pool, symbols := d.symbols, children }

def link (drafts : Array Draft) : Except SyntaxError Program := do
  let blocks ← drafts.mapM (·.link drafts)
  return ⟨blocks⟩

/-- Assembles a source. -/
def parse (source : Text) : Except SyntaxError Program := do
  let lines := source.splitOn (Text.byte '\n')
  let r ← Reader.lines {} (lines.zipIdx 1)
  if let some d := r.current then
    throw ⟨d.line, .blockUnclosed d.name⟩
  if r.finished.isEmpty then
    throw ⟨0, .noBlocks⟩
  let program ← link r.finished
  if let some n := program.cyclicBlock? then
    let (line, name) := ((r.finished[n]?).map fun d => (d.line, d.name)).getD (0, [])
    throw ⟨line, .cyclicBlock name⟩
  if let some defect := program.defect? then
    throw ⟨0, .invalid defect⟩
  return program

end ObjectMachine.Assembly
