import ObjectMachine.Assembly.SyntaxError
import ObjectMachine.Code.Block
import ObjectMachine.Double.Reading

/-! Blocks under construction and the operands of their instructions. Literals, symbols
and children are numbered as they are first met; an operand equal to an earlier one
shares its number. -/

namespace ObjectMachine.Assembly

/-- An operand that waits for its label to be defined. -/
structure Fixup where
  line : Nat
  pc : Nat
  slot : Nat
  label : Text
  deriving DecidableEq

/-- A block between its header and its end. -/
structure Draft where
  name : Text
  line : Nat
  registers : Int64 := 1
  locals : Int64 := 0
  code : Array Inst := #[]
  pool : Array Literal := #[]
  symbols : Array Text := #[]
  /-- Names of child blocks with the line of their first use. -/
  references : Array (Nat × Text) := #[]
  /-- Labels with the number of instructions before them. -/
  labels : List (Text × Nat) := []
  fixups : Array Fixup := #[]
  deriving DecidableEq

/-- The index of the first entry that satisfies the test, appending `x` when none does. -/
def place {α : Type} (xs : Array α) (x : α) (isSame : α → Bool) : Array α × Int64 :=
  match xs.findIdx? isSame with
  | some i => (xs, Int64.ofNat i)
  | none => (xs.push x, Int64.ofNat xs.size)

/-- Reads a literal: a quoted text, a number with a mark of a float, or an integer. -/
def readLiteral : Token → Except Complaint Literal
  | .string t => .ok (.ofText t)
  | .symbol _ => .error .literalExpected
  | .word t =>
    if t.containsAny ".eEIN" then
      match Double.read t with
      | .ok x => .ok (.ofFloat x)
      | .error _ => .error (.floatBad t)
    else match Text.readInt64? t with
      | some n => .ok (.ofInt n)
      | none => .error (.literalBad t)

/-- The text of a word after its mark, which must be followed by something. -/
def afterMark? (mark : Char) : Token → Option Text
  | .word (b :: c :: rest) => if b == Text.byte mark then some (c :: rest) else none
  | _ => none

def readRegister (t : Token) : Except Complaint Int64 :=
  match t with
  | .word (b :: digits) =>
    if b == Text.byte 'r' then
      match Text.readInt64? digits with
      | some n => if n < 0 then .error (.registerBad t.text) else .ok n
      | none => .error (.registerBad t.text)
    else .error (.registerExpected t.text)
  | _ => .error (.registerExpected t.text)

def readInteger : Token → Except Complaint Int64
  | .word t =>
    match Text.readInt64? t with
    | some n => .ok n
    | none => .error (.integerBad t)
  | _ => .error .integerExpected

def readSymbol (t : Token) : Except Complaint Text :=
  match t with
  | .symbol name => .ok name
  | t =>
    match afterMark? ':' t with
    | some name => .ok name
    | none => .error (.symbolExpected t.text)

/-- Reads the operand in the given slot of the instruction being added. -/
def Draft.operand (d : Draft) (line slot : Nat) (kind : OperandKind) (t : Token) :
    Except Complaint (Draft × Int64) :=
  match kind with
  | .register => return (d, ← readRegister t)
  | .integer => return (d, ← readInteger t)
  | .literal => do
    let lit ← readLiteral t
    let (pool, n) := place d.pool lit (Literal.same · lit)
    return ({ d with pool }, n)
  | .symbol => do
    let name ← readSymbol t
    let (symbols, n) := place d.symbols name (· == name)
    return ({ d with symbols }, n)
  | .child =>
    match afterMark? '@' t with
    | some name =>
      let (references, n) := place d.references (line, name) (·.2 == name)
      .ok ({ d with references }, n)
    | none => .error (.childExpected t.text)
  | .label =>
    match t with
    | .word label =>
      match Text.readInt64? label with
      | some n => .ok (d, n)
      | none =>
        .ok ({ d with fixups := d.fixups.push ⟨line, d.code.size, slot, label⟩ }, 0)
    | _ => .error .labelExpected
  | .none => .error .operandUnsupported

/-- Reads operands for consecutive slots. -/
def Draft.operandsFrom (d : Draft) (line : Nat) :
    (slot : Nat) → List OperandKind → List Token → Except Complaint (Draft × List Int64)
  | slot, kind :: kinds, t :: ts => do
    let (d, n) ← d.operand line slot kind t
    let (d, ns) ← d.operandsFrom line (slot + 1) kinds ts
    return (d, n :: ns)
  | _, _, _ => .ok (d, [])

/-- The upper-case form of a word, as far as it is ASCII. Two letters outside ASCII
have their upper case there. -/
def upperCase (t : Text) : Text :=
  t.pieces.flatMap fun
    | .char c =>
      if c = 'ı' then [Text.byte 'I']
      else if c = 'ſ' then [Text.byte 'S']
      else (Text.encodeChar c).map Text.upperByte
    | .stray b => [b]

/-- Adds the instruction a line writes. -/
def Draft.instruction (d : Draft) (line : Nat) (head : Token) (args : List Token) :
    Except Complaint Draft :=
  match head with
  | .word name =>
    match Opcode.ofMnemonic? (upperCase name) with
    | none => .error (.opcodeUnknown name)
    | some op =>
      if args.length ≠ op.operands.length then
        .error (.operandCount op.mnemonic op.operands.length args.length)
      else do
        let (d, ns) ← d.operandsFrom line 0 op.operands args
        let i : Inst := { op, a := ns.getD 0 0, b := ns.getD 1 0, c := ns.getD 2 0 }
        return { d with code := d.code.push i }
  | _ => .error .opcodeExpected

/-- The instruction with another operand in a slot. -/
def setSlot (i : Inst) (slot : Nat) (n : Int64) : Inst :=
  match slot with
  | 0 => { i with a := n }
  | 1 => { i with b := n }
  | _ => { i with c := n }

/-- The code with every waiting operand filled in. -/
def Draft.resolve (d : Draft) : Except SyntaxError (Array Inst) :=
  d.fixups.foldlM (fun code f =>
    match d.labels.lookup f.label with
    | some pc => .ok (code.modify f.pc (setSlot · f.slot (Int64.ofNat pc)))
    | none => .error ⟨f.line, .undefinedLabel f.label⟩) d.code

end ObjectMachine.Assembly
