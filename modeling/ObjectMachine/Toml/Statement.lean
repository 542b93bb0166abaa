import ObjectMachine.Toml.Scalar

/-! The statements of a configuration document, one on a line: a header that opens a table,
a header that adds a table to an array of tables, or an entry that gives a key its value. -/

namespace ObjectMachine.Toml

inductive Statement
  | table (key : Key)
  | arrayTable (key : Key)
  | entry (key : Key) (value : Value)

/-! ### Keys -/

/-- Reads one name of a key. -/
def readName? : Text → Option (Text × Text)
  | [] => none
  | b :: rest =>
    if b == doubleQuote || b == singleQuote then readLine? b rest
    else
      let name := (b :: rest).takeWhile isBare
      if name.isEmpty then none else some (name, (b :: rest).drop name.length)

/-- Reads the names of a key up to the byte that closes it. Every name takes a byte. -/
def readNames? (close : UInt8) : (steps : Nat) → Text → Option (Path × Text)
  | 0, _ => none
  | steps + 1, t => do
    let (name, t) ← readName? (skipBlanks t)
    match skipBlanks t with
    | [] => none
    | b :: rest =>
      if b == close then return ([name], rest)
      else if b == Text.byte '.' then
        let (names, rest) ← readNames? close steps rest
        return (name :: names, rest)
      else none

def Key.ofPath? (p : Path) : Option Key := p.getLast?.map fun name => ⟨p.dropLast, name⟩

def readKey? (close : UInt8) (t : Text) : Option (Key × Text) := do
  let (names, rest) ← readNames? close (t.length + 1) t
  return (← Key.ofPath? names, rest)

/-! ### Values -/

mutual

/-- Reads a value. Every step takes a byte or comes before one that does. -/
def readValue? : (steps : Nat) → Text → Option (Value × Text)
  | 0, _ => none
  | steps + 1, t =>
    match skipBlanks t with
    | [] => none
    | b :: rest =>
      if b == Text.byte '[' then do
        let (items, rest) ← readItems? steps rest
        return (.array items, rest)
      else if b == Text.byte '\x7b' then do
        let (entries, rest) ← readEntries? steps rest
        return (.table entries, rest)
      else readScalar? (b :: rest)

/-- Reads the items of an array up to its closing bracket. -/
def readItems? : (steps : Nat) → Text → Option (List Value × Text)
  | 0, _ => none
  | steps + 1, t =>
    match skipFiller false t with
    | [] => none
    | b :: rest =>
      if b == Text.byte ']' then some ([], rest)
      else do
        let (item, t) ← readValue? steps (b :: rest)
        match skipFiller false t with
        | [] => none
        | c :: rest =>
          if c == Text.byte ']' then return ([item], rest)
          else if c == Text.byte ',' then
            let (items, rest) ← readItems? steps rest
            return (item :: items, rest)
          else none

/-- Reads the entries of a table in braces up to the closing one. -/
def readEntries? : (steps : Nat) → Text → Option (List (Key × Value) × Text)
  | 0, _ => none
  | steps + 1, t =>
    match skipFiller false t with
    | [] => none
    | b :: rest =>
      if b == Text.byte '\x7d' then some ([], rest)
      else do
        let (key, t) ← readKey? (Text.byte '=') (b :: rest)
        let (value, t) ← readValue? steps t
        match skipFiller false t with
        | [] => none
        | c :: rest =>
          if c == Text.byte '\x7d' then return ([(key, value)], rest)
          else if c == Text.byte ',' then
            let (entries, rest) ← readEntries? steps rest
            return ((key, value) :: entries, rest)
          else none

end

/-! ### Statements -/

/-- Reads a statement at its first byte. -/
def readStatement? (t : Text) : Option (Statement × Text) :=
  match t with
  | [] => none
  | b :: rest =>
    if b != Text.byte '[' then do
      let (key, rest) ← readKey? (Text.byte '=') t
      let (value, rest) ← readValue? (2 * rest.length + 1) rest
      return (.entry key value, rest)
    else if rest.head? == some (Text.byte '[') then do
      let (key, rest) ← readKey? (Text.byte ']') (rest.drop 1)
      return (.arrayTable key, ← expect? (Text.byte ']') rest)
    else do
      let (key, rest) ← readKey? (Text.byte ']') rest
      return (.table key, rest)

/-- Only blanks and a comment may follow on the line of a statement. -/
def endLine? (t : Text) : Option Text :=
  match skipBlanks t with
  | [] => some []
  | b :: rest => if isBreak b || b == Text.byte '#' then some (b :: rest) else none

/-- Reads all statements. Every one takes a byte. -/
def readStatements? : (steps : Nat) → Text → Option (List Statement)
  | 0, _ => none
  | steps + 1, t =>
    match skipFiller false t with
    | [] => some []
    | b :: rest => do
      let (statement, t) ← readStatement? (b :: rest)
      let statements ← readStatements? steps (← endLine? t)
      return statement :: statements

/-- The statements of a document. -/
def statements? (t : Text) : Option (List Statement) := do
  let t ← source? t
  readStatements? (t.length + 1) t

end ObjectMachine.Toml
