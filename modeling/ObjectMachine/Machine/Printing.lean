import ObjectMachine.Double.Written
import ObjectMachine.Machine.Class
import ObjectMachine.Text.Quoted

/-! Values as text: the form for inspection, the plain form, and the form that needs no
symbol table. -/

namespace ObjectMachine.Machine

/-- A byte of an inspected string; bytes outside printable ASCII show their number. -/
def inspectByte (b : UInt8) : Text :=
  if b < 32 || 0x7F ≤ b then
    [Text.byte '\\', Text.byte 'x'] ++ (Text.hexDigits 2 b.toNat).map Text.upperByte
  else [b]

/-- A number in at least eight hexadecimal digits. -/
def serialText (n : Nat) : Text := Text.hexDigits (max 8 (n.log2 / 4 + 1)) n

/-- The form shared by both ways of printing. -/
def plain (m : Machine) (v : Value) : Text :=
  match v with
  | .empty | .nil => []
  | .bool false => "false"
  | .bool true => "true"
  | .int n => Text.ofInt64 n
  | .float x => x.write
  | .symbol s => m.symbols.name s
  | .cls c => m.className c
  | .object _ => "#<" ++ m.className (m.classOf v) ++ ":" ++ serialText v.serial ++ ">"
  | .proc _ => "#<Proc:" ++ serialText v.serial ++ ">"
  | .string _ => m.memory.bytesOf v

/-- The form for inspection: nil is shown, symbols are marked and strings are quoted. -/
def inspect (m : Machine) (v : Value) : Text :=
  match v with
  | .nil => "nil"
  | .symbol s =>
    let name := m.symbols.name s
    if name.contains (Text.byte ':') then "\":" ++ name ++ "\""
    else Text.byte ':' :: name
  | .string _ => "\"" ++ (m.memory.bytesOf v).flatMap inspectByte ++ "\""
  | v => m.plain v

/-- The form for debugging. -/
def debugForm (m : Machine) (v : Value) : Text :=
  match v with
  | .int n => Text.ofInt64 n
  | .float x => x.write
  | .symbol s => "sym(" ++ Text.ofNat s ++ ")"
  | .cls c => m.className c
  | .string _ => (m.memory.bytesOf v).quote
  | .object _ | .proc _ => v.kind.name ++ "#" ++ Text.ofNat v.serial
  | v => v.kind.name

/-- The pool's counters as lines of text. -/
def memoryStatistics (m : Machine) : Text :=
  let p := m.memory.pool
  "Memory Statistics\n"
    ++ "  Total : " ++ Text.ofInt64 p.size ++ "\n"
    ++ "  Used  : " ++ Text.ofInt64 p.used ++ "\n"
    ++ "  Free  : " ++ Text.ofInt64 p.free ++ "\n"
    ++ "  Peak  : " ++ Text.ofInt64 p.peak ++ "\n"
    ++ "  Pinned: " ++ Text.ofInt64 p.pinned ++ "\n"
    ++ "  Live  : " ++ Text.ofInt m.memory.live ++ "\n"

end ObjectMachine.Machine
