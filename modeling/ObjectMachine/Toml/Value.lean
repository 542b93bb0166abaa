import ObjectMachine.Double
import ObjectMachine.Text

/-! Keys and values of configuration documents. -/

namespace ObjectMachine.Toml

/-- The names that lead from the top of a document to a table or a value. -/
abbrev Path := List Text

/-- A key: the last name and those before its last dot. -/
structure Key where
  parents : Path
  name : Text
  deriving DecidableEq

def Key.path (k : Key) : Path := k.parents ++ [k.name]

inductive Value
  | text (t : Text)
  | integer (n : Int64)
  | float (x : Double)
  | bool (b : Bool)
  /-- A date, a time of day or both, as it was written. -/
  | time (written : Text)
  | array (items : List Value)
  /-- A table in braces. -/
  | table (entries : List (Key × Value))

def Value.isArray : Value → Bool
  | array _ => true
  | _ => false

/-- Letters, digits, underscores and hyphens need no quotes in names. -/
def isBare (b : UInt8) : Bool :=
  Text.isDigit b || (65 ≤ b && b ≤ 90) || (97 ≤ b && b ≤ 122)
    || b == Text.byte '_' || b == Text.byte '-'

def escapeByte (b : UInt8) : Text :=
  if b == Text.byte '"' then "\\\""
  else if b == Text.byte '\\' then "\\\\"
  else if b == 8 then "\\b"
  else if b == 9 then "\\t"
  else if b == 10 then "\\n"
  else if b == 12 then "\\f"
  else if b == 13 then "\\r"
  else if b < 32 || b == 127 then "\\u" ++ Text.hexDigits 4 b.toNat
  else [b]

/-- A name as it stands in a key, in quotes when it needs them. -/
def writeName (name : Text) : Text :=
  if !name.isEmpty && name.all isBare then name
  else [Text.byte '"'] ++ name.flatMap escapeByte ++ [Text.byte '"']

def Path.write (p : Path) : Text := Text.join "." (p.map writeName)

end ObjectMachine.Toml
