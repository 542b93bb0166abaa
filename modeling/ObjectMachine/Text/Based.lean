import ObjectMachine.Double.Reading
import ObjectMachine.Text.Decimal

/-! Integers in any of four bases. A mark after a leading zero names base two, eight or
sixteen, a leading zero alone means base eight, and underscores may separate digits. -/

namespace ObjectMachine.Text

/-- Why a text is no 64-bit integer. -/
inductive IntegerError
  | malformed
  | outOfRange
  deriving DecidableEq

/-- The value of a digit in bases up to thirty-six. -/
def digitValue? (b : UInt8) : Option Nat :=
  let lower := lowerByte b
  if isDigit b then some (b.toNat - 48)
  else if 97 ≤ lower && lower ≤ 122 then some (lower.toNat - 87)
  else none

/-- Reads digits from the left; underscores are passed over. The first digit that takes
the value past 64 bits settles the matter, whatever comes after it. -/
def readDigits (base : Nat) : (value : Nat) → Text → Except IntegerError Nat
  | value, [] => .ok value
  | value, b :: rest =>
    if b == byte '_' then readDigits base value rest
    else match digitValue? b with
      | none => .error .malformed
      | some digit =>
        if base ≤ digit then .error .malformed
        else if Nat.pow 2 64 ≤ base * value + digit then .error .outOfRange
        else readDigits base (base * value + digit) rest

/-- The base of an unsigned number and its text after the mark. -/
def splitMark : Text → Nat × Text
  | z :: x :: d :: rest =>
    let mark := lowerByte x
    if z != byte '0' then (10, z :: x :: d :: rest)
    else if mark == byte 'b' then (2, d :: rest)
    else if mark == byte 'o' then (8, d :: rest)
    else if mark == byte 'x' then (16, d :: rest)
    else (8, x :: d :: rest)
  | z :: rest => if z == byte '0' then (8, rest) else (10, z :: rest)
  | [] => (10, [])

/-- Reads a signed integer of any of the bases. -/
def readBased (t : Text) : Except IntegerError Int64 := do
  let (negative, unsigned) := splitSign t
  if unsigned.isEmpty then throw .malformed
  let (base, digits) := splitMark unsigned
  let n ← readDigits base 0 digits
  if unsigned.contains (byte '_') && !Double.underscoresSeparate unsigned then
    throw .malformed
  match int64OfInt? (if negative then -(n : Int) else n) with
  | some value => return value
  | none => throw .outOfRange

end ObjectMachine.Text
