import ObjectMachine.Text.Decimal

/-! The values of settings of a profile store. A setting is a number, decimal or with
`0x` hexadecimal, or a word that says yes or no. Numbers that do not fit are no numbers. -/

namespace ObjectMachine.ProfileStore

/-- The largest number of a setting. -/
def maxSetting : Nat := 2147483647

def isHexDigit (b : UInt8) : Bool := (Text.hexValue? b).isSome

/-- The value of hexadecimal digits. -/
def hexNumber (digits : Text) : Nat :=
  digits.foldl (fun n b => 16 * n + (Text.hexValue? b).getD 0) 0

/-- The hexadecimal digits a text starts with, after their mark; none without a digit. -/
def hexPart? : Text → Option Text
  | zero :: mark :: rest =>
    let digits := rest.takeWhile isHexDigit
    if zero == Text.byte '0' && Text.lowerByte mark == Text.byte 'x' && !digits.isEmpty then
      some digits
    else none
  | _ => none

/-- The number a text starts with. A sign may stand before decimal digits alone. -/
def leadingNumber? (t : Text) : Option Int :=
  match hexPart? t with
  | some digits =>
    let n := hexNumber digits
    if n ≤ maxSetting then some n else none
  | none => do
    let (negative, rest) := Text.splitSign t
    let n ← Text.readNat? (rest.takeWhile Text.isDigit)
    if negative then
      if n ≤ maxSetting + 1 then some (-(n : Int)) else none
    else if n ≤ maxSetting then some (n : Int) else none

/-- A text that is a number and nothing else. -/
def wholeNumber? (t : Text) : Option Nat :=
  match hexPart? t with
  | some digits => if digits.length + 2 = t.length then some (hexNumber digits) else none
  | none => Text.readNat? t

/-- Whether a word says yes: a number whose low byte is not zero, or such a word in any
case. -/
def isYes (word : Text) : Bool :=
  if (word.head?.map Text.isDigit).getD false then
    ((leadingNumber? word).getD 0) % 256 != 0
  else
    [Text.ofString "on", Text.ofString "yes", Text.ofString "true"].contains
      (word.map Text.lowerByte)

end ObjectMachine.ProfileStore
