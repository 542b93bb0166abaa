import ObjectMachine.Double.Shortest
import ObjectMachine.Text.Decimal

/-! Doubles written as text: the fewest digits that read back, in positional notation
between two exponents and in scientific notation outside them. -/

namespace ObjectMachine.Double

/-- The choices of a number format that the digits leave open. -/
structure NumberStyle where
  /-- The least exponent of the first digit that is written positionally. -/
  least : Int
  /-- The first larger exponent that is not. -/
  limit : Int
  /-- The least number of exponent digits. -/
  exponentDigits : Nat

/-- Numbers from `0.0001` to below a million are written positionally, and exponents
have at least two digits. -/
def standard : NumberStyle := ⟨-4, 6, 2⟩

/-- A point with `digits` after it, nothing when there are none. -/
def fractionPart (digits : Text) : Text :=
  if digits.isEmpty then [] else Text.byte '.' :: digits

def writePositional (digits : Text) (lead : Int) : Text :=
  if lead < 0 then
    Text.byte '0' :: fractionPart (List.replicate (lead.natAbs - 1) (Text.byte '0') ++ digits)
  else
    let whole := lead.natAbs + 1
    digits.take whole ++ List.replicate (whole - digits.length) (Text.byte '0')
      ++ fractionPart (digits.drop whole)

def writeScientific (n : NumberStyle) (digits : Text) (lead : Int) : Text :=
  let exponent := Text.ofNat lead.natAbs
  digits.take 1 ++ fractionPart (digits.drop 1)
    ++ [Text.byte 'e', Text.byte (if lead < 0 then '-' else '+')]
    ++ List.replicate (n.exponentDigits - exponent.length) (Text.byte '0') ++ exponent

def Decimal.write (n : NumberStyle) (d : Decimal) : Text :=
  let digits := Text.ofNat d.digits
  let lead := d.exponent + (digits.length - 1 : Nat)
  if n.least ≤ lead ∧ lead < n.limit then writePositional digits lead
  else writeScientific n digits lead

/-- The text of a double. Only infinity shows a plus sign, and NaNs show none. -/
def write (x : Double) : Text :=
  if x.isNaN then "NaN"
  else if x.isInfinite then (if x.isNegative then "-Inf" else "+Inf")
  else
    let sign : Text := if x.isNegative then [Text.byte '-'] else []
    if x.isZero then sign ++ [Text.byte '0']
    else sign ++ (shortest x.magnitude).write standard

end ObjectMachine.Double
