/-! Double-precision numbers as their 64-bit patterns. Rounding, comparison and the
conversions between formats are exact integer arithmetic on the fields of the
pattern, so that each of them can be stated and computed without a float unit. -/

namespace ObjectMachine

/-- A double-precision number, by its sign, exponent and fraction bits. -/
structure Double where
  bits : UInt64
  deriving DecidableEq

/-- A binary interchange format: the widths of its fraction and exponent fields. -/
structure BinaryFormat where
  fractionBits : Nat
  exponentBits : Nat

namespace BinaryFormat

def half : BinaryFormat := ⟨10, 5⟩
def single : BinaryFormat := ⟨23, 8⟩
def double : BinaryFormat := ⟨52, 11⟩

/-- The exponent of the unit of the smallest numbers. -/
def leastUnit (f : BinaryFormat) : Int := 2 - Nat.pow 2 (f.exponentBits - 1) - f.fractionBits

/-- The magnitude bits of infinity; those of NaNs are larger. -/
def infinity (f : BinaryFormat) : Nat := (Nat.pow 2 f.exponentBits - 1) * Nat.pow 2 f.fractionBits

/-- Position of the sign bit. -/
def signWeight (f : BinaryFormat) : Nat := Nat.pow 2 (f.fractionBits + f.exponentBits)

/-- A finite magnitude as `m · 2 ^ q`. -/
def scaled (f : BinaryFormat) (magnitude : Nat) : Nat × Int :=
  let exponent := magnitude / Nat.pow 2 f.fractionBits
  let fraction := magnitude % Nat.pow 2 f.fractionBits
  if exponent = 0 then (fraction, f.leastUnit)
  else (Nat.pow 2 f.fractionBits + fraction, f.leastUnit + (exponent - 1 : Nat))

/-- The magnitude bits of `m · 2 ^ q`, for a unit `q` of the format and an `m` that
fills the fraction field or, at the least unit, any smaller one. An `m` one past the
field carries into the exponent. -/
def packed (f : BinaryFormat) (m : Nat) (q : Int) : Nat :=
  (q - f.leastUnit).toNat * Nat.pow 2 f.fractionBits + m

end BinaryFormat

/-- The quotient rounded to the nearest integer, a half to the even one. -/
def divNearestEven (n d : Nat) : Nat :=
  let k := n / d
  let r := n % d
  if 2 * r < d then k
  else if d < 2 * r then k + 1
  else if k % 2 = 0 then k else k + 1

namespace BinaryFormat

/-- The ratio `n / d` divided by `2 ^ q`. -/
def inUnits (n d : Nat) (q : Int) : Nat × Nat :=
  if q < 0 then (n * Nat.pow 2 q.natAbs, d) else (n, d * Nat.pow 2 q.natAbs)

/-- The magnitude nearest to the ratio `n / d`, a half to the even one; from half a
unit above the largest finite magnitude on it is infinity. -/
def nearest (f : BinaryFormat) (n d : Nat) : Nat :=
  if n = 0 then 0
  else
    let guess : Int := max ((n.log2 : Int) - d.log2 - f.fractionBits - 1) f.leastUnit
    let (a, b) := inUnits n d guess
    let unit := if Nat.pow 2 (f.fractionBits + 1) ≤ a / b then guess + 1 else guess
    let (a, b) := inUnits n d unit
    min (f.packed (divNearestEven a b) unit) f.infinity

end BinaryFormat

namespace Double

def ofMagnitude (negative : Bool) (magnitude : Nat) : Double :=
  ⟨(if negative then BinaryFormat.double.signWeight + magnitude else magnitude).toUInt64⟩

def isNegative (x : Double) : Bool := Nat.pow 2 63 ≤ x.bits.toNat

def magnitude (x : Double) : Nat := x.bits.toNat % Nat.pow 2 63

def isNaN (x : Double) : Bool := BinaryFormat.double.infinity < x.magnitude

def isInfinite (x : Double) : Bool := x.magnitude == BinaryFormat.double.infinity

/-- Zero of either sign. -/
def isZero (x : Double) : Bool := x.magnitude == 0

def zero : Double := ⟨0⟩

def nan : Double := ⟨0x7FF8000000000001⟩

def infinity (negative : Bool) : Double := ofMagnitude negative BinaryFormat.double.infinity

/-- The double nearest to the ratio `n / d`, a half to the even one. -/
def ofRatio (negative : Bool) (n d : Nat) : Double :=
  ofMagnitude negative (BinaryFormat.double.nearest n d)

/-- The double nearest to an integer, a half to the even one. -/
def ofInt (n : Int) : Double := ofRatio (n < 0) n.natAbs 1

/-- An integer in the order of the numbers, the zeros together. -/
def rank (x : Double) : Int := if x.isNegative then -(x.magnitude : Int) else x.magnitude

/-- The sign of the comparison of two numbers; a NaN is neither below nor above. -/
def order (x y : Double) : Ordering :=
  if x.isNaN || y.isNaN then .eq else compare x.rank y.rank

/-- Numeric equality: the zeros are equal and a NaN differs from everything. -/
def same (x y : Double) : Bool := !x.isNaN && !y.isNaN && x.rank == y.rank

/-- The double with the value of a pattern of a narrower format. -/
def widen (f : BinaryFormat) (pattern : Nat) : Double :=
  let negative := f.signWeight ≤ pattern
  let magnitude := pattern % f.signWeight
  if f.infinity < magnitude then nan
  else if magnitude = f.infinity then infinity negative
  else
    let (m, q) := f.scaled magnitude
    let (n, d) := BinaryFormat.inUnits m 1 (-q)
    ofRatio negative n d

/-- The pattern of a narrower format with the value of a finite number, if there is one. -/
def narrow? (f : BinaryFormat) (x : Double) : Option Nat :=
  let (m, q) := BinaryFormat.double.scaled x.magnitude
  let unit : Int := max (q + m.log2 - f.fractionBits) f.leastUnit
  let (n, d) := BinaryFormat.inUnits m 1 (unit - q)
  let magnitude := f.packed (n / d) unit
  if n % d = 0 ∧ magnitude < f.infinity then
    some (if x.isNegative then f.signWeight + magnitude else magnitude)
  else none

end Double

end ObjectMachine
