import ObjectMachine.Double

/-! The fewest decimal digits that read back as a given double. The doubles' neighbours
bound the decimals that round to it; on each decimal grid, coarsest first, only the two
points around the value have to be tested. -/

namespace ObjectMachine.Double

/-- A positive decimal number `digits · 10 ^ exponent`. -/
structure Decimal where
  digits : Nat
  exponent : Int
  deriving DecidableEq

/-- The decimals that round to a positive finite double: four times the double and
the two ends of the interval, in units of a quarter of the double's own unit. -/
structure Rounding where
  value : Nat
  low : Nat
  high : Nat
  /-- Exponent of two of the quarter unit. -/
  unit : Int
  /-- Whether the ends themselves round to the double. -/
  closed : Bool

/-- Below a power of two the gap to the next smaller double is half as wide. -/
def rounding (magnitude : Nat) : Rounding :=
  let (m, q) := BinaryFormat.double.scaled magnitude
  let narrow := m = Nat.pow 2 52 ∧ Nat.pow 2 53 ≤ magnitude
  { value := 4 * m
    low := if narrow then 4 * m - 1 else 4 * m - 2
    high := 4 * m + 2
    unit := q - 2
    closed := m % 2 == 0 }

/-- The numbers `n · 2 ^ a` and `k · 10 ^ b` over a common denominator. -/
def aligned (n : Nat) (a : Int) (k : Nat) (b : Int) : Nat × Nat :=
  let two := fun (e : Int) => if e < 0 then (1, Nat.pow 2 e.natAbs) else (Nat.pow 2 e.natAbs, 1)
  let ten := fun (e : Int) => if e < 0 then (1, Nat.pow 10 e.natAbs) else (Nat.pow 10 e.natAbs, 1)
  let (an, ad) := two a
  let (bn, bd) := ten b
  (n * an * bd, k * bn * ad)

/-- Whether `k · 10 ^ e` rounds to the double. -/
def Rounding.admits (r : Rounding) (k : Nat) (e : Int) : Bool :=
  let (low, x) := aligned r.low r.unit k e
  let (high, y) := aligned r.high r.unit k e
  if r.closed then low ≤ x && y ≤ high else low < x && y < high

/-- The point of the grid of `10 ^ e` that shows the double: the nearer of the two
around it that round to it, the even one when both are equally near. -/
def Rounding.onGrid? (r : Rounding) (e : Int) : Option Nat :=
  let (v, ten) := aligned r.value r.unit 1 e
  let k := v / ten
  match r.admits k e, r.admits (k + 1) e with
  | true, true => some (divNearestEven v ten)
  | true, false => some k
  | false, true => some (k + 1)
  | false, false => none

/-- Tries grids of `10 ^ e` and finer ones in turn. -/
def Rounding.firstGrid (r : Rounding) : (grids : Nat) → (e : Int) → Decimal
  | 0, e =>
    let (v, ten) := aligned r.value r.unit 1 e
    ⟨divNearestEven v ten, e⟩
  | grids + 1, e =>
    match r.onGrid? e with
    | some k => ⟨k, e⟩
    | none => r.firstGrid grids (e - 1)

/-- Drops trailing zeros of the digits. -/
def Decimal.trimmed : (steps : Nat) → Decimal → Decimal
  | 0, d => d
  | steps + 1, d =>
    if d.digits % 10 = 0 ∧ d.digits ≠ 0 then trimmed steps ⟨d.digits / 10, d.exponent + 1⟩
    else d

/-- The position of the first digit of a double, or the one above it. -/
def leadEstimate (magnitude : Nat) : Int :=
  let (m, q) := BinaryFormat.double.scaled magnitude
  ((q + m.log2) * 30103) / 100000 + 1

/-- The shortest decimal that reads back as a positive finite magnitude. -/
def shortest (magnitude : Nat) : Decimal :=
  ((rounding magnitude).firstGrid 20 (leadEstimate magnitude)).trimmed 20

end ObjectMachine.Double
