import ObjectMachine.Text

/-! Decimal integers in texts. A written integer has its shortest form; a read one may
carry a sign and leading zeros and must fit 64 bits. -/

namespace ObjectMachine.Text

def ofNat (n : Nat) : Text := (Nat.toDigits 10 n).map byte

def ofInt (n : Int) : Text :=
  if n < 0 then byte '-' :: ofNat n.natAbs else ofNat n.natAbs

def ofInt64 (n : Int64) : Text := ofInt n.toInt

/-- The value of a text of decimal digits, at least one. -/
def readNat? (t : Text) : Option Nat :=
  if t.isEmpty || !t.all isDigit then none
  else some (t.foldl (fun n b => 10 * n + (b.toNat - 48)) 0)

/-- Splits a leading sign off: whether it is a minus, and the rest. -/
def splitSign : Text → Bool × Text
  | b :: rest =>
    if b == byte '-' then (true, rest)
    else if b == byte '+' then (false, rest)
    else (false, b :: rest)
  | [] => (false, [])

/-- The 64-bit value of a mathematical integer in range. -/
def int64OfInt? (n : Int) : Option Int64 :=
  if Int64.minValue.toInt ≤ n ∧ n ≤ Int64.maxValue.toInt then some (Int64.ofInt n) else none

/-- Reads a decimal integer that fits 64 bits. -/
def readInt64? (t : Text) : Option Int64 := do
  let (negative, digits) := splitSign t
  let n ← readNat? digits
  int64OfInt? (if negative then -(n : Int) else n)

end ObjectMachine.Text
