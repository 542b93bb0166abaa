/-! Text is a sequence of bytes. Nothing here assumes that it is well-formed UTF-8:
names, literals and console output may hold any bytes at all, and all orders and
searches are bytewise. -/

namespace ObjectMachine

abbrev Text := List UInt8

namespace Text

/-- The UTF-8 bytes of a string. -/
def ofString (s : String) : Text := s.toUTF8.data.toList

instance : Coe String Text := ⟨ofString⟩

/-- The byte of an ASCII character; other characters are cut to their low byte. -/
def byte (c : Char) : UInt8 := c.toNat.toUInt8

/-- Whether a text holds one of the given bytes. -/
def containsAny (t : Text) (bytes : Text) : Bool := t.any bytes.contains

/-- Drops `lead` from the front when it is there. -/
def dropLead (lead t : Text) : Text :=
  if lead.isPrefixOf t then t.drop lead.length else t

/-- Drops `tail` from the end when it is there. -/
def dropTail (tail t : Text) : Text :=
  if tail.isSuffixOf t then t.take (t.length - tail.length) else t

/-- The parts of a text between the bytes `sep`; a text without one is its only part. -/
def splitOn (sep : UInt8) : Text → List Text
  | [] => [[]]
  | b :: rest =>
    if b == sep then [] :: splitOn sep rest
    else match splitOn sep rest with
      | [] => [[b]]
      | part :: parts => (b :: part) :: parts

/-- The text before the first `sep` and the text after it. -/
def cut (sep : UInt8) : Text → Option (Text × Text)
  | [] => none
  | b :: rest =>
    if b == sep then some ([], rest)
    else (cut sep rest).map fun (before, after) => (b :: before, after)

/-- The texts one after another with `sep` between them. -/
def join (sep : Text) : List Text → Text
  | [] => []
  | [t] => t
  | t :: u :: rest => t ++ sep ++ join sep (u :: rest)

/-- The bytewise order. -/
def order : Text → Text → Ordering
  | [], [] => .eq
  | [], _ :: _ => .lt
  | _ :: _, [] => .gt
  | a :: s, b :: t => if a < b then .lt else if b < a then .gt else order s t

def precedes (s t : Text) : Bool := order s t == .lt

/-- At most as large in the bytewise order. -/
def atMost (s t : Text) : Bool := order s t != .gt

/-- The lower-case digit of a value below sixteen. -/
def hexDigit (n : Nat) : UInt8 :=
  if n < 10 then (48 + n).toUInt8 else (87 + n).toUInt8

/-- The value of a hexadecimal digit in either case. -/
def hexValue? (b : UInt8) : Option Nat :=
  if 48 ≤ b && b ≤ 57 then some (b.toNat - 48)
  else if 97 ≤ b && b ≤ 102 then some (b.toNat - 87)
  else if 65 ≤ b && b ≤ 70 then some (b.toNat - 55)
  else none

/-- The last `width` lower-case hexadecimal digits of `n`. -/
def hexDigits : (width : Nat) → (n : Nat) → Text
  | 0, _ => []
  | width + 1, n => hexDigits width (n / 16) ++ [hexDigit (n % 16)]

/-- Each byte as two hexadecimal digits. -/
def toHex (t : Text) : Text := t.flatMap fun b => hexDigits 2 b.toNat

/-- Reads pairs of hexadecimal digits. -/
def ofHex? : Text → Option Text
  | [] => some []
  | [_] => none
  | a :: b :: rest => do
    let high ← hexValue? a
    let low ← hexValue? b
    let bytes ← ofHex? rest
    return (16 * high + low).toUInt8 :: bytes

def spaces (n : Nat) : Text := List.replicate n 32

/-- Whether a code point is in one of some closed ranges. -/
def inRanges (ranges : List (Nat × Nat)) (c : Char) : Bool :=
  ranges.any fun (low, high) => low ≤ c.toNat && c.toNat ≤ high

def isDigit (b : UInt8) : Bool := 48 ≤ b && b ≤ 57

/-- The lower-case form of an ASCII letter; other bytes stay. -/
def lowerByte (b : UInt8) : UInt8 := if 65 ≤ b && b ≤ 90 then b + 32 else b

/-- The upper-case form of an ASCII letter; other bytes stay. -/
def upperByte (b : UInt8) : UInt8 := if 97 ≤ b && b ≤ 122 then b - 32 else b

end Text

end ObjectMachine
