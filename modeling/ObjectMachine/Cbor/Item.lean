import ObjectMachine.Double
import ObjectMachine.Text

/-! Items of the concise binary object representation, and their canonical encoding:
shortest heads, definite lengths, and floats in the narrowest format that keeps their
value. -/

namespace ObjectMachine.Cbor

/-- A data item. A text keeps the chunks it was written in, and a map its keys and values
in one alternating list. -/
inductive Item
  | unsigned (n : Nat)
  /-- The integer `-1 - n`. -/
  | negative (n : Nat)
  | bytes (t : Text)
  | text (chunks : List Text)
  | array (items : List Item)
  | map (entries : List Item)
  | tag (number : Nat) (content : Item)
  /-- Booleans are 20 and 21, null and undefined 22 and 23. -/
  | simple (n : Nat)
  | float (x : Double)

/-- The `width` bytes of a number, most significant first. -/
def bigEndian : (width : Nat) → Nat → Text
  | 0, _ => []
  | width + 1, n => bigEndian width (n / 256) ++ [(n % 256).toUInt8]

/-- An initial byte with the shortest argument. -/
def head (major n : Nat) : Text :=
  let first := fun (low : Nat) => (32 * major + low).toUInt8
  if n < 24 then [first n]
  else if n < 256 then first 24 :: bigEndian 1 n
  else if n < 65536 then first 25 :: bigEndian 2 n
  else if n < 4294967296 then first 26 :: bigEndian 4 n
  else first 27 :: bigEndian 8 n

def writeFloat (x : Double) : Text :=
  if x.isNaN then [0xF9, 0x7E, 0x00]
  else if x.isInfinite then [0xF9, if x.isNegative then 0xFC else 0x7C, 0x00]
  else match x.narrow? .half, x.narrow? .single with
    | some n, _ => 0xF9 :: bigEndian 2 n
    | none, some n => 0xFA :: bigEndian 4 n
    | none, none => 0xFB :: bigEndian 8 x.bits.toNat

mutual

def Item.write : Item → Text
  | .unsigned n => head 0 n
  | .negative n => head 1 n
  | .bytes t => head 2 t.length ++ t
  | .text chunks => head 3 chunks.flatten.length ++ chunks.flatten
  | .array items => head 4 items.length ++ writeAll items
  | .map entries => head 5 (entries.length / 2) ++ writeAll entries
  | .tag number content => head 6 number ++ content.write
  | .simple n => head 7 n
  | .float x => writeFloat x

def writeAll : List Item → Text
  | [] => []
  | item :: rest => item.write ++ writeAll rest

end

/-- An integer of either sign. -/
def Item.ofInt (n : Int) : Item :=
  if n < 0 then .negative (n.natAbs - 1) else .unsigned n.natAbs

def Item.ofText (t : Text) : Item := .text [t]

end ObjectMachine.Cbor
