import ObjectMachine.Cbor.Reading
import ObjectMachine.Code.Block
import ObjectMachine.Text.Utf8

/-! Typed values in data items. Tags are passed over, null and undefined stand for the
zero of any type, and a record takes the first entry of each key. -/

namespace ObjectMachine.Image

open Cbor

/-- The number in the bytes of a big integer. -/
def bigNumber (t : Text) : Nat := t.foldl (fun n b => 256 * n + b.toNat) 0

/-- The item under its tags. Dates, times and big integers must have content of their
kind, and a big integer must fit a plain one. -/
def untag? : Item → Option Item
  | .tag 0 (.text chunks) => some (.text chunks)
  | .tag 0 _ => none
  | .tag 1 (.unsigned n) => some (.unsigned n)
  | .tag 1 (.negative n) => some (.negative n)
  | .tag 1 (.float x) => some (.float x)
  | .tag 1 _ => none
  | .tag 2 (.bytes t) => if bigNumber t < Nat.pow 2 64 then some (.unsigned (bigNumber t)) else none
  | .tag 2 _ => none
  | .tag 3 (.bytes t) => if bigNumber t < Nat.pow 2 63 then some (.negative (bigNumber t)) else none
  | .tag 3 _ => none
  | .tag _ content => untag? content
  | item => some item

/-- Null and undefined. -/
def isNull : Item → Bool
  | .simple n => n == 22 || n == 23
  | _ => false

/-- The integer an item stands for; a simple value without a meaning counts as its number. -/
def integer? : Item → Option Int
  | .unsigned n => some n
  | .negative n => if n < Nat.pow 2 63 then some (-1 - n) else none
  | .simple n => if n == 20 || n == 21 then none else some n
  | _ => none

/-- An integer field between bounds. -/
def integerField (low high : Int) (item : Item) : Option Int := do
  let item ← untag? item
  if isNull item then return 0
  let n ← integer? item
  if low ≤ n ∧ n ≤ high then return n else none

def int64Field (item : Item) : Option Int64 :=
  (integerField Int64.minValue.toInt Int64.maxValue.toInt item).map Int64.ofInt

def byteField (item : Item) : Option UInt8 :=
  (integerField 0 255 item).map fun n => n.toNat.toUInt8

/-- A float field; integers are taken as floats. -/
def floatField (item : Item) : Option Double := do
  let item ← untag? item
  if isNull item then return .zero
  match item with
  | .float x => return x
  | item => (integer? item).map Double.ofInt

/-- The bytes of a text whose chunks are all valid. -/
def validText? (chunks : List Text) : Option Text :=
  if chunks.all (·.isValid) then some chunks.flatten else none

def textField (item : Item) : Option Text := do
  let item ← untag? item
  if isNull item then return []
  match item with
  | .text chunks => validText? chunks
  | _ => none

def listField {α : Type} (element : Item → Option α) (item : Item) : Option (List α) := do
  let item ← untag? item
  if isNull item then return []
  match item with
  | .array items => items.mapM element
  | _ => none

/-- The entries of a map. -/
def entries : List Item → List (Item × Item)
  | key :: value :: rest => (key, value) :: entries rest
  | _ => []

/-- The field number a key names: an integer, or the same number as text. Other kinds of
keys are refused; a key out of range names no field. -/
def fieldNumber? : Item → Option (Option Nat)
  | .unsigned n => some (some n)
  | .negative n => if n < Nat.pow 2 63 then some none else none
  | .text chunks => do
    let name ← validText? chunks
    match name with
    | [b] => return if Text.isDigit b then some (b.toNat - 48) else none
    | _ => return none
  | _ => none

/-- The numbered fields of a record. -/
def record? (item : Item) : Option (List (Nat × Item)) := do
  let item ← untag? item
  if isNull item then return []
  match item with
  | .map items =>
    let fields ← (entries items).mapM fun (key, value) => do
      let number ← fieldNumber? key
      return number.map (·, value)
    return fields.filterMap id
  | _ => none

/-- A field of a record, `zero` when it is missing. -/
def field {α : Type} (fields : List (Nat × Item)) (number : Nat) (zero : α)
    (read : Item → Option α) : Option α :=
  match fields.lookup number with
  | some item => read item
  | none => some zero

end ObjectMachine.Image
