import ObjectMachine.Cbor.Item

/-! Well-formed items read from bytes. Arguments need not be shortest and strings, arrays
and maps may have indefinite length. Nesting and element counts are limited. -/

namespace ObjectMachine.Cbor

def maxNesting : Nat := 32

def maxElements : Nat := 131072

/-- The number in the first `width` bytes, and the rest. -/
def readBigEndian? : (width : Nat) → (value : Nat) → Text → Option (Nat × Text)
  | 0, value, rest => some (value, rest)
  | _ + 1, _, [] => none
  | width + 1, value, b :: rest => readBigEndian? width (256 * value + b.toNat) rest

/-- The argument of an item: a number, or the mark of an indefinite length. -/
inductive Argument
  | number (n : Nat)
  | indefinite

/-- Reads the initial byte and its argument: the major type, the low bits of the byte,
the argument and the rest. -/
def readHead? : Text → Option (Nat × Nat × Argument × Text)
  | [] => none
  | b :: rest => do
    let major := b.toNat / 32
    let low := b.toNat % 32
    let sized := fun (width : Nat) => do
      let (n, rest) ← readBigEndian? width 0 rest
      return (major, low, Argument.number n, rest)
    if low < 24 then return (major, low, .number low, rest)
    else if low = 24 then
      let (_, _, argument, after) ← sized 1
      match argument with
      | .number n => if major = 7 ∧ n < 32 then none else return (major, low, argument, after)
      | .indefinite => none
    else if low = 25 then sized 2
    else if low = 26 then sized 4
    else if low = 27 then sized 8
    else if low = 31 ∧ 2 ≤ major ∧ major ≤ 5 then return (major, low, .indefinite, rest)
    else none

/-- Exactly `n` bytes, and the rest. -/
def takeBytes? (n : Nat) (t : Text) : Option (Text × Text) :=
  let bytes := t.take n
  if bytes.length < n then none else some (bytes, t.drop n)

/-- The definite-length chunks of an indefinite string, up to the break. -/
def readChunks? (major : Nat) : (steps : Nat) → Text → Option (List Text × Text)
  | 0, _ => none
  | steps + 1, t =>
    match t with
    | 0xFF :: rest => some ([], rest)
    | _ => do
      let (chunkMajor, _, argument, rest) ← readHead? t
      match argument with
      | .number n =>
        if chunkMajor ≠ major then none
        else
          let (chunk, rest) ← takeBytes? n rest
          let (chunks, rest) ← readChunks? major steps rest
          return (chunk :: chunks, rest)
      | .indefinite => none

/-- The value of major type 7. -/
def readSimple (low n : Nat) : Item :=
  if low = 25 then .float (Double.widen .half n)
  else if low = 26 then .float (Double.widen .single n)
  else if low = 27 then .float ⟨n.toUInt64⟩
  else .simple n

mutual

/-- Reads one item inside `depth` arrays, maps and tags. Every step takes a byte or
comes before one that does. -/
def readItem? : (steps : Nat) → (depth : Nat) → Text → Option (Item × Text)
  | 0, _, _ => none
  | steps + 1, depth, t => do
    let (major, low, argument, rest) ← readHead? t
    match major, argument with
    | 0, .number n => return (.unsigned n, rest)
    | 1, .number n => return (.negative n, rest)
    | 2, .number n =>
      let (bytes, rest) ← takeBytes? n rest
      return (.bytes bytes, rest)
    | 2, .indefinite =>
      let (chunks, rest) ← readChunks? 2 steps rest
      return (.bytes chunks.flatten, rest)
    | 3, .number n =>
      let (bytes, rest) ← takeBytes? n rest
      return (.text [bytes], rest)
    | 3, .indefinite =>
      let (chunks, rest) ← readChunks? 3 steps rest
      return (.text chunks, rest)
    | 4, .number n =>
      if maxNesting ≤ depth ∨ maxElements < n then none
      else
        let (items, rest) ← readItems? steps (depth + 1) n rest
        return (.array items, rest)
    | 4, .indefinite =>
      if maxNesting ≤ depth then none
      else
        let (items, rest) ← readUntilBreak? steps (depth + 1) rest
        if maxElements < items.length then none else return (.array items, rest)
    | 5, .number n =>
      if maxNesting ≤ depth ∨ maxElements < n then none
      else
        let (entries, rest) ← readItems? steps (depth + 1) (2 * n) rest
        return (.map entries, rest)
    | 5, .indefinite =>
      if maxNesting ≤ depth then none
      else
        let (entries, rest) ← readUntilBreak? steps (depth + 1) rest
        if maxElements < entries.length / 2 ∨ entries.length % 2 = 1 then none
        else return (.map entries, rest)
    | 6, .number n =>
      -- The first of several tags in a row does not count as a level.
      let nested := (rest.head?.map (·.toNat / 32)) == some 6
      if nested ∧ maxNesting ≤ depth then none
      else
        let (content, rest) ← readItem? steps (if nested then depth + 1 else depth) rest
        return (.tag n content, rest)
    | 7, .number n => return (readSimple low n, rest)
    | _, _ => none

def readItems? : (steps : Nat) → (depth count : Nat) → Text → Option (List Item × Text)
  | _, _, 0, t => some ([], t)
  | 0, _, _ + 1, _ => none
  | steps + 1, depth, count + 1, t => do
    let (item, rest) ← readItem? steps depth t
    let (items, rest) ← readItems? steps depth count rest
    return (item :: items, rest)

/-- The items up to the break. -/
def readUntilBreak? : (steps : Nat) → (depth : Nat) → Text → Option (List Item × Text)
  | 0, _, _ => none
  | steps + 1, depth, t =>
    match t with
    | 0xFF :: rest => some ([], rest)
    | _ => do
      let (item, rest) ← readItem? steps depth t
      let (items, rest) ← readUntilBreak? steps depth rest
      return (item :: items, rest)

end

/-- Reads bytes that are one complete item. -/
def read? (t : Text) : Option Item :=
  match readItem? (2 * t.length + 1) 0 t with
  | some (item, []) => some item
  | _ => none

/-- A package that writes items as bytes and reads them. -/
structure Package where
  write : Item → Text
  read? : Text → Option Item

/-- The package of the program, with its canonical encoding and the limits of its reader. -/
def package : Package := ⟨Item.write, read?⟩

end ObjectMachine.Cbor
