import ObjectMachine.Cbor.Reading
import ObjectMachine.Proofs.Doubles

/-! Written items read back. An item of the kinds that images hold comes back from its own bytes,
whatever follows them, and only a NaN changes, to the one NaN that is written. Reading gives such an
item up just when it is nested too deeply or a list in it is too long. -/

namespace ObjectMachine

/-- A reader gives exactly `a` when `sure` holds, and nothing otherwise. -/
def Yields {α : Type} (read : Option α) (a : α) (sure : Prop) : Prop :=
  ∀ b, read = some b ↔ sure ∧ b = a

namespace Yields

variable {α β : Type} {read : Option α} {a : α} {b : β} {sure sure' : Prop}

theorem eq (h : Yields read a sure) {a' : α} (hread : read = some a') : a' = a := ((h a').1 hread).2

theorem sure_of (h : Yields read a sure) {a' : α} (hread : read = some a') : sure := ((h a').1 hread).1

theorem of_sure (h : Yields read a sure) (hsure : sure) : read = some a := (h a).2 ⟨hsure, rfl⟩

theorem of_eq (h : read = some a) (hsure : sure) : Yields read a sure := by
  intro b
  rw [h, Option.some_inj, eq_comm]
  exact (and_iff_right hsure).symm

theorem of_not (h : read = none) (hsure : ¬sure) : Yields read a sure := by
  intro b
  rw [h]
  exact iff_of_false nofun fun hb => hsure hb.1

theorem congr (h : Yields read a sure) (hiff : sure' ↔ sure) : Yields read a sure' := by
  intro b
  rw [hiff]
  exact h b

theorem bind {f : α → Option β} (h : Yields read a sure) (hf : Yields (f a) b sure') :
    Yields (read.bind f) b (sure ∧ sure') := by
  intro c
  rw [Option.bind_eq_some_iff, and_assoc, ← hf c]
  constructor
  · rintro ⟨x, hx, hc⟩
    obtain ⟨hsure, rfl⟩ := (h x).1 hx
    exact ⟨hsure, hc⟩
  · rintro ⟨hsure, hc⟩
    exact ⟨a, h.of_sure hsure, hc⟩

/-- A first step that cannot fail. -/
theorem of_bind {f : α → Option β} (h : read = some a) (hf : Yields (f a) b sure) :
    Yields (read.bind f) b sure := by
  rwa [h, Option.bind_some]

/-- A last step that cannot fail. -/
theorem bind_some {f : α → β} (h : Yields read a sure) :
    Yields (read.bind fun x => some (f x)) (f a) sure := by
  have hlast : Yields (some (f a)) (f a) True := .of_eq rfl trivial
  exact (h.bind (f := fun x => some (f x)) hlast).congr (iff_of_eq (and_true sure).symm)

end Yields

namespace Cbor

variable {n width major : Nat} {t rest : Text}

/-! ### Heads -/

@[simp] theorem length_bigEndian (width n : Nat) : (bigEndian width n).length = width := by
  induction width generalizing n with
  | zero => rfl
  | succ width ih => simp [bigEndian, ih]

theorem readBigEndian?_append {digits : Text} (h : digits.length = width) (v : Nat) (b : UInt8)
    (rest : Text) : readBigEndian? (width + 1) v (digits ++ b :: rest) =
      (readBigEndian? width v digits).map fun (n, _) => (256 * n + b.toNat, rest) := by
  induction digits generalizing width v with
  | nil => subst h; rfl
  | cons d digits ih =>
    subst h
    exact ih rfl _

theorem readBigEndian?_bigEndian (width v n : Nat) (rest : Text) :
    readBigEndian? width v (bigEndian width n ++ rest) =
      some (v * 256 ^ width + n % 256 ^ width, rest) := by
  induction width generalizing n rest with
  | zero => simp [readBigEndian?, bigEndian, Nat.mod_one]
  | succ width ih =>
    have hdigits := ih (n / 256) []
    rw [List.append_nil] at hdigits
    rw [bigEndian, List.append_assoc, List.singleton_append,
      readBigEndian?_append (length_bigEndian _ _), hdigits]
    have hbyte : (n % 256).toUInt8.toNat = n % 256 := by
      rw [Nat.toUInt8, UInt8.toNat_ofNat']
      omega
    simp only [Option.map_some, hbyte, Option.some.injEq, Prod.mk.injEq, and_true]
    rw [Nat.pow_succ', Nat.mod_mul]
    ring

/-- A number that fits 64 bits is read from the head it is written in. -/
theorem readHead?_head (major : Nat) (hmajor : major < 7) (hn : n < 2 ^ 64) (rest : Text) :
    ∃ low, readHead? (head major n ++ rest) = some (major, low, .number n, rest) := by
  have hdiv : ∀ low, low < 32 → (32 * major + low) % 256 / 32 = major := by omega
  have hmod : ∀ low, low < 32 → (32 * major + low) % 32 = low := by omega
  unfold head
  dsimp only
  split
  · next h => exact ⟨n, by simp [readHead?, hdiv n (by omega), hmod n (by omega), h]⟩
  · split
    · next h =>
      have hmajor₇ : major ≠ 7 := by omega
      exact ⟨24, by simp [readHead?, hdiv 24, hmod 24, readBigEndian?_bigEndian,
        Nat.mod_eq_of_lt h, hmajor₇]⟩
    · split
      · next h =>
        exact ⟨25, by simp [readHead?, hdiv 25, hmod 25, readBigEndian?_bigEndian,
          Nat.mod_eq_of_lt h]⟩
      · split
        · next h =>
          exact ⟨26, by simp [readHead?, hdiv 26, hmod 26, readBigEndian?_bigEndian,
            Nat.mod_eq_of_lt h]⟩
        · exact ⟨27, by simpa [readHead?, hdiv 27, hmod 27, readBigEndian?_bigEndian] using hn⟩

theorem head_pos (major n : Nat) : 0 < (head major n).length := by
  unfold head
  dsimp only
  split_ifs <;> simp

@[simp] theorem takeBytes?_append (t rest : Text) :
    takeBytes? t.length (t ++ rest) = some (t, rest) := by
  simp [takeBytes?]

/-! ### Floats -/

/-- The number that comes back: one NaN stands for all. -/
def settledFloat (x : Double) : Double := if x.isNaN then .nan else x

theorem readHead?_writeFloat (x : Double) (rest : Text) : ∃ low n,
    readHead? (writeFloat x ++ rest) = some (7, low, .number n, rest) ∧
      readSimple low n = .float (settledFloat x) := by
  unfold writeFloat settledFloat
  split
  · exact ⟨25, 0x7E00, rfl, rfl⟩
  · next hnan =>
    split
    · next hinf =>
      have hmagnitude : x.magnitude = BinaryFormat.double.infinity := by
        simpa [Double.isInfinite] using hinf
      have heta := x.ofMagnitude_eta
      rw [hmagnitude] at heta
      rw [← heta]
      cases x.isNegative
      · exact ⟨25, 0x7C00, rfl, rfl⟩
      · exact ⟨25, 0xFC00, rfl, rfl⟩
    · next hinf =>
      have hfinite : x.magnitude < BinaryFormat.double.infinity := by
        have hle : ¬BinaryFormat.double.infinity < x.magnitude := by simpa [Double.isNaN] using hnan
        have hne : x.magnitude ≠ BinaryFormat.double.infinity := by
          simpa [Double.isInfinite] using hinf
        omega
      split
      · next _ _ n hhalf =>
        have hlt : n < 65536 := Double.narrow?_lt hhalf
        refine ⟨25, n, ?_, ?_⟩
        · simp [readHead?, readBigEndian?_bigEndian, Nat.mod_eq_of_lt hlt]
        · exact congrArg Item.float (Double.widen_of_narrow? (by decide) hfinite hhalf)
      · next _ n _ hsingle =>
        have hlt : n < 4294967296 := Double.narrow?_lt hsingle
        refine ⟨26, n, ?_, ?_⟩
        · simp [readHead?, readBigEndian?_bigEndian, Nat.mod_eq_of_lt hlt]
        · exact congrArg Item.float (Double.widen_of_narrow? (by decide) hfinite hsingle)
      · refine ⟨27, x.bits.toNat, ?_, ?_⟩
        · simp [readHead?, readBigEndian?_bigEndian]
        · simp [readSimple]

theorem writeFloat_settledFloat (x : Double) : writeFloat (settledFloat x) = writeFloat x := by
  unfold settledFloat
  split
  · next hnan =>
    unfold writeFloat
    rw [if_pos hnan]
    rfl
  · rfl

theorem writeFloat_pos (x : Double) : 0 < (writeFloat x).length := by
  unfold writeFloat
  split
  · exact Nat.succ_pos _
  · split
    · exact Nat.succ_pos _
    · split <;> exact Nat.succ_pos _

/-! ### Items -/

mutual

/-- Items of the kinds that images hold: numbers that a head can take, texts, lists, maps and
floats. -/
def Item.Plain : Item → Prop
  | .unsigned n | .negative n => n < 2 ^ 64
  | .text _ | .float _ => True
  | .array items => PlainAll items
  | .map entries => entries.length % 2 = 0 ∧ PlainAll entries
  | .bytes _ | .tag _ _ | .simple _ => False

def PlainAll : List Item → Prop
  | [] => True
  | item :: items => item.Plain ∧ PlainAll items

end

mutual

/-- What comes back: texts in one piece and one NaN for all. -/
def Item.settled : Item → Item
  | .text chunks => .text [chunks.flatten]
  | .array items => .array (settledAll items)
  | .map entries => .map (settledAll entries)
  | .float x => .float (settledFloat x)
  | item => item

def settledAll : List Item → List Item
  | [] => []
  | item :: items => item.settled :: settledAll items

end

mutual

/-- Inside `depth` lists and maps, no list of the item is too long or too deep. -/
def Item.Fits (depth : Nat) : Item → Prop
  | .array items => depth < maxNesting ∧ items.length ≤ maxElements ∧ FitAll (depth + 1) items
  | .map entries =>
    depth < maxNesting ∧ entries.length / 2 ≤ maxElements ∧ FitAll (depth + 1) entries
  | _ => True

def FitAll (depth : Nat) : List Item → Prop
  | [] => True
  | item :: items => item.Fits depth ∧ FitAll depth items

end

mutual

def Item.nodes : Item → Nat
  | .array items => 1 + nodesAll items
  | .map entries => 1 + nodesAll entries
  | _ => 1

def nodesAll : List Item → Nat
  | [] => 0
  | item :: items => item.nodes + nodesAll items

end

theorem Item.nodes_pos (item : Item) : 0 < item.nodes := by
  cases item <;> simp [Item.nodes]

theorem length_le_nodesAll (items : List Item) : items.length ≤ nodesAll items := by
  induction items with
  | nil => exact Nat.le_refl 0
  | cons item items ih =>
    have hpos := item.nodes_pos
    rw [List.length_cons, nodesAll]
    omega

theorem plainAll_iff {items : List Item} : PlainAll items ↔ ∀ item ∈ items, item.Plain := by
  induction items with
  | nil => simp [PlainAll]
  | cons item items ih => simp [PlainAll, ih]

theorem fitAll_iff {depth : Nat} {items : List Item} :
    FitAll depth items ↔ ∀ item ∈ items, item.Fits depth := by
  induction items with
  | nil => simp [FitAll]
  | cons item items ih => simp [FitAll, ih]

theorem settledAll_eq_map (items : List Item) : settledAll items = items.map Item.settled := by
  induction items with
  | nil => rfl
  | cons item items ih => rw [settledAll, ih, List.map_cons]

theorem Item.write_pos (item : Item) : 0 < item.write.length := by
  cases item with
  | float x => exact writeFloat_pos x
  | _ => simp [Item.write, head_pos]

mutual

/-- An item takes a byte, and so does every item in it. -/
theorem Item.nodes_le : (item : Item) → item.nodes ≤ item.write.length
  | .array items => by
    have hpos := head_pos 4 items.length
    have hitems := nodesAll_le items
    rw [Item.nodes, Item.write, List.length_append]
    omega
  | .map entries => by
    have hpos := head_pos 5 (entries.length / 2)
    have hentries := nodesAll_le entries
    rw [Item.nodes, Item.write, List.length_append]
    omega
  | .unsigned n => (Item.unsigned n).write_pos
  | .negative n => (Item.negative n).write_pos
  | .bytes t => (Item.bytes t).write_pos
  | .text chunks => (Item.text chunks).write_pos
  | .tag n content => (Item.tag n content).write_pos
  | .simple n => (Item.simple n).write_pos
  | .float x => (Item.float x).write_pos

theorem nodesAll_le : (items : List Item) → nodesAll items ≤ (writeAll items).length
  | [] => Nat.le_refl 0
  | item :: items => by
    rw [nodesAll, writeAll, List.length_append]
    exact Nat.add_le_add item.nodes_le (nodesAll_le items)

end

theorem length_le_writeAll (items : List Item) : items.length ≤ (writeAll items).length :=
  (length_le_nodesAll items).trans (nodesAll_le items)

mutual

/-- What came back is written in the same bytes. -/
theorem Item.write_settled : (item : Item) → item.settled.write = item.write
  | .text chunks => by simp [Item.settled, Item.write]
  | .array items => by
    rw [Item.settled, Item.write, Item.write, writeAll_settledAll items, settledAll_eq_map,
      List.length_map]
  | .map entries => by
    rw [Item.settled, Item.write, Item.write, writeAll_settledAll entries, settledAll_eq_map,
      List.length_map]
  | .float x => writeFloat_settledFloat x
  | .unsigned _ | .negative _ | .bytes _ | .tag _ _ | .simple _ => rfl

theorem writeAll_settledAll : (items : List Item) → writeAll (settledAll items) = writeAll items
  | [] => rfl
  | item :: items => by rw [settledAll, writeAll, writeAll, item.write_settled, writeAll_settledAll]

end

/-! ### Reading back -/

mutual

theorem readItem?_write : (item : Item) → item.Plain → item.write.length < 2 ^ 64 →
    ∀ (steps depth : Nat) (rest : Text), 2 * item.write.length ≤ steps + 1 →
      Yields (readItem? steps depth (item.write ++ rest)) (item.settled, rest) (item.Fits depth)
  | item, _, _, 0, depth, rest, hsteps => by
    have hpos := item.write_pos
    omega
  | .unsigned n, hplain, _, steps + 1, depth, rest, _ => by
    obtain ⟨low, hhead⟩ := readHead?_head 0 (by decide) hplain rest
    refine .of_eq ?_ trivial
    simp [readItem?, Item.write, hhead, Item.settled]
  | .negative n, hplain, _, steps + 1, depth, rest, _ => by
    obtain ⟨low, hhead⟩ := readHead?_head 1 (by decide) hplain rest
    refine .of_eq ?_ trivial
    simp [readItem?, Item.write, hhead, Item.settled]
  | .text chunks, _, hlength, steps + 1, depth, rest, _ => by
    rw [Item.write, List.length_append] at hlength
    obtain ⟨low, hhead⟩ := readHead?_head (n := chunks.flatten.length) 3 (by decide)
      (by omega) (chunks.flatten ++ rest)
    refine .of_eq ?_ trivial
    simp [readItem?, Item.write, hhead, Item.settled, -List.length_flatten]
  | .float x, _, _, steps + 1, depth, rest, _ => by
    obtain ⟨low, n, hhead, hsimple⟩ := readHead?_writeFloat x rest
    refine .of_eq ?_ trivial
    simp [readItem?, Item.write, hhead, Item.settled, hsimple]
  | .array items, hplain, hlength, steps + 1, depth, rest, hsteps => by
    have hcount := length_le_writeAll items
    have hpos := head_pos 4 items.length
    rw [Item.write, List.length_append] at hlength hsteps
    rw [Item.write]
    obtain ⟨low, hhead⟩ := readHead?_head (n := items.length) 4 (by decide) (by omega)
      (writeAll items ++ rest)
    have hitems := readItems?_writeAll items hplain (by omega) steps (depth + 1) rest (by omega)
    rw [readItem?, List.append_assoc, hhead, Item.settled, Item.Fits]
    simp only [Option.bind_eq_bind, Option.bind_some]
    split
    · next hlimit => exact .of_not rfl fun h => by omega
    · next hlimit =>
      refine hitems.bind_some.congr ?_
      rw [← and_assoc, and_iff_right (by omega)]
  | .map entries, hplain, hlength, steps + 1, depth, rest, hsteps => by
    have hcount := length_le_writeAll entries
    have hpos := head_pos 5 (entries.length / 2)
    have heven : 2 * (entries.length / 2) = entries.length := by have := hplain.1; omega
    rw [Item.write, List.length_append] at hlength hsteps
    rw [Item.write]
    obtain ⟨low, hhead⟩ := readHead?_head (n := entries.length / 2) 5 (by decide)
      (by omega) (writeAll entries ++ rest)
    have hentries := readItems?_writeAll entries hplain.2 (by omega) steps (depth + 1) rest (by omega)
    rw [readItem?, List.append_assoc, hhead, Item.settled, Item.Fits]
    simp only [Option.bind_eq_bind, Option.bind_some, heven]
    split
    · next hlimit => exact .of_not rfl fun h => by omega
    · next hlimit =>
      refine hentries.bind_some.congr ?_
      rw [← and_assoc, and_iff_right (by omega)]
  | .bytes _, hplain, _, _ + 1, _, _, _ | .tag _ _, hplain, _, _ + 1, _, _, _
  | .simple _, hplain, _, _ + 1, _, _, _ => hplain.elim

theorem readItems?_writeAll : (items : List Item) → PlainAll items →
    (writeAll items).length < 2 ^ 64 → ∀ (steps depth : Nat) (rest : Text),
      2 * (writeAll items).length ≤ steps →
      Yields (readItems? steps depth items.length (writeAll items ++ rest))
        (settledAll items, rest) (FitAll depth items)
  | [], _, _, steps, depth, rest, _ =>
    .of_eq (by cases steps <;> simp [readItems?, settledAll, writeAll]) trivial
  | item :: items, _, _, 0, depth, rest, hsteps => by
    have hpos := item.write_pos
    rw [writeAll, List.length_append] at hsteps
    omega
  | item :: items, hplain, hlength, steps + 1, depth, rest, hsteps => by
    have hpos := item.write_pos
    rw [writeAll, List.length_append] at hlength hsteps
    rw [writeAll]
    have hitem := readItem?_write item hplain.1 (by omega) steps depth (writeAll items ++ rest) (by omega)
    have hitems := readItems?_writeAll items hplain.2 (by omega) steps depth rest (by omega)
    rw [List.length_cons, readItems?, List.append_assoc]
    exact hitem.bind hitems.bind_some

end

theorem read?_write {item : Item} (hplain : item.Plain) (hlength : item.write.length < 2 ^ 64) :
    Yields (read? item.write) item.settled (item.Fits 0) := by
  have hread := readItem?_write item hplain hlength (2 * item.write.length + 1) 0 [] (by omega)
  rw [List.append_nil] at hread
  unfold read?
  by_cases hfits : item.Fits 0
  · rw [hread.of_sure hfits]
    exact .of_eq rfl hfits
  · cases hitem : readItem? (2 * item.write.length + 1) 0 item.write with
    | none => exact .of_not rfl hfits
    | some x => exact absurd (hread.sure_of hitem) hfits

/-- What images rely on of a package for items. -/
structure Package.Laws (k : Package) : Prop where
  nodes_le : ∀ item, item.nodes ≤ (k.write item).length
  write_settled : ∀ item, k.write item.settled = k.write item
  /-- What was written is read back if it is within the limits, and refused if not. -/
  read_write : ∀ item, item.Plain → (k.write item).length < 2 ^ 64 →
    Yields (k.read? (k.write item)) item.settled (item.Fits 0)

theorem package_laws : package.Laws where
  nodes_le := Item.nodes_le
  write_settled := Item.write_settled
  read_write _ := read?_write

end Cbor

end ObjectMachine
