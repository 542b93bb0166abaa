import ObjectMachine.Image
import ObjectMachine.Proofs.Items

/-! What an image stores of a block. Each part comes back as it was, but for floats, which lose the
sign of a zero and the payload of a NaN, and for the children, which come back as positions. A part
fails to come back just where a text in it is not UTF-8. -/

namespace ObjectMachine

open Cbor

/-! ### Normal forms -/

/-- A float as an image gives it back. -/
def Double.settled (x : Double) : Double := if x.isZero then .zero else settledFloat x

def Literal.settled (lit : Literal) : Literal := { lit with float := lit.float.settled }

def Block.settled (b : Block) : Block := { b with pool := b.pool.map Literal.settled }

def Block.Spelled (b : Block) : Prop := ∀ i ∈ b.code, Opcode.ofNumber i.op.number = i.op

@[simp] theorem Text.isValid_nil : Text.isValid [] := by decide

structure Block.Legible (b : Block) : Prop where
  name : b.name.isValid
  symbols : ∀ s ∈ b.symbols, s.isValid
  pool : ∀ lit ∈ b.pool, lit.text.isValid

/-- No list of the block is longer than a reader takes. -/
structure Block.Short (b : Block) : Prop where
  code : b.code.size ≤ maxElements
  pool : b.pool.size ≤ maxElements
  symbols : b.symbols.size ≤ maxElements
  children : b.children.size ≤ maxElements

namespace Yields

variable {α β γ : Type}

theorem mapM {f : β → Option α} {g : γ → β} {value : γ → α} {sure : γ → Prop} {xs : List γ}
    (h : ∀ x ∈ xs, Yields (f (g x)) (value x) (sure x)) :
    Yields ((xs.map g).mapM f) (xs.map value) (∀ x ∈ xs, sure x) := by
  induction xs with
  | nil => exact .of_eq rfl nofun
  | cons x xs ih =>
    rw [List.map_cons, List.map_cons, List.mapM_cons, List.forall_mem_cons]
    exact (h x List.mem_cons_self).bind (ih fun y hy => h y (List.mem_cons_of_mem x hy)).bind_some

end Yields

namespace Image

variable {sure : Prop}

/-! ### Single fields -/

@[simp] theorem settled_ofInt (n : Int) : (Item.ofInt n).settled = .ofInt n := by
  unfold Item.ofInt
  split <;> rfl

theorem integer?_ofInt {n : Int} (h : -(2 ^ 63) ≤ n) : integer? (.ofInt n) = some n := by
  unfold Item.ofInt
  split
  · next hneg =>
    have hlt : n.natAbs - 1 < Nat.pow 2 63 := by
      simp only [Nat.pow_eq]
      omega
    rw [integer?, if_pos hlt]
    congr 1
    omega
  · rw [integer?]
    congr 1
    omega

theorem integerField_ofInt {low high n : Int} (hlow : low ≤ n) (hhigh : n ≤ high)
    (h : -(2 ^ 63) ≤ n) : integerField low high (.ofInt n) = some n := by
  have huntag : untag? (.ofInt n) = some (.ofInt n) := by
    unfold Item.ofInt
    split <;> rfl
  have hnull : isNull (.ofInt n) = false := by
    unfold Item.ofInt
    split <;> rfl
  unfold integerField
  simp [huntag, hnull, integer?_ofInt h, hlow, hhigh]

@[simp] theorem int64Field_ofInt (n : Int64) : int64Field (.ofInt n.toInt) = some n := by
  have hlow : -(2 ^ 63) ≤ n.toInt := n.le_toInt
  rw [int64Field, integerField_ofInt n.minValue_le_toInt n.toInt_le hlow, Option.map_some,
    n.ofInt_toInt]

theorem ofInt_natCast (n : Nat) : Item.ofInt n = .unsigned n := by
  rw [Item.ofInt, if_neg (by omega), Int.natAbs_natCast]

theorem int64Field_unsigned {n : Nat} (h : n < 2 ^ 63) :
    int64Field (.unsigned n) = some (Int64.ofNat n) := by
  rw [← ofInt_natCast, ← Int64.toInt_ofNat_of_lt h, int64Field_ofInt]

theorem byteField_unsigned (n : UInt8) : byteField (.unsigned n.toNat) = some n := by
  have hbound := n.toNat_lt
  rw [byteField, ← ofInt_natCast, integerField_ofInt (by omega) (by omega) (by omega)]
  simp

theorem textField_ofText (t : Text) : Yields (textField (Item.ofText t).settled) t t.isValid := by
  have hread : textField (Item.ofText t).settled = if t.isValid then some t else none := by
    simp [textField, Item.ofText, Item.settled, untag?, isNull, validText?]
  rw [hread]
  by_cases h : t.isValid
  · exact .of_eq (if_pos h) h
  · exact .of_not (if_neg h) h

theorem listField_array {α β : Type} {read : Item → Option α} {write : β → Item} {value : β → α}
    {sure : β → Prop} {xs : List β}
    (h : ∀ x ∈ xs, Yields (read (write x).settled) (value x) (sure x)) :
    Yields (listField read (Item.array (xs.map write)).settled) (xs.map value)
      (∀ x ∈ xs, sure x) := by
  have hread : listField read (Item.array (xs.map write)).settled =
      (xs.map fun x => (write x).settled).mapM read := by
    simp [listField, Item.settled, untag?, isNull, settledAll_eq_map, Function.comp_def]
  rw [hread]
  exact Yields.mapM h

/-! ### Records -/

def fieldUnless (empty : Bool) (number : Nat) (item : Item) : List (Nat × Item) :=
  if empty then [] else [(number, item)]

def record (fields : List (Nat × Item)) : Item := .map (fields.flatMap fun x => entry x.1 x.2)

theorem flatMap_fieldUnless (empty : Bool) (number : Nat) (item : Item) :
    ((fieldUnless empty number item).flatMap fun x => entry x.1 x.2) =
      entryUnless empty number item := by
  cases empty
  · exact List.append_nil _
  · rfl

theorem settled_record (fields : List (Nat × Item)) :
    (record fields).settled = record (fields.map fun x => (x.1, x.2.settled)) := by
  simp [record, Item.settled, settledAll_eq_map, List.map_flatMap, List.flatMap_map, entry]

theorem record?_record (fields : List (Nat × Item)) : record? (record fields) = some fields := by
  have hentries : entries (fields.flatMap fun x => entry x.1 x.2) =
      fields.map fun x => (.unsigned x.1, x.2) := by
    induction fields with
    | nil => rfl
    | cons x fields ih =>
      rw [List.flatMap_cons, List.map_cons, ← ih]
      rfl
  have hnumbers : (fields.map fun x => (Item.unsigned x.1, x.2)).mapM
      (fun x => (fieldNumber? x.1).bind fun number => some (number.map (·, x.2))) =
        some (fields.map some) := by
    clear hentries
    induction fields with
    | nil => rfl
    | cons x fields ih =>
      rw [List.map_cons, List.mapM_cons, ih]
      rfl
  have hread : record? (record fields) =
      ((entries (fields.flatMap fun x => entry x.1 x.2)).mapM fun x =>
        (fieldNumber? x.1).bind fun number => some (number.map (·, x.2))).bind
          fun fields => some (fields.filterMap id) := rfl
  rw [hread, hentries, hnumbers, Option.bind_some, List.filterMap_map]
  simp

theorem lookup_settled (fields : List (Nat × Item)) (number : Nat) :
    (fields.map fun x => (x.1, x.2.settled)).lookup number =
      (fields.lookup number).map Item.settled := by
  induction fields with
  | nil => rfl
  | cons x fields ih =>
    rw [List.map_cons, List.lookup_cons, List.lookup_cons, ih]
    split <;> rfl

@[simp] theorem lookup_fieldUnless_self (empty : Bool) (number : Nat) (item : Item) :
    (fieldUnless empty number item).lookup number = if empty then none else some item := by
  cases empty <;> simp [fieldUnless]

@[simp] theorem lookup_fieldUnless_ne {empty : Bool} {number other : Nat} {item : Item}
    (h : (number == other) = false) : (fieldUnless empty other item).lookup number = none := by
  cases empty <;> simp [fieldUnless, List.lookup_cons, h]

/-- A field comes back, also when it was left out as the zero of its type. -/
theorem field_yields {α : Type} {fields : List (Nat × Item)} {number : Nat} {zero a : α}
    {read : Item → Option α} (item : Item) (empty : Bool)
    (hlookup : fields.lookup number = if empty then none else some item)
    (hempty : empty = true → a = zero ∧ sure)
    (hread : empty = false → Yields (read item.settled) a sure) :
    Yields (field (fields.map fun x => (x.1, x.2.settled)) number zero read) a sure := by
  rw [field, lookup_settled, hlookup]
  cases empty
  · exact hread rfl
  · exact .of_eq (congrArg some (hempty rfl).1.symm) (hempty rfl).2

/-- A field of a kind that always comes back. -/
theorem field_eq_some {α : Type} {fields : List (Nat × Item)} {number : Nat} {zero a : α}
    {read : Item → Option α} (item : Item) (empty : Bool)
    (hlookup : fields.lookup number = if empty then none else some item)
    (hempty : empty = true → a = zero) (hread : empty = false → read item.settled = some a) :
    field (fields.map fun x => (x.1, x.2.settled)) number zero read = some a :=
  (field_yields item empty hlookup (fun h => ⟨hempty h, trivial⟩)
    fun h => .of_eq (hread h) trivial).of_sure trivial

/-! ### Instructions and literals -/

theorem decodeInst_encodeInst {i : Inst} (h : Opcode.ofNumber i.op.number = i.op) :
    decodeInst (encodeInst i).settled = some i := by
  simp [decodeInst, encodeInst, Item.settled, settledAll, untag?, isNull, byteField_unsigned, h]

def literalFields (lit : Literal) : List (Nat × Item) :=
  [(1, .unsigned lit.kind.toNat)] ++ fieldUnless (lit.int == 0) 2 (.ofInt lit.int.toInt) ++
    fieldUnless lit.float.isZero 3 (.float lit.float) ++ fieldUnless lit.text.isEmpty 4 (.ofText lit.text)

theorem encodeLiteral_eq (lit : Literal) : encodeLiteral lit = record (literalFields lit) := by
  simp [encodeLiteral, record, literalFields, List.flatMap_append, flatMap_fieldUnless]

theorem isZero_settled (x : Double) : x.settled.isZero = x.isZero := by
  unfold Double.settled settledFloat
  split
  · next h => rw [h]; rfl
  · split
    · next h hnan =>
      rw [Bool.not_eq_true] at h
      rw [h]
      rfl
    · rfl

theorem decodeLiteral_encodeLiteral (lit : Literal) :
    Yields (decodeLiteral (encodeLiteral lit).settled) lit.settled lit.text.isValid := by
  rw [encodeLiteral_eq, decodeLiteral, settled_record, record?_record]
  refine .of_bind rfl ?_
  refine .of_bind (field_eq_some (.unsigned lit.kind.toNat) false (a := lit.kind)
    (by simp [literalFields]) nofun fun _ => byteField_unsigned lit.kind) ?_
  refine .of_bind (field_eq_some (.ofInt lit.int.toInt) (lit.int == 0) (a := lit.int)
    (by simp [literalFields, List.lookup_append, List.lookup_cons]) (by simp) fun _ => by simp) ?_
  refine .of_bind (field_eq_some (.float lit.float) lit.float.isZero (a := lit.float.settled)
    (by simp [literalFields, List.lookup_append, List.lookup_cons]) (fun h => if_pos h)
    fun hzero => ?_) ?_
  · simp [floatField, Item.settled, untag?, isNull, Double.settled, hzero]
  · exact (field_yields (.ofText lit.text) lit.text.isEmpty (a := lit.text)
      (by simp [literalFields, List.lookup_append, List.lookup_cons]) (by simp +contextual)
      fun _ => textField_ofText lit.text).bind_some

theorem map_fieldUnless (empty : Bool) (number : Nat) (item : Item) :
    ((fieldUnless empty number item).map fun x => (x.1, x.2.settled)) =
      fieldUnless empty number item.settled := by
  cases empty <;> rfl

@[simp] theorem settled_ofText (t : Text) : (Item.ofText t).settled = .ofText t := by
  simp [Item.ofText, Item.settled]

theorem encodeLiteral_settled (lit : Literal) :
    encodeLiteral lit.settled = (encodeLiteral lit).settled := by
  have hfloat : fieldUnless lit.float.isZero 3 (.float lit.float.settled) =
      fieldUnless lit.float.isZero 3 (Item.float lit.float).settled := by
    unfold Double.settled
    cases lit.float.isZero <;> rfl
  rw [encodeLiteral_eq, encodeLiteral_eq, settled_record]
  simp only [literalFields, Literal.settled, isZero_settled, hfloat, List.map_append, map_fieldUnless,
    settled_ofInt, settled_ofText]
  rfl

/-! ### Blocks -/

def blockFields (order : List Nat) (b : Block) : List (Nat × Item) :=
  fieldUnless b.name.isEmpty 1 (.ofText b.name) ++
    [(2, .ofInt b.locals.toInt), (3, .ofInt b.registers.toInt),
      (4, .array (b.code.toList.map encodeInst))] ++
    fieldUnless b.pool.isEmpty 5 (.array (b.pool.toList.map encodeLiteral)) ++
    fieldUnless b.symbols.isEmpty 6 (.array (b.symbols.toList.map .ofText)) ++
    fieldUnless b.children.isEmpty 7
      (.array (b.children.toList.map fun i => .unsigned (order.idxOf i)))

theorem encodeBlock_eq (order : List Nat) (b : Block) :
    encodeBlock order b = record (blockFields order b) := by
  simp [encodeBlock, record, blockFields, List.flatMap_append, flatMap_fieldUnless]

theorem encodeInst_settled (i : Inst) : (encodeInst i).settled = encodeInst i := by
  simp [encodeInst, Item.settled, settledAll]

theorem encodeBlock_settled (order : List Nat) (b : Block) :
    encodeBlock order b.settled = (encodeBlock order b).settled := by
  have hempty : (b.pool.map Literal.settled).isEmpty = b.pool.isEmpty := by simp [Array.isEmpty]
  rw [encodeBlock_eq, encodeBlock_eq, settled_record]
  simp only [blockFields, Block.settled, map_fieldUnless, Item.settled, settledAll_eq_map, hempty,
    encodeInst_settled, encodeLiteral_settled, settled_ofText, settled_ofInt, List.map_append,
    List.map_map, List.map_cons, List.map_nil, Function.comp_def, Array.toList_map]

/-- What is stored comes back. -/
theorem decodeBlock_encodeBlock {order : List Nat} {b : Block} (hspelled : b.Spelled)
    (hshort : order.length < 2 ^ 63) :
    Yields (decodeBlock (encodeBlock order b).settled)
      ⟨{ b.settled with children := #[] }, b.children.toList.map fun i => Int64.ofNat (order.idxOf i)⟩
      b.Legible := by
  have hcode : ∀ i ∈ b.code.toList, Yields (decodeInst (encodeInst i).settled) (id i) True :=
    fun i hi => .of_eq (decodeInst_encodeInst (hspelled i (Array.mem_toList_iff.1 hi))) trivial
  have hpool : ∀ lit ∈ b.pool.toList, Yields (decodeLiteral (encodeLiteral lit).settled) lit.settled
      lit.text.isValid := fun lit _ => decodeLiteral_encodeLiteral lit
  have hsymbols : ∀ s ∈ b.symbols.toList,
      Yields (textField (Item.ofText s).settled) (id s) s.isValid :=
    fun s _ => textField_ofText s
  have hchildren : ∀ i ∈ b.children.toList,
      Yields (int64Field (Item.unsigned (order.idxOf i)).settled) (Int64.ofNat (order.idxOf i))
        True := by
    intro i _
    exact .of_eq (int64Field_unsigned (Nat.lt_of_le_of_lt List.idxOf_le_length hshort)) trivial
  have hlegible : b.Legible ↔ b.name.isValid ∧
      (∀ lit ∈ b.pool.toList, lit.text.isValid) ∧ ∀ s ∈ b.symbols.toList, s.isValid :=
    ⟨fun h => ⟨h.name, by simpa using h.pool, by simpa using h.symbols⟩,
      fun h => ⟨h.1, by simpa using h.2.2, by simpa using h.2.1⟩⟩
  have hfield : field ((blockFields order b).map fun x => (x.1, x.2.settled)) 7 []
      (listField int64Field) = some (b.children.toList.map fun i => Int64.ofNat (order.idxOf i)) :=
    field_eq_some (.array (b.children.toList.map fun i => .unsigned (order.idxOf i)))
      b.children.isEmpty (by simp [blockFields, List.lookup_append, List.lookup_cons]) (by simp)
      fun _ => (listField_array hchildren).of_sure fun _ _ => trivial
  rw [encodeBlock_eq, decodeBlock, settled_record, record?_record, hlegible]
  refine .of_bind rfl ?_
  refine (field_yields (.ofText b.name) b.name.isEmpty (a := b.name)
    (by simp [blockFields, List.lookup_append, List.lookup_cons]) (by simp +contextual)
    fun _ => textField_ofText _).bind ?_
  refine .of_bind (field_eq_some (.ofInt b.locals.toInt) false (a := b.locals)
    (by simp [blockFields, List.lookup_append]) nofun fun _ => by simp) ?_
  refine .of_bind (field_eq_some (.ofInt b.registers.toInt) false (a := b.registers)
    (by simp [blockFields, List.lookup_append, List.lookup_cons]) nofun fun _ => by simp) ?_
  refine .of_bind (field_eq_some (.array (b.code.toList.map encodeInst)) false
    (by simp [blockFields, List.lookup_append, List.lookup_cons]) nofun
    fun _ => (listField_array hcode).of_sure fun _ _ => trivial) ?_
  refine (field_yields (.array (b.pool.toList.map encodeLiteral)) b.pool.isEmpty
    (by simp [blockFields, List.lookup_append, List.lookup_cons]) (by simp +contextual)
    fun _ => listField_array hpool).bind ?_
  refine (field_yields (.array (b.symbols.toList.map .ofText)) b.symbols.isEmpty
    (by simp [blockFields, List.lookup_append, List.lookup_cons]) (by simp +contextual)
    fun _ => listField_array hsymbols).bind (.of_bind hfield (.of_eq ?_ trivial)) |>.congr
      (by rw [and_true])
  rw [List.map_id, List.map_id, ← List.map_toArray]
  simp [Block.settled]

/-! ### Files -/

def storedBlock (order : List Nat) (b : Block) : StoredBlock :=
  ⟨{ b.settled with children := #[] }, b.children.toList.map fun i => Int64.ofNat (order.idxOf i)⟩

def fileFields (order : List Nat) (blocks : List Block) : List (Nat × Item) :=
  [(1, .ofText magic), (2, .unsigned version), (3, .array (blocks.map (encodeBlock order)))]

theorem encode_eq (p : Program) :
    encode p = package.write (record (fileFields p.visitOrder (p.visitOrder.map p.block))) := by
  simp [encode, record, fileFields, Function.comp_def]

/-- An image is a function of the settled blocks. -/
theorem write_fileFields_settled (order : List Nat) (blocks : List Block) :
    package.write (record (fileFields order (blocks.map Block.settled))) =
      package.write (record (fileFields order blocks)) := by
  rw [← package_laws.write_settled (record (fileFields order blocks)), settled_record]
  simp [fileFields, Item.settled, settledAll_eq_map, encodeBlock_settled, Function.comp_def]

theorem decodeFile_record {order : List Nat} {blocks : List Block}
    (hspelled : ∀ b ∈ blocks, b.Spelled) (hshort : order.length < 2 ^ 63) :
    Yields (decodeFile (record (fileFields order blocks)).settled)
      ⟨magic, version, blocks.map (storedBlock order)⟩ (∀ b ∈ blocks, b.Legible) := by
  have hblocks : ∀ b ∈ blocks, Yields (decodeBlock (encodeBlock order b).settled)
      (storedBlock order b) b.Legible :=
    fun b hb => decodeBlock_encodeBlock (hspelled b hb) hshort
  have hmagic : magic.isValid := by decide
  have hversion : integerField 0 (Nat.pow 2 64 - 1 : Nat) (Item.unsigned version).settled =
      some (version : Int) := by decide
  rw [decodeFile, settled_record, record?_record]
  refine .of_bind rfl ?_
  refine .of_bind (field_eq_some (.ofText magic) false (by simp [fileFields]) nofun
    fun _ => (textField_ofText magic).of_sure hmagic) ?_
  refine .of_bind (field_eq_some (.unsigned version) false
    (by simp [fileFields, List.lookup_cons]) nofun fun _ => hversion) ?_
  exact (field_yields (.array (blocks.map (encodeBlock order))) false
    (by simp [fileFields, List.lookup_cons]) nofun fun _ => listField_array hblocks).bind_some

/-! ### Kinds and limits -/

theorem plain_ofInt {n : Int} (hlow : -(2 ^ 63) ≤ n) (hhigh : n < 2 ^ 63) : (Item.ofInt n).Plain := by
  unfold Item.ofInt
  split
  · change n.natAbs - 1 < 2 ^ 64
    omega
  · change n.natAbs < 2 ^ 64
    omega

theorem plain_ofInt64 (n : Int64) : (Item.ofInt n.toInt).Plain := plain_ofInt n.le_toInt n.toInt_lt

theorem length_flatMap_entry (fields : List (Nat × Item)) :
    (fields.flatMap fun x => entry x.1 x.2).length = 2 * fields.length := by
  induction fields with
  | nil => rfl
  | cons x fields ih =>
    rw [List.flatMap_cons, List.length_append, ih, List.length_cons]
    simp [entry]
    omega

theorem plain_record {fields : List (Nat × Item)}
    (h : ∀ x ∈ fields, x.1 < 2 ^ 64 ∧ x.2.Plain) : (record fields).Plain := by
  refine ⟨by rw [length_flatMap_entry]; omega, plainAll_iff.2 ?_⟩
  simp only [List.mem_flatMap, entry, List.mem_cons, List.not_mem_nil, or_false]
  rintro item ⟨x, hx, rfl | rfl⟩
  · exact (h x hx).1
  · exact (h x hx).2

theorem plain_array {items : List Item} (h : ∀ item ∈ items, item.Plain) : (Item.array items).Plain :=
  plainAll_iff.2 h

theorem fits_array {items : List Item} {depth : Nat} (hdepth : depth < maxNesting)
    (hcount : items.length ≤ maxElements) (h : ∀ item ∈ items, item.Fits (depth + 1)) :
    (Item.array items).Fits depth :=
  ⟨hdepth, hcount, fitAll_iff.2 h⟩

theorem fits_ofInt (n : Int) {depth : Nat} : (Item.ofInt n).Fits depth := by
  unfold Item.ofInt
  split <;> trivial

theorem fits_record {fields : List (Nat × Item)} {depth : Nat} (hdepth : depth < maxNesting)
    (hcount : fields.length ≤ maxElements) (h : ∀ x ∈ fields, x.2.Fits (depth + 1)) :
    (record fields).Fits depth := by
  refine ⟨hdepth, by rw [length_flatMap_entry]; omega, fitAll_iff.2 ?_⟩
  simp only [List.mem_flatMap, entry, List.mem_cons, List.not_mem_nil, or_false]
  rintro item ⟨x, hx, rfl | rfl⟩
  · trivial
  · exact h x hx

theorem fits_of_fits_record {fields : List (Nat × Item)} {depth : Nat}
    (h : (record fields).Fits depth) : ∀ x ∈ fields, x.2.Fits (depth + 1) := by
  intro x hx
  have hmem : x.2 ∈ fields.flatMap fun x => entry x.1 x.2 :=
    List.mem_flatMap.2 ⟨x, hx, by simp [entry]⟩
  exact fitAll_iff.1 h.2.2 _ hmem

theorem eq_of_mem_fieldUnless {empty : Bool} {number : Nat} {item : Item} {x : Nat × Item}
    (h : x ∈ fieldUnless empty number item) : x = (number, item) := by
  cases empty
  · exact List.mem_singleton.1 h
  · exact absurd h List.not_mem_nil

theorem length_fieldUnless_le (empty : Bool) (number : Nat) (item : Item) :
    (fieldUnless empty number item).length ≤ 1 := by
  cases empty <;> simp [fieldUnless]

theorem plain_encodeInst (i : Inst) : (encodeInst i).Plain := by
  refine plain_array ?_
  have hnumber := i.op.number.toNat_lt
  simp only [List.mem_cons, List.not_mem_nil, or_false]
  rintro item (rfl | rfl | rfl | rfl)
  · change i.op.number.toNat < 2 ^ 64
    omega
  · exact plain_ofInt64 i.a
  · exact plain_ofInt64 i.b
  · exact plain_ofInt64 i.c

theorem literalFields_cases {lit : Literal} {x : Nat × Item} (h : x ∈ literalFields lit) :
    x = (1, .unsigned lit.kind.toNat) ∨ x = (2, .ofInt lit.int.toInt) ∨ x = (3, .float lit.float) ∨
      x = (4, .ofText lit.text) := by
  simp only [literalFields, List.mem_append, List.mem_singleton] at h
  rcases h with ((h | h) | h) | h
  · exact .inl h
  · exact .inr (.inl (eq_of_mem_fieldUnless h))
  · exact .inr (.inr (.inl (eq_of_mem_fieldUnless h)))
  · exact .inr (.inr (.inr (eq_of_mem_fieldUnless h)))

theorem plain_encodeLiteral (lit : Literal) : (encodeLiteral lit).Plain := by
  have hkind := lit.kind.toNat_lt
  rw [encodeLiteral_eq]
  refine plain_record fun x hx => ?_
  obtain rfl | rfl | rfl | rfl := literalFields_cases hx
  · refine ⟨by norm_num, ?_⟩
    change lit.kind.toNat < 2 ^ 64
    omega
  · exact ⟨by norm_num, plain_ofInt64 lit.int⟩
  · exact ⟨by norm_num, trivial⟩
  · exact ⟨by norm_num, trivial⟩

theorem blockFields_cases {order : List Nat} {b : Block} {x : Nat × Item}
    (h : x ∈ blockFields order b) :
    x = (1, .ofText b.name) ∨ x = (2, .ofInt b.locals.toInt) ∨ x = (3, .ofInt b.registers.toInt) ∨
      x = (4, .array (b.code.toList.map encodeInst)) ∨
      x = (5, .array (b.pool.toList.map encodeLiteral)) ∨
      x = (6, .array (b.symbols.toList.map .ofText)) ∨
      x = (7, .array (b.children.toList.map fun i => .unsigned (order.idxOf i))) := by
  simp only [blockFields, List.mem_append, List.mem_cons, List.not_mem_nil, or_false] at h
  rcases h with (((h | h) | h) | h) | h
  · exact .inl (eq_of_mem_fieldUnless h)
  · tauto
  · have := eq_of_mem_fieldUnless h
    tauto
  · have := eq_of_mem_fieldUnless h
    tauto
  · have := eq_of_mem_fieldUnless h
    tauto

theorem plain_encodeBlock {order : List Nat} (b : Block) (hshort : order.length < 2 ^ 64) :
    (encodeBlock order b).Plain := by
  rw [encodeBlock_eq]
  refine plain_record fun x hx => ?_
  obtain rfl | rfl | rfl | rfl | rfl | rfl | rfl := blockFields_cases hx
  · exact ⟨by norm_num, trivial⟩
  · exact ⟨by norm_num, plain_ofInt64 b.locals⟩
  · exact ⟨by norm_num, plain_ofInt64 b.registers⟩
  · refine ⟨by norm_num, plain_array ?_⟩
    simpa using fun i _ => plain_encodeInst i
  · refine ⟨by norm_num, plain_array ?_⟩
    simpa using fun lit _ => plain_encodeLiteral lit
  · refine ⟨by norm_num, plain_array ?_⟩
    simp [Item.ofText, Item.Plain]
  · refine ⟨by norm_num, plain_array ?_⟩
    simp only [List.mem_map]
    rintro item ⟨i, -, rfl⟩
    exact Nat.lt_of_le_of_lt List.idxOf_le_length hshort

theorem plain_file {order : List Nat} {blocks : List Block} (hshort : order.length < 2 ^ 64) :
    (record (fileFields order blocks)).Plain := by
  refine plain_record ?_
  simp only [fileFields, List.mem_cons, List.not_mem_nil, or_false]
  rintro x (rfl | rfl | rfl)
  · exact ⟨by norm_num, trivial⟩
  · exact ⟨by norm_num, (by decide : version < 2 ^ 64)⟩
  · refine ⟨by norm_num, plain_array ?_⟩
    simpa using fun b _ => plain_encodeBlock b hshort

theorem fits_encodeInst (i : Inst) {depth : Nat} (hdepth : depth < maxNesting) :
    (encodeInst i).Fits depth := by
  refine fits_array hdepth (by simp [maxElements]) ?_
  simp only [List.mem_cons, List.not_mem_nil, or_false]
  rintro item (rfl | rfl | rfl | rfl)
  · trivial
  · exact fits_ofInt _
  · exact fits_ofInt _
  · exact fits_ofInt _

theorem fits_encodeLiteral (lit : Literal) {depth : Nat} (hdepth : depth < maxNesting) :
    (encodeLiteral lit).Fits depth := by
  rw [encodeLiteral_eq]
  refine fits_record hdepth ?_ fun x hx => ?_
  · have hint := length_fieldUnless_le (lit.int == 0) 2 (.ofInt lit.int.toInt)
    have hfloat := length_fieldUnless_le lit.float.isZero 3 (.float lit.float)
    have htext := length_fieldUnless_le lit.text.isEmpty 4 (.ofText lit.text)
    simp only [literalFields, List.length_append, List.length_singleton, maxElements]
    omega
  · obtain rfl | rfl | rfl | rfl := literalFields_cases hx
    · trivial
    · exact fits_ofInt _
    · trivial
    · trivial

theorem fits_encodeBlock {order : List Nat} {b : Block} (h : b.Short) {depth : Nat}
    (hdepth : depth + 2 < maxNesting) : (encodeBlock order b).Fits depth := by
  rw [encodeBlock_eq]
  refine fits_record (by omega) ?_ fun x hx => ?_
  · have hname := length_fieldUnless_le b.name.isEmpty 1 (.ofText b.name)
    have hpool := length_fieldUnless_le b.pool.isEmpty 5 (.array (b.pool.toList.map encodeLiteral))
    have hsymbols := length_fieldUnless_le b.symbols.isEmpty 6
      (.array (b.symbols.toList.map .ofText))
    have hchildren := length_fieldUnless_le b.children.isEmpty 7
      (.array (b.children.toList.map fun i => .unsigned (order.idxOf i)))
    simp only [blockFields, List.length_append, List.length_cons, List.length_nil, maxElements]
    omega
  · obtain rfl | rfl | rfl | rfl | rfl | rfl | rfl := blockFields_cases hx
    · trivial
    · exact fits_ofInt _
    · exact fits_ofInt _
    · refine fits_array (by omega) (by simpa using h.code) ?_
      simpa using fun i _ => fits_encodeInst i hdepth
    · refine fits_array (by omega) (by simpa using h.pool) ?_
      simpa using fun lit _ => fits_encodeLiteral lit hdepth
    · refine fits_array (by omega) (by simpa using h.symbols) ?_
      simp [Item.ofText, Item.Fits]
    · refine fits_array (by omega) (by simpa using h.children) ?_
      simp [Item.Fits]

/-- A list that fits is not too long, also when it was left out. -/
theorem size_le_of_fits {α : Type} {xs : Array α} {write : α → Item} {number depth : Nat}
    (h : ∀ x ∈ fieldUnless xs.isEmpty number (.array (xs.toList.map write)), x.2.Fits depth) :
    xs.size ≤ maxElements := by
  cases hempty : xs.isEmpty with
  | true =>
    rw [Array.isEmpty_iff] at hempty
    rw [hempty]
    exact Nat.zero_le _
  | false =>
    rw [hempty] at h
    simpa using (h _ List.mem_cons_self).2.1

theorem short_of_fits {order : List Nat} {b : Block} {depth : Nat}
    (h : (encodeBlock order b).Fits depth) : b.Short := by
  rw [encodeBlock_eq] at h
  have hfields := fits_of_fits_record h
  simp only [blockFields, List.forall_mem_append] at hfields
  obtain ⟨⟨⟨⟨-, hsizes⟩, hpool⟩, hsymbols⟩, hchildren⟩ := hfields
  have hcode := hsizes (4, .array (b.code.toList.map encodeInst)) (by simp)
  exact ⟨by simpa using hcode.2.1, size_le_of_fits hpool, size_le_of_fits hsymbols,
    size_le_of_fits hchildren⟩

theorem fits_file {order : List Nat} {blocks : List Block} :
    (record (fileFields order blocks)).Fits 0 ↔
      blocks.length ≤ maxElements ∧ ∀ b ∈ blocks, b.Short := by
  refine ⟨fun h => ?_, fun ⟨hcount, h⟩ => ?_⟩
  · have hblocks := fits_of_fits_record h (3, .array (blocks.map (encodeBlock order)))
      (by simp [fileFields])
    refine ⟨by simpa using hblocks.2.1, fun b hb => ?_⟩
    exact short_of_fits (fitAll_iff.1 hblocks.2.2 _ (List.mem_map_of_mem hb))
  refine fits_record (by decide) (by simp [fileFields, maxElements]) ?_
  simp only [fileFields, List.mem_cons, List.not_mem_nil, or_false]
  rintro x (rfl | rfl | rfl)
  · trivial
  · trivial
  · refine fits_array (by decide) (by simpa using hcount) ?_
    simpa using fun b hb => fits_encodeBlock (h b hb) (by decide)

end Image

end ObjectMachine
