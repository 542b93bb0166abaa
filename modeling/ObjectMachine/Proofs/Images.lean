import ObjectMachine.Proofs.Attempts
import ObjectMachine.Proofs.Stored
import ObjectMachine.Proofs.Visits

/-! Images read back. What an image decodes to is the program it was made from, its blocks in
visiting order, and has the same image. -/

namespace ObjectMachine

open Cbor

def Program.position (p : Program) (i : Nat) : Nat := p.visitOrder.idxOf i

def Program.restored (p : Program) (i : Nat) : Block :=
  { (p.block i).settled with children := (p.block i).children.map p.position }

namespace Image

variable {p u : Program}

/-- The bytes hold a file of this version, whose blocks refer to each other. -/
def Links (bytes : Text) (u : Program) : Prop :=
  ∃ file, (package.read? bytes).bind decodeFile = some file ∧ file.magic = magic ∧
    file.version = version ∧ file.blocks ≠ [] ∧
    file.blocks.zipIdx.mapM (fun (s, i) => s.link file.blocks.length i) = .ok u.blocks.toList

/-- What is left to do once the blocks are linked. -/
theorem Links.decode_eq {bytes : Text} (h : Links bytes u) : decode bytes =
    match u.cyclicBlock? with
    | some n => .error (.cyclicBlock (u.block n).name)
    | none =>
      match u.defect? with
      | some defect => .error (.invalid defect)
      | none => .ok u := by
  obtain ⟨file, hfile, hmagic, hversion, hblocks, hlinked⟩ := h
  rw [decode, hfile]
  simp only [hmagic, hversion, hblocks, hlinked, bind, Except.bind, pure, Except.pure, ne_eq,
    not_true_eq_false, if_false, List.isEmpty_iff, Array.toArray_toList]
  cases u.cyclicBlock? with
  | some n => rfl
  | none => cases u.defect? <;> rfl

theorem Links.decode_eq_ok_iff {bytes : Text} {w : Program} (h : Links bytes w) :
    decode bytes = .ok u ↔ w = u ∧ w.cyclicBlock? = none ∧ w.defect? = none := by
  rw [h.decode_eq]
  cases w.cyclicBlock? with
  | some n => simp
  | none => cases w.defect? <;> simp

theorem exists_links_of_decode {bytes : Text} (h : decode bytes = .ok u) : ∃ w, Links bytes w := by
  unfold decode at h
  cases hfile : (package.read? bytes).bind decodeFile with
  | none => simp [hfile, throw, throwThe, MonadExceptOf.throw] at h
  | some file =>
    simp only [hfile, bind, Except.bind, throw, throwThe, MonadExceptOf.throw] at h
    by_cases hmagic : file.magic = magic
    · by_cases hversion : file.version = version
      · by_cases hblocks : file.blocks = []
        · simp [hmagic, hversion, hblocks] at h
        · simp only [hmagic, hversion, hblocks, pure, Except.pure, ne_eq, not_true_eq_false, if_false,
            List.isEmpty_iff] at h
          cases hlinked : file.blocks.zipIdx.mapM fun (s, i) => s.link file.blocks.length i with
          | error e => simp [hlinked] at h
          | ok blocks => exact ⟨⟨blocks.toArray⟩, file, hfile, hmagic, hversion, hblocks, hlinked⟩
      · simp [hmagic, hversion] at h
    · simp [hmagic] at h

/-- Decoding succeeds on what holds a file of this version, with linked, acyclic, valid blocks. -/
theorem decode_eq_ok {bytes : Text} : decode bytes = .ok u ↔
    ∃ file, (package.read? bytes).bind decodeFile = some file ∧ file.magic = magic ∧
      file.version = version ∧ file.blocks ≠ [] ∧
      file.blocks.zipIdx.mapM (fun (s, i) => s.link file.blocks.length i) = .ok u.blocks.toList ∧
      u.cyclicBlock? = none ∧ u.defect? = none := by
  constructor
  · intro h
    obtain ⟨w, hw⟩ := exists_links_of_decode h
    obtain ⟨rfl, hcyclic, hdefect⟩ := hw.decode_eq_ok_iff.1 h
    obtain ⟨file, hfile, hmagic, hversion, hblocks, hlinked⟩ := hw
    exact ⟨file, hfile, hmagic, hversion, hblocks, hlinked, hcyclic, hdefect⟩
  · rintro ⟨file, hfile, hmagic, hversion, hblocks, hlinked, hcyclic, hdefect⟩
    exact Links.decode_eq_ok_iff ⟨file, hfile, hmagic, hversion, hblocks, hlinked⟩ |>.2
      ⟨rfl, hcyclic, hdefect⟩

def StoredBlock.linked (s : StoredBlock) : Block :=
  { s.block with children := (s.children.map fun c => c.toInt.toNat).toArray }

theorem StoredBlock.link_eq_ok {s : StoredBlock} {count i : Nat} {b : Block} :
    s.link count i = .ok b ↔
      (∀ c ∈ s.children, 0 < c.toInt ∧ c.toInt < count) ∧ b = s.linked := by
  have hchild : ∀ c ∈ s.children, ∀ n,
      (if c ≤ 0 ∨ (count : Int) ≤ c.toInt then Except.error (DecodeError.badChild i c)
        else Except.ok c.toInt.toNat) = .ok n ↔
      (0 < c.toInt ∧ c.toInt < count) ∧ n = c.toInt.toNat := by
    intro c _ n
    have hout : c ≤ 0 ∨ (count : Int) ≤ c.toInt ↔ ¬(0 < c.toInt ∧ c.toInt < count) := by
      rw [Int64.le_iff_toInt_le, Int64.toInt_zero]
      omega
    by_cases h : 0 < c.toInt ∧ c.toInt < count
    · rw [if_neg (hout.not.2 (not_not_intro h))]
      simp [h, eq_comm]
    · rw [if_pos (hout.2 h)]
      simp [h]
  rw [StoredBlock.link, bind_pure_eq_ok]
  simp only [mapM_eq_ok hchild, and_assoc, exists_and_left, exists_eq_left]
  rfl

theorem link_storedBlock {order : List Nat} {b c : Block} (horder : order.length < 2 ^ 63) (i : Nat) :
    (storedBlock order b).link order.length i = .ok c ↔
      (∀ j ∈ b.children.toList, 0 < order.idxOf j ∧ j ∈ order) ∧
        c = { b.settled with children := b.children.map fun j => order.idxOf j } := by
  have hlt : ∀ j, (Int64.ofNat (order.idxOf j)).toInt = order.idxOf j := fun j =>
    Int64.toInt_ofNat_of_lt (Nat.lt_of_le_of_lt List.idxOf_le_length horder)
  have hchildren : (b.children.toList.map fun j => Int64.ofNat (order.idxOf j)).map
      (fun c => c.toInt.toNat) = b.children.toList.map fun j => order.idxOf j := by
    simp only [List.map_map, Function.comp_def, hlt, Int.toNat_natCast]
  rw [StoredBlock.link_eq_ok, StoredBlock.linked, storedBlock, hchildren, List.forall_mem_map,
    ← List.map_toArray]
  simp only [hlt, Int.natCast_pos, Int.ofNat_lt, List.idxOf_lt_length_iff]

/-- The blocks of `u` are those of `p` as its image gives them back. -/
structure Restores (p u : Program) : Prop where
  linked : ∀ i ∈ p.visitOrder, ∀ c ∈ p.children i, 0 < p.position c ∧ c ∈ p.visitOrder
  blocks : u.blocks.toList = p.visitOrder.map p.restored

def storedBlocks (p : Program) : List StoredBlock :=
  (p.visitOrder.map p.block).map (storedBlock p.visitOrder)

theorem length_storedBlocks : (storedBlocks p).length = p.visitOrder.length := by simp [storedBlocks]

theorem link_storedBlocks (horder : p.visitOrder.length < 2 ^ 63) :
    (storedBlocks p).zipIdx.mapM (fun (s, i) => s.link (storedBlocks p).length i) =
      .ok u.blocks.toList ↔ Restores p u := by
  have hlink : ∀ x ∈ p.visitOrder.zipIdx, ∀ c,
      (storedBlock p.visitOrder (p.block x.1)).link p.visitOrder.length x.2 = .ok c ↔
        (∀ j ∈ p.children x.1, 0 < p.position j ∧ j ∈ p.visitOrder) ∧ c = p.restored x.1 :=
    fun x _ c => link_storedBlock horder x.2
  rw [length_storedBlocks, storedBlocks, List.map_map, List.zipIdx_map, List.mapM_map]
  have hblocks : p.visitOrder.zipIdx.map (fun x => p.restored x.1) = p.visitOrder.map p.restored := by
    rw [← Function.comp_def, ← List.map_map, List.zipIdx_map_fst]
  refine (mapM_eq_ok hlink).trans ?_
  rw [hblocks]
  refine ⟨fun h => ⟨fun i hi => ?_, h.2⟩, fun h => ⟨fun x hx => ?_, h.blocks⟩⟩
  · obtain ⟨k, hk⟩ := List.mem_iff_getElem?.1 hi
    exact h.1 (i, k) (List.mem_zipIdx_iff_getElem?.2 hk)
  · exact h.linked x.1 (List.mem_of_getElem? (List.mem_zipIdx_iff_getElem?.1 hx))

theorem length_visitOrder_le : p.visitOrder.length ≤ (encode p).length := by
  have hblocks := length_le_nodesAll ((p.visitOrder.map p.block).map (encodeBlock p.visitOrder))
  have hnodes := package_laws.nodes_le (record (fileFields p.visitOrder (p.visitOrder.map p.block)))
  rw [List.length_map, List.length_map] at hblocks
  simp only [record, fileFields, entry, List.flatMap_cons, List.flatMap_nil, Item.nodes, nodesAll,
    List.cons_append, List.nil_append] at hnodes
  rw [encode_eq]
  exact Nat.le_trans (by omega) hnodes

theorem read_encode (hspelled : ∀ i ∈ p.visitOrder, (p.block i).Spelled)
    (hlength : (encode p).length < 2 ^ 63) :
    Yields ((package.read? (encode p)).bind decodeFile) ⟨magic, version, storedBlocks p⟩
      (p.visitOrder.length ≤ maxElements ∧ ∀ i ∈ p.visitOrder, (p.block i).Short ∧ (p.block i).Legible) := by
  have horder : p.visitOrder.length < 2 ^ 63 := Nat.lt_of_le_of_lt length_visitOrder_le hlength
  have hplain : (record (fileFields p.visitOrder (p.visitOrder.map p.block))).Plain :=
    plain_file (by omega)
  have hread := package_laws.read_write _ hplain (by rw [← encode_eq]; omega)
  rw [← encode_eq] at hread
  have hblocks : ∀ b ∈ p.visitOrder.map p.block, b.Spelled := by simpa using hspelled
  have hfile := decodeFile_record hblocks horder
  refine (hread.bind hfile).congr ?_
  rw [fits_file, List.length_map, and_assoc, List.forall_mem_map, List.forall_mem_map, forall₂_and]

theorem restores_of_decode (hspelled : ∀ i ∈ p.visitOrder, (p.block i).Spelled)
    (hlength : (encode p).length < 2 ^ 63) (h : decode (encode p) = .ok u) :
    p.visitOrder ≠ [] ∧ Restores p u ∧ u.cyclicBlock? = none ∧ u.defect? = none := by
  obtain ⟨file, hfile, -, -, hne, hlinked, hwhole⟩ := decode_eq_ok.1 h
  obtain rfl := (read_encode hspelled hlength).eq hfile
  have horder := Nat.lt_of_le_of_lt length_visitOrder_le hlength
  exact ⟨by simpa [storedBlocks] using hne, (link_storedBlocks horder).1 hlinked, hwhole⟩

theorem decode_of_restores (hspelled : ∀ i ∈ p.visitOrder, (p.block i).Spelled)
    (hlength : (encode p).length < 2 ^ 63) (hcount : p.visitOrder.length ≤ maxElements)
    (hstorable : ∀ i ∈ p.visitOrder, (p.block i).Short ∧ (p.block i).Legible)
    (hne : p.visitOrder ≠ []) (h : Restores p u) (hcyclic : u.cyclicBlock? = none)
    (hdefect : u.defect? = none) : decode (encode p) = .ok u := by
  have horder := Nat.lt_of_le_of_lt length_visitOrder_le hlength
  exact decode_eq_ok.2 ⟨_, (read_encode hspelled hlength).of_sure ⟨hcount, hstorable⟩, rfl, rfl,
    by simpa [storedBlocks] using hne, (link_storedBlocks horder).2 h, hcyclic, hdefect⟩

/-! ### The program that comes back -/

theorem position_zero (hne : p.visitOrder ≠ []) : p.position 0 = 0 ∧ 0 ∈ p.visitOrder := by
  have hpos : 0 < p.blocks.size := by
    by_contra hzero
    exact hne (Program.visitOrder_eq_nil (by omega))
  obtain ⟨rest, horder⟩ := Program.visitOrder_eq_cons hpos
  rw [Program.position, horder]
  simp

namespace Restores

theorem size_eq (h : Restores p u) : u.blocks.size = p.visitOrder.length := by
  rw [← Array.length_toList, h.blocks, List.length_map]

theorem block_eq (h : Restores p u) {i : Nat} (hi : i ∈ p.visitOrder) :
    u.block (p.position i) = p.restored i := by
  have hlt : p.position i < p.visitOrder.length := List.idxOf_lt_length_iff.2 hi
  rw [Program.block, Array.getD_eq_getD_getElem?, ← Array.getElem?_toList, h.blocks,
    List.getElem?_map, List.getElem?_eq_getElem hlt]
  exact congrArg p.restored (List.getElem_idxOf hlt)

theorem moved (h : Restores p u) : Program.Moved p.position (· ∈ p.visitOrder) p u where
  closed i hi c hc := (h.linked i hi c hc).2
  inj _ _ hi _ heq := (List.idxOf_inj hi).1 heq
  children i hi := by
    rw [Program.children, h.block_eq hi]
    exact Array.toList_map

theorem size_iff (h : Restores p u) (i : Nat) (hi : i ∈ p.visitOrder) :
    i < p.blocks.size ↔ p.position i < u.blocks.size := by
  have hlt : p.position i < p.visitOrder.length := List.idxOf_lt_length_iff.2 hi
  rw [h.size_eq]
  exact iff_of_true (Program.mem_visitOrder.1 hi).2 hlt

theorem visitOrder_eq (h : Restores p u) (hne : p.visitOrder ≠ []) :
    u.visitOrder = p.visitOrder.map p.position :=
  h.moved.visitOrder_eq (position_zero hne).2 (position_zero hne).1 h.size_iff

end Restores

theorem map_position : p.visitOrder.map p.position = List.range p.visitOrder.length := by
  refine List.ext_getElem (by simp) fun k hk _ => ?_
  rw [List.getElem_map, List.getElem_range]
  exact Program.visitOrder_nodup.idxOf_getElem k (by simpa using hk)

/-- A block is stored alike under both numberings. -/
theorem encodeBlock_restored {i : Nat} (h : ∀ c ∈ p.children i, c ∈ p.visitOrder) :
    encodeBlock (p.visitOrder.map p.position) (p.restored i) =
      encodeBlock p.visitOrder (p.block i).settled := by
  have hchildren : (p.restored i).children.toList.map (p.visitOrder.map p.position).idxOf =
      (p.block i).settled.children.toList.map p.visitOrder.idxOf := by
    rw [map_position, Program.restored, Array.toList_map, List.map_map]
    refine List.map_congr_left fun c hc => ?_
    have hlt : p.position c < p.visitOrder.length := List.idxOf_lt_length_iff.2 (h c hc)
    have hat := List.nodup_range.idxOf_getElem (p.position c)
      (Nat.lt_of_lt_of_eq hlt List.length_range.symm)
    rwa [List.getElem_range] at hat
  have hunsigned : ∀ (order : List Nat) (b : Block), (b.children.toList.map fun i =>
      Item.unsigned (order.idxOf i)) = (b.children.toList.map order.idxOf).map .unsigned := by simp
  have hempty : (p.restored i).children.isEmpty = (p.block i).settled.children.isEmpty := by
    simp [Program.restored, Block.settled, Array.isEmpty]
  rw [encodeBlock, encodeBlock, hunsigned, hunsigned, hchildren, hempty]
  rfl

/-- What comes back has the same image. -/
theorem Restores.encode_eq (h : Restores p u) (hne : p.visitOrder ≠ []) : encode u = encode p := by
  have hblocks : (u.visitOrder.map u.block).map (encodeBlock u.visitOrder) =
      ((p.visitOrder.map p.block).map Block.settled).map (encodeBlock p.visitOrder) := by
    rw [h.visitOrder_eq hne, List.map_map, List.map_map, List.map_map, List.map_map]
    refine List.map_congr_left fun i hi => ?_
    simp only [Function.comp_apply]
    rw [h.block_eq hi]
    exact encodeBlock_restored fun c hc => (h.linked i hi c hc).2
  rw [Image.encode_eq, Image.encode_eq, ← write_fileFields_settled p.visitOrder, fileFields, fileFields,
    hblocks]

end Image

open Image

/-- What the image of a program decodes to is the same graph of blocks. The blocks that the root
leads to are taken one to one to those of the new program, the root to the root, each with its
children in the same order and with its name, sizes, code, symbols and pool as they were, but for
the sign of a zero and the payload of a NaN. So the new program has the same image.

`Spelled` says that no operation that has a name is given by its number instead, and the bound is that
of byte strings in memory. -/
theorem image_preserves_graph {p u : Program} (hspelled : ∀ i, p.Reached i → (p.block i).Spelled)
    (hlength : (encode p).length < 2 ^ 63) (h : decode (encode p) = .ok u) :
    ∃ f : Nat → Nat, f 0 = 0 ∧ Set.BijOn f {i | p.Reached i} {j | u.Reached j} ∧
      (∀ i, p.Reached i → u.block (f i) =
        { (p.block i).settled with children := (p.block i).children.map f }) ∧
      encode u = encode p := by
  have hvisited : ∀ i ∈ p.visitOrder, (p.block i).Spelled :=
    fun i hi => hspelled i (Program.mem_visitOrder.1 hi).1
  obtain ⟨hne, hrestores, -⟩ := restores_of_decode hvisited hlength h
  obtain ⟨hzero, hroot⟩ := position_zero hne
  have hmoved := hrestores.moved
  refine ⟨p.position, hzero, hmoved.bijOn hroot hzero, fun i hi => ?_, hrestores.encode_eq hne⟩
  exact hrestores.block_eq (hmoved.reached hroot hi)

/-- A child twice in one block and in two blocks, two different blocks of one name, a negative zero,
an unusual NaN, and literals with values that their kinds do not select. -/
def tangled : Program :=
  ⟨#[{ name := "main", registers := 1, children := #[2, 1, 2],
       pool := #[.ofFloat ⟨0x8000000000000000⟩, .ofFloat ⟨0x7FF8000000000001⟩, { kind := 0, int := 5, text := "x" },
         { kind := 7, int := -1, float := ⟨0x3FF8000000000000⟩, text := "y" }] },
     { name := "leaf", registers := 1, children := #[3] },
     { registers := 1, children := #[3] },
     { name := "leaf", registers := 2 }]⟩

def untangled : Program :=
  ⟨#[{ name := "main", registers := 1, children := #[1, 3, 1], 
       pool := #[.ofFloat .zero, .ofFloat .nan, { kind := 0, int := 5, text := "x" },
         { kind := 7, int := -1, float := ⟨0x3FF8000000000000⟩, text := "y" }] },
     { registers := 1, children := #[2] },
     { name := "leaf", registers := 2 },
     { name := "leaf", registers := 1, children := #[2] }]⟩

theorem visitOrder_tangled : tangled.visitOrder = [0, 2, 3, 1] := by
  have hrange : List.range tangled.blocks.size = [0, 1, 2, 3] := rfl
  rw [Program.visitOrder, hrange]
  simp [Program.visits, Program.children, Program.block, tangled]

theorem spelled_tangled (i : Nat) : (tangled.block i).Spelled := by
  rcases i with _ | _ | _ | _ | i <;> simp [Block.Spelled, Program.block, tangled]

theorem length_encode_tangled : (encode tangled).length < 2 ^ 63 := by
  rw [encode, visitOrder_tangled]
  decide +kernel

theorem decode_encode_tangled : decode (encode tangled) = .ok untangled := by
  have hrange : List.range untangled.blocks.size = [0, 1, 2, 3] := rfl
  have hvisits : untangled.visitOrder = [0, 1, 2, 3] := by
    rw [Program.visitOrder, hrange]
    simp [Program.visits, Program.children, Program.block, untangled]
  have hcyclic : untangled.cyclicBlock? = none := by
    rw [Program.cyclicBlock?, hrange]
    simp [Program.openBlock?, Program.children, Program.block, untangled]
  have hrestores : Restores tangled untangled := by
    constructor
    · simp only [Program.position, visitOrder_tangled]
      decide
    · have hposition : tangled.position = [0, 2, 3, 1].idxOf :=
        funext fun i => by rw [Program.position, visitOrder_tangled]
      simp only [visitOrder_tangled, List.map_cons, List.map_nil, Program.restored, hposition]
      simp [Program.block, tangled, untangled, Block.settled, Literal.settled]
      decide
  refine decode_of_restores (fun i _ => spelled_tangled i) length_encode_tangled ?_ ?_ ?_ hrestores
    hcyclic ?_
  · rw [visitOrder_tangled]
    decide
  · intro i _
    rcases i with _ | _ | _ | _ | i <;> refine ⟨⟨?_, ?_, ?_, ?_⟩, ⟨?_, ?_, ?_⟩⟩ <;>
      simp [Program.block, tangled, maxElements] <;> decide
  · rw [visitOrder_tangled]
    decide
  · rw [Program.defect?, hvisits]
    decide

theorem image_preserves_graph_tangled : (∀ i, tangled.Reached i → (tangled.block i).Spelled) ∧
    (encode tangled).length < 2 ^ 63 ∧ decode (encode tangled) = .ok untangled ∧
    ∃ f : Nat → Nat, f 0 = 0 ∧ Set.BijOn f {i | tangled.Reached i} {j | untangled.Reached j} ∧
      (∀ i, tangled.Reached i → untangled.block (f i) =
        { (tangled.block i).settled with children := (tangled.block i).children.map f }) ∧
      encode untangled = encode tangled :=
  ⟨fun i _ => spelled_tangled i, length_encode_tangled, decode_encode_tangled,
    image_preserves_graph (fun i _ => spelled_tangled i) length_encode_tangled decode_encode_tangled⟩

end ObjectMachine
