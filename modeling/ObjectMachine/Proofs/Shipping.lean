import ObjectMachine.Proofs.Assembling
import ObjectMachine.Proofs.Images
import ObjectMachine.Proofs.Listings

/-! Programs shipped as images. An image of an assembled program can be read back just when its texts
are UTF-8 and its lists are not too long. What comes back has the listing of the program, but for
negative zeros, which come back as zeros. -/

namespace ObjectMachine

open Assembly

/-! ### Signs of zeros -/

namespace Program

/-- The program as an image gives it back: without signs of zeros and payloads of NaNs. -/
def settled (p : Program) : Program := ⟨p.blocks.map Block.settled⟩

theorem block_settled (p : Program) (i : Nat) : p.settled.block i = (p.block i).settled := by
  simp only [block, settled, Array.getD_eq_getD_getElem?, Array.getElem?_map]
  cases p.blocks[i]?
  · simp [Block.settled]
  · rfl

theorem moved_settled (p : Program) : Moved id p.Reached p p.settled := by
  refine ⟨fun i hi c hc => hi.child hc, fun _ _ _ _ heq => heq, fun i _ => ?_⟩
  rw [List.map_id, children, id, p.block_settled]
  rfl

theorem names_settled (p : Program) : Listing.names p.settled = Listing.names p := by
  have hnames := p.moved_settled.names_eq (.root p) rfl (by simp [settled]) fun i _ => by
    rw [id, p.block_settled]
    rfl
  exact hnames.trans (List.map_id'' (fun _ => rfl) _)

end Program

theorem Double.write_settled {x : Double} (h : x.isZero → x.isNegative = false) :
    x.settled.write = x.write := by
  unfold Double.settled Cbor.settledFloat
  cases hzero : x.isZero with
  | true =>
    have hmagnitude : x.magnitude = 0 := by simpa [Double.isZero] using hzero
    have heta := x.ofMagnitude_eta
    rw [hmagnitude, h hzero] at heta
    rw [← heta]
    rfl
  | false =>
    cases hnan : x.isNaN with
    | true =>
      rw [Double.write, Double.write, hnan]
      rfl
    | false => rfl

def Literal.isNegativeZero (lit : Literal) : Bool :=
  lit.kind == 1 && lit.float.isZero && lit.float.isNegative

theorem Literal.write_settled {lit : Literal} (h : lit.isNegativeZero = false) :
    lit.settled.write = lit.write := by
  simp only [write, settled]
  split
  · next hkind =>
    have hfloat : lit.float.settled.write = lit.float.write := Double.write_settled fun hzero => by
      simpa [isNegativeZero, hkind, hzero] using h
    exact congrArg (fun t : Text => if t.containsAny ".eIN" then t else t ++ ".0") hfloat
  · rfl
  · rfl

theorem Literal.shrinks_settled (lit : Literal) :
    Text.Shrinks (lit.isNegativeZero) lit.settled.write lit.write := by
  cases hzero : lit.isNegativeZero with
  | false =>
    rw [write_settled hzero]
    exact (Text.Shrinks.refl _).mono nofun
  | true =>
    simp only [isNegativeZero, Bool.and_eq_true, beq_iff_eq] at hzero
    obtain ⟨⟨hkind, hfloat⟩, hnegative⟩ := hzero
    have hmagnitude : lit.float.magnitude = 0 := by simpa [Double.isZero] using hfloat
    have heta := lit.float.ofMagnitude_eta
    rw [hmagnitude, hnegative] at heta
    simp only [write, settled, hkind]
    rw [← heta]
    exact ⟨by decide, fun _ => by decide⟩

namespace Listing

/-- The operand shows a literal that is a zero with a sign. -/
def ShowsSign (b : Block) (x : OperandKind × Int64) : Prop :=
  x.1 = .literal ∧ ∃ lit, entryAt? b.pool x.2 = some lit ∧ lit.isNegativeZero

variable {names : List (Nat × Text)} {b : Block}

theorem shrinks_writeOperand (x : OperandKind × Int64) : Text.Shrinks (ShowsSign b x)
    (writeOperand names b.settled x.1 x.2) (writeOperand names b x.1 x.2) := by
  obtain ⟨kind, n⟩ := x
  cases kind
  case literal =>
    rw [writeOperand, writeOperand, Block.settled, entryAt?_map]
    cases hentry : entryAt? b.pool n with
    | none => exact (Text.Shrinks.refl _).mono (by simp [ShowsSign, hentry])
    | some lit => exact lit.shrinks_settled.mono (by simp [ShowsSign, hentry])
  all_goals exact (Text.Shrinks.refl _).mono (by simp [ShowsSign])

theorem shrinks_writeInst (i : Inst) : Text.Shrinks (∃ x ∈ i.operands, ShowsSign b x)
    (writeInst names b.settled i) (writeInst names b i) := by
  refine (Text.Shrinks.flatMap fun x _ => ?_).within _ _
  exact ((Text.Shrinks.refl [32]).append (shrinks_writeOperand x)).mono .inr

theorem shrinks_writeSection (name : Text) :
    Text.Shrinks (∃ i ∈ b.code.toList, ∃ x ∈ i.operands, ShowsSign b x)
      (writeSection names name b.settled) (writeSection names name b) := by
  have hcode : Text.Shrinks (∃ x ∈ b.code.toList.zipIdx, ∃ o ∈ x.1.operands, ShowsSign b o)
      (b.code.toList.zipIdx.flatMap fun x =>
        writeLabel (targets b) x.2 ++ writeInst names b.settled x.1)
      (b.code.toList.zipIdx.flatMap fun x =>
        writeLabel (targets b) x.2 ++ writeInst names b x.1) :=
    .flatMap fun x _ => ((Text.Shrinks.refl _).append (shrinks_writeInst x.1)).mono .inr
  refine Text.Shrinks.mono ((hcode.within _ _).append (.refl _)) ?_
  rintro ⟨i, hi, hshows⟩
  obtain ⟨pc, hpc⟩ := List.mem_iff_getElem?.1 hi
  exact .inl ⟨(i, pc), List.mem_zipIdx_iff_getElem?.2 hpc, hshows⟩

end Listing

namespace Program

variable {p : Program}

/-- Without negative zeros, settling shows nowhere in a listing. -/
theorem listing_settled
    (h : ∀ i, p.Reached i → ∀ lit ∈ (p.block i).pool, lit.isNegativeZero = false) :
    p.settled.listing = p.listing := by
  refine p.moved_settled.listing_eq (.root p) rfl (by simp [settled]) (fun i _ => ?_) fun i hi => ?_
  · rw [id, p.block_settled]
    rfl
  · rw [id, p.block_settled, Block.settled, Array.map_map]
    exact Array.map_congr_left fun lit hlit => Literal.write_settled (h i hi lit hlit)

theorem shrinks_listing (p : Program) : Text.Shrinks
    (∃ i ∈ p.visitOrder, ∃ inst ∈ (p.block i).code.toList, ∃ x ∈ inst.operands,
      Listing.ShowsSign (p.block i) x) p.settled.listing p.listing := by
  unfold listing
  dsimp only
  rw [names_settled]
  simp only [block_settled]
  refine (Text.Shrinks.join _ fun x _ => Listing.shrinks_writeSection x.2).mono ?_
  rintro ⟨i, hi, hshows⟩
  rw [← Listing.map_fst_assignNames p [] 0 p.visitOrder] at hi
  obtain ⟨x, hx, rfl⟩ := List.mem_map.1 hi
  exact ⟨x, hx, hshows⟩

end Program

/-! ### Reading back -/

/-- The defects of a block do not depend on what its literals and children are. -/
theorem Block.defect?_congr {b b' : Block} (houtline : b'.outline = b.outline)
    (hpool : b'.pool.size = b.pool.size) (hchildren : b'.children.size = b.children.size) :
    b'.defect? = b.defect? := by
  obtain ⟨hname, -, hregisters, hcode, -, hsymbols, -⟩ := Block.mk.inj houtline
  have hrange : b'.operandInRange = b.operandInRange := by
    funext span kind n
    cases kind <;> simp [operandInRange, hregisters, hcode, hpool, hsymbols, hchildren]
  have hoperand : b'.operandDefect? = b.operandDefect? := by
    funext pc i
    rw [operandDefect?, operandDefect?, hrange, hname]
  have hinst : b'.instDefect? = b.instDefect? := by
    funext pc i
    rw [instDefect?, instDefect?, hoperand, hname]
  rw [defect?, defect?, hinst, hname, hregisters, hcode]

namespace Image

variable {p u : Program}

/-- The program can be stored: all its texts are UTF-8 and its lists are not too long. -/
structure Storable (p : Program) : Prop where
  count : p.visitOrder.length ≤ Cbor.maxElements
  blocks : ∀ i, p.Reached i → (p.block i).Short ∧ (p.block i).Legible

def restoration (p : Program) : Program := ⟨(p.visitOrder.map p.restored).toArray⟩

namespace Restores

theorem of_acyclic (hchildren : ∀ i, p.Reached i → ∀ c ∈ p.children i, c < p.blocks.size)
    (hacyclic : p.cyclicBlock? = none) : Restores p (restoration p) where
  linked i hi c hc := by
    have hreached := (Program.mem_visitOrder.1 hi).1
    have hc' : c ∈ p.visitOrder := Program.mem_visitOrder.2 ⟨hreached.child hc, hchildren i hreached c hc⟩
    obtain ⟨hzero, hroot⟩ := position_zero (List.ne_nil_of_mem hi)
    refine ⟨Nat.pos_of_ne_zero fun hposition => ?_, hc'⟩
    have heq : c = 0 := (List.idxOf_inj hc').1 (hposition.trans hzero.symm)
    exact hreached.root_not_mem_children hacyclic (heq ▸ hc)
  blocks := rfl

theorem acyclic (h : Restores p u) (hne : p.visitOrder ≠ []) (hacyclic : p.cyclicBlock? = none) :
    u.cyclicBlock? = none := by
  obtain ⟨hzero, hroot⟩ := position_zero hne
  rw [h.moved.cyclicBlock?_eq hroot hzero h.size_iff, hacyclic]
  rfl

theorem valid (h : Restores p u) (hne : p.visitOrder ≠ []) (hvalid : p.defect? = none) :
    u.defect? = none := by
  rw [Program.defect?, List.findSome?_eq_none_iff] at hvalid ⊢
  rw [h.visitOrder_eq hne, List.forall_mem_map]
  intro i hi
  rw [h.block_eq hi, ← hvalid i hi]
  exact Block.defect?_congr rfl (by simp [Program.restored, Block.settled]) (by simp [Program.restored])

theorem listing_eq (h : Restores p u) (hne : p.visitOrder ≠ []) : u.listing = p.settled.listing := by
  obtain ⟨hzero, hroot⟩ := position_zero hne
  have hchildren : ∀ i, p.settled.children i = p.children i := fun i => by
    rw [Program.children, p.block_settled]
    rfl
  have hsize : p.settled.blocks.size = p.blocks.size := by simp [Program.settled]
  have hmoved : Program.Moved p.position (· ∈ p.visitOrder) p.settled u := by
    refine ⟨fun i hi => ?_, h.moved.inj, fun i hi => ?_⟩
    · rw [hchildren]
      exact h.moved.closed i hi
    · rw [hchildren]
      exact h.moved.children i hi
  refine hmoved.listing_eq hroot hzero (by rw [hsize]; exact h.size_iff) (fun i hi => ?_) fun i hi => ?_
  · rw [h.block_eq hi, p.block_settled]
    rfl
  · rw [h.block_eq hi, p.block_settled]
    rfl

end Restores

end Image

/-- Every literal of an assembled block is some operand's. -/
theorem Block.Assembled.showsSign {b : Block} (h : b.Assembled) (hsize : b.pool.size < 2 ^ 63)
    {lit : Literal} (hlit : lit ∈ b.pool) (hzero : lit.isNegativeZero) :
    ∃ inst ∈ b.code.toList, ∃ x ∈ inst.operands, Listing.ShowsSign b x := by
  obtain ⟨k, hk, rfl⟩ := Array.mem_iff_getElem.1 hlit
  have huse := h.pool.mem_of_new (Nat.zero_le k) hk
  obtain ⟨inst, hinst, hn⟩ := List.mem_flatMap.1 huse
  obtain ⟨x, hx, heq⟩ := List.mem_map.1 hn
  obtain ⟨hx, hkind⟩ := List.mem_filter.1 hx
  refine ⟨inst, hinst, x, hx, by simpa using hkind, b.pool[k], ?_, hzero⟩
  rw [heq]
  exact Listing.entryAt?_ofNat hk (by omega)

theorem Opcode.ofNumber_number : ∀ op ∈ Opcode.all, Opcode.ofNumber op.number = op := by decide

theorem Block.Assembled.spelled {b : Block} (h : b.Assembled) : b.Spelled :=
  fun i hi => Opcode.ofNumber_number i.op (h.ops i hi)

namespace Program.Assembled

variable {p u : Program}

open Image

theorem spelled (h : p.Assembled) : ∀ i ∈ p.visitOrder, (p.block i).Spelled :=
  fun _ hi => (h.block (h.mem_visitOrder.1 hi)).spelled

/-- The image of an assembled program can be read back just when the program can be stored. -/
theorem decode_encode_iff (h : p.Assembled) (hlength : (encode p).length < 2 ^ 63) :
    (∃ u, decode (encode p) = .ok u) ↔ Storable p := by
  constructor
  · rintro ⟨u, hu⟩
    obtain ⟨file, hfile, -⟩ := decode_eq_ok.1 hu
    obtain ⟨hcount, hblocks⟩ := (read_encode h.spelled hlength).sure_of hfile
    exact ⟨hcount, fun i hi => hblocks i (h.mem_visitOrder.2 hi)⟩
  · intro hstorable
    have hrestores : Restores p (restoration p) := by
      refine .of_acyclic (fun i hi c hc => ?_) h.acyclic
      exact h.lt_size (hi.child hc)
    have hne := h.visitOrder_ne_nil
    exact ⟨_, decode_of_restores h.spelled hlength hstorable.count
      (fun i hi => hstorable.blocks i (h.mem_visitOrder.1 hi)) hne hrestores
      (hrestores.acyclic hne h.acyclic) (hrestores.valid hne h.valid)⟩

/-- Settling shows in a listing wherever a literal is a negative zero. -/
theorem unsigned_of_listing_settled (h : p.Assembled)
    (hsize : ∀ i, p.Reached i → (p.block i).pool.size ≤ Cbor.maxElements)
    (hlisting : p.settled.listing = p.listing) :
    ∀ i, p.Reached i → ∀ lit ∈ (p.block i).pool, lit.isNegativeZero = false := by
  intro i hi lit hlit
  by_contra hsign
  have hpool : (p.block i).pool.size < 2 ^ 63 := Nat.lt_of_le_of_lt (hsize i hi) (by decide)
  have hshows := (h.block hi).showsSign hpool hlit (by simpa using hsign)
  have hless := p.shrinks_listing.2 ⟨i, h.mem_visitOrder.2 hi, hshows⟩
  exact Nat.ne_of_lt hless (congrArg List.length hlisting)

theorem listing_decode (h : p.Assembled) (hlength : (encode p).length < 2 ^ 63)
    (hu : decode (encode p) = .ok u) : u.listing = p.settled.listing :=
  (restores_of_decode h.spelled hlength hu).2.1.listing_eq h.visitOrder_ne_nil

end Program.Assembled

open Image

/-- An assembled program can be shipped as an image just when all its texts are UTF-8 and none of its
lists is longer than a reader takes. What is read back has the listing of the program with its zeros
unsigned, so it is the listing of the program just when no literal is a negative zero.

The bound is that of byte strings in memory. -/
theorem image_ships {source : Text} {p : Program} (h : parse source = .ok p)
    (hlength : (encode p).length < 2 ^ 63) :
    ((∃ u, decode (encode p) = .ok u) ↔ Storable p) ∧
      ∀ u, decode (encode p) = .ok u → u.listing = p.settled.listing ∧
        (u.listing = p.listing ↔
          ∀ i, p.Reached i → ∀ lit ∈ (p.block i).pool, lit.isNegativeZero = false) := by
  have hp := parse_assembled h
  have hstorable := hp.decode_encode_iff hlength
  refine ⟨hstorable, fun u hu => ?_⟩
  have hlisting := hp.listing_decode hlength hu
  refine ⟨hlisting, fun hsame => ?_, fun hsigns => hlisting.trans (Program.listing_settled hsigns)⟩
  refine hp.unsigned_of_listing_settled (fun i hi => ?_) (hlisting.symm.trans hsame)
  exact ((hstorable.1 ⟨u, hu⟩).blocks i hi).1.pool

def literalSource (literal : String) : Text :=
  ".irep main nregs=2\n    LOADL r1 " ++ Text.ofString literal ++ "\n    RETURN r1\n.end\n"

def literalDraft (lit : Literal) : Draft :=
  { name := "main", line := 1, registers := 2, pool := #[lit],
    code := #[{ op := .loadLiteral, a := 1 }, { op := .leave, a := 1 }] }

def literalBlock (lit : Literal) : Block :=
  { name := "main", registers := 2, pool := #[lit],
    code := #[{ op := .loadLiteral, a := 1 }, { op := .leave, a := 1 }] }

def negativeZero : Literal := .ofFloat ⟨0x8000000000000000⟩

theorem storable_literal {lit : Literal} (h : lit.text.isValid) :
    Storable (.single (literalBlock lit)) where
  count := by
    rw [Program.visitOrder_single rfl]
    decide
  blocks i hi := by
    obtain rfl := Program.reached_single rfl hi
    have hname : Text.isValid "main" := by decide
    refine ⟨⟨?_, ?_, ?_, ?_⟩, hname, by simp [literalBlock], ?_⟩
    · simp [literalBlock, Cbor.maxElements]
    · simp [literalBlock, Cbor.maxElements]
    · simp [literalBlock]
    · simp [literalBlock]
    · simpa [literalBlock] using h

theorem parse_literalSource {literal : String} {lit : Literal}
    (h : Reader.lines {} (((literalSource literal).splitOn (Text.byte '\n')).zipIdx 1) =
      .ok ⟨#[literalDraft lit], none⟩) :
    parse (literalSource literal) = .ok (.single (literalBlock lit)) :=
  parse_single h rfl rfl

/-- The program of a negative zero, which comes back without its sign. -/
theorem image_ships_negativeZero :
    parse (literalSource "-0.0") = .ok (.single (literalBlock negativeZero)) ∧
    (encode (.single (literalBlock negativeZero))).length < 2 ^ 63 ∧
    ∃ u, decode (encode (.single (literalBlock negativeZero))) = .ok u ∧
      u.listing ≠ (Program.single (literalBlock negativeZero)).listing := by
  have hparse : parse (literalSource "-0.0") = .ok (.single (literalBlock negativeZero)) :=
    parse_literalSource (by decide +kernel)
  have hlength : (encode (.single (literalBlock negativeZero))).length < 2 ^ 63 := by
    rw [encode, Program.visitOrder_single rfl]
    decide +kernel
  obtain ⟨hstorable, hlisting⟩ := image_ships hparse hlength
  obtain ⟨u, hu⟩ := hstorable.2 (storable_literal (by decide))
  refine ⟨hparse, hlength, u, hu, fun hsame => ?_⟩
  have hsign := (hlisting u hu).2.1 hsame 0 (.root _) negativeZero (by simp [literalBlock])
  exact absurd hsign (by decide)

/-- A text that is not UTF-8 assembles, and its image cannot be read. -/
theorem image_refused :
    parse (literalSource "\"\\xff\"") = .ok (.single (literalBlock (.ofText [0xFF]))) ∧
    ∀ u, decode (encode (.single (literalBlock (.ofText [0xFF])))) ≠ .ok u := by
  have hparse : parse (literalSource "\"\\xff\"") = .ok (.single (literalBlock (.ofText [0xFF]))) :=
    parse_literalSource (by decide +kernel)
  have hlength : (encode (.single (literalBlock (.ofText [0xFF])))).length < 2 ^ 63 := by
    rw [encode, Program.visitOrder_single rfl]
    decide +kernel
  refine ⟨hparse, fun u hu => ?_⟩
  have hstorable := ((parse_assembled hparse).decode_encode_iff hlength).1 ⟨u, hu⟩
  have hvalid := (hstorable.blocks 0 (.root _)).2.pool (.ofText [0xFF])
    (by simp [literalBlock])
  exact absurd hvalid (by decide)

end ObjectMachine
