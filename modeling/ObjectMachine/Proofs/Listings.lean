import ObjectMachine.Code.Listing
import ObjectMachine.Proofs.Visits

/-! Listings compared. A program with its blocks at other positions has the same listing when its
literals are written alike, and a listing shrinks when a part of it does. -/

namespace ObjectMachine

def Block.outline (b : Block) : Block := { b with pool := #[], children := #[] }

namespace Listing

variable {p q : Program} {f : Nat → Nat} {R : Nat → Prop}

theorem assignNames_map {order : List Nat} (h : ∀ i ∈ order, (q.block (f i)).name = (p.block i).name)
    (taken : List Text) (n : Nat) : assignNames q taken n (order.map f) =
      (assignNames p taken n order).map fun x => (f x.1, x.2) := by
  induction order generalizing taken n with
  | nil => rfl
  | cons i rest ih =>
    obtain ⟨hi, hrest⟩ := List.forall_mem_cons.1 h
    rw [List.map_cons, assignNames, assignNames, hi]
    dsimp only
    split
    · rw [ih hrest, List.map_cons]
    · rw [ih hrest, List.map_cons]

theorem map_fst_assignNames (p : Program) (taken : List Text) (n : Nat) (order : List Nat) :
    (assignNames p taken n order).map (·.1) = order := by
  induction order generalizing taken n with
  | nil => rfl
  | cons i rest ih =>
    rw [assignNames]
    dsimp only
    split
    · rw [List.map_cons, ih]
    · rw [List.map_cons, ih]

theorem lookup_map {xs : List (Nat × Text)} {i : Nat} (h : ∀ x ∈ xs, f x.1 = f i → x.1 = i) :
    (xs.map fun x => (f x.1, x.2)).lookup (f i) = xs.lookup i := by
  induction xs with
  | nil => rfl
  | cons x xs ih =>
    obtain ⟨hx, hxs⟩ := List.forall_mem_cons.1 h
    rw [List.map_cons, List.lookup_cons, List.lookup_cons, ih hxs]
    have heq : (f i == f x.1) = (i == x.1) := by
      rw [Bool.eq_iff_iff, beq_iff_eq, beq_iff_eq]
      exact ⟨fun heq => (hx heq.symm).symm, congrArg f⟩
    rw [heq]

theorem entryAt?_map {α β : Type} (xs : Array α) (g : α → β) (n : Int64) :
    entryAt? (xs.map g) n = (entryAt? xs n).map g := by
  unfold entryAt?
  split
  · rfl
  · simp

theorem entryAt?_ofNat {α : Type} {xs : Array α} {k : Nat} (hk : k < xs.size) (h : k < 2 ^ 63) :
    entryAt? xs (Int64.ofNat k) = some xs[k] := by
  have hsign : ¬Int64.ofNat k < 0 := by
    rw [Int64.lt_iff_toInt_lt, Int64.toInt_ofNat_of_lt h, Int64.toInt_zero]
    omega
  rw [entryAt?, if_neg hsign, Int64.toInt_ofNat_of_lt h, Int.toNat_natCast,
    Array.getElem?_eq_getElem hk]

theorem writeOperand_child (names : List (Nat × Text)) (b : Block) (n : Int64) :
    writeOperand names b .child n = ((entryAt? (b.children.map (List.lookup · names)) n).map fun name =>
      Text.byte '@' :: Option.getD name []).getD (Text.byte '?' :: Text.ofInt64 n) := by
  rw [writeOperand, entryAt?_map]
  cases entryAt? b.children n <;> rfl

/-- A section shows of the literals what is written for them, and of the children their names. -/
theorem writeSection_congr {names names' : List (Nat × Text)} {b b' : Block}
    (houtline : b'.outline = b.outline)
    (hpool : b'.pool.map Literal.write = b.pool.map Literal.write)
    (hchildren : b'.children.map (List.lookup · names') = b.children.map (List.lookup · names)) (name : Text) :
    writeSection names' name b' = writeSection names name b := by
  obtain ⟨-, hlocals, hregisters, hcode, -, hsymbols, -⟩ := Block.mk.inj houtline
  have hoperand : writeOperand names' b' = writeOperand names b := by
    funext kind n
    cases kind
    case literal => rw [writeOperand, writeOperand, ← entryAt?_map, ← entryAt?_map, hpool]
    case symbol => rw [writeOperand, writeOperand, hsymbols]
    case child => rw [writeOperand_child, writeOperand_child, hchildren]
    all_goals rfl
  have hinst : writeInst names' b' = writeInst names b := by
    funext i
    rw [writeInst, writeInst, hoperand]
  rw [writeSection, writeSection, targets, targets, hinst, hcode, hlocals, hregisters]

end Listing

namespace Program

variable {p q : Program} {f : Nat → Nat} {R : Nat → Prop}

theorem Moved.names_eq (h : Moved f R p q) (hroot : R 0) (hzero : f 0 = 0)
    (hbound : ∀ j, R j → (j < p.blocks.size ↔ f j < q.blocks.size))
    (hname : ∀ i, R i → (q.block (f i)).name = (p.block i).name) :
    Listing.names q = (Listing.names p).map fun x => (f x.1, x.2) := by
  rw [Listing.names, Listing.names, h.visitOrder_eq hroot hzero hbound]
  exact Listing.assignNames_map
    (fun i hi => hname i (h.reached hroot (mem_visitOrder.1 hi).1)) [] 0

/-- A copy with its blocks at other positions has the same listing when its literals are written
alike. -/
theorem Moved.listing_eq (h : Moved f R p q) (hroot : R 0) (hzero : f 0 = 0)
    (hbound : ∀ j, R j → (j < p.blocks.size ↔ f j < q.blocks.size))
    (houtline : ∀ i, R i → (q.block (f i)).outline = (p.block i).outline)
    (hpool : ∀ i, R i → (q.block (f i)).pool.map Literal.write = (p.block i).pool.map Literal.write) :
    q.listing = p.listing := by
  have hnames := h.names_eq hroot hzero hbound fun i hi => (Block.mk.inj (houtline i hi)).1
  have hnamed : ∀ x ∈ Listing.names p, R x.1 := by
    intro x hx
    have hmem := List.mem_map_of_mem (f := (·.1)) hx
    rw [Listing.names, Listing.map_fst_assignNames] at hmem
    exact h.reached hroot (mem_visitOrder.1 hmem).1
  unfold listing
  dsimp only
  rw [hnames, List.map_map]
  congr 1
  refine List.map_congr_left fun x hx => ?_
  have hx := hnamed x hx
  have hchildren : (q.block (f x.1)).children = (p.block x.1).children.map f :=
    Array.toList_inj.1 ((h.children x.1 hx).trans Array.toList_map.symm)
  refine Listing.writeSection_congr (houtline x.1 hx) (hpool x.1 hx) ?_ x.2
  rw [hchildren, Array.map_map]
  refine Array.map_congr_left fun c hc => ?_
  have hc : R c := h.closed x.1 hx c (Array.mem_toList_iff.2 hc)
  exact Listing.lookup_map fun y hy heq => h.inj _ _ (hnamed y hy) hc heq

end Program

/-! ### Lengths -/

def Text.Shrinks (P : Prop) (t t' : Text) : Prop := t.length ≤ t'.length ∧ (P → t.length < t'.length)

namespace Text.Shrinks

variable {P Q : Prop} {s s' t t' : Text}

theorem refl (t : Text) : Shrinks False t t := ⟨Nat.le_refl _, False.elim⟩

theorem mono (h : Shrinks P t t') (himp : Q → P) : Shrinks Q t t' := ⟨h.1, fun hq => h.2 (himp hq)⟩

theorem append (hs : Shrinks P s s') (ht : Shrinks Q t t') : Shrinks (P ∨ Q) (s ++ t) (s' ++ t') := by
  obtain ⟨hs, hstrict⟩ := hs
  obtain ⟨ht, htstrict⟩ := ht
  rw [Shrinks, List.length_append, List.length_append]
  refine ⟨Nat.add_le_add hs ht, ?_⟩
  rintro (hp | hq)
  · exact Nat.add_lt_add_of_lt_of_le (hstrict hp) ht
  · exact Nat.add_lt_add_of_le_of_lt hs (htstrict hq)

/-- Around a part that shrinks. -/
theorem within (h : Shrinks P t t') (before after : Text) :
    Shrinks P (before ++ t ++ after) (before ++ t' ++ after) :=
  (((refl before).append h).append (refl after)).mono fun hp => .inl (.inr hp)

theorem flatMap {α : Type} {P : α → Prop} {f g : α → Text} {xs : List α}
    (h : ∀ x ∈ xs, Shrinks (P x) (f x) (g x)) :
    Shrinks (∃ x ∈ xs, P x) (xs.flatMap f) (xs.flatMap g) := by
  induction xs with
  | nil => exact (refl []).mono (by simp)
  | cons x xs ih =>
    obtain ⟨hx, hxs⟩ := List.forall_mem_cons.1 h
    exact (hx.append (ih hxs)).mono (List.exists_mem_cons_iff ..).1

theorem join {α : Type} {P : α → Prop} {f g : α → Text} (sep : Text) {xs : List α}
    (h : ∀ x ∈ xs, Shrinks (P x) (f x) (g x)) :
    Shrinks (∃ x ∈ xs, P x) (Text.join sep (xs.map f)) (Text.join sep (xs.map g)) := by
  induction xs with
  | nil => exact (refl []).mono (by simp)
  | cons x xs ih =>
    obtain ⟨hx, hxs⟩ := List.forall_mem_cons.1 h
    cases xs with
    | nil => exact hx.mono (by simp)
    | cons y ys =>
      exact ((hx.append (refl sep)).append (ih hxs)).mono fun hex =>
        ((List.exists_mem_cons_iff ..).1 hex).imp_left .inl

end Text.Shrinks

end ObjectMachine
