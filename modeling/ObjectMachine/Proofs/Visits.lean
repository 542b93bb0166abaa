import Mathlib
import ObjectMachine.Code.Validity

/-! The walks over the blocks of a program. The visiting order lists exactly the blocks that can be
reached, each once. When the search for cycles finds none, no reachable block leads back to itself.
When the blocks of one program stand at other positions in a second one, the visiting order and the
search for cycles of the second are those of the first, carried over. -/

namespace ObjectMachine.Program

variable {p q : Program} {f : Nat → Nat} {fresh fresh' closed stack : List Nat} {i n : Nat}

/-! ### Reachable blocks -/

/-- A block of the program that the root leads to, through children. -/
def Reached (p : Program) (i : Nat) : Prop :=
  Relation.ReflTransGen (fun i c => c ∈ p.children i) 0 i

theorem Reached.root (p : Program) : p.Reached 0 := .refl

theorem Reached.child {c : Nat} (h : p.Reached i) (hc : c ∈ p.children i) : p.Reached c := h.tail hc

theorem block_mem (p : Program) (h : i < p.blocks.size) : p.block i ∈ p.blocks := by
  rw [block, Array.getD_eq_getD_getElem?, Array.getElem?_eq_getElem h]
  exact Array.getElem_mem h

theorem children_of_size_le (h : p.blocks.size ≤ i) : p.children i = [] := by
  simp [children, block, Array.getD_eq_getD_getElem?, Array.getElem?_eq_none h]

theorem visits_subset : p.visits fresh stack ⊆ fresh := by
  induction fresh, stack using visits.induct p with
  | case1 fresh => simp [visits]
  | case2 fresh n rest hn ih =>
    rw [visits, if_pos hn]
    exact List.cons_subset.2 ⟨hn, fun _ h => List.mem_of_mem_erase (ih h)⟩
  | case3 fresh n rest hn ih => rwa [visits, if_neg hn]

theorem visits_nodup (h : fresh.Nodup) : (p.visits fresh stack).Nodup := by
  induction fresh, stack using visits.induct p with
  | case1 fresh => simp [visits]
  | case2 fresh n rest hn ih =>
    rw [visits, if_pos hn]
    refine List.nodup_cons.2 ⟨fun hmem => ?_, ih (h.erase n)⟩
    exact h.not_mem_erase (visits_subset hmem)
  | case3 fresh n rest hn ih =>
    rw [visits, if_neg hn]
    exact ih h

/-- What is on the stack is visited. -/
theorem mem_visits_of_mem (hi : i ∈ stack) (hfresh : i ∈ fresh) : i ∈ p.visits fresh stack := by
  induction fresh, stack using visits.induct p with
  | case1 fresh => cases hi
  | case2 fresh n rest hn ih =>
    rw [visits, if_pos hn]
    by_cases heq : i = n
    · exact heq ▸ List.mem_cons_self
    · have hrest := (List.mem_cons.1 hi).resolve_left heq
      exact List.mem_cons_of_mem _ (ih (List.mem_append_right _ hrest)
        ((List.mem_erase_of_ne heq).2 hfresh))
  | case3 fresh n rest hn ih =>
    rw [visits, if_neg hn]
    rcases List.mem_cons.1 hi with rfl | hi
    · exact absurd hfresh hn
    · exact ih hi hfresh

/-- The children of what is visited are visited. -/
theorem mem_visits_child {c : Nat} (hi : i ∈ p.visits fresh stack) (hc : c ∈ p.children i)
    (hfresh : c ∈ fresh) : c ∈ p.visits fresh stack := by
  induction fresh, stack using visits.induct p with
  | case1 fresh => simp [visits] at hi
  | case2 fresh n rest hn ih =>
    rw [visits, if_pos hn] at hi ⊢
    by_cases heq : c = n
    · exact heq ▸ List.mem_cons_self
    · have hleft : c ∈ fresh.erase n := (List.mem_erase_of_ne heq).2 hfresh
      refine List.mem_cons_of_mem _ ?_
      rcases List.mem_cons.1 hi with rfl | hi
      · exact mem_visits_of_mem (List.mem_append_left _ hc) hleft
      · exact ih hi hleft
  | case3 fresh n rest hn ih =>
    rw [visits, if_neg hn] at hi ⊢
    exact ih hi hfresh

/-- What is visited was led to from the stack. -/
theorem reached_of_mem_visits (h : ∀ i ∈ stack, p.Reached i) (hi : i ∈ p.visits fresh stack) :
    p.Reached i := by
  induction fresh, stack using visits.induct p with
  | case1 fresh => simp [visits] at hi
  | case2 fresh n rest hn ih =>
    rw [visits, if_pos hn] at hi
    have hroot := h n List.mem_cons_self
    rcases List.mem_cons.1 hi with rfl | hi
    · exact hroot
    · refine ih (fun j hj => ?_) hi
      rcases List.mem_append.1 hj with hj | hj
      · exact hroot.child hj
      · exact h j (List.mem_cons_of_mem _ hj)
  | case3 fresh n rest hn ih =>
    rw [visits, if_neg hn] at hi
    exact ih (fun j hj => h j (List.mem_cons_of_mem _ hj)) hi

theorem visitOrder_nodup : p.visitOrder.Nodup := visits_nodup List.nodup_range

theorem mem_visitOrder : i ∈ p.visitOrder ↔ p.Reached i ∧ i < p.blocks.size := by
  refine ⟨fun h => ⟨?_, List.mem_range.1 (visits_subset h)⟩, ?_⟩
  · refine reached_of_mem_visits (fun j hj => ?_) h
    rw [List.mem_singleton.1 hj]
    exact .root p
  · rintro ⟨h, hlt⟩
    induction h with
    | refl => exact mem_visits_of_mem List.mem_cons_self (List.mem_range.2 hlt)
    | @tail i c _ hc ih =>
      have hi : i < p.blocks.size := by
        by_contra hle
        rw [children_of_size_le (Nat.not_lt.1 hle)] at hc
        cases hc
      exact mem_visits_child (ih hi) hc (List.mem_range.2 hlt)

theorem visitOrder_eq_cons (h : 0 < p.blocks.size) : ∃ rest, p.visitOrder = 0 :: rest := by
  rw [visitOrder, visits, if_pos (List.mem_range.2 h)]
  exact ⟨_, rfl⟩

theorem visitOrder_eq_nil (h : p.blocks.size = 0) : p.visitOrder = [] := by
  simp [visitOrder, visits, h]

/-! ### Cycles -/

def Errand.block : Errand → Nat
  | .enter n | .leave n => n

/-- Each block stands before the blocks that lead to it. -/
inductive Layered (p : Program) : List Nat → Prop
  | nil : Layered p []
  | cons {n : Nat} {closed : List Nat} (below : ∀ c ∈ p.children n, c ∈ closed) (new : n ∉ closed)
      (rest : Layered p closed) : Layered p (n :: closed)

theorem Layered.mem_child {c : Nat} (h : p.Layered closed) (hi : i ∈ closed) (hc : c ∈ p.children i) :
    c ∈ closed := by
  induction h with
  | nil => cases hi
  | cons below _ _ ih =>
    rcases List.mem_cons.1 hi with rfl | hi
    · exact List.mem_cons_of_mem _ (below c hc)
    · exact List.mem_cons_of_mem _ (ih hi)

/-- A way through children, of one step or more. -/
def Leads (p : Program) : Nat → Nat → Prop := Relation.TransGen fun i c => c ∈ p.children i

theorem Layered.mem_of_leads {j : Nat} (h : p.Layered closed) (hi : i ∈ closed) (hj : p.Leads i j) :
    j ∈ closed := by
  induction hj with
  | single hc => exact h.mem_child hi hc
  | tail _ hc ih => exact h.mem_child ih hc

theorem Layered.not_leads (h : p.Layered closed) (hi : i ∈ closed) : ¬p.Leads i i := by
  induction h with
  | nil => cases hi
  | @cons n closed below new rest ih =>
    rcases List.mem_cons.1 hi with rfl | hi
    · intro hleads
      obtain ⟨c, hc, hback⟩ := Relation.TransGen.head'_iff.1 hleads
      rcases Relation.reflTransGen_iff_eq_or_transGen.1 hback with rfl | hback
      · exact new (below _ hc)
      · exact new (rest.mem_of_leads (below c hc) hback)
    · exact ih hi

theorem Layered.reached (h : p.Layered closed) (hroot : 0 ∈ closed) (hi : p.Reached i) : i ∈ closed := by
  induction hi with
  | refl => exact hroot
  | tail _ hc ih => exact h.mem_child ih hc

def opened (errands : List Errand) : List Nat :=
  errands.filterMap fun
    | .enter _ => none
    | .leave n => some n

/-- A block is left after its children are: they are left by now or are entered first. -/
inductive Errands (p : Program) : List Nat → List Errand → Prop
  | nil {left : List Nat} : Errands p left []
  | enter {n : Nat} {left : List Nat} {errands : List Errand} (rest : Errands p (n :: left) errands) :
      Errands p left (.enter n :: errands)
  | leave {n : Nat} {left : List Nat} {errands : List Errand} (below : ∀ c ∈ p.children n, c ∈ left)
      (rest : Errands p (n :: left) errands) : Errands p left (.leave n :: errands)

namespace Errands

variable {left left' : List Nat} {errands : List Errand}

theorem mono (h : p.Errands left errands) (hle : left ⊆ left') : p.Errands left' errands := by
  induction h generalizing left' with
  | nil => exact .nil
  | enter _ ih => exact .enter (ih (List.cons_subset_cons _ hle))
  | leave below _ ih => exact .leave (fun c hc => hle (below c hc)) (ih (List.cons_subset_cons _ hle))

theorem enter_all {ns : List Nat} (h : p.Errands (ns ++ left) errands) :
    p.Errands left (ns.map .enter ++ errands) := by
  induction ns generalizing left with
  | nil => exact h
  | cons n ns ih => exact .enter (ih (h.mono (by simp)))

end Errands

/-- A search keeps apart the blocks it has not entered, those it is inside of and those it has left,
and it leaves each block after its children. -/
structure Search (p : Program) (fresh closed : List Nat) (errands : List Errand) : Prop where
  layered : p.Layered closed
  ordered : p.Errands closed errands
  fresh_nodup : fresh.Nodup
  opened_nodup : (opened errands).Nodup
  entered : ∀ n ∈ opened errands, n ∉ fresh ∧ n ∉ closed
  left : ∀ n ∈ closed, n ∉ fresh

namespace Search

variable {errands : List Errand}

theorem leave (h : p.Search fresh closed (.leave n :: errands)) :
    p.Search fresh (n :: closed) errands := by
  obtain ⟨hbelow, hrest⟩ : (∀ c ∈ p.children n, c ∈ closed) ∧ p.Errands (n :: closed) errands := by
    cases h.ordered with
    | leave below rest => exact ⟨below, rest⟩
  obtain ⟨hn, hopened⟩ := List.nodup_cons.1 h.opened_nodup
  obtain ⟨hfresh, hclosed⟩ := h.entered n List.mem_cons_self
  refine ⟨.cons hbelow hclosed h.layered, hrest, h.fresh_nodup, hopened, fun m hm => ?_,
    List.forall_mem_cons.2 ⟨hfresh, h.left⟩⟩
  obtain ⟨hmfresh, hmclosed⟩ := h.entered m (List.mem_cons_of_mem n hm)
  exact ⟨hmfresh, List.not_mem_cons_of_ne_of_not_mem (fun heq => hn (heq ▸ hm)) hmclosed⟩

theorem enter (h : p.Search fresh closed (.enter n :: errands)) (hn : n ∈ fresh) :
    p.Search (fresh.erase n) closed ((p.children n).map .enter ++ .leave n :: errands) := by
  have hrest : p.Errands (n :: closed) errands := by
    cases h.ordered with
    | enter rest => exact rest
  have hopened : opened ((p.children n).map .enter ++ .leave n :: errands) = n :: opened errands := by
    simp [opened]
  have hnot : n ∉ opened errands := fun hmem => (h.entered n hmem).1 hn
  refine ⟨h.layered, .enter_all (.leave (fun c hc => List.mem_append_left _ hc) (hrest.mono (by simp))),
    h.fresh_nodup.erase n, ?_, ?_, fun m hm hmem => h.left m hm (List.mem_of_mem_erase hmem)⟩
  · rw [hopened]
    exact List.nodup_cons.2 ⟨hnot, h.opened_nodup⟩
  · rw [hopened]
    refine List.forall_mem_cons.2 ⟨⟨h.fresh_nodup.not_mem_erase, fun hmem => h.left n hmem hn⟩, ?_⟩
    exact fun m hm => ⟨fun hmem => (h.entered m hm).1 (List.mem_of_mem_erase hmem), (h.entered m hm).2⟩

theorem skip (h : p.Search fresh closed (.enter n :: errands)) (hn : n ∈ closed) :
    p.Search fresh closed errands := by
  have hrest : p.Errands closed errands := by
    cases h.ordered with
    | enter rest => exact rest.mono (List.cons_subset.2 ⟨hn, List.Subset.refl _⟩)
  exact ⟨h.layered, hrest, h.fresh_nodup, h.opened_nodup, h.entered, h.left⟩

/-- A search that meets no open block leaves every block it was sent to, each after its children. -/
theorem layers (h : p.Search fresh closed errands)
    (hnone : p.openBlock? fresh closed errands = none) :
    ∃ order, p.Layered order ∧ closed ⊆ order ∧ ∀ e ∈ errands, e.block ∈ order := by
  induction fresh, closed, errands using openBlock?.induct p with
  | case1 fresh closed => exact ⟨closed, h.layered, List.Subset.refl _, by simp⟩
  | case2 fresh closed n rest ih =>
    rw [openBlock?] at hnone
    obtain ⟨order, hlayered, hsub, hall⟩ := ih h.leave hnone
    exact ⟨order, hlayered, List.subset_of_cons_subset hsub,
      List.forall_mem_cons.2 ⟨hsub List.mem_cons_self, hall⟩⟩
  | case3 fresh closed n rest hn ih =>
    rw [openBlock?, if_pos hn] at hnone
    obtain ⟨order, hlayered, hsub, hall⟩ := ih (h.enter hn) hnone
    have hleave : ∀ e ∈ Errand.leave n :: rest, e.block ∈ order :=
      fun e he => hall e (List.mem_append_right _ he)
    exact ⟨order, hlayered, hsub, List.forall_mem_cons.2 (List.forall_mem_cons.1 hleave)⟩
  | case4 fresh closed n rest hn hdone ih =>
    rw [openBlock?, if_neg hn, if_pos hdone] at hnone
    obtain ⟨order, hlayered, hsub, hall⟩ := ih (h.skip hdone) hnone
    exact ⟨order, hlayered, hsub, List.forall_mem_cons.2 ⟨hsub hdone, hall⟩⟩
  | case5 fresh closed n rest hn hdone =>
    rw [openBlock?, if_neg hn, if_neg hdone] at hnone
    cases hnone

end Search

/-- A program without a cycle that can be reached has its reachable blocks in layers. -/
theorem layered_of_cyclicBlock? (h : p.cyclicBlock? = none) : ∃ order, p.Layered order ∧ 0 ∈ order := by
  have hsearch : p.Search (List.range p.blocks.size) [] [.enter 0] :=
    ⟨.nil, .enter .nil, List.nodup_range, by simp [opened], by simp [opened], by simp⟩
  obtain ⟨order, hlayered, -, hroot⟩ := hsearch.layers h
  exact ⟨order, hlayered, hroot _ List.mem_cons_self⟩

/-- In such a program no reachable block leads back to itself. -/
theorem Reached.not_leads (hi : p.Reached i) (h : p.cyclicBlock? = none) : ¬p.Leads i i := by
  obtain ⟨order, hlayered, hroot⟩ := layered_of_cyclicBlock? h
  exact hlayered.not_leads (hlayered.reached hroot hi)

/-- In such a program the root is nobody's child. -/
theorem Reached.root_not_mem_children (hi : p.Reached i) (h : p.cyclicBlock? = none) :
    0 ∉ p.children i :=
  fun hroot => (Reached.root p).not_leads h (Relation.TransGen.tail' hi hroot)

/-! ### Programs with their blocks at other positions -/

def Errand.move (f : Nat → Nat) : Errand → Errand
  | .enter n => .enter (f n)
  | .leave n => .leave (f n)

/-- The blocks of `p` that satisfy `R` stand at the positions `f` in `q`: no two of them at one,
and with their children, which are among them, in order. -/
structure Moved (f : Nat → Nat) (R : Nat → Prop) (p q : Program) : Prop where
  closed : ∀ i, R i → ∀ c ∈ p.children i, R c
  inj : ∀ i j, R i → R j → f i = f j → i = j
  children : ∀ i, R i → q.children (f i) = (p.children i).map f

namespace Moved

variable {R : Nat → Prop}

theorem mem_map_iff (h : Moved f R p q) {xs : List Nat} (hxs : ∀ j ∈ xs, R j) (hi : R i) :
    f i ∈ xs.map f ↔ i ∈ xs := by
  refine ⟨fun hmem => ?_, List.mem_map_of_mem⟩
  obtain ⟨j, hj, heq⟩ := List.mem_map.1 hmem
  exact h.inj j i (hxs j hj) hi heq ▸ hj

/-- What is fresh stays in step when the same block is entered in both programs. -/
theorem mem_erase_iff (h : Moved f R p q) (hnodup : fresh.Nodup) (hnodup' : fresh'.Nodup)
    (hfresh : ∀ j, R j → (j ∈ fresh ↔ f j ∈ fresh')) (hn : R n) (hi : R i) :
    i ∈ fresh.erase n ↔ f i ∈ fresh'.erase (f n) := by
  rw [hnodup.mem_erase_iff, hnodup'.mem_erase_iff, hfresh i hi]
  refine and_congr_left fun _ => not_congr ⟨congrArg f, h.inj i n hi hn⟩

theorem reached (h : Moved f R p q) (hroot : R 0) (hi : p.Reached i) : R i := by
  induction hi with
  | refl => exact hroot
  | tail _ hc ih => exact h.closed _ ih _ hc

theorem reached_iff (h : Moved f R p q) (hroot : R 0) (hzero : f 0 = 0) {j : Nat} :
    q.Reached j ↔ ∃ i, p.Reached i ∧ f i = j := by
  refine ⟨fun hj => ?_, ?_⟩
  · induction hj with
    | refl => exact ⟨0, .root p, hzero⟩
    | tail _ hc ih =>
      obtain ⟨i, hi, rfl⟩ := ih
      rw [h.children i (h.reached hroot hi)] at hc
      obtain ⟨c, hchild, rfl⟩ := List.mem_map.1 hc
      exact ⟨c, hi.child hchild, rfl⟩
  · rintro ⟨i, hi, rfl⟩
    induction hi with
    | refl =>
      rw [hzero]
      exact .root q
    | @tail i c hi hc ih =>
      refine Reached.child ih ?_
      rw [h.children i (h.reached hroot hi)]
      exact List.mem_map_of_mem hc

theorem bijOn (h : Moved f R p q) (hroot : R 0) (hzero : f 0 = 0) :
    Set.BijOn f {i | p.Reached i} {j | q.Reached j} :=
  ⟨fun i hi => (h.reached_iff hroot hzero).2 ⟨i, hi, rfl⟩,
    fun i hi j hj heq => h.inj i j (h.reached hroot hi) (h.reached hroot hj) heq,
    fun _ hj => (h.reached_iff hroot hzero).1 hj⟩

theorem visits_eq (h : Moved f R p q) (hnodup : fresh.Nodup) (hnodup' : fresh'.Nodup)
    (hfresh : ∀ j, R j → (j ∈ fresh ↔ f j ∈ fresh')) (hstack : ∀ j ∈ stack, R j) :
    q.visits fresh' (stack.map f) = (p.visits fresh stack).map f := by
  induction fresh, stack using visits.induct p generalizing fresh' with
  | case1 fresh => simp [visits]
  | case2 fresh n rest hn ih =>
    have hroot := hstack n List.mem_cons_self
    rw [List.map_cons, visits, visits, if_pos hn, if_pos ((hfresh n hroot).1 hn), h.children n hroot,
      ← List.map_append, List.map_cons]
    refine congrArg (f n :: ·) (ih (hnodup.erase n) (hnodup'.erase _) (fun j hj => ?_) fun j hj => ?_)
    · exact h.mem_erase_iff hnodup hnodup' hfresh hroot hj
    · rcases List.mem_append.1 hj with hj | hj
      · exact h.closed n hroot j hj
      · exact hstack j (List.mem_cons_of_mem _ hj)
  | case3 fresh n rest hn ih =>
    have hroot := hstack n List.mem_cons_self
    rw [List.map_cons, visits, visits, if_neg hn, if_neg (mt (hfresh n hroot).2 hn)]
    exact ih hnodup hnodup' hfresh fun j hj => hstack j (List.mem_cons_of_mem _ hj)

theorem visitOrder_eq (h : Moved f R p q) (hroot : R 0) (hzero : f 0 = 0)
    (hbound : ∀ j, R j → (j < p.blocks.size ↔ f j < q.blocks.size)) :
    q.visitOrder = p.visitOrder.map f := by
  have hvisits : q.visits (List.range q.blocks.size) ([0].map f) =
      (p.visits (List.range p.blocks.size) [0]).map f :=
    h.visits_eq List.nodup_range List.nodup_range (by simpa using hbound) (by simpa using hroot)
  rwa [List.map_singleton, hzero] at hvisits

theorem openBlock?_eq (h : Moved f R p q) (hnodup : fresh.Nodup) (hnodup' : fresh'.Nodup)
    (hfresh : ∀ j, R j → (j ∈ fresh ↔ f j ∈ fresh')) (hclosed : ∀ j ∈ closed, R j)
    {errands : List Errand} (herrands : ∀ e ∈ errands, R e.block) :
    q.openBlock? fresh' (closed.map f) (errands.map (·.move f)) =
      (p.openBlock? fresh closed errands).map f := by
  induction fresh, closed, errands using openBlock?.induct p generalizing fresh' with
  | case1 fresh closed => simp [openBlock?]
  | case2 fresh closed n rest ih =>
    have hroot := herrands _ List.mem_cons_self
    rw [List.map_cons, Errand.move, openBlock?, openBlock?, ← List.map_cons]
    exact ih hnodup hnodup' hfresh (List.forall_mem_cons.2 ⟨hroot, hclosed⟩)
      fun e he => herrands e (List.mem_cons_of_mem _ he)
  | case3 fresh closed n rest hn ih =>
    have hroot : R n := herrands _ List.mem_cons_self
    have hchildren : (q.children (f n)).map Errand.enter =
        ((p.children n).map Errand.enter).map (·.move f) := by
      rw [h.children n hroot, List.map_map, List.map_map]
      rfl
    rw [List.map_cons, Errand.move, openBlock?, openBlock?, if_pos hn,
      if_pos ((hfresh n hroot).1 hn), hchildren]
    have hih := ih (hnodup.erase n) (hnodup'.erase (f n))
      (fun j hj => h.mem_erase_iff hnodup hnodup' hfresh hroot hj) hclosed fun e he => by
        rcases List.mem_append.1 he with he | he
        · obtain ⟨c, hc, rfl⟩ := List.mem_map.1 he
          exact h.closed n hroot c hc
        · rcases List.mem_cons.1 he with rfl | he
          · exact hroot
          · exact herrands e (List.mem_cons_of_mem _ he)
    rwa [List.map_append, List.map_cons] at hih
  | case4 fresh closed n rest hn hdone ih =>
    have hroot : R n := herrands _ List.mem_cons_self
    rw [List.map_cons, Errand.move, openBlock?, openBlock?, if_neg hn, if_pos hdone,
      if_neg (mt (hfresh n hroot).2 hn), if_pos ((h.mem_map_iff hclosed hroot).2 hdone)]
    exact ih hnodup hnodup' hfresh hclosed fun e he => herrands e (List.mem_cons_of_mem _ he)
  | case5 fresh closed n rest hn hdone =>
    have hroot : R n := herrands _ List.mem_cons_self
    rw [List.map_cons, Errand.move, openBlock?, openBlock?, if_neg hn, if_neg hdone,
      if_neg (mt (hfresh n hroot).2 hn), if_neg (mt (h.mem_map_iff hclosed hroot).1 hdone)]
    rfl

theorem cyclicBlock?_eq (h : Moved f R p q) (hroot : R 0) (hzero : f 0 = 0)
    (hbound : ∀ j, R j → (j < p.blocks.size ↔ f j < q.blocks.size)) :
    q.cyclicBlock? = p.cyclicBlock?.map f := by
  have hsearch : q.openBlock? (List.range q.blocks.size) ([].map f)
      ([Errand.enter 0].map (·.move f)) =
      (p.openBlock? (List.range p.blocks.size) [] [.enter 0]).map f :=
    h.openBlock?_eq List.nodup_range List.nodup_range (by simpa using hbound) (by simp)
      (by simpa [Errand.block] using hroot)
  rwa [List.map_nil, List.map_singleton, Errand.move, hzero] at hsearch

end Moved

/-! ### Programs of one block -/

def single (b : Block) : Program := ⟨#[b]⟩

@[simp] theorem block_single (b : Block) : (single b).block 0 = b := rfl

theorem reached_single {b : Block} (h : b.children = #[]) (hi : (single b).Reached i) : i = 0 := by
  induction hi with
  | refl => rfl
  | tail _ hc ih =>
    subst ih
    rw [children, block_single, h] at hc
    cases hc

theorem visitOrder_single {b : Block} (h : b.children = #[]) : (single b).visitOrder = [0] := by
  have hrange : List.range (single b).blocks.size = [0] := rfl
  rw [visitOrder, hrange]
  simp [visits, children, block, single, h]

theorem cyclicBlock?_single {b : Block} (h : b.children = #[]) : (single b).cyclicBlock? = none := by
  have hrange : List.range (single b).blocks.size = [0] := rfl
  rw [cyclicBlock?, hrange]
  simp [openBlock?, children, block, single, h]

theorem defect?_single {b : Block} (h : b.children = #[]) (hvalid : b.defect? = none) :
    (single b).defect? = none := by
  rw [defect?, visitOrder_single h, List.findSome?_eq_none_iff]
  simpa [block, single] using hvalid

end ObjectMachine.Program
