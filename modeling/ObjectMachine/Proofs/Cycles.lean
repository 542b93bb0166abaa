import ObjectMachine.Proofs.Assembling
import ObjectMachine.Proofs.Images

/-! The check for cycles. It reports a block just when a block that can be reached leads back to
itself, and then it reports such a block. The check searches by errands; the same search written as
a recursion that marks the blocks comes to an end on every graph and reports the same. A walk that
remembers nothing comes to an end just when there is no cycle, so it does on every program that was
assembled or decoded. -/

namespace ObjectMachine

namespace Program

variable {p : Program} {fresh closed ns order below : List Nat} {i n : Nat} {errands : List Errand}

/-- A block that can be reached leads back to itself. -/
def Cyclic (p : Program) : Prop := ∃ i, p.Reached i ∧ p.Leads i i

/-- The program has a root, and all children are blocks of the program. -/
structure Graph (p : Program) : Prop where
  root : 0 < p.blocks.size
  children : ∀ i, ∀ c ∈ p.children i, c < p.blocks.size

theorem Graph.of_blocks (hroot : 0 < p.blocks.size)
    (h : ∀ b ∈ p.blocks, ∀ c ∈ b.children, c < p.blocks.size) : p.Graph where
  root := hroot
  children i c hc := by
    rcases lt_or_ge i p.blocks.size with hi | hi
    · exact h _ (p.block_mem hi) c (Array.mem_toList_iff.1 hc)
    · rw [children_of_size_le hi] at hc
      cases hc

theorem Graph.reached (h : p.Graph) (hi : p.Reached i) : i < p.blocks.size := by
  cases hi with
  | refl => exact h.root
  | tail _ hc => exact h.children _ _ hc

/-! ### What the check reports -/

/-- The open blocks of a search lead to what the search is about to do. -/
structure Trail (p : Program) (fresh closed : List Nat) (errands : List Errand) : Prop where
  reached : ∀ e ∈ errands, p.Reached e.block
  nested : errands.Pairwise fun e f => ∀ n, f = .leave n → p.Leads n e.block
  covered : ∀ i < p.blocks.size, i ∈ fresh ∨ i ∈ closed ∨ .leave i ∈ errands

namespace Trail

theorem start (p : Program) : p.Trail (List.range p.blocks.size) [] [.enter 0] where
  reached e he := by
    rw [List.mem_singleton.1 he]
    exact .root p
  nested := List.pairwise_singleton _ _
  covered i hi := .inl (List.mem_range.2 hi)

theorem leave (h : p.Trail fresh closed (.leave n :: errands)) : p.Trail fresh (n :: closed) errands where
  reached := (List.forall_mem_cons.1 h.reached).2
  nested := (List.pairwise_cons.1 h.nested).2
  covered i hi := by
    rcases h.covered i hi with hfresh | hclosed | hopen
    · exact .inl hfresh
    · exact .inr (.inl (List.mem_cons_of_mem n hclosed))
    · rcases List.mem_cons.1 hopen with heq | hopen
      · exact .inr (.inl (Errand.leave.inj heq ▸ List.mem_cons_self))
      · exact .inr (.inr hopen)

/-- What encloses a block leads to its children, and so does the block. -/
theorem enter (h : p.Trail fresh closed (.enter n :: errands)) :
    p.Trail (fresh.erase n) closed ((p.children n).map .enter ++ .leave n :: errands) where
  reached := by
    obtain ⟨hn, hrest⟩ := List.forall_mem_cons.1 h.reached
    refine List.forall_mem_append.2 ⟨fun e he => ?_, List.forall_mem_cons.2 ⟨hn, hrest⟩⟩
    obtain ⟨c, hc, rfl⟩ := List.mem_map.1 he
    exact hn.child hc
  nested := by
    obtain ⟨hn, hrest⟩ := List.pairwise_cons.1 h.nested
    refine List.pairwise_append.2 ⟨?_, List.pairwise_cons.2 ⟨hn, hrest⟩, ?_⟩
    · refine List.pairwise_map.2 (List.pairwise_of_forall fun c d => ?_)
      rintro m ⟨⟩
    · rintro e he f hf m rfl
      obtain ⟨c, hc, rfl⟩ := List.mem_map.1 he
      rcases List.mem_cons.1 hf with heq | hf
      · exact Errand.leave.inj heq ▸ .single hc
      · exact (hn _ hf m rfl).tail hc
  covered i hi := by
    by_cases heq : i = n
    · exact .inr (.inr (by simp [heq]))
    · rcases h.covered i hi with hfresh | hclosed | hopen
      · exact .inl ((List.mem_erase_of_ne heq).2 hfresh)
      · exact .inr (.inl hclosed)
      · exact .inr (.inr (by simp_all))

theorem skip (h : p.Trail fresh closed (.enter n :: errands)) : p.Trail fresh closed errands where
  reached := (List.forall_mem_cons.1 h.reached).2
  nested := (List.pairwise_cons.1 h.nested).2
  covered i hi := by simpa using h.covered i hi

/-- An open block that is met again leads back to itself. -/
theorem cyclic (hg : p.Graph) (h : p.Trail fresh closed errands)
    (hopen : p.openBlock? fresh closed errands = some i) : p.Reached i ∧ p.Leads i i := by
  induction fresh, closed, errands using openBlock?.induct p with
  | case1 fresh closed => simp [openBlock?] at hopen
  | case2 fresh closed n rest ih =>
    rw [openBlock?] at hopen
    exact ih h.leave hopen
  | case3 fresh closed n rest hn ih =>
    rw [openBlock?, if_pos hn] at hopen
    exact ih h.enter hopen
  | case4 fresh closed n rest hn hdone ih =>
    rw [openBlock?, if_neg hn, if_pos hdone] at hopen
    exact ih h.skip hopen
  | case5 fresh closed n rest hn hdone =>
    rw [openBlock?, if_neg hn, if_neg hdone] at hopen
    obtain rfl : n = i := Option.some.inj hopen
    have hreached : p.Reached n := h.reached _ List.mem_cons_self
    have hmem : Errand.leave n ∈ rest := by
      rcases h.covered n (hg.reached hreached) with hfresh | hclosed | hmem
      · exact absurd hfresh hn
      · exact absurd hclosed hdone
      · simpa using hmem
    exact ⟨hreached, (List.pairwise_cons.1 h.nested).1 _ hmem n rfl⟩

end Trail

theorem Graph.cyclic_of_cyclicBlock? (hg : p.Graph) (h : p.cyclicBlock? = some n) :
    p.Reached n ∧ p.Leads n n :=
  (Trail.start p).cyclic hg h

theorem Graph.isSome_cyclicBlock? (hg : p.Graph) : p.cyclicBlock?.isSome ↔ p.Cyclic := by
  constructor
  · intro h
    obtain ⟨n, hn⟩ := Option.isSome_iff_exists.1 h
    exact ⟨n, hg.cyclic_of_cyclicBlock? hn⟩
  · rintro ⟨i, hi, hback⟩
    by_contra h
    exact hi.not_leads (Option.not_isSome_iff_eq_none.1 h) hback

theorem Graph.cyclicBlock?_eq_none (hg : p.Graph) : p.cyclicBlock? = none ↔ ¬p.Cyclic := by
  rw [← hg.isSome_cyclicBlock?, Option.not_isSome_iff_eq_none]

/-! ### The search as a recursion -/

/-- What a search knows of a block. -/
inductive Mark
  | unvisited
  | visiting
  | done
  deriving DecidableEq

/-- A search through some blocks, from the first to the last, with the marks that it finds: it ends
at a block that it is inside of, or with the marks that it leaves. -/
inductive Marks (p : Program) : (Nat → Mark) → List Nat → Except Nat (Nat → Mark) → Prop
  | nil {marks : Nat → Mark} : Marks p marks [] (.ok marks)
  | again {marks : Nat → Mark} {n : Nat} {rest : List Nat} (hn : marks n = .visiting) :
      Marks p marks (n :: rest) (.error n)
  | done {marks : Nat → Mark} {n : Nat} {rest : List Nat} {r : Except Nat (Nat → Mark)}
      (hn : marks n = .done) (hrest : Marks p marks rest r) : Marks p marks (n :: rest) r
  | inside {marks : Nat → Mark} {n m : Nat} {rest : List Nat} (hn : marks n = .unvisited)
      (hbelow : Marks p (Function.update marks n .visiting) (p.children n) (.error m)) :
      Marks p marks (n :: rest) (.error m)
  | left {marks marks' : Nat → Mark} {n : Nat} {rest : List Nat} {r : Except Nat (Nat → Mark)}
      (hn : marks n = .unvisited)
      (hbelow : Marks p (Function.update marks n .visiting) (p.children n) (.ok marks'))
      (hrest : Marks p (Function.update marks' n .done) rest r) : Marks p marks (n :: rest) r

theorem Marks.functional {marks : Nat → Mark} {r r' : Except Nat (Nat → Mark)} (h : p.Marks marks ns r)
    (h' : p.Marks marks ns r') : r = r' := by
  induction h generalizing r' with
  | nil =>
    cases h'
    rfl
  | again hn => cases h' <;> simp_all
  | done hn _ ih =>
    cases h' with
    | done _ hrest => exact ih hrest
    | _ => simp_all
  | inside hn _ ih =>
    cases h' with
    | inside _ hbelow => exact ih hbelow
    | left _ hbelow _ => cases ih hbelow
    | _ => simp_all
  | left hn _ _ ih ih' =>
    cases h' with
    | inside _ hbelow => cases ih hbelow
    | left _ hbelow hrest =>
      cases ih hbelow
      exact ih' hrest
    | _ => simp_all

/-- The marks say which blocks are fresh and which are closed. -/
structure Marked (p : Program) (marks : Nat → Mark) (fresh closed : List Nat) : Prop where
  nodup : fresh.Nodup
  unvisited : ∀ i < p.blocks.size, marks i = .unvisited ↔ i ∈ fresh
  done : ∀ i, marks i = .done ↔ i ∈ closed

namespace Marked

variable {marks : Nat → Mark}

theorem start (p : Program) : p.Marked (fun _ => .unvisited) (List.range p.blocks.size) [] where
  nodup := List.nodup_range
  unvisited i hi := by simpa using hi
  done i := by simp

theorem enter (h : p.Marked marks fresh closed) (hn : marks n = .unvisited) :
    p.Marked (Function.update marks n .visiting) (fresh.erase n) closed where
  nodup := h.nodup.erase n
  unvisited i hi := by
    rw [h.nodup.mem_erase_iff, ← h.unvisited i hi]
    by_cases heq : i = n <;> simp [heq]
  done i := by
    rw [← h.done i]
    by_cases heq : i = n <;> simp [heq, hn]

theorem leave (h : p.Marked marks fresh closed) (hn : n ∉ fresh) :
    p.Marked (Function.update marks n .done) fresh (n :: closed) where
  nodup := h.nodup
  unvisited i hi := by
    rw [← h.unvisited i hi]
    by_cases heq : i = n
    · subst heq
      simpa using mt (h.unvisited i hi).1 hn
    · simp [heq]
  done i := by
    rw [List.mem_cons, ← h.done i]
    by_cases heq : i = n <;> simp [heq]

end Marked

/-- The recursion and the search by errands report the same block, or get through to the same
blocks. -/
def Agrees (p : Program) (fresh closed ns : List Nat) : Except Nat (Nat → Mark) → Prop
  | .error m => ∀ rest, p.openBlock? fresh closed (ns.map .enter ++ rest) = some m
  | .ok marks => ∃ fresh' closed', p.Marked marks fresh' closed' ∧ fresh'.Sublist fresh ∧
      ∀ rest, p.openBlock? fresh closed (ns.map .enter ++ rest) = p.openBlock? fresh' closed' rest

theorem Agrees.of_eq {fresh' closed' : List Nat} {r : Except Nat (Nat → Mark)}
    (h : p.Agrees fresh' closed' ns r) (hsub : fresh'.Sublist fresh)
    (heq : ∀ rest, p.openBlock? fresh closed (.enter n :: (ns.map .enter ++ rest)) =
      p.openBlock? fresh' closed' (ns.map .enter ++ rest)) : p.Agrees fresh closed (n :: ns) r := by
  cases r with
  | error m => exact fun rest => (heq rest).trans (h rest)
  | ok marks =>
    obtain ⟨fresh'', closed'', hmarked, hsub', hrest⟩ := h
    exact ⟨fresh'', closed'', hmarked, hsub'.trans hsub, fun rest => (heq rest).trans (hrest rest)⟩

/-- The recursion comes to an end: a block that it enters is fresh no more. -/
theorem Graph.marks (hg : p.Graph) {marks : Nat → Mark} (h : p.Marked marks fresh closed)
    (hns : ∀ n ∈ ns, n < p.blocks.size) : ∃ r, p.Marks marks ns r ∧ p.Agrees fresh closed ns r := by
  induction hk : fresh.length using Nat.strong_induction_on generalizing marks fresh closed ns with
  | h k ih =>
    induction ns with
    | nil => exact ⟨.ok marks, .nil, fresh, closed, h, List.Sublist.refl _, fun _ => rfl⟩
    | cons n rest ihrest =>
      obtain ⟨hlt, hrest⟩ := List.forall_mem_cons.1 hns
      cases hn : marks n with
      | visiting =>
        refine ⟨.error n, .again hn, fun rest' => ?_⟩
        have hfresh : n ∉ fresh := by simp [← h.unvisited n hlt, hn]
        have hclosed : n ∉ closed := by simp [← h.done n, hn]
        rw [List.map_cons, List.cons_append, openBlock?, if_neg hfresh, if_neg hclosed]
      | done =>
        obtain ⟨r, hr, hagrees⟩ := ihrest hrest
        refine ⟨r, .done hn hr, hagrees.of_eq (List.Sublist.refl _) fun rest' => ?_⟩
        have hfresh : n ∉ fresh := by simp [← h.unvisited n hlt, hn]
        rw [openBlock?, if_neg hfresh, if_pos ((h.done n).1 hn)]
      | unvisited =>
        have hfresh := (h.unvisited n hlt).1 hn
        have hlength := List.length_erase_of_mem hfresh
        have hpos := List.length_pos_of_mem hfresh
        obtain ⟨r, hr, hagrees⟩ := ih _ (by omega) (h.enter hn) (hg.children n) rfl
        have henter : ∀ rest', p.openBlock? fresh closed (.enter n :: rest') =
            p.openBlock? (fresh.erase n) closed ((p.children n).map .enter ++ .leave n :: rest') :=
          fun rest' => by rw [openBlock?, if_pos hfresh]
        cases r with
        | error m => exact ⟨.error m, .inside hn hr, fun rest' => (henter _).trans (hagrees _)⟩
        | ok marks' =>
          obtain ⟨fresh', closed', hmarked, hsub, hopen⟩ := hagrees
          have hleft : n ∉ fresh' := fun hmem => h.nodup.not_mem_erase (hsub.subset hmem)
          have hle := hsub.length_le
          obtain ⟨r', hr', hagrees'⟩ := ih _ (by omega) (hmarked.leave hleft) hrest rfl
          refine ⟨r', .left hn hr hr', hagrees'.of_eq (hsub.trans List.erase_sublist) fun rest' => ?_⟩
          rw [henter, hopen, openBlock?]

/-- The recursion from the root ends with what the check reports. -/
theorem Graph.marks_root (hg : p.Graph) : ∃ r, p.Marks (fun _ => .unvisited) [0] r ∧
    ∀ n, r = .error n ↔ p.cyclicBlock? = some n := by
  obtain ⟨r, hr, hagrees⟩ := hg.marks (.start p) (List.forall_mem_singleton.2 hg.root)
  refine ⟨r, hr, fun n => ?_⟩
  cases r with
  | error m =>
    have hsome : p.cyclicBlock? = some m := hagrees []
    rw [hsome, Except.error.injEq, Option.some.injEq]
  | ok marks =>
    obtain ⟨fresh', closed', -, -, hopen⟩ := hagrees
    have hnone : p.cyclicBlock? = none := (hopen []).trans (by rw [openBlock?])
    simp [hnone]

/-! ### Walks -/

/-- Every block of a list with all that is nested in it, as often as it is met. -/
inductive Walk (p : Program) : List Nat → List Nat → Prop
  | nil : Walk p [] []
  | cons {n : Nat} {rest below after : List Nat} (hbelow : Walk p (p.children n) below)
      (hafter : Walk p rest after) : Walk p (n :: rest) (n :: (below ++ after))

/-- The blocks of a list are checked in the order of the walk, up to the first defect. -/
inductive Checks (p : Program) : List Nat → Option CodeDefect → Prop
  | nil : Checks p [] none
  | defect {n : Nat} {rest : List Nat} {d : CodeDefect} (hn : (p.block n).defect? = some d) :
      Checks p (n :: rest) (some d)
  | nested {n : Nat} {rest : List Nat} {d : CodeDefect} (hn : (p.block n).defect? = none)
      (hbelow : Checks p (p.children n) (some d)) : Checks p (n :: rest) (some d)
  | sound {n : Nat} {rest : List Nat} {r : Option CodeDefect} (hn : (p.block n).defect? = none)
      (hbelow : Checks p (p.children n) none) (hrest : Checks p rest r) : Checks p (n :: rest) r

/-- A walk goes to what stands before it in an order of layers. -/
theorem Layered.walk (h : p.Layered closed) (hns : ns ⊆ closed) : ∃ order, p.Walk ns order := by
  induction h generalizing ns with
  | nil =>
    rw [List.subset_nil.1 hns]
    exact ⟨[], .nil⟩
  | @cons n closed below _ _ ih =>
    obtain ⟨nested, hnested⟩ := ih below
    induction ns with
    | nil => exact ⟨[], .nil⟩
    | cons m rest ihrest =>
      obtain ⟨hm, hrest⟩ := List.cons_subset.1 hns
      obtain ⟨after, hafter⟩ := ihrest hrest
      rcases List.mem_cons.1 hm with rfl | hm
      · exact ⟨_, .cons hnested hafter⟩
      · obtain ⟨first, hfirst⟩ := ih (List.cons_subset.2 ⟨hm, List.nil_subset _⟩)
        cases hfirst with
        | cons hbelow _ => exact ⟨_, .cons hbelow hafter⟩

/-- The first occurrences of what is fresh: `n`, then what `below` has besides, then what `after`
has besides. -/
theorem eraseDups_filter {after : List Nat} (hnodup : fresh.Nodup) (hn : n ∈ fresh) :
    ((n :: (below ++ after)).filter (· ∈ fresh)).eraseDups =
      n :: ((below.filter (· ∈ fresh.erase n)).eraseDups ++
        (after.filter (· ∈ (fresh.erase n).filter (· ∉ below))).eraseDups) := by
  have hsplit : (((below ++ after).filter (· ∈ fresh)).filter fun i => !(i == n)) =
      below.filter (· ∈ fresh.erase n) ++ after.filter (· ∈ fresh.erase n) := by
    rw [List.filter_filter, ← List.filter_append]
    refine List.filter_congr fun i _ => Bool.eq_iff_iff.2 ?_
    simp [hnodup.mem_erase_iff]
  have hafter : (after.filter (· ∈ fresh.erase n)).removeAll (below.filter (· ∈ fresh.erase n)) =
      after.filter (· ∈ (fresh.erase n).filter (· ∉ below)) := by
    rw [List.removeAll, List.filter_filter]
    refine List.filter_congr fun i _ => Bool.eq_iff_iff.2 ?_
    simp
    tauto
  rw [List.filter_cons_of_pos (by simpa using hn), List.eraseDups_cons, hsplit,
    List.eraseDups_append, hafter]

theorem findSome?_filter_ne {α : Type} {f : Nat → Option α} (hn : f n = none) (l : List Nat) :
    (l.filter fun m => !(m == n)).findSome? f = l.findSome? f := by
  induction l with
  | nil => rfl
  | cons m l ih =>
    by_cases heq : m = n
    · rw [List.filter_cons_of_neg (by simp [heq]), ih, List.findSome?_cons, heq, hn]
    · rw [List.filter_cons_of_pos (by simp [heq]), List.findSome?_cons, List.findSome?_cons, ih]

/-- A search through a list finds nothing new at the second occurrence of an element. -/
theorem findSome?_eraseDups {α : Type} (f : Nat → Option α) (l : List Nat) :
    l.eraseDups.findSome? f = l.findSome? f := by
  induction hk : l.length using Nat.strong_induction_on generalizing l with
  | h k ih =>
    cases l with
    | nil => rfl
    | cons n l =>
      rw [List.eraseDups_cons, List.findSome?_cons, List.findSome?_cons]
      cases hn : f n with
      | some a => rfl
      | none =>
        have hlt : (l.filter fun m => !(m == n)).length < k := by
          have hle := List.length_filter_le (fun m => !(m == n)) l
          rw [List.length_cons] at hk
          omega
        exact (ih _ hlt _ rfl).trans (findSome?_filter_ne hn l)

namespace Walk

theorem functional {order' : List Nat} (h : p.Walk ns order) (h' : p.Walk ns order') : order = order' := by
  induction h generalizing order' with
  | nil =>
    cases h'
    rfl
  | cons _ _ ih ih' =>
    cases h' with
    | cons hbelow hafter => rw [ih hbelow, ih' hafter]

theorem subset (h : p.Walk ns order) : ns ⊆ order := by
  induction h with
  | nil => exact List.Subset.refl _
  | cons _ _ _ ih => exact List.cons_subset_cons _ (List.subset_append_of_subset_right _ ih)

/-- A walk goes on to the children of what it meets. -/
theorem children_subset (h : p.Walk ns order) (hi : i ∈ order) : p.children i ⊆ order := by
  induction h with
  | nil => cases hi
  | @cons n rest below after hbelow _ ih ih' =>
    refine List.subset_cons_of_subset n ?_
    rcases List.mem_cons.1 hi with rfl | hi
    · exact List.subset_append_of_subset_left _ hbelow.subset
    · rcases List.mem_append.1 hi with hi | hi
      · exact List.subset_append_of_subset_left _ (ih hi)
      · exact List.subset_append_of_subset_right _ (ih' hi)

/-- A walk holds the walk from every block that it meets. -/
theorem within (h : p.Walk ns order) (hi : i ∈ order) :
    ∃ order', p.Walk [i] order' ∧ order'.length ≤ order.length := by
  induction h with
  | nil => cases hi
  | @cons n rest below after hbelow _ ih ih' =>
    rcases List.mem_cons.1 hi with rfl | hi
    · exact ⟨_, .cons hbelow .nil, by simp⟩
    · rw [List.length_cons, List.length_append]
      rcases List.mem_append.1 hi with hi | hi
      · obtain ⟨order', horder, hle⟩ := ih hi
        exact ⟨order', horder, by omega⟩
      · obtain ⟨order', horder, hle⟩ := ih' hi
        exact ⟨order', horder, by omega⟩

/-- The walk from a block does not come back to it: the walk would be longer than itself. -/
theorem not_mem (h : p.Walk (p.children n) below) : n ∉ below := by
  intro hn
  obtain ⟨order, horder, hle⟩ := h.within hn
  rw [horder.functional (.cons h .nil), List.append_nil, List.length_cons] at hle
  omega

theorem mem_of_leads {j : Nat} (h : p.Walk ns order) (hi : i ∈ order) (hj : p.Leads i j) : j ∈ order := by
  induction hj with
  | single hc => exact h.children_subset hi hc
  | tail _ hc ih => exact h.children_subset ih hc

theorem not_leads (h : p.Walk ns order) (hi : i ∈ order) : ¬p.Leads i i := by
  intro hback
  obtain ⟨order', horder, -⟩ := h.within hi
  cases horder with
  | cons hbelow hnil =>
    cases hnil
    obtain ⟨c, hc, hback⟩ := Relation.TransGen.head'_iff.1 hback
    refine hbelow.not_mem ?_
    rcases Relation.reflTransGen_iff_eq_or_transGen.1 hback with rfl | hback
    · exact hbelow.subset hc
    · exact hbelow.mem_of_leads (hbelow.subset hc) hback

theorem checks (h : p.Walk ns order) :
    p.Checks ns (order.findSome? fun n => (p.block n).defect?) := by
  induction h with
  | nil => exact .nil
  | @cons n rest below after _ _ ih ih' =>
    rw [List.findSome?_cons, List.findSome?_append]
    cases hn : (p.block n).defect? with
    | some d => exact .defect hn
    | none =>
      cases hbelow : below.findSome? fun n => (p.block n).defect? with
      | some d =>
        rw [hbelow] at ih
        exact .nested hn ih
      | none =>
        rw [hbelow] at ih
        exact .sound hn ih ih'

/-- What is not fresh leads to nothing fresh. -/
theorem disjoint (h : p.Walk ns order) (hns : ∀ n ∈ ns, n ∉ fresh)
    (hdown : ∀ i ∈ order, i ∉ fresh → ∀ c ∈ p.children i, c ∉ fresh) : ∀ i ∈ order, i ∉ fresh := by
  induction h with
  | nil => simp
  | @cons n rest below after _ _ ih ih' =>
    obtain ⟨hn, hrest⟩ := List.forall_mem_cons.1 hns
    obtain ⟨hdown, hbelow, hafter⟩ := by simpa only [List.forall_mem_cons, List.forall_mem_append] using hdown
    exact List.forall_mem_cons.2 ⟨hn, List.forall_mem_append.2 ⟨ih (hdown hn) hbelow, ih' hrest hafter⟩⟩

/-- The first visits of a walk, among the blocks still fresh, are those of the visiting order. All
that the blocks visited before lead to is visited. -/
theorem visits (h : p.Walk ns order) (hnodup : fresh.Nodup)
    (hdown : ∀ i ∈ order, i ∉ fresh → ∀ c ∈ p.children i, c ∉ fresh) (rest : List Nat) :
    p.visits fresh (ns ++ rest) = (order.filter (· ∈ fresh)).eraseDups ++
      p.visits (fresh.filter (· ∉ order)) rest := by
  induction h generalizing fresh rest with
  | nil => simp
  | @cons n ns below after hbelow hafter ih ih' =>
    obtain ⟨hdown, hdown', hdown''⟩ := by
      simpa only [List.forall_mem_cons, List.forall_mem_append] using hdown
    by_cases hn : n ∈ fresh
    · -- Below `n` nothing but `n` itself stops being fresh, and the walk does not come back to `n`.
      have hne : ∀ i ∈ below, i ≠ n := fun i hi heq => hbelow.not_mem (heq ▸ hi)
      have herase : ∀ i, i ∈ fresh.erase n ↔ i ≠ n ∧ i ∈ fresh := fun i => hnodup.mem_erase_iff
      have hleft : ∀ i, i ∈ (fresh.erase n).filter (· ∉ below) ↔ (i ≠ n ∧ i ∈ fresh) ∧ i ∉ below := by
        simp [herase]
      have hfirst := ih (hnodup.erase n) (fun i hi hfresh c hc => by
        have hi' : i ∉ fresh := by simpa [herase, hne i hi] using hfresh
        exact fun hmem => hdown' i hi hi' c hc (List.mem_of_mem_erase hmem)) (ns ++ rest)
      have hlast := ih' ((hnodup.erase n).filter _) (fun i hi hfresh c hc hmem => by
        obtain ⟨⟨hcn, hcfresh⟩, hcbelow⟩ := (hleft c).1 hmem
        rcases eq_or_ne i n with rfl | hin
        · exact hcbelow (hbelow.subset hc)
        · have hout : i ∈ fresh → i ∈ below := by simpa [herase, hin] using hfresh
          by_cases hbelow' : i ∈ below
          · exact hcbelow (hbelow.children_subset hbelow' hc)
          · exact hdown'' i hi (mt hout hbelow') c hc hcfresh) rest
      have hkeep : fresh.filter (· ∉ n :: (below ++ after)) =
          ((fresh.erase n).filter (· ∉ below)).filter (· ∉ after) := by
        rw [hnodup.erase_eq_filter, List.filter_filter, List.filter_filter]
        refine List.filter_congr fun i _ => Bool.eq_iff_iff.2 ?_
        simp
        tauto
      rw [List.cons_append, Program.visits, if_pos hn, hfirst, hlast, eraseDups_filter hnodup hn,
        hkeep, List.cons_append, List.append_assoc]
    · have hnot := hbelow.disjoint (hdown hn) hdown'
      rw [List.cons_append, Program.visits, if_neg hn, ih' hnodup hdown'']
      have hskip : (n :: (below ++ after)).filter (· ∈ fresh) = after.filter (· ∈ fresh) := by
        rw [List.filter_cons_of_neg (by simpa using hn), List.filter_append,
          List.filter_eq_nil_iff.2 (by simpa using hnot), List.nil_append]
      have hkeep : fresh.filter (· ∉ n :: (below ++ after)) = fresh.filter (· ∉ after) := by
        refine List.filter_congr fun i hi => ?_
        have hi' : i ∉ below := fun hmem => hnot i hmem hi
        have hne : i ≠ n := fun heq => hn (heq ▸ hi)
        simp [hi', hne]
      rw [hskip, hkeep]

/-- A walk stays in the program. -/
theorem lt_size (hg : p.Graph) (h : p.Walk ns order) (hns : ∀ n ∈ ns, n < p.blocks.size) :
    ∀ i ∈ order, i < p.blocks.size := by
  induction h with
  | nil => simp
  | cons _ _ ih ih' =>
    obtain ⟨hn, hrest⟩ := List.forall_mem_cons.1 hns
    exact List.forall_mem_cons.2 ⟨hn, List.forall_mem_append.2 ⟨ih (hg.children _), ih' hrest⟩⟩

/-- The visiting order is the walk from the root without the blocks met before. -/
theorem visitOrder_eq (hg : p.Graph) (h : p.Walk [0] order) : p.visitOrder = order.eraseDups := by
  have hrange : ∀ i ∈ order, i ∈ List.range p.blocks.size := fun i hi =>
    List.mem_range.2 (h.lt_size hg (List.forall_mem_singleton.2 hg.root) i hi)
  have hvisits := h.visits List.nodup_range (fun i hi hout => absurd (hrange i hi) hout) []
  rw [List.filter_eq_self.2 (by simpa using hrange), Program.visits, List.append_nil,
    List.append_nil] at hvisits
  exact hvisits

/-- The check of the blocks one by one, in the order of the walk, finds what the check of a program
finds. -/
theorem checks_root (hg : p.Graph) (h : p.Walk [0] order) : p.Checks [0] p.defect? := by
  rw [defect?, h.visitOrder_eq hg, findSome?_eraseDups]
  exact h.checks

end Walk

/-- A walk that remembers nothing comes to an end just when no cycle can be reached. -/
theorem Graph.exists_walk_iff (hg : p.Graph) : (∃ order, p.Walk [0] order) ↔ ¬p.Cyclic := by
  constructor
  · rintro ⟨order, h⟩ ⟨i, hi, hback⟩
    have hmem : i ∈ order := by
      rw [← List.mem_eraseDups, ← h.visitOrder_eq hg, mem_visitOrder]
      exact ⟨hi, hg.reached hi⟩
    exact h.not_leads hmem hback
  · intro h
    obtain ⟨layers, hlayered, hroot⟩ := layered_of_cyclicBlock? (hg.cyclicBlock?_eq_none.2 h)
    exact hlayered.walk (List.cons_subset.2 ⟨hroot, List.nil_subset _⟩)

end Program

open Program

/-! ### Assembled and decoded programs -/

namespace Assembly.Links

variable {source : Text} {p : Program}

theorem graph (h : Links source p) : p.Graph := by
  obtain ⟨drafts, -, hsize, hlink⟩ := h
  refine .of_blocks ?_ (lt_size_of_link hlink)
  obtain ⟨-, rfl⟩ := link_eq_ok.1 hlink
  simpa using hsize

theorem cyclic_iff (h : Links source p) :
    (∃ line name, parse source = .error ⟨line, .cyclicBlock name⟩) ↔ p.Cyclic := by
  obtain ⟨line, hparse⟩ := h.parse_eq
  rw [hparse, ← h.graph.isSome_cyclicBlock?]
  cases p.cyclicBlock? with
  | some n => simp
  | none => cases p.defect? <;> simp

end Assembly.Links

namespace Image.Links

variable {bytes : Text} {p : Program}

theorem graph (h : Links bytes p) : p.Graph := by
  obtain ⟨file, -, -, -, hblocks, hlink⟩ := h
  obtain ⟨hchildren, heq⟩ := (mapM_eq_ok fun _ _ _ => StoredBlock.link_eq_ok).1 hlink
  have hsize : p.blocks.size = file.blocks.length := by
    rw [← Array.length_toList, heq, List.length_map, List.length_zipIdx]
  refine .of_blocks (hsize ▸ List.length_pos_iff.2 hblocks) fun b hb c hc => ?_
  obtain ⟨x, hx, rfl⟩ := List.mem_map.1 (heq ▸ Array.mem_toList_iff.2 hb)
  obtain ⟨n, hn, rfl⟩ := List.mem_map.1 (List.mem_toArray.1 hc)
  have hlt := hchildren x hx n hn
  omega

theorem cyclic_iff (h : Links bytes p) :
    (∃ name, decode bytes = .error (.cyclicBlock name)) ↔ p.Cyclic := by
  rw [h.decode_eq, ← h.graph.isSome_cyclicBlock?]
  cases p.cyclicBlock? with
  | some n => simp
  | none => cases p.defect? <;> simp

end Image.Links

/-- What passed both checks is acyclic, and walks over it come to an end. -/
theorem Program.Graph.walked {p : Program} (hg : p.Graph) (hcyclic : p.cyclicBlock? = none)
    (hdefect : p.defect? = none) : p.Graph ∧ ¬p.Cyclic ∧
      (∃ order, p.Walk [0] order ∧ p.visitOrder = order.eraseDups) ∧ p.Checks [0] none := by
  have hacyclic := hg.cyclicBlock?_eq_none.1 hcyclic
  obtain ⟨order, horder⟩ := hg.exists_walk_iff.2 hacyclic
  exact ⟨hg, hacyclic, ⟨order, horder, horder.visitOrder_eq hg⟩, hdefect ▸ horder.checks_root hg⟩

/-- The check for cycles is exact on every graph of blocks. The recursion that marks the blocks ends
in exactly one way and reports the block that the check reports. That block can be reached and leads
back to itself, and one is reported whenever there is such a block. A walk that remembers nothing
ends just when there is none. Once their blocks are linked, sources and images are refused for a
cycle just when one can be reached, so on what is assembled or decoded all walks end, and the check
of the blocks one by one ends without a defect. -/
theorem cycle_check_exact :
    (∀ p : Program, p.Graph →
      (∃! r, p.Marks (fun _ => .unvisited) [0] r) ∧
      (∀ n, p.Marks (fun _ => .unvisited) [0] (.error n) ↔ p.cyclicBlock? = some n) ∧
      (∀ n, p.cyclicBlock? = some n → p.Reached n ∧ p.Leads n n) ∧
      (p.cyclicBlock?.isSome ↔ p.Cyclic) ∧
      ((∃ order, p.Walk [0] order) ↔ ¬p.Cyclic)) ∧
    (∀ source p, Assembly.Links source p → p.Graph ∧
      ((∃ line name, Assembly.parse source = .error ⟨line, .cyclicBlock name⟩) ↔ p.Cyclic)) ∧
    (∀ bytes p, Image.Links bytes p → p.Graph ∧
      ((∃ name, Image.decode bytes = .error (.cyclicBlock name)) ↔ p.Cyclic)) ∧
    ∀ p : Program, (∃ source, Assembly.parse source = .ok p) ∨ (∃ bytes, Image.decode bytes = .ok p) →
      p.Graph ∧ ¬p.Cyclic ∧ (∃ order, p.Walk [0] order ∧ p.visitOrder = order.eraseDups) ∧
        p.Checks [0] none := by
  refine ⟨fun p hg => ?_, fun source p h => ⟨h.graph, h.cyclic_iff⟩,
    fun bytes p h => ⟨h.graph, h.cyclic_iff⟩, ?_⟩
  · obtain ⟨r, hr, hreport⟩ := hg.marks_root
    refine ⟨⟨r, hr, fun r' hr' => hr'.functional hr⟩, fun n => ?_,
      fun n => hg.cyclic_of_cyclicBlock?, hg.isSome_cyclicBlock?, hg.exists_walk_iff⟩
    rw [← hreport n]
    exact ⟨fun h => hr.functional h, fun h => h ▸ hr⟩
  · rintro p (⟨source, h⟩ | ⟨bytes, h⟩)
    · obtain ⟨q, hq⟩ := Assembly.exists_links_of_parse h
      obtain ⟨rfl, hcyclic, hdefect⟩ := hq.parse_eq_ok_iff.1 h
      exact hq.graph.walked hcyclic hdefect
    · obtain ⟨q, hq⟩ := Image.exists_links_of_decode h
      obtain ⟨rfl, hcyclic, hdefect⟩ := hq.decode_eq_ok_iff.1 h
      exact hq.graph.walked hcyclic hdefect

/-- The root has a child twice that is its own grandchild; out of its reach a block is its own
child. -/
def knot : Program where
  blocks := #[{ children := #[1, 2, 2] }, {}, { children := #[1, 3] }, { children := #[2] },
    { children := #[4] }]

theorem graph_knot : knot.Graph :=
  .of_blocks (by decide) (by decide)

theorem cycle_check_exact_knot : knot.Graph ∧ knot.cyclicBlock? = some 2 ∧
    knot.Reached 2 ∧ knot.Leads 2 2 := by
  have hcyclic : knot.cyclicBlock? = some 2 := by
    have hrange : List.range knot.blocks.size = [0, 1, 2, 3, 4] := rfl
    rw [cyclicBlock?, hrange]
    simp [openBlock?, children, block, knot]
  exact ⟨graph_knot, hcyclic, (cycle_check_exact.1 knot graph_knot).2.2.1 2 hcyclic⟩

end ObjectMachine
