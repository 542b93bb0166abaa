import ObjectMachine.Proofs.Units

/-! Where passes stand on the chain. Frames are numbered in the order they are pushed. A pass
began when `born` frames had been pushed; the part of the chain below its entry and the
markers of the passes below are older, its own frames and markers are not. No pass touches
what is below its entry, a constructor pass stands in its own code whenever its part of the
chain is empty, and markers are in the order they were pushed. -/

namespace ObjectMachine.Control

/-- The code of a constructor pass before its last instruction. -/
def AtHome (code : Option Code) (pc : Int64) : Prop :=
  ∃ argc, code = some (Machine.constructorCode argc) ∧ (pc = 0 ∨ pc = 1)

section Levels

variable (k : FrameId → Frame) (nested : Prop) (x : Context) (upper below : List FrameId)
  (born size : Nat)

/-- A marker leads back to a frame of its own pass, or to the entry of the last pass. -/
def Leading (f : FrameId) : Prop :=
  (∃ d, (k f).depth = some d ∧ born ≤ d ∧ d < f) ∨ ¬nested ∧ (k f).depth = x.entry

/-- The frames of a chain above the one a marker leads back to. -/
def above (f : FrameId) : List FrameId := upper.takeWhile fun d => (k f).depth != some d

/-- A pass in the context `x` whose part of the chain is `upper`. -/
structure Level : Prop where
  entry : below.head? = x.entry
  older : ∀ f ∈ below, f < born
  younger : ∀ f ∈ upper ++ x.markers, born ≤ f ∧ f < size
  marked : ∀ f ∈ x.markers, (k f).isMarker
  distinct : (upper ++ x.markers).Nodup
  descending : x.markers.Pairwise (· > ·)
  leading : ∀ f ∈ upper ++ x.markers, (k f).isMarker → Leading k nested x born f
  /-- What an older marker leads back to is not above what a newer one leads back to. -/
  ordered : x.markers.Pairwise fun f g =>
    ((k f).depth = x.entry ∨ ∃ d ∈ upper, (k f).depth = some d) →
      ∀ d ∈ above k upper f, (k g).depth ≠ some d
  apart : ∀ f ∈ x.markers, ∀ g ∈ x.markers, (k g).depth ≠ some f
  bottom : nested → ∀ f, upper.getLast? = some f →
    (k f).isMarker = false ∧ AtHome (k f).code (k f).pc

end Levels

variable {k : FrameId → Frame} {nested : Prop} {x x' : Context} {upper below : List FrameId}
  {born size : Nat} {c c' : Control}

namespace Level

theorem entry_lt (h : Level k nested x upper below born size) {e : FrameId}
    (he : x.entry = some e) : e < born :=
  h.older e (List.mem_of_head? (h.entry.trans he))

theorem entry_ne (h : Level k nested x upper below born size) {f : FrameId} (hf : born ≤ f) :
    x.entry ≠ some f := fun he => absurd (h.entry_lt he) (Nat.not_lt.2 hf)

theorem ne_of_leading (h : Level k nested x upper below born size) {f g : FrameId}
    (hg : Leading k nested x born g) (hf : born ≤ f) (hlt : g ≤ f) : (k g).depth ≠ some f := by
  rintro heq
  rcases hg with ⟨d, hd, -, hdg⟩ | ⟨-, hentry⟩
  · rw [hd, Option.some.injEq] at heq
    exact absurd (heq ▸ hdg) (Nat.not_lt.2 hlt)
  · exact h.entry_ne hf (hentry.symm.trans heq)

/-- Frames and markers are dropped, the newest first. -/
theorem shrink (h : Level k nested x upper below born size) {upper' : List FrameId}
    (hupper : upper' <:+ upper) (hmarkers : x'.markers <:+ x.markers)
    (hentry : x'.entry = x.entry) : Level k nested x' upper' below born size := by
  obtain ⟨dropped, rfl⟩ := hupper
  have hsub : (upper' ++ x'.markers).Sublist (dropped ++ upper' ++ x.markers) :=
    (List.sublist_append_right dropped upper').append hmarkers.sublist
  have hmem : ∀ f ∈ upper' ++ x'.markers, f ∈ dropped ++ upper' ++ x.markers :=
    fun f hf => hsub.subset hf
  have hnodup := List.nodup_append.1 (List.nodup_append.1 h.distinct).1
  refine ⟨h.entry.trans hentry.symm, h.older, fun f hf => h.younger f (hmem f hf),
    fun f hf => h.marked f (hmarkers.subset hf), h.distinct.sublist hsub,
    h.descending.sublist hmarkers.sublist, fun f hf hm => ?_, ?_,
    fun f hf g hg => h.apart f (hmarkers.subset hf) g (hmarkers.subset hg), fun hn f hf => ?_⟩
  · unfold Leading
    rw [hentry]
    exact h.leading f (hmem f hf) hm
  · refine (h.ordered.sublist hmarkers.sublist).imp fun hfg hlive d hd => ?_
    next f g =>
    rw [hentry] at hlive
    have hpass : ∀ e ∈ dropped, ((k f).depth != some e) = true := by
      intro e he
      rw [bne_iff_ne]
      intro heq
      rcases hlive with hlive | ⟨d, hd, hlive⟩
      · have hborn := (h.younger e (by simp [he])).1
        exact h.entry_ne hborn (hlive.symm.trans heq)
      · rw [hlive, Option.some.injEq] at heq
        exact hnodup.2.2 e he d hd heq.symm
    have habove : above k (dropped ++ upper') f = dropped ++ above k upper' f :=
      List.takeWhile_append_of_pos hpass
    refine hfg (hlive.imp_right fun ⟨d, hd, heq⟩ => ⟨d, List.mem_append_right _ hd, heq⟩) d ?_
    rw [habove]
    exact List.mem_append_right _ hd
  · refine h.bottom hn f ?_
    rw [List.getLast?_append, hf]
    rfl

/-- A context with the same markers and entry. -/
theorem turn (h : Level k nested x upper below born size) (hmarkers : x'.markers = x.markers)
    (hentry : x'.entry = x.entry) : Level k nested x' upper below born size :=
  h.shrink (List.suffix_refl _) (hmarkers ▸ List.suffix_refl _) hentry

/-- Frames that are pushed later are seen by none of this. -/
theorem congr {k' : FrameId → Frame} {size' : Nat} (h : Level k nested x upper below born size)
    (hk : ∀ f, f < size → k' f = k f) (hsize : size ≤ size') :
    Level k' nested x upper below born size' := by
  have hmem : ∀ f ∈ upper ++ x.markers, k' f = k f := fun f hf => hk f (h.younger f hf).2
  have hmark : ∀ f ∈ x.markers, k' f = k f := fun f hf => hmem f (List.mem_append_right _ hf)
  refine ⟨h.entry, h.older, fun f hf => ⟨(h.younger f hf).1, ?_⟩, fun f hf => ?_, h.distinct,
    h.descending, fun f hf => ?_, ?_, fun f hf g hg => ?_, fun hn f hf => ?_⟩
  · exact Nat.lt_of_lt_of_le (h.younger f hf).2 hsize
  · rw [hmark f hf]
    exact h.marked f hf
  · simp only [Leading, hmem f hf]
    exact h.leading f hf
  · refine h.ordered.imp_of_mem fun hf hg hfg => ?_
    simp only [above, hmark _ hf, hmark _ hg]
    exact hfg
  · rw [hmark g hg]
    exact h.apart f hf g hg
  · rw [hmem f (List.mem_append_left _ (List.mem_of_getLast? hf))]
    exact h.bottom hn f hf

/-- A call is pushed. -/
theorem push (h : Level k nested x upper below born size) (hborn : born ≤ size)
    (hcall : (k size).isMarker = false)
    (hhome : nested → upper = [] → AtHome (k size).code (k size).pc) :
    Level k nested x (size :: upper) below born (size + 1) := by
  have hnew : ∀ f ∈ upper ++ x.markers, f ≠ size :=
    fun f hf => Nat.ne_of_lt (h.younger f hf).2
  have hdepth : ∀ f ∈ x.markers, (k f).depth ≠ some size := by
    intro f hf
    have hmem := List.mem_append_right upper hf
    exact h.ne_of_leading (h.leading f hmem (h.marked f hf)) hborn (Nat.le_of_lt (h.younger f hmem).2)
  refine ⟨h.entry, h.older, fun f hf => ?_, h.marked, ?_, h.descending, fun f hf hm => ?_, ?_,
    h.apart, fun hn f hf => ?_⟩
  · rw [List.cons_append] at hf
    rcases List.mem_cons.1 hf with rfl | hf
    · exact ⟨hborn, Nat.lt_succ_self _⟩
    · exact ⟨(h.younger f hf).1, Nat.lt_succ_of_lt (h.younger f hf).2⟩
  · rw [List.cons_append, List.nodup_cons]
    exact ⟨fun hmem => hnew size hmem rfl, h.distinct⟩
  · rw [List.cons_append] at hf
    rcases List.mem_cons.1 hf with rfl | hf
    · rw [hcall] at hm
      cases hm
    · exact h.leading f hf hm
  · refine h.ordered.imp_of_mem fun {f g} hf hg hfg hlive d hd => ?_
    have hlive' : (k f).depth = x.entry ∨ ∃ d ∈ upper, (k f).depth = some d := by
      refine hlive.imp_right fun ⟨d, hd, heq⟩ => ?_
      rcases List.mem_cons.1 hd with rfl | hd
      · exact absurd heq (hdepth f hf)
      · exact ⟨d, hd, heq⟩
    have hpass : ((k f).depth != some size) = true := bne_iff_ne.2 (hdepth f hf)
    rw [above, List.takeWhile_cons, hpass] at hd
    rcases List.mem_cons.1 hd with rfl | hd
    · exact hdepth g hg
    · exact hfg hlive' d hd
  · cases upper with
    | nil =>
      cases hf
      exact ⟨hcall, hhome hn rfl⟩
    | cons u upper =>
      rw [List.getLast?_cons_cons] at hf
      exact h.bottom hn f hf

/-- A marker is pushed. -/
theorem mark (h : Level k nested x upper below born size) (hborn : born ≤ size)
    (hmarker : (k size).isMarker) (hdepth : (k size).depth = (upper ++ below).head?)
    (hnested : nested → upper ≠ []) (hmarkers : x'.markers = size :: x.markers)
    (hentry : x'.entry = x.entry) : Level k nested x' upper below born (size + 1) := by
  have hlead : Leading k nested x born size := by
    cases upper with
    | nil => exact .inr ⟨fun hn => hnested hn rfl, hdepth.trans h.entry⟩
    | cons u upper =>
      obtain ⟨hborn, hlt⟩ := h.younger u List.mem_cons_self
      exact .inl ⟨u, hdepth, hborn, hlt⟩
  have habove : above k upper size = [] := by
    cases upper with
    | nil => rfl
    | cons u upper =>
      rw [above, hdepth]
      simp
  have hold : ∀ f ∈ x.markers, (k f).depth ≠ some size := by
    intro f hf
    have hmem := List.mem_append_right upper hf
    exact h.ne_of_leading (h.leading f hmem (h.marked f hf)) hborn (Nat.le_of_lt (h.younger f hmem).2)
  have hfresh : ∀ f ∈ x.markers, (k size).depth ≠ some f := by
    intro f hf heq
    cases upper with
    | nil => exact h.entry_ne (h.younger f hf).1 ((hdepth.trans h.entry).symm.trans heq)
    | cons u upper =>
      have hu : u = f := Option.some.inj (hdepth.symm.trans heq)
      exact (List.nodup_append.1 h.distinct).2.2 u List.mem_cons_self f hf hu
  have hperm : (upper ++ x'.markers).Perm (size :: (upper ++ x.markers)) := by
    rw [hmarkers]
    exact List.perm_middle
  refine ⟨h.entry.trans hentry.symm, h.older, fun f hf => ?_, fun f hf => ?_, ?_, ?_,
    fun f hf hm => ?_, ?_, fun f hf g hg => ?_, h.bottom⟩
  · rcases List.mem_cons.1 (hperm.mem_iff.1 hf) with rfl | hf
    · exact ⟨hborn, Nat.lt_succ_self _⟩
    · exact ⟨(h.younger f hf).1, Nat.lt_succ_of_lt (h.younger f hf).2⟩
  · rw [hmarkers] at hf
    rcases List.mem_cons.1 hf with rfl | hf
    · exact hmarker
    · exact h.marked f hf
  · rw [hperm.nodup_iff, List.nodup_cons]
    exact ⟨fun hmem => Nat.lt_irrefl _ (h.younger size hmem).2, h.distinct⟩
  · rw [hmarkers]
    exact List.pairwise_cons.2
      ⟨fun f hf => (h.younger f (List.mem_append_right _ hf)).2, h.descending⟩
  · unfold Leading
    rw [hentry]
    rcases List.mem_cons.1 (hperm.mem_iff.1 hf) with rfl | hf
    · exact hlead
    · exact h.leading f hf hm
  · rw [hmarkers, hentry]
    refine List.pairwise_cons.2 ⟨fun g _ _ d hd => ?_, h.ordered⟩
    rw [habove] at hd
    cases hd
  · rw [hmarkers] at hf hg
    rcases List.mem_cons.1 hf with rfl | hf' <;> rcases List.mem_cons.1 hg with rfl | hg'
    · exact h.ne_of_leading hlead hborn (Nat.le_refl _)
    · exact hold g hg'
    · exact hfresh f hf'
    · exact h.apart f hf' g hg'

/-- A marker moves onto the chain. -/
theorem splice (h : Level k nested x upper below born size) {f : FrameId}
    (hmarkers : x.markers = f :: x'.markers) (hentry : x'.entry = x.entry)
    (hnested : nested → upper ≠ []) : Level k nested x' (f :: upper) below born size := by
  have hperm : (f :: upper ++ x'.markers).Perm (upper ++ x.markers) := by
    rw [hmarkers]
    exact List.perm_middle.symm
  have hsub : ∀ g ∈ x'.markers, g ∈ x.markers := fun g hg => hmarkers ▸ List.mem_cons_of_mem _ hg
  have hf : f ∈ x.markers := hmarkers ▸ List.mem_cons_self
  have hdescending := h.descending
  have hordered := h.ordered
  rw [hmarkers] at hdescending hordered
  refine ⟨h.entry.trans hentry.symm, h.older, fun g hg => h.younger g (hperm.mem_iff.1 hg),
    fun g hg => h.marked g (hsub g hg), hperm.nodup_iff.2 h.distinct,
    (List.pairwise_cons.1 hdescending).2, fun g hg hm => ?_, ?_,
    fun g hg j hj => h.apart g (hsub g hg) j (hsub j hj), fun hn g hg => ?_⟩
  · unfold Leading
    rw [hentry]
    exact h.leading g (hperm.mem_iff.1 hg) hm
  · rw [hentry]
    refine (List.pairwise_cons.1 hordered).2.imp_of_mem fun {g j} hg hj hgj hlive d hd => ?_
    have hlive' : (k g).depth = x.entry ∨ ∃ d ∈ upper, (k g).depth = some d := by
      refine hlive.imp_right fun ⟨d, hd, heq⟩ => ?_
      rcases List.mem_cons.1 hd with rfl | hd
      · exact absurd heq (h.apart d hf g (hsub g hg))
      · exact ⟨d, hd, heq⟩
    have hpass : ((k g).depth != some f) = true := bne_iff_ne.2 (h.apart f hf g (hsub g hg))
    rw [above, List.takeWhile_cons, hpass] at hd
    rcases List.mem_cons.1 hd with rfl | hd
    · exact h.apart d hf j (hsub j hj)
    · exact hgj hlive' d hd
  · cases upper with
    | nil => exact absurd rfl (hnested hn)
    | cons u upper =>
      rw [List.getLast?_cons_cons] at hg
      exact h.bottom hn g hg

/-- The frames that a pass left behind belong to the pass below it. -/
theorem join {outer : Prop} {lower below' : List FrameId} {born' : Nat}
    (h : Level k nested x upper (lower ++ below') born size) (hnested : nested)
    (h' : Level k outer x' lower below' born' born) (hborn' : born' ≤ born) (hborn : born ≤ size) :
    Level k outer x' (upper ++ lower) below' born' size := by
  have hupper : ∀ f ∈ upper, born ≤ f ∧ f < size :=
    fun f hf => h.younger f (List.mem_append_left _ hf)
  have hlower : ∀ f ∈ lower ++ x'.markers, born' ≤ f ∧ f < born := h'.younger
  have hdepth : ∀ g ∈ x'.markers, ∀ d ∈ upper, (k g).depth ≠ some d := by
    intro g hg d hd
    have hmem := List.mem_append_right lower hg
    refine h'.ne_of_leading (h'.leading g hmem (h'.marked g hg)) ?_ ?_
    · exact Nat.le_trans hborn' (hupper d hd).1
    · exact Nat.le_trans (Nat.le_of_lt (hlower g hmem).2) (hupper d hd).1
  refine ⟨h'.entry, h'.older, fun f hf => ?_, h'.marked, ?_, h'.descending, fun f hf hm => ?_, ?_,
    h'.apart, fun hn f hf => ?_⟩
  · rw [List.append_assoc] at hf
    rcases List.mem_append.1 hf with hf | hf
    · exact ⟨Nat.le_trans hborn' (hupper f hf).1, (hupper f hf).2⟩
    · exact ⟨(hlower f hf).1, Nat.lt_of_lt_of_le (hlower f hf).2 hborn⟩
  · rw [List.append_assoc]
    refine List.nodup_append.2 ⟨(List.nodup_append.1 h.distinct).1, h'.distinct, ?_⟩
    rintro f hf g hg rfl
    exact absurd (hlower f hg).2 (Nat.not_lt.2 (hupper f hf).1)
  · rw [List.append_assoc] at hf
    rcases List.mem_append.1 hf with hf | hf
    · rcases h.leading f (List.mem_append_left _ hf) hm with ⟨d, hd, hd₁, hd₂⟩ | ⟨hn, -⟩
      · exact .inl ⟨d, hd, Nat.le_trans hborn' hd₁, hd₂⟩
      · exact absurd hnested hn
    · exact h'.leading f hf hm
  · refine h'.ordered.imp_of_mem fun {f g} hf hg hfg hlive d hd => ?_
    have hpass : ∀ e ∈ upper, ((k f).depth != some e) = true :=
      fun e he => bne_iff_ne.2 (hdepth f hf e he)
    have hlive' : (k f).depth = x'.entry ∨ ∃ d ∈ lower, (k f).depth = some d := by
      refine hlive.imp_right fun ⟨d, hd, heq⟩ => ?_
      rcases List.mem_append.1 hd with hd | hd
      · exact absurd heq (hdepth f hf d hd)
      · exact ⟨d, hd, heq⟩
    rw [above, List.takeWhile_append_of_pos hpass] at hd
    rcases List.mem_append.1 hd with hd | hd
    · exact hdepth g hg d hd
    · exact hfg hlive' d hd
  · rw [List.getLast?_append] at hf
    cases hlast : lower.getLast? with
    | some g =>
      rw [hlast] at hf
      exact h'.bottom hn f (hlast.trans hf)
    | none =>
      rw [hlast] at hf
      exact h.bottom hnested f hf

/-- The chain of a pass is its own part up to its entry. -/
theorem takeWhile_chain (h : Level k nested x upper below born size) :
    ((upper ++ below).takeWhile fun f => x.entry != some f) = upper := by
  have hpass : ∀ f ∈ upper, (x.entry != some f) = true := by
    intro f hf
    exact bne_iff_ne.2 (h.entry_ne (h.younger f (List.mem_append_left _ hf)).1)
  rw [List.takeWhile_append_of_pos hpass]
  cases below with
  | nil => simp
  | cons e below =>
    have he : x.entry = some e := h.entry.symm
    simp [he]

/-- A pass stands at its entry when its part of the chain is empty. -/
theorem head?_eq_entry_iff (h : Level k nested x upper below born size) :
    (upper ++ below).head? = x.entry ↔ upper = [] := by
  constructor
  · intro heq
    cases upper with
    | nil => rfl
    | cons f upper => exact absurd heq.symm (h.entry_ne (h.younger f List.mem_cons_self).1)
  · rintro rfl
    exact h.entry

end Level

/-! ### Unwinding -/

theorem pop_markers {f : FrameId} {rest : List FrameId} :
    (c.pop f rest).context.markers <:+ c.context.markers := by
  simp only [pop, restore]
  split
  · exact List.suffix_refl _
  · exact List.dropWhile_suffix _

theorem pop_code (f : FrameId) (rest : List FrameId) :
    (c.pop f rest).context.code = (c.frameAt f).code ∧
      (c.pop f rest).context.pc = (c.frameAt f).pc := ⟨rfl, rfl⟩

/-- Nothing is found below a pass. -/
theorem popUntil_eq_none {d : FrameId} {fs : List FrameId} (h : d ∉ fs) :
    popUntil (some d) fs c = none := by
  induction fs generalizing c with
  | nil => rfl
  | cons f fs ih =>
    rw [List.mem_cons, not_or] at h
    rw [popUntil, if_neg (fun heq => h.1 (Option.some.inj heq))]
    exact ih h.2

/-- The result of unwinding in a pass with the part `upper` of the chain. -/
structure Unwound (k : FrameId → Frame) (nested : Prop) (upper below : List FrameId)
    (born size : Nat) (target : Option FrameId) (c c' : Control) (upper' : List FrameId) : Prop where
  chain : c'.chain = upper' ++ below
  suffix : upper' <:+ upper
  markers : c'.context.markers <:+ c.context.markers
  level : Level k nested c'.context upper' below born size
  head : c'.chain.head? = target
  home : nested → upper' = [] → c' = c ∨ AtHome c'.context.code c'.context.pc

/-- Nothing is popped below the entry of a pass. -/
theorem Level.stop {target : Option FrameId} (h : Level k nested c.context upper below born size)
    (htarget : target = c.context.entry ∨ ∃ d, target = some d ∧ born ≤ d)
    (hu : c.popUntil target below = some c') : c' = c ∧ below.head? = target := by
  rcases htarget with rfl | ⟨d, rfl, hd⟩
  · refine ⟨?_, h.entry⟩
    have he := h.entry
    cases below with
    | nil =>
      rw [← he] at hu
      exact (Option.some.inj hu).symm
    | cons e below =>
      have he' : c.context.entry = some e := he.symm
      rw [he', popUntil, if_pos rfl] at hu
      exact (Option.some.inj hu).symm
  · rw [popUntil_eq_none fun hmem => absurd (h.older d hmem) (Nat.not_lt.2 hd)] at hu
    cases hu

theorem Level.unwind {target : Option FrameId} (hk : c.frameAt = k)
    (h : Level k nested c.context upper below born size) (hchain : c.chain = upper ++ below)
    (htarget : target = c.context.entry ∨ ∃ d, target = some d ∧ born ≤ d)
    (hu : c.popUntil target (upper ++ below) = some c') :
    ∃ upper', Unwound k nested upper below born size target c c' upper' := by
  induction upper generalizing c with
  | nil =>
    obtain ⟨rfl, hhead⟩ := h.stop htarget hu
    exact ⟨[], hchain, List.suffix_refl _, List.suffix_refl _, h,
      (congrArg List.head? hchain).trans hhead, fun _ _ => .inl rfl⟩
  | cons f upper ih =>
    rw [List.cons_append, popUntil] at hu
    split at hu
    · next ht =>
      cases hu
      refine ⟨f :: upper, hchain, List.suffix_refl _, List.suffix_refl _, h, ?_,
        by simp⟩
      rw [hchain, ht]
      rfl
    · have hsame : SamePass c (c.pop f (upper ++ below)) := pop_samePass
      have hat : (c.pop f (upper ++ below)).frameAt = k := by
        rw [← hk]
        exact funext (frameAt_of_frames hsame.frames)
      have h₁ : Level k nested (c.pop f (upper ++ below)).context upper below born size :=
        h.shrink (List.suffix_cons f upper) pop_markers hsame.entry
      obtain ⟨upper', hw⟩ := ih hat h₁ rfl (by rwa [hsame.entry]) hu
      refine ⟨upper', hw.chain, hw.suffix.trans (List.suffix_cons f upper),
        hw.markers.trans pop_markers, hw.level, hw.head, ?_⟩
      intro hn hnil
      rcases hw.home hn hnil with heq | hhome
      · have hempty : upper = [] := by
          have hlength := congrArg List.length ((congrArg Control.chain heq).symm.trans hw.chain)
          rw [pop_chain, hnil, List.length_append] at hlength
          exact List.length_eq_zero_iff.1 (by simpa using hlength)
        have hlast : (f :: upper).getLast? = some f := by rw [hempty]; rfl
        obtain ⟨hcode, hpc⟩ := pop_code (c := c) f (upper ++ below)
        rw [heq, hcode, hpc, hk]
        exact .inr (h.bottom hn f hlast).2
      · exact .inr hhome

theorem Level.splice_control (h : Level k nested c.context upper below born size)
    (hchain : c.chain = upper ++ below) (hne : nested → upper ≠ []) :
    ∃ upper', c.splice.chain = upper' ++ below ∧
      Level k nested c.splice.context upper' below born size ∧ (nested → upper' ≠ []) ∧
      upper' ++ c.splice.context.markers ⊆ upper ++ c.context.markers := by
  unfold Control.splice
  split
  · next f rest hm =>
    refine ⟨f :: upper, congrArg (f :: ·) hchain, h.splice hm rfl hne, ?_, fun g hg => ?_⟩
    · exact fun _ => List.cons_ne_nil _ _
    · rw [hm]
      exact List.perm_middle.symm.subset hg
  · exact ⟨upper, hchain, h.turn rfl rfl, hne, fun _ hg => hg⟩

/-- A pass is unwound to where one of its markers leads back. -/
theorem Level.unwindLead {f : FrameId} (hk : c.frameAt = k)
    (h : Level k nested c.context upper below born size) (hchain : c.chain = upper ++ below)
    (hlead : Leading k nested c.context born f) (hu : c.unwind (k f).depth = some c') :
    ∃ upper', Unwound k nested upper below born size (k f).depth c c' upper' ∧
      (nested → upper' ≠ []) := by
  rw [Control.unwind, hchain] at hu
  have htarget : (k f).depth = c.context.entry ∨ ∃ d, (k f).depth = some d ∧ born ≤ d := by
    rcases hlead with ⟨d, hd, hborn, -⟩ | ⟨-, hentry⟩
    · exact .inr ⟨d, hd, hborn⟩
    · exact .inl hentry
  obtain ⟨upper', hw⟩ := h.unwind hk hchain htarget hu
  refine ⟨upper', hw, ?_⟩
  rintro hn rfl
  rcases hlead with ⟨d, hd, hborn, -⟩ | ⟨hnot, -⟩
  · have hhead := hw.head
    rw [hw.chain, hd, List.nil_append] at hhead
    exact absurd (h.older d (List.mem_of_head? hhead)) (Nat.not_lt.2 hborn)
  · exact hnot hn

/-- A pass is unwound to one of its frames. -/
theorem Level.unwindFrame {f : FrameId} (hk : c.frameAt = k)
    (h : Level k nested c.context upper below born size) (hchain : c.chain = upper ++ below)
    (hf : f ∈ upper) (hu : c.unwind (some f) = some c') :
    ∃ upper', Unwound k nested upper below born size (some f) c c' (f :: upper') := by
  have hborn := (h.younger f (List.mem_append_left _ hf)).1
  rw [Control.unwind, hchain] at hu
  obtain ⟨upper', hw⟩ := h.unwind hk hchain (.inr ⟨f, rfl, hborn⟩) hu
  have hhead := hw.head
  rw [hw.chain] at hhead
  cases upper' with
  | nil => exact absurd (h.older f (List.mem_of_head? hhead)) (Nat.not_lt.2 hborn)
  | cons g upper' =>
    cases hhead
    exact ⟨upper', hw⟩

/-- A marker is resumed inside its pass, and no marker comes back. -/
theorem Level.resume {f : FrameId} (hk : c.frameAt = k)
    (h : Level k nested c.context upper below born size) (hchain : c.chain = upper ++ below)
    (hlead : Leading k nested c.context born f) (hr : c.resume f = some c') :
    ∃ upper', c'.chain = upper' ++ below ∧ Level k nested c'.context upper' below born size ∧
      (nested → upper' ≠ []) ∧ upper' ++ c'.context.markers ⊆ upper ++ c.context.markers := by
  obtain ⟨c₁, hu, rfl⟩ := Option.map_eq_some_iff.1 hr
  rw [hk] at hu
  obtain ⟨upper', hw, hne⟩ := h.unwindLead hk hchain hlead hu
  have hsub : upper' ++ c₁.context.markers ⊆ upper ++ c.context.markers :=
    (hw.suffix.sublist.append hw.markers.sublist).subset
  unfold land
  split
  · exact ⟨upper', hw.chain, hw.level.turn rfl rfl, hne, hsub⟩
  · obtain ⟨upper₁, hchain₁, hlevel₁, hne₁, hsub₁⟩ :=
      Level.splice_control (c := c₁.arrive (c.frameAt f) .finalizing) (hw.level.turn rfl rfl)
        hw.chain hne
    exact ⟨upper₁, hchain₁, hlevel₁, hne₁, fun g hg => hsub (hsub₁ hg)⟩

theorem Level.spliced_eq (hk : c.frameAt = k)
    (h : Level k nested c.context upper below born size) (hchain : c.chain = upper ++ below) :
    c.spliced = upper.filter fun f => (k f).isMarker := by
  rw [spliced, hchain, h.takeWhile_chain, hk]

/-- An exception stays inside its pass, and the marker it goes to is used up. Only one that
finds no marker leaves control where it is. -/
theorem Level.deliver (hk : c.frameAt = k)
    (h : Level k nested c.context upper below born size) (hchain : c.chain = upper ++ below)
    (hd : c.deliver = some c') :
    ∃ upper', c'.chain = upper' ++ below ∧ Level k nested c'.context upper' below born size ∧
      (nested → upper' ≠ [] ∨ c' = c.settle) ∧
      ∀ f, (c.spliced ++ c.context.markers).head? = some f → f ∉ upper' ++ c'.context.markers := by
  have hspliced := h.spliced_eq hk hchain
  unfold Control.deliver at hd
  split at hd
  · next f fs hfs =>
    have hf : f ∈ upper ∧ (k f).isMarker := by
      have hmem : f ∈ upper.filter fun f => (k f).isMarker := by
        rw [← hspliced, hfs]
        exact List.mem_cons_self
      exact List.mem_filter.1 hmem
    obtain ⟨c₁, hu, hr⟩ := Option.bind_eq_some_iff.1 hd
    obtain ⟨upper₂, hw⟩ := h.unwindFrame hk hchain hf.1 hu
    have hsame := popUntil_samePass hu
    have hlead : Leading k nested c₁.context born f := by
      unfold Leading
      rw [hsame.entry]
      exact h.leading f (List.mem_append_left _ hf.1) hf.2
    have hat : c₁.frameAt = k := by
      rw [← hk]
      exact funext (frameAt_of_frames hsame.frames)
    have htail : c₁.chain.tail = upper₂ ++ below := by
      rw [hw.chain]
      rfl
    obtain ⟨upper', hchain', hlevel', hne, hsub⟩ :=
      Level.resume (c := { c₁ with chain := c₁.chain.tail }) hat
        (hw.level.shrink (List.suffix_cons f upper₂) (List.suffix_refl _) rfl) htail hlead hr
    refine ⟨upper', hchain', hlevel', fun hn => .inl (hne hn), fun g hg hmem => ?_⟩
    obtain rfl : f = g := by
      rw [hfs] at hg
      exact Option.some.inj hg
    exact (List.nodup_cons.1 hw.level.distinct).1 (hsub hmem)
  · next hfs =>
    split at hd
    · next f rest hm =>
      have hmem : f ∈ upper ++ c.context.markers := List.mem_append_right _ (hm ▸ List.mem_cons_self)
      have hlead := h.leading f hmem (h.marked f (hm ▸ List.mem_cons_self))
      obtain ⟨upper', hchain', hlevel', hne, hsub⟩ := Level.resume
        (c := { c with context := { c.context with markers := rest } }) hk
        (h.shrink (List.suffix_refl _) (hm ▸ List.suffix_cons f rest) rfl) hchain hlead hd
      refine ⟨upper', hchain', hlevel', fun hn => .inl (hne hn), fun g hg hmem => ?_⟩
      obtain rfl : f = g := by
        rw [hfs, hm] at hg
        exact Option.some.inj hg
      have hdistinct := h.distinct
      rw [hm] at hdistinct
      exact (List.nodup_cons.1 (List.perm_middle.nodup_iff.1 hdistinct)).1 (hsub hmem)
    · next hm =>
      cases hd
      refine ⟨upper, hchain, h.turn rfl rfl, fun _ => .inr rfl, fun f hf => ?_⟩
      rw [hfs, hm] at hf
      cases hf

/-! ### All passes -/

/-- A constructor pass that stands at its entry is in its own code. -/
def Home (nested : Prop) (x : Context) (chain : List FrameId) : Prop :=
  nested → chain.head? = x.entry → AtHome x.code x.pc

/-- The suspended passes below one that began at the number `born`. -/
def Below (k : FrameId → Frame) : List Suspension → List FrameId → Nat → Prop
  | [], _, _ => True
  | s :: rest, chain, born => ∃ x made w duties upper below born',
    s = ⟨x.entry, .construct x made w :: duties⟩ ∧ (∀ d ∈ duties, IsPlain d) ∧
    chain = upper ++ below ∧ born' ≤ born ∧ Level k (rest ≠ []) x upper below born' born ∧
    Home (rest ≠ []) x chain ∧ Below k rest below born'

theorem Below.congr {k' : FrameId → Frame} {ss : List Suspension} {chain : List FrameId}
    (h : Below k ss chain born) (hk : ∀ f, f < born → k' f = k f) : Below k' ss chain born := by
  induction ss generalizing chain born with
  | nil => trivial
  | cons s rest ih =>
    obtain ⟨x, made, w, duties, upper, below, born', hs, hd, hchain, hborn, hlevel, hhome, hrest⟩ := h
    refine ⟨x, made, w, duties, upper, below, born', hs, hd, hchain, hborn,
      hlevel.congr hk (Nat.le_refl _), hhome, ?_⟩
    exact ih hrest fun f hf => hk f (Nat.lt_of_lt_of_le hf hborn)

/-- The passes of a machine with the part `upper` of the chain above `below`. -/
structure Stands (c : Control) (upper below : List FrameId) (born : Nat) : Prop where
  chain : c.chain = upper ++ below
  le_size : born ≤ c.frames.size
  level : Level c.frameAt (c.suspended ≠ []) c.context upper below born c.frames.size
  lower : Below c.frameAt c.suspended below born

/-- Passes are in order. -/
def Sound (c : Control) : Prop :=
  (∃ upper below born, Stands c upper below born) ∧ Home (c.suspended ≠ []) c.context c.chain

/-- The running pass goes on in its own part of the chain. -/
theorem Stands.step (h : Stands c upper below born) (hsame : SamePass c c') {upper' : List FrameId}
    (hchain : c'.chain = upper' ++ below)
    (hlevel : Level c.frameAt (c.suspended ≠ []) c'.context upper' below born c.frames.size) :
    Stands c' upper' below born := by
  have hat : c'.frameAt = c.frameAt := funext (frameAt_of_frames hsame.frames)
  refine ⟨hchain, hsame.frames ▸ h.le_size, ?_, ?_⟩
  · rw [hat, hsame.suspended, hsame.frames]
    exact hlevel
  · rw [hat, hsame.suspended]
    exact h.lower

theorem Stands.home {upper' : List FrameId} (h : Stands c' upper' below born)
    (hhome : c'.suspended ≠ [] → upper' = [] → AtHome c'.context.code c'.context.pc) :
    Home (c'.suspended ≠ []) c'.context c'.chain := by
  intro hn hhead
  rw [h.chain] at hhead
  exact hhome hn (h.level.head?_eq_entry_iff.1 hhead)

theorem Sound.deliver (h : Sound c) (hd : c.deliver = some c') : Sound c' := by
  obtain ⟨⟨upper, below, born, hstands⟩, hhome⟩ := h
  have hsame := deliver_samePass hd
  obtain ⟨upper', hchain', hlevel', hor, -⟩ := hstands.level.deliver rfl hstands.chain hd
  have hstands' := hstands.step hsame hchain' hlevel'
  refine ⟨⟨upper', below, born, hstands'⟩, hstands'.home fun hn hnil => ?_⟩
  rw [hsame.suspended] at hn
  rcases hor hn with hne | rfl
  · exact absurd hnil hne
  · refine hhome hn ?_
    have hchain : c.chain = upper' ++ below := hchain'
    rw [hchain, hnil]
    exact hlevel'.entry

theorem Sound.raise {e : ClassId} {message : Value} (h : Sound c)
    (hr : c.raise e message = some c') : Sound c' := by
  unfold Control.raise at hr
  split at hr
  · refine Sound.deliver ?_ hr
    obtain ⟨⟨upper, below, born, hchain, hborn, hlevel, hbelow⟩, hhome⟩ := h
    exact ⟨⟨upper, below, born, hchain, hborn, hlevel, hbelow⟩, hhome⟩
  · exact h.deliver hr

theorem frameAt_push_of_lt {f : FrameId} (hf : f < c.frames.size) (j : Frame)
    (hframes : c'.frames = c.frames.push j) : c'.frameAt f = c.frameAt f := by
  simp only [frameAt, hframes, Array.getD_eq_getD_getElem?, Array.getElem?_push,
    Nat.ne_of_lt hf, if_false]

theorem frameAt_push_size (j : Frame) (hframes : c'.frames = c.frames.push j) :
    c'.frameAt c.frames.size = j := by
  simp [frameAt, hframes, Array.getD_eq_getD_getElem?]

/-- A call pushes one frame. -/
theorem Sound.call (h : Sound c) (base : Int64) (code : Code) (targetClass : Option ClassId) :
    Sound (c.call base code targetClass) := by
  obtain ⟨⟨upper, below, born, hstands⟩, hhome⟩ := h
  have hframes : (c.call base code targetClass).frames =
      c.frames.push (c.saved .call c.context.pc none) := rfl
  have hold : ∀ f, f < c.frames.size → (c.call base code targetClass).frameAt f = c.frameAt f :=
    fun f hf => frameAt_push_of_lt hf _ hframes
  have hnew := frameAt_push_size _ hframes
  have hstands' : Stands (c.call base code targetClass) (c.frames.size :: upper) below born := by
    refine ⟨congrArg (c.frames.size :: ·) hstands.chain, ?_, ?_, ?_⟩
    · rw [hframes, Array.size_push]
      exact Nat.le_succ_of_le hstands.le_size
    · have hlevel := (hstands.level.congr hold (Nat.le_refl _)).push hstands.le_size
        (by rw [hnew]; rfl) fun hn hnil => by
          rw [hnew]
          refine hhome hn ?_
          rw [hstands.chain]
          exact hstands.level.head?_eq_entry_iff.2 hnil
      rw [hframes, Array.size_push]
      exact hlevel.turn rfl rfl
    · exact hstands.lower.congr fun f hf => hold f (Nat.lt_of_lt_of_le hf hstands.le_size)
  exact ⟨⟨_, _, _, hstands'⟩, hstands'.home (by simp)⟩

/-- Other markers of the running pass may go, and its code may go on. -/
theorem Sound.keep (h : Sound c) (hsame : SamePass c c') (hchain : c'.chain = c.chain)
    (hmarkers : c'.context.markers <:+ c.context.markers)
    (hhome : c'.suspended ≠ [] → c.chain.head? = c.context.entry →
      AtHome c'.context.code c'.context.pc) : Sound c' := by
  obtain ⟨⟨upper, below, born, hstands⟩, -⟩ := h
  have hstands' := hstands.step hsame (hchain.trans hstands.chain)
    (hstands.level.shrink (List.suffix_refl _) hmarkers hsame.entry)
  refine ⟨⟨upper, below, born, hstands'⟩, hstands'.home fun hn hnil => hhome hn ?_⟩
  rw [hstands.chain]
  exact hstands.level.head?_eq_entry_iff.2 hnil

theorem next?_constructorCode {argc : Int64} {i : Inst}
    (hcode : c.context.code = some (Machine.constructorCode argc)) (hi : c.next? = some i) :
    (c.context.pc = 0 → i.op = .sendBlock) ∧ (c.context.pc = 1 → i.op = .abort) := by
  rw [next?, hcode, Option.bind_some] at hi
  refine ⟨fun hpc => ?_, fun hpc => ?_⟩
  · rw [hpc] at hi
    cases hi
    rfl
  · rw [hpc] at hi
    cases hi
    rfl

/-- No return ends a constructor pass. -/
theorem Sound.closed (h : Sound c) : c.Closed := by
  intro hn hhead i hi hop
  obtain ⟨argc, hcode, hpc⟩ := h.2 hn hhead
  obtain ⟨h₀, h₁⟩ := next?_constructorCode hcode hi
  rcases hpc with hpc | hpc
  · cases (h₀ hpc).symm.trans hop
  · cases (h₁ hpc).symm.trans hop

/-- An instruction that does not end a pass is fetched. -/
theorem Sound.fetch {i : Inst} (h : Sound c) (hi : c.next? = some i) (hop : i.op ≠ .abort) :
    Sound (c.goto (c.context.pc + 1)) := by
  refine h.keep ⟨rfl, rfl, rfl⟩ rfl (List.suffix_refl _) fun hn hhead => ?_
  obtain ⟨argc, hcode, hpc⟩ := h.2 hn hhead
  refine ⟨argc, hcode, .inr ?_⟩
  rcases hpc with hpc | hpc
  · change c.context.pc + 1 = 1
    rw [hpc]
    rfl
  · exact absurd ((next?_constructorCode hcode hi).2 hpc) hop

/-- A constructor pass at its entry executes one call and nothing else. -/
theorem Sound.op_of_entry {i : Inst} (h : Sound c) (hn : c.suspended ≠ [])
    (hhead : c.chain.head? = c.context.entry) (hi : c.next? = some i) :
    i.op = .sendBlock ∨ i.op = .abort := by
  obtain ⟨argc, hcode, hpc⟩ := h.2 hn hhead
  obtain ⟨h₀, h₁⟩ := next?_constructorCode hcode hi
  exact hpc.imp h₀ h₁

theorem Sound.mark (h : Sound c) {tag : FrameTag} (htag : tag ≠ .call) (pc : Int64)
    (hentry : c.suspended ≠ [] → c.chain.head? ≠ c.context.entry) : Sound (c.mark tag pc) := by
  obtain ⟨⟨upper, below, born, hstands⟩, hhome⟩ := h
  have hframes : (c.mark tag pc).frames = c.frames.push (c.saved tag pc c.chain.head?) := rfl
  have hold : ∀ f, f < c.frames.size → (c.mark tag pc).frameAt f = c.frameAt f :=
    fun f hf => frameAt_push_of_lt hf _ hframes
  have hnew := frameAt_push_size _ hframes
  have hne : c.suspended ≠ [] → upper ≠ [] := by
    rintro hn hnil
    refine hentry hn ?_
    rw [hstands.chain]
    exact hstands.level.head?_eq_entry_iff.2 hnil
  have hstands' : Stands (c.mark tag pc) upper below born := by
    refine ⟨hstands.chain, ?_, ?_, ?_⟩
    · rw [hframes, Array.size_push]
      exact Nat.le_succ_of_le hstands.le_size
    · rw [hframes, Array.size_push]
      refine (hstands.level.congr hold (Nat.le_refl _)).mark hstands.le_size ?_ ?_ hne rfl rfl
      · rw [hnew]
        simpa [Frame.isMarker, saved] using htag
      · rw [hnew, ← hstands.chain]
        rfl
    · exact hstands.lower.congr fun f hf => hold f (Nat.lt_of_lt_of_le hf hstands.le_size)
  exact ⟨⟨upper, below, born, hstands'⟩, hhome⟩

/-- A pass pops one of its own frames. -/
theorem Sound.pop (h : Sound c) {f : FrameId} {rest : List FrameId} (hchain : c.chain = f :: rest)
    (hentry : c.chain.head? ≠ c.context.entry) : Sound (c.pop f rest) := by
  obtain ⟨⟨upper, below, born, hstands⟩, -⟩ := h
  have hstart := hstands.chain
  cases upper with
  | nil =>
    rw [hstart] at hentry
    exact absurd hstands.level.entry hentry
  | cons g upper =>
    rw [hchain, List.cons_append, List.cons.injEq] at hstart
    obtain ⟨rfl, rfl⟩ := hstart
    have hsame : SamePass c (c.pop f (upper ++ below)) := pop_samePass
    have hstands' := hstands.step hsame rfl
      (hstands.level.shrink (List.suffix_cons f upper) pop_markers hsame.entry)
    refine ⟨⟨upper, below, born, hstands'⟩, hstands'.home fun hn hnil => ?_⟩
    have hlast : (f :: upper).getLast? = some f := by rw [hnil]; rfl
    obtain ⟨hcode, hpc⟩ := pop_code (c := c) f (upper ++ below)
    rw [hcode, hpc]
    exact (hstands.level.bottom (hsame.suspended ▸ hn) f hlast).2

/-- The marker on top of the chain is resumed in its pass. -/
theorem Stands.resumeTop (h : Stands c upper below born) {f : FrameId}
    (htop : c.topMarker? = some f) (hr : { c with chain := c.chain.tail }.resume f = some c') :
    ∃ upper', Stands c' upper' below born ∧ (c.suspended ≠ [] → upper' ≠ []) := by
  obtain ⟨hhead, hmarker⟩ := Option.filter_eq_some_iff.1 htop
  simp only [Bool.and_eq_true, bne_iff_ne] at hmarker
  have hstart := h.chain
  cases upper with
  | nil =>
    rw [hstart] at hhead
    exact absurd (h.level.entry.symm.trans hhead) hmarker.1
  | cons g upper =>
    obtain rfl : g = f := by
      rw [hstart] at hhead
      exact Option.some.inj hhead
    have htail : c.chain.tail = upper ++ below := by
      rw [hstart]
      rfl
    have hsame := resume_samePass hr
    obtain ⟨upper', hchain', hlevel', hne, -⟩ := Level.resume (c := { c with chain := c.chain.tail })
      rfl (h.level.shrink (List.suffix_cons g upper) (List.suffix_refl _) rfl) htail
      (h.level.leading g List.mem_cons_self hmarker.2) hr
    exact ⟨upper', h.step ⟨hsame.frames, hsame.suspended, hsame.entry⟩ hchain' hlevel', hne⟩

theorem Sound.resumeTop (h : Sound c) {f : FrameId} (htop : c.topMarker? = some f)
    (hr : { c with chain := c.chain.tail }.resume f = some c') : Sound c' := by
  obtain ⟨⟨upper, below, born, hstands⟩, -⟩ := h
  obtain ⟨upper', hstands', hne⟩ := hstands.resumeTop htop hr
  refine ⟨⟨upper', below, born, hstands'⟩, hstands'.home fun hn hnil => ?_⟩
  have hsuspended : c'.suspended = c.suspended := (resume_samePass hr).suspended
  rw [hsuspended] at hn
  exact absurd hnil (hne hn)

/-- A constructor pass begins. -/
theorem Sound.enter (h : Sound c) {x : Context} (made : Value) (w : Window) {duties : List Duty}
    (base argc : Int64) (hx : x.bare = c.context) (hduties : ∀ d ∈ duties, IsPlain d) :
    Sound (c.enter (.construct x made w :: duties) base argc) := by
  obtain ⟨⟨upper, below, born, hstands⟩, hhome⟩ := h
  rw [← hx] at hhome
  have hlevel := hstands.level
  rw [← hx] at hlevel
  refine ⟨⟨[], c.chain, c.frames.size, rfl, Nat.le_refl _, ?_, ?_⟩, fun _ _ => ?_⟩
  · refine ⟨rfl, fun f hf => ?_, nofun, nofun, List.nodup_nil, .nil, nofun, .nil, nofun, nofun⟩
    rw [hstands.chain] at hf
    rcases List.mem_append.1 hf with hf | hf
    · exact (hstands.level.younger f (List.mem_append_left _ hf)).2
    · exact Nat.lt_of_lt_of_le (hstands.level.older f hf) hstands.le_size
  · refine ⟨x, made, w, duties, upper, below, born, ?_, hduties, hstands.chain, hstands.le_size,
      hlevel.turn rfl rfl, hhome, hstands.lower⟩
    rw [← hx]
    rfl
  · exact ⟨argc, rfl, .inl rfl⟩

/-! ### The end of a pass -/

/-- A suspended pass stands where it stood, above it what the pass it waited for left. -/
theorem Stands.takeUp (h : Stands c upper below born) {s : Suspension} {rest : List Suspension}
    (hs : c.suspended = s :: rest) :
    ∃ x made w duties, s = ⟨x.entry, .construct x made w :: duties⟩ ∧ (∀ d ∈ duties, IsPlain d) ∧
      Sound { c with suspended := rest, context := x.bare } := by
  have hlower := h.lower
  rw [hs] at hlower
  obtain ⟨x, made, w, duties, upper', below', born', rfl, hd, hbelow, hborn, hlevel, hhome, hrest⟩ :=
    hlower
  subst hbelow
  refine ⟨x, made, w, duties, rfl, hd, ?_⟩
  have hnested : c.suspended ≠ [] := by rw [hs]; exact List.cons_ne_nil _ _
  have hjoin := h.level.join hnested hlevel hborn h.le_size
  have hstands : Stands { c with suspended := rest, context := x.bare } (upper ++ upper') below'
      born' :=
    ⟨by rw [List.append_assoc]; exact h.chain, Nat.le_trans hborn h.le_size, hjoin.turn rfl rfl, hrest⟩
  refine ⟨⟨_, _, _, hstands⟩, hstands.home fun hn hnil => hhome hn ?_⟩
  obtain ⟨-, rfl⟩ := List.append_eq_nil_iff.1 hnil
  exact hlevel.entry

theorem Stands.resumePass (h : Stands c upper below born) {s : Suspension} {rest : List Suspension}
    (hs : c.suspended = s :: rest) (hr : c.resumePass s rest = some c') : Sound c' := by
  obtain ⟨x, made, w, duties, rfl, hd, hsound⟩ := h.takeUp hs
  obtain ⟨c₁, h₁, h₂⟩ := Option.bind_eq_some_iff.1 hr
  rw [endDuties_of_plain hd] at h₂
  cases h₂
  simp only [endDuty] at h₁
  split at h₁
  · refine Sound.raise ?_ h₁
    exact hsound.keep ⟨rfl, rfl, rfl⟩ rfl (List.suffix_refl _) hsound.2
  · cases h₁
    exact hsound

/-- A pass is unwound to its entry. -/
theorem Sound.unwindEntry (h : Sound c) (hu : c.unwind c.context.entry = some c') :
    ∃ upper below born, Stands c' upper below born := by
  obtain ⟨⟨upper, below, born, hstands⟩, -⟩ := h
  have hsame := popUntil_samePass hu
  rw [unwind, hstands.chain] at hu
  obtain ⟨upper', hw⟩ := hstands.level.unwind rfl hstands.chain (.inl rfl) hu
  exact ⟨upper', below, born, hstands.step hsame hw.chain hw.level⟩

theorem Sound.finish {ss : List Suspension} (h : Sound c) (hss : c.suspended = ss)
    (hf : c.finish ss = some (c', false)) : Sound c' := by
  induction ss generalizing c with
  | nil =>
    rw [Control.finish] at hf
    split at hf
    · cases hf
      exact h
    · obtain ⟨c₁, -, heq⟩ := Option.map_eq_some_iff.1 hf
      cases heq
  | cons s rest ih =>
    rw [Control.finish] at hf
    split at hf
    · cases hf
      exact h
    · obtain ⟨c₁, hu, hf⟩ := Option.bind_eq_some_iff.1 hf
      obtain ⟨c₂, hr, hf⟩ := Option.bind_eq_some_iff.1 hf
      obtain ⟨upper, below, born, hstands⟩ := h.unwindEntry hu
      have hs : c₁.suspended = s :: rest := (popUntil_samePass hu).suspended.trans hss
      exact ih (hstands.resumePass hs hr) (suspended_of_resumePass hr) hf

theorem Stands.endPass (h : Stands c upper below born) (he : c.endPass = some (c', false)) :
    Sound c' := by
  unfold Control.endPass at he
  split at he
  · cases he
  · next s rest hs =>
    obtain ⟨c₁, hr, hf⟩ := Option.bind_eq_some_iff.1 he
    exact (h.resumePass hs hr).finish (suspended_of_resumePass hr) hf

/-- An instruction that does not end its pass keeps passes in order. At the entry of a
constructor pass only a call can stand. -/
theorem Sound.move {op : Opcode} {p : Machine.Progress} (h : Sound c) (hm : c.Move op p c')
    (hentry : c.suspended ≠ [] → c.chain.head? = c.context.entry → op = .sendBlock)
    (hp : ∀ v, p ≠ .finished v) : Sound c' := by
  cases hm with
  | call hop hcall =>
    cases hcall with
    | deed hd =>
      rcases hd with rfl | ⟨base, code, targetClass, rfl⟩ | ⟨e, message, hr⟩
      · exact h
      · exact h.call base code targetClass
      · exact h.raise hr
    | entered base argc hx hduties => exact h.enter _ _ base argc hx hduties
  | jump hop pc =>
    refine h.keep ⟨rfl, rfl, rfl⟩ rfl (List.suffix_refl _) fun hn hhead => ?_
    rw [hentry hn hhead] at hop
    cases hop
  | protect tag pc htag =>
    refine h.mark htag pc fun hn hhead => ?_
    have hop := hentry hn hhead
    split at hop <;> cases hop
  | unprotect n => exact h.keep ⟨rfl, rfl, rfl⟩ rfl (List.drop_suffix n _) h.2
  | take _ => exact h.keep ⟨rfl, rfl, rfl⟩ rfl (List.suffix_refl _) h.2
  | resume htop hr => exact h.resumeTop htop hr
  | settle _ _ _ => exact h.keep ⟨rfl, rfl, rfl⟩ rfl (List.suffix_refl _) h.2
  | back _ _ hne hchain => exact h.pop hchain hne
  | finished v _ _ _ => exact absurd rfl (hp v)
  | halt _ => exact absurd rfl (hp .nil)

theorem Move.eq_over_of_abort {op : Opcode} {p : Machine.Progress} (h : c.Move op p c')
    (hop : op = .abort) : p = .finished .nil := by
  cases h with
  | call hop' _ =>
    subst hop
    cases hop'
  | jump hop' _ =>
    subst hop
    cases hop'
  | protect tag _ _ => split at hop <;> cases hop
  | halt _ => rfl
  | _ => cases hop

/-- Every tick keeps passes in order. -/
theorem Sound.tick {i : Inst} (h : Sound c) (ht : c.Tick i c' false) : Sound c' := by
  obtain ⟨hi, hmove, hend⟩ := ht
  next p c₁ =>
  have hentry : c.suspended ≠ [] → c.chain.head? = c.context.entry → i.op ≠ .abort →
      i.op = .sendBlock :=
    fun hn hhead hop => (h.op_of_entry hn hhead hi).resolve_right hop
  have hstep : (∀ v, p ≠ .finished v) → Sound c₁ := by
    intro hp
    have hop : i.op ≠ .abort := fun hop => hp .nil (hmove.eq_over_of_abort hop)
    exact (h.fetch hi hop).move hmove (fun hn hhead => hentry hn hhead hop) hp
  cases p with
  | same => exact (hstep nofun).finish rfl hend
  | entered =>
    cases hend
    exact hstep nofun
  | finished v =>
    obtain ⟨rfl, -⟩ := hmove.of_over
    obtain ⟨⟨upper, below, born, hstands⟩, -⟩ := h
    have hsame : SamePass c (c.goto (c.context.pc + 1)) := ⟨rfl, rfl, rfl⟩
    exact (hstands.step hsame hstands.chain (hstands.level.turn rfl rfl)).endPass hend

/-- A unit of code that starts with no markers and no suspended pass is in order. -/
theorem Sound.start (code : Code) (hsuspended : c.suspended = []) (hmarkers : c.context.markers = [])
    (hchain : ∀ f ∈ c.chain, f < c.frames.size) : Sound (c.start code) := by
  refine ⟨⟨[], c.chain, c.frames.size, rfl, Nat.le_refl _, ?_, ?_⟩, fun hn _ => absurd hsuspended hn⟩
  · have hm : (c.start code).context.markers = [] := hmarkers
    have hnone : ∀ f, f ∉ [] ++ (c.start code).context.markers := by
      rw [hm]
      exact fun f => List.not_mem_nil
    refine ⟨rfl, hchain, fun f hf => absurd hf (hnone f), fun f hf => absurd hf (hnone f), ?_, ?_,
      fun f hf => absurd hf (hnone f), ?_, fun f hf => absurd hf (hnone f), nofun⟩
    · rw [hm]
      exact List.nodup_nil
    · rw [hm]
      exact .nil
    · rw [hm]
      exact .nil
  · have hs : (c.start code).suspended = [] := hsuspended
    rw [hs]
    trivial

end ObjectMachine.Control
