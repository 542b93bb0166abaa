import ObjectMachine.Proofs.Methods

/-! Frames keep the books. A frame is charged for as long as it is on the chain, among the
markers of a pass or in hand, and freeing it gives its method and its bytes back. -/

namespace ObjectMachine.Machine

variable {s : Prop} {l : Nat} {d : List Duty} {H : List Value} {m : Machine} {v : Value}

theorem isMarker_control (f : FrameId) :
    (m.control.frameAt f).isMarker = (m.frameAt f).isMarker := by
  rw [frameAt_control, Frame.isMarker_bare]

/-! ### Changes of a frame -/

theorem frameAt_modify (f g : FrameId) (change : Frame → Frame) :
    { m with frames := m.frames.modify f change }.frameAt g =
      if f = g ∧ f < m.frames.size then change (m.frameAt g) else m.frameAt g := by
  simp only [frameAt, Array.getD_eq_getD_getElem?, Array.getElem?_modify]
  by_cases hg : f = g
  · subst hg
    by_cases hf : f < m.frames.size
    · simp [hf]
    · simp [hf]
  · simp [hg]

theorem isMarker_modify (f g : FrameId) {change : Frame → Frame}
    (h : ∀ k, (change k).tag = k.tag) :
    ({ m with frames := m.frames.modify f change }.frameAt g).isMarker =
      (m.frameAt g).isMarker := by
  rw [frameAt_modify]
  split
  · simp only [Frame.isMarker, h]
  · rfl

theorem callCount_modify (f : FrameId) (change : Frame → Frame)
    (htag : ∀ k, (change k).tag = k.tag) (fs : List FrameId) :
    { m with frames := m.frames.modify f change }.callCount fs = m.callCount fs := by
  refine List.countP_congr fun g _ => ?_
  rw [isMarker_modify f g htag]

theorem holders_modify {f : FrameId} (hf : f < m.frames.size) (change : Frame → Frame)
    (j : MethodId) :
    { m with frames := m.frames.modify f change }.holders d j +
        (if (m.frameAt f).method = some j then 1 else 0) =
      m.holders d j + (if (change (m.frameAt f)).method = some j then 1 else 0) := by
  have hget : m.frameAt f = m.frames[f] := by
    simp [frameAt, Array.getD_eq_getD_getElem?, hf]
  have := count_filterMap_set (fun k : Frame => k.method) m.frames.toList f (by simpa using hf)
    (change m.frames[f]) j
  rw [hget]
  simp only [holders, duties, modify_eq_set hf, Array.toList_set, Array.getElem_toList] at this ⊢
  omega

theorem holders_modify_of_eq (f : FrameId) (change : Frame → Frame)
    (h : ∀ k, (change k).method = k.method) (j : MethodId) :
    { m with frames := m.frames.modify f change }.holders d j = m.holders d j := by
  rcases Nat.lt_or_ge f m.frames.size with hlt | hge
  · have := holders_modify (d := d) hlt change j
    rw [h] at this
    omega
  · rw [modify_of_ge hge]

/-- The books of a machine that differs in the methods and bytes of its frames. -/
theorem Books.revise {m' : Machine} {l' : Nat} (h : Books s l d H m)
    (hchange : ∃ frames methods pool,
      m' = { m with frames, methods, memory := { m.memory with pool } })
    (hb : m'.memory.Balanced (m'.outlay d l') [])
    (hsize : m'.frames.size = m.frames.size)
    (htag : ∀ f, (m'.frameAt f).isMarker = (m.frameAt f).isMarker)
    (hheld : ∀ id, (m'.holders d id : Int) = (m'.methodAt id).refCount)
    (hbody : ∀ id, (m'.methodAt id).native? = (m.methodAt id).native?) : Books s l' d H m' := by
  obtain ⟨frames, methods, pool, rfl⟩ := hchange
  refine ⟨hb, ⟨fun f hf => hsize ▸ h.form.framed f hf, fun f hf => ?_, hheld, h.form.linked⟩,
    fun hs => ?_⟩
  · rw [htag]
    exact h.form.marked f hf
  · refine ⟨(h.exact hs).counts, (h.exact hs).proper.noException, (h.exact hs).proper.noPending, ?_⟩
    intro id p
    rw [hbody]
    exact (h.exact hs).proper.noProbe id p

theorem MannedAt.of_eq {m' : Machine} {f : FrameId} (h : m.MannedAt f)
    (hmethod : (m'.frameAt f).method = (m.frameAt f).method)
    (hmarker : (m'.frameAt f).isMarker = (m.frameAt f).isMarker)
    (hcount : m'.chain.count f = m.chain.count f) : m'.MannedAt f := by
  unfold MannedAt at h ⊢
  rwa [hmethod, hmarker, hcount]

theorem MannedAt.of_none {f : FrameId} (h : (m.frameAt f).method = none) : m.MannedAt f :=
  fun hne => absurd h hne

/-- A marker holds no method. -/
theorem MannedAt.method_of_marker {f : FrameId} (h : m.MannedAt f) (hf : (m.frameAt f).isMarker) :
    (m.frameAt f).method = none := by
  by_contra hne
  exact absurd hf (by rw [(h hne).2]; decide)

theorem MannedAt.modify {f g : FrameId} {change : Frame → Frame} (h : m.MannedAt g)
    (htag : ∀ k, (change k).tag = k.tag) (hmethod : f ≠ g ∨ ∀ k, (change k).method = k.method) :
    { m with frames := m.frames.modify f change }.MannedAt g := by
  refine h.of_eq ?_ (isMarker_modify f g htag) rfl
  rw [frameAt_modify]
  split
  · next hf =>
    rcases hmethod with hne | hmethod
    · exact absurd hf.1 hne
    · exact hmethod _
  · rfl

/-- A change of what a frame notes besides its context and its method. -/
theorem modifyFrame_ledger (f : FrameId) {change : Frame → Frame}
    (hbare : ∀ k, (change k).bare = k.bare) (hmethod : ∀ k, (change k).method = k.method)
    (h : Ledger s l d H m) :
    Leads (Excused s) (modifyFrame f change) m fun _ m' =>
      Ledger s l d H m' ∧ m'.control = m.control := by
  have htag : ∀ k, (change k).tag = k.tag := by
    intro k
    have hk := congrArg Frame.tag (hbare k)
    exact hk
  refine Leads.and (Q := fun _ m' => Ledger s l d H m') ⟨h.toBooks.revise
    ⟨_, _, _, rfl⟩ h.balanced (by simp)
    (fun g => isMarker_modify f g htag) (fun j => ?_) fun _ => rfl, ?_,
    fun g => (h.manned g).modify htag (.inr hmethod)⟩ (modifyFrame_control f hbare)
  · exact (congrArg Int.ofNat (holders_modify_of_eq f change hmethod j)).trans (h.form.held j)
  · exact h.depth.trans (congrArg Int.ofNat (callCount_modify f change htag _).symm)

/-- A frame takes a reference to the method it runs. -/
theorem Ledger.adopt {f : FrameId} {id : MethodId} (owner : ClassId) (h : Ledger s l d H m)
    (hf : f < m.frames.size) (hnone : (m.frameAt f).method = none)
    (hon : m.chain.count f = 1 ∧ (m.frameAt f).isMarker = false)
    (hid : 0 < (m.methodAt id).refCount) :
    Ledger s l d H { m with
      frames := m.frames.modify f fun k => { k with ownClass := some owner, method := some id }
      methods := m.methods.modify id fun k => { k with refCount := k.refCount + 1 } } := by
  have hi := lt_size_of_refCount hid
  refine ⟨h.toBooks.revise ⟨_, _, _, rfl⟩ (h.balanced.congr ?_) (by simp)
    (fun g => isMarker_modify f g fun _ => rfl) (fun j => ?_) (fun j => ?_), ?_, fun g => ?_⟩
  · have := liveMethods_acquire hid
    simp only [outlay, liveMethods, nodes, savedMarkers, duties] at this ⊢
    omega
  · have hheld := h.form.held j
    have heq := holders_modify (d := d) hf
      (fun k => { k with ownClass := some owner, method := some id }) j
    change (holders d { m with
        frames := m.frames.modify f fun k => { k with ownClass := some owner, method := some id } } j
        : Int) =
      (methodAt { m with
        methods := m.methods.modify id fun k => { k with refCount := k.refCount + 1 } } j).refCount
    rw [methodAt_modify]
    by_cases hj : id = j
    · subst hj
      simp only [hnone, hi, reduceCtorEq, and_self, if_true, if_false] at heq ⊢
      omega
    · simp only [hnone, hj, reduceCtorEq, Option.some.injEq, false_and, if_false] at heq ⊢
      omega
  · exact native?_modify (f := fun k => { k with refCount := k.refCount + 1 }) fun _ => rfl
  · exact h.depth.trans (congrArg Int.ofNat (callCount_modify f
      (fun k => { k with ownClass := some owner, method := some id }) (fun _ => rfl) m.chain).symm)
  · have htag : ∀ k : Frame, { k with ownClass := some owner, method := some id }.tag = k.tag :=
      fun _ => rfl
    by_cases hg : f = g
    · subst hg
      exact fun _ => ⟨hon.1, (isMarker_modify f f htag).trans hon.2⟩
    · exact (h.manned g).modify htag (.inl hg)

/-! ### Freeing frames -/

theorem frameAt_method_lt {f : FrameId} {id : MethodId} (h : (m.frameAt f).method = some id) :
    f < m.frames.size := by
  rcases Nat.lt_or_ge f m.frames.size with hlt | hge
  · exact hlt
  · simp [frameAt, Array.getD_eq_getD_getElem?, Array.getElem?_eq_none hge] at h

/-- A frame gives back the method it holds. -/
theorem forgetMethod_books {f : FrameId} {id : MethodId} (h : Books s l d H m)
    (hid : (m.frameAt f).method = some id) :
    Leads (Excused s) (releaseMethod id) m fun _ m₁ =>
      Books s l d H
          { m₁ with frames := m₁.frames.modify f fun k => { k with method := none } } ∧
        m₁.depth = m.depth ∧ m₁.frames = m.frames := by
  have hf := frameAt_method_lt hid
  have hheld := fun j => holders_modify (d := d) hf (fun k => { k with method := none }) j
  simp only [hid, Option.some.injEq, reduceCtorEq, if_false, Nat.add_zero] at hheld
  have h1 := h.form.refCount_pos (hheld id)
  refine (releaseMethod_memory h.balanced h1 (outlay_ge (liveMethods_pos h1))).mono ?_
  rintro _ _ ⟨pool, rfl, hb⟩
  exact ⟨h.dismiss hheld ⟨_, _, _, rfl⟩ hb (by simp) rfl h.form.linked
    (fun g => isMarker_modify f g fun _ => rfl) rfl rfl, rfl, rfl⟩

theorem freeFrame_books (f : FrameId) (h : Books s (l + 1) d H m) :
    Leads (Excused s) (freeFrame f) m fun _ m' => Books s l d H m' ∧ m'.depth = m.depth ∧
      ∀ g, (m'.frameAt g).method = if f = g then none else (m.frameAt g).method := by
  have hfree : ∀ m₁, Books s (l + 1) d H m₁ → m₁.depth = m.depth →
      (∀ g, (m₁.frameAt g).method = if f = g then none else (m.frameAt g).method) →
      Leads (Excused s) (refund frameBytes)
        { m₁ with frames := m₁.frames.modify f fun k => { k with freed := true } }
        fun _ m' => Books s l d H m' ∧ m'.depth = m.depth ∧
          ∀ g, (m'.frameAt g).method = if f = g then none else (m.frameAt g).method := by
    intro m₁ h₁ hd₁ hmethod₁
    have hle : 40 ≤ m₁.outlay d (l + 1) := by
      unfold outlay
      omega
    refine Leads.mono (refund_memory (k := 40) h₁.balanced rfl (by decide) hle) ?_
    rintro _ _ ⟨pool, rfl, hb⟩
    refine ⟨?_, hd₁, fun g => ?_⟩
    · refine h₁.revise ⟨_, _, _, rfl⟩ (hb.congr ?_) (by simp)
        (fun g => isMarker_modify f g fun _ => rfl) (fun j => ?_) fun j => rfl
      · simp only [outlay, liveMethods, nodes, savedMarkers, duties]
        omega
      · refine Eq.trans (congrArg Int.ofNat ?_) (h₁.form.held j)
        exact holders_modify_of_eq (m := m₁) f _
          (fun k => (rfl : { k with freed := true }.method = _)) j
    · refine Eq.trans (congrArg Frame.method (frameAt_modify (m := m₁) f g _)) ?_
      rw [← hmethod₁]
      split <;> rfl
  simp only [freeFrame, modifyFrame, Leads.bind_eq, Leads.get_eq]
  split
  · next id hid =>
    simp only [Leads.bind_eq, Leads.modify_eq]
    refine (forgetMethod_books h hid).mono ?_
    rintro _ m₁ ⟨h₁, hd₁, hframes₁⟩
    refine hfree _ h₁ hd₁ fun g => ?_
    rw [frameAt_modify, hframes₁]
    by_cases hg : f = g
    · subst hg
      rw [if_pos rfl, if_pos ⟨rfl, frameAt_method_lt hid⟩]
    · rw [if_neg hg, if_neg fun h => hg h.1]
      simp only [frameAt, hframes₁]
  · next hnone =>
    refine hfree m h rfl fun g => ?_
    split
    · next hg => exact hg ▸ Option.eq_none_iff_forall_ne_some.2 hnone
    · rfl

theorem callCount_of_frames {m' : Machine} (h : m'.control.frames = m.control.frames)
    (fs : List FrameId) : m'.callCount fs = m.callCount fs := by
  simp only [callCount, ← isMarker_control, Control.frameAt, h]

theorem isMarker_of_frames {m' : Machine} (h : m'.control.frames = m.control.frames) (f : FrameId) :
    (m'.frameAt f).isMarker = (m.frameAt f).isMarker := by
  simp only [← isMarker_control, Control.frameAt, h]

/-- When a frame has given its method back, all methods are held by calls on the chain. -/
theorem manned_of_freed {m' : Machine} {f : FrameId} (hm : ∀ g, f ≠ g → m.MannedAt g)
    (hmethod : ∀ g, (m'.frameAt g).method = if f = g then none else (m.frameAt g).method)
    (hframes : m'.control.frames = m.control.frames)
    (hcount : ∀ g, f ≠ g → m'.chain.count g = m.chain.count g) (g : FrameId) : m'.MannedAt g := by
  by_cases hg : f = g
  · exact .of_none ((hmethod g).trans (if_pos hg))
  · exact (hm g hg).of_eq ((hmethod g).trans (if_neg hg)) (isMarker_of_frames hframes g) (hcount g hg)

/-- Frees a frame that was taken off the chain. -/
theorem freeFrame_ledger (f : FrameId) (h : Books s (l + 1) d H m)
    (hd : m.depth = m.callCount m.chain) (hm : ∀ g, f ≠ g → m.MannedAt g) :
    Leads (Excused s) (freeFrame f) m fun _ m' => Ledger s l d H m' := by
  refine ((freeFrame_books f h).and (freeFrame_control f)).mono ?_
  rintro _ m₁ ⟨⟨h₁, hd₁, hmethod₁⟩, hc₁⟩
  have hchain : m₁.chain = m.chain := congrArg Control.chain hc₁
  have hframes : m₁.control.frames = m.control.frames := congrArg Control.frames hc₁
  refine ⟨h₁, ?_, manned_of_freed hm hmethod₁ hframes fun g _ => congrArg (List.count g) hchain⟩
  rw [hd₁, callCount_of_frames hframes, hchain]
  exact hd

/-! ### Lists of frames -/

/-- The books of a machine whose lists of frames are others. -/
theorem Books.relist {m' : Machine} {l' : Nat} (h : Books s l d H m)
    (hchange : ∃ chain context depth jumped, m' = { m with chain, context, depth, jumped })
    (hnodes : ∀ f ∈ m'.nodes d, f ∈ m.nodes d)
    (hlength : (m'.nodes d).length + l' = (m.nodes d).length + l)
    (hmarked : ∀ f ∈ m'.context.markers, (m.frameAt f).isMarker) : Books s l' d H m' := by
  obtain ⟨chain, context, depth, jumped, rfl⟩ := hchange
  refine ⟨h.balanced.congr ?_, ⟨fun f hf => h.form.framed f (hnodes f hf), fun f hf => ?_,
    h.form.held, h.form.linked⟩, fun hs => ?_⟩
  · simp only [outlay, liveMethods] at hlength ⊢
    omega
  · rcases List.mem_append.1 hf with hf | hf
    · exact hmarked f hf
    · exact h.form.marked f (List.mem_append_right _ hf)
  · obtain ⟨hcounts, hproper⟩ := h.exact hs
    exact ⟨hcounts, hproper.noException, hproper.noPending, hproper.noProbe⟩

/-- A change of the context that keeps its markers. -/
theorem Ledger.turn {m' : Machine} (h : Ledger s l d H m)
    (hchange : ∃ context jumped, m' = { m with context, jumped })
    (hmarkers : m'.context.markers = m.context.markers) : Ledger s l d H m' := by
  obtain ⟨context, jumped, rfl⟩ := hchange
  replace hmarkers : context.markers = m.context.markers := hmarkers
  refine ⟨h.toBooks.relist ⟨_, _, _, _, rfl⟩ ?_ ?_ fun f hf => ?_, h.depth, h.manned⟩
  · simp only [nodes, savedMarkers, duties, hmarkers]
    exact fun _ hf => hf
  · simp only [nodes, savedMarkers, duties, hmarkers]
  · exact h.form.marked f (List.mem_append_left _ (hmarkers ▸ hf))

theorem dropMarkers_ledger (fs : List FrameId) {rest : List FrameId}
    (hm : m.context.markers = fs ++ rest) (h : Ledger s l d H m) :
    Leads (Excused s) (dropMarkers fs) m fun _ m' => Ledger s l d H m' ∧ m'.depth = m.depth := by
  induction fs generalizing m with
  | nil => exact ⟨h, rfl⟩
  | cons f fs ih =>
    simp only [dropMarkers, modifyContext, Leads.bind_eq, Leads.modify_eq]
    have h₁ : Books s (l + 1) d H
        { m with context := { m.context with markers := m.context.markers.tail } } := by
      refine h.toBooks.relist ⟨_, _, _, _, rfl⟩ (fun g hg => ?_) ?_ fun g hg => ?_
      · simp only [nodes, savedMarkers, duties, List.mem_append] at hg ⊢
        exact hg.imp_left (·.imp_right List.mem_of_mem_tail)
      · simp only [nodes, savedMarkers, duties, List.length_append, List.length_tail, hm,
          List.length_cons, List.cons_append]
        omega
      · exact h.form.marked g (List.mem_append_left _ (List.mem_of_mem_tail hg))
    refine Leads.mono ((freeFrame_books f h₁).and (freeFrame_control f)) ?_
    rintro _ m₂ ⟨⟨h₂, hd₂, hmethod₂⟩, hc₂⟩
    have hm₂ : m₂.context.markers = fs ++ rest :=
      (congrArg (·.context.markers) hc₂).trans (congrArg List.tail hm)
    have hchain : m₂.chain = m.chain := congrArg Control.chain hc₂
    have hframes : m₂.control.frames = m.control.frames := by rw [hc₂]; rfl
    have hledger : Ledger s l d H m₂ := by
      refine ⟨h₂, ?_, manned_of_freed (fun g _ => h.manned g) hmethod₂ hframes
        fun g _ => congrArg (List.count g) hchain⟩
      rw [hd₂, callCount_of_frames hframes, hchain]
      exact h.depth
    refine (ih hm₂ hledger).mono ?_
    rintro _ m₃ ⟨h₃, hd₃⟩
    exact ⟨h₃, hd₃.trans hd₂⟩

theorem popMarkers_ledger (n : Int64) (h : Ledger s l d H m) :
    Leads (Excused s) (popMarkers n) m fun _ m' => Ledger s l d H m' := by
  simp only [popMarkers, Leads.bind_eq, Leads.get_eq]
  exact (dropMarkers_ledger _ (List.take_append_drop _ _).symm h).mono fun _ _ h' => h'.1

theorem dropAllMarkers_ledger (h : Ledger s l d H m) :
    Leads (Excused s) dropAllMarkers m fun _ m' => Ledger s l d H m' := by
  simp only [dropAllMarkers, Leads.bind_eq, Leads.get_eq]
  exact (dropMarkers_ledger _ (List.append_nil _).symm h).mono fun _ _ h' => h'.1

theorem dropFrameMarkers_ledger (f : FrameId) (h : Ledger s l d H m) :
    Leads (Excused s) (dropFrameMarkers f) m fun _ m' => Ledger s l d H m' ∧ m'.depth = m.depth := by
  simp only [dropFrameMarkers, Leads.bind_eq, Leads.get_eq]
  exact dropMarkers_ledger _ List.takeWhile_append_dropWhile.symm h

/-- A frame leaves the chain and is in hand. -/
theorem Ledger.unlink {f : FrameId} {rest : List FrameId} (h : Ledger s l d H m)
    (hchain : m.chain = f :: rest) {m' : Machine}
    (hchange : ∃ context depth jumped, m' = { m with chain := rest, context, depth, jumped })
    (hmarkers : m'.context.markers = m.context.markers) : Books s (l + 1) d H m' := by
  obtain ⟨context, depth, jumped, rfl⟩ := hchange
  replace hmarkers : context.markers = m.context.markers := hmarkers
  refine h.toBooks.relist ⟨_, _, _, _, rfl⟩ (fun g hg => ?_) ?_ fun g hg => ?_
  · simp only [nodes, savedMarkers, duties, hmarkers, hchain, List.mem_append] at hg ⊢
    exact hg.imp_left (·.imp_left (List.mem_cons_of_mem _))
  · simp only [nodes, savedMarkers, duties, hmarkers, hchain, List.length_append, List.length_cons]
    omega
  · exact h.form.marked g (List.mem_append_left _ (hmarkers ▸ hg))

theorem callCount_cons (f : FrameId) (rest : List FrameId) :
    m.callCount (f :: rest) = m.callCount rest + if (m.frameAt f).isMarker then 0 else 1 := by
  simp only [callCount, List.countP_cons]
  cases (m.frameAt f).isMarker <;> rfl

/-- The marker on top of the chain is taken off it. -/
theorem Ledger.unlinkMarker {f : FrameId} {rest : List FrameId} (h : Ledger s l d H m)
    (hchain : m.chain = f :: rest) (hf : (m.frameAt f).isMarker) :
    Ledger s (l + 1) d H { m with chain := m.chain.tail } := by
  refine ⟨h.unlink hchain ⟨m.context, m.depth, m.jumped, by rw [hchain]; rfl⟩ rfl, ?_, fun g => ?_⟩
  have hcount := callCount_cons (m := m) f rest
  rw [if_pos hf] at hcount
  have hdepth := h.depth
  rw [hchain, hcount] at hdepth
  · change m.depth = m.callCount m.chain.tail
    rw [hdepth, hchain]
    rfl
  · by_cases hg : f = g
    · exact .of_none (hg ▸ (h.manned f).method_of_marker hf)
    · refine (h.manned g).of_eq rfl rfl ?_
      rw [hchain, List.count_cons_of_ne hg]
      rfl

theorem popFrame_ledger (h : Ledger s l d H m) :
    Leads (Excused s) popFrame m fun _ m' => Ledger s l d H m' := by
  simp only [popFrame, Leads.bind_eq, Leads.get_eq]
  split
  · exact ⟨by simp, fun _ h => h, by simp⟩
  · next f rest hchain =>
    have hcount := callCount_cons (m := m) f rest
    have hrest : ∀ g, f ≠ g → rest.count g = m.chain.count g := by
      intro g hg
      rw [hchain, List.count_cons_of_ne hg]
    cases hk : (m.frameAt f).isMarker with
    | true =>
      simp only [Bool.not_true, Bool.false_eq_true, if_false, hk, Leads.bind_eq, Leads.get_eq,
        Leads.modify_eq, Leads.pure_eq]
      refine freeFrame_ledger f (h.unlink hchain ⟨_, _, _, rfl⟩ rfl) ?_ fun g hg =>
        (h.manned g).of_eq rfl rfl (hrest g hg)
      simp only [hk, if_true] at hcount
      rw [h.depth, hchain, hcount]
      rfl
    | false =>
      simp only [Bool.not_false, if_true, hk, Leads.bind_eq, Leads.get_eq, Leads.modify_eq]
      refine ((dropFrameMarkers_ledger f h).and (dropFrameMarkers_control f)).mono ?_
      rintro _ m₁ ⟨⟨h₁, hd₁⟩, hc₁⟩
      have hchain₁ : m₁.chain = f :: rest := (congrArg Control.chain hc₁).trans hchain
      refine Leads.mono (Leads.and (freeFrame_books f (h₁.unlink hchain₁ ⟨_, _, _, rfl⟩ rfl))
        (freeFrame_control f)) ?_
      rintro _ m₂ ⟨⟨h₂, hd₂, hmethod₂⟩, hc₂⟩
      have hchain₂ : m₂.chain = rest := congrArg Control.chain hc₂
      have hframes₂ : m₂.control.frames = m₁.control.frames := by rw [hc₂]; rfl
      refine ⟨h₂.relist ⟨_, _, _, _, rfl⟩ (fun _ hg => hg) rfl
        fun g hg => h₂.form.marked g (List.mem_append_left _ hg), ?_, ?_⟩
      rotate_left
      · refine manned_of_freed (m := m₁) (fun g _ => h₁.manned g) hmethod₂ hframes₂
          fun g hg => ?_
        rw [hchain₁, List.count_cons_of_ne hg]
        exact congrArg (List.count g) hchain₂
      have hframes₁ : m₁.control.frames = m.control.frames := by rw [hc₁]
      have hframes : m₂.control.frames = m.control.frames := hframes₂.trans hframes₁
      have hdepth : m₂.depth = m.callCount (f :: rest) := by
        rw [hd₂, ← hchain]
        exact hd₁.trans h.depth
      have hrest := callCount_of_frames hframes rest
      simp only [hk, Bool.false_eq_true, if_false] at hcount
      change m₂.depth - 1 = m₂.callCount m₂.chain
      rw [hchain₂]
      omega

theorem popUntil_ledger (target : Option FrameId) (fs : List FrameId) (h : Ledger s l d H m) :
    Leads (Excused s) (popUntil target fs) m fun _ m' => Ledger s l d H m' := by
  induction fs generalizing m with
  | nil =>
    simp only [popUntil]
    split
    · exact h
    · exact ⟨by simp, fun _ h => h, by simp⟩
  | cons f rest ih =>
    simp only [popUntil]
    split
    · exact h
    · simp only [Leads.bind_eq]
      exact (popFrame_ledger h).mono fun _ _ h₁ => ih h₁

theorem unwindTo_ledger (target : Option FrameId) (h : Ledger s l d H m) :
    Leads (Excused s) (unwindTo target) m fun _ m' => Ledger s l d H m' := by
  simp only [unwindTo, Leads.bind_eq, Leads.get_eq]
  exact popUntil_ledger target _ h

/-! ### New frames -/

theorem frameAt_push (k : Frame) (f : FrameId) :
    { m with frames := m.frames.push k }.frameAt f =
      if f = m.frames.size then k else m.frameAt f := by
  simp only [frameAt, Array.getD_eq_getD_getElem?, Array.getElem?_push]
  split <;> rfl

theorem callCount_push (k : Frame) {fs : List FrameId} (hfs : ∀ f ∈ fs, f < m.frames.size) :
    { m with frames := m.frames.push k }.callCount fs = m.callCount fs := by
  refine List.countP_congr fun f hf => ?_
  rw [frameAt_push, if_neg (Nat.ne_of_lt (hfs f hf))]

theorem InForm.chain_lt (h : m.InForm d) : ∀ f ∈ m.chain, f < m.frames.size := by
  intro f hf
  exact h.framed f (List.mem_append_left _ (List.mem_append_left _ hf))

/-- The books with one more frame, which holds no method. -/
theorem Ledger.addFrame {k : Frame} (hk : k.method = none) (h : Ledger s l d H m)
    {m' : Machine} {l' : Nat}
    (hchange : ∃ chain context depth pool, m' = { m with
      frames := m.frames.push k, chain, context, depth, memory := { m.memory with pool } })
    (hb : m'.memory.Balanced (m'.outlay d l') [])
    (hnodes : ∀ f ∈ m'.nodes d, f = m.frames.size ∨ f ∈ m.nodes d)
    (hmarked : ∀ f ∈ m'.context.markers, f ∈ m.context.markers ∨ f = m.frames.size ∧ k.isMarker) :
    Books s l' d H m' := by
  obtain ⟨chain, context, depth, pool, rfl⟩ := hchange
  have hold : ∀ f ∈ m.context.markers ++ m.savedMarkers d, f ≠ m.frames.size := by
    intro f hf
    refine Nat.ne_of_lt (h.form.framed f ?_)
    simp only [nodes, List.append_assoc]
    exact List.mem_append_right _ hf
  have hmark : ∀ f ∈ m.context.markers ++ m.savedMarkers d,
      ({ m with frames := m.frames.push k }.frameAt f).isMarker := by
    intro f hf
    rw [frameAt_push, if_neg (hold f hf)]
    exact h.form.marked f hf
  refine ⟨hb, ⟨fun f hf => ?_, fun f hf => ?_, fun id => ?_, h.form.linked⟩, fun hs => ?_⟩
  · change f < (m.frames.push k).size
    rw [Array.size_push]
    rcases hnodes f hf with rfl | hf
    · exact Nat.lt_succ_self _
    · exact Nat.lt_succ_of_lt (h.form.framed f hf)
  · change ({ m with frames := m.frames.push k }.frameAt f).isMarker
    rcases List.mem_append.1 hf with hf | hf
    · rcases hmarked f hf with hf | ⟨rfl, hf⟩
      · exact hmark f (List.mem_append_left _ hf)
      · rwa [frameAt_push, if_pos rfl]
    · exact hmark f (List.mem_append_right _ hf)
  · refine Eq.trans (congrArg Int.ofNat ?_) (h.form.held id)
    simp [holders, duties, hk]
  · obtain ⟨hcounts, hproper⟩ := h.exact hs
    exact ⟨hcounts, hproper.noException, hproper.noPending, hproper.noProbe⟩

/-- A new frame holds no method. -/
theorem manned_push {m' : Machine} {k : Frame} {g : FrameId} (h : m.MannedAt g)
    (hframes : m'.frames = m.frames.push k)
    (hcount : m.frames.size ≠ g → m'.chain.count g = m.chain.count g)
    (hk : k.method = none := by rfl) : m'.MannedAt g := by
  have hat : m'.frameAt g = if g = m.frames.size then k else m.frameAt g := by
    rw [← frameAt_push]
    simp only [frameAt, hframes]
  by_cases hg : g = m.frames.size
  · exact .of_none (by rw [hat, if_pos hg, hk])
  · rw [if_neg hg] at hat
    exact h.of_eq (congrArg _ hat) (congrArg _ hat) (hcount (Ne.symm hg))

theorem pushFrame_ledger (methodId : Symbol) (offset nargs : Int64) (h : Ledger s l d H m) :
    Leads (Excused s) (pushFrame methodId offset nargs) m fun f m' =>
      Ledger s l d H m' ∧ f < m'.frames.size ∧ (m'.frameAt f).method = none ∧
      (m'.chain.count f = 1 ∧ (m'.frameAt f).isMarker = false) ∧
      m'.methods = m.methods ∧ m'.regs = m.regs := by
  simp only [pushFrame, Leads.bind_eq, Leads.get_eq]
  split
  · exact ⟨by simp, fun _ h => h, by simp⟩
  · simp only [Leads.bind_eq]
    refine (charge_memory h.balanced (by decide)).mono fun granted m₁ hm₁ => ?_
    cases granted with
    | false => exact ⟨by simp, fun _ h => h, by simp⟩
    | true =>
      obtain ⟨pool, rfl, hb⟩ := hm₁
      simp only [Bool.not_true, Bool.false_eq_true, if_false, Leads.modify_eq, Leads.bind_eq,
        Leads.pure_eq]
      have hat := fun g => frameAt_push (m := m) ({ m.savedFrame .call with
        ownClass := m.context.targetClass, methodId, offset, nargs }) g
      have hnew : m.frames.size ∉ m.chain :=
        fun hmem => Nat.lt_irrefl _ (h.form.chain_lt _ hmem)
      refine ⟨⟨h.addFrame ?_ ⟨_, _, _, _, rfl⟩ (hb.congr ?_) (fun f hf => ?_)
        fun f hf => .inl hf, ?_, fun g => ?_⟩, by simp, ?_, ⟨?_, ?_⟩, trivial, trivial⟩
      · rfl
      · simp only [outlay, liveMethods, nodes, savedMarkers, duties, List.cons_append,
          List.length_cons, toInt_frameBytes]
        omega
      · simpa [nodes, savedMarkers, duties, or_assoc] using hf
      · have hpush := callCount_push (m := m) ({ m.savedFrame .call with
          ownClass := m.context.targetClass, methodId, offset, nargs }) h.form.chain_lt
        change m.depth + 1 = callCount { m with frames := m.frames.push _ } (_ :: m.chain)
        rw [callCount_cons, frameAt_push, if_pos rfl, h.depth]
        exact congrArg (fun n : Nat => (n : Int) + 1) hpush.symm
      · exact manned_push (h.manned g) rfl (List.count_cons_of_ne ·)
      · exact congrArg Frame.method ((hat _).trans (if_pos rfl))
      · exact List.count_cons_self.trans (congrArg (· + 1) (List.count_eq_zero.2 hnew))
      · exact congrArg Frame.isMarker ((hat _).trans (if_pos rfl))

theorem pushMarker_ledger (tag : FrameTag) (htag : tag ≠ .call) (pc : Int64)
    (h : Ledger s l d H m) :
    Leads (Excused s) (pushMarker tag pc) m fun _ m' => Ledger s l d H m' := by
  simp only [pushMarker, Leads.bind_eq]
  refine (charge_memory h.balanced (by decide)).mono fun granted m₁ hm₁ => ?_
  cases granted with
  | false => exact ⟨by simp, fun _ h => h, by simp⟩
  | true =>
    obtain ⟨pool, rfl, hb⟩ := hm₁
    simp only [Bool.not_true, Bool.false_eq_true, if_false, Leads.modify_eq]
    refine ⟨h.addFrame ?_ ⟨_, _, _, _, rfl⟩ (hb.congr ?_) (fun f hf => ?_) fun f hf => ?_, ?_,
      fun g => manned_push (h.manned g) rfl fun _ => rfl⟩
    · rfl
    · simp only [outlay, liveMethods, nodes, savedMarkers, duties, List.length_append,
        List.length_cons, toInt_frameBytes]
      omega
    · simp only [nodes, savedMarkers, duties, List.mem_append, List.mem_cons] at hf ⊢
      grind
    · rcases List.mem_cons.1 hf with rfl | hf
      · exact .inr ⟨rfl, by simpa [Frame.isMarker, savedFrame] using htag⟩
      · exact .inl hf
    · exact h.depth.trans (congrArg Int.ofNat (callCount_push _ h.form.chain_lt).symm)

end ObjectMachine.Machine
