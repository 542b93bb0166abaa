import ObjectMachine.Proofs.Fitting
import ObjectMachine.Proofs.Unwinding

/-! Methods, frames and exceptions on a fitting machine. Control may move here, but only to
places that fit: those that frames and markers saved. An exception that is delivered has to
be there, and this is asked of the caller. -/

namespace ObjectMachine.Machine

variable {size : Nat} {m m₁ m' : Machine} {v : Value}

/-- A fitting machine that came from `m`, at a place in code if `m` was at one. -/
structure Moved (size : Nat) (m m' : Machine) : Prop where
  fit : m'.Fit size
  grows : m.memory.heap.size ≤ m'.memory.heap.size
  frames : m.frames.size ≤ m'.frames.size
  place : m.context.Fits size → m'.context.Fits size

theorem Still.moved (h : Still size m m') : Moved size m m' :=
  ⟨h.fit, h.grows, h.frames, fun hx => h.context ▸ hx⟩

theorem Moved.trans (h : Moved size m m₁) (h' : Moved size m₁ m') : Moved size m m' :=
  ⟨h'.fit, Nat.le_trans h.grows h'.grows, Nat.le_trans h.frames h'.frames,
    fun hx => h'.place (h.place hx)⟩

theorem Still.before (h : Still size m m₁) (h' : Moved size m₁ m') : Moved size m m' :=
  h.moved.trans h'

/-! ### Methods -/

theorem defineClass_still (h : m.Fit size) (name : Text) (super : Option ClassId) :
    Leads Contained (defineClass name super) m fun _ m' => Still size m m' := by
  simp only [defineClass, Leads.bind_eq, Leads.get_eq]
  refine ((intern_clerical name).still h).mono fun k m₁ h₁ => ?_
  split
  · exact h₁
  · exact fatal_contained
  · simp only [Leads.bind_eq, Leads.get_eq]
    split
    · next pool _ =>
      simp only [Leads.bind_eq, Leads.set_eq, Leads.pure_eq]
      have h₂ : Still size m₁ { m₁ with
          memory := { m₁.memory with pool }
          classes := m₁.classes.push ⟨k, name,
            super.or (if m₁.classes.isEmpty then none else some .object), []⟩ } :=
        (h₁.fit.pool pool).trans (h₁.fit.pool pool).fit.report
      refine (setConstant_still h₂.fit k (Value.within_of_immediate rfl)).mono fun _ _ h₃ => ?_
      exact (h₁.trans h₂).trans h₃
    · exact fatal_contained

theorem methodAt_fits (h : m.Fit size) (id : MethodId) : (m.methodAt id).body.Fits := by
  rcases Nat.lt_or_ge id m.methods.size with hlt | hge
  · have hget : m.methodAt id = m.methods[id] := by
      simp [methodAt, hlt]
    rw [hget]
    exact h.methods _ (Array.getElem_mem hlt)
  · have hget : m.methodAt id = ⟨0, .native .not, 0⟩ := by
      simp [methodAt, Array.getD_eq_getD_getElem?, Array.getElem?_eq_none hge]
    rw [hget]
    simp [MethodBody.Fits]

/-! ### Frames -/

/-- A change of lists of frames and of the context. -/
theorem Fit.relist (h : m.Fit size) {chain : List FrameId} {context : Context} {depth : Int}
    {jumped : Bool} (hnodes : ∀ f ∈ chain ++ context.markers, f < m.frames.size) :
    Fit size { m with chain, context, depth, jumped } := by
  refine ⟨h.regs, h.pos, h.small, h.high, h.roots, h.heap, h.methods, h.frames, fun f hf => ?_,
    h.duties⟩
  rcases List.mem_append.1 hf with hf | hf
  · exact hnodes f hf
  · exact h.nodes f (List.mem_append_right _ hf)

theorem Fit.chain_lt (h : m.Fit size) : ∀ f ∈ m.chain, f < m.frames.size :=
  fun f hf => h.nodes f (List.mem_append_left _ (List.mem_append_left _ hf))

theorem Fit.markers_lt (h : m.Fit size) : ∀ f ∈ m.context.markers, f < m.frames.size :=
  fun f hf => h.nodes f (List.mem_append_left _ (List.mem_append_right _ hf))

/-- A change of the context that keeps its markers. -/
theorem Fit.turn (h : m.Fit size) {context : Context} {jumped : Bool}
    (hmarkers : context.markers = m.context.markers) :
    Fit size { m with context, jumped } := by
  refine h.relist fun f hf => ?_
  rw [hmarkers] at hf
  exact (List.mem_append.1 hf).elim (h.chain_lt f) (h.markers_lt f)

/-- A change of what a frame notes besides its place and its window. -/
theorem Fit.modifyFrame (h : m.Fit size) (f : FrameId) (change : Frame → Frame)
    (hchange : ∀ k, k.Fits size → (change k).Fits size) :
    Still size m { m with frames := m.frames.modify f change } := by
  refine ⟨⟨h.regs, h.pos, h.small, h.high, h.roots, h.heap, h.methods, fun k hk => ?_, ?_,
    h.duties⟩, Nat.le_refl _, ?_, rfl⟩
  · obtain ⟨i, hi, rfl⟩ := Array.mem_iff_getElem.1 hk
    have hlt : i < m.frames.size := by simpa using hi
    have hold := h.frames _ (Array.getElem_mem hlt)
    rw [Array.getElem_modify]
    split
    · exact hchange _ hold
    · exact hold
  · rw [Array.size_modify]
    exact h.nodes
  · exact Nat.le_of_eq Array.size_modify.symm

theorem freeFrame_still (h : m.Fit size) (f : FrameId) :
    Leads Contained (freeFrame f) m fun _ m' => Still size m m' := by
  have hfree : ∀ m₁, Still size m m₁ → Leads Contained (do
      Machine.modifyFrame f fun k => { k with freed := true }
      refund frameBytes) m₁ fun _ m' => Still size m m' := by
    intro m₁ h₁
    simp only [Machine.modifyFrame, Leads.bind_eq, Leads.modify_eq]
    have h₂ := h₁.fit.modifyFrame f (fun k => { k with freed := true })
      fun k hk => ⟨hk.place, hk.window⟩
    exact ((refund_clerical _).still h₂.fit).mono fun _ _ h₃ => (h₁.trans h₂).trans h₃
  simp only [Leads.bind_eq] at hfree
  simp only [freeFrame, Leads.bind_eq, Leads.get_eq]
  split
  · next id _ =>
    simp only [Machine.modifyFrame, Leads.bind_eq, Leads.modify_eq] at hfree ⊢
    refine ((releaseMethod_clerical id).still h).mono fun _ m₁ h₁ => ?_
    have h₂ := h₁.fit.modifyFrame f (fun k => { k with method := none })
      fun k hk => ⟨hk.place, hk.window⟩
    exact hfree _ (h₁.trans h₂)
  · exact hfree m (.refl h)

theorem dropMarkers_moved (fs : List FrameId) (h : m.Fit size) :
    Leads Contained (dropMarkers fs) m fun _ m' => Moved size m m' := by
  induction fs generalizing m with
  | nil => exact (Still.refl h).moved
  | cons f rest ih =>
    simp only [dropMarkers, modifyContext, Leads.bind_eq, Leads.modify_eq]
    have h₁ : Moved size m { m with
        context := { m.context with markers := m.context.markers.tail } } := by
      refine ⟨h.relist fun g hg => ?_, Nat.le_refl _, Nat.le_refl _, id⟩
      rcases List.mem_append.1 hg with hg | hg
      · exact h.chain_lt g hg
      · exact h.markers_lt g (List.mem_of_mem_tail hg)
    refine (freeFrame_still h₁.fit f).mono fun _ m₂ h₂ => ?_
    exact (ih h₂.fit).mono fun _ _ h₃ => h₁.trans (h₂.before h₃)

theorem popMarkers_moved (n : Int64) (h : m.Fit size) :
    Leads Contained (popMarkers n) m fun _ m' => Moved size m m' := by
  simp only [popMarkers, Leads.bind_eq, Leads.get_eq]
  exact dropMarkers_moved _ h

theorem dropAllMarkers_moved (h : m.Fit size) :
    Leads Contained dropAllMarkers m fun _ m' => Moved size m m' := by
  simp only [dropAllMarkers, Leads.bind_eq, Leads.get_eq]
  exact dropMarkers_moved _ h

/-- Control comes back to the place that the top frame saved. -/
theorem popFrame_moved (h : m.Fit size) :
    Leads Contained popFrame m fun _ m' => Moved size m m' := by
  simp only [popFrame, Leads.bind_eq, Leads.get_eq]
  split
  · exact fatal_contained
  · next f rest hchain =>
    have hframe : (m.frameAt f).Fits size := h.onChain (hchain ▸ List.mem_cons_self)
    have hrest : ∀ g ∈ rest, g < m.frames.size := fun g hg =>
      h.chain_lt g (hchain ▸ List.mem_cons_of_mem _ hg)
    have hpop : ∀ m₁, Moved size m m₁ → Moved size m { m₁ with
        chain := rest
        context := { m₁.context with
          base := (m.frameAt f).base, code := (m.frameAt f).code, pc := (m.frameAt f).pc,
          targetClass := (m.frameAt f).targetClass } } := by
      intro m₁ h₁
      refine ⟨h₁.fit.relist fun g hg => ?_, h₁.grows, h₁.frames, fun _ => hframe.place⟩
      rcases List.mem_append.1 hg with hg | hg
      · exact Nat.lt_of_lt_of_le (hrest g hg) h₁.frames
      · exact h₁.fit.markers_lt g hg
    have hrecount : ∀ m₁, Moved size m m₁ → Moved size m { m₁ with depth := m₁.depth - 1 } := by
      intro m₁ h₁
      refine ⟨h₁.fit.relist fun g hg => ?_, h₁.grows, h₁.frames, h₁.place⟩
      exact (List.mem_append.1 hg).elim (h₁.fit.chain_lt g) (h₁.fit.markers_lt g)
    simp only [dropFrameMarkers, Leads.bind_eq, Leads.get_eq]
    split
    · simp only [Leads.bind_eq, Leads.get_eq, Leads.modify_eq]
      refine (dropMarkers_moved _ h).mono fun _ m₁ h₁ => ?_
      have h₂ := hpop m₁ h₁
      exact Leads.mono (freeFrame_still h₂.fit f) fun _ m₃ h₃ => hrecount m₃ (h₂.trans h₃.moved)
    · simp only [Leads.bind_eq, Leads.modify_eq, Leads.pure_eq]
      have h₂ := hpop m (Still.refl h).moved
      exact Leads.mono (freeFrame_still h₂.fit f) fun _ _ h₃ => h₂.trans h₃.moved

theorem popUntil_moved (target : Option FrameId) (fs : List FrameId) (h : m.Fit size) :
    Leads Contained (popUntil target fs) m fun _ m' => Moved size m m' := by
  induction fs generalizing m with
  | nil =>
    rw [popUntil]
    split
    · exact (Still.refl h).moved
    · exact fatal_contained
  | cons f rest ih =>
    rw [popUntil]
    split
    · exact (Still.refl h).moved
    · rw [Leads.bind_eq]
      refine (popFrame_moved h).mono fun _ m₁ h₁ => ?_
      exact (ih h₁.fit).mono fun _ _ h₂ => h₁.trans h₂

theorem unwindTo_moved (target : Option FrameId) (h : m.Fit size) :
    Leads Contained (unwindTo target) m fun _ m' =>
      Moved size m m' ∧ m'.exception = m.exception := by
  have hsame : Leads AnyFault (unwindTo target) m fun _ m' => m'.exception = m.exception :=
    (unwindTo_control target).mono fun _ _ hu => (Control.popUntil_sameSignal hu).exception
  refine Leads.and ?_ hsame
  simp only [unwindTo, Leads.bind_eq, Leads.get_eq]
  exact popUntil_moved _ _ h

/-- A frame is pushed for the window that begins `offset` registers further on. -/
theorem pushFrame_contained (methodId : Symbol) (offset nargs : Int64)
    {Q : FrameId → Machine → Prop}
    (hQ : ∀ pool, Q m.frames.size { m with
      memory := { m.memory with pool }
      frames := m.frames.push { m.savedFrame .call with
        ownClass := m.context.targetClass, methodId, offset, nargs }
      chain := m.frames.size :: m.chain
      depth := m.depth + 1 }) :
    Leads Contained (pushFrame methodId offset nargs) m Q := by
  simp only [pushFrame, charge, Leads.bind_eq, Leads.get_eq]
  split
  · exact fatal_contained
  · simp only [Leads.bind_eq, Leads.modifyGet_eq]
    cases m.memory.pool.alloc? frameBytes with
    | none =>
      simp only [Bool.not_false, if_true, Leads.bind_eq]
      exact fatal_contained
    | some pool => exact hQ pool

theorem Fit.pushFrames (h : m.Fit size) {k : Frame} (hk : k.Fits size) :
    Still size m { m with frames := m.frames.push k } := by
  refine ⟨⟨h.regs, h.pos, h.small, h.high, h.roots, h.heap, h.methods, fun x hx => ?_,
    fun f hf => ?_, h.duties⟩, Nat.le_refl _, ?_, rfl⟩
  · rcases Array.mem_push.1 hx with hx | rfl
    · exact h.frames x hx
    · exact hk
  · rw [Array.size_push]
    exact Nat.lt_succ_of_lt (h.nodes f hf)
  · rw [Array.size_push]
    exact Nat.le_succ _

theorem pushMarker_moved (h : m.Fit size) (hx : m.context.Fits size) {tag : FrameTag} {pc : Int64}
    (hpc : 0 ≤ pc.toInt) :
    Leads Contained (pushMarker tag pc) m fun _ m' => Moved size m m' := by
  simp only [pushMarker, Leads.bind_eq]
  refine ((charge_clerical frameBytes).still h).mono fun granted m₁ h₁ => ?_
  split
  · exact fatal_contained
  · simp only [Leads.modify_eq]
    rw [← h₁.context] at hx
    have hwindow : Window.Fits size ⟨m₁.context.base + 0, 0⟩ := by
      obtain ⟨c, -, hsturdy, htop⟩ := hx.sturdy
      have htwo := hsturdy.block.two_le
      have hbase := hx.base_nonneg
      have hzero : (0 : Int64).toInt = 0 := rfl
      rw [Int64.add_zero]
      exact ⟨hbase, Int.le_of_eq hzero.symm, by dsimp only; omega⟩
    have hframe : Frame.Fits size { m₁.savedFrame tag with pc, depth := m₁.chain.head? } :=
      ⟨⟨hx.base_nonneg, hpc, hx.sturdy⟩, hwindow⟩
    have h₂ := h₁.fit.pushFrames hframe
    refine (h₁.trans h₂).before ⟨h₂.fit.relist fun f hf => ?_, Nat.le_refl _, Nat.le_refl _, id⟩
    rcases List.mem_append.1 hf with hf | hf
    · exact h₂.fit.chain_lt f hf
    · rcases List.mem_cons.1 hf with rfl | hf
      · rw [Array.size_push]
        exact Nat.lt_succ_self _
      · exact h₂.fit.markers_lt f hf

/-! ### Exceptions -/

/-- A change of exceptions and their messages. -/
theorem Fit.reword (h : m.Fit size) {exception pending : Option ClassId}
    {excMessage pendingMessage : Value} (hexc : excMessage.Within m.memory.heap.size)
    (hpending : pendingMessage.Within m.memory.heap.size) :
    Still size m { m with exception, excMessage, pending, pendingMessage } := by
  refine ⟨⟨h.regs, h.pos, h.small, h.high, fun x hx => ?_, h.heap, h.methods, h.frames, h.nodes,
    h.duties⟩, Nat.le_refl _, Nat.le_refl _, rfl⟩
  have hroots := h.roots x
  simp only [Machine.roots, Machine.duties, List.mem_append, List.mem_cons] at hx hroots
  rcases hx with (hx | rfl | rfl | hx) | hx
  · exact hroots (.inl (.inl hx))
  · exact hexc
  · exact hpending
  · exact hroots (.inl (.inr (.inr (.inr hx))))
  · exact hroots (.inr hx)

theorem Fit.excMessage_within (h : m.Fit size) : m.excMessage.Within m.memory.heap.size :=
  h.roots _ (by simp [Machine.roots])

theorem Fit.pendingMessage_within (h : m.Fit size) :
    m.pendingMessage.Within m.memory.heap.size :=
  h.roots _ (by simp [Machine.roots])

theorem clearException_moved (h : m.Fit size) :
    Leads Contained clearException m fun _ m' => Moved size m m' := by
  simp only [clearException, Leads.bind_eq, Leads.get_eq, Leads.modify_eq]
  have h₁ : Moved size m { m with
      exception := none
      excMessage := .nil
      context := { m.context with excState := .normal } } := by
    have hreword : Still size m { m with exception := none, excMessage := .nil } :=
      h.reword (Value.within_of_immediate rfl) h.pendingMessage_within
    exact hreword.before ⟨hreword.fit.turn rfl, Nat.le_refl _, Nat.le_refl _, id⟩
  refine (release_still h₁.fit h.excMessage_within).mono fun _ _ h₂ => h₁.trans h₂.moved

theorem clearPending_moved (h : m.Fit size) :
    Leads Contained clearPending m fun _ m' => Moved size m m' := by
  simp only [clearPending, Leads.bind_eq, Leads.get_eq, Leads.modify_eq]
  have h₁ : Still size m { m with pending := none, pendingMessage := .nil } :=
    h.reword h.excMessage_within (Value.within_of_immediate rfl)
  refine (release_still h₁.fit h.pendingMessage_within).mono fun _ _ h₂ => (h₁.trans h₂).moved

/-- There has to be an exception to settle. -/
theorem settlePending_moved (h : m.Fit size) (hexc : m.exception.isSome) :
    Leads Contained settlePending m fun _ m' => Moved size m m' := by
  have hend : ∀ m₁, Still size m m₁ → m₁.pending.isSome → Leads Contained (do
      modify fun m => { m with
        exception := none
        excMessage := .nil
        context := { m.context with excState := .normal, settleOnReturn := false } }
      if (← get).pending.isNone then throw .outOfBounds) m₁ fun _ m' => Moved size m m' := by
    intro m₁ h₁ hpending
    simp only [Leads.bind_eq, Leads.modify_eq, Leads.get_eq]
    split
    · next hnone =>
      rw [Option.isNone_iff_eq_none.1 hnone] at hpending
      cases hpending
    · have hreword : Still size m₁ { m₁ with exception := none, excMessage := .nil } :=
        h₁.fit.reword (Value.within_of_immediate rfl) h₁.fit.pendingMessage_within
      exact (h₁.trans hreword).before ⟨hreword.fit.turn rfl, Nat.le_refl _, Nat.le_refl _, id⟩
  simp only [Leads.bind_eq, Leads.modify_eq, Leads.get_eq] at hend
  simp only [settlePending, Leads.bind_eq, Leads.get_eq]
  split
  · simp only [Leads.bind_eq, Leads.modify_eq]
    have h₁ : Still size m { m with pending := m.exception, pendingMessage := m.excMessage } :=
      h.reword h.excMessage_within h.excMessage_within
    exact hend { m with pending := m.exception, pendingMessage := m.excMessage } h₁ hexc
  · next hpending =>
    rw [Leads.bind_eq]
    refine ((release_still h h.excMessage_within).and (release_control _)).mono ?_
    rintro _ m₁ ⟨h₁, hc₁⟩
    refine hend m₁ h₁ ?_
    have heq : m₁.pending = m.pending := congrArg Control.pending hc₁
    rw [heq]
    exact Option.isSome_iff_ne_none.2 (by simpa using hpending)

theorem spliceNext_moved (h : m.Fit size) :
    Leads Contained spliceNext m fun _ m' => Moved size m m' ∧ m'.exception = m.exception := by
  simp only [spliceNext, Leads.modify_eq]
  split
  · next next rest hm =>
    refine ⟨⟨h.relist fun f hf => ?_, Nat.le_refl _, Nat.le_refl _, id⟩, rfl⟩
    have hmarkers := h.markers_lt
    rw [hm] at hmarkers
    rcases List.mem_append.1 hf with hf | hf
    · rcases List.mem_cons.1 hf with rfl | hf
      · exact hmarkers f List.mem_cons_self
      · exact h.chain_lt f hf
    · exact hmarkers f (List.mem_cons_of_mem _ hf)
  · exact ⟨⟨h.turn rfl, Nat.le_refl _, Nat.le_refl _, id⟩, rfl⟩

/-- Control goes on at the place that a marker saved. -/
theorem resumeAt_moved {f : FrameId} (h : m.Fit size) (hf : f < m.frames.size)
    (hexc : m.exception.isSome) :
    Leads Contained (resumeAt f) m fun _ m' => Moved size m m' := by
  have hframe := h.frame hf
  have hend : ∀ m₁, Moved size m m₁ → m₁.exception = m.exception → Leads Contained (do
      if (← get).exception.isNone then throw .outOfBounds
      freeFrame f
      modify fun m => { m with jumped := true }) m₁ fun _ m' => Moved size m m' := by
    intro m₁ h₁ heq
    simp only [Leads.bind_eq, Leads.get_eq]
    split
    · next hnone =>
      rw [← heq, Option.isNone_iff_eq_none.1 hnone] at hexc
      cases hexc
    · simp only [Leads.bind_eq, Leads.modify_eq]
      refine (freeFrame_still h₁.fit f).mono fun _ m₂ h₂ => ?_
      exact h₁.trans (h₂.before ⟨h₂.fit.turn rfl, Nat.le_refl _, Nat.le_refl _, id⟩)
  simp only [Leads.bind_eq, Leads.get_eq] at hend
  simp only [resumeAt, modifyContext, Leads.bind_eq, Leads.get_eq, Leads.modify_eq]
  refine (unwindTo_moved _ h).mono ?_
  rintro _ m₁ ⟨h₁, heq₁⟩
  have harrive : ∀ excState, Moved size m { m₁ with context := { m₁.context with
      base := (m.frameAt f).base, code := (m.frameAt f).code, pc := (m.frameAt f).pc,
      targetClass := (m.frameAt f).targetClass, settleOnReturn := false, excState } } :=
    fun excState => ⟨h₁.fit.turn rfl, h₁.grows, h₁.frames, fun _ => hframe.place⟩
  split
  · simp only [Leads.bind_eq, Leads.modify_eq]
    exact hend _ (harrive .handled) heq₁
  · simp only [Leads.bind_eq, Leads.modify_eq]
    have h₂ := harrive .finalizing
    refine (spliceNext_moved h₂.fit).mono ?_
    rintro _ m₃ ⟨h₃, heq₃⟩
    exact hend m₃ (h₂.trans h₃) (heq₃.trans heq₁)

theorem deliverException_moved (h : m.Fit size) (hexc : m.exception.isSome) :
    Leads Contained deliverException m fun _ m' => Moved size m m' := by
  simp only [deliverException, modifyContext, Leads.bind_eq, Leads.get_eq]
  split
  · next f hf =>
    have hmem : f ∈ m.chain := by
      unfold splicedMarker? at hf
      exact (List.takeWhile_prefix _).subset (List.mem_of_find?_eq_some hf)
    simp only [Leads.bind_eq, Leads.modify_eq]
    refine (unwindTo_moved _ h).mono ?_
    rintro _ m₁ ⟨h₁, heq₁⟩
    have h₂ : Moved size m { m₁ with chain := m₁.chain.tail } := by
      refine ⟨h₁.fit.relist fun g hg => ?_, h₁.grows, h₁.frames, h₁.place⟩
      rcases List.mem_append.1 hg with hg | hg
      · exact h₁.fit.chain_lt g (List.mem_of_mem_tail hg)
      · exact h₁.fit.markers_lt g hg
    have hf₁ : f < m₁.frames.size := Nat.lt_of_lt_of_le (h.chain_lt f hmem) h₁.frames
    have hexc₁ : m₁.exception.isSome := heq₁ ▸ hexc
    exact Leads.mono (resumeAt_moved h₂.fit hf₁ hexc₁) fun _ _ h₃ => h₂.trans h₃
  · simp only [Leads.bind_eq, Leads.get_eq]
    split
    · next f rest hm =>
      have hmarkers := h.markers_lt
      rw [hm] at hmarkers
      simp only [Leads.bind_eq, Leads.modify_eq]
      have h₁ : Moved size m { m with context := { m.context with markers := rest } } := by
        refine ⟨h.relist fun g hg => ?_, Nat.le_refl _, Nat.le_refl _, id⟩
        rcases List.mem_append.1 hg with hg | hg
        · exact h.chain_lt g hg
        · exact hmarkers g (List.mem_cons_of_mem _ hg)
      exact Leads.mono (resumeAt_moved h₁.fit (hmarkers f List.mem_cons_self) hexc)
        fun _ _ h₂ => h₁.trans h₂
    · simp only [Leads.bind_eq, Leads.modify_eq]
      have h₁ : Moved size m { m with context := { m.context with excState := .raising } } :=
        ⟨h.turn rfl, Nat.le_refl _, Nat.le_refl _, id⟩
      exact Leads.mono (settlePending_moved h₁.fit hexc) fun _ _ h₂ => h₁.trans h₂

theorem raise_moved (c : ClassId) (h : m.Fit size) (hv : v.Within m.memory.heap.size) :
    Leads Contained (raise c v) m fun _ m' => Moved size m m' := by
  simp only [raise, Leads.bind_eq, Leads.modify_eq, Leads.get_eq]
  have h₁ : Still size m { m with profile := m.profile.map (·.recordRaise (m.className c)) } :=
    h.report
  split
  · simp only [Leads.bind_eq, Leads.modify_eq]
    refine Leads.mono (acquire_still h₁.fit hv) fun _ m₂ h₂ => ?_
    have h₃ : Still size m₂ { m₂ with exception := some c, excMessage := v } :=
      h₂.fit.reword (hv.mono h₂.grows) h₂.fit.pendingMessage_within
    exact (deliverException_moved h₃.fit rfl).mono
      fun _ _ h₄ => (h₁.trans (h₂.trans h₃)).before h₄
  · next hnone =>
    refine Leads.mono (deliverException_moved h₁.fit ?_) fun _ _ h₂ => h₁.before h₂
    exact Option.isSome_iff_ne_none.2 (by simpa using hnone)

theorem raiseText_moved (c : ClassId) (t : Text) (h : m.Fit size) :
    Leads Contained (raiseText c t) m fun _ m' => Moved size m m' := by
  simp only [raiseText, Leads.bind_eq]
  refine (newString_still h t).mono ?_
  rintro message m₁ ⟨h₁, hmessage⟩
  refine (raise_moved c h₁.fit hmessage).mono fun _ m₂ h₂ => ?_
  refine (release_still h₂.fit (hmessage.mono h₂.grows)).mono fun _ m₃ h₃ => ?_
  exact h₁.before (h₂.trans h₃.moved)

end ObjectMachine.Machine
