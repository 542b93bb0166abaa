import ObjectMachine.Proofs.EnsureBodies

/-! The order of unwinding. An exception that is raised where no marker waits on the chain goes
through the side stack from the newest marker to the oldest. Every ensure body on the way is
entered once, in the context its marker saved, and hands over to the next marker at its
closing return. The first rescue marker takes the exception; without one it becomes pending,
and the pass ends. -/

namespace ObjectMachine

namespace Control

variable {c c' c₀ : Control} {f g : FrameId} {fs upper below : List FrameId} {born : Nat}

theorem SameState.trans {x y z : Context} (h : SameState x y) (h' : SameState y z) :
    SameState x z :=
  ⟨h.excState.trans h'.excState, h.settleOnReturn.trans h'.settleOnReturn,
    h.finalizeFrame.trans h'.finalizeFrame⟩

theorem SameSignal.trans {c₁ c₂ c₃ : Control} (h : SameSignal c₁ c₂) (h' : SameSignal c₂ c₃) :
    SameSignal c₁ c₃ :=
  ⟨h'.exception.trans h.exception, h'.excMessage.trans h.excMessage, h'.pending.trans h.pending,
    h'.pendingMessage.trans h.pendingMessage, h'.state.trans h.state⟩

theorem popUntil_sameSignal {target : Option FrameId} (h : popUntil target fs c = some c') :
    SameSignal c c' := by
  induction fs generalizing c with
  | nil =>
    rw [popUntil] at h
    split at h
    · cases h
      exact ⟨rfl, rfl, rfl, rfl, rfl, rfl, rfl⟩
    · cases h
  | cons f rest ih =>
    rw [popUntil] at h
    split at h
    · cases h
      exact ⟨rfl, rfl, rfl, rfl, rfl, rfl, rfl⟩
    · exact pop_sameSignal.trans (ih h)

/-- Unwinding drops no marker when none leads back to a frame that is popped. -/
theorem markers_of_popUntil {target : Option FrameId} (h : popUntil target fs c = some c')
    (hkeep : ∀ d ∈ fs.takeWhile fun d => target != some d, ∀ g ∈ c.context.markers,
      (c.frameAt g).depth ≠ some d) : c'.context.markers = c.context.markers := by
  induction fs generalizing c with
  | nil =>
    rw [popUntil] at h
    split at h
    · cases h
      rfl
    · cases h
  | cons f rest ih =>
    rw [popUntil] at h
    split at h
    · cases h
      rfl
    · next hne =>
      have hpass : (target != some f) = true := bne_iff_ne.2 hne
      rw [List.takeWhile_cons, hpass] at hkeep
      have hpop : (c.pop f rest).context.markers = c.context.markers :=
        markers_of_pop (hkeep f List.mem_cons_self)
      refine (ih h fun d hd g hg => ?_).trans hpop
      rw [hpop] at hg
      rw [frameAt_of_frames pop_samePass.frames]
      exact hkeep d (List.mem_cons_of_mem _ hd) g hg

def withMarkers (c : Control) (markers : List FrameId) : Control :=
  { c with context := { c.context with markers } }

/-- Unwinding to where the newest marker leads back keeps all others. -/
theorem Level.unwindFirst {nested : Prop} {size : Nat}
    (h : Level c.frameAt nested c.context upper below born size) (hchain : c.chain = upper ++ below)
    (hm : c.context.markers = f :: fs)
    (hu : (c.withMarkers fs).unwind (c.frameAt f).depth = some c') :
    ∃ upper', Unwound c.frameAt nested upper below born size (c.frameAt f).depth
        (c.withMarkers fs) c' upper' ∧
      (nested → upper' ≠ []) ∧ c'.context.markers = fs := by
  have hmem : f ∈ upper ++ c.context.markers :=
    List.mem_append_right _ (hm ▸ List.mem_cons_self)
  have hlead := h.leading f hmem (h.marked f (hm ▸ List.mem_cons_self))
  have hrest : Level c.frameAt nested (c.withMarkers fs).context upper below born size :=
    h.shrink (List.suffix_refl _) (hm ▸ List.suffix_cons f fs) rfl
  have hat : (c.withMarkers fs).frameAt = c.frameAt := rfl
  obtain ⟨upper', hw, hne⟩ := hrest.unwindLead hat hchain hlead hu
  refine ⟨upper', hw, hne, ?_⟩
  obtain ⟨dropped, hdropped⟩ := hw.suffix
  have hreach : c'.chain = reach c.chain (c.frameAt f).depth := (chain_of_popUntil hu rfl).1
  have hpopped : (c.chain.takeWhile fun d => (c.frameAt f).depth != some d) = dropped := by
    have hsplit : (c.chain.takeWhile fun d => (c.frameAt f).depth != some d) ++ c'.chain =
        c.chain := by
      rw [hreach]
      exact List.takeWhile_append_dropWhile
    refine List.append_cancel_right (hw.chain ▸ hsplit.trans ?_)
    rw [hchain, ← hdropped, List.append_assoc]
  have hlive : (c.frameAt f).depth = c.context.entry ∨
      ∃ d ∈ upper, (c.frameAt f).depth = some d := by
    rcases hlead with ⟨d, hd, hborn, -⟩ | ⟨-, hentry⟩
    · have hhead := hw.head
      rw [hw.chain, hd] at hhead
      cases upper' with
      | nil => exact absurd (h.older d (List.mem_of_head? hhead)) (Nat.not_lt.2 hborn)
      | cons u upper' =>
        cases hhead
        exact .inr ⟨d, hdropped ▸ List.mem_append_right _ List.mem_cons_self, hd⟩
    · exact .inl hentry
  have habove : ∀ d ∈ dropped, d ∈ above c.frameAt upper f := by
    intro d hd
    have hpass : ∀ d ∈ dropped, ((c.frameAt f).depth != some d) = true := by
      rw [← hpopped]
      exact List.all_eq_true.1 List.all_takeWhile
    rw [above, ← hdropped, List.takeWhile_append_of_pos hpass]
    exact List.mem_append_left _ hd
  refine markers_of_popUntil hu fun d hd g hg => ?_
  have hordered := h.ordered
  rw [hm] at hordered
  exact (List.pairwise_cons.1 hordered).1 g hg hlive d (habove d (hpopped ▸ hd))

/-! ### One marker after the other -/

theorem Move.eq_of_topMarker? {p : Machine.Progress} (h : c.Move .leave p c')
    (htop : c.topMarker? = some g) : { c with chain := c.chain.tail }.resume g = some c' := by
  obtain ⟨f, hf, hr, -⟩ | ⟨hnone, -⟩ | ⟨hnone, -⟩ | ⟨hnone, -⟩ := h.leave_cases
  · cases htop.symm.trans hf
    exact hr
  all_goals cases htop.symm.trans hnone

theorem Move.eq_settle {p : Machine.Progress} (h : c.Move .leave p c')
    (htop : c.topMarker? = none) (hsettle : c.settlesOnReturn) : c' = c.settle := by
  obtain ⟨f, hf, -, -⟩ | ⟨-, -, heq, -⟩ | ⟨-, hnot, -⟩ | ⟨-, hnot, -⟩ := h.leave_cases
  · cases htop.symm.trans hf
  · exact heq
  · exact absurd hsettle hnot
  · exact absurd hsettle hnot

/-- The exception stays where it is when a body is entered. -/
theorem land_sameSlot (k : Frame) :
    (c.land k).exception = c.exception ∧ (c.land k).excMessage = c.excMessage := by
  unfold land splice
  split
  · exact ⟨rfl, rfl⟩
  · split <;> exact ⟨rfl, rfl⟩

section Poise

variable (k : FrameId → Frame) (e : ClassId) (v : Value) (entry : Option FrameId)

/-- An exception is in flight, no marker is on the part `upper` of the chain, and the markers
`fs`, which saved the frames `k`, are on the side stack. -/
structure Poised (fs : List FrameId) (c : Control) (upper below : List FrameId) (born : Nat) :
    Prop where
  level : Level c.frameAt (c.suspended ≠ []) c.context upper below born c.frames.size
  chain : c.chain = upper ++ below
  le_size : born ≤ c.frames.size
  calls : ∀ d ∈ upper, (c.frameAt d).isMarker = false
  markers : c.context.markers = fs
  saved : ∀ g ∈ fs, c.frameAt g = (k g).bare
  entry : c.context.entry = entry
  exception : c.exception = some e
  excMessage : c.excMessage = v
  pending : c.pending = none

end Poise

namespace Poised

variable {k : FrameId → Frame} {e : ClassId} {v : Value} {entry : Option FrameId}

theorem unwind (h : Poised k e v entry (f :: fs) c upper below born)
    (hu : (c.withMarkers fs).unwind (k f).depth = some c') :
    ∃ upper', Poised k e v entry fs c' upper' below born ∧ (c'.suspended ≠ [] → upper' ≠ []) ∧
      c'.chain = reach c.chain (k f).depth ∧ c'.chain.head? = (k f).depth := by
  have hdepth : (k f).depth = (c.frameAt f).depth := by
    rw [h.saved f List.mem_cons_self]
    rfl
  have hreach := chain_of_popUntil hu rfl
  have hsame := popUntil_samePass hu
  have hsignal := popUntil_sameSignal hu
  have hat : c'.frameAt = c.frameAt := funext (frameAt_of_frames hsame.frames)
  rw [hdepth] at hu
  obtain ⟨upper', hw, hne, hmarkers⟩ := h.level.unwindFirst h.chain h.markers hu
  refine ⟨upper', ⟨?_, hw.chain, ?_, fun d hd => ?_, hmarkers, fun g hg => ?_, ?_, ?_, ?_, ?_⟩,
    ?_, hreach⟩
  · rw [hat, hsame.suspended, hsame.frames]
    exact hw.level
  · rw [hsame.frames]
    exact h.le_size
  · rw [hat]
    exact h.calls d (hw.suffix.subset hd)
  · rw [hat]
    exact h.saved g (List.mem_cons_of_mem _ hg)
  · exact hsame.entry.trans h.entry
  · exact hsignal.exception.trans h.exception
  · exact hsignal.excMessage.trans h.excMessage
  · exact hsignal.pending.trans h.pending
  · rw [hsame.suspended]
    exact hne

theorem arrive (h : Poised k e v entry fs c upper below born) (j : Frame) (s : ExceptionState) :
    Poised k e v entry fs (c.arrive j s) upper below born :=
  ⟨h.level.turn rfl rfl, h.chain, h.le_size, h.calls, h.markers, h.saved, h.entry, h.exception,
    h.excMessage, h.pending⟩

/-- A marker is resumed: the chain is unwound, and its body is entered. -/
theorem resume (h : Poised k e v entry (f :: fs) c upper below born)
    (hr : (c.withMarkers fs).resume f = some c') :
    ∃ c₁ upper', Poised k e v entry fs c₁ upper' below born ∧ (c₁.suspended ≠ [] → upper' ≠ []) ∧
      (c₁.chain = reach c.chain (k f).depth ∧ c₁.chain.head? = (k f).depth) ∧
      c' = c₁.land (k f).bare := by
  have hat : (c.withMarkers fs).frameAt f = (k f).bare := h.saved f List.mem_cons_self
  obtain ⟨c₁, hu, rfl⟩ := Option.map_eq_some_iff.1 hr
  rw [hat] at hu
  obtain ⟨upper', h₁, hne, hreach⟩ := h.unwind hu
  exact ⟨c₁, upper', h₁, hne, hreach, by rw [hat]⟩

theorem splice_lists (h : Poised k e v entry fs c upper below born) :
    c.splice.chain = fs.head?.toList ++ c.chain ∧ c.splice.context.markers = fs.tail := by
  cases fs with
  | nil => simp [splice, h.markers]
  | cons g gs => simp [splice, h.markers]

theorem lt_size (h : Poised k e v entry fs c upper below born) :
    (∀ f ∈ c.chain, f < c.frames.size) ∧ ∀ f ∈ c.context.markers, f < c.frames.size := by
  refine ⟨fun f hf => ?_, fun f hf => (h.level.younger f (List.mem_append_right _ hf)).2⟩
  rw [h.chain] at hf
  rcases List.mem_append.1 hf with hf | hf
  · exact (h.level.younger f (List.mem_append_left _ hf)).2
  · exact Nat.lt_of_lt_of_le (h.level.older f hf) h.le_size

theorem bodyEntry (h : Poised k e v entry fs c upper below born)
    (hne : c.suspended ≠ [] → upper ≠ []) (hsettle : c.context.settleOnReturn = false) :
    c.splice.BodyEntry := by
  obtain ⟨hchain, hmarkers⟩ := h.lt_size
  have hentry : ∀ d, c.context.entry = some d → d < c.frames.size :=
    fun d hd => Nat.lt_of_lt_of_le (h.level.entry_lt hd) h.le_size
  have hdepth : ∀ f ∈ c.context.markers, ∀ d, (c.frameAt f).depth = some d → d < c.frames.size := by
    intro f hf d hd
    have hmem := List.mem_append_right upper hf
    rcases h.level.leading f hmem (h.level.marked f hf) with ⟨d', hd', -, hlt⟩ | ⟨-, heq⟩
    · cases hd.symm.trans hd'
      exact Nat.lt_trans hlt (hmarkers f hf)
    · exact hentry d (heq.symm.trans hd)
  unfold splice
  split
  · next g gs hm =>
    have hg : g ∈ c.context.markers := hm ▸ List.mem_cons_self
    have hsub : ∀ f ∈ gs, f ∈ c.context.markers := fun f hf => hm ▸ List.mem_cons_of_mem _ hf
    refine ⟨fun f hf => ?_, fun f hf => hmarkers f (hsub f hf), fun f hf => hdepth f (hsub f hf),
      hentry, fun _ heq => ?_, fun hon => ?_, h.pending⟩
    · rcases List.mem_cons.1 hf with rfl | hf
      · exact hmarkers f hg
      · exact hchain f hf
    · have hborn := (h.level.younger g (List.mem_append_right _ hg)).1
      exact h.level.entry_ne hborn heq.symm
    · cases hsettle.symm.trans hon
  · refine ⟨hchain, hmarkers, hdepth, hentry, fun hn heq => ?_, fun _ => rfl, h.pending⟩
    rw [h.chain] at heq
    exact hne hn (h.level.head?_eq_entry_iff.1 heq)

/-- The closing return of a body takes the next marker off the chain and resumes it. -/
theorem next {gs fresh : List FrameId} {b : Control} {p : Machine.Progress} {pc : Int64}
    (h : Poised k e v entry (g :: gs) c upper below born) (hw : Within c.splice b fresh)
    (hclosing : Closing c.splice b) (hm : (b.goto pc).Move .leave p c') :
    ∃ c₁, Poised k e v entry (g :: gs) c₁ upper below born ∧ c₁.chain = c.chain ∧
      (c₁.withMarkers gs).resume g = some c' := by
  have hsplice : c.splice = { c.withMarkers gs with chain := g :: c.chain } := by
    simp only [splice, h.markers]
    rfl
  rw [hsplice] at hw hclosing
  have hold : ∀ f, f < c.frames.size → b.frameAt f = c.frameAt f := hw.old
  obtain ⟨hsuspended, hmarkers, hentry, -⟩ := hw.closing hclosing
  have hmem : g ∈ c.context.markers := h.markers ▸ List.mem_cons_self
  obtain ⟨hborn, hlt⟩ := h.level.younger g (List.mem_append_right _ hmem)
  refine ⟨{ (b.goto pc).withMarkers (g :: gs) with chain := c.chain }, ⟨?_, h.chain, ?_,
    fun d hd => ?_, rfl, fun f hf => ?_, hentry.trans h.entry, hw.exception.trans h.exception,
    hw.excMessage.trans h.excMessage, hw.pending⟩, rfl, ?_⟩
  · have hlevel := h.level.congr hold hw.le_size
    have hnested : (b.suspended ≠ []) = (c.suspended ≠ []) := by rw [hsuspended]; rfl
    rw [← hnested] at hlevel
    exact hlevel.turn h.markers.symm hentry
  · exact Nat.le_trans h.le_size hw.le_size
  · exact (hold d (h.level.younger d (List.mem_append_left _ hd)).2).symm ▸ h.calls d hd
  · have hf' : f ∈ c.context.markers := h.markers ▸ hf
    exact (hold f (h.lt_size.2 f hf')).trans (h.saved f hf)
  · have hhead : b.chain = g :: c.chain := hclosing.1
    have htop : (b.goto pc).topMarker? = some g := by
      refine Option.filter_eq_some_iff.2 ⟨congrArg List.head? hhead, ?_⟩
      have hne : b.context.entry ≠ some g := hentry ▸ h.level.entry_ne hborn
      have hmarked : (b.frameAt g).isMarker = true := hold g hlt ▸ h.level.marked g hmem
      simp only [Bool.and_eq_true, bne_iff_ne]
      exact ⟨hne, hmarked⟩
    have hresume := hm.eq_of_topMarker? htop
    have htail : (b.goto pc).chain.tail = c.chain := congrArg List.tail hhead
    have hgs : (b.goto pc).context.markers = gs := hmarkers
    rw [htail] at hresume
    rw [← hresume, withMarkers, ← hgs]
    rfl

/-- The closing return of the last body makes the exception pending. -/
theorem last {fresh : List FrameId} {b : Control} {p : Machine.Progress} {pc : Int64}
    (h : Poised k e v entry [] c upper below born) (hstate : c.context.excState = .finalizing)
    (hw : Within c.splice b fresh) (hclosing : Closing c.splice b)
    (hm : (b.goto pc).Move .leave p c') :
    c'.pending = some e ∧ c'.pendingMessage = v ∧ c'.context.entry = entry ∧
      c'.chain = c.chain := by
  have hsplice : c.splice = { c with context := { c.context with
      finalizeFrame := c.chain.head?, settleOnReturn := true } } := by
    simp only [splice, h.markers]
  rw [hsplice] at hw hclosing
  have hold : ∀ f, f < c.frames.size → b.frameAt f = c.frameAt f := hw.old
  obtain ⟨-, -, hentry, hsame⟩ := hw.closing hclosing
  have hchain : b.chain = c.chain := hclosing.1
  have htop : (b.goto pc).topMarker? = none := by
    refine Option.filter_eq_none_iff.2 fun f hf => ?_
    have hf' : c.chain.head? = some f := hchain ▸ hf
    have hlt := h.lt_size.1 f (List.mem_of_head? hf')
    rw [h.chain] at hf'
    cases upper with
    | nil =>
      have he : b.context.entry = some f := hentry.trans (h.level.entry.symm.trans hf')
      simp [goto, he]
    | cons u upper =>
      cases hf'
      have hcall : (b.frameAt f).isMarker = false := hold f hlt ▸ h.calls f List.mem_cons_self
      have hat : (b.goto pc).frameAt f = b.frameAt f := rfl
      simp [hat, hcall]
  have hsettle : (b.goto pc).settlesOnReturn = true := by
    have h₁ : (b.goto pc).context.excState = .finalizing := hsame.excState.trans hstate
    have h₂ : (b.goto pc).context.settleOnReturn = true := hsame.settleOnReturn
    have h₃ : (b.goto pc).context.finalizeFrame = c.chain.head? := hsame.finalizeFrame
    have h₄ : (b.goto pc).chain = c.chain := hchain
    simp [settlesOnReturn, h₁, h₂, h₃, h₄]
  rw [hm.eq_settle htop hsettle]
  have hpending : (b.goto pc).pending = none := hw.pending
  refine ⟨?_, ?_, hentry.trans h.entry, hchain⟩
  · simp only [settle, hpending]
    exact hw.exception.trans h.exception
  · simp only [settle, hpending]
    exact hw.excMessage.trans h.excMessage

end Poised

theorem Tick.pending_eq_none {i : Inst} (h : c.Tick i c' false) (hp : c.pending = none) :
    c'.pending = none := by
  have hfinish : ∀ ss (c₁ : Control), c₁.finish ss = some (c', false) → c'.pending = none := by
    intro ss
    induction ss with
    | nil =>
      intro c₁ hf
      rw [finish] at hf
      split at hf
      · next hp₁ =>
        cases hf
        exact hp₁
      · obtain ⟨c₂, -, heq⟩ := Option.map_eq_some_iff.1 hf
        cases heq
    | cons s rest ih =>
      intro c₁ hf
      rw [finish] at hf
      split at hf
      · next hp₁ =>
        cases hf
        exact hp₁
      · obtain ⟨c₂, -, hf⟩ := Option.bind_eq_some_iff.1 hf
        obtain ⟨c₃, -, hf⟩ := Option.bind_eq_some_iff.1 hf
        exact ih c₃ hf
  obtain ⟨-, hmove, hend⟩ := h
  next p c₁ =>
  cases p with
  | same => exact hfinish _ c₁ hend
  | entered =>
    cases hend
    generalize i.op = op at hmove
    cases hmove with
    | call _ hcall =>
      cases hcall
      exact hp
  | finished v =>
    simp only [conclude, Control.endPass] at hend
    split at hend
    · cases hend
    · obtain ⟨c₂, -, hf⟩ := Option.bind_eq_some_iff.1 hend
      exact hfinish _ c₂ hf

theorem RaisePoint.pending_eq_none (h : c.RaisePoint c₀) (hp : c.pending = none) :
    c₀.pending = none := by
  cases h with
  | instruction _ _ => exact hp
  | handover _ _ _ _ _ => rfl

end Control

/-- No exception is pending while code runs. -/
theorem Reachable.pending_eq_none {running : Bool} {owned : List Value} {m : Machine}
    (h : Reachable running owned m) (hr : running) : m.pending = none := by
  induction h with
  | enter p hm _ hpending _ h _ =>
    obtain ⟨-, hc⟩ := (Machine.enterUnit_ledger p.root hm.sane.ledger).of_ok h
    exact (congrArg Control.pending hc).trans hpending
  | tick hm h ih =>
    have hsound := hm.sane.sound rfl
    obtain ⟨-, i, ht⟩ := (Machine.tick_ledger hm.sane.ledger fun _ => hsound.closed).of_ok h
    exact ht.pending_eq_none (ih rfl)
  | _ => cases hr

namespace Machine

variable {m : Machine}

/-! ### Instructions -/

theorem setReg_control (i : Int64) (v : Value) :
    Leads AnyFault (setReg i v) m fun _ m' => m'.control = m.control := by
  simp only [setReg, exchangeReg, reg, Leads.bind_eq, Leads.get_eq, Leads.modify_eq,
    Leads.pure_eq]
  cases entryAt? m.regs i with
  | none => trivial
  | some old => exact release_control old

theorem scrub_control (start : Int64) (count : Nat) :
    Leads AnyFault (scrub start count) m fun _ m' => m'.control = m.control := by
  induction count generalizing m start with
  | zero => rfl
  | succ count ih =>
    simp only [scrub, reg, Leads.bind_eq, Leads.get_eq]
    cases entryAt? m.regs start with
    | none => trivial
    | some v =>
      simp only [present, Leads.pure_eq]
      split
      · rw [Leads.bind_eq]
        exact (setReg_control start .empty).mono fun _ m₁ h₁ => (ih (start + 1)).mono
          fun _ m₂ h₂ => h₂.trans h₁
      · exact ih (start + 1)

theorem scrubAbove_control (top : Int64) :
    Leads AnyFault (scrubAbove top) m fun _ m' => m'.control = m.control := by
  simp only [scrubAbove, Leads.bind_eq, Leads.get_eq]
  refine (scrub_control _ _).mono fun _ m₁ h₁ => ?_
  split
  · exact h₁
  · exact h₁

/-- An instruction that leaves an exception pending ends its pass at the entry. -/
theorem concludeStep_control (hp : m.pending ≠ none) :
    Leads AnyFault concludeStep m fun ended m' =>
      ended = true ∧ m.control.unwind m.context.entry = some m'.control := by
  have hend : ∀ m₁, m₁.control = m.control → Leads AnyFault (do
      if (← get).pending.isNone then return false
      unwindTo (← get).context.entry
      return true) m₁ fun ended m' =>
        ended = true ∧ m.control.unwind m.context.entry = some m'.control := by
    intro m₁ hc₁
    have hpending : m₁.pending = m.pending := congrArg Control.pending hc₁
    have hentry : m₁.context.entry = m.context.entry := congrArg (·.context.entry) hc₁
    simp only [Leads.bind_eq, Leads.get_eq, Option.isNone_iff_eq_none]
    rw [if_neg (hpending ▸ hp)]
    simp only [Leads.bind_eq, Leads.get_eq, Leads.pure_eq]
    refine (unwindTo_control _).mono fun _ m₂ h₂ => ⟨trivial, ?_⟩
    rw [hc₁, hentry] at h₂
    exact h₂
  simp only [Leads.bind_eq, Leads.get_eq] at hend
  simp only [concludeStep, Leads.bind_eq, Leads.get_eq]
  split
  · simp only [currentSize, currentCode, Leads.bind_eq, Leads.modify_eq, Leads.get_eq]
    cases m.context.code with
    | none => trivial
    | some code =>
      simp only [present, Leads.pure_eq]
      exact Leads.mono (scrubAbove_control _) fun _ m₁ h₁ => hend m₁ h₁
  · exact hend m rfl

theorem fetch_step_move {owned : List Value} {i : Inst} {p : Progress} {m' : Machine}
    (h : Reachable true owned m) (hi : m.control.next? = some i)
    (hs : (fetch >>= step) m = .ok p m') :
    (m.control.goto (m.control.context.pc + 1)).Move i.op p m'.control := by
  have hstep : Leads (Excused True) (fetch >>= step) m fun p m' =>
      (m.control.goto (m.control.context.pc + 1)).Move i.op p m'.control := by
    rw [Leads.bind_eq]
    refine (fetch_ledger h.sane.ledger).mono fun j m₁ ⟨h₁, hj, hc₁⟩ => ?_
    cases hi.symm.trans hj
    refine (step_stepped i h₁).mono fun p m₂ ⟨_, hmove⟩ => ?_
    rw [hc₁] at hmove
    exact hmove
  exact hstep.of_ok hs

/-- The next instruction is fetched. -/
theorem fetch_eq {i : Inst} (h : m.control.next? = some i) : fetch m = .ok i m.fetched := by
  obtain ⟨code, hcode, hi⟩ := Option.bind_eq_some_iff.1 h
  have hcode' : m.context.code = some code := hcode
  have hi' : entryAt? code.block.code m.context.pc = some i := hi
  have hnonneg := entryAt?_nonneg hi'
  have hlt : ¬(code.block.code.size : Int) ≤ m.context.pc.toInt := by
    unfold entryAt? at hi'
    split at hi'
    · cases hi'
    · obtain ⟨hsize, -⟩ := Array.getElem?_eq_some_iff.1 hi'
      omega
  refine Leads.eq_ok ?_
  simp only [fetch, currentCode, hcode', present, hi', hlt, setPc, modifyContext, Leads.bind_eq,
    Leads.get_eq, Leads.pure_eq, Leads.modify_eq, if_false]
  refine ⟨trivial, ?_⟩
  rw [← hcode']
  rfl

/-- A raise of a class that a register holds, with the message in the next one. -/
theorem fetch_step_raise {a : Int64} {e : ClassId} {v : Value} {m' : Machine}
    (hi : m.control.next? = some ⟨.raise, a, 0, 0⟩)
    (he : entryAt? m.regs (m.context.base + a) = some (.cls e))
    (hv : entryAt? m.regs (m.context.base + a + 1) = some v)
    (hr : raise e v m.fetched = .ok () m') : (fetch >>= step) m = .ok .same m' := by
  have he' : entryAt? m.fetched.regs (m.fetched.context.base + a) = some (.cls e) := he
  have hv' : entryAt? m.fetched.regs (m.fetched.context.base + a + 1) = some v := hv
  refine Leads.eq_ok ?_
  rw [Leads.bind_eq]
  refine .of_eq (fetch_eq hi) ?_
  simp only [step, reg, present, he', hv', Leads.bind_eq, Leads.get_eq, Leads.pure_eq]
  exact .of_eq hr ⟨trivial, rfl⟩

/-- After an instruction that leaves nothing pending, control stays where it is. -/
theorem control_of_tick {owned : List Value} {m₁ m' : Machine} (h : Reachable true owned m)
    (hs : (fetch >>= step) m = .ok .same m₁) (hpending : m₁.pending = none)
    (ht : tick m = .ok none m') : m'.control = m₁.control := by
  have hledger : Leads (Excused True) (fetch >>= step) m fun p m₁ =>
      Ledger True 0 [] (p.hand ++ owned) m₁ := by
    rw [Leads.bind_eq]
    refine (fetch_ledger h.sane.ledger).mono fun i m₂ ⟨h₂, _, _⟩ => ?_
    exact (step_stepped i h₂).mono fun p m₃ h₃ => h₃.1
  have hfinish : Leads AnyFault tick m fun r m' => r = none → m'.control = m₁.control := by
    have hstep : Leads AnyFault (fetch >>= step) m fun p m₂ => p = .same ∧ m₂ = m₁ :=
      .of_eq hs ⟨rfl, rfl⟩
    rw [Leads.bind_eq] at hstep
    simp only [tick, Leads.bind_eq]
    refine hstep.mono fun i m₂ h₂ => h₂.mono ?_
    rintro p m₃ ⟨rfl, rfl⟩
    simp only [Leads.bind_eq, Leads.get_eq]
    refine (finishStep_ledger m₃.suspended rfl (hledger.of_ok hs)).imp (fun _ _ _ => trivial) ?_
    rintro r m₄ ⟨-, hc⟩ rfl
    rw [Control.finish_of_none hpending] at hc
    exact (Prod.mk.inj (Option.some.inj hc)).1.symm
  exact hfinish.of_ok ht rfl
/-- A body comes to its closing return, which makes a move. -/
theorem closing_move {owned : List Value} {a b m' : Machine} {p : Progress} (h : Body a b)
    (ha : Reachable true owned a) (h₀ : a.control.BodyEntry)
    (hclosing : a.control.Closing b.control) (hm : (fetch >>= step) b = .ok p m') :
    ∃ fresh, a.control.Within b.control fresh ∧
      (b.control.goto (b.control.context.pc + 1)).Move .leave p m'.control := by
  obtain ⟨hb, fresh, hwithin⟩ := h.within h₀ ha
  obtain ⟨-, -, i, hi, hop⟩ := hclosing
  exact ⟨fresh, hwithin, hop ▸ fetch_step_move hb hi hm⟩

/-- What follows when control has been handed to the first of the markers `fs`, which saved
the frames `k`, on a chain that held `chain` before. The first rescue marker takes the
exception. An ensure body hands control over to the next marker at its closing return; `a`
is the machine at the first instruction of the body and `b` at the closing return. Without
a marker the instruction ends the pass. -/
def Unwinds (k : FrameId → Frame) (e : ClassId) (v : Value) (entry : Option FrameId) :
    (chain fs : List FrameId) → Machine → Prop
  | chain, [], m => ∀ m₁ ended m₂, m₁.control = m.control → concludeStep m₁ = .ok ended m₂ →
    ended = true ∧ m₂.pending = some e ∧ m₂.pendingMessage = v ∧
      m₂.chain = Control.reach chain entry ∧ m₂.chain.head? = entry
  | chain, f :: fs, m =>
    m.ResumedAt (k f) ∧ m.exception = some e ∧ m.excMessage = v ∧
    (Control.reach chain (k f).depth).head? = (k f).depth ∧
    if (k f).tag = .rescue then
      m.chain = Control.reach chain (k f).depth ∧ m.context.markers = fs
    else
      m.chain = fs.head?.toList ++ Control.reach chain (k f).depth ∧
      m.context.markers = fs.tail ∧
      ∀ owned a b p m', Reachable true owned a → a.control = m.control → Body a b →
        a.control.Closing b.control → (fetch >>= step) b = .ok p m' →
        Unwinds k e v entry (Control.reach chain (k f).depth) fs m'

section Order

variable {k : FrameId → Frame} {e : ClassId} {v : Value} {entry : Option FrameId}

theorem unwinds_nil {chain : List FrameId} (hpending : m.control.pending = some e)
    (hmessage : m.control.pendingMessage = v) (hentry : m.control.context.entry = entry)
    (hchain : m.control.chain = chain) : Unwinds k e v entry chain [] m := by
  rw [Unwinds]
  intro m₁ ended m₂ hc₁ hm₂
  have hne : m₁.pending ≠ none := by
    have heq : m₁.pending = some e := (congrArg Control.pending hc₁).trans hpending
    rw [heq]
    exact Option.some_ne_none e
  obtain ⟨hover, hu⟩ := (concludeStep_control hne).of_ok hm₂
  have hentry₁ : m₁.context.entry = entry := (congrArg (·.context.entry) hc₁).trans hentry
  rw [hc₁, hentry₁] at hu
  obtain ⟨hreach, hhead⟩ := Control.chain_of_popUntil hu rfl
  have hsignal := Control.popUntil_sameSignal hu
  exact ⟨hover, hsignal.pending.trans hpending, hsignal.pendingMessage.trans hmessage,
    hchain ▸ hreach, hhead⟩

/-- The body of a marker is entered with the exception. An ensure body goes on as `hbody` says. -/
theorem unwinds_cons {f : FrameId} {fs chain upper below : List FrameId} {born : Nat} {c : Control}
    (h : c.Poised k e v entry fs upper below born) (hchain : c.chain = Control.reach chain (k f).depth)
    (hhead : c.chain.head? = (k f).depth) (hland : m.control = c.land (k f).bare)
    (hbody : (k f).tag ≠ .rescue → ∀ owned a b p m', Reachable true owned a →
      a.control = (c.arrive (k f).bare .finalizing).splice → Body a b →
      a.control.Closing b.control → (fetch >>= step) b = .ok p m' →
      Unwinds k e v entry c.chain fs m') : Unwinds k e v entry chain (f :: fs) m := by
  have hat := Control.at_land (c := c) (k f).bare
  rw [← hland] at hat
  rw [Unwinds, ← hchain]
  refine ⟨⟨hat.base, hat.code, hat.pc, hat.targetClass⟩, ?_, ?_, hhead, ?_⟩
  · have hexception : m.control.exception = some e := by
      rw [hland, (Control.land_sameSlot _).1, h.exception]
    exact hexception
  · have hmessage : m.control.excMessage = v := by
      rw [hland, (Control.land_sameSlot _).2, h.excMessage]
    exact hmessage
  · rw [Control.land] at hland
    split
    · next htag =>
      rw [if_pos (show (k f).bare.tag = .rescue from htag)] at hland
      exact ⟨congrArg Control.chain hland, (congrArg (·.context.markers) hland).trans h.markers⟩
    · next htag =>
      rw [if_neg (show ¬(k f).bare.tag = .rescue from htag)] at hland
      obtain ⟨hc, hm⟩ := (h.arrive (k f).bare .finalizing).splice_lists
      refine ⟨(congrArg Control.chain hland).trans hc,
        (congrArg (·.context.markers) hland).trans hm, ?_⟩
      intro owned a b p m' ha hcontrol hrun hclosing hm'
      exact hbody htag owned a b p m' ha (hcontrol.trans hland) hrun hclosing hm'

/-- A marker that is resumed gets the exception, and hands it over to the next one. The
induction is on the side stack: what is true of control when a marker is resumed is true
again at the closing return of its body. -/
theorem unwinds_of_resume (fs : List FrameId) {f : FrameId} {c : Control}
    {upper below : List FrameId} {born : Nat}
    (h : c.Poised k e v entry (f :: fs) upper below born)
    (hr : (c.withMarkers fs).resume f = some m.control) :
    Unwinds k e v entry c.chain (f :: fs) m := by
  induction fs generalizing f c m upper with
  | nil =>
    obtain ⟨c₁, upper', h₁, hne, ⟨hchain, hhead⟩, hland⟩ := h.resume hr
    refine unwinds_cons h₁ hchain hhead hland fun _ owned a b p m' ha hcontrol hrun hclosing hm' => ?_
    have h₂ := h₁.arrive (k f).bare .finalizing
    obtain ⟨fresh, hwithin, hmove⟩ :=
      closing_move hrun ha (hcontrol ▸ h₂.bodyEntry hne rfl) hclosing hm'
    rw [hcontrol] at hwithin hclosing
    obtain ⟨hpending, hmessage, hentry, hchain'⟩ := h₂.last rfl hwithin hclosing hmove
    exact unwinds_nil hpending hmessage hentry hchain'
  | cons g gs ih =>
    obtain ⟨c₁, upper', h₁, hne, ⟨hchain, hhead⟩, hland⟩ := h.resume hr
    refine unwinds_cons h₁ hchain hhead hland fun _ owned a b p m' ha hcontrol hrun hclosing hm' => ?_
    have h₂ := h₁.arrive (k f).bare .finalizing
    obtain ⟨fresh, hwithin, hmove⟩ :=
      closing_move hrun ha (hcontrol ▸ h₂.bodyEntry hne rfl) hclosing hm'
    rw [hcontrol] at hwithin hclosing
    obtain ⟨c₃, h₃, hchain₃, hresume⟩ := h₂.next hwithin hclosing hmove
    have hnext := ih h₃ hresume
    rw [hchain₃] at hnext
    exact hnext

end Order

end Machine

open Machine

/-- An exception that is raised where none is in flight and no marker waits on the chain goes
through the side stack in order. -/
theorem unwinding_order {owned : List Value} {m m₁ m₂ : Machine} {e : ClassId} {v : Value}
    (h : Reachable true owned m) (hpoint : m.control.RaisePoint m₁.control)
    (hspliced : m₁.splicedMarker? = none) (hexception : m₁.exception = none)
    (hr : raise e v m₁ = .ok () m₂) :
    Unwinds m₁.frameAt e v m₁.context.entry m₁.chain m₁.context.markers m₂ := by
  have hsound := ((h.sane.sound rfl).raisePoint hpoint).inFlight (some e) v
  have hpending : m₁.control.pending = none := hpoint.pending_eq_none (h.pending_eq_none rfl)
  have hraise : m₁.control.raise e v = some m₂.control := (raise_control e v).of_ok hr
  rw [splicedMarker?_eq, List.head?_eq_none_iff] at hspliced
  have hdeliver : (m₁.control.inFlight (some e) v).deliver = some m₂.control := by
    have hnone : m₁.control.exception.isNone = true := Option.isNone_iff_eq_none.2 hexception
    rw [Control.raise, if_pos hnone] at hraise
    exact hraise
  have hspliced' : (m₁.control.inFlight (some e) v).spliced = [] := hspliced
  simp only [Control.deliver, hspliced'] at hdeliver
  cases hm : m₁.context.markers with
  | nil =>
    have hm' : (m₁.control.inFlight (some e) v).context.markers = [] := hm
    simp only [hm', Option.some.injEq] at hdeliver
    refine unwinds_nil ?_ ?_ ?_ ?_
    all_goals rw [← hdeliver]
    · simp only [Control.settle, Control.inFlight, hpending, Option.isNone_none, if_true]
    · simp only [Control.settle, Control.inFlight, hpending, Option.isNone_none, if_true]
    · rfl
    · rfl
  | cons f fs =>
    have hm' : (m₁.control.inFlight (some e) v).context.markers = f :: fs := hm
    simp only [hm'] at hdeliver
    obtain ⟨⟨upper, below, born, hstands⟩, -⟩ := hsound
    have hcalls : ∀ d ∈ upper, ((m₁.control.inFlight (some e) v).frameAt d).isMarker = false := by
      rw [hstands.level.spliced_eq rfl hstands.chain, List.filter_eq_nil_iff] at hspliced'
      simpa using hspliced'
    refine unwinds_of_resume fs ⟨hstands.level, hstands.chain, hstands.le_size, hcalls, hm',
      fun g _ => frameAt_control m₁ g, rfl, rfl, rfl, hpending⟩ hdeliver

/-- A raise under an ensure marker and, below it, a rescue marker. -/
def ensuredRaise : Program where
  blocks := #[{
    registers := 4,
    code := #[⟨.targetClass, 1, 0, 0⟩, ⟨.pushRescue, 5, 0, 0⟩, ⟨.pushEnsure, 4, 0, 0⟩,
      ⟨.raise, 1, 0, 0⟩, ⟨.leave, 1, 0, 0⟩, ⟨.leave, 1, 0, 0⟩] }]

/-- The exception enters the body of the ensure marker 1, and goes on at the rescue marker 0
when the body returns. -/
theorem unwinding_order_ensuredRaise :
    ∃ m m₂ a m', Reachable true [] m ∧ m.control.RaisePoint m.fetched.control ∧
      raise .object .empty m.fetched = .ok () m₂ ∧ m₂.ResumedAt (m.fetched.frameAt 1) ∧
      tick m = .ok none a ∧ (fetch >>= step) a = .ok .same m' ∧ m'.ResumedAt (m.fetched.frameAt 0) ∧
      m'.exception = some .object ∧ m'.chain = [] ∧ m'.context.markers = [] := by
  have hrun : ∃ m ∈ ensuredRaise.after 3, m.control.next? = some ⟨.raise, 1, 0, 0⟩ ∧
      m.fetched.splicedMarker? = none ∧ m.fetched.exception = none ∧
      m.fetched.context.markers = [1, 0] ∧ m.fetched.chain = [] ∧
      (m.fetched.frameAt 1).tag = .ensure ∧ (m.fetched.frameAt 0).tag = .rescue ∧
      entryAt? m.regs (m.context.base + 1) = some (.cls .object) ∧
      entryAt? m.regs (m.context.base + 1 + 1) = some .empty ∧
      Leads NoFault (raise .object .empty) m.fetched (fun _ m₂ => m₂.pending = none) ∧
      Leads NoFault tick m fun r a => r = none ∧ a.control.next? = some ⟨.leave, 1, 0, 0⟩ ∧
        Leads NoFault (fetch >>= step) a fun p _ => p = .same := by decide +kernel
  have hvalid : ensuredRaise.defect? = none := Program.defect?_eq_none (by decide +kernel)
  obtain ⟨m, hm, hnext, hspliced, hexception, hmarkers, hchain, hensure, hrescue, hclass,
    hmessage, hraise, htick⟩ := hrun
  obtain ⟨_, m₂, hr, hpending⟩ := hraise.exists_ok
  obtain ⟨_, a, ht, rfl, hleave, hruns⟩ := htick.exists_ok
  obtain ⟨_, m', hs, rfl⟩ := hruns.exists_ok
  have hreach := Reachable.of_after hvalid hm
  have hpoint := raisePoint_fetched hnext nofun
  have horder := unwinding_order hreach hpoint hspliced hexception hr
  rw [hmarkers, hchain, Unwinds] at horder
  obtain ⟨hresumed, -, -, -, hbody⟩ := horder
  rw [if_neg (by rw [hensure]; decide)] at hbody
  obtain ⟨-, -, hbody⟩ := hbody
  have ha : a.control = m₂.control :=
    control_of_tick hreach (fetch_step_raise hnext hclass hmessage hr) hpending ht
  have hclosing : a.control.Closing a.control := ⟨rfl, rfl, _, hleave, rfl⟩
  have hnext' := hbody [] a a _ m' (hreach.tick ht) ha .entered hclosing hs
  rw [Unwinds, if_pos hrescue] at hnext'
  obtain ⟨hresumed', hexception', -, -, hchain', hmarkers'⟩ := hnext'
  simp only [Control.reach, List.dropWhile_nil] at hchain'
  exact ⟨m, m₂, a, m', hreach, hpoint, hr, hresumed, ht, hs, hresumed', hexception', hchain',
    hmarkers'⟩

end ObjectMachine
