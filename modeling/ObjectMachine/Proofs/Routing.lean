import ObjectMachine.Proofs.Ownership

/-! Where an exception goes. The markers of a pass are on its side stack, newest first, or on
its part of the chain, where the unwinding has put the next marker below an ensure body. The
chain is searched first. So an exception goes to the newest marker whenever none waits on the
chain, and passes newer ones by when an older one waits there. -/

namespace ObjectMachine

namespace Control

variable {c c' c₀ : Control}

/-- The markers of the running pass in the order in which they are searched. -/
def active (c : Control) : List FrameId := c.spliced ++ c.context.markers

/-- Where control stands when an exception is raised in a tick: in an instruction, or where a
pass that has ended hands what it left pending over to the pass below. -/
inductive RaisePoint (c : Control) : Control → Prop
  | instruction {i : Inst} (hi : c.next? = some i) (hop : i.op ≠ .abort) :
      RaisePoint c (c.goto (c.context.pc + 1))
  | handover {c₀ c₁ c₂ : Control} {entry : Option FrameId} {x : Context} {made : Value}
      {w : Window} {duties : List Duty} {rest : List Suspension} (h : RaisePoint c c₀)
      (hc₁ : (∃ e message, c₀.raise e message = some c₁) ∨ c₁ = c₀.settle)
      (hpending : c₁.pending ≠ none) (hu : c₁.unwind c₁.context.entry = some c₂)
      (hs : c₁.suspended = ⟨entry, .construct x made w :: duties⟩ :: rest) :
      RaisePoint c { c₂ with
        suspended := rest, context := x.bare, pending := none, pendingMessage := .nil }

theorem Sound.raisePoint (h : Sound c) (hp : c.RaisePoint c₀) : Sound c₀ := by
  induction hp with
  | instruction hi hop => exact h.fetch hi hop
  | @handover c₀ c₁ c₂ entry x made w duties rest _ hc₁ _ hu hs ih =>
    have hsound : Sound c₁ := by
      rcases hc₁ with ⟨e, message, hr⟩ | rfl
      · exact ih.raise hr
      · exact ih.keep ⟨rfl, rfl, rfl⟩ rfl (List.suffix_refl _) ih.2
    obtain ⟨upper, below, born, hstands⟩ := hsound.unwindEntry hu
    have hs₂ := (popUntil_samePass hu).suspended.trans hs
    obtain ⟨x', made', w', duties', heq, -, htaken⟩ := hstands.takeUp hs₂
    cases heq
    exact htaken.keep ⟨rfl, rfl, rfl⟩ rfl (List.suffix_refl _) htaken.2

/-! ### Resuming -/

def inFlight (c : Control) (exception : Option ClassId) (excMessage : Value) : Control :=
  { c with exception, excMessage }

theorem frameAt_inFlight (e : Option ClassId) (message : Value) (f : FrameId) :
    (c.inFlight e message).frameAt f = c.frameAt f := rfl

theorem Sound.inFlight (h : Sound c) (e : Option ClassId) (message : Value) :
    Sound (c.inFlight e message) :=
  h.keep ⟨rfl, rfl, rfl⟩ rfl (List.suffix_refl _) h.2

theorem raise_eq_deliver {e : ClassId} {message : Value} (h : c.raise e message = some c') :
    ∃ e' message', (c.inFlight e' message').deliver = some c' := by
  unfold Control.raise at h
  split at h
  · exact ⟨some e, message, h⟩
  · exact ⟨c.exception, c.excMessage, h⟩

/-- Control stands in the context that a frame saved. -/
structure At (c : Control) (k : Frame) : Prop where
  base : c.context.base = k.base
  code : c.context.code = k.code
  pc : c.context.pc = k.pc
  targetClass : c.context.targetClass = k.targetClass

theorem at_splice {k : Frame} (h : c.At k) : c.splice.At k := by
  unfold splice
  split
  · exact ⟨h.base, h.code, h.pc, h.targetClass⟩
  · exact ⟨h.base, h.code, h.pc, h.targetClass⟩

theorem at_land (k : Frame) : (c.land k).At k := by
  unfold land
  split
  · exact ⟨rfl, rfl, rfl, rfl⟩
  · exact at_splice ⟨rfl, rfl, rfl, rfl⟩

theorem at_resume {f : FrameId} (h : c.resume f = some c') : c'.At (c.frameAt f) := by
  obtain ⟨c₁, -, rfl⟩ := Option.map_eq_some_iff.1 h
  exact at_land _

/-- An exception goes to the first active marker. -/
theorem at_deliver {f : FrameId} {rest : List FrameId} (hactive : c.active = f :: rest)
    (h : c.deliver = some c') : c'.At (c.frameAt f) := by
  unfold Control.deliver at h
  split at h
  · next g gs hg =>
    obtain ⟨c₁, hu, hr⟩ := Option.bind_eq_some_iff.1 h
    obtain rfl : g = f := by
      rw [active, hg] at hactive
      exact (List.cons.inj hactive).1
    rw [← frameAt_of_frames (popUntil_samePass hu).frames]
    exact at_resume (c := { c₁ with chain := c₁.chain.tail }) hr
  · next hnil =>
    rw [active, hnil, List.nil_append] at hactive
    simp only [hactive] at h
    exact at_resume (c := { c with context := { c.context with markers := rest } }) h

/-- The marker an exception goes to is not active any more. -/
theorem Sound.not_mem_active (h : Sound c) {f : FrameId} {rest : List FrameId}
    (hactive : c.active = f :: rest) (hd : c.deliver = some c') : f ∉ c'.active := by
  obtain ⟨⟨upper, below, born, hstands⟩, -⟩ := h
  obtain ⟨upper', hchain', hlevel', -, hnot⟩ := hstands.level.deliver rfl hstands.chain hd
  have hat : c'.frameAt = c.frameAt := funext (frameAt_of_frames (deliver_samePass hd).frames)
  have hf : (c.spliced ++ c.context.markers).head? = some f := by
    rw [← active, hactive]
    rfl
  intro hmem
  refine hnot f hf ?_
  rw [active, hlevel'.spliced_eq hat hchain'] at hmem
  rcases List.mem_append.1 hmem with hmem | hmem
  · exact List.mem_append_left _ (List.mem_filter.1 hmem).1
  · exact List.mem_append_right _ hmem

/-- The side stack is in the order in which markers were pushed. -/
theorem Sound.le_of_mem_markers (h : Sound c) {f g : FrameId} {rest : List FrameId}
    (hm : c.context.markers = f :: rest) (hg : g ∈ c.context.markers) : g ≤ f := by
  obtain ⟨⟨upper, below, born, hstands⟩, -⟩ := h
  have hdescending := hstands.level.descending
  rw [hm] at hdescending hg
  rcases List.mem_cons.1 hg with rfl | hg
  · exact Nat.le_refl _
  · exact Nat.le_of_lt ((List.pairwise_cons.1 hdescending).1 g hg)

/-- The first active marker is the newest one unless it waits on the chain and a newer one is
active. -/
theorem Sound.newest_iff (h : Sound c) {f : FrameId} {rest : List FrameId}
    (hactive : c.active = f :: rest) :
    (∀ g ∈ c.active, g ≤ f) ↔ ¬∃ s g, c.spliced.head? = some s ∧ g ∈ c.active ∧ s < g := by
  constructor
  · rintro hle ⟨s, g, hs, hg, hlt⟩
    obtain rfl : s = f := by
      obtain ⟨ss, hss⟩ := List.head?_eq_some_iff.1 hs
      rw [active, hss] at hactive
      exact (List.cons.inj hactive).1
    exact absurd (hle g hg) (Nat.not_le.2 hlt)
  · intro hnone g hg
    cases hs : c.spliced with
    | cons s ss =>
      have hf : s = f := by
        rw [active, hs] at hactive
        exact (List.cons.inj hactive).1
      rw [← hf]
      exact Nat.not_lt.1 fun hlt => hnone ⟨s, g, by rw [hs]; rfl, hg, hlt⟩
    | nil =>
      rw [active, hs, List.nil_append] at hactive hg
      exact h.le_of_mem_markers hactive hg

end Control

namespace Machine

/-- The markers of the running pass that an exception can go to, in the order in which they
are searched: those on its part of the chain, then its side stack. -/
def activeMarkers (m : Machine) : List FrameId :=
  ((m.chain.takeWhile fun f => m.context.entry != some f).filter fun f => (m.frameAt f).isMarker)
    ++ m.context.markers

theorem activeMarkers_eq (m : Machine) : m.activeMarkers = m.control.active := by
  simp only [activeMarkers, Control.active, Control.spliced, frameAt_control, Frame.isMarker_bare]
  rfl

/-- A machine in the middle of its next instruction. -/
def fetched (m : Machine) : Machine :=
  { m with context := { m.context with pc := m.context.pc + 1 } }

theorem raisePoint_fetched {m : Machine} {i : Inst} (hi : m.control.next? = some i)
    (hop : i.op ≠ .abort) : m.control.RaisePoint m.fetched.control := .instruction hi hop

/-- A machine continues in the context that a frame saved. -/
structure ResumedAt (m : Machine) (k : Frame) : Prop where
  base : m.context.base = k.base
  code : m.context.code = k.code
  pc : m.context.pc = k.pc
  targetClass : m.context.targetClass = k.targetClass

end Machine

open Machine

/-- An exception that is raised while markers are active resumes at the saved context of the
first one in the order of the search, and uses it up. That is the most recently pushed one
exactly if no marker that waits on the chain is older than another active one. -/
theorem raise_routing {owned : List Value} {m m₁ m₂ : Machine} {e : ClassId} {v : Value}
    {f : FrameId} {rest : List FrameId} (h : Reachable true owned m)
    (hpoint : m.control.RaisePoint m₁.control) (hactive : m₁.activeMarkers = f :: rest)
    (hr : raise e v m₁ = .ok () m₂) :
    m₂.ResumedAt (m₁.frameAt f) ∧ f ∉ m₂.activeMarkers ∧
    ((∀ g ∈ m₁.activeMarkers, g ≤ f) ↔
      ¬∃ s g, m₁.splicedMarker? = some s ∧ g ∈ m₁.activeMarkers ∧ s < g) := by
  have hsound := (h.sane.sound rfl).raisePoint hpoint
  have hraise : m₁.control.raise e v = some m₂.control := (raise_control e v).of_ok hr
  rw [activeMarkers_eq] at hactive
  simp only [activeMarkers_eq, splicedMarker?_eq]
  obtain ⟨e', message', hdeliver⟩ := Control.raise_eq_deliver hraise
  have hsound' := hsound.inFlight e' message'
  refine ⟨?_, hsound'.not_mem_active hactive hdeliver, hsound.newest_iff hactive⟩
  have hresumed := Control.at_deliver (c := m₁.control.inFlight e' message') hactive hdeliver
  rw [Control.frameAt_inFlight, frameAt_control] at hresumed
  exact ⟨hresumed.base, hresumed.code, hresumed.pc, hresumed.targetClass⟩

/-- An ensure body that runs while an exception is in flight, and protects itself: 2 raises
under the outer rescue marker, 4 under the inner one. -/
def shadowedRescue : Program where
  blocks := #[{
    registers := 3,
    code := #[⟨.pushRescue, 6, 0, 0⟩, ⟨.pushEnsure, 3, 0, 0⟩, ⟨.raise, 1, 0, 0⟩,
      ⟨.pushRescue, 5, 0, 0⟩, ⟨.raise, 1, 0, 0⟩, ⟨.leave, 1, 0, 0⟩, ⟨.leave, 1, 0, 0⟩] }]

/-- The marker 2 is pushed last, and the exception goes to the marker 0, which waits on the
chain. -/
theorem raise_routing_shadowedRescue :
    ∃ m m₁ m₂, Reachable true [] m ∧ m.control.RaisePoint m₁.control ∧
      m₁.activeMarkers = [0, 2] ∧ raise .typeError .nil m₁ = .ok () m₂ ∧
      m₂.ResumedAt (m₁.frameAt 0) ∧ ¬∀ g ∈ m₁.activeMarkers, g ≤ 0 := by
  have hrun : ∃ m ∈ shadowedRescue.after 4, m.control.next? = some ⟨.raise, 1, 0, 0⟩ ∧
      m.fetched.activeMarkers = [0, 2] ∧ m.fetched.splicedMarker? = some 0 ∧
      Leads NoFault (raise .typeError .nil) m.fetched fun _ _ => True := by decide +kernel
  have hvalid : shadowedRescue.defect? = none := Program.defect?_eq_none (by decide +kernel)
  obtain ⟨m, hm, hnext, hactive, hspliced, hraise⟩ := hrun
  obtain ⟨_, m₂, hr, -⟩ := hraise.exists_ok
  have hreach := Reachable.of_after hvalid hm
  have hpoint := raisePoint_fetched hnext nofun
  obtain ⟨hresumed, -, hiff⟩ := raise_routing hreach hpoint hactive hr
  refine ⟨m, m.fetched, m₂, hreach, hpoint, hactive, hr, hresumed, fun hnewest => ?_⟩
  refine hiff.1 hnewest ⟨0, 2, hspliced, ?_, by decide⟩
  rw [hactive]
  decide

end ObjectMachine
