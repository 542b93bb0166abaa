import ObjectMachine.Proofs.Provenance

/-! The frame on whose return an exception is settled. It is noted where it stands on top of the
chain, and a context that waits keeps its note; so no frame is noted before it has been pushed. -/

namespace ObjectMachine

namespace Control

variable {c c' : Control} {f g : FrameId} {ph ph' : Phase}

theorem Standing.chain_lt (h : Standing ph c) : ∀ f ∈ c.chain, f < c.frames.size := by
  obtain ⟨upper, below, born, hstands⟩ := h.stands
  intro f hf
  rw [hstands.chain] at hf
  rcases List.mem_append.1 hf with hf | hf
  · exact (hstands.level.younger f (List.mem_append_left _ hf)).2
  · exact Nat.lt_of_lt_of_le (hstands.level.older f hf) hstands.le_size

theorem popUntil_finalizeFrame {target : Option FrameId} {fs : List FrameId}
    (h : popUntil target fs c = some c') :
    c'.context.finalizeFrame = c.context.finalizeFrame := by
  induction fs generalizing c with
  | nil =>
    rw [popUntil] at h
    split at h
    · cases h
      rfl
    · cases h
  | cons f rest ih =>
    rw [popUntil] at h
    split at h
    · cases h
      rfl
    · exact (ih h).trans pop_sameSignal.state.finalizeFrame

/-- A frame is noted where it stands on top of the chain. -/
def Notes (c c' : Control) : Prop :=
  ∀ g, c'.context.finalizeFrame = some g → c.context.finalizeFrame = some g ∨ g ∈ c.chain

theorem land_notes (k : Frame) : Notes c (c.land k) := by
  intro g hg
  unfold land splice at hg
  split at hg
  · exact .inl hg
  · split at hg
    · exact .inl hg
    · exact .inr (List.mem_of_head? hg)

theorem resume_notes (h : c.resume f = some c') : Notes c c' := by
  obtain ⟨c₁, h₁, rfl⟩ := Option.map_eq_some_iff.1 h
  intro g hg
  have hfinal := popUntil_finalizeFrame h₁
  have hchain : c₁.chain = reach c.chain _ := (chain_of_popUntil h₁ rfl).1
  rcases land_notes _ g hg with hg | hg
  · exact .inl (hfinal ▸ hg)
  · rw [hchain] at hg
    exact .inr ((List.dropWhile_sublist _).subset hg)

theorem deliver_notes (h : c.deliver = some c') : Notes c c' := by
  unfold deliver at h
  split at h
  · next f fs hspliced =>
    obtain ⟨c₁, h₁, h₂⟩ := Option.bind_eq_some_iff.1 h
    have hfinal := popUntil_finalizeFrame h₁
    have hchain : c₁.chain = reach c.chain _ := (chain_of_popUntil h₁ rfl).1
    intro g hg
    rcases resume_notes h₂ g hg with hg | hg
    · exact .inl (hfinal ▸ hg)
    · have hmem := List.mem_of_mem_tail hg
      rw [hchain] at hmem
      exact .inr ((List.dropWhile_sublist _).subset hmem)
  · split at h
    · exact fun g hg => resume_notes h g hg
    · cases h
      exact fun g hg => .inl hg

theorem raise_notes {e : ClassId} {message : Value} (h : c.raise e message = some c') :
    Notes c c' := by
  obtain ⟨e', message', hd⟩ := raise_eq_deliver h
  exact fun g hg => deliver_notes hd g hg

structure Dated (c : Control) : Prop where
  here : ∀ g, c.context.finalizeFrame = some g → g < c.frames.size
  waiting : ∀ s ∈ c.suspended, ∀ x made w, .construct x made w ∈ s.duties →
    ∀ g, x.finalizeFrame = some g → g < c.frames.size

theorem Dated.same (h : c.Dated) (hframes : c'.frames = c.frames)
    (hsuspended : c'.suspended = c.suspended) (hnotes : Notes c c')
    (hchain : ∀ f ∈ c.chain, f < c.frames.size) : c'.Dated := by
  refine ⟨fun g hg => ?_, ?_⟩
  · rw [hframes]
    exact (hnotes g hg).elim (h.here g) (hchain g)
  · rw [hframes, hsuspended]
    exact h.waiting

theorem Dated.push (h : c.Dated) {k : Frame} (hframes : c'.frames = c.frames.push k)
    (hsuspended : c'.suspended = c.suspended)
    (hfinal : c'.context.finalizeFrame = c.context.finalizeFrame) : c'.Dated := by
  have hsize : c'.frames.size = c.frames.size + 1 := by rw [hframes, Array.size_push]
  refine ⟨fun g hg => ?_, ?_⟩
  · rw [hsize]
    exact Nat.lt_succ_of_lt (h.here g (hfinal ▸ hg))
  · rw [hsize, hsuspended]
    exact fun s hs x made w hd g hg => Nat.lt_succ_of_lt (h.waiting s hs x made w hd g hg)

theorem Dated.move {op : Opcode} (h : c.Dated) (hm : c.Move op .same c')
    (hchain : ∀ f ∈ c.chain, f < c.frames.size) : c'.Dated := by
  have hsuspended := hm.suspended_of_same
  cases hm with
  | call hop hc =>
    cases hc with
    | deed hd =>
      rcases hd with rfl | ⟨base, code, targetClass, rfl⟩ | ⟨e, message, hr⟩
      · exact h
      · exact h.push (k := c.saved .call c.context.pc none) rfl rfl rfl
      · exact h.same (raise_samePass hr).frames hsuspended (raise_notes hr) hchain
  | protect tag pc htag => exact h.push (k := c.saved tag pc c.chain.head?) rfl rfl rfl
  | resume htop hr =>
    refine h.same (resume_samePass hr).frames hsuspended (fun g hg => ?_) hchain
    exact (resume_notes hr g hg).imp_right List.mem_of_mem_tail
  | back =>
    refine h.same pop_samePass.frames hsuspended (fun g hg => ?_) hchain
    exact .inl (pop_sameSignal.state.finalizeFrame ▸ hg)
  | _ => exact h.same rfl rfl (fun g hg => .inl hg) hchain

theorem Dated.resumePass {s : Suspension} {rest : List Suspension} (h : c.Dated)
    (hs : c.suspended = s :: rest) (hr : c.resumePass s rest = some c')
    {x : Context} {made : Value} {w : Window} {duties : List Duty}
    (hd : s.duties = .construct x made w :: duties) (hplain : ∀ d ∈ duties, IsPlain d)
    (hchain : ∀ f ∈ c.chain, f < c.frames.size) : c'.Dated := by
  have hwaiting : ∀ s ∈ rest, ∀ x made w, .construct x made w ∈ s.duties →
      ∀ g, x.finalizeFrame = some g → g < c.frames.size :=
    fun s' hs' => h.waiting s' (hs ▸ List.mem_cons_of_mem _ hs')
  have hx := h.waiting s (hs ▸ List.mem_cons_self) x made w (hd ▸ List.mem_cons_self)
  rw [Control.resumePass, hd] at hr
  obtain ⟨c₁, h₁, h₂⟩ := Option.bind_eq_some_iff.1 hr
  rw [endDuties_of_plain hplain] at h₂
  cases h₂
  simp only [endDuty] at h₁
  split at h₁
  · have hback : Dated { c with
        suspended := rest, context := x.bare, pending := none, pendingMessage := .nil } :=
      ⟨hx, hwaiting⟩
    have hsame := raise_samePass h₁
    exact hback.same hsame.frames hsame.suspended (raise_notes h₁) hchain
  · cases h₁
    exact ⟨hx, hwaiting⟩

theorem Dated.turn (h : c.Dated) (ht : Turn ph c ph' c') (hc : Standing ph c)
    (hwaiting : ∀ s ∈ c.suspended, ∃ x made w duties, s.duties = .construct x made w :: duties ∧
      ∀ d ∈ duties, IsPlain d) : c'.Dated := by
  have hgoto : ∀ pc, (c.goto pc).Dated := fun _ => ⟨h.here, h.waiting⟩
  cases ht with
  | same hi hmove => exact (hgoto _).move hmove hc.chain_lt
  | entered hi hmove =>
    obtain ⟨x, made, w, duties, base, argc, hx, hplain, rfl⟩ := hmove.eq_enter
    refine ⟨h.here, fun s hs y made' w' hd => ?_⟩
    rcases List.mem_cons.1 hs with rfl | hs
    · rcases List.mem_cons.1 hd with heq | hd
      · cases heq
        have hfinal : x.finalizeFrame = c.context.finalizeFrame := congrArg (·.finalizeFrame) hx
        rw [hfinal]
        exact h.here
      · exact (hplain _ hd).elim
    · exact h.waiting s hs y made' w' hd
  | finished hi hmove =>
    obtain ⟨rfl, -⟩ := hmove.of_over
    exact hgoto _
  | settled hpending => exact h
  | unwound hpending hu =>
    have hsame := popUntil_samePass hu
    refine h.same hsame.frames hsame.suspended (fun g hg => .inl ?_) hc.chain_lt
    exact popUntil_finalizeFrame hu ▸ hg
  | resumed hs hr =>
    obtain ⟨x, made, w, duties, hd, hplain⟩ := hwaiting _ (hs ▸ List.mem_cons_self)
    exact h.resumePass hs hr hd hplain hc.chain_lt

end Control

namespace Machine

variable {m m' a : Machine} {ph : Phase} {owned : List Value}

theorem Goes.dated {P : Permit} (h : m.control.Dated) (hgoes : Goes P m m')
    (hrests : m.control.Rests m'.control) : m'.control.Dated := by
  have hsize : m'.control.frames.size = m.control.frames.size := by
    simpa only [control, Array.size_map] using hgoes.size
  refine ⟨fun g hg => ?_, ?_⟩
  · rw [hsize]
    exact h.here g (hrests.finalizeFrame ▸ hg)
  · rw [hsize, hrests.suspended]
    exact h.waiting

theorem dated_invariant : Invariant fun m => Tidy m ∧ m.control.Dated where
  new h := by
    refine ⟨tidy_invariant.new h, ?_⟩
    rw [create_control h]
    exact ⟨nofun, nofun⟩
  enter hvalid h hI := by
    obtain ⟨hgoes, hcontext, -, hs, -⟩ := (enterUnit_leads _).of_ok h
    have hsize := hgoes.size
    refine ⟨tidy_invariant.enter hvalid h hI.1, fun g hg => ?_, ?_⟩
    · simp only [control, Array.size_map, hcontext, hsize] at hg ⊢
      simpa only [control, Array.size_map] using hI.2.here g hg
    · simpa only [control, Array.size_map, hs, hsize] using hI.2.waiting
  part hm h hI := by
    obtain ⟨hturn, -⟩ := h.turn hm
    exact ⟨tidy_invariant.part hm h hI.1, hI.2.turn hturn hm.standing hI.1.orderly.waiting⟩
  retire hI := ⟨tidy_invariant.retire hI.1, hI.2.here, hI.2.waiting⟩
  leave hs h hI := by
    obtain ⟨hgoes, hrests⟩ := (leaveUnit_goes _).of_ok h
    exact ⟨tidy_invariant.leave hs h hI.1, hgoes.dated hI.2 hrests⟩
  release h hI := by
    have hworks := (release_tame (P := .nothing) _ _).of_ok h
    exact ⟨tidy_invariant.release h hI.1, hworks.goes.dated hI.2 hworks.rests⟩
  clearPending h hI := by
    have hgoes := (clearPending_goes (P := .nothing)).of_ok h
    refine ⟨tidy_invariant.clearPending h hI.1, hgoes.dated hI.2 ?_⟩
    rw [clearPending_control.of_ok h]
    exact ⟨rfl, rfl, rfl, rfl, rfl⟩

end Machine

end ObjectMachine
