import ObjectMachine.Proofs.Steps

/-! One tick: an instruction and the ends of the passes it completes. A tick keeps the books,
and it follows a relation on control: the instruction fetched makes a move, and then the
passes that have a pending exception are left, each for the one below it. -/

namespace ObjectMachine

namespace Control

/-- Takes up a suspended pass below which `rest` are suspended. -/
def resumePass (s : Suspension) (rest : List Suspension) (c : Control) : Option Control :=
  { c with suspended := rest, context := { c.context with entry := s.entry } }.endDuties s.duties

theorem suspended_of_resumePass {x : Suspension} {rest : List Suspension} {c c' : Control}
    (h : c.resumePass x rest = some c') : c'.suspended = rest :=
  suspended_of_endDuties h

def retire (c : Control) : Control := { c with context := { c.context with entry := none } }

/-- Leaves the passes that have an exception pending. The answer is the control, and whether
the last pass was left. -/
def finish : List Suspension → Control → Option (Control × Bool)
  | [], c =>
    if c.pending = none then some (c, false)
    else (c.unwind c.context.entry).map fun c => (c.retire, true)
  | s :: rest, c =>
    if c.pending = none then some (c, false)
    else (c.unwind c.context.entry).bind fun c => (c.resumePass s rest).bind (finish rest)

def endPass (c : Control) : Option (Control × Bool) :=
  match c.suspended with
  | [] => some (c.retire, true)
  | s :: rest => (c.resumePass s rest).bind (finish rest)

def conclude (c : Control) : Machine.Progress → Option (Control × Bool)
  | .same => c.finish c.suspended
  | .entered => some (c, false)
  | .finished _ => c.endPass

def next? (c : Control) : Option Inst :=
  c.context.code.bind fun code => entryAt? code.block.code c.context.pc

/-- A tick that executes the instruction `i`, and whether it ends the run. -/
inductive Tick (c : Control) (i : Inst) (c' : Control) (ended : Bool) : Prop
  | mk {p : Machine.Progress} {c₁ : Control} (hi : c.next? = some i)
      (hmove : (c.goto (c.context.pc + 1)).Move i.op p c₁)
      (hend : c₁.conclude p = some (c', ended))

/-- A pass is over where it stands, with nil unless it returned. -/
theorem Move.of_over {op : Opcode} {v : Value} {c c' : Control} (h : c.Move op (.finished v) c') :
    c' = c ∧ (v = .nil ∨ op = .leave ∧ c.chain.head? = c.context.entry) := by
  cases h with
  | call hop h => cases h
  | finished v htop hsettle hentry => exact ⟨rfl, .inr ⟨rfl, hentry⟩⟩
  | halt hop => exact ⟨rfl, .inl rfl⟩

/-- No return ends a pass that another one waits for. -/
def Closed (c : Control) : Prop :=
  c.suspended ≠ [] → c.chain.head? = c.context.entry → ∀ i, c.next? = some i → i.op ≠ .leave

theorem suspended_of_finish {ss : List Suspension} {c c' : Control}
    (h : c.finish ss = some (c', true)) (hss : c.suspended = ss) : c'.suspended = [] := by
  induction ss generalizing c with
  | nil =>
    rw [finish] at h
    split at h
    · cases h
    · obtain ⟨c₁, h₁, heq⟩ := Option.map_eq_some_iff.1 h
      cases heq
      exact (popUntil_samePass h₁).suspended.trans hss
  | cons x rest ih =>
    rw [finish] at h
    split at h
    · cases h
    · obtain ⟨c₁, -, h₂⟩ := Option.bind_eq_some_iff.1 h
      obtain ⟨c₂, h₂, h₃⟩ := Option.bind_eq_some_iff.1 h₂
      exact ih h₃ (suspended_of_resumePass h₂)

/-- No pass is left when a run has ended. -/
theorem Tick.suspended_eq_nil {i : Inst} {c c' : Control} (h : c.Tick i c' true) :
    c'.suspended = [] := by
  obtain ⟨-, -, hend⟩ := h
  next p c₁ =>
  cases p with
  | same => exact suspended_of_finish hend rfl
  | entered => cases hend
  | finished v =>
    simp only [conclude, endPass] at hend
    split at hend
    · next hss =>
      cases hend
      exact hss
    · obtain ⟨c₂, h₂, h₃⟩ := Option.bind_eq_some_iff.1 hend
      exact suspended_of_finish h₃ (suspended_of_resumePass h₂)

end Control

namespace Machine

variable {s : Prop} {l : Nat} {d : List Duty} {H : List Value} {m : Machine} {v : Value}

theorem resumePass_ledger (x : Suspension) (rest : List Suspension) (hx : m.suspended = x :: rest)
    (h : Ledger s l [] H m) :
    Leads (Excused s) (resumePass x rest) m fun _ m' =>
      Ledger s l [] H m' ∧ m.control.resumePass x rest = some m'.control := by
  simp only [resumePass, Leads.bind_eq, Leads.modify_eq]
  have h₁ : Ledger s l (x.duties ++ []) H
      { m with suspended := rest, context := { m.context with entry := x.entry } } := by
    refine h.hand_over ⟨_, _, _, rfl⟩ ?_ ?_ fun r => ?_
    · simp only [savedMarkers, duties, hx, List.flatMap_cons, List.append_nil, List.nil_append]
      exact .refl _
    · simp only [duties, hx, List.flatMap_cons, List.append_nil, List.nil_append]
      exact .refl _
    · simp only [duties, hx, List.flatMap_cons, List.append_nil, List.nil_append]
  exact Leads.mono (runDuties_ledger x.duties h₁) fun _ _ h₂ => h₂

/-- The end of an instruction without the passes below. -/
theorem concludeStep_ledger (h : Ledger s l [] H m) :
    Leads (Excused s) concludeStep m fun pending m' =>
      Ledger s l [] H m' ∧
      if pending then m.control.pending ≠ none ∧ m.control.unwind m.context.entry = some m'.control
      else m.control.pending = none ∧ m'.control = m.control := by
  have hend : ∀ m₁, Ledger s l [] H m₁ → m₁.control = m.control →
      Leads (Excused s) (do
        if (← get).pending.isNone then return false
        unwindTo (← get).context.entry
        return true) m₁ fun pending m' => Ledger s l [] H m' ∧
          if pending then
            m.control.pending ≠ none ∧ m.control.unwind m.context.entry = some m'.control
          else m.control.pending = none ∧ m'.control = m.control := by
    intro m₁ h₁ hc₁
    have hpending : m₁.pending = m.control.pending := congrArg Control.pending hc₁
    have hentry : m₁.context.entry = m.context.entry := congrArg (·.context.entry) hc₁
    simp only [Leads.bind_eq, Leads.get_eq]
    split
    · next hp =>
      rw [hpending, Option.isNone_iff_eq_none] at hp
      exact ⟨h₁, by simp [hp, hc₁]⟩
    · next hp =>
      rw [hpending, Option.isNone_iff_eq_none] at hp
      simp only [Leads.bind_eq, Leads.get_eq, Leads.pure_eq]
      refine ((unwindTo_ledger _ h₁).and (unwindTo_control _)).mono fun _ m₂ ⟨h₂, hc₂⟩ => ?_
      rw [hc₁, hentry] at hc₂
      exact ⟨h₂, by simp [hp, hc₂]⟩
  simp only [concludeStep, Leads.bind_eq, Leads.get_eq]
  split
  · simp only [Leads.bind_eq, Leads.modify_eq, Leads.get_eq]
    refine currentSize_leads fun size => ?_
    have h₁ : Ledger s l [] H { m with jumped := false } := h.turn ⟨_, _, rfl⟩ rfl
    refine Leads.mono (scrubAbove_ledger h₁ _) fun _ m₂ ⟨h₂, hk₂⟩ => ?_
    have hc₂ : m₂.control = m.control := (control_of_skeleton hk₂).trans rfl
    have := hend m₂ h₂ hc₂
    simp only [Leads.bind_eq, Leads.get_eq] at this
    exact this
  · have := hend m h rfl
    simp only [Leads.bind_eq, Leads.get_eq] at this
    exact this

theorem endLastPass_ledger (h : Ledger s l [] (v :: H) m) :
    Leads (Excused s) (endLastPass v) m fun r m' =>
      Ledger s l [] (r.toList ++ H) m' ∧ r = some v ∧ m'.control = m.control.retire := by
  simp only [endLastPass, modifyContext, Leads.bind_eq, Leads.modify_eq, Leads.pure_eq]
  exact ⟨h.turn ⟨_, _, rfl⟩ rfl, trivial, rfl⟩

theorem finishStep_ledger (ss : List Suspension) (hss : m.suspended = ss)
    (h : Ledger s l [] H m) :
    Leads (Excused s) (finishStep ss) m fun r m' =>
      Ledger s l [] (r.toList ++ H) m' ∧ m.control.finish ss = some (m'.control, r.isSome) := by
  induction ss generalizing m with
  | nil =>
    simp only [finishStep, Leads.bind_eq]
    refine (concludeStep_ledger h).mono fun pending m₁ ⟨h₁, hc₁⟩ => ?_
    cases pending with
    | false => exact ⟨h₁, by simp [Control.finish, hc₁.1, hc₁.2]⟩
    | true =>
      obtain ⟨hp, hunwind⟩ := hc₁
      refine (endLastPass_ledger (v := .nil) (h₁.hold rfl)).mono ?_
      rintro r m₂ ⟨h₂, rfl, hc₂⟩
      refine ⟨h₂, ?_⟩
      have hunwind' : m.control.unwind m.control.context.entry = some m₁.control := hunwind
      rw [Control.finish, if_neg hp, hunwind', Option.map_some, hc₂]
      rfl
  | cons x rest ih =>
    simp only [finishStep, Leads.bind_eq]
    refine (concludeStep_ledger h).mono fun pending m₁ ⟨h₁, hc₁⟩ => ?_
    cases pending with
    | false => exact ⟨h₁, by simp [Control.finish, hc₁.1, hc₁.2]⟩
    | true =>
      obtain ⟨hp, hunwind⟩ := hc₁
      simp only [if_true, Leads.bind_eq]
      have hsuspended : m₁.suspended = x :: rest :=
        (Control.popUntil_samePass hunwind).suspended.trans hss
      refine (resumePass_ledger x rest hsuspended h₁).mono fun _ m₂ ⟨h₂, hc₂⟩ => ?_
      refine (ih (Control.suspended_of_resumePass hc₂) h₂).mono fun r m₃ ⟨h₃, hc₃⟩ => ⟨h₃, ?_⟩
      have hunwind' : m.control.unwind m.control.context.entry = some m₁.control := hunwind
      rw [Control.finish, if_neg hp, hunwind', Option.bind_some, hc₂]
      exact hc₃

/-- The end of a pass. The result of a pass that is not the last is lost, so it must not refer
to an object. -/
theorem endPass_ledger (h : Ledger s l [] (v :: H) m)
    (hv : s → m.suspended ≠ [] → v.ref? = none) :
    Leads (Excused s) (endPass v) m fun r m' =>
      Ledger s l [] (r.toList ++ H) m' ∧ m.control.endPass = some (m'.control, r.isSome) := by
  simp only [endPass, Leads.bind_eq, Leads.get_eq]
  split
  · next hss =>
    have hss' : m.control.suspended = [] := hss
    refine (endLastPass_ledger h).mono ?_
    rintro r m₁ ⟨h₁, rfl, hc₁⟩
    refine ⟨h₁, ?_⟩
    rw [Control.endPass, hss', hc₁]
    rfl
  · next x rest hss =>
    have hss' : m.control.suspended = x :: rest := hss
    have h₀ : Ledger s l [] H m := by
      rcases Classical.em s with hs | hs
      · exact h.let_go (hv hs (hss ▸ List.cons_ne_nil _ _))
      · exact h.of_not hs
    simp only [Leads.bind_eq]
    refine (resumePass_ledger x rest hss h₀).mono fun _ m₁ ⟨h₁, hc₁⟩ => ?_
    refine (finishStep_ledger rest (Control.suspended_of_resumePass hc₁) h₁).mono fun r m₂ ⟨h₂, hc₂⟩ => ⟨h₂, ?_⟩
    rw [Control.endPass, hss']
    change (m.control.resumePass x rest).bind _ = _
    rw [hc₁]
    exact hc₂

theorem fetch_ledger (h : Ledger s l [] H m) :
    Leads (Excused s) fetch m fun i m' =>
      Ledger s l [] H m' ∧ m.control.next? = some i ∧
      m'.control = m.control.goto (m.control.context.pc + 1) := by
  simp only [fetch, Leads.bind_eq, Leads.get_eq]
  refine currentCode_leads fun code hcode => ?_
  split
  · exact ⟨nofun, fun _ h => h, nofun⟩
  · simp only [setPc, modifyContext, Leads.bind_eq, Leads.modify_eq, Leads.pure_eq]
    refine present_leads fun i hi => ⟨h.turn ⟨_, _, rfl⟩ rfl, ?_, rfl⟩
    have hcode' : m.control.context.code = some code := hcode
    rw [Control.next?, hcode']
    exact hi

theorem tick_ledger (h : Ledger s l [] H m) (hclosed : s → m.control.Closed) :
    Leads (Excused s) tick m fun r m' =>
      Ledger s l [] (r.toList ++ H) m' ∧ ∃ i, m.control.Tick i m'.control r.isSome := by
  simp only [tick, Leads.bind_eq]
  refine (fetch_ledger h).mono fun i m₁ ⟨h₁, hi, hc₁⟩ => ?_
  refine (step_stepped i h₁).mono fun p m₂ ⟨h₂, hmove⟩ => ?_
  rw [hc₁] at hmove
  cases p with
  | same =>
    simp only [Leads.bind_eq, Leads.get_eq]
    refine (finishStep_ledger m₂.suspended rfl h₂).mono fun r m₃ ⟨h₃, hc₃⟩ => ?_
    exact ⟨h₃, i, hi, hmove, hc₃⟩
  | entered => exact ⟨h₂, i, hi, hmove, rfl⟩
  | finished v =>
    obtain ⟨hc₂, hover⟩ := hmove.of_over
    have hv : s → m₂.suspended ≠ [] → v.ref? = none := by
      intro hs hss
      rcases hover with rfl | ⟨hop, hentry⟩
      · rfl
      · have hss' : m₂.control.suspended ≠ [] := hss
        rw [hc₂] at hss'
        exact absurd hop (hclosed hs hss' hentry i hi)
    refine (endPass_ledger h₂ hv).mono fun r m₃ ⟨h₃, hc₃⟩ => ?_
    exact ⟨h₃, i, hi, hmove, hc₃⟩

end Machine

end ObjectMachine
