import ObjectMachine.Proofs.Unwinding

/-! The course of a run in parts smaller than a tick. An instruction leaves its pass as it is,
starts a constructor pass, or ends its pass; then a pass with a pending exception is unwound,
and a suspended pass is taken up. So the end of every pass is a state of its own, also when
one tick ends several. No part touches the chain below the running pass. -/

namespace ObjectMachine

/-- Where a run stands: before an instruction, after one, or where the running pass is over. -/
inductive Phase
  | ready
  | settling
  | ended
  deriving DecidableEq

namespace Machine

inductive Advance : Phase → Machine → Phase → Machine → Prop
  | same {m m' : Machine} (h : (fetch >>= step) m = .ok .same m') : Advance .ready m .settling m'
  | entered {m m' : Machine} (h : (fetch >>= step) m = .ok .entered m') : Advance .ready m .ready m'
  | finished {m m' : Machine} {v : Value} (h : (fetch >>= step) m = .ok (.finished v) m') :
      Advance .ready m .ended m'
  | settled {m m' : Machine} (h : concludeStep m = .ok false m') : Advance .settling m .ready m'
  | unwound {m m' : Machine} (h : concludeStep m = .ok true m') : Advance .settling m .ended m'
  | resumed {m m' : Machine} {s : Suspension} {rest : List Suspension}
      (hs : m.suspended = s :: rest) (h : resumePass s rest m = .ok () m') :
      Advance .ended m .settling m'

def advance : Phase → Machine → Option (Phase × Machine)
  | .ready, m =>
    match (fetch >>= step) m with
    | .ok .same m' => some (.settling, m')
    | .ok .entered m' => some (.ready, m')
    | .ok (.finished _) m' => some (.ended, m')
    | .error _ _ => none
  | .settling, m =>
    match concludeStep m with
    | .ok false m' => some (.ready, m')
    | .ok true m' => some (.ended, m')
    | .error _ _ => none
  | .ended, m =>
    match m.suspended with
    | [] => none
    | s :: rest =>
      match resumePass s rest m with
      | .ok () m' => some (.settling, m')
      | .error _ _ => none

theorem advance_of_eq {ph ph' : Phase} {m m' : Machine} (h : advance ph m = some (ph', m')) :
    Advance ph m ph' m' := by
  unfold advance at h
  split at h
  · split at h
    · next hs => cases h; exact .same hs
    · next hs => cases h; exact .entered hs
    · next hs => cases h; exact .finished hs
    · cases h
  · split at h
    · next hs => cases h; exact .settled hs
    · next hs => cases h; exact .unwound hs
    · cases h
  · split at h
    · cases h
    · next hss =>
      split at h
      · next hs => cases h; exact .resumed hss hs
      · cases h

/-- The course of a run from the first instruction at `a` on. All its parts satisfy `ok`. -/
inductive Course (ok : Phase → Machine → Phase → Machine → Prop) (a : Machine) :
    Phase → Machine → Prop
  | began : Course ok a .ready a
  | next {ph ph' : Phase} {m m' : Machine} (h : Course ok a ph m) (hok : ok ph m ph' m')
      (hadvance : Advance ph m ph' m') : Course ok a ph' m'

/-- Follows a run for `n` parts, as long as they pass a check. -/
def follow (check : Phase → Machine → Phase → Machine → Bool) :
    Nat → Phase → Machine → Option (Phase × Machine)
  | 0, ph, m => some (ph, m)
  | n + 1, ph, m =>
    match advance ph m with
    | some (ph', m') => if check ph m ph' m' then follow check n ph' m' else none
    | none => none

theorem Course.follow {ok : Phase → Machine → Phase → Machine → Prop} {a m m' : Machine}
    {ph ph' : Phase} {check : Phase → Machine → Phase → Machine → Bool} {n : Nat}
    (h : Course ok a ph m) (hcheck : ∀ ph m ph' m', check ph m ph' m' → ok ph m ph' m')
    (hf : Machine.follow check n ph m = some (ph', m')) : Course ok a ph' m' := by
  induction n generalizing ph m with
  | zero =>
    cases hf
    exact h
  | succ n ih =>
    rw [Machine.follow] at hf
    split at hf
    · next ph₁ m₁ hadvance =>
      split at hf
      · next hpass => exact ih (h.next (hcheck _ _ _ _ hpass) (advance_of_eq hadvance)) hf
      · cases hf
    · cases hf

end Machine

namespace Control

/-- What a part of a tick does to control. -/
inductive Turn : Phase → Control → Phase → Control → Prop
  | same {c c' : Control} {i : Inst} (hi : c.next? = some i)
      (hmove : (c.goto (c.context.pc + 1)).Move i.op .same c') : Turn .ready c .settling c'
  | entered {c c' : Control} {i : Inst} (hi : c.next? = some i)
      (hmove : (c.goto (c.context.pc + 1)).Move i.op .entered c') : Turn .ready c .ready c'
  | finished {c c' : Control} {i : Inst} {v : Value} (hi : c.next? = some i)
      (hmove : (c.goto (c.context.pc + 1)).Move i.op (.finished v) c') : Turn .ready c .ended c'
  | settled {c : Control} (hpending : c.pending = none) : Turn .settling c .ready c
  | unwound {c c' : Control} (hpending : c.pending ≠ none)
      (hu : c.unwind c.context.entry = some c') : Turn .settling c .ended c'
  | resumed {c c' : Control} {s : Suspension} {rest : List Suspension}
      (hs : c.suspended = s :: rest) (hr : c.resumePass s rest = some c') :
      Turn .ended c .settling c'

/-- Passes are in order. Where one is over, its code need not be. -/
def Standing : Phase → Control → Prop
  | .ready, c => Sound c ∧ c.pending = none
  | .settling, c => Sound c
  | .ended, c => ∃ upper below born, Stands c upper below born

variable {c c' : Control} {ph ph' : Phase}

theorem Standing.stands (h : Standing ph c) : ∃ upper below born, Stands c upper below born := by
  cases ph with
  | ready => exact h.1.1
  | settling => exact h.1
  | ended => exact h

/-- An instruction that does not end its pass keeps passes in order. -/
theorem Sound.fetchMove {i : Inst} {p : Machine.Progress} (h : Sound c) (hi : c.next? = some i)
    (hmove : (c.goto (c.context.pc + 1)).Move i.op p c') (hp : ∀ v, p ≠ .finished v) : Sound c' := by
  have hop : i.op ≠ .abort := fun hop => hp .nil (hmove.eq_over_of_abort hop)
  refine (h.fetch hi hop).move hmove (fun hn hhead => ?_) hp
  exact (h.op_of_entry hn hhead hi).resolve_right hop

/-- Only a call of `new` starts a pass. -/
theorem Move.eq_enter {op : Opcode} (h : c.Move op .entered c') :
    ∃ x made w duties base argc, x.bare = c.context ∧ (∀ d ∈ duties, IsPlain d) ∧
      c' = c.enter (.construct x made w :: duties) base argc := by
  cases h with
  | call hop hcall =>
    cases hcall with
    | entered base argc hx hduties => exact ⟨_, _, _, _, base, argc, hx, hduties, rfl⟩

theorem Turn.standing (h : Turn ph c ph' c') (hc : Standing ph c) : Standing ph' c' := by
  cases h with
  | same hi hmove => exact hc.1.fetchMove hi hmove nofun
  | entered hi hmove =>
    refine ⟨hc.1.fetchMove hi hmove nofun, ?_⟩
    obtain ⟨x, made, w, duties, base, argc, -, -, rfl⟩ := hmove.eq_enter
    exact hc.2
  | finished hi hmove =>
    obtain ⟨rfl, -⟩ := hmove.of_over
    obtain ⟨upper, below, born, hstands⟩ := hc.stands
    have hsame : SamePass c (c.goto (c.context.pc + 1)) := ⟨rfl, rfl, rfl⟩
    exact ⟨upper, below, born, hstands.step hsame hstands.chain (hstands.level.turn rfl rfl)⟩
  | settled hpending => exact ⟨hc, hpending⟩
  | unwound hpending hu => exact hc.unwindEntry hu
  | resumed hs hr =>
    obtain ⟨upper, below, born, hstands⟩ := hc
    exact hstands.resumePass hs hr

theorem Move.suspended_of_same {op : Opcode} (h : c.Move op .same c') :
    c'.suspended = c.suspended := by
  cases h with
  | call hop hcall =>
    cases hcall with
    | deed hd =>
      rcases hd with rfl | ⟨base, code, targetClass, rfl⟩ | ⟨e, message, hr⟩
      · rfl
      · rfl
      · exact (raise_samePass hr).suspended
  | resume htop hr => exact (resume_samePass hr).suspended
  | back => exact pop_samePass.suspended
  | _ => rfl

/-- How the suspended passes change. -/
theorem Turn.suspended (h : Turn ph c ph' c') :
    match ph, ph' with
    | .ready, .ready => ∃ s, c'.suspended = s :: c.suspended
    | .ended, .settling => ∃ s, c.suspended = s :: c'.suspended
    | _, _ => c'.suspended = c.suspended := by
  cases h with
  | same hi hmove => exact hmove.suspended_of_same
  | entered hi hmove =>
    obtain ⟨x, made, w, duties, base, argc, -, -, rfl⟩ := hmove.eq_enter
    exact ⟨_, rfl⟩
  | finished hi hmove =>
    obtain ⟨rfl, -⟩ := hmove.of_over
    rfl
  | settled => rfl
  | unwound hpending hu => exact (popUntil_samePass hu).suspended
  | resumed hs hr =>
    rw [hs, suspended_of_resumePass hr]
    exact ⟨_, rfl⟩

/-! ### The ground of a pass -/

/-- The chain below the running pass. -/
def ground (c : Control) : List FrameId := reach c.chain c.context.entry

theorem Level.reach_entry {k : FrameId → Frame} {nested : Prop} {x : Context}
    {upper below : List FrameId} {born size : Nat}
    (h : Level k nested x upper below born size) : reach (upper ++ below) x.entry = below := by
  have hpass : ∀ f ∈ upper, (x.entry != some f) = true := by
    intro f hf
    exact bne_iff_ne.2 (h.entry_ne (h.younger f (List.mem_append_left _ hf)).1)
  rw [reach, List.dropWhile_append_of_pos hpass]
  have hentry := h.entry
  cases below with
  | nil => rfl
  | cons e below =>
    have he : x.entry = some e := hentry.symm
    simp [he]

variable {upper below : List FrameId} {born : Nat}

theorem Stands.ground_eq (h : Stands c upper below born) : c.ground = below := by
  rw [ground, h.chain]
  exact h.level.reach_entry

/-- Frames on the chain exist. -/
theorem Sound.lt_size (h : Sound c) {f : FrameId} (hf : f ∈ c.chain) : f < c.frames.size := by
  obtain ⟨⟨upper, below, born, hstands⟩, -⟩ := h
  rw [hstands.chain] at hf
  rcases List.mem_append.1 hf with hf | hf
  · exact (hstands.level.younger f (List.mem_append_left _ hf)).2
  · exact Nat.lt_of_lt_of_le (hstands.level.older f hf) hstands.le_size

theorem reach_head? (chain : List FrameId) : reach chain chain.head? = chain := by
  cases chain <;> simp [reach]

theorem reach_cons_of_ne {f : FrameId} {e : Option FrameId} (h : e ≠ some f)
    (rest : List FrameId) : reach (f :: rest) e = reach rest e := by
  simp [reach, h]

theorem reach_reach (chain : List FrameId) (e : Option FrameId) :
    reach (reach chain e) e = reach chain e := by
  induction chain with
  | nil => rfl
  | cons f rest ih =>
    by_cases h : e = some f
    · simp [reach, h]
    · rw [reach_cons_of_ne h, ih]

theorem Sound.ground_deliver (h : Sound c) (hd : c.deliver = some c') : c'.ground = c.ground := by
  obtain ⟨⟨upper, below, born, hstands⟩, -⟩ := h
  obtain ⟨upper', hchain', hlevel', -, -⟩ := hstands.level.deliver rfl hstands.chain hd
  rw [(hstands.step (deliver_samePass hd) hchain' hlevel').ground_eq, hstands.ground_eq]

theorem Sound.ground_raise (h : Sound c) {e : ClassId} {message : Value}
    (hr : c.raise e message = some c') : c'.ground = c.ground := by
  obtain ⟨e', message', hd⟩ := raise_eq_deliver hr
  exact (h.inFlight e' message').ground_deliver hd

theorem Sound.ground_resumeTop (h : Sound c) {f : FrameId} (htop : c.topMarker? = some f)
    (hr : { c with chain := c.chain.tail }.resume f = some c') : c'.ground = c.ground := by
  obtain ⟨⟨upper, below, born, hstands⟩, -⟩ := h
  obtain ⟨upper', hstands', -⟩ := hstands.resumeTop htop hr
  rw [hstands'.ground_eq, hstands.ground_eq]

/-- No instruction that stays in its pass touches the chain below. -/
theorem Sound.ground_move {op : Opcode} (h : Sound c) (hm : c.Move op .same c') :
    c'.ground = c.ground := by
  cases hm with
  | call hop hcall =>
    cases hcall with
    | deed hd =>
      rcases hd with rfl | ⟨base, code, targetClass, rfl⟩ | ⟨e, message, hr⟩
      · rfl
      · obtain ⟨⟨upper, below, born, hstands⟩, -⟩ := h
        have hne : c.context.entry ≠ some c.frames.size := hstands.level.entry_ne hstands.le_size
        exact reach_cons_of_ne hne _
      · exact h.ground_raise hr
  | resume htop hr => exact h.ground_resumeTop htop hr
  | @back f rest _ _ hentry hchain =>
    have hne : c.context.entry ≠ some f := by
      rw [hchain] at hentry
      exact fun heq => hentry heq.symm
    have hsame : SamePass c (c.pop f rest) := pop_samePass
    rw [ground, ground, hsame.entry, hchain, reach_cons_of_ne hne]
    rfl
  | _ => rfl

/-- A suspended pass has its own ground below that of the pass it waited for. -/
theorem Stands.ground_resumePass (h : Stands c upper below born) {s : Suspension}
    {rest : List Suspension} (hs : c.suspended = s :: rest) (hr : c.resumePass s rest = some c') :
    c'.ground = reach c.ground s.entry := by
  obtain ⟨x, made, w, duties, rfl, hd, hsound⟩ := h.takeUp hs
  have hlower := h.lower
  rw [hs] at hlower
  obtain ⟨x', made', w', duties', upper', below', born', heq, -, -, hborn, hlevel, -, -⟩ := hlower
  simp only [Suspension.mk.injEq, List.cons.injEq, Duty.construct.injEq] at heq
  obtain ⟨-, ⟨rfl, -, -⟩, -⟩ := heq
  -- The entry of the suspended pass is older than the pass it waited for.
  have hpass : ∀ f ∈ upper, (x.entry != some f) = true := by
    intro f hf
    have hyoung := (h.level.younger f (List.mem_append_left _ hf)).1
    exact bne_iff_ne.2 (hlevel.entry_ne (Nat.le_trans hborn hyoung))
  have hground : reach c.chain x.entry = reach c.ground x.entry := by
    rw [h.ground_eq, h.chain, reach, List.dropWhile_append_of_pos hpass]
    rfl
  obtain ⟨c₁, h₁, h₂⟩ := Option.bind_eq_some_iff.1 hr
  rw [endDuties_of_plain hd] at h₂
  cases h₂
  simp only [endDuty] at h₁
  split at h₁
  · refine (Sound.ground_raise ?_ h₁).trans hground
    exact hsound.keep ⟨rfl, rfl, rfl⟩ rfl (List.suffix_refl _) hsound.2
  · cases h₁
    exact hground

end Control

namespace Machine

/-- The books are exact and passes are in order. The result of the last pass is in hand when
it is over. -/
structure Steady (ph : Phase) (owned : List Value) (m : Machine) : Prop where
  ledger : ∃ hand, Ledger True 0 [] (hand ++ owned) m ∧ (hand = [] ∨ ph = .ended ∧ m.suspended = [])
  standing : m.control.Standing ph

variable {owned : List Value} {m m' a : Machine} {ph ph' : Phase}

theorem Steady.books (h : Steady ph owned m) (hph : ph ≠ .ended) : Ledger True 0 [] owned m := by
  obtain ⟨hand, hledger, rfl | ⟨hended, -⟩⟩ := h.ledger
  · exact hledger
  · exact absurd hended hph

theorem Steady.of_books (h : Ledger True 0 [] owned m) (hc : m.control.Standing ph) :
    Steady ph owned m := ⟨⟨[], h, .inl rfl⟩, hc⟩

theorem Steady.depth (h : Steady ph owned m) : m.depth = m.callCount m.chain := by
  obtain ⟨hand, hledger, -⟩ := h.ledger
  exact hledger.depth

theorem Reachable.steady (h : Reachable true owned m) : Steady .ready owned m :=
  .of_books h.sane.ledger ⟨h.sane.sound rfl, h.pending_eq_none rfl⟩

theorem fetch_step_stepped (h : Ledger True 0 [] owned m) :
    Leads (Excused True) (fetch >>= step) m fun p m' =>
      Ledger True 0 [] (p.hand ++ owned) m' ∧ ∃ i, m.control.next? = some i ∧
        (m.control.goto (m.control.context.pc + 1)).Move i.op p m'.control := by
  rw [Leads.bind_eq]
  refine (fetch_ledger h).mono fun i m₁ ⟨h₁, hi, hc₁⟩ => ?_
  refine (step_stepped i h₁).mono fun p m₂ ⟨h₂, hmove⟩ => ?_
  rw [hc₁] at hmove
  exact ⟨h₂, i, hi, hmove⟩

/-- The result of a pass that another one waits for is no object. -/
theorem let_go_of_over {c : Control} {i : Inst} {v : Value} (hc : c.Sound)
    (hi : c.next? = some i) (hmove : (c.goto (c.context.pc + 1)).Move i.op (.finished v) m'.control)
    (h : Ledger True 0 [] (v :: owned) m') :
    ∃ hand, Ledger True 0 [] (hand ++ owned) m' ∧ (hand = [] ∨ m'.suspended = []) := by
  by_cases hs : m'.suspended = []
  · exact ⟨[v], h, .inr hs⟩
  · obtain ⟨heq, hover⟩ := hmove.of_over
    refine ⟨[], h.let_go ?_, .inl rfl⟩
    rcases hover with rfl | ⟨hop, hentry⟩
    · rfl
    · have hs' : m'.control.suspended ≠ [] := hs
      rw [heq] at hs'
      exact absurd hop (hc.closed hs' hentry i hi)

theorem Advance.turn (h : Advance ph m ph' m') (hm : Steady ph owned m) :
    Control.Turn ph m.control ph' m'.control ∧ Steady ph' owned m' := by
  -- Every part does its turn; what the turn keeps is known of control alone.
  suffices hturn : Control.Turn ph m.control ph' m'.control ∧ ∃ hand,
      Ledger True 0 [] (hand ++ owned) m' ∧ (hand = [] ∨ ph' = .ended ∧ m'.suspended = []) from
    ⟨hturn.1, hturn.2, hturn.1.standing hm.standing⟩
  cases h with
  | same h =>
    obtain ⟨h₁, i, hi, hmove⟩ := (fetch_step_stepped (hm.books nofun)).of_ok h
    exact ⟨.same hi hmove, [], h₁, .inl rfl⟩
  | entered h =>
    obtain ⟨h₁, i, hi, hmove⟩ := (fetch_step_stepped (hm.books nofun)).of_ok h
    exact ⟨.entered hi hmove, [], h₁, .inl rfl⟩
  | finished h =>
    obtain ⟨h₁, i, hi, hmove⟩ := (fetch_step_stepped (hm.books nofun)).of_ok h
    obtain ⟨hand, h₂, hhand⟩ := let_go_of_over hm.standing.1 hi hmove h₁
    exact ⟨.finished hi hmove, hand, h₂, hhand.imp_right fun hs => ⟨rfl, hs⟩⟩
  | settled h =>
    obtain ⟨h₁, hpending, hc⟩ := (concludeStep_ledger (hm.books nofun)).of_ok h
    rw [hc]
    exact ⟨.settled hpending, [], h₁, .inl rfl⟩
  | unwound h =>
    obtain ⟨h₁, hpending, hu⟩ := (concludeStep_ledger (hm.books nofun)).of_ok h
    exact ⟨.unwound hpending hu, [], h₁, .inl rfl⟩
  | @resumed _ _ s rest hs h =>
    obtain ⟨hand, h₀, rfl | ⟨-, hnil⟩⟩ := hm.ledger
    · obtain ⟨h₁, hr⟩ := (resumePass_ledger s rest hs h₀).of_ok h
      exact ⟨.resumed hs hr, [], h₁, .inl rfl⟩
    · cases hs.symm.trans hnil

theorem Course.steady {ok : Phase → Machine → Phase → Machine → Prop} (h : Course ok a ph m)
    (ha : Reachable true owned a) : Steady ph owned m := by
  induction h with
  | began => exact Reachable.steady ha
  | next _ _ hadvance ih => exact (hadvance.turn ih).2

abbrev AnyPart (_ : Phase) (_ : Machine) (_ : Phase) (_ : Machine) : Prop := True

section Parts

variable {ok : Phase → Machine → Phase → Machine → Prop}

theorem Course.finishStep (ss : List Suspension) (h : Course ok a .settling m)
    (hok : ∀ ph n ph' n', ph ≠ .ready → ok ph n ph' n') (hss : m.suspended = ss)
    (hm : Steady .settling owned m) :
    Leads AnyFault (Machine.finishStep ss) m fun r m' => r = none → Course ok a .ready m' := by
  induction ss generalizing m with
  | nil =>
    simp only [Machine.finishStep, Leads.bind_eq]
    refine .intro (fun pending m₁ h₁ => ?_) fun _ _ _ => trivial
    cases pending with
    | false => exact fun _ => h.next (hok _ _ _ _ (by simp)) (.settled h₁)
    | true => rintro ⟨⟩
  | cons s rest ih =>
    simp only [Machine.finishStep, Leads.bind_eq]
    refine .intro (fun pending m₁ h₁ => ?_) fun _ _ _ => trivial
    cases pending with
    | false => exact fun _ => h.next (hok _ _ _ _ (by simp)) (.settled h₁)
    | true =>
      simp only [if_true, Leads.bind_eq]
      refine .intro (fun _ m₂ h₂ => ?_) fun _ _ _ => trivial
      obtain ⟨hturn₁, hm₁⟩ := (Advance.unwound h₁).turn hm
      have hs₁ : m₁.suspended = s :: rest := hturn₁.suspended.trans hss
      obtain ⟨hturn₂, hm₂⟩ := (Advance.resumed hs₁ h₂).turn hm₁
      obtain ⟨s', hs₂⟩ := hturn₂.suspended
      refine ih ((h.next ?_ (.unwound h₁)).next ?_ (.resumed hs₁ h₂)) ?_ hm₂
      · exact hok _ _ _ _ (by simp)
      · exact hok _ _ _ _ (by simp)
      exact (List.cons.inj (hs₁.symm.trans hs₂)).2.symm

/-- A tick is made of parts. Only the first of them is an instruction. -/
theorem Course.tick (h : Course ok a .ready m) (hok : ∀ ph n ph' n', (ph = .ready → n = m) → ok ph n ph' n')
    (hm : Reachable true owned m) (ht : Machine.tick m = .ok none m') : Course ok a .ready m' := by
  have hfirst : ∀ ph' n', ok .ready m ph' n' := fun _ _ => hok _ _ _ _ fun _ => rfl
  have hlater : ∀ ph n ph' n', ph ≠ .ready → ok ph n ph' n' :=
    fun _ _ _ _ hph => hok _ _ _ _ fun heq => absurd heq hph
  have hparts : Leads AnyFault Machine.tick m fun r m' => r = none → Course ok a .ready m' := by
    have hstep : Leads AnyFault (fetch >>= step) m fun p m₁ => (fetch >>= step) m = .ok p m₁ :=
      .intro (fun _ _ h₁ => h₁) fun _ _ _ => trivial
    rw [Leads.bind_eq] at hstep
    simp only [Machine.tick, Leads.bind_eq]
    refine hstep.mono fun i m₀ h₀ => h₀.mono fun p m₁ h₁ => ?_
    cases p with
    | entered => exact fun _ => h.next (hfirst _ _) (.entered h₁)
    | same =>
      simp only [Leads.bind_eq, Leads.get_eq]
      exact (h.next (hfirst _ _) (.same h₁)).finishStep m₁.suspended hlater rfl
        ((Advance.same h₁).turn (Reachable.steady hm)).2
    | finished v =>
      obtain ⟨hturn, hm₁⟩ := (Advance.finished h₁).turn (Reachable.steady hm)
      simp only [Machine.endPass, Leads.bind_eq, Leads.get_eq]
      split
      · rintro ⟨⟩
      · next s rest hs =>
        simp only [Leads.bind_eq]
        refine .intro (fun _ m₂ h₂ => ?_) fun _ _ _ => trivial
        obtain ⟨hturn₂, hm₂⟩ := (Advance.resumed hs h₂).turn hm₁
        obtain ⟨s', hs₂⟩ := hturn₂.suspended
        refine ((h.next (hfirst _ _) (.finished h₁)).next ?_ (.resumed hs h₂)).finishStep rest hlater
          ?_ hm₂
        · exact hlater _ _ _ _ (by simp)
        exact (List.cons.inj (hs.symm.trans hs₂)).2.symm
  exact hparts.of_ok ht rfl

end Parts

end Machine

end ObjectMachine
