import ObjectMachine.Proofs.Sweeps

/-! The state and the exception it is about. A raise, the landing in a rescue or ensure body, the
end of an ensure body and the instruction that takes the exception set both together. A constructor
pass goes on with the state of its caller and gives this state back at its end, but not the
exception: so the two agree after it exactly if an exception is in flight then just when one was
at its start. -/

namespace ObjectMachine

namespace Control

variable {c c' : Control} {k : Frame} {f : FrameId} {op : Opcode} {p : Machine.Progress}
  {ph ph' : Phase} {begun : List Bool}

/-- The state is normal just when no exception is in flight. -/
def Coherent (c : Control) : Prop := c.context.excState = .normal ↔ c.exception = none

theorem Coherent.same (h : c.Coherent) (hs : SameSignal c c') : c'.Coherent := by
  rw [Coherent, hs.state.excState, hs.exception]
  exact h

/-! ### Raising and landing -/

/-- Whoever lands handles an exception or finalizes because of it. -/
theorem land_coherent (he : c.exception ≠ none) : (c.land k).Coherent := by
  have hland : (c.land k).exception ≠ none := by
    rw [(land_slots k).exception]
    exact he
  refine iff_of_false ?_ hland
  unfold land splice
  split
  · exact nofun
  · split <;> exact nofun

theorem resume_coherent (he : c.exception ≠ none) (h : c.resume f = some c') : c'.Coherent := by
  obtain ⟨c₁, h₁, rfl⟩ := Option.map_eq_some_iff.1 h
  exact land_coherent ((popUntil_slots h₁).exception ▸ he)

theorem settle_coherent : c.settle.Coherent := iff_of_true rfl rfl

theorem deliver_coherent (he : c.exception ≠ none) (h : c.deliver = some c') : c'.Coherent := by
  unfold deliver at h
  split at h
  · obtain ⟨c₁, h₁, h₂⟩ := Option.bind_eq_some_iff.1 h
    have he₁ : c₁.exception ≠ none := (popUntil_slots h₁).exception ▸ he
    exact resume_coherent (c := { c₁ with chain := c₁.chain.tail }) he₁ h₂
  · split at h
    · next f rest _ =>
      exact resume_coherent (c := { c with context := { c.context with markers := rest } }) he h
    · cases h
      exact settle_coherent

/-- After a raise the two agree, whatever was before. -/
theorem raise_coherent {e : ClassId} {message : Value} (h : c.raise e message = some c') :
    c'.Coherent := by
  unfold raise at h
  split at h
  · exact deliver_coherent (c := { c with exception := some e, excMessage := message }) nofun h
  · next he => exact deliver_coherent (fun hnone => he (by rw [hnone]; rfl)) h

/-- No instruction sets one of the two without the other, if an exception is in flight whenever
a return goes on at a marker. -/
theorem Move.coherent (h : c.Move op p c') (hc : c.Coherent)
    (hlands : op = .leave → c.topMarker? ≠ none → c.exception ≠ none) : c'.Coherent := by
  cases h with
  | call hop hcall =>
    cases hcall with
    | deed hd =>
      rcases hd with rfl | ⟨base, code, targetClass, rfl⟩ | ⟨e, message, hr⟩
      · exact hc
      · exact hc
      · exact raise_coherent hr
    | entered => exact hc
  | take => exact iff_of_true rfl rfl
  | @resume f _ htop hr =>
    have he : c.exception ≠ none := hlands rfl (htop ▸ Option.some_ne_none f)
    exact resume_coherent (c := { c with chain := c.chain.tail }) he hr
  | settle => exact settle_coherent
  | back => exact hc.same pop_sameSignal
  | _ => exact hc

/-! ### Passes that wait -/

/-- A pass that waits for a constructor pass, which began with an exception in flight or without
one, as `inFlight` says. -/
def WaitsSince (inFlight : Bool) (s : Suspension) : Prop :=
  ∃ x made w duties, s.duties = .construct x made w :: duties ∧ (∀ d ∈ duties, IsPlain d) ∧
    (x.excState = .normal ↔ inFlight = false)

/-- Whether an exception was in flight when the passes began that others wait for, newest first,
after a part of a tick that has led to `c`. -/
def begunAfter (ph ph' : Phase) (begun : List Bool) (c : Control) : List Bool :=
  match ph, ph' with
  | .ready, .ready => c.exception.isSome :: begun
  | .ended, .settling => begun.tail
  | _, _ => begun

theorem Turn.waits (h : Turn ph c ph' c') (hc : c.Coherent)
    (hw : List.Forall₂ WaitsSince begun c.suspended) :
    List.Forall₂ WaitsSince (begunAfter ph ph' begun c') c'.suspended := by
  have hsuspended := h.suspended
  cases h with
  | entered hi hmove =>
    obtain ⟨x, made, w, duties, base, argc, hx, hplain, rfl⟩ := hmove.eq_enter
    refine .cons ⟨x, made, w, duties, rfl, hplain, ?_⟩ hw
    have hstate : x.excState = c.context.excState := congrArg (·.excState) hx
    rw [hstate]
    exact hc.trans (Option.isSome_eq_false_iff.trans Option.isNone_iff_eq_none).symm
  | resumed =>
    obtain ⟨s, hs⟩ := hsuspended
    rw [hs] at hw
    cases hw with
    | cons _ hrest => exact hrest
  | _ => exact Eq.substr hsuspended hw

/-- A pass is taken up again with the state that it had, unless it raises what is pending. -/
theorem coherent_of_resumePass {inFlight : Bool} {s : Suspension} {rest : List Suspension}
    (hr : c.resumePass s rest = some c') (hs : WaitsSince inFlight s) :
    c.pending ≠ none ∧ c'.Coherent ∨
      c.pending = none ∧ c'.pending = none ∧ (c'.Coherent ↔ c.exception.isSome = inFlight) := by
  obtain ⟨x, made, w, duties, hd, hplain, hstate⟩ := hs
  rw [Control.resumePass, hd] at hr
  obtain ⟨c₁, h₁, h₂⟩ := Option.bind_eq_some_iff.1 hr
  rw [endDuties_of_plain hplain] at h₂
  cases h₂
  simp only [endDuty] at h₁
  split at h₁
  · next e he =>
    have hpending : c.pending = some e := he
    exact .inl ⟨hpending ▸ Option.some_ne_none e, raise_coherent h₁⟩
  · next hnone =>
    cases h₁
    refine .inr ⟨hnone, hnone, ?_⟩
    have hiff : Coherent { c with suspended := rest, context := x.bare } ↔
        (inFlight = false ↔ c.exception = none) := iff_congr hstate Iff.rfl
    refine hiff.trans ?_
    cases inFlight <;> cases c.exception <;> simp

theorem Turn.coherent (h : Turn ph c ph' c') (hc : c.Coherent)
    (hw : List.Forall₂ WaitsSince begun c.suspended)
    (hlands : ph = .ready → ∀ i, c.next? = some i → i.op = .leave → c.topMarker? ≠ none →
      c.exception ≠ none)
    (hends : ph = .ended → c.pending = none → ∀ e ∈ begun.head?, c.exception.isSome = e) :
    c'.Coherent := by
  cases h with
  | same hi hmove => exact hmove.coherent hc (hlands rfl _ hi)
  | entered hi hmove => exact hmove.coherent hc (hlands rfl _ hi)
  | finished hi hmove => exact hmove.coherent hc (hlands rfl _ hi)
  | settled => exact hc
  | unwound _ hu => exact hc.same (popUntil_sameSignal hu)
  | resumed hs hr =>
    rw [hs] at hw
    cases hw with
    | cons hfirst _ =>
      rcases coherent_of_resumePass hr hfirst with ⟨-, h⟩ | ⟨hpending, -, hiff⟩
      · exact h
      · exact hiff.2 (hends rfl hpending _ rfl)

end Control

namespace Machine

variable {m m' a : Machine} {f : FrameId} {ph ph' : Phase} {owned : List Value} {begun : List Bool}
  {v : Value}

/-! ### Parts of a tick -/

/-- To go on at a marker needs an exception in flight. -/
theorem resumeAt_inFlight : Leads AnyFault (resumeAt f) m fun _ m' => m'.exception ≠ none := by
  have hfree : ∀ m₁ : Machine, ¬m₁.exception.isNone →
      Leads AnyFault (freeFrame f) m₁ fun _ m₂ => m₂.exception ≠ none := by
    intro m₁ hsome
    refine (freeFrame_control f).mono fun _ m₂ h₂ hnone => hsome ?_
    have hsame : m₂.exception = m₁.exception := congrArg Control.exception h₂
    rw [← hsame, hnone]
    rfl
  simp only [resumeAt, modifyContext, Leads.bind_eq, Leads.get_eq, Leads.modify_eq]
  refine (Leads.named _).mono fun _ m₁ _ => ?_
  split
  · simp only [Leads.bind_eq, Leads.modify_eq, Leads.get_eq]
    split
    · trivial
    · next hsome =>
      simp only [Leads.bind_eq, Leads.modify_eq]
      exact hfree _ hsome
  · simp only [Leads.bind_eq, Leads.modify_eq, Leads.get_eq]
    refine (Leads.named _).mono fun _ m₂ _ => ?_
    split
    · trivial
    · next hsome =>
      simp only [Leads.bind_eq, Leads.modify_eq]
      exact hfree _ hsome

theorem leave_inFlight (r : Int64) :
    Leads AnyFault (leave r) m fun _ _ => m.topMarker? ≠ none → m.exception ≠ none := by
  simp only [leave, Leads.bind_eq, Leads.get_eq]
  split
  · next f _ =>
    simp only [Leads.bind_eq, Leads.modify_eq, Leads.pure_eq]
    refine ((resumeAt_inFlight (f := f)).and (resumeAt_control f)).mono ?_
    rintro _ m₁ ⟨hsome, hc₁⟩ -
    have hsame : m₁.exception = m.exception := (Control.resume_slots hc₁).exception
    exact hsame ▸ hsome
  · next hnone => exact (Leads.named _).mono fun _ _ _ htop => absurd hnone htop

theorem fetch_step_inFlight (hm : Ledger True 0 [] owned m) :
    Leads AnyFault (fetch >>= step) m fun _ _ => ∀ i, m.control.next? = some i → i.op = .leave →
      m.control.topMarker? ≠ none → m.control.exception ≠ none := by
  rw [Leads.bind_eq]
  refine ((fetch_ledger hm).imp (fun _ _ _ => trivial) fun _ _ h => h).mono ?_
  rintro i m₁ ⟨-, hi, hc₁⟩
  have hleave : i.op = .leave → Leads AnyFault (step i) m₁ fun _ _ =>
      m₁.topMarker? ≠ none → m₁.exception ≠ none := by
    intro hop
    simp only [step, hop, Leads.bind_eq]
    exact leave_inFlight i.a
  by_cases hop : i.op = .leave
  · refine (hleave hop).mono fun _ _ h i' hi' _ => ?_
    have htop : m₁.topMarker? = m.control.topMarker? := (topMarker?_control m₁).trans (hc₁ ▸ rfl)
    have hexc : m₁.exception = m.control.exception := congrArg Control.exception hc₁
    rwa [htop, hexc] at h
  · refine (Leads.named _).mono fun _ _ _ i' hi' hop' => absurd ?_ hop
    cases hi.symm.trans hi'
    exact hop'

/-- If the next instruction ends a constructor pass, then an exception is in flight just when one
was at the start of this pass. -/
def Restores (begun : List Bool) (m : Machine) : Prop :=
  ∀ v n, (fetch >>= step) m = .ok (.finished v) n → ∀ e ∈ begun.head?, m.exception.isSome = e

/-- State and exception agree, and `begun` tells how the passes began that others wait for. -/
structure Attends (ph : Phase) (begun : List Bool) (m : Machine) : Prop where
  coherent : m.control.Coherent
  waits : List.Forall₂ Control.WaitsSince begun m.suspended
  ends : ph = .ended → m.pending = none → ∀ e ∈ begun.head?, m.exception.isSome = e

theorem Advance.attends (h : Advance ph m ph' m') (hm : Steady ph owned m)
    (hrestores : ph = .ready → m.Restores begun) (hh : Attends ph begun m) :
    Attends ph' (Control.begunAfter ph ph' begun m'.control) m' := by
  have hturn := (h.turn hm).1
  have hlands : ph = .ready → ∀ i, m.control.next? = some i → i.op = .leave →
      m.control.topMarker? ≠ none → m.control.exception ≠ none := by
    rintro rfl
    cases h with
    | same h => exact (fetch_step_inFlight (hm.books nofun)).of_ok h
    | entered h => exact (fetch_step_inFlight (hm.books nofun)).of_ok h
    | finished h => exact (fetch_step_inFlight (hm.books nofun)).of_ok h
  refine ⟨hturn.coherent hh.coherent hh.waits hlands hh.ends, hturn.waits hh.coherent hh.waits, ?_⟩
  rintro rfl hpending
  cases h with
  | @finished _ _ v h =>
    obtain ⟨-, i, -, hmove⟩ := (fetch_step_stepped (hm.books nofun)).of_ok h
    have hsame : m'.exception = m.exception := congrArg Control.exception hmove.of_over.1
    rw [hsame]
    exact hrestores rfl v m' h
  | unwound h =>
    obtain ⟨-, hsome, hu⟩ := (concludeStep_ledger (hm.books nofun)).of_ok h
    exact absurd ((Control.popUntil_slots hu).pending.symm.trans hpending) hsome

/-- How the waiting passes began, after a tick that has led from `m` to `m'`. -/
def recollect (begun : List Bool) (m m' : Machine) : List Bool :=
  (m.exception.isSome :: begun).drop (m.suspended.length + 1 - m'.suspended.length)

theorem Course.attends (h : Course (fun ph n _ _ => ph = .ready → n = m) m ph m')
    (hm : Reachable true owned m) (hrestores : m.Restores begun) (hh : Attends .ready begun m) :
    m'.suspended.length ≤ m.suspended.length + 1 ∧ Attends ph (recollect begun m m') m' := by
  have hstart : recollect begun m m = begun := by
    rw [recollect, Nat.add_sub_cancel_left]
    rfl
  induction h with
  | began => exact ⟨Nat.le_succ _, hstart.symm ▸ hh⟩
  | @next ph ph' n n' hcourse hok hadvance ih =>
    obtain ⟨hle, hn⟩ := ih
    have hsteady := hcourse.steady hm
    have hturn := (hadvance.turn hsteady).1
    have hsuspended := hturn.suspended
    have hrestores' : ph = .ready → n.Restores (recollect begun m n) := by
      intro hph
      rw [hok hph, hstart]
      exact hrestores
    have hattends := hadvance.attends hsteady hrestores' hn
    suffices h : n'.suspended.length ≤ m.suspended.length + 1 ∧
        Control.begunAfter ph ph' (recollect begun m n) n'.control = recollect begun m n' from
      ⟨h.1, h.2 ▸ hattends⟩
    have hkept : n'.suspended = n.suspended → n'.suspended.length ≤ m.suspended.length + 1 ∧
        recollect begun m n = recollect begun m n' := by
      intro heq
      rw [recollect, recollect, heq]
      exact ⟨hle, rfl⟩
    cases hadvance with
    | entered h =>
      obtain rfl := hok rfl
      obtain ⟨-, i, -, hmove⟩ := (fetch_step_stepped (hsteady.books nofun)).of_ok h
      obtain ⟨x, made, w, duties, base, argc, -, -, hc⟩ := hmove.eq_enter
      have hlength : n'.suspended.length = n.suspended.length + 1 :=
        congrArg (·.suspended.length) hc
      have hexc : n'.control.exception = n.exception := congrArg (·.exception) hc
      refine ⟨Nat.le_of_eq hlength, ?_⟩
      rw [Control.begunAfter, hstart, recollect, hlength, hexc, Nat.sub_self]
      rfl
    | resumed hs h =>
      obtain ⟨s, hs'⟩ := hsuspended
      have hlength : n.suspended.length = n'.suspended.length + 1 := congrArg List.length hs'
      refine ⟨by omega, ?_⟩
      rw [Control.begunAfter, recollect, recollect, List.tail_drop]
      exact congrArg (List.drop · _) (by omega)
    | _ => exact hkept hsuspended

/-- With nothing pending, the end of an instruction leaves control alone. -/
theorem finishStep_quiet (ss : List Suspension) (hm : Steady .settling owned m)
    (hpending : m.pending = none) :
    Leads AnyFault (finishStep ss) m fun _ m' => m'.control = m.control := by
  have hconclude : Leads AnyFault concludeStep m fun ended m' =>
      ended = false ∧ m'.control = m.control := by
    refine ((concludeStep_ledger (hm.books nofun)).imp (fun _ _ _ => trivial) fun _ _ h => h).mono ?_
    rintro (_ | _) m₁ ⟨-, hend⟩
    · exact ⟨rfl, hend.2⟩
    · exact absurd hpending hend.1
  cases ss <;>
  · simp only [finishStep, Leads.bind_eq]
    refine hconclude.mono ?_
    rintro _ m₁ ⟨rfl, hc₁⟩
    exact hc₁

/-- After the end of a constructor pass the two agree only if it has restored the exception. -/
theorem restores_of_coherent (hm : Reachable true owned m) (hh : Attends .ready begun m)
    (ht : Machine.tick m = .ok none m') (hc : m'.control.Coherent) : m.Restores begun := by
  intro v n h e he
  have hready := Machine.Reachable.steady hm
  obtain ⟨-, hn⟩ := (Advance.finished h).turn hready
  obtain ⟨-, i, -, hmove⟩ := (fetch_step_stepped (hready.books nofun)).of_ok h
  have hsame : n.control = m.control.goto (m.control.context.pc + 1) := hmove.of_over.1
  have hexc : n.exception = m.exception := congrArg Control.exception hsame
  obtain ⟨s, rest, hs, hsince⟩ : ∃ s rest, n.suspended = s :: rest ∧ Control.WaitsSince e s := by
    obtain ⟨later, rfl⟩ : ∃ later, begun = e :: later := List.head?_eq_some_iff.1 he
    obtain ⟨s, rest, hfirst, -, hs⟩ := List.forall₂_cons_left_iff.1 hh.waits
    exact ⟨s, rest, (congrArg Control.suspended hsame).trans hs, hfirst⟩
  have hleads : Leads AnyFault Machine.tick m fun _ m' =>
      m'.control.Coherent → m.exception.isSome = e := by
    have hstep := Leads.named (m := m) (fetch >>= step)
    rw [Leads.bind_eq] at hstep
    simp only [Machine.tick, Leads.bind_eq]
    refine hstep.mono fun i m₀ h₀ => h₀.mono fun p m₁ h₁ => ?_
    cases h₁.symm.trans h
    simp only [endPass, Leads.bind_eq, Leads.get_eq, hs]
    refine (Leads.named _).mono fun _ m₂ h₂ => ?_
    obtain ⟨hturn, hm₂⟩ := (Advance.resumed hs h₂).turn hn
    generalize hc₂ : m₂.control = c₂ at hturn
    generalize hc₁ : n.control = c₁ at hturn
    cases hturn with
    | resumed hs' hr =>
      subst hc₁
      obtain ⟨rfl, rfl⟩ := List.cons.inj (hs'.symm.trans hs)
      have hnone : n.control.pending = none := (congrArg (·.pending) hsame).trans hready.standing.2
      rcases Control.coherent_of_resumePass hr hsince with ⟨hsome, -⟩ | ⟨-, hpending, hiff⟩
      · exact absurd hnone hsome
      · have hpending₂ : m₂.pending = none := (congrArg (·.pending) hc₂).trans hpending
        refine (finishStep_quiet _ hm₂ hpending₂).mono fun _ m₃ hc₃ hcoherent => ?_
        rw [hc₃, hc₂] at hcoherent
        exact hexc ▸ hiff.1 hcoherent
  exact hleads.of_ok ht hc

/-! ### Runs -/

/-- Constructor passes restore the exception in flight. The notes tell for every pass that waits
whether an exception was in flight when the pass it waits for began. -/
def heed : Discipline (List Bool) :=
  .onValid (fun begun m => m.Restores begun) [] recollect

/-- The machines of a host that runs valid code in which constructor passes restore the exception
in flight. -/
abbrev Heedful := Disciplined heed

/-- Leaving a unit drops the exception in flight, with its state. -/
theorem leaveUnit_relaxes (h : m.control.Coherent) :
    Leads AnyFault (leaveUnit v) m fun _ m' =>
      m'.context.excState = .normal ∧ m'.exception = none := by
  simp only [leaveUnit_eq, Leads.bind_eq, Leads.get_eq]
  refine dropAllMarkers_control.mono fun _ m₁ hc₁ => ?_
  refine (scrubAbove_control 0).mono fun _ m₂ hc₂ => ?_
  have hc := hc₂.trans hc₁
  split
  · rw [Leads.bind_eq]
    refine clearException_control.mono fun _ m₃ hc₃ => ?_
    refine (answer_control v).mono fun _ m₄ hc₄ => ?_
    exact ⟨congrArg (·.context.excState) (hc₄.trans hc₃), congrArg (·.exception) (hc₄.trans hc₃)⟩
  · next hexception =>
    have hnone : m₂.exception = none := by simpa using hexception
    refine (answer_control v).mono fun _ m₃ hc₃ => ?_
    have hsame := hc₃.trans hc
    have hexc : m₃.exception = m.control.exception := congrArg (·.exception) hsame
    have hstate : m₃.context.excState = m.control.context.excState :=
      congrArg (·.context.excState) hsame
    have hnone' : m.control.exception = none := (congrArg (·.exception) hc).symm.trans hnone
    exact ⟨hstate.trans (h.2 hnone'), hexc.trans hnone'⟩

/-- While a unit runs, state and exception agree; when none runs, there is no exception. -/
theorem Heedful.attends {running : Bool} (h : Heedful running owned begun m) :
    match running with
    | true => Attends .ready begun m
    | false => m.context.excState = .normal ∧ m.exception = none := by
  induction h with
  | new _ h =>
    have hc := create_control h
    exact ⟨congrArg (·.context.excState) hc, congrArg (·.exception) hc⟩
  | @enter _ m m' p hm haborted hpending hvalid h ih =>
    have hsane := hm.reachable.sane
    obtain ⟨-, hc⟩ := (enterUnit_ledger p.root hsane.ledger).of_ok h
    have hcoherent : (m.control.start p.root).Coherent := iff_of_true ih.1 ih.2
    have hnil : m.suspended = [] := (hsane.idle nofun).1
    refine ⟨hc ▸ hcoherent, ?_, nofun⟩
    have hsame : m'.suspended = m.suspended := congrArg (·.suspended) hc
    exact Eq.substr (hsame.trans hnil) .nil
  | tick hm hrestores h ih =>
    have hcourse : Course (fun ph n _ _ => ph = .ready → n = _) _ .ready _ :=
      Course.began.tick (fun _ _ _ _ h => h) hm.reachable h
    exact (hcourse.attends hm.reachable hrestores ih).2
  | leave hm hrestores ht h ih =>
    obtain ⟨b, hcourse, -, rfl⟩ : ∃ b,
        Course (fun ph n _ _ => ph = .ready → n = _) _ .ended b ∧ _ :=
      Course.began.tick_end (fun _ _ _ _ h => h) (Machine.Reachable.steady hm.reachable) ht
    have hb := (hcourse.attends hm.reachable hrestores ih).2.coherent
    exact (leaveUnit_relaxes (m := b.retired) hb).of_ok h
  | release _ _ h ih =>
    have hc := (release_control _).of_ok h
    exact ⟨(congrArg (·.context.excState) hc).trans ih.1, (congrArg (·.exception) hc).trans ih.2⟩
  | clearPending _ h ih =>
    have hc := clearPending_control.of_ok h
    exact ⟨(congrArg (·.context.excState) hc).trans ih.1, (congrArg (·.exception) hc).trans ih.2⟩

end Machine

open Machine

/-- The state of an exception and the exception agree. In a run whose constructor passes restore
the exception in flight, the state is normal just when no exception is in flight, between any two
instructions; and it stays so after the next one if and only if that one restores the exception
too. When no unit runs, the state is normal and there is no exception. -/
theorem exception_coherent {running : Bool} {owned : List Value} {begun : List Bool} {m : Machine}
    (h : Heedful running owned begun m) :
    (m.context.excState = .normal ↔ m.exception = none) ∧
    (running → ∀ m', tick m = .ok none m' →
      ((m'.context.excState = .normal ↔ m'.exception = none) ↔ m.Restores begun)) ∧
    (¬running → m.context.excState = .normal ∧ m.exception = none) := by
  have hattends := h.attends
  cases running with
  | false => exact ⟨iff_of_true hattends.1 hattends.2, nofun, fun _ => hattends⟩
  | true =>
    refine ⟨hattends.coherent, fun _ m' ht => ⟨fun hc => ?_, fun hrestores => ?_⟩, nofun⟩
    · exact restores_of_coherent h.reachable hattends ht hc
    · exact (Heedful.attends (h.tick hrestores ht)).coherent

def Machine.restores (begun : List Bool) (m : Machine) : Bool :=
  match (fetch >>= step) m with
  | .ok (.finished _) _ => begun.head?.all (m.exception.isSome == ·)
  | _ => true

theorem Machine.Restores.of_check {begun : List Bool} {m : Machine} (h : m.restores begun) :
    m.Restores begun := by
  intro v n hstep e he
  rw [restores, hstep] at h
  have hall : begun.head?.all (m.exception.isSome == ·) := h
  rw [show begun.head? = some e from he] at hall
  exact beq_iff_eq.1 hall

/-- Ticks for as long as constructor passes restore the exception. -/
def Machine.attend : Nat → List Bool → Machine → Option (List Bool × Machine)
  | 0, begun, m => some (begun, m)
  | ticks + 1, begun, m =>
    match tick m with
    | .ok none m' => if m.restores begun then attend ticks (recollect begun m m') m' else none
    | _ => none

theorem Machine.Heedful.attend {ticks : Nat} {owned : List Value} {begun begun' : List Bool}
    {m m' : Machine} (h : Heedful true owned begun m)
    (ha : attend ticks begun m = some (begun', m')) : Heedful true owned begun' m' := by
  induction ticks generalizing begun m with
  | zero =>
    cases ha
    exact h
  | succ ticks ih =>
    rw [Machine.attend] at ha
    split at ha
    · next m₁ ht =>
      split at ha
      · next hrestores => exact ih (h.tick (.of_check hrestores) ht) ha
      · cases ha
    · cases ha

/-- Code that handles an exception and then makes an instance of a class with an initializer. -/
def handlingNew (initializer : Array Inst) : Program where
  blocks := #[{
    registers := 6, symbols := #["Widget", "new"], children := #[1],
    code := #[⟨.loadNil, 2, 0, 0⟩, ⟨.defineClass, 1, 0, 0⟩, ⟨.runBody, 1, 0, 0⟩,
      ⟨.pushRescue, 5, 0, 0⟩, ⟨.raise, 2, 0, 0⟩, ⟨.getConstant, 1, 0, 0⟩, ⟨.send, 1, 1, 0⟩,
      ⟨.loadNil, 1, 0, 0⟩, ⟨.leave, 1, 0, 0⟩] },
    { registers := 4, symbols := #["initialize"], children := #[2],
      code := #[⟨.targetClass, 1, 0, 0⟩, ⟨.makeBlock, 2, 0, 0⟩, ⟨.defineMethod, 1, 0, 0⟩,
        ⟨.leave, 1, 0, 0⟩] },
    { registers := 4, code := initializer }]

/-- The initializer raises, and returns from its rescue body. -/
def rescuingInitializer : Program :=
  handlingNew #[⟨.pushRescue, 2, 0, 0⟩, ⟨.raise, 1, 0, 0⟩, ⟨.leave, 1, 0, 0⟩]

/-- The initializer takes the exception that its caller handles. -/
def takingInitializer : Program :=
  handlingNew #[⟨.takeException, 1, 0, 0⟩, ⟨.leave, 1, 0, 0⟩]

/-- The initializer raises again and rescues the exception that its caller handles. -/
theorem exception_coherent_rescuingInitializer :
    ∃ m m', Heedful true [] [true] m ∧ Machine.tick m = .ok none m' ∧
      m'.suspended.length + 1 = m.suspended.length ∧ m'.context.excState = .handled ∧
      m'.exception ≠ none := by
  have hrun : ∃ m₀ ∈ (create {}).toOption, ¬m₀.aborted ∧ m₀.pending = none ∧
      Leads NoFault (enterUnit rescuingInitializer.root) m₀ fun _ m₁ =>
        ∃ x ∈ attend 15 [] m₁, x.1 = [true] ∧ x.2.restores [true] ∧
          Leads NoFault Machine.tick x.2 fun r m' => r = none ∧
            m'.suspended.length + 1 = x.2.suspended.length ∧ m'.context.excState = .handled := by
    decide +kernel
  have hvalid : rescuingInitializer.defect? = none := Program.defect?_eq_none (by decide +kernel)
  obtain ⟨m₀, hm₀, haborted, hpending, henter⟩ := hrun
  obtain ⟨_, m₁, henter, ⟨_, m⟩, hattend, rfl, hrestores, ht⟩ := henter.exists_ok
  obtain ⟨_, m', ht, rfl, hlength, hstate⟩ := ht.exists_ok
  have hentered : Heedful true [] [] m₁ :=
    .enter rescuingInitializer (.new trivial (create_of_toOption hm₀)) haborted hpending hvalid henter
  have hm : Heedful true [] [true] m := hentered.attend hattend
  have hiff := ((exception_coherent hm).2.1 rfl m' ht).2 (.of_check hrestores)
  exact ⟨m, m', hm, ht, hlength, hstate, fun hnone => nomatch hstate.symm.trans (hiff.2 hnone)⟩

/-- The initializer takes the exception, and its caller is left with the state of handling it. -/
theorem state_left_takingInitializer :
    ∃ m m', Reachable false [] m ∧ takingInitializer.defect? = none ∧
      execute 18 takingInitializer m = .ok (.ok .nil) m' ∧ m'.context.excState = .handled ∧
      m'.exception = none := by
  have hrun : ∃ m ∈ (create {}).toOption, ¬m.aborted ∧ m.pending = none ∧
      Leads NoFault (runUnit 18 takingInitializer.root) m fun r m' => r = .ok .nil ∧
        m'.context.excState = .handled ∧ m'.exception = none := by decide +kernel
  have hvalid : takingInitializer.defect? = none := Program.defect?_eq_none (by decide +kernel)
  obtain ⟨m, hm, haborted, hpending, hunit⟩ := hrun
  have hleads : Leads NoFault (execute 18 takingInitializer) m fun r m' => r = .ok .nil ∧
      m'.context.excState = .handled ∧ m'.exception = none := by
    rw [execute_iff haborted hpending hvalid]
    exact hunit.imp (fun _ _ hfault => hfault.elim) fun _ _ hr => hr
  obtain ⟨_, m', hexec, rfl, hstate, hnone⟩ := hleads.exists_ok
  exact ⟨m, m', .new (create_of_toOption hm), hvalid, hexec, hstate, hnone⟩

end ObjectMachine
