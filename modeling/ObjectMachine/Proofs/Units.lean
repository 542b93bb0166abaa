import ObjectMachine.Machine.Bootstrap
import ObjectMachine.Proofs.Ticks

/-! Whole units of code, and new machines. A unit is entered, ticks until it ends, and is
left. What holds of a run is shown for any property of control that its ticks keep. -/

namespace ObjectMachine

namespace Control

def start (c : Control) (code : Code) : Control :=
  { c with context := { c.context with
      base := 0, code := some code, pc := 0, targetClass := some .object, entry := c.chain.head? } }

end Control

namespace Machine

variable {s : Prop} {l : Nat} {H : List Value} {m : Machine} {v : Value}

theorem enterUnit_ledger (code : Code) (h : Ledger s l [] H m) :
    Leads (Excused s) (enterUnit code) m fun _ m' =>
      Ledger s l [] H m' ∧ m'.control = m.control.start code := by
  have hmain : s → m.memory.Live m.topSelf :=
    fun hs => h.live_of_mem hs (by simp [roots])
  simp only [enterUnit, Leads.bind_eq, Leads.get_eq, Leads.modify_eq]
  refine (acquire_ledger h hmain).mono ?_
  rintro _ m₁ ⟨h₁, hq₁, _⟩
  refine (setReg_ledger h₁ 0).mono ?_
  rintro _ m₂ ⟨h₂, hk₂, _⟩
  refine currentSize_leads fun size => ?_
  have h₃ : Ledger s l [] H { m₂ with
      context := { m₂.context with
        base := 0, code := some code, pc := 0, targetClass := some .object
        entry := m₂.chain.head? }
      jumped := false } := h₂.turn ⟨_, _, rfl⟩ rfl
  refine Leads.mono (enterWindow_ledger h₃ 0 size) ?_
  rintro _ m₄ ⟨h₄, hq₄, _⟩
  refine ⟨h₄, ?_⟩
  have hc₄ : m₄.control = m₂.control.start code := (control_of_skeleton hq₄.1).trans rfl
  rw [hc₄, control_of_skeleton (hk₂.trans hq₁.1)]

/-- What the host owns after a unit. -/
def resultHand : Except ExecuteError Value → List Value
  | .ok v => [v]
  | .error _ => []

/-- The last act of a unit: its result is the answer unless an exception is pending. -/
def answer (v : Value) : Action (Except ExecuteError Value) := do
  match (← get).unhandled? with
  | some error =>
    release v
    return .error error
  | none => return .ok v

theorem leaveUnit_eq (v : Value) :
    leaveUnit v = (do
      dropAllMarkers
      scrubAbove 0
      if (← get).exception.isSome then clearException
      answer v) := rfl

theorem answer_ledger (h : Ledger s l [] (v :: H) m) :
    Leads (Excused s) (answer v) m fun r m' => Ledger s l [] (resultHand r ++ H) m' ∧
      m'.control = m.control ∧ ∀ cause, r ≠ .error (.fatal cause) := by
  simp only [answer, Leads.bind_eq, Leads.get_eq]
  split
  · next error herror =>
    simp only [Leads.bind_eq, Leads.pure_eq]
    refine (release_ledger h).mono ?_
    rintro _ m₁ ⟨h₁, hq₁⟩
    refine ⟨h₁, control_of_skeleton hq₁.1, ?_⟩
    obtain ⟨e, -, rfl⟩ := Option.map_eq_some_iff.1 herror
    nofun
  · exact ⟨h, rfl, nofun⟩

theorem leaveUnit_ledger (h : Ledger s l [] (v :: H) m) :
    Leads (Excused s) (leaveUnit v) m fun r m' =>
      Ledger s l [] (resultHand r ++ H) m' ∧ m'.control.context.markers = [] ∧
      m'.suspended = m.suspended ∧ ∀ cause, r ≠ .error (.fatal cause) := by
  simp only [leaveUnit_eq, Leads.bind_eq, Leads.get_eq]
  refine ((dropAllMarkers_ledger h).and dropAllMarkers_control).mono ?_
  rintro _ m₁ ⟨h₁, hc₁⟩
  refine (scrubAbove_ledger h₁ 0).mono ?_
  rintro _ m₂ ⟨h₂, hk₂⟩
  have hc₂ := (control_of_skeleton hk₂).trans hc₁
  have hm₂ : m₂.control.context.markers = [] := congrArg (·.context.markers) hc₂
  have hs₂ : m₂.suspended = m.suspended := congrArg Control.suspended hc₂
  have hend : ∀ m₃, Ledger s l [] (v :: H) m₃ → m₃.control.context.markers = [] →
      m₃.suspended = m.suspended → Leads (Excused s) (answer v) m₃ fun r m' =>
      Ledger s l [] (resultHand r ++ H) m' ∧ m'.control.context.markers = [] ∧
      m'.suspended = m.suspended ∧ ∀ cause, r ≠ .error (.fatal cause) := by
    intro m₃ h₃ hm₃ hs₃
    refine (answer_ledger h₃).mono ?_
    rintro r m₄ ⟨h₄, hc₄, hne⟩
    exact ⟨h₄, hc₄ ▸ hm₃, (congrArg Control.suspended hc₄).trans hs₃, hne⟩
  split
  · rw [Leads.bind_eq]
    refine ((clearException_ledger h₂).and clearException_control).mono ?_
    rintro _ m₃ ⟨h₃, hc₃⟩
    have hm₃ : m₃.control.context.markers = [] := by
      rw [hc₃]
      exact hm₂
    exact hend m₃ h₃ hm₃ ((congrArg Control.suspended hc₃).trans hs₂)
  · exact hend m₂ h₂ hm₂ hs₂

section Run

variable {P : Control → Prop} (hclosed : ∀ c, P c → s → c.Closed)
  (hstep : ∀ c i c', P c → c.Tick i c' false → P c')
include hclosed hstep

/-- A run keeps the books and whatever its ticks keep. -/
theorem run_ledger (ticks : Nat) (h : Ledger s l [] H m) (hP : P m.control) :
    Leads (Excused s) (run ticks) m fun r m' =>
      Ledger s l [] (r.toList ++ H) m' ∧
      match r with
      | some _ => m'.suspended = []
      | none => P m'.control := by
  induction ticks generalizing m with
  | zero => exact ⟨h, hP⟩
  | succ ticks ih =>
    simp only [run, Leads.bind_eq]
    refine (tick_ledger h (hclosed _ hP)).mono ?_
    rintro r m₁ ⟨h₁, i, hi⟩
    cases r with
    | some v => exact ⟨h₁, hi.suspended_eq_nil⟩
    | none => exact ih h₁ (hstep _ i _ hP hi)

theorem runUnit_ledger (ticks : Nat) (code : Code) (h : Ledger s l [] H m)
    (hP : P (m.control.start code)) :
    Leads (Excused s) (runUnit ticks code) m fun r m' =>
      (∀ cause, r ≠ .error (.fatal cause)) ∧ (r ≠ .error .unfinished →
        Ledger s l [] (resultHand r ++ H) m' ∧ m'.context.markers = [] ∧ m'.suspended = []) := by
  simp only [runUnit, Leads.bind_eq]
  refine (enterUnit_ledger code h).mono fun _ m₁ ⟨h₁, hc₁⟩ => ?_
  refine (run_ledger hclosed hstep ticks h₁ (hc₁ ▸ hP)).mono fun r m₂ ⟨h₂, hr⟩ => ?_
  cases r with
  | none => exact ⟨nofun, fun hne => absurd rfl hne⟩
  | some v =>
    refine (leaveUnit_ledger h₂).mono fun r m₃ ⟨h₃, hm₃, hs₃, hne⟩ => ⟨hne, fun _ => ?_⟩
    exact ⟨h₃, hm₃, hs₃.trans hr⟩

/-- An execution that ends keeps the books, and no count of references fails in it. -/
theorem execute_ledger (ticks : Nat) (p : Program) (h : Ledger s l [] H m)
    (hP : P (m.control.start p.root)) (hsuspended : m.suspended = []) :
    Leads (Excused s) (execute ticks p) m fun r m' =>
      (s → ∀ cause, r = .error (.fatal cause) → ¬(Fault.fatal cause).IsOfReleased) ∧
      (r ≠ .error .unfinished → (∀ cause, r ≠ .error (.fatal cause)) →
        Ledger s l [] (resultHand r ++ H) m' ∧ m'.suspended = [] ∧
          (m' = m ∨ m'.context.markers = [])) := by
  have hrefuse : ∀ e : ExecuteError, (∀ cause, e ≠ .fatal cause) →
      (s → ∀ cause, Except.error (α := Value) e = .error (.fatal cause) →
        ¬(Fault.fatal cause).IsOfReleased) ∧
      (Except.error (α := Value) e ≠ .error .unfinished →
        (∀ cause, Except.error (α := Value) e ≠ .error (.fatal cause)) →
        Ledger s l [] (resultHand (.error e) ++ H) m ∧ m.suspended = [] ∧
          (m = m ∨ m.context.markers = [])) :=
    fun e he => ⟨fun _ cause hcause => absurd (Except.error.inj hcause) (he cause),
      fun _ _ => ⟨h, hsuspended, .inl rfl⟩⟩
  simp only [execute, Leads.bind_eq, Leads.get_eq]
  split
  · exact hrefuse _ nofun
  · split
    · exact hrefuse _ nofun
    · split
      · exact hrefuse _ nofun
      · rw [Leads.bind_eq, Leads.tryCatch_eq, Leads.bind_eq]
        refine (runUnit_ledger hclosed hstep ticks p.root h hP).imp (fun e m₁ he => ?_) ?_
        · split
          · next cause =>
            refine ⟨fun hs cause' hcause => ?_, fun _ hne => absurd rfl (hne cause)⟩
            cases hcause
            exact he.released hs
          · exact Excused.mk he.overdrawn he.released he.method
        · intro r m₁ ⟨hfatal, hr⟩
          refine ⟨fun hs cause hcause => absurd hcause (hfatal cause), fun hne _ => ?_⟩
          obtain ⟨h₁, hm₁, hs₁⟩ := hr hne
          exact ⟨h₁, hs₁, .inr hm₁⟩

end Run

/-! ### New machines -/

theorem blank_ledger (c : Config) : Ledger s 0 [] [] (blank c) where
  balanced := ⟨Int.le_refl 0, rfl, rfl, nofun, fun _ => Int.le_refl 0, trivial⟩
  form := ⟨nofun, nofun, fun id => rfl, List.nodup_nil⟩
  manned f := .of_none rfl
  exact hs := by
    refine ⟨fun r => ?_, fun _ => rfl, fun _ => rfl, fun id p => nofun⟩
    have hregs : tally r (blank c).regs.toList = 0 := by
      simp only [blank, tally, Array.toList_replicate, List.count_eq_zero, List.mem_filterMap,
        List.mem_replicate]
      rintro ⟨v, ⟨-, rfl⟩, hv⟩
      cases hv
    rw [List.nil_append, tally_roots, hregs]
    rfl
  depth := rfl

theorem defineClasses_ledger (cs : List (Text × ClassId)) (h : Ledger s l [] H m) :
    Leads (Excused s) (defineClasses cs) m fun _ m' =>
      Ledger s l [] H m' ∧ m'.control = m.control := by
  induction cs generalizing m with
  | nil => exact ⟨h, rfl⟩
  | cons x cs ih =>
    obtain ⟨name, super⟩ := x
    simp only [defineClasses, Leads.bind_eq, Leads.discard_eq]
    refine (defineClass_ledger name _ h).mono fun _ m₁ ⟨h₁, hc₁⟩ => ?_
    exact (ih h₁).mono fun _ m₂ ⟨h₂, hc₂⟩ => ⟨h₂, hc₂.trans hc₁⟩

theorem defineNatives_clerical {B : MethodBody → Prop} (ns : List (ClassId × Text × Native))
    (hns : ∀ x ∈ ns, B (.native x.2.2)) : Clerical B (defineNatives ns) := by
  induction ns with
  | nil => exact .of_pure ()
  | cons x ns ih =>
    obtain ⟨hx, hns⟩ := List.forall_mem_cons.1 hns
    exact (defineNative?_clerical x.1 x.2.1 hx).of_discard.bind fun _ => ih hns

theorem defineNatives_ledger (ns : List (ClassId × Text × Native))
    (hns : ∀ x ∈ ns, ∀ p, x.2.2 ≠ .probe p) (h : Ledger s l [] H m) :
    Leads (Excused s) (defineNatives ns) m fun _ m' =>
      Ledger s l [] H m' ∧ m'.control = m.control := by
  induction ns generalizing m with
  | nil => exact ⟨h, rfl⟩
  | cons x ns ih =>
    obtain ⟨c, name, native⟩ := x
    simp only [defineNatives, Leads.bind_eq, Leads.discard_eq]
    refine (defineNative?_ledger c name h fun _ => hns _ List.mem_cons_self).mono ?_
    intro _ m₁ ⟨h₁, hc₁⟩
    exact (ih (fun y hy => hns y (List.mem_cons_of_mem _ hy)) h₁).mono
      fun _ m₂ ⟨h₂, hc₂⟩ => ⟨h₂, hc₂.trans hc₁⟩

theorem noProbe_of_coreMethods : ∀ x ∈ coreMethods ++ debugMethods, ∀ p, x.2.2 ≠ .probe p := by
  intro x hx p hp
  have hall : (coreMethods ++ debugMethods).all fun x => match x.2.2 with
      | .probe _ => false
      | _ => true := by decide
  have := List.all_eq_true.1 hall x hx
  simp [hp] at this

/-! Nothing but the end of the setup names the main object. -/

theorem topSelf_of_skeleton {m' : Machine} (h : m'.skeleton = m.skeleton) :
    m'.topSelf = m.topSelf :=
  show m'.skeleton.topSelf = m.skeleton.topSelf from h ▸ rfl

theorem onMemory_topSelf (change : Memory → Memory × Option Fault) :
    Leads AnyFault (onMemory change) m fun _ m' => m'.topSelf = m.topSelf := by
  simp only [onMemory, Leads.bind_eq, Leads.modifyGet_eq]
  split
  · trivial
  · rfl

theorem Clerical.topSelf {α : Type} {x : Action α} (hx : Clerical (fun _ => True) x) :
    Leads AnyFault x m fun _ m' => m'.topSelf = m.topSelf := by
  refine (hx.amends m).imp (fun _ _ _ => trivial) fun _ _ h =>
    h.keeps (R := fun n => n.topSelf = m.topSelf) (fun _ _ hamends hn => ?_) rfl
  cases hamends <;> exact hn

theorem setConstant_topSelf (k : Symbol) (v : Value) :
    Leads AnyFault (setConstant k v) m fun _ m' => m'.topSelf = m.topSelf := by
  have hacquire : Leads AnyFault (acquire v) m fun _ m' => m'.topSelf = m.topSelf := by
    unfold acquire
    split
    · rfl
    · exact onMemory_topSelf _
  simp only [setConstant, Leads.bind_eq, Leads.get_eq]
  refine hacquire.mono fun _ m₁ h₁ => ?_
  split
  · simp only [release, Leads.bind_eq, Leads.modify_eq]
    split
    · exact h₁
    · exact (onMemory_topSelf _).mono fun _ m₂ h₂ => h₂.trans h₁
  · exact h₁

theorem defineClass_topSelf (name : Text) (super : Option ClassId) :
    Leads AnyFault (defineClass name super) m fun _ m' => m'.topSelf = m.topSelf := by
  simp only [defineClass, intern, Leads.bind_eq, Leads.modifyGet_eq, Leads.get_eq]
  split
  · rfl
  · trivial
  · simp only [Leads.bind_eq, Leads.get_eq]
    split
    · simp only [Leads.bind_eq, Leads.set_eq, Leads.pure_eq]
      exact Leads.mono (setConstant_topSelf _ _) fun _ _ h => h
    · trivial

theorem defineClasses_topSelf (cs : List (Text × ClassId)) :
    Leads AnyFault (defineClasses cs) m fun _ m' => m'.topSelf = m.topSelf := by
  induction cs generalizing m with
  | nil => rfl
  | cons x cs ih =>
    simp only [defineClasses, Leads.bind_eq, Leads.discard_eq]
    exact (defineClass_topSelf _ _).mono fun _ m₁ h₁ => ih.mono fun _ m₂ h₂ => h₂.trans h₁

/-- The main object is held by the machine itself. -/
theorem Ledger.setMain (h : Ledger s l [] (v :: H) m) (hmain : m.topSelf = .nil) :
    Ledger s l [] H { m with topSelf := v } := by
  refine ⟨⟨h.balanced, ⟨h.form.framed, h.form.marked, h.form.held, h.form.linked⟩,
    fun hs => ⟨?_, ?_⟩⟩, h.depth, h.manned⟩
  · refine (h.exact hs).counts.of_tally fun r => ?_
    rw [List.cons_append, tally_cons r v]
    simp only [tally_append, tally_roots, duties, tally_nil_value, hmain]
    omega
  · have hproper := (h.exact hs).proper
    exact ⟨hproper.noException, hproper.noPending, hproper.noProbe⟩

theorem bootstrap_ledger (h : Ledger s l [] H m) (hmain : m.topSelf = .nil) :
    Leads (Excused s) bootstrap m fun _ m' =>
      Ledger s l [] H m' ∧ m'.control = m.control := by
  have hcore : ∀ x ∈ coreMethods, ∀ p, x.2.2 ≠ .probe p :=
    fun x hx => noProbe_of_coreMethods x (List.mem_append_left _ hx)
  have hdebug : ∀ x ∈ debugMethods, ∀ p, x.2.2 ≠ .probe p :=
    fun x hx => noProbe_of_coreMethods x (List.mem_append_right _ hx)
  have hend : ∀ m₁, Ledger s l [] H m₁ → m₁.control = m.control → m₁.topSelf = .nil →
      Leads (Excused s) (newInstance .object) m₁ fun v m₂ =>
        Leads (Excused s) (do
          if v.isNil then fatal .noMemoryForMain
          modify fun m => { m with topSelf := v }) m₂ fun _ m' =>
            Ledger s l [] H m' ∧ m'.control = m.control := by
    intro m₁ h₁ hc₁ hmain₁
    refine (newInstance_ledger h₁ _).mono fun v m₂ ⟨h₂, hq₂, _⟩ => ?_
    have hmain₂ : m₂.topSelf = .nil := (topSelf_of_skeleton hq₂.1).trans hmain₁
    split
    · exact ⟨nofun, fun _ h => h, nofun⟩
    · exact ⟨h₂.setMain hmain₂, (control_of_skeleton hq₂.1).trans hc₁⟩
  simp only [bootstrap, Leads.bind_eq, Leads.discard_eq, Leads.get_eq]
  refine (intern_ledger h _).mono fun _ m₁ ⟨h₁, hq₁, _⟩ => ?_
  refine ((defineClass_ledger _ _ h₁).and (defineClass_topSelf _ _)).mono ?_
  intro _ m₂ ⟨⟨h₂, hc₂⟩, hm₂⟩
  refine ((defineClasses_ledger _ h₂).and (defineClasses_topSelf _)).mono ?_
  intro _ m₃ ⟨⟨h₃, hc₃⟩, hm₃⟩
  refine (intern_ledger h₃ _).mono fun _ m₄ ⟨h₄, hq₄, _⟩ => ?_
  refine (intern_ledger h₄ _).mono fun _ m₅ ⟨h₅, hq₅, _⟩ => ?_
  refine ((defineNatives_ledger _ hcore h₅).and
    (defineNatives_clerical _ fun _ _ => trivial).topSelf).mono ?_
  intro _ m₆ ⟨⟨h₆, hc₆⟩, hm₆⟩
  have hq : m₅.skeleton = m₃.skeleton := hq₅.1.trans hq₄.1
  have hc : m₆.control = m.control := by
    rw [hc₆, control_of_skeleton hq, hc₃, hc₂, control_of_skeleton hq₁.1]
  have hm : m₆.topSelf = .nil := by
    rw [hm₆, topSelf_of_skeleton hq, hm₃, hm₂, topSelf_of_skeleton hq₁.1, hmain]
  split
  · simp only [Leads.bind_eq]
    refine ((defineNatives_ledger _ hdebug h₆).and
      (defineNatives_clerical _ fun _ _ => trivial).topSelf).mono ?_
    intro _ m₇ ⟨⟨h₇, hc₇⟩, hm₇⟩
    exact hend m₇ h₇ (hc₇.trans hc) (hm₇.trans hm)
  · rw [Leads.bind_eq]
    exact hend m₆ h₆ hc hm

/-- A new machine has its books in order, and nothing runs on it. -/
theorem create_ledger {c : Config} (h : create c = .ok m) :
    Ledger s 0 [] [] m ∧ m.suspended = [] ∧ m.context.markers = [] ∧ m.chain = [] := by
  unfold create at h
  have hboot := bootstrap_ledger (s := s) (blank_ledger (effective c)) rfl
  split at h
  · next m' hm' =>
    cases h
    obtain ⟨h₁, hc₁⟩ := hboot.of_ok hm'
    exact ⟨h₁, congrArg Control.suspended hc₁, congrArg (·.context.markers) hc₁,
      congrArg Control.chain hc₁⟩
  · cases h

theorem create_of_toOption {c : Config} (h : (create c).toOption = some m) : create c = .ok m := by
  cases hm : create c with
  | ok m₁ =>
    rw [hm] at h
    cases h
    rfl
  | error e =>
    rw [hm] at h
    cases h

/-- What an idle machine makes of the faults of a unit of valid code. -/
theorem execute_iff {p : Program} {ticks : Nat} {E : Fault → Machine → Prop}
    {Q : Except ExecuteError Value → Machine → Prop} (haborted : ¬m.aborted)
    (hpending : m.pending = none) (hvalid : p.defect? = none) :
    Leads E (execute ticks p) m Q ↔ Leads (fun e m' =>
      match e with
      | .fatal cause => Q (.error (.fatal cause)) { m' with aborted := true, suspended := [] }
      | e => E e { m' with suspended := [] }) (runUnit ticks p.root) m Q := by
  simp only [execute, Leads.bind_eq, Leads.get_eq, if_neg haborted, hpending,
    Option.isSome_none, Bool.false_eq_true, if_false, hvalid, Leads.tryCatch_eq]
  refine ⟨fun h => h.imp (fun e _ he => ?_) fun _ _ hr => hr,
    fun h => h.imp (fun e _ he => ?_) fun _ _ hr => hr⟩
  · cases e <;> exact he
  · cases e <;> exact he

end Machine

end ObjectMachine
