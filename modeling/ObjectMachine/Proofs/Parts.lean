import ObjectMachine.Proofs.Instructions
import ObjectMachine.Proofs.Nesting

/-! What the parts of a tick do outside control. The end of an instruction gives up registers
above a window that was entered or left. A constructor pass that is over drops its own markers
and hands the ones of its caller back; then it returns the instance, or raises in the context
of the caller what it left pending. -/

namespace ObjectMachine

/-- Registers from `low` on are given up, and the mark is lowered. -/
def Permit.trim (low : Int) : Permit := { clearFrom low with trims := True }

namespace Machine

variable {P : Permit} {m m₁ m' : Machine} {v : Value} {w : Window}

/-! ### The end of an instruction -/

theorem scrubAbove_works (low : Int) (top : Int64) (h : 0 ≤ top.toInt → low ≤ top.toInt) :
    Leads AnyFault (scrubAbove top) m fun _ m' => Works (.trim low) m m' := by
  simp only [scrubAbove, Leads.bind_eq, Leads.get_eq]
  have hscrub : Tame (.trim low) (scrub top (span top m.regHigh)) :=
    (scrub_tame top _ h).mono { clears := fun _ hi => hi }
  refine (hscrub m).mono fun _ m₁ h₁ => ?_
  split
  · refine h₁.trans ⟨⟨rfl, fun _ => .inl rfl, .inl trivial, fun _ _ h => h, fun _ _ h => .inl h,
      fun _ => .inl rfl⟩, rfl, rfl⟩
  · exact h₁

/-- Registers that the end of an instruction may clear: those above a window that was entered
or left. -/
def leftovers (m : Machine) : Permit :=
  { Permit.nothing with
    clears := fun j => m.jumped ∧ ∃ code, m.context.code = some code ∧
      0 ≤ (m.context.base + code.block.registers).toInt ∧
      (m.context.base + code.block.registers).toInt ≤ j.toInt
    trims := m.jumped }

/-- A part of a tick that pushes no frame. -/
structure Goes (P : Permit) (m m' : Machine) : Prop where
  alters : Alters P m m'
  lasting : Lasting [] [] m m'
  size : m'.frames.size = m.frames.size

theorem Goes.trans (h : Goes P m m₁) (h' : Goes P m₁ m') : Goes P m m' :=
  ⟨h.alters.trans h'.alters, h.lasting.trans h'.lasting, h'.size.trans h.size⟩

theorem Works.goes (h : Works P m m') : Goes P m m' :=
  ⟨h.toAlters, .of_core h.core, congrArg Array.size (frames_of_core h.core)⟩

theorem Steers.goes (h : Steers [] [] m m') (hsize : m'.frames.size = m.frames.size) : Goes P m m' :=
  ⟨h.alters.mono (Permit.nothing_within P), h.lasting, hsize⟩

theorem unwindTo_steers_size (target : Option FrameId) :
    Leads AnyFault (unwindTo target) m fun _ m' =>
      Steers [] [] m m' ∧ m'.frames.size = m.frames.size := by
  refine ((unwindTo_steers (l := []) target).and (unwindTo_control target)).mono ?_
  rintro _ m₁ ⟨h₁, hc₁⟩
  exact ⟨h₁, size_of_control (Control.popUntil_samePass hc₁).frames⟩

theorem concludeStep_goes :
    Leads AnyFault concludeStep m fun _ m' => Goes m.leftovers m m' ∧
      m'.context.callBase = m.context.callBase ∧ m'.context.callee = m.context.callee := by
  have hend : ∀ m₁, Goes m.leftovers m m₁ → m₁.context.callBase = m.context.callBase →
      m₁.context.callee = m.context.callee →
      Leads AnyFault (do
        if (← get).pending.isNone then return false
        unwindTo (← get).context.entry
        return true) m₁ fun _ m' => Goes m.leftovers m m' ∧
          m'.context.callBase = m.context.callBase ∧ m'.context.callee = m.context.callee := by
    intro m₁ h₁ hcallBase hcallee
    simp only [Leads.bind_eq, Leads.get_eq]
    split
    · exact ⟨h₁, hcallBase, hcallee⟩
    · simp only [Leads.bind_eq, Leads.get_eq, Leads.pure_eq]
      refine (unwindTo_steers_size _).mono ?_
      rintro _ m₂ ⟨h₂, hsize⟩
      exact ⟨h₁.trans (h₂.goes hsize), h₂.callBase.trans hcallBase, h₂.callee.trans hcallee⟩
  simp only [Leads.bind_eq, Leads.get_eq] at hend
  simp only [concludeStep, Leads.bind_eq, Leads.get_eq]
  split
  · next hjumped =>
    simp only [currentSize, Leads.bind_eq, Leads.modify_eq, Leads.get_eq, Leads.pure_eq]
    refine (currentCode_leads fun code hcode => ?_).forget
    -- Above a window that is not in the file nothing is cleared.
    let low := if 0 ≤ (m.context.base + code.block.registers).toInt then
      (m.context.base + code.block.registers).toInt else 2 ^ 63
    refine Leads.mono (scrubAbove_works low _ fun hle => ?_) fun _ m₁ h₁ => ?_
    · exact Int.le_of_eq (if_pos hle)
    have hwithin : (Permit.trim low).Within m.leftovers := by
      refine { clears := fun j hj => ⟨hjumped, code, hcode, ?_⟩, trims := fun _ => hjumped }
      have hj : low ≤ j.toInt := hj
      have hlt := j.toInt_lt
      by_cases hle : 0 ≤ (m.context.base + code.block.registers).toInt
      · rw [show low = _ from if_pos hle] at hj
        exact ⟨hle, hj⟩
      · rw [show low = _ from if_neg hle] at hj
        omega
    have hcalm : Goes m.leftovers m { m with jumped := false } :=
      ⟨.of_eq rfl rfl rfl rfl, .of_perm rfl (.refl _), rfl⟩
    exact hend m₁ (hcalm.trans (h₁.mono hwithin).goes) (by rw [h₁.names]) (by rw [h₁.names])
  · exact hend m ⟨.refl m, .refl m, rfl⟩ rfl rfl

/-- An instruction that went nowhere needs no end. -/
theorem concludeStep_of_calm (hjumped : m.jumped = false) (hpending : m.pending = none) :
    concludeStep m = .ok false m := by
  apply Leads.eq_ok
  simp only [concludeStep, Leads.bind_eq, Leads.get_eq, hjumped, Bool.false_eq_true, if_false,
    hpending, Option.isNone_none, if_true, Leads.pure_eq, and_self]

/-- The next instruction starts where nothing is left to be cleared. -/
theorem concludeStep_jumped :
    Leads AnyFault concludeStep m fun pending m' => pending = false → m'.jumped = false := by
  simp only [concludeStep, Leads.bind_eq, Leads.get_eq]
  have hend : ∀ m₁, m₁.jumped = false → Leads AnyFault (do
      if (← get).pending.isNone then return false
      unwindTo (← get).context.entry
      return true) m₁ fun pending m' => pending = false → m'.jumped = false := by
    intro m₁ h₁
    simp only [Leads.bind_eq, Leads.get_eq]
    split
    · exact fun _ => h₁
    · simp only [Leads.bind_eq, Leads.get_eq, Leads.pure_eq]
      exact (unwindTo_steers_size _).mono fun _ _ _ h => absurd h (by simp)
  simp only [Leads.bind_eq, Leads.get_eq] at hend
  split
  · simp only [currentSize, Leads.bind_eq, Leads.modify_eq, Leads.get_eq, Leads.pure_eq]
    refine (currentCode_leads fun code _ => ?_).forget
    refine Leads.mono (scrubAbove_works 0 _ id) fun _ m₁ h₁ => hend m₁ ?_
    exact (congrArg (·.jumped) h₁.core :)
  · next hjumped => exact hend m (Bool.not_eq_true _ ▸ hjumped)

/-! ### Constructor passes -/

/-- What is left to do when a constructor pass is over, below which `rest` are suspended. -/
structure Awaits (x : Context) (made : Value) (w : Window) (id : MethodId) (callBase : Int64)
    (callee : Symbol) (s : Suspension) : Prop where
  entry : s.entry = x.entry
  duties : s.duties = [.construct x made w, .leave id w callBase callee]
  callBase : x.callBase = w.base
  nonneg : 0 ≤ w.base.toInt

/-- A machine that has come back to the context of the caller, with its own markers dropped. -/
structure Returned (x : Context) (rest : List Suspension) (m m' : Machine) : Prop where
  goes : Goes .nothing m m'
  context : m'.context = x
  chain : m'.chain = m.chain
  suspended : m'.suspended = rest
  exception : m'.exception = m.exception
  pending : m'.pending = m.pending
  pendingMessage : m'.pendingMessage = m.pendingMessage
  jumped : m'.jumped = false

theorem markers_perm {s : Suspension} {rest : List Suspension} {x : Context} {made : Value}
    {id : MethodId} {callBase : Int64} {callee : Symbol} (hs : m.suspended = s :: rest)
    (h : Awaits x made w id callBase callee s) (entry : Option FrameId) :
    (x.markers ++ nodes [] { m with
      suspended := rest, context := { m.context with entry } }).Perm (m.nodes []) := by
  refine perm_of_count fun f => ?_
  simp only [nodes, savedMarkers, duties, hs, List.flatMap_cons, h.duties, Duty.markers,
    List.count_append, List.nil_append, List.cons_append]
  omega

/-- The first half of the end of a constructor pass. -/
theorem return_leads {s : Suspension} {rest : List Suspension} {x : Context} {made : Value}
    {id : MethodId} {callBase : Int64} {callee : Symbol} (hs : m.suspended = s :: rest)
    (h : Awaits x made w id callBase callee s) :
    Leads AnyFault (do
      modify fun m => { m with suspended := rest, context := { m.context with entry := s.entry } }
      dropAllMarkers
      modify fun m => { m with context := x, jumped := false }) m fun _ m' =>
      Returned x rest m m' := by
  simp only [Leads.bind_eq, Leads.modify_eq]
  refine Leads.mono ((dropAllMarkers_steers (l := x.markers)).and dropAllMarkers_control) ?_
  rintro _ m₁ ⟨⟨h₁, hchain⟩, hc₁⟩
  have hmarkers : m₁.context.markers = [] := congrArg (·.context.markers) hc₁
  have htake : Lasting [] x.markers m { m with
      suspended := rest, context := { m.context with entry := s.entry } } :=
    .of_perm rfl (markers_perm hs h s.entry)
  have hput : Lasting x.markers [] m₁ { m₁ with context := x, jumped := false } := by
    refine .of_perm rfl (perm_of_count fun f => ?_)
    simp only [nodes, savedMarkers, duties, hmarkers, List.count_append, List.nil_append,
      List.count_nil]
    omega
  have halters : Alters .nothing m { m₁ with context := x, jumped := false } := by
    have hpop : Alters .nothing m { m with
        suspended := rest, context := { m.context with entry := s.entry } } := .of_eq rfl rfl rfl rfl
    exact hpop.trans (h₁.alters.trans (.of_eq rfl rfl rfl rfl))
  refine ⟨⟨halters, htake.trans (h₁.lasting.trans hput), ?_⟩, rfl, hchain, ?_, ?_, ?_, ?_, rfl⟩
  · have hframes : m₁.control.frames = m.control.frames := by rw [hc₁]; rfl
    exact (size_of_control hframes :)
  · exact congrArg Control.suspended hc₁
  · exact congrArg Control.exception hc₁
  · exact congrArg Control.pending hc₁
  · exact congrArg Control.pendingMessage hc₁

theorem Leads.named {α : Type} (x : Action α) :
    Leads AnyFault x m fun a m' => x m = .ok a m' :=
  .intro (fun _ _ h => h) fun _ _ _ => trivial

/-- How a constructor pass comes to its end: the instance is returned, or what is pending is
raised where the pass was started, with nil in place of the instance. -/
theorem resumePass_cases {s : Suspension} {rest : List Suspension} {x : Context} {made : Value}
    {id : MethodId} {callBase : Int64} {callee : Symbol} (hs : m.suspended = s :: rest)
    (h : Awaits x made w id callBase callee s) :
    Leads AnyFault (resumePass s rest) m fun _ m' => ∃ m₀, Returned x rest m m₀ ∧
      (m.pending = none ∧ (∃ m₁, setReturn w made m₀ = .ok () m₁ ∧
        leaveNative id w callBase callee m₁ = .ok () m') ∨
      ∃ c m₁ m₂ m₃, m.pending = some c ∧
        (release made >>= fun _ => setReturn w .nil)
          { m₀ with pending := none, pendingMessage := .nil } = .ok () m₁ ∧
        raise c m.pendingMessage m₁ = .ok () m₂ ∧ release m.pendingMessage m₂ = .ok () m₃ ∧
        leaveNative id w callBase callee m₃ = .ok () m') := by
  have hreturn := return_leads hs h
  simp only [Leads.bind_eq, Leads.modify_eq] at hreturn
  simp only [resumePass, h.duties, runDuties, runDuty, endConstruct, Leads.bind_eq, Leads.modify_eq,
    Leads.get_eq, Leads.pure_eq]
  refine hreturn.mono fun _ m₁ h₁ => ?_
  split
  · next c hc =>
    simp only [Leads.bind_eq, Leads.modify_eq]
    have hrelease := Leads.named (release made >>= fun _ => setReturn w .nil)
      (m := { m₁ with context := x, jumped := false, pending := none, pendingMessage := .nil })
    rw [Leads.bind_eq] at hrelease
    refine hrelease.mono fun _ _ h₂ => h₂.mono fun _ m₃ h₃ => ?_
    refine (Leads.named _).mono fun _ m₄ h₄ => (Leads.named _).mono fun _ m₅ h₅ =>
      (Leads.named _).mono fun _ m₆ h₆ => ?_
    have hpending : m.pending = some c := h₁.pending.symm.trans hc
    have hmessage : m₁.pendingMessage = m.pendingMessage := h₁.pendingMessage
    rw [hmessage] at h₄ h₅
    exact ⟨_, h₁, .inr ⟨c, m₃, m₄, m₅, hpending, h₃, h₄, h₅, h₆⟩⟩
  · next hnone =>
    refine (Leads.named _).mono fun _ m₂ h₂ => (Leads.named _).mono fun _ m₃ h₃ => ?_
    exact ⟨_, h₁, .inl ⟨h₁.pending.symm.trans hnone, m₂, h₂, h₃⟩⟩

theorem Goes.mono {Q : Permit} (h : Goes P m m') (hPQ : P.Within Q) : Goes Q m m' :=
  ⟨h.alters.mono hPQ, h.lasting, h.size⟩

theorem leaveNative_goes (id : MethodId) (hw : 0 ≤ w.base.toInt) (callBase : Int64) (callee : Symbol) :
    Leads AnyFault (leaveNative id w callBase callee) m fun _ m' =>
      Goes (.clearFrom (w.base.toInt + 1)) m m' ∧
      m'.context = { m.context with callBase, callee } := by
  refine (leaveNative_leads id hw callBase callee).mono fun _ m₁ ⟨h₁, hcore, hcontext⟩ => ?_
  exact ⟨⟨h₁, .of_core hcore, congrArg Array.size (frames_of_core hcore)⟩, hcontext⟩

theorem raise_goes (c : ClassId) (v : Value) :
    Leads AnyFault (raise c v) m fun _ m' => Goes P m m' := by
  refine ((raise_steers (l := []) c v).and (raise_control c v)).mono fun _ m₁ ⟨h₁, hc₁⟩ => ?_
  exact h₁.goes (size_of_control (Control.raise_samePass hc₁).frames)

theorem resumePass_goes {s : Suspension} {rest : List Suspension} {x : Context} {made : Value}
    {id : MethodId} {callBase : Int64} {callee : Symbol} (hs : m.suspended = s :: rest)
    (h : Awaits x made w id callBase callee s) :
    Leads AnyFault (resumePass s rest) m fun _ m' => Goes (.call w.base) m m' ∧
      m'.context.callBase = callBase ∧ m'.context.callee = callee := by
  have hcall := Permit.nothing_within (.call w.base)
  have hstore := Permit.store_within_call w.base
  refine (resumePass_cases hs h).mono ?_
  rintro _ m' ⟨m₀, h₀, ⟨-, m₁, h₁, hleave⟩ | ⟨c, m₁, m₂, m₃, -, h₁, h₂, h₃, hleave⟩⟩
  · have hset := ((setReturn_tame (P := .store w.base) rfl made).mono hstore m₀).of_ok h₁
    obtain ⟨hend, hcontext⟩ := (leaveNative_goes id h.nonneg callBase callee).of_ok hleave
    have hend := hend.mono (Permit.clearFrom_within_call _)
    refine ⟨(h₀.goes.mono hcall).trans (hset.goes.trans hend), ?_, ?_⟩ <;> rw [hcontext]
  · have hreturn : Tame (.call w.base) (release made >>= fun _ => setReturn w .nil) :=
      (release_tame made).bind fun _ => setReturn_tame rfl .nil
    obtain ⟨hend, hcontext⟩ := (leaveNative_goes id h.nonneg callBase callee).of_ok hleave
    have hend := hend.mono (Permit.clearFrom_within_call _)
    have hforget : Goes (.call w.base) m₀ { m₀ with pending := none, pendingMessage := .nil } :=
      ⟨.of_eq rfl rfl rfl rfl, .of_perm rfl (.refl _), rfl⟩
    have hset := (hreturn _).of_ok h₁
    have hraise : Goes (.call w.base) m₁ m₂ := (raise_goes _ _).of_ok h₂
    have hrelease := (release_tame (P := .call w.base) _ m₂).of_ok h₃
    refine ⟨(h₀.goes.mono hcall).trans (hforget.trans (hset.goes.trans (hraise.trans
      (hrelease.goes.trans hend)))), ?_, ?_⟩ <;> rw [hcontext]

section Awaits

variable {s : Suspension} {rest : List Suspension} {x : Context} {made : Value} {id : MethodId}
  {callBase : Int64} {callee : Symbol}

/-- A pass that left nothing pending returns the instance. -/
theorem Awaits.quiet (h : Awaits x made w id callBase callee s) (hs : m.suspended = s :: rest)
    (hr : resumePass s rest m = .ok () m') (hnone : m.pending = none) :
    m'.context = { x with callBase, callee } ∧ m'.suspended = rest ∧ m'.chain = m.chain ∧
      m'.pending = none ∧ entryAt? m'.regs w.base = some made := by
  obtain ⟨m₀, h₀, ⟨-, m₁, h₁, hleave⟩ | ⟨c, m₁, m₂, m₃, hc, -⟩⟩ := (resumePass_cases hs h).of_ok hr
  · obtain ⟨hset, hgets, -⟩ := ((setReturn_tame (P := .store w.base) rfl made m₀).and
      (setReturn_gets w made)).of_ok h₁
    obtain ⟨hclear, hcore, hcontext⟩ := (leaveNative_leads id h.nonneg callBase callee).of_ok hleave
    have hcore₀ := hcore.trans hset.core
    refine ⟨?_, ?_, ?_, ?_, ?_⟩
    · rw [hcontext, hset.names, h₀.context]
    · exact (congrArg (·.suspended) hcore₀ : m'.suspended = m₀.suspended).trans h₀.suspended
    · exact (congrArg (·.chain) hcore₀ : m'.chain = m₀.chain).trans h₀.chain
    · exact (congrArg (·.pending) hcore₀ : m'.pending = m₀.pending).trans (h₀.pending.trans hnone)
    · refine (hclear.reg_eq (fun _ h => h.elim) fun j hj => ?_).trans hgets
      exact Int.ne_of_gt hj
  · cases hnone.symm.trans hc

/-- What a pass left pending is raised in the context of its caller, when the reference to the
instance has been dropped and nil is in its place. -/
theorem Awaits.loud (h : Awaits x made w id callBase callee s) (hs : m.suspended = s :: rest)
    (hr : resumePass s rest m = .ok () m') {c : ClassId} (hc : m.pending = some c) :
    ∃ m₀ m₁ m₂ m₃, Returned x rest m m₀ ∧
      (release made >>= fun _ => setReturn w .nil)
        { m₀ with pending := none, pendingMessage := .nil } = .ok () m₁ ∧
      m₁.context = x ∧ m₁.chain = m.chain ∧ m₁.suspended = rest ∧ m₁.pending = none ∧
      m₁.pendingMessage = .nil ∧ entryAt? m₁.regs w.base = some .nil ∧
      raise c m.pendingMessage m₁ = .ok () m₂ ∧ release m.pendingMessage m₂ = .ok () m₃ ∧
      leaveNative id w callBase callee m₃ = .ok () m' := by
  obtain ⟨m₀, h₀, ⟨hnone, -⟩ | ⟨c', m₁, m₂, m₃, hc', h₁, h₂, h₃, hleave⟩⟩ :=
    (resumePass_cases hs h).of_ok hr
  · cases hnone.symm.trans hc
  · cases hc.symm.trans hc'
    have htame : Tame (.store w.base) (release made >>= fun _ => setReturn w .nil) :=
      (release_tame made).bind fun _ => setReturn_tame rfl .nil
    have hgets : ∀ m, Leads AnyFault (release made >>= fun _ => setReturn w .nil) m fun _ m' =>
        entryAt? m'.regs w.base = some .nil := by
      intro m
      rw [Leads.bind_eq]
      exact (Leads.named _).mono fun _ _ _ => (setReturn_gets w .nil).mono fun _ _ h => h.1
    have hset := (htame _).of_ok h₁
    refine ⟨m₀, m₁, m₂, m₃, h₀, h₁, ?_, ?_, ?_, ?_, ?_, (hgets _).of_ok h₁, h₂, h₃, hleave⟩
    · exact hset.names.trans h₀.context
    · exact (congrArg (·.chain) hset.core : m₁.chain = m₀.chain).trans h₀.chain
    · exact (congrArg (·.suspended) hset.core : m₁.suspended = m₀.suspended).trans h₀.suspended
    · exact congrArg (·.pending) hset.core
    · exact congrArg (·.pendingMessage) hset.core

end Awaits

/-! ### Parts in order -/

def Orderly (m : Machine) : Prop :=
  ∀ s ∈ m.suspended, ∃ x made w id callBase callee, Awaits x made w id callBase callee s

theorem fetch_leads :
    Leads AnyFault fetch m fun i m' => m.control.next? = some i ∧ m' = m.fetched := by
  simp only [fetch, Leads.bind_eq, Leads.get_eq]
  refine (currentCode_leads fun code hcode => ?_).forget
  split
  · trivial
  · simp only [setPc, modifyContext, Leads.bind_eq, Leads.modify_eq, Leads.pure_eq]
    refine (present_leads fun i hi => ⟨?_, rfl⟩).forget
    have hcode' : m.control.context.code = some code := hcode
    rw [Control.next?, hcode']
    exact hi

/-- The next instruction acts on the machine that has fetched it. -/
theorem fetch_step_acts (hprobe : ∀ id p, (m.methodAt id).native? ≠ some (.probe p)) :
    Leads AnyFault (fetch >>= step) m fun p m' =>
      ∃ i, m.control.next? = some i ∧ Acts i m.fetched p m' := by
  rw [Leads.bind_eq]
  refine fetch_leads.mono ?_
  rintro i _ ⟨hi, rfl⟩
  exact (step_acts (m := m.fetched) i hprobe).mono fun _ _ h => ⟨i, hi, h⟩

/-- The window of a call is in the register file and below the mark. -/
theorem fetch_step_reaches (hprobe : ∀ id p, (m.methodAt id).native? ≠ some (.probe p)) :
    Leads AnyFault (fetch >>= step) m fun _ m' => ∀ i argc, m.control.next? = some i →
      i.argc? = some argc → 0 ≤ (m.context.base + i.a).toInt ∧
      (m.context.base + i.a + (argc + 2)).toInt ≤ m'.regHigh.toInt ∨ m'.regs = m.regs := by
  rw [Leads.bind_eq]
  refine fetch_leads.mono ?_
  rintro i _ ⟨hi, rfl⟩
  by_cases hnone : i.argc? = none
  · refine .intro (fun _ _ _ j argc hj hargc => ?_) fun _ _ _ => trivial
    cases hi.symm.trans hj
    exact absurd hargc (hnone ▸ nofun)
  · obtain ⟨argc, hargc⟩ := Option.ne_none_iff_exists'.1 hnone
    refine (step_reaches (m := m.fetched) i hargc hprobe).mono fun _ _ h j argc' hj hargc' => ?_
    cases hi.symm.trans hj
    cases hargc.symm.trans hargc'
    exact h

theorem Steady.noProbe {ph : Phase} {owned : List Value} (h : Steady ph owned m) :
    ∀ id p, (m.methodAt id).native? ≠ some (.probe p) := by
  obtain ⟨hand, hledger, -⟩ := h.ledger
  exact (hledger.exact trivial).proper.noProbe

theorem fetched_lasting : Lasting [] [] m m.fetched := .of_perm rfl (.refl _)

theorem Constructs.lasting {id : MethodId} {callee : Symbol} {made : Value}
    (h : Constructs P w id callee made m m') : Lasting [] [] m m' := by
  refine .of_perm h.frames (perm_of_count fun f => ?_)
  simp only [nodes, savedMarkers, duties, h.chain, h.context, h.suspended, List.flatMap_cons,
    Duty.markers, List.count_append, List.nil_append, List.cons_append, List.count_nil]
  omega

theorem Constructs.awaits {id : MethodId} {callee : Symbol} {made : Value}
    (h : Constructs P w id callee made m m') : ∃ s, m'.suspended = s :: m.suspended ∧
      Awaits { m.context with callBase := w.base, callee } made w id m.context.callBase
        m.context.callee s :=
  ⟨_, h.suspended, rfl, rfl, rfl, entryAt?_nonneg h.receiver⟩

variable {ph ph' : Phase} {owned : List Value}

/-- Frames last through every part of a tick. -/
theorem Advance.lasting (h : Advance ph m ph' m') (hm : Steady ph owned m) (ho : m.Orderly) :
    Lasting [] [] m m' := by
  cases h with
  | same h =>
    obtain ⟨i, -, hacts⟩ := (fetch_step_acts hm.noProbe).of_ok h
    exact fetched_lasting.trans (Strides.lasting hacts)
  | entered h =>
    obtain ⟨i, -, argc, id, callee, made, -, hacts⟩ := (fetch_step_acts hm.noProbe).of_ok h
    exact fetched_lasting.trans hacts.lasting
  | finished h =>
    obtain ⟨i, -, hacts⟩ := (fetch_step_acts hm.noProbe).of_ok h
    exact fetched_lasting.trans (.of_core (Works.core hacts))
  | settled h => exact (concludeStep_goes.of_ok h).1.lasting
  | unwound h => exact (concludeStep_goes.of_ok h).1.lasting
  | @resumed _ _ s rest hs h =>
    obtain ⟨x, made, w, id, callBase, callee, hawaits⟩ := ho s (hs ▸ List.mem_cons_self)
    exact ((resumePass_goes hs hawaits).of_ok h).1.lasting

/-- Suspended passes stay in order. -/
theorem Advance.orderly (h : Advance ph m ph' m') (hm : Steady ph owned m) (ho : m.Orderly) :
    m'.Orderly := by
  have hsuspended := (h.turn hm).1.suspended
  cases h with
  | same h | finished h | settled h | unwound h =>
    have heq : m'.suspended = m.suspended := hsuspended
    rwa [Orderly, heq]
  | entered h =>
    obtain ⟨i, -, argc, id, callee, made, -, hacts⟩ := (fetch_step_acts hm.noProbe).of_ok h
    obtain ⟨s, hs, hawaits⟩ := hacts.awaits
    intro s' hs'
    rw [hs] at hs'
    rcases List.mem_cons.1 hs' with rfl | hs'
    · exact ⟨_, _, _, _, _, _, hawaits⟩
    · exact ho s' hs'
  | @resumed _ _ s rest hs h =>
    obtain ⟨s', hs'⟩ := hsuspended
    have heq : m.suspended = s' :: m'.suspended := hs'
    exact fun s'' hs'' => ho s'' (heq ▸ List.mem_cons_of_mem _ hs'')

end Machine

end ObjectMachine
