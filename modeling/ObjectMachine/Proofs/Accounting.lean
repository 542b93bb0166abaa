import ObjectMachine.Proofs.Units
import ObjectMachine.Proofs.Validity

/-! What the counters of a machine say. A host may do anything with a machine: spoil reference
counts, push frames and markers, raise outside any code, and install methods of its own, which
spoil reference counts in the middle of a pass. As long as nothing ends in a fault, the pool is
charged for exactly what there is, and the counts of live objects and of calls are those of the
heap and of the chain. -/

namespace ObjectMachine

/-- What a host can ask of a machine. -/
inductive Operation
  | defineClass (name : Text) (super : Option ClassId)
  | defineMethod (c : ClassId) (name : Text) (native : Native)
  | installProc (c : ClassId) (name : Symbol) (code : Code)
  | newInstance (c : ClassId)
  | newString (t : Text)
  | newProc (code : Code)
  | dupInstance (v : Value)
  | setVariable (obj : Value) (name : Symbol) (v : Value)
  | setConstant (name : Symbol) (v : Value)
  | acquire (v : Value)
  | release (v : Value)
  | pushFrame (methodId : Symbol) (offset nargs : Int64)
  | popFrame
  | pushRescue (pc : Int64)
  | pushEnsure (pc : Int64)
  | popMarkers (n : Int64)
  | raise (c : ClassId) (message : Value)
  | clearPending
  | execute (ticks : Nat) (p : Program)

namespace Operation

def perform : Operation → Action (Option ExecuteError)
  | defineClass name super => do discard <| Machine.defineClass name super; return none
  | defineMethod c name native => do discard <| Machine.defineNative? c name native; return none
  | installProc c name code => do discard <| Machine.installCode? c name code; return none
  | newInstance c => do discard <| Machine.newInstance c; return none
  | newString t => do discard <| Machine.newString t; return none
  | newProc code => do discard <| Machine.newProc code; return none
  | dupInstance v => do discard <| Machine.dupInstance v; return none
  | setVariable obj name v => do Machine.setVariable obj name v; return none
  | setConstant name v => do Machine.setConstant name v; return none
  | acquire v => do Machine.acquire v; return none
  | release v => do Machine.release v; return none
  | pushFrame methodId offset nargs => do
    discard <| Machine.pushFrame methodId offset nargs; return none
  | popFrame => do Machine.popFrame; return none
  | pushRescue pc => do Machine.pushMarker .rescue pc; return none
  | pushEnsure pc => do Machine.pushMarker .ensure pc; return none
  | popMarkers n => do Machine.popMarkers n; return none
  | raise c message => do Machine.raise c message; return none
  | clearPending => do Machine.clearPending; return none
  | execute ticks p => do
    match ← Machine.execute ticks p with
    | .ok _ => return none
    | .error e => return some e

/-- Where a unit of valid code gives a value, its execution does. -/
theorem perform_execute {m m' : Machine} {ticks : Nat} {p : Program} {v : Value} (haborted : ¬m.aborted)
    (hpending : m.pending = none) (hvalid : p.defect? = none)
    (h : Machine.runUnit ticks p.root m = .ok (.ok v) m') :
    (Operation.execute ticks p).perform m = .ok none m' := by
  have hexec : Leads NoFault (Machine.execute ticks p) m fun r m₁ => r = .ok v ∧ m₁ = m' :=
    (Machine.execute_iff haborted hpending hvalid).2 (.of_eq h ⟨rfl, rfl⟩)
  refine Leads.eq_ok ?_
  simp only [perform, Leads.bind_eq]
  refine hexec.mono ?_
  rintro _ _ ⟨rfl, rfl⟩
  exact ⟨rfl, rfl⟩

end Operation

def Ended (r : Option ExecuteError) : Prop :=
  r ≠ some .unfinished ∧ ∀ cause, r ≠ some (.fatal cause)

/-- The machines that a host can get from a new one. -/
inductive Session : Machine → Prop
  | new {c : Config} {m : Machine} (h : Machine.create c = .ok m) : Session m
  | step {m m' : Machine} {r : Option ExecuteError} (op : Operation) (hm : Session m)
      (h : op.perform m = .ok r m') (hr : Ended r) : Session m'

namespace Machine

variable {m : Machine}

/-- No pass is under way, and the books are in order but for references. -/
structure Idle (m : Machine) : Prop where
  ledger : Ledger False 0 [] [] m
  suspended : m.suspended = []

theorem Idle.of_control {H : List Value} {m' : Machine} (h : Ledger False 0 [] H m')
    (hm : m.Idle) (hc : m'.control = m.control) : m'.Idle :=
  ⟨h.of_not id, (congrArg Control.suspended hc).trans hm.suspended⟩

theorem Idle.of_quiet {H : List Value} {m' : Machine} (h : Ledger False 0 [] H m')
    (hm : m.Idle) (hq : Quiet m m') : m'.Idle :=
  .of_control h hm (control_of_skeleton hq.1)

theorem clearPending_control :
    Leads AnyFault clearPending m fun _ m' =>
      m'.control = { m.control with pending := none, pendingMessage := .nil } := by
  simp only [clearPending, Leads.bind_eq, Leads.get_eq, Leads.modify_eq]
  exact Leads.mono (release_control _) fun _ _ h => h

end Machine

open Machine in
/-- Every operation that ends keeps the books. -/
theorem Operation.perform_idle (op : Operation) {m : Machine} (h : m.Idle) :
    Leads (Excused False) op.perform m fun r m' => Ended r → m'.Idle := by
  have hlive : ∀ v, False → m.memory.Live v := fun _ => False.elim
  cases op with
  | defineClass name super =>
    simp only [perform, Leads.bind_eq, Leads.discard_eq, Leads.pure_eq]
    exact (defineClass_ledger name super h.ledger).mono fun _ _ ⟨h₁, hc₁⟩ _ => .of_control h₁ h hc₁
  | defineMethod c name native =>
    simp only [perform, Leads.bind_eq, Leads.discard_eq, Leads.pure_eq]
    exact (defineNative?_ledger c name h.ledger False.elim).mono
      fun _ _ ⟨h₁, hc₁⟩ _ => .of_control h₁ h hc₁
  | installProc c name code =>
    simp only [perform, Leads.bind_eq, Leads.discard_eq, Leads.pure_eq]
    exact (installCode?_ledger c name code h.ledger).mono
      fun _ _ ⟨h₁, hc₁⟩ _ => .of_control h₁ h hc₁
  | newInstance c =>
    simp only [perform, Leads.bind_eq, Leads.discard_eq, Leads.pure_eq]
    exact (newInstance_ledger h.ledger c).mono fun _ _ ⟨h₁, hq₁, _⟩ _ => .of_quiet h₁ h hq₁
  | newString t =>
    simp only [perform, Leads.bind_eq, Leads.discard_eq, Leads.pure_eq]
    exact (newString_ledger h.ledger t).mono fun _ _ ⟨h₁, hq₁⟩ _ => .of_quiet h₁ h hq₁
  | newProc code =>
    simp only [perform, Leads.bind_eq, Leads.discard_eq, Leads.pure_eq]
    exact (newProc_ledger h.ledger code).mono fun _ _ ⟨h₁, hq₁⟩ _ => .of_quiet h₁ h hq₁
  | dupInstance v =>
    simp only [perform, Leads.bind_eq, Leads.discard_eq, Leads.pure_eq]
    exact (dupInstance_ledger h.ledger (hlive v)).mono fun _ _ ⟨h₁, hq₁⟩ _ => .of_quiet h₁ h hq₁
  | setVariable obj name v =>
    simp only [perform, Leads.bind_eq, Leads.pure_eq]
    exact (setVariable_ledger h.ledger name (hlive obj) (hlive v)).mono
      fun _ _ ⟨h₁, hq₁⟩ _ => .of_quiet h₁ h hq₁
  | setConstant name v =>
    simp only [perform, Leads.bind_eq, Leads.pure_eq]
    exact (setConstant_ledger h.ledger name (hlive v)).mono
      fun _ _ ⟨h₁, hq₁⟩ _ => .of_quiet h₁ h hq₁
  | acquire v =>
    simp only [perform, Leads.bind_eq, Leads.pure_eq]
    exact (acquire_ledger h.ledger (hlive v)).mono fun _ _ ⟨h₁, hq₁, _⟩ _ => .of_quiet h₁ h hq₁
  | release v =>
    simp only [perform, Leads.bind_eq, Leads.pure_eq]
    have h₀ : Ledger False 0 [] [v] m := h.ledger.of_not id
    exact (release_ledger h₀).mono fun _ _ ⟨h₁, hq₁⟩ _ => .of_quiet h₁ h hq₁
  | pushFrame methodId offset nargs =>
    simp only [perform, Leads.bind_eq, Leads.discard_eq, Leads.pure_eq]
    refine ((pushFrame_ledger _ _ _ h.ledger).and (pushFrame_control _ _ _)).mono ?_
    exact fun _ _ ⟨⟨h₁, _⟩, _, hc₁⟩ _ => ⟨h₁, (congrArg Control.suspended hc₁).trans h.suspended⟩
  | popFrame =>
    simp only [perform, Leads.bind_eq, Leads.pure_eq]
    refine ((popFrame_ledger h.ledger).and popFrame_control).mono ?_
    rintro _ m₁ ⟨h₁, f, rest, -, hc₁⟩ _
    refine ⟨h₁, Eq.trans (congrArg Control.suspended hc₁) ?_⟩
    exact Control.pop_samePass.suspended.trans h.suspended
  | pushRescue pc =>
    simp only [perform, Leads.bind_eq, Leads.pure_eq]
    refine ((pushMarker_ledger .rescue nofun pc h.ledger).and (pushMarker_control _ _)).mono ?_
    exact fun _ _ ⟨h₁, hc₁⟩ _ => ⟨h₁, (congrArg Control.suspended hc₁).trans h.suspended⟩
  | pushEnsure pc =>
    simp only [perform, Leads.bind_eq, Leads.pure_eq]
    refine ((pushMarker_ledger .ensure nofun pc h.ledger).and (pushMarker_control _ _)).mono ?_
    exact fun _ _ ⟨h₁, hc₁⟩ _ => ⟨h₁, (congrArg Control.suspended hc₁).trans h.suspended⟩
  | popMarkers n =>
    simp only [perform, Leads.bind_eq, Leads.pure_eq]
    refine ((popMarkers_ledger n h.ledger).and (popMarkers_control n)).mono ?_
    exact fun _ _ ⟨h₁, hc₁⟩ _ => ⟨h₁, (congrArg Control.suspended hc₁).trans h.suspended⟩
  | raise c message =>
    simp only [perform, Leads.bind_eq, Leads.pure_eq]
    refine ((raise_ledger c h.ledger (hlive message)).and (raise_control c message)).mono ?_
    exact fun _ _ ⟨h₁, hc₁⟩ _ =>
      ⟨h₁, (Control.raise_samePass hc₁).suspended.trans h.suspended⟩
  | clearPending =>
    simp only [perform, Leads.bind_eq, Leads.pure_eq]
    refine ((clearPending_ledger h.ledger).and clearPending_control).mono ?_
    exact fun _ _ ⟨h₁, hc₁⟩ _ => ⟨h₁, (congrArg Control.suspended hc₁).trans h.suspended⟩
  | execute ticks p =>
    simp only [perform, Leads.bind_eq]
    refine (execute_ledger (P := fun _ => True) (fun _ _ => False.elim) (fun _ _ _ _ _ => trivial)
      ticks p h.ledger trivial h.suspended).mono ?_
    intro r m₁ ⟨_, hr⟩
    cases r with
    | ok v =>
      intro _
      obtain ⟨h₁, hs₁, _⟩ := hr nofun nofun
      exact ⟨h₁.of_not id, hs₁⟩
    | error e =>
      intro he
      obtain ⟨h₁, hs₁, _⟩ := hr (fun h => he.1 (congrArg some (Except.error.inj h)))
        fun cause h => he.2 cause (congrArg some (Except.error.inj h))
      exact ⟨h₁.of_not id, hs₁⟩

theorem Session.idle {m : Machine} (h : Session m) : m.Idle := by
  induction h with
  | new h =>
    obtain ⟨hledger, hsuspended, -⟩ := Machine.create_ledger h
    exact ⟨hledger, hsuspended⟩
  | step op _ hop hr ih => exact (op.perform_idle ih).of_ok hop hr

namespace Memory

def liveObjects (m : Memory) : List HeapObject := m.heap.toList.filter fun o => 0 < o.refCount

theorem total_charge (m : Memory) :
    total HeapObject.charge m.heap = (m.liveObjects.map (·.size.toInt)).sum
      + 12 * (m.liveObjects.map fun o => (o.body.capacity : Int)).sum := by
  unfold total liveObjects
  induction m.heap.toList with
  | nil => rfl
  | cons o os ih =>
    rw [List.map_cons, List.sum_cons, ih, List.filter_cons]
    by_cases ho : o.refCount = 0
    · simp [HeapObject.charge, ho]
    · simp [HeapObject.charge, ho, Nat.pos_of_ne_zero ho]
      omega

theorem total_alive (m : Memory) : total HeapObject.alive m.heap = m.liveObjects.length := by
  unfold total liveObjects
  induction m.heap.toList with
  | nil => rfl
  | cons o os ih =>
    rw [List.map_cons, List.sum_cons, ih, List.filter_cons]
    by_cases ho : o.refCount = 0
    · simp [HeapObject.alive, ho]
    · simp [HeapObject.alive, ho, Nat.pos_of_ne_zero ho]
      omega

end Memory

/-- The bytes of everything that a machine without a running pass has. -/
def Machine.bytes (m : Machine) : Int :=
  16 * m.classes.size + 24 * m.liveMethods + 40 * (m.chain.length + m.context.markers.length)
    + (m.memory.liveObjects.map (·.size.toInt)).sum
    + 12 * (m.memory.liveObjects.map fun o => (o.body.capacity : Int)).sum

theorem Machine.Idle.charged {m : Machine} (h : m.Idle) :
    m.outlay [] 0 + Memory.total HeapObject.charge m.memory.heap + Memory.owed m.memory.heap [] =
      m.bytes := by
  simp only [outlay, nodes, savedMarkers, duties, h.suspended, Memory.total_charge, Memory.owed,
    List.flatMap_nil, List.append_nil, List.length_append, bytes]
  omega

/-- The counters of a machine are exact after any operations that ended. Bytes are counted in
64-bit arithmetic: they are exact numbers unless more than 2^61 of them were in use or asked for
at once, and only then can the pool be overdrawn. -/
theorem counters_exact {m : Machine} (h : Session m) :
    m.memory.pool.used = Int64.ofInt m.bytes ∧
    (m.memory.Addressable → m.memory.pool.used.toInt = m.bytes) ∧
    m.memory.live = m.memory.liveObjects.length ∧
    m.depth = m.chain.countP (fun f => (m.frameAt f).tag == .call) ∧
    ∀ op m', Operation.perform op m = .error .overdrawn m' → ¬m'.memory.Addressable := by
  have hidle := h.idle
  have hbalanced := hidle.ledger.balanced
  refine ⟨hidle.charged ▸ hbalanced.used, fun ha => ?_, ?_, ?_, fun op m' hop => ?_⟩
  · have hroom := hbalanced.room ha
    have hpeak := ha.1
    have hcharges := hbalanced.charges_nonneg
    have hnonneg := hbalanced.nonneg
    have howed : Memory.owed m.memory.heap [] = 0 := rfl
    rw [hbalanced.used, Int64.toInt_ofInt_of_le (by omega) (by omega), hidle.charged]
  · rw [hbalanced.live, Memory.total_alive]
    rfl
  · rw [hidle.ledger.depth]
    refine congrArg Int.ofNat (List.countP_congr fun f _ => ?_)
    simp [Frame.isMarker]
  · exact ((op.perform_idle hidle).of_error hop).1 rfl

/-- Code that makes a string and drops it, and calls a method that raises and returns the message it
has rescued. The caller has an ensure marker, and the method a rescue marker. -/
def rescuedMessage : Program where
  blocks := #[{
    registers := 3, symbols := #["work"], pool := #[.ofText "spare"], children := #[1],
    code := #[⟨.targetClass, 1, 0, 0⟩, ⟨.makeBlock, 2, 0, 0⟩, ⟨.defineMethod, 1, 0, 0⟩,
      ⟨.pushEnsure, 8, 0, 0⟩, ⟨.loadLiteral, 1, 0, 0⟩, ⟨.loadSelf, 1, 0, 0⟩, ⟨.send, 1, 0, 0⟩,
      ⟨.popMarkers, 1, 0, 0⟩, ⟨.leave, 1, 0, 0⟩] }, {
    registers := 3, pool := #[.ofText "boom"],
    code := #[⟨.pushRescue, 3, 0, 0⟩, ⟨.loadLiteral, 1, 0, 0⟩, ⟨.raise, 1, 0, 0⟩,
      ⟨.takeException, 1, 0, 0⟩, ⟨.leave, 2, 0, 0⟩] }]

set_option synthInstance.maxSize 800 in
/-- A session of three operations: the host makes a string, executes the code, and releases the string
that it gives. Three of the five objects made are freed. -/
theorem counters_exact_rescuedMessage :
    ∃ m₀ m₁ m₂ m₃, Machine.create {} = .ok m₀ ∧
      Operation.perform (.newString "text") m₀ = .ok none m₁ ∧
      Operation.perform (.execute 16 rescuedMessage) m₁ = .ok none m₂ ∧
      Operation.perform (.release (.string 4)) m₂ = .ok none m₃ ∧
      m₃.frames.size = 3 ∧ m₃.memory.heap.size = 5 ∧ m₃.memory.live = 2 ∧
      m₃.memory.liveObjects.length = 2 ∧ m₃.memory.pool.used = Int64.ofInt m₃.bytes := by
  have hrun : ∃ m₀ ∈ (Machine.create {}).toOption,
      Leads NoFault (Operation.perform (.newString "text")) m₀ fun r m₁ => r = none ∧
        ¬m₁.aborted ∧ m₁.pending = none ∧
        Leads NoFault (Machine.runUnit 16 rescuedMessage.root) m₁ fun r m₂ => r = .ok (.string 4) ∧
          Leads NoFault (Operation.perform (.release (.string 4))) m₂ fun r m₃ => r = none ∧
            m₃.frames.size = 3 ∧ m₃.memory.heap.size = 5 ∧ m₃.memory.live = 2 := by
    decide +kernel
  have hvalid : rescuedMessage.defect? = none := Program.defect?_eq_none (by decide +kernel)
  obtain ⟨m₀, hm₀, hrun⟩ := hrun
  obtain ⟨_, m₁, h₁, rfl, haborted, hpending, hrun⟩ := hrun.exists_ok
  obtain ⟨_, m₂, hunit, rfl, hrun⟩ := hrun.exists_ok
  obtain ⟨_, m₃, h₃, rfl, hframes, hheap, hlive⟩ := hrun.exists_ok
  have h₂ := Operation.perform_execute haborted hpending hvalid hunit
  have hm₀' := Machine.create_of_toOption hm₀
  have hsession : Session m₃ :=
    .step _ (.step _ (.step _ (.new hm₀') h₁ ⟨nofun, nofun⟩) h₂ ⟨nofun, nofun⟩) h₃ ⟨nofun, nofun⟩
  obtain ⟨hused, -, hcount, -⟩ := counters_exact hsession
  refine ⟨m₀, m₁, m₂, m₃, hm₀', h₁, h₂, h₃, hframes, hheap, hlive, ?_, hused⟩
  rw [hlive] at hcount
  exact Int.ofNat.inj hcount.symm

end ObjectMachine
