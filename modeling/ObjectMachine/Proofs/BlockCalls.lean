import ObjectMachine.Proofs.Receivers
import ObjectMachine.Proofs.Returns

/-! Calls of blocks. The native that calls a block pushes a frame for the window it got and goes
on in the code of the block, with the block as `R(0)`. So wherever a block is called it sees the
scope it was written in, if it was made while the frame on top of the chain was that of the
running call. In an ensure body below which another marker waits it was not, and then the block
loses its scope when this marker goes. -/

namespace ObjectMachine

/-- The class of an instance, which is left when it has been freed. -/
def Body.class? : Body → Option ClassId
  | object c _ => some c
  | _ => none

theorem Body.class?_emptied (b : Body) : b.emptied.class? = b.class? := by
  cases b <;> rfl

namespace Machine

variable {m m₁ m' : Machine} {owned : List Value} {p : Closure} {r : Ref} {v : Value} {w : Window}
  {i : Inst} {id : MethodId} {owner : ClassId} {s : Symbol} {b : Int64} {f : FrameId}
  {P : Permit} {code : Code} {k : Frame}

/-! ### Up to the callee -/

/-- Methods, symbols and the classes of values are what they were. -/
structure SameNames (m m' : Machine) : Prop where
  classes : m'.classes = m.classes
  methods : m'.methods = m.methods
  symbols : m'.symbols = m.symbols
  classOf : m'.classOf = m.classOf

theorem SameNames.trans (h : SameNames m m₁) (h' : SameNames m₁ m') : SameNames m m' :=
  ⟨h'.classes.trans h.classes, h'.methods.trans h.methods, h'.symbols.trans h.symbols,
    h'.classOf.trans h.classOf⟩

theorem classOf_of_view (h : m'.memory.view Body.class? = m.memory.view Body.class?) :
    m'.classOf = m.classOf := by
  have hobject : ∀ (m : Machine) (r : Ref),
      m.classOf (.object r) = (m.memory.view Body.class? r).join.getD .object := by
    intro m r
    rw [classOf, Memory.view]
    cases m.memory.heap[r]? with
    | none => rfl
    | some o =>
      obtain ⟨_, _, body⟩ := o
      cases body <;> rfl
  funext v
  cases v with
  | object r => rw [hobject, hobject, h]
  | bool b => cases b <;> rfl
  | _ => rfl

theorem release_sameNames (v : Value) :
    Leads AnyFault (release v) m fun _ m' => SameNames m m' := by
  unfold release
  split
  · exact ⟨rfl, rfl, rfl, rfl⟩
  · simp only [onMemory, Leads.bind_eq, Leads.modifyGet_eq]
    split
    · trivial
    · exact ⟨rfl, rfl, rfl, classOf_of_view (Memory.settle_view Body.class?_emptied _ _)⟩

theorem setReg_sameNames (j : Int64) (v : Value) :
    Leads AnyFault (setReg j v) m fun _ m' => SameNames m m' := by
  simp only [setReg, exchangeReg, Leads.bind_eq, Leads.modify_eq, Leads.pure_eq]
  refine (reg_leads fun old _ => ?_).forget
  exact Leads.mono (release_sameNames old) fun _ _ h =>
    ⟨h.classes, h.methods, h.symbols, h.classOf⟩

theorem enterWindow_sameNames (base size : Int64) :
    Leads AnyFault (enterWindow base size) m fun _ m' => SameNames m m' := by
  simp only [enterWindow, Leads.bind_eq, Leads.get_eq]
  split
  · trivial
  · split
    · exact ⟨rfl, rfl, rfl, rfl⟩
    · exact ⟨rfl, rfl, rfl, rfl⟩

theorem recordCall_sameNames (id : MethodId) (owner : ClassId) :
    Leads AnyFault (recordCall id owner) m fun _ m' => SameNames m m' := by
  simp only [recordCall, Leads.bind_eq, Leads.get_eq]
  split
  · exact ⟨rfl, rfl, rfl, rfl⟩
  · exact ⟨rfl, rfl, rfl, rfl⟩

theorem SameNames.findMethod? (h : SameNames m m') : m'.findMethod? = m.findMethod? := by
  funext c s
  simp only [Machine.findMethod?, ownMethod?, classAt, methodAt, h.classes, h.methods]

theorem SameNames.methodAt (h : SameNames m m') : m'.methodAt = m.methodAt := by
  funext id
  simp only [Machine.methodAt, h.methods]

def sentSymbol (m : Machine) (j : Int64) : Option Symbol := do
  let code ← m.context.code
  entryAt? (m.symbols.internAll code.block.symbols.toList).2.toArray j

theorem codeSymbol_sent (j : Int64) : Leads AnyFault (codeSymbol j) m fun s m' =>
    m.sentSymbol j = some s ∧ m'.classes = m.classes ∧ m'.methods = m.methods ∧
      m'.classOf = m.classOf := by
  simp only [codeSymbol, Leads.bind_eq]
  refine (currentCode_leads fun code hcode => ?_).forget
  simp only [Leads.modifyGet_eq]
  refine (present_leads fun s hs => ⟨?_, rfl, rfl, rfl⟩).forget
  rw [sentSymbol, hcode]
  exact hs

/-- Code has been entered while `v` was at `b`. -/
structure Opens (b : Int64) (v : Value) (code : Code) (m m' : Machine) : Prop where
  chain : m'.chain = m.frames.size :: m.chain
  code : m'.context.code = some code
  receiver : entryAt? m'.regs b = some v
  jumped : m'.jumped

theorem Opens.after (h : Opens b v code m₁ m') (hcore : m₁.core = m.core) : Opens b v code m m' := by
  have hchain : m₁.chain = m.chain := congrArg (·.chain) hcore
  refine ⟨?_, h.code, h.receiver, h.jumped⟩
  rw [h.chain, hchain, frames_of_core hcore]

/-- Goes on in code whose frame was just pushed. -/
theorem Pushed.opens (h : Pushed k m m₁) (hreg : entryAt? m.regs b = some v) (code : Code)
    (base : Int64) : Leads AnyFault (enterWindow base code.block.registers)
      { m₁ with context := { m₁.context with base, code := some code, pc := 0 } }
      fun _ m₂ => Opens b v code m { m₂ with jumped := true } := by
  refine Leads.mono ((enterWindow_clerical _ _).tame (P := .nothing) _) fun _ m₂ h₂ => ⟨?_, ?_, ?_, rfl⟩
  · exact (congrArg (·.chain) h₂.core :).trans h.chain
  · exact (congrArg (·.context.code) h₂.core :)
  · rw [h₂.regs_eq (fun _ h => h) fun _ h => h]
    rw [← hreg, ← h.alters.regs_eq (fun _ h => h) fun _ h => h]

/-! ### The native -/

theorem callProc_opens (hreg : entryAt? m.regs w.base = some (.proc r))
    (hr : m.memory.closure? r = some p) :
    Leads AnyFault (callProc w) m fun _ m' => Opens w.base (.proc r) p.1 m m' := by
  obtain ⟨code, frame, selfFrame⟩ := p
  simp only [callProc, Leads.bind_eq, Leads.get_eq]
  refine (windowReg_leads fun v hv => ?_).forget
  rw [Int64.add_zero, hreg] at hv
  cases hv
  rw [proc?_eq, hr]
  simp only [Leads.bind_eq, Leads.get_eq]
  refine (pushFrame_pushed 0 _ w.argc).mono ?_
  rintro _ m₁ ⟨rfl, h₁⟩
  split
  · simp only [Leads.bind_eq, Leads.get_eq]
    split
    · simp only [Leads.bind_eq, modifyContext, Leads.modify_eq, Leads.get_eq]
      exact (h₁.modify rfl).mono fun _ m₂ h₂ => h₂.opens hreg code _
    · simp only [Leads.bind_eq, modifyContext, Leads.modify_eq, Leads.get_eq]
      exact h₁.opens hreg code _
  · simp only [Leads.bind_eq, modifyContext, Leads.modify_eq, Leads.get_eq]
    exact h₁.opens hreg code _

theorem enterNative_quiet (id : MethodId) : Leads AnyFault (enterNative id w) m fun d m' =>
    d = .leave id w m.context.callBase m.context.callee ∧ m'.core = m.core ∧ m'.regs = m.regs ∧
    m'.memory = m.memory ∧ (m'.methodAt id).native? = (m.methodAt id).native? := by
  simp only [enterNative, acquireMethod, modifyMethod, modifyContext, Leads.bind_eq, Leads.get_eq,
    Leads.modify_eq, Leads.pure_eq]
  exact ⟨trivial, rfl, trivial, trivial, native?_modify fun _ => rfl⟩

theorem startNative_opens (hreg : entryAt? m.regs w.base = some (.proc r))
    (hr : m.memory.closure? r = some p) (hnative : (m.methodAt id).native? = some .callProc) :
    Leads AnyFault (startNative id w []) m fun x m' => x = .inl .same ∧
      Opens w.base (.proc r) p.1 m m' := by
  simp only [startNative, Leads.bind_eq, Leads.get_eq]
  refine (enterNative_quiet id).mono ?_
  rintro _ m₁ ⟨rfl, hcore₁, hregs₁, hmemory₁, hnative₁⟩
  refine checkWindow_nonneg fun hnonneg => (present_leads fun n hn => ?_).forget
  cases hn.symm.trans (hnative₁.trans hnative)
  rw [← hregs₁] at hreg
  rw [← hmemory₁] at hr
  simp only [runNative, Leads.bind_eq, Leads.pure_eq]
  refine (callProc_opens hreg hr).mono fun _ m₂ h₂ => ?_
  simp only [runDuties, runDuty, Leads.bind_eq, Leads.pure_eq]
  refine (leaveNative_leads id hnonneg _ _).mono ?_
  rintro _ m₃ ⟨h₃, hcore₃, hcontext₃⟩
  refine ⟨trivial, Opens.after ⟨?_, ?_, ?_, ?_⟩ hcore₁⟩
  · exact (congrArg (·.chain) hcore₃ : m₃.chain = m₂.chain).trans h₂.chain
  · rw [hcontext₃]
    exact h₂.code
  · rw [h₃.reg_eq (fun _ h => h.elim) fun i hi => ?_]
    · exact h₂.receiver
    · have hlow : w.base.toInt + 1 ≤ i.toInt := hi
      omega
  · exact (congrArg (·.jumped) hcore₃ : m₃.jumped = m₂.jumped).trans h₂.jumped

theorem Method.body_of_native? {k : Method} {n : Native} (h : k.native? = some n) :
    k.body = .native n := by
  unfold Method.native? at h
  split at h
  · next hbody => rw [hbody, Option.some.inj h]
  · cases h

theorem dispatch_opens (a argc : Int64) {c : ClassId} (hfound : m.findMethod? c s = some (id, owner))
    (hnative : (m.methodAt id).native? = some .callProc)
    (hreg : entryAt? m.regs (m.context.base + a) = some (.proc r))
    (hr : m.memory.closure? r = some p) : Leads AnyFault (dispatch a s argc c) m fun x m' =>
      x = .same ∧ Opens (m.context.base + a) (.proc r) p.1 m m' := by
  simp only [dispatch, Leads.bind_eq, Leads.get_eq]
  refine (((enterWindow_clerical _ _).tame (P := .nothing) m).and (enterWindow_sameNames _ _)).mono ?_
  rintro _ m₁ ⟨h₁, hnames₁⟩
  rw [hnames₁.findMethod?, hfound]
  simp only [Leads.bind_eq, Leads.get_eq]
  refine (((recordCall_clerical id owner).tame (P := .nothing) m₁).and (recordCall_sameNames id owner)).mono ?_
  rintro _ m₂ ⟨h₂, hnames₂⟩
  have hworks : Works .nothing m m₂ := h₁.trans h₂
  rw [(hnames₁.trans hnames₂).methodAt]
  have hreg₂ : entryAt? m₂.regs (m.context.base + a) = some (.proc r) := by
    rw [hworks.regs_eq (fun _ h => h) fun _ h => h]
    exact hreg
  have hnative₂ : (m₂.methodAt id).native? = some .callProc := by
    rw [(hnames₁.trans hnames₂).methodAt]
    exact hnative
  have hstart := startNative_opens (w := ⟨m.context.base + a, argc⟩) hreg₂ (hworks.kept r p hr) hnative₂
  rw [Method.body_of_native? hnative]
  dsimp only
  rw [callNative, Leads.bind_eq]
  refine hstart.mono ?_
  rintro _ m₃ ⟨rfl, h₃⟩
  exact ⟨rfl, h₃.after hworks.core⟩

/-! ### Call sites -/

/-- The instruction `i` sends a message to `v`. With a count of -1 the nil behind the arguments
takes the place of the receiver. -/
inductive Sends (m : Machine) (i : Inst) : Value → Prop
  | kept {v : Value} (hop : i.op = .send ∧ i.c ≠ -1 ∨ i.op = .sendBlock)
      (hreg : entryAt? m.regs (m.context.base + i.a) = some v) : m.Sends i v
  | cleared (hop : i.op = .send) (hcount : i.c = -1) : m.Sends i .nil

theorem Sends.op (h : m.Sends i v) : i.op = .send ∨ i.op = .sendBlock := by
  cases h with
  | kept hop hreg => exact hop.imp_left And.left
  | cleared hop hcount => exact .inl hop

/-- A send leads to where the receiver is in place and its method is looked up. -/
theorem step_sends {Q : Progress → Machine → Prop} (h : m.Sends i v) (hs : m.sentSymbol i.b = some s)
    (hdispatch : ∀ (P : Permit) m₁, Works P m m₁ → m₁.classes = m.classes → m₁.methods = m.methods →
      entryAt? m₁.regs (m.context.base + i.a) = some v →
      Leads AnyFault (dispatch i.a s i.c (m.classOf v)) m₁ Q) : Leads AnyFault (step i) m Q := by
  -- From where the window is in place.
  have hready : ∀ (P : Permit) m₁, Works P m m₁ → SameNames m m₁ →
      entryAt? m₁.regs (m.context.base + i.a) = some v → Leads AnyFault (do
        let s ← codeSymbol i.b
        let receiver ← reg (m.context.base + i.a)
        return ← dispatch i.a s i.c ((← get).classOf receiver)) m₁ Q := by
    intro P m₁ h₁ hnames hreg₁
    have hs₁ : m₁.sentSymbol i.b = some s := by
      rw [← hs, sentSymbol, sentSymbol, h₁.names, hnames.symbols]
    simp only [Leads.bind_eq, Leads.get_eq]
    refine ((codeSymbol_tame (P := .nothing) i.b m₁).and (codeSymbol_sent i.b)).mono ?_
    rintro _ m₂ ⟨h₂, hs₂, hclasses, hmethods, hclassOf⟩
    cases hs₂.symm.trans hs₁
    have hreg₂ : entryAt? m₂.regs (m.context.base + i.a) = some v := by
      rw [h₂.regs_eq (fun _ h => h) fun _ h => h]
      exact hreg₁
    refine Leads.of_eq (reg_ok hreg₂) ?_
    rw [hclassOf, hnames.classOf]
    exact hdispatch P m₂ (h₁.trans (h₂.mono (Permit.nothing_within P)))
      (hclasses.trans hnames.classes) (hmethods.trans hnames.methods) hreg₂
  -- The nil behind the arguments has been stored.
  have hsent : i.op = .send → (∀ m₁ m₂, m₁.regs = m.regs →
      setReg (m.context.base + i.a + i.c + 1) .nil m₁ = .ok () m₂ →
      entryAt? m₂.regs (m.context.base + i.a) = some v) → Leads AnyFault (step i) m Q := by
    intro hop hreg
    simp only [step, hop, Leads.bind_eq, Leads.get_eq] at hready ⊢
    refine (((enterWindow_clerical _ _).tame (P := .nothing) m).and (enterWindow_sameNames _ _)).mono ?_
    rintro _ m₁ ⟨h₁, hnames₁⟩
    have hset := (setReg_tame (P := .store (m.context.base + i.a + i.c + 1)) rfl m₁).and
      ((setReg_sameNames _ .nil).and (Leads.named _))
    refine hset.mono ?_
    rintro _ m₂ ⟨h₂, hnames₂, hstored⟩
    refine hready _ m₂ ((h₁.mono (Permit.nothing_within _)).trans h₂) (hnames₁.trans hnames₂) ?_
    exact hreg m₁ m₂ (h₁.regs_eq (fun _ h => h) fun _ h => h) hstored
  cases h with
  | cleared hop hcount =>
    refine hsent hop fun m₁ m₂ _ hstored => ?_
    have hplace : m.context.base + i.a + i.c + 1 = m.context.base + i.a := by
      rw [hcount, Int64.add_assoc]
      exact Int64.add_zero _
    rw [hplace] at hstored
    exact (setReg_gets _ _).of_ok hstored
  | kept hop hreg =>
    rcases hop with ⟨hop, hcount⟩ | hop
    · refine hsent hop fun m₁ m₂ hregs hstored => ?_
      have hset := (setReg_tame (P := .store (m.context.base + i.a + i.c + 1)) rfl m₁).of_ok hstored
      rw [hset.reg_eq ?_ fun _ h => h.elim, hregs, hreg]
      rintro j rfl heq
      refine hcount ?_
      have hsame : m.context.base + i.a + (i.c + 1) = m.context.base + i.a := by
        rw [← Int64.add_assoc]
        exact Int64.toInt_inj.1 heq
      have hzero : i.c + 1 = 0 := Int64.add_eq_left.1 hsame
      rw [← Int64.add_sub_cancel i.c 1, hzero]
      rfl
    · simp only [step, hop, Leads.bind_eq, Leads.get_eq] at hready ⊢
      exact hready .nothing m (.refl m) ⟨rfl, rfl, rfl, rfl⟩ hreg

/-- The instruction `i` calls the closure in the register of its receiver. A count of -1 would put
nil in the place of the receiver. -/
structure CallsBlock (m : Machine) (i : Inst) (r : Ref) : Prop where
  op : i.op = .send ∧ i.c ≠ -1 ∨ i.op = .sendBlock
  receiver : entryAt? m.regs (m.context.base + i.a) = some (.proc r)
  callee : ∃ s id owner, m.sentSymbol i.b = some s ∧ m.findMethod? .proc s = some (id, owner) ∧
    (m.methodAt id).native? = some .callProc

theorem findMethod?_congr (hclasses : m₁.classes = m.classes) (hmethods : m₁.methods = m.methods) :
    m₁.findMethod? = m.findMethod? ∧ m₁.methodAt = m.methodAt := by
  refine ⟨?_, ?_⟩
  · funext c s
    simp only [findMethod?, ownMethod?, classAt, methodAt, hclasses, hmethods]
  · funext id
    simp only [methodAt, hmethods]

theorem step_opens (h : m.CallsBlock i r) (hr : m.memory.closure? r = some p) :
    Leads AnyFault (step i) m fun x m' =>
      x = .same ∧ Opens (m.context.base + i.a) (.proc r) p.1 m m' := by
  obtain ⟨hop, hreg, s, id, owner, hs, hfound, hnative⟩ := h
  refine step_sends (.kept hop hreg) hs fun P m₁ h₁ hclasses hmethods hreg₁ => ?_
  obtain ⟨hfind, hat⟩ := findMethod?_congr hclasses hmethods
  have hbase : m₁.context.base = m.context.base := by rw [h₁.names]
  rw [← hbase] at hreg₁ ⊢
  refine (dispatch_opens i.a i.c (hfind ▸ hfound) (hat ▸ hnative) hreg₁ (h₁.kept r p hr)).mono ?_
  rintro x m₂ ⟨hx, h₂⟩
  exact ⟨hx, h₂.after h₁.core⟩

/-! ### Calls of code -/

/-- The closure `p` has been called from `m`. Its window holds the block, unless it has no room for
it. -/
structure Opened (r : Ref) (p : Closure) (m n : Machine) : Prop where
  chain : n.chain = m.frames.size :: m.chain
  code : n.context.code = some p.1
  pc : n.context.pc = 0
  top : n.AtTop m.frames.size
  block : p.1.block.code ≠ #[] → entryAt? n.regs n.context.base = some (.proc r)

/-- Code has been called from `m`, with a window at `b`. The window starts with `v`, unless it has
no room for it. -/
structure CalledAt (b : Int64) (v : Value) (code : Code) (m n : Machine) : Prop where
  chain : n.chain = m.frames.size :: m.chain
  body : n.context.code = some code
  pc : n.context.pc = 0
  base : n.context.base = b
  top : n.AtTop m.frames.size
  receiver : code.block.code ≠ #[] → entryAt? n.regs b = some v

theorem concludeStep_settles (h : Ledger True 0 [] owned m) (hpending : m.pending = none) :
    Leads AnyFault concludeStep m fun pending m' =>
      pending = false ∧ Goes m.leftovers m m' ∧ m'.control = m.control := by
  refine (concludeStep_goes.and (concludeStep_ledger h)).mono ?_
  rintro (_ | _) m' ⟨⟨hgoes, -⟩, -, hcontrol⟩
  · exact ⟨rfl, hgoes, hcontrol.2⟩
  · exact absurd hpending hcontrol.1

/-- A tick is over after an instruction that left nothing pending. -/
theorem finishStep_settles (ss : List Suspension) (h : Ledger True 0 [] owned m)
    (hpending : m.pending = none) : Leads AnyFault (finishStep ss) m fun r m' =>
      r = none ∧ Goes m.leftovers m m' ∧ m'.control = m.control := by
  have hend := concludeStep_settles h hpending
  cases ss with
  | nil =>
    simp only [finishStep, Leads.bind_eq]
    refine hend.mono ?_
    rintro _ m₁ ⟨rfl, h₁⟩
    exact ⟨rfl, h₁⟩
  | cons s rest =>
    simp only [finishStep, Leads.bind_eq]
    refine hend.mono ?_
    rintro _ m₁ ⟨rfl, h₁⟩
    exact ⟨rfl, h₁⟩

/-- Where the called code begins. -/
theorem fetch_step_opens (hm : Reachable true owned m) (hi : m.control.next? = some i)
    (hop : i.op = .send ∨ i.op = .sendBlock)
    (hstep : Leads AnyFault (step i) m.fetched fun x m' =>
      x = .same ∧ Opens (m.context.base + i.a) v code m.fetched m') :
    Leads AnyFault (fetch >>= step) m fun x m' => x = .same ∧ Ledger True 0 [] owned m' ∧
      Opens (m.context.base + i.a) v code m m' ∧ m'.pending = none ∧ m'.context.pc = 0 ∧
      m'.frames.size = m.frames.size + 1 ∧ (m'.frameAt m.frames.size).isMarker = false ∧
      Entered (m.context.base + i.a) m.fetched m' m.frames.size := by
  have hsteady := Machine.Reachable.steady hm
  have hopens : Leads AnyFault (fetch >>= step) m fun x m' =>
      x = .same ∧ Opens (m.context.base + i.a) v code m m' := by
    rw [Leads.bind_eq]
    refine fetch_leads.mono ?_
    rintro j _ ⟨hj, rfl⟩
    cases hi.symm.trans hj
    exact hstep.mono fun _ _ ⟨hx, h₁⟩ => ⟨hx, h₁.chain, h₁.code, h₁.receiver, h₁.jumped⟩
  refine .intro (fun x m' hok => ?_) fun _ _ _ => trivial
  obtain ⟨rfl, hopen⟩ := hopens.of_ok hok
  obtain ⟨hledger, j, hj, hmove⟩ := (fetch_step_stepped (hsteady.books nofun)).of_ok hok
  obtain ⟨j', hj', hacts⟩ := (fetch_step_acts hsteady.noProbe).of_ok hok
  cases hi.symm.trans hj
  cases hi.symm.trans hj'
  have hnew := ((Advance.same hok).turn hsteady).2.standing.chain_lt
  have hmem : m.control.frames.size ∈ m'.control.chain := by
    have hchain : m'.control.chain = m.frames.size :: m.chain := hopen.chain
    rw [hchain, size_control]
    exact List.mem_cons_self
  generalize hc : m'.control = c' at hmove hnew hmem
  obtain ⟨base, code, targetClass, rfl⟩ :=
    called_of_mem hmove hsteady.standing.chain_lt hnew hmem
  have hstrides : Strides (i.permit m.fetched) (i.landing m.context.base) m.fetched m' := hacts
  have hlanding : i.landing m.context.base = m.context.base + i.a := by
    rcases hop with hop | hop <;> simp only [Inst.landing, hop]
  obtain ⟨hsaved, hsize⟩ := origin_of_push (m := m.fetched) (congrArg Control.frames hc)
  refine ⟨rfl, hledger, hopen, ?_, ?_, hsize, ?_, hlanding ▸ hstrides.entered (m := m.fetched) hc⟩
  · exact (congrArg Control.pending hc).trans hsteady.standing.2
  · exact (congrArg (·.context.pc) hc :)
  · exact (congrArg Frame.isMarker hsaved :)

theorem Goes.atTop (h : Goes P m m') (hcontrol : m'.control = m.control) (htop : m.AtTop f)
    (hf : f < m.frames.size) : m'.AtTop f := by
  have hbase : m'.context.base = m.context.base := congrArg (·.context.base) hcontrol
  have hchain : m'.chain = m.chain := congrArg Control.chain hcontrol
  refine ⟨hchain ▸ htop.head, ?_, ?_⟩
  · rcases h.lasting.old f hf with heq | heq
    · exact heq ▸ htop.call
    · exact heq ▸ htop.call
  · rw [hbase]
    rcases h.lasting.old f hf with heq | heq
    · exact heq ▸ htop.window
    · exact heq ▸ htop.window

/-- Code is called with the receiver as the first register. -/
theorem tick_called (hm : Reachable true owned m) (hi : m.control.next? = some i)
    (hop : i.op = .send ∨ i.op = .sendBlock) (htrusted : code.Trusted)
    (hstep : Leads AnyFault (step i) m.fetched fun x m' =>
      x = .same ∧ Opens (m.context.base + i.a) v code m.fetched m') :
    Leads AnyFault tick m fun x n => x = none ∧ CalledAt (m.context.base + i.a) v code m n := by
  have hstep := fetch_step_opens hm hi hop hstep
  rw [Leads.bind_eq] at hstep
  simp only [tick, Leads.bind_eq]
  refine hstep.mono fun j m₀ h₀ => h₀.mono ?_
  rintro x m₁ ⟨rfl, hledger, hopen, hpending, hpc, hsize, hcall, hentered⟩
  have hlt : m.frames.size < m₁.frames.size := hsize ▸ Nat.lt_succ_self _
  simp only [Leads.bind_eq, Leads.get_eq]
  refine (finishStep_settles m₁.suspended hledger hpending).mono ?_
  rintro _ n ⟨rfl, hgoes, hcontrol⟩
  have hat : m₁.AtTop m.frames.size :=
    ⟨by rw [hopen.chain]; rfl, hcall, hentered.window.trans hentered.base.symm⟩
  refine ⟨rfl, ?_, ?_, ?_, ?_, hgoes.atTop hcontrol hat hlt, fun hcode => ?_⟩
  · exact (congrArg Control.chain hcontrol : n.chain = m₁.chain).trans hopen.chain
  · exact (congrArg (·.context.code) hcontrol : n.context.code = m₁.context.code).trans hopen.code
  · exact (congrArg (·.context.pc) hcontrol : n.context.pc = m₁.context.pc).trans hpc
  · exact (congrArg (·.context.base) hcontrol : n.context.base = m₁.context.base).trans hentered.base
  · rw [hgoes.alters.reg_eq (fun _ h => h.elim) fun j hj => ?_]
    · exact hopen.receiver
    · obtain ⟨-, code, hcode', hnonneg, hle⟩ := hj
      cases hopen.code.symm.trans hcode'
      have hpos := htrusted.valid.receiver hcode
      rw [hentered.base] at hnonneg hle
      have hsum := toInt_add_of_nonneg hentered.nonneg (Int.le_of_lt hpos) hnonneg
      omega

/-- A block is called with itself as the first register. -/
theorem tick_opens (hm : Reachable true owned m) (hi : m.control.next? = some i)
    (h : m.CallsBlock i r) (hr : m.memory.closure? r = some p) :
    Leads AnyFault tick m fun x n => x = none ∧ Opened r p m n := by
  have htrusted := (Machine.Reachable.vetted hm).closures r _ _ _ hr
  have hstep := step_opens (m := m.fetched) ⟨h.op, h.receiver, h.callee⟩ hr
  refine (tick_called hm hi (h.op.imp_left And.left) htrusted hstep).mono ?_
  rintro x n ⟨hx, hn⟩
  refine ⟨hx, hn.chain, hn.body, hn.pc, hn.top, fun hcode => ?_⟩
  rw [hn.base]
  exact hn.receiver hcode

end Machine

open Machine

/-- Blocks are lexically scoped. Suppose that an instruction at `a` makes the block `r` above the
entry of its pass, or on an empty chain, while no marker waits on top of the chain and the blocks
that lead to the receiver were made likewise. As long as the call that made it is on the chain and
the windows on the way to the receiver hold what they held, the block sees the receiver, the
variables and the block argument that are seen at `a`, and wherever it is called it runs like
that. -/
theorem block_lexical {held owned : List Value} {a₀ a a' m : Machine} {running : Bool} {r : Ref}
    {p : Closure} {s : Value} (hbegin : Begins held a₀)
    (hunit : a₀.suspended = []) (hcourse : Course RunsOut a₀ .ready a)
    (hbottom : a.chain.head? = a.context.entry → a.chain = [])
    (htop : ∀ f, a.chain.head? = some f → (a.frameAt f).isMarker = false)
    (hcall : ∀ w ∈ a.selfWindows, ∀ q, a.blockAt w = some q → a.OfCall q.2.2) (hself : self a = .ok s a)
    (ht : tick a = .ok none a') (hnew : a.memory.closure? r = none)
    (hp : a'.memory.closure? r = some p) (hlater : Later held a' running owned m)
    (hlive : ∀ f, a.chain.head? = some f → f ∈ m.chain)
    (hkept : ∀ w ∈ a.selfWindows, m.occupant w = a.occupant w) :
    p = a.closureOver p.1 ∧ Machine.blockGiven a = passedBlock p.2.2 a ∧
    (entryAt? m.regs m.context.base = some (.proc r) →
      self m = .ok s m ∧ outerBase 0 m = .ok (some a.context.base) m ∧
      ∀ f, m.AtTop f → Machine.blockGiven m = passedBlock p.2.2 m) ∧
    ∀ i x n, running = true → m.control.next? = some i → m.CallsBlock i r → tick m = .ok x n →
      x = none ∧ Opened r p m n := by
  have ha := hcourse.reachable hbegin.reachable
  obtain ⟨i, c, child, hi, hop, -, -, rfl⟩ := tick_made ha ht hnew hp
  have hm := hlater.reachable (ha.tick ht)
  have hfollows : Follows a m := (tick_follows ha ht).trans (hlater.follows (ha.tick ht))
  have hta := tidy_invariant.reachable ha
  have htm := tidy_invariant.reachable hm
  have hwindow := hcourse.frameWindow_top hbegin hunit hi hop hbottom htop
  have hchain := hfollows.chain_suffix hta htm hlive
  have hr : m.memory.closure? r = some (a.closureOver child) := (hlater.follows (ha.tick ht)).kept r _ hp
  refine ⟨rfl, ?_, fun hreg => ?_, ?_⟩
  · obtain ⟨v, hv⟩ := reg_of_self hself
    exact blockGiven_closureOver hta (Machine.Reachable.anchored ha) hwindow
      (fun f hf _ => htop f hf) hv child
  · have hblock : m.blockAt m.context.base = some (a.closureOver child) := by
      rw [blockAt, hreg, Option.bind_some, proc?_eq, hr]
    exact ⟨hfollows.self_eq ha hm hchain hwindow hcall hkept hblock hself,
      hfollows.outerBase_eq hta htm hchain hwindow hblock, fun f hat => hat.blockGiven_block hblock⟩
  · rintro j x n rfl hj hcalls htick
    exact (tick_opens hm hj hcalls hr).of_ok htick

namespace Machine

variable {m m' : Machine} {ph ph' : Phase}

def runsOut? (ph : Phase) (m : Machine) (_ : Phase) (_ : Machine) : Bool :=
  ph != .ready || m.control.next?.all fun i =>
    i.op != .stop && i.op != .abort || m.chain.head? == m.context.entry

theorem runsOut_of_check (h : runsOut? ph m ph' m') : RunsOut ph m ph' m' := by
  rintro rfl i hi hop
  simp only [runsOut?, hi, bne_self_eq_false, Bool.false_or, Option.all_some, Bool.or_eq_true,
    Bool.and_eq_true, bne_iff_ne, beq_iff_eq] at h
  refine h.resolve_left fun ⟨hstop, habort⟩ => ?_
  rcases hop with hop | hop
  · exact hstop hop
  · exact habort hop

end Machine

/-- A method that passes a block on to another one, which calls it. The block asks for itself. -/
def passedOn : Program where
  blocks := #[{
    registers := 5, symbols := #["work", "run"], children := #[1, 2],
    code := #[⟨.targetClass, 1, 0, 0⟩, ⟨.makeBlock, 2, 0, 0⟩, ⟨.defineMethod, 1, 0, 0⟩,
      ⟨.makeBlock, 2, 1, 0⟩, ⟨.defineMethod, 1, 1, 0⟩, ⟨.loadSelf, 1, 0, 0⟩, ⟨.send, 1, 0, 0⟩,
      ⟨.leave, 1, 0, 0⟩] }, {
    registers := 5, symbols := #["run"], children := #[3],
    code := #[⟨.loadSelf, 1, 0, 0⟩, ⟨.makeBlock, 2, 0, 0⟩, ⟨.sendBlock, 1, 0, 0⟩,
      ⟨.leave, 1, 0, 0⟩] }, {
    registers := 5, symbols := #["call"],
    code := #[⟨.move, 2, 1, 0⟩, ⟨.send, 2, 0, 0⟩, ⟨.leave, 2, 0, 0⟩] }, {
    registers := 3, code := #[⟨.loadSelf, 1, 0, 0⟩, ⟨.leave, 1, 0, 0⟩] }]

set_option synthInstance.maxSize 400 in
/-- The block runs two calls above the method it was written in. -/
theorem block_lexical_passedOn :
    ∃ a a' m, tick a = .ok none a' ∧ a.memory.closure? 3 = none ∧ (a'.memory.closure? 3).isSome ∧
      a.chain = [0] ∧ a.context.base = 1 ∧ self a = .ok (.object 0) a ∧ Later [] a' true [] m ∧
      m.chain = [2, 1, 0] ∧ entryAt? m.regs m.context.base = some (.proc 3) ∧
      self m = .ok (.object 0) m ∧ outerBase 0 m = .ok (some 1) m := by
  have hrun : ∃ a₀ ∈ passedOn.after 0, ∃ x ∈ follow runsOut? 16 .ready a₀, x.1 = .ready ∧
      x.2.chain = [0] ∧ x.2.context.entry = none ∧ (x.2.frameAt 0).isMarker = false ∧
      x.2.context.base = 1 ∧ entryAt? x.2.regs 1 = some (.object 0) ∧ (x.2.memory.closure? 3).isNone ∧
      Leads NoFault tick x.2 fun r a' => r = none ∧ (a'.memory.closure? 3).isSome ∧
        Leads NoFault (Machine.run 3) a' fun r m => r = none ∧ m.chain = [2, 1, 0] ∧
          entryAt? m.regs m.context.base = some (.proc 3) ∧ entryAt? m.regs 1 = some (.object 0) := by
    decide +kernel
  have hvalid : passedOn.defect? = none := Program.defect?_eq_none (by decide +kernel)
  obtain ⟨a₀, ha₀, ⟨ph, a⟩, hfollow, rfl, hstate⟩ := hrun
  dsimp only at hstate
  obtain ⟨hchain, hentry, hcall, hbase, hobject, hnew, htick⟩ := hstate
  obtain ⟨_, a', ht, rfl, hmade, hrest⟩ := htick.exists_ok
  obtain ⟨_, m, hm, rfl, hinside, hblock, hobject'⟩ := hrest.exists_ok
  obtain ⟨p, hp⟩ := Option.isSome_iff_exists.1 hmade
  obtain ⟨hbegin, hunit⟩ := Begins.of_after hvalid ha₀
  rw [Option.isNone_iff_eq_none] at hnew
  have hcourse : Course RunsOut a₀ .ready a :=
    Course.began.follow (fun _ _ _ _ hcheck => runsOut_of_check hcheck) hfollow
  have hlater : Later [] a' true [] m := Later.run 3 .here hm
  obtain ⟨hself, hwindows⟩ := self_of_plain (hbase ▸ hobject) rfl
  obtain ⟨-, -, hruns, -⟩ := block_lexical hbegin hunit hcourse (by simp [hchain, hentry])
    (by simp [hchain, hcall]) (by simp [hwindows, hbase, blockAt, hobject, proc?]) hself ht hnew hp
    hlater (by simp [hchain, hinside]) (by simp [hwindows, hbase, occupant, hobject, hobject', proc?])
  obtain ⟨hreceiver, houter, -⟩ := hruns hblock
  rw [hbase] at houter
  exact ⟨a, a', m, ht, hnew, hmade, hchain, hbase, hself, hlater, hinside, hblock, hreceiver, houter⟩

/-- A method of a number whose ensure body makes a block and calls it, while the rescue marker of
the caller waits. -/
def ensuredBlock : Program where
  blocks := #[{
    registers := 4, symbols := #["work"], children := #[1],
    code := #[⟨.targetClass, 1, 0, 0⟩, ⟨.makeBlock, 2, 0, 0⟩, ⟨.defineMethod, 1, 0, 0⟩,
      ⟨.pushRescue, 6, 0, 0⟩, ⟨.loadInt, 1, 7, 0⟩, ⟨.send, 1, 0, 0⟩, ⟨.leave, 1, 0, 0⟩] }, {
    registers := 3, symbols := #["call"], children := #[2],
    code := #[⟨.pushEnsure, 2, 0, 0⟩, ⟨.raise, 1, 0, 0⟩, ⟨.makeBlock, 1, 0, 0⟩, ⟨.send, 1, 0, 0⟩,
      ⟨.leave, 1, 0, 0⟩] }, {
    registers := 2, code := #[⟨.loadSelf, 1, 0, 0⟩, ⟨.leave, 1, 0, 0⟩] }]

set_option synthInstance.maxSize 400 in
/-- The block has the receiver of the caller, although the method goes on and its window is as it
was. -/
theorem block_misled_ensuredBlock :
    ∃ a a' m, Reachable true [] a ∧ a.chain = [0, 1] ∧ self a = .ok (.int 7) a ∧
      tick a = .ok none a' ∧ a.memory.closure? 3 = none ∧ (a'.memory.closure? 3).isSome ∧
      Later [] a' true [] m ∧ m.chain = [3, 0, 1] ∧ (∀ w ∈ a.selfWindows, m.occupant w = a.occupant w) ∧
      entryAt? m.regs m.context.base = some (.proc 3) ∧ self m = .ok (.object 0) m := by
  have hrun : ∃ a ∈ ensuredBlock.after 8, a.chain = [0, 1] ∧ a.context.base = 1 ∧
      entryAt? a.regs 1 = some (.int 7) ∧ (a.memory.closure? 3).isNone ∧
      Leads NoFault tick a fun r a' => r = none ∧ (a'.memory.closure? 3).isSome ∧
        Leads NoFault tick a' fun r m => r = none ∧ m.chain = [3, 0, 1] ∧
          entryAt? m.regs 1 = some (.int 7) ∧ entryAt? m.regs m.context.base = some (.proc 3) ∧
          entryAt? m.regs (m.receiverWindow (m.depth + 1).toNat m.context.base) = some (.object 0) := by
    decide +kernel
  have hvalid : ensuredBlock.defect? = none := Program.defect?_eq_none (by decide +kernel)
  obtain ⟨a, ha, hchain, hbase, hnumber, hnew, htick⟩ := hrun
  obtain ⟨_, a', ht, rfl, hmade, hrest⟩ := htick.exists_ok
  obtain ⟨_, m, hm, rfl, hinside, hnumber', hblock, hself'⟩ := hrest.exists_ok
  rw [Option.isNone_iff_eq_none] at hnew
  obtain ⟨hself, hwindows⟩ := self_of_plain (hbase ▸ hnumber) rfl
  exact ⟨a, a', m, Reachable.of_after hvalid ha, hchain, hself, ht, hnew, hmade, .tick .here hm, hinside,
    by simp [hwindows, hbase, occupant, hnumber, hnumber', proc?], hblock, self_iff.2 hself'⟩

end ObjectMachine
