import ObjectMachine.Proofs.Making
import ObjectMachine.Proofs.Regimes

/-! What keeps to a regime. Exceptions, natives, calls, instructions, the other parts of ticks and
units of code are made of the actions that do, so they do too. Two actions are left to the regime,
the store of a variable and the definition of a class. -/

namespace ObjectMachine

/-- The opcodes that may store variables, by themselves or by calls. -/
def Opcode.storing : List Opcode := [.send, .sendBlock, .callSuper, .setVariable]

namespace Machine.Regime

section Statements

variable (R : Regime)

/-- Values of known classes may be stored in variables. -/
def Stores : Prop := ∀ obj s (v : Value), R.Has v.cls? → R.Keeps (setVariable obj s v)

/-- Classes may be defined below known ones, and are known then. -/
def Defines : Prop := ∀ name super, R.Has super → R.Gives R.Knows (defineClass name super)

end Statements

variable {R : Regime} [R.Complete] {m : Machine} {c : ClassId} {v : Value} {w : Window}

/-! ### Exceptions -/

theorem clearException_keeps : R.Keeps clearException :=
  Gives.of_get.bind fun _ _ => Gives.bind (.of_modify (fun _ hn => { hn with
    exception := R.has_none
    excMessage := R.has_none }) fun _ => rfl) fun _ _ => release_keeps _

theorem clearPending_keeps : R.Keeps clearPending :=
  Gives.of_get.bind fun _ _ => Gives.bind (.of_modify (fun _ hn => { hn with
    pending := R.has_none
    pendingMessage := R.has_none }) fun _ => rfl) fun _ _ => release_keeps _

theorem settlePending_keeps : R.Keeps settlePending := by
  have hend : R.Keeps (do
      modify fun m => { m with
        exception := none
        excMessage := .nil
        context := { m.context with excState := .normal, settleOnReturn := false } }
      if (← get).pending.isNone then throw .outOfBounds : Action Unit) := by
    refine Gives.bind (.of_modify (fun _ hn => { hn with
      exception := R.has_none
      excMessage := R.has_none }) fun _ => rfl) fun _ _ => Gives.of_get.bind fun m _ => ?_
    split
    · exact .of_throw _
    · exact .of_pure trivial
  refine Gives.of_get.bind fun m hm => ?_
  dsimp only
  split
  · exact Gives.bind (.of_modify (fun _ hn => { hn with
      pending := hn.exception
      pendingMessage := hn.excMessage }) fun _ => rfl) fun _ _ => hend
  · exact (release_keeps _).bind fun _ _ => hend

/-- The exception goes to the marker that it was unwound to, or on to the next ones. -/
theorem deliverException_keeps : R.Keeps deliverException := by
  intro m hm
  simp only [deliverException, Leads.bind_eq, Leads.get_eq]
  split
  · next f _ =>
    simp only [Leads.bind_eq, Leads.modify_eq]
    refine ((unwindTo_keeps popFrame_keeps (some f) m hm).and (unwindTo_control (some f))).mono ?_
    rintro _ m₁ ⟨⟨h₁, -⟩, hc₁⟩
    -- The marker is on top now, so what is resumed at is what is taken off.
    have hhead : m₁.chain.head? = some f := (Control.chain_of_popUntil hc₁ rfl).2
    exact (Complete.resumeTop_keeps h₁ hhead).mono fun _ _ h₂ => ⟨h₂, trivial⟩
  · simp only [Leads.bind_eq, Leads.get_eq]
    split
    · next f rest _ =>
      have hresume : R.Keeps (do
          modifyContext fun c => { c with markers := rest }
          resumeAt f : Action Unit) :=
        Gives.bind (.of_modifyContext fun _ h => h) fun _ _ => resumeAt_keeps popFrame_keeps f
      exact hresume m hm
    · have hsettle : R.Keeps (do
          modifyContext fun c => { c with excState := .raising }
          settlePending : Action Unit) :=
        Gives.bind (.of_modifyContext fun _ h => h) fun _ _ => settlePending_keeps
      exact hsettle m hm

theorem raise_keeps (hc : R.Knows c) (hv : R.Has v.cls?) : R.Keeps (raise c v) := by
  refine Gives.bind (.of_modify (fun _ hn => { hn with }) fun _ => rfl) fun _ _ =>
    Gives.of_get.bind fun m _ => ?_
  dsimp only
  split
  · exact (acquire_keeps v).bind fun _ _ => Gives.bind (.of_modify (fun _ hn => { hn with
      exception := has_some hc
      excMessage := hv }) fun _ => rfl) fun _ _ => deliverException_keeps
  · exact deliverException_keeps

theorem raiseText_keeps (hc : R.Knows c) (t : Text) : R.Keeps (raiseText c t) :=
  (newString_fetches t).bind fun _ hv => (raise_keeps hc hv).bind fun _ _ => release_keeps _

/-! ### Windows of natives -/

theorem windowReg_fetches (w : Window) (i : Int64) : R.Fetches (windowReg w i) := by
  unfold windowReg
  split
  · exact reg_fetches _
  · exact .of_throw _

theorem setReturn_keeps (w : Window) (hv : R.Has v.cls?) : R.Keeps (setReturn w v) :=
  (windowReg_fetches w 0).bind fun _ _ => setReg_keeps _ hv

theorem returnShared_keeps (w : Window) (hv : R.Has v.cls?) : R.Keeps (returnShared w v) :=
  (acquire_keeps v).bind fun _ _ => setReturn_keeps w hv

theorem returnText_keeps (w : Window) (t : Text) : R.Keeps (returnText w t) :=
  (newString_fetches t).bind fun _ hv => setReturn_keeps w hv

theorem argumentsFrom_gives (w : Window) (i : Int64) (count : Nat) :
    R.Gives (fun vs => ∀ v ∈ vs, R.Has v.cls?) (argumentsFrom w i count) := by
  induction count generalizing i with
  | zero => exact .of_pure nofun
  | succ count ih =>
    exact (windowReg_fetches w i).bind fun v hv => (ih (i + 1)).bind fun vs hvs =>
      .of_pure (List.forall_mem_cons.2 ⟨hv, hvs⟩)

theorem arguments_gives (w : Window) : R.Gives (fun vs => ∀ v ∈ vs, R.Has v.cls?) (arguments w) :=
  argumentsFrom_gives w _ _

theorem placeArguments_keeps (i : Int64) {vs : List Value} (hvs : ∀ v ∈ vs, R.Has v.cls?) :
    R.Keeps (placeArguments i vs) := by
  induction vs generalizing i with
  | nil => exact setReg_keeps i R.has_none
  | cons v vs ih =>
    obtain ⟨hv, hvs⟩ := List.forall_mem_cons.1 hvs
    exact (acquire_keeps v).bind fun _ _ => (setReg_keeps i hv).bind fun _ _ => ih (i + 1) hvs

/-! ### Duties -/

theorem leaveNative_keeps (id : MethodId) (w : Window) (callBase : Int64) (callee : Symbol) :
    R.Keeps (leaveNative id w callBase callee) := by
  refine (releaseMethod_clerical id).keeps.bind fun _ _ =>
    Gives.bind (.of_modifyContext fun _ h => h) fun _ _ => Gives.of_get.bind fun m _ => ?_
  split
  · exact clearRegs_keeps _ _
  · exact .of_pure trivial

theorem endConstruct_keeps {context : Context} {made : Value} (hcontext : R.Has context.targetClass)
    (hmade : R.Has made.cls?) (w : Window) : R.Keeps (endConstruct context made w) := by
  refine dropAllMarkers_keeps.bind fun _ _ =>
    Gives.bind (.of_modify (fun _ hn => { hn with target := hcontext }) fun _ => rfl) fun _ _ =>
      Gives.of_get.bind fun m hm => ?_
  split
  · next c hc =>
    refine Gives.bind (.of_modify (fun _ hn => { hn with
      pending := R.has_none
      pendingMessage := R.has_none }) fun _ => rfl) fun _ _ => (release_keeps _).bind fun _ _ =>
        (setReturn_keeps w R.has_none).bind fun _ _ => ?_
    exact (raise_keeps (hm.pending c hc) hm.pendingMessage).bind fun _ _ => release_keeps _
  · exact setReturn_keeps w hmade

theorem runDuty_keeps {d : Duty} (hd : R.Owes d) : R.Keeps (runDuty d) := by
  cases d with
  | construct context made w => exact endConstruct_keeps hd.1 hd.2 w
  | leave id w callBase callee => exact leaveNative_keeps id w callBase callee
  | deliver scratch w => exact (exchangeReg_fetches _ R.has_none).bind fun _ hv => setReturn_keeps w hv

theorem runDuties_keeps {ds : List Duty} (hds : ∀ d ∈ ds, R.Owes d) : R.Keeps (runDuties ds) := by
  induction ds with
  | nil => exact .of_pure trivial
  | cons d ds ih =>
    obtain ⟨hd, hds⟩ := List.forall_mem_cons.1 hds
    exact (runDuty_keeps hd).bind fun _ _ => ih hds

theorem enterConstruct_keeps {made : Value} (hmade : R.Has made.cls?) (w : Window) {ds : List Duty}
    (hds : ∀ d ∈ ds, R.Owes d) : R.Keeps (enterConstruct made w ds) := by
  refine Gives.of_get.bind fun m hm => Gives.bind (.of_modifyContext fun _ h => h) fun _ _ =>
    Gives.bind (.of_modify (fun n hn => { hn with duties := fun d hd => ?_ }) fun _ => rfl) fun _ _ =>
      Gives.of_get.bind fun _ _ => currentSize_keeps.bind fun _ _ => (enterWindow_clerical _ _).keeps
  simp only [duties, List.flatMap_cons, List.cons_append, List.mem_cons, List.mem_append] at hd
  rcases hd with rfl | hd | hd
  · exact ⟨hm.target, hmade⟩
  · exact hds d hd
  · exact hn.duties d hd

omit [R.Complete] in
theorem Names.suspended (h : R.Names m) : ∀ s ∈ m.suspended, ∀ d ∈ s.duties, R.Owes d :=
  fun s hs d hd => h.duties d (List.mem_flatMap.2 ⟨s, hs, hd⟩)

theorem resumePass_keeps {s : Suspension} {rest : List Suspension}
    (hs : ∀ t ∈ s :: rest, ∀ d ∈ t.duties, R.Owes d) : R.Keeps (resumePass s rest) := by
  obtain ⟨hduties, hrest⟩ := List.forall_mem_cons.1 hs
  refine Gives.bind (.of_modify (fun _ hn => { hn with duties := fun d hd => ?_ }) fun _ => rfl) fun _ _ =>
    runDuties_keeps hduties
  obtain ⟨t, ht, hd⟩ := List.mem_flatMap.1 hd
  exact hrest t ht d hd

/-! ### Code -/

theorem callCode_keeps (a : Int64) (name : Symbol) (argc : Int64) (id : MethodId) (owner : ClassId)
    (code : Code) : R.Keeps (callCode a name argc id owner code) :=
  Gives.of_get.bind fun _ _ => (pushFrame_keeps _ _ _).bind fun f _ =>
    Gives.bind (.of_modifyFrame f (fun _ => rfl) fun _ h => h) fun _ _ =>
      Gives.bind (.of_modifyMethod id _) fun _ _ => Gives.bind (.of_modifyContext fun _ h => h) fun _ _ =>
        (enterWindow_clerical _ _).keeps.bind fun _ _ =>
          .of_modify (fun _ hn => { hn with }) fun _ => rfl

theorem codeSymbol_keeps (i : Int64) : R.Keeps (codeSymbol i) :=
  currentCode_keeps.bind fun _ _ =>
    Gives.bind (Q := fun _ => True) (fun _ hm => ⟨Lawful.interned _ hm, trivial⟩) fun _ _ =>
      present_keeps _

theorem variableSymbol_keeps (i : Int64) : R.Keeps (variableSymbol i) :=
  currentCode_keeps.bind fun _ _ => (present_keeps _).bind fun _ _ => (intern_clerical _).keeps

theorem literalValue_fetches (x : Literal) : R.Fetches (literalValue x) := by
  rcases literalValue_cases x with ⟨v, -, hv, hx⟩ | hx <;> rw [hx]
  · exact .of_pure (hv ▸ R.has_none)
  · exact newString_fetches x.text

theorem enterBody_keeps (a : Int64) (hc : R.Knows c) (child : Int64) : R.Keeps (enterBody a c child) :=
  Gives.of_get.bind fun _ _ => (pushFrame_keeps _ _ _).bind fun f _ =>
    Gives.bind (.of_modifyFrame f (fun _ => rfl) fun _ h => h) fun _ _ => currentCode_keeps.bind fun _ _ =>
      (present_keeps _).bind fun _ _ =>
        Gives.bind (.of_modifyContext fun _ _ => has_some hc) fun _ _ =>
          (enterWindow_clerical _ _).keeps.bind fun _ _ => .of_modify (fun _ hn => { hn with }) fun _ => rfl

theorem leaveFrame_keeps (a : Int64) : R.Keeps (leaveFrame a) := by
  refine Gives.of_get.bind fun _ _ => (exchangeReg_fetches _ R.has_none).bind fun _ hv =>
    Gives.of_get.bind fun m _ => ?_
  split
  · exact .of_pure trivial
  · exact currentSize_keeps.bind fun _ _ => (clearRegs_keeps _ _).bind fun _ _ =>
      (setReg_keeps _ hv).bind fun _ _ => popFrame_keeps.bind fun _ _ => .of_pure trivial

theorem leave_keeps (a : Int64) : R.Keeps (leave a) := by
  intro m hm
  simp only [leave, Leads.bind_eq, Leads.get_eq]
  split
  · next f hf =>
    obtain ⟨hhead, -⟩ := Option.filter_eq_some_iff.1 hf
    simp only [Leads.bind_eq, Leads.modify_eq, Leads.pure_eq]
    exact (Complete.resumeTop_keeps hm hhead).mono fun _ _ h => ⟨h, trivial⟩
  · split
    · have hsettle : R.Keeps (do settlePending; return .same : Action Progress) :=
        settlePending_keeps.bind fun _ _ => .of_pure trivial
      exact hsettle m hm
    · exact leaveFrame_keeps a m hm

theorem takeException_keeps (a : Int64) : R.Keeps (takeException a) := by
  refine Gives.of_get.bind fun _ _ => Gives.of_get.bind fun m hm => ?_
  split
  · exact (setReg_keeps _ R.has_none).bind fun _ _ => setReg_keeps _ R.has_none
  · next c hc =>
    have htake : R.Keeps (modify fun m => { m with excMessage := .nil } : Action Unit) :=
      .of_modify (fun _ hk => { hk with excMessage := R.has_none }) fun _ => rfl
    exact Gives.of_get.bind fun n hn => (setReg_keeps _ (has_some (hm.exception c hc))).bind fun _ _ =>
      htake.bind fun _ _ => (setReg_keeps _ hn.excMessage).bind fun _ _ => clearException_keeps

/-! ### Methods of a host -/

theorem hostValue_fetches {given : List Value} (hgiven : ∀ v ∈ given, R.Has v.cls?) (x : HostOperand) :
    R.Fetches (hostValue w given x) := by
  cases x with
  | register i => exact windowReg_fetches w i
  | given k =>
    refine .of_pure ?_
    rw [List.getD_eq_getElem?_getD]
    cases hk : given[k]? with
    | none => exact R.has_none
    | some v => exact hgiven v (List.mem_of_getElem? hk)
  | nil => exact .of_pure R.has_none
  | int n => exact .of_pure R.has_none

theorem hostOperation_fetches (hstores : R.Stores) {given : List Value}
    (hgiven : ∀ v ∈ given, R.Has v.cls?) (op : HostOperation) : R.Fetches (hostOperation w given op) := by
  have hvalue : ∀ x, R.Fetches (hostValue w given x) := hostValue_fetches hgiven
  unfold hostOperation
  cases op <;> dsimp only
  case newInstance c =>
    refine (hvalue c).bind fun v hv => ?_
    split
    · next hc => exact newInstance_fetches (hv _ hc)
    · exact .of_pure R.has_none
  case newString t => exact newString_fetches t
  case dupInstance obj => exact (hvalue obj).bind fun v _ => dupInstance_fetches v
  case getVariable obj name =>
    exact (hvalue obj).bind fun v _ => (intern_clerical name).keeps.bind fun k _ => getVariable_fetches v k
  case setVariable obj name v =>
    exact (hvalue obj).bind fun o _ => (intern_clerical name).keeps.bind fun k _ =>
      (hvalue v).bind fun x hx => (hstores o k x hx).bind fun _ _ => .of_pure R.has_none
  case getConstant name => exact (intern_clerical name).keeps.bind fun k _ => getConstant_fetches k
  case setConstant name v =>
    exact (intern_clerical name).keeps.bind fun k _ => (hvalue v).bind fun x hx =>
      (setConstant_keeps k hx).bind fun _ _ => .of_pure R.has_none
  case acquire v =>
    exact (hvalue v).bind fun x _ => (acquire_keeps x).bind fun _ _ => .of_pure R.has_none
  case release v =>
    exact (hvalue v).bind fun x _ => (release_keeps x).bind fun _ _ => .of_pure R.has_none

theorem hostWork_gives (hstores : R.Stores) {given : List Value} (hgiven : ∀ v ∈ given, R.Has v.cls?)
    (work : List HostOperation) :
    R.Gives (fun vs => ∀ v ∈ vs, R.Has v.cls?) (hostWork w given work) := by
  induction work generalizing given with
  | nil => exact .of_pure hgiven
  | cons op work ih =>
    exact (hostOperation_fetches hstores hgiven op).bind fun v hv =>
      ih (List.forall_mem_cons.2 ⟨hv, hgiven⟩)

/-! ### Natives -/

section Core

variable (hcore : R.Core)

include hcore

theorem raiseArguments_gives (w : Window) :
    R.Gives (fun p => R.Knows p.1 ∧ R.Has p.2.cls?) (raiseArguments w) := by
  have hruntime : R.Knows ClassId.runtimeError := hcore _ (by decide)
  have hargument : R.Knows ClassId.argumentError := hcore _ (by decide)
  unfold raiseArguments
  split
  · exact .of_pure ⟨hruntime, R.has_none⟩
  · split
    · refine (windowReg_fetches w 1).bind fun v hv => ?_
      split
      · exact .of_pure ⟨hv _ rfl, R.has_none⟩
      · exact .of_pure ⟨hruntime, hv⟩
    · split
      · refine (windowReg_fetches w 1).bind fun v hv => ?_
        split
        · exact (windowReg_fetches w 2).bind fun _ hmessage => .of_pure ⟨hv _ rfl, hmessage⟩
        · exact .of_pure ⟨hargument, R.has_none⟩
      · exact .of_pure ⟨hargument, R.has_none⟩

theorem defineAttributes_keeps (w : Window) (c : ClassId) (writable : Bool) (vs : List Value) :
    R.Keeps (defineAttributes w c writable vs) := by
  induction vs with
  | nil => exact setReturn_keeps w R.has_none
  | cons v vs ih =>
    refine Gives.of_get.bind fun m _ => ?_
    dsimp only
    split
    · exact raiseText_keeps (hcore _ (by decide)) _
    · refine (defineNative?_clerical c _ trivial).keeps.of_discard.bind fun _ _ => ?_
      split
      · exact (defineNative?_clerical c _ trivial).keeps.of_discard.bind fun _ _ => ih
      · exact ih

theorem attributes_keeps (w : Window) (writable : Bool) : R.Keeps (attributes w writable) := by
  refine (windowReg_fetches w 0).bind fun v _ => ?_
  split
  · exact raiseText_keeps (hcore _ (by decide)) _
  · exact (arguments_gives w).bind fun vs _ => defineAttributes_keeps hcore w _ _ vs

theorem callProc_keeps (w : Window) : R.Keeps (callProc w) := by
  refine (windowReg_fetches w 0).bind fun v _ => Gives.of_get.bind fun m _ => ?_
  split
  · exact Gives.of_get.bind fun _ _ => raiseText_keeps (hcore _ (by decide)) _
  · have hend : ∀ code : Code, R.Keeps (do
        modifyContext fun c => { c with base := c.callBase, code := some code, pc := 0 }
        enterWindow (← get).context.base code.block.registers
        modify fun m => { m with jumped := true } : Action Unit) := fun code =>
      Gives.bind (.of_modifyContext fun _ h => h) fun _ _ => Gives.of_get.bind fun _ _ =>
        (enterWindow_clerical _ _).keeps.bind fun _ _ => .of_modify (fun _ hn => { hn with }) fun _ => rfl
    refine Gives.of_get.bind fun m _ => (pushFrame_keeps _ _ _).bind fun f _ => ?_
    dsimp only
    split
    · refine Gives.of_get.bind fun m _ => ?_
      split
      · exact Gives.bind (.of_modifyFrame f (fun _ => rfl) fun _ h => h) fun _ _ => hend _
      · exact hend _
    · exact hend _

theorem construct_gives (w : Window) : R.Gives R.Awaits (construct w) := by
  refine (windowReg_fetches w 0).bind fun v hv => ?_
  split
  · refine (newInstance_fetches (hv _ rfl)).bind fun made hmade => ?_
    split
    · exact (setReturn_keeps w R.has_none).bind fun _ _ => .of_pure trivial
    · refine (intern_clerical _).keeps.bind fun k _ => Gives.of_get.bind fun m _ => ?_
      split
      · exact (setReturn_keeps w hmade).bind fun _ _ => .of_pure trivial
      · exact (returnShared_keeps w hmade).bind fun _ _ => .of_pure hmade
  · exact Gives.of_get.bind fun _ _ =>
      (raiseText_keeps (hcore _ (by decide)) _).bind fun _ _ => .of_pure trivial

theorem probeSend_gives (w : Window) : R.Gives R.Awaits (probeSend w) := by
  have hret : R.Gives R.Awaits (do setReturn w .nil; return .done) :=
    (setReturn_keeps w R.has_none).bind fun _ _ => .of_pure trivial
  unfold probeSend
  split
  · exact hret
  · refine (windowReg_fetches w 1).bind fun v _ => ?_
    split
    · refine (windowReg_fetches w 0).bind fun receiver hreceiver =>
        (argumentsFrom_gives w 2 _).bind fun args hargs => (nameOf_clerical _).keeps.bind fun _ _ =>
          (intern_clerical _).keeps.bind fun _ _ => Gives.of_get.bind fun m _ => ?_
      have hall : ∀ v ∈ receiver :: args, R.Has v.cls? := List.forall_mem_cons.2 ⟨hreceiver, hargs⟩
      dsimp only
      split
      · exact (raiseText_keeps (hcore _ (by decide)) _).bind fun _ _ =>
          (write_clerical _).keeps.bind fun _ _ => hret
      · split
        · exact (write_clerical _).keeps.bind fun _ _ => hret
        · exact (recordCall_clerical _ _).keeps.bind fun _ _ => Gives.of_get.bind fun m _ =>
            (enterWindow_clerical _ _).keeps.bind fun _ _ => (placeArguments_keeps _ hall).bind fun _ _ =>
              .of_pure trivial
    · exact hret

theorem runHost_keeps (hstores : R.Stores) (work : List HostOperation) (ending : HostEnding)
    (w : Window) : R.Keeps (runHost work ending w) := by
  refine (hostWork_gives hstores (List.forall_mem_nil _) work).bind fun given hgiven => ?_
  have hvalue : ∀ x, R.Fetches (hostValue w given x) := hostValue_fetches hgiven
  cases ending with
  | keep => exact .of_pure trivial
  | give v => exact (hvalue v).bind fun x hx => setReturn_keeps w hx
  | raise c message =>
    refine (hvalue c).bind fun e he => (hvalue message).bind fun x hx => raise_keeps ?_ hx
    cases hc : e.cls? with
    | none => exact hcore _ (by decide)
    | some k => exact he k hc

theorem runProbe_gives (hstores : R.Stores) (p : Probe) (w : Window) :
    R.Gives R.Awaits (runProbe p w) := by
  have hret : ∀ v : Value, R.Has v.cls? →
      R.Gives R.Awaits (do setReturn w v; return .done) :=
    fun v hv => (setReturn_keeps w hv).bind fun _ _ => .of_pure trivial
  have hshared : ∀ v : Value, R.Has v.cls? →
      R.Gives R.Awaits (do returnShared w v; return .done) :=
    fun v hv => (returnShared_keeps w hv).bind fun _ _ => .of_pure trivial
  unfold runProbe
  cases p <;> dsimp only [returnBool]
  case answer | argumentCount => exact hret _ R.has_none
  case callee => exact Gives.of_get.bind fun _ _ => hret _ R.has_none
  case firstArgument =>
    split
    · exact Gives.bind (.of_pure R.has_none) hshared
    · exact (windowReg_fetches w 1).bind hshared
  case block => exact (windowReg_fetches w _).bind hshared
  case self => exact self_fetches.bind hshared
  case blockGiven => exact blockGiven_keeps.bind fun _ _ => hret _ R.has_none
  case keep => exact .of_pure trivial
  case raise =>
    exact (setReturn_keeps w R.has_none).bind fun _ _ =>
      (raiseText_keeps (hcore _ (by decide)) _).bind fun _ _ => .of_pure trivial
  case send => exact probeSend_gives hcore w
  case state =>
    exact Gives.of_get.bind fun _ _ => (write_clerical _).keeps.bind fun _ _ => hret _ R.has_none
  case host work ending =>
    exact (runHost_keeps hcore hstores work ending w).bind fun _ _ => .of_pure trivial

theorem runNative_gives {n : Native} (hstores : n = .attributeSet ∨ (∃ p, n = .probe p) → R.Stores)
    (w : Window) : R.Gives R.Awaits (runNative n w) := by
  have hret : ∀ v : Value, R.Has v.cls? →
      R.Gives R.Awaits (do setReturn w v; return .done) :=
    fun v hv => (setReturn_keeps w hv).bind fun _ _ => .of_pure trivial
  have hshared : ∀ v : Value, R.Has v.cls? →
      R.Gives R.Awaits (do returnShared w v; return .done) :=
    fun v hv => (returnShared_keeps w hv).bind fun _ _ => .of_pure trivial
  have htext : ∀ t, R.Gives R.Awaits (do returnText w t; return .done) :=
    fun t => (returnText_keeps w t).bind fun _ _ => .of_pure trivial
  have hraise : ∀ c < 16, ∀ t, R.Gives R.Awaits (do raiseText c t; return .done) :=
    fun c hc t => (raiseText_keeps (hcore c hc) t).bind fun _ _ => .of_pure trivial
  have hshow : ∀ t (v : Value), R.Has v.cls? →
      R.Gives R.Awaits (do write t; setReturn w v; return .done) :=
    fun t v hv => (write_clerical t).keeps.bind fun _ _ => hret v hv
  have hread : ∀ i, R.Fetches (windowReg w i) := windowReg_fetches w
  have hget : R.Gives R.Names get := .of_get
  unfold runNative
  cases n <;> dsimp only [returnBool]
  case probe p => exact runProbe_gives hcore (hstores (.inr ⟨p, rfl⟩)) p w
  case new => exact construct_gives hcore w
  case callProc => exact (callProc_keeps hcore w).bind fun _ _ => .of_pure trivial
  case not | isNil => exact (hread 0).bind fun _ _ => hret _ R.has_none
  case objectId => exact hget.bind fun _ _ => (hread 0).bind fun _ _ => hret _ R.has_none
  case classOf =>
    exact hget.bind fun _ hm => (hread 0).bind fun _ hv =>
      hret _ (has_some (hm.classOf hcore hv))
  case nilToInt | nilToFloat => exact hret _ R.has_none
  case equal | notEqual | compare =>
    split
    · exact hret _ R.has_none
    · exact hget.bind fun _ _ => (hread 0).bind fun _ _ => (hread 1).bind fun _ _ => hret _ R.has_none
  case caseEqual =>
    split
    · exact hret _ R.has_none
    · refine (hread 0).bind fun u _ => (hread 1).bind fun v _ => ?_
      split <;> exact hget.bind fun _ _ => hret _ R.has_none
  case isKindOf =>
    split
    · refine Gives.bind (Q := fun _ => True) (.of_pure trivial) fun v _ => ?_
      split
      · exact hraise _ (by decide) _
      · exact hget.bind fun _ _ => (hread 0).bind fun _ _ => hret _ R.has_none
    · refine (hread 1).bind fun v _ => ?_
      split
      · exact hraise _ (by decide) _
      · exact hget.bind fun _ _ => (hread 0).bind fun _ _ => hret _ R.has_none
  case dup =>
    refine (hread 0).bind fun v _ => ?_
    split
    · exact (dupInstance_fetches _).bind hret
    · exact .of_pure trivial
  case attributeReader => exact (attributes_keeps hcore w false).bind fun _ _ => .of_pure trivial
  case attributeAccessor => exact (attributes_keeps hcore w true).bind fun _ _ => .of_pure trivial
  case blockGiven => exact blockGiven_keeps.bind fun _ _ => hret _ R.has_none
  case raise =>
    exact (raiseArguments_gives hcore w).bind fun p hp => (setReturn_keeps w R.has_none).bind fun _ _ =>
      (raise_keeps hp.1 hp.2).bind fun _ _ => .of_pure trivial
  case inspect | boolToText => exact hget.bind fun _ _ => (hread 0).bind fun _ _ => htext _
  case nilInspect | nilToText => exact htext _
  case toText =>
    refine (hread 0).bind fun v _ => ?_
    split
    · exact .of_pure trivial
    · exact hget.bind fun _ _ => htext _
  case «show» =>
    refine (arguments_gives w).bind fun vs hvs => hget.bind fun _ _ =>
      (write_clerical _).keeps.bind fun _ _ => ?_
    split
    · exact hshared _ (hvs _ List.mem_cons_self)
    · exact hret _ R.has_none
  case print =>
    exact (arguments_gives w).bind fun vs _ => hget.bind fun _ _ => hshow _ _ R.has_none
  case put =>
    refine (arguments_gives w).bind fun vs _ => hget.bind fun _ _ => ?_
    split <;> exact hshow _ _ R.has_none
  case newProc =>
    refine (hread _).bind fun v hv => ?_
    split
    · exact hshared _ hv
    · exact hraise _ (by decide) _
  case attributeGet =>
    exact (hread 0).bind fun v _ => hget.bind fun _ _ => (getVariable_fetches v _).bind hret
  case attributeSet =>
    split
    · exact hraise _ (by decide) _
    · exact hget.bind fun _ _ => (nameOf_clerical _).keeps.bind fun _ _ => (hread 1).bind fun v hv =>
        (hread 0).bind fun obj _ => (intern_clerical _).keeps.bind fun _ _ =>
          (hstores (.inl rfl) obj _ v hv).bind fun _ _ => hshared _ hv
  case instanceMethods | instanceVariables =>
    exact hget.bind fun _ _ => (hread 0).bind fun _ _ => hshow _ _ R.has_none
  case memoryStatistics => exact hget.bind fun _ _ => hshow _ _ R.has_none

/-! ### Calls -/

section Stores

variable (hstores : R.Stores)

include hstores

theorem startNative_gives (id : MethodId) (w : Window) {ds : List Duty} (hds : ∀ d ∈ ds, R.Owes d) :
    R.Gives R.Defers (startNative id w ds) := by
  have henter : R.Gives R.Owes (enterNative id w) :=
    Gives.of_get.bind fun _ _ => Gives.bind (.of_modifyContext fun _ h => h) fun _ _ =>
      Gives.bind (.of_modifyMethod id _) fun _ _ => .of_pure trivial
  have hcheck : R.Keeps (checkWindow w) := by
    refine Gives.of_get.bind fun m _ => ?_
    split
    · exact .of_throw _
    · exact .of_pure trivial
  refine henter.bind fun leave hleave => hcheck.bind fun _ _ => Gives.of_get.bind fun m _ =>
    (present_keeps _).bind fun n _ => (runNative_gives hcore (fun _ => hstores) w).bind fun o ho => ?_
  have hrest := List.forall_mem_cons.2 ⟨hleave, hds⟩
  cases o with
  | done => exact (runDuties_keeps hrest).bind fun _ _ => .of_pure trivial
  | construct made => exact (enterConstruct_keeps ho w hrest).bind fun _ _ => .of_pure trivial
  | call inner window => exact .of_pure (List.forall_mem_cons.2 ⟨trivial, hrest⟩)

theorem callNative_keeps (limit : Nat) {call : InnerCall} (hds : ∀ d ∈ call.duties, R.Owes d) :
    R.Keeps (callNative limit call) := by
  induction limit generalizing call with
  | zero =>
    rw [callNative]
    refine (startNative_gives hcore hstores call.method call.window hds).bind fun x _ => ?_
    cases x with
    | inl p => exact .of_pure trivial
    | inr inner => exact .of_throw _
  | succ limit ih =>
    rw [callNative]
    refine (startNative_gives hcore hstores call.method call.window hds).bind fun x hx => ?_
    cases x with
    | inl p => exact .of_pure trivial
    | inr inner => exact ih hx

theorem dispatch_keeps (a : Int64) (s : Symbol) (argc : Int64) (c : ClassId) :
    R.Keeps (dispatch a s argc c) := by
  refine Gives.of_get.bind fun _ _ => (enterWindow_clerical _ _).keeps.bind fun _ _ =>
    Gives.of_get.bind fun m _ => ?_
  split
  · exact (reg_fetches _).bind fun _ _ => Gives.of_get.bind fun _ _ =>
      (raiseText_keeps (hcore _ (by decide)) _).bind fun _ _ => .of_pure trivial
  · refine (recordCall_clerical _ _).keeps.bind fun _ _ => Gives.of_get.bind fun m _ => ?_
    split
    · exact callNative_keeps hcore hstores _ (List.forall_mem_nil _)
    · exact (callCode_keeps _ _ _ _ _ _).bind fun _ _ => .of_pure trivial

theorem callSuper_keeps (a argc : Int64) : R.Keeps (callSuper a argc) := by
  have hraise : ∀ t, R.Keeps (do raiseText .noMethodError t; return .same : Action Progress) :=
    fun t => (raiseText_keeps (hcore _ (by decide)) t).bind fun _ _ => .of_pure trivial
  refine Gives.of_get.bind fun m _ => ?_
  split
  · refine self_fetches.bind fun v hv => (acquire_keeps v).bind fun _ _ => Gives.of_get.bind fun _ _ =>
      (setReg_keeps _ hv).bind fun _ _ => (enterWindow_clerical _ _).keeps.bind fun _ _ =>
        (setReg_keeps _ R.has_none).bind fun _ _ => Gives.of_get.bind fun m _ => ?_
    split
    · exact (nameOf_clerical _).keeps.bind fun _ _ => hraise _
    · exact dispatch_keeps hcore hstores _ _ _ _
  · exact hraise _

end Stores

/-! ### Instructions -/

omit [R.Complete] hcore in
/-- What is looked up is found without doing anything. -/
theorem Gives.lookup_bind {α β : Type} {x : Action α} {f : α → Action β} {Q : α → Prop}
    {S : β → Machine → Prop} (hx : R.Gives Q x) (hm : R.Holds m)
    (hsame : Leads (Excused True) x m fun _ m' => m' = m)
    (hf : ∀ a, Q a → x m = .ok a m → Leads (fun _ m' => R.Halts m') (f a) m S) :
    Leads (fun _ m' => R.Halts m') (x >>= f) m S := by
  have hfound := hx m hm
  rw [Leads.bind_eq]
  refine .intro (fun a m₁ hok => ?_) fun _ _ herror => hfound.of_error herror
  obtain rfl : m₁ = m := hsame.of_ok hok
  exact hf a (hfound.of_ok hok).2 hok

/-- In the end, an instruction keeps to the regime. -/
theorem concluded_keeps {i : Inst} {m₁ : Machine} {fresh : Bool} {known : List Value}
    {x : Action Progress} (hcon : Concludes i m fresh known x)
    (hstores : i.op ∈ Opcode.storing → R.Stores) (h : R.Holds m₁) (hknown : ∀ v ∈ known, R.Has v.cls?) :
    Leads (fun _ m' => R.Halts m') x m₁ fun _ m' => R.Holds m' ∧ True := by
  have hlast : ∀ {m₂ : Machine} {x : Action Unit}, R.Keeps x → R.Holds m₂ →
      Leads (fun _ m' => R.Halts m') (x >>= fun _ => pure Progress.same) m₂
        fun _ m' => R.Holds m' ∧ True :=
    fun hx h₂ => (hx.bind fun _ _ => Gives.of_pure trivial) _ h₂
  cases hcon with
  | done => exact ⟨h, trivial⟩
  | setVariable s hop _ hv =>
    exact hlast (hstores (by simp [Opcode.storing, hop]) _ s _ (hknown _ hv)) h
  | setConstant s hv => exact hlast (setConstant_keeps s (hknown _ hv)) h
  | install c s _ _ => exact hlast (installCode?_clerical c s trivial).keeps.of_discard h
  | goto _ _ _ => exact hlast (.of_modifyContext fun _ h => h) h
  | enterBody _ _ _ _ hv hc => exact hlast (enterBody_keeps i.a (hknown _ hv _ hc) _) h
  | protect tag _ _ _ _ => exact hlast (pushMarker_keeps tag _) h
  | popMarkers _ => exact hlast (popMarkers_keeps i.a) h
  | takeException _ _ => exact hlast (takeException_keeps i.a) h
  | raise _ hc hv =>
    refine hlast (raise_keeps ?_ (hknown _ hv)) h
    rcases hc with rfl | hc
    · exact hcore _ (by decide)
    · exact hknown _ hc _ rfl
  | raiseText t hc _ => exact hlast (raiseText_keeps (hcore _ hc) t) h
  | send hop =>
    have hsend : R.Keeps (do
        enterWindow (m.context.base + i.a) (i.c + 2)
        setReg (m.context.base + i.a + i.c + 1) .nil
        let s ← codeSymbol i.b
        let receiver ← reg (m.context.base + i.a)
        dispatch i.a s i.c ((← get).classOf receiver)) :=
      (enterWindow_clerical _ _).keeps.bind fun _ _ => (setReg_keeps _ R.has_none).bind fun _ _ =>
        (codeSymbol_keeps _).bind fun s _ => (reg_fetches _).bind fun _ _ => Gives.of_get.bind
          fun _ _ => dispatch_keeps hcore (hstores (by simp [Opcode.storing, hop])) _ _ _ _
    exact hsend m₁ h
  | sendBlock hop =>
    have hsend : R.Keeps (do
        let s ← codeSymbol i.b
        let receiver ← reg (m.context.base + i.a)
        dispatch i.a s i.c ((← get).classOf receiver)) :=
      (codeSymbol_keeps _).bind fun s _ => (reg_fetches _).bind fun _ _ => Gives.of_get.bind
        fun _ _ => dispatch_keeps hcore (hstores (by simp [Opcode.storing, hop])) _ _ _ _
    exact hsend m₁ h
  | callSuper hop =>
    exact callSuper_keeps hcore (hstores (by simp [Opcode.storing, hop])) i.a i.b m₁ h
  | unknown number =>
    simp only [Leads.bind_eq, Leads.get_eq]
    exact (currentCode_keeps m₁ h).mono fun _ _ h₂ => Lawful.halts h₂.1

/-- What is left of an instruction that ends nothing keeps to the regime. -/
theorem composed_keeps {i : Inst} {m₁ : Machine} {fresh : Bool} {held known : List Value}
    {x : Action Progress} (hcomp : Composed i m fresh held known x)
    (hstores : i.op ∈ Opcode.storing → R.Stores) (hdefines : i.op = .defineClass → R.Defines)
    (h : R.Holds m₁) (hheld : ∀ v ∈ held, R.Has v.cls?) (hknown : ∀ v ∈ known, R.Has v.cls?)
    (hfresh : fresh = true → m₁ = m) :
    Leads (fun _ m' => R.Halts m') x m₁ fun _ m' => R.Holds m' ∧ True := by
  have hold : ∀ {m₂ : Machine}, false = true → m₂ = m := nofun
  have hnone : ∀ v ∈ ([] : List Value), R.Has v.cls? := nofun
  have hmore : ∀ {vs : List Value} {v : Value}, (∀ v ∈ vs, R.Has v.cls?) → R.Has v.cls? →
      ∀ w ∈ v :: vs, R.Has w.cls? := fun hvs hv => List.forall_mem_cons.2 ⟨hv, hvs⟩
  induction hcomp generalizing m₁ with
  | read _ _ ih =>
    refine (reg_fetches _).lookup_bind h (reg_leads fun _ _ => rfl) fun v hv _ => ?_
    exact ih v h hheld (hmore hknown hv) hfresh
  | self _ _ ih =>
    refine self_fetches.lookup_bind h (self_leads fun _ _ => rfl) fun v hv _ => ?_
    exact ih v h hheld (hmore hknown hv) hfresh
  | consult _ _ ih => exact ih m₁ hfresh h hheld hknown hfresh
  | outer _ _ _ ihnone ihsome =>
    obtain rfl := hfresh rfl
    refine (outerBase_keeps _).lookup_bind h (outerBase_leads _ fun _ _ => rfl)
      fun up _ hup => ?_
    cases up with
    | none => exact ihnone h hheld hknown hfresh
    | some up => exact ihsome up hup h hheld hknown hfresh
  | name _ _ _ ih =>
    refine currentCode_keeps.lookup_bind h (currentCode_leads fun _ _ => rfl)
      fun code _ _ => ?_
    exact (present_keeps _).lookup_bind h (present_leads fun _ _ => rfl) fun t _ _ =>
      ih t h hheld hknown hfresh
  | symbol _ _ _ ih =>
    rw [Leads.bind_eq]
    exact (codeSymbol_keeps _ m₁ h).mono fun s _ h₂ => ih s h₂.1 hheld hknown hold
  | «variable» _ _ _ ih =>
    rw [Leads.bind_eq]
    exact (variableSymbol_keeps _ m₁ h).mono fun s _ h₂ => ih s h₂.1 hheld hknown hold
  | immediate _ _ hcls _ ih => exact ih h (hmore hheld (hcls ▸ R.has_none)) hknown hfresh
  | target _ ih =>
    obtain rfl := hfresh rfl
    refine ih h (hmore hheld ?_) hknown hfresh
    cases hc : m₁.context.targetClass with
    | none => exact R.has_none
    | some c => exact has_some ((Lawful.names h).target c hc)
  | share hv _ ih =>
    rw [Leads.bind_eq]
    exact (acquire_keeps _ m₁ h).mono fun _ _ h₂ => ih h₂.1 (hmore hheld (hknown _ hv)) hnone hold
  | literal _ _ _ ih =>
    simp only [Leads.bind_eq]
    refine (currentCode_keeps m₁ h).mono fun code m₂ h₂ => ?_
    refine (present_keeps _ m₂ h₂.1).mono fun x m₃ h₃ => ?_
    exact (literalValue_fetches x m₃ h₃.1).mono fun v _ h₄ =>
      ih v h₄.1 (hmore hheld h₄.2) hnone hold
  | block _ _ _ _ _ ih =>
    simp only [Leads.bind_eq]
    refine (currentCode_keeps m₁ h).mono fun code m₂ h₂ => ?_
    refine (present_keeps _ m₂ h₂.1).mono fun child m₃ h₃ => ?_
    exact (newProc_fetches child m₃ h₃.1).mono fun v _ h₄ => ih v h₄.1 (hmore hheld h₄.2) hnone hold
  | getVariable s _ _ ih =>
    rw [Leads.bind_eq]
    exact (getVariable_fetches _ s m₁ h).mono fun v _ h₂ => ih v h₂.1 (hmore hheld h₂.2) hnone hold
  | getConstant s _ ih =>
    rw [Leads.bind_eq]
    exact (getConstant_fetches s m₁ h).mono fun v _ h₂ => ih v h₂.1 (hmore hheld h₂.2) hnone hold
  | defineClass name hop hv hsuper _ ih =>
    have hhas : R.Has _ := hknown _ hv
    rw [Leads.bind_eq]
    refine (hdefines hop name _ ?_ m₁ h).mono fun c _ h₂ =>
      ih c h₂.1 (hmore hheld (has_some h₂.2)) hnone hold
    unfold superOf? at hsuper
    split at hsuper <;> cases hsuper
    · exact R.has_none
    · exact R.has_none
    · exact hhas
  | store _ _ _ ih =>
    obtain ⟨hv, hrest⟩ := List.forall_mem_cons.1 hheld
    rw [Leads.bind_eq]
    exact (setReg_keeps _ hv m₁ h).mono fun _ _ h₂ => ih h₂.1 hrest hnone hold
  | last hlast => exact concluded_keeps hcore hlast hstores h hknown

theorem step_keeps (i : Inst) (hstores : i.op ∈ Opcode.storing → R.Stores)
    (hdefines : i.op = .defineClass → R.Defines) : R.Keeps (step i) := by
  intro m h
  cases hop : i.op.isOrdinary with
  | true =>
    obtain ⟨x, hcomp, hstep⟩ := step_composed m hop
    rw [Leads, hstep m rfl]
    exact composed_keeps hcore hcomp hstores hdefines h nofun nofun fun _ => rfl
  | false =>
    rcases step_over hop with ⟨-, hstep⟩ | ⟨-, hstep⟩
    · rw [Leads, hstep]
      exact leave_keeps i.a m h
    · rw [Leads, hstep]
      exact ⟨h, trivial⟩

end Core

/-! ### Ticks and units of code -/

theorem fetch_keeps : R.Keeps fetch := by
  have hread : ∀ (code : Code) (pc : Int64), R.Keeps (do
      let i ← present (entryAt? code.block.code pc)
      setPc (pc + 1)
      return i : Action Inst) := fun code pc =>
    (present_keeps _).bind fun _ _ => Gives.bind (.of_modifyContext fun _ h => h) fun _ _ =>
      .of_pure trivial
  refine currentCode_keeps.bind fun code _ => Gives.of_get.bind fun m _ => ?_
  dsimp only
  split
  · exact .of_throw _
  · exact hread code _

theorem concludeStep_keeps : R.Keeps concludeStep := by
  have hend : R.Keeps (do
      if (← get).pending.isNone then return false
      unwindTo (← get).context.entry
      return true : Action Bool) := by
    refine Gives.of_get.bind fun m _ => ?_
    split
    · exact .of_pure trivial
    · exact Gives.of_get.bind fun _ _ => (unwindTo_keeps popFrame_keeps _).bind fun _ _ => .of_pure trivial
  refine Gives.of_get.bind fun m _ => ?_
  dsimp only
  split
  · exact Gives.bind (.of_modify (fun _ hn => { hn with }) fun _ => rfl) fun _ _ =>
      Gives.of_get.bind fun _ _ => currentSize_keeps.bind fun _ _ =>
        (scrubAbove_keeps _).bind fun _ _ => hend
  · exact hend

theorem endLastPass_keeps (v : Value) : R.Keeps (endLastPass v) :=
  Gives.bind (.of_modifyContext fun _ h => h) fun _ _ => .of_pure trivial

theorem finishStep_keeps (ss : List Suspension) (hss : ∀ s ∈ ss, ∀ d ∈ s.duties, R.Owes d) :
    R.Keeps (finishStep ss) := by
  induction ss with
  | nil =>
    refine concludeStep_keeps.bind fun ended _ => ?_
    split
    · exact endLastPass_keeps .nil
    · exact .of_pure trivial
  | cons s rest ih =>
    refine concludeStep_keeps.bind fun ended _ => ?_
    split
    · exact (resumePass_keeps hss).bind fun _ _ => ih (List.forall_mem_cons.1 hss).2
    · exact .of_pure trivial

theorem endPass_keeps (v : Value) : R.Keeps (endPass v) := by
  refine Gives.of_get.bind fun m hn => ?_
  have hss := hn.suspended
  split
  · exact endLastPass_keeps v
  · next s rest hs =>
    rw [hs] at hss
    exact (resumePass_keeps hss).bind fun _ _ => finishStep_keeps rest (List.forall_mem_cons.1 hss).2

theorem enterUnit_keeps (hcore : R.Core) (code : Code) : R.Keeps (enterUnit code) := by
  refine Gives.of_get.bind fun m hm => (acquire_keeps _).bind fun _ _ =>
    (setReg_keeps _ hm.topSelf).bind fun _ _ => Gives.bind (.of_modify (fun n hn => { hn with
      target := has_some (hcore _ (by decide)) }) fun _ => rfl) fun _ _ =>
        currentSize_keeps.bind fun _ _ => (enterWindow_clerical _ _).keeps

theorem leaveUnit_keeps (v : Value) : R.Keeps (leaveUnit v) := by
  have hend : R.Keeps (answer v) := by
    refine Gives.of_get.bind fun m _ => ?_
    split
    · exact (release_keeps v).bind fun _ _ => .of_pure trivial
    · exact .of_pure trivial
  rw [leaveUnit_eq]
  refine dropAllMarkers_keeps.bind fun _ _ => (scrubAbove_keeps 0).bind fun _ _ =>
    Gives.of_get.bind fun m _ => ?_
  split
  · exact clearException_keeps.bind fun _ _ => hend
  · exact hend

end Machine.Regime

end ObjectMachine
