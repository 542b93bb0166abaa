import ObjectMachine.Proofs.Exceptions

/-! Natives keep the books. A native either leaves control where it is, goes on in the code
of a closure, or raises an exception. The instance a constructor waits for is in hand when the
native leaves off. -/

namespace ObjectMachine.Machine

variable {s : Prop} {l : Nat} {d : List Duty} {H : List Value} {m : Machine} {v : Value}
  {w : Window}

/-! ### The window of a native -/

theorem windowReg_leads {i : Int64} {Q : Value → Machine → Prop}
    (h : ∀ v, entryAt? m.regs (w.base + i) = some v → Q v m) :
    Leads (Excused s) (windowReg w i) m Q := by
  unfold windowReg
  split
  · exact reg_leads h
  · exact excused_outOfBounds s m

theorem setReturn_ledger (h : Ledger s l d (v :: H) m) :
    Leads (Excused s) (setReturn w v) m fun _ m' =>
      Ledger s l d H m' ∧ m'.skeleton = m.skeleton ∧
      m'.regs = m.regs.setIfInBounds w.base.toInt.toNat v := by
  simp only [setReturn, Leads.bind_eq]
  exact windowReg_leads fun _ _ => setReg_ledger h w.base

theorem returnShared_ledger (h : Ledger s l d H m) (hv : s → m.memory.Live v) :
    Leads (Excused s) (returnShared w v) m fun _ m' =>
      Ledger s l d H m' ∧ m'.skeleton = m.skeleton := by
  simp only [returnShared, Leads.bind_eq]
  refine (acquire_ledger h hv).mono fun _ m₁ ⟨h₁, hq₁, _⟩ => ?_
  exact (setReturn_ledger h₁).mono fun _ m₂ ⟨h₂, hk₂, _⟩ => ⟨h₂, hk₂.trans hq₁.1⟩

theorem argumentsFrom_leads (i : Int64) (count : Nat) {Q : List Value → Machine → Prop}
    (h : ∀ vs, (∀ v ∈ vs, v ∈ m.regs) → Q vs m) :
    Leads (Excused s) (argumentsFrom w i count) m Q := by
  induction count generalizing i Q with
  | zero => exact h [] (fun _ hv => nomatch hv)
  | succ count ih =>
    simp only [argumentsFrom, Leads.bind_eq, Leads.pure_eq]
    refine windowReg_leads fun v hv => ih (i + 1) fun vs hvs => h (v :: vs) ?_
    intro x hx
    rcases List.mem_cons.1 hx with rfl | hx
    · exact mem_of_entryAt? hv
    · exact hvs x hx

theorem arguments_leads {Q : List Value → Machine → Prop}
    (h : ∀ vs, (∀ v ∈ vs, v ∈ m.regs) → Q vs m) : Leads (Excused s) (arguments w) m Q :=
  argumentsFrom_leads _ _ h

def Outcome.hand : Outcome → List Value
  | .construct made => [made]
  | _ => []

structure Ran (s : Prop) (l : Nat) (d : List Duty) (H : List Value) (m : Machine) (o : Outcome)
    (m' : Machine) : Prop where
  ledger : Ledger s l d (o.hand ++ H) m'
  deed : m.control.Deed m'.control
  stay : o = .done ∨ m'.control = m.control
  callable : ∀ id w, o = .call id w → 0 < (m'.methodAt id).refCount

theorem Ran.still {m' : Machine} (h : Ledger s l d H m') (hk : m'.skeleton = m.skeleton) :
    Ran s l d H m .done m' :=
  ⟨h, .stay (control_of_skeleton hk), .inl rfl, nofun⟩

/-- A native that returns an immediate value. -/
theorem return_ran (h : Ledger s l d H m) (hv : v.ref? = none) :
    Leads (Excused s) (setReturn w v) m fun _ m' => Ran s l d H m .done m' :=
  (setReturn_ledger (h.hold hv)).mono fun _ _ ⟨h₁, hk₁, _⟩ => .still h₁ hk₁

theorem returnText_ran (h : Ledger s l d H m) (t : Text) :
    Leads (Excused s) (returnText w t) m fun _ m' => Ran s l d H m .done m' := by
  simp only [returnText, Leads.bind_eq]
  refine (newString_ledger h t).mono fun v m₁ ⟨h₁, hq₁⟩ => ?_
  exact (setReturn_ledger h₁).mono fun _ m₂ ⟨h₂, hk₂, _⟩ => .still h₂ (hk₂.trans hq₁.1)

theorem raiseText_ran (c : ClassId) (t : Text) (h : Ledger s l d H m) :
    Leads (Excused s) (raiseText c t) m fun _ m' => Ran s l d H m .done m' :=
  (raiseText_ledger c t h).mono fun _ _ ⟨h₁, v, hv⟩ => ⟨h₁, .raised c v hv, .inl rfl, nofun⟩

theorem returnShared_ran (h : Ledger s l d H m) (hv : s → m.memory.Live v) :
    Leads (Excused s) (returnShared w v) m fun _ m' => Ran s l d H m .done m' :=
  (returnShared_ledger h hv).mono fun _ _ ⟨h₁, hk₁⟩ => .still h₁ hk₁

theorem Ran.after {m₁ m' : Machine} {o : Outcome} (h : Ran s l d H m₁ o m')
    (hc : m₁.control = m.control) : Ran s l d H m o m' :=
  ⟨h.ledger, hc ▸ h.deed, hc ▸ h.stay, h.callable⟩

theorem Ran.before {m₁ m' : Machine} (h : Ran s l d H m .done m₁) (h' : Ledger s l d H m')
    (hk : m'.skeleton = m₁.skeleton) : Ran s l d H m .done m' :=
  ⟨h', control_of_skeleton hk ▸ h.deed, .inl rfl, nofun⟩

/-- A native that writes a text and returns nil. -/
theorem writeText_ran (h : Ledger s l d H m) (t : Text) :
    Leads (Excused s) (write t) m fun _ m₁ =>
      Leads (Excused s) (setReturn w .nil) m₁ fun _ m' => Ran s l d H m .done m' :=
  (write_ledger h t).mono fun _ _ ⟨h₁, hq₁, _⟩ =>
    (return_ran h₁ rfl).mono fun _ _ h₂ => h₂.after (control_of_skeleton hq₁.1)

/-! ### Natives with a name of their own -/

theorem defineAttributes_ran (c : ClassId) (writable : Bool) (vs : List Value)
    (h : Ledger s l d H m) :
    Leads (Excused s) (defineAttributes w c writable vs) m fun _ m' => Ran s l d H m .done m' := by
  induction vs generalizing m with
  | nil => exact return_ran h rfl
  | cons v vs ih =>
    simp only [defineAttributes, Leads.bind_eq, Leads.get_eq]
    split
    · exact raiseText_ran _ _ h
    · simp only [Leads.bind_eq, Leads.discard_eq]
      refine (defineNative?_ledger c _ h fun _ _ hp => by cases hp).mono fun _ m₁ ⟨h₁, hc₁⟩ => ?_
      split
      · simp only [Leads.bind_eq, Leads.discard_eq]
        refine (defineNative?_ledger c _ h₁ fun _ _ hp => by cases hp).mono fun _ m₂ ⟨h₂, hc₂⟩ => ?_
        exact (ih h₂).mono fun _ m₃ h₃ => h₃.after (hc₂.trans hc₁)
      · exact (ih h₁).mono fun _ m₂ h₂ => h₂.after hc₁

theorem attributes_ran (writable : Bool) (h : Ledger s l d H m) :
    Leads (Excused s) (attributes w writable) m fun _ m' => Ran s l d H m .done m' := by
  simp only [attributes, Leads.bind_eq]
  refine windowReg_leads fun v _ => ?_
  split
  · exact raiseText_ran _ _ h
  · simp only [Leads.bind_eq]
    exact arguments_leads fun vs _ => defineAttributes_ran _ _ vs h

/-- The message of `raise` is immediate or lies behind the receiver. -/
theorem raiseArguments_leads {Q : ClassId × Value → Machine → Prop}
    (h : ∀ c v, (v.ref? = none ∨ ∃ i, i ≠ 0 ∧ entryAt? m.regs (w.base + i) = some v) → Q (c, v) m) :
    Leads (Excused s) (raiseArguments w) m Q := by
  unfold raiseArguments
  split
  · exact h _ _ (.inl rfl)
  · split
    · simp only [Leads.bind_eq]
      refine windowReg_leads fun v hv => ?_
      split
      · exact h _ _ (.inl rfl)
      · exact h _ _ (.inr ⟨1, by decide, hv⟩)
    · split
      · simp only [Leads.bind_eq]
        refine windowReg_leads fun v _ => ?_
        split
        · simp only [Leads.bind_eq]
          exact windowReg_leads fun x hx => h _ _ (.inr ⟨2, by decide, hx⟩)
        · exact h _ _ (.inl rfl)
      · exact h _ _ (.inl rfl)

theorem entryAt?_nonneg {α : Type} {xs : Array α} {i : Int64} {a : α}
    (h : entryAt? xs i = some a) : 0 ≤ i.toInt := by
  unfold entryAt? at h
  split at h
  · cases h
  · next hi =>
    rw [Int64.lt_iff_toInt_lt] at hi
    simpa using hi

theorem entryAt?_set_ne {α : Type} {xs : Array α} {a : α} {i j : Int64}
    (h : entryAt? xs i = some a) (hij : i ≠ j) (hj : 0 ≤ j.toInt) (b : α) :
    entryAt? (xs.setIfInBounds j.toInt.toNat b) i = some a := by
  unfold entryAt? at *
  split at h
  · cases h
  · next hi =>
    rw [if_neg hi, Array.getElem?_setIfInBounds_ne, h]
    intro heq
    refine hij (Int64.toInt_inj.1 ?_)
    rw [Int64.lt_iff_toInt_lt] at hi
    have : (0 : Int64).toInt = 0 := rfl
    omega

theorem raiseNative_ran (h : Ledger s l d H m) :
    Leads (Excused s) (raiseArguments w) m fun p m₁ =>
      Leads (Excused s) (setReturn w .nil) m₁ fun _ m₂ =>
        Leads (Excused s) (raise p.1 p.2) m₂ fun _ m' => Ran s l d H m .done m' := by
  refine raiseArguments_leads fun c v hv => ?_
  simp only [setReturn, Leads.bind_eq]
  refine windowReg_leads fun x hx => ?_
  have hbase : 0 ≤ w.base.toInt := by
    rw [Int64.add_zero] at hx
    exact (entryAt?_nonneg hx)
  refine (setReg_immediate (v := .nil) h w.base rfl).mono fun _ m₁ ⟨h₁, hk₁, hr₁⟩ => ?_
  have hlive : s → m₁.memory.Live v := by
    intro hs
    rcases hv with hv | ⟨i, hi, hv⟩
    · exact Memory.live_of_immediate hv
    · have hne : w.base + i ≠ w.base := by simpa using hi
      exact h₁.live_of_reg (mem_of_entryAt? (hr₁ ▸ entryAt?_set_ne hv hne hbase .nil)) hs
  refine ((raise_ledger c h₁ hlive).and (raise_control c v)).mono fun _ m₂ ⟨h₂, hc₂⟩ => ?_
  have hran : Ran s l d H m₁ .done m₂ := ⟨h₂, .raised c v hc₂, .inl rfl, nofun⟩
  exact hran.after (control_of_skeleton hk₁)

theorem construct_ran (h : Ledger s l d H m) :
    Leads (Excused s) (construct w) m fun o m' => Ran s l d H m o m' := by
  simp only [construct, Leads.bind_eq]
  refine windowReg_leads fun v _ => ?_
  split
  · next c _ =>
    simp only [Leads.bind_eq]
    refine (newInstance_ledger h c).mono fun made m₁ ⟨h₁, hq₁, _⟩ => ?_
    split
    · next hnil =>
      have hmade : made = .nil := by
        cases made <;> simp_all [Value.isNil]
      subst hmade
      simp only [Leads.bind_eq, Leads.pure_eq]
      exact (return_ran (h₁.let_go rfl) rfl).mono fun _ m₂ h₂ =>
        h₂.after (control_of_skeleton hq₁.1)
    · simp only [Leads.bind_eq, Leads.get_eq]
      refine (intern_ledger h₁ _).mono fun k m₂ ⟨h₂, hq₂, _⟩ => ?_
      split
      · simp only [Leads.bind_eq, Leads.pure_eq]
        exact (setReturn_ledger h₂).mono fun _ m₃ ⟨h₃, hk₃, _⟩ =>
          .still h₃ (hk₃.trans (hq₂.1.trans hq₁.1))
      · simp only [Leads.bind_eq, Leads.pure_eq]
        refine (returnShared_ledger h₂ (h₂.live_of_hand List.mem_cons_self)).mono ?_
        intro _ m₃ ⟨h₃, hk₃⟩
        have hc := control_of_skeleton (hk₃.trans (hq₂.1.trans hq₁.1))
        exact ⟨h₃, .stay hc, .inr hc, nofun⟩
  · simp only [Leads.bind_eq, Leads.get_eq, Leads.pure_eq]
    exact raiseText_ran _ _ h

/-- Enters the window of code that was called with a frame on top of the chain. -/
theorem enterCode_ran {m₁ : Machine} (h₁ : Ledger s l d H m₁) (hc₁ : m₁.control = m.control.push)
    (base : Int64) (code : Code) (targetClass : Option ClassId) (size : Int64) :
    Leads (Excused s) (enterWindow base size)
      { m₁ with context := { m₁.context with base, code := some code, pc := 0, targetClass } }
      fun _ m₂ => Ran s l d H m .done { m₂ with jumped := true } := by
  have h₂ : Ledger s l d H
      { m₁ with context := { m₁.context with base, code := some code, pc := 0, targetClass } } :=
    h₁.turn ⟨_, _, rfl⟩ rfl
  refine (enterWindow_ledger h₂ base size).mono fun _ m₃ ⟨h₃, hq₃, _⟩ => ?_
  refine ⟨h₃.turn ⟨_, _, rfl⟩ rfl, .called base code targetClass ?_, .inl rfl, nofun⟩
  have hc₃ : m₃.control = { m₁.control with context := { m₁.control.context with
      base, code := some code, pc := 0, targetClass } } := control_of_skeleton hq₃.1
  change m₃.control = _
  rw [hc₃, hc₁]
  rfl

theorem callProc_ran (h : Ledger s l d H m) :
    Leads (Excused s) (callProc w) m fun _ m' => Ran s l d H m .done m' := by
  simp only [callProc, Leads.bind_eq, Leads.get_eq]
  refine windowReg_leads fun v _ => ?_
  split
  · simp only [Leads.bind_eq, Leads.get_eq]
    exact raiseText_ran _ _ h
  · next code frame selfFrame _ =>
    simp only [Leads.bind_eq, Leads.get_eq]
    refine ((pushFrame_ledger _ _ _ h).and (pushFrame_control _ _ _)).mono ?_
    rintro f m₁ ⟨⟨h₁, -⟩, -, hc₁⟩
    have hmodify : ∀ (name : Symbol) (own : Option ClassId), Leads (Excused s)
        (modifyFrame f fun k => { k with methodId := name, ownClass := own }) m₁ fun _ m₂ =>
          Ledger s l d H m₂ ∧ m₂.control = m.control.push := by
      intro name own
      refine Leads.mono (modifyFrame_ledger f (fun _ => rfl) (fun _ => rfl) h₁) ?_
      rintro _ m₂ ⟨h₂, hc₂⟩
      exact ⟨h₂, hc₂.trans hc₁⟩
    split
    · simp only [Leads.bind_eq, Leads.get_eq]
      split
      · simp only [Leads.bind_eq, modifyContext, Leads.modify_eq, Leads.get_eq]
        refine (hmodify _ _).mono ?_
        rintro _ m₂ ⟨h₂, hc₂⟩
        exact enterCode_ran h₂ hc₂ _ code _ _
      · simp only [Leads.bind_eq, modifyContext, Leads.modify_eq, Leads.get_eq]
        exact enterCode_ran h₁ hc₁ _ code _ _
    · simp only [Leads.bind_eq, modifyContext, Leads.modify_eq, Leads.get_eq]
      exact enterCode_ran h₁ hc₁ _ code _ _

/-! ### Probes -/

theorem recordCall_ledger (id : MethodId) (owner : ClassId) (h : Ledger s l d H m) :
    Leads (Excused s) (recordCall id owner) m fun _ m' =>
      Ledger s l d H m' ∧ Quiet m m' ∧ m'.memory = m.memory := by
  simp only [recordCall, Leads.bind_eq, Leads.get_eq]
  split
  · exact ⟨h.keep rfl h.balanced fun hs => (h.exact hs).counts, ⟨rfl, rfl⟩, rfl⟩
  · exact ⟨h, .refl m, rfl⟩

/-- Probes ask for no counted references, so any values may be placed. -/
theorem placeArguments_ledger (i : Int64) (vs : List Value) (h : Ledger s l d H m) (hs : ¬s) :
    Leads (Excused s) (placeArguments i vs) m fun _ m' =>
      Ledger s l d H m' ∧ m'.skeleton = m.skeleton := by
  induction vs generalizing i m with
  | nil =>
    exact (setReg_immediate (v := .nil) h i rfl).mono fun _ _ ⟨h₁, hk₁, _⟩ => ⟨h₁, hk₁⟩
  | cons v vs ih =>
    simp only [placeArguments, Leads.bind_eq]
    refine (acquire_ledger h fun h => absurd h hs).mono fun _ m₁ ⟨h₁, hq₁, _⟩ => ?_
    refine (setReg_ledger h₁ i).mono fun _ m₂ ⟨h₂, hk₂, _⟩ => ?_
    exact (ih _ h₂).mono fun _ m₃ ⟨h₃, hk₃⟩ => ⟨h₃, hk₃.trans (hk₂.trans hq₁.1)⟩

theorem probeSend_ran (h : Ledger s l d H m) (hs : ¬s) :
    Leads (Excused s) (probeSend w) m fun o m' => Ran s l d H m o m' := by
  simp only [probeSend]
  split
  · simp only [Leads.bind_eq, Leads.pure_eq]
    exact return_ran h rfl
  · simp only [Leads.bind_eq]
    refine windowReg_leads fun v _ => ?_
    split
    · next name _ =>
      simp only [Leads.bind_eq, nameOf, Leads.get_eq, Leads.pure_eq]
      refine windowReg_leads fun receiver _ => argumentsFrom_leads _ _ fun args _ => ?_
      refine (intern_ledger h _).mono fun k m₁ ⟨h₁, hq₁, _⟩ => ?_
      have hc₁ := control_of_skeleton hq₁.1
      split
      · simp only [Leads.bind_eq, Leads.pure_eq]
        refine (raiseText_ran _ _ h₁).mono fun _ m₂ h₂ => ?_
        refine (write_ledger h₂.ledger _).mono fun _ m₃ ⟨h₃, hq₃, _⟩ => ?_
        refine (setReturn_ledger (h₃.hold (v := .nil) rfl)).mono fun _ m₄ ⟨h₄, hk₄, _⟩ => ?_
        exact (h₂.before h₄ (hk₄.trans hq₃.1)).after hc₁
      · next id owner hfound =>
        split
        · simp only [Leads.bind_eq, Leads.pure_eq]
          refine (writeText_ran h₁ _).mono fun _ m₂ h₂ => h₂.mono fun _ m₃ h₃ => h₃.after hc₁
        · simp only [Leads.bind_eq, Leads.get_eq, Leads.pure_eq]
          refine (recordCall_ledger id owner h₁).mono fun _ m₂ ⟨h₂, hq₂, _⟩ => ?_
          refine (enterWindow_ledger h₂ _ _).mono fun _ m₃ ⟨h₃, hq₃, _⟩ => ?_
          refine (placeArguments_ledger _ _ h₃ hs).mono fun _ m₄ ⟨h₄, hk₄⟩ => ?_
          have hk : m₄.skeleton = m₁.skeleton := hk₄.trans (hq₃.1.trans hq₂.1)
          have hc₄ := (control_of_skeleton hk).trans hc₁
          refine ⟨h₄, .stay hc₄, .inr hc₄, ?_⟩
          rintro _ _ ⟨⟩
          have hat := congrArg (fun k : Machine => k.methodAt id) hk
          change m₄.methodAt id = m₁.methodAt id at hat
          rw [hat]
          exact h₁.refCount_of_findMethod? hfound
    · simp only [Leads.bind_eq, Leads.pure_eq]
      exact return_ran h rfl

theorem hostValue_leads (given : List Value) (x : HostOperand) {Q : Value → Machine → Prop}
    (h : ∀ v, Q v m) : Leads (Excused s) (hostValue w given x) m Q := by
  cases x with
  | register i => exact windowReg_leads fun v _ => h v
  | given k => exact h _
  | nil => exact h _
  | int n => exact h _

/-- An operation in a host's method keeps the books, whatever it does to references. -/
theorem hostOperation_ledger (given : List Value) (op : HostOperation) (h : Ledger s l d H m)
    (hs : ¬s) :
    Leads (Excused s) (hostOperation w given op) m fun _ m' => Ledger s l d H m' ∧ Quiet m m' := by
  have hlive : ∀ {m' : Machine} (v : Value), s → m'.memory.Live v := fun _ h => absurd h hs
  have hvalue : ∀ {m' : Machine} (x : HostOperand) {Q : Value → Machine → Prop}, (∀ v, Q v m') →
      Leads (Excused s) (hostValue w given x) m' Q := fun x _ => hostValue_leads given x
  -- where references are not counted, it does not matter what is in hand
  have hlast : ∀ {α : Type} {x : Action α} {hand : α → List Value} {m₁ : Machine}, Quiet m m₁ →
      Leads (Excused s) x m₁ (fun a m' => Ledger s l d (hand a) m' ∧ Quiet m₁ m') →
      Leads (Excused s) x m₁ fun _ m' => Ledger s l d H m' ∧ Quiet m m' :=
    fun hq hx => hx.mono fun _ _ h' => ⟨h'.1.of_not hs, hq.trans h'.2⟩
  cases op <;> simp only [hostOperation, Leads.bind_eq, Leads.pure_eq]
  case newInstance c =>
    refine hvalue c fun v => ?_
    split
    · exact hlast (.refl m) ((newInstance_ledger h _).mono fun _ _ h₁ => ⟨h₁.1, h₁.2.1⟩)
    · exact ⟨h, .refl m⟩
  case newString t => exact hlast (.refl m) (newString_ledger h t)
  case dupInstance obj => exact hvalue obj fun v => hlast (.refl m) (dupInstance_ledger h (hlive v))
  case getVariable obj name =>
    refine hvalue obj fun v => (intern_ledger h name).mono fun k m₁ h₁ => ?_
    exact hlast h₁.2.1 (getVariable_ledger h₁.1 k (hlive v))
  case setVariable obj name v =>
    refine hvalue obj fun o => (intern_ledger h name).mono fun k m₁ h₁ => hvalue v fun x => ?_
    exact hlast h₁.2.1 (setVariable_ledger h₁.1 k (hlive o) (hlive x))
  case getConstant name =>
    refine (intern_ledger h name).mono fun k m₁ h₁ => ?_
    exact hlast h₁.2.1 (getConstant_ledger h₁.1 k)
  case setConstant name v =>
    refine (intern_ledger h name).mono fun k m₁ h₁ => hvalue v fun x => ?_
    exact hlast h₁.2.1 (setConstant_ledger h₁.1 k (hlive x))
  case acquire v =>
    refine hvalue v fun x => (acquire_ledger h (hlive x)).mono fun _ m₁ h₁ => ?_
    exact ⟨h₁.1.of_not hs, h₁.2.1⟩
  case release v => exact hvalue v fun x => release_ledger (h.of_not hs)

theorem hostWork_ledger (given : List Value) (work : List HostOperation) (h : Ledger s l d H m)
    (hs : ¬s) :
    Leads (Excused s) (hostWork w given work) m fun _ m' => Ledger s l d H m' ∧ Quiet m m' := by
  induction work generalizing given m with
  | nil => exact ⟨h, .refl m⟩
  | cons op work ih =>
    simp only [hostWork, Leads.bind_eq]
    refine (hostOperation_ledger given op h hs).mono fun v m₁ h₁ => ?_
    exact (ih (v :: given) h₁.1).mono fun _ _ h₂ => ⟨h₂.1, h₁.2.trans h₂.2⟩

theorem runHost_ran (work : List HostOperation) (ending : HostEnding) (h : Ledger s l d H m)
    (hs : ¬s) :
    Leads (Excused s) (runHost work ending w) m fun _ m' => Ran s l d H m .done m' := by
  simp only [runHost, Leads.bind_eq]
  refine (hostWork_ledger [] work h hs).mono ?_
  rintro given m₁ ⟨h₁, hq₁⟩
  have hc₁ := control_of_skeleton hq₁.1
  cases ending with
  | keep => exact .still h₁ hq₁.1
  | give v =>
    simp only [Leads.bind_eq]
    refine hostValue_leads given v fun x => ?_
    exact (setReturn_ledger (v := x) (h₁.of_not hs)).mono fun _ _ h₂ =>
      .still h₂.1 (h₂.2.1.trans hq₁.1)
  | raise c message =>
    simp only [Leads.bind_eq]
    refine hostValue_leads given c fun e => hostValue_leads given message fun x => ?_
    refine ((raise_ledger _ h₁ fun h => absurd h hs).and (raise_control _ x)).mono ?_
    rintro _ m₂ ⟨h₂, hc₂⟩
    exact Ran.after ⟨h₂, .raised _ x hc₂, .inl rfl, nofun⟩ hc₁

theorem runProbe_ran (p : Probe) (h : Ledger s l d H m) (hs : ¬s) :
    Leads (Excused s) (runProbe p w) m fun o m' => Ran s l d H m o m' := by
  have hshared : ∀ v, Leads (Excused s) (returnShared w v) m fun _ m' => Ran s l d H m .done m' :=
    fun v => returnShared_ran h fun h => absurd h hs
  cases p <;> simp only [runProbe, returnBool, Leads.bind_eq, Leads.get_eq, Leads.pure_eq]
  case answer | argumentCount | callee => exact return_ran h rfl
  case firstArgument =>
    split
    · simp only [Leads.bind_eq, Leads.pure_eq]
      exact hshared _
    · simp only [Leads.bind_eq, Leads.pure_eq]
      exact windowReg_leads fun v _ => hshared v
  case block => exact windowReg_leads fun v _ => hshared v
  case self => exact self_leads fun v _ => hshared v
  case blockGiven => exact blockGiven_leads fun b => return_ran h rfl
  case keep => exact .still h rfl
  case raise =>
    refine (setReturn_ledger (h.hold (v := .nil) rfl)).mono fun _ m₁ ⟨h₁, hk₁, _⟩ => ?_
    exact (raiseText_ran _ _ h₁).mono fun _ m₂ h₂ => h₂.after (control_of_skeleton hk₁)
  case send => exact probeSend_ran h hs
  case state => exact writeText_ran h _
  case host work ending => exact runHost_ran work ending h hs

/-! ### All natives -/

theorem dup_ran (h : Ledger s l d H m) {r : Ref} (hv : .object r ∈ m.regs) :
    Leads (Excused s) (dupInstance (.object r)) m fun v m₁ =>
      Leads (Excused s) (setReturn w v) m₁ fun _ m' => Ran s l d H m .done m' := by
  refine (dupInstance_ledger h (h.live_of_reg hv)).mono fun v m₁ ⟨h₁, hq₁⟩ => ?_
  exact (setReturn_ledger h₁).mono fun _ m₂ ⟨h₂, hk₂, _⟩ => .still h₂ (hk₂.trans hq₁.1)

theorem attributeGet_ran (h : Ledger s l d H m) (hv : v ∈ m.regs) (k : Symbol) :
    Leads (Excused s) (getVariable v k) m fun v m₁ =>
      Leads (Excused s) (setReturn w v) m₁ fun _ m' => Ran s l d H m .done m' := by
  refine (getVariable_ledger h k (h.live_of_reg hv)).mono fun v m₁ ⟨h₁, hq₁⟩ => ?_
  exact (setReturn_ledger h₁).mono fun _ m₂ ⟨h₂, hk₂, _⟩ => .still h₂ (hk₂.trans hq₁.1)

theorem attributeSet_ran {obj : Value} (h : Ledger s l d H m) (hobj : obj ∈ m.regs)
    (hv : v ∈ m.regs) (name : Text) :
    Leads (Excused s) (intern name) m fun k m₁ =>
      Leads (Excused s) (setVariable obj k v) m₁ fun _ m₂ =>
        Leads (Excused s) (returnShared w v) m₂ fun _ m' => Ran s l d H m .done m' := by
  refine (intern_ledger h name).mono fun k m₁ ⟨h₁, hq₁, _⟩ => ?_
  have hlive₁ : ∀ {x}, x ∈ m.regs → s → m₁.memory.Live x :=
    fun hx => h₁.live_of_reg (hq₁.2 ▸ hx)
  refine (setVariable_ledger h₁ k (hlive₁ hobj) (hlive₁ hv)).mono fun _ m₂ ⟨h₂, hq₂⟩ => ?_
  have hv₂ : v ∈ m₂.regs := by rwa [hq₂.2, hq₁.2]
  exact (returnShared_ran h₂ (h₂.live_of_reg hv₂)).mono fun _ m₃ h₃ =>
    h₃.after (control_of_skeleton (hq₂.1.trans hq₁.1))

theorem runNative_ran {n : Native} (h : Ledger s l d H m) (hn : s → ∀ p, n ≠ .probe p) :
    Leads (Excused s) (runNative n w) m fun o m' => Ran s l d H m o m' := by
  have hread : ∀ (i : Int64) {Q : Value → Machine → Prop}, (∀ v ∈ m.regs, Q v m) →
      Leads (Excused s) (windowReg w i) m Q :=
    fun i Q hQ => windowReg_leads fun v hv => hQ v (mem_of_entryAt? hv)
  have hshared : ∀ v ∈ m.regs, Leads (Excused s) (returnShared w v) m fun _ m' =>
      Ran s l d H m .done m' := fun v hv => returnShared_ran h (h.live_of_reg hv)
  cases n <;>
    simp only [runNative, returnBool, Leads.bind_eq, Leads.get_eq, Leads.pure_eq]
  case not | isNil => exact hread _ fun v _ => return_ran h rfl
  case classOf | objectId => exact hread _ fun v _ => return_ran h rfl
  case nilToInt | nilToFloat => exact return_ran h rfl
  case equal | notEqual | compare =>
    split
    · simp only [Leads.bind_eq, Leads.pure_eq]
      exact return_ran h rfl
    · simp only [Leads.bind_eq, Leads.get_eq, Leads.pure_eq]
      exact hread _ fun u _ => hread _ fun v _ => return_ran h rfl
  case caseEqual =>
    split
    · simp only [Leads.bind_eq, Leads.pure_eq]
      exact return_ran h rfl
    · simp only [Leads.bind_eq]
      refine hread _ fun u _ => hread _ fun v _ => ?_
      split
      · simp only [Leads.bind_eq, Leads.get_eq, Leads.pure_eq]
        exact return_ran h rfl
      · simp only [Leads.bind_eq, Leads.get_eq, Leads.pure_eq]
        exact return_ran h rfl
  case isKindOf =>
    split
    · simp only [Value.cls?, Leads.bind_eq, Leads.pure_eq]
      exact raiseText_ran _ _ h
    · rw [Leads.bind_eq]
      refine hread _ fun v _ => ?_
      split
      · simp only [Leads.bind_eq, Leads.pure_eq]
        exact raiseText_ran _ _ h
      · simp only [Leads.bind_eq, Leads.get_eq, Leads.pure_eq]
        exact hread _ fun v _ => return_ran h rfl
  case new => exact construct_ran h
  case dup =>
    refine hread _ fun v hv => ?_
    split
    · simp only [Leads.bind_eq, Leads.pure_eq]
      exact dup_ran h hv
    · exact .still h rfl
  case attributeReader => exact attributes_ran false h
  case attributeAccessor => exact attributes_ran true h
  case blockGiven => exact blockGiven_leads fun b => return_ran h rfl
  case raise => exact raiseNative_ran h
  case inspect | boolToText => exact hread _ fun v _ => returnText_ran h _
  case nilInspect | nilToText => exact returnText_ran h _
  case toText =>
    refine hread _ fun v _ => ?_
    split
    · exact .still h rfl
    · simp only [Leads.bind_eq, Leads.get_eq, Leads.pure_eq]
      exact returnText_ran h _
  case «show» =>
    refine arguments_leads fun vs hvs => (write_ledger h _).mono ?_
    rintro _ m₁ ⟨h₁, hq₁, _⟩
    have hc₁ := control_of_skeleton hq₁.1
    split
    · next v =>
      simp only [Leads.bind_eq, Leads.pure_eq]
      have hv : v ∈ m₁.regs := hq₁.2 ▸ hvs v List.mem_cons_self
      exact (returnShared_ran h₁ (h₁.live_of_reg hv)).mono fun _ m₂ h₂ => h₂.after hc₁
    · simp only [Leads.bind_eq, Leads.pure_eq]
      exact (return_ran h₁ rfl).mono fun _ m₂ h₂ => h₂.after hc₁
  case print => exact arguments_leads fun vs _ => writeText_ran h _
  case put =>
    refine arguments_leads fun vs _ => ?_
    split
    · simp only [Leads.bind_eq, Leads.pure_eq]
      exact writeText_ran h _
    · simp only [Leads.bind_eq, Leads.pure_eq]
      exact writeText_ran h _
  case callProc => exact callProc_ran h
  case newProc =>
    refine hread _ fun v hv => ?_
    split
    · simp only [Leads.bind_eq, Leads.pure_eq]
      exact hshared v hv
    · simp only [Leads.bind_eq, Leads.pure_eq]
      exact raiseText_ran _ _ h
  case attributeGet => exact hread _ fun v hv => attributeGet_ran h hv _
  case attributeSet =>
    split
    · simp only [Leads.bind_eq, Leads.pure_eq]
      exact raiseText_ran _ _ h
    · simp only [Leads.bind_eq, Leads.get_eq, nameOf, Leads.pure_eq]
      exact hread _ fun v hv => hread _ fun obj hobj => attributeSet_ran h hobj hv _
  case instanceMethods | instanceVariables => exact hread _ fun v _ => writeText_ran h _
  case memoryStatistics => exact writeText_ran h _
  case probe p => exact runProbe_ran p h fun hs => hn hs p rfl

end ObjectMachine.Machine
