import ObjectMachine.Proofs.Lifetimes
import ObjectMachine.Proofs.Steps

/-! What a call does outside control. It stores into its receiver and clears registers above.
The frame of a call enters the window at the receiver, and the code that runs there is that of
a method, of a closure or of a child of the running code. A call of `new` starts a pass that
keeps the context of its caller among its duties. -/

namespace ObjectMachine

/-- Nothing is made and nothing is installed, and the mark stays. -/
structure Permit.Inert (P : Permit) : Prop where
  makes : ∀ p, ¬P.makes p
  installs : ∀ c, ¬P.installs c
  trims : ¬P.trims

theorem Permit.nothing_inert : nothing.Inert := ⟨fun _ h => h, fun _ h => h, id⟩

/-- A call at `b` stores into its receiver and clears what is above. -/
def Permit.call (b : Int64) : Permit :=
  { nothing with stores := (· = b), clears := (b.toInt < ·.toInt) }

theorem Permit.call_inert (b : Int64) : (call b).Inert := ⟨fun _ h => h, fun _ h => h, id⟩

theorem Permit.store_within_call (b : Int64) : (store b).Within (call b) where
  stores _ h := h

theorem Permit.clearFrom_within_call (b : Int64) : (clearFrom (b.toInt + 1)).Within (call b) where
  clears _ h := h

theorem Permit.store_inert (i : Int64) : (store i).Inert := ⟨fun _ h => h, fun _ h => h, id⟩

/-- What is known whatever happens on a fault. -/
theorem Leads.forget {α : Type} {x : Action α} {m : Machine} {Q : α → Machine → Prop}
    (h : Leads (Machine.Excused False) x m Q) : Leads AnyFault x m Q :=
  h.imp (fun _ _ _ => trivial) fun _ _ hq => hq

namespace Machine

/-- Code that a call can go on in. -/
def Offers (m : Machine) (code : Code) : Prop :=
  (∃ id, (m.methodAt id).body = .code code) ∨
  (∃ r f g, m.memory.closure? r = some (code, f, g)) ∨
  ∃ x i, m.context.code = some x ∧ x.child? i = some code

/-- The frame `f` of `m'` is that of a call which went on at `b`. -/
structure Entered (b : Int64) (m m' : Machine) (f : FrameId) : Prop where
  window : (m'.frameAt f).window = b
  base : m'.context.base = b
  nonneg : 0 ≤ b.toInt
  code : ∃ code, m'.context.code = some code ∧ m.Offers code ∧
    (b + code.block.registers).toInt ≤ m'.regHigh.toInt

/-- An action has led from `m` to `m'`, with a call at `b` if any. -/
structure Strides (P : Permit) (b : Int64) (m m' : Machine) : Prop where
  alters : Alters P m m'
  lasting : Lasting [] [] m m'
  callBase : m'.context.callBase = m.context.callBase
  callee : m'.context.callee = m.context.callee
  fresh : ∀ f, m.frames.size ≤ f → f < m'.frames.size →
    (m'.frameAt f).isMarker ∨ Entered b m m' f

variable {P Q : Permit} {b : Int64} {m m₁ m₂ m' : Machine} {v : Value} {w : Window}

theorem frameAt_of_core (h : m'.core = m.core) : m'.frameAt = m.frameAt := by
  funext f
  simp only [frameAt, frames_of_core h]

theorem Works.strides (h : Works P m m') : Strides P b m m' where
  alters := h.toAlters
  lasting := .of_core h.core
  callBase := by rw [h.names]
  callee := by rw [h.names]
  fresh f hle hlt := by
    rw [frames_of_core h.core] at hlt
    exact absurd hlt (Nat.not_lt.2 hle)

theorem Steers.strides (h : Steers [] [] m m') (hsize : m'.frames.size = m.frames.size) :
    Strides P b m m' where
  alters := h.alters.mono (Permit.nothing_within P)
  lasting := h.lasting
  callBase := h.callBase
  callee := h.callee
  fresh _ hle hlt := absurd (hsize ▸ hlt) (Nat.not_lt.2 hle)

theorem Strides.mono (h : Strides P b m m') (hPQ : P.Within Q) : Strides Q b m m' :=
  ⟨h.alters.mono hPQ, h.lasting, h.callBase, h.callee, h.fresh⟩

/-- What is offered after an action that makes no code was offered before. -/
theorem Alters.offers (h : Alters P m m₁) (hP : P.Inert) (hcode : m₁.context.code = m.context.code)
    {code : Code} (hc : m₁.Offers code) : m.Offers code := by
  rcases hc with ⟨id, hid⟩ | ⟨r, f, g, hr⟩ | ⟨x, i, hx, hi⟩
  · exact .inl ⟨id, (h.code hid).resolve_right (hP.installs _)⟩
  · exact .inr (.inl ⟨r, f, g, (h.made r _ hr).resolve_right (hP.makes _)⟩)
  · exact .inr (.inr ⟨x, i, hcode ▸ hx, hi⟩)

/-- An action between two others that leave control alone. -/
theorem Strides.amid (h : Strides P b m₁ m₂) (hP : P.Inert) (h₁ : Alters P m m₁)
    (hcore₁ : m₁.core = m.core) (h₂ : Alters P m₂ m') (hcore₂ : m'.core = m₂.core)
    (hcallBase : m'.context.callBase = m.context.callBase)
    (hcallee : m'.context.callee = m.context.callee) : Strides P b m m' where
  alters := h₁.trans (h.alters.trans h₂)
  lasting := (Lasting.of_core hcore₁).trans (h.lasting.trans (.of_core hcore₂))
  callBase := hcallBase
  callee := hcallee
  fresh f hle hlt := by
    rw [← frames_of_core hcore₁] at hle
    rw [frames_of_core hcore₂] at hlt
    have hbase : m'.context.base = m₂.context.base := congrArg (·.context.base) hcore₂
    have hcode : m'.context.code = m₂.context.code := congrArg (·.context.code) hcore₂
    have hcode₁ : m₁.context.code = m.context.code := congrArg (·.context.code) hcore₁
    rw [frameAt_of_core hcore₂]
    refine (h.fresh f hle hlt).imp_right fun he => ⟨?_, hbase.trans he.base, he.nonneg, ?_⟩
    · rw [frameAt_of_core hcore₂]
      exact he.window
    · obtain ⟨code, hcode₂, hoffers, htop⟩ := he.code
      refine ⟨code, hcode.trans hcode₂, h₁.offers hP hcode₁ hoffers, ?_⟩
      exact Int.le_trans htop (h₂.high.resolve_left hP.trims)

theorem Strides.after (h : Strides P b m₁ m') (h₁ : Works P m m₁) (hP : P.Inert) :
    Strides P b m m' :=
  h.amid hP h₁.toAlters h₁.core (.refl m') rfl (h.callBase.trans (by rw [h₁.names]))
    (h.callee.trans (by rw [h₁.names]))

theorem Strides.before (h : Strides P b m m₁) (h' : Works P m₁ m') (hP : P.Inert) :
    Strides P b m m' :=
  h.amid hP (.refl m) rfl h'.toAlters h'.core (by rw [h'.names, h.callBase])
    (by rw [h'.names, h.callee])

/-! ### Actions that call at most once -/

def Striding {α : Type} (P : Permit) (b : Int64) (x : Action α) : Prop :=
  ∀ m, Leads AnyFault x m fun _ m' => Strides P b m m'

section Striding

variable {α β : Type} {x : Action α} {f : α → Action β}

theorem Tame.striding (h : Tame P x) : Striding P b x := fun m => (h m).mono fun _ _ h => h.strides

theorem Tame.strides_bind (hx : Tame P x) (hP : P.Inert) (hf : ∀ a, Striding P b (f a)) :
    Striding P b (x >>= f) := by
  intro m
  rw [Leads.bind_eq]
  exact (hx m).mono fun a m₁ h₁ => (hf a m₁).mono fun _ _ h₂ => h₂.after h₁ hP

theorem Striding.bind (hx : Striding P b x) (hP : P.Inert) (hf : ∀ a, Tame P (f a)) :
    Striding P b (x >>= f) := by
  intro m
  rw [Leads.bind_eq]
  exact (hx m).mono fun a m₁ h₁ => (hf a m₁).mono fun _ _ h₂ => h₁.before h₂ hP

end Striding

theorem size_of_control (h : m'.control.frames = m.control.frames) :
    m'.frames.size = m.frames.size := by
  have hsize := congrArg Array.size h
  simpa [Machine.control] using hsize

theorem raise_striding (c : ClassId) (v : Value) : Striding P b (raise c v) := by
  intro m
  refine ((raise_steers (l := []) c v).and (raise_control c v)).mono fun _ m' ⟨h, hc⟩ => ?_
  exact h.strides (size_of_control (Control.raise_samePass hc).frames)

theorem raiseText_striding (hP : P.Inert) (c : ClassId) (t : Text) : Striding P b (raiseText c t) :=
  (newString_tame t).strides_bind hP fun v => (raise_striding c v).bind hP fun _ => release_tame v

/-! ### Natives -/

theorem windowReg_tame (w : Window) (i : Int64) : Tame P (windowReg w i) := by
  unfold windowReg
  split
  · exact reg_tame _
  · exact .of_throw _

theorem setReturn_tame (h : P.stores w.base) (v : Value) : Tame P (setReturn w v) :=
  (windowReg_tame w 0).bind fun _ => setReg_tame h

theorem returnShared_tame (h : P.stores w.base) (v : Value) : Tame P (returnShared w v) :=
  (acquire_tame v).bind fun _ => setReturn_tame h v

theorem returnText_tame (h : P.stores w.base) (t : Text) : Tame P (returnText w t) :=
  (newString_tame t).bind fun v => setReturn_tame h v

theorem argumentsFrom_tame (w : Window) (i : Int64) (count : Nat) :
    Tame P (argumentsFrom w i count) := by
  induction count generalizing i with
  | zero => exact .of_pure _
  | succ count ih =>
    exact (windowReg_tame w i).bind fun v => (ih (i + 1)).bind fun _ => .of_pure _

theorem arguments_tame (w : Window) : Tame P (arguments w) := argumentsFrom_tame w _ _

theorem raiseArguments_tame (w : Window) : Tame P (raiseArguments w) := by
  unfold raiseArguments
  split
  · exact .of_pure _
  · split
    · refine (windowReg_tame w 1).bind fun v => ?_
      split <;> exact .of_pure _
    · split
      · refine (windowReg_tame w 1).bind fun v => ?_
        split
        · exact (windowReg_tame w 2).bind fun _ => .of_pure _
        · exact .of_pure _
      · exact .of_pure _

theorem defineAttributes_striding (hP : P.Inert) (h : P.stores w.base) (c : ClassId)
    (writable : Bool) (vs : List Value) : Striding P b (defineAttributes w c writable vs) := by
  induction vs with
  | nil => exact (setReturn_tame h _).striding
  | cons v vs ih =>
    refine Tame.of_get.strides_bind hP fun m => ?_
    dsimp only
    split
    · exact raiseText_striding hP _ _
    · refine (defineNative?_clerical c _ fun _ hp => by cases hp).tame.of_discard.strides_bind hP fun _ => ?_
      split
      · exact (defineNative?_clerical c _ fun _ hp => by cases hp).tame.of_discard.strides_bind hP fun _ => ih
      · exact ih

theorem attributes_striding (hP : P.Inert) (h : P.stores w.base) (writable : Bool) :
    Striding P b (attributes w writable) := by
  refine (windowReg_tame w 0).strides_bind hP fun v => ?_
  split
  · exact raiseText_striding hP _ _
  · exact (arguments_tame w).strides_bind hP fun vs => defineAttributes_striding hP h _ _ vs

/-! ### Frames of calls -/

structure Pushed (k : Frame) (m m' : Machine) : Prop where
  alters : Alters .nothing m m'
  frames : m'.frames = m.frames.push k
  unfreed : k.freed = false
  chain : m'.chain = m.frames.size :: m.chain
  context : m'.context = m.context
  suspended : m'.suspended = m.suspended

theorem Pushed.frameAt (k : Frame) (h : m'.frames = m.frames.push k) (f : FrameId) :
    m'.frameAt f = if f = m.frames.size then k else m.frameAt f := by
  simp only [Machine.frameAt, h, Array.getD_eq_getD_getElem?, Array.getElem?_push]
  split <;> rfl

theorem pushFrame_pushed (name : Symbol) (offset nargs : Int64) :
    Leads AnyFault (pushFrame name offset nargs) m fun f m' =>
      f = m.frames.size ∧ Pushed
        { m.savedFrame .call with ownClass := m.context.targetClass, methodId := name, offset, nargs }
        m m' := by
  simp only [pushFrame, Leads.bind_eq, Leads.get_eq]
  split
  · trivial
  · simp only [Leads.bind_eq]
    refine ((charge_clerical frameBytes).tame (P := .nothing) m).mono fun granted m₁ h₁ => ?_
    cases granted with
    | false => trivial
    | true =>
      have hnodes : m₁.chain = m.chain ∧ m₁.suspended = m.suspended ∧ m₁.frames = m.frames :=
        have hcore := h₁.core
        ⟨congrArg (·.chain) hcore, congrArg (·.suspended) hcore, frames_of_core hcore⟩
      obtain ⟨hchain, hsuspended, hframes⟩ := hnodes
      refine ⟨rfl, h₁.toAlters.trans (.of_eq rfl rfl rfl rfl), ?_, rfl, ?_, h₁.names, hsuspended⟩
      · simp only [savedFrame, hframes, h₁.names]
      · simp only [hchain]

theorem push_modify {α : Type} (xs : Array α) (a : α) (f : α → α) :
    (xs.push a).modify xs.size f = xs.push (f a) := by
  apply Array.ext
  · simp
  · intro j hj _
    simp only [Array.size_modify, Array.size_push] at hj
    simp only [Array.getElem_modify, Array.getElem_push]
    split <;> split <;> first | rfl | omega

/-- A frame that was just pushed takes its names. -/
theorem Pushed.modify {k : Frame} (h : Pushed k m m₁) {g : Frame → Frame}
    (hg : (g k).freed = false) :
    Leads AnyFault (modifyFrame m.frames.size g) m₁ fun _ m' => Pushed (g k) m m' := by
  refine ⟨h.alters.trans (.of_eq rfl rfl rfl rfl), ?_, hg, h.chain, h.context, h.suspended⟩
  dsimp only
  rw [h.frames, push_modify]

theorem Pushed.works {k : Frame} (h : Pushed k m m₁) (h' : Works .nothing m₁ m') : Pushed k m m' where
  alters := h.alters.trans h'.toAlters
  frames := (frames_of_core h'.core).trans h.frames
  unfreed := h.unfreed
  chain := (congrArg (·.chain) h'.core : m'.chain = m₁.chain).trans h.chain
  context := h'.names.trans h.context
  suspended := (congrArg (·.suspended) h'.core : m'.suspended = m₁.suspended).trans h.suspended

/-- Goes on in code whose frame was just pushed. -/
theorem Pushed.enterCode {k : Frame} (h : Pushed k m m₁) (hwindow : k.window = b) {code : Code}
    (hcode : m.Offers code) (targetClass : Option ClassId) :
    Leads AnyFault (enterWindow b code.block.registers)
      { m₁ with context := { m₁.context with base := b, code := some code, pc := 0, targetClass } }
      fun _ m₂ => Strides P b m { m₂ with jumped := true } := by
  refine (((enterWindow_clerical b _).tame (P := .nothing) _).and (enterWindow_leads b _)).mono ?_
  rintro _ m₂ ⟨h₂, hnonneg, -, htop⟩
  have hframes : m₂.frames = m.frames.push k := (frames_of_core h₂.core).trans h.frames
  have hnames := h₂.names
  refine ⟨?_, ?_, ?_, ?_, fun f hle hlt => .inr ⟨?_, ?_, hnonneg, code, ?_, hcode, htop⟩⟩
  · refine (h.alters.trans (Alters.trans ?_ (h₂.toAlters.trans ?_))).mono (Permit.nothing_within P)
    · exact .of_eq rfl rfl rfl rfl
    · exact .of_eq rfl rfl rfl rfl
  · refine .push hframes h.unfreed (perm_of_count fun g => ?_)
    have hchain : m₂.chain = m₁.chain := congrArg (·.chain) h₂.core
    have hsuspended : m₂.suspended = m₁.suspended := congrArg (·.suspended) h₂.core
    simp only [nodes, savedMarkers, duties, hnames, hchain, hsuspended, h.chain, h.context,
      h.suspended, List.count_append, List.count_cons]
    omega
  · simp only [hnames, h.context]
  · simp only [hnames, h.context]
  · have hsize : f = m.frames.size := by
      have hlt' : f < m₂.frames.size := hlt
      rw [hframes, Array.size_push] at hlt'
      omega
    have hat : m₂.frameAt f = k := by rw [Pushed.frameAt k hframes, if_pos hsize]
    rw [← hwindow, ← hat]
    rfl
  · simp only [hnames]
  · simp only [hnames]

theorem callProc_strides (hP : P.Inert) (hb : m.context.callBase = b) :
    Leads AnyFault (callProc w) m fun _ m' => Strides P b m m' := by
  subst hb
  simp only [callProc, Leads.bind_eq, Leads.get_eq]
  refine (windowReg_leads fun v _ => ?_).forget
  split
  · simp only [Leads.bind_eq, Leads.get_eq]
    exact raiseText_striding hP _ _ m
  · next code frame selfFrame hproc =>
    obtain ⟨r, -, hr⟩ := proc?_eq_some hproc
    have hcode : m.Offers code := .inr (.inl ⟨r, frame, selfFrame, hr⟩)
    simp only [Leads.bind_eq, Leads.get_eq]
    refine (pushFrame_pushed 0 _ w.argc).mono ?_
    rintro _ m₁ ⟨rfl, h₁⟩
    -- Whatever names the frame takes, its window is that of the call.
    have henter : ∀ (k : Frame) (m₂ : Machine), Pushed k m m₂ → k.window = m.context.callBase →
        Leads AnyFault (enterWindow m₂.context.callBase code.block.registers)
          { m₂ with context := { m₂.context with
              base := m₂.context.callBase, code := some code, pc := 0 } }
          fun _ m₃ => Strides P m.context.callBase m { m₃ with jumped := true } := by
      intro k m₂ h₂ hwindow
      rw [h₂.context]
      have henter := h₂.enterCode (P := P) hwindow hcode m₂.context.targetClass
      simpa only [h₂.context] using henter
    have hwindow : ∀ x : Int64, x + (m.context.callBase - x) = m.context.callBase :=
      fun x => by rw [Int64.add_comm, Int64.sub_add_cancel]
    split
    · simp only [Leads.bind_eq, Leads.get_eq]
      split
      · simp only [Leads.bind_eq, modifyContext, Leads.modify_eq, Leads.get_eq]
        refine (h₁.modify rfl).mono fun _ m₂ h₂ => henter _ m₂ h₂ (hwindow _)
      · simp only [Leads.bind_eq, modifyContext, Leads.modify_eq, Leads.get_eq]
        exact henter _ m₁ h₁ (hwindow _)
    · simp only [Leads.bind_eq, modifyContext, Leads.modify_eq, Leads.get_eq]
      exact henter _ m₁ h₁ (hwindow _)

/-- How a native left off on its window. -/
def Serves (w : Window) (m : Machine) : Outcome → Machine → Prop
  | .done, m' => Strides (.store w.base) w.base m m'
  | .construct made, m' =>
    Works (.store w.base) m m' ∧ entryAt? m'.regs w.base = some made ∧ 0 < w.size.toInt
  | .call _ _, _ => False

theorem Alters.regs_eq (h : Alters P m m') (hstores : ∀ i, ¬P.stores i) (hclears : ∀ i, ¬P.clears i) :
    m'.regs = m.regs := by
  apply Array.ext_getElem?
  intro j
  rcases h.regs j with heq | ⟨i, hi, -⟩ | ⟨⟨i, hi, -⟩, -⟩
  · exact heq
  · exact absurd hi (hstores i)
  · exact absurd hi (hclears i)

/-- A register that is neither stored into nor cleared. -/
theorem Alters.reg_eq (h : Alters P m m') {j : Int64} (hstores : ∀ i, P.stores i → i.toInt ≠ j.toInt)
    (hclears : ∀ i, P.clears i → i.toInt ≠ j.toInt) : entryAt? m'.regs j = entryAt? m.regs j := by
  unfold entryAt?
  split
  · rfl
  · next hj =>
    rw [Int64.lt_iff_toInt_lt] at hj
    have hnonneg : 0 ≤ j.toInt := Int.not_lt.1 hj
    rcases h.regs j.toInt.toNat with heq | ⟨i, hi, hat⟩ | ⟨⟨i, hi, hat⟩, -⟩
    · exact heq
    · exact absurd (hat.trans (Int.toNat_of_nonneg hnonneg)) (hstores i hi)
    · exact absurd (hat.trans (Int.toNat_of_nonneg hnonneg)) (hclears i hi)

theorem setReg_gets (i : Int64) (v : Value) :
    Leads AnyFault (setReg i v) m fun _ m' => entryAt? m'.regs i = some v := by
  simp only [setReg, exchangeReg, Leads.bind_eq, Leads.pure_eq, Leads.modify_eq]
  refine (reg_leads fun old hold => ?_).forget
  obtain ⟨hlt, -⟩ := entryAt?_eq_some hold
  have hnonneg := entryAt?_nonneg hold
  refine Leads.mono (release_tame (P := .nothing) old _) fun _ m₁ h₁ => ?_
  rw [h₁.regs_eq (fun _ h => h) (fun _ h => h), entryAt?, if_neg]
  · exact Array.getElem?_setIfInBounds_self_of_lt hlt
  · rw [Int64.lt_iff_toInt_lt]
    exact Int.not_lt.2 hnonneg

theorem setReturn_gets (w : Window) (v : Value) :
    Leads AnyFault (setReturn w v) m fun _ m' =>
      entryAt? m'.regs w.base = some v ∧ 0 < w.size.toInt := by
  simp only [setReturn, windowReg]
  split
  · next hsize =>
    simp only [Leads.bind_eq]
    refine (reg_leads fun old _ => (setReg_gets w.base v).mono fun _ m₁ h₁ => ⟨h₁, ?_⟩).forget
    exact Int64.lt_iff_toInt_lt.1 hsize.2
  · trivial

theorem construct_serves : Leads AnyFault (construct w) m fun o m' => Serves w m o m' := by
  have hP := Permit.store_inert w.base
  simp only [construct, Leads.bind_eq]
  refine (windowReg_leads fun v _ => ?_).forget
  split
  · next c _ =>
    simp only [Leads.bind_eq]
    refine (newInstance_tame (P := .store w.base) c m).mono fun made m₁ h₁ => ?_
    split
    · simp only [Leads.bind_eq, Leads.pure_eq]
      exact (setReturn_tame rfl _ m₁).mono fun _ m₂ h₂ => (h₁.trans h₂).strides
    · simp only [Leads.bind_eq, Leads.get_eq]
      refine ((intern_clerical _).tame (P := .store w.base) m₁).mono fun k m₂ h₂ => ?_
      split
      · simp only [Leads.bind_eq, Leads.pure_eq]
        exact (setReturn_tame rfl _ m₂).mono fun _ m₃ h₃ => (h₁.trans (h₂.trans h₃)).strides
      · simp only [Leads.bind_eq, Leads.pure_eq, returnShared]
        refine (acquire_tame (P := .store w.base) made m₂).mono fun _ m₃ h₃ => ?_
        refine ((setReturn_tame (P := .store w.base) rfl made m₃).and (setReturn_gets w made)).mono ?_
        rintro _ m₄ ⟨h₄, hgets⟩
        exact ⟨h₁.trans (h₂.trans (h₃.trans h₄)), hgets⟩
  · simp only [Leads.bind_eq, Leads.get_eq, Leads.pure_eq]
    exact raiseText_striding hP _ _ m

/-- An action that calls at most once and has a known result. -/
def Ends {α : Type} (P : Permit) (b : Int64) (a : α) (x : Action α) : Prop :=
  ∀ m, Leads AnyFault x m fun r m' => r = a ∧ Strides P b m m'

section Ends

variable {α β : Type} {x : Action α} {a : β}

theorem Striding.ends (h : Striding P b x) : Ends P b a (x >>= fun _ => pure a) := by
  intro m
  rw [Leads.bind_eq]
  exact (h m).mono fun _ _ h₁ => ⟨rfl, h₁⟩

theorem Tame.ends (h : Tame P x) : Ends P b a (x >>= fun _ => pure a) := h.striding.ends

theorem Tame.ends_bind {f : α → Action β} (hx : Tame P x) (hP : P.Inert)
    (hf : ∀ r, Ends P b a (f r)) : Ends P b a (x >>= f) := by
  intro m
  rw [Leads.bind_eq]
  refine (hx m).mono fun r m₁ h₁ => (hf r m₁).mono fun _ _ ⟨heq, h₂⟩ => ⟨heq, ?_⟩
  exact h₂.after h₁ hP

end Ends

theorem runNative_ends {n : Native} (hn : ∀ p, n ≠ .probe p) (hnew : n ≠ .new)
    (hcall : n ≠ .callProc) : Ends (.store w.base) w.base Outcome.done (runNative n w) := by
  have hP := Permit.store_inert w.base
  have hret : ∀ v, Tame (.store w.base) (setReturn w v) := setReturn_tame rfl
  have htext : ∀ t, Tame (.store w.base) (returnText w t) := returnText_tame rfl
  have hshared : ∀ v, Tame (.store w.base) (returnShared w v) := returnShared_tame rfl
  have hread : ∀ i, Tame (.store w.base) (windowReg w i) := windowReg_tame w
  have hraise : ∀ c t, Striding (.store w.base) w.base (raiseText c t) := raiseText_striding hP
  have hget : Tame (.store w.base) (get : Action Machine) := .of_get
  have hshow : ∀ t v, Ends (.store w.base) w.base Outcome.done
      (write t >>= fun _ => setReturn w v >>= fun _ => pure .done) :=
    fun t v => (write_clerical t).tame.ends_bind hP fun _ => (hret v).ends
  unfold runNative
  cases n <;> dsimp only [returnBool]
  case new => exact absurd rfl hnew
  case callProc => exact absurd rfl hcall
  case probe p => exact absurd rfl (hn p)
  case not | isNil => exact (hread 0).ends_bind hP fun v => (hret _).ends
  case classOf | objectId =>
    exact hget.ends_bind hP fun _ => (hread 0).ends_bind hP fun v => (hret _).ends
  case nilToInt | nilToFloat => exact (hret _).ends
  case equal | notEqual | compare =>
    split
    · exact (hret _).ends
    · exact hget.ends_bind hP fun _ => (hread 0).ends_bind hP fun u => (hread 1).ends_bind hP fun v =>
        (hret _).ends
  case caseEqual =>
    split
    · exact (hret _).ends
    · refine (hread 0).ends_bind hP fun u => (hread 1).ends_bind hP fun v => ?_
      split <;> exact hget.ends_bind hP fun _ => (hret _).ends
  case isKindOf =>
    split
    · refine Tame.ends_bind (.of_pure _) hP fun v => ?_
      split
      · exact (hraise _ _).ends
      · exact hget.ends_bind hP fun _ => (hread 0).ends_bind hP fun _ => (hret _).ends
    · refine (hread 1).ends_bind hP fun v => ?_
      split
      · exact (hraise _ _).ends
      · exact hget.ends_bind hP fun _ => (hread 0).ends_bind hP fun _ => (hret _).ends
  case dup =>
    refine (hread 0).ends_bind hP fun v => ?_
    split
    · exact (dupInstance_tame _).ends_bind hP fun _ => (hret _).ends
    · exact (Tame.of_pure ()).ends
  case attributeReader => exact (attributes_striding hP rfl false).ends
  case attributeAccessor => exact (attributes_striding hP rfl true).ends
  case blockGiven => exact blockGiven_tame.ends_bind hP fun _ => (hret _).ends
  case raise =>
    exact (raiseArguments_tame w).ends_bind hP fun p => (hret _).ends_bind hP fun _ =>
      (raise_striding _ _).ends
  case inspect | boolToText =>
    exact hget.ends_bind hP fun _ => (hread 0).ends_bind hP fun _ => (htext _).ends
  case nilInspect | nilToText => exact (htext _).ends
  case toText =>
    refine (hread 0).ends_bind hP fun v => ?_
    split
    · exact (Tame.of_pure ()).ends
    · exact hget.ends_bind hP fun _ => (htext _).ends
  case «show» =>
    refine (arguments_tame w).ends_bind hP fun vs => hget.ends_bind hP fun _ =>
      (write_clerical _).tame.ends_bind hP fun _ => ?_
    split
    · exact (hshared _).ends
    · exact (hret _).ends
  case print => exact (arguments_tame w).ends_bind hP fun vs => hget.ends_bind hP fun _ => hshow _ _
  case put =>
    refine (arguments_tame w).ends_bind hP fun vs => hget.ends_bind hP fun _ => ?_
    split <;> exact hshow _ _
  case newProc =>
    refine (hread _).ends_bind hP fun v => ?_
    split
    · exact (hshared _).ends
    · exact (hraise _ _).ends
  case attributeGet =>
    exact (hread 0).ends_bind hP fun v => hget.ends_bind hP fun _ =>
      (getVariable_tame v _).ends_bind hP fun _ => (hret _).ends
  case attributeSet =>
    split
    · exact (hraise _ _).ends
    · exact hget.ends_bind hP fun _ => (nameOf_clerical _).tame.ends_bind hP fun _ =>
        (hread 1).ends_bind hP fun v => (hread 0).ends_bind hP fun _ =>
          (intern_clerical _).tame.ends_bind hP fun _ =>
            (setVariable_tame _ _ _).ends_bind hP fun _ => (hshared v).ends
  case instanceMethods => exact hget.ends_bind hP fun _ => (hread 0).ends_bind hP fun _ => hshow _ _
  case instanceVariables => exact hget.ends_bind hP fun _ => (hread 0).ends_bind hP fun _ => hshow _ _
  case memoryStatistics => exact hget.ends_bind hP fun _ => hshow _ _

theorem runNative_serves {n : Native} (hb : m.context.callBase = w.base) (hn : ∀ p, n ≠ .probe p) :
    Leads AnyFault (runNative n w) m fun o m' => Serves w m o m' := by
  by_cases hnew : n = .new
  · subst hnew
    exact construct_serves
  · by_cases hcall : n = .callProc
    · subst hcall
      simp only [runNative, Leads.bind_eq, Leads.pure_eq]
      exact callProc_strides (Permit.store_inert _) hb
    · refine (runNative_ends hn hnew hcall m).mono ?_
      rintro _ m' ⟨rfl, h⟩
      exact h

/-! ### Calls -/

theorem leaveNative_leads (id : MethodId) (hw : 0 ≤ w.base.toInt) (callBase : Int64)
    (callee : Symbol) :
    Leads AnyFault (leaveNative id w callBase callee) m fun _ m' =>
      Alters (.clearFrom (w.base.toInt + 1)) m m' ∧ m'.core = m.core ∧
      m'.context = { m.context with callBase, callee } := by
  simp only [leaveNative, modifyContext, Leads.bind_eq, Leads.modify_eq, Leads.get_eq]
  refine ((releaseMethod_clerical id).tame (P := .clearFrom (w.base.toInt + 1)) m).mono fun _ m₁ h₁ => ?_
  have hnames : Alters (.clearFrom (w.base.toInt + 1)) m₁
      { m₁ with context := { m₁.context with callBase, callee } } := .of_eq rfl rfl rfl rfl
  split
  · have hstart : 0 ≤ (w.base + 1).toInt → w.base.toInt + 1 ≤ (w.base + 1).toInt :=
      fun h => Int.le_of_eq (toInt_succ hw h).symm
    refine Leads.mono (clearRegs_tame _ _ hstart _) fun _ m₂ h₂ => ?_
    refine ⟨h₁.toAlters.trans (hnames.trans h₂.toAlters), h₂.core.trans h₁.core, ?_⟩
    rw [h₂.names, h₁.names]
  · exact ⟨h₁.toAlters.trans hnames, h₁.core, by simp only [h₁.names]⟩

/-- The constructor pass of `made` has begun. It was started by the method `id`, which was
called under the name `callee`. -/
structure Constructs (P : Permit) (w : Window) (id : MethodId) (callee : Symbol) (made : Value)
    (m m' : Machine) : Prop where
  alters : Alters P m m'
  context : m'.context = { m.context with
    callBase := w.base, callee, markers := [], base := w.base,
    code := some (constructorCode w.argc), pc := 0, entry := m.chain.head? }
  suspended : m'.suspended = ⟨m.context.entry,
    [.construct { m.context with callBase := w.base, callee } made w,
      .leave id w m.context.callBase m.context.callee]⟩ :: m.suspended
  frames : m'.frames = m.frames
  chain : m'.chain = m.chain
  jumped : m'.jumped = false
  receiver : entryAt? m'.regs w.base = some made
  size_pos : 0 < w.size.toInt
  top : (w.base + w.size).toInt ≤ m'.regHigh.toInt

/-- What a call on a window does. -/
def Responds (P : Permit) (w : Window) (m : Machine) : Progress → Machine → Prop
  | .same, m' => Strides P w.base m m'
  | .entered, m' => ∃ id callee made, Constructs P w id callee made m m'
  | .finished _, _ => False

theorem enterConstruct_constructs {id : MethodId} {made : Value} {callBase : Int64} {callee : Symbol}
    (h : Works (.store w.base) m m₁) (hbase : m.context.callBase = w.base)
    (hreceiver : entryAt? m₁.regs w.base = some made) :
    Leads AnyFault (enterConstruct made w [.leave id w callBase callee]) m₁ fun _ m' =>
      Alters (.store w.base) m m' ∧
      m'.context = { m.context with
        markers := [], base := w.base, code := some (constructorCode w.argc), pc := 0,
        entry := m.chain.head? } ∧
      m'.suspended = ⟨m.context.entry,
        [.construct m.context made w, .leave id w callBase callee]⟩ :: m.suspended ∧
      m'.frames = m.frames ∧ m'.chain = m.chain ∧ m'.jumped = false ∧
      entryAt? m'.regs w.base = some made ∧ (w.base + w.size).toInt ≤ m'.regHigh.toInt := by
  simp only [enterConstruct, enterPass, modifyContext, currentSize, currentCode, Leads.bind_eq,
    Leads.modify_eq, Leads.get_eq, Leads.pure_eq, present]
  refine (((enterWindow_clerical _ _).tame (P := .nothing) _).and (enterWindow_leads _ _)).mono ?_
  rintro _ m₂ ⟨h₂, -, -, htop⟩
  have hchain : m₁.chain = m.chain := congrArg (·.chain) h.core
  have hsuspended : m₁.suspended = m.suspended := congrArg (·.suspended) h.core
  refine ⟨?_, ?_, ?_, ?_, ?_, ?_, ?_, ?_⟩
  · refine h.toAlters.trans (Alters.trans ?_ (h₂.toAlters.mono (Permit.nothing_within _)))
    exact .of_eq rfl rfl rfl rfl
  · rw [h₂.names]
    simp only [h.names, hchain, hbase]
  · have hs : m₂.suspended = ⟨m₁.context.entry,
        [.construct m₁.context made w, .leave id w callBase callee]⟩ :: m₁.suspended :=
      congrArg (·.suspended) h₂.core
    rw [hs, h.names, hsuspended]
  · have hframes : m₂.frames = m₁.frames := congrArg (·.frames) h₂.core
    exact hframes.trans (frames_of_core h.core)
  · exact (congrArg (·.chain) h₂.core : m₂.chain = m₁.chain).trans hchain
  · exact (congrArg (·.jumped) h₂.core :)
  · rw [h₂.regs_eq (fun _ h => h) fun _ h => h]
    exact hreceiver
  · rw [h.names, hbase] at htop
    exact htop

theorem enterNative_leads (id : MethodId) :
    Leads AnyFault (enterNative id w) m fun d m' =>
      d = .leave id w m.context.callBase m.context.callee ∧ Alters (.store w.base) m m' ∧
      m'.core = m.core ∧
      m'.context = { m.context with callBase := w.base, callee := (m.methodAt id).symbol } := by
  simp only [enterNative, modifyContext, Leads.bind_eq, Leads.get_eq, Leads.modify_eq, Leads.pure_eq]
  refine Leads.mono ((acquireMethod_clerical id).tame (P := .store w.base) _) fun _ m₁ h₁ => ?_
  refine ⟨trivial, Alters.trans ?_ h₁.toAlters, h₁.core, h₁.names⟩
  exact .of_eq rfl rfl rfl rfl

theorem checkWindow_nonneg {Q : Unit → Machine → Prop} (h : 0 ≤ w.base.toInt → Q () m) :
    Leads AnyFault (checkWindow w) m Q := by
  simp only [checkWindow, Leads.bind_eq, Leads.get_eq]
  split
  · trivial
  · next hwindow =>
    obtain ⟨hneg, -⟩ := not_or.1 hwindow
    rw [Int64.lt_iff_toInt_lt] at hneg
    exact h (Int.not_lt.1 hneg)

theorem startNative_responds (id : MethodId)
    (hprobe : ∀ id p, (m.methodAt id).native? ≠ some (.probe p)) :
    Leads AnyFault (startNative id w []) m fun r m' => ∃ p, r = .inl p ∧ Responds (.call w.base) w m p m' := by
  have hstore := Permit.store_within_call w.base
  simp only [startNative, Leads.bind_eq, Leads.get_eq]
  refine (enterNative_leads id).mono ?_
  rintro _ m₁ ⟨rfl, h₁, hcore₁, hcontext₁⟩
  refine checkWindow_nonneg fun hnonneg => (present_leads fun n hn => ?_).forget
  have hbase₁ : m₁.context.callBase = w.base := by rw [hcontext₁]
  have hplain : ∀ p, n ≠ .probe p := by
    rintro p rfl
    exact h₁.noProbe hprobe id p hn
  refine (runNative_serves hbase₁ hplain).mono fun o m₂ h₂ => ?_
  cases o with
  | done =>
    simp only [runDuties, runDuty, Leads.bind_eq, Leads.pure_eq]
    refine (leaveNative_leads id hnonneg _ _).mono ?_
    rintro _ m₃ ⟨h₃, hcore₃, hcontext₃⟩
    refine ⟨.same, rfl, ?_⟩
    have h₂ : Strides (.call w.base) w.base m₁ m₂ := Strides.mono h₂ hstore
    exact h₂.amid (Permit.call_inert _) (h₁.mono hstore) hcore₁
      (h₃.mono (Permit.clearFrom_within_call _)) hcore₃ (by rw [hcontext₃]) (by rw [hcontext₃])
  | construct made =>
    obtain ⟨h₂, hreceiver, hsize⟩ := h₂
    simp only [Leads.bind_eq, Leads.pure_eq]
    refine (enterConstruct_constructs h₂ hbase₁ hreceiver).mono ?_
    rintro _ m₃ ⟨h₃, hcontext₃, hsuspended₃, hframes₃, hchain₃, hjumped, hreceiver₃, htop⟩
    have hchain₁ : m₁.chain = m.chain := congrArg (·.chain) hcore₁
    have hs₁ : m₁.suspended = m.suspended := congrArg (·.suspended) hcore₁
    refine ⟨.entered, rfl, id, (m.methodAt id).symbol, made, (h₁.trans h₃).mono hstore, ?_, ?_, ?_, ?_,
      hjumped, hreceiver₃, hsize, htop⟩
    · rw [hcontext₃, hcontext₁, hchain₁]
    · rw [hsuspended₃, hcontext₁, hs₁]
    · exact hframes₃.trans (frames_of_core hcore₁)
    · exact hchain₃.trans hchain₁
  | call id' w' => exact h₂.elim

/-- A native call on a window in the register file. -/
theorem callNative_responds (limit : Nat) (id : MethodId)
    (hprobe : ∀ id p, (m.methodAt id).native? ≠ some (.probe p)) :
    Leads AnyFault (callNative limit ⟨id, w, []⟩) m fun p m' => Responds (.call w.base) w m p m' := by
  rw [callNative, Leads.bind_eq]
  refine (startNative_responds id hprobe).mono ?_
  rintro _ m₁ ⟨p, rfl, h₁⟩
  exact h₁

theorem callCode_strides (a : Int64) (name : Symbol) (argc : Int64) (id : MethodId) (owner : ClassId)
    {code : Code} (hcode : m.Offers code) :
    Leads AnyFault (callCode a name argc id owner code) m fun _ m' =>
      Strides P (m.context.base + a) m m' := by
  simp only [callCode, modifyContext, Leads.bind_eq, Leads.get_eq, Leads.modify_eq]
  refine (pushFrame_pushed name a argc).mono ?_
  rintro _ m₁ ⟨rfl, h₁⟩
  refine (h₁.modify rfl).mono fun _ m₂ h₂ => ?_
  refine ((acquireMethod_clerical id).tame (P := .nothing) m₂).mono fun _ m₃ h₃ => ?_
  exact (h₂.works h₃).enterCode rfl hcode _

theorem Responds.after {p : Progress} (h : Responds P w m₁ p m') (h₁ : Works P m m₁) (hP : P.Inert) :
    Responds P w m p m' := by
  cases p with
  | same => exact Strides.after h h₁ hP
  | entered =>
    obtain ⟨id, callee, made, h⟩ := h
    have hchain : m₁.chain = m.chain := congrArg (·.chain) h₁.core
    have hsuspended : m₁.suspended = m.suspended := congrArg (·.suspended) h₁.core
    refine ⟨id, callee, made, h₁.toAlters.trans h.alters, ?_, ?_, ?_, ?_, h.jumped, h.receiver,
      h.size_pos, h.top⟩
    · rw [h.context, h₁.names, hchain]
    · rw [h.suspended, h₁.names, hsuspended]
    · exact h.frames.trans (frames_of_core h₁.core)
    · exact h.chain.trans hchain
  | finished v => exact h

theorem Responds.mono {p : Progress} (h : Responds P w m p m') (hPQ : P.Within Q) :
    Responds Q w m p m' := by
  cases p with
  | same => exact Strides.mono h hPQ
  | entered =>
    obtain ⟨id, callee, made, h⟩ := h
    exact ⟨id, callee, made, h.alters.mono hPQ, h.context, h.suspended, h.frames, h.chain, h.jumped,
      h.receiver, h.size_pos, h.top⟩
  | finished v => exact h

theorem Responds.alters {p : Progress} (h : Responds P w m p m') : Alters P m m' := by
  cases p with
  | same => exact Strides.alters h
  | entered =>
    obtain ⟨id, callee, made, h⟩ := h
    exact h.alters
  | finished v => exact h.elim

/-- A call of a method responds, on a window below the mark. -/
theorem dispatch_responds (a : Int64) (name : Symbol) (argc : Int64) (c : ClassId)
    (hprobe : ∀ id p, (m.methodAt id).native? ≠ some (.probe p)) :
    Leads AnyFault (dispatch a name argc c) m fun p m' =>
      Responds (.call (m.context.base + a)) ⟨m.context.base + a, argc⟩ m p m' ∧ 0 ≤ (m.context.base + a).toInt ∧
      (m.context.base + a + (argc + 2)).toInt ≤ m'.regHigh.toInt := by
  have hP := Permit.call_inert (m.context.base + a)
  simp only [dispatch, Leads.bind_eq, Leads.get_eq]
  have hentered :=
    (enterWindow_clerical (m.context.base + a) (argc + 2)).tame (P := .call (m.context.base + a)) m
  refine (hentered.and (enterWindow_leads _ _)).mono ?_
  rintro _ m₁ ⟨h₁, hnonneg, -, htop⟩
  have hend : ∀ {p m₂ m₃}, Works (.call (m.context.base + a)) m₁ m₂ →
      Responds (.call (m.context.base + a)) ⟨m.context.base + a, argc⟩ m₂ p m₃ →
      Responds (.call (m.context.base + a)) ⟨m.context.base + a, argc⟩ m p m₃ ∧ 0 ≤ (m.context.base + a).toInt ∧
        (m.context.base + a + (argc + 2)).toInt ≤ m₃.regHigh.toInt := by
    intro p m₂ m₃ h₂ h₃
    refine ⟨h₃.after (h₁.trans h₂) hP, hnonneg, ?_⟩
    have hhigh := (h₂.toAlters.trans h₃.alters).high
    exact Int.le_trans htop (hhigh.resolve_left hP.trims)
  split
  · simp only [Leads.bind_eq, Leads.get_eq, Leads.pure_eq]
    refine (reg_leads fun v _ => ?_).forget
    refine (raiseText_striding hP _ _ m₁).mono fun _ m₂ h₂ => hend (.refl m₁) (p := .same) h₂
  · next id owner _ =>
    simp only [Leads.bind_eq, Leads.get_eq]
    refine ((recordCall_clerical id owner).tame (P := .call (m.context.base + a)) m₁).mono fun _ m₂ h₂ => ?_
    split
    · have hprobe₂ := (h₁.trans h₂).noProbe hprobe
      exact (callNative_responds argc.toInt.toNat id hprobe₂).mono fun p m₃ h₃ => hend h₂ h₃
    · next code hbody =>
      simp only [Leads.bind_eq, Leads.pure_eq]
      have hbase : m₂.context.base = m.context.base := by rw [h₂.names, h₁.names]
      refine (callCode_strides (P := .call (m.context.base + a)) a name argc id owner
        (.inl ⟨id, hbody⟩)).mono fun _ m₃ h₃ => ?_
      rw [hbase] at h₃
      exact hend h₂ (p := .same) h₃

end Machine

end ObjectMachine
