import ObjectMachine.Proofs.Footprints
import ObjectMachine.Proofs.Redefinition
import ObjectMachine.Proofs.ScriptCalls

/-! Who writes variables. An instruction stores a variable of an instance by itself, or by a call
of the native that setters are: in a message to the instance, or above a method that runs on it.
Nothing else does, neither another instruction nor the host. So from tick to tick an instance that
is live keeps all variables that no instruction stored. -/

namespace ObjectMachine

namespace Machine

open Memory

variable {W : Ref → Text → Prop} {m m₁ m' a : Machine} {v : Value} {r : Ref} {s : Symbol}
  {w : Window} {i : Inst} {id : MethodId} {owner c : ClassId} {name : Text} {ph ph' : Phase}
  {owned : List Value} {running : Bool}

/-! ### Instructions that store -/

def slot? (m : Machine) (j : Int64) : Option Text := do
  entryAt? (← m.context.code).block.symbols j

/-- The instruction `i` sends the message `name` to the instance `r`, which the native `n`
answers. -/
structure CallsNative (m : Machine) (i : Inst) (r : Ref) (n : Native) (name : Text) : Prop where
  sends : m.Sends i (.object r)
  named : m.slot? i.b = some name
  answered : ∃ s id owner, m.sentSymbol i.b = some s ∧
    m.findMethod? (m.classOf (.object r)) s = some (id, owner) ∧ (m.methodAt id).native? = some n

/-- The instruction `i` calls the setter `name` above a method that runs on the instance `r`. -/
structure SupersSetter (m : Machine) (i : Inst) (r : Ref) (name : Text) : Prop where
  op : i.op = .callSuper
  receiver : self m = .ok (.object r) m
  argc : 1 ≤ i.b
  answered : ∃ f own super s id owner, m.currentCall? = some f ∧ f.ownClass = some own ∧
    f.methodId = s ∧ m.symbols.name s = name ∧ (m.classAt own).super = some super ∧
    m.findMethod? super s = some (id, owner) ∧ (m.methodAt id).native? = some .attributeSet

/-- The instruction `i` stores a variable of the instance `r`, if there is memory for it. -/
inductive Stores (m : Machine) (i : Inst) (r : Ref) : Text → Prop
  | call {name : Text} (h : m.CallsNative i r .attributeSet name) (hargc : 1 ≤ i.c) :
      Stores m i r (Text.dropTail "=" name)
  | super {name : Text} (h : m.SupersSetter i r name) : Stores m i r (Text.dropTail "=" name)
  | operand {name : Text} (hop : i.op = .setVariable) (hself : self m = .ok (.object r) m)
      (hslot : m.slot? i.b = some name) : Stores m i r (Text.dropLead "@" name)

/-! ### Calls -/

theorem symbol_of_findMethod? (h : m.findMethod? c s = some (id, owner)) :
    (m.methodAt id).symbol = s :=
  eq_of_beq (List.find?_some (own_of_findMethod? h :) :)

def entering (m : Machine) (id : MethodId) (w : Window) : Machine :=
  { m with
    context := { m.context with callBase := w.base, callee := (m.methodAt id).symbol }
    methods := m.methods.modify id fun k => { k with refCount := k.refCount + 1 } }

theorem enterNative_ok (m : Machine) (id : MethodId) (w : Window) :
    enterNative id w m =
      .ok (.leave id w m.context.callBase m.context.callee) (m.entering id w) := by
  refine Leads.eq_ok ?_
  simp only [enterNative, acquireMethod, modifyMethod, modifyContext, Leads.bind_eq, Leads.get_eq,
    Leads.modify_eq, Leads.pure_eq]
  exact ⟨trivial, rfl⟩

theorem native?_entering : ((m.entering id w).methodAt id).native? = (m.methodAt id).native? :=
  native?_modify fun _ => rfl

/-- The native of setters stores a variable of the receiver. -/
theorem attributeSet_persists (hset : 1 ≤ w.argc → ∀ r, entryAt? m.regs w.base = some (.object r) →
      W r (Text.dropTail "=" (m.symbols.name m.context.callee))) :
    Leads AnyFault (runNative .attributeSet w) m fun _ m' => Persists W m m' := by
  have hm := Persists.refl (W := W) m
  simp only [runNative]
  split
  · exact hm.leads ((Regime.raiseText_keeps trivial _).bind fun _ _ => .of_pure trivial)
  · next hargc =>
    simp only [Leads.bind_eq, Leads.get_eq, nameOf, Leads.pure_eq]
    refine (windowReg_leads fun v _ => (windowReg_leads fun obj hobj => ?_).forget).forget
    refine ((hm.leads (intern_clerical _).keeps).and (Leads.named _)).mono ?_
    rintro k m₁ ⟨h₁, hk⟩
    cases hk
    rw [Int64.add_zero] at hobj
    refine (setVariable_persists (W := W) (SymbolTable.lookup?_intern_self _
      (Text.dropTail "=" (m.symbols.name m.context.callee))) ?_ v).mono fun _ m₂ h₂ => ?_
    · rintro r rfl
      exact hset (Int64.not_lt.1 hargc) r hobj
    · exact (h₁.trans h₂).leads (Regime.returnShared_keeps w fun _ _ => trivial)

theorem startNative_persists (hprobe : ∀ id p, (m.methodAt id).native? ≠ some (.probe p))
    (hset : (m.methodAt id).native? = some .attributeSet → 1 ≤ w.argc →
      ∀ r, entryAt? m.regs w.base = some (.object r) →
        W r (Text.dropTail "=" (m.symbols.name (m.methodAt id).symbol))) :
    Leads AnyFault (startNative id w []) m fun _ m' => Persists W m m' := by
  simp only [startNative, Leads.bind_eq, Leads.get_eq]
  refine .of_eq (enterNative_ok m id w) ?_
  have h₁ : Persists W m (m.entering id w) := .of_same rfl rfl
  refine checkWindow_nonneg fun _ => (present_leads fun n hn => ?_).forget
  have hn : (m.methodAt id).native? = some n := native?_entering.symm.trans hn
  have hrun : Leads AnyFault (runNative n w) (m.entering id w) fun _ m₂ => Persists W m m₂ := by
    by_cases heq : n = .attributeSet
    · subst heq
      have hstore := attributeSet_persists (W := W) (m := m.entering id w) fun hargc r hr =>
        hset hn hargc r hr
      exact hstore.mono fun _ _ h₂ => h₁.trans h₂
    · have hplain : ¬(n = .attributeSet ∨ ∃ p, n = .probe p) := by
        rintro (h | ⟨p, rfl⟩)
        · exact heq h
        · exact hprobe id p hn
      exact h₁.leads (Regime.runNative_gives core_footprint (fun h => absurd h hplain) w).forget
  refine hrun.mono fun o m₂ h₂ => ?_
  cases o with
  | done =>
    simp only [Leads.bind_eq, Leads.pure_eq]
    exact h₂.leads (Regime.runDuties_keeps fun d _ => owes_footprint d)
  | construct made =>
    simp only [Leads.bind_eq, Leads.pure_eq]
    exact h₂.leads (Regime.enterConstruct_keeps (fun _ _ => trivial) w fun d _ => owes_footprint d)
  | call id' w' => exact h₂

theorem callNative_persists (limit : Nat)
    (hprobe : ∀ id p, (m.methodAt id).native? ≠ some (.probe p))
    (hset : (m.methodAt id).native? = some .attributeSet → 1 ≤ w.argc →
      ∀ r, entryAt? m.regs w.base = some (.object r) →
        W r (Text.dropTail "=" (m.symbols.name (m.methodAt id).symbol))) :
    Leads AnyFault (callNative limit ⟨id, w, []⟩) m fun _ m' => Persists W m m' := by
  rw [callNative, Leads.bind_eq]
  refine ((startNative_persists hprobe hset).and (startNative_responds id hprobe)).mono ?_
  rintro _ m₁ ⟨h₁, p, rfl, -⟩
  exact h₁

theorem SameNames.noProbe (h : SameNames m m')
    (hprobe : ∀ id p, (m.methodAt id).native? ≠ some (.probe p)) :
    ∀ id p, (m'.methodAt id).native? ≠ some (.probe p) := by
  rw [h.methodAt]
  exact hprobe

theorem dispatch_persists (a argc : Int64)
    (hprobe : ∀ id p, (m.methodAt id).native? ≠ some (.probe p))
    (hset : ∀ id owner, m.findMethod? c s = some (id, owner) →
      (m.methodAt id).native? = some .attributeSet → 1 ≤ argc →
      ∀ r, entryAt? m.regs (m.context.base + a) = some (.object r) →
        W r (Text.dropTail "=" (m.symbols.name s))) :
    Leads AnyFault (dispatch a s argc c) m fun _ m' => Persists W m m' := by
  simp only [dispatch, Leads.bind_eq, Leads.get_eq]
  have hm := Persists.refl (W := W) m
  have hentered := ((enterWindow_clerical (m.context.base + a) (argc + 2)).tame (P := .nothing) m).and
    (enterWindow_sameNames _ _)
  refine ((hm.leads (enterWindow_clerical _ _).keeps).and hentered).mono ?_
  rintro _ m₁ ⟨hp₁, h₁, hnames₁⟩
  rw [hnames₁.findMethod?]
  split
  · simp only [Leads.bind_eq, Leads.get_eq]
    refine (hp₁.leads (Regime.reg_fetches _).forget).mono fun _ m₂ hp₂ => ?_
    simp only [Leads.pure_eq]
    exact hp₂.leads (Regime.raiseText_keeps trivial _)
  · next id owner hfound =>
    simp only [Leads.bind_eq, Leads.get_eq]
    have hrecorded :=
      ((recordCall_clerical id owner).tame (P := .nothing) m₁).and (recordCall_sameNames id owner)
    refine ((hp₁.leads (recordCall_clerical id owner).keeps).and hrecorded).mono ?_
    rintro _ m₂ ⟨hp₂, h₂, hnames₂⟩
    have hnames := hnames₁.trans hnames₂
    have hregs := (h₁.trans h₂).regs_eq (fun _ h => h) fun _ h => h
    rw [hnames.methodAt]
    split
    · refine (callNative_persists (W := W) _ (hnames.noProbe hprobe) fun hnative hargc r hr => ?_).mono
        fun _ _ hp₃ => hp₂.trans hp₃
      rw [hnames.methodAt] at hnative
      rw [hnames.symbols, hnames.methodAt, symbol_of_findMethod? hfound]
      rw [hregs] at hr
      exact hset id owner hfound hnative hargc r hr
    · simp only [Leads.bind_eq, Leads.pure_eq]
      exact hp₂.leads (Regime.callCode_keeps _ _ _ _ _ _)

/-! ### Sends -/

theorem setReg_changes (j : Int64) (v : Value) : Leads AnyFault (setReg j v) m fun _ m' =>
    m' = { m with regs := m.regs.setIfInBounds j.toInt.toNat v, memory := m'.memory } ∧
      (∃ old, entryAt? m.regs j = some old) ∧ m.memory.Outlasts m'.memory ∧
      m'.memory.heap.size = m.memory.heap.size := by
  simp only [setReg, exchangeReg, Leads.bind_eq, Leads.modify_eq, Leads.pure_eq]
  refine (reg_leads fun old hold => ?_).forget
  refine Leads.mono (release_outlasts old) ?_
  rintro _ m₁ ⟨halone, houtlasts, hsize⟩
  exact ⟨halone, ⟨old, hold⟩, houtlasts, hsize⟩

theorem enterWindow_changes (base size : Int64) : Leads AnyFault (enterWindow base size) m fun _ m' =>
    m' = { m with regHigh := m'.regHigh } := by
  simp only [enterWindow, Leads.bind_eq, Leads.get_eq]
  split
  · trivial
  · split <;> rfl

/-- What a send does before it looks up a method. The answer is the symbol and the receiver. -/
def ready (i : Inst) : Action (Symbol × Value) := do
  let r := (← get).context.base
  if i.op = .send then
    enterWindow (r + i.a) (i.c + 2)
    setReg (r + i.a + i.c + 1) .nil
  let s ← codeSymbol i.b
  return (s, ← reg (r + i.a))

theorem step_eq_ready {E : Fault → Machine → Prop} {Q : Progress → Machine → Prop}
    (hop : i.op = .send ∨ i.op = .sendBlock) : Leads E (step i) m Q =
      Leads E (ready i) m fun x m₁ => Leads E (dispatch i.a x.1 i.c (m₁.classOf x.2)) m₁ Q := by
  rcases hop with hop | hop <;>
    simp only [step, ready, hop, Leads.bind_eq, Leads.get_eq, Leads.pure_eq, if_true, reduceCtorEq,
      if_false]

/-- The instruction `i` has come to where it sends `s` to `v`. -/
structure Readies (i : Inst) (s : Symbol) (v : Value) (m m' : Machine) : Prop where
  alone : m' = { m with
    regHigh := m'.regHigh, regs := m'.regs, memory := m'.memory, symbols := m'.symbols }
  sends : m.Sends i v
  symbol : m.sentSymbol i.b = some s
  symbols : ∃ code, m.context.code = some code ∧
    m'.symbols = (m.symbols.internAll code.block.symbols.toList).1
  receiver : entryAt? m'.regs (m.context.base + i.a) = some v
  regs : ∀ j, j ≠ m.context.base + i.a + i.c + 1 → entryAt? m'.regs j = entryAt? m.regs j
  size : m'.regs.size = m.regs.size
  outlasts : m.memory.Outlasts m'.memory
  heap : m'.memory.heap.size = m.memory.heap.size
  classOf : m'.classOf = m.classOf

theorem behind_ne {b n : Int64} (h : n ≠ -1) : b ≠ b + n + 1 := by
  intro heq
  refine h ?_
  have hzero : n + 1 = 0 := Int64.add_eq_left.1 (by rw [← Int64.add_assoc, ← heq])
  rw [← Int64.add_sub_cancel n 1, hzero]
  rfl

theorem entryAt?_set {xs : Array Value} {j k : Int64} {old : Value} (hj : entryAt? xs j = some old)
    (v : Value) : entryAt? (xs.setIfInBounds j.toInt.toNat v) k =
      if k = j then some v else entryAt? xs k := by
  have hnonneg := entryAt?_nonneg hj
  obtain ⟨hlt, -⟩ := entryAt?_eq_some hj
  by_cases hk : k = j
  · subst hk
    have hsign : ¬k < 0 := by
      rw [Int64.lt_iff_toInt_lt]
      simpa using hnonneg
    rw [entryAt?, if_neg hsign, if_pos rfl, Array.getElem?_setIfInBounds_self_of_lt hlt]
  · rw [if_neg hk]
    cases hx : entryAt? xs k with
    | some x => exact entryAt?_set_ne hx hk hnonneg v
    | none =>
      unfold entryAt? at hx ⊢
      split
      · rfl
      · next hsign =>
        rw [if_neg hsign] at hx
        simpa using hx

theorem ready_readies (hop : i.op = .send ∨ i.op = .sendBlock) :
    Leads AnyFault (ready i) m fun x m' => Readies i x.1 x.2 m m' := by
  -- From where the window is in place.
  have hrest : ∀ m₁ : Machine, m₁ = { m with
        regHigh := m₁.regHigh, regs := m₁.regs, memory := m₁.memory } →
      (∀ v, entryAt? m₁.regs (m.context.base + i.a) = some v → m.Sends i v) →
      (∀ j, j ≠ m.context.base + i.a + i.c + 1 → entryAt? m₁.regs j = entryAt? m.regs j) →
      m₁.regs.size = m.regs.size → m.memory.Outlasts m₁.memory →
      m₁.memory.heap.size = m.memory.heap.size → m₁.classOf = m.classOf →
      Leads AnyFault (do
        let s ← codeSymbol i.b
        return (s, ← reg (m.context.base + i.a))) m₁ fun x m' => Readies i x.1 x.2 m m' := by
    intro m₁ halone hsends hregs hsize houtlasts hheap hclassOf
    simp only [codeSymbol, Leads.bind_eq]
    refine (currentCode_leads fun code hcode => ?_).forget
    simp only [Leads.modifyGet_eq]
    refine (present_leads fun s hs => (reg_leads fun v hv => ?_).forget).forget
    have hcode : m.context.code = some code := by
      rw [halone] at hcode
      exact hcode
    have hsymbols : m₁.symbols = m.symbols := congrArg (·.symbols) halone
    rw [hsymbols] at hs hv ⊢
    refine ⟨?_, hsends v hv, ?_, ⟨code, hcode, rfl⟩, hv, hregs, hsize, houtlasts, hheap, hclassOf⟩
    · rw [halone]
    · rw [sentSymbol, hcode]
      exact hs
  simp only [ready, Leads.bind_eq, Leads.get_eq] at hrest ⊢
  rcases hop with hop | hop
  · simp only [hop, if_true, Leads.bind_eq]
    refine (enterWindow_changes _ _).mono fun _ m₁ h₁ => ?_
    refine ((setReg_changes _ .nil).and (setReg_sameNames _ .nil)).mono ?_
    rintro _ m₂ ⟨⟨h₂, ⟨old, hold⟩, houtlasts, hheap⟩, hnames⟩
    rw [h₁] at h₂ hold houtlasts hheap hnames
    have hregs : m₂.regs = m.regs.setIfInBounds _ .nil := congrArg (·.regs) h₂
    refine hrest m₂ ?_ (fun v hv => ?_) (fun j hj => ?_) ?_ houtlasts hheap hnames.classOf
    · rw [h₂]
    · rw [hregs, entryAt?_set hold] at hv
      by_cases hcount : i.c = -1
      · have hplace : m.context.base + i.a = m.context.base + i.a + i.c + 1 := by
          rw [hcount, Int64.add_assoc _ (-1) 1]
          exact (Int64.add_zero _).symm
        rw [if_pos hplace] at hv
        cases hv
        exact .cleared hop hcount
      · rw [if_neg (behind_ne hcount)] at hv
        exact .kept (.inl ⟨hop, hcount⟩) hv
    · rw [hregs, entryAt?_set hold, if_neg hj]
    · rw [hregs, Array.size_setIfInBounds]
  · simp only [hop, reduceCtorEq, if_false, Leads.bind_eq]
    exact hrest m rfl (fun v hv => .kept (.inr hop) hv) (fun _ _ => rfl) rfl (.refl _) rfl rfl

namespace Readies

variable (h : Readies i s v m m')

include h

theorem context : m'.context = m.context := congrArg (·.context) h.alone

theorem classes : m'.classes = m.classes := congrArg (·.classes) h.alone

theorem methods : m'.methods = m.methods := congrArg (·.methods) h.alone

theorem inverse (hm : m.symbols.Inverse) : m'.symbols.Inverse := by
  obtain ⟨code, -, hsymbols⟩ := h.symbols
  rw [hsymbols]
  exact hm.internAll _

theorem persists : Persists W m m' := by
  obtain ⟨code, -, hsymbols⟩ := h.symbols
  exact ⟨⟨_, hsymbols⟩, Nat.le_of_eq h.heap.symm, fun r b _ hb => ⟨b, h.outlasts r b hb, .same b⟩⟩

/-- The symbol is that of the text in the slot. -/
theorem named : ∃ name, m.slot? i.b = some name ∧ m'.symbols.lookup? name = some s := by
  obtain ⟨code, hcode, hsymbols⟩ := h.symbols
  have hs := h.symbol
  rw [sentSymbol, hcode] at hs
  rw [slot?, hcode, hsymbols]
  simp only [Option.bind_eq_bind, Option.bind_some, entryAt?] at hs ⊢
  split at hs
  · cases hs
  · next hsign =>
    rw [List.getElem?_toArray] at hs
    rw [if_neg hsign]
    obtain ⟨name, hname, hlookup⟩ := SymbolTable.lookup?_of_internAll hs
    exact ⟨name, by rwa [Array.getElem?_toList] at hname, hlookup⟩

end Readies

/-! ### Instructions -/

theorem self_named : Leads AnyFault self m fun v m' => m' = m ∧ self m = .ok v m := by
  refine ((self_leads (s := False) fun _ _ => rfl).forget.and (Leads.named self)).mono ?_
  rintro v m' ⟨rfl, hself⟩
  exact ⟨rfl, hself⟩

theorem acquire_changes (v : Value) : Leads AnyFault (acquire v) m fun _ m' =>
    m' = { m with memory := m'.memory } := by
  refine .intro (fun _ m' hm' => ?_) fun _ _ _ => trivial
  obtain ⟨μ, hμ, -⟩ := acquire_ok ((acquire_live v).of_ok hm')
  cases hμ.symm.trans hm'
  rfl

/-- A send stores what its message says. -/
theorem send_persists (hop : i.op = .send ∨ i.op = .sendBlock)
    (hprobe : ∀ id p, (m.methodAt id).native? ≠ some (.probe p))
    (hinverse : (∀ r name, W r name) ∨ m.symbols.Inverse) (hW : ∀ r name, m.Stores i r name → W r name) :
    Leads AnyFault (step i) m fun _ m' => Persists W m m' := by
  rw [step_eq_ready hop]
  refine (ready_readies hop).mono ?_
  rintro ⟨s, v⟩ m₁ h
  obtain ⟨hfind, hat⟩ := findMethod?_congr h.classes h.methods
  refine (dispatch_persists i.a i.c (W := W) (fun id => by rw [hat]; exact hprobe id) ?_).mono
    fun _ _ h' => h.persists.trans h'
  intro id owner hfound hnative hargc r hr
  rcases hinverse with hall | hinverse
  · exact hall _ _
  · obtain ⟨name, hslot, hlookup⟩ := h.named
    rw [(h.inverse hinverse).name_eq hlookup]
    rw [h.context] at hr
    cases hr.symm.trans h.receiver
    rw [hfind, h.classOf] at hfound
    rw [hat] at hnative
    exact hW r _ (.call ⟨h.sends, hslot, s, id, owner, h.symbol, hfound, hnative⟩ hargc)

/-- What a call of the superclass does before it looks for the method. -/
def readySuper (a argc : Int64) : Action Unit := do
  let receiver ← self
  acquire receiver
  let base := (← get).context.base
  setReg (base + a) receiver
  enterWindow (base + a) (argc + 2)
  setReg (base + a + argc + 1) .nil

/-- The receiver `v` is in place behind which the arguments are, and there is no block. -/
structure ReadiesSuper (a argc : Int64) (v : Value) (m m' : Machine) : Prop where
  receives : self m = .ok v m
  alone : m' = { m with regs := m'.regs, regHigh := m'.regHigh, memory := m'.memory }
  receiver : argc ≠ -1 → entryAt? m'.regs (m.context.base + a) = some v
  block : entryAt? m'.regs (m.context.base + a + argc + 1) = some .nil
  others : ∀ j, j ≠ m.context.base + a → j ≠ m.context.base + a + argc + 1 →
    entryAt? m'.regs j = entryAt? m.regs j

theorem callSuper_eq_ready {E : Fault → Machine → Prop} {Q : Progress → Machine → Prop} {a argc : Int64}
    {f : Frame} {k : ClassId} (hcall : m.currentCall? = some f) (hk : f.ownClass = some k)
    (hs : f.methodId = s + 1) :
    Leads E (callSuper a argc) m Q ↔ Leads E (readySuper a argc) m fun _ m₁ =>
      Leads E (match (m₁.classAt k).super with
        | none => do
          let name ← nameOf (s + 1)
          raiseText .noMethodError ("super: no superclass method '" ++ name ++ "'")
          return .same
        | some super => dispatch a (s + 1) argc super) m₁ Q := by
  obtain ⟨base, code, pc, targetClass, ownClass, methodId, nargs, offset, tag, method, depth, freed⟩ := f
  cases hk
  cases hs
  constructor
  all_goals
    intro h
    simp only [callSuper, readySuper, Leads.bind_eq, Leads.get_eq, hcall] at h ⊢
    exact h

theorem readySuper_readies (a argc : Int64) :
    Leads AnyFault (readySuper a argc) m fun _ m' => ∃ v, ReadiesSuper a argc v m m' := by
  simp only [readySuper, Leads.bind_eq, Leads.get_eq]
  refine self_named.mono ?_
  rintro v m₀ ⟨h₀, hself⟩
  obtain rfl := h₀.symm
  refine (acquire_changes v).mono fun _ m₁ h₁ => ?_
  refine (setReg_changes _ v).mono ?_
  rintro _ m₂ ⟨h₂, ⟨old, hold⟩, -, -⟩
  refine (enterWindow_changes _ _).mono fun _ m₃ h₃ => ?_
  refine (setReg_changes _ .nil).mono ?_
  rintro _ m₄ ⟨h₄, ⟨old', hold'⟩, -, -⟩
  have hbase : m₁.context.base = m.context.base := by rw [h₁]
  rw [hbase] at h₂ hold h₄ hold'
  have hregs₁ : m₁.regs = m.regs := by rw [h₁]
  have hregs₂ := congrArg (·.regs) h₂
  have hregs₃ : m₃.regs = m₂.regs := congrArg (·.regs) h₃
  have hregs₄ := congrArg (·.regs) h₄
  refine ⟨v, hself, by rw [h₄, h₃, h₂, h₁], fun hcount => ?_, ?_, fun j hj hj' => ?_⟩
  · rw [hregs₄, entryAt?_set hold', if_neg (behind_ne hcount), hregs₃, hregs₂, entryAt?_set hold, if_pos rfl]
  · rw [hregs₄, entryAt?_set hold', if_pos rfl]
  · rw [hregs₄, entryAt?_set hold', if_neg hj', hregs₃, hregs₂, entryAt?_set hold, if_neg hj, hregs₁]

theorem readySuper_keeps {R : Regime} [R.Lawful] (a argc : Int64) : R.Keeps (readySuper a argc) :=
  Regime.self_fetches.bind fun v hv => (Regime.acquire_keeps v).bind fun _ _ =>
    Regime.Gives.of_get.bind fun _ _ => (Regime.setReg_keeps _ hv).bind fun _ _ =>
      (enterWindow_clerical _ _).keeps.bind fun _ _ => Regime.setReg_keeps _ R.has_none

theorem callSuper_persists (hop : i.op = .callSuper)
    (hprobe : ∀ id p, (m.methodAt id).native? ≠ some (.probe p))
    (hW : ∀ r name, m.Stores i r name → W r name) :
    Leads AnyFault (callSuper i.a i.b) m fun _ m' => Persists W m m' := by
  have hm := Persists.refl (W := W) m
  by_cases hmethod : ∃ f k s, m.currentCall? = some f ∧ f.ownClass = some k ∧ f.methodId = s + 1
  · obtain ⟨f, k, s, hcall, hk, hs⟩ := hmethod
    rw [callSuper_eq_ready hcall hk hs]
    refine ((hm.leads (readySuper_keeps i.a i.b)).and (readySuper_readies i.a i.b)).mono ?_
    rintro _ m₁ ⟨hp₁, v, h₁⟩
    have hclasses : m₁.classes = m.classes := congrArg (·.classes) h₁.alone
    have hmethods : m₁.methods = m.methods := congrArg (·.methods) h₁.alone
    have hsymbols : m₁.symbols = m.symbols := congrArg (·.symbols) h₁.alone
    have hcontext : m₁.context = m.context := congrArg (·.context) h₁.alone
    obtain ⟨hfind, hat⟩ := findMethod?_congr hclasses hmethods
    have hclassAt : m₁.classAt k = m.classAt k := by rw [classAt, classAt, hclasses]
    split
    · simp only [Leads.bind_eq]
      exact (hp₁.leads (nameOf_clerical _).keeps).mono fun _ m₂ hp₂ =>
        hp₂.leads (Regime.raiseText_keeps trivial _)
    · next super hsuper =>
      refine (dispatch_persists i.a i.b (W := W) (fun id => by rw [hat]; exact hprobe id) ?_).mono
        fun _ _ hp₂ => hp₁.trans hp₂
      intro id owner hfound hnative hargc r hr
      rw [hfind] at hfound
      rw [hat] at hnative
      rw [hsymbols]
      rw [hcontext] at hr
      -- The receiver is still in place, since there is an argument before the nil.
      have hcount : i.b ≠ -1 := by
        rintro heq
        rw [heq] at hargc
        exact absurd hargc (by decide)
      cases hr.symm.trans (h₁.receiver hcount)
      exact hW r _ (.super ⟨hop, h₁.receives, hargc, f, k, super, _, id, owner, hcall, hk, hs, rfl,
        hclassAt ▸ hsuper, hfound, hnative⟩)
  · simp only [callSuper, Leads.bind_eq, Leads.get_eq]
    split
    · next hcall => exact absurd ⟨_, _, _, hcall, rfl, rfl⟩ hmethod
    · exact hm.leads ((Regime.raiseText_keeps trivial _).bind fun _ _ => .of_pure trivial)

theorem operand_persists (hop : i.op = .setVariable) (hW : ∀ r name, m.Stores i r name → W r name) :
    Leads AnyFault (step i) m fun _ m' => Persists W m m' := by
  simp only [step, hop, Leads.bind_eq, Leads.get_eq]
  refine self_named.mono ?_
  rintro obj m₀ ⟨h₀, hself⟩
  obtain rfl := h₀.symm
  simp only [variableSymbol, Leads.bind_eq]
  refine (currentCode_leads fun code hcode => (present_leads fun name hname => ?_).forget).forget
  have hslot : m.slot? i.b = some name := by
    rw [slot?, hcode]
    exact hname
  refine (((Persists.refl (W := W) m).leads (intern_clerical _).keeps).and (Leads.named _)).mono ?_
  rintro k m₁ ⟨h₁, hk⟩
  cases hk
  refine (reg_leads fun v _ => ?_).forget
  refine (setVariable_persists (W := W) (SymbolTable.lookup?_intern_self _ (Text.dropLead "@" name))
    ?_ v).mono fun _ m₂ h₂ => h₁.trans h₂
  rintro r rfl
  exact hW r _ (.operand hop hself hslot)

/-- The footprint of an instruction is what it stores. -/
theorem step_persists (hprobe : ∀ id p, (m.methodAt id).native? ≠ some (.probe p))
    (hinverse : (∀ r name, W r name) ∨ m.symbols.Inverse) (hW : ∀ r name, m.Stores i r name → W r name) :
    Leads AnyFault (step i) m fun _ m' => Persists W m m' := by
  by_cases hsend : i.op = .send ∨ i.op = .sendBlock
  · exact send_persists hsend hprobe hinverse hW
  by_cases hsuper : i.op = .callSuper
  · simp only [step, hsuper, Leads.bind_eq, Leads.get_eq]
    exact callSuper_persists hsuper hprobe hW
  by_cases hoperand : i.op = .setVariable
  · exact operand_persists hoperand hW
  have hnot : i.op ∉ Opcode.storing := by simp_all [Opcode.storing]
  refine (Persists.refl m).leads (Regime.step_keeps core_footprint i (fun h => absurd h hnot) ?_)
  exact fun _ name super _ => (defineClass_persists name super).gives fun _ => trivial

/-! ### Ticks and units of code -/

theorem self_of_fetched (h : self m.fetched = .ok v m.fetched) : self m = .ok v m := by
  have hscope : ∀ x, m.fetched.selfScope x = m.selfScope x := fun _ => rfl
  have hwindow := (trail_congr fun x (_ : x ∈ m.selfWindows) => hscope x).2
  exact self_iff.2 ((congrArg (entryAt? m.regs) hwindow).symm.trans (self_iff.1 h))

/-- An instruction stores the same wherever the code goes on. -/
theorem Stores.of_fetched (h : m.fetched.Stores i r name) : m.Stores i r name := by
  cases h with
  | call h hargc =>
    refine .call ⟨?_, h.named, h.answered⟩ hargc
    generalize hv : Value.object r = v
    have hsends := hv ▸ h.sends
    cases hsends with
    | kept hop hreg => exact .kept hop hreg
    | cleared hop hcount => exact .cleared hop hcount
  | super h => exact .super ⟨h.op, self_of_fetched h.receiver, h.argc, h.answered⟩
  | operand hop hself hslot => exact .operand hop (self_of_fetched hself) hslot

/-- The footprint of a part of a tick is what its instruction stores. -/
theorem Advance.persists (h : Advance ph m ph' m') (hm : Steady ph owned m)
    (hinverse : (∀ r name, W r name) ∨ m.symbols.Inverse)
    (hW : ph = .ready → ∀ i, m.control.next? = some i → ∀ r name, m.Stores i r name → W r name) :
    Persists W m m' := by
  have hstep : ph = .ready → Leads AnyFault (fetch >>= step) m fun _ m' => Persists W m m' := by
    intro hready
    rw [Leads.bind_eq]
    refine fetch_leads.mono ?_
    rintro i _ ⟨hi, rfl⟩
    have hfetched : Persists W m m.fetched := .of_same rfl rfl
    refine (step_persists (m := m.fetched) hm.noProbe hinverse fun r name hstores => ?_).mono
      fun _ _ hp => hfetched.trans hp
    exact hW hready i hi r name hstores.of_fetched
  cases h with
  | same h | entered h | finished h => exact (hstep rfl).of_ok h
  | settled h | unwound h => exact .of_ok Regime.concludeStep_keeps h
  | resumed hs h => exact .of_ok (Regime.resumePass_keeps fun _ _ d _ => owes_footprint d) h

theorem Persists.inverse (h : Persists W m m') (hm : m.symbols.Inverse) : m'.symbols.Inverse := by
  obtain ⟨names, hsymbols⟩ := h.names
  rw [hsymbols]
  exact hm.internAll names

theorem retired_persists : Persists W m m.retired := .of_same rfl rfl

theorem create_inverse {c : Config} (h : create c = .ok m) : m.symbols.Inverse := by
  unfold create at h
  split at h
  · next hrun =>
    cases h
    obtain ⟨-, hstage⟩ := (bootstrap_leads c).of_ok hrun
    exact hstage.symbols
  · cases h

/-- No two names have the same number. -/
theorem inverse_invariant : Invariant fun m => m.symbols.Inverse where
  new h := create_inverse h
  enter _ h hI :=
    (Persists.of_ok (W := fun _ _ => True) (Regime.enterUnit_keeps core_footprint _) h).inverse hI
  part hm h hI :=
    (h.persists (W := fun _ _ => True) hm (.inl fun _ _ => trivial) fun _ _ _ _ _ _ => trivial).inverse hI
  retire hI := hI
  leave _ h hI := (Persists.of_ok (W := fun _ _ => True) (Regime.leaveUnit_keeps _) h).inverse hI
  release h hI := (Persists.of_ok (W := fun _ _ => True) (Regime.release_keeps _) h).inverse hI
  clearPending h hI := (Persists.of_ok (W := fun _ _ => True) Regime.clearPending_keeps h).inverse hI

theorem Reachable.inverse (h : Reachable running owned m) : m.symbols.Inverse :=
  inverse_invariant.reachable h

/-- The first part of a tick stores what the instruction says, the others nothing. -/
theorem Course.persists (h : Course (fun ph n _ _ => ph = .ready → n = a) a ph m)
    (ha : Reachable true owned a)
    (hW : ∀ i, a.control.next? = some i → ∀ r name, a.Stores i r name → W r name) :
    Persists W a m := by
  induction h with
  | began => exact .refl a
  | next hcourse hok hadvance ih =>
    refine ih.trans (hadvance.persists (hcourse.steady ha) (.inr (ih.inverse (Reachable.inverse ha))) ?_)
    rintro rfl i hi r name hstores
    obtain rfl := hok rfl
    exact hW i hi r name hstores

theorem tick_persists (ha : Reachable true owned a) (h : tick a = .ok none m)
    (hW : ∀ i, a.control.next? = some i → ∀ r name, a.Stores i r name → W r name) :
    Persists W a m := by
  have hcourse : Course (fun ph n _ _ => ph = .ready → n = a) a .ready m :=
    Course.began.tick (fun _ _ _ _ hfirst => hfirst) ha h
  exact hcourse.persists ha hW

theorem tick_end_persists (ha : Reachable true owned a) (h : tick a = .ok (some v) m)
    (hW : ∀ i, a.control.next? = some i → ∀ r name, a.Stores i r name → W r name) :
    Persists W a m := by
  have hbegan : Course (fun ph n _ _ => ph = .ready → n = a) a .ready a := .began
  obtain ⟨b, hcourse, -, rfl⟩ := hbegan.tick_end (fun _ _ _ _ hfirst => hfirst)
    (Machine.Reachable.steady ha) h
  exact (hcourse.persists ha hW).trans retired_persists

end Machine

/-! ### In the course of time -/

open Machine

/-- The machines that a host comes to from `a`, where it runs a unit of code and owns `held`, if all
instructions in between are executed on machines that `ok` holds of. -/
inductive Since (ok : Machine → Prop) (held : List Value) (a : Machine) : (running : Bool) →
    (owned : List Value) → Machine → Prop
  | here : Since ok held a true held a
  | enter {owned : List Value} {m m' : Machine} (p : Program) (hm : Since ok held a false owned m)
      (haborted : ¬m.aborted) (hpending : m.pending = none) (hvalid : p.defect? = none)
      (h : enterUnit p.root m = .ok () m') : Since ok held a true owned m'
  | tick {owned : List Value} {m m' : Machine} (hm : Since ok held a true owned m) (hok : ok m)
      (h : tick m = .ok none m') : Since ok held a true owned m'
  | leave {owned : List Value} {m m₁ m' : Machine} {v : Value} {r : Except ExecuteError Value}
      (hm : Since ok held a true owned m) (hok : ok m) (ht : Machine.tick m = .ok (some v) m₁)
      (h : leaveUnit v m₁ = .ok r m') : Since ok held a false (resultHand r ++ owned) m'
  | release {owned : List Value} {m m' : Machine} {v : Value} (hm : Since ok held a false owned m)
      (hv : v ∈ owned) (h : release v m = .ok () m') : Since ok held a false (owned.erase v) m'
  | clearPending {owned : List Value} {m m' : Machine} (hm : Since ok held a false owned m)
      (h : clearPending m = .ok () m') : Since ok held a false owned m'

namespace Since

variable {ok : Machine → Prop} {held owned : List Value} {a m : Machine} {running : Bool}
  {W : Ref → Text → Prop}

theorem later (h : Since ok held a running owned m) : Later held a running owned m := by
  induction h with
  | here => exact .here
  | enter p _ haborted hpending hvalid h ih => exact ih.enter p haborted hpending hvalid h
  | tick _ _ h ih => exact ih.tick h
  | leave _ _ ht h ih => exact ih.leave ht h
  | release _ hv h ih => exact ih.release hv h
  | clearPending _ h ih => exact ih.clearPending h

/-- The footprint of a run is what its instructions store. -/
theorem persists (h : Since ok held a running owned m) (ha : Reachable true held a)
    (hW : ∀ b, ok b → ∀ i, b.control.next? = some i → ∀ r name, b.Stores i r name → W r name) :
    Persists W a m := by
  induction h with
  | here => exact .refl a
  | enter p _ _ _ _ h ih => exact ih.trans (.of_ok (Regime.enterUnit_keeps core_footprint _) h)
  | tick hm hok h ih => exact ih.trans (tick_persists (hm.later.reachable ha) h (hW _ hok))
  | leave hm hok ht h ih =>
    have htick := tick_end_persists (hm.later.reachable ha) ht (hW _ hok)
    exact ih.trans (htick.trans (.of_ok (Regime.leaveUnit_keeps _) h))
  | release _ _ h ih => exact ih.trans (.of_ok (Regime.release_keeps _) h)
  | clearPending _ h ih => exact ih.trans (.of_ok Regime.clearPending_keeps h)

end Since

end ObjectMachine
