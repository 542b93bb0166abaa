import ObjectMachine.Proofs.Fitting
import ObjectMachine.Proofs.Units

/-! Regimes. A regime says what holds of machines between actions, and which classes they may name.
Actions keep to a regime if their parts do, so it is enough to know of the few that all the others
are made of. These change memory, symbols and methods; other changes are mild. What is shown here
holds for every regime that the few keep to. -/

namespace ObjectMachine

namespace Machine

/-- What actions are held to. -/
structure Regime where
  /-- What holds between actions. -/
  Holds : Machine → Prop
  /-- What is left where a fault was met. -/
  Halts : Machine → Prop
  /-- The classes that may be named. -/
  Knows : ClassId → Prop

/-- A change of a machine that leaves symbols, objects and classes alone, and makes no method. Frames may
be pushed, and may be marked as freed, but none is taken off the chain. -/
structure Mild (m m' : Machine) : Prop where
  symbols : m'.symbols = m.symbols
  heap : m'.memory.heap = m.memory.heap
  classes : m'.classes = m.classes
  methods : m'.methods.size = m.methods.size
  distinct : (m.constants.map (·.1)).Nodup → (m'.constants.map (·.1)).Nodup
  size : m.frames.size ≤ m'.frames.size
  freed : ∀ f < m.frames.size, (m.frameAt f).freed → (m'.frameAt f).freed
  chain : m.chain <:+ m'.chain

/-- The parts of a machine that most changes leave alone. -/
def solid (m : Machine) :=
  (m.symbols, m.memory.heap, m.classes, m.methods.size, m.constants, m.frames, m.chain)

theorem Mild.of_solid {m m' : Machine} (h : m'.solid = m.solid) : Mild m m' := by
  simp only [solid, Prod.mk.injEq] at h
  obtain ⟨hsymbols, hheap, hclasses, hmethods, hconstants, hframes, hchain⟩ := h
  refine ⟨hsymbols, hheap, hclasses, hmethods, fun h => hconstants ▸ h, Nat.le_of_eq (by rw [hframes]),
    fun f _ hf => ?_, hchain ▸ List.suffix_refl _⟩
  rwa [frameAt, hframes]

theorem Mild.refl (m : Machine) : Mild m m := .of_solid rfl

namespace Regime

section Statements

variable (R : Regime)

def Has (c : Option ClassId) : Prop := ∀ k, c = some k → R.Knows k

theorem has_none : R.Has none := nofun

/-- The classes that new machines have are known. -/
def Core : Prop := ∀ c < 16, R.Knows c

def Fills : Body → Prop
  | .object c t => R.Knows c ∧ ∀ v ∈ t.values, R.Has v.cls?
  | _ => True

/-- A duty names known classes only. -/
def Owes : Duty → Prop
  | .construct context made _ => R.Has context.targetClass ∧ R.Has made.cls?
  | _ => True

/-- So does what a native that did not end waits for. -/
def Awaits : Outcome → Prop
  | .construct made => R.Has made.cls?
  | _ => True

/-- And so do the duties of an inner call. -/
def Defers : Progress ⊕ InnerCall → Prop
  | .inr call => ∀ d ∈ call.duties, R.Owes d
  | _ => True

/-- All classes that a machine names are known. -/
structure Names (m : Machine) : Prop where
  regs : ∀ v ∈ m.regs, R.Has v.cls?
  constants : ∀ x ∈ m.constants, R.Has x.2.cls?
  heap : ∀ o ∈ m.memory.heap, R.Fills o.body
  topSelf : R.Has m.topSelf.cls?
  exception : R.Has m.exception
  excMessage : R.Has m.excMessage.cls?
  pending : R.Has m.pending
  pendingMessage : R.Has m.pendingMessage.cls?
  target : R.Has m.context.targetClass
  frames : ∀ k ∈ m.frames, R.Has k.targetClass
  duties : ∀ d ∈ m.duties, R.Owes d

/-- An action that keeps to the regime, faults or not, and gives what `Q` says. -/
def Gives {α : Type} (Q : α → Prop) (x : Action α) : Prop :=
  ∀ m, R.Holds m → Leads (fun _ m' => R.Halts m') x m fun a m' => R.Holds m' ∧ Q a

abbrev Keeps {α : Type} (x : Action α) : Prop := R.Gives (fun _ => True) x

/-- An action that gives a value of a known class. -/
abbrev Fetches (x : Action Value) : Prop := R.Gives (fun v => R.Has v.cls?) x

/-- The actions that all others are made of keep to the regime. -/
class Lawful : Prop where
  halts {m : Machine} : R.Holds m → R.Halts m
  names {m : Machine} : R.Holds m → R.Names m
  mild {m m' : Machine} : R.Holds m → Mild m m' → R.Names m' → R.Holds m'
  interned {m : Machine} (names : List Text) : R.Holds m →
    R.Holds { m with symbols := (m.symbols.internAll names).1 }
  release_keeps (v : Value) : R.Keeps (release v)
  acquire_keeps (v : Value) : R.Keeps (acquire v)
  allocate?_keeps (size : Int64) (body : Body) : R.Fills body → R.Keeps (allocate? size body)
  addMethod_keeps (c : ClassId) (k : Method) : R.Keeps (addMethod c k)
  unlink_keeps (c : ClassId) (id : MethodId) :
    R.Keeps (modifyClass c fun k => { k with methods := k.methods.erase id })

/-- So do three more, as wholes. Copies are made and filled, and frames are taken off the chain and
freed, which their parts alone may not do. -/
class Complete : Prop extends R.Lawful where
  dupInstance_fetches (obj : Value) : R.Fetches (dupInstance obj)
  popFrame_keeps : R.Keeps popFrame
  resumeTop_keeps {m : Machine} {f : FrameId} : R.Holds m → m.chain.head? = some f →
    Leads (fun _ m' => R.Halts m') (resumeAt f) { m with chain := m.chain.tail } fun _ m' => R.Holds m'

end Statements

export Lawful (release_keeps acquire_keeps allocate?_keeps addMethod_keeps unlink_keeps)
export Complete (dupInstance_fetches popFrame_keeps)

end Regime

/-! ### Clerical work -/

variable {R : Regime} [R.Lawful] {m m' : Machine}

theorem Amends.holds (hamends : Amends (fun _ => True) m m') (h : R.Holds m) : R.Holds m' := by
  have hmild : Mild m m' → R.Names m' → R.Holds m' := Regime.Lawful.mild h
  have hnames : R.Names m := Regime.Lawful.names h
  cases hamends with
  | pool pool => exact hmild (.of_solid rfl) { hnames with }
  | name t => exact Regime.Lawful.interned [t] h
  | @define c method _ => exact (Regime.addMethod_keeps c method m h).1
  | unlink c id => exact (Regime.unlink_keeps c id m h).1
  | count id d => exact hmild { Mild.refl m with methods := Array.size_modify } { hnames with }
  | report profile console => exact hmild (.of_solid rfl) { hnames with }
  | mark _ _ => exact hmild (.of_solid rfl) { hnames with }

theorem Clerical.keeps {α : Type} {x : Action α} (hx : Clerical (fun _ => True) x) : R.Keeps x := by
  have hkeeps : ∀ {n n' : Machine}, R.Holds n → Amended (fun _ => True) n n' → R.Holds n' :=
    fun hn h => h.keeps (fun _ _ hamends => hamends.holds) hn
  exact fun m hm => (hx.amends m).imp (fun _ _ h => Regime.Lawful.halts (hkeeps hm h.2)) fun _ _ h =>
    ⟨hkeeps hm h, trivial⟩

namespace Regime

variable {R : Regime} {m : Machine} {c : ClassId} {v : Value} {w : Window}

theorem has_some (h : R.Knows c) : R.Has (some c) := by
  rintro k ⟨⟩
  exact h

/-! ### What a machine names -/

theorem Owes.of_knows (h : ∀ c, R.Knows c) (d : Duty) : R.Owes d := by
  cases d with
  | construct context made w => exact ⟨fun c _ => h c, fun c _ => h c⟩
  | _ => trivial

namespace Names

/-- Where all classes are known, nothing is asked of a machine. -/
theorem of_knows (h : ∀ c, R.Knows c) : R.Names m where
  regs _ _ c _ := h c
  constants _ _ c _ := h c
  heap o _ := by
    cases o.body with
    | object c t => exact ⟨h c, fun _ _ k _ => h k⟩
    | _ => trivial
  topSelf c _ := h c
  exception c _ := h c
  excMessage c _ := h c
  pending c _ := h c
  pendingMessage c _ := h c
  target c _ := h c
  frames _ _ c _ := h c
  duties d _ := .of_knows h d

theorem constant? (h : R.Names m) {s : Symbol} (hv : m.constant? s = some v) : R.Has v.cls? := by
  obtain ⟨a, b, heq, -⟩ := List.lookup_eq_some_iff.1 hv
  exact h.constants (s, v) (by simp [heq])

theorem instance? (h : R.Names m) {r : Ref} {t : VariableTable}
    (hv : m.instance? v = some (r, c, t)) : R.Knows c ∧ ∀ x ∈ t.values, R.Has x.cls? := by
  unfold Machine.instance? at hv
  split at hv
  · split at hv
    · next ho =>
      cases hv
      exact h.heap _ (Array.mem_of_getElem? ho)
    · cases hv
  · cases hv

/-- A value is of a known class, when the classes that new machines have are known. -/
theorem classOf (h : R.Names m) (hcore : R.Core) (hv : R.Has v.cls?) : R.Knows (m.classOf v) := by
  cases v with
  | bool b =>
    cases b
    · exact hcore ClassId.false (by decide)
    · exact hcore ClassId.true (by decide)
  | cls c => exact hv c rfl
  | object r =>
    simp only [Machine.classOf]
    split
    · next ho => exact (h.heap _ (Array.mem_of_getElem? ho) : R.Fills (.object _ _)).1
    · exact hcore ClassId.object (by decide)
  | _ =>
    simp only [Machine.classOf]
    exact hcore _ (by decide)

theorem frameAt (h : R.Names m) (f : FrameId) : R.Has (m.frameAt f).targetClass := by
  simp only [Machine.frameAt, Array.getD_eq_getD_getElem?]
  cases hf : m.frames[f]? with
  | none => exact R.has_none
  | some k => exact h.frames k (Array.mem_of_getElem? hf)

end Names

/-! ### Actions -/

namespace Gives

variable {α β : Type} {Q : α → Prop} {S : β → Prop} {x : Action α} {f : α → Action β}

theorem of_pure {a : α} (h : Q a) : R.Gives Q (pure a) := fun _ hm => ⟨hm, h⟩

theorem bind (hx : R.Gives Q x) (hf : ∀ a, Q a → R.Gives S (f a)) : R.Gives S (x >>= f) := by
  intro m hm
  rw [Leads.bind_eq]
  exact (hx m hm).mono fun a m₁ h₁ => hf a h₁.2 m₁ h₁.1

theorem forget (hx : R.Gives Q x) : R.Keeps x := fun m hm => (hx m hm).mono fun _ _ h => ⟨h.1, trivial⟩

theorem of_discard (hx : R.Gives Q x) : R.Keeps (discard x) := by
  intro m hm
  rw [Leads.discard_eq]
  exact (hx m hm).mono fun _ _ h => ⟨h.1, trivial⟩

variable [R.Lawful]

theorem of_get : R.Gives R.Names get := fun _ hm => ⟨hm, Lawful.names hm⟩

theorem of_throw (e : Fault) : R.Gives Q (throw e) := fun _ hm => Lawful.halts hm

theorem of_mild {change : Machine → Machine} (hnames : ∀ m, R.Names m → R.Names (change m))
    (hmild : ∀ m, Mild m (change m)) : R.Keeps (modify change) :=
  fun m hm => ⟨Lawful.mild hm (hmild m) (hnames m (Lawful.names hm)), trivial⟩

theorem of_modify {change : Machine → Machine} (hnames : ∀ m, R.Names m → R.Names (change m))
    (h : ∀ m, (change m).solid = m.solid) : R.Keeps (modify change) :=
  of_mild hnames fun m => .of_solid (h m)

/-- Contexts that run in the same class. -/
theorem of_modifyContext {change : Context → Context}
    (h : ∀ k, R.Has k.targetClass → R.Has (change k).targetClass) : R.Keeps (modifyContext change) :=
  of_modify (fun _ hn => { hn with target := h _ hn.target }) fun _ => rfl

theorem of_modifyFrame (f : FrameId) {change : Frame → Frame}
    (htarget : ∀ k, (change k).targetClass = k.targetClass)
    (hfreed : ∀ k, k.freed → (change k).freed) : R.Keeps (modifyFrame f change) := by
  refine of_mild (fun m hn => { hn with frames := fun k hk => ?_ }) fun m =>
    { Mild.refl m with size := Nat.le_of_eq Array.size_modify.symm, freed := fun j _ hj => ?_ }
  · obtain ⟨i, hi, rfl⟩ := Array.mem_iff_getElem.1 hk
    rw [Array.getElem_modify]
    split
    · rw [htarget]
      exact hn.frames _ (Array.getElem_mem _)
    · exact hn.frames _ (Array.getElem_mem _)
  · rw [frameAt_modify]
    split
    · exact hfreed _ hj
    · exact hj

theorem of_modifyMethod (id : MethodId) (change : Method → Method) :
    R.Keeps (modifyMethod id change) :=
  of_mild (fun _ hn => { hn with }) fun m => { Mild.refl m with methods := Array.size_modify }

end Gives

/-! ### Mild changes -/

theorem nodup_rebind {s : Symbol} {cs : List (Symbol × Value)} (h : (cs.map (·.1)).Nodup) :
    ((rebind s v cs).map (·.1)).Nodup := by
  induction cs with
  | nil => exact List.nodup_singleton s
  | cons x cs ih =>
    obtain ⟨hx, hcs⟩ := List.nodup_cons.1 h
    rw [rebind]
    split
    · exact h
    · next hne =>
      refine List.nodup_cons.2 ⟨fun hmem => ?_, ih hcs⟩
      obtain ⟨y, hy, heq⟩ := List.mem_map.1 hmem
      rcases mem_rebind hy with rfl | hy
      · exact hne heq.symm
      · exact hx (List.mem_map.2 ⟨y, hy, heq⟩)

theorem freed_push {m' : Machine} {k : Frame} (hframes : m'.frames = m.frames.push k) :
    ∀ f < m.frames.size, (m.frameAt f).freed → (m'.frameAt f).freed := by
  intro f hf hfreed
  simp only [Machine.frameAt, hframes, Array.getD_eq_getD_getElem?, Array.getElem?_push,
    if_neg (Nat.ne_of_lt hf)] at hfreed ⊢
  exact hfreed

section Lawful

variable [R.Lawful]

/-! ### Memory and names -/

theorem present_gives {α : Type} {Q : α → Prop} {o : Option α} (h : ∀ a, o = some a → Q a) :
    R.Gives Q (present o) := by
  cases o with
  | none => exact .of_throw _
  | some a => exact .of_pure (h a rfl)

theorem present_keeps {α : Type} (o : Option α) : R.Keeps (present o) := present_gives fun _ _ => trivial

/-! ### Registers -/

theorem reg_fetches (i : Int64) : R.Fetches (reg i) :=
  Gives.of_get.bind fun _ hn => present_gives fun _ hv => hn.regs _ (mem_of_entryAt? hv)

theorem exchangeReg_fetches (i : Int64) (hv : R.Has v.cls?) : R.Fetches (exchangeReg i v) := by
  refine (reg_fetches i).bind fun old hold =>
    Gives.bind (.of_modify (fun m hn => ?_) fun _ => rfl) fun _ _ => .of_pure hold
  refine { hn with regs := fun x hx => ?_ }
  rcases Array.mem_or_eq_of_mem_setIfInBounds hx with hx | rfl
  · exact hn.regs x hx
  · exact hv

theorem setReg_keeps (i : Int64) (hv : R.Has v.cls?) : R.Keeps (setReg i v) :=
  (exchangeReg_fetches i hv).bind fun old _ => release_keeps old

theorem clearRegs_keeps (start : Int64) (count : Nat) : R.Keeps (clearRegs start count) := by
  induction count generalizing start with
  | zero => exact .of_pure trivial
  | succ count ih => exact (setReg_keeps start R.has_none).bind fun _ _ => ih (start + 1)

theorem scrub_keeps (start : Int64) (count : Nat) : R.Keeps (scrub start count) := by
  induction count generalizing start with
  | zero => exact .of_pure trivial
  | succ count ih =>
    refine (reg_fetches start).bind fun v _ => ?_
    split
    · exact (setReg_keeps start R.has_none).bind fun _ _ => ih (start + 1)
    · exact ih (start + 1)

theorem scrubAbove_keeps (top : Int64) : R.Keeps (scrubAbove top) := by
  refine Gives.of_get.bind fun m _ => (scrub_keeps _ _).bind fun _ _ => ?_
  split
  · exact .of_modify (fun _ hn => { hn with }) fun _ => rfl
  · exact .of_pure trivial

theorem currentCode_keeps : R.Keeps currentCode := Gives.of_get.bind fun _ _ => present_keeps _

theorem currentSize_keeps : R.Keeps currentSize :=
  currentCode_keeps.bind fun _ _ => .of_pure trivial

/-! ### Constants and methods -/

theorem setConstant_keeps (s : Symbol) (hv : R.Has v.cls?) : R.Keeps (setConstant s v) := by
  have hbind : R.Keeps (modify fun m => { m with constants := rebind s v m.constants } : Action Unit) := by
    refine .of_mild (fun m hn => { hn with constants := fun x hx => ?_ }) fun m =>
      { Mild.refl m with distinct := nodup_rebind }
    rcases mem_rebind hx with rfl | hx
    · exact hv
    · exact hn.constants x hx
  refine (acquire_keeps v).bind fun _ _ => Gives.of_get.bind fun m _ => ?_
  split
  · exact (release_keeps _).bind fun _ _ => hbind
  · exact hbind

theorem getConstant_fetches (s : Symbol) : R.Fetches (getConstant s) := by
  refine Gives.of_get.bind fun m hn => ?_
  split
  · next hv => exact (acquire_keeps _).bind fun _ _ => .of_pure (hn.constant? hv)
  · exact .of_pure R.has_none

/-! ### Objects and scopes -/

theorem newString_fetches (t : Text) : R.Fetches (newString t) := by
  refine (allocate?_keeps _ (.string t) trivial).bind fun r _ => ?_
  cases r <;> exact .of_pure R.has_none

theorem newInstance_fetches (hc : R.Knows c) : R.Fetches (newInstance c) := by
  refine (allocate?_keeps _ (.object c {}) ⟨hc, nofun⟩).bind fun r _ => ?_
  cases r <;> exact .of_pure R.has_none

theorem getVariable_fetches (obj : Value) (s : Symbol) : R.Fetches (getVariable obj s) := by
  refine Gives.of_get.bind fun m hn => ?_
  split
  · exact .of_pure R.has_none
  · next hobj =>
    refine (mustBeLive_clerical obj).keeps.bind fun _ _ => ?_
    split
    · exact .of_pure R.has_none
    · next hget =>
      obtain ⟨a, b, heq, -⟩ := List.lookup_eq_some_iff.1 hget
      refine (acquire_keeps _).bind fun _ _ => .of_pure ((hn.instance? hobj).2 _ ?_)
      simp [VariableTable.values, heq]

theorem acquireAll_keeps (vs : List Value) : R.Keeps (acquireAll vs) := by
  induction vs with
  | nil => exact .of_pure trivial
  | cons v vs ih => exact (acquire_keeps v).bind fun _ _ => ih

theorem newProc_fetches (code : Code) : R.Fetches (newProc code) := by
  refine Gives.of_get.bind fun m _ => (reg_fetches _).bind fun v _ => ?_
  refine (allocate?_keeps _ (.proc code _ _) trivial).bind fun r _ => ?_
  cases r <;> exact .of_pure R.has_none

theorem followSelf_fetches (hops : Nat) (hv : R.Has v.cls?) : R.Fetches (followSelf hops v) := by
  induction hops generalizing v with
  | zero =>
    rw [followSelf]
    refine Gives.of_get.bind fun m _ => ?_
    split
    · exact .of_pure hv
    · exact reg_fetches 0
  | succ hops ih =>
    rw [followSelf]
    refine Gives.of_get.bind fun m _ => ?_
    split
    · exact .of_pure hv
    · exact Gives.of_get.bind fun m _ => (reg_fetches _).bind fun _ hw => ih hw

theorem self_fetches : R.Fetches self :=
  Gives.of_get.bind fun _ _ => (reg_fetches _).bind fun _ hv => followSelf_fetches _ hv

theorem scopeOf_keeps (level : Nat) (v : Value) : R.Keeps (scopeOf level v) := by
  induction level generalizing v with
  | zero =>
    rw [scopeOf]
    refine Gives.of_get.bind fun m _ => ?_
    split
    · exact .of_pure trivial
    · split <;> exact .of_pure trivial
  | succ level ih =>
    rw [scopeOf]
    refine Gives.of_get.bind fun m _ => ?_
    split
    · exact .of_pure trivial
    · split
      · exact .of_pure trivial
      · exact (reg_fetches _).bind fun w _ => ih w

theorem outerBase_keeps (level : Int64) : R.Keeps (outerBase level) :=
  Gives.of_get.bind fun _ _ => (reg_fetches _).bind fun v _ => scopeOf_keeps _ v

theorem blockGiven_keeps : R.Keeps blockGiven := by
  have hanswer : ∀ i, R.Keeps (do return (← reg i).isProc : Action Bool) := fun i =>
    (reg_fetches i).bind fun _ _ => .of_pure trivial
  refine Gives.of_get.bind fun m _ => ?_
  split
  · exact .of_pure trivial
  · dsimp only
    split
    · exact .of_pure trivial
    · refine (reg_fetches _).bind fun v _ => ?_
      split
      · exact hanswer _
      · exact .of_pure trivial
      · split
        · exact .of_pure trivial
        · exact hanswer _

/-! ### Frames -/

theorem pushFrame_keeps (name : Symbol) (offset nargs : Int64) :
    R.Keeps (pushFrame name offset nargs) := by
  refine Gives.of_get.bind fun m hn => ?_
  dsimp only
  split
  · exact .of_throw _
  · refine (charge_clerical _).keeps.bind fun granted _ => ?_
    split
    · exact .of_throw _
    · refine Gives.bind (.of_mild (fun m' hn' => { hn' with frames := fun k hk => ?_ }) fun m' =>
        { Mild.refl m' with size := ?_, freed := freed_push rfl, chain := List.suffix_cons _ _ })
          fun _ _ => .of_pure trivial
      · rcases Array.mem_push.1 hk with hk | rfl
        · exact hn'.frames k hk
        · exact hn'.target
      · rw [Array.size_push]
        exact Nat.le_succ _

theorem pushMarker_keeps (tag : FrameTag) (pc : Int64) : R.Keeps (pushMarker tag pc) := by
  refine (charge_clerical _).keeps.bind fun granted _ => ?_
  split
  · exact .of_throw _
  · refine .of_mild (fun m hn => { hn with frames := fun k hk => ?_ }) fun m =>
      { Mild.refl m with size := ?_, freed := freed_push rfl }
    · rcases Array.mem_push.1 hk with hk | rfl
      · exact hn.frames k hk
      · exact hn.target
    · rw [Array.size_push]
      exact Nat.le_succ _

theorem freeFrame_keeps (f : FrameId) : R.Keeps (freeFrame f) := by
  have hend : R.Keeps (do
      modifyFrame f fun k => { k with freed := true }
      refund frameBytes : Action Unit) :=
    Gives.bind (.of_modifyFrame f (fun _ => rfl) fun _ _ => rfl) fun _ _ => (refund_clerical _).keeps
  refine Gives.of_get.bind fun m _ => ?_
  split
  · exact (releaseMethod_clerical _).keeps.bind fun _ _ =>
      Gives.bind (.of_modifyFrame f (fun _ => rfl) fun _ h => h) fun _ _ => hend
  · exact hend

theorem dropMarkers_keeps (fs : List FrameId) : R.Keeps (dropMarkers fs) := by
  induction fs with
  | nil => exact .of_pure trivial
  | cons f fs ih =>
    exact Gives.bind (.of_modifyContext fun _ h => h) fun _ _ => (freeFrame_keeps f).bind fun _ _ => ih

theorem popMarkers_keeps (n : Int64) : R.Keeps (popMarkers n) :=
  Gives.of_get.bind fun _ _ => dropMarkers_keeps _

theorem dropAllMarkers_keeps : R.Keeps dropAllMarkers :=
  Gives.of_get.bind fun _ _ => dropMarkers_keeps _

theorem dropFrameMarkers_keeps (f : FrameId) : R.Keeps (dropFrameMarkers f) :=
  Gives.of_get.bind fun _ _ => dropMarkers_keeps _

/-! ### Unwinding, where frames may be popped -/

section Pop

variable (hpop : R.Keeps popFrame)

include hpop

theorem popUntil_keeps (target : Option FrameId) (fs : List FrameId) :
    R.Keeps (popUntil target fs) := by
  induction fs with
  | nil =>
    rw [popUntil]
    split
    · exact .of_pure trivial
    · exact .of_throw _
  | cons f rest ih =>
    rw [popUntil]
    split
    · exact .of_pure trivial
    · exact hpop.bind fun _ _ => ih

theorem unwindTo_keeps (target : Option FrameId) : R.Keeps (unwindTo target) :=
  Gives.of_get.bind fun _ _ => popUntil_keeps hpop target _

omit hpop in
theorem spliceNext_keeps : R.Keeps spliceNext := by
  refine .of_mild (fun m hn => ?_) fun m => ?_
  · split <;> exact { hn with }
  · split
    · exact { Mild.refl m with chain := List.suffix_cons _ _ }
    · exact .of_solid rfl

theorem resumeAt_keeps (f : FrameId) : R.Keeps (resumeAt f) := by
  have hend : R.Keeps (do
      if (← get).exception.isNone then throw .outOfBounds
      freeFrame f
      modify fun m => { m with jumped := true } : Action Unit) := by
    refine Gives.of_get.bind fun m _ => ?_
    split
    · exact .of_throw _
    · exact (freeFrame_keeps f).bind fun _ _ => .of_modify (fun _ hn => { hn with }) fun _ => rfl
  refine Gives.of_get.bind fun m hn => (unwindTo_keeps hpop _).bind fun _ _ =>
    Gives.bind (.of_modifyContext fun _ _ => hn.frameAt f) fun _ _ => ?_
  split
  · exact Gives.bind (.of_modifyContext fun _ h => h) fun _ _ => hend
  · exact Gives.bind (.of_modifyContext fun _ h => h) fun _ _ => spliceNext_keeps.bind fun _ _ => hend

end Pop

/-- A regime that says nothing of the chain is complete if instances may be copied. -/
theorem Complete.of_chain (hchain : ∀ m chain, R.Holds m → R.Holds { m with chain })
    (hcopy : ∀ obj, R.Fetches (dupInstance obj)) : R.Complete := by
  have hpop : R.Keeps popFrame := by
    refine Gives.of_get.bind fun m _ => ?_
    split
    · exact .of_throw _
    · next f rest _ =>
      refine Gives.of_get.bind fun m hn => ?_
      have hleave : R.Keeps (modify fun n => { n with
          chain := rest
          context := { n.context with
            base := (m.frameAt f).base, code := (m.frameAt f).code, pc := (m.frameAt f).pc,
            targetClass := (m.frameAt f).targetClass } } : Action Unit) := by
        intro n hk
        have hchained := hchain n rest hk
        have hnames := Lawful.names hchained
        exact ⟨Lawful.mild hchained (.of_solid rfl) { hnames with target := hn.frameAt f }, trivial⟩
      have hdepth : R.Keeps (modify fun n => { n with depth := n.depth - 1 } : Action Unit) :=
        .of_modify (fun _ hn => { hn with }) fun _ => rfl
      dsimp only
      split
      · exact (dropFrameMarkers_keeps f).bind fun _ _ => hleave.bind fun _ _ =>
          (freeFrame_keeps f).bind fun _ _ => hdepth
      · exact hleave.bind fun _ _ => (freeFrame_keeps f).bind fun _ _ => .of_pure trivial
  exact {
    dupInstance_fetches := hcopy
    popFrame_keeps := hpop
    resumeTop_keeps := fun {m f} hm _ =>
      (resumeAt_keeps hpop f _ (hchain m m.chain.tail hm)).mono fun _ _ h => h.1 }

end Lawful

end Regime

end Machine

end ObjectMachine
