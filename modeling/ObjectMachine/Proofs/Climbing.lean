import ObjectMachine.Proofs.Accessors
import ObjectMachine.Proofs.Ancestry
import ObjectMachine.Proofs.Crashes

/-! Calls of the method above. A method that calls its superclass goes on in the nearest definition
of its name above the class it was found on, and the new activation is found on that class. So
such calls climb: each starts above the one before, and a chain of them ends at the root. -/

namespace ObjectMachine

namespace Machine

variable {m m₁ m' : Machine} {c k owner : ClassId} {s : Symbol} {id : MethodId} {code : Code}
  {a argc : Int64} {v : Value} {n : Nat}

/-! ### Classes above a class -/

def rank (m : Machine) (c : ClassId) : Nat := (m.superclasses c).length

theorem superclasses_of_none (h : (m.classAt c).super = none) : m.superclasses c = [] := by
  rw [superclasses, lineage, ← classAt_super, h]
  rfl

theorem superclasses_of_some (h : m.Older) (hc : (m.classAt c).super = some k) :
    m.superclasses c = lineage m.classes k := by
  rw [superclasses, lineage, ← classAt_super, hc]
  dsimp only
  rw [if_pos (h c k hc), List.tail_cons]

theorem lineage_eq_cons (m : Machine) (c : ClassId) : lineage m.classes c = c :: m.superclasses c := by
  rw [superclasses, lineage]
  split
  · split <;> rfl
  · rfl

/-- The superclasses of a class are its ancestors, itself apart. -/
theorem mem_superclasses (h : m.Older) : k ∈ m.superclasses c ↔ ∃ n, m.ancestor? (n + 1) c = some k := by
  rw [List.mem_iff_getElem?]
  refine exists_congr fun n => ?_
  rw [← lineage_getElem? h, lineage_eq_cons, List.getElem?_cons_succ]

/-- A superclass is closer to the root, and so are its superclasses. -/
theorem superclasses_of_mem (h : m.Older) (hk : k ∈ m.superclasses c) :
    m.rank k < m.rank c ∧ m.superclasses k ⊆ m.superclasses c := by
  induction c using Nat.strong_induction_on with
  | _ c ih =>
    cases hp : (m.classAt c).super with
    | none =>
      rw [superclasses_of_none hp] at hk
      cases hk
    | some p =>
      have hc : m.superclasses c = p :: m.superclasses p := by
        rw [superclasses_of_some h hp, lineage_eq_cons]
      have hrank : m.rank c = m.rank p + 1 := congrArg List.length hc
      rw [hc] at hk ⊢
      rcases List.mem_cons.1 hk with rfl | hk
      · exact ⟨hrank ▸ Nat.lt_succ_self _, List.subset_cons_self _ _⟩
      · obtain ⟨hlt, hsub⟩ := ih p (h c p hp) hk
        exact ⟨hrank ▸ Nat.lt_succ_of_lt hlt, fun x hx => List.mem_cons_of_mem _ (hsub hx)⟩

/-- The superclasses of a class stay what they are when classes are added. -/
theorem superclasses_of_extends (h : m.classGraph.Extends m'.classGraph) (hm : m.Older) (hm' : m'.Older)
    (hc : c < m.classes.size) : m'.superclasses c = m.superclasses c := by
  induction c using Nat.strong_induction_on with
  | _ c ih =>
    have hsuper : (m'.classAt c).super = (m.classAt c).super := h.super c hc
    cases hp : (m.classAt c).super with
    | none => rw [superclasses_of_none hp, superclasses_of_none (hsuper.trans hp)]
    | some p =>
      have hlt := hm c p hp
      rw [superclasses_of_some hm hp, superclasses_of_some hm' (hsuper.trans hp), lineage_eq_cons,
        lineage_eq_cons, ih p hlt (Nat.lt_trans hlt hc)]

/-- A class stays above another one, and both stay as far from the root. -/
theorem superclass_of_extends (h : m.classGraph.Extends m'.classGraph) (hm : WellRooted m)
    (hm' : WellRooted m') (hk : k ∈ m.superclasses c) :
    k ∈ m'.superclasses c ∧ m'.rank k < m'.rank c := by
  have hc : c < m.classes.size := by
    refine Nat.lt_of_not_le fun hle => ?_
    rw [superclasses_of_none (hm.tree.outside c hle)] at hk
    cases hk
  have hmem : k ∈ m'.superclasses c := by rwa [superclasses_of_extends h hm.older hm'.older hc]
  exact ⟨hmem, (superclasses_of_mem hm'.older hmem).1⟩

/-! ### Definitions above a class -/

def HasMethod (m : Machine) (c : ClassId) (s : Symbol) : Prop :=
  ∃ id ∈ (m.classAt c).methods, (m.methodAt id).symbol = s

/-- The most recent method of a name on a class. Methods are numbered as they are defined. -/
structure Newest (m : Machine) (c : ClassId) (s : Symbol) (id : MethodId) : Prop where
  listed : id ∈ (m.classAt c).methods
  named : (m.methodAt id).symbol = s
  newest : ∀ j ∈ (m.classAt c).methods, (m.methodAt j).symbol = s → j ≤ id

/-- The most recent definition of a name on the nearest class above `c` that has one. -/
structure Inherits (m : Machine) (c : ClassId) (s : Symbol) (id : MethodId) (owner : ClassId) : Prop where
  nearest : ∃ n, m.ancestor? (n + 1) c = some owner ∧
    ∀ i < n, ∀ p, m.ancestor? (i + 1) c = some p → ¬m.HasMethod p s
  newest : m.Newest owner s id

theorem ownMethod?_eq_none : m.ownMethod? c s = none ↔ ¬m.HasMethod c s := by
  simp only [ownMethod?, List.find?_eq_none, beq_iff_eq, HasMethod, not_exists, not_and]

theorem ownMethod?_eq_some (h : (m.classAt c).methods.Pairwise (· > ·)) :
    m.ownMethod? c s = some id ↔ m.Newest c s id := by
  rw [ownMethod?, List.find?_eq_some_iff_append]
  simp only [beq_iff_eq, Bool.not_eq_true', beq_eq_false_iff_ne]
  constructor
  · rintro ⟨hnamed, newer, older, heq, hnewer⟩
    rw [heq] at h
    refine ⟨by simp [heq], hnamed, fun j hj hjs => ?_⟩
    rw [heq] at hj
    rcases List.mem_append.1 hj with hj | hj
    · exact absurd hjs (hnewer j hj)
    · rcases List.mem_cons.1 hj with rfl | hj
      · exact Nat.le_refl _
      · exact Nat.le_of_lt ((List.pairwise_cons.1 (List.pairwise_append.1 h).2.1).1 j hj)
  · rintro ⟨hlisted, hnamed, hnewest⟩
    obtain ⟨newer, older, heq⟩ := List.append_of_mem hlisted
    refine ⟨hnamed, newer, older, heq, fun j hj hjs => ?_⟩
    rw [heq] at h
    have hlt : id < j := (List.pairwise_append.1 h).2.2 j hj id List.mem_cons_self
    have hle := hnewest j (heq ▸ List.mem_append_left _ hj) hjs
    exact absurd hlt (Nat.not_lt.2 hle)

def superMethod? (m : Machine) (c : ClassId) (s : Symbol) : Option (MethodId × ClassId) :=
  (m.classAt c).super.bind (m.findMethod? · s)

theorem superMethod?_eq (h : m.Older) (c : ClassId) (s : Symbol) :
    m.superMethod? c s = (m.superclasses c).findSome? fun k => (m.ownMethod? k s).map (·, k) := by
  rw [superMethod?]
  cases hp : (m.classAt c).super with
  | none =>
    rw [superclasses_of_none hp]
    rfl
  | some p =>
    rw [superclasses_of_some h hp]
    rfl

theorem superMethod?_eq_some (h : WellRooted m) :
    m.superMethod? c s = some (id, owner) ↔ m.Inherits c s id owner := by
  have hat : ∀ n, (m.superclasses c)[n]? = m.ancestor? (n + 1) c := by
    intro n
    rw [← lineage_getElem? h.older, lineage_eq_cons, List.getElem?_cons_succ]
  simp only [superMethod?_eq h.older, findSome?_eq_some_iff_getElem?, hat, Option.map_eq_none_iff,
    ownMethod?_eq_none, Option.map_eq_some_iff, Prod.mk.injEq, ownMethod?_eq_some (h.rooted.newest _)]
  constructor
  · rintro ⟨n, k, hk, hnone, j, hj, rfl, rfl⟩
    exact ⟨⟨n, hk, hnone⟩, hj⟩
  · rintro ⟨⟨n, hk, hnone⟩, hnewest⟩
    exact ⟨n, owner, hk, hnone, id, hnewest, rfl, rfl⟩

theorem superMethod?_eq_none (h : m.Older) :
    m.superMethod? c s = none ↔ ∀ k ∈ m.superclasses c, ¬m.HasMethod k s := by
  simp only [superMethod?_eq h, List.findSome?_eq_none_iff, Option.map_eq_none_iff, ownMethod?_eq_none]

theorem Inherits.mem (h : m.Inherits c s id owner) (hm : m.Older) : owner ∈ m.superclasses c := by
  obtain ⟨n, hn, -⟩ := h.nearest
  exact (mem_superclasses hm).2 ⟨n, hn⟩

/-! ### The call -/

def callFrame (m : Machine) (a : Int64) (s : Symbol) (argc : Int64) (id : MethodId) (owner : ClassId) :
    Frame :=
  { m.savedFrame .call with
    ownClass := some owner, methodId := s, offset := a, nargs := argc, method := some id }

/-- The machine `m` calls `code`, the method `id` of class `owner`, and goes on in it. -/
structure EntersMethod (a : Int64) (s : Symbol) (argc : Int64) (id : MethodId) (owner : ClassId)
    (code : Code) (m m' : Machine) : Prop where
  frames : m'.frames = m.frames.push (m.callFrame a s argc id owner)
  chain : m'.chain = m.frames.size :: m.chain
  context : m'.context = { m.context with base := m.context.base + a, code := some code, pc := 0 }
  regs : m'.regs = m.regs
  pending : m'.pending = m.pending

theorem charge_changes (n : Int64) :
    Leads AnyFault (charge n) m fun _ m' => m' = { m with memory := m'.memory } := by
  simp only [charge, Leads.modifyGet_eq]
  split <;> rfl

theorem callCode_enters : Leads AnyFault (callCode a s argc id owner code) m fun _ m' =>
    EntersMethod a s argc id owner code m m' := by
  simp only [callCode, pushFrame, modifyFrame, acquireMethod, modifyMethod, modifyContext, Leads.bind_eq,
    Leads.get_eq, Leads.modify_eq]
  split
  · trivial
  · simp only [Leads.bind_eq]
    refine (charge_changes frameBytes).mono fun granted m₁ h₁ => ?_
    split
    · trivial
    · simp only [Leads.bind_eq, Leads.modify_eq, Leads.pure_eq]
      refine (enterWindow_changes _ _).mono fun _ m₂ h₂ => ?_
      have hold : m₁.frames = m.frames ∧ m₁.context = m.context := by rw [h₁]; exact ⟨rfl, rfl⟩
      have hframes := congrArg (·.frames) h₂
      dsimp only [savedFrame] at hframes
      rw [hold.1, hold.2, push_modify] at hframes
      rw [h₁] at h₂
      exact ⟨hframes, congrArg (·.chain) h₂, congrArg (·.context) h₂, congrArg (·.regs) h₂,
        congrArg (·.pending) h₂⟩

theorem raiseText_control (e : ClassId) (t : Text) :
    Leads AnyFault (raiseText e t) m fun _ m' => ∃ message, m.control.raise e message = some m'.control := by
  simp only [raiseText, Leads.bind_eq]
  have hstring : Leads AnyFault (newString t) m fun _ m' => m'.control = m.control := by
    simp only [newString, allocate?, Leads.bind_eq, Leads.modifyGet_eq]
    split <;> split <;> rfl
  refine hstring.mono fun v m₁ h₁ => (raise_control e v).mono fun _ m₂ h₂ => ?_
  refine (release_control v).mono fun _ m₃ h₃ => ⟨v, ?_⟩
  rw [h₃, ← h₂, h₁]

/-- A call with the answer of a search for its method. -/
structure Dispatches (a : Int64) (s : Symbol) (argc : Int64) (found : Option (MethodId × ClassId))
    (m : Machine) (p : Progress) (m' : Machine) : Prop where
  script : ∀ id owner code, found = some (id, owner) → (m.methodAt id).body = .code code →
    p = .same ∧ EntersMethod a s argc id owner code m m'
  native : ∀ id owner k, found = some (id, owner) → (m.methodAt id).body = .native k →
    ∃ regHigh profile, callNative argc.toInt.toNat ⟨id, ⟨m.context.base + a, argc⟩, []⟩
      { m with regHigh, profile } = .ok p m'
  missing : found = none → p = .same ∧ ∃ message, m.control.raise .noMethodError message = some m'.control

theorem dispatch_dispatches (a : Int64) (s : Symbol) (argc : Int64) (c : ClassId) :
    Leads AnyFault (dispatch a s argc c) m (Dispatches a s argc (m.findMethod? c s) m) := by
  simp only [dispatch, Leads.bind_eq, Leads.get_eq]
  refine (enterWindow_changes _ _).mono fun _ m₁ h₁ => ?_
  obtain ⟨hfind₁, -⟩ : m₁.findMethod? = m.findMethod? ∧ m₁.methodAt = m.methodAt :=
    findMethod?_congr (congrArg (·.classes) h₁) (congrArg (·.methods) h₁)
  have hcontrol₁ : m₁.control = m.control := by rw [h₁]; rfl
  rw [hfind₁]
  cases hfound : m.findMethod? c s with
  | none =>
    simp only [Leads.bind_eq, Leads.get_eq]
    refine (reg_leads fun v _ => ?_).forget
    refine (raiseText_control _ _).mono fun _ m₂ h₂ => ?_
    rw [hcontrol₁] at h₂
    refine ⟨?_, ?_, fun _ => ⟨rfl, h₂⟩⟩
    · rintro _ _ _ ⟨⟩
    · rintro _ _ _ ⟨⟩
  | some x =>
    obtain ⟨id, owner⟩ := x
    simp only [Leads.bind_eq, Leads.get_eq]
    refine ((recordCall_changes id owner).imp (fun _ _ => False.elim) fun _ _ h => h).mono fun _ m₂ h₂ => ?_
    have halone : m₂ = { m with regHigh := m₂.regHigh, profile := m₂.profile } := by rw [h₂, h₁]
    have hbody : m₂.methodAt id = m.methodAt id := by rw [halone]; rfl
    rw [hbody]
    split
    · next k hk =>
      refine (Leads.named _).mono fun p m₃ h₃ => ⟨?_, ?_, ?_⟩
      · rintro _ _ code ⟨⟩ hcode
        cases hk.symm.trans hcode
      · rintro _ _ k' ⟨⟩ -
        exact ⟨m₂.regHigh, m₂.profile, halone ▸ h₃⟩
      · rintro ⟨⟩
    · next code hcode =>
      simp only [Leads.bind_eq, Leads.pure_eq]
      refine callCode_enters.mono fun _ m₃ h₃ => ⟨?_, ?_, ?_⟩
      · rintro _ _ code' ⟨⟩ hcode'
        cases hcode.symm.trans hcode'
        refine ⟨rfl, ?_⟩
        rw [halone] at h₃
        exact ⟨h₃.frames, h₃.chain, h₃.context, h₃.regs, h₃.pending⟩
      · rintro _ _ k ⟨⟩ hk
        cases hcode.symm.trans hk
      · rintro ⟨⟩

theorem callSuper_dispatches {f : Frame} (hcall : m.currentCall? = some f) (hc : f.ownClass = some c)
    (hs : f.methodId = s) (hs0 : s ≠ 0) : Leads AnyFault (callSuper a argc) m fun p m' =>
      ∃ v m₁, ReadiesSuper a argc v m m₁ ∧ Dispatches a s argc (m.superMethod? c s) m₁ p m' := by
  obtain ⟨s, rfl⟩ := Nat.exists_eq_succ_of_ne_zero hs0
  rw [callSuper_eq_ready hcall hc hs]
  refine (readySuper_readies a argc).mono ?_
  rintro _ m₁ ⟨v, h₁⟩
  have hclasses : m₁.classes = m.classes := congrArg (·.classes) h₁.alone
  have hclassAt : m₁.classAt c = m.classAt c := by rw [classAt, classAt, hclasses]
  obtain ⟨hfind, -⟩ : m₁.findMethod? = m.findMethod? ∧ m₁.methodAt = m.methodAt :=
    findMethod?_congr hclasses (congrArg (·.methods) h₁.alone)
  rw [hclassAt, superMethod?]
  cases (m.classAt c).super with
  | none =>
    simp only [nameOf, Leads.bind_eq, Leads.get_eq, Leads.pure_eq]
    refine (raiseText_control _ _).mono fun _ m₂ h₂ => ⟨v, m₁, h₁, ?_, ?_, fun _ => ⟨rfl, h₂⟩⟩
    · rintro _ _ _ ⟨⟩
    · rintro _ _ _ ⟨⟩
  | some super =>
    refine (dispatch_dispatches a (s + 1) argc super).mono fun p m₂ h₂ => ⟨v, m₁, h₁, ?_⟩
    rwa [hfind] at h₂

/-- What a call of the superclass does in a method `s` that was found on class `c`. -/
structure CallsAbove (i : Inst) (c : ClassId) (s : Symbol) (m : Machine) (p : Progress) (m' : Machine) :
    Prop where
  script : ∀ id owner code, m.Inherits c s id owner → (m.methodAt id).body = .code code →
    p = .same ∧ ∃ v m₁, ReadiesSuper i.a i.b v m.fetched m₁ ∧ EntersMethod i.a s i.b id owner code m₁ m'
  native : ∀ id owner k, m.Inherits c s id owner → (m.methodAt id).body = .native k →
    ∃ v m₁ regHigh profile, ReadiesSuper i.a i.b v m.fetched m₁ ∧
      callNative i.b.toInt.toNat ⟨id, ⟨m.context.base + i.a, i.b⟩, []⟩ { m₁ with regHigh, profile } = .ok p m'
  missing : (∀ k ∈ m.superclasses c, ¬m.HasMethod k s) →
    p = .same ∧ ∃ message, m.fetched.control.raise .noMethodError message = some m'.control

variable {f : Frame} {i : Inst} {owned : List Value}

theorem fetch_step_above (h : WellRooted m) (hi : m.control.next? = some i) (hop : i.op = .callSuper)
    (hf : m.currentCall? = some f) (hc : f.ownClass = some c) (hs : f.methodId = s) (hs0 : s ≠ 0) :
    Leads AnyFault (fetch >>= step) m (CallsAbove i c s m) := by
  rw [Leads.bind_eq]
  refine fetch_leads.mono ?_
  rintro j _ ⟨hj, rfl⟩
  cases hi.symm.trans hj
  simp only [step, hop, Leads.bind_eq, Leads.get_eq]
  refine (callSuper_dispatches (m := m.fetched) hf hc hs hs0).mono ?_
  rintro p m' ⟨v, m₁, h₁, hd⟩
  have hfound : m.fetched.superMethod? c s = m.superMethod? c s := rfl
  obtain ⟨-, hat⟩ : m₁.findMethod? = m.findMethod? ∧ m₁.methodAt = m.methodAt :=
    findMethod?_congr (congrArg (·.classes) h₁.alone) (congrArg (·.methods) h₁.alone)
  refine ⟨fun id owner code hinh hbody => ?_, fun id owner k hinh hbody => ?_, fun hnone => ?_⟩
  · obtain ⟨hp, hm'⟩ := hd.script id owner code ((superMethod?_eq_some h).2 hinh) (hat ▸ hbody)
    exact ⟨hp, v, m₁, h₁, hm'⟩
  · obtain ⟨regHigh, profile, hm'⟩ := hd.native id owner k ((superMethod?_eq_some h).2 hinh) (hat ▸ hbody)
    have hbase : m₁.context.base = m.context.base := congrArg (·.context.base) h₁.alone
    rw [hbase] at hm'
    exact ⟨v, m₁, regHigh, profile, h₁, hm'⟩
  · obtain ⟨hp, message, hraise⟩ := hd.missing ((superMethod?_eq_none h.older).2 hnone)
    have hcontrol : m₁.control = m.fetched.control := by rw [h₁.alone]; rfl
    exact ⟨hp, message, hcontrol ▸ hraise⟩

/-- The tick that calls a script method above leaves its frame on top of the chain. -/
theorem tick_enters (hm : Reachable true owned m) (hi : m.control.next? = some i) (hop : i.op = .callSuper)
    (hf : m.currentCall? = some f) (hc : f.ownClass = some c) (hs : f.methodId = s) (hs0 : s ≠ 0)
    (hinh : m.Inherits c s id owner) (hbody : (m.methodAt id).body = .code code) :
    Leads AnyFault tick m fun r m' => r = none ∧ m'.chain = m.frames.size :: m.chain ∧
      (m'.frameAt m.frames.size).ownClass = some owner ∧ (m'.frameAt m.frames.size).methodId = s ∧
      m.frames.size < m'.frames.size := by
  have hroot := Machine.Reachable.wellRooted hm
  have hstep := (fetch_step_above hroot hi hop hf hc hs hs0).and
    ((fetch_step_stepped ((Machine.Reachable.steady hm).books nofun)).imp (fun _ _ _ => trivial)
      fun _ _ h => h)
  rw [Leads.bind_eq] at hstep
  simp only [tick, Leads.bind_eq]
  refine hstep.mono fun j m₀ h₀ => h₀.mono ?_
  rintro p m₁ ⟨habove, hledger, -⟩
  obtain ⟨rfl, v, m₂, h₂, henters⟩ := habove.script id owner code hinh hbody
  have hframes : m₂.frames = m.frames := congrArg (·.frames) h₂.alone
  have hchain : m₂.chain = m.chain := congrArg (·.chain) h₂.alone
  have hpending : m₁.pending = none := by
    rw [henters.pending, h₂.alone]
    exact hm.pending_eq_none rfl
  have hsize : m₁.frames.size = m.frames.size + 1 := by
    rw [henters.frames, Array.size_push, hframes]
  have hat : m₁.frameAt m.frames.size = m₂.callFrame i.a s i.b id owner := by
    rw [Pushed.frameAt _ henters.frames, hframes, if_pos rfl]
  simp only [Leads.bind_eq, Leads.get_eq]
  refine (finishStep_settles m₁.suspended hledger hpending).mono ?_
  rintro r m' ⟨rfl, hgoes, hcontrol⟩
  have hchain' : m'.chain = m₁.chain := congrArg Control.chain hcontrol
  have hnames : (m'.frameAt m.frames.size).ownClass = some owner ∧
      (m'.frameAt m.frames.size).methodId = s := by
    rcases hgoes.lasting.old m.frames.size (hsize ▸ Nat.lt_succ_self _) with heq | heq
    all_goals rw [heq, hat]; exact ⟨rfl, rfl⟩
  refine ⟨rfl, ?_, hnames.1, hnames.2, ?_⟩
  · rw [hchain', henters.chain, hframes, hchain]
  · rw [hgoes.size, hsize]
    exact Nat.lt_succ_self _

/-- On a machine that runs modest code prudently the call ends in no other fault than a fatal one. -/
theorem fetch_step_super_contained (h : Guarded true owned m) (hi : m.control.next? = some i)
    (hop : i.op = .callSuper) :
    Leads (fun e m' => (∃ cause, e = .fatal cause) ∨ e = .overdrawn ∧ ¬m'.memory.Addressable)
      (fetch >>= step) m fun _ _ => True := by
  obtain ⟨size, hfit, hx⟩ := h.poised.fit
  have hcontained : Leads Contained (fetch >>= step) m fun _ _ => True := by
    rw [Leads.bind_eq]
    refine fetch_contained hfit (hx rfl) fun j m₁ code hfetch h₁ hcode hsturdy => ?_
    rw [fetch_eq hi] at hfetch
    cases hfetch
    have hcareful : Careful i m.fetched := by
      constructor <;> intro hop' <;> simp [hop] at hop'
    exact (step_went h₁.fit (h₁.place (hx rfl)) hcode hsturdy hcareful).mono fun _ _ _ => trivial
  have hledger := fetch_step_stepped ((Machine.Reachable.steady h.reachable).books nofun)
  refine .intro (fun _ _ _ => trivial) fun e m' he => ?_
  rcases hcontained.of_error he with rfl | hfatal
  · exact .inr ⟨rfl, (hledger.of_error he).1 rfl⟩
  · exact .inl hfatal

/-! ### Chains of calls -/

/-- The activation `f`, or a block that runs on its behalf, calls its superclass on `m`, and the tick
enters the script method that is found. -/
structure Climbs (f : FrameId) (m m' : Machine) : Prop where
  calls : ∃ i k c id owner code, m.control.next? = some i ∧ i.op = .callSuper ∧ m.currentCall? = some k ∧
    k.ownClass = some c ∧ k.methodId ≠ 0 ∧ (m.frameAt f).ownClass = some c ∧
    (m.frameAt f).methodId = k.methodId ∧ m.Inherits c k.methodId id owner ∧
    (m.methodAt id).body = .code code
  ticks : tick m = .ok none m'

/-- The activations run methods of one name, and the class of `g` is above that of `f`. -/
structure Surpasses (m : Machine) (g f : FrameId) : Prop where
  name : (m.frameAt g).methodId = (m.frameAt f).methodId
  above : ∃ c k, (m.frameAt f).ownClass = some c ∧ (m.frameAt g).ownClass = some k ∧
    k ∈ m.superclasses c ∧ m.rank k < m.rank c

/-- The activations of a run from `a` on each of which the one before entered by a call of its
superclass, the newest first. -/
inductive Climb (held : List Value) (a : Machine) : List FrameId → (owned : List Value) → Machine → Prop
  | here {f : FrameId} (hf : f < a.frames.size) : Climb held a [f] held a
  | call {f : FrameId} {fs : List FrameId} {owned owned' : List Value} {m m₁ m' : Machine}
      (h : Climb held a (f :: fs) owned m) (hlater : Later owned m true owned' m₁)
      (hcall : Climbs f m₁ m') : Climb held a (m₁.frames.size :: f :: fs) owned' m'

variable {held owned' : List Value} {g e h : FrameId} {fs : List FrameId}

theorem Surpasses.trans (hm : m.Older) (hge : m.Surpasses g e) (heh : m.Surpasses e h) :
    m.Surpasses g h := by
  obtain ⟨c, k, hc, hk, hmem, hrank⟩ := hge.above
  obtain ⟨d, c', hd, hc', hmem', hrank'⟩ := heh.above
  cases hc.symm.trans hc'
  refine ⟨hge.name.trans heh.name, d, k, hd, hk, ?_, Nat.lt_trans hrank hrank'⟩
  exact (superclasses_of_mem hm hmem').2 hmem

/-- Old frames keep the names of their methods. -/
theorem Follows.names (hfollows : Follows m m') (hf : e < m.frames.size) :
    (m'.frameAt e).ownClass = (m.frameAt e).ownClass ∧ (m'.frameAt e).methodId = (m.frameAt e).methodId := by
  rcases hfollows.lasting.old e hf with heq | heq
  all_goals rw [heq]; exact ⟨rfl, rfl⟩

/-- Nothing that happens later brings two activations closer. -/
theorem Surpasses.later (ha : Reachable true held m) (hlater : Later held m true owned m')
    (hg : g < m.frames.size) (he : e < m.frames.size) (hge : m.Surpasses g e) : m'.Surpasses g e := by
  have hm := Machine.Reachable.wellRooted ha
  have hm' := Machine.Reachable.wellRooted (hlater.reachable ha)
  obtain ⟨hownG, hnameG⟩ := (hlater.follows ha).names hg
  obtain ⟨hownE, hnameE⟩ := (hlater.follows ha).names he
  obtain ⟨c, k, hc, hk, hmem, -⟩ := hge.above
  exact ⟨hnameG.trans (hge.name.trans hnameE.symm), c, k, hownE.trans hc, hownG.trans hk,
    superclass_of_extends (hlater.extends ha) hm hm' hmem⟩

/-- A call of the superclass enters an activation above the one that made it. -/
theorem Climbs.surpasses (hm : Reachable true owned m) (hf : e < m.frames.size) (hc : Climbs e m m') :
    m'.Surpasses m.frames.size e ∧ m.frames.size < m'.frames.size := by
  obtain ⟨i, k, c, id, owner, code, hi, hop, hk, hown, hname, hownE, hnameE, hinh, hbody⟩ := hc.calls
  have hroot := Machine.Reachable.wellRooted hm
  obtain ⟨-, -, hownNew, hnameNew, hsize⟩ :=
    (tick_enters hm hi hop hk hown rfl hname hinh hbody).of_ok hc.ticks
  obtain ⟨hownE', hnameE'⟩ := (tick_follows hm hc.ticks).names hf
  have hroot' := Machine.Reachable.wellRooted (hm.tick hc.ticks)
  exact ⟨⟨hnameNew.trans (hnameE'.trans hnameE).symm, c, owner, hownE'.trans hownE, hownNew,
    superclass_of_extends (tick_extends hm hc.ticks) hroot hroot' (hinh.mem hroot.older)⟩, hsize⟩

/-- Each activation of a climb is above all before it. -/
theorem Climb.pairwise (ha : Reachable true held m) (hclimb : Climb held m fs owned m') :
    Reachable true owned m' ∧ (∀ f ∈ fs, f < m'.frames.size) ∧ fs.Pairwise m'.Surpasses := by
  induction hclimb with
  | here hf => exact ⟨ha, by simpa using hf, List.pairwise_singleton _ _⟩
  | @call f fs owned owned' n m₁ m' _ hlater hcall ih =>
    obtain ⟨hn, hsize, hpair⟩ := ih
    have hm₁ := hlater.reachable hn
    have hticked : Later owned n true owned' m' := hlater.tick hcall.ticks
    have hroot := Machine.Reachable.wellRooted (hm₁.tick hcall.ticks)
    have hle : n.frames.size ≤ m₁.frames.size := (hlater.follows hn).lasting.le_size
    have hf : f < m₁.frames.size := Nat.lt_of_lt_of_le (hsize f List.mem_cons_self) hle
    obtain ⟨hnew, hlt⟩ := hcall.surpasses hm₁ hf
    have hold : (f :: fs).Pairwise m'.Surpasses := by
      refine hpair.imp_of_mem fun hx hy hxy => ?_
      exact hxy.later hn hticked (hsize _ hx) (hsize _ hy)
    refine ⟨hm₁.tick hcall.ticks, fun x hx => ?_, List.pairwise_cons.2 ⟨fun x hx => ?_, hold⟩⟩
    · rcases List.mem_cons.1 hx with rfl | hx
      · exact hlt
      · exact Nat.lt_trans (Nat.lt_of_lt_of_le (hsize x hx) hle) hlt
    · rcases List.mem_cons.1 hx with rfl | hx
      · exact hnew
      · exact hnew.trans hroot.older ((List.pairwise_cons.1 hold).1 x hx)

end Machine

open Machine

/-- Calls of the superclass climb. In a method `s` that was found on class `c` such a call enters the
most recent definition of `s` on the nearest class above `c` that has one, with a frame of this name
and class, and raises an exception when there is none. On a machine that runs modest code prudently it
has no faults but fatal ones. A chain of activations each of which calls the next one so goes from
class to class towards the root, whatever is defined meanwhile. -/
theorem super_climbs {owned : List Value} {m : Machine} {i : Inst} {f : Frame} {c : ClassId} {s : Symbol}
    (hm : Reachable true owned m) (hi : m.control.next? = some i) (hop : i.op = .callSuper)
    (hf : m.currentCall? = some f) (hc : f.ownClass = some c) (hs : f.methodId = s) (hs0 : s ≠ 0) :
    (∀ id owner, m.Inherits c s id owner → owner ∈ m.superclasses c ∧ m.rank owner < m.rank c) ∧
    ((∃ k ∈ m.superclasses c, m.HasMethod k s) →
      ∃! x : MethodId × ClassId, m.Inherits c s x.1 x.2) ∧
    (∀ p m', (fetch >>= step) m = .ok p m' → CallsAbove i c s m p m') ∧
    (Guarded true owned m → ∀ e m', (fetch >>= step) m = .error e m' →
      (∃ cause, e = .fatal cause) ∨ e = .overdrawn ∧ ¬m'.memory.Addressable) ∧
    ∀ fs owned' m', Climb owned m fs owned' m' → fs.Pairwise m'.Surpasses := by
  have hroot := Machine.Reachable.wellRooted hm
  refine ⟨fun id owner hinh => ?_, fun hsome => ?_, fun p m' hp => ?_, fun hguarded e m' he => ?_,
    fun fs owned' m' hclimb => (hclimb.pairwise hm).2.2⟩
  · have hmem := hinh.mem hroot.older
    exact ⟨hmem, (superclasses_of_mem hroot.older hmem).1⟩
  · obtain ⟨k, hk, hmethod⟩ := hsome
    cases hfound : m.superMethod? c s with
    | none => exact absurd hmethod ((superMethod?_eq_none hroot.older).1 hfound k hk)
    | some x =>
      refine ⟨x, (superMethod?_eq_some hroot).1 hfound, fun y hy => ?_⟩
      cases hfound.symm.trans ((superMethod?_eq_some hroot).2 hy)
      rfl
  · exact (fetch_step_above hroot hi hop hf hc hs hs0).of_ok hp
  · exact (fetch_step_super_contained hguarded hi hop).of_error he

/-- Code that defines a method on a class and on a subclass, where it calls its superclass, and sends
its name to an instance of the subclass. -/
def callingSuper : Program where
  blocks := #[{
    registers := 4, symbols := #["A", "B", "m", "new"], children := #[1, 2],
    code := #[⟨.loadNil, 2, 0, 0⟩, ⟨.defineClass, 1, 0, 0⟩, ⟨.makeBlock, 2, 0, 0⟩,
      ⟨.defineMethod, 1, 2, 0⟩, ⟨.move, 2, 1, 0⟩, ⟨.defineClass, 1, 1, 0⟩, ⟨.makeBlock, 2, 1, 0⟩,
      ⟨.defineMethod, 1, 2, 0⟩, ⟨.send, 1, 3, 0⟩, ⟨.send, 1, 2, 0⟩, ⟨.leave, 1, 0, 0⟩] }, {
    registers := 2, code := #[⟨.loadInt, 1, 7, 0⟩, ⟨.leave, 1, 0, 0⟩] }, {
    registers := 4, code := #[⟨.callSuper, 1, 0, 0⟩, ⟨.leave, 1, 0, 0⟩] }]

/-- The activation that is entered is above the one that calls. -/
theorem super_climbs_subclass : ∃ m m' f, Reachable true [] m ∧
    m.control.next? = some ⟨.callSuper, 1, 0, 0⟩ ∧ m.currentCall? = some f ∧ f.ownClass = some 17 ∧
    f.methodId ≠ 0 ∧ Climb [] m [m.frames.size, 0] [] m' ∧ m'.Surpasses m.frames.size 0 := by
  have hrun : ∃ m ∈ callingSuper.after 10, m.control.next? = some ⟨.callSuper, 1, 0, 0⟩ ∧
      0 < m.frames.size ∧ (m.frameAt 0).ownClass = some 17 ∧ (∃ f ∈ m.currentCall?,
        f.ownClass = some 17 ∧ f.methodId ≠ 0 ∧ (m.frameAt 0).methodId = f.methodId ∧
        ∃ x ∈ m.superMethod? 17 f.methodId, ¬(m.methodAt x.1).isNative) ∧
      Leads NoFault Machine.tick m fun r _ => r = none := by
    decide +kernel
  have hvalid : callingSuper.defect? = none := Program.defect?_eq_none (by decide +kernel)
  obtain ⟨m, hafter, hi, hpos, hown, ⟨f, hf, hc, hs0, hname, ⟨id, owner⟩, hfound, hscript⟩, htick⟩ := hrun
  obtain ⟨_, m', hm', rfl⟩ := htick.exists_ok
  have hm : Reachable true [] m := Reachable.of_after hvalid hafter
  have hinh := (superMethod?_eq_some (Machine.Reachable.wellRooted hm)).1 hfound
  have hclimb : Climb [] m [m.frames.size, 0] [] m' := by
    cases hbody : (m.methodAt id).body with
    | native k => exact absurd (by simp [Method.isNative, Method.native?, hbody]) hscript
    | code code =>
      exact .call (.here hpos) .here
        ⟨⟨_, f, 17, id, owner, code, hi, rfl, hf, hc, hs0, hown, hname, hinh, hbody⟩, hm'⟩
  have hpair := (super_climbs hm hi rfl hf hc rfl hs0).2.2.2.2 _ _ _ hclimb
  exact ⟨m, m', f, hm, hi, hf, hc, hs0, hclimb, (List.pairwise_cons.1 hpair).1 0 (by simp)⟩

/-- Code of a method that calls its superclass with as many arguments as can be said. -/
def countlessSuper : Program where
  blocks := #[{
    registers := 4, symbols := #["m"], children := #[1],
    code := #[⟨.targetClass, 1, 0, 0⟩, ⟨.makeBlock, 2, 0, 0⟩, ⟨.defineMethod, 1, 0, 0⟩,
      ⟨.loadSelf, 1, 0, 0⟩, ⟨.send, 1, 0, 0⟩, ⟨.leave, 1, 0, 0⟩] }, {
    registers := 3, code := #[⟨.callSuper, 1, 9223372036854775807, 0⟩, ⟨.leave, 1, 0, 0⟩] }]

/-- The end of the window is out of reach of numbers, so the call neither raises nor has a fatal
fault. -/
theorem super_crashes_countless : ∃ m i f, Reachable true [] m ∧ m.control.next? = some i ∧
    i.op = .callSuper ∧ 0 ≤ i.b.toInt ∧ m.currentCall? = some f ∧ f.ownClass = some .object ∧
    f.methodId ≠ 0 ∧ (∀ k ∈ m.superclasses .object, ¬m.HasMethod k f.methodId) ∧
    ∃ m', (fetch >>= step) m = .error .outOfBounds m' := by
  have hrun : ∃ m ∈ countlessSuper.after 5,
      m.control.next? = some ⟨.callSuper, 1, 9223372036854775807, 0⟩ ∧
      (∃ f ∈ m.currentCall?, f.ownClass = some .object ∧ f.methodId ≠ 0 ∧
        m.superMethod? .object f.methodId = none) ∧
      Leads (fun e _ => e = .outOfBounds) (fetch >>= step) m fun _ _ => False := by
    decide +kernel
  have hvalid : countlessSuper.defect? = none := Program.defect?_eq_none (by decide +kernel)
  obtain ⟨m, hafter, hi, ⟨f, hf, hc, hs0, hnone⟩, hstep⟩ := hrun
  have hm : Reachable true [] m := Reachable.of_after hvalid hafter
  have hmissing := (superMethod?_eq_none (Machine.Reachable.wellRooted hm).older).1 hnone
  refine ⟨m, _, f, hm, hi, rfl, by decide, hf, hc, hs0, hmissing, ?_⟩
  cases hr : (fetch >>= step) m with
  | ok p m' => exact (hstep.of_ok hr).elim
  | error e m' =>
    obtain rfl := hstep.of_error hr
    exact ⟨m', rfl⟩

end ObjectMachine
