import ObjectMachine.Proofs.BlockCalls
import ObjectMachine.Proofs.Crashes

/-! Which method answers a name. A log lists the methods that were ever installed, newest first.
The two ways of installing one treat the list of a class differently: a native goes in front of
what is there, and code takes the place of the newest method of its name. Both come to the same:
each class answers with the newest installation on it, and a class without one leaves the answer
to its superclass. -/

namespace ObjectMachine

structure Installation where
  owner : ClassId
  name : Symbol
  method : MethodId
  body : MethodBody

def Installation.last? (log : List Installation) (k : ClassId) (s : Symbol) : Option Installation :=
  log.find? fun e => e.owner == k && e.name == s

open Installation (last?)

namespace Machine

variable {log : List Installation} {m m₁ m' : Machine} {c k : ClassId} {s : Symbol} {n : Nat}

/-! ### Superclasses -/

def ancestor? (m : Machine) : Nat → ClassId → Option ClassId
  | 0, c => some c
  | n + 1, c => (m.classAt c).super.bind (m.ancestor? n)

/-- Superclasses are older than their subclasses. -/
def Older (m : Machine) : Prop := ∀ k p, (m.classAt k).super = some p → p < k

theorem classAt_super (m : Machine) (c : ClassId) :
    (m.classAt c).super = (m.classes[c]?).bind (·.super) := by
  simp only [classAt, Array.getD_eq_getD_getElem?]
  cases m.classes[c]? <;> rfl

/-- The lineage of a class lists its ancestors. -/
theorem lineage_getElem? (h : m.Older) (n : Nat) (c : ClassId) :
    (lineage m.classes c)[n]? = m.ancestor? n c := by
  induction n generalizing c with
  | zero =>
    rw [lineage]
    split
    · split <;> rfl
    · rfl
  | succ n ih =>
    rw [lineage, ancestor?, classAt_super]
    split
    · next p hp =>
      rw [if_pos (h c p (classAt_super m c ▸ hp)), List.getElem?_cons_succ, ih, hp]
      rfl
    · next hnone =>
      rw [hnone]
      rfl

def Silent (log : List Installation) (m : Machine) (c : ClassId) (s : Symbol) (n : Nat) : Prop :=
  ∀ i < n, ∀ k, m.ancestor? i c = some k → last? log k s = none

theorem silent_succ : Silent log m c s (n + 1) ↔
    Silent log m c s n ∧ ∀ k, m.ancestor? n c = some k → last? log k s = none := by
  refine ⟨fun h => ⟨fun i hi => h i (Nat.lt_succ_of_lt hi), h n (Nat.lt_succ_self n)⟩, ?_⟩
  rintro ⟨hbelow, hn⟩ i hi
  rcases Nat.lt_succ_iff_lt_or_eq.1 hi with hlt | rfl
  · exact hbelow i hlt
  · exact hn

/-! ### Logs -/

inductive Installs : Installation → Machine → Machine → Prop
  | native {m m' : Machine} {c : ClassId} {name : Text} {native : Native} {id : MethodId}
      (h : defineNative? c name native m = .ok (some id) m') :
      Installs ⟨c, (m.symbols.intern name).2, id, .native native⟩ m m'
  | code {m m' : Machine} {c : ClassId} {s : Symbol} {code : Code} {id : MethodId}
      (h : installCode? c s code m = .ok (some id) m') : Installs ⟨c, s, id, .code code⟩ m m'

/-- Methods are the same, but for references to them. -/
structure SameMethods (m m' : Machine) : Prop where
  size : m'.methods.size = m.methods.size
  symbol : ∀ id, (m'.methodAt id).symbol = (m.methodAt id).symbol
  body : ∀ id, (m'.methodAt id).body = (m.methodAt id).body

/-- Classes are the same, and methods but for references to them. -/
structure Unaffected (m m' : Machine) : Prop extends SameMethods m m' where
  classes : m'.classes = m.classes

/-- The machines on which the methods of a log were installed, and classes defined in between. -/
inductive History : List Installation → Machine → Prop
  | blank (c : Config) : History [] (blank c)
  | define {log : List Installation} {m m' : Machine} {name : Text} {super : Option ClassId}
      {c : ClassId} (hm : History log m) (hsuper : ∀ k, super = some k → k < m.classes.size)
      (h : defineClass name super m = .ok c m') : History log m'
  | install {log : List Installation} {m m' : Machine} {e : Installation} (hm : History log m)
      (howner : e.owner < m.classes.size) (h : Installs e m m') : History (e :: log) m'
  | other {log : List Installation} {m m' : Machine} (hm : History log m) (h : Unaffected m m') :
      History log m'

/-- The lists of methods answer as the log does. -/
structure Faithful (log : List Installation) (m : Machine) : Prop where
  older : m.Older
  own : ∀ k s, m.ownMethod? k s = (last? log k s).map (·.method)
  linked : ∀ k, ∀ id ∈ (m.classAt k).methods, id < m.methods.size
  logged : ∀ e ∈ log, e.owner < m.classes.size ∧ e.method < m.methods.size ∧
    (m.methodAt e.method).symbol = e.name ∧ (m.methodAt e.method).body = e.body

/-! ### Installing -/

/-- What an installation does before it adds its method: the newest method of the name on the class
may be unlinked. -/
structure Unlinks (c : ClassId) (s : Symbol) (m m' : Machine) : Prop extends SameMethods m m' where
  classes : m'.classes.size = m.classes.size
  super : ∀ k, (m'.classAt k).super = (m.classAt k).super
  methods : ∀ k, (m'.classAt k).methods ⊆ (m.classAt k).methods
  own : ∀ k t, ¬(k = c ∧ t = s) → m'.ownMethod? k t = m.ownMethod? k t

theorem SameMethods.trans (h : SameMethods m m₁) (h' : SameMethods m₁ m') : SameMethods m m' :=
  ⟨h'.size.trans h.size, fun id => (h'.symbol id).trans (h.symbol id),
    fun id => (h'.body id).trans (h.body id)⟩

theorem Unaffected.trans (h : Unaffected m m₁) (h' : Unaffected m₁ m') : Unaffected m m' :=
  ⟨h.toSameMethods.trans h'.toSameMethods, h'.classes.trans h.classes⟩

theorem Unaffected.of_eq (hclasses : m'.classes = m.classes) (hmethods : m'.methods = m.methods) :
    Unaffected m m' := by
  have hat : ∀ id, m'.methodAt id = m.methodAt id := fun id => by simp only [methodAt, hmethods]
  exact ⟨⟨congrArg Array.size hmethods, fun id => congrArg (·.symbol) (hat id),
    fun id => congrArg (·.body) (hat id)⟩, hclasses⟩

theorem Unaffected.classAt (h : Unaffected m m') (k : ClassId) : m'.classAt k = m.classAt k := by
  simp only [Machine.classAt, h.classes]

theorem SameMethods.ownMethod? (h : SameMethods m m')
    (hmethods : (m'.classAt k).methods = (m.classAt k).methods) :
    m'.ownMethod? k s = m.ownMethod? k s := by
  simp only [Machine.ownMethod?, hmethods, h.symbol]

theorem Unaffected.unlinks (h : Unaffected m m') : Unlinks c s m m' where
  toSameMethods := h.toSameMethods
  classes := congrArg Array.size h.classes
  super k := congrArg (·.super) (h.classAt k)
  methods k := by rw [h.classAt]; exact List.Subset.refl _
  own k _ _ := h.ownMethod? (congrArg (·.methods) (h.classAt k))

theorem Unlinks.trans (h : Unlinks c s m m₁) (h' : Unlinks c s m₁ m') : Unlinks c s m m' where
  toSameMethods := h.toSameMethods.trans h'.toSameMethods
  classes := h'.classes.trans h.classes
  super k := (h'.super k).trans (h.super k)
  methods k := List.Subset.trans (h'.methods k) (h.methods k)
  own k t hne := (h'.own k t hne).trans (h.own k t hne)

theorem classAt_modify (c k : ClassId) (f : Class → Class) :
    { m with classes := m.classes.modify c f }.classAt k =
      if c = k ∧ c < m.classes.size then f (m.classAt k) else m.classAt k := by
  simp only [classAt, Array.getD_eq_getD_getElem?, Array.getElem?_modify]
  by_cases hk : c = k
  · subst hk
    by_cases hc : c < m.classes.size <;> simp [hc]
  · simp [hk]

def grow (c : ClassId) (k : Method) (m : Machine) : Machine :=
  { m with
    methods := m.methods.push k
    classes := m.classes.modify c fun x => { x with methods := m.methods.size :: x.methods } }

theorem classAt_grow (hc : c < m.classes.size) (k : Method) (j : ClassId) :
    (m.grow c k).classAt j =
      if c = j then { m.classAt j with methods := m.methods.size :: (m.classAt j).methods }
      else m.classAt j := by
  have hat := classAt_modify (m := m) c j fun x => { x with methods := m.methods.size :: x.methods }
  simp only [hc, and_true] at hat
  exact hat

theorem methodAt_grow (k : Method) (id : MethodId) :
    (m.grow c k).methodAt id = if id = m.methods.size then k else m.methodAt id :=
  methodAt_push k id

theorem methodAt_grow_of_lt (k : Method) {id : MethodId} (hid : id < m.methods.size) :
    (m.grow c k).methodAt id = m.methodAt id := by
  rw [methodAt_grow, if_neg (Nat.ne_of_lt hid)]

theorem last?_cons (e : Installation) (k : ClassId) (t : Symbol) :
    last? (e :: log) k t = if k = e.owner ∧ t = e.name then some e else last? log k t := by
  simp only [last?, List.find?_cons]
  by_cases h : k = e.owner ∧ t = e.name
  · simp [h]
  · rw [if_neg h]
    split
    · next heq => simp_all
    · rfl

/-- The newest method of its name is the one that was added. -/
theorem ownMethod?_grow (hc : c < m.classes.size) (k : Method)
    (hlinked : ∀ j, ∀ id ∈ (m.classAt j).methods, id < m.methods.size) (j : ClassId) (t : Symbol) :
    (m.grow c k).ownMethod? j t =
      if j = c ∧ t = k.symbol then some m.methods.size else m.ownMethod? j t := by
  have hold : ∀ ids : List MethodId, (∀ id ∈ ids, id < m.methods.size) →
      ids.find? (fun id => ((m.grow c k).methodAt id).symbol == t) =
        ids.find? fun id => (m.methodAt id).symbol == t := by
    intro ids hids
    refine List.find?_congr fun id hid => ?_
    rw [methodAt_grow_of_lt k (hids id hid)]
  rw [ownMethod?, classAt_grow hc]
  by_cases hj : c = j
  · subst hj
    rw [if_pos rfl, List.find?_cons, methodAt_grow, if_pos rfl, hold _ (hlinked c)]
    by_cases ht : t = k.symbol
    · simp [ht]
    · have hne : (k.symbol == t) = false := beq_eq_false_iff_ne.2 (Ne.symm ht)
      simp [hne, ht, ownMethod?]
  · rw [if_neg hj, hold _ (hlinked j), if_neg fun h => hj h.1.symm]
    rfl

/-- An installation adds its method after it may have unlinked another one. -/
def Adds (e : Installation) (m m' : Machine) : Prop :=
  e.method = m.methods.size ∧
    ∃ m₁, Unlinks e.owner e.name m m₁ ∧ m' = m₁.grow e.owner { symbol := e.name, body := e.body }

/-- Installing a method keeps the lists and the log together. -/
theorem Faithful.install {e : Installation} (h : Faithful log m) (hc : e.owner < m.classes.size)
    (ha : Adds e m m') : Faithful (e :: log) m' := by
  obtain ⟨c, s, id, body⟩ := e
  obtain ⟨rfl, m₁, hu, rfl⟩ := ha
  have hc₁ : c < m₁.classes.size := hu.classes ▸ hc
  have hlinked₁ : ∀ j, ∀ id ∈ (m₁.classAt j).methods, id < m₁.methods.size :=
    fun j id hid => hu.size ▸ h.linked j id (hu.methods j hid)
  refine ⟨fun k p hp => ?_, fun j t => ?_, fun j id hid => ?_, fun e he => ?_⟩
  · rw [classAt_grow hc₁] at hp
    refine h.older k p ((hu.super k).symm.trans ?_)
    split at hp <;> exact hp
  · rw [ownMethod?_grow hc₁ _ hlinked₁, last?_cons, hu.size]
    by_cases hj : j = c ∧ t = s
    · rw [if_pos hj, if_pos hj]
      rfl
    · rw [if_neg hj, if_neg hj, hu.own j t hj, h.own]
  · rw [classAt_grow hc₁] at hid
    have hsize : (m₁.grow c { symbol := s, body }).methods.size = m₁.methods.size + 1 := Array.size_push _
    rw [hsize]
    split at hid
    · rcases List.mem_cons.1 hid with rfl | hid
      · exact Nat.lt_succ_self _
      · exact Nat.lt_succ_of_lt (hlinked₁ j id hid)
    · exact Nat.lt_succ_of_lt (hlinked₁ j id hid)
  · have hclasses : (m₁.grow c { symbol := s, body }).classes.size = m.classes.size :=
      Array.size_modify.trans hu.classes
    have hsize : (m₁.grow c { symbol := s, body }).methods.size = m.methods.size + 1 :=
      (Array.size_push _).trans (congrArg (· + 1) hu.size)
    rw [hclasses, hsize]
    rcases List.mem_cons.1 he with rfl | he
    · refine ⟨hc, Nat.lt_succ_self _, ?_⟩
      rw [methodAt_grow, if_pos hu.size.symm]
      exact ⟨rfl, rfl⟩
    · obtain ⟨howner, hmethod, hsymbol, hbody⟩ := h.logged e he
      refine ⟨howner, Nat.lt_succ_of_lt hmethod, ?_⟩
      rw [methodAt_grow_of_lt _ (hu.size ▸ hmethod)]
      exact ⟨(hu.symbol _).trans hsymbol, (hu.body _).trans hbody⟩

theorem addMethod_eq (c : ClassId) (k : Method) :
    addMethod c k m = .ok m.methods.size (m.grow c k) := rfl

theorem chargeMethod_leads (c : ClassId) :
    Leads AnyFault (chargeMethod c) m fun _ m' =>
      ∃ pool, m' = { m with memory := { m.memory with pool } } := by
  simp only [chargeMethod, Leads.bind_eq, Leads.get_eq]
  split
  · simp only [charge, Leads.modifyGet_eq]
    split <;> exact ⟨_, rfl⟩
  · exact ⟨_, rfl⟩

theorem charge_adds (h : Unlinks c s m m₁) (body : MethodBody) :
    Leads AnyFault (chargeMethod c) m₁ fun granted m₂ =>
      Leads AnyFault (if granted then return some (← addMethod c { symbol := s, body })
        else return none) m₂ fun r m' => ∀ id, r = some id → Adds ⟨c, s, id, body⟩ m m' := by
  refine (chargeMethod_leads c).mono ?_
  rintro granted _ ⟨pool, rfl⟩
  split
  · simp only [Leads.bind_eq, Leads.pure_eq]
    refine .of_eq (addMethod_eq c _) ?_
    rintro _ ⟨⟩
    exact ⟨h.size, { m₁ with memory := { m₁.memory with pool } },
      h.trans (Unaffected.unlinks (.of_eq rfl rfl)), rfl⟩
  · exact nofun

theorem defineNative?_adds (c : ClassId) (name : Text) (native : Native) :
    Leads AnyFault (defineNative? c name native) m fun r m' => ∀ id, r = some id →
      Adds ⟨c, (m.symbols.intern name).2, id, .native native⟩ m m' := by
  simp only [defineNative?, Leads.bind_eq]
  refine (chargeMethod_leads c).mono ?_
  rintro granted _ ⟨pool, rfl⟩
  split
  · simp only [intern, Leads.bind_eq, Leads.modifyGet_eq, Leads.pure_eq]
    refine .of_eq (addMethod_eq c _) ?_
    rintro _ ⟨⟩
    refine ⟨rfl, { m with symbols := (m.symbols.intern name).1, memory := { m.memory with pool } },
      Unaffected.unlinks (.of_eq rfl rfl), rfl⟩
  · rintro _ ⟨⟩

theorem releaseMethod_same (id : MethodId) :
    Leads AnyFault (releaseMethod id) m fun _ m' => Unaffected m m' := by
  have hrefs : Unaffected m { m with
      methods := m.methods.modify id fun k => { k with refCount := k.refCount - 1 } } := by
    refine ⟨⟨Array.size_modify, fun j => ?_, fun j => ?_⟩, rfl⟩ <;>
    · rw [methodAt_modify]
      split <;> rfl
  simp only [releaseMethod, modifyMethod, Leads.bind_eq, Leads.modify_eq, Leads.get_eq]
  split
  · simp only [refund, onMemory, Leads.bind_eq, Leads.modifyGet_eq]
    split
    · trivial
    · exact hrefs.trans (.of_eq rfl rfl)
  · split
    · trivial
    · exact hrefs

theorem find?_erase_of_not {α : Type} [BEq α] [LawfulBEq α] {p : α → Bool} {a : α} {l : List α}
    (ha : p a = false) : (l.erase a).find? p = l.find? p := by
  induction l with
  | nil => rfl
  | cons b l ih =>
    rw [List.erase_cons]
    split
    · next hb =>
      rw [List.find?_cons, beq_iff_eq.1 hb, ha]
    · rw [List.find?_cons, List.find?_cons, ih]

/-- Unlinking the newest method of a name leaves those of other names. -/
theorem unlinks_erase {old : MethodId} (hold : m.ownMethod? c s = some old) :
    Unlinks c s m
      { m with classes := m.classes.modify c fun k => { k with methods := k.methods.erase old } } := by
  have hat := classAt_modify (m := m) c (f := fun k => { k with methods := k.methods.erase old })
  refine ⟨⟨rfl, fun _ => rfl, fun _ => rfl⟩, Array.size_modify, fun k => ?_, fun k => ?_,
    fun k t hne => ?_⟩
  · rw [hat]
    split <;> rfl
  · rw [hat]
    split
    · exact List.erase_subset
    · exact List.Subset.refl _
  · rw [ownMethod?, hat]
    split
    · next hk =>
      have ht : s ≠ t := fun h => hne ⟨hk.1.symm, h.symm⟩
      have hsymbol : (m.methodAt old).symbol = s := by
        simpa using List.find?_some hold
      refine find?_erase_of_not (p := fun id => (m.methodAt id).symbol == t) ?_
      rw [hsymbol]
      exact beq_eq_false_iff_ne.2 ht
    · rfl

theorem installCode?_adds (c : ClassId) (s : Symbol) (code : Code) :
    Leads AnyFault (installCode? c s code) m fun r m' => ∀ id, r = some id →
      Adds ⟨c, s, id, .code code⟩ m m' := by
  simp only [installCode?, modifyClass, Leads.bind_eq, Leads.get_eq]
  split
  · next old hold =>
    simp only [Leads.bind_eq, Leads.modify_eq]
    refine (releaseMethod_same old).mono fun _ m₁ h₁ => ?_
    exact charge_adds ((unlinks_erase hold).trans h₁.unlinks) (.code code)
  · rw [Leads.bind_eq]
    exact charge_adds (Unaffected.unlinks (.of_eq rfl rfl)) (.code code)

theorem Installs.adds {e : Installation} (h : Installs e m m') : Adds e m m' := by
  cases h with
  | native h => exact (defineNative?_adds _ _ _).of_ok h _ rfl
  | code h => exact (installCode?_adds _ _ _).of_ok h _ rfl

theorem Faithful.unaffected (h : Faithful log m) (hu : Unaffected m m') : Faithful log m' := by
  refine ⟨fun k p hp => h.older k p (hu.classAt k ▸ hp), fun k t => ?_, fun k id hid => ?_,
    fun e he => ?_⟩
  · rw [hu.ownMethod? (congrArg (·.methods) (hu.classAt k)), h.own]
  · rw [hu.size]
    exact h.linked k id (hu.classAt k ▸ hid)
  · obtain ⟨howner, hmethod, hsymbol, hbody⟩ := h.logged e he
    rw [hu.classes, hu.size, hu.symbol, hu.body]
    exact ⟨howner, hmethod, hsymbol, hbody⟩

theorem acquire_sameNames (v : Value) :
    Leads AnyFault (acquire v) m fun _ m' => SameNames m m' := by
  unfold acquire
  split
  · exact ⟨rfl, rfl, rfl, rfl⟩
  · simp only [onMemory, Leads.bind_eq, Leads.modifyGet_eq]
    split
    · trivial
    · exact ⟨rfl, rfl, rfl, classOf_of_view (Memory.acquire_view _ _ _)⟩

theorem setConstant_unaffected (t : Symbol) (v : Value) :
    Leads AnyFault (setConstant t v) m fun _ m' => Unaffected m m' := by
  simp only [setConstant, Leads.bind_eq, Leads.get_eq]
  refine (acquire_sameNames v).mono fun _ m₁ h₁ => ?_
  split
  · simp only [Leads.bind_eq, Leads.modify_eq]
    refine (release_sameNames _).mono fun _ m₂ h₂ => ?_
    exact .of_eq (h₂.classes.trans h₁.classes) (h₂.methods.trans h₁.methods)
  · exact Unaffected.of_eq h₁.classes h₁.methods

theorem classAt_push (x : Class) (k : ClassId) : { m with classes := m.classes.push x }.classAt k =
    if k = m.classes.size then x else m.classAt k := by
  simp only [classAt, Array.getD_eq_getD_getElem?, Array.getElem?_push]
  split <;> rfl

/-- A new class answers nothing itself. -/
theorem Faithful.push (h : Faithful log m) {x : Class}
    (hsuper : ∀ p, x.super = some p → p < m.classes.size) (hmethods : x.methods = []) :
    Faithful log { m with classes := m.classes.push x } := by
  refine ⟨fun k p hp => ?_, fun k t => ?_, fun k id hid => ?_, fun e he => ?_⟩
  · rw [classAt_push] at hp
    split at hp
    · next hk => exact hk ▸ hsuper p hp
    · exact h.older k p hp
  · rw [ownMethod?, classAt_push]
    split
    · next hk =>
      have hnone : last? log k t = none := by
        refine List.find?_eq_none.2 fun e he heq => ?_
        have howner : e.owner = k := by
          simp only [Bool.and_eq_true, beq_iff_eq] at heq
          exact heq.1
        exact Nat.ne_of_lt (h.logged e he).1 (howner.trans hk)
      rw [hmethods, hnone]
      rfl
    · exact h.own k t
  · rw [classAt_push] at hid
    split at hid
    · rw [hmethods] at hid
      cases hid
    · exact h.linked k id hid
  · obtain ⟨howner, hmethod⟩ := h.logged e he
    have hsize : (m.classes.push x).size = m.classes.size + 1 := Array.size_push _
    exact ⟨hsize ▸ Nat.lt_succ_of_lt howner, hmethod⟩

theorem Faithful.define (h : Faithful log m) (name : Text) {super : Option ClassId}
    (hsuper : ∀ k, super = some k → k < m.classes.size) :
    Leads AnyFault (defineClass name super) m fun _ m' => Faithful log m' := by
  simp only [defineClass, intern, Leads.bind_eq, Leads.modifyGet_eq, Leads.get_eq]
  split
  · exact h.unaffected (.of_eq rfl rfl)
  · trivial
  · simp only [Leads.bind_eq, Leads.get_eq]
    split
    · next pool _ =>
      simp only [Leads.bind_eq, Leads.set_eq, Leads.pure_eq]
      have hinterned : Faithful log { m with
          symbols := (m.symbols.intern name).1, memory := { m.memory with pool } } :=
        h.unaffected (.of_eq rfl rfl)
      refine (setConstant_unaffected _ _).mono fun _ m₁ h₁ => (hinterned.push ?_ rfl).unaffected h₁
      intro p hp
      rcases Option.or_eq_some_iff.1 hp with hp | ⟨-, hp⟩
      · exact hsuper p hp
      · split at hp
        · cases hp
        · next hne =>
          cases hp
          exact Nat.pos_of_ne_zero fun h0 => hne (by simpa using Array.size_eq_zero_iff.1 h0)
    · trivial

theorem History.faithful (h : History log m) : Faithful log m := by
  induction h with
  | blank c => exact ⟨nofun, fun _ _ => rfl, fun _ _ hid => absurd hid List.not_mem_nil, nofun⟩
  | define _ hsuper h ih => exact (ih.define _ hsuper).of_ok h
  | install _ howner h ih => exact ih.install howner h.adds
  | other _ h ih => exact ih.unaffected h

/-! ### Searching -/

theorem findSome?_eq_some_iff_getElem? {α β : Type} {f : α → Option β} {l : List α} {b : β} :
    l.findSome? f = some b ↔
      ∃ (n : Nat) (a : α), l[n]? = some a ∧ (∀ i < n, ∀ x, l[i]? = some x → f x = none) ∧ f a = some b := by
  constructor
  · intro h
    obtain ⟨l₁, a, l₂, rfl, ha, hnone⟩ := List.findSome?_eq_some_iff.1 h
    refine ⟨l₁.length, a, by simp, fun i hi x hx => hnone x ?_, ha⟩
    rw [List.getElem?_append_left hi] at hx
    exact List.mem_of_getElem? hx
  · rintro ⟨n, a, ha, hnone, hb⟩
    obtain ⟨hn, rfl⟩ := List.getElem?_eq_some_iff.1 ha
    refine List.findSome?_eq_some_iff.2 ⟨l.take n, l[n], l.drop (n + 1), ?_, hb, fun x hx => ?_⟩
    · rw [List.cons_getElem_drop_succ, List.take_append_drop]
    · obtain ⟨i, hi⟩ := List.mem_iff_getElem?.1 hx
      rw [List.getElem?_take] at hi
      split at hi
      · next hlt => exact hnone i hlt x hi
      · cases hi

namespace Faithful

theorem own_eq_some (h : Faithful log m) {id : MethodId} :
    m.ownMethod? k s = some id ↔ ∃ e, last? log k s = some e ∧ e.method = id := by
  rw [h.own, Option.map_eq_some_iff]

theorem own_eq_none (h : Faithful log m) : m.ownMethod? k s = none ↔ last? log k s = none := by
  rw [h.own, Option.map_eq_none_iff]

/-- A class answers a name with the newest installation on the first ancestor that has one. -/
theorem findMethod?_eq_some (h : Faithful log m) {id : MethodId} :
    m.findMethod? c s = some (id, k) ↔ ∃ n, m.ancestor? n c = some k ∧ Silent log m c s n ∧
      ∃ e, last? log k s = some e ∧ e.method = id := by
  simp only [findMethod?, findSome?_eq_some_iff_getElem?, lineage_getElem? h.older,
    Option.map_eq_none_iff, h.own_eq_none, Option.map_eq_some_iff, h.own_eq_some, Prod.mk.injEq]
  constructor
  · rintro ⟨n, a, ha, hsilent, _, he, rfl, rfl⟩
    exact ⟨n, ha, hsilent, he⟩
  · rintro ⟨n, ha, hsilent, he⟩
    exact ⟨n, k, ha, hsilent, id, he, rfl, rfl⟩

theorem findMethod?_eq_none (h : Faithful log m) :
    m.findMethod? c s = none ↔ ∀ n k, m.ancestor? n c = some k → last? log k s = none := by
  simp only [findMethod?, List.findSome?_eq_none_iff, List.mem_iff_getElem?,
    lineage_getElem? h.older, Option.map_eq_none_iff, h.own_eq_none]
  exact ⟨fun hall n k hk => hall k ⟨n, hk⟩, fun hall k hk => hk.elim fun n hn => hall n k hn⟩

end Faithful

theorem ancestor?_succ_eq_some {j : Nat} {b : ClassId} (hb : m.ancestor? (j + 1) c = some b) :
    ∃ p, (m.classAt c).super = some p ∧ m.ancestor? j p = some b :=
  Option.bind_eq_some_iff.1 hb

theorem Older.ancestor_le (h : m.Older) {j : Nat} {b : ClassId} (hb : m.ancestor? j c = some b) :
    b ≤ c := by
  induction j generalizing c with
  | zero =>
    cases hb
    exact Nat.le_refl _
  | succ j ih =>
    obtain ⟨p, hp, hb⟩ := ancestor?_succ_eq_some hb
    exact Nat.le_trans (ih hb) (Nat.le_of_lt (h _ p hp))

/-- Ancestors further up are older. -/
theorem Older.ancestor_lt (h : m.Older) {i j : Nat} {a b : ClassId} (hij : i < j)
    (ha : m.ancestor? i c = some a) (hb : m.ancestor? j c = some b) : b < a := by
  induction i generalizing j c with
  | zero =>
    cases ha
    obtain ⟨j, rfl⟩ := Nat.exists_eq_succ_of_ne_zero (Nat.ne_of_gt hij)
    obtain ⟨p, hp, hb⟩ := ancestor?_succ_eq_some hb
    exact Nat.lt_of_le_of_lt (h.ancestor_le hb) (h _ p hp)
  | succ i ih =>
    obtain ⟨j, rfl⟩ := Nat.exists_eq_succ_of_ne_zero (Nat.ne_zero_of_lt hij)
    obtain ⟨p, hp, ha⟩ := ancestor?_succ_eq_some ha
    obtain ⟨q, hq, hb⟩ := ancestor?_succ_eq_some hb
    cases hp.symm.trans hq
    exact ih (Nat.lt_of_succ_lt_succ hij) ha hb

theorem ancestor?_congr (h : ∀ k, (m'.classAt k).super = (m.classAt k).super) (n : Nat)
    (c : ClassId) : m'.ancestor? n c = m.ancestor? n c := by
  induction n generalizing c with
  | zero => rfl
  | succ n ih =>
    simp only [ancestor?, h]
    cases (m.classAt c).super with
    | none => rfl
    | some p => exact ih p

/-- An installation leaves superclasses as they are. -/
theorem Adds.ancestor? {e : Installation} (h : Adds e m m') (he : e.owner < m.classes.size) :
    m'.ancestor? = m.ancestor? := by
  obtain ⟨-, m₁, hu, rfl⟩ := h
  funext n c
  refine ancestor?_congr (fun k => ?_) n c
  rw [← hu.super, classAt_grow (hu.classes ▸ he)]
  split <;> rfl

section Change

variable {e : Installation} (h : Faithful log m) (he : e.owner < m.classes.size) (ha : Adds e m m')
include h he ha

/-- The new method answers where nothing below its class does. -/
theorem findMethod?_of_adds (hn : m.ancestor? n c = some e.owner)
    (hsilent : Silent log m c e.name n) : m'.findMethod? c e.name = some (e.method, e.owner) := by
  have hsame := ha.ancestor? he
  refine (h.install he ha).findMethod?_eq_some.2 ⟨n, hsame ▸ hn, fun i hi k hk => ?_, e, ?_, rfl⟩
  · rw [hsame] at hk
    rw [last?_cons, if_neg fun heq => ?_]
    · exact hsilent i hi k hk
    · exact Nat.lt_irrefl _ (heq.1 ▸ h.older.ancestor_lt hi hk hn)
  · rw [last?_cons, if_pos ⟨rfl, rfl⟩]

omit he in
theorem findMethod?_ne_of_adds : m.findMethod? c s ≠ some (e.method, e.owner) := by
  intro heq
  obtain ⟨n, -, -, e', he', hid⟩ := h.findMethod?_eq_some.1 heq
  have hlt := (h.logged e' (List.mem_of_find?_eq_some he')).2.1
  exact Nat.lt_irrefl _ (ha.1 ▸ hid ▸ hlt)

/-- Other answers stay. -/
theorem findMethod?_same_of_adds
    (hother : ¬(s = e.name ∧ ∃ n, m.ancestor? n c = some e.owner ∧ Silent log m c e.name n)) :
    m'.findMethod? c s = m.findMethod? c s := by
  have hsame := ha.ancestor? he
  have hlast : ∀ n k, m.ancestor? n c = some k → Silent log m c s n →
      last? (e :: log) k s = last? log k s := by
    intro n k hk hsilent
    rw [last?_cons, if_neg]
    rintro ⟨rfl, rfl⟩
    exact hother ⟨rfl, n, hk, hsilent⟩
  have hsilent : ∀ n, Silent (e :: log) m' c s n ↔ Silent log m c s n := by
    intro n
    induction n with
    | zero => exact iff_of_true (fun _ hi => nomatch hi) fun _ hi => nomatch hi
    | succ n ih =>
      rw [silent_succ, silent_succ, ih, hsame]
      refine and_congr_right fun hs => forall_congr' fun k => ?_
      exact imp_congr_right fun hk => by rw [hlast n k hk hs]
  refine Option.ext fun ⟨id, k⟩ => ?_
  rw [(h.install he ha).findMethod?_eq_some, h.findMethod?_eq_some]
  refine exists_congr fun n => ?_
  rw [hsame, hsilent]
  refine and_congr_right fun hk => and_congr_right fun hs => ?_
  rw [hlast n k hk hs]

end Change

/-! ### New machines -/

/-- None of the names was interned yet, and constants are bound to names that were. -/
structure Unheard (names : List Text) (m : Machine) : Prop where
  names : ∀ name ∈ names, m.symbols.lookup? name = none
  constants : ∀ x ∈ m.constants, x.1 < m.symbols.names.size

theorem intern_of_lookup? {t : SymbolTable} {name : Text} (h : t.lookup? name = none) :
    t.intern name = ({ ids := t.ids.insert name t.names.size, names := t.names.push name },
      t.names.size) := by
  rw [SymbolTable.intern, h]

theorem lookup?_intern {t : SymbolTable} {name other : Text} (hne : name ≠ other) :
    (t.intern name).1.lookup? other = t.lookup? other := by
  rw [SymbolTable.intern]
  split
  · rfl
  · simp only [SymbolTable.lookup?, Std.TreeMap.getElem?_insert]
    rw [if_neg fun h => hne (Std.LawfulEqOrd.eq_of_compare h)]

theorem size_intern (t : SymbolTable) (name : Text) :
    t.names.size ≤ (t.intern name).1.names.size := by
  rw [SymbolTable.intern]
  split
  · exact Nat.le_refl _
  · simp

theorem Unheard.intern {names : List Text} {name : Text} (h : Unheard names m) (hne : name ∉ names) :
    Unheard names { m with symbols := (m.symbols.intern name).1 } where
  names other hother := by
    rw [← h.names other hother]
    exact lookup?_intern fun heq => hne (heq ▸ hother)
  constants x hx := Nat.lt_of_lt_of_le (h.constants x hx) (size_intern _ _)

theorem Unheard.tail {names : List Text} {name : Text} (h : Unheard (name :: names) m) :
    Unheard names m :=
  ⟨fun other hother => h.names other (List.mem_cons_of_mem _ hother), h.constants⟩

/-- A name that was not heard of becomes the name of a new class, unless the pool has no room. -/
theorem defineClass_new {names : List Text} {name : Text} (super : Option ClassId)
    (h : Unheard (name :: names) m) (hne : name ∉ names) :
    Leads (fun f _ => f = .fatal (.noMemoryForClass name) ∧ m.memory.pool.pin? classBytes = none)
      (defineClass name super) m fun _ m' =>
        m'.classes.size = m.classes.size + 1 ∧ Unheard names m' ∧ m'.config = m.config ∧
        m.memory.pool.pin? classBytes = some m'.memory.pool ∧
        m'.symbols = (m.symbols.intern name).1 := by
  have hfresh := intern_of_lookup? (h.names name List.mem_cons_self)
  have hrest : Unheard names { m with symbols := (m.symbols.intern name).1 } := h.tail.intern hne
  have hunbound : m.constants.lookup (m.symbols.intern name).2 = none := by
    rw [List.lookup_eq_none_iff, hfresh]
    intro x hx
    exact bne_iff_ne.2 (Nat.ne_of_gt (h.constants x hx))
  have hnew : (m.symbols.intern name).2 < (m.symbols.intern name).1.names.size := by
    rw [hfresh]
    simp
  simp only [defineClass, Machine.intern, Leads.bind_eq, Leads.modifyGet_eq, Leads.get_eq, constant?,
    hunbound]
  split
  · next pool hpool =>
    simp only [setConstant, acquire, Value.ref?, constant?, hunbound, Leads.bind_eq, Leads.set_eq,
      Leads.get_eq, Leads.modify_eq, Leads.pure_eq]
    refine ⟨Array.size_push _, ⟨hrest.names, fun x hx => ?_⟩, trivial, hpool, trivial⟩
    rcases mem_rebind hx with rfl | hx
    · exact hnew
    · exact hrest.constants x hx
  · next hnone => exact ⟨rfl, Option.eq_none_iff_forall_ne_some.2 hnone⟩

theorem defineClasses_history (cs : List (Text × ClassId)) (h : History log m)
    (hu : Unheard (cs.map (·.1)) m) (hdistinct : (cs.map (·.1)).Nodup)
    (horder : ∀ x ∈ cs.zipIdx m.classes.size, x.1.2 < x.2) :
    Leads AnyFault (defineClasses cs) m fun _ m' =>
      History log m' ∧ m'.classes.size = m.classes.size + cs.length := by
  induction cs generalizing m with
  | nil => exact ⟨h, rfl⟩
  | cons x cs ih =>
    obtain ⟨name, super⟩ := x
    obtain ⟨hne, hdistinct⟩ := List.nodup_cons.1 hdistinct
    rw [List.zipIdx_cons] at horder
    simp only [defineClasses, Leads.bind_eq, Leads.discard_eq]
    refine ((Leads.named _).and (defineClass_new _ hu hne)).mono ?_
    rintro c m₁ ⟨h₁, hsize, hu₁, -⟩
    have hm₁ : History log m₁ := by
      refine h.define (fun k hk => ?_) h₁
      cases hk
      exact horder _ List.mem_cons_self
    refine (ih hm₁ hu₁ hdistinct ?_).mono fun _ m₂ h₂ => ⟨h₂.1, ?_⟩
    · exact fun y hy => horder y (List.mem_cons_of_mem _ (hsize ▸ hy))
    · rw [h₂.2, hsize, List.length_cons]
      omega

theorem defineNative?_history (h : History log m) (hc : c < m.classes.size) (name : Text)
    (native : Native) :
    Leads AnyFault (defineNative? c name native) m fun _ m' =>
      (∃ log', History log' m') ∧ m'.classes.size = m.classes.size := by
  have hrefused : Leads AnyFault (defineNative? c name native) m fun r m' =>
      r = none → Unaffected m m' := by
    simp only [defineNative?, Leads.bind_eq]
    refine (chargeMethod_leads c).mono ?_
    rintro granted _ ⟨pool, rfl⟩
    split
    · simp only [Leads.bind_eq]
      exact (Leads.named _).mono fun _ _ _ => (Leads.named _).mono fun _ _ _ h => absurd h (by simp)
    · exact fun _ => .of_eq rfl rfl
  refine ((Leads.named _).and (hrefused.and (defineNative?_adds c name native))).mono ?_
  rintro (_ | id) m₁ ⟨h₁, hnone, hsome⟩
  · exact ⟨⟨log, h.other (hnone rfl)⟩, congrArg Array.size (hnone rfl).classes⟩
  · obtain ⟨-, m₂, hu, rfl⟩ := hsome id rfl
    exact ⟨⟨_, h.install (e := ⟨c, _, id, _⟩) hc (.native h₁)⟩, Array.size_modify.trans hu.classes⟩

theorem defineNatives_history (ns : List (ClassId × Text × Native)) (h : History log m)
    (hns : ∀ x ∈ ns, x.1 < m.classes.size) :
    Leads AnyFault (defineNatives ns) m fun _ m' =>
      (∃ log', History log' m') ∧ m'.classes.size = m.classes.size := by
  induction ns generalizing log m with
  | nil => exact ⟨⟨log, h⟩, rfl⟩
  | cons x ns ih =>
    simp only [defineNatives, Leads.bind_eq, Leads.discard_eq]
    refine (defineNative?_history h (hns x List.mem_cons_self) _ _).mono ?_
    rintro _ m₁ ⟨⟨log₁, h₁⟩, hsize⟩
    refine (ih h₁ fun y hy => ?_).mono fun _ m₂ h₂ => ⟨h₂.1, h₂.2.trans hsize⟩
    exact hsize ▸ hns y (List.mem_cons_of_mem _ hy)

theorem bootstrap_history (h : History log m) (hempty : m.classes = #[])
    (hu : Unheard ("Object" :: coreClasses.map (·.1)) m) :
    Leads AnyFault bootstrap m fun _ m' => ∃ log', History log' m' := by
  have hcore : ∀ x ∈ coreMethods, x.1 < 16 := by decide
  have hdebug : ∀ x ∈ debugMethods, x.1 < 16 := by decide
  have hmain : ∀ (log' : List Installation) (m₁ : Machine), History log' m₁ →
      Leads AnyFault (newInstance .object) m₁ fun v m₂ =>
        Leads AnyFault (do
          if v.isNil then fatal .noMemoryForMain
          modify fun m => { m with topSelf := v }) m₂ fun _ m' => ∃ log', History log' m' := by
    intro log' m₁ h₁
    have hunaffected : Leads AnyFault (newInstance .object) m₁ fun _ m₂ => Unaffected m₁ m₂ := by
      simp only [newInstance, allocate?, Leads.bind_eq, Leads.modifyGet_eq]
      split <;> split <;> exact Unaffected.of_eq rfl rfl
    refine hunaffected.mono fun v m₂ hu₂ => ?_
    split
    · trivial
    · exact ⟨log', (h₁.other hu₂).other (.of_eq rfl rfl)⟩
  simp only [bootstrap, Machine.intern, Leads.bind_eq, Leads.discard_eq, Leads.modifyGet_eq,
    Leads.get_eq]
  have hinterned : History log { m with symbols := (m.symbols.intern []).1 } :=
    h.other (.of_eq rfl rfl)
  refine ((Leads.named _).and (defineClass_new none (hu.intern (by decide)) (by decide))).mono ?_
  rintro c m₁ ⟨h₁, hsize₁, hu₁, -⟩
  have hone : m₁.classes.size = 1 := by
    rw [hsize₁, hempty]
    rfl
  have hm₁ : History log m₁ := hinterned.define (by rintro k ⟨⟩) h₁
  refine (defineClasses_history coreClasses hm₁ hu₁ (by decide) (by rw [hone]; decide)).mono ?_
  rintro _ m₂ ⟨hm₂, hsize₂⟩
  have hsixteen : m₂.classes.size = 16 := by
    rw [hsize₂, hone]
    rfl
  have hm₃ : ∀ t : SymbolTable, History log { m₂ with symbols := t } :=
    fun t => hm₂.other (.of_eq rfl rfl)
  refine (defineNatives_history coreMethods (hm₃ _) fun x hx => ?_).mono ?_
  · exact Nat.lt_of_lt_of_eq (hcore x hx) hsixteen.symm
  rintro _ m₄ ⟨⟨log₄, hm₄⟩, hsize₄⟩
  split
  · simp only [Leads.bind_eq]
    refine (defineNatives_history debugMethods hm₄ fun x hx => ?_).mono ?_
    · exact Nat.lt_of_lt_of_eq (hdebug x hx) (hsize₄.trans hsixteen).symm
    · rintro _ m₅ ⟨⟨log₅, hm₅⟩, -⟩
      exact hmain log₅ m₅ hm₅
  · rw [Leads.bind_eq]
    exact hmain log₄ m₄ hm₄

/-- A new machine has a history. -/
theorem create_history {c : Config} (h : create c = .ok m) : ∃ log, History log m := by
  have hboot := bootstrap_history (.blank (effective c)) rfl ⟨fun _ _ => rfl, nofun⟩
  unfold create at h
  split at h
  · next hm =>
    cases h
    exact hboot.of_ok hm
  · cases h

end Machine

open Machine

/-- Methods are found as the log of installations says. A class answers a name with the newest
method that was installed under it on the first of the class, its superclass, and so on, that ever
had one installed; it has no answer just when none of them had. What is found has the body that was
installed. One more installation changes the answer of a class to a name just when it is of this
name, its owner is the class or above it, and nothing below its owner had the name installed: then
the new method is the answer. -/
theorem method_resolution {log : List Installation} {m : Machine} (h : History log m) (c : ClassId)
    (s : Symbol) :
    (∀ id k, m.findMethod? c s = some (id, k) ↔ ∃ n, m.ancestor? n c = some k ∧
      Silent log m c s n ∧ ∃ e, last? log k s = some e ∧ e.method = id) ∧
    (m.findMethod? c s = none ↔
      ∀ e ∈ log, e.name = s → ∀ n, m.ancestor? n c ≠ some e.owner) ∧
    (∀ e ∈ log, (m.methodAt e.method).symbol = e.name ∧ (m.methodAt e.method).body = e.body) ∧
    ∀ e m', e.owner < m.classes.size → Installs e m m' →
      (m'.findMethod? c s ≠ m.findMethod? c s ↔
        s = e.name ∧ ∃ n, m.ancestor? n c = some e.owner ∧ Silent log m c s n) ∧
      (m'.findMethod? c s ≠ m.findMethod? c s → m'.findMethod? c s = some (e.method, e.owner)) := by
  have hf := h.faithful
  refine ⟨fun id k => hf.findMethod?_eq_some, ?_, fun e he => (hf.logged e he).2.2, ?_⟩
  · rw [hf.findMethod?_eq_none]
    refine ⟨fun hall e he hname n hn => ?_, fun hall n k hk => ?_⟩
    · have hnone := List.find?_eq_none.1 (hall n _ hn) e he
      simp [hname] at hnone
    · refine List.find?_eq_none.2 fun e he heq => ?_
      simp only [Bool.and_eq_true, beq_iff_eq] at heq
      exact hall e he heq.2 n (heq.1 ▸ hk)
  · intro e m' he hi
    have ha := hi.adds
    have hnew : (s = e.name ∧ ∃ n, m.ancestor? n c = some e.owner ∧ Silent log m c s n) →
        m'.findMethod? c s = some (e.method, e.owner) := by
      rintro ⟨rfl, n, hn, hsilent⟩
      exact findMethod?_of_adds hf he ha hn hsilent
    have hchange : m'.findMethod? c s ≠ m.findMethod? c s →
        s = e.name ∧ ∃ n, m.ancestor? n c = some e.owner ∧ Silent log m c s n := by
      intro hne
      by_contra hother
      refine hne (findMethod?_same_of_adds hf he ha fun ⟨hs, n, hn, hsilent⟩ => hother ⟨hs, n, hn, ?_⟩)
      exact hs ▸ hsilent
    refine ⟨⟨hchange, fun hcond heq => ?_⟩, fun hne => hnew (hchange hne)⟩
    exact findMethod?_ne_of_adds hf ha (heq.symm.trans (hnew hcond))

/-- Code takes the place of a native, and a subclass answers with it. -/
theorem method_resolution_subclass :
    ∃ log m e m' c old, History log m ∧ Installs e m m' ∧ e.owner < m.classes.size ∧
      m.ancestor? 1 c = some e.owner ∧ m.findMethod? c e.name = some (old, e.owner) ∧
      m'.findMethod? c e.name = some (e.method, e.owner) := by
  have hrun : ∃ m₀ ∈ (create {}).toOption,
      Leads NoFault (defineClass "Base" none) m₀ fun b m₁ => b < m₁.classes.size ∧
        Leads NoFault (defineClass "Derived" (some b)) m₁ fun d m₂ => b < m₂.classes.size ∧
          Leads NoFault (defineNative? b "run" .isNil) m₂ fun r m₃ => (r.isSome &&
            b < m₃.classes.size && m₃.ancestor? 1 d == some b &&
            m₃.findMethod? d (m₂.symbols.intern "run").2 == r.map (·, b)) ∧
            Leads NoFault (installCode? b (m₂.symbols.intern "run").2 copyString.root) m₃
              fun r' m' => r'.isSome && m'.findMethod? d (m₂.symbols.intern "run").2 != r.map (·, b) := by
    decide +kernel
  obtain ⟨m₀, hm₀, hbase⟩ := hrun
  obtain ⟨log, h₀⟩ := create_history (create_of_toOption hm₀)
  obtain ⟨b, m₁, h₁, hb₁, hderived⟩ := hbase.exists_ok
  obtain ⟨d, m₂, h₂, hb₂, hnative⟩ := hderived.exists_ok
  obtain ⟨r, m₃, h₃, hbefore, hcode⟩ := hnative.exists_ok
  simp only [Bool.and_eq_true, beq_iff_eq, decide_eq_true_eq] at hbefore
  obtain ⟨⟨⟨hr, hb₃⟩, hparent⟩, hold⟩ := hbefore
  obtain ⟨r', m', h₄, hafter⟩ := hcode.exists_ok
  obtain ⟨hr', hnew⟩ := Bool.and_eq_true_iff.1 hafter
  obtain ⟨old, rfl⟩ := Option.isSome_iff_exists.1 hr
  obtain ⟨id, rfl⟩ := Option.isSome_iff_exists.1 hr'
  have hm₁ := h₀.define (by rintro k ⟨⟩) h₁
  have hm₂ := hm₁.define (by rintro k ⟨⟩; exact hb₁) h₂
  have hm₃ := hm₂.install hb₂ (.native h₃)
  have hi := Installs.code h₄
  refine ⟨_, m₃, _, m', d, old, hm₃, hi, hb₃, hparent, hold, ?_⟩
  exact ((method_resolution hm₃ d _).2.2.2 _ m' hb₃ hi).2 fun heq => bne_iff_ne.1 hnew (heq.trans hold)

end ObjectMachine
