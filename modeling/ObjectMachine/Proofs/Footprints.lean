import ObjectMachine.Proofs.Bootstrapping
import ObjectMachine.Proofs.Compliance
import ObjectMachine.Proofs.Instances

/-! Footprints of actions. Whatever an action does, symbols keep their names, an instance that is
still live was live before, and its variables are what they were, but for those in the footprint
of the action. Most actions have none: they free objects and make new ones, and they store
variables of new copies alone. -/

namespace ObjectMachine

namespace SymbolTable

variable {t : SymbolTable} {other : Text} {s : Symbol} {names : List Text}

theorem internAll_append (t : SymbolTable) (xs ys : List Text) :
    (t.internAll (xs ++ ys)).1 = ((t.internAll xs).1.internAll ys).1 := by
  induction xs generalizing t with
  | nil => rfl
  | cons x xs ih => exact ih _

theorem lookup?_internAll_of_some (h : t.lookup? other = some s) :
    (t.internAll names).1.lookup? other = some s := by
  induction names generalizing t with
  | nil => exact h
  | cons name names ih => exact ih (lookup?_intern_of_some h)

theorem Inverse.internAll (h : t.Inverse) (names : List Text) : (t.internAll names).1.Inverse := by
  induction names generalizing t with
  | nil => exact h
  | cons name names ih => exact ih (h.intern name)

theorem Inverse.name_eq (h : t.Inverse) (hs : t.lookup? other = some s) : t.name s = other := by
  rw [name, Array.getD_eq_getD_getElem?, h other s hs]
  rfl

/-- The numbers that are given are those of the names. -/
theorem lookup?_of_internAll {j : Nat} (h : (t.internAll names).2[j]? = some s) :
    ∃ name, names[j]? = some name ∧ (t.internAll names).1.lookup? name = some s := by
  induction names generalizing t j with
  | nil => cases h
  | cons name names ih =>
    cases j with
    | zero =>
      cases h
      have hself : ((t.intern name).1.internAll names).1.lookup? name = some (t.intern name).2 :=
        lookup?_internAll_of_some (lookup?_intern_self t name)
      exact ⟨name, rfl, hself⟩
    | succ j => exact ih h

end SymbolTable

/-- A body as it was, but for variables that `ok` allows. -/
inductive Body.Keeps (ok : Symbol → Prop) : Body → Body → Prop
  | same (b : Body) : Keeps ok b b
  | object (c : ClassId) {t t' : VariableTable} (h : ∀ k, t'.get? k = t.get? k ∨ ok k) :
      Keeps ok (.object c t) (.object c t')

theorem Body.Keeps.mono {ok ok' : Symbol → Prop} {b b' : Body} (h : Keeps ok b b')
    (hok : ∀ k, ok k → ok' k) : Keeps ok' b b' := by
  cases h with
  | same => exact .same _
  | object c h => exact .object c fun k => (h k).imp_right (hok k)

theorem Body.Keeps.trans {ok : Symbol → Prop} {b b₁ b' : Body} (h : Keeps ok b b₁)
    (h' : Keeps ok b₁ b') : Keeps ok b b' := by
  cases h with
  | same => exact h'
  | object c h =>
    cases h' with
    | same => exact .object c h
    | object _ h' =>
      refine .object c fun k => ?_
      rcases h' k with heq | hk
      · exact (h k).imp_left heq.trans
      · exact .inr hk

namespace Memory

variable {μ μ' : Memory} {r : Ref} {t : VariableTable}

def table? (μ : Memory) (r : Ref) : Option VariableTable :=
  match μ.body? r with
  | some (.object _ t) => some t
  | _ => none

theorem table?_eq_some : μ.table? r = some t ↔ ∃ c, μ.body? r = some (.object c t) := by
  unfold table?
  rcases μ.body? r with - | (- | - | -)
  · simp
  · simp
  · simp
  · simp

theorem Outlasts.table? (h : μ.Outlasts μ') (ht : μ'.table? r = some t) : μ.table? r = some t := by
  obtain ⟨c, hbody⟩ := table?_eq_some.1 ht
  exact table?_eq_some.2 ⟨c, h r _ hbody⟩

theorem body?_congr (h : μ'.heap[r]? = μ.heap[r]?) : μ'.body? r = μ.body? r := by
  rw [body?, body?, countAt, countAt, h]

end Memory

namespace Machine

open Memory

variable {W : Ref → Text → Prop} {m m₁ m' : Machine} {v : Value} {r : Ref} {k : Symbol} {w : Window}

def stored? (m : Machine) (r : Ref) (k : Symbol) : Option Value :=
  (m.memory.table? r).bind (·.get? k)

/-- Names are interned, objects are made and freed, and of older objects only variables that `W`
allows are written. -/
structure Persists (W : Ref → Text → Prop) (m m' : Machine) : Prop where
  names : ∃ names, m'.symbols = (m.symbols.internAll names).1
  size : m.memory.heap.size ≤ m'.memory.heap.size
  bodies : ∀ r b', r < m.memory.heap.size → m'.memory.body? r = some b' →
    ∃ b, m.memory.body? r = some b ∧
      b.Keeps (fun k => ∃ name, W r name ∧ m'.symbols.lookup? name = some k) b'

namespace Persists

theorem lookup? (h : Persists W m m') {name : Text} (hk : m.symbols.lookup? name = some k) :
    m'.symbols.lookup? name = some k := by
  obtain ⟨names, heq⟩ := h.names
  rw [heq]
  exact SymbolTable.lookup?_internAll_of_some hk

theorem trans (h : Persists W m m₁) (h' : Persists W m₁ m') : Persists W m m' where
  names := by
    obtain ⟨names, heq⟩ := h.names
    obtain ⟨names', heq'⟩ := h'.names
    exact ⟨names ++ names', by rw [heq', heq, SymbolTable.internAll_append]⟩
  size := Nat.le_trans h.size h'.size
  bodies r b' hr hb' := by
    obtain ⟨b₁, hb₁, hkeeps'⟩ := h'.bodies r b' (Nat.lt_of_lt_of_le hr h.size) hb'
    obtain ⟨b, hb, hkeeps⟩ := h.bodies r b₁ hr hb₁
    refine ⟨b, hb, (hkeeps.mono ?_).trans hkeeps'⟩
    rintro k ⟨name, hname, hk⟩
    exact ⟨name, hname, h'.lookup? hk⟩

/-- Objects are freed. -/
theorem of_outlasts (hsymbols : m'.symbols = m.symbols) (h : m.memory.Outlasts m'.memory)
    (hsize : m'.memory.heap.size = m.memory.heap.size) : Persists W m m' where
  names := ⟨[], hsymbols⟩
  size := Nat.le_of_eq hsize.symm
  bodies r b _ hb := ⟨b, h r b hb, .same b⟩

theorem of_same (hsymbols : m'.symbols = m.symbols) (hheap : m'.memory.heap = m.memory.heap) :
    Persists W m m' :=
  of_outlasts hsymbols (fun _ _ hb => (body?_congr (by rw [hheap])).symm.trans hb)
    (congrArg Array.size hheap)

theorem refl (m : Machine) : Persists W m m := of_same rfl rfl

/-- An object is made. -/
theorem of_push {o : HeapObject} (hsymbols : m'.symbols = m.symbols)
    (hheap : m'.memory.heap = m.memory.heap.push o) : Persists W m m' where
  names := ⟨[], hsymbols⟩
  size := by
    rw [hheap, Array.size_push]
    exact Nat.le_succ _
  bodies r b hr hb := by
    refine ⟨b, ?_, .same b⟩
    rw [← hb, body?_congr]
    rw [hheap, Array.getElem?_push_lt hr, ← Array.getElem?_eq_getElem hr]

theorem tables (h : Persists W m m') {t' : VariableTable} (hr : r < m.memory.heap.size)
    (ht' : m'.memory.table? r = some t') : ∃ t, m.memory.table? r = some t ∧
      ∀ k, t'.get? k = t.get? k ∨ ∃ name, W r name ∧ m'.symbols.lookup? name = some k := by
  obtain ⟨c, hbody⟩ := table?_eq_some.1 ht'
  obtain ⟨b, hb, hkeeps⟩ := h.bodies r _ hr hbody
  cases hkeeps with
  | same => exact ⟨t', table?_eq_some.2 ⟨c, hb⟩, fun _ => .inl rfl⟩
  | object _ hsame => exact ⟨_, table?_eq_some.2 ⟨c, hb⟩, hsame⟩

/-- An instance that is still live is an instance. -/
theorem table?_isSome (h : Persists W m m') {t : VariableTable} (ht : m.memory.table? r = some t)
    (hlive : m'.memory.Live (.object r)) : ∃ t', m'.memory.table? r = some t' := by
  obtain ⟨c, hbody⟩ := table?_eq_some.1 ht
  obtain ⟨hr, -⟩ := getElem_of_body? hbody
  have hr' : r < m'.memory.heap.size := hlive.lt_size rfl
  have hbody' := body?_of_getElem hr'
  rw [if_neg (by rw [← countAt_of_getElem hr']; exact hlive r rfl)] at hbody'
  obtain ⟨b, hb, hkeeps⟩ := h.bodies r _ hr hbody'
  cases hbody.symm.trans hb
  generalize hb' : m'.memory.heap[r].body = b' at hbody' hkeeps
  cases hkeeps with
  | same => exact ⟨t, table?_eq_some.2 ⟨c, hbody'⟩⟩
  | object => exact ⟨_, table?_eq_some.2 ⟨c, hbody'⟩⟩

/-- A variable outside the footprint is what it was, while its instance lives. -/
theorem stored?_eq (h : Persists W m m') {t : VariableTable} (hr : r < m.memory.heap.size)
    (ht : m'.memory.table? r = some t)
    (hW : ∀ name, W r name → m'.symbols.lookup? name ≠ some k) : m'.stored? r k = m.stored? r k := by
  obtain ⟨t₀, ht₀, hsame⟩ := h.tables hr ht
  rw [stored?, stored?, ht, ht₀]
  exact (hsame k).resolve_right fun ⟨name, hname, hk⟩ => hW name hname hk

end Persists

/-! ### Actions -/

def Persisting {α : Type} (W : Ref → Text → Prop) (x : Action α) : Prop :=
  ∀ m, Leads AnyFault x m fun _ m' => Persists W m m'

def footprint (W : Ref → Text → Prop) (a : Machine) : Regime :=
  ⟨Persists W a, fun _ => True, fun _ => True⟩

variable {α : Type} {Q : α → Prop} {x : Action α} {a : Machine}

theorem Persisting.gives (h : Persisting W x) (hq : ∀ b, Q b) : (footprint W a).Gives Q x := by
  intro m hm
  exact (h m).imp (fun _ _ _ => trivial) fun b _ h' => ⟨Persists.trans hm h', hq b⟩

/-- What is left by an action with the footprint, after others with it. -/
theorem Persists.leads (h : Persists W a m) (hx : (footprint W a).Keeps x) :
    Leads AnyFault x m fun _ m' => Persists W a m' :=
  (hx m h).imp (fun _ _ _ => trivial) fun _ _ h' => h'.1

theorem Persists.of_ok {b : α} (hx : (footprint W m).Keeps x) (h : x m = .ok b m') : Persists W m m' :=
  ((Persists.refl m).leads hx).of_ok h

theorem core_footprint : (footprint W a).Core := fun _ _ => trivial

theorem owes_footprint (d : Duty) : (footprint W a).Owes d := .of_knows (fun _ => trivial) d

/-! ### The actions that all others are made of -/

theorem release_persists (v : Value) : Persisting W (release v) :=
  fun _ => (release_outlasts v).mono fun _ m' ⟨halone, houtlasts, hsize⟩ =>
    .of_outlasts (by rw [halone]) houtlasts hsize

theorem acquire_persists (v : Value) : Persisting W (acquire v) := by
  intro m
  refine .intro (fun _ m' hm' => ?_) fun _ _ _ => trivial
  have hv := (acquire_live v).of_ok hm'
  obtain ⟨μ, hμ, hcounts⟩ := acquire_ok hv
  cases hμ.symm.trans hm'
  exact .of_outlasts rfl (fun r b hb => (hcounts.body?_of_live hv r).symm.trans hb) hcounts.size

theorem allocate?_persists (size : Int64) (body : ObjectMachine.Body) :
    Persisting W (allocate? size body) := by
  intro m
  simp only [allocate?, Leads.modifyGet_eq]
  cases ha : m.memory.allocate? size body with
  | none => exact Persists.refl m
  | some x =>
    obtain ⟨pool, -, rfl⟩ := Option.map_eq_some_iff.1 ha
    exact Persists.of_push rfl rfl

theorem interned_persists (names : List Text) :
    Persists W m { m with symbols := (m.symbols.internAll names).1 } :=
  ⟨⟨names, rfl⟩, Nat.le_refl _, fun _ b _ hb => ⟨b, hb, .same b⟩⟩

instance : (footprint W a).Lawful where
  halts _ := trivial
  names _ := .of_knows fun _ => trivial
  mild h hmild _ := Persists.trans h (.of_same hmild.symbols hmild.heap)
  interned names h := Persists.trans h (interned_persists names)
  release_keeps v := (release_persists v).gives fun _ => trivial
  acquire_keeps v := (acquire_persists v).gives fun _ => trivial
  allocate?_keeps size body _ := (allocate?_persists size body).gives fun _ => trivial
  addMethod_keeps _ _ _ h := ⟨Persists.trans h (.of_same rfl rfl), trivial⟩
  unlink_keeps _ _ _ h := ⟨Persists.trans h (.of_same rfl rfl), trivial⟩

/-! ### Variables and classes -/

/-- The variable that is stored is in the footprint. -/
theorem setVariable_persists {obj : Value} {s : Symbol} {name : Text}
    (hs : m.symbols.lookup? name = some s) (hW : ∀ r, obj = .object r → W r name) (v : Value) :
    Leads AnyFault (setVariable obj s v) m fun _ m' => Persists W m m' := by
  cases obj with
  | object r =>
    refine (setVariable_stored r s v).mono fun _ m' h => ?_
    have hsymbols : m'.symbols = m.symbols := by rw [h.alone]
    refine ⟨⟨[], hsymbols⟩, Nat.le_of_eq h.size.symm, fun q b' _ hb' => ?_⟩
    by_cases hq : q = r
    · subst hq
      rcases h.own b' hb' with ⟨hb, -⟩ | ⟨c, t, ht, rfl⟩
      · exact ⟨b', hb, .same b'⟩
      · refine ⟨_, ht, .object c fun k => ?_⟩
        rw [VariableTable.get?_after]
        split
        · next hk => exact .inr ⟨name, hW q rfl, by rw [hsymbols, hs, hk.1]⟩
        · exact .inl rfl
    · exact ⟨b', h.others q hq b' hb', .same b'⟩
  | _ => exact Persists.refl m

/-- The variables of a new instance are those of no older one. -/
theorem Persists.putVariables (h : Persists W m m₁) (hr : m.memory.heap.size ≤ r)
    (t : VariableTable) (pool : Pool) :
    Leads AnyFault (putVariables r t pool) m₁ fun _ m' => Persists W m m' := by
  simp only [Machine.putVariables, Leads.modify_eq]
  refine ⟨h.names, h.size.trans (Nat.le_of_eq Array.size_modify.symm), fun q b' hq hb' => ?_⟩
  refine h.bodies q b' hq ?_
  rw [← hb', body?_congr]
  rw [Array.getElem?_modify, if_neg (Nat.ne_of_gt (Nat.lt_of_lt_of_le hq hr))]

theorem dupInstance_persists (obj : Value) : Persisting W (dupInstance obj) := by
  intro m
  simp only [dupInstance, Leads.bind_eq, Leads.get_eq]
  split
  · exact Persists.refl m
  · next c t _ =>
    simp only [Leads.bind_eq]
    refine ((Persists.refl (W := W) m).leads (mustBeLive_clerical obj).keeps).mono fun _ m₁ h₁ => ?_
    simp only [newInstance, allocate?, Leads.bind_eq, Leads.modifyGet_eq]
    cases ha : m₁.memory.allocate? instanceBytes (.object c {}) with
    | none => exact h₁
    | some x =>
      obtain ⟨pool, -, rfl⟩ := Option.map_eq_some_iff.1 ha
      simp only [Leads.bind_eq, Leads.pure_eq, Leads.get_eq]
      have hmade : Persists W m { m₁ with memory :=
          { m₁.memory with
            pool
            heap := m₁.memory.heap.push ⟨1, instanceBytes, .object c {}⟩
            live := m₁.memory.live + 1 } } :=
        h₁.trans (.of_push rfl rfl)
      split
      · simp only [Leads.bind_eq, Leads.pure_eq]
        refine (hmade.putVariables h₁.size _ _).mono fun _ m₂ h₂ => ?_
        exact h₂.leads (Regime.acquireAll_keeps _)
      · exact hmade

theorem defineClass_persists (name : Text) (super : Option ClassId) :
    Persisting W (defineClass name super) := by
  intro m
  simp only [defineClass, Leads.bind_eq, Leads.get_eq]
  refine ((Persists.refl (W := W) m).leads (intern_clerical name).keeps).mono fun s m₁ h₁ => ?_
  split
  · exact h₁
  · trivial
  · simp only [Leads.bind_eq, Leads.get_eq]
    split
    · simp only [Leads.bind_eq, Leads.set_eq, Leads.pure_eq]
      exact Persists.leads (h₁.trans (.of_same rfl rfl)) (Regime.setConstant_keeps s fun _ _ => trivial)
    · trivial

instance : (footprint W a).Complete :=
  .of_chain (fun _ _ h => Persists.trans h (.of_same rfl rfl)) fun obj =>
    (dupInstance_persists obj).gives fun _ _ _ => trivial

end Machine

end ObjectMachine
