import Mathlib.Logic.Relation
import ObjectMachine.Proofs.Climbing
import ObjectMachine.Proofs.Hosting

/-! The tree of classes in the course of time. Whatever a host does and whatever code it runs, every
class but `Object` has a superclass, and keeps it. The way up from a class never meets a class
twice and ends at `Object`, so the loops that go up end, and inheritance is an order. -/

namespace ObjectMachine

/-- What can happen to a machine next. -/
inductive Event
  | perform (op : Operation)
  | enter (code : Code)
  | tick
  | leave (result : Value)

def Event.Known (g : ClassGraph) : Event → Prop
  | perform op => op.Known g
  | _ => True

namespace Machine

def after {α : Type} (x : Action α) (m : Machine) : Machine :=
  match x m with
  | .ok _ m' | .error _ m' => m'

def next (m : Machine) : Event → Machine
  | .perform op => after op.perform m
  | .enter code => after (enterUnit code) m
  | .tick => after tick m
  | .leave result => after (leaveUnit result) m

/-- What `m` can become in the hands of a host that names no classes but those of the machine. -/
inductive Evolves (m : Machine) : Machine → Prop
  | refl : Evolves m m
  | step {m' : Machine} (e : Event) (h : Evolves m m') (he : e.Known m'.classGraph) :
      Evolves m (m'.next e)

variable {m m₀ m₁ m' : Machine} {c d k : ClassId}

theorem Growing.after {α : Type} {x : Action α} (h : Growing x m) :
    WellRooted (after x m) ∧ m.classGraph.Extends (after x m).classGraph := by
  unfold Machine.after
  split
  · next hx => exact Leads.of_ok h hx
  · next hx => exact Leads.of_error h hx

theorem WellRooted.next (h : WellRooted m) {e : Event} (he : e.Known m.classGraph) :
    WellRooted (m.next e) ∧ m.classGraph.Extends (m.next e).classGraph := by
  cases e with
  | perform op => exact (op.perform_growing h he).after
  | enter code => exact (Growing.of_gives h (Regime.enterUnit_keeps (core_naming h.core) code)).after
  | tick => exact (tick_growing h).after
  | leave result => exact (Growing.of_gives h (Regime.leaveUnit_keeps result)).after

theorem WellRooted.evolves (h : WellRooted m) (he : Evolves m m') :
    WellRooted m' ∧ m.classGraph.Extends m'.classGraph := by
  induction he with
  | refl => exact ⟨h, .refl _⟩
  | step e _ hknown ih =>
    obtain ⟨hnext, hext⟩ := ih.1.next hknown
    exact ⟨hnext, ih.2.trans hext⟩

/-! ### Inheritance -/

def Below (m : Machine) (c d : ClassId) : Prop := (m.classAt c).super = some d

def Inherited (m : Machine) : ClassId → ClassId → Prop := Relation.ReflTransGen m.Below

theorem lt_of_inherited (h : m.Older) (hcd : Relation.TransGen m.Below c d) : d < c := by
  induction hcd with
  | single hb => exact h _ _ hb
  | tail _ hb ih => exact Nat.lt_trans (h _ _ hb) ih

theorem inherited_antisymm (h : m.Older) (hcd : m.Inherited c d) (hdc : m.Inherited d c) : c = d := by
  rcases Relation.reflTransGen_iff_eq_or_transGen.1 hcd with rfl | hlt
  · rfl
  · rcases Relation.reflTransGen_iff_eq_or_transGen.1 hdc with rfl | hgt
    · rfl
    · exact absurd (lt_of_inherited h hlt) (Nat.lt_asymm (lt_of_inherited h hgt))

theorem isSubclassOf_iff (h : m.Older) : m.isSubclassOf c d ↔ m.Inherited c d := by
  rw [isSubclassOf, List.contains_iff_mem]
  induction c using Nat.strong_induction_on with
  | _ c ih =>
    rw [lineage_eq_cons, List.mem_cons]
    cases hp : (m.classAt c).super with
    | none =>
      rw [superclasses_of_none hp]
      constructor
      · rintro (rfl | hd)
        · exact .refl
        · cases hd
      · intro hd
        rcases hd.cases_head with rfl | ⟨k, hk, -⟩
        · exact .inl rfl
        · cases hp.symm.trans hk
    | some p =>
      rw [superclasses_of_some h hp, ih p (h c p hp)]
      constructor
      · rintro (rfl | hd)
        · exact .refl
        · exact .head hp hd
      · intro hd
        rcases hd.cases_head with rfl | ⟨k, hk, hkd⟩
        · exact .inl rfl
        · cases hp.symm.trans hk
          exact .inr hkd

/-- All classes inherit from `Object`. -/
theorem WellRooted.inherited (h : WellRooted m) (hc : c < m.classes.size) : m.Inherited c .object := by
  induction c using Nat.strong_induction_on with
  | _ c ih =>
    rcases Nat.eq_zero_or_pos c with rfl | hpos
    · exact .refl
    · obtain ⟨p, hp, hsuper⟩ := h.tree.below c hpos hc
      exact .head hsuper (ih p hp (Nat.lt_trans hp hc))

theorem WellRooted.super_eq_none (h : WellRooted m) (hc : c < m.classes.size) :
    (m.classAt c).super = none ↔ c = .object := by
  constructor
  · intro hnone
    by_contra hne
    obtain ⟨p, -, hp⟩ := h.tree.below c (Nat.pos_of_ne_zero hne) hc
    cases hnone.symm.trans hp
  · rintro rfl
    exact h.tree.root

/-! ### Loops up the superclasses -/

section Loops

variable {σ α : Type} {body : σ → ClassId → Except α σ} {s : σ} {r : Except α σ}

/-- The loop that goes up from a class. Its body changes what it has so far or gives an answer, which
ends the loop; past the root the loop ends with what it has. No measure bounds the loop: it ends just
when this is derivable. -/
inductive Ascent (m : Machine) (body : σ → ClassId → Except α σ) : Option ClassId → σ → Except α σ → Prop
  | past (s : σ) : Ascent m body none s (.ok s)
  | answer {c : ClassId} {s : σ} {a : α} (h : body s c = .error a) :
      Ascent m body (some c) s (.error a)
  | up {c : ClassId} {s s' : σ} {r : Except α σ} (h : body s c = .ok s')
      (hr : Ascent m body (m.classAt c).super s' r) : Ascent m body (some c) s r

theorem ascent_none : Ascent m body none s r ↔ r = .ok s :=
  ⟨fun h => by cases h; rfl, fun h => h ▸ .past s⟩

/-- The loop ends, with what its body makes of the class and its superclasses in their order. -/
theorem ascent_iff (h : m.Older) :
    Ascent m body (some c) s r ↔ r = (lineage m.classes c).foldlM body s := by
  induction c using Nat.strong_induction_on generalizing s with
  | _ c ih =>
    rw [lineage_eq_cons, List.foldlM_cons]
    cases hbody : body s c with
    | error a =>
      refine ⟨fun hr => ?_, ?_⟩
      · cases hr with
        | answer ha =>
          cases hbody.symm.trans ha
          rfl
        | up hs => cases hbody.symm.trans hs
      · rintro rfl
        exact .answer hbody
    | ok s' =>
      have hup : Ascent m body (some c) s r ↔ Ascent m body (m.classAt c).super s' r := by
        refine ⟨fun hr => ?_, .up hbody⟩
        cases hr with
        | answer ha => cases hbody.symm.trans ha
        | up hs hr =>
          cases hbody.symm.trans hs
          exact hr
      rw [hup]
      cases hp : (m.classAt c).super with
      | none => rw [ascent_none, superclasses_of_none hp]; rfl
      | some p => rw [ih p (h c p hp), superclasses_of_some h hp]; rfl

theorem ascent_super_iff (h : m.Older) :
    Ascent m body (m.classAt c).super s r ↔ r = (m.superclasses c).foldlM body s := by
  cases hp : (m.classAt c).super with
  | none =>
    rw [ascent_none, superclasses_of_none hp]
    rfl
  | some p => rw [ascent_iff h, superclasses_of_some h hp]

def gather (l : List ClassId) (k : ClassId) : Except Empty (List ClassId) := .ok (l ++ [k])

def countUp (n : Nat) (_ : ClassId) : Except Empty Nat := .ok (n + 1)

def seek (f : ClassId → Option α) (_ : Unit) (k : ClassId) : Except α Unit :=
  (f k).elim (.ok ()) .error

theorem foldlM_gather (l ks : List ClassId) : ks.foldlM gather l = .ok (l ++ ks) := by
  induction ks generalizing l with
  | nil => simp [pure, Except.pure]
  | cons k ks ih => exact (ih (l ++ [k])).trans (by simp)

theorem foldlM_countUp (n : Nat) (ks : List ClassId) : ks.foldlM countUp n = .ok (n + ks.length) := by
  induction ks generalizing n with
  | nil => rfl
  | cons k ks ih => exact (ih (n + 1)).trans (by rw [List.length_cons, Nat.add_right_comm, Nat.add_assoc])

theorem foldlM_seek (f : ClassId → Option α) (ks : List ClassId) :
    ks.foldlM (seek f) () = (ks.findSome? f).elim (.ok ()) .error := by
  induction ks with
  | nil => rfl
  | cons k ks ih =>
    rw [List.foldlM_cons, List.findSome?_cons, seek]
    cases f k with
    | none => exact ih
    | some a => rfl

end Loops

def same? (d k : ClassId) : Option ClassId := if k = d then some k else none

theorem findSome?_same? (d : ClassId) (ks : List ClassId) :
    ks.findSome? (same? d) = if d ∈ ks then some d else none := by
  induction ks with
  | nil => rfl
  | cons k ks ih =>
    rw [List.findSome?_cons, same?, ih]
    by_cases hk : k = d
    · simp [hk]
    · simp [hk, Ne.symm hk]

end Machine

open Machine

/-- The classes of a machine are a tree with `Object` as its root. Each loop up the superclasses ends,
and inheritance is a partial order below `Object`. -/
structure Hierarchy (m : Machine) : Prop where
  root : ∀ c < m.classes.size, (m.classAt c).super = none ↔ c = ClassId.object
  rooted : ∀ c < m.classes.size, m.Inherited c .object
  acyclic : ∀ c, ¬Relation.TransGen m.Below c c
  /-- The loop of a method search. -/
  findMethod : ∀ c s r, Ascent m (seek fun k => (m.ownMethod? k s).map (·, k)) (some c) () r ↔
    r = (m.findMethod? c s).elim (.ok ()) .error
  /-- The loop of a test for a superclass. -/
  isSubclassOf : ∀ c d r, Ascent m (seek (same? d)) (some c) () r ↔
    r = if m.isSubclassOf c d then .error d else .ok ()
  superclasses : ∀ c r, Ascent m gather (m.classAt c).super [] r ↔ r = .ok (m.superclasses c)
  /-- The loop that counts how deep a class is in the tree. -/
  rank : ∀ c r, Ascent m countUp (m.classAt c).super 0 r ↔ r = .ok (m.rank c)
  inherited : ∀ c d, m.isSubclassOf c d ↔ m.Inherited c d
  refl : ∀ c, m.isSubclassOf c c
  antisymm : ∀ c d, m.isSubclassOf c d → m.isSubclassOf d c → c = d
  trans : ∀ c d k, m.isSubclassOf c d → m.isSubclassOf d k → m.isSubclassOf c k
  greatest : ∀ c < m.classes.size, m.isSubclassOf c .object

theorem Machine.WellRooted.hierarchy {m : Machine} (h : WellRooted m) : Hierarchy m where
  root _ hc := h.super_eq_none hc
  rooted _ hc := h.inherited hc
  acyclic _ hc := Nat.lt_irrefl _ (lt_of_inherited h.older hc)
  findMethod c s r := by rw [ascent_iff h.older, foldlM_seek, findMethod?]
  isSubclassOf c d r := by
    simp only [ascent_iff h.older, foldlM_seek, findSome?_same?, Machine.isSubclassOf,
      List.contains_iff_mem]
    split <;> rfl
  superclasses c r := by rw [ascent_super_iff h.older, foldlM_gather, List.nil_append]
  rank c r := by rw [ascent_super_iff h.older, foldlM_countUp, Nat.zero_add, Machine.rank]
  inherited _ _ := isSubclassOf_iff h.older
  refl _ := (isSubclassOf_iff h.older).2 .refl
  antisymm _ _ hcd hdc :=
    inherited_antisymm h.older ((isSubclassOf_iff h.older).1 hcd) ((isSubclassOf_iff h.older).1 hdc)
  trans _ _ _ hcd hdk := (isSubclassOf_iff h.older).2 <|
    ((isSubclassOf_iff h.older).1 hcd).trans ((isSubclassOf_iff h.older).1 hdk)
  greatest _ hc := (isSubclassOf_iff h.older).2 (h.inherited hc)

/-- Whatever is done with a new machine, its classes are a tree below `Object`, and whatever is done
then, each class keeps its superclass and all that are above it. This is so between any two ticks,
after faults too, and whatever the constants are bound to, the names of classes among them. -/
theorem hierarchy_lasting {c : Config} {m₀ m m' : Machine} (h₀ : create c = .ok m₀)
    (h : m₀.Evolves m) (h' : m.Evolves m') :
    Hierarchy m ∧ ∀ k < m.classes.size, k < m'.classes.size ∧
      (m'.classAt k).super = (m.classAt k).super ∧ m'.superclasses k = m.superclasses k := by
  have hm := ((create_wellRooted h₀).evolves h).1
  obtain ⟨hm', hext⟩ := hm.evolves h'
  refine ⟨hm.hierarchy, fun k hk => ⟨Nat.lt_of_lt_of_le hk hext.size, hext.super k hk, ?_⟩⟩
  exact superclasses_of_extends hext hm.older hm'.older hk

/-- A class with this name is defined below the class `super`, or `Object`. -/
def define (name : Text) (super : Option ClassId) : Event := .perform (.defineClass name super)

/-- With `B` below `A`, first `A` is defined again, below `B`. Then its name is given to `Object`, and
it is defined once more. Neither gets below `B`, whose superclasses stay. -/
theorem hierarchy_lasting_redefined : ∃ m₀ m m', create {} = .ok m₀ ∧
    m = (m₀.next (define "A" none)).next (define "B" (some 16)) ∧
    m' = ((m.next (define "A" (some 17))).next
      (.perform (.setConstant (m.classAt 16).symbol (.cls .object)))).next (define "A" (some 17)) ∧
    Hierarchy m ∧ m.superclasses 17 = [16, .object] ∧ m'.superclasses 17 = [16, .object] := by
  have hrun : ∃ m₀ ∈ (create {}).toOption, 16 < (m₀.next (define "A" none)).classes.size ∧
      ∃ m ∈ some ((m₀.next (define "A" none)).next (define "B" (some 16))),
        17 < m.classes.size ∧ m.superclasses 17 = [16, .object] := by
    decide +kernel
  obtain ⟨m₀, hm₀, h16, m, hm, h17, hsuper⟩ := hrun
  have h₀ := create_of_toOption hm₀
  have hevolves : m₀.Evolves m := by
    cases hm
    exact (Evolves.refl.step (define "A" none) (ClassGraph.has_none _)).step (define "B" (some 16))
      (ClassGraph.has_some h16)
  have hagain : ∀ {m'}, m.Evolves m' → m.Evolves (m'.next (define "A" (some 17))) := fun h' =>
    h'.step _ (ClassGraph.has_some ((hierarchy_lasting h₀ hevolves h').2 17 h17).1)
  have hname : m.Evolves ((m.next (define "A" (some 17))).next
      (.perform (.setConstant (m.classAt 16).symbol (.cls .object)))) :=
    (hagain .refl).step _ (ClassGraph.has_some (Nat.zero_lt_of_lt
      ((hierarchy_lasting h₀ hevolves (hagain .refl)).2 17 h17).1))
  obtain ⟨htree, hlasting⟩ := hierarchy_lasting h₀ hevolves (hagain hname)
  exact ⟨m₀, m, _, h₀, (Option.some.inj hm).symm, rfl, htree, hsuper,
    (hlasting 17 h17).2.2.trans hsuper⟩

end ObjectMachine
