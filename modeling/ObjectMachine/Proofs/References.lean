import ObjectMachine.Proofs.Compliance
import ObjectMachine.Proofs.Resolution

/-! References to classes. A machine names classes in its values, in the exceptions it raises, and
in the contexts that it runs in or saves. Every class that is named exists: an action that stores a
class read it somewhere, or it is a class that new machines have. So the superclass of a new class
is an older one, and methods are installed on classes that there are. -/

namespace ObjectMachine

structure ClassGraph where
  size : Nat
  super : ClassId → Option ClassId

namespace ClassGraph

def Has (g : ClassGraph) (c : Option ClassId) : Prop := ∀ k, c = some k → k < g.size

/-- Each class but the first has a superclass, which is older. -/
structure Tree (g : ClassGraph) : Prop where
  root : g.super 0 = none
  below : ∀ c, 0 < c → c < g.size → ∃ p < c, g.super c = some p
  outside : ∀ c, g.size ≤ c → g.super c = none

/-- Classes were added. -/
structure Extends (g g' : ClassGraph) : Prop where
  size : g.size ≤ g'.size
  super : ∀ c < g.size, g'.super c = g.super c

theorem Extends.refl (g : ClassGraph) : g.Extends g := ⟨Nat.le_refl _, fun _ _ => rfl⟩

theorem Extends.trans {g g₁ g' : ClassGraph} (h : g.Extends g₁) (h' : g₁.Extends g') :
    g.Extends g' :=
  ⟨Nat.le_trans h.size h'.size, fun c hc =>
    (h'.super c (Nat.lt_of_lt_of_le hc h.size)).trans (h.super c hc)⟩

theorem Has.extends {g g' : ClassGraph} {c : Option ClassId} (h : g.Has c) (hg : g.Extends g') :
    g'.Has c :=
  fun k hk => Nat.lt_of_lt_of_le (h k hk) hg.size

theorem has_none (g : ClassGraph) : g.Has none := nofun

theorem has_some {g : ClassGraph} {c : ClassId} (h : c < g.size) : g.Has (some c) := by
  rintro k ⟨⟩
  exact h

def grow (g : ClassGraph) (p : Option ClassId) : ClassGraph where
  size := g.size + 1
  super c := if c = g.size then p else g.super c

theorem extends_grow (g : ClassGraph) (p : Option ClassId) : g.Extends (g.grow p) :=
  ⟨Nat.le_succ _, fun _ hc => if_neg (Nat.ne_of_lt hc)⟩

theorem Tree.grow {g : ClassGraph} (h : g.Tree) {p : Option ClassId} (hp : g.Has p)
    (hroot : p = none ↔ g.size = 0) : (g.grow p).Tree where
  root := by
    by_cases hzero : 0 = g.size
    · exact (if_pos hzero).trans (hroot.2 hzero.symm)
    · exact (if_neg hzero).trans h.root
  below c hpos hc := by
    rcases Nat.lt_succ_iff_lt_or_eq.1 hc with hlt | rfl
    · obtain ⟨q, hq, hsuper⟩ := h.below c hpos hlt
      exact ⟨q, hq, (if_neg (Nat.ne_of_lt hlt)).trans hsuper⟩
    · obtain ⟨q, rfl⟩ := Option.ne_none_iff_exists'.1 fun hnone => Nat.ne_of_gt hpos (hroot.1 hnone)
      exact ⟨q, hp q rfl, if_pos rfl⟩
  outside c hc := (if_neg (Nat.ne_of_gt hc)).trans (h.outside c (Nat.le_of_succ_le hc))

end ClassGraph

/-- The class and the values of an object are of classes that exist. -/
def Body.Known (g : ClassGraph) : Body → Prop
  | object c t => c < g.size ∧ ∀ v ∈ t.values, g.Has v.cls?
  | _ => True

def Duty.Known (g : ClassGraph) : Duty → Prop
  | construct context made _ => g.Has context.targetClass ∧ g.Has made.cls?
  | _ => True

theorem Body.Known.emptied {g : ClassGraph} {b : Body} (h : b.Known g) : b.emptied.Known g := by
  cases b with
  | object c t => exact ⟨h.1, nofun⟩
  | _ => trivial

theorem Body.Known.extends {g g' : ClassGraph} {b : Body} (h : b.Known g) (hg : g.Extends g') :
    b.Known g' := by
  cases b with
  | object c t => exact ⟨Nat.lt_of_lt_of_le h.1 hg.size, fun v hv => (h.2 v hv).extends hg⟩
  | _ => trivial

theorem Duty.Known.extends {g g' : ClassGraph} {d : Duty} (h : d.Known g) (hg : g.Extends g') :
    d.Known g' := by
  cases d with
  | construct context made w => exact ⟨h.1.extends hg, h.2.extends hg⟩
  | _ => trivial

/-- What holds of all bodies, emptied ones included, holds after chores. -/
theorem Memory.settle_bodies {P : Body → Prop} (hP : ∀ b, P b → P b.emptied) (m : Memory)
    (chores : List Chore) (h : ∀ o ∈ m.heap, P o.body) : ∀ o ∈ (m.settle chores).1.heap, P o.body := by
  fun_induction settle m chores with
  | case1 | case3 | case6 | case7 | case9 | case13 => exact h
  | case2 _ _ _ _ ih | case8 _ _ _ _ _ _ ih | case10 _ _ _ _ _ _ _ _ _ ih => exact ih h
  | case4 m v rest r _ hr o _ m' _ ih | case5 m v rest r _ hr o _ m' _ ih =>
    have hbody : P m.heap[r].body := h _ (Array.getElem_mem hr)
    exact ih (forall_mem_set hr h hbody)
  | case11 m r rest hr => exact forall_mem_set hr h (hP _ (h _ (Array.getElem_mem hr)))
  | case12 m r rest hr o pool m' _ ih =>
    exact ih (forall_mem_set hr h (hP _ (h _ (Array.getElem_mem hr))))

namespace Machine

def classGraph (m : Machine) : ClassGraph := ⟨m.classes.size, fun c => (m.classAt c).super⟩

/-- The classes of the machine form the graph, every class it names is one of them, no constant is
listed twice, and each class lists its methods newest first. -/
structure Rooted (g : ClassGraph) (m : Machine) : Prop where
  graph : m.classGraph = g
  newest : ∀ k, (m.classAt k).methods.Pairwise (· > ·)
  linked : ∀ k, ∀ id ∈ (m.classAt k).methods, id < m.methods.size
  regs : ∀ v ∈ m.regs, g.Has v.cls?
  constants : ∀ x ∈ m.constants, g.Has x.2.cls?
  distinct : (m.constants.map (·.1)).Nodup
  heap : ∀ o ∈ m.memory.heap, o.body.Known g
  topSelf : g.Has m.topSelf.cls?
  exception : g.Has m.exception
  excMessage : g.Has m.excMessage.cls?
  pending : g.Has m.pending
  pendingMessage : g.Has m.pendingMessage.cls?
  target : g.Has m.context.targetClass
  frames : ∀ k ∈ m.frames, g.Has k.targetClass
  duties : ∀ d ∈ m.duties, d.Known g

/-- The regime of actions that name no other classes. -/
def naming (g : ClassGraph) : Regime := ⟨Rooted g, Rooted g, (· < g.size)⟩

variable {g : ClassGraph} {m : Machine} {c : ClassId} {v : Value}

theorem fills_naming {b : ObjectMachine.Body} : (naming g).Fills b ↔ b.Known g := by
  cases b <;> rfl

theorem owes_naming {d : Duty} : (naming g).Owes d ↔ d.Known g := by
  cases d <;> rfl

theorem core_naming (h : 16 ≤ g.size) : (naming g).Core := fun _ hc => Nat.lt_of_lt_of_le hc h

theorem Rooted.names (h : m.Rooted g) : (naming g).Names m :=
  { h with
    heap := fun o ho => fills_naming.2 (h.heap o ho)
    duties := fun d hd => owes_naming.2 (h.duties d hd) }

theorem Rooted.super (h : m.Rooted g) (k : ClassId) : g.super k = (m.classAt k).super := by
  rw [← h.graph]
  rfl

theorem Rooted.size (h : m.Rooted g) : m.classes.size = g.size := by
  rw [← h.graph]
  rfl

/-! ### The actions that all others are made of -/

theorem Rooted.mild {m' : Machine} (h : m.Rooted g) (hmild : Mild m m') (hnames : (naming g).Names m') :
    m'.Rooted g := by
  have hat : m'.classAt = m.classAt := by
    funext k
    simp only [classAt, hmild.classes]
  exact {
    graph := by
      rw [← h.graph, classGraph, classGraph, hmild.classes, hat]
    newest := fun k => hat ▸ h.newest k
    linked := fun k id hid => hmild.methods ▸ h.linked k id (hat ▸ hid)
    regs := hnames.regs
    constants := hnames.constants
    distinct := hmild.distinct h.distinct
    heap := hmild.heap ▸ h.heap
    topSelf := hnames.topSelf
    exception := hnames.exception
    excMessage := hnames.excMessage
    pending := hnames.pending
    pendingMessage := hnames.pendingMessage
    target := hnames.target
    frames := hnames.frames
    duties := fun d hd => owes_naming.1 (hnames.duties d hd) }

theorem onMemory_naming {change : Memory → Memory × Option Fault}
    (h : ∀ μ : Memory, (∀ o ∈ μ.heap, o.body.Known g) → ∀ o ∈ (change μ).1.heap, o.body.Known g) :
    (naming g).Keeps (onMemory change) := by
  intro m hm
  have hchanged : { m with memory := (change m.memory).1 }.Rooted g := { hm with heap := h _ hm.heap }
  simp only [onMemory, Leads.bind_eq, Leads.modifyGet_eq]
  split
  · exact hchanged
  · exact ⟨hchanged, trivial⟩

theorem release_naming (v : Value) : (naming g).Keeps (release v) := by
  unfold release
  split
  · exact .of_pure trivial
  · exact onMemory_naming fun μ h => μ.settle_bodies (P := Body.Known g) (fun _ => .emptied) _ h

theorem acquire_naming (v : Value) : (naming g).Keeps (acquire v) := by
  unfold acquire
  split
  · exact .of_pure trivial
  · refine onMemory_naming fun μ h => ?_
    unfold Memory.acquire
    split
    · exact h
    · split
      · next r _ hr =>
        dsimp only
        split
        · exact h
        · have hbody : μ.heap[r].body.Known g := h _ (Array.getElem_mem hr)
          exact Memory.forall_mem_set hr h hbody
      · exact h

theorem allocate?_naming (size : Int64) {body : ObjectMachine.Body} (hbody : body.Known g) :
    (naming g).Keeps (allocate? size body) := by
  intro m hm
  simp only [allocate?, Leads.modifyGet_eq]
  cases ha : m.memory.allocate? size body with
  | none => exact ⟨hm, trivial⟩
  | some x =>
    obtain ⟨pool, -, rfl⟩ := Option.map_eq_some_iff.1 ha
    refine ⟨{ hm with heap := fun o ho => ?_ }, trivial⟩
    rcases Array.mem_push.1 ho with ho | rfl
    · exact hm.heap o ho
    · exact hbody

/-- Lists of methods are changed, and methods may be added. -/
theorem Rooted.relist (h : m.Rooted g) {classes : Array Class} {methods : Array Method}
    (hsize : classes.size = m.classes.size)
    (hat : ∀ j, ∃ ids, { m with classes, methods }.classAt j = { m.classAt j with methods := ids } ∧
      ids.Pairwise (· > ·) ∧ ∀ id ∈ ids, id < methods.size) :
    { m with classes, methods }.Rooted g := by
  have hsuper : ∀ j, ({ m with classes, methods }.classAt j).super = (m.classAt j).super := by
    intro j
    obtain ⟨ids, heq, -⟩ := hat j
    rw [heq]
  refine { h with graph := ?_, newest := fun j => ?_, linked := fun j => ?_ }
  · rw [← h.graph, classGraph, classGraph, hsize, funext hsuper]
  · obtain ⟨ids, heq, hnewest, -⟩ := hat j
    rw [heq]
    exact hnewest
  · obtain ⟨ids, heq, -, hlinked⟩ := hat j
    rw [heq]
    exact hlinked

theorem addMethod_naming (c : ClassId) (k : Method) : (naming g).Keeps (addMethod c k) := by
  refine fun m h => .of_eq (addMethod_eq c k) ⟨h.relist Array.size_modify fun j => ?_, trivial⟩
  have hat := classAt_modify (m := m) c j fun x => { x with methods := m.methods.size :: x.methods }
  have hold : ∀ id ∈ (m.classAt j).methods, id < (m.methods.push k).size := by
    intro id hid
    rw [Array.size_push]
    exact Nat.lt_succ_of_lt (h.linked j id hid)
  by_cases hj : c = j ∧ c < m.classes.size
  · refine ⟨_, hat.trans (if_pos hj), List.pairwise_cons.2 ⟨h.linked j, h.newest j⟩, ?_⟩
    exact List.forall_mem_cons.2 ⟨by simp, hold⟩
  · exact ⟨_, hat.trans (if_neg hj), h.newest j, hold⟩

theorem unlink_naming (c : ClassId) (id : MethodId) :
    (naming g).Keeps (modifyClass c fun k => { k with methods := k.methods.erase id }) := by
  refine fun m h => ⟨h.relist Array.size_modify fun j => ?_, trivial⟩
  have hat := classAt_modify (m := m) c j fun k => { k with methods := k.methods.erase id }
  by_cases hj : c = j ∧ c < m.classes.size
  · exact ⟨_, hat.trans (if_pos hj), (h.newest j).sublist List.erase_sublist,
      fun i hi => h.linked j i (List.mem_of_mem_erase hi)⟩
  · exact ⟨_, hat.trans (if_neg hj), h.newest j, h.linked j⟩

instance : (naming g).Lawful where
  halts := id
  names := Rooted.names
  mild := Rooted.mild
  interned _ h := { h with }
  release_keeps := release_naming
  acquire_keeps := acquire_naming
  allocate?_keeps size _ h := allocate?_naming size (fills_naming.1 h)
  addMethod_keeps := addMethod_naming
  unlink_keeps := unlink_naming

/-! ### Variables -/

open Regime

theorem putVariables_naming (r : Ref) {t : VariableTable} (ht : ∀ v ∈ t.values, g.Has v.cls?) (pool : Pool) :
    (naming g).Keeps (putVariables r t pool) := by
  refine fun m hm => ⟨{ hm with heap := fun o ho => ?_ }, trivial⟩
  obtain ⟨i, hi, rfl⟩ := Array.mem_iff_getElem.1 ho
  rw [Array.getElem_modify]
  have hold := hm.heap _ (Array.getElem_mem (Array.size_modify ▸ hi))
  split
  · split
    · next heq =>
      rw [heq] at hold
      exact ⟨hold.1, ht⟩
    · exact hold
  · exact hold

theorem naming_stores : (naming g).Stores := by
  intro obj s v hv
  refine Gives.of_get.bind fun m _ => ?_
  split
  · exact .of_pure trivial
  · refine (mustBeLive_clerical obj).keeps.bind fun _ _ => (acquire_keeps v).bind fun _ _ =>
      Gives.of_get.bind fun m hm => ?_
    split
    · next hobj =>
      obtain ⟨-, ht⟩ := hm.instance? hobj
      split
      · exact release_keeps v
      · next hset =>
        refine (putVariables_naming _ (fun x hx => ?_) _).bind fun _ _ => ?_
        · rcases (values_of_set? hset).1 x hx with rfl | hx
          · exact hv
          · exact ht x hx
        · split
          · exact release_keeps _
          · exact .of_pure trivial
    · exact .of_pure trivial

theorem dupInstance_naming (obj : Value) : (naming g).Fetches (dupInstance obj) := by
  refine Gives.of_get.bind fun m hm => ?_
  split
  · exact .of_pure (naming g).has_none
  · next hobj =>
    obtain ⟨hc, ht⟩ := hm.instance? hobj
    refine (mustBeLive_clerical obj).keeps.bind fun _ _ => (newInstance_fetches hc).bind fun copy hcopy => ?_
    dsimp only
    split
    · refine Gives.of_get.bind fun m _ => ?_
      split
      · next hcopied =>
        have hvalues := values_of_copy? hcopied
        exact (putVariables_naming _ (fun x hx => ht x (hvalues ▸ hx)) _).bind fun _ _ =>
          (acquireAll_keeps _).bind fun _ _ => .of_pure hcopy
      · exact .of_pure hcopy
    · exact .of_pure hcopy

instance : (naming g).Complete :=
  .of_chain (fun _ _ h => { h with }) dupInstance_naming

/-! ### Definitions of classes -/

/-- A class without methods is added. -/
theorem Rooted.push (h : m.Rooted g) {x : Class} (hmethods : x.methods = []) :
    { m with classes := m.classes.push x }.Rooted (g.grow x.super) := by
  have hg := g.extends_grow x.super
  have hat : ∀ P : Class → Prop, P x → (∀ k, P (m.classAt k)) →
      ∀ k, P ({ m with classes := m.classes.push x }.classAt k) := by
    intro P hx hold k
    rw [classAt_push]
    split
    · exact hx
    · exact hold k
  exact {
    graph := by
      refine (ClassGraph.mk.injEq ..).symm ▸ ⟨?_, funext fun c => ?_⟩
      · exact (Array.size_push _).trans (congrArg (· + 1) h.size)
      · rw [classAt_push, h.size]
        split
        · rfl
        · exact (h.super c).symm
    newest := hat (fun k => k.methods.Pairwise (· > ·)) (by rw [hmethods]; exact .nil) h.newest
    linked := hat (fun k => ∀ id ∈ k.methods, id < m.methods.size) (by rw [hmethods]; exact nofun) h.linked
    regs := fun v hv => (h.regs v hv).extends hg
    constants := fun y hy => (h.constants y hy).extends hg
    distinct := h.distinct
    heap := fun o ho => (h.heap o ho).extends hg
    topSelf := h.topSelf.extends hg
    exception := h.exception.extends hg
    excMessage := h.excMessage.extends hg
    pending := h.pending.extends hg
    pendingMessage := h.pendingMessage.extends hg
    target := h.target.extends hg
    frames := fun k hk => (h.frames k hk).extends hg
    duties := fun d hd => (h.duties d hd).extends hg }

/-- Classes may have been added to those of a tree. -/
def Grown (g : ClassGraph) (m : Machine) : Prop := ∃ g', g.Extends g' ∧ g'.Tree ∧ m.Rooted g'

theorem Rooted.grown (h : m.Rooted g) (hg : g.Tree) : Grown g m := ⟨g, .refl g, hg, h⟩

theorem Rooted.after {α : Type} {Q : α → Prop} {x : Action α} {a : α} {m' : Machine} (hm : m.Rooted g)
    (hx : (naming g).Gives Q x) (h : x m = .ok a m') : m'.Rooted g :=
  ((hx m hm).of_ok h).1

/-- What is known of an action that names no other classes, where some may be added later. -/
theorem grown_of_naming {α : Type} {Q : α → Prop} {x : Action α} {S : α → Machine → Prop}
    (hx : (naming g).Gives Q x) (hg : g.Tree) (hm : m.Rooted g)
    (h : ∀ a m', m'.Rooted g → Q a → S a m') : Leads (fun _ m' => Grown g m') x m S :=
  (hx m hm).imp (fun _ _ h' => Rooted.grown h' hg) fun a m' h' => h a m' h'.1 h'.2

/-- A class is found, or made below one that exists. -/
theorem defineClass_rooted (h : m.Rooted g) (hg : g.Tree) (name : Text) {super : Option ClassId}
    (hsuper : g.Has super) (hroot : g.size = 0 → super = none) :
    Leads (fun _ m' => Grown g m') (defineClass name super) m fun c m' =>
      ∃ g', g.Extends g' ∧ g'.Tree ∧ m'.Rooted g' ∧ c < g'.size := by
  simp only [defineClass, Leads.bind_eq, Leads.get_eq]
  refine grown_of_naming (intern_clerical name).keeps hg h fun s m₁ h₁ _ => ?_
  split
  · next c hc => exact ⟨g, .refl g, hg, h₁, h₁.names.constant? hc c rfl⟩
  · exact h₁.grown hg
  · simp only [Leads.bind_eq, Leads.get_eq]
    split
    · next pool _ =>
      simp only [Leads.bind_eq, Leads.set_eq, Leads.pure_eq]
      have hempty : m₁.classes.isEmpty ↔ g.size = 0 := by
        rw [← h₁.size]
        exact Array.isEmpty_iff_size_eq_zero
      generalize hp : super.or (if m₁.classes.isEmpty then none else some .object) = p
      have hhas : g.Has p ∧ (p = none ↔ g.size = 0) := by
        subst hp
        by_cases hzero : g.size = 0
        · rw [if_pos (hempty.2 hzero), hroot hzero]
          exact ⟨g.has_none, iff_of_true rfl hzero⟩
        · rw [if_neg fun he => hzero (hempty.1 he)]
          cases super with
          | none =>
            exact ⟨ClassGraph.has_some (Nat.pos_of_ne_zero hzero), iff_of_false (Option.some_ne_none _) hzero⟩
          | some q => exact ⟨hsuper, iff_of_false (Option.some_ne_none _) hzero⟩
      have hpool : { m₁ with memory := { m₁.memory with pool } }.Rooted g := { h₁ with }
      have hlt : m₁.classes.size < (g.grow p).size := h₁.size ▸ Nat.lt_succ_self g.size
      have htree := hg.grow hhas.1 hhas.2
      have hset : (naming (g.grow p)).Keeps (setConstant s (.cls m₁.classes.size)) :=
        setConstant_keeps s (has_some hlt)
      have hpushed := hpool.push (x := { symbol := s, name, super := p }) rfl
      refine (hset _ hpushed).imp (fun _ m₂ h₂ => ?_) fun _ m₂ h₂ => ?_
      · exact ⟨g.grow p, g.extends_grow p, htree, h₂⟩
      · exact ⟨g.grow p, g.extends_grow p, htree, h₂.1, hlt⟩
    · exact h₁.grown hg

end Machine

end ObjectMachine
