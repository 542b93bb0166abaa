import ObjectMachine.Proofs.Natives
import ObjectMachine.Proofs.Fitting

/-! What actions on values leave alone. Such an action stores into registers, makes closures
and installs methods as far as a permit allows it, and control is where it was. Code behind a
closure stays what it is for good, even after the closure has been freed. -/

namespace ObjectMachine

abbrev Closure := Code × Option FrameId × Option FrameId

def Body.closure? : Body → Option Closure
  | proc code frame selfFrame => some (code, frame, selfFrame)
  | _ => none

theorem Body.closure?_emptied (b : Body) : b.emptied.closure? = b.closure? := by
  cases b <;> rfl

namespace Memory

def closure? (m : Memory) (r : Ref) : Option Closure := m.heap[r]?.bind (·.body.closure?)

def view {α : Type} (g : Body → α) (m : Memory) (r : Ref) : Option α := m.heap[r]?.map (g ·.body)

theorem view_set {α : Type} {g : Body → α} {m : Memory} {r : Ref} {o : HeapObject} {pool : Pool}
    {live : Int} (hr : r < m.heap.size) (ho : g o.body = g m.heap[r].body) :
    view g ⟨pool, m.heap.set r o, live⟩ = m.view g := by
  funext q
  simp only [view, Array.getElem?_set]
  split
  · next heq =>
    subst heq
    simp [hr, ho]
  · rfl

/-- Releasing leaves what stays of a freed body. -/
theorem settle_view {α : Type} {g : Body → α} (hg : ∀ b, g b.emptied = g b) (m : Memory)
    (chores : List Chore) : (m.settle chores).1.view g = m.view g := by
  fun_induction settle m chores with
  | case1 => rfl
  | case2 m v rest hv ih => exact ih
  | case3 => rfl
  | case4 m v rest r hv hr o h0 m' h1 ih => exact ih.trans (view_set hr rfl)
  | case5 m v rest r hv hr o h0 m' h1 ih => exact ih.trans (view_set hr rfl)
  | case6 => rfl
  | case7 => rfl
  | case8 m r rest o ho hc ih => exact ih
  | case9 => rfl
  | case10 m r rest o ho hc pool m' hp ih => exact ih
  | case11 m r rest hr o pool => exact view_set hr (hg _)
  | case12 m r rest hr o pool m' hp ih => exact ih.trans (view_set hr (hg _))
  | case13 => rfl

theorem acquire_view {α : Type} (g : Body → α) (m : Memory) (v : Value) :
    (m.acquire v).1.view g = m.view g := by
  unfold acquire
  split
  · rfl
  · split
    · next r _ hr =>
      dsimp only
      split
      · rfl
      · exact view_set hr rfl
    · rfl

theorem closure?_of_view {m m' : Memory} (h : m'.view Body.closure? = m.view Body.closure?) :
    m'.closure? = m.closure? := by
  have heq : ∀ m : Memory, m.closure? = fun r => (m.view Body.closure? r).join := by
    intro m
    funext r
    rw [closure?, view]
    cases m.heap[r]? <;> rfl
  rw [heq, heq, h]

end Memory

/-- What an action may do to values and code. -/
structure Permit where
  /-- Registers that may get a value. -/
  stores : Int64 → Prop
  /-- Registers that may be cleared. -/
  clears : Int64 → Prop
  makes : Closure → Prop
  /-- Code that may become a method. -/
  installs : Code → Prop
  /-- Whether the mark of the registers in use may be lowered. -/
  trims : Prop := False

namespace Permit

def nothing : Permit where
  stores _ := False
  clears _ := False
  makes _ := False
  installs _ := False

def store (i : Int64) : Permit := { nothing with stores := (· = i) }

def clearFrom (low : Int) : Permit := { nothing with clears := (low ≤ ·.toInt) }

structure Within (P Q : Permit) : Prop where
  stores : ∀ i, P.stores i → Q.stores i := by exact fun _ h => False.elim h
  clears : ∀ i, P.clears i → Q.clears i := by exact fun _ h => False.elim h
  makes : ∀ p, P.makes p → Q.makes p := by exact fun _ h => False.elim h
  installs : ∀ c, P.installs c → Q.installs c := by exact fun _ h => False.elim h
  trims : P.trims → Q.trims := by exact False.elim

theorem nothing_within (P : Permit) : nothing.Within P := {}

/-- A method that may be defined: permitted code, or a native that is no probe. -/
def Allows (P : Permit) : MethodBody → Prop
  | .native n => ∀ p, n ≠ .probe p
  | .code c => P.installs c

theorem Within.allows {P Q : Permit} (h : P.Within Q) {b : MethodBody} (hb : P.Allows b) :
    Q.Allows b := by
  cases b with
  | native n => exact hb
  | code c => exact h.installs c hb

end Permit

namespace Machine

/-- The closure a value refers to. -/
theorem proc?_eq (m : Machine) (r : Ref) : m.proc? (.proc r) = m.memory.closure? r := by
  simp only [proc?, Memory.closure?]
  rcases m.memory.heap[r]? with - | ⟨n, size, body⟩
  · rfl
  · cases body <;> rfl

theorem proc?_eq_some {m : Machine} {v : Value} {p : Closure} (h : m.proc? v = some p) :
    ∃ r, v = .proc r ∧ m.memory.closure? r = some p := by
  cases v with
  | proc r => exact ⟨r, rfl, m.proc?_eq r ▸ h⟩
  | _ => cases h

/-- Context, frames, exception and passes, without values and methods. -/
def core (m : Machine) : Machine :=
  { m.skeleton with classes := #[], methods := #[], context := m.context.bare }

/-- Values and code have changed from `m` to `m'` as `P` permits. -/
structure Alters (P : Permit) (m m' : Machine) : Prop where
  size : m'.regs.size = m.regs.size
  regs : ∀ j : Nat, m'.regs[j]? = m.regs[j]? ∨ (∃ i, P.stores i ∧ i.toInt = j) ∨
    (∃ i, P.clears i ∧ i.toInt = j) ∧ m'.regs[j]? = some .empty
  high : P.trims ∨ m.regHigh.toInt ≤ m'.regHigh.toInt
  kept : ∀ r p, m.memory.closure? r = some p → m'.memory.closure? r = some p
  made : ∀ r p, m'.memory.closure? r = some p → m.memory.closure? r = some p ∨ P.makes p
  bodies : ∀ id, (m'.methodAt id).body = (m.methodAt id).body ∨ P.Allows (m'.methodAt id).body

/-- Control is where it was, too. -/
structure Works (P : Permit) (m m' : Machine) : Prop extends Alters P m m' where
  core : m'.core = m.core
  names : m'.context = m.context

variable {P Q : Permit} {m m₁ m' : Machine} {v : Value}

theorem Alters.refl (m : Machine) : Alters P m m where
  size := rfl
  regs _ := .inl rfl
  high := .inr (Int.le_refl _)
  kept _ _ h := h
  made _ _ h := .inl h
  bodies _ := .inl rfl

theorem Alters.trans (h : Alters P m m₁) (h' : Alters P m₁ m') : Alters P m m' where
  size := h'.size.trans h.size
  regs j := by
    rcases h'.regs j with heq | hstore | hclear
    · rw [heq]
      exact h.regs j
    · exact .inr (.inl hstore)
    · exact .inr (.inr hclear)
  high := by
    rcases h.high with htrims | hle
    · exact .inl htrims
    · exact h'.high.imp_right (Int.le_trans hle)
  kept r p hp := h'.kept r p (h.kept r p hp)
  made r p hp := (h'.made r p hp).elim (h.made r p) .inr
  bodies id := by
    rcases h'.bodies id with heq | hallows
    · rw [heq]
      exact h.bodies id
    · exact .inr hallows

theorem Alters.mono (h : Alters P m m') (hPQ : P.Within Q) : Alters Q m m' where
  size := h.size
  regs j := (h.regs j).imp_right fun hj => by
    rcases hj with ⟨i, hi, heq⟩ | ⟨⟨i, hi, heq⟩, hempty⟩
    · exact .inl ⟨i, hPQ.stores i hi, heq⟩
    · exact .inr ⟨⟨i, hPQ.clears i hi, heq⟩, hempty⟩
  high := h.high.imp_left hPQ.trims
  kept := h.kept
  made r p hp := (h.made r p hp).imp_right (hPQ.makes p)
  bodies id := (h.bodies id).imp_right hPQ.allows

/-- Code that is a method was one before, or it was installed. -/
theorem Alters.code (h : Alters P m m') {id : MethodId} {c : Code}
    (hc : (m'.methodAt id).body = .code c) : (m.methodAt id).body = .code c ∨ P.installs c := by
  rcases h.bodies id with heq | hallows
  · exact .inl (heq ▸ hc)
  · rw [hc] at hallows
    exact .inr hallows

theorem Alters.noProbe (h : Alters P m m') (hm : ∀ id p, (m.methodAt id).native? ≠ some (.probe p)) :
    ∀ id p, (m'.methodAt id).native? ≠ some (.probe p) := by
  intro id p hp
  rcases h.bodies id with heq | hallows
  · refine hm id p ?_
    rwa [Method.native?, heq] at hp
  · unfold Method.native? at hp
    split at hp
    · next n hn =>
      rw [hn] at hallows
      exact hallows p (Option.some.inj hp)
    · cases hp

theorem Works.refl (m : Machine) : Works P m m := ⟨.refl m, rfl, rfl⟩

theorem Works.trans (h : Works P m m₁) (h' : Works P m₁ m') : Works P m m' :=
  ⟨h.toAlters.trans h'.toAlters, h'.core.trans h.core, h'.names.trans h.names⟩

theorem Works.mono (h : Works P m m') (hPQ : P.Within Q) : Works Q m m' :=
  ⟨h.toAlters.mono hPQ, h.core, h.names⟩

/-! ### Single changes -/

/-- Values and code are the same. -/
theorem Alters.of_eq (hregs : m'.regs = m.regs) (hhigh : m'.regHigh = m.regHigh)
    (hheap : m'.memory.closure? = m.memory.closure?) (hmethods : m'.methods = m.methods) :
    Alters P m m' where
  size := congrArg Array.size hregs
  regs j := .inl (by rw [hregs])
  high := .inr (Int.le_of_eq (congrArg Int64.toInt hhigh).symm)
  kept r p hp := hheap ▸ hp
  made r p hp := .inl (hheap ▸ hp)
  bodies id := .inl (by
    unfold methodAt
    rw [hmethods])

/-- A change of memory that leaves closures as they are. -/
theorem Works.memory {memory : Memory} (h : memory.closure? = m.memory.closure?) :
    Works P m { m with memory } :=
  ⟨.of_eq rfl rfl h rfl, rfl, rfl⟩

/-- A change of what is only reported, and of constants and classes. -/
theorem Works.report {symbols : SymbolTable} {constants : List (Symbol × Value)}
    {classes : Array Class} {profile : Option Profile} {console : Array Text} :
    Works P m { m with symbols, constants, classes, profile, console } :=
  ⟨.of_eq rfl rfl rfl rfl, rfl, rfl⟩

/-- A register that exists gets a value. -/
theorem Works.set {i : Int64} (hi : 0 ≤ i.toInt) (hlt : i.toInt.toNat < m.regs.size)
    (h : P.stores i ∨ P.clears i ∧ v = .empty) :
    Works P m { m with regs := m.regs.setIfInBounds i.toInt.toNat v } := by
  refine ⟨⟨Array.size_setIfInBounds, fun j => ?_, .inr (Int.le_refl _), fun _ _ h => h,
    fun _ _ h => .inl h, fun _ => .inl rfl⟩, rfl, rfl⟩
  by_cases hj : i.toInt.toNat = j
  · have hat : i.toInt = j := by omega
    rcases h with h | ⟨h, rfl⟩
    · exact .inr (.inl ⟨i, h, hat⟩)
    · refine .inr (.inr ⟨⟨i, h, hat⟩, ?_⟩)
      rw [← hj, Array.getElem?_setIfInBounds_self_of_lt hlt]
  · exact .inl (Array.getElem?_setIfInBounds_ne hj)

theorem Works.methods {methods : Array Method}
    (h : ∀ id, ({ m with methods }.methodAt id).body = (m.methodAt id).body ∨
      P.Allows ({ m with methods }.methodAt id).body) : Works P m { m with methods } :=
  ⟨⟨rfl, fun _ => .inl rfl, .inr (Int.le_refl _), fun _ _ h => h, fun _ _ h => .inl h, h⟩, rfl, rfl⟩

/-! ### Tame actions -/

/-- An action that works on values and code alone, as `P` permits. -/
def Tame {α : Type} (P : Permit) (x : Action α) : Prop :=
  ∀ m, Leads AnyFault x m fun _ m' => Works P m m'

namespace Tame

variable {α β : Type} {x : Action α} {f : α → Action β}

theorem of_pure (a : α) : Tame P (pure a : Action α) := fun m => Works.refl m

theorem of_get : Tame P (get : Action Machine) := fun m => Works.refl m

theorem of_throw (e : Fault) : Tame P (throw e : Action α) := fun _ => trivial

theorem bind (hx : Tame P x) (hf : ∀ a, Tame P (f a)) : Tame P (x >>= f) := by
  intro m
  rw [Leads.bind_eq]
  exact (hx m).mono fun a m₁ h₁ => (hf a m₁).mono fun _ _ h₂ => h₁.trans h₂

theorem of_discard (hx : Tame P x) : Tame P (discard x) := by
  intro m
  rw [Leads.discard_eq]
  exact hx m

theorem mono (hx : Tame P x) (hPQ : P.Within Q) : Tame Q x :=
  fun m => (hx m).mono fun _ _ h => h.mono hPQ

end Tame

theorem Amends.works (h : Amends P.Allows m m') : Works P m m' := by
  cases h with
  | pool pool => exact .memory rfl
  | name t => exact .report
  | @define c method hbody =>
    have hdefined : Works P m { m with methods := m.methods.push method } := by
      refine .methods fun j => ?_
      simp only [methodAt, Array.getD_eq_getD_getElem?, Array.getElem?_push]
      split
      · exact .inr hbody
      · exact .inl rfl
    exact hdefined.trans .report
  | unlink c id => exact .report
  | count id d =>
    refine .methods fun j => .inl ?_
    rw [methodAt_modify]
    split <;> rfl
  | report profile console => exact .report
  | mark hrise _ =>
    exact ⟨⟨rfl, fun _ => .inl rfl, .inr (Int.le_of_lt hrise), fun _ _ h => h, fun _ _ h => .inl h,
      fun _ => .inl rfl⟩, rfl, rfl⟩

theorem Clerical.tame {α : Type} {x : Action α} (hx : Clerical P.Allows x) : Tame P x := fun m =>
  (hx.amends m).imp (fun _ _ _ => trivial) fun _ _ h =>
    h.keeps (R := Works P m) (fun _ _ hamends hworks => hworks.trans hamends.works) (.refl m)

/-! ### Memory -/

theorem onMemory_tame {change : Memory → Memory × Option Fault}
    (h : ∀ μ, (change μ).1.closure? = μ.closure?) : Tame P (onMemory change) := by
  intro m
  simp only [onMemory, Leads.bind_eq, Leads.modifyGet_eq]
  split
  · trivial
  · exact .memory (h m.memory)

theorem acquire_tame (v : Value) : Tame P (acquire v) := by
  unfold acquire
  split
  · exact .of_pure _
  · exact onMemory_tame fun μ => Memory.closure?_of_view (μ.acquire_view _ v)

theorem release_tame (v : Value) : Tame P (release v) := by
  unfold release
  split
  · exact .of_pure _
  · exact onMemory_tame fun μ =>
      Memory.closure?_of_view (μ.settle_view Body.closure?_emptied _)

theorem closure?_push {μ : Memory} {o : HeapObject} {pool : Pool} {live : Int} (r : Ref) :
    Memory.closure? ⟨pool, μ.heap.push o, live⟩ r =
      if r = μ.heap.size then o.body.closure? else μ.closure? r := by
  simp only [Memory.closure?, Array.getElem?_push]
  split <;> rfl

theorem allocate?_tame (size : Int64) {body : Body} (h : ∀ p, body.closure? = some p → P.makes p) :
    Tame P (allocate? size body) := by
  intro m
  simp only [allocate?, Leads.modifyGet_eq]
  cases ha : m.memory.allocate? size body with
  | none => exact .refl m
  | some q =>
    obtain ⟨pool, -, rfl⟩ := Option.map_eq_some_iff.1 ha
    refine ⟨⟨rfl, fun _ => .inl rfl, .inr (Int.le_refl _), fun r p hp => ?_, fun r p hp => ?_,
      fun _ => .inl rfl⟩, rfl, rfl⟩
    · rw [closure?_push, if_neg, hp]
      rintro rfl
      simp [Memory.closure?] at hp
    · rw [closure?_push] at hp
      split at hp
      · exact .inr (h p hp)
      · exact .inl hp

theorem present_tame {α : Type} (o : Option α) : Tame P (present o) := by
  cases o with
  | none => exact .of_throw _
  | some a => exact .of_pure a

/-! ### Registers -/

theorem reg_tame (i : Int64) : Tame P (reg i) := Tame.of_get.bind fun _ => present_tame _

theorem exchangeReg_tame {i : Int64} (h : 0 ≤ i.toInt → P.stores i ∨ P.clears i ∧ v = .empty) :
    Tame P (exchangeReg i v) := by
  intro m
  simp only [exchangeReg, reg, Leads.bind_eq, Leads.get_eq]
  cases he : entryAt? m.regs i with
  | none => trivial
  | some old =>
    obtain ⟨hlt, -⟩ := entryAt?_eq_some he
    have hi := entryAt?_nonneg he
    exact Works.set hi hlt (h hi)

theorem setReg_tame {i : Int64} (h : P.stores i) : Tame P (setReg i v) :=
  (exchangeReg_tame fun _ => .inl h).bind fun old => release_tame old

theorem clearReg_tame {i : Int64} (h : 0 ≤ i.toInt → P.clears i) : Tame P (clearReg i) :=
  (exchangeReg_tame fun hi => .inr ⟨h hi, rfl⟩).bind fun old => release_tame old

/-- A sum of natural numbers that does not wrap around is no negative one. -/
theorem toInt_add_of_nonneg {x y : Int64} (hx : 0 ≤ x.toInt) (hy : 0 ≤ y.toInt)
    (h : 0 ≤ (x + y).toInt) : (x + y).toInt = x.toInt + y.toInt := by
  have hlt := x.toInt_lt
  have hlt' := y.toInt_lt
  have hsum := Int64.toInt_add x y
  rw [Int.bmod_def] at hsum
  split at hsum
  · omega
  · omega

theorem toInt_succ {start : Int64} (hstart : 0 ≤ start.toInt) (h : 0 ≤ (start + 1).toInt) :
    (start + 1).toInt = start.toInt + 1 :=
  toInt_add_of_nonneg hstart (by decide) h

theorem reg_of_neg {i : Int64} (hi : i.toInt < 0) {Q : Value → Machine → Prop} :
    Leads AnyFault (reg i) m Q := by
  have hnone : entryAt? m.regs i = none := by
    rw [entryAt?, if_pos (Int64.lt_iff_toInt_lt.2 hi)]
  simp only [reg, Leads.bind_eq, Leads.get_eq, hnone]
  trivial

theorem clearRegs_tame {low : Int} (start : Int64) (count : Nat)
    (h : 0 ≤ start.toInt → low ≤ start.toInt) : Tame (.clearFrom low) (clearRegs start count) := by
  induction count generalizing start with
  | zero => exact .of_pure _
  | succ count ih =>
    rcases Int.lt_or_le start.toInt 0 with hneg | hnonneg
    · intro m
      simp only [clearRegs, clearReg, setReg, exchangeReg, Leads.bind_eq]
      exact reg_of_neg hneg
    · refine (clearReg_tame h).bind fun _ => ih (start + 1) fun hnext => ?_
      have hlow := h hnonneg
      have hsucc := toInt_succ hnonneg hnext
      omega

theorem scrub_tame {low : Int} (start : Int64) (count : Nat)
    (h : 0 ≤ start.toInt → low ≤ start.toInt) : Tame (.clearFrom low) (scrub start count) := by
  induction count generalizing start with
  | zero => exact .of_pure _
  | succ count ih =>
    rcases Int.lt_or_le start.toInt 0 with hneg | hnonneg
    · intro m
      simp only [scrub, Leads.bind_eq]
      exact reg_of_neg hneg
    · have hrest := ih (start + 1) fun hnext => by
        have hlow := h hnonneg
        have hsucc := toInt_succ hnonneg hnext
        omega
      refine (reg_tame start).bind fun v => ?_
      split
      · exact (clearReg_tame h).bind fun _ => hrest
      · exact hrest

/-- A window that was entered lies in the register file, below the mark. -/
theorem enterWindow_leads (base size : Int64) :
    Leads AnyFault (enterWindow base size) m fun _ m' =>
      0 ≤ base.toInt ∧ (base + size).toInt ≤ m.regs.size ∧ (base + size).toInt ≤ m'.regHigh.toInt := by
  simp only [enterWindow, Leads.bind_eq, Leads.get_eq]
  split
  · trivial
  · next hfits =>
    obtain ⟨hbase, htop⟩ := not_or.1 hfits
    rw [Int64.lt_iff_toInt_lt] at hbase
    have hlow : 0 ≤ base.toInt := Int.not_lt.1 hbase
    split
    · exact ⟨hlow, Int.not_lt.1 htop, Int.le_refl _⟩
    · next hhigh =>
      rw [Int64.lt_iff_toInt_lt] at hhigh
      exact ⟨hlow, Int.not_lt.1 htop, Int.not_lt.1 hhigh⟩

/-! ### Constants, classes and methods -/

theorem setConstant_tame (k : Symbol) (v : Value) : Tame P (setConstant k v) := by
  refine (acquire_tame v).bind fun _ => Tame.of_get.bind fun m => ?_
  split
  · exact (release_tame _).bind fun _ _ => Works.report
  · exact fun _ => Works.report

theorem getConstant_tame (k : Symbol) : Tame P (getConstant k) := by
  refine Tame.of_get.bind fun m => ?_
  split
  · exact (acquire_tame _).bind fun _ => .of_pure _
  · exact .of_pure _

theorem defineClass_tame (name : Text) (super : Option ClassId) : Tame P (defineClass name super) := by
  refine (intern_clerical name).tame.bind fun k m => ?_
  simp only [Leads.bind_eq, Leads.get_eq]
  split
  · exact .refl m
  · trivial
  · simp only [Leads.bind_eq, Leads.get_eq]
    split
    · simp only [Leads.bind_eq, Leads.set_eq, Leads.pure_eq]
      refine (setConstant_tame k _ _).mono fun _ m₁ h₁ => Works.trans ?_ h₁
      exact ⟨.of_eq rfl rfl rfl rfl, rfl, rfl⟩
    · trivial

/-! ### Objects and scopes -/

theorem newString_tame (t : Text) : Tame P (newString t) := by
  refine (allocate?_tame _ (by simp [Body.closure?])).bind fun r => ?_
  cases r <;> exact .of_pure _

theorem newInstance_tame (c : ClassId) : Tame P (newInstance c) := by
  refine (allocate?_tame _ (by simp [Body.closure?])).bind fun r => ?_
  cases r <;> exact .of_pure _

theorem putVariables_tame (r : Ref) (t : VariableTable) (pool : Pool) :
    Tame P (putVariables r t pool) := by
  intro m
  refine Works.memory ?_
  funext q
  simp only [Memory.closure?, Array.getElem?_modify]
  split
  · next heq =>
    subst heq
    rcases m.memory.heap[r]? with - | ⟨n, size, body⟩
    · rfl
    · cases body <;> rfl
  · rfl

theorem setVariable_tame (obj : Value) (k : Symbol) (v : Value) : Tame P (setVariable obj k v) := by
  refine Tame.of_get.bind fun m => ?_
  split
  · exact .of_pure _
  · refine (mustBeLive_clerical obj).tame.bind fun _ => (acquire_tame v).bind fun _ =>
      Tame.of_get.bind fun m => ?_
    split
    · split
      · exact release_tame v
      · refine (putVariables_tame _ _ _).bind fun _ => ?_
        split
        · exact release_tame _
        · exact .of_pure _
    · exact .of_pure _

theorem getVariable_tame (obj : Value) (k : Symbol) : Tame P (getVariable obj k) := by
  refine Tame.of_get.bind fun m => ?_
  split
  · exact .of_pure _
  · refine (mustBeLive_clerical obj).tame.bind fun _ => ?_
    split
    · exact .of_pure _
    · exact (acquire_tame _).bind fun _ => .of_pure _

theorem acquireAll_tame (vs : List Value) : Tame P (acquireAll vs) := by
  induction vs with
  | nil => exact .of_pure _
  | cons v vs ih => exact (acquire_tame v).bind fun _ => ih

theorem dupInstance_tame (obj : Value) : Tame P (dupInstance obj) := by
  refine Tame.of_get.bind fun m => ?_
  split
  · exact .of_pure _
  · refine (mustBeLive_clerical obj).tame.bind fun _ => (newInstance_tame _).bind fun copy => ?_
    split
    · refine Tame.of_get.bind fun m => ?_
      split
      · exact (putVariables_tame _ _ _).bind fun _ => (acquireAll_tame _).bind fun _ => .of_pure _
      · exact .of_pure _
    · exact .of_pure _

theorem currentCode_tame : Tame P currentCode := Tame.of_get.bind fun _ => present_tame _

theorem blockGiven_tame : Tame P blockGiven := by
  refine Tame.of_get.bind fun m => ?_
  split
  · exact .of_pure _
  · dsimp only
    split
    · exact .of_pure _
    · refine (reg_tame _).bind fun v => ?_
      split
      · exact (reg_tame _).bind fun _ => .of_pure _
      · exact .of_pure _
      · split
        · exact .of_pure _
        · exact (reg_tame _).bind fun _ => .of_pure _

end Machine

end ObjectMachine
