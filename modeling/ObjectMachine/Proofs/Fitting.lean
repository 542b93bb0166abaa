import ObjectMachine.Proofs.Clerical
import ObjectMachine.Proofs.Ledger

/-! Machines whose code keeps to the register file. Code is sturdy when its operands are in
range as whole numbers, its windows are small and its argument counts are not negative. A
machine fits when all code it can come to is sturdy, all contexts and frames it can come back
to have their window in the register file, and no value refers outside the heap. Reading and
storing values keeps this, and ends in no fault but a fatal one or an overdrawn pool. -/

namespace ObjectMachine

theorem toInt_add {a b : Int64} (hlow : -2 ^ 63 ≤ a.toInt + b.toInt)
    (hhigh : a.toInt + b.toInt < 2 ^ 63) : (a + b).toInt = a.toInt + b.toInt := by
  rw [Int64.toInt_add]
  apply Int.bmod_eq_of_le <;> omega

/-! ### Sturdy code -/

/-- An operand refers to something that exists, without wrapping around. -/
def Block.Admits (b : Block) (span : Int) (n : Int64) : OperandKind → Prop
  | .register => 0 ≤ n.toInt ∧ n.toInt + span ≤ b.registers.toInt
  | .literal => 0 ≤ n.toInt ∧ n.toInt < b.pool.size
  | .symbol => 0 ≤ n.toInt ∧ n.toInt < b.symbols.size
  | .child => 0 ≤ n.toInt ∧ n.toInt < b.children.size
  | .label => 0 ≤ n.toInt
  | .none | .integer => True

def Inst.argc? (i : Inst) : Option Int64 :=
  match i.op with
  | .send | .sendBlock => some i.c
  | .callSuper => some i.b
  | _ => none

structure Inst.Sturdy (b : Block) (i : Inst) : Prop where
  operands : ∀ x ∈ i.operands.zipIdx,
    b.Admits (if x.2 = 0 then i.op.registerSpan.toInt else 1) x.1.2 x.1.1
  argc : ∀ n, i.argc? = some n → 0 ≤ n.toInt ∧ n.toInt + 2 ≤ 2 ^ 62

/-- A block among `count` others. It has a register besides its receiver. -/
structure Block.Sturdy (count : Nat) (b : Block) : Prop where
  two_le : 2 ≤ b.registers.toInt
  small : b.registers.toInt ≤ 2 ^ 62
  short : (b.code.size : Int) < 2 ^ 63
  insts : ∀ i ∈ b.code, i.Sturdy b
  children : ∀ n ∈ b.children, n < count

structure Code.Sturdy (c : Code) : Prop where
  exists_ : c.index < c.program.blocks.size
  blocks : ∀ b ∈ c.program.blocks, b.Sturdy c.program.blocks.size

namespace Code.Sturdy

variable {c c' : Code}

theorem block (h : c.Sturdy) : c.block.Sturdy c.program.blocks.size := by
  have hlt := h.exists_
  have hget : c.block = c.program.blocks[c.index] := by
    simp [Code.block, Program.block, hlt]
  rw [hget]
  exact h.blocks _ (Array.getElem_mem hlt)

theorem child (h : c.Sturdy) {i : Int64} (hc : c.child? i = some c') : c'.Sturdy := by
  unfold Code.child? at hc
  split at hc
  · cases hc
  · obtain ⟨n, hn, rfl⟩ := Option.map_eq_some_iff.1 hc
    exact ⟨h.block.children n (Array.mem_of_getElem? hn), h.blocks⟩

end Code.Sturdy

theorem Code.child?_isSome {c : Code} {i : Int64} (h : 0 ≤ i.toInt)
    (hlt : i.toInt < c.block.children.size) : ∃ c', c.child? i = some c' := by
  have hi : ¬i < 0 := by
    rw [Int64.lt_iff_toInt_lt]
    simpa using h
  have hn : i.toInt.toNat < c.block.children.size := by omega
  rw [Code.child?, if_neg hi, Array.getElem?_eq_getElem hn]
  exact ⟨_, rfl⟩

theorem entryAt?_isSome {α : Type} {xs : Array α} {i : Int64} (h : 0 ≤ i.toInt)
    (hlt : i.toInt < xs.size) : ∃ a, entryAt? xs i = some a := by
  have hi : ¬i < 0 := by
    rw [Int64.lt_iff_toInt_lt]
    simpa using h
  have hn : i.toInt.toNat < xs.size := by omega
  rw [entryAt?, if_neg hi, Array.getElem?_eq_getElem hn]
  exact ⟨_, rfl⟩

/-! ### Places in the register file -/

def InFile (size : Nat) (i : Int64) : Prop := 0 ≤ i.toInt ∧ i.toInt < size

def RangeInFile (size : Nat) (start : Int64) (count : Nat) : Prop :=
  0 < count → 0 ≤ start.toInt ∧ start.toInt + count ≤ size

structure Window.Fits (size : Nat) (w : Window) : Prop where
  base : 0 ≤ w.base.toInt
  argc : 0 ≤ w.argc.toInt
  top : w.base.toInt + w.argc.toInt + 2 ≤ size

/-- A place in sturdy code, whose window lies inside a register file. -/
structure Place (size : Nat) (base : Int64) (code : Option Code) (pc : Int64) : Prop where
  base_nonneg : 0 ≤ base.toInt
  pc_nonneg : 0 ≤ pc.toInt
  sturdy : ∃ c, code = some c ∧ c.Sturdy ∧ base.toInt + c.block.registers.toInt ≤ size

def Context.Fits (size : Nat) (x : Context) : Prop := Place size x.base x.code x.pc

/-- A frame comes back to a place, and the window it entered has room for its arguments. -/
structure Frame.Fits (size : Nat) (k : Frame) : Prop where
  place : Place size k.base k.code k.pc
  window : Window.Fits size ⟨k.window, k.nargs⟩

def Duty.Fits (size : Nat) : Duty → Prop
  | .construct x _ w => x.Fits size ∧ w.Fits size
  | .leave _ w _ _ => w.Fits size
  | .deliver _ _ => False

section Places

variable {size : Nat} {start : Int64} {count : Nat} {w : Window}

theorem RangeInFile.head (h : RangeInFile size start (count + 1)) : InFile size start := by
  obtain ⟨hlow, hhigh⟩ := h (Nat.succ_pos _)
  exact ⟨hlow, by omega⟩

theorem RangeInFile.tail (hsize : (size : Int) ≤ 2 ^ 62)
    (h : RangeInFile size start (count + 1)) : RangeInFile size (start + 1) count := by
  obtain ⟨hlow, hhigh⟩ := h (Nat.succ_pos _)
  have hone : (1 : Int64).toInt = 1 := rfl
  have hstart : (start + 1).toInt = start.toInt + 1 := by
    rw [toInt_add (by omega) (by omega), hone]
  intro _
  omega

/-- The registers of a window, from the receiver to the block. -/
theorem Window.Fits.inFile (h : w.Fits size) (hsize : (size : Int) ≤ 2 ^ 62) {i : Int64}
    (hi : 0 ≤ i.toInt) (hlt : i.toInt < w.argc.toInt + 2) : InFile size (w.base + i) := by
  have hbase := h.base
  have htop := h.top
  have hsum : (w.base + i).toInt = w.base.toInt + i.toInt := toInt_add (by omega) (by omega)
  exact ⟨by omega, by omega⟩

theorem Window.Fits.base_inFile (h : w.Fits size) : InFile size w.base := by
  have hargc := h.argc
  have htop := h.top
  exact ⟨h.base, by omega⟩

theorem Window.Fits.block_inFile (h : w.Fits size) (hsize : (size : Int) ≤ 2 ^ 62) :
    InFile size (w.base + w.argc + 1) := by
  have hargc := h.argc
  have htop := h.top
  have hbase := h.base
  have hone : (1 : Int64).toInt = 1 := rfl
  have hsum : (w.argc + 1).toInt = w.argc.toInt + 1 := by
    rw [toInt_add (by omega) (by omega), hone]
  rw [Int64.add_assoc]
  exact h.inFile hsize (by omega) (by omega)

variable {base pc : Int64} {code : Option Code}

theorem Place.inFile (h : Place size base code pc) : InFile size base := by
  obtain ⟨c, -, hsturdy, htop⟩ := h.sturdy
  have htwo := hsturdy.block.two_le
  exact ⟨h.base_nonneg, by omega⟩

end Places

/-! ### Values and code in memory -/

/-- A value refers to one of the first `n` objects, if to any. -/
def Value.Within (n : Nat) (v : Value) : Prop := ∀ r, v.ref? = some r → r < n

def Body.Fits (n : Nat) : Body → Prop
  | .object _ table => ∀ v ∈ table.values, v.Within n
  | .proc code _ _ => code.Sturdy
  | .string _ => True

/-- A method that is sturdy code, or no probe. -/
def MethodBody.Fits : MethodBody → Prop
  | .native n => ∀ p, n ≠ .probe p
  | .code c => c.Sturdy

namespace Value

theorem Within.mono {n n' : Nat} {v : Value} (h : v.Within n) (hle : n ≤ n') : v.Within n' :=
  fun r hr => Nat.lt_of_lt_of_le (h r hr) hle

theorem within_of_immediate {n : Nat} {v : Value} (h : v.ref? = none) : v.Within n := by
  intro r hr
  cases h.symm.trans hr

end Value

theorem Body.Fits.mono {n n' : Nat} {b : Body} (h : b.Fits n) (hle : n ≤ n') : b.Fits n' := by
  cases b with
  | object c t => exact fun v hv => (h v hv).mono hle
  | proc code frame selfFrame => exact h
  | string bytes => trivial

theorem Body.Fits.held {n : Nat} {b : Body} (h : b.Fits n) : ∀ v ∈ b.held, v.Within n := by
  cases b with
  | object c t => exact h
  | proc code frame selfFrame => exact nofun
  | string bytes => exact nofun

theorem Body.Fits.emptied {n : Nat} {b : Body} (h : b.Fits n) : b.emptied.Fits n := by
  cases b with
  | object c t => exact nofun
  | proc code frame selfFrame => exact h
  | string bytes => trivial

namespace Memory

def Chore.Within (n : Nat) : Chore → Prop
  | .drop v => v.Within n
  | .refundTable r | .refundObject r => r < n

/-- Nothing in memory refers outside it. -/
def Fits (m : Memory) : Prop := ∀ o ∈ m.heap, o.body.Fits m.heap.size

theorem Fits.set {m : Memory} {r : Ref} {o : HeapObject} {pool : Pool} {live : Int} (h : m.Fits)
    (hr : r < m.heap.size) (ho : o.body.Fits m.heap.size) :
    Fits ⟨pool, m.heap.set r o, live⟩ := by
  refine forall_mem_set hr ?_ ?_
  · rw [Array.size_set]
    exact h
  · rw [Array.size_set]
    exact ho

/-- Chores that stay in memory are worked off there. What holds of all bodies, and keeps what they
hold in memory, goes on to hold. -/
theorem settle_within {n : Nat} {P : Body → Prop} (hheld : ∀ b, P b → ∀ v ∈ b.held, v.Within n)
    (hemptied : ∀ b, P b → P b.emptied) {m : Memory} (chores : List Chore) (hn : m.heap.size = n)
    (h : ∀ o ∈ m.heap, P o.body) (hchores : ∀ c ∈ chores, c.Within n) :
    (∀ o ∈ (m.settle chores).1.heap, P o.body) ∧ (m.settle chores).1.heap.size = n ∧
      ∀ e, (m.settle chores).2 = some e → e = .overdrawn ∨ ∃ cause, e = .fatal cause := by
  fun_induction settle m chores with
  | case1 => exact ⟨h, hn, by simp⟩
  | case2 m v rest hv ih => exact ih hn h fun c hc => hchores c (List.mem_cons_of_mem _ hc)
  | case3 => exact ⟨h, hn, fun e he => .inr ⟨_, (Option.some.inj he).symm⟩⟩
  | case4 m v rest r _ hr o _ m' _ ih =>
    have hbody : P m.heap[r].body := h _ (Array.getElem_mem hr)
    refine ih ((Array.size_set hr).trans hn) (forall_mem_set hr h hbody) fun c hc => ?_
    rcases List.mem_append.1 hc with hc | hc
    · rcases List.mem_append.1 hc with hc | hc
      · obtain ⟨v, hv, rfl⟩ := List.mem_map.1 hc
        exact hheld _ hbody v hv
      · rcases List.mem_cons.1 hc with rfl | hc
        · exact hn ▸ hr
        · cases List.mem_singleton.1 hc
          exact hn ▸ hr
    · exact hchores c (List.mem_cons_of_mem _ hc)
  | case5 m v rest r _ hr o _ m' _ ih =>
    have hbody : P m.heap[r].body := h _ (Array.getElem_mem hr)
    exact ih ((Array.size_set hr).trans hn) (forall_mem_set hr h hbody) fun c hc =>
      hchores c (List.mem_cons_of_mem _ hc)
  | case6 m v rest r hv hr => exact absurd (hn ▸ hchores _ List.mem_cons_self r hv) hr
  | case7 m r rest hnone =>
    have hr : r < m.heap.size := hn ▸ hchores _ List.mem_cons_self
    simp [hr] at hnone
  | case8 m r rest o _ _ ih => exact ih hn h fun c hc => hchores c (List.mem_cons_of_mem _ hc)
  | case9 => exact ⟨h, hn, fun e he => .inl (Option.some.inj he).symm⟩
  | case10 m r rest o _ _ pool m' _ ih =>
    exact ih hn h fun c hc => hchores c (List.mem_cons_of_mem _ hc)
  | case11 m r rest hr o pool =>
    exact ⟨forall_mem_set hr h (hemptied _ (h _ (Array.getElem_mem hr))), (Array.size_set hr).trans hn,
      fun e he => .inl (Option.some.inj he).symm⟩
  | case12 m r rest hr o pool m' _ ih =>
    exact ih ((Array.size_set hr).trans hn)
      (forall_mem_set hr h (hemptied _ (h _ (Array.getElem_mem hr)))) fun c hc =>
        hchores c (List.mem_cons_of_mem _ hc)
  | case13 m r rest hr => exact absurd (hn ▸ hchores _ List.mem_cons_self) hr

theorem settle_fits {m : Memory} (chores : List Chore) (h : m.Fits)
    (hchores : ∀ c ∈ chores, c.Within m.heap.size) :
    (m.settle chores).1.Fits ∧ (m.settle chores).1.heap.size = m.heap.size ∧
      ∀ e, (m.settle chores).2 = some e → e = .overdrawn ∨ ∃ cause, e = .fatal cause := by
  obtain ⟨hbodies, hsize, hfault⟩ :=
    settle_within (fun _ => Body.Fits.held) (fun _ => Body.Fits.emptied) chores rfl h hchores
  exact ⟨fun o ho => hsize ▸ hbodies o ho, hsize, hfault⟩

end Memory

namespace Machine

/-- All that a machine can come to fits a register file of the given size. -/
structure Fit (size : Nat) (m : Machine) : Prop where
  regs : m.regs.size = size
  pos : 0 < size
  small : (size : Int) ≤ 2 ^ 62
  high : m.regHigh.toInt ≤ size
  roots : ∀ v ∈ m.roots [], v.Within m.memory.heap.size
  heap : m.memory.Fits
  methods : ∀ k ∈ m.methods, k.body.Fits
  frames : ∀ k ∈ m.frames, k.Fits size
  nodes : ∀ f ∈ m.nodes [], f < m.frames.size
  duties : ∀ d ∈ m.duties, d.Fits size

/-- A fitting machine that came from `m` in the same context. -/
structure Still (size : Nat) (m m' : Machine) : Prop where
  fit : m'.Fit size
  grows : m.memory.heap.size ≤ m'.memory.heap.size
  frames : m.frames.size ≤ m'.frames.size
  context : m'.context = m.context

variable {size : Nat} {m m₁ m' : Machine} {v : Value}

theorem Still.refl (h : m.Fit size) : Still size m m := ⟨h, Nat.le_refl _, Nat.le_refl _, rfl⟩

theorem Still.trans (h : Still size m m₁) (h' : Still size m₁ m') : Still size m m' :=
  ⟨h'.fit, Nat.le_trans h.grows h'.grows, Nat.le_trans h.frames h'.frames,
    h'.context.trans h.context⟩

/-- A change of what nothing is asked of. -/
theorem Fit.report (h : m.Fit size) {symbols : SymbolTable} {classes : Array Class}
    {profile : Option Profile} {console : Array Text} :
    Still size m { m with symbols, classes, profile, console } :=
  ⟨⟨h.regs, h.pos, h.small, h.high, h.roots, h.heap, h.methods, h.frames, h.nodes, h.duties⟩,
    Nat.le_refl _, Nat.le_refl _, rfl⟩

/-- A change of memory. -/
theorem Fit.memory (h : m.Fit size) {memory : Memory} (hgrows : m.memory.heap.size ≤ memory.heap.size)
    (hfits : memory.Fits) : Still size m { m with memory } :=
  ⟨⟨h.regs, h.pos, h.small, h.high, fun v hv => (h.roots v hv).mono hgrows, hfits, h.methods,
    h.frames, h.nodes, h.duties⟩, hgrows, Nat.le_refl _, rfl⟩

theorem Fit.pool (h : m.Fit size) (pool : Pool) :
    Still size m { m with memory := { m.memory with pool } } :=
  h.memory (Nat.le_refl _) h.heap

theorem Fit.raiseHigh (h : m.Fit size) {high : Int64} (hle : high.toInt ≤ size) :
    Still size m { m with regHigh := high } :=
  ⟨⟨h.regs, h.pos, h.small, hle, h.roots, h.heap, h.methods, h.frames, h.nodes, h.duties⟩,
    Nat.le_refl _, Nat.le_refl _, rfl⟩

theorem Fit.modifyMethods (h : m.Fit size) (id : MethodId) {f : Method → Method}
    (hf : ∀ k, (f k).body = k.body) : Still size m { m with methods := m.methods.modify id f } := by
  refine ⟨⟨h.regs, h.pos, h.small, h.high, h.roots, h.heap, fun k hk => ?_, h.frames, h.nodes,
    h.duties⟩, Nat.le_refl _, Nat.le_refl _, rfl⟩
  obtain ⟨i, hi, rfl⟩ := Array.mem_iff_getElem.1 hk
  have hlt : i < m.methods.size := by simpa using hi
  have hold := h.methods _ (Array.getElem_mem hlt)
  rw [Array.getElem_modify]
  split
  · rw [hf]
    exact hold
  · exact hold

theorem Amends.still (hamends : Amends MethodBody.Fits m m') (h : m.Fit size) : Still size m m' := by
  cases hamends with
  | pool pool => exact h.pool pool
  | name t => exact h.report
  | define c hbody =>
    refine ⟨⟨h.regs, h.pos, h.small, h.high, h.roots, h.heap, fun k hk => ?_, h.frames, h.nodes,
      h.duties⟩, Nat.le_refl _, Nat.le_refl _, rfl⟩
    rcases Array.mem_push.1 hk with hk | rfl
    · exact h.methods k hk
    · exact hbody
  | unlink c id => exact h.report
  | count id d => exact h.modifyMethods id fun _ => rfl
  | report profile console => exact h.report
  | mark _ hfits => exact h.raiseHigh (h.regs ▸ hfits)

theorem Clerical.still {α : Type} {x : Action α} (hx : Clerical MethodBody.Fits x) (h : m.Fit size) :
    Leads Contained x m fun _ m' => Still size m m' :=
  (hx.amends m).imp (fun _ _ hfault => hfault.1) fun _ _ hamended =>
    hamended.keeps (fun _ _ hamends hstill => hstill.trans (hamends.still hstill.fit)) (.refl h)

theorem Fit.regs_within (h : m.Fit size) (hv : v ∈ m.regs) : v.Within m.memory.heap.size := by
  refine h.roots v ?_
  simp [Machine.roots, hv]

theorem Fit.constants_within (h : m.Fit size) {k : Symbol} (hv : m.constant? k = some v) :
    v.Within m.memory.heap.size := by
  unfold constant? at hv
  obtain ⟨a, b, heq, -⟩ := List.lookup_eq_some_iff.1 hv
  refine h.roots v ?_
  simp [Machine.roots, heq]

/-! ### Memory -/

theorem onMemory_still (h : m.Fit size) {change : Memory → Memory × Option Fault}
    (hfits : (change m.memory).1.Fits ∧ (change m.memory).1.heap.size = m.memory.heap.size)
    (hfault : ∀ e, (change m.memory).2 = some e → e = .overdrawn ∨ ∃ cause, e = .fatal cause) :
    Leads Contained (onMemory change) m fun _ m' => Still size m m' := by
  simp only [onMemory, Leads.bind_eq, Leads.modifyGet_eq]
  split
  · next e he => exact hfault e he
  · exact h.memory (Nat.le_of_eq hfits.2.symm) hfits.1

theorem release_still (h : m.Fit size) (hv : v.Within m.memory.heap.size) :
    Leads Contained (release v) m fun _ m' => Still size m m' := by
  unfold release
  split
  · exact .refl h
  · obtain ⟨hfits, hsize, hfault⟩ := Memory.settle_fits [.drop v] h.heap fun c hc => by
      cases List.mem_singleton.1 hc
      exact hv
    exact onMemory_still h ⟨hfits, hsize⟩ hfault

theorem acquire_still (h : m.Fit size) (hv : v.Within m.memory.heap.size) :
    Leads Contained (acquire v) m fun _ m' => Still size m m' := by
  unfold acquire
  split
  · exact .refl h
  · next r hr =>
    have hlt := hv r hr
    apply onMemory_still h
    · simp only [Memory.acquire, hr, hlt, dite_true]
      split
      · exact ⟨h.heap, rfl⟩
      · have hbody := h.heap _ (Array.getElem_mem hlt)
        exact ⟨h.heap.set hlt hbody, Array.size_set hlt⟩
    · intro e he
      simp only [Memory.acquire, hr, hlt, dite_true] at he
      split at he
      · exact .inr ⟨_, (Option.some.inj he).symm⟩
      · cases he

theorem allocate?_still (h : m.Fit size) {n : Int64} (body : Body)
    (hbody : body.Fits (m.memory.heap.size + 1)) :
    Leads Contained (allocate? n body) m fun r m' =>
      Still size m m' ∧ ∀ q, r = some q → q < m'.memory.heap.size := by
  simp only [allocate?, Leads.modifyGet_eq]
  cases ha : m.memory.allocate? n body with
  | none => exact ⟨.refl h, nofun⟩
  | some p =>
    obtain ⟨pool, -, rfl⟩ := Option.map_eq_some_iff.1 ha
    refine ⟨h.memory (by simp) fun o ho => ?_, fun q hq => ?_⟩
    · simp only [Array.size_push]
      rcases Array.mem_push.1 ho with ho | rfl
      · exact (h.heap o ho).mono (Nat.le_succ _)
      · exact hbody
    · cases hq
      simp

theorem mustBeLive_contained {Q : Unit → Machine → Prop} (h : Q () m) :
    Leads Contained (mustBeLive v) m Q := by
  simp only [mustBeLive, Leads.bind_eq, Leads.get_eq]
  split
  · exact fatal_contained
  · exact h

/-! ### Registers -/

theorem reg_contained {i : Int64} {Q : Value → Machine → Prop} (h : m.Fit size)
    (hi : InFile size i) (hQ : ∀ v, v.Within m.memory.heap.size → Q v m) :
    Leads Contained (reg i) m Q := by
  have hlt : i.toInt < m.regs.size := by
    rw [h.regs]
    exact hi.2
  obtain ⟨v, hv⟩ := entryAt?_isSome hi.1 hlt
  simp only [reg, present, hv, Leads.bind_eq, Leads.get_eq]
  exact hQ v (h.regs_within (mem_of_entryAt? hv))

theorem Fit.setReg (h : m.Fit size) (n : Nat) (hv : v.Within m.memory.heap.size) :
    Still size m { m with regs := m.regs.setIfInBounds n v } := by
  refine ⟨⟨?_, h.pos, h.small, h.high, fun x hx => ?_, h.heap, h.methods, h.frames, h.nodes, h.duties⟩,
    Nat.le_refl _, Nat.le_refl _, rfl⟩
  · rw [Array.size_setIfInBounds]
    exact h.regs
  · simp only [Machine.roots, List.append_assoc, List.mem_append, Array.toList_setIfInBounds] at hx
    rcases hx with hx | hx
    · rcases List.mem_or_eq_of_mem_set hx with hx | rfl
      · exact h.regs_within (Array.mem_toList_iff.1 hx)
      · exact hv
    · refine h.roots x ?_
      simp only [Machine.roots, List.append_assoc, List.mem_append]
      exact .inr hx

theorem exchangeReg_still {i : Int64} (h : m.Fit size) (hi : InFile size i)
    (hv : v.Within m.memory.heap.size) :
    Leads Contained (exchangeReg i v) m fun old m' =>
      Still size m m' ∧ old.Within m'.memory.heap.size := by
  simp only [exchangeReg, Leads.bind_eq]
  refine reg_contained h hi fun old hold => ?_
  exact ⟨h.setReg _ hv, hold⟩

theorem setReg_still {i : Int64} (h : m.Fit size) (hi : InFile size i)
    (hv : v.Within m.memory.heap.size) :
    Leads Contained (setReg i v) m fun _ m' => Still size m m' := by
  simp only [setReg, Leads.bind_eq]
  refine (exchangeReg_still h hi hv).mono fun old m₁ ⟨h₁, hold⟩ => ?_
  exact (release_still h₁.fit hold).mono fun _ _ h₂ => h₁.trans h₂

/-- Stores an immediate value. -/
theorem setReg_of_immediate {i : Int64} (h : m.Fit size) (hi : InFile size i)
    (hv : v.ref? = none) : Leads Contained (setReg i v) m fun _ m' => Still size m m' :=
  setReg_still h hi (Value.within_of_immediate hv)

theorem clearRegs_still {start : Int64} {count : Nat} (h : m.Fit size)
    (hrange : RangeInFile size start count) :
    Leads Contained (clearRegs start count) m fun _ m' => Still size m m' := by
  induction count generalizing start m with
  | zero => exact .refl h
  | succ count ih =>
    simp only [clearRegs, clearReg, Leads.bind_eq]
    refine (setReg_of_immediate h hrange.head rfl).mono fun _ m₁ h₁ => ?_
    exact (ih h₁.fit (hrange.tail h.small)).mono fun _ _ h₂ => h₁.trans h₂

theorem scrub_still {start : Int64} {count : Nat} (h : m.Fit size)
    (hrange : RangeInFile size start count) :
    Leads Contained (scrub start count) m fun _ m' => Still size m m' := by
  induction count generalizing start m with
  | zero => exact .refl h
  | succ count ih =>
    simp only [scrub, Leads.bind_eq]
    refine reg_contained h hrange.head fun v _ => ?_
    split
    · simp only [clearReg, Leads.bind_eq]
      refine (setReg_of_immediate h hrange.head rfl).mono fun _ m₁ h₁ => ?_
      exact (ih h₁.fit (hrange.tail h.small)).mono fun _ _ h₂ => h₁.trans h₂
    · exact ih h (hrange.tail h.small)

theorem scrubAbove_still {top : Int64} (h : m.Fit size) (htop : 0 ≤ top.toInt) :
    Leads Contained (scrubAbove top) m fun _ m' => Still size m m' := by
  simp only [scrubAbove, Leads.bind_eq, Leads.get_eq]
  have hrange : RangeInFile size top (span top m.regHigh) := by
    intro hpos
    have hhigh := h.high
    unfold span at hpos ⊢
    omega
  refine (scrub_still h hrange).mono fun _ m₁ h₁ => ?_
  split
  · next hlt =>
    rw [Int64.lt_iff_toInt_lt] at hlt
    have hhigh := h.high
    exact h₁.trans (h₁.fit.raiseHigh (by omega))
  · exact h₁

/-- A window that was entered lies in the register file. -/
theorem enterWindow_still {base count : Int64} (h : m.Fit size) :
    Leads Contained (enterWindow base count) m fun _ m' =>
      Still size m m' ∧ 0 ≤ base.toInt ∧ (base + count).toInt ≤ size := by
  simp only [enterWindow, Leads.bind_eq, Leads.get_eq]
  split
  · exact fatal_contained
  · next hfits =>
    obtain ⟨hbase, htop⟩ := not_or.1 hfits
    rw [Int64.lt_iff_toInt_lt] at hbase
    rw [h.regs] at htop
    have hzero : (0 : Int64).toInt = 0 := rfl
    have hle : (base + count).toInt ≤ size := by omega
    split
    · exact ⟨h.raiseHigh hle, by omega, hle⟩
    · exact ⟨.refl h, by omega, hle⟩

/-! ### Constants -/

theorem mem_rebind {x : Symbol × Value} {t : Symbol} {v : Value} {l : List (Symbol × Value)}
    (h : x ∈ rebind t v l) : x = (t, v) ∨ x ∈ l := by
  induction l with
  | nil =>
    rw [rebind, List.mem_singleton] at h
    exact .inl h
  | cons y l ih =>
    rw [rebind] at h
    split at h
    · next hy =>
      rcases List.mem_cons.1 h with rfl | h
      · exact .inl (hy ▸ rfl)
      · exact .inr (List.mem_cons_of_mem _ h)
    · rcases List.mem_cons.1 h with rfl | h
      · exact .inr List.mem_cons_self
      · exact (ih h).imp_right (List.mem_cons_of_mem _)

theorem Fit.rebind (h : m.Fit size) (k : Symbol) (hv : v.Within m.memory.heap.size) :
    Still size m { m with constants := rebind k v m.constants } := by
  refine ⟨⟨h.regs, h.pos, h.small, h.high, fun x hx => ?_, h.heap, h.methods, h.frames, h.nodes, h.duties⟩,
    Nat.le_refl _, Nat.le_refl _, rfl⟩
  have hrest : ∀ y ∈ m.constants.map (·.2) ++ ([m.excMessage, m.pendingMessage, m.topSelf] ++
      ([] ++ m.duties).flatMap Duty.made), y.Within m.memory.heap.size := by
    refine fun y hy => h.roots y ?_
    simp only [Machine.roots, List.append_assoc, List.mem_append] at hy ⊢
    exact .inr hy
  simp only [Machine.roots, List.append_assoc, List.mem_append] at hx
  rcases hx with hx | hx | hx
  · exact h.regs_within (Array.mem_toList_iff.1 hx)
  · obtain ⟨y, hy, rfl⟩ := List.mem_map.1 hx
    rcases mem_rebind hy with rfl | hy
    · exact hv
    · exact hrest _ (List.mem_append_left _ (List.mem_map_of_mem hy))
  · exact hrest x (List.mem_append_right _ (List.mem_append.2 hx))

theorem setConstant_still (h : m.Fit size) (k : Symbol) (hv : v.Within m.memory.heap.size) :
    Leads Contained (setConstant k v) m fun _ m' => Still size m m' := by
  simp only [setConstant, Leads.bind_eq, Leads.get_eq]
  refine (acquire_still h hv).mono fun _ m₁ h₁ => ?_
  split
  · next old hold =>
    simp only [Leads.bind_eq]
    refine (release_still h₁.fit (h₁.fit.constants_within hold)).mono fun _ m₂ h₂ => ?_
    have hv₂ := hv.mono (h₁.trans h₂).grows
    exact (h₁.trans h₂).trans (h₂.fit.rebind k hv₂)
  · exact h₁.trans (h₁.fit.rebind k (hv.mono h₁.grows))

theorem getConstant_still (h : m.Fit size) (k : Symbol) :
    Leads Contained (getConstant k) m fun v m' => Still size m m' ∧ v.Within m'.memory.heap.size := by
  simp only [getConstant, Leads.bind_eq, Leads.get_eq]
  split
  · next v hv =>
    have hwithin := h.constants_within hv
    simp only [Leads.bind_eq, Leads.pure_eq]
    exact (acquire_still h hwithin).mono fun _ _ h₁ => ⟨h₁, hwithin.mono h₁.grows⟩
  · exact ⟨.refl h, Value.within_of_immediate rfl⟩

/-! ### Objects -/

/-- A value for a new object, or nil. -/
theorem newString_still (h : m.Fit size) (t : Text) :
    Leads Contained (newString t) m fun v m' => Still size m m' ∧ v.Within m'.memory.heap.size := by
  simp only [newString, Leads.bind_eq]
  refine (allocate?_still h (.string t) trivial).mono fun r m₁ ⟨h₁, hr⟩ => ?_
  cases r with
  | none => exact ⟨h₁, Value.within_of_immediate rfl⟩
  | some r =>
    refine ⟨h₁, fun q hq => ?_⟩
    cases hq
    exact hr r rfl

theorem newInstance_still (h : m.Fit size) (c : ClassId) :
    Leads Contained (newInstance c) m fun v m' =>
      Still size m m' ∧ v.Within m'.memory.heap.size := by
  simp only [newInstance, Leads.bind_eq]
  refine (allocate?_still h (.object c {}) nofun).mono fun r m₁ ⟨h₁, hr⟩ => ?_
  cases r with
  | none => exact ⟨h₁, Value.within_of_immediate rfl⟩
  | some r =>
    refine ⟨h₁, fun q hq => ?_⟩
    cases hq
    exact hr r rfl

theorem values_of_instance? (h : m.Fit size) {r : Ref} {c : ClassId} {t : VariableTable}
    (hi : m.instance? v = some (r, c, t)) : ∀ x ∈ t.values, x.Within m.memory.heap.size := by
  unfold instance? at hi
  split at hi
  · split at hi
    · next ho =>
      cases hi
      exact h.heap _ (Array.mem_of_getElem? ho)
    · cases hi
  · cases hi

theorem code_of_proc? (h : m.Fit size) {code : Code} {frame selfFrame : Option FrameId}
    (hp : m.proc? v = some (code, frame, selfFrame)) : code.Sturdy := by
  unfold proc? at hp
  split at hp
  · split at hp
    · next ho =>
      cases hp
      exact h.heap _ (Array.mem_of_getElem? ho)
    · cases hp
  · cases hp

theorem putVariables_still (h : m.Fit size) (r : Ref) {t : VariableTable} (pool : Pool)
    (ht : ∀ x ∈ t.values, x.Within m.memory.heap.size) :
    Leads Contained (putVariables r t pool) m fun _ m' => Still size m m' := by
  simp only [putVariables, Leads.modify_eq]
  refine h.memory (by simp) fun o ho => ?_
  rw [Array.size_modify]
  obtain ⟨i, hi, rfl⟩ := Array.mem_iff_getElem.1 ho
  rw [Array.getElem_modify]
  have hlt : i < m.memory.heap.size := by simpa using hi
  have hold := h.heap _ (Array.getElem_mem hlt)
  split
  · split
    · exact ht
    · exact hold
  · exact hold

theorem values_insertEntry (k : Symbol) (v : Value) (es : List (Symbol × Value)) :
    ∀ x ∈ (VariableTable.insertEntry k v es).map (·.2), x = v ∨ x ∈ es.map (·.2) := by
  induction es with
  | nil => simp [VariableTable.insertEntry]
  | cons e es ih =>
    intro x hx
    unfold VariableTable.insertEntry at hx
    split at hx
    · exact List.mem_cons.1 hx
    · split at hx
      · exact (List.mem_cons.1 hx).imp_right (List.mem_cons_of_mem _)
      · rcases List.mem_cons.1 hx with rfl | hx
        · exact .inr List.mem_cons_self
        · exact (ih x hx).imp_right (List.mem_cons_of_mem _)

/-- A table holds what it held before and what was stored, and gives back what it held. -/
theorem values_of_set? {t t' : VariableTable} {p p' : Pool} {k : Symbol} {old : Option Value}
    (h : t.set? p k v = some (t', p', old)) :
    (∀ x ∈ t'.values, x = v ∨ x ∈ t.values) ∧ ∀ x, old = some x → x ∈ t.values := by
  have hinsert := values_insertEntry k v t.entries
  unfold VariableTable.set? at h
  split at h
  · next old' hget =>
    cases h
    refine ⟨hinsert, fun x hx => ?_⟩
    cases hx
    obtain ⟨a, b, heq, -⟩ := List.lookup_eq_some_iff.1 hget
    simp [VariableTable.values, heq]
  · split at h
    · obtain ⟨p₁, -, heq⟩ := Option.map_eq_some_iff.1 h
      cases heq
      exact ⟨hinsert, by simp⟩
    · cases h
      exact ⟨hinsert, by simp⟩

theorem setVariable_still {obj : Value} (h : m.Fit size) (k : Symbol)
    (hv : v.Within m.memory.heap.size) :
    Leads Contained (setVariable obj k v) m fun _ m' => Still size m m' := by
  simp only [setVariable, Leads.bind_eq, Leads.get_eq]
  split
  · exact .refl h
  · simp only [Leads.bind_eq, Leads.get_eq]
    refine mustBeLive_contained ((acquire_still h hv).mono fun _ m₁ h₁ => ?_)
    have hv₁ := hv.mono h₁.grows
    split
    · next r c t hi =>
      have hvalues := values_of_instance? h₁.fit hi
      split
      · exact (release_still h₁.fit hv₁).mono fun _ _ h₂ => h₁.trans h₂
      · next t' pool old hset =>
        obtain ⟨hnew, hold⟩ := values_of_set? hset
        have ht' : ∀ x ∈ t'.values, x.Within m₁.memory.heap.size := by
          intro x hx
          rcases hnew x hx with rfl | hx
          · exact hv₁
          · exact hvalues x hx
        simp only [Leads.bind_eq]
        refine (putVariables_still h₁.fit r pool ht').mono fun _ m₂ h₂ => ?_
        split
        · next x =>
          have hwithin := (hvalues x (hold x rfl)).mono h₂.grows
          exact (release_still h₂.fit hwithin).mono fun _ _ h₃ => (h₁.trans h₂).trans h₃
        · exact h₁.trans h₂
    · exact h₁

theorem getVariable_still {obj : Value} (h : m.Fit size) (k : Symbol) :
    Leads Contained (getVariable obj k) m fun v m' =>
      Still size m m' ∧ v.Within m'.memory.heap.size := by
  simp only [getVariable, Leads.bind_eq, Leads.get_eq]
  split
  · exact ⟨.refl h, Value.within_of_immediate rfl⟩
  · next r c t hi =>
    simp only [Leads.bind_eq]
    refine mustBeLive_contained ?_
    split
    · exact ⟨.refl h, Value.within_of_immediate rfl⟩
    · next v hget =>
      have hmem : v ∈ t.values := by
        obtain ⟨a, b, heq, -⟩ := List.lookup_eq_some_iff.1 hget
        simp [VariableTable.values, heq]
      have hwithin := values_of_instance? h hi v hmem
      simp only [Leads.bind_eq, Leads.pure_eq]
      exact (acquire_still h hwithin).mono fun _ _ h₁ => ⟨h₁, hwithin.mono h₁.grows⟩

theorem acquireAll_still {vs : List Value} (h : m.Fit size)
    (hvs : ∀ v ∈ vs, v.Within m.memory.heap.size) :
    Leads Contained (acquireAll vs) m fun _ m' => Still size m m' := by
  induction vs generalizing m with
  | nil => exact .refl h
  | cons v vs ih =>
    simp only [acquireAll, Leads.bind_eq]
    refine (acquire_still h (hvs v List.mem_cons_self)).mono fun _ m₁ h₁ => ?_
    refine (ih h₁.fit fun x hx => ?_).mono fun _ _ h₂ => h₁.trans h₂
    exact (hvs x (List.mem_cons_of_mem _ hx)).mono h₁.grows

/-- A copy of a table holds the same values. -/
theorem values_of_copy? {t t' : VariableTable} {p p' : Pool} (h : t.copy? p = some (t', p')) :
    t'.values = t.values := by
  unfold VariableTable.copy? at h
  split at h
  · next hempty =>
    cases h
    simp [VariableTable.values, List.isEmpty_iff.1 hempty]
  · obtain ⟨p, -, heq⟩ := Option.map_eq_some_iff.1 h
    cases heq
    rfl

theorem dupInstance_still {obj : Value} (h : m.Fit size) :
    Leads Contained (dupInstance obj) m fun v m' =>
      Still size m m' ∧ v.Within m'.memory.heap.size := by
  simp only [dupInstance, Leads.bind_eq, Leads.get_eq]
  split
  · exact ⟨.refl h, Value.within_of_immediate rfl⟩
  · next r c t hi =>
    have hvalues := values_of_instance? h hi
    simp only [Leads.bind_eq]
    refine mustBeLive_contained ((newInstance_still h c).mono fun copy m₁ ⟨h₁, hcopy⟩ => ?_)
    split
    · next q _ =>
      simp only [Leads.bind_eq, Leads.get_eq]
      split
      · next t' pool hcp =>
        have hsame := values_of_copy? hcp
        have ht' : ∀ x ∈ t'.values, x.Within m₁.memory.heap.size := by
          intro x hx
          exact (hvalues x (hsame ▸ hx)).mono h₁.grows
        simp only [Leads.bind_eq, Leads.pure_eq]
        refine (putVariables_still h₁.fit q pool ht').mono fun _ m₂ h₂ => ?_
        refine (acquireAll_still h₂.fit fun x hx => (ht' x hx).mono h₂.grows).mono fun _ m₃ h₃ => ?_
        exact ⟨(h₁.trans h₂).trans h₃, hcopy.mono (h₂.trans h₃).grows⟩
      · exact ⟨h₁, hcopy⟩
    · exact ⟨h₁, hcopy⟩

/-! ### Scopes -/

theorem Fit.frame (h : m.Fit size) {f : FrameId} (hf : f < m.frames.size) :
    (m.frameAt f).Fits size := by
  have hget : m.frameAt f = m.frames[f] := by
    simp [Machine.frameAt, hf]
  rw [hget]
  exact h.frames _ (Array.getElem_mem hf)

theorem Fit.onChain (h : m.Fit size) {f : FrameId} (hf : f ∈ m.chain) :
    (m.frameAt f).Fits size :=
  h.frame (h.nodes f (List.mem_append_left _ (List.mem_append_left _ hf)))

theorem Fit.frameAt (h : m.Fit size) {f : FrameId} (hf : (m.frameAt f).freed = false) :
    (m.frameAt f).Fits size := by
  rcases Nat.lt_or_ge f m.frames.size with hlt | hge
  · exact h.frame hlt
  · simp [Machine.frameAt, Array.getD_eq_getD_getElem?, Array.getElem?_eq_none hge] at hf

theorem Fit.frameWindow (h : m.Fit size) (f : Option FrameId) :
    InFile size (m.frameWindow f) := by
  have hzero : InFile size 0 := by
    have hpos := h.pos
    have hzero : (0 : Int64).toInt = 0 := rfl
    exact ⟨by omega, by omega⟩
  cases f with
  | none => exact hzero
  | some f =>
    simp only [Machine.frameWindow]
    split
    · exact hzero
    · next hfreed => exact (h.frameAt (by simpa using hfreed)).window.base_inFile

theorem followSelf_contained (hops : Nat) {Q : Value → Machine → Prop} (h : m.Fit size)
    (hv : v.Within m.memory.heap.size) (hQ : ∀ w, w.Within m.memory.heap.size → Q w m) :
    Leads Contained (followSelf hops v) m Q := by
  induction hops generalizing v with
  | zero =>
    rw [followSelf]
    simp only [Leads.bind_eq, Leads.get_eq]
    split
    · exact hQ v hv
    · exact reg_contained h (h.frameWindow none) hQ
  | succ hops ih =>
    rw [followSelf]
    simp only [Leads.bind_eq, Leads.get_eq]
    split
    · exact hQ v hv
    · simp only [Leads.bind_eq, Leads.get_eq]
      exact reg_contained h (h.frameWindow _) fun w hw => ih hw

theorem self_contained {Q : Value → Machine → Prop} (h : m.Fit size) (hx : m.context.Fits size)
    (hQ : ∀ v, v.Within m.memory.heap.size → Q v m) : Leads Contained self m Q := by
  simp only [self, Leads.bind_eq, Leads.get_eq]
  exact reg_contained h hx.inFile fun v hv => followSelf_contained _ h hv hQ

theorem scopeOf_contained (level : Nat) {Q : Option Int64 → Machine → Prop} (h : m.Fit size)
    (hQ : ∀ b, (∀ up, b = some up → 0 ≤ up.toInt) → Q b m) :
    Leads Contained (scopeOf level v) m Q := by
  have hnone : Q none m := hQ none nofun
  induction level generalizing v with
  | zero =>
    rw [scopeOf]
    simp only [Leads.bind_eq, Leads.get_eq]
    split
    · exact hnone
    · split
      · exact hnone
      · refine hQ _ fun up hup => ?_
        cases hup
        exact (h.frameWindow _).1
  | succ level ih =>
    rw [scopeOf]
    simp only [Leads.bind_eq, Leads.get_eq]
    split
    · exact hnone
    · split
      · exact hnone
      · simp only [Leads.bind_eq]
        exact reg_contained h (h.frameWindow _) fun w _ => ih

theorem outerBase_contained (level : Int64) {Q : Option Int64 → Machine → Prop} (h : m.Fit size)
    (hx : m.context.Fits size) (hQ : ∀ b, (∀ up, b = some up → 0 ≤ up.toInt) → Q b m) :
    Leads Contained (outerBase level) m Q := by
  simp only [outerBase, Leads.bind_eq, Leads.get_eq]
  exact reg_contained h hx.inFile fun v _ => scopeOf_contained _ h hQ

theorem blockGiven_contained {Q : Bool → Machine → Prop} (h : m.Fit size) (hQ : ∀ b, Q b m) :
    Leads Contained blockGiven m Q := by
  simp only [blockGiven, Leads.bind_eq, Leads.get_eq]
  split
  · exact hQ _
  · next f rest hfs =>
    have hframe : (m.frameAt f).Fits size := h.onChain (hfs ▸ List.mem_cons_self)
    split
    · exact hQ _
    · simp only [Leads.bind_eq]
      refine reg_contained h hframe.window.base_inFile fun v _ => ?_
      split
      · simp only [Leads.bind_eq]
        exact reg_contained h (hframe.window.block_inFile h.small) fun w _ => hQ _
      · exact hQ _
      · split
        · exact hQ _
        · next hfreed =>
          have hscope := h.frameAt (by simpa using hfreed)
          simp only [Leads.bind_eq]
          exact reg_contained h (hscope.window.block_inFile h.small) fun w _ => hQ _

theorem newProc_still {code : Code} (h : m.Fit size) (hx : m.context.Fits size)
    (hcode : code.Sturdy) :
    Leads Contained (newProc code) m fun v m' => Still size m m' ∧ v.Within m'.memory.heap.size := by
  simp only [newProc, Leads.bind_eq, Leads.get_eq]
  refine reg_contained h hx.inFile fun v _ => ?_
  refine (allocate?_still h (.proc code _ _) hcode).mono fun r m₁ ⟨h₁, hr⟩ => ?_
  cases r with
  | none => exact ⟨h₁, Value.within_of_immediate rfl⟩
  | some r =>
    refine ⟨h₁, fun q hq => ?_⟩
    cases hq
    exact hr r rfl

end Machine

end ObjectMachine
