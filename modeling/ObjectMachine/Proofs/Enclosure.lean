import ObjectMachine.Proofs.Apart
import ObjectMachine.Proofs.Making
import ObjectMachine.Proofs.Receivers
import ObjectMachine.Proofs.Validity

/-! Registers within reach. An instruction that is no call and reaches for no outer scope touches the
registers of its window only. What it does to a machine it does to each other one that differs in
other registers only, and these it leaves as they are. -/

namespace ObjectMachine

/-- The operations that reach out of their window: calls, and those on the registers of outer scopes. -/
def Opcode.outward : List Opcode := [.send, .sendBlock, .callSuper, .getOuter, .setOuter]

/-- The registers of the window in which code runs from `base` on. -/
def Code.Reaches (code : Code) (base : Int64) (j : Nat) : Prop :=
  base.toInt ≤ j ∧ (j : Int) < base.toInt + code.block.registers.toInt

def Block.HasRegister (b : Block) (k : Int64) : Prop := 0 ≤ k.toInt ∧ k.toInt < b.registers.toInt

/-- Everything that an instruction of a block refers to exists. -/
def Inst.InRange (i : Inst) (b : Block) : Prop :=
  ∀ slot kind n, i.operands[slot]? = some (kind, n) → b.Refers (i.span slot) n.toInt kind

namespace Inst.InRange

variable {b : Block} {i : Inst} {k : Int64}

theorem register (h : i.InRange b) (slot : Nat) (hk : i.operands[slot]? = some (.register, k)) :
    b.HasRegister k := by
  obtain ⟨hlow, hhigh⟩ := h slot _ k hk
  have hspan := i.span_cases slot
  exact ⟨hlow, by omega⟩

/-- The register after it is there too, where the operation uses both. -/
theorem register_next (h : i.InRange b) (slot : Nat) (hk : i.operands[slot]? = some (.register, k))
    (hspan : i.span slot = 2) : b.HasRegister (k + 1) := by
  obtain ⟨hlow, hhigh⟩ := h slot _ k hk
  have hregisters := b.registers.toInt_lt
  have hone : (1 : Int64).toInt = 1 := rfl
  have hnext : (k + 1).toInt = k.toInt + 1 := toInt_add (by omega) (by omega)
  exact ⟨by omega, by omega⟩

end Inst.InRange

namespace Machine

variable {α β : Type} {m n m' n' : Machine}

/-! ### Registers within reach -/

/-- Machines with the same registers within `W`, and other ones elsewhere. In all else they are the
same. -/
structure Beside (W : Nat → Prop) (m n : Machine) : Prop where
  alone : n = { m with regs := n.regs }
  size : n.regs.size = m.regs.size
  same : ∀ j, W j → n.regs[j]? = m.regs[j]?

structure Untouched (W : Nat → Prop) (m m' : Machine) : Prop where
  size : m'.regs.size = m.regs.size
  same : ∀ j, ¬W j → m'.regs[j]? = m.regs[j]?

/-- Two runs, one of them from `m`, end in the same way, beside each other. -/
inductive Parallel (W : Nat → Prop) (m : Machine) :
    EStateM.Result Fault Machine α → EStateM.Result Fault Machine α → Prop
  | ok {a : α} {m' n' : Machine} (h : Beside W m' n') (hm : Untouched W m m') :
      Parallel W m (.ok a m') (.ok a n')
  | error {e : Fault} {m' n' : Machine} (h : Beside W m' n') (hm : Untouched W m m') :
      Parallel W m (.error e m') (.error e n')

/-- The action does the same on two machines that are beside each other, and it reads and writes no
registers outside of `W`. -/
def Enclosed (W : Nat → Prop) (x : Action α) (m n : Machine) : Prop := Parallel W m (x m) (x n)

variable {W : Nat → Prop} {x : Action α} {f : α → Action β}

theorem Beside.refl (m : Machine) : Beside W m m := ⟨rfl, rfl, fun _ _ => rfl⟩

theorem Untouched.refl (m : Machine) : Untouched W m m := ⟨rfl, fun _ _ => rfl⟩

theorem Untouched.trans {m₁ : Machine} (h : Untouched W m m₁) (h' : Untouched W m₁ m') :
    Untouched W m m' :=
  ⟨h'.size.trans h.size, fun j hj => (h'.same j hj).trans (h.same j hj)⟩

theorem Untouched.of_regs (h : m'.regs = m.regs) : Untouched W m m' :=
  ⟨congrArg Array.size h, fun _ _ => by rw [h]⟩

theorem Beside.change (h : Beside W m n) (hm : m'.regs = m.regs) :
    Beside W m' { m' with regs := n.regs } :=
  ⟨rfl, h.size.trans (congrArg Array.size hm).symm, fun j hj => (h.same j hj).trans (by rw [hm])⟩

namespace Enclosed

theorem bind (hx : Enclosed W x m n)
    (hf : ∀ a m' n', x m = .ok a m' → Beside W m' n' → Enclosed W (f a) m' n') :
    Enclosed W (x >>= f) m n := by
  unfold Enclosed at hx ⊢
  change Parallel W m (EStateM.bind x f m) (EStateM.bind x f n)
  unfold EStateM.bind
  generalize hxm : x m = r at hx
  generalize x n = r' at hx
  cases hx with
  | error h hm => exact .error h hm
  | @ok a m' n' h hm =>
    have hnext := hf a m' n' hxm h
    unfold Enclosed at hnext
    dsimp only
    generalize f a m' = r at hnext
    generalize f a n' = r' at hnext
    cases hnext with
    | ok h' hm' => exact .ok h' (hm.trans hm')
    | error h' hm' => exact .error h' (hm.trans hm')

theorem of_apart (hx : Apart x) (h : Beside W m n) : Enclosed W x m n := by
  have hn : x n = onState (fun m' => { m' with regs := n.regs }) (x m) := by
    conv_lhs => rw [h.alone]
    exact hx m n.regs h.size
  have hregs := hx.regs m
  unfold Enclosed
  rw [hn]
  cases hxm : x m with
  | ok a m' => exact .ok (h.change (hregs.of_ok hxm)) (.of_regs (hregs.of_ok hxm))
  | error e m' => exact .error (h.change (hregs.of_error hxm)) (.of_regs (hregs.of_error hxm))

theorem apart_bind (hx : Apart x) (h : Beside W m n)
    (hf : ∀ a m' n', x m = .ok a m' → Beside W m' n' → Enclosed W (f a) m' n') :
    Enclosed W (x >>= f) m n :=
  (of_apart hx h).bind hf

theorem get_bind {f : Machine → Action β} (h : Beside W m n)
    (hsame : ∀ rs : Array Value, rs.size = m.regs.size → f { m with regs := rs } = f m)
    (hf : Enclosed W (f m) m n) : Enclosed W (get >>= f) m n := by
  have hn : f n = f m := by
    rw [h.alone]
    exact hsame n.regs h.size
  change Parallel W m (f m m) (f n n)
  rw [hn]
  exact hf

/-- What is found without doing anything. -/
theorem present_bind {o : Option α} (h : Beside W m n) (hm : x m = present o m)
    (hn : x n = present o n) (hf : ∀ a, o = some a → Enclosed W (f a) m n) :
    Enclosed W (x >>= f) m n := by
  change Parallel W m (EStateM.bind x f m) (EStateM.bind x f n)
  unfold EStateM.bind
  rw [hm, hn]
  cases o with
  | none => exact .error h (.refl m)
  | some a => exact hf a rfl

/-- What is outside of reach is left alone. -/
theorem untouched (h : Enclosed W x m n) :
    Leads (fun _ m' => Untouched W m m') x m fun _ m' => Untouched W m m' := by
  unfold Enclosed at h
  unfold Leads
  generalize x m = r at h
  generalize x n = r' at h
  cases h with
  | ok _ hm => exact hm
  | error _ hm => exact hm

end Enclosed

/-! ### Reading and writing -/

theorem Beside.entry_eq {i : Int64} (h : Beside W m n) (hi : W i.toInt.toNat) :
    entryAt? n.regs i = entryAt? m.regs i := by
  unfold entryAt?
  rw [h.same _ hi]

theorem reg_enclosed {i : Int64} (h : Beside W m n) (hi : W i.toInt.toNat) :
    Enclosed W (reg i) m n := by
  change Parallel W m (present (entryAt? m.regs i) m)
    (present (entryAt? n.regs i) n)
  rw [h.entry_eq hi]
  cases entryAt? m.regs i with
  | none => exact .error h (.refl m)
  | some v => exact .ok h (.refl m)

theorem exchangeReg_enclosed {i : Int64} (h : Beside W m n) (hi : W i.toInt.toNat) (v : Value) :
    Enclosed W (exchangeReg i v) m n := by
  refine (reg_enclosed h hi).bind fun old m₁ n₁ _ h₁ => ?_
  have hset : ∀ (rs : Array Value) j, ¬W j → (rs.setIfInBounds i.toInt.toNat v)[j]? = rs[j]? := by
    intro rs j hj
    rw [Array.getElem?_setIfInBounds, if_neg]
    rintro rfl
    exact hj hi
  obtain ⟨halone, hsize, hsame⟩ := h₁
  generalize n₁.regs = rs at *
  subst halone
  refine .ok ⟨rfl, ?_, fun j hj => ?_⟩ ⟨Array.size_setIfInBounds, hset m₁.regs⟩
  · exact Array.size_setIfInBounds.trans (hsize.trans Array.size_setIfInBounds.symm)
  · dsimp only
    rw [Array.getElem?_setIfInBounds, Array.getElem?_setIfInBounds, hsame j hj, hsize]

theorem setReg_enclosed {i : Int64} (h : Beside W m n) (hi : W i.toInt.toNat) (v : Value) :
    Enclosed W (setReg i v) m n :=
  (exchangeReg_enclosed h hi v).bind fun old _ _ _ h₁ => .of_apart (release_apart old) h₁

theorem clearRegs_enclosed {start : Int64} {count : Nat} (h : Beside W m n)
    (hW : ∀ j : Int, start.toInt ≤ j → j < start.toInt + count → W j.toNat)
    (htop : start.toInt + count < 2 ^ 63) : Enclosed W (clearRegs start count) m n := by
  induction count generalizing start m n with
  | zero => exact .ok h (.refl m)
  | succ count ih =>
    have hlow := start.le_toInt
    have hone : (1 : Int64).toInt = 1 := rfl
    have hnext : (start + 1).toInt = start.toInt + 1 := toInt_add (by omega) (by omega)
    refine (setReg_enclosed h (hW _ (Int.le_refl _) (by omega)) .empty).bind fun _ _ _ _ h₁ => ?_
    exact ih h₁ (fun j hj hlt => hW j (by omega) (by omega)) (by omega)

/-! ### The receiver -/

/-- Looking something up changes nothing, and an index is all that can go wrong. -/
def LooksUp (x : Action α) (m : Machine) : Prop :=
  Leads (fun e m' => e = .outOfBounds ∧ m' = m) x m fun _ m' => m' = m

theorem reg_looksUp (i : Int64) : LooksUp (reg i) m := by
  simp only [LooksUp, reg, Leads.bind_eq, Leads.get_eq]
  cases entryAt? m.regs i with
  | none => exact ⟨rfl, rfl⟩
  | some v => exact (rfl : m = m)

theorem followSelf_looksUp (hops : Nat) (v : Value) : LooksUp (followSelf hops v) m := by
  induction hops generalizing v with
  | zero =>
    rw [LooksUp, followSelf]
    simp only [Leads.bind_eq, Leads.get_eq]
    split
    · exact (rfl : m = m)
    · exact reg_looksUp _
  | succ hops ih =>
    rw [LooksUp, followSelf]
    simp only [Leads.bind_eq, Leads.get_eq]
    split
    · exact (rfl : m = m)
    · simp only [Leads.bind_eq, Leads.get_eq]
      refine (reg_looksUp _).mono ?_
      rintro v _ rfl
      exact ih v

theorem self_looksUp : LooksUp self m := by
  simp only [LooksUp, self, Leads.bind_eq, Leads.get_eq]
  refine (reg_looksUp _).mono ?_
  rintro v _ rfl
  exact followSelf_looksUp _ v

def receiver? (m : Machine) : Option Value :=
  entryAt? m.regs (m.receiverWindow (m.depth + 1).toNat m.context.base)

theorem self_eq_present : self m = present m.receiver? m := by
  cases hr : m.receiver? with
  | some s => exact self_iff.2 hr
  | none =>
    have hlookup := self_looksUp (m := m)
    unfold LooksUp Leads at hlookup
    split at hlookup
    · next s m' hs =>
      subst hlookup
      exact absurd ((self_iff.1 hs).symm.trans hr) (Option.some_ne_none s)
    · next hs =>
      obtain ⟨rfl, rfl⟩ := hlookup
      exact hs

/-- Without a block the receiver is at hand. -/
theorem receiver?_of_plain (h : m.blockAt m.context.base = none) :
    m.receiver? = entryAt? m.regs m.context.base := by
  have hscope : m.selfScope m.context.base = none := by
    rw [selfScope, h]
    rfl
  rw [receiver?, receiverWindow_of_none hscope]

/-- The receiver depends on the registers on the way to it. -/
theorem Beside.receiver_eq (h : Beside W m n)
    (hway : ∀ w ∈ m.selfWindows, entryAt? n.regs w = entryAt? m.regs w) :
    n.receiver? = m.receiver? := by
  have hscope : ∀ w ∈ m.selfWindows, n.selfScope w = m.selfScope w := by
    intro w hw
    rw [selfScope, selfScope, blockAt, blockAt, hway w hw, h.alone]
    rfl
  have hwindow := (trail_congr hscope).2
  have hcontext : n.context = m.context := by rw [h.alone]
  have hdepth : n.depth = m.depth := by rw [h.alone]
  rw [receiver?, hcontext, hdepth, hwindow]
  exact hway _ receiverWindow_mem

/-! ### Instructions -/

/-- The machine runs this code in a window that lies inside the register file. -/
structure Windowed (code : Code) (m : Machine) : Prop where
  running : m.context.code = some code
  low : 0 ≤ m.context.base.toInt
  top : m.context.base.toInt + code.block.registers.toInt ≤ m.regs.size
  small : m.regs.size < 2 ^ 63

variable {code : Code} {i : Inst} {k : Int64}

namespace Windowed

theorem toInt_add (hm : Windowed code m) (hk : code.block.HasRegister k) :
    (m.context.base + k).toInt = m.context.base.toInt + k.toInt := by
  obtain ⟨hlow, hhigh⟩ := hk
  have hbase := hm.low
  have htop := hm.top
  have hsmall := hm.small
  exact ObjectMachine.toInt_add (by omega) (by omega)

theorem reaches (hm : Windowed code m) (hk : code.block.HasRegister k) :
    code.Reaches m.context.base (m.context.base + k).toInt.toNat := by
  have hbase := hm.low
  have hsum := hm.toInt_add hk
  obtain ⟨hlow, hhigh⟩ := hk
  unfold Code.Reaches
  omega

/-- A window with a register has a first one. -/
theorem reaches_base (hm : Windowed code m) (hk : code.block.HasRegister k) :
    code.Reaches m.context.base m.context.base.toInt.toNat := by
  have hbase := hm.low
  obtain ⟨hlow, hhigh⟩ := hk
  unfold Code.Reaches
  omega

/-- The registers after the first one. -/
theorem rest (hm : Windowed code m) (hk : code.block.HasRegister k) :
    (m.context.base + 1).toInt = m.context.base.toInt + 1 ∧
    (m.context.base + 1).toInt +
        (span (m.context.base + 1) (m.context.base + code.block.registers) : Int) =
      m.context.base.toInt + code.block.registers.toInt := by
  obtain ⟨hlow, hhigh⟩ := hk
  have hbase := hm.low
  have htop := hm.top
  have hsmall := hm.small
  have hone : (1 : Int64).toInt = 1 := rfl
  have hstart : (m.context.base + 1).toInt = m.context.base.toInt + 1 :=
    ObjectMachine.toInt_add (by omega) (by omega)
  have hend : (m.context.base + code.block.registers).toInt =
      m.context.base.toInt + code.block.registers.toInt :=
    ObjectMachine.toInt_add (by omega) (by omega)
  refine ⟨hstart, ?_⟩
  unfold span
  omega

end Windowed

theorem newProc_enclosed (child : Code) (h : Beside W m n) (hbase : W m.context.base.toInt.toNat) :
    Enclosed W (newProc child) m n := by
  refine .get_bind h (fun _ _ => rfl) ((reg_enclosed h hbase).bind fun v m₁ n₁ _ h₁ => ?_)
  refine .apart_bind (allocate?_apart _ _) h₁ fun r _ _ _ h₂ => ?_
  cases r <;> exact .ok h₂ (.refl _)

theorem takeException_enclosed (a : Int64) (h : Beside W m n)
    (ha : W (m.context.base + a).toInt.toNat) (hnext : W (m.context.base + a + 1).toInt.toNat) :
    Enclosed W (takeException a) m n := by
  refine .get_bind h (fun _ _ => rfl) (.get_bind h (fun _ _ => rfl) ?_)
  split
  · exact (setReg_enclosed h ha _).bind fun _ _ _ _ h₁ => setReg_enclosed h₁ hnext _
  · refine .get_bind h (fun _ _ => rfl) ((setReg_enclosed h ha _).bind fun _ _ _ _ h₁ => ?_)
    exact .apart_bind (.of_modify fun _ _ => rfl) h₁ fun _ _ _ _ h₂ =>
      (setReg_enclosed h₂ hnext _).bind fun _ _ _ _ h₃ => .of_apart clearException_apart h₃

theorem exchangeReg_context (j : Int64) (v : Value) :
    Leads AnyFault (exchangeReg j v) m fun _ m' => m'.context = m.context := by
  simp only [exchangeReg, Leads.bind_eq, Leads.modify_eq, Leads.pure_eq]
  refine (reg_looksUp j).imp (fun _ _ _ => trivial) ?_
  rintro old _ rfl
  rfl

/-- The window is cleared from its second register on. -/
theorem leaveFrame_enclosed {a : Int64} (h : Beside (code.Reaches m.context.base) m n)
    (hm : Windowed code m) (ha : code.block.HasRegister a) :
    Enclosed (code.Reaches m.context.base) (leaveFrame a) m n := by
  refine .get_bind h (fun _ _ => rfl)
    ((exchangeReg_enclosed h (hm.reaches ha) _).bind fun result m₁ n₁ hm₁ h₁ => ?_)
  have hcontext : m₁.context = m.context := (exchangeReg_context _ _).of_ok hm₁
  refine .get_bind h₁ (fun _ _ => rfl) ?_
  split
  · exact .ok h₁ (.refl _)
  · refine .apart_bind currentSize_apart h₁ fun size m₂ n₂ hm₂ h₂ => ?_
    have hsize : size = code.block.registers := by
      have hleads : Leads AnyFault currentSize m₁ fun size _ => size = code.block.registers := by
        simp only [currentSize, currentCode, Leads.bind_eq, Leads.get_eq, hcontext, hm.running]
        rfl
      exact hleads.of_ok hm₂
    subst hsize
    obtain ⟨hstart, hend⟩ := hm.rest ha
    have hlow := hm.low
    have htop := hm.top
    have hsmall := hm.small
    refine (clearRegs_enclosed h₂ (fun j hj hlt => ?_) (by omega)).bind fun _ m₃ n₃ _ h₃ => ?_
    · unfold Code.Reaches
      omega
    · exact (setReg_enclosed h₃ (hm.reaches_base ha) result).bind fun _ _ _ _ h₄ =>
        .apart_bind popFrame_apart h₄ fun _ _ _ _ h₅ => .ok h₅ (.refl _)

theorem leave_enclosed {a : Int64} (h : Beside (code.Reaches m.context.base) m n)
    (hm : Windowed code m) (ha : code.block.HasRegister a) :
    Enclosed (code.Reaches m.context.base) (leave a) m n := by
  refine .get_bind h (fun _ _ => rfl) ?_
  split
  · exact .apart_bind (.of_modify fun _ _ => rfl) h fun _ _ _ _ h₁ =>
      .apart_bind (resumeAt_apart _) h₁ fun _ _ _ _ h₂ => .ok h₂ (.refl _)
  · split
    · exact .apart_bind settlePending_apart h fun _ _ _ _ h₁ => .ok h₁ (.refl _)
    · exact leaveFrame_enclosed h hm ha

section Instruction

variable (hm : Windowed code m) (hi : i.InRange code.block) (hop : i.op ∉ Opcode.outward)
  (hway : i.op ∈ Opcode.personal → ∀ w ∈ m.selfWindows, entryAt? n.regs w = entryAt? m.regs w)

include hi hop

/-- The registers of such an instruction are in the window. -/
theorem Uses.hasRegister {j : Int64} (hj : Uses i m j) :
    ∃ k, j = m.context.base + k ∧ code.block.HasRegister k := by
  cases hj with
  | @operand slot k hk => exact ⟨k, rfl, hi.register slot hk⟩
  | @next k hk hspan =>
    have htwo : i.span 0 = 2 := by
      rw [← i.toInt_registerSpan, if_pos rfl, hspan]
      rfl
    exact ⟨k + 1, by rw [Int64.add_assoc], hi.register_next 0 hk htwo⟩
  | outer hop' _ =>
    refine absurd ?_ hop
    rcases hop' with hop' | hop' <;> simp [Opcode.outward, hop']

include hm

theorem Uses.reaches {j : Int64} (hj : Uses i m j) :
    code.Reaches m.context.base j.toInt.toNat := by
  obtain ⟨k, rfl, hk⟩ := hj.hasRegister hi hop
  exact hm.reaches hk

/-- In the end, an instruction does the same on both machines. -/
theorem Concludes.enclosed {m₁ n₁ : Machine} {fresh : Bool} {known : List Value}
    {x : Action Progress} (hcon : Concludes i m fresh known x)
    (h : Beside (code.Reaches m.context.base) m₁ n₁) (hfresh : fresh = true → m₁ = m ∧ n₁ = n) :
    Enclosed (code.Reaches m.context.base) x m₁ n₁ := by
  have hlast : ∀ {m₂ n₂ : Machine} {x : Action Unit}, Beside (code.Reaches m.context.base) m₂ n₂ →
      Apart x → Enclosed (code.Reaches m.context.base) (x >>= fun _ => pure Progress.same) m₂ n₂ :=
    fun h₂ hx => .apart_bind hx h₂ fun _ _ _ _ h₃ => .ok h₃ (.refl _)
  cases hcon with
  | done => exact .ok h (.refl _)
  | setVariable s _ _ _ => exact hlast h (setVariable_apart _ s _)
  | setConstant s _ => exact hlast h (setConstant_apart s _)
  | install c s _ _ => exact hlast h (installCode?_clerical c s trivial).apart.of_discard
  | goto _ _ _ => exact hlast h (modifyContext_apart _)
  | enterBody _ _ _ _ _ _ => exact hlast h (enterBody_apart i.a _ _)
  | protect tag _ _ _ _ => exact hlast h (pushMarker_apart tag _)
  | popMarkers _ => exact hlast h (popMarkers_apart i.a)
  | takeException htake ha =>
    obtain ⟨rfl, rfl⟩ := hfresh rfl
    have hfirst := (Uses.operand (m := m₁) 0 ha).reaches hm hi hop
    have hsecond := (Uses.next (m := m₁) ha (by rw [htake]; rfl)).reaches hm hi hop
    exact (takeException_enclosed i.a h hfirst hsecond).bind fun _ _ _ _ h₂ => .ok h₂ (.refl _)
  | raise _ _ _ => exact hlast h (raise_apart _ _)
  | raiseText t _ _ => exact hlast h (raiseText_apart _ t)
  | send hout | sendBlock hout | callSuper hout => exact absurd (by simp [Opcode.outward, hout]) hop
  | unknown number =>
    exact .apart_bind currentCode_apart h fun _ _ _ _ h₂ =>
      .get_bind h₂ (fun _ _ => rfl) (.error h₂ (.refl _))

include hway

/-- What is left of an instruction that ends nothing does the same on both machines. -/
theorem Composed.enclosed {m₁ n₁ : Machine} {fresh : Bool} {held known : List Value}
    {x : Action Progress} (hcomp : Composed i m fresh held known x)
    (h : Beside (code.Reaches m.context.base) m₁ n₁) (hfresh : fresh = true → m₁ = m ∧ n₁ = n) :
    Enclosed (code.Reaches m.context.base) x m₁ n₁ := by
  have hold : ∀ {m₂ n₂ : Machine}, false = true → m₂ = m ∧ n₂ = n := nofun
  induction hcomp generalizing m₁ n₁ with
  | @read _ _ _ j _ hj _ ih =>
    have hsame := h.entry_eq (hj.reaches hm hi hop)
    exact .present_bind (o := entryAt? m₁.regs j) h rfl (hsame ▸ rfl) fun v _ => ih v h hfresh
  | self hpersonal _ ih =>
    obtain ⟨rfl, rfl⟩ := hfresh rfl
    have hsame := h.receiver_eq (hway hpersonal)
    refine .present_bind h self_eq_present ?_ fun v _ => ih v h hfresh
    rw [self_eq_present, hsame]
  | consult hf _ ih => exact .get_bind h (fun rs _ => hf _ rs) (ih _ (fun hf => (hfresh hf).1) h hfresh)
  | outer hout _ _ _ _ =>
    refine absurd ?_ hop
    rcases hout with hout | hout <;> simp [Opcode.outward, hout]
  | @name _ _ k _ slot _ _ ih =>
    have hcode : n₁.context.code = m₁.context.code := by rw [h.alone]
    refine .present_bind (o := m₁.context.code) h rfl (hcode ▸ rfl) fun code _ => ?_
    exact .present_bind h rfl rfl fun t _ => ih t h hfresh
  | symbol _ _ _ ih => exact .apart_bind (codeSymbol_apart _) h fun k _ _ _ h₂ => ih k h₂ hold
  | «variable» _ _ _ ih =>
    exact .apart_bind (variableSymbol_apart _) h fun k _ _ _ h₂ => ih k h₂ hold
  | immediate _ _ _ _ ih | target _ ih => exact ih h hfresh
  | share _ _ ih => exact .apart_bind (acquire_apart _) h fun _ _ _ _ h₂ => ih h₂ hold
  | literal _ _ _ ih =>
    exact .apart_bind currentCode_apart h fun _ _ _ _ h₂ => .apart_bind (present_apart _) h₂
      fun x _ _ _ h₃ => .apart_bind (literalValue_apart x) h₃ fun v _ _ _ h₄ => ih v h₄ hold
  | block _ ha _ _ _ ih =>
    obtain ⟨rfl, rfl⟩ := hfresh rfl
    have hbase := hm.reaches_base (hi.register 0 ha)
    have hcode : n₁.context.code = m₁.context.code := by rw [h.alone]
    refine .present_bind (o := m₁.context.code) h rfl (hcode ▸ rfl) fun code _ => ?_
    refine .present_bind h rfl rfl fun child _ => ?_
    exact (newProc_enclosed child h hbase).bind fun v _ _ _ h₂ => ih v h₂ hold
  | getVariable s _ _ ih =>
    exact .apart_bind (getVariable_apart _ s) h fun v _ _ _ h₂ => ih v h₂ hold
  | getConstant s _ ih => exact .apart_bind (getConstant_apart s) h fun v _ _ _ h₂ => ih v h₂ hold
  | defineClass name _ _ _ _ ih =>
    exact .apart_bind (defineClass_apart name _) h fun c _ _ _ h₂ => ih c h₂ hold
  | store hj _ _ ih =>
    exact (setReg_enclosed h (hj.reaches hm hi hop) _).bind fun _ _ _ _ h₂ => ih h₂ hold
  | last hlast => exact hlast.enclosed hm hi hop h hfresh

theorem step_enclosed (h : Beside (code.Reaches m.context.base) m n) :
    Enclosed (code.Reaches m.context.base) (step i) m n := by
  unfold Enclosed
  cases hord : i.op.isOrdinary with
  | true =>
    obtain ⟨x, hcomp, hstep⟩ := step_composed m hord
    rw [hstep m rfl, hstep n (by rw [h.alone])]
    exact hcomp.enclosed hm hi hop hway h fun _ => ⟨rfl, rfl⟩
  | false =>
    rcases step_over hord with ⟨hleave, hstep⟩ | ⟨-, hstep⟩
    · have ha : i.operands[0]? = some (.register, i.a) := by simp only [Inst.operands, hleave]; rfl
      rw [hstep, hstep]
      exact leave_enclosed h hm (hi.register 0 ha)
    · rw [hstep, hstep]
      exact .ok h (.refl m)

end Instruction

end Machine

end ObjectMachine
