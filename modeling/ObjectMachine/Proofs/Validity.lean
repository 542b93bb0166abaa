import ObjectMachine.Proofs.Visits

/-! What the check of a program makes sure of. It accepts a program whose operands all refer to
something, and rejects most others: a register so close to the largest number that the sum of its
number and of the registers it covers wraps around passes as well, whatever the window. -/

namespace ObjectMachine

/-! ### Ranges -/

/-- An operand refers to something. A register operand refers to `span` registers of the window. -/
def Block.Refers (b : Block) (span n : Int) : OperandKind → Prop
  | .register => 0 ≤ n ∧ n + span ≤ b.registers.toInt
  | .literal => 0 ≤ n ∧ n < b.pool.size
  | .symbol => 0 ≤ n ∧ n < b.symbols.size
  | .child => 0 ≤ n ∧ n < b.children.size
  | .label => 0 ≤ n ∧ n ≤ b.code.size
  | .none | .integer => True

/-- How many registers the operand in a slot stands for. Four operations use `R(A+1)` besides
`R(A)`. -/
def Inst.span (i : Inst) (slot : Nat) : Int :=
  if slot = 0 ∧ i.op ∈ [.defineMethod, .defineClass, .takeException, .raise] then 2 else 1

/-- The registers of an operand end past the largest number. -/
def Inst.Overflows (i : Inst) (slot : Nat) (n : Int) : OperandKind → Prop
  | .register => 2 ^ 63 ≤ n + i.span slot
  | _ => False

/-- Everything that a block refers to exists. -/
structure Block.InRange (b : Block) : Prop where
  registers : 1 ≤ b.registers.toInt
  known : ∀ i ∈ b.code, i.op ∈ Opcode.all
  operands : ∀ i ∈ b.code, ∀ slot kind n, i.operands[slot]? = some (kind, n) →
    b.Refers (i.span slot) n.toInt kind

/-- No registers of an operand end past the largest number. -/
def Block.Low (b : Block) : Prop :=
  ∀ i ∈ b.code, ∀ slot kind n, i.operands[slot]? = some (kind, n) → ¬i.Overflows slot n.toInt kind

/-- What the check of a block makes sure of. -/
structure Block.Passes (b : Block) : Prop where
  registers : 1 ≤ b.registers.toInt
  known : ∀ i ∈ b.code, i.op ∈ Opcode.all
  operands : ∀ i ∈ b.code, ∀ slot kind n, i.operands[slot]? = some (kind, n) →
    b.Refers (i.span slot) n.toInt kind ∨ i.Overflows slot n.toInt kind

variable {b : Block} {i : Inst} {pc slot : Nat} {kind : OperandKind} {span n : Int64}

theorem Inst.span_cases (i : Inst) (slot : Nat) : i.span slot = 1 ∨ i.span slot = 2 := by
  unfold span
  split
  · exact .inr rfl
  · exact .inl rfl

theorem Inst.toInt_registerSpan (i : Inst) (slot : Nat) :
    (if slot = 0 then i.op.registerSpan else 1).toInt = i.span slot := by
  unfold span
  by_cases hslot : slot = 0
  · rw [if_pos hslot]
    cases i.op <;> simp [hslot, Opcode.registerSpan]
  · rw [if_neg hslot, if_neg fun h => hslot h.1]
    rfl

/-- In 64 bits a sum of two numbers that are not negative is small, or it wrapped around and is
negative. -/
theorem add_le_iff {limit : Int64} (hn : 0 ≤ n.toInt) (hspan : 0 ≤ span.toInt)
    (hlimit : 0 ≤ limit.toInt) :
    n + span ≤ limit ↔ n.toInt + span.toInt ≤ limit.toInt ∨ 2 ^ 63 ≤ n.toInt + span.toInt := by
  have hn' := n.toInt_lt
  have hspan' := span.toInt_lt
  have hlimit' := limit.toInt_lt
  rw [Int64.le_iff_toInt_le, Int64.toInt_add, Int.bmod_def]
  split <;> omega

/-! ### The check -/

theorem operandInRange_iff (hregisters : 1 ≤ b.registers.toInt) (hspan : 0 ≤ span.toInt) :
    b.operandInRange span kind n ↔ b.Refers span.toInt n.toInt kind ∨
      kind = .register ∧ 2 ^ 63 ≤ n.toInt + span.toInt := by
  have hzero : (0 : Int64).toInt = 0 := rfl
  have hspan' := span.toInt_lt
  cases kind with
  | register =>
    simp only [Block.operandInRange, Block.Refers, Bool.and_eq_true, decide_eq_true_eq, true_and]
    rw [Int64.le_iff_toInt_le, hzero]
    constructor
    · rintro ⟨hn, hsum⟩
      exact ((add_le_iff hn hspan (by omega)).1 hsum).imp_left (And.intro hn)
    · intro h
      have hn : 0 ≤ n.toInt := by omega
      exact ⟨hn, (add_le_iff hn hspan (by omega)).2 (h.imp_left And.right)⟩
  | _ => simp [Block.operandInRange, Block.Refers, Int64.le_iff_toInt_le]

theorem operandInRange_span (hregisters : 1 ≤ b.registers.toInt) :
    b.operandInRange (if slot = 0 then i.op.registerSpan else 1) kind n ↔
      b.Refers (i.span slot) n.toInt kind ∨ i.Overflows slot n.toInt kind := by
  have hspan := i.toInt_registerSpan slot
  have hcases := i.span_cases slot
  rw [operandInRange_iff hregisters (by omega), hspan]
  cases kind <;> simp [Inst.Overflows]

theorem instDefect?_eq_none : b.instDefect? pc i = none ↔
    i.op ∈ Opcode.all ∧ b.operandDefect? pc i = none := by
  unfold Block.instDefect?
  cases i.op <;> simp [Opcode.all]

theorem operandDefect?_eq_none (hregisters : 1 ≤ b.registers.toInt) :
    b.operandDefect? pc i = none ↔ ∀ slot kind n, i.operands[slot]? = some (kind, n) →
      b.Refers (i.span slot) n.toInt kind ∨ i.Overflows slot n.toInt kind := by
  unfold Block.operandDefect?
  rw [List.findSome?_eq_none_iff]
  simp only [ite_eq_left_iff, reduceCtorEq, imp_false, Classical.not_not,
    operandInRange_span hregisters]
  refine ⟨fun h slot kind n hn => ?_, fun h x hx => ?_⟩
  · exact h ((kind, n), slot) (List.mem_zipIdx_iff_getElem?.2 hn)
  · exact h x.2 x.1.1 x.1.2 (List.mem_zipIdx_iff_getElem?.1 hx)

theorem Block.defect?_eq_none : b.defect? = none ↔ b.Passes := by
  have hone : (1 : Int64).toInt = 1 := rfl
  unfold defect?
  by_cases hregisters : b.registers < 1
  · rw [if_pos hregisters]
    rw [Int64.lt_iff_toInt_lt] at hregisters
    refine ⟨by rintro ⟨⟩, fun h => ?_⟩
    have := h.registers
    omega
  · rw [if_neg hregisters, List.findSome?_eq_none_iff]
    rw [Int64.lt_iff_toInt_lt, hone, not_lt] at hregisters
    constructor
    · intro h
      have hinst : ∀ i ∈ b.code, ∃ pc, b.instDefect? pc i = none := by
        intro i hi
        obtain ⟨pc, hpc⟩ := List.mem_iff_getElem?.1 (Array.mem_toList_iff.2 hi)
        exact ⟨pc, h (i, pc) (List.mem_zipIdx_iff_getElem?.2 hpc)⟩
      refine ⟨hregisters, fun i hi => ?_, fun i hi => ?_⟩
      · obtain ⟨pc, hpc⟩ := hinst i hi
        exact (instDefect?_eq_none.1 hpc).1
      · obtain ⟨pc, hpc⟩ := hinst i hi
        exact (operandDefect?_eq_none hregisters).1 (instDefect?_eq_none.1 hpc).2
    · intro h x hx
      have hmem : x.1 ∈ b.code := Array.mem_toList_iff.1 (List.fst_mem_of_mem_zipIdx hx)
      exact instDefect?_eq_none.2
        ⟨h.known _ hmem, (operandDefect?_eq_none hregisters).2 (h.operands _ hmem)⟩

/-- A register in range ends below the largest number, as the window does. -/
theorem Block.not_overflows_of_refers (h : b.Refers (i.span slot) n.toInt kind) :
    ¬i.Overflows slot n.toInt kind := by
  have hlimit := b.registers.toInt_lt
  cases kind with
  | register =>
    simp only [Refers, Inst.Overflows] at h ⊢
    omega
  | _ => exact not_false

theorem Block.inRange_iff : b.InRange ↔ b.Passes ∧ b.Low := by
  refine ⟨fun h => ⟨⟨h.registers, h.known, fun i hi slot kind n hn => ?_⟩, fun i hi slot kind n hn => ?_⟩,
    fun ⟨h, hlow⟩ => ⟨h.registers, h.known, fun i hi slot kind n hn => ?_⟩⟩
  · exact .inl (h.operands i hi slot kind n hn)
  · exact not_overflows_of_refers (h.operands i hi slot kind n hn)
  · exact (h.operands i hi slot kind n hn).resolve_right (hlow i hi slot kind n hn)

namespace Program

theorem defect?_eq_none_iff {p : Program} :
    p.defect? = none ↔ ∀ i, p.Reached i → i < p.blocks.size → (p.block i).Passes := by
  unfold defect?
  simp only [List.findSome?_eq_none_iff, mem_visitOrder, and_imp, Block.defect?_eq_none]

/-- A program without a defective block is valid. -/
theorem defect?_eq_none {p : Program} (h : p.blocks.toList.all (·.defect?.isNone)) :
    p.defect? = none := by
  refine defect?_eq_none_iff.2 fun i _ hi => Block.defect?_eq_none.1 ?_
  rw [← Option.isNone_iff_eq_none]
  refine List.all_eq_true.1 h _ ?_
  simp [block, hi]

end Program

/-- A program passes the check just when each block that can be reached has a register, knows all
of its operations, and has operands that refer to something, except for registers that end past the
largest number: these pass too. So everything that a program refers to exists just when it passes
and has no such register. -/
theorem validity_exact (p : Program) :
    (p.defect? = none ↔ ∀ i, p.Reached i → i < p.blocks.size → (p.block i).Passes) ∧
    ((∀ i, p.Reached i → i < p.blocks.size → (p.block i).InRange) ↔
      p.defect? = none ∧ ∀ i, p.Reached i → i < p.blocks.size → (p.block i).Low) := by
  refine ⟨Program.defect?_eq_none_iff, ?_⟩
  simp only [Program.defect?_eq_none_iff, Block.inRange_iff, forall_and]

/-- A window of one register, and the last register there could be. -/
def lastRegister : Program where
  blocks := #[{ registers := 1, code := #[⟨.loadNil, 2 ^ 63 - 1, 0, 0⟩, ⟨.leave, 0, 0, 0⟩] }]

/-- The check accepts a register outside the window. -/
theorem passes_lastRegister : lastRegister.defect? = none ∧
    lastRegister.Reached 0 ∧ 0 < lastRegister.blocks.size ∧ ¬(lastRegister.block 0).InRange := by
  refine ⟨Program.defect?_eq_none (by decide +kernel), .root _, by decide, fun h => ?_⟩
  have hrange := h.operands ⟨.loadNil, 2 ^ 63 - 1, 0, 0⟩ (by simp [lastRegister, Program.block]) 0
    .register (2 ^ 63 - 1) rfl
  have hlast : (2 ^ 63 - 1 : Int64).toInt + 1 ≤ (1 : Int64).toInt := hrange.2
  exact absurd hlast (by decide +kernel)

end ObjectMachine
