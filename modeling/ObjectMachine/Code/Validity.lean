import ObjectMachine.Code.Walk

/-! Validity of code: every operand refers to something that exists. Operands are
compared in 64-bit arithmetic, in the order of the visit and of the instructions, and
the first defect is reported. -/

namespace ObjectMachine

/-- A defect of a block. -/
inductive CodeDefect
  | noRegisters (block : Text)
  | unknownOpcode (block : Text) (pc : Nat) (number : UInt8)
  | operandOutOfRange (block : Text) (pc : Nat) (mnemonic : Text) (slot : Nat) (value : Int64)
  deriving DecidableEq

namespace CodeDefect

def message : CodeDefect → Text
  | noRegisters block => "irep " ++ block ++ ": nregs must be at least 1"
  | unknownOpcode block pc number =>
    "irep " ++ block ++ ": pc " ++ Text.ofNat pc ++ ": unknown opcode "
      ++ Text.ofNat number.toNat
  | operandOutOfRange block pc mnemonic slot value =>
    "irep " ++ block ++ ": pc " ++ Text.ofNat pc ++ ": " ++ mnemonic ++ " operand "
      ++ Text.ofNat slot ++ " out of range (" ++ Text.ofInt64 value ++ ")"

end CodeDefect

namespace Block

/-- Whether an operand refers to something. `span` is the number of registers a
register operand covers. -/
def operandInRange (b : Block) (span : Int64) (kind : OperandKind) (n : Int64) : Bool :=
  match kind with
  | .register => 0 ≤ n && n + span ≤ b.registers
  | .literal => 0 ≤ n && n.toInt < b.pool.size
  | .symbol => 0 ≤ n && n.toInt < b.symbols.size
  | .child => 0 ≤ n && n.toInt < b.children.size
  | .label => 0 ≤ n && n.toInt ≤ b.code.size
  | .none | .integer => true

/-- The first operand of an instruction that is out of range. -/
def operandDefect? (b : Block) (pc : Nat) (i : Inst) : Option CodeDefect :=
  i.operands.zipIdx.findSome? fun ((kind, n), slot) =>
    let span := if slot = 0 then i.op.registerSpan else 1
    if b.operandInRange span kind n then none
    else some (.operandOutOfRange b.name pc i.op.mnemonic slot n)

def instDefect? (b : Block) (pc : Nat) (i : Inst) : Option CodeDefect :=
  match i.op with
  | .unknown number => some (.unknownOpcode b.name pc number)
  | _ => b.operandDefect? pc i

def defect? (b : Block) : Option CodeDefect :=
  if b.registers < 1 then some (.noRegisters b.name)
  else b.code.toList.zipIdx.findSome? fun (i, pc) => b.instDefect? pc i

end Block

/-- The first defect of the blocks reachable from the root. -/
def Program.defect? (p : Program) : Option CodeDefect :=
  p.visitOrder.findSome? fun n => (p.block n).defect?

end ObjectMachine
