import ObjectMachine.Code.Opcode
import ObjectMachine.Double

/-! Code blocks. A program is an array of blocks that name their children by index, so
that a child shared by several parents is one block. Block 0 is the root. -/

namespace ObjectMachine

/-- An entry of a literal pool. The kind selects the value it stands for, an integer (0), a float (1) or
a text (2); the other values are carried along. -/
structure Literal where
  kind : UInt8
  int : Int64 := 0
  float : Double := .zero
  text : Text := []
  deriving DecidableEq

namespace Literal

def ofInt (n : Int64) : Literal := { kind := 0, int := n }

def ofFloat (x : Double) : Literal := { kind := 1, float := x }

def ofText (t : Text) : Literal := { kind := 2, text := t }

/-- Whether two literals share a pool entry. Floats are compared as numbers, so the
zeros share one and no NaN shares any. -/
def same (a b : Literal) : Bool :=
  a.kind == b.kind && a.int == b.int && a.float.same b.float && a.text == b.text

end Literal

/-- An instruction with its three operands; those it does not use are zero. -/
structure Inst where
  op : Opcode
  a : Int64 := 0
  b : Int64 := 0
  c : Int64 := 0
  deriving DecidableEq

namespace Inst

/-- The operands with their kinds, as far as the operation has any. -/
def operands (i : Inst) : List (OperandKind × Int64) := i.op.operands.zip [i.a, i.b, i.c]

end Inst

/-- A code block. `registers` is the size of the window it runs in, the receiver
included; `locals` counts those of them that hold arguments and locals. -/
structure Block where
  name : Text := []
  locals : Int64 := 0
  registers : Int64 := 0
  code : Array Inst := #[]
  pool : Array Literal := #[]
  symbols : Array Text := #[]
  children : Array Nat := #[]
  deriving DecidableEq

/-- Blocks that refer to each other by index. -/
structure Program where
  blocks : Array Block
  deriving DecidableEq

namespace Program

/-- The block at an index, an empty one outside the program. -/
def block (p : Program) (i : Nat) : Block := p.blocks.getD i {}

def children (p : Program) (i : Nat) : List Nat := (p.block i).children.toList

end Program

/-- A block of a program, as procs, methods and frames refer to it. -/
structure Code where
  program : Program
  index : Nat

namespace Code

def block (c : Code) : Block := c.program.block c.index

/-- The child in slot `i` of the block. -/
def child? (c : Code) (i : Int64) : Option Code :=
  if i < 0 then none
  else (c.block.children[i.toInt.toNat]?).map fun n => { c with index := n }

end Code

/-- The root of a program. -/
def Program.root (p : Program) : Code := ⟨p, 0⟩

/-- An array entry at a 64-bit index; there is none at a negative one. -/
def entryAt? {α : Type} (xs : Array α) (i : Int64) : Option α :=
  if i < 0 then none else xs[i.toInt.toNat]?

theorem mem_of_entryAt? {α : Type} {xs : Array α} {i : Int64} {a : α} (h : entryAt? xs i = some a) :
    a ∈ xs := by
  unfold entryAt? at h
  split at h
  · cases h
  · exact Array.mem_of_getElem? h

end ObjectMachine
