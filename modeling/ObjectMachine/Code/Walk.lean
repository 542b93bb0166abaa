import ObjectMachine.Code.Block

/-! Walks over the blocks of a program. The visiting order lists every reachable block
once, a block before its children and children from the first to the last. The cycle
search follows the same order and stops at the first child that is still open. -/

namespace ObjectMachine.Program

/-- The order of first visits from the blocks on the stack, among those still fresh. -/
def visits (p : Program) (fresh : List Nat) : List Nat → List Nat
  | [] => []
  | n :: rest =>
    if n ∈ fresh then n :: visits p (fresh.erase n) (p.children n ++ rest)
    else visits p fresh rest
termination_by stack => (fresh.length, stack.length)
decreasing_by
  · apply Prod.Lex.left
    rename_i h
    rw [List.length_erase_of_mem h]
    have := List.length_pos_of_mem h
    omega
  · apply Prod.Lex.right
    simp

/-- The reachable blocks in the order of first visits, the root first. -/
def visitOrder (p : Program) : List Nat := p.visits (List.range p.blocks.size) [0]

/-- What a depth-first search still has to do. -/
inductive Errand
  | enter (n : Nat)
  | leave (n : Nat)

/-- A block met again while it is open. `fresh` are the blocks not yet entered and
`closed` those already left. -/
def openBlock? (p : Program) (fresh closed : List Nat) : List Errand → Option Nat
  | [] => none
  | .leave n :: rest => openBlock? p fresh (n :: closed) rest
  | .enter n :: rest =>
    if n ∈ fresh then
      openBlock? p (fresh.erase n) closed ((p.children n).map .enter ++ .leave n :: rest)
    else if n ∈ closed then openBlock? p fresh closed rest
    else some n
termination_by errands => (fresh.length, errands.length)
decreasing_by
  · apply Prod.Lex.right
    simp
  · apply Prod.Lex.left
    rename_i h
    rw [List.length_erase_of_mem h]
    have := List.length_pos_of_mem h
    omega
  · apply Prod.Lex.right
    simp

/-- The first reachable block found to contain itself. -/
def cyclicBlock? (p : Program) : Option Nat :=
  p.openBlock? (List.range p.blocks.size) [] [.enter 0]

end ObjectMachine.Program
