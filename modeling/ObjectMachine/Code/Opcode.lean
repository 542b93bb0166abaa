import ObjectMachine.Text.Decimal

/-! The instructions of the register machine and their operands. `R(n)` in the comments
is register `n` of the current window. -/

namespace ObjectMachine

/-- How an operand is written and what it has to refer to. -/
inductive OperandKind
  | none
  | register
  | integer
  | literal
  | symbol
  | child
  | label
  deriving DecidableEq

def OperandKind.number : OperandKind → Nat
  | none => 0
  | register => 1
  | integer => 2
  | literal => 3
  | symbol => 4
  | child => 5
  | label => 6

/-- An operation. A number without an operation stays visible as `unknown`. -/
inductive Opcode
  | nop
  /-- Sets `R(A)` to `R(B)`. -/
  | move
  /-- Sets `R(A)` to `Pool(B)`. -/
  | loadLiteral
  /-- Sets `R(A)` to the integer `B`. -/
  | loadInt
  /-- Sets `R(A)` to `Symbols(B)`. -/
  | loadSymbol
  | loadNil
  | loadSelf
  | loadTrue
  | loadFalse
  /-- Sets `R(A)` to the instance variable `Symbols(B)` of self. -/
  | getVariable
  /-- Sets the instance variable `Symbols(B)` of self to `R(A)`. -/
  | setVariable
  | getConstant
  | setConstant
  /-- Sets `R(A)` to `R(B)` of the scope `C` levels out. -/
  | getOuter
  /-- Sets `R(B)` of the scope `C` levels out to `R(A)`. -/
  | setOuter
  | jump
  /-- Goes to `B` when `R(A)` is truthy. -/
  | jumpIf
  | jumpUnless
  /-- Calls method `Symbols(B)` of `R(A)` with the `C` arguments after it and no block. -/
  | send
  /-- Calls with the block `R(A+C+1)`. -/
  | sendBlock
  /-- Calls the running method of the superclass with `B` arguments from `R(A+1)` on. -/
  | callSuper
  | leave
  /-- Sets `R(A)` to a closure over `Children(B)`. -/
  | makeBlock
  /-- Defines method `Symbols(B)` of class `R(A)` by the block `R(A+1)`. -/
  | defineMethod
  /-- Sets `R(A)` to the class `Symbols(B)`, a new one below `R(A+1)`. -/
  | defineClass
  /-- Runs `Children(B)` with self `R(A)`. -/
  | runBody
  | targetClass
  /-- Pushes a rescue marker that resumes at `A`. -/
  | pushRescue
  /-- Pushes an ensure marker that resumes at `A`. -/
  | pushEnsure
  /-- Drops the `A` newest markers. -/
  | popMarkers
  /-- Moves class and message of the exception to `R(A)` and `R(A+1)`. -/
  | takeException
  /-- Sets `R(C)` to whether `R(A)` is of the kind `R(B)`. -/
  | rescueMatch
  /-- Raises `R(A)` with message `R(A+1)`. -/
  | raise
  | abort
  | stop
  | unknown (number : UInt8)
  deriving DecidableEq

namespace Opcode

/-- The operations in the order of their numbers. -/
def all : List Opcode :=
  [nop, move, loadLiteral, loadInt, loadSymbol, loadNil, loadSelf, loadTrue, loadFalse,
   getVariable, setVariable, getConstant, setConstant, getOuter, setOuter, jump, jumpIf,
   jumpUnless, send, sendBlock, callSuper, leave, makeBlock, defineMethod, defineClass, runBody,
   targetClass, pushRescue, pushEnsure, popMarkers, takeException, rescueMatch,
   raise, abort, stop]

def ofNumber (n : UInt8) : Opcode := all.getD n.toNat (unknown n)

def number : Opcode → UInt8
  | unknown n => n
  | op => (all.idxOf op).toUInt8

def mnemonic : Opcode → Text
  | nop => "NOP"
  | move => "MOVE"
  | loadLiteral => "LOADL"
  | loadInt => "LOADI"
  | loadSymbol => "LOADSYM"
  | loadNil => "LOADNIL"
  | loadSelf => "LOADSELF"
  | loadTrue => "LOADT"
  | loadFalse => "LOADF"
  | getVariable => "GETIV"
  | setVariable => "SETIV"
  | getConstant => "GETCONST"
  | setConstant => "SETCONST"
  | getOuter => "GETUPVAR"
  | setOuter => "SETUPVAR"
  | jump => "JMP"
  | jumpIf => "JMPIF"
  | jumpUnless => "JMPNOT"
  | send => "SEND"
  | sendBlock => "SENDB"
  | callSuper => "SUPER"
  | leave => "RETURN"
  | makeBlock => "BLOCK"
  | defineMethod => "METHOD"
  | defineClass => "CLASS"
  | runBody => "EXEC"
  | targetClass => "TCLASS"
  | pushRescue => "ONERR"
  | pushEnsure => "EPUSH"
  | popMarkers => "POPERR"
  | takeException => "EXCEPT"
  | rescueMatch => "RESCUE"
  | raise => "RAISE"
  | abort => "ABORT"
  | stop => "STOP"
  | unknown n => Text.ofString "OP_" ++ Text.ofNat n.toNat

/-- The operands an operation is written with, in the order `A`, `B`, `C`. -/
def operands : Opcode → List OperandKind
  | nop | abort | stop | unknown _ => []
  | move => [.register, .register]
  | loadLiteral => [.register, .literal]
  | loadInt => [.register, .integer]
  | loadSymbol | getVariable | setVariable | getConstant | setConstant | defineMethod
  | defineClass => [.register, .symbol]
  | loadNil | loadSelf | loadTrue | loadFalse | leave | targetClass | takeException
  | raise => [.register]
  | getOuter | setOuter => [.register, .register, .integer]
  | jump | pushRescue | pushEnsure => [.label]
  | jumpIf | jumpUnless => [.register, .label]
  | send | sendBlock => [.register, .symbol, .integer]
  | callSuper => [.register, .integer]
  | makeBlock | runBody => [.register, .child]
  | popMarkers => [.integer]
  | rescueMatch => [.register, .register, .register]

/-- How many registers from `R(A)` on an operation reads or writes. -/
def registerSpan : Opcode → Int64
  | defineMethod | defineClass | takeException | raise => 2
  | _ => 1

/-- The operation with the given mnemonic. -/
def ofMnemonic? (name : Text) : Option Opcode := all.find? fun op => op.mnemonic == name

end Opcode

end ObjectMachine
