import ObjectMachine.Text

/-! The methods that are not code, as data. -/

namespace ObjectMachine

/-- What an operation in a host's method works on. -/
inductive HostOperand
  | register (i : Int64)
  /-- What an earlier operation gave; the last one is number 0. -/
  | given (k : Nat)
  | nil
  | int (n : Int64)
  deriving DecidableEq

/-- An operation in a host's method. It leaves frames and markers alone. -/
inductive HostOperation
  | newInstance (c : HostOperand)
  | newString (t : Text)
  | dupInstance (obj : HostOperand)
  | getVariable (obj : HostOperand) (name : Text)
  | setVariable (obj : HostOperand) (name : Text) (v : HostOperand)
  | getConstant (name : Text)
  | setConstant (name : Text) (v : HostOperand)
  | acquire (v : HostOperand)
  | release (v : HostOperand)
  deriving DecidableEq

/-- How a host's method ends. -/
inductive HostEnding
  | keep
  | give (v : HostOperand)
  | raise (c message : HostOperand)
  deriving DecidableEq

/-- Natives of a host. All but the last let it look into a running machine. -/
inductive Probe
  | answer
  | argumentCount
  | callee
  | firstArgument
  | block
  | self
  | blockGiven
  | keep
  | raise
  | send
  | state
  /-- A method of its own, operation by operation. -/
  | host (work : List HostOperation) (ending : HostEnding)
  deriving DecidableEq

/-- The methods that are not code. -/
inductive Native
  | not
  | equal
  | notEqual
  | compare
  | caseEqual
  | classOf
  | isNil
  | isKindOf
  | new
  | dup
  | attributeReader
  | attributeAccessor
  | blockGiven
  | raise
  | inspect
  | toText
  | print
  | put
  | show
  | callProc
  | newProc
  | nilToInt
  | nilToFloat
  | nilInspect
  | nilToText
  | boolToText
  | attributeGet
  | attributeSet
  | objectId
  | instanceMethods
  | instanceVariables
  | memoryStatistics
  | probe (p : Probe)
  deriving DecidableEq

end ObjectMachine
