import ObjectMachine.Machine.Value

/-! The faults that can stop an action on a machine, and how they are reported. -/

namespace ObjectMachine

/-- A defect that makes a machine unusable. -/
inductive FatalCause
  | notAClass (name : Text)
  | noMemoryForClass (name : Text)
  | noMemoryForMain
  | methodReleasedAgain (name : Text)
  | acquireOfReleased (kind : Kind) (serial : Nat)
  | releaseOfReleased (kind : Kind) (serial : Nat)
  | useOfReleased (kind : Kind) (serial : Nat)
  | stackOverflow (depth : Int)
  | noMemoryForFrame
  | noMemoryForMarker
  | popOfEmptyStack
  | unwindTargetMissing
  | registerOverflow (top : Int64) (size : Nat)
  | pastEnd (pc : Int64) (block : Text)
  | unknownOpcode (number : UInt8) (block : Text) (pc : Int64)
  deriving DecidableEq

def FatalCause.message : FatalCause → Text
  | notAClass name => "TypeError: " ++ name ++ " is not a class"
  | noMemoryForClass name => "no memory for class " ++ name
  | noMemoryForMain => "no memory for main object"
  | methodReleasedAgain name => "release of released method " ++ name
  | acquireOfReleased kind serial =>
    "acquire of released " ++ kind.name ++ " #" ++ Text.ofNat serial
  | releaseOfReleased kind serial =>
    "release of released " ++ kind.name ++ " #" ++ Text.ofNat serial
  | useOfReleased kind serial => "use of released " ++ kind.name ++ " #" ++ Text.ofNat serial
  | stackOverflow depth => "call stack overflow (" ++ Text.ofInt depth ++ " frames)"
  | noMemoryForFrame => "no memory for call frame"
  | noMemoryForMarker => "no memory for exception frame"
  | popOfEmptyStack => "pop of empty call stack"
  | unwindTargetMissing => "unwind target is not on the call stack"
  | registerOverflow top size =>
    "register file overflow (" ++ Text.ofInt64 top ++ " > " ++ Text.ofNat size ++ ")"
  | pastEnd pc block => "pc " ++ Text.ofInt64 pc ++ " past the end of " ++ block
  | unknownOpcode number block pc =>
    "unknown opcode " ++ Text.ofNat number.toNat ++ " at " ++ block ++ ":" ++ Text.ofInt64 pc

/-- What stops an action before its end. -/
inductive Fault
  | fatal (cause : FatalCause)
  /-- A payload was asked of a value of another kind. -/
  | notAnInteger
  | notAFloat
  | notASymbol
  /-- More bytes came back to the pool than were granted. -/
  | overdrawn
  /-- An access outside its range, or to something that is not there. -/
  | outOfBounds
  deriving DecidableEq

def Fault.message : Fault → Text
  | fatal cause => "fatal: " ++ cause.message
  | notAnInteger => "Value.Int: not an integer"
  | notAFloat => "Value.Float64: not a float"
  | notASymbol => "Value.SymbolID: not a symbol"
  | overdrawn => "Pool.Free: more bytes freed than allocated"
  | outOfBounds => "index out of bounds"

end ObjectMachine
