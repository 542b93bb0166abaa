import ObjectMachine.Code.Block
import ObjectMachine.Machine.Fault
import ObjectMachine.Machine.Native
import ObjectMachine.Machine.Profile
import ObjectMachine.Machine.Variables

/-! The state of a machine. Every place that can hold a value is a register, a constant,
an instance variable, a message, the main object, or a duty of a suspended pass. -/

namespace ObjectMachine

/-- Sizes and options of a machine, fixed for its lifetime. -/
structure Config where
  poolSize : Int64 := 40 * 1024
  maxRegisters : Int64 := 256
  /-- Call depth limit, 0 for none beyond the pool. -/
  maxFrames : Int64 := 64
  debugMethods : Bool := false
  profile : Bool := false
  deriving DecidableEq

inductive MethodBody
  | native (n : Native)
  | code (c : Code)

/-- A method. Its class holds one reference to it and every frame that runs it another. -/
structure Method where
  symbol : Symbol
  body : MethodBody
  refCount : Int := 1

namespace Method

def native? (m : Method) : Option Native :=
  match m.body with
  | .native n => some n
  | .code _ => none

def isNative (m : Method) : Bool := m.native?.isSome

/-- A native that goes on in code instead of returning a value. -/
def isRedirect (m : Method) : Bool := m.native? == some .callProc

end Method

/-- A class. Its methods are listed newest first. -/
structure Class where
  symbol : Symbol
  name : Text
  /-- Missing only for the root class. -/
  super : Option ClassId
  methods : List MethodId := []

/-- What a heap object holds. -/
inductive Body
  | object (cls : ClassId) (table : VariableTable)
  /-- A closure: the frame it was made in and the frame of its self. Frames are not
  owned; no frame stands for the top-level window. -/
  | proc (code : Code) (frame selfFrame : Option FrameId)
  | string (bytes : Text)

structure HeapObject where
  refCount : Nat
  /-- Bytes charged to the pool, variables apart. -/
  size : Int64
  body : Body

/-- Heap and pool. Objects keep their place after they are freed. -/
structure Memory where
  pool : Pool
  heap : Array HeapObject := #[]
  live : Int := 0

/-- Whether a frame saves a call or the context of a protection marker. -/
inductive FrameTag
  | call
  | rescue
  | ensure
  deriving DecidableEq

def FrameTag.name : FrameTag → Text
  | call => "call"
  | rescue => "rescue"
  | ensure => "ensure"

def FrameTag.ofNumber : Nat → FrameTag
  | 1 => rescue
  | 2 => ensure
  | _ => call

/-- A saved context. For a call it is the caller's, and the callee's window starts at
`base + offset`. For a marker it is where a rescue or ensure body resumes, and `depth`
is the frame that was on top when the marker was pushed. -/
structure Frame where
  base : Int64
  code : Option Code
  pc : Int64
  targetClass : Option ClassId
  /-- The class the running method was found on. -/
  ownClass : Option ClassId := none
  methodId : Symbol := 0
  nargs : Int64 := 0
  offset : Int64 := 0
  tag : FrameTag
  /-- The method held for the duration of the call. -/
  method : Option MethodId := none
  depth : Option FrameId := none
  freed : Bool := false

namespace Frame

/-- The first register of the callee's window. -/
def window (f : Frame) : Int64 := f.base + f.offset

def isMarker (f : Frame) : Bool := f.tag != .call

end Frame

/-- Where a machine stands with respect to an exception. -/
inductive ExceptionState
  | normal
  | raising
  /-- Running a rescue body. -/
  | handled
  /-- Running an ensure body while an exception is in flight. -/
  | finalizing
  deriving DecidableEq

def ExceptionState.name : ExceptionState → Text
  | normal => "normal"
  | raising => "raising"
  | handled => "handled"
  | finalizing => "finalizing"

def ExceptionState.ofNumber : Nat → ExceptionState
  | 1 => raising
  | 2 => handled
  | 3 => finalizing
  | _ => normal

/-- The part of the state that belongs to one pass over code. -/
structure Context where
  code : Option Code := none
  pc : Int64 := 0
  base : Int64 := 0
  targetClass : Option ClassId := none
  /-- Protection markers, newest first. -/
  markers : List FrameId := []
  /-- The top frame when the pass began. -/
  entry : Option FrameId := none
  finalizeFrame : Option FrameId := none
  /-- A return to `finalizeFrame` settles the exception. -/
  settleOnReturn : Bool := false
  excState : ExceptionState := .normal
  /-- The window of the native being called. -/
  callBase : Int64 := 0
  /-- The name it was called under. -/
  callee : Symbol := 0

/-- The registers a native sees: its receiver first, then arguments and block. -/
structure Window where
  base : Int64
  argc : Int64

/-- What is left to do when a native call in progress comes to its end. -/
inductive Duty
  /-- End the constructor pass of the instance `made`. -/
  | construct (context : Context) (made : Value) (window : Window)
  /-- Release the method and the arguments of a call. -/
  | leave (method : MethodId) (window : Window) (callBase : Int64) (callee : Symbol)
  /-- Hand the result of an inner call over to the native that made it. -/
  | deliver (scratch : Int64) (window : Window)

/-- A pass that waits for the constructor pass it started. -/
structure Suspension where
  /-- The entry frame of the waiting pass. -/
  entry : Option FrameId
  duties : List Duty

structure Machine where
  config : Config
  symbols : SymbolTable := {}
  constants : List (Symbol × Value) := []
  memory : Memory
  classes : Array Class := #[]
  methods : Array Method := #[]
  profile : Option Profile := none
  topSelf : Value := .nil
  regs : Array Value
  /-- No register from here on holds anything at an instruction boundary. -/
  regHigh : Int64 := 0
  context : Context := {}
  /-- All frames ever pushed, by number. -/
  frames : Array Frame := #[]
  /-- The call chain, newest first, with the markers that were moved onto it. -/
  chain : List FrameId := []
  /-- The number of calls on the chain. -/
  depth : Int := 0
  /-- The last instruction moved control to another window. -/
  jumped : Bool := false
  aborted : Bool := false
  exception : Option ClassId := none
  excMessage : Value := .nil
  pending : Option ClassId := none
  pendingMessage : Value := .nil
  /-- The passes below the running one, innermost first. -/
  suspended : List Suspension := []
  /-- Console output in the order it was written. -/
  console : Array Text := #[]

/-- An action on a machine. A fault keeps what was done before it. -/
abbrev Action := EStateM Fault Machine

namespace Machine

def fatal {α : Type} (cause : FatalCause) : Action α := throw (.fatal cause)

/-- The value of an access that has to succeed. -/
def present {α : Type} : Option α → Action α
  | some a => pure a
  | none => throw .outOfBounds

end Machine

end ObjectMachine
