import ObjectMachine.Machine.Comparing
import ObjectMachine.Machine.Objects
import ObjectMachine.Machine.Printing

/-! The bodies of native methods. A native works on its window: the receiver, the
arguments and the block. It returns by overwriting the receiver. Three natives do not
end by themselves: a constructor waits for a pass over `initialize`, a closure goes on
in its own code, and a probe may call another native first. -/

namespace ObjectMachine

namespace Window

/-- The number of registers of a window. -/
def size (w : Window) : Int64 := w.argc + 2

end Window

namespace Machine

/-- How a native left off. -/
inductive Outcome
  | done
  /-- The new instance is to be initialized by a pass of its own. -/
  | construct (made : Value)
  /-- Another native is to be called on a prepared window. -/
  | call (method : MethodId) (window : Window)

/-- Register `i` of a window. -/
def windowReg (w : Window) (i : Int64) : Action Value :=
  if 0 ≤ i ∧ i < w.size then reg (w.base + i) else throw .outOfBounds

/-- Returns a value from a native; its reference passes to the register. -/
def setReturn (w : Window) (v : Value) : Action Unit := do
  let _ ← windowReg w 0
  setReg w.base v

/-- The arguments from number `i` on. -/
def argumentsFrom (w : Window) (i : Int64) : (count : Nat) → Action (List Value)
  | 0 => return []
  | count + 1 => do
    let v ← windowReg w i
    return v :: (← argumentsFrom w (i + 1) count)

def arguments (w : Window) : Action (List Value) := argumentsFrom w 1 w.argc.toInt.toNat

/-- Returns a value with a new reference to it. -/
def returnShared (w : Window) (v : Value) : Action Unit := do
  acquire v
  setReturn w v

def returnText (w : Window) (t : Text) : Action Unit := do
  setReturn w (← newString t)

def returnBool (w : Window) (b : Bool) : Action Unit := setReturn w (.bool b)

/-- Defines accessors named by symbols or strings, in order. -/
def defineAttributes (w : Window) (c : ClassId) (writable : Bool) : List Value → Action Unit
  | [] => setReturn w .nil
  | v :: rest => do
    let m ← get
    let name? := match v with
      | .symbol s => some (m.symbols.name s)
      | .string _ => some (m.memory.bytesOf v)
      | _ => none
    match name? with
    | none => raiseText .typeError (m.inspect v ++ " is not a symbol nor a string")
    | some name =>
      discard <| defineNative? c name .attributeGet
      if writable then
        discard <| defineNative? c (name ++ "=") .attributeSet
      defineAttributes w c writable rest

def attributes (w : Window) (writable : Bool) : Action Unit := do
  match (← windowReg w 0).cls? with
  | none => raiseText .typeError "attribute definition needs a class"
  | some c => defineAttributes w c writable (← arguments w)

/-- The class and message that the arguments of `raise` name. A single argument that is
no class is a message. -/
def raiseArguments (w : Window) : Action (ClassId × Value) := do
  if w.argc = 0 then return (.runtimeError, .nil)
  else if w.argc = 1 then
    match ← windowReg w 1 with
    | .cls c => return (c, .nil)
    | message => return (.runtimeError, message)
  else if w.argc = 2 then
    match ← windowReg w 1 with
    | .cls c => return (c, ← windowReg w 2)
    | _ => return (.argumentError, .nil)
  else return (.argumentError, .nil)

/-- Text that ends with a line break. -/
def withLineBreak (t : Text) : Text :=
  if t.getLast? == some (Text.byte '\n') then t else t ++ "\n"

/-- The name of the method that completes a new instance. -/
def initializer : Text := "initialize"

/-- Allocates an instance of the receiving class. -/
def construct (w : Window) : Action Outcome := do
  match ← windowReg w 0 with
  | .cls c =>
    let made ← newInstance c
    if made.isNil then
      setReturn w .nil
      return .done
    let s ← intern initializer
    if ((← get).findMethod? c s).isNone then
      setReturn w made
      return .done
    returnShared w made
    return .construct made
  | v =>
    raiseText .typeError ("new called on " ++ (← get).inspect v)
    return .done

/-- Goes on in the code of the receiving closure. Outside any method it has no method
name, so it cannot call its superclass. -/
def callProc (w : Window) : Action Unit := do
  let v ← windowReg w 0
  match (← get).proc? v with
  | none => raiseText .typeError ("call on " ++ (← get).inspect v)
  | some (code, _, selfFrame) =>
    let m ← get
    let f ← pushFrame 0 (m.context.callBase - m.context.base) w.argc
    if let some g := selfFrame then
      let scope := (← get).frameAt g
      if !scope.freed then
        modifyFrame f fun k => { k with methodId := scope.methodId, ownClass := scope.ownClass }
    modifyContext fun c => { c with base := c.callBase, code := some code, pc := 0 }
    enterWindow (← get).context.base code.block.registers
    modify fun m => { m with jumped := true }

/-- The methods of each class up the chain, one line for each class. -/
def methodLines (m : Machine) (c : ClassId) : Text :=
  (lineage m.classes c).flatMap fun k =>
    let names := (m.classAt k).methods.map fun id => m.symbols.name (m.methodAt id).symbol
    m.className k ++ ": " ++ Text.join ", " names ++ "\n"

/-- The names of the variables of an instance. -/
def variableLine (m : Machine) (v : Value) : Text :=
  let names := match m.instance? v with
    | some (_, _, t) => t.keys.map fun s => Text.ofString ":@" ++ m.symbols.name s
    | none => []
  "[" ++ Text.join ", " names ++ "]\n"

/-- Stores the receiver and the arguments of an inner call from register `i` on. -/
def placeArguments (i : Int64) : List Value → Action Unit
  | [] => setReg i .nil
  | v :: rest => do
    acquire v
    setReg i v
    placeArguments (i + 1) rest

/-- Counts a call in the profile, when there is one. -/
def recordCall (id : MethodId) (owner : ClassId) : Action Unit := do
  let m ← get
  if let some p := m.profile then
    let method := m.methodAt id
    let p := p.recordCall id (m.className owner) (m.symbols.name method.symbol) method.isNative
    modify fun m => { m with profile := some p }

/-- Calls the native named by the first argument on the receiver, with the other
arguments, on a window behind the caller's own. -/
def probeSend (w : Window) : Action Outcome := do
  if w.argc < 1 then
    setReturn w .nil
    return .done
  let .symbol s ← windowReg w 1 | setReturn w .nil; return .done
  let receiver ← windowReg w 0
  let args ← argumentsFrom w 2 (w.argc.toInt.toNat - 1)
  let name ← nameOf s
  let s ← intern name
  let m ← get
  let c := m.classOf receiver
  match m.findMethod? c s with
  | none =>
    raiseText .noMethodError ("undefined method '" ++ name ++ "' for " ++ m.className c)
    write ("send: " ++ name ++ " for " ++ m.className c
      ++ ": no method (nomethod=true notnative=false)\n")
    setReturn w .nil
    return .done
  | some (id, owner) =>
    let method := m.methodAt id
    if !method.isNative || method.isRedirect then
      write ("send: " ++ m.className owner ++ "#" ++ name
        ++ ": method is not native (nomethod=false notnative=true)\n")
      setReturn w .nil
      return .done
    recordCall id owner
    let inner : Window :=
      ⟨(← get).context.callBase + w.argc + 2, Int64.ofNat args.length⟩
    enterWindow inner.base inner.size
    placeArguments inner.base (receiver :: args)
    return .call id inner

/-- One line on exception, call depth, markers and memory. -/
def stateLine (m : Machine) : Text :=
  "state: " ++ m.exceptionState.name ++ " "
    ++ ((m.exception.map m.className).getD "-") ++ " " ++ m.inspect m.excMessage
    ++ " depth=" ++ Text.ofInt m.depth
    ++ " markers=" ++ Text.ofNat m.context.markers.length
    ++ " live=" ++ Text.ofInt m.memory.live
    ++ " used=" ++ Text.ofInt64 m.memory.pool.used ++ "\n"

/-- The value of an operand, after operations that gave the values `given`. -/
def hostValue (w : Window) (given : List Value) : HostOperand → Action Value
  | .register i => windowReg w i
  | .given k => return given.getD k .nil
  | .nil => return .nil
  | .int n => return .int n

/-- Performs an operation; one that gives nothing gives nil. -/
def hostOperation (w : Window) (given : List Value) (op : HostOperation) : Action Value := do
  let value := hostValue w given
  match op with
  | .newInstance c =>
    match (← value c).cls? with
    | some c => newInstance c
    | none => return .nil
  | .newString t => newString t
  | .dupInstance obj => dupInstance (← value obj)
  | .getVariable obj name => getVariable (← value obj) (← intern name)
  | .setVariable obj name v =>
    setVariable (← value obj) (← intern name) (← value v)
    return .nil
  | .getConstant name => getConstant (← intern name)
  | .setConstant name v =>
    setConstant (← intern name) (← value v)
    return .nil
  | .acquire v =>
    acquire (← value v)
    return .nil
  | .release v =>
    release (← value v)
    return .nil

/-- Performs operations in order. The value that each gives is put in front. -/
def hostWork (w : Window) (given : List Value) : List HostOperation → Action (List Value)
  | [] => return given
  | op :: rest => do hostWork w ((← hostOperation w given op) :: given) rest

/-- Runs a host's method. Without a class to raise, it raises a runtime error. -/
def runHost (work : List HostOperation) (ending : HostEnding) (w : Window) : Action Unit := do
  let given ← hostWork w [] work
  match ending with
  | .keep => return
  | .give v => setReturn w (← hostValue w given v)
  | .raise c message =>
    let c := (← hostValue w given c).cls?.getD .runtimeError
    raise c (← hostValue w given message)

def runProbe (p : Probe) (w : Window) : Action Outcome := do
  match p with
  | .answer => setReturn w (.int 42)
  | .argumentCount => setReturn w (.int w.argc)
  | .callee => setReturn w (.symbol (← get).context.callee)
  | .firstArgument => returnShared w (← if w.argc = 0 then pure .nil else windowReg w 1)
  | .block => returnShared w (← windowReg w (w.argc + 1))
  | .self => returnShared w (← self)
  | .blockGiven => returnBool w (← blockGiven)
  | .keep => pure ()
  | .raise =>
    setReturn w .nil
    raiseText .typeError ("native raise with " ++ Text.ofInt64 w.argc)
  | .send => return ← probeSend w
  | .state =>
    write (← get).stateLine
    setReturn w .nil
  | .host work ending => runHost work ending w
  return .done

/-- Runs a native on its window. -/
def runNative (n : Native) (w : Window) : Action Outcome := do
  match n with
  | .not => returnBool w (!(← windowReg w 0).isTruthy)
  | .equal =>
    if w.argc < 1 then returnBool w false
    else returnBool w ((← get).equal (← windowReg w 0) (← windowReg w 1))
  | .notEqual =>
    if w.argc < 1 then returnBool w true
    else returnBool w (!(← get).equal (← windowReg w 0) (← windowReg w 1))
  | .compare =>
    if w.argc < 1 then setReturn w .nil
    else setReturn w (.int (sign ((← get).compare (← windowReg w 0) (← windowReg w 1))))
  | .caseEqual =>
    if w.argc < 1 then returnBool w false
    else match ← windowReg w 0, ← windowReg w 1 with
      | .cls c, v => returnBool w ((← get).isKindOf v c)
      | u, v => returnBool w ((← get).equal u v)
  | .classOf => setReturn w (.cls ((← get).classOf (← windowReg w 0)))
  | .isNil => returnBool w (← windowReg w 0).isNil
  | .isKindOf =>
    let wanted ← if w.argc < 1 then pure .nil else windowReg w 1
    match wanted.cls? with
    | none => raiseText .typeError "class or module required"
    | some c => returnBool w ((← get).isKindOf (← windowReg w 0) c)
  | .new => return ← construct w
  | .dup =>
    if let .object r ← windowReg w 0 then
      setReturn w (← dupInstance (.object r))
  | .attributeReader => attributes w false
  | .attributeAccessor => attributes w true
  | .blockGiven => returnBool w (← blockGiven)
  | .raise =>
    let (c, message) ← raiseArguments w
    setReturn w .nil
    raise c message
  | .inspect => returnText w ((← get).inspect (← windowReg w 0))
  | .toText =>
    match ← windowReg w 0 with
    | .string _ => pure ()
    | v => returnText w ((← get).plain v)
  | .show =>
    let args ← arguments w
    let m ← get
    write (args.flatMap fun v => m.inspect v ++ "\n")
    match args with
    | [v] => returnShared w v
    | _ => setReturn w .nil
  | .print =>
    let args ← arguments w
    let m ← get
    write (args.flatMap m.plain)
    setReturn w .nil
  | .put =>
    let args ← arguments w
    let m ← get
    if w.argc = 0 then write "\n"
    else write (args.flatMap fun v => withLineBreak (m.plain v))
    setReturn w .nil
  | .callProc => callProc w
  | .newProc =>
    let block ← windowReg w (w.argc + 1)
    if block.isProc then returnShared w block
    else raiseText .argumentError "tried to create Proc object without a block"
  | .nilToInt => setReturn w (.int 0)
  | .nilToFloat => setReturn w (.float .zero)
  | .nilInspect => returnText w "nil"
  | .nilToText => returnText w ""
  | .boolToText => returnText w ((← get).plain (← windowReg w 0))
  | .attributeGet =>
    let v ← windowReg w 0
    setReturn w (← getVariable v (← get).context.callee)
  | .attributeSet =>
    if w.argc < 1 then
      raiseText .argumentError "wrong number of arguments (given 0, expected 1)"
    else
      let name := Text.dropTail "=" (← nameOf (← get).context.callee)
      let v ← windowReg w 1
      setVariable (← windowReg w 0) (← intern name) v
      returnShared w v
  | .objectId => setReturn w (.int ((← get).objectId (← windowReg w 0)))
  | .instanceMethods =>
    let m ← get
    write (m.methodLines (m.classOf (← windowReg w 0)))
    setReturn w .nil
  | .instanceVariables =>
    write ((← get).variableLine (← windowReg w 0))
    setReturn w .nil
  | .memoryStatistics =>
    write (← get).memoryStatistics
    setReturn w .nil
  | .probe p => return ← runProbe p w
  return .done

end Machine

end ObjectMachine
