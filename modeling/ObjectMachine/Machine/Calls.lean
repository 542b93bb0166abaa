import ObjectMachine.Machine.Natives

/-! Calls. A method that is code gets a frame, and the machine goes on in its code. A
native runs to completion, or leaves duties for the end of the pass it started. -/

namespace ObjectMachine.Machine

/-- Ends a native call: releases the method, and the arguments unless control has moved
elsewhere. -/
def leaveNative (method : MethodId) (w : Window) (callBase : Int64) (callee : Symbol) :
    Action Unit := do
  releaseMethod method
  modifyContext fun c => { c with callBase, callee }
  if !(← get).jumped then clearRegs (w.base + 1) (w.argc + 1).toInt.toNat

/-- Ends a constructor pass. An exception it left pending is raised again in the context
of the caller, and the instance is lost. -/
def endConstruct (context : Context) (made : Value) (w : Window) : Action Unit := do
  dropAllMarkers
  modify fun m => { m with context, jumped := false }
  let m ← get
  match m.pending with
  | some c =>
    let message := m.pendingMessage
    modify fun m => { m with pending := none, pendingMessage := .nil }
    release made
    setReturn w .nil
    raise c message
    release message
  | none => setReturn w made

def runDuty : Duty → Action Unit
  | .construct context made w => endConstruct context made w
  | .leave method w callBase callee => leaveNative method w callBase callee
  | .deliver scratch w => do
    let result ← exchangeReg scratch .empty
    setReturn w result

def runDuties : List Duty → Action Unit
  | [] => pure ()
  | d :: rest => do
    runDuty d
    runDuties rest

/-- Starts a pass in the current context above the one that runs, which gets its duties
when the new pass ends. -/
def enterPass (duties : List Duty) : Action Unit := do
  modify fun m => { m with
    suspended := ⟨m.context.entry, duties⟩ :: m.suspended
    context := { m.context with entry := m.chain.head? }
    jumped := false }
  enterWindow (← get).context.base (← currentSize)

/-- The code of a constructor pass: a call of the initializer with the arguments that
are already in place. -/
def constructorCode (argc : Int64) : Code :=
  Program.root ⟨#[{
    name := "new"
    registers := argc + 2
    code := #[{ op := .sendBlock, c := argc }, { op := .abort }]
    symbols := #[initializer] }]⟩

/-- Starts the constructor pass of a new instance. -/
def enterConstruct (made : Value) (w : Window) (duties : List Duty) : Action Unit := do
  let context := (← get).context
  modifyContext fun c => { c with
    markers := [], base := c.callBase, code := some (constructorCode w.argc), pc := 0 }
  enterPass (.construct context made w :: duties)

/-- Whether a step ended where it began, or in a new pass. -/
inductive Progress
  | same
  | entered
  /-- The pass is over with this result. -/
  | finished (v : Value)
  deriving DecidableEq

/-- An inner call of a native, with what is to be done after it. -/
structure InnerCall where
  method : MethodId
  window : Window
  duties : List Duty

/-- Begins a native call. The answer is the duty that ends it. -/
def enterNative (method : MethodId) (w : Window) : Action Duty := do
  let m ← get
  let leave := Duty.leave method w m.context.callBase m.context.callee
  let callee := (m.methodAt method).symbol
  modifyContext fun c => { c with callBase := w.base, callee }
  acquireMethod method
  return leave

/-- A native needs its window inside the register file. -/
def checkWindow (w : Window) : Action Unit := do
  let high := w.base + w.argc + 2
  if w.base < 0 ∨ high < w.base ∨ ((← get).regs.size : Int) < high.toInt then
    throw .outOfBounds

/-- Runs a native on its window, up to its end, to a pass it has to wait for, or to an
inner call. -/
def startNative (method : MethodId) (w : Window) (duties : List Duty) :
    Action (Progress ⊕ InnerCall) := do
  let leave ← enterNative method w
  checkWindow w
  match ← runNative (← present ((← get).methodAt method).native?) w with
  | .done =>
    runDuties (leave :: duties)
    return .inl .same
  | .construct made =>
    enterConstruct made w (leave :: duties)
    return .inl .entered
  | .call inner window =>
    return .inr ⟨inner, window, .deliver window.base w :: leave :: duties⟩

/-- Calls a native. A native that calls another one passes on fewer arguments than it
got, so the number of arguments limits the inner calls. -/
def callNative : (limit : Nat) → InnerCall → Action Progress
  | limit, call => do
    match ← startNative call.method call.window call.duties with
    | .inl progress => return progress
    | .inr inner =>
      match limit with
      | 0 => throw .outOfBounds
      | limit + 1 => callNative limit inner

/-- Goes on in the code of a method. -/
def callCode (a : Int64) (s : Symbol) (argc : Int64) (method : MethodId) (owner : ClassId)
    (code : Code) : Action Unit := do
  let base := (← get).context.base + a
  let f ← pushFrame s a argc
  modifyFrame f fun k => { k with ownClass := some owner, method := some method }
  acquireMethod method
  modifyContext fun c => { c with base, code := some code, pc := 0 }
  enterWindow base code.block.registers
  modify fun m => { m with jumped := true }

/-- Calls method `s` on the receiver in `R(a)`, looking it up from class `c`. The block
or nil follows the arguments. -/
def dispatch (a : Int64) (s : Symbol) (argc : Int64) (c : ClassId) : Action Progress := do
  let callBase := (← get).context.base + a
  enterWindow callBase (argc + 2)
  match (← get).findMethod? c s with
  | none =>
    let receiver ← reg callBase
    let m ← get
    raiseText .noMethodError
      ("undefined method '" ++ m.symbols.name s ++ "' for " ++ m.className (m.classOf receiver))
    return .same
  | some (id, owner) =>
    recordCall id owner
    match ((← get).methodAt id).body with
    | .native _ => callNative argc.toInt.toNat ⟨id, ⟨callBase, argc⟩, []⟩
    | .code code =>
      callCode a s argc id owner code
      return .same

end ObjectMachine.Machine
