import ObjectMachine.Code.Validity
import ObjectMachine.Machine.Step

/-! Running code. One tick executes one instruction of the innermost pass and, when that
pass is over, takes up the passes below it as far as they end too. A unit of code runs
at top level with the main object as its receiver. -/

namespace ObjectMachine

/-- Why a unit of code has no result. -/
inductive ExecuteError
  | aborted
  | pendingException
  | invalid (defect : CodeDefect)
  /-- An exception nobody rescued, and its message as text. -/
  | unhandled (cls message : Text)
  | fatal (cause : FatalCause)
  /-- The number of ticks was not enough. -/
  | unfinished
  deriving DecidableEq

def ExecuteError.message : ExecuteError → Text
  | aborted => "vm aborted"
  | pendingException => "unhandled exception pending"
  | invalid defect => "execute: " ++ defect.message
  | unhandled cls message =>
    if message.isEmpty then "unhandled exception (" ++ cls ++ ")"
    else message ++ " (" ++ cls ++ ")"
  | fatal cause => (Fault.fatal cause).message
  | unfinished => "unfinished"

namespace Machine

/-- Takes up a suspended pass below which `rest` are suspended. -/
def resumePass (s : Suspension) (rest : List Suspension) : Action Unit := do
  modify fun m => { m with
    suspended := rest
    context := { m.context with entry := s.entry } }
  runDuties s.duties

/-- Completes an instruction: clears the registers above a window that was left or
entered. The answer is whether an exception is pending, which ends the pass. -/
def concludeStep : Action Bool := do
  if (← get).jumped then
    modify fun m => { m with jumped := false }
    scrubAbove ((← get).context.base + (← currentSize))
  if (← get).pending.isNone then return false
  unwindTo (← get).context.entry
  return true

/-- Ends the last pass. -/
def endLastPass (result : Value) : Action (Option Value) := do
  modifyContext fun c => { c with entry := none }
  return some result

/-- Completes an instruction of the running pass and of the suspended ones, as far as
they end. The answer is the result when the last pass has ended. -/
def finishStep : List Suspension → Action (Option Value)
  | [] => do if ← concludeStep then endLastPass .nil else return none
  | s :: rest => do
    if ← concludeStep then
      resumePass s rest
      finishStep rest
    else return none

/-- Ends the running pass with a result. Only the result of the last pass counts. -/
def endPass (result : Value) : Action (Option Value) := do
  match (← get).suspended with
  | [] => endLastPass result
  | s :: rest =>
    resumePass s rest
    finishStep rest

/-- The next instruction. -/
def fetch : Action Inst := do
  let code ← currentCode
  let pc := (← get).context.pc
  if (code.block.code.size : Int) ≤ pc.toInt then fatal (.pastEnd pc code.block.name)
  let i ← present (entryAt? code.block.code pc)
  setPc (pc + 1)
  return i

/-- Executes one instruction; the answer is the result of the run when it is over. -/
def tick : Action (Option Value) := do
  match ← step (← fetch) with
  | .finished result => endPass result
  | .entered => return none
  | .same => finishStep (← get).suspended

/-- Ticks until the run is over, as often as `ticks` at most. -/
def run : (ticks : Nat) → Action (Option Value)
  | 0 => return none
  | ticks + 1 => do
    match ← tick with
    | some result => return some result
    | none => run ticks

/-- Enters a unit of code at top level. -/
def enterUnit (code : Code) : Action Unit := do
  let main := (← get).topSelf
  acquire main
  setReg 0 main
  modify fun m => { m with
    context := { m.context with
      base := 0, code := some code, pc := 0, targetClass := some .object
      entry := m.chain.head? }
    jumped := false }
  enterWindow 0 (← currentSize)

/-- The pending exception as the host sees it. -/
def unhandled? (m : Machine) : Option ExecuteError :=
  m.pending.map fun c =>
    let message := match m.pendingMessage with
      | .nil => []
      | .string r => m.memory.bytesOf (.string r)
      | v => m.inspect v
    .unhandled (m.className c) message

/-- Leaves a unit of code: drops its markers and registers, and an exception that was
rescued but not taken. -/
def leaveUnit (result : Value) : Action (Except ExecuteError Value) := do
  dropAllMarkers
  scrubAbove 0
  if (← get).exception.isSome then clearException
  match (← get).unhandled? with
  | some error =>
    release result
    return .error error
  | none => return .ok result

/-- Runs a unit of code from its entry to its end. -/
def runUnit (ticks : Nat) (code : Code) : Action (Except ExecuteError Value) := do
  enterUnit code
  match ← run ticks with
  | some result => leaveUnit result
  | none => return .error .unfinished

/-- Executes a program at top level. The result belongs to the caller. An unhandled
exception stays pending and bars the machine until it is cleared; a fatal error bars it
for good. -/
def execute (ticks : Nat) (p : Program) : Action (Except ExecuteError Value) := do
  let m ← get
  if m.aborted then return .error .aborted
  if m.pending.isSome then return .error .pendingException
  if let some defect := p.defect? then return .error (.invalid defect)
  try runUnit ticks p.root
  catch
    | .fatal cause =>
      modify fun m => { m with aborted := true, suspended := [] }
      return .error (.fatal cause)
    | fault =>
      modify fun m => { m with suspended := [] }
      throw fault

end Machine

end ObjectMachine
