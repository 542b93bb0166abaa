import ObjectMachine.Machine.Calls

/-! The instructions. -/

namespace ObjectMachine.Machine

/-- The symbol in slot `i` of the current code. All symbols of the block are interned
when one of them is first needed. -/
def codeSymbol (i : Int64) : Action Symbol := do
  let names := (← currentCode).block.symbols
  let ids ← modifyGet fun m =>
    let (symbols, ids) := m.symbols.internAll names.toList
    (ids, { m with symbols })
  present (entryAt? ids.toArray i)

/-- The key of an instance variable: its name without the mark. -/
def variableSymbol (i : Int64) : Action Symbol := do
  let name ← present (entryAt? (← currentCode).block.symbols i)
  intern (Text.dropLead "@" name)

/-- A new value for a literal. -/
def literalValue (lit : Literal) : Action Value :=
  match lit.kind with
  | 0 => return .int lit.int
  | 1 => return .float lit.float
  | 2 => newString lit.text
  | _ => return .nil

/-- Whether an exception is of a kind. An exception given by a value counts as its class. -/
def rescueMatches (m : Machine) (exc target : Value) : Bool :=
  match target with
  | .cls c => m.isSubclassOf (m.classOf exc) c
  | _ => false

/-- The newest call on the chain. -/
def currentCall? (m : Machine) : Option Frame :=
  (m.chain.map m.frameAt).find? fun f => !f.isMarker

/-- Calls the running method's namesake above the class it was found on, with the
current receiver. -/
def callSuper (a argc : Int64) : Action Progress := do
  match (← get).currentCall? with
  | some { ownClass := some own, methodId := s + 1, .. } =>
    let receiver ← self
    acquire receiver
    let base := (← get).context.base
    setReg (base + a) receiver
    enterWindow (base + a) (argc + 2)
    setReg (base + a + argc + 1) .nil
    match ((← get).classAt own).super with
    | none =>
      let name ← nameOf (s + 1)
      raiseText .noMethodError ("super: no superclass method '" ++ name ++ "'")
      return .same
    | some super => dispatch a (s + 1) argc super
  | _ =>
    raiseText .noMethodError "super called outside of method"
    return .same

/-- The marker on top of the chain of the current pass. -/
def topMarker? (m : Machine) : Option FrameId :=
  m.chain.head?.filter fun f => m.context.entry != some f && (m.frameAt f).isMarker

/-- Whether a return ends the last ensure body of an exception. -/
def settlesOnReturn (m : Machine) : Bool :=
  m.context.excState == .finalizing && m.context.settleOnReturn
    && m.chain.head? == m.context.finalizeFrame

/-- Leaves the current frame with `R(a)` as the result. -/
def leaveFrame (a : Int64) : Action Progress := do
  let base := (← get).context.base
  let result ← exchangeReg (base + a) .empty
  let m ← get
  if m.chain.head? = m.context.entry then return .finished result
  let high := base + (← currentSize)
  clearRegs (base + 1) (span (base + 1) high)
  setReg base result
  popFrame
  return .same

/-- Returns with `R(a)` as the result. At the end of an ensure body it goes on with the
unwinding instead: at the marker on top of the chain, or by settling the exception. -/
def leave (a : Int64) : Action Progress := do
  let m ← get
  match m.topMarker? with
  | some f =>
    modify fun m => { m with chain := m.chain.tail }
    resumeAt f
    return .same
  | none =>
    if m.settlesOnReturn then
      settlePending
      return .same
    leaveFrame a

/-- Moves class and message of the exception to `R(a)` and the register after it. -/
def takeException (a : Int64) : Action Unit := do
  let i := (← get).context.base + a
  match (← get).exception with
  | none =>
    setReg i .nil
    setReg (i + 1) .nil
  | some c =>
    let message := (← get).excMessage
    setReg i (.cls c)
    modify fun m => { m with excMessage := .nil }
    setReg (i + 1) message
    clearException

/-- Enters a class body. -/
def enterBody (a : Int64) (c : ClassId) (child : Int64) : Action Unit := do
  let base := (← get).context.base + a
  let f ← pushFrame 0 a 0
  modifyFrame f fun k => { k with ownClass := some c }
  let code ← present ((← currentCode).child? child)
  modifyContext fun k => { k with base, code := some code, pc := 0, targetClass := some c }
  enterWindow base code.block.registers
  modify fun m => { m with jumped := true }

/-- The superclass a register names for a new class; `none` for a value that is none. -/
def superOf? : Value → Option (Option ClassId)
  | .nil | .empty => some none
  | .cls c => some (some c)
  | _ => none

def setPc (pc : Int64) : Action Unit := modifyContext fun c => { c with pc }

/-- Copies a register of one scope to a register of another. -/
def copyReg (source target : Int64) : Action Unit := do
  let v ← reg source
  acquire v
  setReg target v

/-- Executes one instruction. -/
def step (i : Inst) : Action Progress := do
  let r := (← get).context.base
  match i.op with
  | .nop => pure ()
  | .move => copyReg (r + i.b) (r + i.a)
  | .loadLiteral =>
    let lit ← present (entryAt? (← currentCode).block.pool i.b)
    setReg (r + i.a) (← literalValue lit)
  | .loadInt => setReg (r + i.a) (.int i.b)
  | .loadSymbol => setReg (r + i.a) (.symbol (← codeSymbol i.b))
  | .loadNil => setReg (r + i.a) .nil
  | .loadSelf =>
    let v ← self
    acquire v
    setReg (r + i.a) v
  | .loadTrue => setReg (r + i.a) (.bool true)
  | .loadFalse => setReg (r + i.a) (.bool false)
  | .getVariable =>
    let obj ← self
    setReg (r + i.a) (← getVariable obj (← variableSymbol i.b))
  | .setVariable =>
    let obj ← self
    let s ← variableSymbol i.b
    setVariable obj s (← reg (r + i.a))
  | .getConstant =>
    let s ← codeSymbol i.b
    if ((← get).constant? s).isSome then setReg (r + i.a) (← getConstant s)
    else raiseText .nameError ("uninitialized constant " ++ (← nameOf s))
  | .setConstant =>
    let s ← codeSymbol i.b
    setConstant s (← reg (r + i.a))
  | .getOuter =>
    match ← outerBase i.c with
    | none => raiseText .runtimeError "outer scope of block is gone"
    | some up => copyReg (up + i.b) (r + i.a)
  | .setOuter =>
    match ← outerBase i.c with
    | none => raiseText .runtimeError "outer scope of block is gone"
    | some up => copyReg (r + i.a) (up + i.b)
  | .jump => setPc i.a
  | .jumpIf => if (← reg (r + i.a)).isTruthy then setPc i.b
  | .jumpUnless => if !(← reg (r + i.a)).isTruthy then setPc i.b
  | .send =>
    enterWindow (r + i.a) (i.c + 2)
    setReg (r + i.a + i.c + 1) .nil
    let s ← codeSymbol i.b
    let receiver ← reg (r + i.a)
    return ← dispatch i.a s i.c ((← get).classOf receiver)
  | .sendBlock =>
    let s ← codeSymbol i.b
    let receiver ← reg (r + i.a)
    return ← dispatch i.a s i.c ((← get).classOf receiver)
  | .callSuper => return ← callSuper i.a i.b
  | .leave => return ← leave i.a
  | .makeBlock =>
    let code ← present ((← currentCode).child? i.b)
    setReg (r + i.a) (← newProc code)
  | .defineMethod =>
    let owner ← reg (r + i.a)
    let body ← reg (r + i.a + 1)
    match owner.cls?, (← get).proc? body with
    | some c, some (code, _, _) => discard <| installCode? c (← codeSymbol i.b) code
    | _, _ => raiseText .typeError "method definition needs a class and a block"
  | .defineClass =>
    match superOf? (← reg (r + i.a + 1)) with
    | none => raiseText .typeError "superclass must be a class"
    | some super =>
      let name ← present (entryAt? (← currentCode).block.symbols i.b)
      setReg (r + i.a) (.cls (← defineClass name super))
  | .runBody =>
    match (← reg (r + i.a)).cls? with
    | none => raiseText .typeError "class body needs a class"
    | some c => enterBody i.a c i.b
  | .targetClass =>
    let c := (← get).context.targetClass
    setReg (r + i.a) ((c.map .cls).getD .nil)
  | .pushRescue => pushMarker .rescue i.a
  | .pushEnsure => pushMarker .ensure i.a
  | .popMarkers => popMarkers i.a
  | .takeException => takeException i.a
  | .rescueMatch =>
    let exc ← reg (r + i.a)
    let target ← reg (r + i.b)
    setReg (r + i.c) (.bool ((← get).rescueMatches exc target))
  | .raise =>
    match ← reg (r + i.a) with
    | .cls c => raise c (← reg (r + i.a + 1))
    | .string s => raise .runtimeError (.string s)
    | _ => raiseText .typeError "exception class/object expected"
  | .abort | .stop => return .finished .nil
  | .unknown number =>
    let code ← currentCode
    fatal (.unknownOpcode number code.block.name ((← get).context.pc - 1))
  return .same

end ObjectMachine.Machine
