import ObjectMachine.Machine.Frames

/-! Raising and unwinding. An exception goes to the newest protection marker: first to one
that an ensure body left on the call chain, then to the markers of the pass. With none
left it is settled as pending, which ends the pass. An exception raised while another
one is in flight keeps the first. -/

namespace ObjectMachine.Machine

def exceptionState (m : Machine) : ExceptionState :=
  if m.pending.isSome then .raising else m.context.excState

/-- Forgets the exception in flight and releases its message. -/
def clearException : Action Unit := do
  let message := (← get).excMessage
  modify fun m => { m with
    exception := none
    excMessage := .nil
    context := { m.context with excState := .normal } }
  release message

/-- Turns the exception in flight into the pending one. An earlier pending exception is
kept, and there has to be one of the two. -/
def settlePending : Action Unit := do
  let m ← get
  if m.pending.isNone then
    modify fun m => { m with pending := m.exception, pendingMessage := m.excMessage }
  else release m.excMessage
  modify fun m => { m with
    exception := none
    excMessage := .nil
    context := { m.context with excState := .normal, settleOnReturn := false } }
  if (← get).pending.isNone then throw .outOfBounds

/-- Forgets the pending exception and releases its message. -/
def clearPending : Action Unit := do
  let message := (← get).pendingMessage
  modify fun m => { m with pending := none, pendingMessage := .nil }
  release message

/-- Moves the next marker, if any, onto the call chain, so that the return from an
ensure body resumes there. Without one the return settles the exception. -/
def spliceNext : Action Unit :=
  modify fun m =>
    match m.context.markers with
    | next :: rest =>
      { m with chain := next :: m.chain, context := { m.context with markers := rest } }
    | [] =>
      { m with context := { m.context with
          finalizeFrame := m.chain.head?, settleOnReturn := true } }

/-- Continues in the context of a marker that is on neither list any more. There has to
be an exception in flight. -/
def resumeAt (f : FrameId) : Action Unit := do
  let marker := (← get).frameAt f
  unwindTo marker.depth
  modifyContext fun c => { c with
    base := marker.base, code := marker.code, pc := marker.pc,
    targetClass := marker.targetClass, settleOnReturn := false }
  if marker.tag = .rescue then
    modifyContext fun c => { c with excState := .handled }
  else
    modifyContext fun c => { c with excState := .finalizing }
    spliceNext
  if (← get).exception.isNone then throw .outOfBounds
  freeFrame f
  modify fun m => { m with jumped := true }

/-- The newest marker on the call chain of the current pass. -/
def splicedMarker? (m : Machine) : Option FrameId :=
  (m.chain.takeWhile fun f => m.context.entry != some f).find? fun f => (m.frameAt f).isMarker

/-- Hands the exception in flight over to the nearest marker. -/
def deliverException : Action Unit := do
  match (← get).splicedMarker? with
  | some f =>
    unwindTo (some f)
    modify fun m => { m with chain := m.chain.tail }
    resumeAt f
  | none =>
    match (← get).context.markers with
    | f :: rest =>
      modifyContext fun c => { c with markers := rest }
      resumeAt f
    | [] =>
      modifyContext fun c => { c with excState := .raising }
      settlePending

/-- Raises an exception; the machine takes a reference of its own to the message. -/
def raise (c : ClassId) (message : Value) : Action Unit := do
  modify fun m => { m with profile := m.profile.map (·.recordRaise (m.className c)) }
  if (← get).exception.isNone then
    acquire message
    modify fun m => { m with exception := some c, excMessage := message }
  deliverException

/-- A new string, or nil when the pool is exhausted. -/
def newString (t : Text) : Action Value := do
  match ← allocate? (stringBytes + Int64.ofNat t.length) (.string t) with
  | some r => return .string r
  | none => return .nil

/-- Raises an exception with a message of text. -/
def raiseText (c : ClassId) (t : Text) : Action Unit := do
  let message ← newString t
  raise c message
  release message

end ObjectMachine.Machine
