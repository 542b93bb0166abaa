import ObjectMachine.Machine.Exceptions

/-! Instances, their variables, and closures with the scopes they see. -/

namespace ObjectMachine.Machine

/-- A new instance, or nil when the pool is exhausted. -/
def newInstance (c : ClassId) : Action Value := do
  match ← allocate? instanceBytes (.object c {}) with
  | some r => return .object r
  | none => return .nil

/-- Class and variables of an instance. -/
def instance? (m : Machine) : Value → Option (Ref × ClassId × VariableTable)
  | .object r =>
    match m.memory.heap[r]? with
    | some { body := .object c t, .. } => some (r, c, t)
    | _ => none
  | _ => none

/-- Replaces the variables of an instance and the pool they are charged to. -/
def putVariables (r : Ref) (t : VariableTable) (pool : Pool) : Action Unit :=
  modify fun m =>
    let put := fun (o : HeapObject) =>
      match o.body with
      | .object c _ => { o with body := .object c t }
      | _ => o
    { m with memory := { m.memory with pool, heap := m.memory.heap.modify r put } }

/-- Stores an instance variable; the instance takes a reference of its own. Values that
are no instances have no variables, and without memory nothing is stored. -/
def setVariable (obj : Value) (s : Symbol) (v : Value) : Action Unit := do
  if ((← get).instance? obj).isNone then return
  mustBeLive obj
  acquire v
  let m ← get
  let some (r, _, t) := m.instance? obj | return
  match t.set? m.memory.pool s v with
  | none => release v
  | some (t, pool, old) =>
    putVariables r t pool
    if let some old := old then release old

/-- The value of an instance variable with a reference for the caller, nil when it was
never set. -/
def getVariable (obj : Value) (s : Symbol) : Action Value := do
  match (← get).instance? obj with
  | none => return .nil
  | some (_, _, t) =>
    mustBeLive obj
    match t.get? s with
    | none => return .nil
    | some v =>
      acquire v
      return v

/-- Takes a reference to each value. -/
def acquireAll : List Value → Action Unit
  | [] => pure ()
  | v :: rest => do
    acquire v
    acquireAll rest

/-- A new instance of the same class with its own references to the same values, or nil
when the pool is exhausted. Without memory for the variables it has none. -/
def dupInstance (obj : Value) : Action Value := do
  match (← get).instance? obj with
  | none => return .nil
  | some (_, c, t) =>
    mustBeLive obj
    let copy ← newInstance c
    if let .object r := copy then
      if let some (t, pool) := t.copy? (← get).memory.pool then
        putVariables r t pool
        acquireAll t.values
    return copy

/-- Code, frame and self frame of a closure. -/
def proc? (m : Machine) : Value → Option (Code × Option FrameId × Option FrameId)
  | .proc r =>
    match m.memory.heap[r]? with
    | some { body := .proc code frame selfFrame, .. } => some (code, frame, selfFrame)
    | _ => none
  | _ => none

/-- A closure over code in the current context, or nil when the pool is exhausted. A
closure made inside another one has the same self. -/
def newProc (code : Code) : Action Value := do
  let m ← get
  let frame := m.chain.head?
  let selfFrame := match m.proc? (← reg m.context.base) with
    | some (_, _, selfFrame) => selfFrame
    | none => frame
  match ← allocate? procBytes (.proc code frame selfFrame) with
  | some r => return .proc r
  | none => return .nil

/-- Follows closures to the receiver of their scope, for a limited number of hops. -/
def followSelf : (hops : Nat) → Value → Action Value
  | hops, v => do
    match (← get).proc? v with
    | none => return v
    | some (_, _, selfFrame) =>
      match hops with
      | 0 => reg 0
      | hops + 1 => followSelf hops (← reg ((← get).frameWindow selfFrame))

/-- The receiver of the current context. Inside a block it is that of the scope the
block was written in. -/
def self : Action Value := do
  let m ← get
  followSelf (m.depth + 1).toNat (← reg m.context.base)

/-- The first register of the scope `level` levels out from a closure; none when a scope
on the way is gone. -/
def scopeOf : (level : Nat) → Value → Action (Option Int64)
  | level, v => do
    let m ← get
    match m.proc? v with
    | none => return none
    | some (_, frame, _) =>
      if frame.any fun f => (m.frameAt f).freed then return none
      let base := m.frameWindow frame
      match level with
      | 0 => return some base
      | level + 1 => scopeOf level (← reg base)

/-- The first register of the scope `level` levels out from the running block. A
negative level counts on from the largest one. -/
def outerBase (level : Int64) : Action (Option Int64) := do
  scopeOf level.toUInt64.toNat (← reg (← get).context.base)

/-- Whether the current method was passed a block; inside a block, the method it was
written in. -/
def blockGiven : Action Bool := do
  let m ← get
  match m.chain with
  | [] => return false
  | f :: _ =>
    let frame := m.frameAt f
    if frame.isMarker then return false
    match m.proc? (← reg frame.window) with
    | none => return (← reg (frame.window + frame.nargs + 1)).isProc
    | some (_, _, none) => return false
    | some (_, _, some g) =>
      let frame := m.frameAt g
      if frame.freed then return false
      return (← reg (frame.window + frame.nargs + 1)).isProc

/-- A number that identifies a value. Heap values are numbered by age, classes by name. -/
def objectId (m : Machine) (v : Value) : Int64 :=
  match v with
  | .object r | .proc r | .string r => Int64.ofNat (r + 1)
  | .cls c => Int64.ofNat (m.classAt c).symbol
  | .int n => n * 2 + 1
  | .symbol s => Int64.ofNat (v.kind.number * 4294967296 + s)
  | v => Int64.ofNat (v.kind.number * 4294967296)

end ObjectMachine.Machine
