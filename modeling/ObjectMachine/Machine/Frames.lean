import ObjectMachine.Machine.Class

/-! Registers, call frames and protection markers. The call chain and the markers are
lists of frames; a marker moves onto the chain when an ensure body has to go on with
the next one. -/

namespace ObjectMachine.Machine

/-! ### Registers -/

def reg (i : Int64) : Action Value := do present (entryAt? (← get).regs i)

/-- Stores a value in a register and gives the one it held, without counting. -/
def exchangeReg (i : Int64) (v : Value) : Action Value := do
  let old ← reg i
  modify fun m => { m with regs := m.regs.setIfInBounds i.toInt.toNat v }
  return old

/-- Stores a value in a register; its reference passes to the register. -/
def setReg (i : Int64) (v : Value) : Action Unit := do
  let old ← exchangeReg i v
  release old

def clearReg (i : Int64) : Action Unit := setReg i .empty

/-- Clears the registers of a range. -/
def clearRegs (start : Int64) : (count : Nat) → Action Unit
  | 0 => pure ()
  | count + 1 => do
    clearReg start
    clearRegs (start + 1) count

/-- The number of registers from `low` up to and without `high`. -/
def span (low high : Int64) : Nat := (high.toInt - low.toInt).toNat

/-- Checks that a window fits the register file and notes how high it reaches. -/
def enterWindow (base size : Int64) : Action Unit := do
  let m ← get
  let top := base + size
  if base < 0 ∨ (m.regs.size : Int) < top.toInt then
    fatal (.registerOverflow top m.regs.size)
  if m.regHigh < top then
    modify fun m => { m with regHigh := top }

/-- Clears the registers in use from `start` on, as many as `count`. -/
def scrub (start : Int64) : (count : Nat) → Action Unit
  | 0 => pure ()
  | count + 1 => do
    if !(← reg start).isEmpty then clearReg start
    scrub (start + 1) count

/-- Clears every register from `top` up to the highest one in use. -/
def scrubAbove (top : Int64) : Action Unit := do
  let high := (← get).regHigh
  scrub top (span top high)
  if top < high then
    modify fun m => { m with regHigh := top }

/-! ### Frames -/

def frameAt (m : Machine) (f : FrameId) : Frame :=
  m.frames.getD f ⟨0, none, 0, none, none, 0, 0, 0, .call, none, none, true⟩

def modifyFrame (f : FrameId) (change : Frame → Frame) : Action Unit :=
  modify fun m => { m with frames := m.frames.modify f change }

def modifyContext (change : Context → Context) : Action Unit :=
  modify fun m => { m with context := change m.context }

/-- The code of the current context. -/
def currentCode : Action Code := do present (← get).context.code

/-- The size of the window the current code needs. -/
def currentSize : Action Int64 := return (← currentCode).block.registers

/-- A new frame that saves the current context. -/
def savedFrame (m : Machine) (tag : FrameTag) : Frame :=
  { base := m.context.base, code := m.context.code, pc := m.context.pc,
    targetClass := m.context.targetClass, tag }

/-- Saves the current context on top of the call chain. -/
def pushFrame (methodId : Symbol) (offset nargs : Int64) : Action FrameId := do
  let m ← get
  if 0 < m.config.maxFrames ∧ m.config.maxFrames.toInt ≤ m.depth then
    fatal (.stackOverflow m.depth)
  let f := m.frames.size
  if !(← charge frameBytes) then fatal .noMemoryForFrame
  modify fun m => { m with
    frames := m.frames.push
      { m.savedFrame .call with ownClass := m.context.targetClass, methodId, offset, nargs }
    chain := f :: m.chain
    depth := m.depth + 1 }
  return f

/-- Gives a frame's method and bytes back. -/
def freeFrame (f : FrameId) : Action Unit := do
  if let some method := ((← get).frameAt f).method then
    releaseMethod method
    modifyFrame f fun k => { k with method := none }
  modifyFrame f fun k => { k with freed := true }
  refund frameBytes

/-- Drops the given markers, which are the newest ones. -/
def dropMarkers : List FrameId → Action Unit
  | [] => pure ()
  | f :: rest => do
    modifyContext fun c => { c with markers := c.markers.tail }
    freeFrame f
    dropMarkers rest

/-- Discards the `n` newest markers. -/
def popMarkers (n : Int64) : Action Unit := do
  dropMarkers ((← get).context.markers.take n.toInt.toNat)

def dropAllMarkers : Action Unit := do dropMarkers (← get).context.markers

/-- Discards the newest markers that belong to a frame. -/
def dropFrameMarkers (f : FrameId) : Action Unit := do
  let m ← get
  dropMarkers (m.context.markers.takeWhile fun k => (m.frameAt k).depth == some f)

/-- Restores the context saved by the top frame and discards it, together with the
markers pushed while it was on top. -/
def popFrame : Action Unit := do
  match (← get).chain with
  | [] => fatal .popOfEmptyStack
  | f :: rest =>
    let frame := (← get).frameAt f
    if !frame.isMarker then dropFrameMarkers f
    modify fun m => { m with
      chain := rest
      context := { m.context with
        base := frame.base, code := frame.code, pc := frame.pc,
        targetClass := frame.targetClass } }
    freeFrame f
    if !frame.isMarker then
      modify fun m => { m with depth := m.depth - 1 }

/-- Pops frames until `target` is on top of a chain. -/
def popUntil (target : Option FrameId) : List FrameId → Action Unit
  | [] => if target = none then pure () else fatal .unwindTargetMissing
  | f :: rest =>
    if target = some f then pure ()
    else do
      popFrame
      popUntil target rest

def unwindTo (target : Option FrameId) : Action Unit := do popUntil target (← get).chain

/-- Pushes a marker that resumes at `pc` in the current context. -/
def pushMarker (tag : FrameTag) (pc : Int64) : Action Unit := do
  if !(← charge frameBytes) then fatal .noMemoryForMarker
  modify fun m =>
    let f := m.frames.size
    { m with
      frames := m.frames.push { m.savedFrame tag with pc, depth := m.chain.head? }
      context := { m.context with markers := f :: m.context.markers } }

/-- The first register of the window a frame entered; no frame and a freed one stand
for the top-level window. -/
def frameWindow (m : Machine) : Option FrameId → Int64
  | none => 0
  | some f => if (m.frameAt f).freed then 0 else (m.frameAt f).window

end ObjectMachine.Machine
