import ObjectMachine.Machine.State

/-! Reference counts. Every place that holds an owning value owns one reference to its
object. An object is freed at once when its last reference goes, and then gives back
what it holds: first its variables one by one, then their table, then its own bytes. -/

namespace ObjectMachine

namespace Body

/-- The values an object holds references to. -/
def held : Body → List Value
  | object _ table => table.values
  | _ => []

/-- The capacity of an object's table of variables. -/
def capacity : Body → Nat
  | object _ table => table.capacity
  | _ => 0

/-- What is left of an object that was freed. -/
def emptied : Body → Body
  | object cls _ => object cls {}
  | string _ => string []
  | proc code frame selfFrame => proc code frame selfFrame

end Body

namespace Memory

/-- What releasing values still has to do. -/
inductive Chore
  | drop (v : Value)
  /-- Give back the table of variables of a freed object. -/
  | refundTable (r : Ref)
  /-- Give back the bytes of a freed object. -/
  | refundObject (r : Ref)

/-- The chores left over by an object that loses its last reference. -/
def farewell (r : Ref) (o : HeapObject) : List Chore :=
  o.body.held.map .drop ++ [.refundTable r, .refundObject r]

/-- The chores an object may still cause. -/
def burden (o : HeapObject) : Nat := if o.refCount = 0 then 0 else o.body.held.length + 2

/-- The weights of the members of a list together. -/
def weigh {α : Type} (f : α → Nat) : List α → Nat
  | [] => 0
  | a :: l => f a + weigh f l

theorem weigh_set {α : Type} (f : α → Nat) (l : List α) (i : Nat) (h : i < l.length)
    (x : α) : weigh f (l.set i x) + f l[i] = weigh f l + f x := by
  induction l generalizing i with
  | nil => simp at h
  | cons a l ih =>
    cases i with
    | zero => simp only [List.set_cons_zero, weigh, List.getElem_cons_zero]; omega
    | succ i =>
      have := ih i (by simpa using h)
      simp only [List.set_cons_succ, weigh, List.getElem_cons_succ]
      omega

/-- The object with one reference less. -/
def dropped (o : HeapObject) : HeapObject := { o with refCount := o.refCount - 1 }

/-- The object without what it held. -/
def emptied (o : HeapObject) : HeapObject := { o with body := o.body.emptied }

theorem burden_dropped_of_eq_one {o : HeapObject} (h : o.refCount = 1) :
    burden (dropped o) + o.body.held.length + 2 = burden o := by
  simp [burden, dropped, h]

theorem burden_dropped_of_ne_one {o : HeapObject} (h : ¬o.refCount = 0) (h' : ¬o.refCount = 1) :
    burden (dropped o) = burden o := by
  have : ¬o.refCount - 1 = 0 := by omega
  simp [burden, dropped, h, this]

theorem burden_emptied_le (o : HeapObject) : burden (emptied o) ≤ burden o := by
  unfold burden emptied
  split
  · simp
  · cases o.body <;> simp [Body.emptied, Body.held, VariableTable.values]

/-- All chores that the objects of a heap may still cause. -/
def totalBurden (heap : Array HeapObject) : Nat := weigh burden heap.toList

theorem totalBurden_set (heap : Array HeapObject) (r : Nat) (h : r < heap.size)
    (o : HeapObject) :
    totalBurden (heap.set r o) + burden heap[r] = totalBurden heap + burden o := by
  have := weigh_set burden heap.toList r (by simpa using h) o
  simpa [totalBurden] using this

theorem length_farewell (r : Ref) (o : HeapObject) :
    (farewell r o).length = o.body.held.length + 2 := by
  simp [farewell]

/-- Works chores off in order; a fault leaves the rest undone. -/
def settle (m : Memory) : List Chore → Memory × Option Fault
  | [] => (m, none)
  | .drop v :: rest =>
    match v.ref? with
    | none => m.settle rest
    | some r =>
      if h : r < m.heap.size then
        let o := m.heap[r]
        if o.refCount = 0 then (m, some (.fatal (.releaseOfReleased v.kind (r + 1))))
        else
          let m' := { m with heap := m.heap.set r (dropped o) }
          if o.refCount = 1 then m'.settle (farewell r o ++ rest) else m'.settle rest
      else (m, some .outOfBounds)
  | .refundTable r :: rest =>
    match m.heap[r]? with
    | none => (m, some .outOfBounds)
    | some o =>
      if o.body.capacity = 0 then m.settle rest
      else
        let pool := m.pool.refund (VariableTable.bytes o.body.capacity)
        let m' := { m with pool }
        if pool.isOverdrawn then (m', some .overdrawn) else m'.settle rest
  | .refundObject r :: rest =>
    if h : r < m.heap.size then
      let o := m.heap[r]
      let pool := m.pool.refund o.size
      let m' := { m with pool, heap := m.heap.set r (emptied o) }
      if pool.isOverdrawn then (m', some .overdrawn)
      else { m' with live := m'.live - 1 }.settle rest
    else (m, some .outOfBounds)
termination_by chores => chores.length + totalBurden m.heap
decreasing_by
  · simp
  · have hb := totalBurden_set m.heap r h (dropped m.heap[r])
    have hd := burden_dropped_of_eq_one (o := m.heap[r]) (by assumption)
    simp only [List.length_append, length_farewell, List.length_cons]
    omega
  · have hb := totalBurden_set m.heap r h (dropped m.heap[r])
    have hd := burden_dropped_of_ne_one (o := m.heap[r]) (by assumption) (by assumption)
    simp only [List.length_cons]
    omega
  · simp
  · simp
  · have hb := totalBurden_set m.heap r h (emptied m.heap[r])
    have hd := burden_emptied_le m.heap[r]
    simp only [List.length_cons]
    omega

def acquire (m : Memory) (v : Value) : Memory × Option Fault :=
  match v.ref? with
  | none => (m, none)
  | some r =>
    if h : r < m.heap.size then
      let o := m.heap[r]
      if o.refCount = 0 then (m, some (.fatal (.acquireOfReleased v.kind (r + 1))))
      else ({ m with heap := m.heap.set r { o with refCount := o.refCount + 1 } }, none)
    else (m, some .outOfBounds)

def release (m : Memory) (v : Value) : Memory × Option Fault := m.settle [.drop v]

/-- A new object with one reference, when the pool grants its bytes. -/
def allocate? (m : Memory) (size : Int64) (body : Body) : Option (Memory × Ref) :=
  (m.pool.alloc? size).map fun pool =>
    ({ pool, heap := m.heap.push { refCount := 1, size, body }, live := m.live + 1 },
     m.heap.size)

def object? (m : Memory) (v : Value) : Option HeapObject := v.ref?.bind (m.heap[·]?)

/-- The number of references to the object of a value, -1 for an immediate one. -/
def refCount (m : Memory) (v : Value) : Int :=
  match m.object? v with
  | some o => o.refCount
  | none => -1

/-- Whether the object of a value has been freed. -/
def isFreed (m : Memory) (v : Value) : Bool := m.refCount v == 0

/-- The bytes of a string value, nothing for others. -/
def bytesOf (m : Memory) (v : Value) : Text :=
  match v, m.object? v with
  | .string _, some { body := .string bytes, .. } => bytes
  | _, _ => []

end Memory

namespace Machine

/-- Applies a change of memory. -/
def onMemory (change : Memory → Memory × Option Fault) : Action Unit := do
  let fault ← modifyGet fun m =>
    let (memory, fault) := change m.memory
    (fault, { m with memory })
  match fault with
  | some fault => throw fault
  | none => pure ()

def acquire (v : Value) : Action Unit :=
  match v.ref? with
  | none => pure ()
  | some _ => onMemory (·.acquire v)

def release (v : Value) : Action Unit :=
  match v.ref? with
  | none => pure ()
  | some _ => onMemory (·.release v)

/-- Takes `n` bytes back. -/
def refund (n : Int64) : Action Unit :=
  onMemory fun m =>
    let pool := m.pool.refund n
    ({ m with pool }, if pool.isOverdrawn then some .overdrawn else none)

/-- Grants `n` bytes; the answer is whether the pool could. -/
def charge (n : Int64) : Action Bool :=
  modifyGet fun m =>
    match m.memory.pool.alloc? n with
    | some pool => (true, { m with memory := { m.memory with pool } })
    | none => (false, m)

/-- A new heap object, when the pool grants its bytes. -/
def allocate? (size : Int64) (body : Body) : Action (Option Ref) :=
  modifyGet fun m =>
    match m.memory.allocate? size body with
    | some (memory, r) => (some r, { m with memory })
    | none => (none, m)

/-- Stops when the object of a value has been freed. -/
def mustBeLive (v : Value) : Action Unit := do
  if (← get).memory.isFreed v then fatal (.useOfReleased v.kind v.serial)

/-- Interns a name. -/
def intern (name : Text) : Action Symbol :=
  modifyGet fun m =>
    let (symbols, id) := m.symbols.intern name
    (id, { m with symbols })

def nameOf (s : Symbol) : Action Text := return (← get).symbols.name s

/-- Writes to the console. -/
def write (t : Text) : Action Unit := modify fun m => { m with console := m.console.push t }

end Machine

end ObjectMachine
