import ObjectMachine.Machine.Pool
import ObjectMachine.Machine.Value

/-! Tables of instance variables. Entries are kept in ascending order of their symbols.
A table grows by four entries at a time, and its capacity is charged to the pool; the
values are stored as given, counting references is up to the caller. -/

namespace ObjectMachine

structure VariableTable where
  entries : List (Symbol × Value) := []
  capacity : Nat := 0
  deriving DecidableEq

namespace VariableTable

/-- How many entries a table grows by. -/
def growth : Nat := 4

def get? (t : VariableTable) (s : Symbol) : Option Value := t.entries.lookup s

/-- Inserts an entry in order, replacing the one of the same symbol. -/
def insertEntry (s : Symbol) (v : Value) : List (Symbol × Value) → List (Symbol × Value)
  | [] => [(s, v)]
  | (k, w) :: rest =>
    if s < k then (s, v) :: (k, w) :: rest
    else if s = k then (s, v) :: rest
    else (k, w) :: insertEntry s v rest

/-- The bytes charged for a capacity. -/
def bytes (capacity : Nat) : Int64 := Int64.ofNat capacity * variableBytes

/-- Stores a value: the table and pool after it, and the value it replaces. Fails when
the table has to grow and the pool refuses. -/
def set? (t : VariableTable) (p : Pool) (s : Symbol) (v : Value) :
    Option (VariableTable × Pool × Option Value) :=
  match t.get? s with
  | some old => some ({ t with entries := insertEntry s v t.entries }, p, some old)
  | none =>
    if t.entries.length = t.capacity then
      (p.alloc? (bytes growth)).map fun p =>
        ({ entries := insertEntry s v t.entries, capacity := t.capacity + growth }, p, none)
    else some ({ t with entries := insertEntry s v t.entries }, p, none)

/-- The capacity a copy of `n` entries gets. -/
def copyCapacity (n : Nat) : Nat := (n + growth - 1) / growth * growth

/-- A copy of the table with its own charge. -/
def copy? (t : VariableTable) (p : Pool) : Option (VariableTable × Pool) :=
  if t.entries.isEmpty then some ({}, p)
  else
    let capacity := copyCapacity t.entries.length
    (p.alloc? (bytes capacity)).map fun p => ({ entries := t.entries, capacity }, p)

def keys (t : VariableTable) : List Symbol := t.entries.map (·.1)

def values (t : VariableTable) : List Value := t.entries.map (·.2)

end VariableTable

end ObjectMachine
