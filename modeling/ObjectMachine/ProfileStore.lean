import ObjectMachine.Machine.Profile

/-! Saved profiles. Each run is a row of totals with rows of call and raise counts.
Saving a run again replaces rows with the same key; rows of methods and classes that no
longer occur stay. -/

namespace ObjectMachine

structure SavedRun where
  id : Text
  script : Text
  calls : Nat
  raises : Nat
  /-- Seconds since the start of 1970. -/
  savedAt : Nat := 0
  deriving DecidableEq

structure ProfileStore where
  runs : List SavedRun := []
  /-- Call counts with the run they belong to. -/
  calls : List (Text × CallCount) := []
  /-- Raise counts by class name with the run they belong to. -/
  raises : List (Text × Text × Nat) := []

namespace ProfileStore

/-- A package that puts a row into a table: in the place of the row with its key, which
`isSame` tells, if there is one. -/
structure TablePackage where
  put : {α : Type} → (isSame : α → Bool) → α → List α → List α

/-- Replaces the row with the same key or adds one. -/
def upsert {α : Type} (isSame : α → Bool) (row : α) : List α → List α
  | [] => [row]
  | r :: rest => if isSame r then row :: rest else r :: upsert isSame row rest

/-- The package of the program. -/
def tables : TablePackage := ⟨upsert⟩

def saveCall (id : Text) (rows : List (Text × CallCount)) (c : CallCount) :
    List (Text × CallCount) :=
  tables.put (fun (run, d) => run == id && d.owner == c.owner && d.method == c.method) (id, c) rows

def saveRaise (id : Text) (rows : List (Text × Text × Nat)) (r : Text × Nat) :
    List (Text × Text × Nat) :=
  tables.put (fun (run, name, _) => run == id && name == r.1) (id, r) rows

/-- Saves a profile under the number of a run. -/
def save (s : ProfileStore) (id script : Text) (savedAt : Nat) (p : Profile) : ProfileStore :=
  { runs := tables.put (·.id == id) ⟨id, script, p.total, p.totalRaises, savedAt⟩ s.runs
    calls := p.report.foldl (saveCall id) s.calls
    raises := p.raises.foldl (saveRaise id) s.raises }

/-- More calls first, then by class and method. -/
def ranksBefore (c d : CallCount) : Bool :=
  d.calls < c.calls
    || (d.calls == c.calls
      && (c.owner.precedes d.owner || (c.owner == d.owner && c.method.atMost d.method)))

/-- The call counts of a run, most called first; none for a run that was never saved. -/
def load? (s : ProfileStore) (id : Text) : Option (List CallCount) :=
  if s.runs.any (·.id == id) then
    some ((s.calls.filterMap fun (run, c) => if run == id then some c else none).mergeSort
      ranksBefore)
  else none

/-- The raise counts of a run by class name. -/
def raisesOf (s : ProfileStore) (id : Text) : List (Text × Nat) :=
  s.raises.filterMap fun (run, r) => if run == id then some r else none

/-- The runs saved, newest first, then by number. -/
def history (s : ProfileStore) : List SavedRun :=
  s.runs.mergeSort fun r q =>
    q.savedAt < r.savedAt || (r.savedAt == q.savedAt && r.id.atMost q.id)

end ProfileStore

end ObjectMachine
