import ObjectMachine.Cbor.Reading
import ObjectMachine.ProfileStore

/-! Profile stores as bytes: a mark, then one item with the runs and the rows of call and
raise counts. -/

namespace ObjectMachine.ProfileStore

open Cbor

/-- The first line of a stored file. -/
def mark : Text := "SQLite format 3\x00\n"

def encodeRun (r : SavedRun) : Item :=
  .array [.bytes r.id, .bytes r.script, .unsigned r.calls, .unsigned r.raises,
    .unsigned r.savedAt]

def encodeCall (row : Text × CallCount) : Item :=
  .array [.bytes row.1, .bytes row.2.owner, .bytes row.2.method,
    .unsigned (if row.2.native then 1 else 0), .unsigned row.2.calls]

def encodeRaise (row : Text × Text × Nat) : Item :=
  .array [.bytes row.1, .bytes row.2.1, .unsigned row.2.2]

def encode (s : ProfileStore) : Text :=
  mark ++ package.write (.array [.array (s.runs.map encodeRun), .array (s.calls.map encodeCall),
    .array (s.raises.map encodeRaise)])

def decodeRun? : Item → Option SavedRun
  | .array [.bytes id, .bytes script, .unsigned calls, .unsigned raises, .unsigned savedAt] =>
    some ⟨id, script, calls, raises, savedAt⟩
  | _ => none

def decodeCall? : Item → Option (Text × CallCount)
  | .array [.bytes id, .bytes owner, .bytes method, .unsigned native, .unsigned calls] =>
    some (id, ⟨owner, method, native != 0, calls⟩)
  | _ => none

def decodeRaise? : Item → Option (Text × Text × Nat)
  | .array [.bytes id, .bytes name, .unsigned n] => some (id, name, n)
  | _ => none

def decode? (bytes : Text) : Option ProfileStore := do
  if !mark.isPrefixOf bytes then none
  match ← package.read? (bytes.drop mark.length) with
  | .array [.array runs, .array calls, .array raises] =>
    return { runs := ← runs.mapM decodeRun?
             calls := ← calls.mapM decodeCall?
             raises := ← raises.mapM decodeRaise? }
  | _ => none

end ObjectMachine.ProfileStore
