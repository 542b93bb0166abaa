import ObjectMachine.Host
import ObjectMachine.Path
import ObjectMachine.ProfileStore.Saved
import ObjectMachine.Text.Decimal

/-! Surroundings in memory: a tree of files, a working directory in it and a count of
run numbers. Paths are followed name by name, so two dots after a missing directory
lead nowhere. -/

namespace ObjectMachine

/-- What a place in a tree holds. -/
inductive FileEntry
  | directory
  | file (content : Text)
  /-- A file that a profile store was written to. -/
  | store (s : ProfileStore)
  /-- A device that forgets what is written to it. -/
  | sink

/-- The bytes of a file; none for a directory. -/
def FileEntry.content? : FileEntry → Option Text
  | directory => none
  | file content => some content
  | store s => some s.encode
  | sink => some []

/-- What a file is for the profile store; none for a directory. -/
def FileEntry.storeFile? : FileEntry → Option StoreFile
  | directory => none
  | file content => some (.ofBytes content)
  | store s => some (.store s)
  | sink => some .sink

structure FileTree where
  /-- Places by the names that lead to them; no names lead to the root. -/
  entries : List (List Text × FileEntry) := [([], .directory)]
  workingDirectory : Text := "/"
  /-- How many run numbers were given. -/
  runs : Nat := 0
  /-- Seconds since the start of 1970. -/
  clock : Nat := 0

namespace FileTree

def entry? (t : FileTree) (place : List Text) : Option FileEntry := t.entries.lookup place

/-- The most bytes of a name. -/
def maxName : Nat := 255

/-- The most bytes of a path. -/
def maxPath : Nat := 4095

/-- The place that names lead to from a directory. It may be empty itself. -/
def walk (t : FileTree) : (place : List Text) → List Text → Except FileFault (List Text)
  | place, [] => .ok place
  | place, name :: rest =>
    match t.entry? place with
    | none => .error .missing
    | some .directory =>
      if name = [] ∨ name = Text.ofString "." then t.walk place rest
      else if name = Text.ofString ".." then t.walk place.dropLast rest
      else if maxName < name.length then .error .nameTooLong
      else t.walk (place ++ [name]) rest
    | some _ => .error .notDirectory

/-- The names of a path, seen from the working directory. -/
def pathNames (t : FileTree) (path : Text) : Except FileFault (List Text) :=
  if path.contains 0 then .error .invalidPath
  else if path.isEmpty then .error .missing
  else if maxPath < path.length then .error .nameTooLong
  else
    let whole := if Path.isAbsolute path then path
      else t.workingDirectory ++ [Path.slash] ++ path
    .ok (Text.splitOn Path.slash whole)

/-- The place a path leads to. -/
def locate (t : FileTree) (path : Text) : Except FileFault (List Text) := do
  t.walk [] (← t.pathNames path)

/-- The place of a file to be written. A path that ends with a slash after a name always
means a directory, which has to have a place to be in. -/
def locateNew (t : FileTree) (path : Text) : Except FileFault (List Text) := do
  let names ← t.pathNames path
  if names.getLast? == some [] then
    let named := (names.reverse.dropWhile (·.isEmpty)).reverse
    match t.entry? (← t.walk [] named.dropLast) with
    | none => throw .missing
    | some .directory => throw .isDirectory
    | some _ => throw .notDirectory
  else t.walk [] names

/-- The entry at a path. -/
def find (t : FileTree) (path : Text) : Except FileFault FileEntry := do
  match t.entry? (← t.locate path) with
  | some e => return e
  | none => throw .missing

def read (t : FileTree) (path : Text) : Except FileFault Text := do
  match (← t.find path).content? with
  | some content => return content
  | none => throw .isDirectory

def readStore (t : FileTree) (path : Text) : Except FileFault StoreFile := do
  match (← t.find path).storeFile? with
  | some content => return content
  | none => throw .isDirectory

/-- Puts an entry in a place, instead of the one there. -/
def put (t : FileTree) (place : List Text) (e : FileEntry) : FileTree :=
  { t with entries := (place, e) :: t.entries.filter (·.1 != place) }

/-- Writes a file; a device that forgets stays as it is. -/
def write (t : FileTree) (path : Text) (e : FileEntry) : Except FileFault FileTree := do
  let place ← t.locateNew path
  match t.entry? place with
  | some .directory => throw .isDirectory
  | some .sink => return t
  | _ => return t.put place e

/-- Makes the directories on the way along `names`; places that hold something stay. -/
def makeDirectories (t : FileTree) (place : List Text) : List Text → FileTree
  | [] => t
  | name :: rest =>
    let next := place ++ [name]
    let t := if (t.entry? next).isSome then t else t.put next .directory
    t.makeDirectories next rest

/-- The names of a clean absolute path. -/
def names (path : Text) : List Text :=
  (Text.splitOn Path.slash (Path.clean path)).filter (!·.isEmpty)

/-- The tree with a directory and all directories above it. -/
def withDirectory (t : FileTree) (path : Text) : FileTree := t.makeDirectories [] (names path)

/-- The tree with an entry and all directories above it. -/
def withEntry (t : FileTree) (path : Text) (e : FileEntry) : FileTree :=
  (t.withDirectory (Path.parent path)).put (names path) e

/-- A run number in its usual form, eight, four, four, four and twelve digits. -/
def runNumber (n : Nat) : Text := "00000000-0000-4000-8000-" ++ Text.hexDigits 12 n

/-- Changes the tree where that is possible. -/
def attempt (change : FileTree → Except FileFault FileTree) :
    StateM FileTree (Except FileFault Unit) := do
  match change (← get) with
  | .ok t =>
    set t
    return .ok ()
  | .error fault => return .error fault

/-- A tree as surroundings. -/
def host : Host (StateM FileTree) where
  currentDirectory := return (← get).workingDirectory
  probe path := return ((← get).find path).map fun _ => ()
  readFile path := return (← get).read path
  writeFile path content := attempt (·.write path (.file content))
  readStore path := return (← get).readStore path
  writeStore path s := attempt (·.write path (.store s))
  newRun := do
    let n := (← get).runs
    modify fun t => { t with runs := n + 1 }
    return runNumber n
  now := return (← get).clock

end FileTree

end ObjectMachine
