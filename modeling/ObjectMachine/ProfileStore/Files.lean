import ObjectMachine.Path
import ObjectMachine.ProfileStore.Session

/-! Profile stores in files. A store is made in an empty file, or in a new one where its
location allows that. Paths are followed by their parts alone: two dots take back the
part before them even when nothing is there. -/

namespace ObjectMachine

/-- What is done with a profile store, in order. -/
inductive StoreStep
  | settingTimeout
  | creatingTables
  | startingTransaction
  | savingRun
  deriving DecidableEq

def StoreStep.name : StoreStep → Text
  | settingTimeout => "setting busy timeout"
  | creatingTables => "creating tables"
  | startingTransaction => "starting transaction"
  | savingRun => "saving run"

/-- Why a file could not be used as a profile store. -/
inductive StoreFault
  | badName (fault : ProfileStore.NameFault)
  | cannotOpen
  /-- The rights or the first bytes of a file cannot be read. -/
  | cannotRead
  | failed (step : StoreStep) (fault : ProfileStore.AccessFault)
  deriving DecidableEq

def StoreFault.message : StoreFault → Text
  | badName fault => StoreStep.settingTimeout.name ++ ": " ++ fault.message
  | cannotOpen =>
    StoreStep.settingTimeout.name ++ ": unable to open database file: out of memory (14)"
  | cannotRead => StoreStep.settingTimeout.name ++ ": disk I/O error: out of memory (10)"
  | failed step fault => step.name ++ ": " ++ fault.message

namespace ProfileStore

variable {m : Type → Type} [Monad m]

/-- The longest path of a store. -/
def maxPath : Nat := 504

/-- The longest name of a file. -/
def maxName : Nat := 255

/-- The last part of a path with the ending of the file changes are noted in. -/
def journalName (path : Text) : Text :=
  (path.reverse.takeWhile (· != Path.slash)).reverse ++ "-journal"

/-- Follows parts from a place. Nothing may be below a file. -/
def follow (h : Host m) : (place : Text) → List Text → m (Option Text)
  | place, [] => return if place.isEmpty || maxPath < place.length then none else some place
  | place, part :: rest => do
    if part.isEmpty || part = Text.ofString "." then follow h place rest
    else if part = Text.ofString ".." then
      follow h (((place.reverse.dropWhile (· != Path.slash)).drop 1).reverse) rest
    else
      let next := place ++ [Path.slash] ++ part
      if maxPath + 8 ≤ next.length then return none
      match ← h.probe next with
      | .ok () | .error .missing => follow h next rest
      | .error _ => return none

/-- The place of a store in a file. -/
def resolve (h : Host m) (path : Text) : m (Option Text) := do
  let directory ← h.currentDirectory
  let whole := if Path.isAbsolute path then path else directory ++ [Path.slash] ++ path
  follow h [] (Text.splitOn Path.slash whole)

/-- The content of the file at a place, which is made when it may be. A directory can be
opened as long as nothing is to be written. -/
def openAt (h : Host m) (l : Location) (place : Text) : m (Except StoreFault StoreFile) := do
  if let some path := l.rightsOf? then
    if let .error _ ← h.probe path then return .error .cannotRead
  match ← h.readStore place with
  | .ok content => return .ok content
  | .error .missing =>
    if !l.mayCreate then return .error .cannotOpen
    match ← h.writeFile place [] with
    | .ok () => return .ok .blank
    | .error _ => return .error .cannotOpen
  | .error .isDirectory => return .error (if l.mode = .readOnly then .cannotRead else .cannotOpen)
  | .error _ => return .error .cannotOpen

/-- What a location leads to before any pragma, with its place in a file. -/
def openLocation (h : Host m) (l : Location) :
    m (Except StoreFault (Option Text × Session)) := do
  match l.path? with
  | none => return .ok (none, { location := l, content := .blank })
  | some path =>
    match ← resolve h path with
    | none => return .error .cannotOpen
    | some place =>
      return (← openAt h l place).map fun content => (some place, {
        location := l, content, hasJournalName := (journalName place).length ≤ maxName })

/-- The session and the store that a session becomes by its pragmas. -/
def start (h : Host m) (s : Session) : m (Except StoreFault (Session × ProfileStore)) := do
  match ← (s.prepare h).run with
  | .error fault => return .error (.failed .settingTimeout fault)
  | .ok s =>
    match s.location.complaint?, s.openTables with
    | some fault, _ => return .error (.badName fault)
    | none, .error fault => return .error (.failed .creatingTables fault)
    | none, .ok p => return .ok (s, p)

/-- The store that a name leads to, with its session and its place in a file. A new store
is written at once. -/
def find (h : Host m) (name : Text) :
    m (Except StoreFault (Option Text × Session × ProfileStore)) := do
  match Location.ofName name with
  | .error fault => return .error (.badName fault)
  | .ok l =>
    match ← openLocation h l with
    | .error fault => return .error fault
    | .ok (place?, s) =>
      match ← start h s with
      | .error fault => return .error fault
      | .ok (s, p) =>
        if let some place := place? then
          if !s.hasTables then
            if let .error _ ← h.writeStore place p then return .error .cannotOpen
        return .ok (place?, s, p)

/-- Opens the store that a name leads to. -/
def openNamed (h : Host m) (name : Text) : m (Except StoreFault ProfileStore) := do
  return (← find h name).map (·.2.2)

/-- Saves a profile to the store that a name leads to. -/
def saveNamed (h : Host m) (name script : Text) (p : Profile) : m (Except StoreFault Unit) := do
  match ← find h name with
  | .error fault => return .error fault
  | .ok (place?, s, saved) =>
    match s.lock, s.writeFault? 0 with
    | .error fault, _ => return .error (.failed .startingTransaction fault)
    | .ok (), some fault => return .error (.failed .savingRun fault)
    | .ok (), none =>
      let saved := saved.save (← h.newRun) script (← h.now) p
      match place? with
      | none => return .ok ()
      | some place =>
        match ← h.writeStore place saved with
        | .ok () => return .ok ()
        | .error _ => return .error .cannotOpen

end ProfileStore

end ObjectMachine
