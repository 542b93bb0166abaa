import ObjectMachine.Host
import ObjectMachine.ProfileStore.Location
import ObjectMachine.ProfileStore.Pragma

/-! Open profile stores. A session knows what its file holds and what may be done with
it; pragmas change that. The tables of a new store are made when it is first opened. -/

namespace ObjectMachine.ProfileStore

/-- Why an open store cannot be read or written. -/
inductive AccessFault
  | notDatabase
  | readOnly
  /-- The name leaves no room for that of the file changes are noted in first. -/
  | noJournal
  | full
  /-- The device forgets what was written. -/
  | notKept
  | refused (fault : StatementFault)
  deriving DecidableEq

def AccessFault.message : AccessFault → Text
  | notDatabase => "file is not a database (26)"
  | readOnly => "attempt to write a readonly database (8)"
  | noJournal => "unable to open database file (14)"
  | full => "database or disk is full (13)"
  | notKept => "disk I/O error (1034)"
  | refused fault => "SQL logic error: " ++ fault.message ++ " (1)"

structure Session where
  /-- Where the store is. -/
  location : Location
  content : StoreFile
  /-- Whether there is a name for the file changes are noted in first. -/
  hasJournalName : Bool := true
  keepsJournal : Bool := true
  queryOnly : Bool := false
  /-- The most pages of a new store. -/
  pageLimit? : Option Nat := none
  tablesRead : Bool := false

namespace Session

/-- The tables of a store. -/
def tables : List Text := List.map Text.ofString ["runs", "dispatches", "raises"]

/-- The tables that are always there. -/
def systemTables : List Text := List.map Text.ofString [
  "sqlite_master", "sqlite_schema", "sqlite_temp_master", "sqlite_temp_schema"]

/-- The pages of a new store: the first one, and two for each table and its keys. -/
def newPages : Nat := 1 + 2 * tables.length

def hasTables (s : Session) : Bool := s.content matches .store _

/-- Whether there is a table of a name in any case. -/
def hasTable (s : Session) (database? : Option Database) (name : Text) : Bool :=
  let name := name.map Text.lowerByte
  systemTables.contains name
    || (database? != some .temp && s.hasTables && tables.contains name)

/-- Why pages cannot be written, if so. -/
def writeFault? (s : Session) (pages : Nat) : Option AccessFault :=
  if s.queryOnly || !s.location.mayWrite then some .readOnly
  else if s.content matches .foreign then some .notDatabase
  else if s.keepsJournal && !s.hasJournalName then some .noJournal
  else if !s.hasTables && s.pageLimit?.any (· < pages) then some .full
  else if s.content matches .sink then some .notKept
  else none

/-- Fails where pages cannot be written. -/
def write (s : Session) (pages : Nat) : Except AccessFault Session :=
  match s.writeFault? pages with
  | some fault => .error fault
  | none => .ok s

/-- Meets a demand of a pragma. -/
def meet (s : Session) : Demand → Except AccessFault Session
  | .queryOnly on => .ok { s with queryOnly := on }
  | .readHeader => if s.content matches .foreign then .error .notDatabase else .ok s
  | .readTables =>
    if s.content matches .foreign then .error .notDatabase
    else .ok { s with tablesRead := s.hasTables }
  | .write => s.write 1
  | .writeAside => if s.queryOnly then .error .readOnly else .ok s
  | .writeNew => if s.hasTables then .ok s else s.write 1
  | .writeOld => if s.hasTables then s.write newPages else .ok s
  | .journal kept => .ok { s with keepsJournal := kept }
  | .logAhead =>
    if !s.location.mayLogAhead then .ok s
    else if s.location.mode = .readOnly then .error .readOnly
    else if !s.hasJournalName then .error .noJournal
    else .ok s
  | .pageLimit pages => .ok { s with pageLimit? := some pages }
  | .encoding name =>
    if s.tablesRead then .ok s else .error (.refused (.unknownEncoding name))
  | .table database? name =>
    if s.hasTable database? name then .ok s
    else .error (.refused (.unknownTable (database?.toList.flatMap Database.lead ++ name)))
  | .path _ => .ok s

/-- The store of a session, a new one where there is none. -/
def openTables (s : Session) : Except AccessFault ProfileStore :=
  match s.content with
  | .store p => .ok p
  | .foreign => .error .notDatabase
  | .blank | .sink => (s.write newPages).map fun _ => {}

/-- Fails where the lock that was asked for cannot be taken. A file that may not be
written is no reason: it is left without a lock. -/
def lock (s : Session) : Except AccessFault Unit :=
  let word := s.location.lock
  let waits := [Text.ofString "immediate", Text.ofString "exclusive"].contains
    (word.map Text.lowerByte)
  if word.any (128 ≤ ·) then .error (.refused (.near word))
  else if waits && s.queryOnly then .error .readOnly
  else .ok ()

variable {m : Type → Type} [Monad m]

/-- Meets a demand with the surroundings at hand. -/
def meetWith (h : Host m) (s : Session) : Demand → ExceptT AccessFault m Session
  | .path path => do
    match ← h.probe path with
    | .ok () => return s
    | .error _ => throw (.refused .notDirectory)
  | d => ExceptT.mk (pure (s.meet d))

/-- Runs the statements of a pragma one after another. -/
def runPragma (h : Host m) (s : Session) (pragma : Text) : ExceptT AccessFault m Session :=
  (statements ("pragma " ++ pragma)).foldlM (fun s statement =>
    match demandsOf statement with
    | .ok demands => demands.foldlM (meetWith h) s
    | .error fault => throw (.refused fault)) s

/-- Runs the pragmas of a location. -/
def prepare (h : Host m) (s : Session) : ExceptT AccessFault m Session :=
  s.location.pragmas.foldlM (runPragma h) s

end Session

end ObjectMachine.ProfileStore
