import ObjectMachine.Host
import ObjectMachine.Machine.State
import ObjectMachine.Path
import ObjectMachine.Toml.Document

/-! Project manifests. A manifest is a configuration document with a fixed set of
sections and settings. Names match in any case, except that a call depth limit counts
only under its exact name. -/

namespace ObjectMachine

structure Manifest where
  name : Text := []
  entry : Text := []
  poolSize : Int64 := 0
  maxRegisters : Int64 := 0
  maxFrames : Int64 := 0
  debugMethods : Bool := false
  verbosity : Int64 := 0
  logFile : Text := []
  database : Text := []
  /-- The directory the manifest was found in. -/
  directory : Text := []
  deriving DecidableEq

namespace Manifest

open Toml

/-- The file looked for in a project directory. -/
def fileName : Text := "embery.toml"

/-- Why there is no manifest. -/
inductive Defect
  /-- The document is malformed, or a setting has a value of the wrong kind. -/
  | malformed
  | unknownKey (key : Toml.Path)
  | negativeFrames
  deriving DecidableEq

/-- A setting by the kind of its value. -/
inductive Setting
  | text (set : Manifest → Text → Manifest)
  | integer (set : Manifest → Int64 → Manifest)
  | bool (set : Manifest → Bool → Manifest)

/-- The sections and their settings. -/
def sections : List (Text × List (Text × Setting)) :=
  [("project", [
      ("name", .text fun m t => { m with name := t }),
      ("entry", .text fun m t => { m with entry := t })]),
    ("memory", [("pool_size", .integer fun m n => { m with poolSize := n })]),
    ("vm", [
      ("max_registers", .integer fun m n => { m with maxRegisters := n }),
      ("max_frames", .integer fun m n => { m with maxFrames := n }),
      ("debug_methods", .bool fun m b => { m with debugMethods := b })]),
    ("log", [
      ("verbosity", .integer fun m n => { m with verbosity := n }),
      ("file", .text fun m t => { m with logFile := t })]),
    ("profile", [("database", .text fun m t => { m with database := t })])]

/-- The lower-case form of a character among those whose case forms include an ASCII
letter: the letters themselves, the long s and the kelvin sign. -/
def foldChar (c : Char) : Char :=
  if c = Char.ofNat 0x17F then 's'
  else if c = Char.ofNat 0x212A then 'k'
  else c.toLower

/-- A name without regard to case. -/
def foldName (t : Text) : Text :=
  t.pieces.flatMap fun
    | .char c => Text.encodeChar (foldChar c)
    | .stray b => [b]

/-- The entry of a name, which may differ in case. -/
def match? {α : Type} (table : List (Text × α)) (name : Text) : Option α :=
  table.lookup (foldName name)

/-- Whether a path names a section or a setting. -/
def isSetting : Toml.Path → Bool
  | [s] => (match? sections s).isSome
  | [s, name] => ((match? sections s).bind (match? · name)).isSome
  | _ => false

def Setting.set? (s : Setting) (m : Manifest) (node : Node) : Option Manifest :=
  match s, node with
  | .text set, .value (.text t) => some (set m t)
  | .integer set, .value (.integer n) => some (set m n)
  | .bool set, .value (.bool b) => some (set m b)
  | _, _ => none

/-- Applies the settings of one section. Names without a setting are passed over. -/
def setSection? (settings : List (Text × Setting)) (m : Manifest) (entries : Entries) :
    Option Manifest :=
  entries.foldlM (fun m (name, node) =>
    match match? settings name with
    | some s => s.set? m node
    | none => some m) m

/-- Applies all sections. -/
def setAll? (m : Manifest) (entries : Entries) : Option Manifest :=
  entries.foldlM (fun m (name, node) =>
    match match? sections name, node with
    | some settings, .table entries => setSection? settings m entries
    | some _, _ => none
    | none, _ => some m) m

/-- The first key that is no setting. -/
def unknownKey? (d : Document) : Option Toml.Path :=
  d.keys.find? fun p => !(isSetting p && d.isDefined p)

/-- Fills in what a manifest leaves open. -/
def withDefaults (m : Manifest) (framesDefined : Bool) : Manifest :=
  let usual : Config := {}
  { m with
    poolSize := if m.poolSize ≤ 0 then usual.poolSize else m.poolSize
    maxRegisters := if m.maxRegisters ≤ 0 then usual.maxRegisters else m.maxRegisters
    maxFrames := if framesDefined then m.maxFrames else usual.maxFrames
    entry := if m.entry.isEmpty then "main.easm" else m.entry }

/-- Reads the manifest of a directory. -/
def parse (directory content : Text) : Except Defect Manifest := do
  let some document := Document.read? content | throw .malformed
  let some m := setAll? { directory } document.root | throw .malformed
  if let some key := unknownKey? document then throw (.unknownKey key)
  if m.maxFrames < 0 then throw .negativeFrames
  return m.withDefaults (document.isDefined ["vm", "max_frames"])

/-- The entry script as an absolute path. -/
def entryPath (m : Manifest) : Text :=
  if Path.isAbsolute m.entry then m.entry else Path.join [m.directory, m.entry]

/-- The profile database as an absolute path, empty when there is none. -/
def profilePath (m : Manifest) : Text :=
  if m.database.isEmpty || Path.isAbsolute m.database then m.database
  else Path.join [m.directory, m.database]

/-- The machine the manifest describes. -/
def config (m : Manifest) : Config :=
  { poolSize := m.poolSize
    maxRegisters := m.maxRegisters
    maxFrames := m.maxFrames
    debugMethods := m.debugMethods
    profile := !m.database.isEmpty }

/-! ### Finding -/

/-- Why a manifest file could not be used. -/
inductive LoadError
  | unreadable (path : Text) (fault : FileFault)
  | defective (path : Text) (defect : Defect)
  deriving DecidableEq

def LoadError.message : LoadError → Text
  | unreadable path fault => "cannot read " ++ path ++ ": " ++ fault.readMessage path
  | defective path .malformed => "parse error in " ++ path
  | defective path (.unknownKey key) => path ++ ": unknown key " ++ key.write
  | defective path .negativeFrames => path ++ ": max_frames must not be negative"

variable {m : Type → Type} [Monad m]

/-- Loads the manifest of a directory. -/
def load (h : Host m) (directory : Text) : m (Except LoadError Manifest) := do
  let path := Path.join [directory, fileName]
  match ← h.readFile path with
  | .error fault => return .error (.unreadable path fault)
  | .ok content =>
    let directory := Path.absolute (← h.currentDirectory) directory
    match parse directory content with
    | .error defect => return .error (.defective path defect)
    | .ok manifest => return .ok manifest

/-- Loads the manifest of a directory or of the nearest one above it. Going up from a
clean path ends at the root, after fewer steps than the path has bytes. -/
def loadNearest (h : Host m) : (steps : Nat) → (directory : Text) →
    m (Except LoadError (Option Manifest))
  | 0, _ => return .ok none
  | steps + 1, directory => do
    match ← h.probe (Path.join [directory, fileName]) with
    | .ok () => return (← load h directory).map some
    | .error _ =>
      let above := Path.parent directory
      if above = directory then return .ok none else loadNearest h steps above

/-- Finds the manifest for a directory. -/
def find (h : Host m) (directory : Text) : m (Except LoadError (Option Manifest)) := do
  let directory := Path.absolute (← h.currentDirectory) directory
  loadNearest h (directory.length + 1) directory

end Manifest

end ObjectMachine
