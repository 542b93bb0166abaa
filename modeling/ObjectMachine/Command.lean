import ObjectMachine.Assembly
import ObjectMachine.Calendar
import ObjectMachine.Code.Listing
import ObjectMachine.Command.ClassTree
import ObjectMachine.Command.Options
import ObjectMachine.Image
import ObjectMachine.Machine.Bootstrap
import ObjectMachine.Manifest
import ObjectMachine.ProfileStore.Files

/-! The command line: runs, lists or compiles a program, or lists saved profiles. What it
reads and writes goes through its surroundings; what it prints is its outcome. -/

namespace ObjectMachine.Command

/-- What a call of the command prints and its exit code. -/
structure Outcome where
  code : UInt8 := 0
  out : Text := []
  err : Text := []
  deriving DecidableEq

def failure (message : Text) : Outcome := { code := 1, err := "Error: " ++ message ++ "\n" }

def misuse (e : OptionError) : Outcome :=
  { code := if e = .help then 0 else 2, err := e.message ++ usage }

/-! ### Scripts -/

/-- Why a script could not be loaded. -/
inductive ScriptError
  | unreadableSource (path : Text) (fault : FileFault)
  | badSource (path : Text) (error : Assembly.SyntaxError)
  | unreadableImage (path : Text) (fault : FileFault)
  | badImage (error : Image.DecodeError)
  | unknownType (path : Text)

def ScriptError.message : ScriptError → Text
  | unreadableSource path fault => "reading " ++ path ++ ": " ++ fault.readMessage path
  | badSource path error => path ++ ": " ++ error.message
  | unreadableImage path fault => "image: read " ++ path ++ ": " ++ fault.readMessage path
  | badImage error => error.message
  | unknownType path => path ++ ": unknown file type (want .easm or .ebi)"

def imageExtension : Text := ".ebi"

def sourceExtension : Text := ".easm"

/-- The image path for a script. -/
def imagePath (path : Text) : Text := (Path.extension path).dropTail path ++ imageExtension

variable {m : Type → Type} [Monad m]

/-- Loads a script: an image or, with the source extension or none, assembly language. -/
def loadScript (h : Host m) (path : Text) : m (Except ScriptError Program) := do
  let ext := Path.extension path
  if ext = imageExtension then
    match ← h.readFile path with
    | .error fault => return .error (.unreadableImage path fault)
    | .ok bytes => return (Image.decode bytes).mapError .badImage
  else if ext = sourceExtension ∨ ext = [] then
    match ← h.readFile path with
    | .error fault => return .error (.unreadableSource path fault)
    | .ok source => return (Assembly.parse source).mapError (.badSource path)
  else return .error (.unknownType path)

/-! ### Running -/

/-- The exit code of a result: the low byte of an integer, zero for anything else. -/
def exitCode : Value → UInt8
  | .int n => n.toInt8.toUInt8
  | _ => 0

/-- The end of a run that a fault broke off. -/
def crash (mach : Machine) (fault : Fault) : Outcome :=
  { code := 2, out := mach.console.toList.flatten, err := "panic: " ++ fault.message ++ "\n" }

/-- What comes after a run that has a result or an unhandled exception: the class tree,
the counts and the release of all values. -/
def conclude (classes : Bool) (code : UInt8) (err : Text) (result : Value) (mach : Machine) :
    Outcome × Option Profile :=
  match (Machine.release result).run mach with
  | .error fault mach => (crash mach fault, none)
  | .ok _ mach =>
    let tree := if classes then classTree mach else []
    match Machine.close.run mach with
    | .error fault mach => (crash mach fault, mach.profile)
    | .ok _ closed => ({ code, err, out := closed.console.toList.flatten ++ tree }, mach.profile)

/-- Runs a program. The profile is there when it is to be saved. -/
def execute (c : Config) (ticks : Nat) (path : Text) (classes : Bool) (p : Program) :
    Outcome × Option Profile :=
  match Machine.create c with
  | .error fault => (failure fault.message, none)
  | .ok mach =>
    match (Machine.execute ticks p).run mach with
    | .error fault mach => (crash mach fault, none)
    | .ok (.ok result) mach => conclude classes (exitCode result) [] result mach
    | .ok (.error (.unhandled cls message)) mach =>
      let error := ExecuteError.unhandled cls message
      conclude classes 1 (path ++ ": " ++ error.message ++ "\n") .nil mach
    | .ok (.error error) mach =>
      ({ failure error.message with out := mach.console.toList.flatten }, none)

/-- Runs a program and saves its profile to a database when there is one. -/
def runScript (h : Host m) (c : Config) (ticks : Nat) (path : Text) (o : Options)
    (p : Program) : m Outcome := do
  let (outcome, profile) := execute c ticks path o.classes p
  match profile with
  | none => return outcome
  | some profile =>
    match ← ProfileStore.saveNamed h o.profile path profile with
    | .ok () => return outcome
    | .error fault =>
      let warning := "Warning: profile: " ++ fault.message ++ "\n"
      return { outcome with err := outcome.err ++ warning }

/-! ### Saved runs -/

/-- The text with blanks before it up to a width. -/
def padLeft (width : Nat) (t : Text) : Text := Text.spaces (width - t.length) ++ t

def padRight (width : Nat) (t : Text) : Text := t ++ Text.spaces (width - t.length)

def writeRow (id calls raises script : Text) : Text :=
  padRight 36 id ++ "  " ++ padLeft 10 calls ++ "  " ++ padLeft 6 raises ++ "  " ++ script

def writeRun (r : SavedRun) : Text :=
  writeRow r.id (Text.ofNat r.calls) (Text.ofNat r.raises) r.script
    ++ " " ++ Calendar.write r.savedAt ++ "\n"

def writeRuns (s : ProfileStore) : Text :=
  writeRow "RUN" "DISPATCHES" "RAISES" "SCRIPT" ++ "\n" ++ s.history.flatMap writeRun

def listRuns (h : Host m) (path : Text) : m Outcome := do
  if path.isEmpty then
    return { failure "-runs needs a profile database" with code := 2 }
  match ← ProfileStore.openNamed h path with
  | .ok s => return { out := writeRuns s }
  | .error fault => return failure ("profile: " ++ fault.message)

/-! ### The log -/

/-- The file the log goes to, empty for none: options win over the manifest, and at the
lowest level nothing is logged. -/
def logPath (o : Options) (manifest : Option Manifest) : Text :=
  let level := if o.verbosity = 0 then (manifest.map (·.verbosity)).getD 0 else o.verbosity
  if level ≤ -4 then []
  else if o.logFile.isEmpty then (manifest.map (·.logFile)).getD [] else o.logFile

/-- Makes the file the log goes to when it is not there. -/
def openLog (h : Host m) (path : Text) : m (Except FileFault Unit) := do
  if path.isEmpty then return .ok ()
  match ← h.readFile path with
  | .ok _ => return .ok ()
  | .error _ => h.writeFile path []

/-! ### The whole -/

def compile (h : Host m) (path : Text) (p : Program) : m Outcome := do
  match ← h.writeFile path (Image.encode p) with
  | .ok () => return {}
  | .error fault =>
    return failure ("image: write " ++ path ++ ": " ++ fault.writeMessage path)

/-- The machine to run on: options win over the manifest. -/
def configure (o : Options) (manifest : Option Manifest) : Config :=
  let c := (manifest.map Manifest.config).getD {}
  { c with
    poolSize := if 0 < o.poolSize then o.poolSize else c.poolSize
    debugMethods := o.debugMethods || c.debugMethods
    profile := !o.profile.isEmpty }

/-- The options with the profile database of the manifest when they have none. -/
def withManifest (o : Options) (manifest : Option Manifest) : Options :=
  if o.profile.isEmpty then
    { o with profile := (manifest.map Manifest.profilePath).getD [] }
  else o

/-- Does what the options ask for with a script. -/
def perform (h : Host m) (ticks : Nat) (o : Options) (c : Config) (path : Text) :
    m Outcome := do
  match ← loadScript h path with
  | .error e => return failure e.message
  | .ok p =>
    if o.listing then return { out := p.listing }
    else if o.compile then
      compile h (if o.output.isEmpty then imagePath path else o.output) p
    else runScript h c ticks path o p

/-- Does what the options and operands ask for. Without a script the entry of the
manifest is used. -/
def runWith (h : Host m) (ticks : Nat) (o : Options) (operands : List Text)
    (manifest : Option Manifest) : m Outcome := do
  let o := withManifest o manifest
  if o.runs then listRuns h o.profile
  else
    let operand := operands.head?.getD []
    let path := if operand.isEmpty then (manifest.map Manifest.entryPath).getD [] else operand
    if path.isEmpty then return { code := 2, err := usage }
    else perform h ticks o (configure o manifest) path

/-- Runs the command with its arguments, in the project of the nearest manifest. -/
def run (h : Host m) (ticks : Nat) (arguments : List Text) : m Outcome := do
  match parse {} arguments with
  | .error e => return misuse e
  | .ok (o, operands) =>
    match ← Manifest.find h "." with
    | .error e => return failure e.message
    | .ok manifest =>
      let log := logPath o manifest
      match ← openLog h log with
      | .ok () => runWith h ticks o operands manifest
      | .error fault =>
        return { code := 1, err := "log file error: " ++ fault.writeMessage log ++ "\n" }

end ObjectMachine.Command
