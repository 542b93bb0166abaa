import ObjectMachine.Command
import ObjectMachine.ProfileStore.Saved

/-! The program: the command line on the files of the system it runs on. -/

namespace ObjectMachine.Main

def toText (s : String) : Text := Text.ofString s

/-- A text as a string; bytes outside any character are dropped. -/
def toString (t : Text) : String := String.ofList (t.pieces.filterMap (·.char?))

def faultOf : IO.Error → FileFault
  | .noFileOrDirectory .. => .missing
  | .inappropriateType .. => .isDirectory
  | .noSuchThing .. => .missing
  | _ => .denied

def guarded {α : Type} (action : IO α) : IO (Except FileFault α) := do
  match ← action.toBaseIO with
  | .ok a => return .ok a
  | .error e => return .error (faultOf e)

/-- Reads a file of the system. -/
def readFile (path : Text) : IO (Except FileFault Text) := do
  let here ← IO.currentDir
  if ← (here / toString path).isDir then return .error .isDirectory
  return (← guarded (IO.FS.readBinFile (toString path))).map (·.data.toList)

def writeFile (path content : Text) : IO (Except FileFault Unit) := do
  let here ← IO.currentDir
  if ← (here / toString path).isDir then return .error .isDirectory
  guarded (IO.FS.writeBinFile (toString path) ⟨content.toArray⟩)

/-- Reads a file of the system for the profile store. -/
def readStore (path : Text) : IO (Except FileFault StoreFile) := do
  return (← readFile path).map fun bytes =>
    ((ProfileStore.decode? bytes).map .store).getD (.ofBytes bytes)

/-- A random run number. -/
def newRun : IO Text := do
  let bytes := ((← IO.getRandomBytes 16).data.toList).zipIdx.map fun (b, i) =>
    if i = 6 then b % 16 + 64 else if i = 8 then b % 64 + 128 else b
  let digits := Text.toHex bytes
  let part := fun (first count : Nat) => (digits.drop first).take count
  return Text.join "-" [part 0 8, part 8 4, part 12 4, part 16 4, part 20 12]

/-- The time, taken from a file made just now. -/
def now : IO Nat := do
  let (_, path) ← IO.FS.createTempFile
  let made := (← path.metadata).modified.sec
  IO.FS.removeFile path
  return made.toNat

def host : Host IO where
  currentDirectory := return toText (← IO.currentDir).toString
  probe path := do
    let here ← IO.currentDir
    return if ← (here / toString path).pathExists then .ok () else .error .missing
  readFile := readFile
  writeFile := writeFile
  readStore := readStore
  writeStore path s := writeFile path s.encode
  newRun := newRun
  now := now

/-- More instructions than any run executes. -/
def ticks : Nat := 1000000000000000000

end ObjectMachine.Main

def main (arguments : List String) : IO UInt32 := do
  let outcome ← ObjectMachine.Command.run ObjectMachine.Main.host ObjectMachine.Main.ticks
    (arguments.map ObjectMachine.Main.toText)
  (← IO.getStdout).write ⟨outcome.out.toArray⟩
  (← IO.getStderr).write ⟨outcome.err.toArray⟩
  return outcome.code.toUInt32
