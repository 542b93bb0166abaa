import ObjectMachine.ProfileStore

/-! What the program asks of its surroundings: files, stores of profiles in files, the
working directory, fresh run numbers and the time. -/

namespace ObjectMachine

/-- Why a file could not be read or written. -/
inductive FileFault
  | missing
  /-- A file stands where the path needs a directory. -/
  | notDirectory
  | isDirectory
  | nameTooLong
  /-- No path may hold a zero byte. -/
  | invalidPath
  | denied
  deriving DecidableEq

namespace FileFault

def reason : FileFault → Text
  | missing => "no such file or directory"
  | notDirectory => "not a directory"
  | isDirectory => "is a directory"
  | nameTooLong => "file name too long"
  | invalidPath => "invalid argument"
  | denied => "permission denied"

/-- A directory is noticed only when its bytes are asked for. -/
def readMessage (f : FileFault) (path : Text) : Text :=
  let verb : Text := if f = isDirectory then "read " else "open "
  verb ++ path ++ ": " ++ f.reason

def writeMessage (f : FileFault) (path : Text) : Text := "open " ++ path ++ ": " ++ f.reason

end FileFault

/-- What is found in a file that should hold a profile store. -/
inductive StoreFile
  | store (s : ProfileStore)
  /-- Nothing so far. -/
  | blank
  /-- Something else. -/
  | foreign
  /-- A device that forgets what is written to it. -/
  | sink

/-- A file that no store was written to. A single byte counts as nothing. -/
def StoreFile.ofBytes (bytes : Text) : StoreFile := if bytes.length ≤ 1 then blank else foreign

/-- The surroundings as effects of a monad. -/
structure Host (m : Type → Type) where
  currentDirectory : m Text
  /-- Looks for anything at a path. -/
  probe : Text → m (Except FileFault Unit)
  readFile : Text → m (Except FileFault Text)
  /-- Makes a file or replaces its content. -/
  writeFile : (path content : Text) → m (Except FileFault Unit)
  readStore : Text → m (Except FileFault StoreFile)
  /-- Makes a file with a store or replaces its content. -/
  writeStore : (path : Text) → ProfileStore → m (Except FileFault Unit)
  /-- A run number that was never given before. -/
  newRun : m Text
  /-- Seconds since the start of 1970. -/
  now : m Nat

end ObjectMachine
