import ObjectMachine.Text

/-! Paths with slashes between their parts. All functions here work on the text of a path
alone; none looks at a file. -/

namespace ObjectMachine.Path

def slash : UInt8 := Text.byte '/'

def isAbsolute (path : Text) : Bool := path.head? == some slash

/-- Adds a part to a list of parts, last one first. Two dots take back the part before
them; at the start of a relative path they stay, at the root they vanish. -/
def push (absolute : Bool) (parts : List Text) (part : Text) : List Text :=
  if part = [] ∨ part = Text.ofString "." then parts
  else if part = Text.ofString ".." then
    match parts with
    | [] => if absolute then [] else [part]
    | last :: before => if last = part then part :: parts else before
  else part :: parts

/-- The shortest path with the same meaning, a dot for no parts at all. -/
def clean (path : Text) : Text :=
  let absolute := isAbsolute path
  let parts := ((Text.splitOn slash path).foldl (push absolute) []).reverse
  let body := Text.join [slash] parts
  if absolute then slash :: body
  else if body.isEmpty then "." else body

/-- The parts one after another, cleaned; empty parts are left out. -/
def join (parts : List Text) : Text :=
  let parts := parts.filter (!·.isEmpty)
  if parts.isEmpty then [] else clean (Text.join [slash] parts)

/-- The path seen from a directory. -/
def absolute (directory path : Text) : Text :=
  if isAbsolute path then clean path else join [directory, path]

/-- The directory of a path: all but the last part. -/
def parent (path : Text) : Text :=
  clean ((path.reverse.dropWhile (· != slash)).reverse)

/-- The last part from its last dot on, empty without one. -/
def extension (path : Text) : Text :=
  let name := (path.reverse.takeWhile (· != slash)).reverse
  if name.contains (Text.byte '.') then
    Text.byte '.' :: (name.reverse.takeWhile (· != Text.byte '.')).reverse
  else []

end ObjectMachine.Path
