import ObjectMachine.ProfileStore.Setting
import ObjectMachine.Text.Quoted

/-! Names of profile stores. A name is a path, and what follows its first question mark
are options. A name that starts with `file:` is a locator: it may name a host, stand for
bytes by percent signs and two digits, end in a fragment, and choose by options how the
file is opened. -/

namespace ObjectMachine.ProfileStore

/-- Why a name leads to no store. -/
inductive NameFault
  /-- A percent sign in the options without two digits after it. -/
  | badEscape (found : Text)
  | semicolon
  /-- Two file systems at once. -/
  | conflictingSystems (names : List Text)
  /-- An unknown host, file system or choice. -/
  | unknownChoice
  /-- A mode that asks for more than the mode before it. -/
  | deniedMode
  | unknownValue (option value : Text)
  deriving DecidableEq

def NameFault.message : NameFault → Text
  | badEscape found => "invalid URL escape " ++ found.quote
  | semicolon => "invalid semicolon separator in query"
  | conflictingSystems names =>
    "conflicting vfs query parameters: [" ++ Text.join " " names ++ "]"
  | unknownChoice => "SQL logic error: out of memory (1)"
  | deniedMode => "access permission denied: out of memory (3)"
  | unknownValue option value => "unknown " ++ option ++ " " ++ value.quote

/-- How a store may be opened. -/
inductive OpenMode
  | readOnly
  | readWrite
  | readWriteCreate
  | memory
  deriving DecidableEq

namespace OpenMode

def ofName? (name : Text) : Option OpenMode :=
  if name = Text.ofString "ro" then some readOnly
  else if name = Text.ofString "rw" then some readWrite
  else if name = Text.ofString "rwc" then some readWriteCreate
  else if name = Text.ofString "memory" then some memory
  else none

/-- The rights of a mode, one bit each. -/
def rights : OpenMode → Nat
  | readOnly => 1
  | readWrite => 2
  | readWriteCreate => 6
  | memory => 128

/-- A mode may follow another one of no fewer rights; a store in memory needs none. -/
def mayFollow (earlier later : OpenMode) : Bool :=
  later = memory || later.rights ≤ earlier.rights

end OpenMode

/-- Where a store is and what may be done with it. -/
structure Location where
  /-- The path of its file; none for a store that is gone at the end of the run. -/
  path? : Option Text
  mode : OpenMode := .readWriteCreate
  /-- Nobody changes the file. -/
  immutable : Bool := false
  /-- Whether changes may go to a file of their own first. -/
  mayLogAhead : Bool := false
  /-- The file whose rights a new one takes over. It has to be there. -/
  rightsOf? : Option Text := none
  /-- What the store is told once it is open, in order. -/
  pragmas : List Text := []
  /-- The lock that a change takes, empty when none was asked for. -/
  lock : Text := []
  /-- What shows to be wrong after all that. -/
  complaint? : Option NameFault := none
  deriving DecidableEq

namespace Location

def mayCreate (l : Location) : Bool := l.mode = .readWriteCreate

def mayWrite (l : Location) : Bool := l.mode != .readOnly && !l.immutable

end Location

/-! ### Options -/

/-- Reads a name or a value among options: a plus sign is a blank, and a percent sign
stands before the digits of a byte. -/
def unescape : Text → Except NameFault Text
  | [] => .ok []
  | b :: rest => do
    if b == Text.byte '%' then
      match rest with
      | high :: low :: after =>
        match Text.ofHex? [high, low] with
        | some bytes => return bytes ++ (← unescape after)
        | none => throw (.badEscape [b, high, low])
      | _ => throw (.badEscape (b :: rest))
    else
      let c := if b == Text.byte '+' then 32 else b
      return c :: (← unescape rest)

/-- A part of options with its value, empty without an equals sign; none for an empty
part. -/
def readOption? (part : Text) : Except NameFault (Option (Text × Text)) := do
  if part.contains (Text.byte ';') then throw .semicolon
  else if part.isEmpty then return none
  else
    let (name, value) := (Text.cut (Text.byte '=') part).getD (part, [])
    return some (← unescape name, ← unescape value)

/-- The worse of two faults: a semicolon, else the earlier one. -/
def worse (earlier : Option NameFault) (later : NameFault) : NameFault :=
  if later = .semicolon then later else earlier.getD later

/-- The options of a name in order. -/
def readOptions (options : Text) : Except NameFault (List (Text × Text)) :=
  let step := fun (fault, found) part =>
    match readOption? part with
    | .ok entry => (fault, found ++ entry.toList)
    | .error later => (some (worse fault later), found)
  match (Text.splitOn (Text.byte '&') options).foldl step (none, []) with
  | (none, found) => .ok found
  | (some fault, _) => .error fault

/-- The values of an option in order. -/
def valuesOf (options : List (Text × Text)) (name : Text) : List Text :=
  (options.filter fun (n, _) => n == name).map (·.2)

/-- The file system that options ask for, empty when they ask for none. Once there is
one, no other may follow. -/
def systemOf (options : List (Text × Text)) : Except NameFault Text :=
  let names := valuesOf options "vfs"
  names.foldlM (fun chosen name =>
    if chosen.isEmpty || chosen == name then .ok name
    else .error (.conflictingSystems names)) []

/-- The first value of an option, empty without one. -/
def valueOf (options : List (Text × Text)) (name : Text) : Text :=
  (valuesOf options name).head?.getD []

/-- The lower-case form of a word, for comparing it with ASCII words. Of the letters that
are not ASCII, the I with a dot and the sign for kelvins have ASCII letters as theirs. -/
def lowerWord : Text → Text
  | 0xC4 :: 0xB0 :: rest => Text.byte 'i' :: lowerWord rest
  | 0xE2 :: 0x84 :: 0xAA :: rest => Text.byte 'k' :: lowerWord rest
  | b :: rest => Text.lowerByte b :: lowerWord rest
  | [] => []

/-- What is wrong with options about times and locks. -/
def complaintOf? (options : List (Text × Text)) : Option NameFault :=
  let format := valueOf options "_time_format"
  let lock := valueOf options "_txlock"
  let locks := [Text.ofString "deferred", Text.ofString "immediate", Text.ofString "exclusive"]
  if !format.isEmpty && format != Text.ofString "sqlite" then
    some (.unknownValue "_time_format" format)
  else if !lock.isEmpty && !locks.contains (lowerWord lock) then
    some (.unknownValue "_txlock" lock)
  else none

/-- What pragmas are ordered by: their words without case and without blanks around. -/
def pragmaKey (pragma : Text) : Text :=
  let isBlank (b : UInt8) := (9 ≤ b && b ≤ 13) || b == 32
  (((lowerWord pragma).dropWhile isBlank).reverse.dropWhile isBlank).reverse

/-- The pragmas among options in the order they are run in: first those about waiting,
the last one first, and then the others by their words. -/
def pragmasOf (options : List (Text × Text)) : List Text :=
  let (waits, others) := (valuesOf options "_pragma").partition fun pragma =>
    (Text.ofString "busy_timeout").isPrefixOf (pragmaKey pragma)
  waits.reverse ++ others.mergeSort fun a b => Text.atMost (pragmaKey a) (pragmaKey b)

/-! ### Locators -/

/-- Reads percent signs before two digits as bytes. A zero byte ends the text. -/
def decodePercents : Text → Text
  | [] => []
  | b :: rest =>
    if b == Text.byte '%' then
      match rest with
      | high :: low :: after =>
        match Text.ofHex? [high, low] with
        | some [0] => []
        | some bytes => bytes ++ decodePercents after
        | none => b :: decodePercents (high :: low :: after)
      | rest => b :: decodePercents rest
    else b :: decodePercents rest

/-- The locator without its host, which has to be this one. -/
def dropHost (locator : Text) : Except NameFault Text :=
  if (Text.ofString "//").isPrefixOf locator then
    let host := (locator.drop 2).takeWhile (· != Text.byte '/')
    if host.isEmpty || host == Text.ofString "localhost" then
      .ok (locator.drop (2 + host.length))
    else .error .unknownChoice
  else .ok locator

/-- The path and the options of a locator. Options without a name are left out. -/
def splitLocator (locator : Text) : Text × List (Text × Text) :=
  let body := locator.takeWhile (· != Text.byte '#')
  let (path, options) := (Text.cut (Text.byte '?') body).getD (body, [])
  let pairs := (Text.splitOn (Text.byte '&') options).map fun part =>
    let (name, value) := (Text.cut (Text.byte '=') part).getD (part, [])
    (decodePercents name, decodePercents value)
  (decodePercents path, pairs.filter (!·.1.isEmpty))

/-- The file systems there are. The last one is in memory. -/
def systems : List Text := ["unix", "unix-none", "unix-dotfile", "unix-excl", "memdb"]

/-- What the options of a locator choose so far. -/
structure Choice where
  mode : OpenMode := .readWriteCreate
  system : Text := "unix"

def Choice.add (c : Choice) (option : Text × Text) : Except NameFault Choice :=
  let (name, value) := option
  if name = Text.ofString "vfs" then .ok { c with system := value }
  else if name = Text.ofString "cache" then
    if value = Text.ofString "shared" ∨ value = Text.ofString "private" then .ok c
    else .error .unknownChoice
  else if name = Text.ofString "mode" then
    match OpenMode.ofName? value with
    | none => .error .unknownChoice
    | some mode =>
      if c.mode.mayFollow mode then .ok { c with mode } else .error .deniedMode
  else .ok c

/-- The file systems without memory that is shared between processes. -/
def plainSystems : List Text := ["unix-none", "unix-dotfile"]

/-- The location that a path and choices describe. -/
def locate (path : Text) (c : Choice) (pairs : List (Text × Text)) :
    Except NameFault Location :=
  if !systems.contains c.system then .error .unknownChoice
  else
    let nameless := path.isEmpty || path == Text.ofString ":memory:" || c.mode = .memory
    let inMemory := nameless || c.system == Text.ofString "memdb"
    let isOn (option : Text) := isYes (valueOf pairs option)
    let immutable := !nameless && isOn "immutable"
    if inMemory then .ok { path? := none, mode := c.mode, immutable }
    else .ok {
      path? := some path
      mode := c.mode
      immutable
      mayLogAhead := !immutable && !isOn "nolock" && !plainSystems.contains c.system
      rightsOf? := (valuesOf pairs "modeof").head? }

/-- The location that a name leads to. A zero byte ends a name. -/
def Location.ofName (name : Text) : Except NameFault Location := do
  let scheme := Text.ofString "file:"
  let (before, query) := match Text.cut (Text.byte '?') name with
    | some (before, query) => if before.isEmpty then (name, []) else (before, query)
    | none => (name, [])
  let options ← readOptions query
  let system ← systemOf options
  let c : Choice := if system.isEmpty then {} else { system }
  let l ← if scheme.isPrefixOf name then do
      let locator ← dropHost ((name.drop scheme.length).takeWhile (· != 0))
      let (path, pairs) := splitLocator locator
      locate path (← pairs.foldlM Choice.add c) pairs
    else locate (before.takeWhile (· != 0)) c []
  return { l with
    pragmas := pragmasOf options
    lock := valueOf options "_txlock"
    complaint? := complaintOf? options }

end ObjectMachine.ProfileStore
