import ObjectMachine.ProfileStore.Statement

/-! Pragmas: statements that ask an open profile store for a value or give it one. A
pragma is a name, with a database before it or without, and a value after an equals sign
or between brackets, or none. What a pragma needs of the store is a list of demands; most
pragmas are unknown or of no consequence here and need nothing. -/

namespace ObjectMachine.ProfileStore

/-- Why a statement is refused. -/
inductive StatementFault
  | incomplete
  | near (spelling : Text)
  | unrecognized (spelling : Text)
  | unknownDatabase (spelling : Text)
  | unknownTable (name : Text)
  | unknownEncoding (name : Text)
  | notDirectory
  deriving DecidableEq

def StatementFault.message : StatementFault → Text
  | incomplete => "incomplete input"
  | near spelling => "near \"" ++ spelling ++ "\": syntax error"
  | unrecognized spelling => "unrecognized token: \"" ++ spelling ++ "\""
  | unknownDatabase spelling => "unknown database " ++ spelling
  | unknownTable name => "no such table: " ++ name
  | unknownEncoding name => "unsupported encoding: " ++ name
  | notDirectory => "not a writable directory"

/-- The databases of an open store: its file, and one for what is gone at the end. -/
inductive Database
  | main
  | temp
  deriving DecidableEq

def Database.name : Database → Text
  | main => "main"
  | temp => "temp"

/-- What stands before the names of its tables. -/
def Database.lead (d : Database) : Text := d.name ++ "."

def Database.ofSpelling? (spelling : Text) : Option Database :=
  let name := (meaning spelling).map Text.lowerByte
  [main, temp].find? (·.name == name)

structure Pragma where
  database? : Option Database
  /-- The name in lower case. -/
  name : Text
  value? : Option Text
  deriving DecidableEq

namespace Pragma

/-! ### Reading -/

/-- What is wrong with a statement that cannot go on. -/
def refuse {α : Type} : List StatementToken → Except StatementFault α
  | [] => .error .incomplete
  | t :: _ =>
    .error (if t.kind = .unknown then .unrecognized t.spelling else .near t.spelling)

/-- A token with one of some kinds, and the tokens after it. -/
def take (kinds : List TokenKind) (ts : List StatementToken) :
    Except StatementFault (Text × List StatementToken) :=
  match ts with
  | t :: rest => if kinds.contains t.kind then .ok (t.spelling, rest) else refuse ts
  | [] => refuse ts

def takeName : List StatementToken → Except StatementFault (Text × List StatementToken) :=
  take [.name, .text]

/-- The tokens after one that is spelled in one of some ways. -/
def after? (spellings : List Text) : List StatementToken → Option (List StatementToken)
  | t :: rest => if t.isOne spellings then some rest else none
  | [] => none

/-- A value: a number with a sign or without, a name, a text, or a word that is a value
although it is no name. -/
def takeValue (ts : List StatementToken) :
    Except StatementFault (Text × List StatementToken) := do
  if let some rest := after? ["-"] ts then
    let (number, rest) ← take [.number] rest
    return (Text.byte '-' :: number, rest)
  else if let some rest := after? ["+"] ts then take [.number] rest
  else
    let isValueWord := match ts with
      | t :: _ => t.isWord ["on", "delete", "default"]
      | [] => false
    let kinds := [.name, .text, .number] ++ if isValueWord then [.reserved] else []
    let (spelling, rest) ← take kinds ts
    return (meaning spelling, rest)

/-- The value after a name, if any. -/
def takeSetting (ts : List StatementToken) :
    Except StatementFault (Option Text × List StatementToken) := do
  if let some rest := after? ["=", "=="] ts then
    let (value, rest) ← takeValue rest
    return (some value, rest)
  else if let some rest := after? ["("] ts then
    let (value, rest) ← takeValue rest
    match after? [")"] rest with
    | some rest => return (some value, rest)
    | none => refuse rest
  else return (none, ts)

/-- Reads a pragma after its first word. -/
def read (ts : List StatementToken) : Except StatementFault Pragma := do
  let (first, ts) ← takeName ts
  let (owner?, name, ts) ← match after? ["."] ts with
    | some rest => do
      let (name, ts) ← takeName rest
      pure (some first, name, ts)
    | none => pure (none, first, ts)
  let (value?, ts) ← takeSetting ts
  if !(ts.isEmpty || (after? [";"] ts).isSome) then refuse ts
  let database? ← owner?.mapM fun spelling =>
    match Database.ofSpelling? spelling with
    | some database => pure database
    | none => throw (.unknownDatabase spelling)
  return { database?, name := (meaning name).map Text.lowerByte, value? }

end Pragma

/-! ### Demands -/

/-- What a pragma needs of a store. -/
inductive Demand
  /-- From now on nothing may be written, or again it may. -/
  | queryOnly (on : Bool)
  | readHeader
  /-- Reads what tables there are. -/
  | readTables
  | write
  /-- Writes what is gone at the end. -/
  | writeAside
  /-- Writes where there are no tables. -/
  | writeNew
  /-- Writes where there are tables. -/
  | writeOld
  /-- Whether changes are noted in a file first. -/
  | journal (kept : Bool)
  /-- Changes go to a file of their own first. -/
  | logAhead
  | pageLimit (pages : Nat)
  | encoding (name : Text)
  | table (database? : Option Database) (name : Text)
  /-- Something has to be at a path. -/
  | path (path : Text)
  deriving DecidableEq

/-- What is left of a demand that is about what is gone at the end and not about the
file of a store. -/
def Demand.aside? : Demand → Option Demand
  | write | writeNew => some .writeAside
  | readHeader | writeOld | journal _ | logAhead | pageLimit _ => none
  | d => some d

namespace Pragma

/-- The pragmas that need to know what tables there are, with or without a value. -/
def tableReaders : List Text := List.map Text.ofString [
  "auto_vacuum", "cache_size", "default_cache_size", "foreign_key_check",
  "foreign_key_list", "incremental_vacuum", "index_info", "index_list", "index_xinfo",
  "integrity_check", "journal_mode", "max_page_count", "optimize", "page_count", "quick_check",
  "synchronous", "table_info", "table_list", "table_xinfo", "wal_checkpoint"]

/-- How changes may be noted. -/
def journalModes : List (Text × Demand) := [
  ("delete", .journal true), ("persist", .journal true), ("off", .journal false),
  ("truncate", .journal true), ("memory", .journal false), ("wal", .logAhead)]

/-- The names of encodings. -/
def encodings : List Text := List.map Text.ofString [
  "utf8", "utf-8", "utf-16le", "utf-16be", "utf16le", "utf16be", "utf-16", "utf16"]

/-- What a pragma needs to set a value, reading tables apart. -/
def demandsOfValue (p : Pragma) (value : Text) : List Demand :=
  let isOne (names : List Text) := names.contains p.name
  let word := value.map Text.lowerByte
  let number := (leadingNumber? value).getD 0
  if isOne ["query_only"] then [.queryOnly (isYes value)]
  else if isOne ["application_id", "schema_version", "user_version", "default_cache_size"] then
    [.write]
  else if isOne ["auto_vacuum"] then
    if [Text.ofString "full", Text.ofString "incremental"].contains word
        || number == 1 || number == 2 then [.writeNew]
    else []
  else if isOne ["journal_mode"] then
    ((journalModes.find? fun (mode, _) => word.isPrefixOf mode).map (·.2)).toList
  else if isOne ["max_page_count"] then
    ((wholeNumber? value).filter (0 < ·)).toList.map .pageLimit
  else if isOne ["encoding"] then if encodings.contains word then [] else [.encoding value]
  else if isOne ["foreign_key_check"] then [.table p.database? value]
  else if isOne ["integrity_check", "quick_check"] then
    if (leadingNumber? value).isSome then [] else [.table p.database? value]
  else if isOne ["optimize"] then if number / 2 % 2 == 1 then [.writeOld] else []
  else if isOne ["temp_store_directory"] then if value.isEmpty then [] else [.path value]
  else if isOne ["data_version", "freelist_count"] then [.readHeader]
  else []

/-- What a pragma needs when it only asks, reading tables apart. -/
def demandsOfQuestion (p : Pragma) : List Demand :=
  let isOne (names : List Text) := names.contains p.name
  if isOne ["application_id", "schema_version", "user_version", "data_version",
      "freelist_count"] then [.readHeader]
  else if isOne ["encoding"] then [.readTables]
  else if isOne ["optimize"] then [.writeOld]
  else []

/-- What a pragma needs. -/
def demands (p : Pragma) : List Demand :=
  let reads := if tableReaders.contains p.name then [Demand.readTables] else []
  let vacuums := if p.name = Text.ofString "incremental_vacuum" then [Demand.write] else []
  let all := reads ++ vacuums ++ match p.value? with
    | some value => p.demandsOfValue value
    | none => p.demandsOfQuestion
  if p.database? = some .temp then all.filterMap Demand.aside? else all

end Pragma

/-- The words other statements start with. They are taken to leave the store alone. -/
def otherCommands : List Text := List.map Text.ofString [
  "alter", "analyze", "attach", "begin", "commit", "create", "delete", "detach", "drop", "end",
  "explain", "insert", "reindex", "release", "replace", "rollback", "savepoint", "select",
  "update", "vacuum", "values", "with"]

/-- What a statement needs. -/
def demandsOf (statement : List StatementToken) : Except StatementFault (List Demand) :=
  match statement with
  | [] => .ok []
  | t :: rest =>
    if t.isOne [";"] then .ok []
    else if t.isWord ["pragma"] then (Pragma.read rest).map Pragma.demands
    else if t.isWord otherCommands then
      match rest.find? (·.kind == .unknown) with
      | some bad => .error (.unrecognized bad.spelling)
      | none => .ok []
    else Pragma.refuse statement

end ObjectMachine.ProfileStore
