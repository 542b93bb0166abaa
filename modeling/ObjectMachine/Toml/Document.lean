import ObjectMachine.Toml.Statement
import Std.Data.HashSet

/-! Documents: the tables that statements build. A table may be opened once by a header
or by braces. A table that so far exists only because something stands below it may
still be opened; a dotted key reaches into any table, and makes one where an array was.
Braces also keep a table of their own. It takes the place of the one in the document
when the last entry without a name between them is an array. -/

namespace ObjectMachine.Toml

/-- What a name stands for in a table. -/
inductive Node
  | value (v : Value)
  | table (entries : List (Text × Node))
  /-- An array of tables, the latest one last. -/
  | tables (items : List (List (Text × Node)))

abbrev Entries := List (Text × Node)

namespace Node

/-- The table that names below this one are looked up in. -/
def inside? : Node → Option Entries
  | value _ => none
  | table entries => some entries
  | tables items => items.getLast?

/-- Replaces the table that names below this one are looked up in. -/
def withInside (entries : Entries) : Node → Node
  | value v => value v
  | table _ => table entries
  | tables items => tables (items.dropLast ++ [entries])

end Node

namespace Entries

/-- Gives a name its node, in the place of the one it had. -/
def put (name : Text) (node : Node) : Entries → Entries
  | [] => [(name, node)]
  | (k, n) :: rest => if k = name then (k, node) :: rest else (k, n) :: put name node rest

/-- The table at the end of a path. -/
def at? : Path → Entries → Option Entries
  | [], entries => some entries
  | name :: rest, entries => do
    let inside ← (← entries.lookup name).inside?
    at? rest inside

/-- Changes the table at the end of a path. -/
def modifyAt? (f : Entries → Entries) : Path → Entries → Option Entries
  | [], entries => some (f entries)
  | name :: rest, entries => do
    let node ← entries.lookup name
    let inside ← modifyAt? f rest (← node.inside?)
    return put name (node.withInside inside) entries

/-- Makes the missing tables on a path. The answer also has the number of names on it
that stood for something before. -/
def makeWay? : Path → Entries → Option (Entries × Nat)
  | [], entries => some (entries, 0)
  | name :: rest, entries =>
    match entries.lookup name with
    | none => do return (put name (.table (← makeWay? rest []).1) entries, 0)
    | some node => do
      let (inside, known) ← makeWay? rest (← node.inside?)
      return (put name (node.withInside inside) entries, known + 1)

/-- Puts a node at the end of a path and makes the missing tables on the way. Everything
else on the way has to be a table. -/
def build? (name : Text) (node : Node) : Path → Entries → Option Entries
  | [], entries => some (put name node entries)
  | parent :: rest, entries => do
    let inside ← match entries.lookup parent with
      | none => some []
      | some (.table inside) => some inside
      | some _ => none
    return put parent (.table (← build? name node rest inside)) entries

end Entries

structure Document where
  root : Entries := []
  /-- Every key in the order of writing. Headers count as keys. -/
  keys : List Path := []
  /-- Tables that may still be opened. -/
  implied : Std.HashSet Path := {}
  /-- Keys whose latest value is an array. -/
  arrays : Std.HashSet Path := {}

namespace Document

def node? (d : Document) (context : Path) (name : Text) : Option Node := do
  (← Entries.at? context d.root).lookup name

def isDefined (d : Document) (p : Path) : Bool :=
  match Key.ofPath? p with
  | some key => (d.node? key.parents key.name).isSome
  | none => false

def place? (d : Document) (context : Path) (name : Text) (node : Node) : Option Document := do
  return { d with root := ← Entries.modifyAt? (Entries.put name node) context d.root }

def imply (d : Document) (p : Path) : Document := { d with implied := d.implied.insert p }

def settle (d : Document) (p : Path) : Document := { d with implied := d.implied.erase p }

def note (d : Document) (p : Path) : Document := { d with keys := d.keys ++ [p] }

/-- Records whether the latest value of a key is an array. An empty name in a table
counts for the table itself. -/
def setArray (d : Document) (context : Path) (name : Text) (array : Bool) : Document :=
  let p := if name.isEmpty && !context.isEmpty then context else context ++ [name]
  { d with arrays := if array then d.arrays.insert p else d.arrays.erase p }

/-- Gives a name its node. A name that has one is defined again only while its table may
still be opened: an array then gives way to the new node, and anything else stays. -/
def define? (d : Document) (context : Path) (name : Text) (node : Node) : Option Document := do
  let p := context ++ [name]
  match (← Entries.at? context d.root).lookup name with
  | none => d.place? context name node
  | some _ =>
    if !d.implied.contains p then none
    else if d.arrays.contains p then (d.settle p).place? context name node
    else some (d.settle p)

/-- Makes the missing tables on a path. They may still be opened. -/
def makeWay? (d : Document) (p : Path) : Option Document := do
  let (root, known) ← Entries.makeWay? p d.root
  let made := (List.range (p.length - known)).map fun i => p.take (known + i + 1)
  return { made.foldl imply d with root }

/-- Opens a table. -/
def openTable? (d : Document) (context : Path) (name : Text) : Option Document := do
  (← d.makeWay? context).define? context name (.table [])

/-- Adds a table to an array of tables. -/
def addTable? (d : Document) (context : Path) (name : Text) : Option Document := do
  let d ← d.makeWay? context
  match (← Entries.at? context d.root).lookup name with
  | none => d.place? context name (.tables [[]])
  | some (.tables items) => d.place? context name (.tables (items ++ [[]]))
  | some _ => none

/-- Opens the tables named before the last dot of a key. -/
def openParents? (d : Document) (context : Path) : Path → Option Document
  | [] => some d
  | name :: rest => do
    let p := context ++ [name]
    let d ← (d.imply p).openTable? context name
    d.openParents? p rest

/-- Opens the way to a key and notes it. -/
def beginEntry? (d : Document) (context : Path) (key : Key) : Option Document := do
  return (← d.openParents? context key.parents).note (context ++ key.path)

/-- Gives a key its node once its value was entered. -/
def endEntry? (d : Document) (context : Path) (key : Key) (value : Value) (node : Node) :
    Option Document := do
  let context := context ++ key.parents
  return (← d.define? context key.name node).setArray context key.name value.isArray

mutual

/-- What a value adds to the document before its key is defined, and its node: a table in
braces opens a table, and one in an array adds a table to it. -/
def enterValue? (d : Document) (context : Path) (name : Text) (inArray : Bool) :
    Value → Option (Document × Node)
  | .array items => do
    let d ← (d.setArray context name true).enterItems? context name items
    return (d, .value (.array items))
  | .table entries => do
    let p := context ++ [name]
    let d := d.imply p
    let d ← if inArray then d.addTable? context name else d.openTable? context name
    let (d, own) ← d.enterBraces? p [] entries
    return (d, .table own)
  | v => some (d, .value v)

def enterItems? (d : Document) (context : Path) (name : Text) : List Value → Option Document
  | [] => some d
  | item :: rest => do
    let (d, _) ← d.enterValue? context name true item
    d.enterItems? context name rest

/-- Gives keys in braces their values, in the document and in the table `own` of the
braces. -/
def enterBraces? (d : Document) (context : Path) (own : Entries) :
    List (Key × Value) → Option (Document × Entries)
  | [] => some (d, own)
  | (key, value) :: rest => do
    let d ← d.beginEntry? context key
    let (d, node) ← d.enterValue? (context ++ key.parents) key.name false value
    let d ← d.endEntry? context key value node
    d.enterBraces? context (← Entries.build? key.name node key.parents own) rest

end

/-- Gives a key in a table its value. -/
def assign? (d : Document) (context : Path) (key : Key) (value : Value) : Option Document := do
  let d ← d.beginEntry? context key
  let (d, node) ← d.enterValue? (context ++ key.parents) key.name false value
  d.endEntry? context key value node

/-- Carries out a statement in the table opened last; the answer has the table opened
now. -/
def carryOut? (d : Document) (context : Path) : Statement → Option (Document × Path)
  | .table key => do
    let d ← d.openTable? key.parents key.name
    return ((d.setArray key.path [] false).note key.path, key.path)
  | .arrayTable key => do
    let d ← d.addTable? key.parents key.name
    return ((d.setArray key.path [] false).note key.path, key.path)
  | .entry key value => do return (← d.assign? context key value, context)

def carryOutAll? (d : Document) (context : Path) : List Statement → Option Document
  | [] => some d
  | s :: rest => do
    let (d, context) ← d.carryOut? context s
    d.carryOutAll? context rest

/-- Reads a document. -/
def read? (t : Text) : Option Document := do
  carryOutAll? {} [] (← statements? t)

end Document

end ObjectMachine.Toml
