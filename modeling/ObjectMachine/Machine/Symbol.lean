import ObjectMachine.Text
import Std.Data.TreeMap

/-! Interned names. A symbol is the number of a name, given in order of first use. -/

namespace ObjectMachine

abbrev Symbol := Nat

/-- Names by number and numbers by name. -/
structure SymbolTable where
  ids : Std.TreeMap Text Symbol := {}
  names : Array Text := #[]

namespace SymbolTable

def lookup? (t : SymbolTable) (name : Text) : Option Symbol := t.ids[name]?

/-- The number of a name, a new one when it has none yet. -/
def intern (t : SymbolTable) (name : Text) : SymbolTable × Symbol :=
  match t.lookup? name with
  | some id => (t, id)
  | none =>
    let id := t.names.size
    ({ ids := t.ids.insert name id, names := t.names.push name }, id)

/-- The name of a symbol, empty for a number that was never given. -/
def name (t : SymbolTable) (id : Symbol) : Text := t.names.getD id []

def size (t : SymbolTable) : Nat := t.names.size

/-- Interns names in order and gives their numbers. -/
def internAll (t : SymbolTable) : List Text → SymbolTable × List Symbol
  | [] => (t, [])
  | name :: rest =>
    let (t, id) := t.intern name
    let (t, ids) := t.internAll rest
    (t, id :: ids)

end SymbolTable

end ObjectMachine
