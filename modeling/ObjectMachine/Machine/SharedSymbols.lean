import Mathlib.Logic.Function.Basic
import ObjectMachine.Code.Block
import ObjectMachine.Machine.Symbol

/-! Machines that share blocks. Every machine has names of its own, so the numbers of a block's
names differ from one machine to the next. A block remembers them for one machine, the one that
last asked. -/

namespace ObjectMachine

/-- The numbers of a block's names, and the machine that gave them. -/
structure SymbolCache (V : Type) where
  owner : V
  ids : Array Symbol

/-- The names of machines `V` and what blocks `B` remember of them. -/
structure SharedSymbols (V B : Type) where
  tables : V → SymbolTable := fun _ => {}
  caches : B → Option (SymbolCache V) := fun _ => none

namespace SharedSymbols

variable {V B : Type} [DecidableEq V] [DecidableEq B]

/-- What is asked: the number of a name, or of the name in slot `i` of a block. -/
inductive Request (V B : Type) where
  | intern (v : V) (name : Text)
  | symbol (v : V) (b : B) (i : Int64)

def intern (w : SharedSymbols V B) (v : V) (name : Text) : SharedSymbols V B × Symbol :=
  let (t, id) := (w.tables v).intern name
  ({ w with tables := Function.update w.tables v t }, id)

/-- A block gets ready for a machine. When another one asked last, all its names are interned. -/
def prepare (names : B → Array Text) (w : SharedSymbols V B) (v : V) (b : B) : SharedSymbols V B :=
  if (w.caches b).map (·.owner) = some v then w
  else
    let (t, ids) := (w.tables v).internAll (names b).toList
    { tables := Function.update w.tables v t
      caches := Function.update w.caches b (some { owner := v, ids := ids.toArray }) }

/-- The number of the name in slot `i`, none outside the block. -/
def symbol? (names : B → Array Text) (w : SharedSymbols V B) (v : V) (b : B) (i : Int64) :
    SharedSymbols V B × Option Symbol :=
  let w := w.prepare names v b
  (w, (w.caches b).bind fun c => entryAt? c.ids i)

def serve (names : B → Array Text) (w : SharedSymbols V B) :
    Request V B → SharedSymbols V B × Option Symbol
  | .intern v name =>
    let (w, id) := w.intern v name
    (w, some id)
  | .symbol v b i => w.symbol? names v b i

/-- Serves requests in order. -/
def run (names : B → Array Text) (w : SharedSymbols V B) (rs : List (Request V B)) :
    SharedSymbols V B :=
  rs.foldl (fun w r => (w.serve names r).1) w

end SharedSymbols

end ObjectMachine
