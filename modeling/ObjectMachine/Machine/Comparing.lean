import ObjectMachine.Machine.Class

/-! The order of values. Integers and floats compare as numbers; other values of different
kinds compare by kind, objects and closures by age, classes and symbols by name, and
strings by their bytes. -/

namespace ObjectMachine.Machine

/-- The order of two values. A NaN is level with every number. -/
def compare (m : Machine) (v w : Value) : Ordering :=
  match v, w with
  | .int a, .int b => Ord.compare a.toInt b.toInt
  | .int a, .float y => (Double.ofInt a.toInt).order y
  | .float x, .int b => x.order (Double.ofInt b.toInt)
  | .float x, .float y => x.order y
  | .symbol s, .symbol t => (m.symbols.name s).order (m.symbols.name t)
  | .cls c, .cls d => (m.className c).order (m.className d)
  | .object r, .object q => Ord.compare r q
  | .proc r, .proc q => Ord.compare r q
  | .string _, .string _ => (m.memory.bytesOf v).order (m.memory.bytesOf w)
  | v, w => Ord.compare v.kind.number w.kind.number

def isNaN : Value → Bool
  | .float x => x.isNaN
  | _ => false

/-- Level in the order; a NaN equals nothing. -/
def equal (m : Machine) (v w : Value) : Bool :=
  !isNaN v && !isNaN w && m.compare v w == .eq

/-- The sign of an order. -/
def sign : Ordering → Int64
  | .lt => -1
  | .eq => 0
  | .gt => 1

end ObjectMachine.Machine
