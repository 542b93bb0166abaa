import ObjectMachine.Double
import ObjectMachine.Machine.Symbol
import ObjectMachine.Text.Decimal

/-! Values. Immediate values stand for themselves; owning values refer to a counted
object on the heap. Classes are never freed, so a class counts as immediate. -/

namespace ObjectMachine

abbrev ClassId := Nat

abbrev MethodId := Nat

abbrev FrameId := Nat

/-- The position of an object on the heap, in order of allocation. -/
abbrev Ref := Nat

/-- The kinds of values, in the order in which values of different kinds compare. A
number without a kind stays visible as `unknown`. -/
inductive Kind
  | empty
  | nil
  | false
  | true
  | integer
  | float
  | symbol
  | cls
  | object
  | proc
  | string
  | unknown (number : UInt8)
  deriving DecidableEq

namespace Kind

def all : List Kind :=
  [empty, nil, false, true, integer, float, symbol, cls, object, proc, string]

def ofNumber (n : UInt8) : Kind := all.getD n.toNat (unknown n)

def number : Kind → Nat
  | unknown n => n.toNat
  | kind => all.idxOf kind

def name : Kind → Text
  | empty => "empty"
  | nil => "nil"
  | false => "false"
  | true => "true"
  | integer => "integer"
  | float => "float"
  | symbol => "symbol"
  | cls => "class"
  | object => "object"
  | proc => "proc"
  | string => "string"
  | unknown n => "type(" ++ Text.ofNat n.toNat ++ ")"

/-- Whether values of this kind hold a reference. -/
def isOwning (k : Kind) : Bool := object.number ≤ k.number

end Kind

inductive Value
  /-- The content of a register that holds nothing. -/
  | empty
  | nil
  | bool (b : Bool)
  | int (n : Int64)
  | float (x : Double)
  | symbol (s : Symbol)
  | cls (c : ClassId)
  | object (r : Ref)
  | proc (r : Ref)
  | string (r : Ref)
  deriving DecidableEq

namespace Value

def kind : Value → Kind
  | empty => .empty
  | nil => .nil
  | bool false => .false
  | bool true => .true
  | int _ => .integer
  | float _ => .float
  | symbol _ => .symbol
  | cls _ => .cls
  | object _ => .object
  | proc _ => .proc
  | string _ => .string

/-- The heap object an owning value refers to. -/
def ref? : Value → Option Ref
  | object r | proc r | string r => some r
  | _ => none

/-- Everything but nil, false and the empty value. -/
def isTruthy : Value → Bool
  | empty | nil | bool false => false
  | _ => true

def isNil : Value → Bool
  | nil => true
  | _ => false

def isEmpty : Value → Bool
  | empty => true
  | _ => false

def cls? : Value → Option ClassId
  | cls c => some c
  | _ => none

def isProc : Value → Bool
  | proc _ => true
  | _ => false

/-- The serial number of an owning value, 0 for others. -/
def serial (v : Value) : Nat := (v.ref?.map (· + 1)).getD 0

end Value

end ObjectMachine
