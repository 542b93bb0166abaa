import ObjectMachine.Machine.Execution

/-! New machines. The core classes and the main object have to fit the pool; a core
method that does not fit is left out. -/

namespace ObjectMachine

/-- The core classes after the root, with their superclasses, in the order of their
numbers. -/
def coreClasses : List (Text × ClassId) :=
  [("Proc", .object), ("NilClass", .object), ("TrueClass", .object), ("FalseClass", .object),
   ("Integer", .object), ("Float", .object), ("Symbol", .object), ("String", .object),
   ("Exception", .object), ("StandardError", .exception), ("RuntimeError", .standardError),
   ("TypeError", .standardError), ("ArgumentError", .standardError),
   ("NameError", .standardError), ("NoMethodError", .nameError)]

/-- The core methods in the order of their definition. -/
def coreMethods : List (ClassId × Text × Native) :=
  [(.object, "!", .not), (.object, "==", .equal), (.object, "!=", .notEqual),
   (.object, "<=>", .compare), (.object, "===", .caseEqual), (.object, "class", .classOf),
   (.object, "nil?", .isNil), (.object, "is_a?", .isKindOf), (.object, "kind_of?", .isKindOf),
   (.object, "new", .new), (.object, "dup", .dup), (.object, "attr_reader", .attributeReader),
   (.object, "attr_accessor", .attributeAccessor), (.object, "block_given?", .blockGiven),
   (.object, "raise", .raise), (.object, "inspect", .inspect), (.object, "to_s", .toText),
   (.proc, "call", .callProc), (.proc, "new", .newProc), (.proc, "inspect", .inspect),
   (.proc, "to_s", .inspect), (.nil, "to_i", .nilToInt), (.nil, "to_f", .nilToFloat),
   (.nil, "inspect", .nilInspect), (.nil, "to_s", .nilToText),
   (.true, "inspect", .boolToText), (.true, "to_s", .boolToText),
   (.false, "inspect", .boolToText), (.false, "to_s", .boolToText), (.object, "p", .show),
   (.object, "print", .print), (.object, "puts", .put)]

/-- The methods for debugging. -/
def debugMethods : List (ClassId × Text × Native) :=
  [(.object, "object_id", .objectId), (.object, "instance_methods", .instanceMethods),
   (.object, "instance_variables", .instanceVariables),
   (.object, "memory_statistics", .memoryStatistics)]

namespace Machine

def defineClasses : List (Text × ClassId) → Action Unit
  | [] => pure ()
  | (name, super) :: rest => do
    discard <| defineClass name (some super)
    defineClasses rest

def defineNatives : List (ClassId × Text × Native) → Action Unit
  | [] => pure ()
  | (c, name, native) :: rest => do
    discard <| defineNative? c name native
    defineNatives rest

/-- Sets up the core classes and methods and the main object. -/
def bootstrap : Action Unit := do
  discard <| intern []
  discard <| defineClass "Object" none
  defineClasses coreClasses
  discard <| intern initializer
  discard <| intern "call"
  defineNatives coreMethods
  if (← get).config.debugMethods then defineNatives debugMethods
  let main ← newInstance .object
  if main.isNil then fatal .noMemoryForMain
  modify fun m => { m with topSelf := main }

/-- The configuration with sizes that are not positive replaced by the usual ones. -/
def effective (c : Config) : Config :=
  let usual : Config := {}
  { c with
    poolSize := if c.poolSize ≤ 0 then usual.poolSize else c.poolSize
    maxRegisters := if c.maxRegisters ≤ 0 then usual.maxRegisters else c.maxRegisters }

/-- A machine before its classes. -/
def blank (c : Config) : Machine :=
  { config := c
    memory := { pool := { size := c.poolSize } }
    profile := if c.profile then some {} else none
    regs := Array.replicate c.maxRegisters.toInt.toNat .empty }

/-- A new machine. -/
def create (c : Config) : Except Fault Machine :=
  match bootstrap.run (blank (effective c)) with
  | .ok _ m => .ok m
  | .error fault _ => .error fault

/-- Releases every constant. -/
def releaseConstants : List (Symbol × Value) → Action Unit
  | [] => pure ()
  | (_, v) :: rest => do
    release v
    modify fun m => { m with constants := rest }
    releaseConstants rest

/-- Releases every value the machine still holds. -/
def close : Action Unit := do
  clearRegs 0 (← get).regs.size
  clearException
  clearPending
  release (← get).topSelf
  modify fun m => { m with topSelf := .nil }
  releaseConstants (← get).constants

end Machine

end ObjectMachine
