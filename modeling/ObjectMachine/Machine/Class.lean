import ObjectMachine.Machine.Memory

/-! Classes, methods and constants. A superclass is always older than its subclasses, so
every chain of superclasses ends. Methods are searched from a class upwards, newest
first on each class. -/

namespace ObjectMachine

/-! The classes every machine starts with, in the order of their definition. -/

namespace ClassId

def object : ClassId := 0
def proc : ClassId := 1
def nil : ClassId := 2
def true : ClassId := 3
def false : ClassId := 4
def integer : ClassId := 5
def float : ClassId := 6
def symbol : ClassId := 7
def string : ClassId := 8
def exception : ClassId := 9
def standardError : ClassId := 10
def runtimeError : ClassId := 11
def typeError : ClassId := 12
def argumentError : ClassId := 13
def nameError : ClassId := 14
def noMethodError : ClassId := 15

end ClassId

namespace Machine

def classAt (m : Machine) (c : ClassId) : Class := m.classes.getD c ⟨0, [], none, []⟩

def className (m : Machine) (c : ClassId) : Text := (m.classAt c).name

def methodAt (m : Machine) (id : MethodId) : Method :=
  m.methods.getD id ⟨0, .native .not, 0⟩

/-- A class with its superclasses, nearest first. -/
def lineage (classes : Array Class) (c : ClassId) : List ClassId :=
  match (classes[c]?).bind (·.super) with
  | some s => if s < c then c :: lineage classes s else [c]
  | none => [c]
termination_by c

/-- The superclasses of a class from its parent to the root. -/
def superclasses (m : Machine) (c : ClassId) : List ClassId := (lineage m.classes c).tail

def isSubclassOf (m : Machine) (c other : ClassId) : Bool :=
  (lineage m.classes c).contains other

/-- The newest method of a name on the class itself. -/
def ownMethod? (m : Machine) (c : ClassId) (s : Symbol) : Option MethodId :=
  (m.classAt c).methods.find? fun id => (m.methodAt id).symbol == s

/-- The method a class answers a name with, and the class it was found on. -/
def findMethod? (m : Machine) (c : ClassId) (s : Symbol) : Option (MethodId × ClassId) :=
  (lineage m.classes c).findSome? fun k => (m.ownMethod? k s).map (·, k)

/-- The class a value dispatches on; a class value on the class itself. -/
def classOf (m : Machine) : Value → ClassId
  | .nil => .nil
  | .bool true => .true
  | .bool false => .false
  | .int _ => .integer
  | .float _ => .float
  | .symbol _ => .symbol
  | .cls c => c
  | .object r =>
    match m.memory.heap[r]? with
    | some { body := .object c _, .. } => c
    | _ => .object
  | .proc _ => .proc
  | .string _ => .string
  | .empty => .object

def isKindOf (m : Machine) (v : Value) (c : ClassId) : Bool := m.isSubclassOf (m.classOf v) c

def constant? (m : Machine) (s : Symbol) : Option Value := m.constants.lookup s

/-- The constants with one of them bound to another value. -/
def rebind (s : Symbol) (v : Value) : List (Symbol × Value) → List (Symbol × Value)
  | [] => [(s, v)]
  | (k, w) :: rest => if k = s then (k, v) :: rest else (k, w) :: rebind s v rest

/-- Binds a constant; the table takes a reference of its own. -/
def setConstant (s : Symbol) (v : Value) : Action Unit := do
  acquire v
  if let some old := (← get).constant? s then release old
  modify fun m => { m with constants := rebind s v m.constants }

/-- The value of a constant with a reference for the caller, nil when it is unbound. -/
def getConstant (s : Symbol) : Action Value := do
  match (← get).constant? s with
  | some v =>
    acquire v
    return v
  | none => return .nil

/-- The class bound to a name, a new one below `super` when the name is unbound. -/
def defineClass (name : Text) (super : Option ClassId) : Action ClassId := do
  let s ← intern name
  match (← get).constant? s with
  | some (.cls c) => return c
  | some _ => fatal (.notAClass name)
  | none =>
    let m ← get
    let some pool := m.memory.pool.pin? classBytes | fatal (.noMemoryForClass name)
    let c := m.classes.size
    let super := super.or (if m.classes.isEmpty then none else some .object)
    set { m with
      memory := { m.memory with pool }
      classes := m.classes.push { symbol := s, name, super } }
    setConstant s (.cls c)
    return c

/-- The class bound to a name. -/
def classByName? (m : Machine) (name : Text) : Option ClassId := do
  let s ← m.symbols.lookup? name
  let v ← m.constant? s
  v.cls?

/-- The classes bound to constants, in the order of their names. -/
def registeredClasses (m : Machine) : List ClassId :=
  (m.constants.filterMap fun (_, v) => v.cls?).mergeSort fun c d =>
    (m.className c).atMost (m.className d)

/-- Changes a class. -/
def modifyClass (c : ClassId) (f : Class → Class) : Action Unit :=
  modify fun m => { m with classes := m.classes.modify c f }

def modifyMethod (id : MethodId) (f : Method → Method) : Action Unit :=
  modify fun m => { m with methods := m.methods.modify id f }

/-- Adds a method in front of the others of its class. -/
def addMethod (c : ClassId) (method : Method) : Action MethodId := do
  let id := (← get).methods.size
  modify fun m => { m with methods := m.methods.push method }
  modifyClass c fun k => { k with methods := id :: k.methods }
  return id

/-- Charges the pool for a method of a class. There is no method of a class that does not
exist. -/
def chargeMethod (c : ClassId) : Action Bool := do
  if c < (← get).classes.size then charge methodBytes else return false

/-- Defines a native method, when the pool grants its bytes. -/
def defineNative? (c : ClassId) (name : Text) (native : Native) :
    Action (Option MethodId) := do
  if ← chargeMethod c then
    let s ← intern name
    return some (← addMethod c { symbol := s, body := .native native })
  else return none

def acquireMethod (id : MethodId) : Action Unit :=
  modifyMethod id fun k => { k with refCount := k.refCount + 1 }

def releaseMethod (id : MethodId) : Action Unit := do
  modifyMethod id fun k => { k with refCount := k.refCount - 1 }
  let method := (← get).methodAt id
  if method.refCount = 0 then refund methodBytes
  else if method.refCount < 0 then fatal (.methodReleasedAgain (← nameOf method.symbol))

/-- Installs code as a method. A method of the same name on the class itself is
unlinked and released first. -/
def installCode? (c : ClassId) (s : Symbol) (code : Code) : Action (Option MethodId) := do
  if let some old := (← get).ownMethod? c s then
    modifyClass c fun k => { k with methods := k.methods.erase old }
    releaseMethod old
  if ← chargeMethod c then
    return some (← addMethod c { symbol := s, body := .code code })
  else return none

end Machine

end ObjectMachine
