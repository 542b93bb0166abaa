import ObjectMachine.Machine.Value

/-! Counts of method calls and raised exceptions. Calls are counted for each method; the
report merges methods that were found under the same class and name. -/

namespace ObjectMachine

/-- Calls of one method, found on the class of this name. -/
structure CallCount where
  owner : Text
  method : Text
  native : Bool
  calls : Nat
  deriving DecidableEq

def CallCount.key (c : CallCount) : Text := c.owner ++ [Text.byte '#'] ++ c.method

structure Profile where
  /-- Counts by method, in order of first call. -/
  calls : List (MethodId × CallCount) := []
  /-- Raises by class name, in order of first raise. -/
  raises : List (Text × Nat) := []
  total : Nat := 0

namespace Profile

/-- Counts one more call, starting from `fresh` for a method not met before. -/
def countCall (id : MethodId) (fresh : CallCount) :
    List (MethodId × CallCount) → List (MethodId × CallCount)
  | [] => [(id, { fresh with calls := 1 })]
  | (k, c) :: rest =>
    if k = id then (k, { c with calls := c.calls + 1 }) :: rest
    else (k, c) :: countCall id fresh rest

def recordCall (p : Profile) (id : MethodId) (owner method : Text) (native : Bool) : Profile :=
  { p with calls := countCall id ⟨owner, method, native, 0⟩ p.calls, total := p.total + 1 }

def countRaise (name : Text) : List (Text × Nat) → List (Text × Nat)
  | [] => [(name, 1)]
  | (k, n) :: rest => if k = name then (k, n + 1) :: rest else (k, n) :: countRaise name rest

def recordRaise (p : Profile) (name : Text) : Profile :=
  { p with raises := countRaise name p.raises }

def totalRaises (p : Profile) : Nat := p.raises.foldr (fun r n => r.2 + n) 0

/-- Adds counts to the entry of the same key. -/
def mergeCount (c : CallCount) : List CallCount → List CallCount
  | [] => [c]
  | d :: rest =>
    if d.key = c.key then { d with calls := d.calls + c.calls } :: rest
    else d :: mergeCount c rest

/-- More calls first, then by key. -/
def ranksBefore (c d : CallCount) : Bool :=
  d.calls < c.calls || (d.calls == c.calls && c.key.atMost d.key)

/-- One count for each class and method name, most called first. -/
def report (p : Profile) : List CallCount :=
  ((p.calls.map (·.2)).foldl (fun merged c => mergeCount c merged) []).mergeSort ranksBefore

/-- At most `n` of the most called methods; there is no such list for a negative number. -/
def top? (p : Profile) (n : Int) : Option (List CallCount) :=
  if n < 0 then none else some (p.report.take n.toNat)

end Profile

end ObjectMachine
