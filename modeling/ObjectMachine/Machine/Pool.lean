/-! The memory pool: a fixed budget of bytes from which every allocation is granted or
refused. Nothing is stored in it; it keeps counts in 64-bit arithmetic. -/

namespace ObjectMachine

structure Pool where
  size : Int64
  used : Int64 := 0
  peak : Int64 := 0
  /-- Bytes granted for good. -/
  pinned : Int64 := 0
  grants : Int64 := 0
  refunds : Int64 := 0
  deriving DecidableEq

namespace Pool

/-- Grants `n` bytes when they fit. -/
def alloc? (p : Pool) (n : Int64) : Option Pool :=
  if n < 0 ∨ p.used + n > p.size then none
  else
    let used := p.used + n
    some { p with used, grants := p.grants + 1, peak := if used > p.peak then used else p.peak }

/-- Grants `n` bytes that will never be returned. -/
def pin? (p : Pool) (n : Int64) : Option Pool :=
  (p.alloc? n).map fun p => { p with pinned := p.pinned + n }

/-- Takes `n` bytes back. -/
def refund (p : Pool) (n : Int64) : Pool :=
  { p with used := p.used - n, refunds := p.refunds + 1 }

/-- More bytes came back than were granted. -/
def isOverdrawn (p : Pool) : Bool := p.used < 0

def free (p : Pool) : Int64 := p.size - p.used

end Pool

/-! The bytes charged for each kind of thing. -/

def classBytes : Int64 := 16
def methodBytes : Int64 := 24
def instanceBytes : Int64 := 16
def procBytes : Int64 := 24
def frameBytes : Int64 := 40
def variableBytes : Int64 := 12
def stringBytes : Int64 := 12

end ObjectMachine
