import ObjectMachine.Code.Walk
import ObjectMachine.Double.Written
import ObjectMachine.Text.Quoted

/-! Listings of programs in assembly language: one section for each reachable block in
visiting order. Every block gets a name of its own, its assigned one when it can be
written and is still free. -/

namespace ObjectMachine

namespace Literal

/-- A literal as it is written in assembly language. A float always shows that it is one,
and a kind without a meaning is shown by its integer. -/
def write (lit : Literal) : Text :=
  match lit.kind with
  | 1 =>
    let t := lit.float.write
    if t.containsAny ".eIN" then t else t ++ ".0"
  | 2 => lit.text.quote
  | _ => Text.ofInt64 lit.int

end Literal

/-- A symbol operand; a name that would not survive as one word is quoted. -/
def writeSymbol (name : Text) : Text :=
  if name.isEmpty || name.containsAny " \t\"\\;" then Text.byte ':' :: name.quote
  else Text.byte ':' :: name

namespace Listing

/-- The name made from a number for blocks that need one. -/
def madeName (n : Nat) : Text := Text.ofString "rep" ++ Text.ofNat n

/-- The first made name from number `n` on that is not taken, and the number after it.
Made names are distinct, so one more try than there are taken names is enough. -/
def freeName (taken : List Text) : (tries : Nat) → (n : Nat) → Text × Nat
  | 0, n => (madeName n, n + 1)
  | tries + 1, n =>
    if madeName n ∈ taken then freeName taken tries (n + 1) else (madeName n, n + 1)

/-- A name that can head a section and be referred to. -/
def isUsable (name : Text) : Bool := !name.isEmpty && !name.containsAny " \t@"

/-- Names for blocks in order, each different from those given before it. -/
def assignNames (p : Program) (taken : List Text) (n : Nat) : List Nat → List (Nat × Text)
  | [] => []
  | i :: rest =>
    let own := (p.block i).name
    if isUsable own && !taken.contains own then
      (i, own) :: assignNames p (own :: taken) n rest
    else
      let (name, n) := freeName taken (taken.length + 1) n
      (i, name) :: assignNames p (name :: taken) n rest

/-- The name of every reachable block. -/
def names (p : Program) : List (Nat × Text) := assignNames p [] 0 p.visitOrder

def writeOperand (names : List (Nat × Text)) (b : Block) (kind : OperandKind)
    (n : Int64) : Text :=
  let missing := Text.byte '?' :: Text.ofInt64 n
  match kind with
  | .register => Text.byte 'r' :: Text.ofInt64 n
  | .literal => ((entryAt? b.pool n).map Literal.write).getD missing
  | .symbol => ((entryAt? b.symbols n).map writeSymbol).getD missing
  | .child =>
    match entryAt? b.children n with
    | some i => Text.byte '@' :: (names.lookup i).getD []
    | none => missing
  | .label => Text.byte 'L' :: Text.ofInt64 n
  | .none | .integer => Text.ofInt64 n

/-- The code positions a block refers to by label. -/
def targets (b : Block) : List Int64 :=
  b.code.toList.flatMap fun i =>
    i.operands.filterMap fun (kind, n) => if kind = .label then some n else none

def writeInst (names : List (Nat × Text)) (b : Block) (i : Inst) : Text :=
  Text.ofString "    " ++ i.op.mnemonic
    ++ i.operands.flatMap (fun (kind, n) => 32 :: writeOperand names b kind n)
    ++ [Text.byte '\n']

/-- The line of a label, when the position is a target. -/
def writeLabel (targets : List Int64) (pc : Nat) : Text :=
  if Int64.ofNat pc ∈ targets then
    Text.byte 'L' :: Text.ofNat pc ++ [Text.byte ':', Text.byte '\n']
  else []

def writeSection (names : List (Nat × Text)) (name : Text) (b : Block) : Text :=
  let targets := targets b
  ".irep " ++ name ++ " nregs=" ++ Text.ofInt64 b.registers ++ " nlocals="
    ++ Text.ofInt64 b.locals ++ "\n"
    ++ (b.code.toList.zipIdx.flatMap fun (i, pc) =>
      writeLabel targets pc ++ writeInst names b i)
    ++ writeLabel targets b.code.size ++ ".end\n"

end Listing

/-- The program in assembly language, an empty line between sections. -/
def Program.listing (p : Program) : Text :=
  let names := Listing.names p
  Text.join [Text.byte '\n'] <| names.map fun (i, name) =>
    Listing.writeSection names name (p.block i)

end ObjectMachine
