import ObjectMachine.Code.Validity
import ObjectMachine.Image.Field
import ObjectMachine.Text.Quoted

/-! Code images: programs as binary files. Blocks are stored in visiting order and refer
to their children by position, so a shared child is stored once. Decoding refuses what
is not an image, and images whose code is cyclic or invalid. -/

namespace ObjectMachine.Image

open Cbor

def magic : Text := "EMBI"

def version : Nat := 1

/-- Why bytes do not decode to a program. -/
inductive DecodeError
  /-- The bytes are not an item of the right shape. -/
  | malformed
  | badMagic (found : Text)
  | badVersion (found : Nat)
  | noBlocks
  | badChild (block : Nat) (child : Int64)
  | cyclicBlock (name : Text)
  | invalid (defect : CodeDefect)
  deriving DecidableEq

def DecodeError.message : DecodeError → Text
  | malformed => "image: unmarshal"
  | badMagic found => "image: magic " ++ found.quote ++ ": bad image"
  | badVersion found =>
    "image: version " ++ Text.ofNat found ++ ", want " ++ Text.ofNat version ++ ": bad image"
  | noBlocks => "image: no code blocks: bad image"
  | badChild block child =>
    "image: block " ++ Text.ofNat block ++ " has child " ++ Text.ofInt64 child ++ ": bad image"
  | cyclicBlock name => "image: block " ++ name.quote ++ " contains itself: bad image"
  | invalid defect => "image: " ++ defect.message ++ ": bad image"

/-- A numbered entry of a record. -/
def entry (number : Nat) (item : Item) : List Item := [.unsigned number, item]

/-- An entry that is left out when `empty`. -/
def entryUnless (empty : Bool) (number : Nat) (item : Item) : List Item :=
  if empty then [] else entry number item

def encodeInst (i : Inst) : Item :=
  .array [.unsigned i.op.number.toNat, .ofInt i.a.toInt, .ofInt i.b.toInt, .ofInt i.c.toInt]

def encodeLiteral (lit : Literal) : Item :=
  .map <| entry 1 (.unsigned lit.kind.toNat)
    ++ entryUnless (lit.int == 0) 2 (.ofInt lit.int.toInt)
    ++ entryUnless lit.float.isZero 3 (.float lit.float)
    ++ entryUnless lit.text.isEmpty 4 (.ofText lit.text)

/-- A block, its children given by their positions in the image. -/
def encodeBlock (order : List Nat) (b : Block) : Item :=
  .map <| entryUnless b.name.isEmpty 1 (.ofText b.name)
    ++ entry 2 (.ofInt b.locals.toInt)
    ++ entry 3 (.ofInt b.registers.toInt)
    ++ entry 4 (.array (b.code.toList.map encodeInst))
    ++ entryUnless b.pool.isEmpty 5 (.array (b.pool.toList.map encodeLiteral))
    ++ entryUnless b.symbols.isEmpty 6 (.array (b.symbols.toList.map .ofText))
    ++ entryUnless b.children.isEmpty 7
      (.array (b.children.toList.map fun i => .unsigned (order.idxOf i)))

/-- The image of a program. -/
def encode (p : Program) : Text :=
  let order := p.visitOrder
  package.write <| .map <| entry 1 (.ofText magic) ++ entry 2 (.unsigned version)
    ++ entry 3 (.array (order.map fun i => encodeBlock order (p.block i)))

/-- A block as it is stored: its children are not yet checked. -/
structure StoredBlock where
  block : Block
  children : List Int64

def decodeInst (item : Item) : Option Inst := do
  let item ← untag? item
  if isNull item then return { op := .nop }
  match item with
  | .array [op, a, b, c] =>
    return { op := .ofNumber (← byteField op), a := ← int64Field a, b := ← int64Field b,
             c := ← int64Field c }
  | _ => none

def decodeLiteral (item : Item) : Option Literal := do
  let fields ← record? item
  return { kind := ← field fields 1 0 byteField
           int := ← field fields 2 0 int64Field
           float := ← field fields 3 .zero floatField
           text := ← field fields 4 [] textField }

def decodeBlock (item : Item) : Option StoredBlock := do
  let fields ← record? item
  let block : Block :=
    { name := ← field fields 1 [] textField
      locals := ← field fields 2 0 int64Field
      registers := ← field fields 3 0 int64Field
      code := (← field fields 4 [] (listField decodeInst)).toArray
      pool := (← field fields 5 [] (listField decodeLiteral)).toArray
      symbols := (← field fields 6 [] (listField textField)).toArray }
  return ⟨block, ← field fields 7 [] (listField int64Field)⟩

/-- What an image file holds. -/
structure File where
  magic : Text
  version : Nat
  blocks : List StoredBlock

def decodeFile (item : Item) : Option File := do
  let fields ← record? item
  return { magic := ← field fields 1 [] textField
           version := (← field fields 2 0 (integerField 0 (Nat.pow 2 64 - 1 : Nat))).toNat
           blocks := ← field fields 3 [] (listField decodeBlock) }

/-- The block with its children as positions among `count` blocks. The root is nobody's
child. -/
def StoredBlock.link (s : StoredBlock) (count i : Nat) : Except DecodeError Block := do
  let children ← s.children.mapM fun c =>
    if c ≤ 0 ∨ (count : Int) ≤ c.toInt then .error (.badChild i c) else .ok c.toInt.toNat
  return { s.block with children := children.toArray }

/-- Decodes an image. -/
def decode (bytes : Text) : Except DecodeError Program := do
  let some file := (package.read? bytes).bind decodeFile | throw .malformed
  if file.magic ≠ magic then throw (.badMagic file.magic)
  if file.version ≠ version then throw (.badVersion file.version)
  if file.blocks.isEmpty then throw .noBlocks
  let blocks ← file.blocks.zipIdx.mapM fun (s, i) => s.link file.blocks.length i
  let program : Program := ⟨blocks.toArray⟩
  if let some n := program.cyclicBlock? then throw (.cyclicBlock (program.block n).name)
  if let some defect := program.defect? then throw (.invalid defect)
  return program

end ObjectMachine.Image
