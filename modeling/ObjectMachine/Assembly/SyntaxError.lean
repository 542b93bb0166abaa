import ObjectMachine.Assembly.Token
import ObjectMachine.Code.Validity

/-! What can be wrong with an assembly source, and how it is reported. -/

namespace ObjectMachine.Assembly

inductive Complaint
  | line (error : LineError)
  | outsideBlock (head : Text)
  | labelTwice (label : Text)
  | nestedBlock (outer : Text)
  | blockNameMissing
  | blockTwice (name : Text)
  | attributeShape (written : Text)
  | attributeValue (key value : Text)
  | attributeUnknown (key : Text)
  | endWithoutBlock
  | undefinedLabel (label : Text)
  | opcodeExpected
  | opcodeUnknown (written : Text)
  | operandCount (mnemonic : Text) (expected given : Nat)
  | registerExpected (written : Text)
  | registerBad (written : Text)
  | integerExpected
  | integerBad (written : Text)
  | literalExpected
  | floatBad (written : Text)
  | literalBad (written : Text)
  | symbolExpected (written : Text)
  | childExpected (written : Text)
  | labelExpected
  | operandUnsupported
  | blockUnclosed (name : Text)
  | noBlocks
  | undefinedBlock (name : Text)
  | cyclicBlock (name : Text)
  | invalid (defect : CodeDefect)
  deriving DecidableEq

def Complaint.message : Complaint → Text
  | line error => error.message
  | outsideBlock head => head.quote ++ " outside of .irep"
  | labelTwice label => "label " ++ label ++ " defined twice"
  | nestedBlock outer => ".irep inside .irep " ++ outer
  | blockNameMissing => ".irep needs a name"
  | blockTwice name => ".irep " ++ name ++ " defined twice"
  | attributeShape written => "expected key=value, got " ++ written.quote
  | attributeValue key value => "bad " ++ key ++ " value " ++ value.quote
  | attributeUnknown key => "unknown .irep attribute " ++ key
  | endWithoutBlock => ".end without .irep"
  | undefinedLabel label => "undefined label " ++ label
  | opcodeExpected => "expected an opcode, got a string"
  | opcodeUnknown written => "unknown opcode " ++ written
  | operandCount mnemonic expected given =>
    mnemonic ++ " takes " ++ Text.ofNat expected ++ " operands, got " ++ Text.ofNat given
  | registerExpected written => "expected a register, got " ++ written.quote
  | registerBad written => "bad register " ++ written.quote
  | integerExpected => "expected an integer, got a string"
  | integerBad written => "bad integer " ++ written.quote
  | literalExpected => "expected a literal, got a symbol"
  | floatBad written => "bad float " ++ written.quote
  | literalBad written => "bad literal " ++ written.quote
  | symbolExpected written => "expected a symbol, got " ++ written.quote
  | childExpected written => "expected @name, got " ++ written.quote
  | labelExpected => "expected a label, got a string"
  | operandUnsupported => "unsupported operand"
  | blockUnclosed name => ".irep " ++ name ++ " has no .end"
  | noBlocks => "no .irep blocks"
  | undefinedBlock name => "undefined .irep " ++ name
  | cyclicBlock name => ".irep " ++ name ++ " contains itself"
  | invalid defect => defect.message

/-- A complaint with its line; line 0 is the source as a whole. -/
structure SyntaxError where
  line : Nat
  complaint : Complaint
  deriving DecidableEq

def SyntaxError.message (e : SyntaxError) : Text :=
  if e.line = 0 then "asm: " ++ e.complaint.message
  else "asm: line " ++ Text.ofNat e.line ++ ": " ++ e.complaint.message

end ObjectMachine.Assembly
