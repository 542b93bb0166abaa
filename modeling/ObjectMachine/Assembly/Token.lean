import ObjectMachine.Text.Quoted

/-! The words of an assembly line. Blanks and commas separate words, a semicolon starts
a comment, and a quoted word may hold any bytes. -/

namespace ObjectMachine.Assembly

inductive Token
  | word (t : Text)
  | string (t : Text)
  /-- A colon directly before a quoted name. -/
  | symbol (t : Text)
  deriving DecidableEq

namespace Token

def text : Token → Text
  | word t => t
  | string t => t
  | symbol t => t

def isQuoted : Token → Bool
  | word _ => false
  | _ => true

end Token

/-- Why a line has no words. -/
inductive LineError
  | unterminated
  | badString (written : Text)
  deriving DecidableEq

def LineError.message : LineError → Text
  | unterminated => "unterminated string"
  | badString written => "bad string " ++ written ++ ": invalid syntax"

/-- The text up to the closing quote, escapes untouched, and the text after it. -/
def closeQuote? : Text → Option (Text × Text)
  | [] => none
  | b :: rest =>
    if b == Text.byte '"' then some ([], rest)
    else if b == Text.byte '\\' then
      match rest with
      | [] => none
      | c :: rest => (closeQuote? rest).map fun (body, after) => (b :: c :: body, after)
    else (closeQuote? rest).map fun (body, after) => (b :: body, after)

def isBlank (b : UInt8) : Bool :=
  b == 32 || b == Text.byte '\t' || b == Text.byte '\r' || b == Text.byte ','

def endsWord (b : UInt8) : Bool := isBlank b || b == Text.byte ';'

/-- Reads a quoted text after its opening quote. -/
def readQuoted (t : Text) : Except LineError (Text × Text) :=
  match closeQuote? t with
  | none => .error .unterminated
  | some (body, rest) =>
    let written : Text := [Text.byte '"'] ++ body ++ [Text.byte '"']
    match written.unquote? with
    | some value => .ok (value, rest)
    | none => .error (.badString written)

/-- The words of a line. Every step takes at least one byte. -/
def splitWords : (steps : Nat) → Text → Except LineError (List Token)
  | 0, _ => .ok []
  | _ + 1, [] => .ok []
  | steps + 1, b :: rest =>
    if isBlank b then splitWords steps rest
    else if b == Text.byte ';' then .ok []
    else if b == Text.byte '"' then do
      let (value, rest) ← readQuoted rest
      return .string value :: (← splitWords steps rest)
    else if b == Text.byte ':' && rest.head? == some (Text.byte '"') then do
      let (value, rest) ← readQuoted rest.tail
      return .symbol value :: (← splitWords steps rest)
    else do
      let word := b :: rest.takeWhile (!endsWord ·)
      return .word word :: (← splitWords steps (rest.dropWhile (!endsWord ·)))

/-- The words of a line, up to a comment. -/
def tokens (line : Text) : Except LineError (List Token) := splitWords line.length line

end ObjectMachine.Assembly
