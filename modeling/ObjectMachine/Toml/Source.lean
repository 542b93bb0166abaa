import ObjectMachine.Text.Utf8

/-! The text of a configuration document before its grammar: a byte-order mark may come
first, and the rest is valid UTF-8 without control characters other than tabs and line
breaks. -/

namespace ObjectMachine.Toml

def newline : UInt8 := Text.byte '\n'

def isBlank (b : UInt8) : Bool := b == 32 || b == Text.byte '\t'

def isBreak (b : UInt8) : Bool := b == newline || b == Text.byte '\r'

/-- Drops a byte-order mark. -/
def dropMark : Text → Text
  | 0xFF :: 0xFE :: rest => rest
  | 0xFE :: 0xFF :: rest => rest
  | 0xEF :: 0xBB :: 0xBF :: rest => rest
  | t => t

/-- No control characters other than tabs and line feeds, and carriage returns only
before line feeds. -/
def isPlain : Text → Bool
  | [] => true
  | b :: rest =>
    (if b == Text.byte '\r' then rest.head? == some newline
      else b == newline || b == Text.byte '\t' || (32 ≤ b && b != 127))
      && isPlain rest

/-- The text whose grammar counts. -/
def source? (t : Text) : Option Text :=
  let t := dropMark t
  if isPlain t && t.isValid then some t else none

def skipBlanks (t : Text) : Text := t.dropWhile isBlank

/-- Skips blanks, line breaks and comments. -/
def skipFiller : (comment : Bool) → Text → Text
  | _, [] => []
  | true, b :: rest => skipFiller (b != newline) rest
  | false, b :: rest =>
    if isBlank b || isBreak b then skipFiller false rest
    else if b == Text.byte '#' then skipFiller true rest
    else b :: rest

/-- What follows a byte that must come next. -/
def expect? (expected : UInt8) : Text → Option Text
  | [] => none
  | b :: rest => if b == expected then some rest else none

end ObjectMachine.Toml
