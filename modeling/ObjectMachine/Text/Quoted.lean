import ObjectMachine.Text.Printable
import ObjectMachine.Text.Utf8

/-! Double-quoted text. Writing shows printable characters as they are and escapes the
rest; reading undoes every escape it writes, and also takes octal escapes and the
two escapes of quotes and backslashes. -/

namespace ObjectMachine.Text

/-- The one-letter escapes: the code point and the letter after the backslash. -/
def letterEscapes : List (Nat × UInt8) :=
  [(7, byte 'a'), (8, byte 'b'), (12, byte 'f'), (10, byte 'n'), (13, byte 'r'),
   (9, byte 't'), (11, byte 'v')]

def escapeChar (c : Char) : Text :=
  if c = '"' ∨ c = '\\' then [byte '\\', byte c]
  else if isPrintable c then encodeChar c
  else match letterEscapes.lookup c.toNat with
    | some letter => [byte '\\', letter]
    | none =>
      if c.toNat < 32 ∨ c.toNat = 127 then byte '\\' :: byte 'x' :: hexDigits 2 c.toNat
      else if c.toNat < 0x10000 then byte '\\' :: byte 'u' :: hexDigits 4 c.toNat
      else byte '\\' :: byte 'U' :: hexDigits 8 c.toNat

def escapePiece : Piece → Text
  | .char c => escapeChar c
  | .stray b => byte '\\' :: byte 'x' :: hexDigits 2 b.toNat

/-- The text between double quotes, escaped where it has to be. -/
def quote (t : Text) : Text :=
  [byte '"'] ++ (pieces t).flatMap escapePiece ++ [byte '"']

/-- The value of exactly `width` hexadecimal digits at the front, and the rest. -/
def readHex? : (width : Nat) → (value : Nat) → Text → Option (Nat × Text)
  | 0, value, rest => some (value, rest)
  | _ + 1, _, [] => none
  | width + 1, value, b :: rest => do
    let digit ← hexValue? b
    readHex? width (16 * value + digit) rest

def octalValue? (b : UInt8) : Option Nat :=
  if 48 ≤ b && b ≤ 55 then some (b.toNat - 48) else none

/-- Reads an escape after its backslash: the bytes it stands for and the rest. -/
def readEscape? : Text → Option (Text × Text)
  | [] => none
  | b :: rest =>
    if b == byte 'x' then do
      let (value, rest) ← readHex? 2 0 rest
      return ([value.toUInt8], rest)
    else if b == byte 'u' || b == byte 'U' then do
      let (value, rest) ← readHex? (if b == byte 'u' then 4 else 8) 0 rest
      if value.isValidChar then return (encodeChar (Char.ofNat value), rest) else none
    else if b == byte '\\' || b == byte '"' then some ([b], rest)
    else match octalValue? b, rest with
      | some high, m :: l :: rest => do
        let middle ← octalValue? m
        let low ← octalValue? l
        let value := 64 * high + 8 * middle + low
        if value < 256 then return ([value.toUInt8], rest) else none
      | some _, _ => none
      | none, _ =>
        (letterEscapes.find? fun (_, letter) => letter == b).map fun (code, _) =>
          ([code.toUInt8], rest)

/-- The bytes a piece contributes to an unquoted text: a stray byte becomes the
replacement character. -/
def readPiece : Piece → Text
  | .char c => encodeChar c
  | .stray _ => [0xEF, 0xBF, 0xBD]

/-- Reads an escaped text up to its closing quote, which must be its last byte. Each
step takes at least one byte, so the length of the text bounds the steps. -/
def readBody? : (steps : Nat) → Text → Option Text
  | 0, _ => none
  | _ + 1, [] => none
  | steps + 1, b :: rest =>
    if b == byte '"' then (if rest.isEmpty then some [] else none)
    else if b == byte '\n' then none
    else if b == byte '\\' then do
      let (bytes, rest) ← readEscape? rest
      let more ← readBody? steps rest
      return bytes ++ more
    else if b < 0x80 then (readBody? steps rest).map (b :: ·)
    else match Utf8.first? (b :: rest) with
      | some (c, width) =>
        (readBody? steps (rest.drop (width - 1))).map (encodeChar c ++ ·)
      | none => (readBody? steps rest).map (readPiece (.stray b) ++ ·)

/-- Reads a double-quoted text. -/
def unquote? : Text → Option Text
  | b :: rest => if b == byte '"' then readBody? (rest.length + 1) rest else none
  | [] => none

end ObjectMachine.Text
