import ObjectMachine.Text.Quoted
import ObjectMachine.Toml.Source

/-! Quoted texts. Between double quotes a backslash starts an escape, between single
quotes all bytes stand for themselves. Three quotes of either kind enclose several lines,
the first line break not counted. -/

namespace ObjectMachine.Toml

def doubleQuote : UInt8 := Text.byte '"'

def singleQuote : UInt8 := Text.byte '\''

def backslash : UInt8 := Text.byte '\\'

/-- The character of `width` hexadecimal digits at the front, encoded. -/
def codePoint? (width : Nat) (t : Text) : Option Text := do
  let (value, _) ← Text.readHex? width 0 t
  if value.isValidChar then return Text.encodeChar (Char.ofNat value) else none

/-- The one-letter escapes. -/
def letterEscapes : List (UInt8 × UInt8) :=
  [(Text.byte 'b', 8), (Text.byte 't', 9), (Text.byte 'n', 10), (Text.byte 'f', 12),
   (Text.byte 'r', 13), (Text.byte 'e', 27), (doubleQuote, doubleQuote),
   (backslash, backslash)]

/-- The bytes an escape stands for and the number of bytes it has after its backslash. In
a text of several lines a backslash at the end of a line takes all blanks and line breaks
after it away. -/
def escape? (multiline : Bool) (t : Text) : Option (Text × Nat) :=
  let gap := t.takeWhile fun b => isBlank b || isBreak b
  if multiline && gap.contains newline then some ([], gap.length)
  else match t with
    | [] => none
    | b :: rest =>
      if b == Text.byte 'x' then (codePoint? 2 rest).map (·, 3)
      else if b == Text.byte 'u' then (codePoint? 4 rest).map (·, 5)
      else if b == Text.byte 'U' then (codePoint? 8 rest).map (·, 9)
      else (letterEscapes.lookup b).map ([·], 1)

/-- Replaces escapes; `skip` bytes of the escape before are still to pass. -/
def unescapeAfter? (multiline : Bool) : (skip : Nat) → Text → Option Text
  | _, [] => some []
  | skip + 1, _ :: rest => unescapeAfter? multiline skip rest
  | 0, b :: rest =>
    if b == backslash then do
      let (bytes, width) ← escape? multiline rest
      let after ← unescapeAfter? multiline width rest
      return bytes ++ after
    else (unescapeAfter? multiline 0 rest).map (b :: ·)

def unescape? (multiline : Bool) (t : Text) : Option Text := unescapeAfter? multiline 0 t

/-- The bytes up to the closing quote on the same line, and the text after it. A quote
after a backslash does not close when there are escapes. -/
def closeLine? (quote : UInt8) : (escaped : Bool) → Text → Option (Text × Text)
  | _, [] => none
  | escaped, b :: rest =>
    if isBreak b then none
    else if b == quote && !escaped then some ([], rest)
    else
      let opensEscape := quote == doubleQuote && b == backslash && !escaped
      (closeLine? quote opensEscape rest).map fun (body, after) => (b :: body, after)

/-- Five quotes in a row and one more to come are too many, unless a backslash stands
before the five in a text with escapes. The bytes come last one first. -/
def isCrowded (quote : UInt8) (seen : Text) : Bool :=
  (List.replicate 5 quote).isPrefixOf seen
    && !(quote == doubleQuote && seen[5]? == some backslash)

/-- The bytes up to the closing three quotes, and the text after them. One or two more
quotes before those belong to the text. The bytes `seen` come last one first. -/
def closeLines? (quote : UInt8) : (seen : Text) → (escaped : Bool) → Text → Option (Text × Text)
  | _, _, [] => none
  | seen, escaped, b :: rest =>
    if b == quote && !escaped && [quote, quote].isPrefixOf rest then
      if rest[2]? == some quote then
        if isCrowded quote (quote :: quote :: b :: seen) then none
        else closeLines? quote (b :: seen) false rest
      else some (seen.reverse, rest.drop 2)
    else closeLines? quote (b :: seen) (quote == doubleQuote && b == backslash && !escaped) rest

/-- Drops a line break at the front. -/
def dropBreak : Text → Text
  | 13 :: 10 :: rest => rest
  | 10 :: rest => rest
  | t => t

/-- A text on one line, read after its opening quote. -/
def readLine? (quote : UInt8) (t : Text) : Option (Text × Text) := do
  let (body, after) ← closeLine? quote false t
  if quote == doubleQuote then return (← unescape? false body, after)
  else return (body, after)

/-- A text of several lines, read after its three opening quotes. -/
def readLines? (quote : UInt8) (t : Text) : Option (Text × Text) := do
  let (body, after) ← closeLines? quote [] false t
  let body := dropBreak body
  if quote == doubleQuote then return (← unescape? true body, after)
  else return (body, after)

/-- A text of either form, read after its first quote. -/
def readQuoted? (quote : UInt8) (t : Text) : Option (Text × Text) :=
  if [quote, quote].isPrefixOf t then readLines? quote (t.drop 2) else readLine? quote t

end ObjectMachine.Toml
