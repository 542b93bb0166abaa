import ObjectMachine.ProfileStore.Setting

/-! Statements to a profile store and their tokens: names, plain or quoted, words that
are no names, texts, numbers and signs. Blanks and comments stand between tokens, and a
semicolon ends a statement. What is no token is kept as one, since it matters only when
it is reached. -/

namespace ObjectMachine.ProfileStore

inductive TokenKind
  | name
  /-- A word that is no name. -/
  | reserved
  | text
  | number
  /-- A sign, or anything else that is no value by itself. -/
  | sign
  /-- No token at all. -/
  | unknown
  deriving DecidableEq

/-- A token of a statement. -/
structure StatementToken where
  kind : TokenKind
  spelling : Text
  deriving DecidableEq

/-- The words that are no names. -/
def reservedWords : List Text :=
  List.map Text.ofString [
    "add", "all", "alter", "and", "as", "autoincrement", "between", "case", "check", "collate",
    "commit", "constraint", "create", "default", "deferrable", "delete", "distinct", "drop",
    "else", "escape", "except", "exists", "foreign", "from", "group", "having", "in", "index",
    "insert", "intersect", "into", "is", "isnull", "join", "limit", "not", "nothing", "notnull",
    "null", "on", "or", "order", "primary", "references", "returning", "select", "set", "table",
    "then", "to", "transaction", "union", "unique", "update", "using", "values", "when",
    "where"]

/-- A blank that may start a gap between tokens. -/
def startsGap (b : UInt8) : Bool := b == 9 || b == 10 || b == 12 || b == 13 || b == 32

/-- A blank that may go on a gap. -/
def isGap (b : UInt8) : Bool := (9 ≤ b && b ≤ 13) || b == 32

def isLetter (b : UInt8) : Bool := let c := Text.lowerByte b; 97 ≤ c && c ≤ 122

def isNameByte (b : UInt8) : Bool :=
  isLetter b || Text.isDigit b || b == Text.byte '_' || b == Text.byte '$' || 128 ≤ b

/-! ### Sizes of tokens

Each of these says how many bytes after the first one belong to a token. -/

/-- The bytes up to the end of a comment, all of them when it does not end. -/
def commentSize : Text → Nat
  | [] => 0
  | b :: rest =>
    if b == Text.byte '*' && rest.head? == some (Text.byte '/') then 2
    else 1 + commentSize rest

/-- The bytes up to a closing quote. Two quotes in a row close nothing. -/
def quotedSize? (quote : UInt8) : Text → Option Nat
  | [] => none
  | b :: rest =>
    if b == quote then
      match rest with
      | c :: after => if c == quote then (quotedSize? quote after).map (· + 2) else some 1
      | [] => some 1
    else (quotedSize? quote rest).map (· + 1)

/-- The bytes of a parameter after its mark, and whether it has a name. -/
def parameterSize : (named : Bool) → Text → Bool × Nat
  | named, [] => (named, 0)
  | named, b :: rest =>
    if isNameByte b then
      let (named, size) := parameterSize true rest
      (named, size + 1)
    else if b == Text.byte '(' && named then
      let inner := rest.takeWhile fun c => !isGap c && c != Text.byte ')'
      if (rest.drop inner.length).head? == some (Text.byte ')') then (true, inner.length + 2)
      else (false, inner.length + 1)
    else if b == Text.byte ':' then
      match rest with
      | c :: after =>
        if c == Text.byte ':' then
          let (named, size) := parameterSize named after
          (named, size + 2)
        else (named, 0)
      | [] => (named, 0)
    else (named, 0)

/-- The bytes of the decimal number a text starts with. -/
def decimalSize (t : Text) : Nat :=
  let digits (t : Text) := (t.takeWhile fun b => Text.isDigit b || b == Text.byte '_').length
  let isSome (p : UInt8 → Bool) (t : Text) := (t.head?.map p).getD false
  let whole := digits t
  let t := t.drop whole
  let fraction := if t.head? == some (Text.byte '.') then 1 + digits t.tail else 0
  let t := t.drop fraction
  let signed := isSome (fun b => b == Text.byte '+' || b == Text.byte '-') t.tail
  let starts := isSome (Text.lowerByte · == Text.byte 'e') t
    && isSome Text.isDigit (t.drop (if signed then 2 else 1))
  let exponent := if starts then 2 + digits (t.drop 2) else 0
  whole + fraction + exponent

/-- The kind and the bytes of the number a text starts with. Digits with bars between
them are no value, and nothing that could be part of a name may follow. -/
def numberAt (t : Text) : TokenKind × Nat :=
  let size := match hexPart? t with
    | some _ =>
      2 + ((t.drop 2).takeWhile fun b => isHexDigit b || b == Text.byte '_').length
    | none => decimalSize t
  let excess := ((t.drop size).takeWhile isNameByte).length
  if excess != 0 then (.unknown, size + excess)
  else if (t.take size).contains (Text.byte '_') then (.sign, size)
  else (.number, size)

/-- The kind and the bytes of a text of bytes after its letter. They come in pairs of
digits. -/
def bytesAt (rest : Text) : TokenKind × Nat :=
  let body := rest.tail
  let inner := body.takeWhile (· != 39)
  let closed := inner.length < body.length
  let size := 1 + inner.length + (if closed then 1 else 0)
  if closed && inner.all isHexDigit && inner.length % 2 == 0 then (.sign, size)
  else (.unknown, size)

/-- The kind of a token or a gap, and how many bytes after the first one it takes. -/
def tokenAt (b : UInt8) (rest : Text) : Option TokenKind × Nat :=
  let isNext (c : Char) := rest.head? == some (Text.byte c)
  let signAnd (next : List Char) := (some .sign, if next.any isNext then 1 else 0)
  let isOne (of : List Char) := of.any (b == Text.byte ·)
  if startsGap b then (none, (rest.takeWhile isGap).length)
  else if b == 0xEF && [0xBB, 0xBF].isPrefixOf rest then (none, 2)
  else if isOne ['-'] then
    if isNext '-' then (none, (rest.takeWhile (· != 10)).length)
    else if isNext '>' then
      (some .sign, if rest.tail.head? == some (Text.byte '>') then 2 else 1)
    else (some .sign, 0)
  else if isOne ['/'] then
    if isNext '*' && 2 ≤ rest.length then (none, 1 + commentSize rest.tail) else (some .sign, 0)
  else if isOne ['='] then signAnd ['=']
  else if isOne ['<'] then signAnd ['=', '<', '>']
  else if isOne ['>'] then signAnd ['=', '>']
  else if isOne ['|'] then signAnd ['|']
  else if isOne ['!'] then if isNext '=' then (some .sign, 1) else (some .unknown, 0)
  else if isOne ['(', ')', ';', '+', '*', '%', ',', '&', '~'] then (some .sign, 0)
  else if b == 39 || b == 96 || isOne ['"'] then
    match quotedSize? b rest with
    | some size => (some (if b == 39 then .text else .name), size)
    | none => (some .unknown, rest.length)
  else if isOne ['['] then
    let inner := (rest.takeWhile (· != Text.byte ']')).length
    if inner < rest.length then (some .name, inner + 1) else (some .unknown, inner)
  else if isOne ['?'] then (some .sign, (rest.takeWhile Text.isDigit).length)
  else if isOne ['$', '@', '#', ':'] then
    let (named, size) := parameterSize false rest
    (some (if named then .sign else .unknown), size)
  else if Text.isDigit b || (isOne ['.'] && (rest.head?.map Text.isDigit).getD false) then
    let (kind, size) := numberAt (b :: rest)
    (some kind, size - 1)
  else if isOne ['.'] then (some .sign, 0)
  else if isOne ['x', 'X'] && rest.head? == some 39 then
    let (kind, size) := bytesAt rest
    (some kind, size)
  else if isNameByte b then
    let more := rest.takeWhile isNameByte
    let word := (b :: more).map Text.lowerByte
    (some (if reservedWords.contains word then .reserved else .name), more.length)
  else (some .unknown, 0)

/-- The tokens of a text. -/
def tokens : Text → List StatementToken
  | [] => []
  | b :: rest =>
    let (kind?, size) := tokenAt b rest
    let after := tokens (rest.drop size)
    match kind? with
    | none => after
    | some kind => ⟨kind, b :: rest.take size⟩ :: after
termination_by t => t.length
decreasing_by simp only [List.length_drop, List.length_cons]; omega

namespace StatementToken

/-- Whether a token is spelled in one of some ways. -/
def isOne (t : StatementToken) (spellings : List Text) : Bool := spellings.contains t.spelling

/-- Whether a token is one of some words in any case. -/
def isWord (t : StatementToken) (words : List Text) : Bool :=
  words.contains (t.spelling.map Text.lowerByte)

end StatementToken

/-- Statements with the semicolons that end them. -/
def splitStatements : List StatementToken → List (List StatementToken)
  | [] => []
  | t :: rest =>
    if t.isOne [";"] then [t] :: splitStatements rest
    else match splitStatements rest with
      | [] => [[t]]
      | statement :: others => (t :: statement) :: others

/-- The statements of a text, which a zero byte ends. -/
def statements (t : Text) : List (List StatementToken) :=
  splitStatements (tokens (t.takeWhile (· != 0)))

/-! ### Quotes -/

/-- The text up to a closing quote. Two quotes in a row stand for one. -/
def unquoteTo (quote : UInt8) : Text → Text
  | [] => []
  | b :: rest =>
    if b == quote then
      match rest with
      | c :: after => if c == quote then b :: unquoteTo quote after else []
      | [] => []
    else b :: unquoteTo quote rest

/-- What a spelling means without its quotes. -/
def meaning : Text → Text
  | [] => []
  | b :: rest =>
    if b == 39 || b == 96 || b == Text.byte '"' then unquoteTo b rest
    else if b == Text.byte '[' then unquoteTo (Text.byte ']') rest
    else b :: rest

end ObjectMachine.ProfileStore
