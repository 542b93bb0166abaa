import ObjectMachine.Calendar
import ObjectMachine.Text.Based
import ObjectMachine.Toml.Quoted
import ObjectMachine.Toml.Value

/-! Values without parts: texts, numbers, booleans, dates and times. A number or a time is
first cut off by the bytes it may have and then checked as a whole. -/

namespace ObjectMachine.Toml

/-! ### Numbers -/

def underscore : UInt8 := Text.byte '_'

def isHexDigit (b : UInt8) : Bool := (Text.hexValue? b).isSome

/-- Every underscore comes after a digit of base sixteen, and such a digit comes last.
`digit` tells whether one came just before. -/
def isSeparated : (digit : Bool) → Text → Bool
  | digit, [] => digit
  | digit, b :: rest => (b != underscore || digit) && isSeparated (isHexDigit b) rest

/-- A zero before other digits, which are not those of a marked base. -/
def hasLeadingZero : Text → Bool
  | a :: b :: rest =>
    if a == Text.byte '0' then
      !(b == Text.byte 'b' || b == Text.byte 'o' || b == Text.byte 'x')
    else (a == Text.byte '-' || a == Text.byte '+') && b == Text.byte '0' && !rest.isEmpty
  | _ => false

def integer? (written : Text) : Option Value :=
  if isSeparated false written && !hasLeadingZero written then
    match Text.readBased written with
    | .ok n => some (.integer n)
    | .error _ => none
  else none

/-- A digit comes after every point. `point` tells whether one came just before. -/
def hasFractions : (point : Bool) → Text → Bool
  | point, [] => !point
  | point, b :: rest => (!point || Text.isDigit b) && hasFractions (b == Text.byte '.') rest

def isFloatMark (b : UInt8) : Bool :=
  b == Text.byte '.' || b == Text.byte 'e' || b == Text.byte 'E'

/-- The parts of a float between its marks, empty ones left out. -/
def floatParts (written : Text) : List Text :=
  (Text.splitOn (Text.byte '.')
    (written.map fun b => if isFloatMark b then Text.byte '.' else b)).filter (!·.isEmpty)

def float? (written : Text) : Option Value :=
  let parts := floatParts written
  if parts.all (isSeparated false) && !((parts.head?.map hasLeadingZero).getD false)
      && hasFractions false written then
    match Double.read (written.filter (· != underscore)) with
    | .ok x => some (.float x)
    | .error _ => none
  else none

/-- A word that stands for a float, after its sign. -/
def readFloatWord? (negative : Bool) (t : Text) : Option (Value × Text) :=
  let take := fun (word : Text) (x : Double) =>
    if word.isPrefixOf t then some (Value.float x, t.drop word.length) else none
  (take "inf" (.infinity negative)).or (take "nan" .nan)

/-- A number in base ten, read at its first byte. -/
def readDecimal? (t : Text) : Option (Value × Text) := do
  let (sign, unsigned) := t.span fun b => b == Text.byte '-' || b == Text.byte '+'
  let digits := unsigned.takeWhile fun b => Text.isDigit b || b == underscore
  let rest := unsigned.drop digits.length
  if (rest.head?.map isFloatMark).getD false then
    let tail := rest.takeWhile fun b =>
      Text.isDigit b || b == underscore || isFloatMark b
        || b == Text.byte '-' || b == Text.byte '+'
    return (← float? (sign ++ digits ++ tail), rest.drop tail.length)
  else return (← integer? (sign ++ digits), rest)

/-- A number with a marked base, read at its zero. At least one digit of the base follows
the mark. -/
def readMarked? (base : Nat) (t : Text) : Option (Value × Text) := do
  let isDigit := fun (b : UInt8) => ((Text.hexValue? b).map (decide <| · < base)).getD false
  let tail := t.drop 2
  if !((tail.head?.map isDigit).getD false) then none
  else
    let digits := tail.takeWhile fun b => isDigit b || b == underscore
    return (← integer? (t.take 2 ++ digits), tail.drop digits.length)

/-! ### Dates and times -/

/-- The value of exactly `width` digits below `limit` at the front, and the rest. -/
def readField? (width limit : Nat) (t : Text) : Option (Nat × Text) := do
  let digits := t.take width
  let n ← Text.readNat? digits
  if digits.length = width ∧ n < limit then return (n, t.drop width) else none

/-- What follows a date. -/
def afterDate? (t : Text) : Option Text := do
  let (year, t) ← readField? 4 10000 t
  let (month, t) ← readField? 2 13 (← expect? (Text.byte '-') t)
  let (day, t) ← readField? 2 32 (← expect? (Text.byte '-') t)
  if Calendar.isDate year month day then return t else none

/-- What follows seconds and their fraction. -/
def afterSeconds? (t : Text) : Option Text := do
  let (_, t) ← readField? 2 60 t
  match t with
  | p :: d :: rest =>
    if p == Text.byte '.' && Text.isDigit d then return rest.dropWhile Text.isDigit
    else return t
  | t => return t

/-- What follows a time of day. Seconds may be missing. -/
def afterClock? (t : Text) : Option Text := do
  let (_, t) ← readField? 2 24 t
  let (_, t) ← readField? 2 60 (← expect? (Text.byte ':') t)
  match t with
  | c :: rest => if c == Text.byte ':' then afterSeconds? rest else return t
  | [] => return []

/-- A distance from universal time. -/
def isZone : Text → Bool
  | [] => false
  | s :: rest =>
    if s == Text.byte 'Z' then rest.isEmpty
    else if s == Text.byte '+' || s == Text.byte '-' then
      ((do
        let (_, t) ← readField? 2 25 rest
        let (_, t) ← readField? 2 61 (← expect? (Text.byte ':') t)
        return t.isEmpty) : Option Bool).getD false
    else false

/-- A date, a time of day, or a date and a time with or without a zone. -/
def isTime (t : Text) : Bool :=
  match afterDate? t with
  | some [] => true
  | some (s :: rest) =>
    s == Text.byte 'T' &&
      match afterClock? rest with
      | some after => after.isEmpty || isZone after
      | none => false
  | none => afterClock? t == some []

def isTimeByte (b : UInt8) : Bool := Text.isDigit b || ("-:Tt .Zz+" : Text).contains b

/-- The letters may be lower case, and a blank may stand between date and time. -/
def readTime? (t : Text) : Option (Value × Text) :=
  let written := t.takeWhile isTimeByte
  let trimmed := (written.reverse.dropWhile (· == 32)).reverse
  let normal := trimmed.map fun b => if b == 32 then Text.byte 'T' else Text.upperByte b
  if isTime normal then some (.time trimmed, t.drop written.length) else none

/-! ### Any of them -/

/-- A value that starts with a digit. -/
def readDigitFirst? (t : Text) : Option (Value × Text) :=
  let marked : Option Nat := match t with
    | z :: x :: _ =>
      if z != Text.byte '0' then none
      else if x == Text.byte 'b' then some 2
      else if x == Text.byte 'o' then some 8
      else if x == Text.byte 'x' then some 16
      else none
    | _ => none
  match marked with
  | some base => readMarked? base t
  | none =>
    match (t.dropWhile Text.isDigit).head? with
    | some b => if b == Text.byte '-' || b == Text.byte ':' then readTime? t else readDecimal? t
    | none => readDecimal? t

/-- A value that starts with a sign. -/
def readSigned? (sign : UInt8) (t : Text) : Option (Value × Text) :=
  match t with
  | [] => none
  | b :: _ => if Text.isDigit b then readDecimal? (sign :: t)
    else readFloatWord? (sign == Text.byte '-') t

/-- Reads a value without parts. -/
def readScalar? : Text → Option (Value × Text)
  | [] => none
  | b :: rest =>
    if b == doubleQuote || b == singleQuote then
      (readQuoted? b rest).map fun (t, after) => (.text t, after)
    else if Text.isDigit b then readDigitFirst? (b :: rest)
    else if b == Text.byte '-' || b == Text.byte '+' then readSigned? b rest
    else if ("true" : Text).isPrefixOf (b :: rest) then some (.bool true, rest.drop 3)
    else if ("false" : Text).isPrefixOf (b :: rest) then some (.bool false, rest.drop 4)
    else readFloatWord? false (b :: rest)

end ObjectMachine.Toml
