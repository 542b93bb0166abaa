import ObjectMachine.Double
import ObjectMachine.Text.Decimal

/-! Doubles read from text: decimal and hexadecimal numbers with an optional exponent,
infinities and NaN. The result is the nearest double; a number past the largest one is
told apart from a malformed text. -/

namespace ObjectMachine.Double

/-- Why a text is not a double. A number out of range still names the infinity it
rounds to. -/
inductive ReadError
  | malformed
  | outOfRange (nearest : Double)
  deriving DecidableEq

/-- The digits read so far: their value, how many of them stand after the point, and
what else was seen. -/
structure Mantissa where
  value : Nat := 0
  places : Nat := 0
  hasDigits : Bool := false
  hasPoint : Bool := false
  deriving DecidableEq

/-- Underscores are passed over here; `underscoresSeparate` judges where they stand. -/
def readMantissa (hex : Bool) (m : Mantissa) : Text → Mantissa × Text
  | [] => (m, [])
  | b :: rest =>
    if b == Text.byte '_' then readMantissa hex m rest
    else if b == Text.byte '.' && !m.hasPoint then
      readMantissa hex { m with hasPoint := true } rest
    else match Text.hexValue? b with
      | some digit =>
        if hex || digit < 10 then
          readMantissa hex
            { m with
              value := (if hex then 16 else 10) * m.value + digit
              places := if m.hasPoint then m.places + 1 else m.places
              hasDigits := true } rest
        else (m, b :: rest)
      | none => (m, b :: rest)

/-- Reads the digits of an exponent; past four digits the value no longer matters. -/
def readExponentDigits (e : Nat) : Text → Nat × Text
  | [] => (e, [])
  | b :: rest =>
    if b == Text.byte '_' then readExponentDigits e rest
    else if Text.isDigit b then
      readExponentDigits (if e < 10000 then 10 * e + (b.toNat - 48) else e) rest
    else (e, b :: rest)

/-- Reads an exponent marked by `mark`; `none` when the mark has no digit after it. -/
def readExponent? (mark : UInt8) : Text → Option (Option Int × Text)
  | [] => some (none, [])
  | b :: rest =>
    if Text.lowerByte b == mark then
      match Text.splitSign rest with
      | (negative, d :: digits) =>
        if Text.isDigit d then
          let (e, rest) := readExponentDigits 0 (d :: digits)
          some (some (if negative then -(e : Int) else e), rest)
        else none
      | (_, []) => none
    else some (none, b :: rest)

/-- The last kind of character met while judging underscores. -/
inductive Separation
  | start
  | digit
  | underscore
  | other
  deriving DecidableEq

def underscoresSeparateFrom (hex : Bool) : Separation → Text → Bool
  | seen, [] => seen != .underscore
  | seen, b :: rest =>
    if Text.isDigit b || (hex && (Text.hexValue? b).isSome) then
      underscoresSeparateFrom hex .digit rest
    else if b == Text.byte '_' then
      seen == .digit && underscoresSeparateFrom hex .underscore rest
    else seen != .underscore && underscoresSeparateFrom hex .other rest

/-- Every underscore stands between digits; a base mark counts as a digit. -/
def underscoresSeparate (t : Text) : Bool :=
  match (Text.splitSign t).2 with
  | z :: x :: rest =>
    let mark := Text.lowerByte x
    if z == Text.byte '0' && (mark == Text.byte 'b' || mark == Text.byte 'o'
        || mark == Text.byte 'x') then
      underscoresSeparateFrom (mark == Text.byte 'x') .digit rest
    else underscoresSeparateFrom false .start (z :: x :: rest)
  | rest => underscoresSeparateFrom false .start rest

/-- The number `value · 10 ^ exponent`. Exponents far outside the range are decided by
the position of the first digit alone. -/
def ofDecimal (negative : Bool) (value : Nat) (exponent : Int) : Double :=
  let point := (Nat.toDigits 10 value).length + exponent
  if value = 0 ∨ point < -330 then ofMagnitude negative 0
  else if 310 < point then infinity negative
  else if exponent < 0 then ofRatio negative value (Nat.pow 10 exponent.natAbs)
  else ofRatio negative (value * Nat.pow 10 exponent.natAbs) 1

/-- The number `value · 2 ^ exponent`. -/
def ofBinary (negative : Bool) (value : Nat) (exponent : Int) : Double :=
  if exponent < 0 then ofRatio negative value (Nat.pow 2 exponent.natAbs)
  else ofRatio negative (value * Nat.pow 2 exponent.natAbs) 1

/-- The words for infinity and NaN, in any case. Only infinity takes a sign. -/
def readWord? (t : Text) : Option Double :=
  let word := t.map Text.lowerByte
  let (negative, unsigned) := Text.splitSign word
  if unsigned = Text.ofString "inf" ∨ unsigned = Text.ofString "infinity" then
    some (infinity negative)
  else if word = Text.ofString "nan" then some nan
  else none

/-- Whether a number is written in base sixteen, and its text after the base mark. -/
def splitBase : Text → Bool × Text
  | z :: x :: d :: rest =>
    if z == Text.byte '0' && Text.lowerByte x == Text.byte 'x' then (true, d :: rest)
    else (false, z :: x :: d :: rest)
  | t => (false, t)

def readNumber (t : Text) : Except ReadError Double :=
  let (negative, unsigned) := Text.splitSign t
  let (hex, body) := splitBase unsigned
  let (m, afterDigits) := readMantissa hex {} body
  if !m.hasDigits then .error .malformed
  else match readExponent? (Text.byte (if hex then 'p' else 'e')) afterDigits with
    | some (exponent, []) =>
      if (hex && exponent.isNone)
          || (t.contains (Text.byte '_') && !underscoresSeparate t) then
        .error .malformed
      else
        let x :=
          if hex then ofBinary negative m.value (exponent.getD 0 - 4 * m.places)
          else ofDecimal negative m.value (exponent.getD 0 - m.places)
        if x.isInfinite then .error (.outOfRange x) else .ok x
    | _ => .error .malformed

/-- Reads a double from its text. -/
def read (t : Text) : Except ReadError Double :=
  match readWord? t with
  | some x => .ok x
  | none => readNumber t

end ObjectMachine.Double
