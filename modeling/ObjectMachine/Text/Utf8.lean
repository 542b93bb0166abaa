import ObjectMachine.Text

/-! UTF-8 in texts. A text is cut into pieces from the front: a well-formed character,
or a single byte that starts none. A text is valid when it has no such byte. -/

namespace ObjectMachine.Text

/-- A piece of a text: a character or a byte outside any character. -/
inductive Piece
  | char (c : Char)
  | stray (b : UInt8)
  deriving DecidableEq

namespace Utf8

def isTail (b : UInt8) : Bool := 0x80 ≤ b && b ≤ 0xBF

/-- The character of a two-byte sequence. -/
def two? (a b : UInt8) : Option Char :=
  if 0xC2 ≤ a && a ≤ 0xDF && isTail b then
    some (Char.ofNat ((a.toNat - 0xC0) * 64 + (b.toNat - 0x80)))
  else none

/-- The character of a three-byte sequence; overlong forms and surrogates are refused. -/
def three? (a b c : UInt8) : Option Char :=
  let low : UInt8 := if a == 0xE0 then 0xA0 else 0x80
  let high : UInt8 := if a == 0xED then 0x9F else 0xBF
  if 0xE0 ≤ a && a ≤ 0xEF && low ≤ b && b ≤ high && isTail c then
    some (Char.ofNat ((a.toNat - 0xE0) * 4096 + (b.toNat - 0x80) * 64 + (c.toNat - 0x80)))
  else none

/-- The character of a four-byte sequence, up to the last code point. -/
def four? (a b c d : UInt8) : Option Char :=
  let low : UInt8 := if a == 0xF0 then 0x90 else 0x80
  let high : UInt8 := if a == 0xF4 then 0x8F else 0xBF
  if 0xF0 ≤ a && a ≤ 0xF4 && low ≤ b && b ≤ high && isTail c && isTail d then
    some (Char.ofNat ((a.toNat - 0xF0) * 262144 + (b.toNat - 0x80) * 4096
      + (c.toNat - 0x80) * 64 + (d.toNat - 0x80)))
  else none

/-- The first character of a text and its width in bytes. -/
def first? : Text → Option (Char × Nat)
  | [] => none
  | a :: rest =>
    if a < 0x80 then some (Char.ofNat a.toNat, 1)
    else match rest with
      | b :: c :: d :: _ =>
        ((two? a b).map (·, 2)).or (((three? a b c).map (·, 3)).or ((four? a b c d).map (·, 4)))
      | [b, c] => ((two? a b).map (·, 2)).or ((three? a b c).map (·, 3))
      | [b] => (two? a b).map (·, 2)
      | [] => none

end Utf8

/-- Cuts a text into pieces; `skip` bytes of the character before are still to pass. -/
def piecesAfter : (skip : Nat) → Text → List Piece
  | _, [] => []
  | skip + 1, _ :: rest => piecesAfter skip rest
  | 0, a :: rest =>
    match Utf8.first? (a :: rest) with
    | some (c, width) => .char c :: piecesAfter (width - 1) rest
    | none => .stray a :: piecesAfter 0 rest

/-- The characters and stray bytes of a text in order. -/
def pieces (t : Text) : List Piece := piecesAfter 0 t

def encodeChar (c : Char) : Text := String.utf8EncodeChar c

def Piece.char? : Piece → Option Char
  | char c => some c
  | stray _ => none

/-- Every byte belongs to a well-formed character. -/
def isValid (t : Text) : Bool :=
  t.all (· < 0x80) || (pieces t).all (·.char?.isSome)

/-- The text as a string, when it is valid. -/
def toString? (t : Text) : Option String := ((pieces t).mapM Piece.char?).map String.ofList

end ObjectMachine.Text
