import Mathlib
import ObjectMachine.Text.Utf8

/-! UTF-8 read and written. The first character of a text is the one whose bytes the text starts with,
so the pieces of a text are all of it. -/

namespace ObjectMachine.Text

namespace Utf8

variable {a b c d : UInt8} {x : Char} {t rest : Text} {width : Nat}

theorem ofNat_eq_iff {n : Nat} (h : n.isValidChar) : Char.ofNat n = x ↔ n = x.toNat := by
  rw [← Char.toNat_inj, Char.toNat_ofNat, if_pos h]

theorem toNat_eq_of_byte {n : Nat} (h : n < 256) : UInt8.ofNat n = b ↔ n = b.toNat := by
  rw [← UInt8.toNat_inj, UInt8.toNat_ofNat', Nat.mod_eq_of_lt h]

theorem valid (x : Char) : x.toNat < 0xD800 ∨ 0xDFFF < x.toNat ∧ x.toNat < 0x110000 := x.valid

theorem encodeChar_eq_one : encodeChar x = [a] ↔ x.toNat = a.toNat ∧ a.toNat < 0x80 := by
  have hx : x.val.toNat = x.toNat := rfl
  simp only [encodeChar, String.utf8EncodeChar, hx]
  have := a.toNat_lt
  split_ifs
  · rw [List.singleton_inj, toNat_eq_of_byte (by omega)]
    omega
  all_goals simp; omega

theorem encodeChar_eq_two : encodeChar x = [a, b] ↔
    (0xC2 ≤ a.toNat ∧ a.toNat ≤ 0xDF ∧ 0x80 ≤ b.toNat ∧ b.toNat ≤ 0xBF) ∧
      x.toNat = (a.toNat - 0xC0) * 64 + (b.toNat - 0x80) := by
  have hx : x.val.toNat = x.toNat := rfl
  simp only [encodeChar, String.utf8EncodeChar, hx]
  split_ifs
  · simp
    omega
  · simp only [List.cons.injEq, and_true]
    rw [toNat_eq_of_byte (by omega), toNat_eq_of_byte (by omega)]
    omega
  all_goals simp; omega

theorem encodeChar_eq_three : encodeChar x = [a, b, c] ↔
    (0xE0 ≤ a.toNat ∧ a.toNat ≤ 0xEF ∧ 0x80 ≤ b.toNat ∧ b.toNat ≤ 0xBF ∧ 0x80 ≤ c.toNat ∧
      c.toNat ≤ 0xBF ∧ (a.toNat = 0xE0 → 0xA0 ≤ b.toNat) ∧ (a.toNat = 0xED → b.toNat ≤ 0x9F)) ∧
      x.toNat = (a.toNat - 0xE0) * 4096 + (b.toNat - 0x80) * 64 + (c.toNat - 0x80) := by
  have hx : x.val.toNat = x.toNat := rfl
  have hvalid := valid x
  simp only [encodeChar, String.utf8EncodeChar, hx]
  split_ifs
  · simp
    omega
  · simp
    omega
  · simp only [List.cons.injEq, and_true]
    rw [toNat_eq_of_byte (by omega), toNat_eq_of_byte (by omega), toNat_eq_of_byte (by omega)]
    omega
  · simp
    omega

theorem encodeChar_eq_four : encodeChar x = [a, b, c, d] ↔
    (0xF0 ≤ a.toNat ∧ a.toNat ≤ 0xF4 ∧ 0x80 ≤ b.toNat ∧ b.toNat ≤ 0xBF ∧ 0x80 ≤ c.toNat ∧
      c.toNat ≤ 0xBF ∧ 0x80 ≤ d.toNat ∧ d.toNat ≤ 0xBF ∧ (a.toNat = 0xF0 → 0x90 ≤ b.toNat) ∧
      (a.toNat = 0xF4 → b.toNat ≤ 0x8F)) ∧
      x.toNat = (a.toNat - 0xF0) * 262144 + (b.toNat - 0x80) * 4096 + (c.toNat - 0x80) * 64 +
        (d.toNat - 0x80) := by
  have hx : x.val.toNat = x.toNat := rfl
  have hvalid := valid x
  simp only [encodeChar, String.utf8EncodeChar, hx]
  split_ifs
  · simp
    omega
  · simp
    omega
  · simp
    omega
  · simp only [List.cons.injEq, and_true]
    rw [toNat_eq_of_byte (by omega), toNat_eq_of_byte (by omega), toNat_eq_of_byte (by omega),
      toNat_eq_of_byte (by omega)]
    omega

theorem isTail_iff : isTail b ↔ 0x80 ≤ b.toNat ∧ b.toNat ≤ 0xBF := by
  simp [isTail, UInt8.le_iff_toNat_le]

theorem toNat_ite {p : Prop} [Decidable p] : (if p then a else b).toNat = if p then a.toNat else b.toNat :=
  apply_ite _ _ _ _

theorem some_ofNat_iff {n : Nat} {p : Bool} {P : Prop} (hp : p = true ↔ P) (h : P → n.isValidChar) :
    (if p then some (Char.ofNat n) else none) = some x ↔ P ∧ x.toNat = n := by
  rw [← hp] at h ⊢
  split
  · next hcond => rw [Option.some_inj, ofNat_eq_iff (h hcond), and_iff_right hcond, eq_comm]
  · next hcond => simp [hcond]

theorem two?_eq_some : two? a b = some x ↔ encodeChar x = [a, b] := by
  have hform : (0xC2 ≤ a && a ≤ 0xDF && isTail b) = true ↔
      0xC2 ≤ a.toNat ∧ a.toNat ≤ 0xDF ∧ 0x80 ≤ b.toNat ∧ b.toNat ≤ 0xBF := by
    simp only [Bool.and_eq_true, decide_eq_true_eq, isTail_iff, UInt8.le_iff_toNat_le,
      UInt8.reduceToNat, and_assoc]
  rw [encodeChar_eq_two]
  exact some_ofNat_iff hform fun h => by
    simp only [Nat.isValidChar]
    omega

theorem three?_eq_some : three? a b c = some x ↔ encodeChar x = [a, b, c] := by
  have hform : (0xE0 ≤ a && a ≤ 0xEF && (if a == 0xE0 then 0xA0 else 0x80) ≤ b &&
      b ≤ (if a == 0xED then 0x9F else 0xBF) && isTail c) = true ↔
      0xE0 ≤ a.toNat ∧ a.toNat ≤ 0xEF ∧ 0x80 ≤ b.toNat ∧ b.toNat ≤ 0xBF ∧ 0x80 ≤ c.toNat ∧
        c.toNat ≤ 0xBF ∧ (a.toNat = 0xE0 → 0xA0 ≤ b.toNat) ∧ (a.toNat = 0xED → b.toNat ≤ 0x9F) := by
    simp only [Bool.and_eq_true, decide_eq_true_eq, isTail_iff, UInt8.le_iff_toNat_le, beq_iff_eq,
      ← UInt8.toNat_inj, toNat_ite, UInt8.reduceToNat]
    split_ifs <;> omega
  rw [encodeChar_eq_three]
  exact some_ofNat_iff hform fun h => by
    simp only [Nat.isValidChar]
    omega

theorem four?_eq_some : four? a b c d = some x ↔ encodeChar x = [a, b, c, d] := by
  have hform : (0xF0 ≤ a && a ≤ 0xF4 && (if a == 0xF0 then 0x90 else 0x80) ≤ b &&
      b ≤ (if a == 0xF4 then 0x8F else 0xBF) && isTail c && isTail d) = true ↔
      0xF0 ≤ a.toNat ∧ a.toNat ≤ 0xF4 ∧ 0x80 ≤ b.toNat ∧ b.toNat ≤ 0xBF ∧ 0x80 ≤ c.toNat ∧
        c.toNat ≤ 0xBF ∧ 0x80 ≤ d.toNat ∧ d.toNat ≤ 0xBF ∧ (a.toNat = 0xF0 → 0x90 ≤ b.toNat) ∧
        (a.toNat = 0xF4 → b.toNat ≤ 0x8F) := by
    simp only [Bool.and_eq_true, decide_eq_true_eq, isTail_iff, UInt8.le_iff_toNat_le, beq_iff_eq,
      ← UInt8.toNat_inj, toNat_ite, UInt8.reduceToNat]
    split_ifs <;> omega
  rw [encodeChar_eq_four]
  exact some_ofNat_iff hform fun h => by
    simp only [Nat.isValidChar]
    omega

/-- A character takes one to four bytes. -/
theorem encodeChar_cases (x : Char) : (∃ a, encodeChar x = [a]) ∨ (∃ a b, encodeChar x = [a, b]) ∨
    (∃ a b c, encodeChar x = [a, b, c]) ∨ ∃ a b c d, encodeChar x = [a, b, c, d] := by
  simp only [encodeChar, String.utf8EncodeChar]
  split_ifs
  · exact .inl ⟨_, rfl⟩
  · exact .inr (.inl ⟨_, _, rfl⟩)
  · exact .inr (.inr (.inl ⟨_, _, _, rfl⟩))
  · exact .inr (.inr (.inr ⟨_, _, _, _, rfl⟩))

theorem two?_eq_none (h : 0xDF < a.toNat) : two? a b = none := by
  by_contra hne
  obtain ⟨y, hy⟩ := Option.ne_none_iff_exists'.1 hne
  have := (encodeChar_eq_two.1 (two?_eq_some.1 hy)).1
  omega

theorem three?_eq_none (h : 0xEF < a.toNat) : three? a b c = none := by
  by_contra hne
  obtain ⟨y, hy⟩ := Option.ne_none_iff_exists'.1 hne
  have := (encodeChar_eq_three.1 (three?_eq_some.1 hy)).1
  omega

theorem not_lt_of_toNat (h : 0x80 ≤ a.toNat) : ¬a < 0x80 := by
  rw [UInt8.lt_iff_toNat_lt]
  exact Nat.not_lt.2 h

/-- What is written for a character is read as that character, whatever follows. -/
theorem first?_encodeChar (x : Char) (rest : Text) :
    first? (encodeChar x ++ rest) = some (x, (encodeChar x).length) := by
  rcases encodeChar_cases x with ⟨a, h⟩ | ⟨a, b, h⟩ | ⟨a, b, c, h⟩ | ⟨a, b, c, d, h⟩
  · obtain ⟨hx, ha⟩ := encodeChar_eq_one.1 h
    have hlow : a < 0x80 := by rwa [UInt8.lt_iff_toNat_lt]
    rw [h, List.cons_append, first?.eq_def]
    dsimp only
    rw [if_pos hlow, ← hx, Char.ofNat_toNat]
    rfl
  · have htwo := two?_eq_some.2 h
    obtain ⟨hrange, -⟩ := encodeChar_eq_two.1 h
    have hhigh := not_lt_of_toNat (a := a) (by omega)
    rw [h]
    rcases rest with _ | ⟨c, _ | ⟨d, rest⟩⟩ <;> simp [first?, hhigh, htwo]
  · have hthree := three?_eq_some.2 h
    obtain ⟨hrange, -⟩ := encodeChar_eq_three.1 h
    have hhigh := not_lt_of_toNat (a := a) (by omega)
    have htwo := two?_eq_none (a := a) (b := b) (by omega)
    rw [h]
    rcases rest with _ | ⟨d, rest⟩ <;> simp [first?, hhigh, htwo, hthree]
  · have hfour := four?_eq_some.2 h
    obtain ⟨hrange, -⟩ := encodeChar_eq_four.1 h
    have hhigh := not_lt_of_toNat (a := a) (by omega)
    have htwo := two?_eq_none (a := a) (b := b) (by omega)
    have hthree := three?_eq_none (a := a) (b := b) (c := c) (by omega)
    rw [h]
    simp [first?, hhigh, htwo, hthree, hfour]

/-- What is read as a character is what is written for it. -/
theorem encodeChar_prefix (h : first? t = some (x, width)) :
    encodeChar x <+: t ∧ width = (encodeChar x).length := by
  rcases t with _ | ⟨a, t⟩
  · cases h
  rw [first?.eq_def] at h
  dsimp only at h
  split_ifs at h with hlow
  · cases h
    have ha : a.toNat < 0x80 := hlow
    have hx : encodeChar (Char.ofNat a.toNat) = [a] := by
      refine encodeChar_eq_one.2 ⟨?_, ha⟩
      rw [Char.toNat_ofNat, if_pos (.inl (by omega))]
    rw [hx]
    exact ⟨by simp, rfl⟩
  · have htwo : ∀ b rest, (two? a b).map (·, 2) = some (x, width) →
        encodeChar x <+: a :: b :: rest ∧ width = (encodeChar x).length := by
      intro b rest h
      obtain ⟨y, hy, heq⟩ := Option.map_eq_some_iff.1 h
      cases heq
      rw [two?_eq_some.1 hy]
      exact ⟨⟨rest, rfl⟩, rfl⟩
    have hthree : ∀ b c rest, (three? a b c).map (·, 3) = some (x, width) →
        encodeChar x <+: a :: b :: c :: rest ∧ width = (encodeChar x).length := by
      intro b c rest h
      obtain ⟨y, hy, heq⟩ := Option.map_eq_some_iff.1 h
      cases heq
      rw [three?_eq_some.1 hy]
      exact ⟨⟨rest, rfl⟩, rfl⟩
    have hfour : ∀ b c d rest, (four? a b c d).map (·, 4) = some (x, width) →
        encodeChar x <+: a :: b :: c :: d :: rest ∧ width = (encodeChar x).length := by
      intro b c d rest h
      obtain ⟨y, hy, heq⟩ := Option.map_eq_some_iff.1 h
      cases heq
      rw [four?_eq_some.1 hy]
      exact ⟨⟨rest, rfl⟩, rfl⟩
    rcases t with _ | ⟨b, _ | ⟨c, _ | ⟨d, t⟩⟩⟩
    · cases h
    · exact htwo b [] h
    · rcases Option.or_eq_some_iff.1 h with h | ⟨-, h⟩
      · exact htwo b [c] h
      · exact hthree b c [] h
    · rcases Option.or_eq_some_iff.1 h with h | ⟨-, h⟩
      · exact htwo b (c :: d :: t) h
      · rcases Option.or_eq_some_iff.1 h with h | ⟨-, h⟩
        · exact hthree b c (d :: t) h
        · exact hfour b c d t h

end Utf8

/-! ### Pieces -/

def Piece.bytes : Piece → Text
  | char c => encodeChar c
  | stray b => [b]

theorem encodeChar_ne_nil (c : Char) : encodeChar c ≠ [] := by
  rcases Utf8.encodeChar_cases c with ⟨_, h⟩ | ⟨_, _, h⟩ | ⟨_, _, _, h⟩ | ⟨_, _, _, _, h⟩ <;> simp [h]

theorem piecesAfter_append (s t : Text) : piecesAfter s.length (s ++ t) = pieces t := by
  induction s with
  | nil => rfl
  | cons b s ih => rwa [List.cons_append, List.length_cons, piecesAfter]

theorem pieces_encodeChar (c : Char) (rest : Text) :
    pieces (encodeChar c ++ rest) = .char c :: pieces rest := by
  have hfirst := Utf8.first?_encodeChar c rest
  obtain ⟨a, t, h⟩ := List.exists_cons_of_ne_nil (encodeChar_ne_nil c)
  rw [h, List.cons_append] at hfirst ⊢
  rw [pieces, piecesAfter, hfirst]
  exact congrArg (Piece.char c :: ·) (piecesAfter_append t rest)

theorem pieces_stray {b : UInt8} {rest : Text} (h : Utf8.first? (b :: rest) = none) :
    pieces (b :: rest) = .stray b :: pieces rest := by
  rw [pieces, piecesAfter, h]
  rfl

/-- The pieces of a text are all of it. -/
theorem flatMap_pieces (t : Text) : t.pieces.flatMap Piece.bytes = t := by
  induction h : t.length using Nat.strong_induction_on generalizing t with
  | _ n ih =>
    rcases t with _ | ⟨b, rest⟩
    · rfl
    cases hfirst : Utf8.first? (b :: rest) with
    | none =>
      rw [pieces_stray hfirst, List.flatMap_cons, ih rest.length (by simp [← h]) rest rfl]
      rfl
    | some found =>
      obtain ⟨c, width⟩ := found
      obtain ⟨⟨after, heq⟩, -⟩ := Utf8.encodeChar_prefix hfirst
      have hpos := List.length_pos_iff.2 (encodeChar_ne_nil c)
      rw [← heq, List.length_append] at h
      rw [← heq, pieces_encodeChar, List.flatMap_cons, ih after.length (by omega) after rfl]
      rfl

end ObjectMachine.Text
