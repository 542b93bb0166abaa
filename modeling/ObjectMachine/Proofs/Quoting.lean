import ObjectMachine.Assembly.Token
import ObjectMachine.Proofs.Characters

/-! Quoted text read back. Every piece of a text is written either as it is or as an escape, and both
are read as the bytes of the piece, by the search for the closing quote as well as by the unquoting. -/

namespace ObjectMachine.Text

variable {b : UInt8} {c : Char} {t rest : Text}

/-! ### Hexadecimal digits -/

theorem hexValue?_hexDigit : ∀ n < 16, hexValue? (hexDigit n) = some n := by decide

/-- Reading goes on with the digits as the last ones of the value. -/
theorem readHex?_hexDigits (width more value n : Nat) (rest : Text) :
    readHex? (width + more) value (hexDigits width n ++ rest) =
      readHex? more (16 ^ width * value + n % 16 ^ width) rest := by
  induction width generalizing more n rest with
  | zero => simp [hexDigits, Nat.mod_one]
  | succ width ih =>
    have hdigit := hexValue?_hexDigit (n % 16) (Nat.mod_lt n (by decide))
    have hvalue : 16 * (16 ^ width * value + n / 16 % 16 ^ width) + n % 16 =
        16 ^ (width + 1) * value + n % 16 ^ (width + 1) := by
      rw [pow_succ', Nat.mod_mul]
      ring
    rw [hexDigits, List.append_assoc, Nat.add_right_comm, Nat.add_assoc, ih, List.singleton_append,
      readHex?, hdigit, Option.bind_eq_bind, Option.bind_some, hvalue]

theorem readHex?_of_lt {width n : Nat} (h : n < 16 ^ width) (rest : Text) :
    readHex? width 0 (hexDigits width n ++ rest) = some (n, rest) := by
  have hread := readHex?_hexDigits width 0 0 n rest
  rwa [Nat.mul_zero, Nat.zero_add, Nat.mod_eq_of_lt h, Nat.add_zero, readHex?] at hread

/-! ### Escapes -/

/-- Bytes that a quoted text can hold as they are. -/
def Plain (t : Text) : Prop := ∀ b ∈ t, b ≠ byte '"' ∧ b ≠ byte '\\' ∧ b ≠ byte '\n'

theorem plain_hexDigit : ∀ n < 16, hexDigit n ≠ byte '"' ∧ hexDigit n ≠ byte '\\' ∧
    hexDigit n ≠ byte '\n' := by decide

theorem plain_hexDigits (width n : Nat) : Plain (hexDigits width n) := by
  induction width generalizing n with
  | zero => simp [Plain, hexDigits]
  | succ width ih =>
    rw [hexDigits, Plain, List.forall_mem_append, List.forall_mem_singleton]
    exact ⟨ih (n / 16), plain_hexDigit (n % 16) (Nat.mod_lt n (by decide))⟩

/-- Only the ASCII characters have ASCII bytes. -/
theorem eq_of_mem_encodeChar (hb : b ∈ encodeChar c) (hlow : b.toNat < 0x80) :
    encodeChar c = [b] ∧ c.toNat = b.toNat := by
  rcases Utf8.encodeChar_cases c with ⟨a, h⟩ | ⟨a₁, a₂, h⟩ | ⟨a₁, a₂, a₃, h⟩ | ⟨a₁, a₂, a₃, a₄, h⟩
  · rw [h, List.mem_singleton] at hb
    exact hb ▸ ⟨h, (Utf8.encodeChar_eq_one.1 h).1⟩
  · have := (Utf8.encodeChar_eq_two.1 h).1
    rw [h] at hb
    rcases List.mem_pair.1 hb with rfl | rfl <;> omega
  · have := (Utf8.encodeChar_eq_three.1 h).1
    rw [h] at hb
    simp only [List.mem_cons, List.not_mem_nil, or_false] at hb
    rcases hb with rfl | rfl | rfl <;> omega
  · have := (Utf8.encodeChar_eq_four.1 h).1
    rw [h] at hb
    simp only [List.mem_cons, List.not_mem_nil, or_false] at hb
    rcases hb with rfl | rfl | rfl | rfl <;> omega

theorem encodeChar_of_lt (h : c.toNat < 0x80) : encodeChar c = [c.toNat.toUInt8] := by
  refine Utf8.encodeChar_eq_one.2 ?_
  rw [UInt8.toNat_ofNat', Nat.mod_eq_of_lt (by omega)]
  exact ⟨rfl, h⟩

/-- An escape with the bytes it stands for. -/
def Escapes (bytes t : Text) : Prop :=
  ∃ mark digits, t = byte '\\' :: mark :: digits ∧ mark ≠ byte '\n' ∧ Plain digits ∧
    ∀ rest, readEscape? (mark :: digits ++ rest) = some (bytes, rest)

theorem escapes_byte {n : Nat} (h : n < 256) :
    Escapes [n.toUInt8] (byte '\\' :: byte 'x' :: hexDigits 2 n) := by
  refine ⟨_, _, rfl, by decide, plain_hexDigits 2 n, fun rest => ?_⟩
  have hlt : n < 16 ^ 2 := h
  rw [readEscape?.eq_def]
  simp [readHex?_of_lt hlt rest]

theorem escapes_small (h : c.toNat < 16 ^ 4) :
    Escapes (encodeChar c) (byte '\\' :: byte 'u' :: hexDigits 4 c.toNat) := by
  have hvalid : c.toNat.isValidChar := c.valid
  refine ⟨_, _, rfl, by decide, plain_hexDigits 4 c.toNat, fun rest => ?_⟩
  rw [readEscape?.eq_def]
  simp [readHex?_of_lt h rest, hvalid, byte]

theorem escapes_large :
    Escapes (encodeChar c) (byte '\\' :: byte 'U' :: hexDigits 8 c.toNat) := by
  have hvalid : c.toNat.isValidChar := c.valid
  refine ⟨_, _, rfl, by decide, plain_hexDigits 8 c.toNat, fun rest => ?_⟩
  have hlt : c.toNat < 16 ^ 8 := by
    have := Utf8.valid c
    omega
  rw [readEscape?.eq_def]
  simp [readHex?_of_lt hlt rest, hvalid, byte]

theorem readEscape?_letter (rest : Text) :
    ∀ x ∈ letterEscapes, readEscape? (x.2 :: rest) = some ([x.1.toUInt8], rest) := by
  simp only [letterEscapes, List.forall_mem_cons, List.not_mem_nil, false_implies, implies_true, and_true]
  exact ⟨rfl, rfl, rfl, rfl, rfl, rfl, rfl⟩

theorem letterEscapes_low : ∀ x ∈ letterEscapes, x.1 < 0x80 ∧ x.2 ≠ byte '\n' := by decide

theorem escapes_letter {letter : UInt8} (h : letterEscapes.lookup c.toNat = some letter) :
    Escapes (encodeChar c) [byte '\\', letter] := by
  have hmem : (c.toNat, letter) ∈ letterEscapes := by
    obtain ⟨before, after, heq, -⟩ := List.lookup_eq_some_iff.1 h
    rw [heq]
    simp
  obtain ⟨hlow, hline⟩ := letterEscapes_low _ hmem
  rw [encodeChar_of_lt hlow]
  exact ⟨_, _, rfl, hline, by simp [Plain], fun rest => readEscape?_letter rest _ hmem⟩

theorem escapes_self (h : c = '"' ∨ c = '\\') : Escapes (encodeChar c) [byte '\\', byte c] := by
  rcases h with rfl | rfl
  · exact ⟨_, _, rfl, by decide, by simp [Plain], fun rest => rfl⟩
  · exact ⟨_, _, rfl, by decide, by simp [Plain], fun rest => rfl⟩

theorem not_isPrintable_newline : isPrintable '\n' = false := by decide

/-- A printable character that is written as it is. -/
theorem plain_encodeChar (hquote : ¬(c = '"' ∨ c = '\\')) (h : isPrintable c) : Plain (encodeChar c) := by
  have hnot : ∀ x : Char, x.toNat < 0x80 → c ≠ x → ∀ b ∈ encodeChar c, b ≠ byte x := by
    rintro x hx hne b hb rfl
    have hbyte : (byte x).toNat = x.toNat := by
      rw [byte, UInt8.toNat_ofNat', Nat.mod_eq_of_lt (by omega)]
    have heq := (eq_of_mem_encodeChar hb (by omega)).2
    exact hne (Char.toNat_inj.1 (heq.trans hbyte))
  rw [not_or] at hquote
  refine fun b hb => ⟨hnot _ (by decide) hquote.1 b hb, hnot _ (by decide) hquote.2 b hb,
    hnot _ (by decide) ?_ b hb⟩
  rintro rfl
  rw [not_isPrintable_newline] at h
  cases h

/-- A piece is written as it is or as an escape. -/
theorem escapePiece_cases (p : Piece) :
    (∃ c, p = .char c ∧ escapePiece p = encodeChar c ∧ Plain (encodeChar c)) ∨
      Escapes p.bytes (escapePiece p) := by
  cases p with
  | stray b =>
    refine .inr ?_
    simpa [escapePiece, Piece.bytes] using escapes_byte b.toNat_lt
  | char c =>
    simp only [escapePiece, Piece.bytes, escapeChar]
    by_cases hquote : c = '"' ∨ c = '\\'
    · rw [if_pos hquote]
      exact .inr (escapes_self hquote)
    rw [if_neg hquote]
    by_cases hprintable : isPrintable c
    · rw [if_pos hprintable]
      exact .inl ⟨c, rfl, rfl, plain_encodeChar hquote hprintable⟩
    rw [if_neg hprintable]
    refine .inr ?_
    cases hletter : letterEscapes.lookup c.toNat with
    | some letter => exact escapes_letter hletter
    | none =>
      dsimp only
      split_ifs with hlow hsmall
      · have hlt : c.toNat < 0x80 := by omega
        rw [encodeChar_of_lt hlt]
        exact escapes_byte (by omega)
      · exact escapes_small hsmall
      · exact escapes_large

theorem unbroken_escapePiece (p : Piece) : ∀ b ∈ escapePiece p, b ≠ byte '\n' := by
  rcases escapePiece_cases p with ⟨c, -, heq, hplain⟩ | ⟨mark, digits, heq, hmark, hplain, -⟩
  · exact heq ▸ fun b hb => (hplain b hb).2.2
  · rw [heq, List.forall_mem_cons, List.forall_mem_cons]
    exact ⟨by decide, hmark, fun b hb => (hplain b hb).2.2⟩

/-- A quoted text stays on its line. -/
theorem unbroken_quote (t : Text) : ∀ b ∈ quote t, b ≠ byte '\n' := by
  simp only [quote, List.forall_mem_append, List.forall_mem_singleton, List.forall_mem_flatMap]
  exact ⟨⟨by decide, fun p _ => unbroken_escapePiece p⟩, by decide⟩

/-! ### Unquoting -/

theorem escapePiece_ne_nil (p : Piece) : escapePiece p ≠ [] := by
  rcases escapePiece_cases p with ⟨c, -, heq, -⟩ | ⟨mark, digits, heq, -⟩
  · exact heq ▸ encodeChar_ne_nil c
  · exact heq ▸ List.cons_ne_nil _ _

theorem readBody?_escapePiece (steps : Nat) (p : Piece) (rest : Text) :
    readBody? (steps + 1) (escapePiece p ++ rest) = (readBody? steps rest).map (p.bytes ++ ·) := by
  rcases escapePiece_cases p with ⟨c, rfl, heq, hplain⟩ | ⟨mark, digits, heq, -, -, hreads⟩
  · obtain ⟨b, t, ht⟩ := List.exists_cons_of_ne_nil (encodeChar_ne_nil c)
    have hfirst := Utf8.first?_encodeChar c rest
    obtain ⟨hquote, hescape, hline⟩ := hplain b (ht ▸ List.mem_cons_self)
    rw [heq, Piece.bytes, ht, List.cons_append, readBody?, if_neg (by simpa using hquote),
      if_neg (by simpa using hline), if_neg (by simpa using hescape)]
    split_ifs with hlow
    · obtain ⟨hone, -⟩ := eq_of_mem_encodeChar (ht ▸ List.mem_cons_self) hlow
      obtain rfl := (List.cons.inj (ht.symm.trans hone)).2
      rfl
    · rw [ht, List.cons_append, List.length_cons] at hfirst
      rw [hfirst]
      dsimp only
      rw [Nat.add_sub_cancel, List.drop_left, ht]
  · rw [heq, List.cons_append, readBody?, if_neg (by decide), if_neg (by decide), if_pos (by decide),
      hreads, Option.bind_eq_bind, Option.bind_some]
    cases h : readBody? steps rest <;> simp [h]

theorem readBody?_escapePieces (steps : Nat) (ps : List Piece) (rest : Text) :
    readBody? (steps + ps.length) (ps.flatMap escapePiece ++ rest) =
      (readBody? steps rest).map (ps.flatMap Piece.bytes ++ ·) := by
  induction ps with
  | nil => cases h : readBody? steps rest <;> simp [h]
  | cons p ps ih =>
    rw [List.flatMap_cons, List.append_assoc, List.length_cons, ← Nat.add_assoc, readBody?_escapePiece,
      ih, Option.map_map, List.flatMap_cons]
    simp [Function.comp_def]

theorem length_le_escapePieces (ps : List Piece) : ps.length ≤ (ps.flatMap escapePiece).length := by
  induction ps with
  | nil => exact Nat.le_refl 0
  | cons p ps ih =>
    have hpos := List.length_pos_iff.2 (escapePiece_ne_nil p)
    rw [List.flatMap_cons, List.length_append, List.length_cons]
    omega

/-- What was quoted is read back, whatever bytes it holds. -/
theorem unquote?_quote (t : Text) : unquote? (quote t) = some t := by
  have hlength := length_le_escapePieces t.pieces
  obtain ⟨more, hmore⟩ := Nat.exists_eq_add_of_le hlength
  have hsteps : (t.pieces.flatMap escapePiece ++ [byte '"']).length + 1 =
      (more + 2) + t.pieces.length := by
    rw [List.length_append, List.length_singleton]
    omega
  have hend : readBody? (more + 2) [byte '"'] = some [] := rfl
  rw [quote, List.append_assoc, List.singleton_append, unquote?, if_pos (by decide), hsteps,
    readBody?_escapePieces, hend, Option.map_some, List.append_nil, flatMap_pieces]

/-! ### The closing quote -/

theorem closeQuote?_plain (h : Plain t) (rest : Text) : Assembly.closeQuote? (t ++ rest) =
    (Assembly.closeQuote? rest).map fun x => (t ++ x.1, x.2) := by
  induction t with
  | nil => simp
  | cons b t ih =>
    obtain ⟨⟨hquote, hescape, -⟩, ht⟩ := List.forall_mem_cons.1 h
    rw [List.cons_append, Assembly.closeQuote?.eq_def]
    dsimp only
    rw [if_neg (by simpa using hquote), if_neg (by simpa using hescape), ih ht, Option.map_map]
    rfl

theorem closeQuote?_escapePiece (p : Piece) (rest : Text) : Assembly.closeQuote? (escapePiece p ++ rest) =
    (Assembly.closeQuote? rest).map fun x => (escapePiece p ++ x.1, x.2) := by
  rcases escapePiece_cases p with ⟨c, -, heq, hplain⟩ | ⟨mark, digits, heq, -, hplain, -⟩
  · exact heq ▸ closeQuote?_plain hplain rest
  · rw [heq, List.cons_append, List.cons_append, Assembly.closeQuote?, if_neg (by decide),
      if_pos (by decide), closeQuote?_plain hplain, Option.map_map]
    rfl

theorem closeQuote?_escapePieces (ps : List Piece) (rest : Text) :
    Assembly.closeQuote? (ps.flatMap escapePiece ++ byte '"' :: rest) =
      some (ps.flatMap escapePiece, rest) := by
  induction ps with
  | nil => simp [Assembly.closeQuote?.eq_def]
  | cons p ps ih =>
    rw [List.flatMap_cons, List.append_assoc, closeQuote?_escapePiece, ih]
    rfl

/-- A quoted text at the front of a line, its opening quote taken off. -/
theorem readQuoted_quote (t rest : Text) :
    Assembly.readQuoted ((quote t).tail ++ rest) = .ok (t, rest) := by
  have htail : (quote t).tail ++ rest = t.pieces.flatMap escapePiece ++ byte '"' :: rest := by
    simp [quote]
  have hquote : [byte '"'] ++ t.pieces.flatMap escapePiece ++ [byte '"'] = quote t := rfl
  rw [htail, Assembly.readQuoted, closeQuote?_escapePieces]
  dsimp only
  rw [hquote, unquote?_quote]

end ObjectMachine.Text
