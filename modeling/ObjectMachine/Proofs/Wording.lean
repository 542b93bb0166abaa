import ObjectMachine.Proofs.Assembling
import ObjectMachine.Proofs.Numerals
import ObjectMachine.Proofs.Quoting

/-! Lines written and cut into words again. A text that is written for a token is read as that token
wherever a word may stand, so a line of them is read word by word. -/

namespace ObjectMachine.Assembly

variable {b : UInt8} {t line rest : Text} {ts : List Token}

/-! ### Steps -/

/-- The steps allowed for a line make no difference once there are enough. -/
theorem splitWords_of_le {steps steps' : Nat} (h : line.length ≤ steps) (h' : line.length ≤ steps') :
    splitWords steps line = splitWords steps' line := by
  induction steps generalizing line steps' with
  | zero =>
    obtain rfl := List.length_eq_zero_iff.1 (Nat.le_zero.1 h)
    cases steps' <;> rfl
  | succ steps ih =>
    rcases line with _ | ⟨b, line⟩
    · cases steps' <;> rfl
    obtain ⟨steps', rfl⟩ : ∃ n, steps' = n + 1 := Nat.exists_eq_add_one_of_ne_zero (by
      rw [List.length_cons] at h'
      omega)
    have hnext : ∀ t : Text, t.length ≤ line.length → splitWords steps t = splitWords steps' t := by
      intro t ht
      rw [List.length_cons] at h h'
      exact ih (by omega) (by omega)
    have hquoted : ∀ t, t.length ≤ line.length → ∀ kind : Text → Token,
        (readQuoted t >>= fun x => splitWords steps x.2 >>= fun ts => pure (kind x.1 :: ts)) =
          (readQuoted t >>= fun x => splitWords steps' x.2 >>= fun ts => pure (kind x.1 :: ts)) := by
      intro t ht kind
      cases hread : readQuoted t with
      | error e => rfl
      | ok found =>
        obtain ⟨value, rest⟩ := found
        have hle := (suffix_of_readQuoted hread).length_le
        have hrest := hnext rest (hle.trans ht)
        simp only [bind, Except.bind]
        rw [hrest]
    rw [splitWords, splitWords]
    split_ifs
    · exact hnext line le_rfl
    · rfl
    · exact hquoted line le_rfl .string
    · exact hquoted line.tail (by simp) .symbol
    · rw [hnext _ (List.dropWhile_suffix _).length_le]

theorem tokens_blank (hb : isBlank b) (rest : Text) : tokens (b :: rest) = tokens rest := by
  rw [tokens, List.length_cons, splitWords, if_pos hb, tokens]

/-- The steps allowed for a line are enough for its end. -/
theorem splitWords_suffix (h : rest <:+ line) : splitWords line.length rest = tokens rest :=
  splitWords_of_le h.length_le le_rfl

/-! ### Words -/

/-- No word goes on into the text. -/
def Ends (t : Text) : Prop := ∀ b ∈ t.head?, endsWord b

theorem ends_nil : Ends [] := by simp [Ends]

theorem ends_blank (hb : isBlank b) (t : Text) : Ends (b :: t) := by simp [Ends, endsWord, hb]

/-- A text stands for a token in any line. -/
structure Token.WrittenAs (token : Token) (t : Text) : Prop where
  unbroken : ∀ b ∈ t, b ≠ Text.byte '\n'
  reads : ∀ rest ts, Ends rest → tokens rest = .ok ts → tokens (t ++ rest) = .ok (token :: ts)

/-- A word at the front of a line, which goes on with what ends the word. -/
theorem tokens_word_append (h : t.IsWord) (hends : Ends rest) :
    tokens (t ++ rest) = (tokens rest).map (.word t :: ·) := by
  obtain ⟨b, w, rfl⟩ := List.exists_cons_of_ne_nil h.nonempty
  obtain ⟨hb, hw⟩ := List.forall_mem_cons.1 h.whole
  simp only [endsWord, Bool.or_eq_false_iff] at hb
  have hquote : ¬(b == Text.byte '"') = true := by simpa using h.unquoted
  have hsymbol : ¬(b == Text.byte ':' && (w ++ rest).head? == some (Text.byte '"')) = true := by
    rw [Bool.and_eq_true, beq_iff_eq, beq_iff_eq]
    rintro ⟨rfl, hnext⟩
    rcases w with _ | ⟨c, w⟩
    · exact absurd (hends _ hnext) (by decide)
    · obtain rfl : c = Text.byte '"' := by simpa using hnext
      exact h.unmarked ⟨w, rfl⟩
  have hwhole : ∀ c ∈ w, (!endsWord c) = true := fun c hc => by simp [hw c hc]
  have hstop : rest.takeWhile (!endsWord ·) = [] ∧ rest.dropWhile (!endsWord ·) = rest := by
    cases rest with
    | nil => exact ⟨rfl, rfl⟩
    | cons c rest =>
      have hc : endsWord c = true := hends c rfl
      simp [hc]
  rw [List.cons_append, tokens, List.length_cons, splitWords, if_neg (by simp [hb.1]),
    if_neg (by simp [hb.2]), if_neg hquote, if_neg hsymbol, List.takeWhile_append_of_pos hwhole,
    List.dropWhile_append_of_pos hwhole, hstop.1, hstop.2, List.append_nil,
    splitWords_suffix (List.suffix_append w rest)]
  cases tokens rest <;> rfl

/-- A quoted text at the front of a line. -/
theorem tokens_string {value : Text} (h : readQuoted line = .ok (value, rest)) :
    tokens (Text.byte '"' :: line) = (tokens rest).map (.string value :: ·) := by
  rw [tokens, List.length_cons, splitWords, if_neg (by decide), if_neg (by decide), if_pos (by decide), h]
  simp only [bind, Except.bind]
  rw [splitWords_suffix (suffix_of_readQuoted h)]
  cases tokens rest <;> rfl

/-- A quoted name at the front of a line. -/
theorem tokens_symbol {value : Text} (h : readQuoted line = .ok (value, rest)) :
    tokens (Text.byte ':' :: Text.byte '"' :: line) = (tokens rest).map (.symbol value :: ·) := by
  rw [tokens, List.length_cons, splitWords, if_neg (by decide), if_neg (by decide), if_neg (by decide),
    if_pos (by simp), List.tail_cons, h]
  simp only [bind, Except.bind]
  rw [splitWords_suffix ((suffix_of_readQuoted h).trans (List.suffix_cons _ line))]
  cases tokens rest <;> rfl

theorem writtenAs_word (h : t.IsWord) : (Token.word t).WrittenAs t where
  unbroken := h.unbroken
  reads rest ts hends hrest := by
    rw [tokens_word_append h hends, hrest]
    rfl

theorem quote_eq_cons (t : Text) : t.quote = Text.byte '"' :: t.quote.tail := by simp [Text.quote]

theorem writtenAs_quote (t : Text) : (Token.string t).WrittenAs t.quote where
  unbroken := Text.unbroken_quote t
  reads rest ts _ hrest := by
    rw [quote_eq_cons, List.cons_append, tokens_string (Text.readQuoted_quote t rest), hrest]
    rfl

theorem writtenAs_quotedSymbol (t : Text) : (Token.symbol t).WrittenAs (Text.byte ':' :: t.quote) where
  unbroken := List.forall_mem_cons.2 ⟨by decide, Text.unbroken_quote t⟩
  reads rest ts _ hrest := by
    rw [quote_eq_cons, List.cons_append, List.cons_append, tokens_symbol (Text.readQuoted_quote t rest), hrest]
    rfl

/-- A line of words, a blank before each. -/
theorem tokens_flatMap {words : List (Text × Token)} (h : ∀ x ∈ words, x.2.WrittenAs x.1) :
    tokens (words.flatMap fun x => 32 :: x.1) = .ok (words.map (·.2)) := by
  have hblank : isBlank 32 := by decide
  induction words with
  | nil => rfl
  | cons x words ih =>
    obtain ⟨hx, hwords⟩ := List.forall_mem_cons.1 h
    rw [List.flatMap_cons, List.cons_append, tokens_blank hblank]
    refine hx.reads _ _ ?_ (ih hwords)
    cases words with
    | nil => exact ends_nil
    | cons y words => exact ends_blank hblank _

end ObjectMachine.Assembly
