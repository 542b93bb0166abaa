import ObjectMachine.Proofs.Operands

/-! Literals read back wherever they stand. A line is cut into words from the left, and up to a comment
each word is found by itself, whatever the words around it are. So a literal after a blank is one word
of its line, and the word is read as the literal. -/

namespace ObjectMachine

open Text (byte)

namespace Assembly

variable {b : UInt8} {t value line rest body before after : Text} {ts words : List Token}

/-! ### Quotations -/

/-- What follows a closing quote has no part in finding it. -/
theorem closeQuote?_eq_some (h : closeQuote? t = some (body, rest)) :
    t = body ++ byte '"' :: rest ∧ ∀ more, closeQuote? (body ++ byte '"' :: more) = some (body, more) := by
  induction t using closeQuote?.induct generalizing body rest with
  | case1 => cases h
  | case2 b t hquote =>
    rw [closeQuote?.eq_def] at h
    dsimp only at h
    rw [if_pos hquote] at h
    cases h
    obtain rfl : b = byte '"' := by simpa using hquote
    exact ⟨rfl, fun more => by simp [closeQuote?.eq_def]⟩
  | case3 b hquote hescape =>
    rw [closeQuote?.eq_def] at h
    dsimp only at h
    rw [if_neg hquote, if_pos hescape] at h
    cases h
  | case4 b hquote hescape c t ih =>
    rw [closeQuote?, if_neg hquote, if_pos hescape] at h
    obtain ⟨⟨inner, outer⟩, hinner, heq⟩ := Option.map_eq_some_iff.1 h
    cases heq
    obtain ⟨rfl, hmore⟩ := ih hinner
    refine ⟨rfl, fun more => ?_⟩
    rw [List.cons_append, List.cons_append, closeQuote?, if_neg hquote, if_pos hescape, hmore]
    rfl
  | case5 b t hquote hescape ih =>
    rw [closeQuote?.eq_def] at h
    dsimp only at h
    rw [if_neg hquote, if_neg hescape] at h
    obtain ⟨⟨inner, outer⟩, hinner, heq⟩ := Option.map_eq_some_iff.1 h
    cases heq
    obtain ⟨rfl, hmore⟩ := ih hinner
    refine ⟨rfl, fun more => ?_⟩
    rw [List.cons_append, closeQuote?.eq_def]
    dsimp only
    rw [if_neg hquote, if_neg hescape, hmore]
    rfl

/-- A quotation ends where it does whatever follows. -/
theorem readQuoted_eq_ok (h : readQuoted t = .ok (value, rest)) :
    ∃ quoted, t = quoted ++ rest ∧ ∀ more, readQuoted (quoted ++ more) = .ok (value, more) := by
  rw [readQuoted] at h
  cases hclose : closeQuote? t with
  | none =>
    rw [hclose] at h
    cases h
  | some found =>
    obtain ⟨body, after⟩ := found
    rw [hclose] at h
    obtain ⟨rfl, hmore⟩ := closeQuote?_eq_some hclose
    dsimp only at h
    cases hvalue : Text.unquote? ([byte '"'] ++ body ++ [byte '"']) with
    | none =>
      rw [hvalue] at h
      cases h
    | some v =>
      rw [hvalue] at h
      cases h
      refine ⟨body ++ [byte '"'], by simp, fun more => ?_⟩
      rw [List.append_assoc, List.singleton_append, readQuoted, hmore]
      dsimp only
      rw [hvalue]

/-! ### Beginnings of lines -/

/-- A text without a comment that is cut into words. -/
inductive Cut : Text → List Token → Prop
  | nil : Cut [] []
  | blank {b : UInt8} {line : Text} {ts : List Token} (hb : isBlank b) (rest : Cut line ts) :
      Cut (b :: line) ts
  | string {t value line : Text} {ts : List Token} (hread : readQuoted t = .ok (value, line))
      (rest : Cut line ts) : Cut (byte '"' :: t) (.string value :: ts)
  | symbol {t value line : Text} {ts : List Token} (hread : readQuoted t = .ok (value, line))
      (rest : Cut line ts) : Cut (byte ':' :: byte '"' :: t) (.symbol value :: ts)
  | word {w line : Text} {ts : List Token} (hword : w.IsWord) (hends : Ends line) (rest : Cut line ts) :
      Cut (w ++ line) (.word w :: ts)

theorem Ends.append (h : Ends line) (hrest : Ends rest) : Ends (line ++ rest) := by
  cases line with
  | nil => exact hrest
  | cons b line => exact h

/-- A line goes on after a beginning as if it started there. -/
theorem Cut.tokens_append (h : Cut line words) (hrest : Ends rest) :
    tokens (line ++ rest) = (tokens rest).map (words ++ ·) := by
  induction h with
  | nil => cases htokens : tokens rest <;> simp [htokens, Except.map]
  | blank hb _ ih => rw [List.cons_append, tokens_blank hb, ih]
  | string hread _ ih =>
    obtain ⟨quoted, rfl, hmore⟩ := readQuoted_eq_ok hread
    rw [List.cons_append, List.append_assoc, tokens_string (hmore _), ih]
    cases tokens rest <;> rfl
  | symbol hread _ ih =>
    obtain ⟨quoted, rfl, hmore⟩ := readQuoted_eq_ok hread
    rw [List.cons_append, List.cons_append, List.append_assoc, tokens_symbol (hmore _), ih]
    cases tokens rest <;> rfl
  | word hword hends _ ih =>
    rw [List.append_assoc, tokens_word_append hword (hends.append hrest), ih]
    cases tokens rest <;> rfl

/-- What a line is cut into is in front of its comment, if it has one. -/
theorem cut_of_splitWords {steps : Nat} (hsteps : line.length ≤ steps) (hline : ∀ b ∈ line, b ≠ byte '\n')
    (h : splitWords steps line = .ok ts) :
    ∃ code comment, line = code ++ comment ∧ Cut code ts ∧ ∀ b ∈ comment.head?, b = byte ';' := by
  induction steps generalizing line ts with
  | zero =>
    obtain rfl := List.length_eq_zero_iff.1 (Nat.le_zero.1 hsteps)
    cases h
    exact ⟨[], [], rfl, .nil, by simp⟩
  | succ steps ih =>
    rcases line with _ | ⟨b, line⟩
    · cases h
      exact ⟨[], [], rfl, .nil, by simp⟩
    have hshort : ∀ t, t <:+ line → t.length ≤ steps ∧ ∀ c ∈ t, c ≠ byte '\n' := fun t ht =>
      ⟨ht.length_le.trans (Nat.le_of_succ_le_succ hsteps), fun c hc => hline c (List.mem_cons_of_mem b (ht.subset hc))⟩
    have hwords : ∀ w, .word w ∈ ts → w.IsWord := fun w hw => isWord_of_mem_splitWords hline h hw
    rw [splitWords] at h
    split_ifs at h with hblank hcomment hquote hsymbol
    · obtain ⟨hlength, hunbroken⟩ := hshort line (List.suffix_refl line)
      obtain ⟨code, comment, rfl, hcut, hhead⟩ := ih hlength hunbroken h
      exact ⟨b :: code, comment, rfl, .blank hblank hcut, hhead⟩
    · cases h
      exact ⟨[], b :: line, rfl, .nil, by simpa using hcomment⟩
    · obtain ⟨⟨value, rest⟩, hread, h⟩ := bind_eq_ok.1 h
      obtain ⟨more, hmore, rfl⟩ := bind_pure_eq_ok.1 h
      obtain ⟨hlength, hunbroken⟩ := hshort rest (suffix_of_readQuoted hread)
      obtain ⟨code, comment, rfl, hcut, hhead⟩ := ih hlength hunbroken hmore
      obtain ⟨quoted, rfl, hquoted⟩ := readQuoted_eq_ok hread
      obtain rfl : b = byte '"' := by simpa using hquote
      exact ⟨byte '"' :: (quoted ++ code), comment, by simp, .string (hquoted code) hcut, hhead⟩
    · obtain ⟨rfl, hnext⟩ : b = byte ':' ∧ line.head? = some (byte '"') := by simpa using hsymbol
      obtain ⟨t, rfl⟩ : ∃ t, line = byte '"' :: t := ⟨line.tail, List.eq_cons_of_mem_head? hnext⟩
      obtain ⟨⟨value, rest⟩, hread, h⟩ := bind_eq_ok.1 h
      obtain ⟨more, hmore, rfl⟩ := bind_pure_eq_ok.1 h
      rw [List.tail_cons] at hread
      obtain ⟨hlength, hunbroken⟩ := hshort rest ((suffix_of_readQuoted hread).trans (List.suffix_cons _ t))
      obtain ⟨code, comment, rfl, hcut, hhead⟩ := ih hlength hunbroken hmore
      obtain ⟨quoted, rfl, hquoted⟩ := readQuoted_eq_ok hread
      exact ⟨byte ':' :: byte '"' :: (quoted ++ code), comment, by simp, .symbol (hquoted code) hcut, hhead⟩
    · obtain ⟨more, hmore, rfl⟩ := bind_pure_eq_ok.1 h
      obtain ⟨hlength, hunbroken⟩ := hshort (line.dropWhile (!endsWord ·)) (List.dropWhile_suffix _)
      obtain ⟨code, comment, heq, hcut, hhead⟩ := ih hlength hunbroken hmore
      have hends : Ends code := by
        intro c hc
        have hfirst : c ∈ (line.dropWhile (!endsWord ·)).head? := by
          rw [heq, List.head?_append, Option.mem_def.1 hc]
          rfl
        have hnot := List.head?_dropWhile_not (!endsWord ·) line
        rw [Option.mem_def.1 hfirst] at hnot
        simpa using hnot
      have hword : Text.IsWord (b :: line.takeWhile (!endsWord ·)) := hwords _ List.mem_cons_self
      refine ⟨b :: line.takeWhile (!endsWord ·) ++ code, comment, ?_, .word hword hends hcut, hhead⟩
      rw [List.append_assoc, ← heq, List.cons_append, List.takeWhile_append_dropWhile]

/-- The beginning of a line: it is cut into words, and what follows still counts, as no comment has
begun. -/
structure Begins (before : Text) (words : List Token) : Prop where
  unbroken : ∀ b ∈ before, b ≠ byte '\n'
  cut : tokens before = .ok words
  counts : ∃ rest, tokens (before ++ rest) ≠ .ok words

theorem ends_comment (t : Text) : Ends (byte ';' :: t) := by simp [Ends, endsWord]

theorem tokens_comment (h : ∀ b ∈ rest.head?, b = byte ';') : tokens rest = .ok [] := by
  cases rest with
  | nil => rfl
  | cons b rest =>
    obtain rfl := h b rfl
    rfl

theorem Begins.tokens_append (h : Begins before words) (hrest : Ends rest) :
    tokens (before ++ rest) = (tokens rest).map (words ++ ·) := by
  obtain ⟨code, comment, rfl, hcut, hhead⟩ := cut_of_splitWords le_rfl h.unbroken h.cut
  cases comment with
  | nil =>
    rw [List.append_nil]
    exact hcut.tokens_append hrest
  | cons b comment =>
    obtain rfl := hhead b rfl
    obtain ⟨more, hmore⟩ := h.counts
    refine absurd ?_ hmore
    rw [List.append_assoc, List.cons_append, hcut.tokens_append (ends_comment _), tokens_comment (by simp)]
    simp [Except.map]

end Assembly

open Assembly

/-! ### Literals -/

namespace Literal

/-- A literal with an exact spelling: an integer, a float that is no NaN or a text, with nothing else
to it. -/
inductive Exact : Literal → Prop
  | int (n : Int64) : Exact (ofInt n)
  | float {x : Double} (h : x.isNaN = false) : Exact (ofFloat x)
  | text (t : Text) : Exact (ofText t)

def token (lit : Literal) : Token := if lit.kind = 2 then .string lit.text else .word lit.write

variable {lit : Literal} {rest : Text}

theorem eq_nan_of_number {x : Double} (h : x.isNaN = false) : x.isNaN → x = .nan := by
  intro hnan
  rw [hnan] at h
  cases h

theorem Exact.readLiteral_token (h : lit.Exact) : readLiteral lit.token = .ok lit := by
  cases h with
  | int n => exact readLiteral_ofInt64 n
  | float hx => exact readLiteral_float (eq_nan_of_number hx)
  | text t => rfl

theorem Exact.unbroken (h : lit.Exact) : ∀ b ∈ lit.write, b ≠ byte '\n' := by
  cases h with
  | int n => exact (isWord_ofInt64 n).unbroken
  | float hx => exact (read_write_float (eq_nan_of_number hx)).2.2.unbroken
  | text t => exact Text.unbroken_quote t

/-- A literal is one word, wherever a word may stand. -/
theorem Exact.tokens_append (h : lit.Exact) (hrest : Ends rest) :
    tokens (lit.write ++ rest) = (tokens rest).map (lit.token :: ·) := by
  cases h with
  | int n => exact tokens_word_append (isWord_ofInt64 n) hrest
  | float hx => exact tokens_word_append (read_write_float (eq_nan_of_number hx)).2.2 hrest
  | text t =>
    have hwrite : (ofText t).write = t.quote := rfl
    rw [hwrite, quote_eq_cons, List.cons_append]
    exact tokens_string (Text.readQuoted_quote t rest)

end Literal

/-- A literal is read back from its text wherever this stands in a line. The text is on one line, and
one token is read as the literal again: the same integer, the same bytes, the same float with the sign
of a zero. After a blank and before a blank, a comment or the end of the line the text is cut out as
this one token, and the words before and after it are what they are without it. -/
theorem literal_reads_back {lit : Literal} (h : lit.Exact) :
    (∀ b ∈ lit.write, b ≠ byte '\n') ∧ readLiteral lit.token = .ok lit ∧
      ∀ before words blank after, Begins before words → isBlank blank → Ends after →
        tokens (before ++ blank :: (lit.write ++ after)) =
          (tokens after).map fun more => words ++ lit.token :: more := by
  refine ⟨h.unbroken, h.readLiteral_token, fun before words blank after hbefore hblank hafter => ?_⟩
  rw [hbefore.tokens_append (ends_blank hblank _), tokens_blank hblank, h.tokens_append hafter]
  cases tokens after <;> rfl

/-- A text of bytes that a line must not hold, before a comment, and the negative zero. -/
theorem literal_reads_back_awkward :
    (Literal.ofText [0xFF, byte '"', byte ';', byte '\\', byte '\n', 0]).Exact ∧
    (Literal.ofFloat ⟨0x8000000000000000⟩).Exact ∧
    Begins "LOADL r1," [.word "LOADL", .word "r1"] ∧
    tokens "LOADL r1, \"\\xff\\\";\\\\\\n\\x00\";note" =
      .ok [.word "LOADL", .word "r1", .string [0xFF, byte '"', byte ';', byte '\\', byte '\n', 0]] ∧
    readLiteral (.word "-0.0") = .ok (.ofFloat ⟨0x8000000000000000⟩) := by
  have htext : (Literal.ofText [0xFF, byte '"', byte ';', byte '\\', byte '\n', 0]).Exact := .text _
  have hzero : (Literal.ofFloat ⟨0x8000000000000000⟩).Exact := .float (by decide)
  have hbefore : Begins "LOADL r1," [.word "LOADL", .word "r1"] :=
    ⟨by decide +kernel, by decide +kernel, "x", by decide +kernel⟩
  have hcut := (literal_reads_back htext).2.2 _ _ 32 _ hbefore (by decide) (ends_comment "note")
  have hread := (literal_reads_back hzero).2.1
  have hline : Text.ofString "LOADL r1, \"\\xff\\\";\\\\\\n\\x00\";note" = Text.ofString "LOADL r1," ++
      32 :: ((Literal.ofText [0xFF, byte '"', byte ';', byte '\\', byte '\n', 0]).write ++
        byte ';' :: Text.ofString "note") := by
    decide
  have hword : (Literal.ofFloat ⟨0x8000000000000000⟩).token = .word "-0.0" := by decide
  refine ⟨htext, hzero, hbefore, ?_, hword ▸ hread⟩
  rw [hline, hcut, tokens_comment (by simp)]
  rfl

end ObjectMachine
