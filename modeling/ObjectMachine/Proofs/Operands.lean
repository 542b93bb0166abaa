import ObjectMachine.Code.Listing
import ObjectMachine.Proofs.Floats
import ObjectMachine.Proofs.Rounding
import ObjectMachine.Proofs.Wording

/-! Operands written and read back. An operand of each kind is written as one token, from which it is
read again; of the symbols only those are that a line does not cut in two. -/

namespace ObjectMachine

open Text (byte)

variable {b mark : UInt8} {t : Text}

/-! ### Bare words -/

/-- A byte that means nothing to a line. -/
def Text.isBare (b : UInt8) : Bool := !Assembly.endsWord b && b != byte '\n' && b != byte '"'

theorem Text.isBare_iff : isBare b ↔ Assembly.endsWord b = false ∧ b ≠ byte '\n' ∧ b ≠ byte '"' := by
  simp [isBare, and_assoc]

theorem Text.isBare_of_isNumeric (h : Double.isNumeric b) : isBare b := by
  rcases Double.numeric_cases h with h | rfl | rfl | rfl | rfl
  · rw [isBare_iff, ← Bool.not_eq_true]
    refine ⟨?_, ?_, ?_⟩
    · simp only [Assembly.endsWord, Assembly.isBlank, Bool.or_eq_true, beq_iff_eq]
      rintro ((((rfl | rfl) | rfl) | rfl) | rfl) <;> exact absurd h (by decide)
    · rintro rfl
      exact absurd h (by decide)
    · rintro rfl
      exact absurd h (by decide)
  all_goals decide

theorem Text.IsWord.of_bare (h : ∀ b ∈ t, isBare b) (hne : t ≠ []) : t.IsWord where
  nonempty := hne
  whole b hb := (Text.isBare_iff.1 (h b hb)).1
  unbroken b hb := (Text.isBare_iff.1 (h b hb)).2.1
  unquoted hhead := (Text.isBare_iff.1 (h _ (List.mem_of_head? hhead))).2.2 rfl
  unmarked hpre := (Text.isBare_iff.1 (h _ (hpre.subset (by simp)))).2.2 rfl

/-- A word with a mark in front. -/
theorem Text.IsWord.cons (h : t.IsWord) (hmark : isBare mark) (hcolon : mark ≠ byte ':') :
    Text.IsWord (mark :: t) where
  nonempty := List.cons_ne_nil _ _
  whole := List.forall_mem_cons.2 ⟨(Text.isBare_iff.1 hmark).1, h.whole⟩
  unbroken := List.forall_mem_cons.2 ⟨(Text.isBare_iff.1 hmark).2.1, h.unbroken⟩
  unquoted hhead := (Text.isBare_iff.1 hmark).2.2 (Option.some.inj hhead)
  unmarked hpre := hcolon (List.cons_prefix_cons.1 hpre).1.symm

/-! ### Integers -/

theorem mem_ofInt64 (n : Int64) : ∀ b ∈ Text.ofInt64 n, Text.isDigit b ∨ b = byte '-' := by
  have hdigits : ∀ b ∈ Text.ofNat n.toInt.natAbs, Text.isDigit b ∨ b = byte '-' :=
    fun b hb => .inl (Text.isDigit_ofNat _ b hb)
  rw [Text.ofInt64, Text.ofInt]
  split
  · exact List.forall_mem_cons.2 ⟨.inr rfl, hdigits⟩
  · exact hdigits

theorem isBare_ofInt64 (n : Int64) : ∀ b ∈ Text.ofInt64 n, Text.isBare b := fun b hb => by
  rcases mem_ofInt64 n b hb with hdigit | rfl
  · exact Text.isBare_of_isNumeric (by simp [Double.isNumeric, hdigit])
  · decide

theorem isWord_ofInt64 (n : Int64) : (Text.ofInt64 n).IsWord := by
  refine .of_bare (isBare_ofInt64 n) fun hnil => ?_
  have hread := Text.readInt64?_ofInt64 n
  rw [hnil] at hread
  cases hread

theorem readInteger_ofInt64 (n : Int64) : Assembly.readInteger (.word (Text.ofInt64 n)) = .ok n := by
  rw [Assembly.readInteger, Text.readInt64?_ofInt64]

theorem readRegister_ofInt64 {n : Int64} (hn : 0 ≤ n) :
    Assembly.readRegister (.word (byte 'r' :: Text.ofInt64 n)) = .ok n := by
  rw [Assembly.readRegister, if_pos (by decide), Text.readInt64?_ofInt64]
  exact if_neg (Int64.not_lt.2 hn)

/-- A label is no number. -/
theorem readInt64?_label (t : Text) : Text.readInt64? (byte 'L' :: t) = none := by
  have hsign : Text.splitSign (byte 'L' :: t) = (false, byte 'L' :: t) := rfl
  have hdigits : Text.readNat? (byte 'L' :: t) = none := if_pos (by simp [Text.isDigit, byte])
  rw [Text.readInt64?, hsign]
  dsimp only
  rw [hdigits]
  rfl

/-! ### Literals -/

theorem Double.isNaN_ofMagnitude {negative : Bool} {magnitude : Nat}
    (h : magnitude ≤ BinaryFormat.double.infinity) : (ofMagnitude negative magnitude).isNaN = false := by
  rw [isNaN, (ofMagnitude_parts negative h).2]
  exact decide_eq_false (Nat.not_lt.2 h)

theorem Double.isNaN_ofRatio (negative : Bool) (n d : Nat) : (ofRatio negative n d).isNaN = false :=
  isNaN_ofMagnitude (nearest_le_infinity n d)

theorem Double.isNaN_ofDecimal (negative : Bool) (value : Nat) (e : Int) :
    (ofDecimal negative value e).isNaN = false := by
  unfold ofDecimal
  dsimp only
  split_ifs
  · exact isNaN_ofMagnitude (Nat.zero_le _)
  · exact isNaN_ofMagnitude le_rfl
  · exact isNaN_ofRatio _ _ _
  · exact isNaN_ofRatio _ _ _

theorem Double.isNaN_ofBinary (negative : Bool) (value : Nat) (e : Int) :
    (ofBinary negative value e).isNaN = false := by
  unfold ofBinary
  split <;> exact isNaN_ofRatio _ _ _

/-- There is one NaN that texts are read as. -/
theorem Double.eq_nan_of_read {x : Double} (h : read t = .ok x) (hnan : x.isNaN) : x = nan := by
  rw [read] at h
  cases hword : readWord? t with
  | some y =>
    rw [hword] at h
    cases h
    unfold readWord? at hword
    dsimp only at hword
    split_ifs at hword
    · rw [← Option.some.inj hword, infinity, isNaN_ofMagnitude le_rfl] at hnan
      cases hnan
    · exact (Option.some.inj hword).symm
  | none =>
    rw [hword] at h
    have hnumber : x.isNaN = false := by
      unfold readNumber at h
      dsimp only at h
      split_ifs at h
      · split at h
        · split_ifs at h
          cases h
          exact isNaN_ofBinary _ _ _
        · cases h
      · split at h
        · split_ifs at h
          cases h
          exact isNaN_ofDecimal _ _ _
        · cases h
    rw [hnumber] at hnan
    cases hnan

def Literal.IsRead (lit : Literal) : Prop := ∃ token, Assembly.readLiteral token = .ok lit

theorem Literal.ofFloat_inj {x y : Double} (h : ofFloat x = ofFloat y) : x = y := congrArg float h

theorem Literal.IsRead.eq_nan {x : Double} (h : (ofFloat x).IsRead) (hnan : x.isNaN) : x = .nan := by
  obtain ⟨token, h⟩ := h
  obtain ⟨n, hlit⟩ | ⟨word, y, hread, hlit⟩ | ⟨text, hlit⟩ := Assembly.readLiteral_cases h
  · exact absurd (congrArg kind hlit) (by simp [ofFloat, ofInt])
  · obtain rfl := ofFloat_inj hlit
    exact Double.eq_nan_of_read hread hnan
  · exact absurd (congrArg kind hlit) (by simp [ofFloat, ofText])

/-- What marks the text of a float as such is among what the reader looks for. -/
theorem containsAny_of_marked (h : t.containsAny ".eIN") : t.containsAny ".eEIN" := by
  obtain ⟨b, hb, hmark⟩ := List.any_eq_true.1 h
  refine Double.containsAny_of_mem hb ?_
  have hbytes : ∀ b ∈ Text.ofString ".eIN", b ∈ Text.ofString ".eEIN" := by decide +kernel
  exact hbytes b (by simpa using hmark)

/-- Floats are read back, those that are not finite by their words. -/
theorem read_write_float {x : Double} (hnan : x.isNaN → x = .nan) :
    Double.read (Literal.ofFloat x).write = .ok x ∧ (Literal.ofFloat x).write.containsAny ".eIN" ∧
      (Literal.ofFloat x).write.IsWord := by
  have hwrite : (Literal.ofFloat x).write = Double.marked x.write := rfl
  rw [hwrite]
  rcases Nat.lt_trichotomy x.magnitude BinaryFormat.double.infinity with hlt | heq | hgt
  · obtain ⟨-, hread, hmark, hnumeric⟩ := Double.read_marked_write hlt
    refine ⟨hread, hmark, .of_bare (fun b hb => Text.isBare_of_isNumeric (hnumeric b hb)) fun hnil => ?_⟩
    rw [hnil] at hmark
    cases hmark
  · have hx := Double.ofMagnitude_eta x
    rw [heq] at hx
    rw [← hx]
    cases x.isNegative
    · exact ⟨by decide +kernel, by decide +kernel, .of_bare (by decide +kernel) (by decide +kernel)⟩
    · exact ⟨by decide +kernel, by decide +kernel, .of_bare (by decide +kernel) (by decide +kernel)⟩
  · obtain rfl := hnan (decide_eq_true hgt)
    exact ⟨by decide +kernel, by decide +kernel, .of_bare (by decide +kernel) (by decide +kernel)⟩

theorem not_mem_of_containsAny {bytes : Text} (h : t.containsAny bytes = false) (hb : b ∈ t) : b ∉ bytes := by
  intro hmem
  rw [Double.containsAny_of_mem hb hmem] at h
  cases h

namespace Assembly

theorem not_marked_ofInt64 (n : Int64) : (Text.ofInt64 n).containsAny ".eEIN" = false := by
  have hbytes : ∀ b ∈ Text.ofString ".eEIN", Text.isDigit b = false ∧ b ≠ byte '-' := by decide +kernel
  refine Bool.eq_false_iff.2 fun hmark => ?_
  obtain ⟨b, hb, hmem⟩ := List.any_eq_true.1 hmark
  obtain ⟨hdigit, hminus⟩ := hbytes b (by simpa using hmem)
  rcases mem_ofInt64 n b hb with h | h
  · rw [hdigit] at h
    cases h
  · exact hminus h

theorem readLiteral_ofInt64 (n : Int64) : readLiteral (.word (Text.ofInt64 n)) = .ok (.ofInt n) := by
  rw [readLiteral, if_neg (by rw [not_marked_ofInt64]; exact Bool.false_ne_true), Text.readInt64?_ofInt64]

theorem readLiteral_float {x : Double} (hnan : x.isNaN → x = .nan) :
    readLiteral (.word (Literal.ofFloat x).write) = .ok (.ofFloat x) := by
  obtain ⟨hx, hmark, -⟩ := read_write_float hnan
  rw [readLiteral, if_pos (containsAny_of_marked hmark), hx]

/-- A literal stands in a line as a token that it is read from. -/
theorem literal_written {lit : Literal} (h : lit.IsRead) :
    ∃ token : Token, token.WrittenAs lit.write ∧ readLiteral token = .ok lit := by
  obtain ⟨token, hread⟩ := h
  obtain ⟨n, rfl⟩ | ⟨-, x, -, rfl⟩ | ⟨t, rfl⟩ := readLiteral_cases hread
  · exact ⟨.word (Text.ofInt64 n), writtenAs_word (isWord_ofInt64 n), readLiteral_ofInt64 n⟩
  · have hnan : x.isNaN → x = .nan := Literal.IsRead.eq_nan ⟨token, hread⟩
    exact ⟨.word (Literal.ofFloat x).write, writtenAs_word (read_write_float hnan).2.2, readLiteral_float hnan⟩
  · exact ⟨.string t, writtenAs_quote t, rfl⟩

/-! ### Symbols -/

def isQuoted (name : Text) : Bool := name.isEmpty || name.containsAny " \t\"\\;"

theorem writeSymbol_eq (name : Text) :
    writeSymbol name = if isQuoted name then byte ':' :: name.quote else byte ':' :: name := rfl

/-- A name that a line with its listing does not cut in two. -/
def IsWhole (name : Text) : Prop := isQuoted name ∨ name.containsAny ",\r\n" = false

theorem isWord_symbol {name : Text} (hquoted : isQuoted name = false)
    (hwhole : name.containsAny ",\r\n" = false) : Text.IsWord (byte ':' :: name) := by
  obtain ⟨-, hmarks⟩ := Bool.or_eq_false_iff.1 hquoted
  have hends : ∀ b ∈ name, endsWord b = false := by
    intro b hb
    have h₁ := not_mem_of_containsAny hmarks hb
    have h₂ := not_mem_of_containsAny hwhole hb
    rw [← Bool.not_eq_true]
    simp only [endsWord, isBlank, Bool.or_eq_true, beq_iff_eq]
    rintro ((((rfl | rfl) | rfl) | rfl) | rfl)
    · exact h₁ (by decide)
    · exact h₁ (by decide)
    · exact h₂ (by decide)
    · exact h₂ (by decide)
    · exact h₁ (by decide)
  refine ⟨List.cons_ne_nil _ _, List.forall_mem_cons.2 ⟨by decide, hends⟩, ?_, ?_, fun hpre => ?_⟩
  · refine List.forall_mem_cons.2 ⟨by decide, ?_⟩
    rintro b hb rfl
    exact not_mem_of_containsAny hwhole hb (by decide)
  · exact fun hhead => absurd (Option.some.inj hhead) (by decide)
  · have hquote := (List.cons_prefix_cons.1 hpre).2.subset (List.mem_singleton.2 rfl)
    exact not_mem_of_containsAny hmarks hquote (by decide)

theorem symbol_written {name : Text} (h : IsWhole name) :
    ∃ token : Token, token.WrittenAs (writeSymbol name) ∧ readSymbol token = .ok name := by
  rw [writeSymbol_eq]
  cases hquoted : isQuoted name with
  | true => exact ⟨.symbol name, writtenAs_quotedSymbol name, rfl⟩
  | false =>
    have hwhole := h.resolve_left (by simp [hquoted])
    refine ⟨_, writtenAs_word (isWord_symbol hquoted hwhole), ?_⟩
    obtain ⟨b, t, rfl⟩ : ∃ b t, name = b :: t := by
      refine List.exists_cons_of_ne_nil fun hnil => ?_
      rw [hnil] at hquoted
      cases hquoted
    rfl

/-! ### Other marks -/

theorem register_written {n : Int64} (hn : 0 ≤ n) : ∃ token : Token,
    token.WrittenAs (byte 'r' :: Text.ofInt64 n) ∧ readRegister token = .ok n := by
  have hword : Text.IsWord (byte 'r' :: Text.ofInt64 n) := (isWord_ofInt64 n).cons (by decide) (by decide)
  exact ⟨_, writtenAs_word hword, readRegister_ofInt64 hn⟩

theorem label_written (n : Int64) :
    Token.WrittenAs (.word (byte 'L' :: Text.ofInt64 n)) (byte 'L' :: Text.ofInt64 n) := by
  refine writtenAs_word ?_
  exact (isWord_ofInt64 n).cons (by decide) (by decide)

theorem child_written {name : Text} (h : name.IsWord) : ∃ token : Token,
    token.WrittenAs (byte '@' :: name) ∧ afterMark? '@' token = some name := by
  have hword : Text.IsWord (byte '@' :: name) := h.cons (by decide) (by decide)
  refine ⟨_, writtenAs_word hword, ?_⟩
  obtain ⟨b, t, rfl⟩ := List.exists_cons_of_ne_nil h.nonempty
  rfl

end Assembly

end ObjectMachine
