import ObjectMachine.Double.Written
import ObjectMachine.Proofs.Shortest

/-! Numbers in text read back. A written number is digits around a point with an exponent; reading it
gives the double that its value rounds to. -/

namespace ObjectMachine.Double

open Text (byte digitsAfter isDigit)

/-- A number in text: digits before and after a point, and an exponent. -/
structure Numeral where
  whole : Text
  fraction : Text
  exponent : Option Int
  whole_ne_nil : whole ≠ []
  digits : ∀ b ∈ whole ++ fraction, isDigit b

def exponentText (e : Int) : Text :=
  [byte 'e', byte (if e < 0 then '-' else '+')]
    ++ List.replicate (standard.exponentDigits - (Text.ofNat e.natAbs).length) (byte '0')
    ++ Text.ofNat e.natAbs

def signText (negative : Bool) : Text := if negative then [byte '-'] else []

namespace Numeral

def text (n : Numeral) : Text :=
  n.whole ++ fractionPart n.fraction ++ (n.exponent.map exponentText).getD []

def significand (n : Numeral) : Nat := digitsAfter 0 (n.whole ++ n.fraction)

/-- The power of ten that the last digit counts. -/
def scale (n : Numeral) : Int := n.exponent.getD 0 - n.fraction.length

def value (n : Numeral) : ℚ := n.significand * 10 ^ n.scale

end Numeral

variable {b : UInt8} {t rest : Text} {m : Mantissa} {n : Numeral} {negative : Bool}

/-! ### Digits -/

theorem readMantissa_digit (hb : isDigit b) (m : Mantissa) (rest : Text) :
    readMantissa false m (b :: rest) = readMantissa false
      ⟨10 * m.value + (b.toNat - 48), if m.hasPoint then m.places + 1 else m.places, true, m.hasPoint⟩
      rest := by
  have hrange := Text.isDigit_iff.1 hb
  have hunderscore : ¬(b == byte '_') = true := by
    rw [beq_iff_eq]
    rintro rfl
    exact absurd hb (by decide)
  have hpoint : ¬(b == byte '.' && !m.hasPoint) = true := by
    rw [Bool.and_eq_true, beq_iff_eq]
    rintro ⟨rfl, -⟩
    exact absurd hb (by decide)
  have hvalue : Text.hexValue? b = some (b.toNat - 48) := if_pos hb
  have hsmall : (false || decide (b.toNat - 48 < 10)) = true := by
    rw [Bool.false_or, decide_eq_true_eq]
    omega
  rw [readMantissa, if_neg hunderscore, if_neg hpoint, hvalue]
  dsimp only
  rw [if_pos hsmall]
  rfl

theorem readMantissa_digits (ht : ∀ b ∈ t, isDigit b) (m : Mantissa) (rest : Text) :
    readMantissa false m (t ++ rest) = readMantissa false
      ⟨digitsAfter m.value t, if m.hasPoint then m.places + t.length else m.places,
        m.hasDigits || !t.isEmpty, m.hasPoint⟩ rest := by
  induction t generalizing m with
  | nil => simp [digitsAfter]
  | cons b t ih =>
    obtain ⟨hb, ht⟩ := List.forall_mem_cons.1 ht
    rw [List.cons_append, readMantissa_digit hb, ih ht]
    have hplaces : (if m.hasPoint = true then (if m.hasPoint = true then m.places + 1 else m.places) + t.length
        else if m.hasPoint = true then m.places + 1 else m.places) =
        if m.hasPoint = true then m.places + (b :: t).length else m.places := by
      split
      · rw [List.length_cons]
        omega
      · rfl
    dsimp only
    rw [hplaces]
    simp [digitsAfter]

/-- What may follow the digits of a mantissa. -/
def EndsMantissa (t : Text) : Prop := t = [] ∨ t.head? = some (byte 'e')

theorem readMantissa_end (h : EndsMantissa rest) (m : Mantissa) : readMantissa false m rest = (m, rest) := by
  rcases rest with _ | ⟨b, rest⟩
  · rfl
  obtain rfl : b = byte 'e' := by simpa [EndsMantissa] using h
  rfl

theorem endsMantissa_exponent (e : Option Int) : EndsMantissa ((e.map exponentText).getD []) := by
  cases e with
  | none => exact .inl rfl
  | some e => exact .inr rfl

/-- The mantissa of a number in text. -/
theorem readMantissa_text (n : Numeral) : readMantissa false {} n.text =
    (⟨n.significand, n.fraction.length, true, !n.fraction.isEmpty⟩, (n.exponent.map exponentText).getD []) := by
  obtain ⟨hwhole, hfraction⟩ := List.forall_mem_append.1 n.digits
  have hends := endsMantissa_exponent n.exponent
  have hsome : (false || !n.whole.isEmpty) = true := by simpa using n.whole_ne_nil
  rw [Numeral.text, List.append_assoc, readMantissa_digits hwhole]
  dsimp only
  rw [hsome, if_neg Bool.false_ne_true, fractionPart]
  by_cases hempty : n.fraction = []
  · rw [hempty, List.isEmpty_nil, if_pos rfl, List.nil_append, readMantissa_end hends,
      Numeral.significand, hempty, List.append_nil]
    rfl
  · have hpoint : ∀ (m : Mantissa) (t : Text), m.hasPoint = false →
        readMantissa false m (byte '.' :: t) = readMantissa false { m with hasPoint := true } t := by
      intro m t hm
      rw [readMantissa, if_neg (by decide), if_pos (by simp [hm])]
    rw [if_neg (by simpa using hempty), List.cons_append, hpoint _ _ rfl, readMantissa_digits hfraction,
      readMantissa_end hends, Numeral.significand, Text.digitsAfter_append]
    simp [hempty]

/-! ### Exponents -/

theorem le_digitsAfter (e : Nat) (t : Text) : e ≤ digitsAfter e t := by
  rw [Text.digitsAfter_eq]
  exact Nat.le_add_right_of_le (Nat.le_mul_of_pos_left e (Nat.pow_pos (by decide)))

theorem readExponentDigits_eq {e : Nat} (ht : ∀ b ∈ t, isDigit b) (h : digitsAfter e t < 100000) :
    readExponentDigits e t = (digitsAfter e t, []) := by
  induction t generalizing e with
  | nil => rfl
  | cons b t ih =>
    obtain ⟨hb, ht⟩ := List.forall_mem_cons.1 ht
    have hunderscore : ¬(b == byte '_') = true := by
      rw [beq_iff_eq]
      rintro rfl
      exact absurd hb (by decide)
    have hnext : digitsAfter e (b :: t) = digitsAfter (10 * e + (b.toNat - 48)) t := rfl
    have hsmall : e < 10000 := by
      have := le_digitsAfter (10 * e + (b.toNat - 48)) t
      omega
    rw [readExponentDigits, if_neg hunderscore, if_pos hb, if_pos hsmall, ih ht (hnext ▸ h), hnext]

theorem isDigit_zeros (k : Nat) : ∀ b ∈ List.replicate k (byte '0'), isDigit b := by
  intro b hb
  rw [List.eq_of_mem_replicate hb]
  decide

theorem digitsAfter_zeros (k n : Nat) : digitsAfter n (List.replicate k (byte '0')) = 10 ^ k * n := by
  induction k generalizing n with
  | zero => simp [digitsAfter]
  | succ k ih =>
    have hnext : digitsAfter n (List.replicate (k + 1) (byte '0')) =
        digitsAfter (10 * n + 0) (List.replicate k (byte '0')) := rfl
    rw [hnext, ih, pow_succ]
    ring

/-- An exponent of up to five digits is read back. -/
theorem readExponent?_text {e : Option Int} (h : ∀ i, e = some i → i.natAbs < 100000) :
    readExponent? (byte 'e') ((e.map exponentText).getD []) = some (e, []) := by
  cases e with
  | none => rfl
  | some e =>
    obtain ⟨ds, hds⟩ : ∃ ds, List.replicate (standard.exponentDigits - (Text.ofNat e.natAbs).length)
      (byte '0') ++ Text.ofNat e.natAbs = ds := ⟨_, rfl⟩
    have hdigits : ∀ b ∈ ds, isDigit b := by
      rw [← hds, List.forall_mem_append]
      exact ⟨isDigit_zeros _, Text.isDigit_ofNat _⟩
    have hvalue : digitsAfter 0 ds = e.natAbs := by
      rw [← hds, Text.digitsAfter_append, digitsAfter_zeros, Nat.mul_zero, Text.digitsAfter_ofNat]
    have hread := readExponentDigits_eq hdigits (hvalue.trans_lt (h e rfl))
    have hsign : Text.splitSign (byte (if e < 0 then '-' else '+') :: ds) = (decide (e < 0), ds) := by
      by_cases he : e < 0
      · rw [if_pos he, decide_eq_true he]
        rfl
      · rw [if_neg he, decide_eq_false he]
        rfl
    obtain ⟨d, more, rfl⟩ : ∃ d more, ds = d :: more := by
      refine List.exists_cons_of_ne_nil fun hnil => ?_
      rw [hnil] at hds
      exact Text.ofNat_ne_nil _ (List.append_eq_nil_iff.1 hds).2
    have htext : exponentText e = byte 'e' :: byte (if e < 0 then '-' else '+') :: d :: more := by
      rw [exponentText, List.append_assoc, hds]
      rfl
    rw [Option.map_some, Option.getD_some, htext, readExponent?, if_pos (by decide), hsign]
    dsimp only
    rw [if_pos (hdigits d List.mem_cons_self), hread, hvalue]
    dsimp only
    by_cases he : e < 0
    · rw [decide_eq_true he, if_pos rfl]
      congr
      omega
    · rw [decide_eq_false he, if_neg Bool.false_ne_true]
      congr
      omega

/-! ### Numbers -/

def isNumeric (b : UInt8) : Bool := isDigit b || [byte '.', byte 'e', byte '+', byte '-'].contains b

theorem numeric_cases (h : isNumeric b) :
    isDigit b ∨ b = byte '.' ∨ b = byte 'e' ∨ b = byte '+' ∨ b = byte '-' := by
  simpa [isNumeric] using h

theorem isNumeric_of_isDigit (ht : ∀ b ∈ t, isDigit b) : ∀ b ∈ t, isNumeric b := fun b hb => by
  rw [isNumeric, ht b hb, Bool.true_or]

theorem isNumeric_fractionPart (ht : ∀ b ∈ t, isDigit b) : ∀ b ∈ fractionPart t, isNumeric b := by
  unfold fractionPart
  split
  · simp
  · exact List.forall_mem_cons.2 ⟨by decide, isNumeric_of_isDigit ht⟩

theorem isNumeric_exponentText (e : Int) : ∀ b ∈ exponentText e, isNumeric b := by
  simp only [exponentText, List.forall_mem_append, List.forall_mem_cons, List.not_mem_nil, false_implies,
    implies_true, and_true]
  refine ⟨⟨⟨by decide, ?_⟩, isNumeric_of_isDigit (isDigit_zeros _)⟩, isNumeric_of_isDigit (Text.isDigit_ofNat _)⟩
  split <;> decide

def Numeral.signed (n : Numeral) (negative : Bool) : Text := signText negative ++ n.text

theorem isNumeric_signed (n : Numeral) (negative : Bool) : ∀ b ∈ n.signed negative, isNumeric b := by
  obtain ⟨hwhole, hfraction⟩ := List.forall_mem_append.1 n.digits
  simp only [Numeral.signed, Numeral.text, List.forall_mem_append]
  refine ⟨?_, ⟨isNumeric_of_isDigit hwhole, isNumeric_fractionPart hfraction⟩, ?_⟩
  · cases negative
    · simp [signText]
    · exact List.forall_mem_singleton.2 (by decide)
  · cases n.exponent with
    | none => simp
    | some e => exact isNumeric_exponentText e

theorem exists_digit_text (n : Numeral) : ∃ d rest, n.text = d :: rest ∧ isDigit d := by
  obtain ⟨d, whole, hwhole⟩ := List.exists_cons_of_ne_nil n.whole_ne_nil
  refine ⟨d, whole ++ fractionPart n.fraction ++ (n.exponent.map exponentText).getD [], ?_, ?_⟩
  · rw [Numeral.text, hwhole, List.cons_append, List.cons_append]
  · exact n.digits d (by simp [hwhole])

theorem splitSign_signed (n : Numeral) (negative : Bool) :
    Text.splitSign (n.signed negative) = (negative, n.text) := by
  cases negative with
  | true => rfl
  | false =>
    obtain ⟨d, rest, htext, hd⟩ := exists_digit_text n
    rw [Numeral.signed, htext]
    exact Text.splitSign_of_isDigit hd rest

theorem lowerByte_of_isDigit (hb : isDigit b) : Text.lowerByte b = b := by
  rw [Text.isDigit_iff] at hb
  refine if_neg ?_
  simp only [Bool.and_eq_true, decide_eq_true_eq, UInt8.le_iff_toNat_le, UInt8.reduceToNat]
  omega

theorem lowerByte_ne_mark (hb : isNumeric b) : Text.lowerByte b ≠ byte 'x' := by
  rcases numeric_cases hb with hb | rfl | rfl | rfl | rfl
  · rw [lowerByte_of_isDigit hb]
    rintro rfl
    exact absurd hb (by decide)
  all_goals decide

theorem splitBase_numeric (ht : ∀ b ∈ t, isNumeric b) : splitBase t = (false, t) := by
  rcases t with _ | ⟨z, _ | ⟨x, _ | ⟨d, rest⟩⟩⟩
  · rfl
  · rfl
  · rfl
  · simp [splitBase, lowerByte_ne_mark (ht x (by simp))]

/-- A number is none of the words for infinity and NaN. -/
theorem readWord?_signed (n : Numeral) (negative : Bool) : readWord? (n.signed negative) = none := by
  obtain ⟨d, rest, htext, hd⟩ := exists_digit_text n
  have hne : ∀ c : Char, isDigit (byte c) = false → d ≠ byte c := by
    rintro c hc rfl
    rw [hd] at hc
    cases hc
  have hinf : ∀ t : Text, d :: t ≠ Text.ofString "inf" ∧ d :: t ≠ Text.ofString "infinity" := fun t =>
    ⟨fun h => hne 'i' (by decide) (List.cons.inj h).1, fun h => hne 'i' (by decide) (List.cons.inj h).1⟩
  have hlower : ∃ t, (n.signed negative).map Text.lowerByte = signText negative ++ d :: t := by
    refine ⟨rest.map Text.lowerByte, ?_⟩
    rw [Numeral.signed, htext, List.map_append, List.map_cons, lowerByte_of_isDigit hd]
    cases negative <;> rfl
  obtain ⟨t, hlower⟩ := hlower
  have hsplit : Text.splitSign (signText negative ++ d :: t) = (negative, d :: t) := by
    cases negative with
    | true => rfl
    | false => exact Text.splitSign_of_isDigit hd t
  have hnan : signText negative ++ d :: t ≠ Text.ofString "nan" := by
    cases negative with
    | true => exact fun h => absurd (List.cons.inj h).1 (by decide)
    | false => exact fun h => hne 'n' (by decide) (List.cons.inj h).1
  rw [readWord?, hlower]
  dsimp only
  rw [hsplit]
  dsimp only
  rw [if_neg (not_or.2 (hinf t)), if_neg hnan]

/-- Reading a number gives what its digits and its scale stand for. -/
theorem read_signed (hexponent : ∀ e, n.exponent = some e → e.natAbs < 100000)
    (hfinite : (ofDecimal negative n.significand n.scale).isInfinite = false) :
    read (n.signed negative) = .ok (ofDecimal negative n.significand n.scale) := by
  have hnumeric : ∀ b ∈ n.text, isNumeric b := fun b hb =>
    isNumeric_signed n negative b (List.mem_append_right _ hb)
  have hunderscore : (n.signed negative).contains (byte '_') = false := by
    rw [Bool.eq_false_iff, ne_eq, List.contains_iff_mem]
    exact fun hmem => absurd (isNumeric_signed n negative _ hmem) (by decide)
  rw [read, readWord?_signed]
  dsimp only
  rw [readNumber, splitSign_signed]
  dsimp only
  rw [splitBase_numeric hnumeric]
  dsimp only
  rw [readMantissa_text]
  dsimp only
  rw [if_neg (by decide), if_neg Bool.false_ne_true, readExponent?_text hexponent, hunderscore]
  dsimp only
  rw [if_neg (by simp), if_neg Bool.false_ne_true]
  exact if_neg (by rw [Numeral.scale] at hfinite; simp [hfinite])

/-! ### Writing -/

def Decimal.lead (d : Decimal) : Int := d.exponent + ((Text.ofNat d.digits).length - 1 : Nat)

/-- The number is written as `n`, with the same value. -/
structure Decimal.Shows (d : Decimal) (n : Numeral) : Prop where
  value : n.value = d.value
  exponent : ∀ e, n.exponent = some e → e = d.lead

theorem value_eq {d : Decimal} {k : Nat} (hsignificand : n.significand = 10 ^ k * d.digits)
    (hscale : n.scale + k = d.exponent) : n.value = d.value := by
  rw [Numeral.value, Decimal.value, hsignificand, ← hscale, zpow_add₀ (by norm_num), zpow_natCast]
  push_cast
  ring

/-- Below one there are zeros before the digits. -/
theorem shows_below_one (d : Decimal) (h : d.lead < 0) :
    ∃ n : Numeral, n.text = writePositional (Text.ofNat d.digits) d.lead ∧ d.Shows n := by
  have hlength := List.length_pos_iff.2 (Text.ofNat_ne_nil d.digits)
  refine ⟨⟨[byte '0'], List.replicate (d.lead.natAbs - 1) (byte '0') ++ Text.ofNat d.digits, none,
    by simp, ?_⟩, ?_, value_eq (k := 0) ?_ ?_, by simp⟩
  · rw [List.singleton_append, List.forall_mem_cons, List.forall_mem_append]
    exact ⟨by decide, isDigit_zeros _, Text.isDigit_ofNat d.digits⟩
  · rw [writePositional, if_pos h]
    simp [Numeral.text]
  · have hzero : digitsAfter 0 [byte '0'] = 0 := rfl
    rw [Numeral.significand, Text.digitsAfter_append, hzero, Text.digitsAfter_append, digitsAfter_zeros,
      Nat.mul_zero, Text.digitsAfter_ofNat, pow_zero, one_mul]
  · rw [Decimal.lead] at h
    simp only [Numeral.scale, Option.getD_none, List.length_append, List.length_replicate, Decimal.lead]
    omega

/-- The point stands among the digits, or zeros fill the gap up to it. -/
theorem shows_from_one (d : Decimal) (h : ¬d.lead < 0) :
    ∃ n : Numeral, n.text = writePositional (Text.ofNat d.digits) d.lead ∧ d.Shows n := by
  have hdigits := Text.isDigit_ofNat d.digits
  have hlength := List.length_pos_iff.2 (Text.ofNat_ne_nil d.digits)
  have hvalue := Text.digitsAfter_ofNat d.digits
  have hlead : d.lead = d.exponent + ((Text.ofNat d.digits).length - 1 : Nat) := rfl
  generalize Text.ofNat d.digits = digits at hdigits hlength hvalue hlead
  obtain ⟨whole, hwhole⟩ : ∃ whole, whole = d.lead.natAbs + 1 := ⟨_, rfl⟩
  refine ⟨⟨digits.take whole ++ List.replicate (whole - digits.length) (byte '0'), digits.drop whole, none,
    ?_, ?_⟩, ?_, value_eq (k := whole - digits.length) ?_ ?_, by simp⟩
  · refine List.append_ne_nil_of_left_ne_nil (fun hnil => ?_) _
    rcases List.take_eq_nil_iff.1 hnil with hzero | hnil
    · omega
    · rw [hnil] at hlength
      exact absurd hlength (by decide)
  · simp only [List.forall_mem_append]
    exact ⟨⟨fun b hb => hdigits b (List.mem_of_mem_take hb), isDigit_zeros _⟩,
      fun b hb => hdigits b (List.mem_of_mem_drop hb)⟩
  · rw [writePositional, if_neg h]
    simp [Numeral.text, hwhole]
  · rw [Numeral.significand]
    dsimp only
    rcases Nat.le_total digits.length whole with hle | hle
    · rw [List.take_of_length_le hle, List.drop_of_length_le hle, List.append_nil, Text.digitsAfter_append,
        digitsAfter_zeros, hvalue]
    · rw [Nat.sub_eq_zero_of_le hle, List.replicate_zero, List.append_nil, List.take_append_drop, hvalue,
        pow_zero, one_mul]
  · simp only [Numeral.scale, Option.getD_none, List.length_drop]
    omega

theorem shows_scientific (d : Decimal) :
    ∃ n : Numeral, n.text = writeScientific standard (Text.ofNat d.digits) d.lead ∧ d.Shows n := by
  have hdigits := Text.isDigit_ofNat d.digits
  have hlength := List.length_pos_iff.2 (Text.ofNat_ne_nil d.digits)
  refine ⟨⟨(Text.ofNat d.digits).take 1, (Text.ofNat d.digits).drop 1, some d.lead, ?_, ?_⟩, ?_,
    value_eq (k := 0) ?_ ?_, by simp⟩
  · simpa using Text.ofNat_ne_nil d.digits
  · rwa [List.take_append_drop]
  · simp [Numeral.text, writeScientific, exponentText]
  · rw [Numeral.significand, List.take_append_drop, Text.digitsAfter_ofNat, pow_zero, one_mul]
  · simp only [Numeral.scale, Option.getD_some, List.length_drop, Decimal.lead]
    omega

theorem Decimal.exists_numeral (d : Decimal) : ∃ n : Numeral, n.text = d.write standard ∧ d.Shows n := by
  have hwrite : d.write standard = if standard.least ≤ d.lead ∧ d.lead < standard.limit then
      writePositional (Text.ofNat d.digits) d.lead
    else writeScientific standard (Text.ofNat d.digits) d.lead := rfl
  rw [hwrite]
  split
  · by_cases h : d.lead < 0
    · exact shows_below_one d h
    · exact shows_from_one d h
  · exact shows_scientific d

/-! ### Marks -/

def marked (t : Text) : Text := if t.containsAny ".eIN" then t else t ++ ".0"

theorem containsAny_of_mem {bytes : Text} (hb : b ∈ t) (hbytes : b ∈ bytes) : t.containsAny bytes :=
  List.any_eq_true.2 ⟨b, hb, by simpa using hbytes⟩

/-- A number without a point or an exponent gets a point and a zero. -/
theorem exists_marked (n : Numeral) (negative : Bool) : ∃ n' : Numeral,
    marked (n.signed negative) = n'.signed negative ∧ n'.value = n.value ∧ n'.exponent = n.exponent ∧
      (n'.signed negative).containsAny ".eIN" := by
  by_cases hmark : (n.signed negative).containsAny ".eIN"
  · exact ⟨n, if_pos hmark, rfl, rfl, hmark⟩
  have hfraction : n.fraction = [] := by
    by_contra hne
    refine hmark (containsAny_of_mem (b := byte '.') ?_ (by decide))
    simp [Numeral.signed, Numeral.text, fractionPart, hne]
  have hexponent : n.exponent = none := by
    by_contra hne
    obtain ⟨e, he⟩ := Option.ne_none_iff_exists'.1 hne
    refine hmark (containsAny_of_mem (b := byte 'e') ?_ (by decide))
    simp [Numeral.signed, Numeral.text, exponentText, he]
  have hzero : (".0" : Text) = fractionPart [byte '0'] := by decide
  have htext : marked (n.signed negative) = signText negative ++ (n.whole ++ fractionPart [byte '0']) := by
    rw [marked, if_neg hmark, hzero]
    simp [Numeral.signed, Numeral.text, hfraction, hexponent, fractionPart]
  obtain ⟨n', hn'⟩ : ∃ n' : Numeral, n' = ⟨n.whole, [byte '0'], none, n.whole_ne_nil,
      List.forall_mem_append.2 ⟨(List.forall_mem_append.1 n.digits).1,
        List.forall_mem_singleton.2 (by decide)⟩⟩ := ⟨_, rfl⟩
  refine ⟨n', ?_, ?_, ?_, ?_⟩
  · rw [htext, hn']
    simp [Numeral.signed, Numeral.text]
  · have hvalue : digitsAfter 0 (n.whole ++ [byte '0']) = 10 * digitsAfter 0 n.whole := by
      rw [Text.digitsAfter_append]
      rfl
    simp only [Numeral.value, Numeral.significand, Numeral.scale, hn', hvalue, hfraction, hexponent,
      Option.getD_none, List.append_nil, List.length_singleton, List.length_nil, Nat.cast_mul]
    norm_num
    ring
  · rw [hn', hexponent]
  · refine containsAny_of_mem (b := byte '.') ?_ (by decide)
    simp [Numeral.signed, Numeral.text, hn', fractionPart]

/-! ### Doubles -/

/-- A number of value zero is read as a zero. -/
theorem ofDecimal_of_value_zero (h : n.value = 0) (negative : Bool) :
    ofDecimal negative n.significand n.scale = ofMagnitude negative 0 := by
  have hzero : n.significand = 0 := by
    rw [Numeral.value, mul_eq_zero, Nat.cast_eq_zero] at h
    exact h.resolve_right (zpow_pos (by norm_num) _).ne'
  exact if_pos (.inl hzero)

/-- The number that a finite double is written as, and what numbers of its value are read as. -/
theorem exists_written {x : Double} (h : x.magnitude < BinaryFormat.double.infinity) :
    ∃ n : Numeral, x.write = n.signed x.isNegative ∧
      (∀ e, n.exponent = some e → e.natAbs < 100000) ∧
      ∀ n' : Numeral, n'.value = n.value → ofDecimal x.isNegative n'.significand n'.scale = x := by
  have hnan : x.isNaN = false := decide_eq_false (Nat.not_lt.2 h.le)
  have hinfinite : x.isInfinite = false := beq_false_of_ne h.ne
  rw [write, if_neg (by simp [hnan]), if_neg (by simp [hinfinite])]
  dsimp only
  by_cases hzero : x.isZero
  · have hmagnitude : x.magnitude = 0 := eq_of_beq hzero
    refine ⟨⟨[byte '0'], [], none, by simp, List.forall_mem_singleton.2 (by decide)⟩, ?_, by simp,
      fun n' hvalue => ?_⟩
    · rw [if_pos hzero]
      rfl
    · have hvalue' : n'.value = 0 := hvalue.trans (by simp [Numeral.value, Numeral.significand, digitsAfter, byte])
      rw [ofDecimal_of_value_zero hvalue', ← hmagnitude, ofMagnitude_eta]
  · have hpos : 0 < x.magnitude := Nat.pos_of_ne_zero fun heq => hzero (beq_iff_eq.2 heq)
    obtain ⟨hdigits, hholds⟩ := holds_shortest hpos h
    obtain ⟨n, htext, hvalue, hexponent⟩ := (shortest x.magnitude).exists_numeral
    obtain ⟨hlow, hhigh⟩ := holds_range hpos h hholds
    refine ⟨n, ?_, fun e he => ?_, fun n' hvalue' => ?_⟩
    · rw [if_neg hzero, Numeral.signed, htext]
      rfl
    · obtain ⟨hge, hlt⟩ := decimal_bounds hdigits (shortest x.magnitude).exponent
      have hrange := lead_range hlow hhigh hge hlt
      have hlead := hexponent e he
      rw [Decimal.lead] at hlead
      omega
    · have hsame : n'.value = (shortest x.magnitude).value := hvalue'.trans hvalue
      have hsignificand : 0 < n'.significand := by
        refine Nat.pos_of_ne_zero fun heq => ?_
        have hpositive := (zpow_pos (two_pos (α := ℚ)) _).trans_le hlow
        rw [← hsame, Numeral.value, heq, Nat.cast_zero, zero_mul] at hpositive
        exact lt_irrefl _ hpositive
      rw [ofDecimal_of_holds hpos h hsignificand (by rwa [← hsame] at hholds), ofMagnitude_eta]

/-- A finite double is read back from its text, also with a mark. -/
theorem read_marked_write {x : Double} (h : x.magnitude < BinaryFormat.double.infinity) :
    read x.write = .ok x ∧ read (marked x.write) = .ok x ∧ (marked x.write).containsAny ".eIN" ∧
      ∀ b ∈ marked x.write, isNumeric b := by
  obtain ⟨n, hwrite, hexponent, hread⟩ := exists_written h
  obtain ⟨n', htext, hvalue, hexponent', hmark⟩ := exists_marked n x.isNegative
  have hinfinite : x.isInfinite = false := beq_false_of_ne h.ne
  have hok : ∀ n' : Numeral, n'.value = n.value → n'.exponent = n.exponent →
      read (n'.signed x.isNegative) = .ok x := by
    intro n' hvalue hexponent'
    have hx := hread n' hvalue
    have hread' : read (n'.signed x.isNegative) = .ok (ofDecimal x.isNegative n'.significand n'.scale) :=
      read_signed (hexponent' ▸ hexponent) (by rwa [hx])
    rw [hread', hx]
  rw [hwrite, htext]
  exact ⟨hok n rfl rfl, hok n' hvalue hexponent', hmark, isNumeric_signed n' x.isNegative⟩

end ObjectMachine.Double
