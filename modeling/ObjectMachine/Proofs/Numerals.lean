import Mathlib
import ObjectMachine.Text.Decimal

/-! Decimal numerals read back. -/

namespace ObjectMachine.Text

variable {n : Nat} {b : UInt8} {t : Text}

/-- The number that some more digits make of `n`. -/
def digitsAfter (n : Nat) (t : Text) : Nat := t.foldl (fun n b => 10 * n + (b.toNat - 48)) n

theorem digitsAfter_eq (n : Nat) (t : Text) : digitsAfter n t = 10 ^ t.length * n + digitsAfter 0 t := by
  induction t generalizing n with
  | nil => simp [digitsAfter]
  | cons b t ih =>
    have hcons : ∀ n, digitsAfter n (b :: t) = digitsAfter (10 * n + (b.toNat - 48)) t := fun _ => rfl
    rw [hcons, hcons, ih, ih (10 * 0 + _), List.length_cons, pow_succ']
    ring

theorem digitsAfter_append (n : Nat) (s t : Text) :
    digitsAfter n (s ++ t) = digitsAfter (digitsAfter n s) t := List.foldl_append

/-- The numerals by their last digit. -/
theorem ofNat_induction {P : Nat → Text → Prop}
    (digit : ∀ d < 10, P d [(48 + d).toUInt8])
    (more : ∀ n d, 0 < n → d < 10 → P n (ofNat n) → P (10 * n + d) (ofNat n ++ [(48 + d).toUInt8])) (n : Nat) :
    P n (ofNat n) := by
  have hbyte : ∀ d < 10, byte (Nat.digitChar d) = (48 + d).toUInt8 := by decide
  induction n using Nat.strong_induction_on with
  | _ n ih =>
    rcases Nat.lt_or_ge n 10 with hlt | hge
    · rw [ofNat, Nat.toDigits_of_lt_base hlt, List.map_singleton, hbyte n hlt]
      exact digit n hlt
    · have hdigit := Nat.mod_lt n (show 10 > 0 by decide)
      have hih := more (n / 10) (n % 10) (by omega) hdigit (ih (n / 10) (by omega))
      rw [Nat.div_add_mod] at hih
      rw [ofNat, Nat.toDigits_of_base_le (by decide) hge, List.map_append, List.map_singleton,
        hbyte _ hdigit]
      exact hih

theorem toNat_digit {d : Nat} (hd : d < 10) : (48 + d).toUInt8.toNat = 48 + d := by
  rw [Nat.toUInt8, UInt8.toNat_ofNat', Nat.mod_eq_of_lt (by omega)]

theorem isDigit_iff : isDigit b ↔ 48 ≤ b.toNat ∧ b.toNat ≤ 57 := by
  simp [isDigit, UInt8.le_iff_toNat_le]

theorem ofNat_ne_nil (n : Nat) : ofNat n ≠ [] :=
  ofNat_induction (P := fun _ t => t ≠ []) (by simp) (by simp) n

theorem isDigit_ofNat (n : Nat) : ∀ b ∈ ofNat n, isDigit b := by
  have hdigit : ∀ d < 10, isDigit (48 + d).toUInt8 := fun d hd => by
    rw [isDigit_iff, toNat_digit hd]
    omega
  refine ofNat_induction (P := fun _ t => ∀ b ∈ t, isDigit b) ?_ ?_ n
  · intro d hd
    simpa using hdigit d hd
  · intro n d _ hd ih
    rw [List.forall_mem_append, List.forall_mem_singleton]
    exact ⟨ih, hdigit d hd⟩

theorem digitsAfter_digit {d : Nat} (n : Nat) (hd : d < 10) :
    digitsAfter n [(48 + d).toUInt8] = 10 * n + d := by
  have hvalue : (48 + d).toUInt8.toNat - 48 = d := by
    rw [toNat_digit hd]
    omega
  exact congrArg (10 * n + ·) hvalue

theorem digitsAfter_ofNat (n : Nat) : digitsAfter 0 (ofNat n) = n := by
  refine ofNat_induction (P := fun n t => digitsAfter 0 t = n) ?_ ?_ n
  · intro d hd
    rw [digitsAfter_digit 0 hd, Nat.mul_zero, Nat.zero_add]
  · intro n d _ hd ih
    rw [digitsAfter_append, ih, digitsAfter_digit n hd]

/-- A numeral has no zeros in front. -/
theorem ofNat_bounds (hn : 0 < n) : 10 ^ ((ofNat n).length - 1) ≤ n ∧ n < 10 ^ (ofNat n).length := by
  have hlength : (ofNat n).length = (Nat.toDigits 10 n).length := List.length_map ..
  have hpos := List.length_pos_iff.2 (ofNat_ne_nil n)
  refine ⟨?_, ?_⟩
  · by_contra! hlt
    rcases Nat.eq_zero_or_pos ((ofNat n).length - 1) with hzero | hone
    · rw [hzero] at hlt
      omega
    · have := (Nat.length_toDigits_le_iff (by decide) hone).2 hlt
      omega
  · exact (Nat.length_toDigits_le_iff (by decide) hpos).1 hlength.ge

theorem readNat?_eq_some (hne : t ≠ []) (ht : ∀ b ∈ t, isDigit b) : readNat? t = some (digitsAfter 0 t) := by
  have hall : t.all isDigit := List.all_eq_true.2 ht
  rw [readNat?, hall]
  simp [hne, digitsAfter]

theorem readNat?_ofNat (n : Nat) : readNat? (ofNat n) = some n := by
  rw [readNat?_eq_some (ofNat_ne_nil n) (isDigit_ofNat n), digitsAfter_ofNat]

theorem ofNat_injective : Function.Injective ofNat := fun m n h => by
  have hread := readNat?_ofNat m
  rw [h, readNat?_ofNat] at hread
  exact (Option.some.inj hread).symm

theorem splitSign_of_isDigit (h : isDigit b) (t : Text) : splitSign (b :: t) = (false, b :: t) := by
  rw [isDigit_iff] at h
  have hminus : b ≠ byte '-' := by
    rintro rfl
    exact absurd h (by decide)
  have hplus : b ≠ byte '+' := by
    rintro rfl
    exact absurd h (by decide)
  simp [splitSign, hminus, hplus]

theorem splitSign_digits (ht : ∀ b ∈ t, isDigit b) : splitSign t = (false, t) := by
  cases t with
  | nil => rfl
  | cons b t => exact splitSign_of_isDigit (ht b List.mem_cons_self) t

theorem int64OfInt?_toInt (n : Int64) : int64OfInt? n.toInt = some n := by
  rw [int64OfInt?, if_pos ⟨n.minValue_le_toInt, n.toInt_le⟩, Int64.ofInt_toInt]

theorem readInt64?_of_signed {negative : Bool} {n : Int64}
    (h : splitSign t = (negative, ofNat n.toInt.natAbs))
    (hvalue : (if negative then -(n.toInt.natAbs : Int) else n.toInt.natAbs) = n.toInt) :
    readInt64? t = some n := by
  rw [readInt64?, h]
  dsimp only
  rw [readNat?_ofNat, Option.bind_eq_bind, Option.bind_some, hvalue, int64OfInt?_toInt]

/-- A written integer is read back. -/
theorem readInt64?_ofInt64 (n : Int64) : readInt64? (ofInt64 n) = some n := by
  rw [ofInt64, ofInt]
  split
  · refine readInt64?_of_signed rfl ?_
    rw [if_pos rfl]
    omega
  · refine readInt64?_of_signed (splitSign_digits (isDigit_ofNat _)) ?_
    rw [if_neg Bool.false_ne_true]
    omega

end ObjectMachine.Text
