import ObjectMachine.Proofs.Doubles

/-! Rounding keeps the order of numbers. A larger ratio has the same unit or a coarser one, and within
a unit the nearest multiple grows with the ratio. Integers of up to 53 digits are kept exactly, so
different ones stay different; longer ones may round to the same number. -/

namespace ObjectMachine

/-! ### Quotients -/

/-- The rounded quotient is no more than a half away, and even where it is a half away. -/
theorem divNearestEven_spec (a : Nat) {b : Nat} (hb : 0 < b) :
    2 * (divNearestEven a b * b) ≤ 2 * a + b ∧ 2 * a ≤ 2 * (divNearestEven a b * b) + b ∧
      (2 * (divNearestEven a b * b) = 2 * a + b ∨ 2 * a = 2 * (divNearestEven a b * b) + b →
        divNearestEven a b % 2 = 0) := by
  have ha : a / b * b + a % b = a := Nat.div_add_mod' a b
  have hr : a % b < b := Nat.mod_lt a hb
  have hsucc : (a / b + 1) * b = a / b * b + b := Nat.succ_mul _ b
  unfold divNearestEven
  dsimp only
  split_ifs with hlow hhigh heven
  · omega
  · rw [hsucc]
    omega
  · omega
  · rw [hsucc]
    omega

theorem divNearestEven_mono {a b a' b' : Nat} (hb : 0 < b) (hb' : 0 < b')
    (h : (a : ℚ) / b ≤ a' / b') : divNearestEven a b ≤ divNearestEven a' b' := by
  obtain ⟨hlow, -, htie⟩ := divNearestEven_spec a hb
  obtain ⟨-, hhigh, htie'⟩ := divNearestEven_spec a' hb'
  have hcross : a * b' ≤ a' * b := by
    rw [div_le_div_iff₀ (by exact_mod_cast hb) (by exact_mod_cast hb')] at h
    exact_mod_cast h
  generalize divNearestEven a b = k at *
  generalize divNearestEven a' b' = k' at *
  by_contra! hlt
  -- Both ratios would lie halfway between the results, which would be even neighbours.
  have hpos : 0 < b * b' := Nat.mul_pos hb hb'
  have h₁ : 2 * (k * (b * b')) ≤ 2 * (a * b') + b * b' := by
    calc 2 * (k * (b * b')) = 2 * (k * b) * b' := by ring
      _ ≤ (2 * a + b) * b' := Nat.mul_le_mul_right b' hlow
      _ = 2 * (a * b') + b * b' := by ring
  have h₂ : 2 * (a' * b) ≤ 2 * (k' * (b * b')) + b * b' := by
    calc 2 * (a' * b) = 2 * a' * b := by ring
      _ ≤ (2 * (k' * b') + b') * b := Nat.mul_le_mul_right b hhigh
      _ = 2 * (k' * (b * b')) + b * b' := by ring
  have h₃ : k' * (b * b') + b * b' ≤ k * (b * b') := by
    rw [← Nat.succ_mul]
    exact Nat.mul_le_mul_right _ hlt
  have hk : k = k' + 1 := by
    refine Nat.eq_of_mul_eq_mul_right hpos ?_
    rw [Nat.succ_mul]
    omega
  have heven : k % 2 = 0 := by
    refine htie (.inl (Nat.eq_of_mul_eq_mul_right hb' ?_))
    calc 2 * (k * b) * b' = 2 * (k * (b * b')) := by ring
      _ = 2 * (a * b') + b * b' := by omega
      _ = (2 * a + b) * b' := by ring
  have heven' : k' % 2 = 0 := by
    refine htie' (.inr (Nat.eq_of_mul_eq_mul_right hb ?_))
    calc 2 * a' * b = 2 * (a' * b) := by ring
      _ = 2 * (k' * (b * b')) + b * b' := by omega
      _ = (2 * (k' * b') + b') * b := by ring
  omega

namespace BinaryFormat

variable {f : BinaryFormat} {n d n' d' m m' : Nat} {q q' unit unit' : Int} {r r' : ℚ}

/-! ### Units -/

theorem exists_suits (f : BinaryFormat) (hr : 0 < r) : ∃ unit, f.Suits r unit := by
  obtain ⟨k, hlow, hhigh⟩ := exists_mem_Ico_zpow hr (one_lt_two : (1 : ℚ) < 2)
  refine ⟨max (k - f.fractionBits) f.leastUnit, le_max_right _ _, ?_, ?_⟩
  · refine hhigh.trans_le (zpow_le_zpow_right₀ one_le_two ?_)
    omega
  · rcases le_total (k - f.fractionBits) f.leastUnit with hle | hge
    · exact .inl (max_eq_right hle)
    · refine .inr ?_
      rw [max_eq_left hge, add_sub_cancel]
      exact hlow

theorem Suits.mono (h : f.Suits r unit) (h' : f.Suits r' unit') (hle : r ≤ r') : unit ≤ unit' := by
  rcases h.full with hleast | hfull
  · exact hleast ▸ h'.least
  · have := two_zpow_lt_iff.1 ((hfull.trans hle).trans_lt h'.below)
    omega

/-- In its unit a ratio rounds to at most one more than the largest mantissa. -/
theorem Suits.round_le (h : f.Suits (n / d) unit) (hd : 0 < d) :
    divNearestEven (inUnits n d unit).1 (inUnits n d unit).2 ≤ 2 ^ (f.fractionBits + 1) := by
  have hpos := inUnits_pos (n := n) (q := unit) hd
  rw [← divNearestEven_mul (2 ^ (f.fractionBits + 1)) one_pos]
  refine divNearestEven_mono hpos one_pos ?_
  rw [inUnits_ratio, div_le_iff₀ (zpow_pos two_pos _)]
  refine h.below.le.trans (le_of_eq ?_)
  rw [zpow_add₀ two_ne_zero, Nat.cast_one, div_one, Nat.mul_one]
  norm_cast

/-- In a unit that is not the least a ratio rounds to a full mantissa. -/
theorem Suits.le_round (h : f.Suits (n / d) unit) (hd : 0 < d) (hunit : unit ≠ f.leastUnit) :
    2 ^ f.fractionBits ≤ divNearestEven (inUnits n d unit).1 (inUnits n d unit).2 := by
  have hpos := inUnits_pos (n := n) (q := unit) hd
  rw [← divNearestEven_mul (2 ^ f.fractionBits) one_pos]
  refine divNearestEven_mono one_pos hpos ?_
  rw [inUnits_ratio, le_div_iff₀ (zpow_pos two_pos _)]
  refine le_trans (le_of_eq ?_) (h.full.resolve_left hunit)
  rw [zpow_add₀ two_ne_zero, Nat.cast_one, div_one, Nat.mul_one]
  norm_cast

theorem packed_mono (hunit : f.leastUnit ≤ q) (hq : q ≤ q') (hsame : q = q' → m ≤ m')
    (hm : m ≤ 2 ^ (f.fractionBits + 1)) (hm' : q < q' → 2 ^ f.fractionBits ≤ m') :
    f.packed m q ≤ f.packed m' q' := by
  unfold packed
  simp only [Nat.pow_eq]
  rcases hq.eq_or_lt with rfl | hlt
  · exact Nat.add_le_add_left (hsame rfl) _
  · obtain ⟨k, hk⟩ : ∃ k : Nat, (q' - f.leastUnit).toNat = (q - f.leastUnit).toNat + 1 + k :=
      ⟨(q' - q - 1).toNat, by omega⟩
    have hfull := hm' hlt
    rw [hk, Nat.add_mul, Nat.add_mul]
    rw [Nat.pow_succ] at hm
    have := Nat.zero_le (k * 2 ^ f.fractionBits)
    omega

/-- A larger ratio does not round to a smaller magnitude. -/
theorem nearest_mono (hd : 0 < d) (hd' : 0 < d') (h : (n : ℚ) / d ≤ n' / d') :
    f.nearest n d ≤ f.nearest n' d' := by
  rcases Nat.eq_zero_or_pos n with rfl | hn
  · simp [nearest]
  have hr : (0 : ℚ) < n / d := div_pos (by exact_mod_cast hn) (by exact_mod_cast hd)
  have hn' : 0 < n' := by
    rcases Nat.eq_zero_or_pos n' with rfl | hn'
    · rw [Nat.cast_zero, zero_div] at h
      exact absurd h (not_le.2 hr)
    · exact hn'
  obtain ⟨unit, hsuits⟩ := exists_suits f hr
  obtain ⟨unit', hsuits'⟩ := exists_suits f (hr.trans_le h)
  have hunit := hsuits.mono hsuits' h
  rw [nearest_of_suits hn hd hsuits, nearest_of_suits hn' hd' hsuits']
  refine min_le_min_right _ (packed_mono hsuits.least hunit ?_ (hsuits.round_le hd) ?_)
  · rintro rfl
    refine divNearestEven_mono (inUnits_pos hd) (inUnits_pos hd') ?_
    rw [inUnits_ratio, inUnits_ratio]
    gcongr
  · exact fun hlt => hsuits'.le_round hd' (hsuits.least.trans_lt hlt).ne'

/-! ### Exact integers -/

/-- An integer with no more digits than a mantissa is a number of the format. -/
theorem exists_fills (hleast : f.leastUnit ≤ 0) (h : n ≤ 2 ^ (f.fractionBits + 1)) :
    ∃ m q, f.Fills m q ∧ q ≤ 1 ∧ (n : ℚ) = m * 2 ^ q := by
  rcases Nat.eq_zero_or_pos n with rfl | hn
  · exact ⟨0, f.leastUnit, ⟨le_rfl, Nat.two_pow_pos _, .inl rfl⟩, by omega, by simp⟩
  have hle : (n : ℚ) ≤ 2 ^ (f.fractionBits + 1 : Int) := by exact_mod_cast h
  obtain ⟨unit, hsuits⟩ := exists_suits f (r := n) (by exact_mod_cast hn)
  rcases le_or_gt unit 0 with hunit | hunit
  · obtain ⟨k, rfl⟩ : ∃ k : Nat, unit = -k := ⟨unit.natAbs, by omega⟩
    have hvalue : (n : ℚ) = (n * 2 ^ k : Nat) * 2 ^ (-k : Int) := by
      push_cast
      rw [zpow_neg, zpow_natCast, mul_assoc, mul_inv_cancel₀ (pow_ne_zero k two_ne_zero), mul_one]
    have hpow : (0 : ℚ) < 2 ^ (-k : Int) := zpow_pos two_pos _
    refine ⟨n * 2 ^ k, -k, ⟨hsuits.least, ?_, hsuits.full.imp_right fun hfull => ?_⟩, by omega, hvalue⟩
    · have hbelow := hsuits.below
      rw [hvalue, zpow_add₀ two_ne_zero] at hbelow
      exact_mod_cast lt_of_mul_lt_mul_right hbelow hpow.le
    · rw [hvalue, zpow_add₀ two_ne_zero] at hfull
      exact_mod_cast le_of_mul_le_mul_right hfull hpow
  · have hfull := hsuits.full.resolve_left (by omega)
    have hone : unit = 1 := by
      have hexp : (f.fractionBits + unit : Int) ≤ f.fractionBits + 1 :=
        (zpow_le_zpow_iff_right₀ one_lt_two).1 (hfull.trans hle)
      omega
    have hvalue : (n : ℚ) = (2 ^ f.fractionBits : Nat) * 2 ^ (1 : Int) := by
      rw [hone] at hfull
      rw [le_antisymm hle hfull, zpow_add₀ two_ne_zero]
      norm_cast
    exact ⟨2 ^ f.fractionBits, 1, ⟨by omega, Nat.pow_lt_pow_succ one_lt_two, .inr le_rfl⟩, le_rfl, hvalue⟩

end BinaryFormat

namespace Double

open BinaryFormat (double)

/-! ### Doubles of integers -/

theorem ofMagnitude_parts {magnitude : Nat} (negative : Bool) (h : magnitude ≤ double.infinity) :
    (ofMagnitude negative magnitude).isNegative = negative ∧
      (ofMagnitude negative magnitude).magnitude = magnitude := by
  have hinfinity : double.infinity < 2 ^ 63 := double.infinity_lt_signWeight
  have hsign : double.signWeight = 2 ^ 63 := rfl
  have hbits : (ofMagnitude negative magnitude).bits.toNat =
      if negative then 2 ^ 63 + magnitude else magnitude := by
    rw [ofMagnitude, hsign, Nat.toUInt64, UInt64.toNat_ofNat']
    cases negative <;> simp only [Bool.false_eq_true, if_true, if_false] <;> omega
  rw [isNegative, Double.magnitude, hbits, Nat.pow_eq]
  cases negative
  · simp
    omega
  · simp
    omega

theorem nearest_le_infinity (n d : Nat) : double.nearest n d ≤ double.infinity := by
  unfold BinaryFormat.nearest
  split
  · exact Nat.zero_le _
  · exact Nat.min_le_right _ _

theorem not_isNaN_ofInt (n : Int) : (ofInt n).isNaN = false := by
  obtain ⟨-, hmagnitude⟩ := ofMagnitude_parts (n < 0) (nearest_le_infinity n.natAbs 1)
  rw [isNaN, ofInt, ofRatio, hmagnitude]
  exact decide_eq_false (Nat.not_lt.2 (nearest_le_infinity _ _))

theorem rank_ofInt (n : Int) :
    (ofInt n).rank = if n < 0 then -(double.nearest n.natAbs 1 : Int) else double.nearest n.natAbs 1 := by
  obtain ⟨hnegative, hmagnitude⟩ := ofMagnitude_parts (n < 0) (nearest_le_infinity n.natAbs 1)
  rw [rank, ofInt, ofRatio, hnegative, hmagnitude]
  simp

theorem nearest_natAbs_mono {i j : Int} (h : i.natAbs ≤ j.natAbs) :
    double.nearest i.natAbs 1 ≤ double.nearest j.natAbs 1 := by
  refine BinaryFormat.nearest_mono one_pos one_pos ?_
  gcongr

/-- Rounding to a double keeps the order of integers. -/
theorem rank_ofInt_mono {i j : Int} (h : i ≤ j) : (ofInt i).rank ≤ (ofInt j).rank := by
  rw [rank_ofInt, rank_ofInt]
  split_ifs with hi hj hj
  · have := nearest_natAbs_mono (i := j) (j := i) (by omega)
    omega
  · omega
  · omega
  · have := nearest_natAbs_mono (i := i) (j := j) (by omega)
    omega

/-- An integer of up to 53 digits is the value of its double. -/
theorem nearest_exact {n : Nat} (h : n ≤ 2 ^ 53) : ∃ m q, double.Fills m q ∧
    double.nearest n 1 = double.packed m q ∧ (n : ℚ) = m * 2 ^ q := by
  obtain ⟨m, q, hfills, hq, hvalue⟩ := BinaryFormat.exists_fills (f := double) (by decide) h
  have hleast : double.leastUnit = -1074 := rfl
  have hfinite : double.packed m q ≤ double.infinity := by
    have hm : m < 2 ^ 53 := hfills.fits
    have hunits : (q + 1074).toNat * 2 ^ 52 ≤ 1075 * 2 ^ 52 := by
      gcongr
      omega
    have hinfinity : double.infinity = 2047 * 2 ^ 52 := rfl
    have hpacked : double.packed m q = (q + 1074).toNat * 2 ^ 52 + m := by
      rw [BinaryFormat.packed, hleast, sub_neg_eq_add, Nat.pow_eq]
      rfl
    omega
  refine ⟨m, q, hfills, BinaryFormat.nearest_of_value hfills one_pos ?_ hfinite, hvalue⟩
  rw [Nat.cast_one, div_one, hvalue]

theorem nearest_inj {n k : Nat} (h : n ≤ 2 ^ 53) (h' : k ≤ 2 ^ 53)
    (heq : double.nearest n 1 = double.nearest k 1) : n = k := by
  obtain ⟨m, q, hfills, hnearest, hvalue⟩ := nearest_exact h
  obtain ⟨m', q', hfills', hnearest', hvalue'⟩ := nearest_exact h'
  rw [hnearest, hnearest'] at heq
  have hparts : (m, q) = (m', q') := by
    rw [← BinaryFormat.scaled_packed hfills, heq, BinaryFormat.scaled_packed hfills']
  obtain ⟨rfl, rfl⟩ := Prod.mk.inj hparts
  exact_mod_cast hvalue.trans hvalue'.symm

/-- Different integers of up to 53 digits have different doubles. -/
theorem rank_ofInt_inj {i j : Int} (hi : i.natAbs ≤ 2 ^ 53) (hj : j.natAbs ≤ 2 ^ 53)
    (h : (ofInt i).rank = (ofInt j).rank) : i = j := by
  have hzero : double.nearest 0 1 = 0 := rfl
  rw [rank_ofInt, rank_ofInt] at h
  split_ifs at h with hi' hj' hj'
  · have := nearest_inj hi hj (by omega)
    omega
  · have := nearest_inj (k := 0) hi (by omega) (by omega)
    omega
  · have := nearest_inj (k := 0) hj (by omega) (by omega)
    omega
  · have := nearest_inj hi hj (by omega)
    omega

end Double

end ObjectMachine
