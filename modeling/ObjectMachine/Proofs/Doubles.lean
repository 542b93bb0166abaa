import Mathlib
import ObjectMachine.Double

/-! The numbers behind the patterns. A ratio is rounded in the one unit that suits its size, so a
number of the format rounds to itself; with that a number that fits a narrower format survives the
way there and back. -/

namespace ObjectMachine

/-- The quotient rounds to `k` when it lies within a half of it, and a half away only for an even `k`. -/
theorem divNearestEven_eq {a b k : Nat} (hlow : 2 * (k * b) ≤ 2 * a + b) (hhigh : 2 * a ≤ 2 * (k * b) + b)
    (htie : 2 * (k * b) = 2 * a + b ∨ 2 * a = 2 * (k * b) + b → k % 2 = 0) (hb : 0 < b) :
    divNearestEven a b = k := by
  have ha : b * (a / b) + a % b = a := Nat.div_add_mod a b
  have hr : a % b < b := Nat.mod_lt a hb
  unfold divNearestEven
  dsimp only
  generalize a / b = q at ha
  generalize a % b = r at ha hr
  have hcases : k = q ∨ k = q + 1 := by
    have hle : q ≤ k := by
      by_contra! hlt
      have : (k + 1) * b ≤ q * b := Nat.mul_le_mul_right b hlt
      have : q * b = b * q := Nat.mul_comm q b
      have : (k + 1) * b = k * b + b := Nat.succ_mul k b
      omega
    have hge : k ≤ q + 1 := by
      by_contra! hlt
      have : (q + 2) * b ≤ k * b := Nat.mul_le_mul_right b hlt
      have : (q + 2) * b = b * q + 2 * b := by ring
      omega
    omega
  rcases hcases with rfl | rfl
  · have hmul : k * b = b * k := Nat.mul_comm k b
    grind
  · have hmul : (q + 1) * b = b * q + b := by ring
    grind

theorem divNearestEven_mul (k : Nat) {b : Nat} (hb : 0 < b) : divNearestEven (k * b) b = k :=
  divNearestEven_eq (by omega) (by omega) (by omega) hb

namespace BinaryFormat

variable {f : BinaryFormat} {n d m magnitude : Nat} {q unit : Int}

/-! ### Units -/

theorem inUnits_pos (hd : 0 < d) : 0 < (inUnits n d q).2 := by
  unfold inUnits
  split
  · exact hd
  · exact Nat.mul_pos hd (Nat.two_pow_pos _)

theorem inUnits_ratio (n d : Nat) (q : Int) :
    ((inUnits n d q).1 : ℚ) / (inUnits n d q).2 = n / d / 2 ^ q := by
  unfold inUnits
  split
  · next hq =>
    have habs : q = -(q.natAbs : Int) := by omega
    rw [habs]
    simp only [Int.natAbs_neg, Int.natAbs_natCast, zpow_neg, zpow_natCast, div_inv_eq_mul,
      Nat.pow_eq]
    push_cast
    ring
  · next hq =>
    have habs : q = (q.natAbs : Int) := by omega
    rw [habs]
    simp only [Int.natAbs_natCast, zpow_natCast, Nat.pow_eq]
    push_cast
    rw [div_div]

theorem two_zpow_lt_iff {a b : Int} : (2 : ℚ) ^ a < 2 ^ b ↔ a < b :=
  zpow_lt_zpow_iff_right₀ (by norm_num)

theorem log2_bounds (hn : 0 < n) : (2 : ℚ) ^ (n.log2 : Int) ≤ n ∧ (n : ℚ) < 2 ^ (n.log2 + 1 : Int) := by
  constructor
  · rw [zpow_natCast]
    exact_mod_cast Nat.log2_self_le (Nat.ne_of_gt hn)
  · exact_mod_cast (Nat.lt_log2_self : n < 2 ^ (n.log2 + 1))

/-- The lengths of its parts place a ratio between two powers of two. -/
theorem ratio_bounds (hn : 0 < n) (hd : 0 < d) :
    (2 : ℚ) ^ ((n.log2 : Int) - d.log2 - 1) < n / d ∧
      (n : ℚ) / d < 2 ^ ((n.log2 : Int) - d.log2 + 1) := by
  obtain ⟨hn₁, hn₂⟩ := log2_bounds hn
  obtain ⟨hd₁, hd₂⟩ := log2_bounds hd
  have hdpos : (0 : ℚ) < d := by exact_mod_cast hd
  constructor
  · rw [lt_div_iff₀ hdpos]
    calc (2 : ℚ) ^ ((n.log2 : Int) - d.log2 - 1) * d
        < 2 ^ ((n.log2 : Int) - d.log2 - 1) * 2 ^ ((d.log2 : Int) + 1) := by gcongr
      _ = 2 ^ (n.log2 : Int) := by rw [← zpow_add₀ two_ne_zero]; congr 1; ring
      _ ≤ n := hn₁
  · rw [div_lt_iff₀ hdpos]
    calc (n : ℚ) < 2 ^ ((n.log2 : Int) + 1) := hn₂
      _ = 2 ^ ((n.log2 : Int) - d.log2 + 1) * 2 ^ (d.log2 : Int) := by
        rw [← zpow_add₀ two_ne_zero]; congr 1; ring
      _ ≤ 2 ^ ((n.log2 : Int) - d.log2 + 1) * d := by gcongr

/-- The unit in which a ratio is rounded: the finest in which it has no more digits than a mantissa,
and no finer than the least one. -/
structure Suits (f : BinaryFormat) (r : ℚ) (unit : Int) : Prop where
  least : f.leastUnit ≤ unit
  below : r < 2 ^ (f.fractionBits + 1 + unit)
  full : unit = f.leastUnit ∨ 2 ^ (f.fractionBits + unit) ≤ r

theorem nearest_of_suits (hn : 0 < n) (hd : 0 < d) (h : f.Suits (n / d) unit) :
    f.nearest n d = min
      (f.packed (divNearestEven (inUnits n d unit).1 (inUnits n d unit).2) unit) f.infinity := by
  obtain ⟨hleast, hbelow, hfull⟩ := h
  obtain ⟨hlow, hhigh⟩ := ratio_bounds hn hd
  unfold nearest
  rw [if_neg (Nat.ne_of_gt hn)]
  dsimp only
  generalize hguess : max ((n.log2 : Int) - d.log2 - f.fractionBits - 1) f.leastUnit = guess
  -- The guess is the unit or one finer, as one comparison tells.
  have hfloor : Nat.pow 2 (f.fractionBits + 1) ≤ (inUnits n d guess).1 / (inUnits n d guess).2 ↔
      (2 : ℚ) ^ (f.fractionBits + 1 + guess) ≤ n / d := by
    have hpos : (0 : ℚ) < (inUnits n d guess).2 := by exact_mod_cast inUnits_pos hd
    rw [Nat.le_div_iff_mul_le (inUnits_pos hd), zpow_add₀ two_ne_zero,
      ← le_div_iff₀ (zpow_pos two_pos _), ← inUnits_ratio, le_div_iff₀ hpos]
    exact_mod_cast Iff.rfl
  have hunit : (if Nat.pow 2 (f.fractionBits + 1) ≤ (inUnits n d guess).1 / (inUnits n d guess).2
      then guess + 1 else guess) = unit := by
    split
    · next h =>
      have hge := hfloor.1 h
      have h₁ := two_zpow_lt_iff.1 (hge.trans_lt hbelow)
      rcases hfull with rfl | hfull
      · omega
      · have h₂ := two_zpow_lt_iff.1 (hfull.trans_lt hhigh)
        omega
    · next h =>
      have hlt := not_le.1 (mt hfloor.2 h)
      have h₁ := two_zpow_lt_iff.1 (hlow.trans hbelow)
      rcases hfull with rfl | hfull
      · omega
      · have h₂ := two_zpow_lt_iff.1 (hfull.trans_lt hlt)
        omega
  rw [hunit]

/-! ### Mantissas -/

/-- The mantissa `m` counts units of `2 ^ q` the way the format does: its digits fill the fraction
field, fewer only at the least unit. -/
structure Fills (f : BinaryFormat) (m : Nat) (q : Int) : Prop where
  least : f.leastUnit ≤ q
  fits : m < 2 ^ (f.fractionBits + 1)
  full : q = f.leastUnit ∨ 2 ^ f.fractionBits ≤ m

theorem fills_scaled (f : BinaryFormat) (magnitude : Nat) :
    f.Fills (f.scaled magnitude).1 (f.scaled magnitude).2 := by
  have hfraction : magnitude % 2 ^ f.fractionBits < 2 ^ f.fractionBits :=
    Nat.mod_lt _ (Nat.two_pow_pos _)
  have hpow : 2 ^ (f.fractionBits + 1) = 2 * 2 ^ f.fractionBits := Nat.pow_succ'
  unfold scaled
  simp only [Nat.pow_eq]
  split
  · exact ⟨le_rfl, by dsimp only; omega, .inl rfl⟩
  · exact ⟨by dsimp only; omega, by dsimp only; omega, .inr (Nat.le_add_right _ _)⟩

theorem packed_scaled (f : BinaryFormat) (magnitude : Nat) :
    f.packed (f.scaled magnitude).1 (f.scaled magnitude).2 = magnitude := by
  have hparts := Nat.div_add_mod' magnitude (2 ^ f.fractionBits)
  unfold scaled packed
  simp only [Nat.pow_eq]
  split
  · next h =>
    rw [h] at hparts
    simpa using hparts
  · next h =>
    obtain ⟨k, hk⟩ := Nat.exists_eq_succ_of_ne_zero h
    rw [hk, Nat.succ_mul] at hparts
    simp only [hk, Nat.succ_eq_add_one, Nat.add_sub_cancel, add_sub_cancel_left, Int.toNat_natCast]
    omega

theorem scaled_packed (h : f.Fills m q) : f.scaled (f.packed m q) = (m, q) := by
  obtain ⟨hleast, hfits, hfull⟩ := h
  obtain ⟨k, hk⟩ : ∃ k : Nat, q = f.leastUnit + k := ⟨(q - f.leastUnit).toNat, by omega⟩
  have hpos : 0 < 2 ^ f.fractionBits := Nat.two_pow_pos _
  unfold scaled packed
  simp only [Nat.pow_eq, hk, add_sub_cancel_left, Int.toNat_natCast]
  rw [Nat.mul_comm k, Nat.mul_add_div hpos, Nat.mul_add_mod]
  rcases Nat.lt_or_ge m (2 ^ f.fractionBits) with hlt | hge
  · have hk₀ : k = 0 := by omega
    rw [Nat.div_eq_of_lt hlt, Nat.mod_eq_of_lt hlt, hk₀]
    simp
  · have hdiv : m / 2 ^ f.fractionBits = 1 := by
      rw [Nat.pow_succ'] at hfits
      exact Nat.div_eq_of_lt_le (by omega) (by omega)
    have hmod : 2 ^ f.fractionBits + m % 2 ^ f.fractionBits = m := by
      have := Nat.div_add_mod' m (2 ^ f.fractionBits)
      rw [hdiv] at this
      omega
    rw [hdiv, if_neg (Nat.succ_ne_zero k), hmod, Nat.add_sub_cancel]

theorem Fills.suits (h : f.Fills m q) : f.Suits (m * 2 ^ q) q := by
  obtain ⟨hleast, hfits, hfull⟩ := h
  have hpos : (0 : ℚ) < 2 ^ q := zpow_pos two_pos _
  refine ⟨hleast, ?_, hfull.imp_right fun hfull => ?_⟩
  · rw [zpow_add₀ two_ne_zero]
    refine mul_lt_mul_of_pos_right ?_ hpos
    exact_mod_cast hfits
  · rw [zpow_add₀ two_ne_zero]
    refine mul_le_mul_of_nonneg_right ?_ hpos.le
    exact_mod_cast hfull

theorem infinity_lt_signWeight (f : BinaryFormat) : f.infinity < f.signWeight := by
  have hexp : 0 < 2 ^ f.exponentBits := Nat.two_pow_pos _
  simp only [infinity, signWeight, Nat.pow_eq]
  rw [Nat.pow_add, Nat.mul_comm (2 ^ f.fractionBits)]
  exact Nat.mul_lt_mul_of_pos_right (by omega) (Nat.two_pow_pos _)

/-- A number of the format rounds to itself. -/
theorem nearest_of_value (h : f.Fills m q) (hd : 0 < d) (hvalue : (n : ℚ) / d = m * 2 ^ q)
    (hfinite : f.packed m q ≤ f.infinity) : f.nearest n d = f.packed m q := by
  have hpow : (2 : ℚ) ^ q ≠ 0 := (zpow_pos two_pos q).ne'
  have hdpos : (d : ℚ) ≠ 0 := by exact_mod_cast hd.ne'
  rcases Nat.eq_zero_or_pos n with rfl | hn
  · have hm : m = 0 := by
      rw [Nat.cast_zero, zero_div, eq_comm, mul_eq_zero] at hvalue
      exact_mod_cast hvalue.resolve_right hpow
    have hq : q = f.leastUnit := by
      refine h.full.resolve_right fun hfull => ?_
      have := Nat.two_pow_pos f.fractionBits
      omega
    simp [nearest, packed, hm, hq]
  · rw [nearest_of_suits hn hd (hvalue ▸ h.suits)]
    have hunits := inUnits_ratio n d q
    have hpos := inUnits_pos (n := n) (q := q) hd
    rw [hvalue, mul_div_cancel_right₀ _ hpow, div_eq_iff (by exact_mod_cast hpos.ne')] at hunits
    have hmul : (inUnits n d q).1 = m * (inUnits n d q).2 := by exact_mod_cast hunits
    rw [hmul, divNearestEven_mul m hpos, Nat.min_eq_left hfinite]

end BinaryFormat

namespace Double

variable {f : BinaryFormat} {x : Double} {pattern : Nat}

theorem ofMagnitude_eta (x : Double) : ofMagnitude x.isNegative x.magnitude = x := by
  have hbound : x.bits.toNat < 2 ^ 64 := x.bits.toNat_lt
  have hbits : (if x.isNegative then BinaryFormat.double.signWeight + x.magnitude
      else x.magnitude) = x.bits.toNat := by
    simp only [isNegative, magnitude, BinaryFormat.signWeight, BinaryFormat.double, Nat.pow_eq,
      decide_eq_true_eq]
    split <;> omega
  unfold ofMagnitude
  rw [hbits]
  simp

/-- The finite number of a pattern, by its sign and magnitude. -/
theorem widen_signed {negative : Bool} {magnitude : Nat} (h : magnitude < f.infinity) :
    widen f (if negative then f.signWeight + magnitude else magnitude) =
      ofRatio negative (BinaryFormat.inUnits (f.scaled magnitude).1 1 (-(f.scaled magnitude).2)).1
        (BinaryFormat.inUnits (f.scaled magnitude).1 1 (-(f.scaled magnitude).2)).2 := by
  have hsign : magnitude < f.signWeight := h.trans f.infinity_lt_signWeight
  have hmod : (if negative then f.signWeight + magnitude else magnitude) % f.signWeight = magnitude := by
    split <;> simp [Nat.mod_eq_of_lt hsign]
  have hneg : decide (f.signWeight ≤ if negative then f.signWeight + magnitude else magnitude) =
      negative := by
    cases negative <;> simp [hsign]
  unfold widen
  dsimp only
  rw [hmod, hneg, if_neg (by omega), if_neg (by omega)]

/-- The mantissa in a coarser unit that leaves no remainder. -/
theorem fills_narrowed {m k : Nat} {q unit : Int} (hm : BinaryFormat.double.Fills m q)
    (hwider : BinaryFormat.double.leastUnit ≤ f.leastUnit)
    (hunit : unit = max (q + m.log2 - f.fractionBits) f.leastUnit)
    (hvalue : (k : ℚ) * 2 ^ unit = m * 2 ^ q) : f.Fills k unit := by
  have hpow : (0 : ℚ) < 2 ^ unit := zpow_pos two_pos _
  refine ⟨by omega, ?_, ?_⟩
  · have hlt : (k : ℚ) * 2 ^ unit < 2 ^ (f.fractionBits + 1 : Int) * 2 ^ unit := by
      rw [hvalue, ← zpow_add₀ two_ne_zero]
      rcases Nat.eq_zero_or_pos m with rfl | hpos
      · rw [Nat.cast_zero, zero_mul]
        exact zpow_pos two_pos _
      · calc (m : ℚ) * 2 ^ q < 2 ^ (m.log2 + 1 : Int) * 2 ^ q := by
              gcongr
              exact (BinaryFormat.log2_bounds hpos).2
          _ = 2 ^ (m.log2 + 1 + q : Int) := (zpow_add₀ two_ne_zero _ _).symm
          _ ≤ 2 ^ (f.fractionBits + 1 + unit) := by
            refine zpow_le_zpow_right₀ one_le_two ?_
            omega
    exact_mod_cast lt_of_mul_lt_mul_right hlt hpow.le
  · refine or_iff_not_imp_left.2 fun hne => ?_
    have hle : (2 : ℚ) ^ (f.fractionBits : Int) * 2 ^ unit ≤ k * 2 ^ unit := by
      rcases Nat.eq_zero_or_pos m with rfl | hpos
      · have hq := hm.full.resolve_right (Nat.not_le.2 (Nat.two_pow_pos _))
        rw [Nat.log2_zero] at hunit
        omega
      · calc (2 : ℚ) ^ (f.fractionBits : Int) * 2 ^ unit = 2 ^ (m.log2 : Int) * 2 ^ q := by
              rw [← zpow_add₀ two_ne_zero, ← zpow_add₀ two_ne_zero]
              congr 1
              omega
          _ ≤ m * 2 ^ q := by
            gcongr
            exact (BinaryFormat.log2_bounds hpos).1
          _ = k * 2 ^ unit := hvalue.symm
    exact_mod_cast le_of_mul_le_mul_right hle hpow

/-- A number that fits a narrower format is the number of its pattern there. -/
theorem widen_of_narrow? (hwider : BinaryFormat.double.leastUnit ≤ f.leastUnit)
    (hfinite : x.magnitude < BinaryFormat.double.infinity)
    (h : narrow? f x = some pattern) : widen f pattern = x := by
  have hfills := BinaryFormat.fills_scaled BinaryFormat.double x.magnitude
  have hpacked := BinaryFormat.packed_scaled BinaryFormat.double x.magnitude
  unfold narrow? at h
  generalize BinaryFormat.double.scaled x.magnitude = s at h hfills hpacked
  obtain ⟨m, q⟩ := s
  dsimp only at h hfills hpacked
  generalize hunit : max (q + m.log2 - f.fractionBits) f.leastUnit = unit at h
  have hd : 0 < (BinaryFormat.inUnits m 1 (unit - q)).2 := BinaryFormat.inUnits_pos one_pos
  have hratio := BinaryFormat.inUnits_ratio m 1 (unit - q)
  generalize BinaryFormat.inUnits m 1 (unit - q) = parts at h hd hratio
  obtain ⟨n, d⟩ := parts
  dsimp only at h hd hratio
  split at h
  · next hexact =>
    obtain ⟨hmod, hlt⟩ := hexact
    have hk : (n / d : Nat) * (2 : ℚ) ^ unit = m * 2 ^ q := by
      rw [Nat.cast_div (Nat.dvd_of_mod_eq_zero hmod) (by exact_mod_cast hd.ne'), hratio,
        zpow_sub₀ two_ne_zero]
      field_simp
      simp
    generalize n / d = k at h hlt hk
    have hnarrow : f.Fills k unit := fills_narrowed hfills hwider hunit.symm hk
    have hback : (BinaryFormat.inUnits k 1 (-unit)).1 / ((BinaryFormat.inUnits k 1 (-unit)).2 : ℚ) =
        m * 2 ^ q := by
      rw [BinaryFormat.inUnits_ratio, Nat.cast_one, div_one, zpow_neg, div_inv_eq_mul, hk]
    rw [← Option.some.inj h, widen_signed hlt, BinaryFormat.scaled_packed hnarrow, ofRatio,
      BinaryFormat.nearest_of_value hfills (BinaryFormat.inUnits_pos one_pos) hback
        (hpacked ▸ hfinite.le), hpacked, ofMagnitude_eta]
  · cases h

theorem narrow?_lt (h : narrow? f x = some pattern) : pattern < 2 * f.signWeight := by
  have hsign := f.infinity_lt_signWeight
  unfold narrow? at h
  dsimp only at h
  split at h
  · next hexact =>
    have hlt := hexact.2
    have heq := Option.some.inj h
    split at heq <;> omega
  · cases h

end Double

end ObjectMachine
