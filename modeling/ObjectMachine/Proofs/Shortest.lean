import ObjectMachine.Double.Reading
import ObjectMachine.Double.Shortest
import ObjectMachine.Proofs.Doubles
import ObjectMachine.Proofs.Numerals

/-! The shortest decimal of a double lies among the decimals that round to it. The grids that are tried
get as fine as half the gap to the next double, where the point below the double is near enough. -/

namespace ObjectMachine

namespace Double

variable {magnitude n d k : Nat} {a b e : Int} {x : ℚ}

/-! ### Decimals that round to a double -/

theorem aligned_scale (n : Nat) (a : Int) (k : Nat) (b : Int) : ∃ s : ℚ, 0 < s ∧
    ((aligned n a k b).1 : ℚ) = s * (n * 2 ^ a) ∧ ((aligned n a k b).2 : ℚ) = s * (k * 10 ^ b) := by
  have hparts : ∀ (base : Nat) (e : Int), 0 < base → ∃ num den : Nat,
      (if e < 0 then (1, Nat.pow base e.natAbs) else (Nat.pow base e.natAbs, 1)) = (num, den) ∧
        0 < den ∧ (num : ℚ) = den * base ^ e := by
    intro base e hbase
    have hpos : 0 < base ^ e.natAbs := Nat.pow_pos hbase
    by_cases he : e < 0
    · refine ⟨_, _, if_pos he, hpos, ?_⟩
      have habs : e = -(e.natAbs : Int) := by omega
      have hne : (base : ℚ) ^ e.natAbs ≠ 0 := by exact_mod_cast hpos.ne'
      rw [habs, zpow_neg, zpow_natCast, Int.natAbs_neg, Int.natAbs_natCast, Nat.pow_eq]
      push_cast
      field_simp
    · refine ⟨_, _, if_neg he, one_pos, ?_⟩
      have habs : e = (e.natAbs : Int) := by omega
      rw [habs, zpow_natCast, Int.natAbs_natCast, Nat.pow_eq]
      push_cast
      ring
  obtain ⟨an, ad, htwo, had, han⟩ := hparts 2 a two_pos
  obtain ⟨bn, bd, hten, hbd, hbn⟩ := hparts 10 b (by decide)
  refine ⟨ad * bd, by exact_mod_cast Nat.mul_pos had hbd, ?_⟩
  unfold aligned
  dsimp only
  rw [htwo, hten]
  dsimp only
  push_cast at *
  rw [han, hbn]
  constructor <;> ring

theorem aligned_le_iff : (aligned n a k b).1 ≤ (aligned n a k b).2 ↔ (n : ℚ) * 2 ^ a ≤ k * 10 ^ b := by
  obtain ⟨s, hs, hn, hk⟩ := aligned_scale n a k b
  rw [← Nat.cast_le (α := ℚ), hn, hk, mul_le_mul_iff_right₀ hs]

theorem aligned_lt_iff : (aligned n a k b).1 < (aligned n a k b).2 ↔ (n : ℚ) * 2 ^ a < k * 10 ^ b := by
  obtain ⟨s, hs, hn, hk⟩ := aligned_scale n a k b
  rw [← Nat.cast_lt (α := ℚ), hn, hk, mul_lt_mul_iff_right₀ hs]

theorem aligned_ge_iff : (aligned n a k b).2 ≤ (aligned n a k b).1 ↔ (k : ℚ) * 10 ^ b ≤ n * 2 ^ a := by
  rw [← not_lt, aligned_lt_iff, not_lt]

theorem aligned_gt_iff : (aligned n a k b).2 < (aligned n a k b).1 ↔ (k : ℚ) * 10 ^ b < n * 2 ^ a := by
  rw [← not_le, aligned_le_iff, not_le]

namespace Rounding

variable {r : Rounding}

/-- A number lies between the ends of the interval, or on one of them where these count. -/
def Holds (r : Rounding) (x : ℚ) : Prop :=
  if r.closed then r.low * 2 ^ r.unit ≤ x ∧ x ≤ r.high * 2 ^ r.unit
  else r.low * 2 ^ r.unit < x ∧ x < r.high * 2 ^ r.unit

theorem Holds.weaken (h : r.Holds x) : r.low * 2 ^ r.unit ≤ x ∧ x ≤ r.high * 2 ^ r.unit := by
  unfold Holds at h
  split at h
  · exact h
  · exact ⟨h.1.le, h.2.le⟩

theorem Holds.of_lt (hlow : r.low * 2 ^ r.unit < x) (hhigh : x < r.high * 2 ^ r.unit) : r.Holds x := by
  unfold Holds
  split
  · exact ⟨hlow.le, hhigh.le⟩
  · exact ⟨hlow, hhigh⟩

theorem admits_iff : r.admits k e ↔ r.Holds (k * 10 ^ e) := by
  unfold admits Holds
  dsimp only
  by_cases hclosed : r.closed
  · rw [if_pos hclosed, if_pos hclosed, Bool.and_eq_true, decide_eq_true_eq, decide_eq_true_eq,
      aligned_le_iff, aligned_ge_iff]
  · rw [if_neg hclosed, if_neg hclosed, Bool.and_eq_true, decide_eq_true_eq, decide_eq_true_eq,
      aligned_lt_iff, aligned_gt_iff]

end Rounding

/-! ### Rounding -/

/-- A ratio within a half of `k` rounds to `k`, a half away only if `k` is even. -/
theorem divNearestEven_of_near (hd : 0 < d) (hlow : (k : ℚ) - 1 / 2 ≤ n / d) (hhigh : (n : ℚ) / d ≤ k + 1 / 2)
    (hodd : k % 2 = 1 → (k : ℚ) - 1 / 2 < n / d ∧ (n : ℚ) / d < k + 1 / 2) : divNearestEven n d = k := by
  have hpos : (0 : ℚ) < d := by exact_mod_cast hd
  rw [le_div_iff₀ hpos] at hlow
  rw [div_le_iff₀ hpos] at hhigh
  rw [lt_div_iff₀ hpos, div_lt_iff₀ hpos] at hodd
  have hlow' : (2 * (k * d : ℚ)) ≤ 2 * n + d := by linarith
  have hhigh' : (2 * n : ℚ) ≤ 2 * (k * d) + d := by linarith
  refine divNearestEven_eq (by exact_mod_cast hlow') (by exact_mod_cast hhigh') (fun htie => ?_) hd
  by_contra hne
  obtain ⟨hlt, hgt⟩ := hodd (by omega)
  have hlt' : (2 * (k * d : ℚ)) < 2 * n + d := by linarith
  have hgt' : (2 * n : ℚ) < 2 * (k * d) + d := by linarith
  have h₁ : 2 * (k * d) < 2 * n + d := by exact_mod_cast hlt'
  have h₂ : 2 * n < 2 * (k * d) + d := by exact_mod_cast hgt'
  omega

theorem rounding_eq {m : Nat} {q : Int} (h : BinaryFormat.double.scaled magnitude = (m, q)) :
    rounding magnitude = ⟨4 * m, if m = 2 ^ 52 ∧ 2 ^ 53 ≤ magnitude then 4 * m - 1 else 4 * m - 2,
      4 * m + 2, q - 2, m % 2 == 0⟩ := by
  unfold rounding
  rw [h]
  rfl

/-- The interval of a mantissa in its own unit. It reaches half a unit up and down, and only a quarter
down to where the unit is half as wide. -/
theorem holds_bounds {m : Nat} {q : Int} (hm : 0 < m)
    (hscaled : BinaryFormat.double.scaled magnitude = (m, q)) (h : (rounding magnitude).Holds x) :
    (m : ℚ) - 1 / 2 ≤ x / 2 ^ q ∧ x / 2 ^ q ≤ m + 1 / 2 ∧
      (m % 2 = 1 → (m : ℚ) - 1 / 2 < x / 2 ^ q ∧ x / 2 ^ q < m + 1 / 2) ∧
      (m = 2 ^ 52 → 2 ^ 53 ≤ magnitude → (m : ℚ) - 1 / 4 ≤ x / 2 ^ q) := by
  have hpow : (0 : ℚ) < 2 ^ q := zpow_pos two_pos q
  have hquarter : ∀ n : Nat, (n : ℚ) * 2 ^ (q - 2) = n / 4 * 2 ^ q := by
    intro n
    rw [zpow_sub₀ two_ne_zero]
    ring
  rw [rounding_eq hscaled] at h
  generalize hlow : (if m = 2 ^ 52 ∧ 2 ^ 53 ≤ magnitude then 4 * m - 1 else 4 * m - 2) = low at h
  have hends : low / 4 ≤ x / 2 ^ q ∧ x / 2 ^ q ≤ (m : ℚ) + 1 / 2 := by
    have hweak := h.weaken
    dsimp only at hweak
    rw [hquarter, hquarter, ← le_div_iff₀ hpow, ← div_le_iff₀ hpow] at hweak
    push_cast at hweak
    exact ⟨hweak.1, hweak.2.trans_eq (by ring)⟩
  have hhalf : (m : ℚ) - 1 / 2 ≤ low / 4 := by
    have hle : 4 * m ≤ low + 2 := by split_ifs at hlow <;> omega
    have hle' : (4 * m : ℚ) ≤ low + 2 := by exact_mod_cast hle
    linarith
  refine ⟨hhalf.trans hends.1, hends.2, fun hodd => ?_, fun hmin hmagnitude => ?_⟩
  · unfold Rounding.Holds at h
    dsimp only at h
    rw [if_neg (by simp [hodd]), hquarter, hquarter, ← lt_div_iff₀ hpow, ← div_lt_iff₀ hpow] at h
    push_cast at h
    exact ⟨hhalf.trans_lt h.1, h.2.trans_eq (by ring)⟩
  · rw [if_pos ⟨hmin, hmagnitude⟩] at hlow
    have heq : 4 * m = low + 1 := by omega
    have heq' : (4 * m : ℚ) = low + 1 := by exact_mod_cast heq
    linarith [hends.1]

theorem suits_iff {f : BinaryFormat} {q : Int} {r : ℚ} : f.Suits r q ↔ f.leastUnit ≤ q ∧
    r / 2 ^ q < 2 ^ (f.fractionBits + 1) ∧ (q = f.leastUnit ∨ 2 ^ f.fractionBits ≤ r / 2 ^ q) := by
  have hpow : (0 : ℚ) < 2 ^ q := zpow_pos two_pos q
  have hsplit : ∀ k : Nat, (2 : ℚ) ^ (k + q : Int) = 2 ^ k * 2 ^ q := by
    intro k
    rw [zpow_add₀ two_ne_zero, zpow_natCast]
  rw [div_lt_iff₀ hpow, le_div_iff₀ hpow, ← hsplit, ← hsplit]
  exact ⟨fun ⟨hleast, hbelow, hfull⟩ => ⟨hleast, by exact_mod_cast hbelow, hfull⟩,
    fun ⟨hleast, hbelow, hfull⟩ => ⟨hleast, by exact_mod_cast hbelow, hfull⟩⟩

theorem mantissa_pos {m : Nat} {q : Int} (hpos : 0 < magnitude)
    (hscaled : BinaryFormat.double.scaled magnitude = (m, q)) : 0 < m := by
  have hfills := BinaryFormat.fills_scaled BinaryFormat.double magnitude
  have hpacked := BinaryFormat.packed_scaled BinaryFormat.double magnitude
  rw [hscaled] at hfills hpacked
  rcases hfills.full with hleast | hfull
  · refine Nat.pos_of_ne_zero fun hzero => ?_
    dsimp only at hleast hpacked
    simp [BinaryFormat.packed, hzero, hleast] at hpacked
    omega
  · exact (Nat.two_pow_pos _).trans_le hfull

/-- Every ratio in the interval of a magnitude is rounded to it. -/
theorem nearest_of_holds (hpos : 0 < magnitude) (hfinite : magnitude < BinaryFormat.double.infinity)
    (hn : 0 < n) (hd : 0 < d) (h : (rounding magnitude).Holds (n / d)) :
    BinaryFormat.double.nearest n d = magnitude := by
  obtain ⟨⟨m, q⟩, hscaled⟩ : ∃ s, BinaryFormat.double.scaled magnitude = s := ⟨_, rfl⟩
  have hfills := BinaryFormat.fills_scaled BinaryFormat.double magnitude
  have hpacked := BinaryFormat.packed_scaled BinaryFormat.double magnitude
  rw [hscaled] at hfills hpacked
  dsimp only at hfills hpacked
  obtain ⟨hleast, hfits, hfull⟩ := hfills
  have hm := mantissa_pos hpos hscaled
  obtain ⟨hlow, hhigh, hodd, hnarrow⟩ := holds_bounds hm hscaled h
  by_cases hsuits : q = BinaryFormat.double.leastUnit ∨ (2 : ℚ) ^ 52 ≤ n / d / 2 ^ q
  · have hbelow : (n / d / 2 ^ q : ℚ) < 2 ^ 53 := by
      have hle : (m + 1 : ℚ) ≤ 2 ^ 53 := by exact_mod_cast hfits
      linarith
    rw [BinaryFormat.nearest_of_suits hn hd ((suits_iff (f := .double)).2 ⟨hleast, hbelow, hsuits⟩),
      divNearestEven_of_near (BinaryFormat.inUnits_pos hd), hpacked, Nat.min_eq_left hfinite.le]
    all_goals rw [BinaryFormat.inUnits_ratio]; assumption
  -- Just below a power of two the ratio has one digit less, and rounds up in the finer unit.
  · obtain ⟨hq, hlt⟩ := not_or.1 hsuits
    rw [not_le] at hlt
    have hmin : m = 2 ^ 52 := by
      have hlt' : (m : ℚ) < 2 ^ 52 + 1 := by linarith
      have hlt'' : m < 2 ^ 52 + 1 := by exact_mod_cast hlt'
      have hge : 2 ^ 52 ≤ m := hfull.resolve_left hq
      omega
    have hunit : BinaryFormat.double.leastUnit ≤ q - 1 := by omega
    have hpacked' : BinaryFormat.double.packed (2 ^ 53) (q - 1) = magnitude := by
      rw [← hpacked, hmin]
      obtain ⟨steps, hsteps⟩ : ∃ steps : Nat, q - BinaryFormat.double.leastUnit = steps + 1 :=
        ⟨(q - 1 - BinaryFormat.double.leastUnit).toNat, by omega⟩
      have hsteps' : q - 1 - BinaryFormat.double.leastUnit = steps := by omega
      simp only [BinaryFormat.packed, BinaryFormat.double, hsteps, hsteps', Nat.pow_eq] at hsteps hsteps' ⊢
      omega
    have hlarge : 2 ^ 53 ≤ magnitude := by
      rw [← hpacked']
      exact Nat.le_add_left _ _
    have hquarter := hnarrow hmin hlarge
    have hmin' : (m : ℚ) = 2 ^ 52 := by exact_mod_cast hmin
    have hdouble : (n : ℚ) / d / 2 ^ (q - 1) = 2 * (n / d / 2 ^ q) := by
      rw [zpow_sub_one₀ two_ne_zero]
      ring
    have hsuits' : BinaryFormat.double.Suits (n / d) (q - 1) := by
      refine (suits_iff (f := .double)).2 ⟨hunit, ?_, .inr ?_⟩
      · rw [hdouble]
        exact (mul_lt_mul_of_pos_left hlt two_pos).trans_eq (by norm_num [BinaryFormat.double])
      · rw [hdouble]
        have hge : (2 : ℚ) ^ 52 ≤ 2 * (n / d / 2 ^ q) := by linarith
        exact hge
    have hround : divNearestEven (BinaryFormat.inUnits n d (q - 1)).1 (BinaryFormat.inUnits n d (q - 1)).2 =
        2 ^ 53 := by
      refine divNearestEven_of_near (BinaryFormat.inUnits_pos hd) ?_ ?_ (fun hodd => absurd hodd (by decide))
      all_goals
        rw [BinaryFormat.inUnits_ratio, hdouble]
        push_cast
        linarith
    rw [BinaryFormat.nearest_of_suits hn hd hsuits', hround, hpacked', Nat.min_eq_left hfinite.le]

theorem unit_range {m : Nat} {q : Int} (hfinite : magnitude < BinaryFormat.double.infinity)
    (hscaled : BinaryFormat.double.scaled magnitude = (m, q)) : -1074 ≤ q ∧ q ≤ 971 := by
  have hfills := BinaryFormat.fills_scaled BinaryFormat.double magnitude
  have hpacked := BinaryFormat.packed_scaled BinaryFormat.double magnitude
  rw [hscaled] at hfills hpacked
  obtain ⟨hleast, -, hfull⟩ := hfills
  have hunit : BinaryFormat.double.leastUnit = -1074 := by decide
  have hinfinity : BinaryFormat.double.infinity = 2047 * 2 ^ 52 := by decide
  rw [hunit] at hleast hfull
  rw [hinfinity, ← hpacked, BinaryFormat.packed, hunit] at hfinite
  simp only [BinaryFormat.double, Nat.pow_eq] at hfinite hfull
  omega

/-- The decimals that round to a positive double are neither too small nor too large to be read. -/
theorem holds_range (hpos : 0 < magnitude) (hfinite : magnitude < BinaryFormat.double.infinity)
    (h : (rounding magnitude).Holds x) : (2 : ℚ) ^ (-1075 : Int) ≤ x ∧ x ≤ 2 ^ (1024 : Int) := by
  obtain ⟨⟨m, q⟩, hscaled⟩ : ∃ s, BinaryFormat.double.scaled magnitude = s := ⟨_, rfl⟩
  have hm := mantissa_pos hpos hscaled
  have hfits : m < 2 ^ 53 := by
    have hfills := BinaryFormat.fills_scaled BinaryFormat.double magnitude
    rw [hscaled] at hfills
    exact hfills.fits
  have hrange := unit_range hfinite hscaled
  obtain ⟨hlow, hhigh, -, -⟩ := holds_bounds hm hscaled h
  have hpow : (0 : ℚ) < 2 ^ q := zpow_pos two_pos q
  rw [le_div_iff₀ hpow] at hlow
  rw [div_le_iff₀ hpow] at hhigh
  have hm' : (1 : ℚ) ≤ m := by exact_mod_cast hm
  have hfits' : (m + 1 : ℚ) ≤ 2 ^ (53 : Int) := by exact_mod_cast hfits
  constructor
  · calc (2 : ℚ) ^ (-1075 : Int) ≤ 2 ^ (-1 + q) := zpow_le_zpow_right₀ one_le_two (by omega)
      _ = 1 / 2 * 2 ^ q := by rw [zpow_add₀ two_ne_zero]; norm_num
      _ ≤ (m - 1 / 2) * 2 ^ q := by gcongr; linarith
      _ ≤ x := hlow
  · calc x ≤ (m + 1 / 2) * 2 ^ q := hhigh
      _ ≤ 2 ^ (53 : Int) * 2 ^ q := by gcongr; linarith
      _ = 2 ^ (53 + q) := (zpow_add₀ two_ne_zero _ _).symm
      _ ≤ 2 ^ (1024 : Int) := zpow_le_zpow_right₀ one_le_two (by omega)

theorem ten_zpow_lt_iff : (10 : ℚ) ^ a < 10 ^ b ↔ a < b := zpow_lt_zpow_iff_right₀ (by norm_num)

/-- Where the first digit of a number can stand that is neither too small nor too large. -/
theorem lead_range (hlow : (2 : ℚ) ^ (-1075 : Int) ≤ x) (hhigh : x ≤ 2 ^ (1024 : Int))
    (hge : (10 : ℚ) ^ a ≤ x) (hlt : x < 10 ^ (a + 1)) : -324 ≤ a ∧ a ≤ 308 := by
  have hsmall : (10 : ℚ) ^ (-324 : Int) < 2 ^ (-1075 : Int) := by
    have hnat : 2 ^ 1075 < 10 ^ 324 := by decide +kernel
    have hcast : (2 : ℚ) ^ 1075 < 10 ^ 324 := by exact_mod_cast hnat
    rw [zpow_neg, zpow_neg]
    exact inv_strictAnti₀ (by positivity) hcast
  have hlarge : (2 : ℚ) ^ (1024 : Int) < 10 ^ (309 : Int) := by
    have hnat : 2 ^ 1024 < 10 ^ 309 := by decide +kernel
    exact_mod_cast hnat
  have h₁ := ten_zpow_lt_iff.1 (hsmall.trans_le hlow |>.trans hlt)
  have h₂ := ten_zpow_lt_iff.1 ((hge.trans hhigh).trans_lt hlarge)
  omega

/-- The first digit of a number in decimal notation. -/
theorem decimal_bounds (hk : 0 < k) (e : Int) :
    (10 : ℚ) ^ (((Text.ofNat k).length : Int) - 1 + e) ≤ k * 10 ^ e ∧
      (k : ℚ) * 10 ^ e < 10 ^ (((Text.ofNat k).length : Int) - 1 + e + 1) := by
  obtain ⟨hlow, hhigh⟩ := Text.ofNat_bounds hk
  have hlength := List.length_pos_iff.2 (Text.ofNat_ne_nil k)
  have hten : (10 : ℚ) ≠ 0 := by norm_num
  generalize (Text.ofNat k).length = length at hlow hhigh hlength
  have hlow' : (10 : ℚ) ^ ((length - 1 : Nat) : Int) ≤ k := by exact_mod_cast hlow
  have hhigh' : (k : ℚ) < 10 ^ (length : Int) := by exact_mod_cast hhigh
  rw [Nat.cast_sub hlength, Nat.cast_one] at hlow'
  constructor
  · rw [zpow_add₀ hten]
    gcongr
  · rw [add_right_comm, sub_add_cancel, zpow_add₀ hten]
    gcongr

/-- A decimal that rounds to a positive double is read as that double. -/
theorem ofDecimal_of_holds {negative : Bool} (hpos : 0 < magnitude)
    (hfinite : magnitude < BinaryFormat.double.infinity) (hk : 0 < k)
    (h : (rounding magnitude).Holds (k * 10 ^ e)) :
    ofDecimal negative k e = ofMagnitude negative magnitude := by
  obtain ⟨hlow, hhigh⟩ := holds_range hpos hfinite h
  obtain ⟨hge, hlt⟩ := decimal_bounds hk e
  obtain ⟨hleast, hmost⟩ := lead_range hlow hhigh hge hlt
  have hlength : (Nat.toDigits 10 k).length = (Text.ofNat k).length := (List.length_map ..).symm
  unfold ofDecimal
  rw [hlength]
  dsimp only
  rw [if_neg (by omega), if_neg (by omega)]
  split
  · next he =>
    have habs : e = -(e.natAbs : Int) := by omega
    rw [habs, zpow_neg, zpow_natCast, ← div_eq_mul_inv, ← Nat.cast_ofNat, ← Nat.cast_pow] at h
    exact congrArg _ (nearest_of_holds hpos hfinite hk (Nat.pow_pos (by decide)) h)
  · next he =>
    have habs : e = (e.natAbs : Int) := by omega
    rw [habs, zpow_natCast, ← div_one (_ * _ : ℚ), ← Nat.cast_ofNat, ← Nat.cast_pow, ← Nat.cast_mul,
      ← Nat.cast_one] at h
    exact congrArg _ (nearest_of_holds hpos hfinite (Nat.mul_pos hk (Nat.pow_pos (by decide))) one_pos h)

/-! ### Grids -/

def Decimal.value (d : Decimal) : ℚ := d.digits * 10 ^ d.exponent

theorem divNearestEven_cases (n d : Nat) : divNearestEven n d = n / d ∨ divNearestEven n d = n / d + 1 := by
  unfold divNearestEven
  dsimp only
  split_ifs
  · exact .inl rfl
  · exact .inr rfl
  · exact .inl rfl
  · exact .inr rfl

namespace Rounding

variable {r : Rounding}

theorem holds_of_onGrid? (h : r.onGrid? e = some k) : r.Holds (k * 10 ^ e) := by
  rw [← admits_iff]
  unfold onGrid? at h
  generalize aligned r.value r.unit 1 e = parts at h
  obtain ⟨v, ten⟩ := parts
  dsimp only at h
  cases hlow : r.admits (v / ten) e <;> cases hhigh : r.admits (v / ten + 1) e <;> rw [hlow, hhigh] at h
  · cases h
  · exact Option.some.inj h ▸ hhigh
  · exact Option.some.inj h ▸ hlow
  · obtain rfl := Option.some.inj h
    rcases divNearestEven_cases v ten with heq | heq
    · exact heq ▸ hlow
    · exact heq ▸ hhigh

/-- The point of a grid below a number. -/
theorem floor_bounds (n : Nat) (a e : Int) :
    (((aligned n a 1 e).1 / (aligned n a 1 e).2 : Nat) : ℚ) * 10 ^ e ≤ n * 2 ^ a ∧
      (n : ℚ) * 2 ^ a < ((aligned n a 1 e).1 / (aligned n a 1 e).2 : Nat) * 10 ^ e + 10 ^ e := by
  obtain ⟨s, hs, hn, hten⟩ := aligned_scale n a 1 e
  generalize aligned n a 1 e = parts at hn hten
  obtain ⟨v, ten⟩ := parts
  dsimp only at hn hten ⊢
  rw [Nat.cast_one, one_mul] at hten
  have hgrid : (0 : ℚ) < 10 ^ e := zpow_pos (by norm_num) e
  have hpos : 0 < ten := by
    have hcast : (0 : ℚ) < ten := hten ▸ mul_pos hs hgrid
    exact_mod_cast hcast
  have hfloor : ((v / ten : Nat) : ℚ) * ten ≤ v := by exact_mod_cast Nat.div_mul_le_self v ten
  have hceil : (v : ℚ) < ((v / ten : Nat) + 1) * ten := by
    exact_mod_cast (Nat.div_lt_iff_lt_mul hpos).1 (Nat.lt_succ_self _)
  generalize v / ten = k at hfloor hceil
  rw [hn, hten] at hfloor hceil
  constructor
  · refine le_of_mul_le_mul_left ?_ hs
    linarith
  · refine lt_of_mul_lt_mul_left ?_ hs.le
    linarith

/-- On a fine grid the point below the double rounds to it. -/
theorem onGrid?_ne_none (hlow : r.low < r.value) (hhigh : r.value < r.high)
    (hfine : (10 : ℚ) ^ e ≤ 2 ^ r.unit) : r.onGrid? e ≠ none := by
  have hadmits : r.admits ((aligned r.value r.unit 1 e).1 / (aligned r.value r.unit 1 e).2) e := by
    obtain ⟨hfloor, hceil⟩ := floor_bounds r.value r.unit e
    have hunit : (0 : ℚ) < 2 ^ r.unit := zpow_pos two_pos _
    have hlow' : (r.low + 1 : ℚ) ≤ r.value := by exact_mod_cast hlow
    have hhigh' : (r.value : ℚ) < r.high := by exact_mod_cast hhigh
    refine admits_iff.2 (.of_lt ?_ ?_)
    · have hscaled := mul_le_mul_of_nonneg_right hlow' hunit.le
      linarith
    · exact hfloor.trans_lt (mul_lt_mul_of_pos_right hhigh' hunit)
  unfold onGrid?
  generalize aligned r.value r.unit 1 e = parts at hadmits
  obtain ⟨v, ten⟩ := parts
  dsimp only at hadmits ⊢
  rw [hadmits]
  cases r.admits (v / ten + 1) e <;> simp

/-- One of the grids is fine enough. -/
theorem holds_firstGrid {grids steps : Nat} (hlow : r.low < r.value) (hhigh : r.value < r.high)
    (hsteps : steps < grids) (hfine : (10 : ℚ) ^ (e - steps) ≤ 2 ^ r.unit) :
    r.Holds (r.firstGrid grids e).value := by
  induction grids generalizing e steps with
  | zero => omega
  | succ grids ih =>
    rw [firstGrid]
    cases hgrid : r.onGrid? e with
    | some k => exact holds_of_onGrid? hgrid
    | none =>
      rcases Nat.eq_zero_or_pos steps with rfl | hpos
      · rw [Nat.cast_zero, sub_zero] at hfine
        exact absurd hgrid (onGrid?_ne_none hlow hhigh hfine)
      · have hexponent : e - 1 - (steps - 1 : Nat) = e - steps := by omega
        rw [← hexponent] at hfine
        exact ih (by omega) hfine

end Rounding

theorem value_trimmed (steps : Nat) (d : Decimal) : (d.trimmed steps).value = d.value := by
  induction steps generalizing d with
  | zero => rfl
  | succ steps ih =>
    rw [Decimal.trimmed]
    split
    · next h =>
      have hdigits : (d.digits : ℚ) = 10 * (d.digits / 10 : Nat) := by
        exact_mod_cast (Nat.mul_div_cancel' (Nat.dvd_of_mod_eq_zero h.1)).symm
      rw [ih, Decimal.value, Decimal.value, hdigits, zpow_add_one₀ (by norm_num)]
      ring
    · rfl

/-- A power of ten below a power of two. The ratio of their exponents is near enough `28 / 93` for
negative ones and `3 / 10` for the others. -/
theorem ten_zpow_le_two_zpow (hneg : a < 0 → 93 * a ≤ 28 * b) (hnonneg : 0 ≤ a → 10 * a ≤ 3 * b) :
    (10 : ℚ) ^ a ≤ 2 ^ b := by
  have htwo : (0 : ℚ) ≤ 2 ^ b := (zpow_pos two_pos b).le
  have hpower : ∀ k : Nat, ((2 : ℚ) ^ b) ^ k = 2 ^ (k * b) := fun k => by
    rw [← zpow_natCast, ← zpow_mul, mul_comm]
  rcases lt_or_ge a 0 with ha | ha
  · obtain ⟨n, rfl⟩ : ∃ n : Nat, a = -n := ⟨a.natAbs, by omega⟩
    refine le_of_pow_le_pow_left₀ (n := 28) (by decide) htwo ?_
    calc ((10 : ℚ) ^ (-n : Int)) ^ 28 = ((10 ^ 28) ^ n)⁻¹ := by
          rw [zpow_neg, zpow_natCast, inv_pow, pow_right_comm]
      _ ≤ ((2 ^ 93) ^ n)⁻¹ := by
        refine inv_anti₀ (by positivity) ?_
        gcongr
        norm_num
      _ = 2 ^ (93 * -n : Int) := by
        rw [← pow_mul, mul_neg, zpow_neg]
        exact_mod_cast rfl
      _ ≤ 2 ^ (28 * b) := zpow_le_zpow_right₀ one_le_two (hneg ha)
      _ = (2 ^ b) ^ 28 := (hpower 28).symm
  · obtain ⟨n, rfl⟩ : ∃ n : Nat, a = n := ⟨a.natAbs, by omega⟩
    refine le_of_pow_le_pow_left₀ (n := 3) (by decide) htwo ?_
    calc ((10 : ℚ) ^ (n : Int)) ^ 3 = (10 ^ 3) ^ n := by rw [zpow_natCast, pow_right_comm]
      _ ≤ (2 ^ 10) ^ n := by
        gcongr
        norm_num
      _ = 2 ^ (10 * n : Int) := by
        rw [← pow_mul]
        exact_mod_cast rfl
      _ ≤ 2 ^ (3 * b) := zpow_le_zpow_right₀ one_le_two (hnonneg ha)
      _ = (2 ^ b) ^ 3 := (hpower 3).symm

/-- The shortest decimal of a positive double rounds to it. -/
theorem holds_shortest (hpos : 0 < magnitude) (hfinite : magnitude < BinaryFormat.double.infinity) :
    0 < (shortest magnitude).digits ∧ (rounding magnitude).Holds (shortest magnitude).value := by
  obtain ⟨⟨m, q⟩, hscaled⟩ : ∃ s, BinaryFormat.double.scaled magnitude = s := ⟨_, rfl⟩
  have hm := mantissa_pos hpos hscaled
  have hrange := unit_range hfinite hscaled
  have hlog : m.log2 ≤ 52 := by
    have hfills := BinaryFormat.fills_scaled BinaryFormat.double magnitude
    rw [hscaled] at hfills
    have hfits : m < 2 ^ 53 := hfills.fits
    exact Nat.lt_succ_iff.1 ((Nat.log2_lt hm.ne').2 hfits)
  have hrounding := rounding_eq hscaled
  have hlow : (rounding magnitude).low < (rounding magnitude).value := by
    rw [hrounding]
    dsimp only
    split <;> omega
  have hhigh : (rounding magnitude).value < (rounding magnitude).high := by
    rw [hrounding]
    exact Nat.lt_add_of_pos_right (by decide)
  have hlead : leadEstimate magnitude = (q + m.log2) * 30103 / 100000 + 1 := by
    unfold leadEstimate
    rw [hscaled]
  have hfine : (10 : ℚ) ^ (leadEstimate magnitude - (19 : Nat)) ≤ 2 ^ (rounding magnitude).unit := by
    rw [hlead, hrounding]
    dsimp only
    refine ten_zpow_le_two_zpow (fun hneg => ?_) (fun hnonneg => ?_)
    · omega
    · omega
  have hholds : (rounding magnitude).Holds (shortest magnitude).value := by
    rw [shortest, value_trimmed]
    exact Rounding.holds_firstGrid hlow hhigh (by decide) hfine
  refine ⟨Nat.pos_of_ne_zero fun hzero => ?_, hholds⟩
  have hvalue := (zpow_pos two_pos _).trans_le (holds_range hpos hfinite hholds).1
  rw [Decimal.value, hzero, Nat.cast_zero, zero_mul] at hvalue
  exact lt_irrefl _ hvalue

end Double

end ObjectMachine
