import ObjectMachine.Machine.Bootstrap
import ObjectMachine.Machine.Comparing
import ObjectMachine.Proofs.Rounding

/-! The order of values. All pairs but those of an integer and a float compare by three keys, one
after another, so they are in a linear order up to ties. A mixed pair compares by the doubles of
both numbers, which keeps the order apart from one pattern: a float between two integers that both
round to it is level with both, even if these stand in the wrong order. No two integers of up to 53
digits do so. -/

namespace ObjectMachine

/-! ### Texts -/

theorem Text.order_eq (s t : Text) : s.order t = List.compareLex compare s t := by
  induction s generalizing t with
  | nil => cases t <;> rfl
  | cons a s ih =>
    cases t with
    | nil => rfl
    | cons b t =>
      rw [order, List.compareLex_cons_cons, ih]
      have hcompare : compare a b = if a < b then .lt else if a = b then .eq else .gt := rfl
      rw [hcompare]
      by_cases hlt : a < b
      · rw [if_pos hlt, if_pos hlt]
        rfl
      by_cases heq : a = b
      · simp [heq]
      · have hgt : b < a := (UInt8.lt_or_lt_of_ne heq).resolve_left hlt
        rw [if_neg hlt, if_pos hgt, if_neg hlt, if_neg heq]
        rfl

instance : Std.TransCmp Text.order where
  eq_swap {s t} := by
    rw [Text.order_eq, Text.order_eq]
    exact Std.OrientedCmp.eq_swap
  isLE_trans {s t u} := by
    rw [Text.order_eq, Text.order_eq, Text.order_eq]
    exact Std.TransCmp.isLE_trans

theorem Text.atMost_iff {s t : Text} : s.atMost t ↔ (s.order t).isLE := by
  unfold atMost
  cases s.order t <;> decide

theorem Text.atMost_trans {s t u : Text} (hst : s.atMost t) (htu : t.atMost u) : s.atMost u := by
  rw [atMost_iff] at *
  exact Std.TransCmp.isLE_trans hst htu

theorem Text.atMost_total (s t : Text) : s.atMost t ∨ t.atMost s := by
  have hswap : t.order s = (s.order t).swap := Std.OrientedCmp.eq_swap
  rw [atMost_iff, atMost_iff, hswap]
  cases s.order t <;> decide

theorem Text.atMost_antisymm {s t : Text} (hst : s.atMost t) (hts : t.atMost s) : s = t := by
  induction s generalizing t with
  | nil =>
    cases t with
    | nil => rfl
    | cons b t => cases hts
  | cons a s ih =>
    cases t with
    | nil => cases hst
    | cons b t =>
      unfold atMost order at hst hts
      by_cases hlt : a < b
      · simp [hlt, UInt8.not_lt.2 (UInt8.le_of_lt hlt)] at hts
      · by_cases hgt : b < a
        · simp [hgt, hlt] at hst
        · have heq : a = b := by
            by_contra hne
            exact (UInt8.lt_or_lt_of_ne hne).elim hlt hgt
          subst heq
          simp only [hlt, if_false] at hst hts
          rw [ih hst hts]

theorem Text.precedes_of_atMost {s t : Text} (h : s.atMost t) (hne : s ≠ t) : s.precedes t := by
  have hback : ¬t.atMost s := fun hts => hne (atMost_antisymm h hts)
  have hswap : t.order s = (s.order t).swap := Std.OrientedCmp.eq_swap
  rw [atMost_iff, hswap] at hback
  unfold precedes
  cases horder : s.order t <;> simp_all

theorem Text.precedes_asymm {s t : Text} (h : s.precedes t) : ¬t.precedes s := by
  have hswap : t.order s = (s.order t).swap := Std.OrientedCmp.eq_swap
  unfold precedes at *
  rw [hswap]
  cases horder : s.order t <;> simp_all

namespace Machine

variable {m : Machine} {a b c v w : Value}

/-! ### Keys -/

/-- The kind of a value, with one level for all numbers. -/
def level : Value → Nat
  | .float _ => Kind.integer.number
  | v => v.kind.number

def label (m : Machine) : Value → Text
  | .symbol s => m.symbols.name s
  | .cls c => m.className c
  | .string r => m.memory.bytesOf (.string r)
  | _ => []

def place : Value → Int
  | .int n => n.toInt
  | .float x => x.rank
  | .object r | .proc r => r
  | _ => 0

def arrange (m : Machine) : Value → Value → Ordering :=
  compareLex (compareOn level)
    (compareLex (fun v w => (m.label v).order (m.label w)) (compareOn place))

/-- Texts are in a linear order, so the values they are labels of are. -/
instance (m : Machine) : Std.TransCmp fun v w => (m.label v).order (m.label w) where
  eq_swap := Std.OrientedCmp.eq_swap
  isLE_trans := Std.TransCmp.isLE_trans

instance (m : Machine) : Std.TransCmp m.arrange :=
  inferInstanceAs (Std.TransCmp (compareLex _ _))

def Mixed : Value → Value → Prop
  | .int _, .float _ | .float _, .int _ => True
  | _, _ => False

theorem arrange_eq (v w : Value) : m.arrange v w =
    (Ord.compare (level v) (level w)).then
      (((m.label v).order (m.label w)).then (Ord.compare (place v) (place w))) := rfl

theorem compare_natCast (i j : Nat) : Ord.compare (i : Int) (j : Int) = Ord.compare i j := by
  rw [Int.compare_eq_ite_lt, Nat.compare_eq_ite_lt]
  simp only [Int.ofNat_lt]

/-- Pairs that are not mixed compare by their keys. -/
theorem compare_eq_arrange (hmixed : ¬Mixed v w) (hv : isNaN v = false) (hw : isNaN w = false) :
    m.compare v w = m.arrange v w := by
  -- Values of different kinds compare by their levels, and where a kind has one value all are level.
  rcases v with _ | _ | (_ | _) | i | x | s | k | r | r | r <;>
    rcases w with _ | _ | (_ | _) | j | y | t | l | q | q | q <;>
    first
    | rfl
    | exact absurd trivial hmixed
    | rw [arrange_eq]
  case float.float =>
    have hx : x.isNaN = false := hv
    have hy : y.isNaN = false := hw
    simp [compare, Double.order, hx, hy, level, label, Text.order, place]
  case symbol.symbol => simp [compare, level, label, place, Value.kind]
  case cls.cls => simp [compare, level, label, place, Value.kind]
  case string.string => simp [compare, level, label, place, Value.kind]
  case object.object => simp [compare, level, label, Text.order, place, Value.kind, compare_natCast]
  case proc.proc => simp [compare, level, label, Text.order, place, Value.kind, compare_natCast]

/-! ### Levels -/

theorem level_of_mixed (h : Mixed v w) : level v = Kind.integer.number ∧ level w = Kind.integer.number := by
  cases v <;> cases w <;> first | exact h.elim | exact ⟨rfl, rfl⟩

theorem compare_of_level_lt (hv : isNaN v = false) (hw : isNaN w = false) (h : level v < level w) :
    m.compare v w = .lt := by
  have hmixed : ¬Mixed v w := fun hmixed => by
    have := level_of_mixed hmixed
    omega
  rw [compare_eq_arrange hmixed hv hw, arrange_eq, Nat.compare_eq_lt.2 h]
  rfl

theorem compare_of_level_gt (hv : isNaN v = false) (hw : isNaN w = false) (h : level w < level v) :
    m.compare v w = .gt := by
  have hmixed : ¬Mixed v w := fun hmixed => by
    have := level_of_mixed hmixed
    omega
  rw [compare_eq_arrange hmixed hv hw, arrange_eq, Nat.compare_eq_gt.2 h]
  rfl

theorem level_le_of_isLE (hv : isNaN v = false) (hw : isNaN w = false) (h : (m.compare v w).isLE) :
    level v ≤ level w := by
  by_contra! hlt
  rw [compare_of_level_gt hv hw hlt] at h
  cases h

/-! ### Numbers -/

/-- A number of the level of numbers. -/
theorem number_cases (h : level v = Kind.integer.number) :
    (∃ i, v = .int i) ∨ ∃ x, v = .float x := by
  rcases v with _ | _ | (_ | _) | i | x | s | k | r | r | r
  case int => exact .inl ⟨i, rfl⟩
  case float => exact .inr ⟨x, rfl⟩
  all_goals exact (Nat.ne_of_beq_eq_false rfl h).elim

/-- The number that stands for a value next to a float. -/
def rounded : Value → Int
  | .int n => (Double.ofInt n.toInt).rank
  | v => place v

theorem compare_float (x : Double) (hv : isNaN v = false) (hx : x.isNaN = false)
    (hlevel : level v = Kind.integer.number) :
    m.compare v (.float x) = Ord.compare (rounded v) x.rank ∧
      m.compare (.float x) v = Ord.compare x.rank (rounded v) := by
  obtain ⟨i, rfl⟩ | ⟨y, rfl⟩ := number_cases hlevel
  · simp [compare, Double.order, hx, Double.not_isNaN_ofInt, rounded]
  · have hy : y.isNaN = false := hv
    simp [compare, Double.order, hx, hy, rounded, place]

theorem compare_int (i j : Int64) :
    m.compare (.int i) (.int j) = Ord.compare i.toInt j.toInt := rfl

theorem rounded_le_of_isLE (hv : isNaN v = false) (hw : isNaN w = false)
    (hlevel : level v = Kind.integer.number) (hlevel' : level w = Kind.integer.number)
    (h : (m.compare v w).isLE) : rounded v ≤ rounded w := by
  obtain ⟨j, rfl⟩ | ⟨y, rfl⟩ := number_cases hlevel'
  · obtain ⟨i, rfl⟩ | ⟨x, rfl⟩ := number_cases hlevel
    · rw [compare_int, Int.isLE_compare] at h
      exact Double.rank_ofInt_mono h
    · rw [(compare_float x hw hv hlevel').2, Int.isLE_compare] at h
      exact h
  · rw [(compare_float y hv hw hlevel).1, Int.isLE_compare] at h
    exact h

/-- A float between two integers in the wrong order that both round to it. -/
def Merges (a b c : Value) : Prop :=
  ∃ i x j, a = .int i ∧ b = .float x ∧ c = .int j ∧ j.toInt < i.toInt ∧
    (Double.ofInt i.toInt).rank = x.rank ∧ (Double.ofInt j.toInt).rank = x.rank

/-- An integer of up to 53 digits, or no integer at all. -/
def Short : Value → Prop
  | .int n => n.toInt.natAbs ≤ 2 ^ 53
  | _ => True

theorem not_merges_of_short (ha : Short a) (hc : Short c) : ¬Merges a b c := by
  rintro ⟨i, x, j, rfl, rfl, rfl, hlt, hi, hj⟩
  have := Double.rank_ofInt_inj ha hc (hi.trans hj.symm)
  omega

theorem numbers_isLE_trans (ha : isNaN a = false) (hb : isNaN b = false) (hc : isNaN c = false)
    (hla : level a = Kind.integer.number) (hlb : level b = Kind.integer.number)
    (hlc : level c = Kind.integer.number) (hab : (m.compare a b).isLE) (hbc : (m.compare b c).isLE) :
    (m.compare a c).isLE ↔ ¬Merges a b c := by
  have hab' := rounded_le_of_isLE ha hb hla hlb hab
  have hbc' := rounded_le_of_isLE hb hc hlb hlc hbc
  have hac := hab'.trans hbc'
  obtain ⟨j, rfl⟩ | ⟨z, rfl⟩ := number_cases hlc
  · obtain ⟨i, rfl⟩ | ⟨x, rfl⟩ := number_cases hla
    · rw [compare_int, Int.isLE_compare]
      obtain ⟨k, rfl⟩ | ⟨y, rfl⟩ := number_cases hlb
      · rw [compare_int, Int.isLE_compare] at hab hbc
        exact iff_of_true (hab.trans hbc) fun ⟨_, _, _, _, h, _⟩ => nomatch h
      · refine ⟨fun hle ⟨_, _, _, hi, _, hj, hlt, _⟩ => ?_, fun h => ?_⟩
        · cases hi
          cases hj
          omega
        · -- Rounding keeps the order, so all three round to the same number.
          by_contra! hlt
          have hback := Double.rank_ofInt_mono hlt.le
          refine h ⟨i, y, j, rfl, rfl, rfl, hlt, ?_, ?_⟩
          · exact le_antisymm hab' (hbc'.trans hback)
          · exact le_antisymm (hback.trans hab') hbc'
    · rw [(compare_float x hc ha hlc).2, Int.isLE_compare]
      exact iff_of_true hac fun ⟨_, _, _, h, _⟩ => nomatch h
  · rw [(compare_float z ha hc hla).1, Int.isLE_compare]
    exact iff_of_true hac fun ⟨_, _, _, _, _, h, _⟩ => nomatch h

/-! ### All values -/

theorem compare_swap (ha : isNaN a = false) (hb : isNaN b = false) :
    m.compare b a = (m.compare a b).swap := by
  by_cases hmixed : Mixed a b
  · obtain ⟨hla, hlb⟩ := level_of_mixed hmixed
    obtain ⟨i, rfl⟩ | ⟨x, rfl⟩ := number_cases hla
    · obtain ⟨j, rfl⟩ | ⟨y, rfl⟩ := number_cases hlb
      · exact hmixed.elim
      · rw [(compare_float y ha hb hla).1, (compare_float y ha hb hla).2]
        exact Std.OrientedCmp.eq_swap
    · rw [(compare_float x hb ha hlb).1, (compare_float x hb ha hlb).2]
      exact Std.OrientedCmp.eq_swap
  · have hmixed' : ¬Mixed b a := by
      cases a <;> cases b <;> first | exact id | exact hmixed
    rw [compare_eq_arrange hmixed ha hb, compare_eq_arrange hmixed' hb ha]
    exact Std.OrientedCmp.eq_swap

theorem isLE_trans_iff (ha : isNaN a = false) (hb : isNaN b = false) (hc : isNaN c = false)
    (hab : (m.compare a b).isLE) (hbc : (m.compare b c).isLE) :
    (m.compare a c).isLE ↔ ¬Merges a b c := by
  have hlab := level_le_of_isLE ha hb hab
  have hlbc := level_le_of_isLE hb hc hbc
  by_cases hnumbers : level a = Kind.integer.number ∧ level c = Kind.integer.number
  · exact numbers_isLE_trans ha hb hc hnumbers.1 (by omega) hnumbers.2 hab hbc
  have hmerges : ¬Merges a b c := by
    rintro ⟨i, x, j, rfl, rfl, rfl, -⟩
    exact hnumbers ⟨rfl, rfl⟩
  refine iff_of_true ?_ hmerges
  rcases (hlab.trans hlbc).lt_or_eq with hlt | heq
  · rw [compare_of_level_lt ha hc hlt]
    rfl
  · have hunmixed : ∀ v w, (level v = level a) → ¬Mixed v w := by
      intro v w hv hmixed
      have := level_of_mixed hmixed
      exact hnumbers ⟨by omega, by omega⟩
    rw [compare_eq_arrange (hunmixed _ _ rfl) ha hb] at hab
    rw [compare_eq_arrange (hunmixed _ _ (by omega)) hb hc] at hbc
    rw [compare_eq_arrange (hunmixed _ _ rfl) ha hc]
    exact Std.TransCmp.isLE_trans hab hbc

theorem equal_iff (ha : isNaN a = false) (hb : isNaN b = false) :
    m.equal a b ↔ (m.compare a b).isLE ∧ (m.compare b a).isLE := by
  rw [compare_swap ha hb, equal, ha, hb]
  cases m.compare a b <;> decide

end Machine

open Machine

/-- The order of values that are no NaNs is total but for one flaw. Swapping two values turns the
result around. The order is transitive, with one exception: an integer that is level with a float
that is level with a smaller integer stands above that one nevertheless. So equality is an
equivalence, except that two such integers differ although both equal the float. Integers of up to
53 digits make no exception. -/
theorem compare_total (m : Machine) {a b c : Value} (ha : isNaN a = false) (hb : isNaN b = false)
    (hc : isNaN c = false) :
    m.compare b a = (m.compare a b).swap ∧
    ((m.compare a b).isLE → (m.compare b c).isLE → ((m.compare a c).isLE ↔ ¬Merges a b c)) ∧
    (m.equal a a ∧ m.equal b a = m.equal a b ∧
      (m.equal a b → m.equal b c → (m.equal a c ↔ ¬Merges a b c ∧ ¬Merges c b a))) ∧
    (Short a → Short c → ¬Merges a b c) := by
  refine ⟨compare_swap ha hb, isLE_trans_iff ha hb hc, ⟨?_, ?_, fun hab hbc => ?_⟩,
    not_merges_of_short⟩
  · have hself := compare_swap (m := m) ha ha
    rw [equal_iff ha ha]
    cases hcompare : m.compare a a <;> simp_all
  · rw [Bool.eq_iff_iff, equal_iff hb ha, equal_iff ha hb, and_comm]
  · rw [equal_iff ha hb] at hab
    rw [equal_iff hb hc] at hbc
    rw [equal_iff ha hc, isLE_trans_iff ha hb hc hab.1 hbc.1, isLE_trans_iff hc hb ha hbc.2 hab.2]

/-- The integer one above a power of two that its double is level with, the double, and the power. -/
theorem compare_total_merging :
    isNaN (.int (2 ^ 53 + 1)) = false ∧ isNaN (.float ⟨0x4340000000000000⟩) = false ∧
      isNaN (.int (2 ^ 53)) = false ∧
      Merges (.int (2 ^ 53 + 1)) (.float ⟨0x4340000000000000⟩) (.int (2 ^ 53)) ∧
      ((blank {}).compare (.int (2 ^ 53 + 1)) (.int (2 ^ 53))).isLE = false := by
  have hmerges : Merges (.int (2 ^ 53 + 1)) (.float ⟨0x4340000000000000⟩) (.int (2 ^ 53)) :=
    ⟨_, _, _, rfl, rfl, rfl, by decide, by decide, by decide⟩
  have htotal := compare_total (blank {}) (a := .int (2 ^ 53 + 1)) (b := .float ⟨0x4340000000000000⟩)
    (c := .int (2 ^ 53)) rfl (by decide) rfl
  refine ⟨rfl, by decide, rfl, hmerges, ?_⟩
  have hle := (htotal.2.1 (by decide) (by decide)).not.2 (not_not_intro hmerges)
  exact Bool.eq_false_iff.2 hle

/-- Two numbers level with a third one that are not level with each other. -/
theorem not_transitive_merging :
    (blank {}).compare (.int (2 ^ 53 + 1)) (.float ⟨0x4340000000000000⟩) = .eq ∧
      (blank {}).compare (.float ⟨0x4340000000000000⟩) (.int (2 ^ 53)) = .eq ∧
      (blank {}).compare (.int (2 ^ 53 + 1)) (.int (2 ^ 53)) = .gt := by
  decide +kernel

end ObjectMachine
