import Mathlib
import ObjectMachine.Machine.Memory

/-! Tables of instance variables. Their entries ascend strictly, so a stored value either
takes the place of the one value under its symbol or adds an entry. -/

namespace ObjectMachine

/-- How often a list of values refers to a heap object. -/
def tally (r : Ref) (vs : List Value) : Nat := (vs.filterMap Value.ref?).count r

@[simp] theorem tally_nil (r : Ref) : tally r [] = 0 := rfl

theorem tally_cons (r : Ref) (v : Value) (vs : List Value) :
    tally r (v :: vs) = tally r [v] + tally r vs := by
  cases h : v.ref? <;> simp [tally, h, List.count_cons]; omega

@[simp] theorem tally_append (r : Ref) (vs ws : List Value) :
    tally r (vs ++ ws) = tally r vs + tally r ws := by
  simp [tally, List.filterMap_append]

theorem tally_one (r : Ref) (v : Value) : tally r [v] = if v.ref? = some r then 1 else 0 := by
  cases h : v.ref? <;> simp [tally, h, List.count_cons]

theorem tally_one_of_immediate {v : Value} (h : v.ref? = none) (r : Ref) : tally r [v] = 0 := by
  simp [tally_one, h]

@[simp] theorem tally_nil_value (r : Ref) : tally r [.nil] = 0 := rfl

theorem tally_pos_of_mem {r : Ref} {v : Value} {vs : List Value} (hv : v ∈ vs)
    (hr : v.ref? = some r) : 0 < tally r vs := by
  rw [tally, List.count_pos_iff, List.mem_filterMap]
  exact ⟨v, hv, hr⟩

theorem count_filterMap_set {α β : Type} [DecidableEq β] (g : α → Option β) (xs : List α) (i : Nat)
    (hi : i < xs.length) (x : α) (b : β) :
    ((xs.set i x).filterMap g).count b + (if g xs[i] = some b then 1 else 0) =
      (xs.filterMap g).count b + (if g x = some b then 1 else 0) := by
  have hcons : ∀ y ys, ((y :: ys).filterMap g).count b =
      (if g y = some b then 1 else 0) + (ys.filterMap g).count b := by
    intro y ys
    cases hy : g y <;> simp [hy, List.count_cons]
    omega
  induction xs generalizing i with
  | nil => simp at hi
  | cons y ys ih =>
    cases i with
    | zero =>
      rw [List.set_cons_zero, hcons, hcons, List.getElem_cons_zero]
      omega
    | succ i =>
      have := ih i (by simpa using hi)
      rw [List.set_cons_succ, hcons, hcons, List.getElem_cons_succ]
      omega

theorem tally_set (r : Ref) (vs : List Value) (i : Nat) (hi : i < vs.length) (v : Value) :
    tally r (vs.set i v) + tally r [vs[i]] = tally r vs + tally r [v] := by
  rw [tally_one, tally_one]
  exact count_filterMap_set Value.ref? vs i hi v r

namespace VariableTable

variable {t t' : VariableTable} {s : Symbol} {v w : Value} {es : List (Symbol × Value)}

def Ascending (es : List (Symbol × Value)) : Prop := es.Pairwise fun a b => a.1 < b.1

/-- A table in order has room for its ascending entries. -/
structure InOrder (t : VariableTable) : Prop where
  ascending : Ascending t.entries
  fits : t.entries.length ≤ t.capacity

theorem inOrder_empty : InOrder {} := ⟨List.Pairwise.nil, Nat.le_refl 0⟩

theorem mem_insertEntry {e : Symbol × Value} (h : e ∈ insertEntry s v es) :
    e = (s, v) ∨ e ∈ es := by
  fun_induction insertEntry s v es with
  | case1 => simpa using h
  | case2 => simpa using h
  | case3 =>
    rcases List.mem_cons.1 h with h | h
    · exact .inl h
    · exact .inr (List.mem_cons_of_mem _ h)
  | case4 k w rest _ _ ih =>
    rcases List.mem_cons.1 h with h | h
    · exact .inr (h ▸ List.mem_cons_self)
    · exact (ih h).imp_right (List.mem_cons_of_mem _)

theorem ascending_insertEntry (h : Ascending es) : Ascending (insertEntry s v es) := by
  fun_induction insertEntry s v es with
  | case1 => exact List.pairwise_singleton _ _
  | case2 k w rest hlt =>
    refine List.pairwise_cons.2 ⟨fun e he => ?_, h⟩
    rcases List.mem_cons.1 he with rfl | he
    · exact hlt
    · exact Nat.lt_trans hlt ((List.pairwise_cons.1 h).1 e he)
  | case3 =>
    obtain ⟨hk, hrest⟩ := List.pairwise_cons.1 h
    exact List.pairwise_cons.2 ⟨hk, hrest⟩
  | case4 k w rest hlt hne ih =>
    obtain ⟨hk, hrest⟩ := List.pairwise_cons.1 h
    refine List.pairwise_cons.2 ⟨fun e he => ?_, ih hrest⟩
    rcases mem_insertEntry he with rfl | he
    · exact Nat.lt_of_le_of_ne (Nat.le_of_not_lt hlt) (Ne.symm hne)
    · exact hk e he

theorem lookup_eq_none_of_lt (hlt : ∀ e ∈ es, s < e.1) :
    es.lookup s = none := by
  rw [List.lookup_eq_none_iff]
  intro e he
  simpa using Nat.ne_of_lt (hlt e he)

/-- A symbol that is in the table keeps the number of entries, any other adds one. -/
theorem length_insertEntry (h : Ascending es) :
    (insertEntry s v es).length = es.length + if (es.lookup s).isSome then 0 else 1 := by
  fun_induction insertEntry s v es with
  | case1 => simp
  | case2 k w rest hlt =>
    have : ((k, w) :: rest).lookup s = none := lookup_eq_none_of_lt fun e he => by
      rcases List.mem_cons.1 he with rfl | he
      · exact hlt
      · exact Nat.lt_trans hlt ((List.pairwise_cons.1 h).1 e he)
    simp [this]
  | case3 => simp
  | case4 k w rest hlt hne ih =>
    have hrest := ih (List.pairwise_cons.1 h).2
    have hb : (s == k) = false := by simpa using hne
    simp only [List.length_cons, List.lookup_cons, hb, hrest]
    omega

/-- What a table refers to after a value was stored: the new value takes the place of the
one under its symbol. -/
theorem tally_insertEntry (r : Ref) (h : Ascending es) :
    tally r ((insertEntry s v es).map (·.2)) + tally r (es.lookup s).toList =
      tally r (es.map (·.2)) + tally r [v] := by
  fun_induction insertEntry s v es with
  | case1 => simp
  | case2 k w rest hlt =>
    have : ((k, w) :: rest).lookup s = none := lookup_eq_none_of_lt fun e he => by
      rcases List.mem_cons.1 he with rfl | he
      · exact hlt
      · exact Nat.lt_trans hlt ((List.pairwise_cons.1 h).1 e he)
    have hv := tally_cons r v (((k, w) :: rest).map (·.2))
    simp only [this, Option.toList_none, tally_nil, List.map_cons] at hv ⊢
    omega
  | case3 w rest =>
    have hv := tally_cons r v (rest.map (·.2))
    have hw := tally_cons r w (rest.map (·.2))
    simp only [List.lookup_cons, beq_self_eq_true, List.map_cons, Option.toList_some]
    omega
  | case4 k w rest hlt hne ih =>
    have hrest := ih (List.pairwise_cons.1 h).2
    have hb : (s == k) = false := by simpa using hne
    have hv := tally_cons r w ((insertEntry s v rest).map (·.2))
    have hw := tally_cons r w (rest.map (·.2))
    simp only [List.lookup_cons, hb, List.map_cons]
    omega

/-- What storing a value does: the table stays in order, grows only by a grant, and the
new value takes the place of the replaced one. -/
theorem of_set? {p p' : Pool} {old : Option Value} (h : t.set? p s v = some (t', p', old))
    (ht : t.InOrder) :
    t'.InOrder ∧
    ((p' = p ∧ t'.capacity = t.capacity) ∨
      (p.alloc? (bytes growth) = some p' ∧ t'.capacity = t.capacity + growth)) ∧
    ∀ r, tally r t'.values + tally r old.toList = tally r t.values + tally r [v] := by
  have hlength := length_insertEntry (s := s) (v := v) ht.ascending
  have htally := fun r => tally_insertEntry (s := s) (v := v) r ht.ascending
  have hascending := ascending_insertEntry (s := s) (v := v) ht.ascending
  have hfits := ht.fits
  unfold set? get? at h
  cases hs : t.entries.lookup s with
  | some w =>
    simp only [hs, Option.isSome_some, if_true] at h hlength htally
    cases h
    exact ⟨⟨hascending, by simp only [hlength]; omega⟩, .inl ⟨rfl, rfl⟩, htally⟩
  | none =>
    simp only [hs, Option.isSome_none] at h hlength htally
    split at h
    · obtain ⟨q, hq, heq⟩ := Option.map_eq_some_iff.1 h
      cases heq
      refine ⟨⟨hascending, ?_⟩, .inr ⟨hq, rfl⟩, htally⟩
      simp only [hlength, growth]
      exact Nat.add_le_add hfits (by decide)
    · next hne =>
      cases h
      refine ⟨⟨hascending, ?_⟩, .inl ⟨rfl, rfl⟩, htally⟩
      simp only [hlength]
      simp only [Bool.false_eq_true, if_false]
      omega

/-- What copying does: the copy holds the same values, and its capacity is granted. -/
theorem of_copy? {p p' : Pool} (h : t.copy? p = some (t', p')) (ht : t.InOrder) :
    t'.InOrder ∧ t'.values = t.values ∧ t'.capacity ≤ t.capacity + 3 ∧
    ((p' = p ∧ t'.capacity = 0) ∨ p.alloc? (bytes t'.capacity) = some p') := by
  have hfits := ht.fits
  unfold copy? at h
  split at h
  · next hempty =>
    cases h
    have hnil : t.entries = [] := List.isEmpty_iff.1 hempty
    exact ⟨inOrder_empty, by simp [values, hnil], by simp, .inl ⟨rfl, rfl⟩⟩
  · obtain ⟨q, hq, heq⟩ := Option.map_eq_some_iff.1 h
    cases heq
    refine ⟨⟨ht.ascending, ?_⟩, rfl, ?_, .inr hq⟩
    · simp only [copyCapacity, growth]
      omega
    · simp only [copyCapacity, growth]
      omega

end VariableTable

end ObjectMachine
