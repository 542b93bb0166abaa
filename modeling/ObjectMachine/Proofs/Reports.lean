import ObjectMachine.Proofs.Comparing
import ObjectMachine.Proofs.SavedRuns

/-! The report of calls. A profile counts the calls of each method, and its report merges the counts
that have one key. The numbers of the report are those of the calls, in whatever order the methods
are listed. The names and the kind are those of the first method that is listed with the key, so
they depend on the order as soon as two methods with one key differ in them. -/

namespace ObjectMachine

/-- A call of a method that is found on a class of a name. -/
structure MethodCall where
  id : MethodId
  owner : Text
  method : Text
  native : Bool
  deriving DecidableEq

def CallCount.label (c : CallCount) : CallCount := { c with calls := 0 }

theorem CallCount.key_eq_of_names {c d : CallCount} (h : c.names = d.names) : c.key = d.key :=
  congrArg (fun names : Text × Text => names.1 ++ [Text.byte '#'] ++ names.2) h

/-- What a count is sorted by. -/
def CallCount.number (c : CallCount) : Text × Nat := (c.key, c.calls)

theorem CallCount.eq_of_label {c d : CallCount} (hlabel : c.label = d.label)
    (hcalls : c.calls = d.calls) : c = d := by
  cases c
  cases d
  simp_all [label]

namespace MethodCall

variable {cs : List MethodCall} {c d : MethodCall}

def label (c : MethodCall) : CallCount := ⟨c.owner, c.method, c.native, 0⟩

def names (c : MethodCall) : Text × Text := c.label.names

def key (c : MethodCall) : Text := c.label.key

/-! ### Calls as they are counted -/

/-- The calls as they are counted: under the names and the kind of the first call of the method. -/
def counted (cs : List MethodCall) : List MethodCall :=
  cs.map fun c => (cs.find? (·.id = c.id)).getD c

/-- Calls of methods that keep their names and their kind are counted as they are. -/
theorem counted_eq_self (h : ∀ c ∈ cs, ∀ d ∈ cs, c.id = d.id → c = d) : counted cs = cs := by
  refine (List.map_congr_left fun c hc => ?_).trans (List.map_id cs)
  cases hfind : cs.find? (·.id = c.id) with
  | none => rfl
  | some d =>
    have hid : d.id = c.id := by simpa using List.find?_some hfind
    exact h d (List.mem_of_find?_eq_some hfind) c hc hid

theorem counted_concat (cs : List MethodCall) (c : MethodCall) :
    counted (cs ++ [c]) = counted cs ++ [(cs.find? (·.id = c.id)).getD c] := by
  rw [counted, List.map_append, List.map_singleton]
  refine congrArg₂ (· ++ ·) (List.map_congr_left fun d hd => ?_) (congrArg ([·]) ?_)
  · obtain ⟨e, he⟩ : ∃ e, cs.find? (·.id = d.id) = some e := exists_find?_key hd
    rw [List.find?_append, he]
    rfl
  · rw [List.find?_append]
    cases cs.find? (·.id = c.id) <;> simp

/-- What is counted are the first calls of the methods. -/
theorem mem_counted : c ∈ counted cs ↔ cs.find? (·.id = c.id) = some c := by
  constructor
  · intro h
    obtain ⟨d, hd, hc⟩ := List.mem_map.1 h
    obtain ⟨e, he⟩ : ∃ e, cs.find? (·.id = d.id) = some e := exists_find?_key hd
    have hid : e.id = d.id := by simpa using List.find?_some he
    obtain rfl : e = c := by simpa [he] using hc
    rw [hid, he]
  · intro h
    exact List.mem_map.2 ⟨c, List.mem_of_find?_eq_some h, by rw [h]; rfl⟩

/-- What is the same for all calls with one key. -/
def KeyFixes {β : Type} (f : MethodCall → β) (cs : List MethodCall) : Prop :=
  ∀ c ∈ cs, ∀ d ∈ cs, c.key = d.key → f c = f d

/-- Classes without a mark in their names give their methods keys of their own. -/
theorem names_eq_of_key_eq (hc : Text.byte '#' ∉ c.owner) (hd : Text.byte '#' ∉ d.owner)
    (h : c.key = d.key) : c.names = d.names := by
  have howner : ∀ {s t : Text}, Text.byte '#' ∉ s →
      (s ++ [Text.byte '#'] ++ t).takeWhile (· ≠ Text.byte '#') = s := by
    intro s t hs
    have hall : ∀ b ∈ s, decide (b ≠ Text.byte '#') = true :=
      fun b hb => decide_eq_true (ne_of_mem_of_not_mem hb hs)
    rw [List.append_assoc, List.takeWhile_append_of_pos hall]
    simp
  have hkey : c.owner ++ [Text.byte '#'] ++ c.method = d.owner ++ [Text.byte '#'] ++ d.method := h
  have hsame : c.owner = d.owner := by rw [← howner hc, hkey, howner hd]
  rw [hsame] at hkey
  exact Prod.ext hsame (List.append_cancel_left hkey)

end MethodCall

open MethodCall

namespace Profile

variable {cs : List MethodCall} {c d : MethodCall} {k : Text} {l r r' : List CallCount}

/-! ### Counts by method -/

def ofCalls (cs : List MethodCall) : Profile :=
  cs.foldl (fun p c => p.recordCall c.id c.owner c.method c.native) {}

theorem ofCalls_concat (cs : List MethodCall) (c : MethodCall) :
    ofCalls (cs ++ [c]) = (ofCalls cs).recordCall c.id c.owner c.method c.native :=
  List.foldl_concat ..

theorem total_ofCalls (cs : List MethodCall) : (ofCalls cs).total = cs.length := by
  induction cs using List.reverseRecOn with
  | nil => rfl
  | append_singleton cs c ih =>
    rw [ofCalls_concat, recordCall, ih, List.length_append, List.length_singleton]

/-- What an entry says of the calls of its method. -/
def entry (x : MethodId × CallCount) : MethodCall := ⟨x.1, x.2.owner, x.2.method, x.2.native⟩

theorem entry_countCall (c : MethodCall) (l : List (MethodId × CallCount)) :
    (countCall c.id c.label l).map entry =
      if c.id ∈ (l.map entry).map (·.id) then l.map entry else l.map entry ++ [c] := by
  induction l with
  | nil => rfl
  | cons x rest ih =>
    obtain ⟨k, d⟩ := x
    unfold countCall
    by_cases hk : k = c.id
    · simp [hk, entry]
    · rw [if_neg hk, List.map_cons, ih]
      simp only [List.map_cons, List.mem_cons, Ne.symm hk, false_or, entry]
      split <;> rfl

theorem entries_concat (cs : List MethodCall) (c : MethodCall) :
    (ofCalls (cs ++ [c])).calls.map entry =
      if c.id ∈ ((ofCalls cs).calls.map entry).map (·.id) then (ofCalls cs).calls.map entry
      else (ofCalls cs).calls.map entry ++ [c] := by
  rw [ofCalls_concat]
  exact entry_countCall c _

/-- A row that is only added with a new key is found as if it were always added. -/
theorem find?_addKey {α κ : Type} [DecidableEq κ] {key : α → κ} (l : List α) (a : α)
    [Decidable (key a ∈ l.map key)] (k : κ) :
    (if key a ∈ l.map key then l else l ++ [a]).find? (key · = k) = (l ++ [a]).find? (key · = k) := by
  split
  · next hold =>
    rw [List.find?_append]
    by_cases hk : key a = k
    · obtain ⟨b, hb, hba⟩ := List.mem_map.1 hold
      obtain ⟨x, hx⟩ : ∃ x, l.find? (key · = key b) = some x := exists_find?_key hb
      rw [← hk, ← hba, hx, Option.some_or]
    · simp [hk]
  · rfl

/-- The entry of a method says of it what its first call does. -/
theorem find?_entries (cs : List MethodCall) (id : MethodId) :
    ((ofCalls cs).calls.map entry).find? (·.id = id) = cs.find? (·.id = id) := by
  induction cs using List.reverseRecOn with
  | nil => rfl
  | append_singleton cs c ih =>
    rw [entries_concat, find?_addKey, List.find?_append, ih, ← List.find?_append]

theorem nodup_ids (cs : List MethodCall) :
    (((ofCalls cs).calls.map entry).map (·.id)).Nodup := by
  induction cs using List.reverseRecOn with
  | nil => exact List.nodup_nil
  | append_singleton cs c ih =>
    rw [entries_concat]
    split
    · exact ih
    · next hnew =>
      rw [List.map_append, List.map_singleton, ← List.concat_eq_append]
      exact ih.concat hnew

theorem mem_entries : c ∈ (ofCalls cs).calls.map entry ↔ c ∈ counted cs := by
  rw [mem_iff_find? (nodup_ids cs), find?_entries, mem_counted]

/-! ### Weights -/

def weight (p : Text → Bool) (l : List CallCount) : Nat :=
  ((l.filter fun c => p c.key).map (·.calls)).sum

variable {p : Text → Bool}

theorem weight_cons (c : CallCount) (l : List CallCount) :
    weight p (c :: l) = (if p c.key then c.calls else 0) + weight p l := by
  unfold weight
  by_cases hp : p c.key <;> simp [hp]

theorem weight_perm (h : l.Perm r) : weight p l = weight p r :=
  ((h.filter _).map _).sum_eq

/-- A call adds one to the count that has the names of the first call of the method. -/
theorem weight_countCall (c : MethodCall) (l : List (MethodId × CallCount)) :
    weight p ((countCall c.id c.label l).map (·.2)) = weight p (l.map (·.2)) +
      if p (((l.map entry).find? (·.id = c.id)).getD c).key then 1 else 0 := by
  induction l with
  | nil => exact (weight_cons _ []).trans (Nat.add_comm _ _)
  | cons x rest ih =>
    obtain ⟨k, d⟩ := x
    unfold countCall
    by_cases hk : k = c.id
    · have hfind : (((k, d) :: rest).map entry).find? (·.id = c.id) = some (entry (k, d)) :=
        List.find?_cons_of_pos (decide_eq_true hk)
      rw [if_pos hk, hfind, List.map_cons, weight_cons, List.map_cons, weight_cons]
      change (if p d.key then d.calls + 1 else 0) + _ =
        (if p d.key then d.calls else 0) + _ + if p d.key then 1 else 0
      by_cases hp : p d.key
      · simp only [if_pos hp]
        omega
      · simp only [if_neg hp]
        omega
    · have hfind : (((k, d) :: rest).map entry).find? (·.id = c.id) =
          (rest.map entry).find? (·.id = c.id) :=
        List.find?_cons_of_neg (mt of_decide_eq_true hk)
      rw [if_neg hk, hfind, List.map_cons, weight_cons, ih, List.map_cons, weight_cons,
        Nat.add_assoc]

/-- The counts of the methods are the numbers of the calls. -/
theorem weight_ofCalls (cs : List MethodCall) :
    weight p ((ofCalls cs).calls.map (·.2)) = (counted cs).countP fun c => p c.key := by
  induction cs using List.reverseRecOn with
  | nil => rfl
  | append_singleton cs c ih =>
    have hcall := weight_countCall (p := p) c (ofCalls cs).calls
    rw [find?_entries, ih] at hcall
    rw [ofCalls_concat, counted_concat, List.countP_append, List.countP_singleton]
    exact hcall

/-! ### Merged counts -/

theorem weight_mergeCount (c : CallCount) (l : List CallCount) :
    weight p (mergeCount c l) = weight p l + if p c.key then c.calls else 0 := by
  induction l with
  | nil => exact (weight_cons _ []).trans (Nat.add_comm _ _)
  | cons d rest ih =>
    unfold mergeCount
    by_cases hk : d.key = c.key
    · rw [if_pos hk, weight_cons, weight_cons, ← hk]
      change (if p d.key then d.calls + c.calls else 0) + _ = _
      by_cases hp : p d.key
      · simp only [if_pos hp]
        omega
      · simp only [if_neg hp]
        omega
    · rw [if_neg hk, weight_cons, ih, weight_cons, Nat.add_assoc]

theorem weight_merged (l : List CallCount) : weight p (merged l) = weight p l := by
  induction l using List.reverseRecOn with
  | nil => rfl
  | append_singleton l c ih =>
    rw [merged_concat, weight_mergeCount, ih, weight_perm (List.perm_append_singleton c l),
      weight_cons, Nat.add_comm]

theorem mem_keys_merged (l : List CallCount) : k ∈ (merged l).map (·.key) ↔ k ∈ l.map (·.key) := by
  induction l using List.reverseRecOn with
  | nil => rfl
  | append_singleton l c ih =>
    rw [merged_concat, keys_mergeCount, List.map_append, List.mem_append, ← ih]
    split
    · next hold =>
      refine ⟨.inl, fun h => h.elim id fun hk => ?_⟩
      rwa [List.mem_singleton.1 hk]
    · rw [List.mem_append, List.map_singleton]

theorem label_mergeCount (c : CallCount) (l : List CallCount) :
    (mergeCount c l).map (·.label) =
      if c.label.key ∈ (l.map (·.label)).map (·.key) then l.map (·.label)
      else l.map (·.label) ++ [c.label] := by
  induction l with
  | nil => rfl
  | cons d rest ih =>
    unfold mergeCount
    by_cases hk : d.key = c.key
    · have hlabel : c.label.key ∈ ((d :: rest).map (·.label)).map (·.key) :=
        List.mem_cons.2 (.inl hk.symm)
      rw [if_pos hk, if_pos hlabel]
      rfl
    · have hlabel : d.label.key ≠ c.label.key := hk
      rw [if_neg hk, List.map_cons, ih]
      simp only [List.map_cons, List.mem_cons, Ne.symm hlabel, false_or]
      split <;> rfl

/-- A merged count has the names and the kind of the first count of its key. -/
theorem find?_merged (l : List CallCount) (k : Text) :
    ((merged l).map (·.label)).find? (·.key = k) = (l.map (·.label)).find? (·.key = k) := by
  induction l using List.reverseRecOn with
  | nil => rfl
  | append_singleton l c ih =>
    rw [merged_concat, label_mergeCount, find?_addKey, List.find?_append, ih, List.map_append,
      List.map_singleton, ← List.find?_append]

/-- In counts with different keys each is all the weight of its key. -/
theorem weight_key (hl : (l.map (·.key)).Nodup) {d : CallCount} (hd : d ∈ l) :
    weight (· = d.key) l = d.calls := by
  rw [weight, filter_key hl, (mem_iff_find? hl).1 hd]
  exact Nat.add_zero _

/-! ### Reports -/

def Outranks (x y : Text × Nat) : Prop := y.2 < x.2 ∨ x.2 = y.2 ∧ x.1.precedes y.1

theorem ranksBefore_trans {c d e : CallCount} (hcd : ranksBefore c d) (hde : ranksBefore d e) :
    ranksBefore c e := by
  simp only [ranksBefore, Bool.or_eq_true, decide_eq_true_eq, Bool.and_eq_true, beq_iff_eq] at *
  obtain hcd | ⟨heq, hcd⟩ := hcd
  · exact .inl (by omega)
  obtain hde | ⟨heq', hde⟩ := hde
  · exact .inl (by omega)
  · exact .inr ⟨heq'.trans heq, Text.atMost_trans hcd hde⟩

theorem ranksBefore_total (c d : CallCount) : ranksBefore c d || ranksBefore d c := by
  simp only [ranksBefore, Bool.or_eq_true, decide_eq_true_eq, Bool.and_eq_true, beq_iff_eq]
  rcases Nat.lt_trichotomy d.calls c.calls with hlt | heq | hgt
  · exact .inl (.inl hlt)
  · exact (Text.atMost_total c.key d.key).imp (.inr ⟨heq, ·⟩) (.inr ⟨heq.symm, ·⟩)
  · exact .inr (.inl hgt)

theorem outranks_of_ranksBefore {c d : CallCount} (h : ranksBefore c d) (hne : c.key ≠ d.key) :
    Outranks c.number d.number := by
  simp only [ranksBefore, Bool.or_eq_true, decide_eq_true_eq, Bool.and_eq_true, beq_iff_eq] at h
  exact h.imp id fun ⟨heq, hkey⟩ => ⟨heq.symm, Text.precedes_of_atMost hkey hne⟩

theorem Outranks.asymm {x y : Text × Nat} (h : Outranks x y) : ¬Outranks y x := by
  rintro (hlt | ⟨heq, hkey⟩)
  · exact h.elim (by omega) (by omega)
  · exact h.elim (by omega) fun ⟨_, hkey'⟩ => Text.precedes_asymm hkey hkey'

/-- What may be reported of a profile: the methods may be listed in any order, and so may the
merged counts before they are sorted. -/
def Reports (p : Profile) (r : List CallCount) : Prop :=
  ∃ e : List (MethodId × CallCount), e.Perm p.calls ∧
    ∃ l : List CallCount, l.Perm (merged (e.map (·.2))) ∧ r = l.mergeSort ranksBefore

theorem reports_report (p : Profile) : p.Reports p.report := ⟨_, .rfl, _, .rfl, rfl⟩

namespace Reports

variable {p : Profile}

theorem perm (h : p.Reports r) :
    ∃ e : List (MethodId × CallCount), e.Perm p.calls ∧ r.Perm (merged (e.map (·.2))) := by
  obtain ⟨e, he, l, hl, rfl⟩ := h
  exact ⟨e, he, (List.mergeSort_perm _ _).trans hl⟩

theorem nodup_keys (h : p.Reports r) : (r.map (·.key)).Nodup := by
  obtain ⟨e, -, hr⟩ := h.perm
  exact (hr.map _).nodup_iff.2 (nodup_merged _)

theorem nodup_numbers (h : p.Reports r) : (r.map (·.number)).Nodup := by
  have hkeys := h.nodup_keys
  rw [show (fun c : CallCount => c.key) = Prod.fst ∘ CallCount.number from rfl,
    ← List.map_map] at hkeys
  exact hkeys.of_map

theorem sorted (h : p.Reports r) : (r.map (·.number)).Pairwise Outranks := by
  have hkeys := h.nodup_keys
  obtain ⟨e, -, l, -, rfl⟩ := h
  have hranks : (l.mergeSort ranksBefore).Pairwise fun c d => ranksBefore c d := by
    refine List.pairwise_mergeSort (fun c d e => ?_) ranksBefore_total l
    exact ranksBefore_trans
  exact List.pairwise_map.2
    (hranks.imp₂ (fun _ _ => outranks_of_ranksBefore) (List.pairwise_map.1 hkeys))

theorem weight_eq (h : p.Reports r) (q : Text → Bool) :
    weight q r = weight q (p.calls.map (·.2)) := by
  obtain ⟨e, he, hr⟩ := h.perm
  rw [weight_perm hr, weight_merged, weight_perm (he.map _)]

theorem mem_keys (h : p.Reports r) :
    k ∈ r.map (·.key) ↔ k ∈ (p.calls.map entry).map MethodCall.key := by
  obtain ⟨e, he, hr⟩ := h.perm
  rw [(hr.map _).mem_iff, mem_keys_merged, List.map_map, (he.map _).mem_iff, List.map_map]
  rfl

/-- What is reported under a key are the names and the kind of a method with this key. -/
theorem exists_label (h : p.Reports r) {d : CallCount} (hd : d ∈ r) :
    ∃ c ∈ p.calls.map entry, c.label = d.label := by
  obtain ⟨e, he, hr⟩ := h.perm
  have hkeys : (((merged (e.map (·.2))).map (·.label)).map (·.key)).Nodup := by
    rw [List.map_map]
    exact nodup_merged _
  have hfound := (mem_iff_find? hkeys).1 (List.mem_map_of_mem (hr.mem_iff.1 hd))
  rw [find?_merged, List.map_map] at hfound
  obtain ⟨x, hx, hlabel⟩ := List.mem_map.1 (List.mem_of_find?_eq_some hfound)
  exact ⟨entry x, List.mem_map_of_mem (he.mem_iff.1 hx), hlabel⟩

/-- Each method is the first of its key in some list. -/
theorem exists_of_mem (hc : c ∈ p.calls.map entry) :
    ∃ r, p.Reports r ∧ ∃ d ∈ r, d.label = c.label := by
  obtain ⟨x, hx, rfl⟩ := List.mem_map.1 hc
  have hfirst : p.calls.Perm (x :: p.calls.erase x) := List.perm_cons_erase hx
  refine ⟨_, ⟨_, hfirst.symm, _, .rfl, rfl⟩, ?_⟩
  have hfound : ((merged ((x :: p.calls.erase x).map (·.2))).map (·.label)).find?
      (·.key = x.2.label.key) = some x.2.label :=
    (find?_merged _ _).trans (List.find?_cons_of_pos (decide_eq_true rfl))
  obtain ⟨d, hd, hlabel⟩ := List.mem_map.1 (List.mem_of_find?_eq_some hfound)
  exact ⟨d, List.mem_mergeSort.2 hd, hlabel⟩

/-! ### Reports of calls -/

theorem sum_calls (h : (ofCalls cs).Reports r) : (r.map (·.calls)).sum = cs.length := by
  have hsum := (h.weight_eq fun _ => true).trans (weight_ofCalls cs)
  rw [weight, List.filter_true, List.countP_true, counted, List.length_map] at hsum
  exact hsum

theorem calls_eq (h : (ofCalls cs).Reports r) {d : CallCount} (hd : d ∈ r) :
    d.calls = (counted cs).countP (·.key = d.key) := by
  rw [← weight_key h.nodup_keys hd, h.weight_eq]
  exact weight_ofCalls cs

theorem exists_counted (h : (ofCalls cs).Reports r) {d : CallCount} (hd : d ∈ r) :
    ∃ c ∈ counted cs, c.label = d.label := by
  obtain ⟨c, hc, hlabel⟩ := h.exists_label hd
  exact ⟨c, mem_entries.1 hc, hlabel⟩

theorem exists_of_counted (h : (ofCalls cs).Reports r) (hc : c ∈ counted cs) :
    ∃ d ∈ r, d.key = c.key :=
  List.mem_map.1 (h.mem_keys.2 (List.mem_map_of_mem (mem_entries.2 hc)))

theorem mem_numbers (h : (ofCalls cs).Reports r) {n : Nat} : (k, n) ∈ r.map (·.number) ↔
    k ∈ (counted cs).map MethodCall.key ∧ n = (counted cs).countP (·.key = k) := by
  constructor
  · intro hkn
    obtain ⟨d, hd, hnumber⟩ := List.mem_map.1 hkn
    cases hnumber
    obtain ⟨c, hc, hlabel⟩ := h.exists_counted hd
    have hkey : c.key = d.key := (congrArg CallCount.key hlabel :)
    exact ⟨List.mem_map.2 ⟨c, hc, hkey⟩, h.calls_eq hd⟩
  · rintro ⟨hk, rfl⟩
    obtain ⟨c, hc, rfl⟩ := List.mem_map.1 hk
    obtain ⟨d, hd, hkey⟩ := h.exists_of_counted hc
    exact List.mem_map.2 ⟨d, hd, Prod.ext hkey ((h.calls_eq hd).trans (by rw [hkey]))⟩

/-- The numbers do not depend on the order in which the methods are listed. -/
theorem numbers_eq (h : (ofCalls cs).Reports r) (h' : (ofCalls cs).Reports r') :
    r.map (·.number) = r'.map (·.number) := by
  refine List.Perm.eq_of_pairwise (fun x y _ _ hxy hyx => absurd hyx hxy.asymm) h.sorted h'.sorted
    ((List.perm_ext_iff_of_nodup h.nodup_numbers h'.nodup_numbers).2 fun x => ?_)
  rw [h.mem_numbers, h'.mem_numbers]

theorem mem_of_fixes (h : (ofCalls cs).Reports r) (h' : (ofCalls cs).Reports r')
    (hcs : KeyFixes label (counted cs)) {d : CallCount} (hd : d ∈ r) : d ∈ r' := by
  have hnumber := List.mem_map_of_mem (f := CallCount.number) hd
  rw [show r.map CallCount.number = _ from h.numbers_eq h'] at hnumber
  obtain ⟨e, he, hed⟩ := List.mem_map.1 hnumber
  obtain ⟨c, hc, hcd⟩ := h.exists_counted hd
  obtain ⟨c', hc', hce⟩ := h'.exists_counted he
  have hkey : c.key = c'.key := by
    change c.label.key = c'.label.key
    rw [hcd, hce]
    exact (congrArg Prod.fst hed).symm
  have hlabel : e.label = d.label := by rw [← hcd, ← hce, hcs c hc c' hc' hkey]
  rwa [← CallCount.eq_of_label hlabel (congrArg Prod.snd hed)]

/-- The reports are all the same just where the keys fix the names and the kind. -/
theorem eq_iff (h : (ofCalls cs).Reports r') :
    (∀ r, (ofCalls cs).Reports r → r = r') ↔ KeyFixes label (counted cs) := by
  constructor
  · intro hall c hc d hd hkey
    -- of two methods with one key, either may be listed first
    obtain ⟨r₁, hr₁, x, hx, hxc⟩ := exists_of_mem (mem_entries.2 hc)
    obtain ⟨r₂, hr₂, y, hy, hyd⟩ := exists_of_mem (mem_entries.2 hd)
    rw [hall r₁ hr₁] at hx
    rw [hall r₂ hr₂] at hy
    have hxy : x.key = y.key := by
      change x.label.key = y.label.key
      rw [hxc, hyd]
      exact hkey
    rw [← hxc, ← hyd, List.inj_on_of_nodup_map h.nodup_keys hx hy hxy]
  · intro hcs r hr
    refine List.Perm.eq_of_pairwise (fun x y _ _ hxy hyx => absurd hyx hxy.asymm)
      (List.pairwise_map.1 hr.sorted) (List.pairwise_map.1 h.sorted) ?_
    refine (List.perm_ext_iff_of_nodup hr.nodup_keys.of_map h.nodup_keys.of_map).2 fun d => ?_
    exact ⟨hr.mem_of_fixes h hcs, h.mem_of_fixes hr hcs⟩

theorem mem_pairs (h : (ofCalls cs).Reports r) (hcs : KeyFixes names (counted cs))
    {pair : Text × Text} {n : Nat} : (pair, n) ∈ r.map (fun d => (d.names, d.calls)) ↔
      pair ∈ (counted cs).map names ∧ n = (counted cs).countP (·.names = pair) := by
  -- a count has the calls of its key, which are those of its pair
  have hcalls : ∀ d ∈ r, d.names ∈ (counted cs).map names ∧
      d.calls = (counted cs).countP (·.names = d.names) := by
    intro d hd
    obtain ⟨c, hc, hlabel⟩ := h.exists_counted hd
    have hnames : c.names = d.names := (congrArg CallCount.names hlabel :)
    have hkey : c.key = d.key := (congrArg CallCount.key hlabel :)
    refine ⟨List.mem_map.2 ⟨c, hc, hnames⟩, ?_⟩
    rw [h.calls_eq hd, ← hnames, ← hkey]
    refine List.countP_congr fun e he => ?_
    simp only [decide_eq_true_eq]
    exact ⟨hcs e he c hc, CallCount.key_eq_of_names⟩
  constructor
  · intro hmem
    obtain ⟨d, hd, hpair⟩ := List.mem_map.1 hmem
    cases hpair
    exact hcalls d hd
  · rintro ⟨hmem, rfl⟩
    obtain ⟨c, hc, rfl⟩ := List.mem_map.1 hmem
    obtain ⟨d, hd, hkey⟩ := h.exists_of_counted hc
    obtain ⟨e, he, hlabel⟩ := h.exists_counted hd
    have hnames : d.names = c.names := by
      rw [← hcs e he c hc ((congrArg CallCount.key hlabel :).trans hkey)]
      exact (congrArg CallCount.names hlabel).symm
    exact List.mem_map.2 ⟨d, hd, Prod.ext hnames (by rw [(hcalls d hd).2, hnames])⟩

/-- A report counts pairs of names just where the keys fix them. -/
theorem pairs_iff (h : (ofCalls cs).Reports r) :
    (∀ pair n, (pair, n) ∈ r.map (fun d => (d.names, d.calls)) ↔
        pair ∈ (counted cs).map names ∧ n = (counted cs).countP (·.names = pair)) ↔
      KeyFixes names (counted cs) := by
  refine ⟨fun hall c hc d hd hkey => ?_, fun hcs pair n => h.mem_pairs hcs⟩
  obtain ⟨x, hx, hxc⟩ := List.mem_map.1 ((hall _ _).2 ⟨List.mem_map_of_mem hc, rfl⟩)
  obtain ⟨y, hy, hyd⟩ := List.mem_map.1 ((hall _ _).2 ⟨List.mem_map_of_mem hd, rfl⟩)
  have hxc : x.names = c.names := congrArg Prod.fst hxc
  have hyd : y.names = d.names := congrArg Prod.fst hyd
  have hxy : x.key = y.key :=
    (CallCount.key_eq_of_names hxc).trans (hkey.trans (CallCount.key_eq_of_names hyd).symm)
  rw [← hxc, ← hyd, List.inj_on_of_nodup_map h.nodup_keys hx hy hxy]

end Reports

end Profile

open Profile

/-- What is reported of some calls, with the methods and the merged counts listed in any order. A
call counts under the names and the kind of the first call of its method, which are its own unless
one method is called in several ways. The keys and the numbers of a report are those of the calls:
each key once with its number of calls, most called first and then by key, and all of the calls in
total. So they do not depend on the order. The reports are the same altogether just when calls with
one key also agree in their names and their kind, and there is a count for each class and method
name just when calls with one key agree in their names, which they do unless the name of a class
has the mark in it that keys are joined with. -/
theorem reports_exact (cs : List MethodCall) :
    (ofCalls cs).total = cs.length ∧
    (ofCalls cs).Reports (ofCalls cs).report ∧
    (∀ r, (ofCalls cs).Reports r →
      (r.map (·.number)).Pairwise Outranks ∧ (r.map (·.key)).Nodup ∧
      (r.map (·.calls)).sum = (ofCalls cs).total ∧
      r.map (·.number) = (ofCalls cs).report.map (·.number) ∧
      (∀ k n, (k, n) ∈ r.map (·.number) ↔
        k ∈ (counted cs).map MethodCall.key ∧ n = (counted cs).countP (·.key = k)) ∧
      (∀ d ∈ r, ∃ c ∈ counted cs, c.label = d.label) ∧
      ((∀ pair n, (pair, n) ∈ r.map (fun d => (d.names, d.calls)) ↔
          pair ∈ (counted cs).map names ∧ n = (counted cs).countP (·.names = pair)) ↔
        KeyFixes names (counted cs))) ∧
    ((∀ r, (ofCalls cs).Reports r → r = (ofCalls cs).report) ↔ KeyFixes label (counted cs)) ∧
    ((∀ c ∈ cs, Text.byte '#' ∉ c.owner) → KeyFixes names (counted cs)) ∧
    ((∀ c ∈ cs, ∀ d ∈ cs, c.id = d.id → c = d) → counted cs = cs) := by
  refine ⟨total_ofCalls cs, reports_report _, fun r h => ?_, Reports.eq_iff (reports_report _),
    fun hcs c hc d hd => ?_, counted_eq_self⟩
  · exact ⟨h.sorted, h.nodup_keys, h.sum_calls.trans (total_ofCalls cs).symm,
      h.numbers_eq (reports_report _), fun k n => h.mem_numbers, fun d => h.exists_counted,
      h.pairs_iff⟩
  · have hmem : ∀ {c}, c ∈ counted cs → c ∈ cs :=
      fun h => List.mem_of_find?_eq_some (mem_counted.1 h)
    exact names_eq_of_key_eq (hcs c (hmem hc)) (hcs d (hmem hd))

/-- Two calls of a method and one of the method it replaced. -/
def redefinedCalls : List MethodCall :=
  [⟨0, "Counter", "tick", true⟩, ⟨1, "Counter", "tick", true⟩, ⟨1, "Counter", "tick", true⟩]

/-- They are always reported as one count. -/
theorem reports_exact_redefined : ∀ r : List CallCount,
    (ofCalls redefinedCalls).Reports r ↔ r = [⟨"Counter", "tick", true, 3⟩] := by
  have hreport : (ofCalls redefinedCalls).report = [⟨"Counter", "tick", true, 3⟩] := by
    decide +kernel
  obtain ⟨-, hreports, -, hsame, -⟩ := reports_exact redefinedCalls
  rw [hreport] at hreports hsame
  refine fun r => ⟨hsame.2 ?_ r, fun h => h ▸ hreports⟩
  unfold KeyFixes
  decide

/-- A native that replaces a method of a script, or is replaced by one, gives the count its kind or
not, as the order has it. Two pairs of names with one key are one count, whatever the order. -/
theorem reports_mix_methods :
    ((ofCalls [⟨0, "A", "m", true⟩, ⟨1, "A", "m", false⟩]).report = [⟨"A", "m", true, 2⟩] ∧
      (ofCalls [⟨0, "A", "m", true⟩, ⟨1, "A", "m", false⟩]).Reports [⟨"A", "m", false, 2⟩]) ∧
    (ofCalls [⟨0, "A#b", "c", true⟩, ⟨1, "A", "b#c", true⟩]).report = [⟨"A#b", "c", true, 2⟩] := by
  have hlisted := (ofCalls [⟨0, "A", "m", true⟩, ⟨1, "A", "m", false⟩]).calls.reverse_perm
  refine ⟨⟨by decide +kernel, _, hlisted, _, .rfl, ?_⟩, ?_⟩ <;> decide +kernel

end ObjectMachine
