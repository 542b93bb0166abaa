import ObjectMachine.Proofs.Duplication
import ObjectMachine.Proofs.Grants

/-! Tables of variables as finite maps. A table is searched by halves and an entry is put in by
shifting those behind it; where the keys ascend this is the insertion that the tables are defined by.
Any number of tables can share a pool. Over any sequence of requests each of them holds what was last
stored in it, in ascending order, and its capacity, which is as small as blocks of four allow, is
what it has from the pool. -/

namespace ObjectMachine

namespace VariableTable

variable {t u : VariableTable} {es : List (Symbol × Value)} {s : Symbol} {v : Value} {old : Option Value}
  {i j k : Nat} {p p' : Pool} {low : Nat → Bool}

/-! ### Searching by halves -/

def halve (low : Nat → Bool) (i j : Nat) : Nat :=
  if i < j then
    let middle := (i + j) / 2
    if low middle then halve low (middle + 1) j else halve low i middle
  else i
termination_by j - i

def isLow (es : List (Symbol × Value)) (s : Symbol) (i : Nat) : Bool :=
  match es[i]? with
  | some e => e.1 < s
  | none => false

/-- The place of a key: that of its entry, or the one where an entry would go. -/
def place (t : VariableTable) (s : Symbol) : Nat := halve (isLow t.entries s) 0 t.entries.length

def find? (t : VariableTable) (s : Symbol) : Option Value :=
  match t.entries[t.place s]? with
  | some e => if e.1 = s then some e.2 else none
  | none => none

def put? (t : VariableTable) (p : Pool) (s : Symbol) (v : Value) :
    Option (VariableTable × Pool × Option Value) :=
  match t.find? s with
  | some old => some ({ t with entries := t.entries.set (t.place s) (s, v) }, p, some old)
  | none =>
    let entries := t.entries.insertIdx (t.place s) (s, v)
    if t.entries.length = t.capacity then
      (p.alloc? (bytes growth)).map fun p => ({ entries, capacity := t.capacity + growth }, p, none)
    else some ({ t with entries }, p, none)

/-- Where no place behind a high one is low, halving tells the low ones from the others. -/
theorem halve_spec (hmono : ∀ a b, a ≤ b → low b → low a) (hij : i ≤ j) (hlow : ∀ n < i, low n)
    (hhigh : ∀ n, j ≤ n → low n = false) : ∀ n, low n ↔ n < halve low i j := by
  fun_induction halve low i j with
  | case1 i j hlt middle hmiddle ih =>
    exact ih (by omega) (fun n hn => hmono n middle (by omega) hmiddle) hhigh
  | case2 i j hlt middle hmiddle ih =>
    refine ih (by omega) hlow fun n hn => ?_
    exact Bool.eq_false_iff.2 fun h => hmiddle (hmono middle n hn h)
  | case3 i j hge =>
    intro n
    refine ⟨fun h => ?_, hlow n⟩
    by_contra hn
    exact absurd h (by simp [hhigh n (by omega)])

theorem isLow_of_le (h : Ascending es) {a b : Nat} (hab : a ≤ b) (hb : isLow es s b) : isLow es s a := by
  unfold isLow at hb ⊢
  split at hb
  · next e he =>
    obtain ⟨hlt, rfl⟩ := List.getElem?_eq_some_iff.1 he
    rw [List.getElem?_eq_getElem (hab.trans_lt hlt)]
    rcases hab.lt_or_eq with hab | rfl
    · have hkeys := List.pairwise_iff_getElem.1 h a b (hab.trans hlt) hlt hab
      exact decide_eq_true (hkeys.trans (of_decide_eq_true hb))
    · exact hb
  · cases hb

/-- The entries before the place of a key are those of smaller keys. -/
theorem place_spec (h : Ascending t.entries) (s : Symbol) : ∀ n, isLow t.entries s n ↔ n < t.place s := by
  refine halve_spec (fun a b => isLow_of_le h) (Nat.zero_le _) (by simp) fun n hn => ?_
  rw [isLow, List.getElem?_eq_none hn]

theorem lookup_eq_none_of_not_lt {e : Symbol × Value} (h : Ascending (e :: es)) (hle : ¬e.1 < s) (hs : s ≠ e.1) :
    s < e.1 ∧ es.lookup s = none := by
  have hlt : s < e.1 := Nat.lt_of_le_of_ne (Nat.not_lt.1 hle) hs
  exact ⟨hlt, lookup_eq_none_of_lt fun f hf => hlt.trans ((List.pairwise_cons.1 h).1 f hf)⟩

/-- The entry of a key is at its place. -/
theorem lookup_eq (h : Ascending es) (hk : ∀ n, isLow es s n ↔ n < k) :
    es.lookup s = match es[k]? with
      | some e => if e.1 = s then some e.2 else none
      | none => none := by
  induction es generalizing k with
  | nil => rfl
  | cons e es ih =>
    have hfirst : e.1 < s ↔ 0 < k := by simpa [isLow] using hk 0
    rw [lookup_cons_eq]
    rcases k with _ | k
    · rw [List.getElem?_cons_zero]
      by_cases hs : s = e.1
      · simp [hs]
      · obtain ⟨-, hnone⟩ := lookup_eq_none_of_not_lt h (by simp [hfirst]) hs
        simp [hs, Ne.symm hs, hnone]
    · have hs : s ≠ e.1 := (Nat.ne_of_lt (hfirst.2 k.succ_pos)).symm
      rw [if_neg hs, List.getElem?_cons_succ]
      exact ih (List.pairwise_cons.1 h).2 fun n => by simpa [isLow] using hk (n + 1)

/-- Inserting in order is storing at the place of the key. -/
theorem insertEntry_eq (h : Ascending es) (hk : ∀ n, isLow es s n ↔ n < k) :
    insertEntry s v es = if (es.lookup s).isSome then es.set k (s, v) else es.insertIdx k (s, v) := by
  induction es generalizing k with
  | nil =>
    obtain rfl : k = 0 := by simpa [isLow] using hk (k - 1)
    rfl
  | cons e es ih =>
    have hfirst : e.1 < s ↔ 0 < k := by simpa [isLow] using hk 0
    rw [insertEntry, lookup_cons_eq]
    rcases k with _ | k
    · by_cases hs : s = e.1
      · simp [hs]
      · obtain ⟨hlt, hnone⟩ := lookup_eq_none_of_not_lt h (by simp [hfirst]) hs
        simp [hs, hlt, hnone]
    · have hlt : e.1 < s := hfirst.2 k.succ_pos
      have hs : s ≠ e.1 := (Nat.ne_of_lt hlt).symm
      have hnot : ¬s < e.1 := Nat.lt_asymm hlt
      rw [if_neg hnot, if_neg hs, if_neg hs,
        ih (List.pairwise_cons.1 h).2 fun n => by simpa [isLow] using hk (n + 1)]
      split
      · rfl
      · rfl

theorem find?_eq (h : Ascending t.entries) (s : Symbol) : t.find? s = t.get? s :=
  (lookup_eq h (place_spec h s)).symm

theorem put?_eq (h : Ascending t.entries) (p : Pool) (s : Symbol) (v : Value) :
    t.put? p s v = t.set? p s v := by
  have hentries := insertEntry_eq (v := v) h (place_spec h s)
  have hfind := find?_eq h s
  unfold put? set?
  cases hget : t.get? s with
  | none =>
    rw [show t.entries.lookup s = none from hget] at hentries
    simp [hfind, hget, hentries]
  | some old =>
    rw [show t.entries.lookup s = some old from hget] at hentries
    simp [hfind, hget, hentries]

/-! ### Charges -/

/-- Empties a table. Its capacity goes back to the pool, which must have granted as much. -/
def clear? (t : VariableTable) (p : Pool) : Option (VariableTable × Pool) :=
  if t.capacity = 0 then some ({}, p)
  else
    let p := p.refund (bytes t.capacity)
    if p.isOverdrawn then none else some ({}, p)

/-- Settling a freed object clears its table. -/
theorem settle_refundTable {μ : Memory} {r : Ref} {o : HeapObject} {c : ClassId} {pool : Pool}
    {rest : List Memory.Chore} (hr : μ.heap[r]? = some o) (ho : o.body = .object c t)
    (hclear : t.clear? μ.pool = some (u, pool)) :
    μ.settle (.refundTable r :: rest) = { μ with pool }.settle rest := by
  rw [Memory.settle, hr]
  simp only [ho, Body.capacity]
  unfold clear? at hclear
  dsimp only at hclear
  split_ifs at hclear ⊢ with hempty hdrawn
  · cases hclear
    rfl
  · cases hclear
    rfl

/-- A table has the capacity of its entries in blocks of four. -/
def Snug (t : VariableTable) : Prop := t.capacity = growth * ((t.entries.length + 3) / growth)

theorem snug_empty : Snug {} := rfl

theorem bytes_add (m n : Nat) : bytes (m + n) = bytes m + bytes n := by
  rw [bytes, bytes, bytes, ← Int64.add_mul, ← Int64.ofNat_add]

theorem toInt_bytes_of_lt {n : Nat} (h : 12 * (n : Int) < 2 ^ 63) : (bytes n).toInt = 12 * n := by
  rw [Memory.toInt_bytes, Int64.toInt_ofInt_of_le (by omega) (by omega)]

/-- A table that grows by a block when it is full stays snug. -/
theorem snug_of_length {n : Nat} (ht : t.Snug) (hlength : u.entries.length = t.entries.length + n)
    (hn : n ≤ 1)
    (hcapacity : u.capacity = t.capacity + if n = 1 ∧ t.entries.length = t.capacity then growth else 0) :
    u.Snug := by
  unfold Snug growth at *
  rw [hcapacity, hlength]
  split <;> omega

/-- What storing does to the bytes in use. -/
theorem charge_set? (ht : Ascending t.entries) (hsnug : t.Snug) (h : t.set? p s v = some (u, p', old)) :
    u.Snug ∧ p'.used + bytes t.capacity = p.used + bytes u.capacity := by
  have hlength := length_insertEntry (s := s) (v := v) ht
  unfold set? at h
  cases hget : t.get? s with
  | some w =>
    rw [show t.entries.lookup s = some w from hget] at hlength
    rw [hget] at h
    cases h
    exact ⟨snug_of_length hsnug hlength (Nat.zero_le 1) rfl, rfl⟩
  | none =>
    rw [show t.entries.lookup s = none from hget] at hlength
    rw [hget] at h
    dsimp only at h
    split at h
    · next hfull =>
      obtain ⟨q, hq, heq⟩ := Option.map_eq_some_iff.1 h
      cases heq
      refine ⟨snug_of_length hsnug hlength (Nat.le_refl 1) (by simp [hfull]), ?_⟩
      rw [(Pool.alloc?_counters hq).2.1, bytes_add, Int64.add_assoc, Int64.add_comm (bytes growth)]
    · next hroom =>
      cases h
      exact ⟨snug_of_length hsnug hlength (Nat.le_refl 1) (by simp [hroom]), rfl⟩

theorem charge_copy? (h : t.copy? p = some (u, p')) : u.Snug ∧ p'.used = p.used + bytes u.capacity := by
  unfold copy? at h
  split at h
  · cases h
    exact ⟨snug_empty, (Int64.add_zero _).symm⟩
  · obtain ⟨q, hq, heq⟩ := Option.map_eq_some_iff.1 h
    cases heq
    exact ⟨Nat.mul_comm _ _, (Pool.alloc?_counters hq).2.1⟩

theorem charge_clear? (h : t.clear? p = some (u, p')) : u = {} ∧ p'.used + bytes t.capacity = p.used := by
  unfold clear? at h
  split at h
  · next hzero =>
    cases h
    rw [hzero]
    exact ⟨rfl, Int64.add_zero _⟩
  · dsimp only at h
    split at h
    · cases h
    · cases h
      exact ⟨rfl, Int64.sub_add_cancel _ _⟩

/-- A capacity that is in use comes back. -/
theorem clear?_isSome (h : 0 ≤ (p.used - bytes t.capacity).toInt) : (t.clear? p).isSome := by
  unfold clear?
  split
  · rfl
  · have hsolvent : (p.refund (bytes t.capacity)).isOverdrawn = false :=
      decide_eq_false fun hlt => absurd (Int64.lt_iff_toInt_lt.1 hlt) (Int.not_lt.2 h)
    simp [hsolvent]

end VariableTable

/-! ### Many tables -/

structure Tables (ι : Type) where
  pool : Pool
  table : ι → VariableTable

/-- What can be asked of tables. A copy goes into an empty table. -/
inductive TableRequest (ι : Type)
  | set (i : ι) (s : Symbol) (v : Value)
  | get (i : ι) (s : Symbol)
  | copy (i j : ι)
  | clear (i : ι)

inductive TableAnswer
  /-- A value was stored, perhaps in the place of another. -/
  | stored (old : Option Value)
  | found (v : Option Value)
  | copied
  | cleared
  /-- The pool did not grant the bytes. -/
  | refused
  deriving DecidableEq

/-- Requests and their answers, newest first. -/
abbrev TableLog (ι : Type) := List (TableRequest ι × TableAnswer)

namespace Tables

variable {ι : Type} [DecidableEq ι]

def put (ts : Tables ι) (i : ι) (t : VariableTable) (pool : Pool) : Tables ι :=
  ⟨pool, Function.update ts.table i t⟩

@[simp] theorem table_put (ts : Tables ι) (i : ι) (t : VariableTable) (pool : Pool) :
    (ts.put i t pool).table = Function.update ts.table i t := rfl

@[simp] theorem pool_put (ts : Tables ι) (i : ι) (t : VariableTable) (pool : Pool) :
    (ts.put i t pool).pool = pool := rfl

theorem table_put_of_ne {ts : Tables ι} {i j : ι} {t : VariableTable} {pool : Pool} (h : j ≠ i) :
    (ts.put i t pool).table j = ts.table j := by
  rw [table_put, Function.update_of_ne h]

/-- The tables after a request, and the answer. There is none when more bytes come back to the pool
than it has granted. -/
def serve (ts : Tables ι) : TableRequest ι → Option (Tables ι × TableAnswer)
  | .set i s v =>
    match (ts.table i).set? ts.pool s v with
    | some (t, pool, old) => some (ts.put i t pool, .stored old)
    | none => some (ts, .refused)
  | .get i s => some (ts, .found ((ts.table i).get? s))
  | .copy i j =>
    match (ts.table i).copy? ts.pool with
    | some (t, pool) => some (ts.put j t pool, .copied)
    | none => some (ts, .refused)
  | .clear i => ((ts.table i).clear? ts.pool).map fun x => (ts.put i x.1 x.2, .cleared)

/-- A copy is refused only when there are entries, without bytes for them. -/
theorem serve_copy (ts : Tables ι) (i j : ι) :
    if (ts.table i).entries ≠ [] ∧
        ts.pool.alloc? (VariableTable.bytes (VariableTable.copyCapacity (ts.table i).entries.length)) = none then
      ts.serve (.copy i j) = some (ts, .refused)
    else ∃ ts', ts.serve (.copy i j) = some (ts', .copied) ∧ ∀ k ≠ j, ts'.table k = ts.table k := by
  split
  · next hrefused => simp only [Tables.serve, VariableTable.copy?_eq_none.2 hrefused]
  · next hgranted =>
    obtain ⟨⟨t, pool⟩, hcopy⟩ := Option.ne_none_iff_exists'.1 (mt VariableTable.copy?_eq_none.1 hgranted)
    refine ⟨ts.put j t pool, ?_, fun k hk => table_put_of_ne hk⟩
    simp only [Tables.serve, hcopy]

/-- Only empty tables are copied into. -/
def Allows (ts : Tables ι) : TableRequest ι → Prop
  | .copy _ j => (ts.table j).entries = []
  | _ => True

/-- New tables at a pool have served the requests of a log. -/
inductive Serves (p : Pool) : TableLog ι → Tables ι → Prop
  | new : Serves p [] ⟨p, fun _ => {}⟩
  | next {log : TableLog ι} {ts ts' : Tables ι} {r : TableRequest ι} {a : TableAnswer}
      (h : Serves p log ts) (hr : ts.Allows r) (ha : ts.serve r = some (ts', a)) : Serves p ((r, a) :: log) ts'

end Tables

/-- What was last stored in each table since it was new or cleared. -/
def TableLog.content {ι : Type} [DecidableEq ι] : TableLog ι → ι → Symbol → Option Value
  | [] => fun _ _ => none
  | (.set i s v, .stored _) :: log =>
    Function.update (content log) i (Function.update (content log i) s (some v))
  | (.copy i j, .copied) :: log => Function.update (content log) j (content log i)
  | (.clear i, .cleared) :: log => Function.update (content log) i fun _ => none
  | _ :: log => content log

namespace Tables

open VariableTable

variable {ι : Type} [DecidableEq ι] [Fintype ι] {p pool : Pool} {log : TableLog ι} {ts ts' : Tables ι}
  {r : TableRequest ι} {a : TableAnswer} {i : ι} {t : VariableTable}

def slots (ts : Tables ι) : Nat := ∑ i, (ts.table i).capacity

/-- Tables are the finite maps that their log tells. -/
structure Refines (p : Pool) (log : TableLog ι) (ts : Tables ι) : Prop where
  ascending : ∀ i, Ascending (ts.table i).entries
  content : ∀ i s, (ts.table i).get? s = log.content i s
  snug : ∀ i, (ts.table i).Snug
  charge : ts.pool.used = p.used + bytes ts.slots

/-- A table in the place of another changes the slots by the difference of the two. -/
theorem slots_put (ts : Tables ι) (i : ι) (t : VariableTable) (pool : Pool) :
    (ts.put i t pool).slots + (ts.table i).capacity = ts.slots + t.capacity := by
  have hput : (ts.put i t pool).slots = t.capacity + ∑ j ∈ Finset.univ.erase i, (ts.table j).capacity := by
    rw [slots, ← Finset.add_sum_erase _ _ (Finset.mem_univ i), table_put, Function.update_self]
    refine congrArg _ (Finset.sum_congr rfl fun j hj => ?_)
    rw [Function.update_of_ne (Finset.ne_of_mem_erase hj)]
  rw [hput, slots, ← Finset.add_sum_erase _ _ (Finset.mem_univ i)]
  omega

theorem refines_new (p : Pool) : Refines (ι := ι) p [] ⟨p, fun _ => {}⟩ where
  ascending _ := List.Pairwise.nil
  content _ _ := rfl
  snug _ := snug_empty
  charge := by simp [slots, bytes]

/-- Another table in one place, with its content and charge. -/
theorem Refines.put {log' : TableLog ι} (h : ts.Refines p log) (hascending : Ascending t.entries)
    (hsnug : t.Snug) (hcontent : log'.content = Function.update log.content i t.get?)
    (hcharge : pool.used + bytes (ts.table i).capacity = ts.pool.used + bytes t.capacity) :
    (ts.put i t pool).Refines p log' where
  ascending j := by
    rw [table_put]
    by_cases hj : j = i
    · rwa [hj, Function.update_self]
    · rw [Function.update_of_ne hj]
      exact h.ascending j
  content j s := by
    rw [table_put, hcontent]
    by_cases hj : j = i
    · rw [hj, Function.update_self, Function.update_self]
    · rw [Function.update_of_ne hj, Function.update_of_ne hj]
      exact h.content j s
  snug j := by
    rw [table_put]
    by_cases hj : j = i
    · rwa [hj, Function.update_self]
    · rw [Function.update_of_ne hj]
      exact h.snug j
  charge := by
    have hslots := congrArg bytes (slots_put ts i t pool)
    rw [bytes_add, bytes_add] at hslots
    refine (Int64.add_left_inj (bytes (ts.table i).capacity)).1 ?_
    rw [pool_put, hcharge, h.charge, Int64.add_assoc, Int64.add_assoc, hslots]

theorem Refines.serve (h : ts.Refines p log) (hr : ts.Allows r) (ha : ts.serve r = some (ts', a)) :
    ts'.Refines p ((r, a) :: log) := by
  cases r with
  | set i s v =>
    unfold Tables.serve at ha
    dsimp only at ha
    split at ha
    · next t pool old hset =>
      cases ha
      obtain ⟨hentries, -⟩ := entries_of_set? hset
      obtain ⟨hsnug, hcharge⟩ := charge_set? (h.ascending i) (h.snug i) hset
      refine h.put (hentries ▸ ascending_insertEntry (h.ascending i)) hsnug ?_ hcharge
      refine congrArg (Function.update log.content i) (funext fun k => ?_)
      rw [get?, hentries, lookup_insertEntry, Function.update_apply]
      exact if_congr Iff.rfl rfl (h.content i k).symm
    · cases ha
      exact ⟨h.ascending, h.content, h.snug, h.charge⟩
  | get i s =>
    cases ha
    exact ⟨h.ascending, h.content, h.snug, h.charge⟩
  | copy i j =>
    unfold Tables.serve at ha
    dsimp only at ha
    split at ha
    · next t pool hcopy =>
      cases ha
      have hentries := entries_of_copy? hcopy
      obtain ⟨hsnug, hcharge⟩ := charge_copy? hcopy
      refine h.put (hentries ▸ h.ascending i) hsnug ?_ ?_
      · refine congrArg (Function.update log.content j) (funext fun k => ?_)
        rw [get?, hentries]
        exact (h.content i k).symm
      · -- an empty table has no capacity
        have hempty : (ts.table j).capacity = 0 := by
          have hsnug := h.snug j
          rw [Snug, show (ts.table j).entries = [] from hr] at hsnug
          exact hsnug
        rw [hempty, hcharge]
        exact Int64.add_zero _
    · cases ha
      exact ⟨h.ascending, h.content, h.snug, h.charge⟩
  | clear i =>
    obtain ⟨⟨t, pool⟩, hclear, heq⟩ := Option.map_eq_some_iff.1 ha
    cases heq
    obtain ⟨rfl, hcharge⟩ := charge_clear? hclear
    refine h.put List.Pairwise.nil snug_empty rfl ?_
    rw [hcharge]
    exact (Int64.add_zero _).symm

theorem Serves.refines (h : Serves p log ts) : ts.Refines p log := by
  induction h with
  | new => exact refines_new p
  | next _ hr ha ih => exact ih.serve hr ha

theorem Refines.serve_get (h : ts.Refines p log) (i : ι) (s : Symbol) :
    ts.serve (.get i s) = some (ts, .found (log.content i s)) :=
  congrArg (fun x => some (ts, TableAnswer.found x)) (h.content i s)

/-- A value is refused only for a symbol without one, in a full table, without bytes to grow. -/
theorem Refines.serve_set (h : ts.Refines p log) (i : ι) (s : Symbol) (v : Value) :
    if log.content i s = none ∧ (ts.table i).entries.length = (ts.table i).capacity ∧
        ts.pool.alloc? 48 = none then
      ts.serve (.set i s v) = some (ts, .refused)
    else ∃ ts', ts.serve (.set i s v) = some (ts', .stored (log.content i s)) ∧
      ∀ j ≠ i, ts'.table j = ts.table j := by
  have hnone : (ts.table i).set? ts.pool s v = none ↔ log.content i s = none ∧
      (ts.table i).entries.length = (ts.table i).capacity ∧ ts.pool.alloc? 48 = none := by
    rw [set?_eq_none, h.content]
    rfl
  split
  · next hrefused => simp only [Tables.serve, hnone.2 hrefused]
  · next hgranted =>
    obtain ⟨⟨t, pool, old⟩, hset⟩ := Option.ne_none_iff_exists'.1 (mt hnone.1 hgranted)
    obtain ⟨-, rfl⟩ := entries_of_set? hset
    refine ⟨ts.put i t pool, ?_, fun j hj => table_put_of_ne hj⟩
    simp only [Tables.serve, hset, h.content]

/-- As long as they can be counted, the bytes in use are those that were in use and those of the
slots. -/
theorem Refines.used (h : ts.Refines p log) (hp : 0 ≤ p.used.toInt)
    (hslots : p.used.toInt + 12 * ts.slots < 2 ^ 63) :
    ts.pool.used.toInt = p.used.toInt + 12 * ts.slots := by
  rw [h.charge, Int64.toInt_add, toInt_bytes_of_lt (by omega)]
  exact Int.bmod_eq_of_le (by omega) (by omega)

/-- A table that is cleared gives back all that it costs. -/
theorem Refines.serve_clear (h : ts.Refines p log) (hp : 0 ≤ p.used.toInt)
    (hslots : p.used.toInt + 12 * ts.slots < 2 ^ 63) (i : ι) :
    ∃ ts', ts.serve (.clear i) = some (ts', .cleared) ∧ ts'.table i = {} ∧
      (∀ j ≠ i, ts'.table j = ts.table j) ∧
      ts'.pool.used.toInt = ts.pool.used.toInt - 12 * (ts.table i).capacity := by
  have hused := h.used hp hslots
  have hle : (ts.table i).capacity ≤ ts.slots := 
    Finset.single_le_sum_of_canonicallyOrdered (f := fun j => (ts.table j).capacity) (Finset.mem_univ i)
  have hback : (ts.pool.used - bytes (ts.table i).capacity).toInt =
      ts.pool.used.toInt - 12 * (ts.table i).capacity := by
    rw [Int64.toInt_sub, toInt_bytes_of_lt (by omega)]
    exact Int.bmod_eq_of_le (by omega) (by omega)
  obtain ⟨⟨t, pool⟩, hclear⟩ := Option.isSome_iff_exists.1
    (clear?_isSome (t := ts.table i) (p := ts.pool) (by omega))
  obtain ⟨rfl, hcharge⟩ := charge_clear? hclear
  refine ⟨ts.put i {} pool, by simp only [Tables.serve, hclear, Option.map_some], by simp,
    fun j hj => table_put_of_ne hj, ?_⟩
  rw [pool_put, ← hback, ← hcharge, Int64.add_sub_cancel]

end Tables

open Tables in
/-- Tables of variables are finite maps. Whatever they were asked, the keys of each ascend, it holds what
was last stored in it since it was new or cleared, its capacity is that of its entries in blocks of
four, and 12 bytes for each slot are charged. Searching by halves finds what a table holds, and a value
goes where the search ends. The memory clears the table of an object that is freed. A value is refused
only for a symbol without one, in a full table, when the pool has no 48 bytes, and what is refused
changes nothing.

The bytes in use are added in 64 bits; as long as they can be counted, a table that is cleared gives
them back. -/
theorem tables_refine_maps {ι : Type} [DecidableEq ι] [Fintype ι] {p : Pool} {log : TableLog ι}
    {ts : Tables ι} (h : Serves p log ts) :
    ts.Refines p log ∧
    (∀ i s, (ts.table i).find? s = (ts.table i).get? s) ∧
    (∀ i s v, (ts.table i).put? ts.pool s v = (ts.table i).set? ts.pool s v) ∧
    (∀ i (μ : Memory) (r : Ref) (o : HeapObject) (c : ClassId) (rest : List Memory.Chore) (u : VariableTable)
      (pool : Pool), μ.heap[r]? = some o → o.body = .object c (ts.table i) → μ.pool = ts.pool →
      (ts.table i).clear? ts.pool = some (u, pool) →
      μ.settle (.refundTable r :: rest) = { μ with pool }.settle rest) ∧
    (∀ i s, ts.serve (.get i s) = some (ts, .found (log.content i s))) ∧
    (∀ i s v,
      if log.content i s = none ∧ (ts.table i).entries.length = (ts.table i).capacity ∧
          ts.pool.alloc? 48 = none then
        ts.serve (.set i s v) = some (ts, .refused)
      else ∃ ts', ts.serve (.set i s v) = some (ts', .stored (log.content i s)) ∧
        ∀ j ≠ i, ts'.table j = ts.table j) ∧
    (∀ i j,
      if (ts.table i).entries ≠ [] ∧
          ts.pool.alloc? (VariableTable.bytes (VariableTable.copyCapacity (ts.table i).entries.length)) = none then
        ts.serve (.copy i j) = some (ts, .refused)
      else ∃ ts', ts.serve (.copy i j) = some (ts', .copied) ∧ ∀ k ≠ j, ts'.table k = ts.table k) ∧
    (0 ≤ p.used.toInt → p.used.toInt + 12 * ts.slots < 2 ^ 63 →
      ts.pool.used.toInt = p.used.toInt + 12 * ts.slots ∧
      ∀ i, ∃ ts', ts.serve (.clear i) = some (ts', .cleared) ∧ ts'.table i = {} ∧
        (∀ j ≠ i, ts'.table j = ts.table j) ∧
        ts'.pool.used.toInt = ts.pool.used.toInt - 12 * (ts.table i).capacity) := by
  have hmaps := h.refines
  exact ⟨hmaps, fun i => VariableTable.find?_eq (hmaps.ascending i),
    fun i => VariableTable.put?_eq (hmaps.ascending i) ts.pool,
    fun i μ r o c rest u pool hr ho hpool hclear => VariableTable.settle_refundTable hr ho (hpool ▸ hclear),
    hmaps.serve_get, hmaps.serve_set,
    ts.serve_copy, fun hp hslots => ⟨hmaps.used hp hslots, hmaps.serve_clear hp hslots⟩⟩

/-- Three tables at a pool of 100 bytes: one stores a value, one is its copy, and one is refused. -/
theorem tables_refine_maps_three :
    ∃ log ts, Tables.Serves { size := 100 } log ts ∧
      log = [(.set 2 7 .nil, .refused), (.copy 0 1, .copied), (.set 0 5 (.symbol 9), .stored none)] ∧
      ts.serve (.get (1 : Fin 3) 5) = some (ts, .found (some (.symbol 9))) ∧
      ts.pool.used.toInt = 96 ∧
      ∃ ts', ts.serve (.clear 1) = some (ts', .cleared) ∧ ts'.pool.used.toInt = 48 := by
  let pool : Pool := { size := 100 }
  let stored : VariableTable := { entries := [(5, .symbol 9)], capacity := 4 }
  let once : Pool := { pool with used := 48, peak := 48, grants := 1 }
  let twice : Pool := { pool with used := 96, peak := 96, grants := 2 }
  let first : Tables (Fin 3) := Tables.put ⟨pool, fun _ => {}⟩ 0 stored once
  let second := first.put 1 stored twice
  have hcopy : (first.table 0).copy? first.pool = some (stored, twice) := by decide
  have hset : (second.table 2).set? second.pool 7 .nil = none := by decide
  have h₁ : Tables.Serves pool [(.set 0 5 (.symbol 9), .stored none)] first := .next .new trivial rfl
  have h₂ : Tables.Serves pool ((.copy 0 1, .copied) :: [(.set 0 5 (.symbol 9), .stored none)]) second :=
    h₁.next rfl (by simp only [Tables.serve, hcopy, second])
  have h₃ := h₂.next (r := .set 2 7 .nil) (a := .refused) trivial (by rw [Tables.serve, hset])
  obtain ⟨-, -, -, -, hget, -, -, hclear⟩ := tables_refine_maps h₃
  obtain ⟨hused, hclear⟩ := hclear (by decide) (by decide)
  obtain ⟨ts', hserve, -, -, hback⟩ := hclear 1
  exact ⟨_, second, h₃, rfl, hget 1 5, by decide, ts', hserve, hback.trans (by decide)⟩

end ObjectMachine
