import ObjectMachine.Proofs.Balance

/-! Exact reference counts on the heap. The count of an object is the number of references
to it: those of live objects, those that chores will drop, and those of `roots`, a list of
all values held outside the heap. Under this invariant no held value is ever found
released. -/

namespace ObjectMachine

/-- The faults that an owner of all its references never meets. -/
def Fault.IsOfReleased : Fault → Prop
  | .fatal (.acquireOfReleased _ _) => True
  | .fatal (.releaseOfReleased _ _) => True
  | .fatal (.useOfReleased _ _) => True
  | _ => False

def HeapObject.holding (r : Ref) (o : HeapObject) : Int :=
  if o.refCount = 0 then 0 else tally r o.body.held

theorem HeapObject.holding_nonneg (r : Ref) (o : HeapObject) : 0 ≤ o.holding r := by
  unfold holding
  split <;> omega

namespace Memory

def countAt (heap : Array HeapObject) (r : Ref) : Nat := (heap[r]?.map (·.refCount)).getD 0

theorem countAt_of_getElem {heap : Array HeapObject} {r : Ref} (hr : r < heap.size) :
    countAt heap r = heap[r].refCount := by
  simp [countAt, hr]

theorem countAt_set {heap : Array HeapObject} {r : Ref} (hr : r < heap.size) (o : HeapObject)
    (q : Ref) : countAt (heap.set r o) q = if r = q then o.refCount else countAt heap q := by
  unfold countAt
  split
  · next h => simp [h ▸ hr, h]
  · next h => rw [Array.getElem?_set_ne hr h]

theorem countAt_push (heap : Array HeapObject) (o : HeapObject) (q : Ref) :
    countAt (heap.push o) q = if q = heap.size then o.refCount else countAt heap q := by
  unfold countAt
  rw [Array.getElem?_push]
  split <;> rfl

def drops : List Chore → List Value
  | [] => []
  | .drop v :: rest => v :: drops rest
  | _ :: rest => drops rest

theorem drops_farewell (r : Ref) (o : HeapObject) (chores : List Chore) :
    drops (farewell r o ++ chores) = o.body.held ++ drops chores := by
  rw [farewell, List.append_assoc]
  induction o.body.held with
  | nil => rfl
  | cons v vs ih => exact congrArg (v :: ·) ih

/-- Every count is the number of references to its object. -/
def Exact (roots : List Value) (chores : List Chore) (m : Memory) : Prop :=
  ∀ r, (countAt m.heap r : Int) =
    total (HeapObject.holding r) m.heap + tally r (drops chores) + tally r roots

/-- A value that may be used: an immediate one, or one of an object that was not freed. -/
def Live (m : Memory) (v : Value) : Prop := ∀ r, v.ref? = some r → countAt m.heap r ≠ 0

theorem live_of_immediate {m : Memory} {v : Value} (h : v.ref? = none) : m.Live v := by
  intro r hr
  rw [h] at hr
  cases hr

theorem Live.lt_size {m : Memory} {v : Value} {r : Ref} (h : m.Live v) (hr : v.ref? = some r) :
    r < m.heap.size := by
  rcases Nat.lt_or_ge r m.heap.size with hlt | hge
  · exact hlt
  · exact absurd (by simp [countAt, Array.getElem?_eq_none hge]) (h r hr)

namespace Exact

variable {m : Memory} {roots roots' : List Value} {chores : List Chore} {v : Value} {r : Ref}

theorem of_tally (h : Exact roots chores m) (ht : ∀ r, tally r roots' = tally r roots) :
    Exact roots' chores m := by
  intro r
  rw [ht]
  exact h r

theorem live_of_tally (h : Exact roots chores m)
    (ht : ∀ r, v.ref? = some r → 0 < tally r (drops chores) + tally r roots) : m.Live v := by
  intro r hr
  have heq := h r
  have hpos := ht r hr
  have : 0 ≤ total (HeapObject.holding r) m.heap :=
    total_nonneg fun o _ => o.holding_nonneg r
  omega

/-- A value held outside the heap is live. -/
theorem live (h : Exact roots chores m) (hv : v ∈ roots) : m.Live v := by
  refine h.live_of_tally fun r hr => ?_
  have := tally_pos_of_mem hv hr
  omega

/-- A value held by a live object is live. -/
theorem live_of_held (h : Exact roots chores m) {o : HeapObject} (ho : o ∈ m.heap)
    (h0 : o.refCount ≠ 0) (hv : v ∈ o.body.held) : m.Live v := by
  intro r hr
  have heq := h r
  have hle := le_total (f := HeapObject.holding r) (fun o _ => o.holding_nonneg r) o ho
  have hpos := tally_pos_of_mem hv hr
  have hhold : o.holding r = tally r o.body.held := by simp [HeapObject.holding, h0]
  omega

end Exact

section Settling

variable {m : Memory} {roots : List Value} {chores : List Chore} {v : Value} {r : Ref}
  {hr : r < m.heap.size}

/-- One of several references to an object is dropped. -/
theorem Exact.drop_one (h : Exact roots (.drop v :: chores) m) (hv : v.ref? = some r)
    (h0 : m.heap[r].refCount ≠ 0) (h1 : m.heap[r].refCount ≠ 1) :
    Exact roots chores { m with heap := m.heap.set r (dropped m.heap[r]) } := by
  intro q
  have hcount : (dropped m.heap[r]).refCount ≠ 0 := by
    simp only [dropped]
    omega
  have hholding : (dropped m.heap[r]).holding q = m.heap[r].holding q := by
    simp only [HeapObject.holding, hcount, h0, if_false]
    rfl
  have heq := h q
  have hdrop := tally_cons q v (drops chores)
  rw [countAt_set hr, total_set, hholding]
  simp only [drops, hdrop, tally_one, hv] at heq
  by_cases hq : r = q
  · subst hq
    rw [countAt_of_getElem hr] at heq
    simp only [if_true, dropped] at heq ⊢
    omega
  · have hne : ¬some r = some q := by simpa using hq
    simp only [hq, hne, if_false] at heq ⊢
    omega

/-- The last reference to an object is dropped, and its own references become chores. -/
theorem Exact.drop_last (h : Exact roots (.drop v :: chores) m) (hv : v.ref? = some r)
    (h1 : m.heap[r].refCount = 1) :
    Exact roots (farewell r m.heap[r] ++ chores)
      { m with heap := m.heap.set r (dropped m.heap[r]) } := by
  intro q
  have hcount : (dropped m.heap[r]).refCount = 0 := by simp [dropped, h1]
  have hnew : (dropped m.heap[r]).holding q = 0 := by simp [HeapObject.holding, hcount]
  have hold : m.heap[r].holding q = tally q m.heap[r].body.held := by
    simp [HeapObject.holding, h1]
  have heq := h q
  have hdrop := tally_cons q v (drops chores)
  rw [countAt_set hr, total_set, hnew, hold, drops_farewell, tally_append]
  simp only [drops, hdrop, tally_one, hv] at heq
  by_cases hq : r = q
  · subst hq
    rw [countAt_of_getElem hr] at heq
    simp only [if_true, hcount] at heq ⊢
    omega
  · have hne : ¬some r = some q := by simpa using hq
    simp only [hq, hne, if_false] at heq ⊢
    omega

/-- A freed object is emptied. It held nothing any more. -/
theorem Exact.empty (h : Exact roots (.refundObject r :: chores) m)
    (h0 : m.heap[r].refCount = 0) (pool : Pool) (live : Int) :
    Exact roots chores ⟨pool, m.heap.set r (emptied m.heap[r]), live⟩ := by
  intro q
  have heq := h q
  have hholding : (emptied m.heap[r]).holding q = m.heap[r].holding q := by
    simp [HeapObject.holding, emptied, h0]
  have hcount : (if r = q then (emptied m.heap[r]).refCount else countAt m.heap q) =
      countAt m.heap q := by
    split
    · next hq =>
      subst hq
      rw [countAt_of_getElem hr]
      rfl
    · rfl
  rw [countAt_set hr, hcount, total_set, hholding, Int.sub_add_cancel]
  exact heq

/-- What a list of chores drops is live, so settling finds nothing released. -/
theorem settle_exact {outside : Int} (hb : Balanced outside chores m) (h : Exact roots chores m) :
    match m.settle chores with
    | (m', none) => Exact roots [] m'
    | (_, some e) => ¬e.IsOfReleased := by
  fun_induction settle m chores with
  | case1 => exact h
  | case2 m v rest hv ih =>
    refine ih ⟨hb.nonneg, hb.used, hb.live, hb.sound, hb.room, hb.tidy⟩ fun q => ?_
    have heq := h q
    have hdrop := tally_cons q v (drops rest)
    rw [tally_one_of_immediate hv, Nat.zero_add] at hdrop
    rwa [drops, hdrop] at heq
  | case3 m v rest r hv hr o h0 =>
    have hlive : m.Live v := h.live_of_tally fun q hq => by
      have hmem : v ∈ drops (.drop v :: rest) := List.mem_cons_self
      have := tally_pos_of_mem hmem hq
      omega
    exact absurd (by rw [countAt_of_getElem hr]; exact h0) (hlive r hv)
  | case4 m v rest r hv hr o _ m' h1 ih => exact ih (hb.drop_last h1) (h.drop_last hv h1)
  | case5 m v rest r hv hr o h0 m' h1 ih => exact ih (hb.drop_one h0 h1) (h.drop_one hv h0 h1)
  | case6 => exact fun h => h
  | case7 => exact fun h => h
  | case8 m r rest o ho hc ih =>
    refine ih ⟨hb.nonneg, ?_, hb.live, hb.sound, ?_, hb.tidy.2⟩ h
    · simpa [owed, ho, hc] using hb.used
    · simpa [owed, ho, hc] using hb.room
  | case9 => exact fun h => h
  | case10 m r rest o ho _ pool m' _ ih => exact ih (hb.refundTable ho) h
  | case11 => exact fun h => h
  | case12 m r rest hr o pool m' _ ih =>
    obtain ⟨o', ho, h0⟩ := hb.tidy.1
    rw [Array.getElem?_eq_getElem hr] at ho
    cases ho
    exact ih hb.refundObject (h.empty h0 _ _)
  | case13 => exact fun h => h

end Settling

variable {m m' : Memory} {roots : List Value} {v : Value} {r : Ref}

/-- Counts are exact but for references that were handed out and not yet counted. -/
def Owing (debts roots : List Value) (m : Memory) : Prop :=
  ∀ r, (countAt m.heap r : Int) + tally r debts = total (HeapObject.holding r) m.heap + tally r roots

theorem owing_nil : Owing [] roots m ↔ Exact roots [] m := by
  simp only [Owing, Exact, drops, tally_nil, Int.natCast_zero, Int.add_zero]

/-- A value that is held once more is owed one reference. -/
theorem owing_cons (h : Exact roots [] m) : Owing [v] (v :: roots) m := by
  intro q
  have heq := h q
  rw [tally_cons q v roots]
  simp only [drops, tally_nil] at heq
  omega

/-- No object was freed, and none holds anything else. -/
def Spares (m m' : Memory) : Prop :=
  m'.heap.map HeapObject.body = m.heap.map HeapObject.body ∧ ∀ w, m.Live w → m'.Live w

theorem Spares.refl (m : Memory) : m.Spares m := ⟨rfl, fun _ hw => hw⟩

theorem acquire_spares (m : Memory) (v : Value) :
    match m.acquire v with
    | (m', none) => m.Spares m'
    | (_, some _) => True := by
  unfold acquire
  cases v.ref? with
  | none => exact .refl m
  | some r =>
    by_cases hr : r < m.heap.size
    · by_cases h0 : m.heap[r].refCount = 0
      · simp only [hr, h0, dite_true, if_true]
      · simp only [hr, h0, dite_true, if_false]
        refine ⟨?_, fun w hw q hq => ?_⟩
        · rw [Array.map_set]
          apply Array.ext
          · simp
          · intro i _ hi
            rw [Array.getElem_set]
            split
            · next h => simp [h]
            · rfl
        · rw [countAt_set hr]
          split
          · exact Nat.succ_ne_zero _
          · exact hw q hq
    · simp only [hr, dite_false]

/-- Counting a reference to a live value pays a debt. -/
theorem acquire_owing {debts : List Value} (h : Owing (v :: debts) roots m) (hv : m.Live v) :
    match m.acquire v with
    | (m', none) => Owing debts roots m'
    | (_, some e) => ¬e.IsOfReleased := by
  unfold acquire
  cases hr : v.ref? with
  | none =>
    intro q
    have heq := h q
    rwa [tally_cons, tally_one_of_immediate hr, Nat.zero_add] at heq
  | some r =>
    have hlt := hv.lt_size hr
    have h0 : m.heap[r].refCount ≠ 0 := by
      rw [← countAt_of_getElem hlt]
      exact hv r hr
    simp only [hlt, h0, dite_true, if_false]
    intro q
    have heq := h q
    have hdebts := tally_cons q v debts
    rw [tally_one, hr] at hdebts
    rw [countAt_set hlt, total_set]
    simp only [HeapObject.holding, h0, Nat.succ_ne_zero, if_false]
    by_cases hq : r = q
    · subst hq
      rw [countAt_of_getElem hlt] at heq
      simp only [if_true] at hdebts ⊢
      omega
    · have hne : ¬some r = some q := by simpa using hq
      simp only [hq, hne, if_false] at hdebts ⊢
      omega

/-- Nothing refers to a place where no object has been made yet. -/
theorem Exact.tally_fresh (h : Exact roots [] m) (hr : m.heap.size ≤ r) :
    total (HeapObject.holding r) m.heap = 0 ∧ tally r roots = 0 := by
  have heq := h r
  have hcount : countAt m.heap r = 0 := by simp [countAt, Array.getElem?_eq_none hr]
  have : 0 ≤ total (HeapObject.holding r) m.heap :=
    total_nonneg fun o _ => o.holding_nonneg r
  omega

theorem allocate?_exact {size : Int64} {body : Body} (h : Exact roots [] m)
    (ha : m.allocate? size body = some (m', r)) (hb : body.held = []) (hv : v.ref? = some r) :
    Exact (v :: roots) [] m' := by
  obtain ⟨pool, hp, heq⟩ := Option.map_eq_some_iff.1 ha
  cases heq
  intro q
  have heq := h q
  have hroots := tally_cons q v roots
  have hholding : HeapObject.holding q { refCount := 1, size, body } = 0 := by
    simp [HeapObject.holding, hb]
  rw [tally_one, hv] at hroots
  rw [countAt_push, total_push, hroots, hholding]
  by_cases hq : q = m.heap.size
  · subst hq
    obtain ⟨h1, h2⟩ := h.tally_fresh (Nat.le_refl _)
    simp only [if_true, h1, h2, drops, tally_nil]
    omega
  · have hne : ¬some m.heap.size = some q := by simpa using Ne.symm hq
    simp only [hq, hne, if_false]
    omega

/-- An instance gets another table. -/
theorem put_owing {hr : r < m.heap.size} {c : ClassId} {t t' : VariableTable} {pool : Pool}
    {debts roots' : List Value} (h : Exact roots [] m) (h0 : m.heap[r].refCount ≠ 0)
    (hbody : m.heap[r].body = .object c t)
    (ht : ∀ q, tally q t'.values + tally q roots' = tally q t.values + tally q roots + tally q debts) :
    Owing debts roots' (m.withTable pool r hr c t') := by
  intro q
  have heq := h q
  have hq := ht q
  have hcount : (if r = q then m.heap[r].refCount else countAt m.heap q) = countAt m.heap q := by
    split
    · next hq =>
      subst hq
      rw [countAt_of_getElem hr]
    · rfl
  rw [withTable, countAt_set hr, hcount, total_set]
  simp only [HeapObject.holding, h0, hbody, if_false, Body.held, drops, tally_nil] at heq ⊢
  omega

/-- A live value stays live when an instance gets another table. -/
theorem Live.withTable {hr : r < m.heap.size} {c : ClassId} {t : VariableTable} {pool : Pool}
    (hv : m.Live v) : (m.withTable pool r hr c t).Live v := by
  intro q hq
  rw [Memory.withTable, countAt_set hr]
  split
  · next h =>
    subst h
    rw [← countAt_of_getElem hr]
    exact hv r hq
  · exact hv q hq

/-- A live value stays live when an object is added. -/
theorem Live.push {o : HeapObject} (h : m'.heap = m.heap.push o) (hv : m.Live v) : m'.Live v := by
  intro r hr
  rw [h, countAt_push, if_neg (Nat.ne_of_lt (hv.lt_size hr))]
  exact hv r hr

end Memory

end ObjectMachine
