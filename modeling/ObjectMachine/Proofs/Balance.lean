import ObjectMachine.Proofs.Outcome
import ObjectMachine.Proofs.Variables

/-! What the pool is charged for. A pool counts in 64-bit arithmetic, so its `used` field is
the sum of the charges up to a multiple of 2^64; it is that sum as long as pool and objects
keep to 2^61 bytes. The heap answers for the bytes of its live objects and of their
tables of variables, everything else is summed up in a number `outside`. -/

namespace ObjectMachine

namespace Pool

variable {p p' : Pool} {n : Int} {b : Int64}

/-- The most that was in use never falls. -/
theorem peak_le_of_alloc? (h : p.alloc? b = some p') : p.peak.toInt ≤ p'.peak.toInt := by
  unfold alloc? at h
  split at h
  · cases h
  · cases h
    split
    · next hgt =>
      rw [gt_iff_lt, Int64.lt_iff_toInt_lt] at hgt
      exact Int.le_of_lt hgt
    · exact Int.le_refl _

theorem used_of_alloc? (h : p.alloc? b = some p') (hn : p.used = Int64.ofInt n) :
    p'.used = Int64.ofInt (n + b.toInt) := by
  unfold alloc? at h
  split at h
  · cases h
  · cases h
    simp [hn]

theorem nonneg_of_alloc? (h : p.alloc? b = some p') : 0 ≤ b.toInt := by
  unfold alloc? at h
  split at h
  · cases h
  · next hb =>
    have h0 : ¬b < 0 := fun hlt => hb (.inl hlt)
    rw [Int64.lt_iff_toInt_lt] at h0
    simpa using h0

/-- A grant that does not leave 64-bit arithmetic is noted. -/
theorem le_peak_of_alloc? (h : p.alloc? b = some p') (hn : p.used = Int64.ofInt n)
    (h0 : 0 ≤ n) (hlt : n + b.toInt < 2 ^ 63) : n + b.toInt ≤ p'.peak.toInt := by
  have hpos := nonneg_of_alloc? h
  have hsum : (p.used + b).toInt = n + b.toInt := by
    rw [hn, ← Int64.ofInt_toInt b, ← Int64.ofInt_add,
      Int64.toInt_ofInt_of_le (by omega) (by simp; omega)]
    simp
  unfold alloc? at h
  split at h
  · cases h
  · cases h
    split
    · exact Int.le_of_eq hsum.symm
    · next hle =>
      rw [gt_iff_lt, Int64.lt_iff_toInt_lt, hsum] at hle
      exact Int.not_lt.1 hle

theorem used_refund (hn : p.used = Int64.ofInt n) (k : Int) :
    (p.refund (Int64.ofInt k)).used = Int64.ofInt (n - k) := by
  simp [refund, hn]

/-- A refund of bytes that were charged leaves the pool in order. -/
theorem not_isOverdrawn (hn : p.used = Int64.ofInt n) (h0 : 0 ≤ n) (hle : n ≤ 2 ^ 62) :
    p.isOverdrawn = false := by
  have : ¬p.used < 0 := by
    rw [Int64.lt_iff_toInt_lt, hn, Int64.toInt_ofInt_of_le (by omega) (by omega)]
    simpa using h0
  simpa [isOverdrawn] using this

end Pool

namespace Memory

def total (f : HeapObject → Int) (heap : Array HeapObject) : Int := (heap.toList.map f).sum

theorem sum_map_set {α : Type} (f : α → Int) (l : List α) (i : Nat) (h : i < l.length) (x : α) :
    ((l.set i x).map f).sum = (l.map f).sum - f l[i] + f x := by
  induction l generalizing i with
  | nil => simp at h
  | cons a l ih =>
    cases i with
    | zero => simp; omega
    | succ i =>
      have := ih i (by simpa using h)
      simp only [List.set_cons_succ, List.map_cons, List.sum_cons, List.getElem_cons_succ]
      omega

variable {f : HeapObject → Int} {heap : Array HeapObject}

theorem total_set (r : Nat) (h : r < heap.size) (o : HeapObject) :
    total f (heap.set r o) = total f heap - f heap[r] + f o := by
  have := sum_map_set f heap.toList r (by simpa using h) o
  simpa [total] using this

theorem total_push (o : HeapObject) : total f (heap.push o) = total f heap + f o := by
  simp [total]

theorem sum_map_nonneg {l : List HeapObject} (h : ∀ o ∈ l, 0 ≤ f o) : 0 ≤ (l.map f).sum := by
  induction l with
  | nil => simp
  | cons o l ih =>
    have ho := h o List.mem_cons_self
    have := ih fun o ho => h o (List.mem_cons_of_mem _ ho)
    simp only [List.map_cons, List.sum_cons]
    omega

theorem total_nonneg (h : ∀ o ∈ heap, 0 ≤ f o) : 0 ≤ total f heap :=
  sum_map_nonneg fun o ho => h o (by simpa using ho)

theorem le_total (h : ∀ o ∈ heap, 0 ≤ f o) (o : HeapObject) (ho : o ∈ heap) :
    f o ≤ total f heap := by
  have : ∀ l : List HeapObject, (∀ o ∈ l, 0 ≤ f o) → o ∈ l → f o ≤ (l.map f).sum := by
    intro l hl hmem
    induction l with
    | nil => simp at hmem
    | cons a l ih =>
      have ha := hl a List.mem_cons_self
      have hrest : ∀ o ∈ l, 0 ≤ f o := fun o ho => hl o (List.mem_cons_of_mem _ ho)
      simp only [List.map_cons, List.sum_cons]
      rcases List.mem_cons.1 hmem with rfl | hmem
      · have := sum_map_nonneg hrest
        omega
      · have := ih hrest hmem
        omega
  exact this _ (fun o ho => h o (by simpa using ho)) (by simpa using ho)

end Memory

namespace Body

def InOrder : Body → Prop
  | object _ table => table.InOrder
  | _ => True

theorem inOrder_emptied (b : Body) : b.emptied.InOrder := by
  cases b with
  | object => exact VariableTable.inOrder_empty
  | proc => trivial
  | string => trivial

end Body

namespace HeapObject

/-- The bytes an object is charged for while it lives. -/
def charge (o : HeapObject) : Int :=
  if o.refCount = 0 then 0 else o.size.toInt + 12 * o.body.capacity

def alive (o : HeapObject) : Int := if o.refCount = 0 then 0 else 1

structure Sound (o : HeapObject) : Prop where
  size_nonneg : 0 ≤ o.size.toInt
  table : o.body.InOrder

theorem Sound.charge_nonneg {o : HeapObject} (h : o.Sound) : 0 ≤ o.charge := by
  have := h.size_nonneg
  unfold charge
  split <;> omega

end HeapObject

namespace Memory

/-- What was in use at any time, and every object, is small enough for exact sums in 64-bit
arithmetic. Objects keep their size when they are freed, so this is said of all objects ever
made. -/
def Addressable (m : Memory) : Prop :=
  m.pool.peak.toInt ≤ 2 ^ 61 ∧ ∀ o ∈ m.heap, o.size.toInt ≤ 2 ^ 61

def Freed (heap : Array HeapObject) (r : Ref) : Prop := ∃ o, heap[r]? = some o ∧ o.refCount = 0

/-- The bytes that chores will give back. -/
def owed (heap : Array HeapObject) : List Chore → Int
  | [] => 0
  | .drop _ :: rest => owed heap rest
  | .refundTable r :: rest => 12 * (heap[r]?.map (·.body.capacity)).getD 0 + owed heap rest
  | .refundObject r :: rest => (heap[r]?.map (·.size.toInt)).getD 0 + owed heap rest

/-- The objects that chores will count off. -/
def leaving : List Chore → Int
  | [] => 0
  | .refundObject _ :: rest => 1 + leaving rest
  | _ :: rest => leaving rest

/-- Chores give back what freed objects had, the table of an object before the object. -/
def Tidy (heap : Array HeapObject) : List Chore → Prop
  | [] => True
  | .drop _ :: rest => Tidy heap rest
  | .refundTable r :: rest => Freed heap r ∧ Tidy heap rest
  | .refundObject r :: rest => Freed heap r ∧ .refundTable r ∉ rest ∧ Tidy heap rest

/-- The pool is charged for `outside`, for the live objects of the heap and for what
chores will give back, and for nothing else. -/
structure Balanced (outside : Int) (chores : List Chore) (m : Memory) : Prop where
  nonneg : 0 ≤ outside
  used : m.pool.used =
    Int64.ofInt (outside + total HeapObject.charge m.heap + owed m.heap chores)
  live : m.live = total HeapObject.alive m.heap + leaving chores
  sound : ∀ o ∈ m.heap, o.Sound
  room : m.Addressable →
    outside + total HeapObject.charge m.heap + owed m.heap chores ≤ m.pool.peak.toInt
  tidy : Tidy m.heap chores

section Settling

variable {heap : Array HeapObject} {r : Ref} {o : HeapObject} {chores : List Chore}

theorem not_mem_of_tidy (h : Tidy heap chores) (hr : heap[r]? = some o) (ho : o.refCount ≠ 0) :
    .refundTable r ∉ chores := by
  induction chores with
  | nil => simp
  | cons c rest ih =>
    intro hmem
    cases c with
    | drop v =>
      rcases List.mem_cons.1 hmem with hc | hrest
      · cases hc
      · exact ih h hrest
    | refundTable q =>
      rcases List.mem_cons.1 hmem with hc | hrest
      · obtain ⟨o', hq, h0⟩ := h.1
        cases hc
        rw [hr] at hq
        cases hq
        exact ho h0
      · exact ih h.2 hrest
    | refundObject q =>
      rcases List.mem_cons.1 hmem with hc | hrest
      · cases hc
      · exact ih h.2.2 hrest

/-- Freed objects stay freed when the count of a live one changes. -/
theorem tidy_set (h : Tidy heap chores) (hr : r < heap.size)
    (ho : heap[r].refCount = 0 → o.refCount = 0) : Tidy (heap.set r o) chores := by
  have hfreed : ∀ q, Freed heap q → Freed (heap.set r o) q := by
    rintro q ⟨o', hq, h0⟩
    by_cases hrq : r = q
    · subst hrq
      rw [Array.getElem?_eq_getElem hr] at hq
      cases hq
      exact ⟨o, by simp, ho h0⟩
    · exact ⟨o', by rwa [Array.getElem?_set_ne hr hrq], h0⟩
  induction chores with
  | nil => trivial
  | cons c rest ih =>
    cases c with
    | drop v => exact ih h
    | refundTable q => exact ⟨hfreed q h.1, ih h.2⟩
    | refundObject q => exact ⟨hfreed q h.1, h.2.1, ih h.2.2⟩

theorem owed_set (hr : r < heap.size) (hs : o.size = heap[r].size)
    (hc : o.body.capacity = heap[r].body.capacity ∨ .refundTable r ∉ chores) :
    owed (heap.set r o) chores = owed heap chores := by
  have hne : ∀ q, r ≠ q → (heap.set r o)[q]? = heap[q]? := fun q hq => Array.getElem?_set_ne hr hq
  induction chores with
  | nil => rfl
  | cons c rest ih =>
    have hrest : o.body.capacity = heap[r].body.capacity ∨ .refundTable r ∉ rest :=
      hc.imp_right fun h hmem => h (List.mem_cons_of_mem _ hmem)
    cases c with
    | drop v => exact ih hrest
    | refundTable q =>
      simp only [owed, ih hrest]
      by_cases hq : r = q
      · subst hq
        rcases hc with hc | hc
        · simp [Array.getElem?_eq_getElem hr, hc]
        · exact absurd List.mem_cons_self hc
      · rw [hne q hq]
    | refundObject q =>
      simp only [owed, ih hrest]
      by_cases hq : r = q
      · subst hq
        simp [Array.getElem?_eq_getElem hr, hs]
      · rw [hne q hq]

theorem owed_nonneg (h : ∀ o ∈ heap, o.Sound) : 0 ≤ owed heap chores := by
  induction chores with
  | nil => exact Int.le_refl 0
  | cons c rest ih =>
    cases c with
    | drop v => exact ih
    | refundTable q =>
      simp only [owed]
      omega
    | refundObject q =>
      simp only [owed]
      cases hq : heap[q]? with
      | none =>
        simp only [Option.map_none, Option.getD_none]
        omega
      | some o =>
        have := (h o (Array.mem_of_getElem? hq)).size_nonneg
        simp only [Option.map_some, Option.getD_some]
        omega

theorem owed_drops (vs : List Value) : owed heap (vs.map .drop ++ chores) = owed heap chores := by
  induction vs with
  | nil => rfl
  | cons v vs ih => exact ih

theorem leaving_drops (vs : List Value) : leaving (vs.map .drop ++ chores) = leaving chores := by
  induction vs with
  | nil => rfl
  | cons v vs ih => exact ih

theorem tidy_drops (vs : List Value) (h : Tidy heap chores) :
    Tidy heap (vs.map .drop ++ chores) := by
  induction vs with
  | nil => exact h
  | cons v vs ih => exact ih

/-- An object that loses its last reference leaves its charge behind as chores. -/
theorem owed_farewell (hr : heap[r]? = some o) (q : HeapObject) :
    owed heap (farewell r q ++ chores) = o.size.toInt + 12 * o.body.capacity + owed heap chores := by
  simp only [farewell, List.append_assoc, owed_drops, List.cons_append, List.nil_append, owed, hr,
    Option.map_some, Option.getD_some]
  omega

theorem leaving_farewell (q : HeapObject) :
    leaving (farewell r q ++ chores) = 1 + leaving chores := by
  simp only [farewell, List.append_assoc, leaving_drops, List.cons_append, List.nil_append, leaving]

theorem tidy_farewell (q : HeapObject) (hr : Freed heap r) (hn : .refundTable r ∉ chores)
    (h : Tidy heap chores) : Tidy heap (farewell r q ++ chores) := by
  rw [farewell, List.append_assoc]
  exact tidy_drops _ ⟨hr, hr, hn, h⟩

end Settling

theorem toInt_bytes (n : Nat) : VariableTable.bytes n = Int64.ofInt (12 * n) := by
  rw [Int.mul_comm, Int64.ofInt_mul, Int64.ofInt_eq_ofNat]
  rfl

/-- An object of the same size in the place of another changes nothing that could be too
large. -/
theorem Addressable.of_set {m : Memory} {pool : Pool} {live : Int} {r : Ref} {o : HeapObject}
    {hr : r < m.heap.size} (h : Addressable ⟨pool, m.heap.set r o, live⟩)
    (hp : m.pool.peak.toInt ≤ pool.peak.toInt) (hs : o.size = m.heap[r].size) :
    m.Addressable := by
  refine ⟨Int.le_trans hp h.1, fun q hq => ?_⟩
  obtain ⟨i, hi, rfl⟩ := Array.mem_iff_getElem.1 hq
  by_cases hir : r = i
  · subst hir
    rw [← hs]
    exact h.2 o (Array.mem_set hr)
  · refine h.2 _ (Array.mem_iff_getElem.2 ⟨i, by simpa using hi, ?_⟩)
    simp [Array.getElem_set, hir]

theorem forall_mem_set {heap : Array HeapObject} {P : HeapObject → Prop} {r : Ref}
    {o : HeapObject} (hr : r < heap.size) (h : ∀ q ∈ heap, P q) (ho : P o) :
    ∀ q ∈ heap.set r o, P q := by
  intro q hq
  obtain ⟨i, hi, rfl⟩ := Array.mem_iff_getElem.1 hq
  rw [Array.getElem_set]
  split
  · exact ho
  · exact h _ (Array.getElem_mem _)

namespace Balanced

variable {outside : Int} {chores : List Chore} {m : Memory} {v : Value} {r : Ref}
  {hr : r < m.heap.size}

theorem congr {outside' : Int} (h : Balanced outside chores m) (ho : outside' = outside) :
    Balanced outside' chores m :=
  ho ▸ h

theorem charges_nonneg (h : Balanced outside chores m) : 0 ≤ total HeapObject.charge m.heap :=
  total_nonneg fun o ho => (h.sound o ho).charge_nonneg

/-- One of several references to an object is dropped. -/
theorem drop_one (h : Balanced outside (.drop v :: chores) m) (h0 : m.heap[r].refCount ≠ 0)
    (h1 : m.heap[r].refCount ≠ 1) :
    Balanced outside chores { m with heap := m.heap.set r (dropped m.heap[r]) } := by
  have hcount : (dropped m.heap[r]).refCount ≠ 0 := by
    simp only [dropped]
    omega
  have hcharge : (dropped m.heap[r]).charge = m.heap[r].charge := by
    simp only [HeapObject.charge, hcount, h0, if_false]
    rfl
  have halive : (dropped m.heap[r]).alive = m.heap[r].alive := by
    simp [HeapObject.alive, hcount, h0]
  have howed : owed (m.heap.set r (dropped m.heap[r])) chores = owed m.heap chores :=
    owed_set hr rfl (.inl rfl)
  have htotal := total_set (f := HeapObject.charge) r hr (dropped m.heap[r])
  refine ⟨h.nonneg, ?_, ?_, ?_, fun ha => ?_, tidy_set h.tidy hr fun h => absurd h h0⟩
  · rw [h.used, howed, htotal, hcharge, Int.sub_add_cancel]
    rfl
  · rw [h.live, total_set, halive, Int.sub_add_cancel]
    rfl
  · have hsound := h.sound _ (Array.getElem_mem hr)
    exact forall_mem_set hr h.sound ⟨hsound.size_nonneg, hsound.table⟩
  · rw [howed, htotal, hcharge, Int.sub_add_cancel]
    exact h.room (ha.of_set (Int.le_refl _) rfl)

/-- The last reference to an object is dropped. -/
theorem drop_last (h : Balanced outside (.drop v :: chores) m) (h1 : m.heap[r].refCount = 1) :
    Balanced outside (farewell r m.heap[r] ++ chores)
      { m with heap := m.heap.set r (dropped m.heap[r]) } := by
  have hcount : (dropped m.heap[r]).refCount = 0 := by simp [dropped, h1]
  have hcharge : (dropped m.heap[r]).charge = 0 := by simp [HeapObject.charge, hcount]
  have halive : (dropped m.heap[r]).alive = 0 := by simp [HeapObject.alive, hcount]
  have hself : (m.heap.set r (dropped m.heap[r]))[r]? = some (dropped m.heap[r]) := by simp
  have howed : owed (m.heap.set r (dropped m.heap[r])) chores = owed m.heap chores :=
    owed_set hr rfl (.inl rfl)
  have hsum : outside + total HeapObject.charge (m.heap.set r (dropped m.heap[r]))
      + owed (m.heap.set r (dropped m.heap[r])) (farewell r m.heap[r] ++ chores)
      = outside + total HeapObject.charge m.heap + owed m.heap (.drop v :: chores) := by
    rw [owed_farewell hself, howed, total_set, hcharge]
    simp only [HeapObject.charge, h1, owed, dropped]
    simp only [Nat.one_ne_zero, if_false]
    omega
  have hn : .refundTable r ∉ chores :=
    not_mem_of_tidy h.tidy (Array.getElem?_eq_getElem hr) (by omega)
  refine ⟨h.nonneg, ?_, ?_, ?_, fun ha => ?_, ?_⟩
  · rw [h.used, ← hsum]
  · rw [leaving_farewell, total_set, halive, h.live]
    simp only [HeapObject.alive, h1, leaving]
    simp only [Nat.one_ne_zero, if_false]
    omega
  · have hsound := h.sound _ (Array.getElem_mem hr)
    exact forall_mem_set hr h.sound ⟨hsound.size_nonneg, hsound.table⟩
  · rw [hsum]
    exact h.room (ha.of_set (Int.le_refl _) rfl)
  · exact tidy_farewell _ ⟨_, hself, hcount⟩ hn (tidy_set h.tidy hr fun h => by omega)

/-- A pool that gives back what it is charged for is not overdrawn. -/
theorem not_isOverdrawn (h : Balanced outside chores m) (ha : m.Addressable) {n : Int}
    (h0 : 0 ≤ n) (hn : n ≤ outside + total HeapObject.charge m.heap + owed m.heap chores) :
    (m.pool.refund (Int64.ofInt n)).isOverdrawn = false := by
  have hroom := h.room ha
  have hlimit := ha.1
  exact Pool.not_isOverdrawn (Pool.used_refund h.used n) (by omega) (by omega)

theorem refundTable {o : HeapObject} (h : Balanced outside (.refundTable r :: chores) m)
    (ho : m.heap[r]? = some o) :
    Balanced outside chores
      { m with pool := m.pool.refund (VariableTable.bytes o.body.capacity) } := by
  have hsum : outside + total HeapObject.charge m.heap + owed m.heap (.refundTable r :: chores)
      - 12 * o.body.capacity = outside + total HeapObject.charge m.heap + owed m.heap chores := by
    simp only [owed, ho, Option.map_some, Option.getD_some]
    omega
  refine ⟨h.nonneg, ?_, h.live, h.sound, fun ha => ?_, h.tidy.2⟩
  · rw [toInt_bytes, ← hsum]
    exact Pool.used_refund h.used _
  · have := h.room ha
    have hpeak : (m.pool.refund (VariableTable.bytes o.body.capacity)).peak = m.pool.peak := rfl
    simp only [hpeak]
    omega

theorem refundObject (h : Balanced outside (.refundObject r :: chores) m) :
    Balanced outside chores
      { pool := m.pool.refund m.heap[r].size, heap := m.heap.set r (emptied m.heap[r]),
        live := m.live - 1 } := by
  obtain ⟨⟨o, ho, hfreed⟩, hn, htidy⟩ := h.tidy
  rw [Array.getElem?_eq_getElem hr] at ho
  cases ho
  have hcharge : (emptied m.heap[r]).charge = m.heap[r].charge := by
    simp [HeapObject.charge, emptied, hfreed]
  have halive : (emptied m.heap[r]).alive = m.heap[r].alive := rfl
  have howed : owed (m.heap.set r (emptied m.heap[r])) chores = owed m.heap chores :=
    owed_set hr rfl (.inr hn)
  have htotal : total HeapObject.charge (m.heap.set r (emptied m.heap[r]))
      = total HeapObject.charge m.heap := by
    rw [total_set, hcharge, Int.sub_add_cancel]
  have hsum : outside + total HeapObject.charge m.heap + owed m.heap (.refundObject r :: chores)
      - m.heap[r].size.toInt = outside + total HeapObject.charge m.heap + owed m.heap chores := by
    simp only [owed, Array.getElem?_eq_getElem hr, Option.map_some, Option.getD_some]
    omega
  have hsound := h.sound _ (Array.getElem_mem hr)
  refine ⟨h.nonneg, ?_, ?_, ?_, fun ha => ?_, tidy_set htidy hr fun h => h⟩
  · rw [howed, htotal, ← hsum, ← Pool.used_refund h.used, Int64.ofInt_toInt]
  · rw [total_set, halive, h.live]
    simp only [leaving]
    omega
  · exact forall_mem_set hr h.sound ⟨hsound.size_nonneg, Body.inOrder_emptied _⟩
  · have := h.room (ha.of_set (Int.le_refl _) rfl)
    have := hsound.size_nonneg
    have hpeak : (m.pool.refund m.heap[r].size).peak = m.pool.peak := rfl
    simp only [howed, htotal, hpeak]
    omega

end Balanced

/-- Settled chores leave a balanced memory; only bytes beyond all addresses can overdraw
the pool on the way. -/
theorem settle_balanced {outside : Int} {chores : List Chore} {m : Memory}
    (h : Balanced outside chores m) :
    match m.settle chores with
    | (m', none) => Balanced outside [] m'
    | (m', some e) => e = .overdrawn → ¬m'.Addressable := by
  fun_induction settle m chores with
  | case1 => exact h
  | case2 _ _ _ _ ih => exact ih ⟨h.nonneg, h.used, h.live, h.sound, h.room, h.tidy⟩
  | case3 => exact nofun
  | case4 m v rest r _ hr o _ m' h1 ih => exact ih (h.drop_last h1)
  | case5 m v rest r _ hr o h0 m' h1 ih => exact ih (h.drop_one h0 h1)
  | case6 => exact nofun
  | case7 => exact nofun
  | case8 m r rest o ho hc ih =>
    refine ih ⟨h.nonneg, ?_, h.live, h.sound, ?_, h.tidy.2⟩
    · simpa [owed, ho, hc] using h.used
    · simpa [owed, ho, hc] using h.room
  | case9 m r rest o ho _ pool m' hover =>
    rintro - ha
    have hcap : 12 * (o.body.capacity : Int) ≤
        outside + total HeapObject.charge m.heap + owed m.heap (.refundTable r :: rest) := by
      have h1 := h.nonneg
      have h2 := h.charges_nonneg
      have h3 : 0 ≤ owed m.heap rest := owed_nonneg h.sound
      simp only [owed, ho, Option.map_some, Option.getD_some]
      omega
    have := h.not_isOverdrawn ha (n := 12 * o.body.capacity) (by omega) hcap
    rw [← toInt_bytes] at this
    exact absurd hover (by simp [pool, this])
  | case10 m r rest o ho _ pool m' _ ih => exact ih (h.refundTable ho)
  | case11 m r rest hr o pool m' hover =>
    rintro - ha
    have hsize : o.size.toInt ≤
        outside + total HeapObject.charge m.heap + owed m.heap (.refundObject r :: rest) := by
      have h1 := h.nonneg
      have h2 := h.charges_nonneg
      have h3 : 0 ≤ owed m.heap rest := owed_nonneg h.sound
      simp only [owed, Array.getElem?_eq_getElem hr, Option.map_some, Option.getD_some, o]
      omega
    have := h.not_isOverdrawn (ha.of_set (Int.le_refl _) rfl) (h.sound _ (Array.getElem_mem hr)).size_nonneg hsize
    rw [Int64.ofInt_toInt] at this
    exact absurd hover (by simp [pool, o, this])
  | case12 m r rest hr o pool m' _ ih => exact ih h.refundObject
  | case13 => exact nofun

theorem acquire_balanced {outside : Int} {m : Memory} (h : Balanced outside [] m) (v : Value) :
    match m.acquire v with
    | (m', none) => Balanced outside [] m'
    | (_, some e) => e ≠ .overdrawn := by
  unfold acquire
  cases v.ref? with
  | none => exact h
  | some r =>
    by_cases hr : r < m.heap.size
    · by_cases h0 : m.heap[r].refCount = 0
      · simp only [hr, h0, dite_true, if_true]
        exact nofun
      · simp only [hr, h0, dite_true, if_false]
        let o : HeapObject := { m.heap[r] with refCount := m.heap[r].refCount + 1 }
        have hcharge : o.charge = m.heap[r].charge := by simp [HeapObject.charge, o, h0]
        have halive : o.alive = m.heap[r].alive := by simp [HeapObject.alive, o, h0]
        have htotal : total HeapObject.charge (m.heap.set r o) = total HeapObject.charge m.heap := by
          rw [total_set, hcharge, Int.sub_add_cancel]
        have hsound := h.sound _ (Array.getElem_mem hr)
        change Balanced outside [] { m with heap := m.heap.set r o }
        refine ⟨h.nonneg, ?_, ?_, forall_mem_set hr h.sound ⟨hsound.size_nonneg, hsound.table⟩,
          fun ha => ?_, trivial⟩
        · rw [htotal]
          exact h.used
        · rw [total_set, halive, Int.sub_add_cancel]
          exact h.live
        · rw [htotal]
          exact h.room (ha.of_set (Int.le_refl _) rfl)
    · simp only [hr, dite_false]
      exact nofun

/-- Bytes granted for something outside the heap. -/
theorem Balanced.alloc {outside : Int} {m : Memory} {n : Int64} {pool : Pool}
    (h : Balanced outside [] m) (hp : m.pool.alloc? n = some pool) (hn : n.toInt < 2 ^ 62) :
    Balanced (outside + n.toInt) [] { m with pool } := by
  have h0 := Pool.nonneg_of_alloc? hp
  have hnonneg := h.nonneg
  refine ⟨by omega, ?_, h.live, h.sound, fun ha => ?_, trivial⟩
  · rw [Pool.used_of_alloc? hp h.used]
    congr 1
    simp only [owed]
    omega
  · have hlimit := Int.le_trans (Pool.peak_le_of_alloc? hp) ha.1
    have hroom := h.room ⟨hlimit, ha.2⟩
    have hcharges := h.charges_nonneg
    have := Pool.le_peak_of_alloc? hp h.used (by simp only [owed]; omega) (by omega)
    simp only [owed] at this ⊢
    omega

/-- Bytes of something outside the heap that come back. -/
theorem Balanced.refund {outside n : Int} {m : Memory} (h : Balanced outside [] m)
    (h0 : 0 ≤ n) (hn : n ≤ outside) :
    Balanced (outside - n) [] { m with pool := m.pool.refund (Int64.ofInt n) } := by
  refine ⟨by omega, ?_, h.live, h.sound, fun ha => ?_, trivial⟩
  · rw [Pool.used_refund h.used]
    congr 1
    simp only [owed]
    omega
  · have := h.room ha
    have hpeak : (m.pool.refund (Int64.ofInt n)).peak = m.pool.peak := rfl
    simp only [hpeak, owed] at this ⊢
    omega

/-- A new object without variables. -/
theorem allocate?_balanced {outside : Int} {m m' : Memory} {size : Int64} {body : Body} {r : Ref}
    (h : Balanced outside [] m) (ha : m.allocate? size body = some (m', r))
    (hc : body.capacity = 0) (hb : body.InOrder) : Balanced outside [] m' := by
  obtain ⟨pool, hp, heq⟩ := Option.map_eq_some_iff.1 ha
  cases heq
  have h0 := Pool.nonneg_of_alloc? hp
  have hcharge : HeapObject.charge { refCount := 1, size, body } = size.toInt := by
    simp [HeapObject.charge, hc]
  refine ⟨h.nonneg, ?_, ?_, ?_, fun ha => ?_, trivial⟩
  · rw [Pool.used_of_alloc? hp h.used, total_push, hcharge]
    congr 1
    simp only [owed]
    omega
  · rw [total_push]
    have := h.live
    simp only [HeapObject.alive, leaving] at this ⊢
    simp only [Nat.one_ne_zero, if_false]
    omega
  · intro o ho
    rcases Array.mem_push.1 ho with ho | rfl
    · exact h.sound o ho
    · exact ⟨h0, hb⟩
  · have hold : m.Addressable :=
      ⟨Int.le_trans (Pool.peak_le_of_alloc? hp) ha.1,
        fun o ho => ha.2 o (Array.mem_push_of_mem _ ho)⟩
    have hroom := h.room hold
    have hnonneg := h.nonneg
    have hcharges := h.charges_nonneg
    have hlimit := hold.1
    have hsize := ha.2 ⟨1, size, body⟩ Array.mem_push_self
    dsimp only at hsize
    have := Pool.le_peak_of_alloc? hp h.used (by simp only [owed]; omega) (by omega)
    simp only [total_push, hcharge, owed] at this ⊢
    omega

/-- The table of a live object is part of what the pool is charged for. -/
theorem Balanced.capacity_le {outside : Int} {m : Memory} {o : HeapObject}
    (h : Balanced outside [] m) (ha : m.Addressable) (ho : o ∈ m.heap) (h0 : o.refCount ≠ 0) :
    12 * (o.body.capacity : Int) ≤ 2 ^ 61 := by
  have hroom := h.room ha
  have hlimit := ha.1
  have hnonneg := h.nonneg
  have hsize := (h.sound o ho).size_nonneg
  have hle := le_total (f := HeapObject.charge) (fun o ho => (h.sound o ho).charge_nonneg) o ho
  simp only [HeapObject.charge, h0, if_false, owed] at hle hroom
  omega

def withTable (m : Memory) (pool : Pool) (r : Ref) (hr : r < m.heap.size) (c : ClassId)
    (t : VariableTable) : Memory :=
  { m with pool, heap := m.heap.set r { m.heap[r] with body := .object c t } }

/-- An instance gets another table, with a grant for what its capacity grows by. -/
theorem Balanced.put {outside : Int} {m : Memory} {r : Ref} {hr : r < m.heap.size} {c : ClassId}
    {t t' : VariableTable} {pool : Pool} {k : Nat} (h : Balanced outside [] m)
    (h0 : m.heap[r].refCount ≠ 0) (hbody : m.heap[r].body = .object c t) (ht : t'.InOrder)
    (hcapacity : t'.capacity = t.capacity + k)
    (hpool : (pool = m.pool ∧ k = 0) ∨ m.pool.alloc? (VariableTable.bytes k) = some pool)
    (hk : m.Addressable → 12 * (k : Int) ≤ 2 ^ 62) :
    Balanced outside [] (m.withTable pool r hr c t') := by
  have hcharge : HeapObject.charge { m.heap[r] with body := .object c t' } =
      m.heap[r].charge + 12 * k := by
    simp only [HeapObject.charge, h0, hbody, if_false, Body.capacity, hcapacity]
    omega
  have htotal : total HeapObject.charge (m.heap.set r { m.heap[r] with body := .object c t' }) =
      total HeapObject.charge m.heap + 12 * k := by
    rw [total_set, hcharge]
    omega
  have hpeak : m.pool.peak.toInt ≤ pool.peak.toInt := by
    rcases hpool with ⟨rfl, -⟩ | hp
    · exact Int.le_refl _
    · exact Pool.peak_le_of_alloc? hp
  have hsound := h.sound _ (Array.getElem_mem hr)
  unfold withTable
  refine ⟨h.nonneg, ?_, ?_, forall_mem_set hr h.sound ⟨hsound.size_nonneg, ht⟩, fun ha => ?_,
    trivial⟩
  · rw [htotal]
    rcases hpool with ⟨rfl, rfl⟩ | hp
    · rw [Int.natCast_zero, Int.mul_zero, Int.add_zero]
      exact h.used
    · refine (Pool.used_of_alloc? hp h.used).trans ?_
      rw [toInt_bytes, Int64.ofInt_add, Int64.ofInt_toInt,
        ← Int64.ofInt_add]
      congr 1
      simp only [owed]
      omega
  · rw [total_set]
    have := h.live
    simp only [HeapObject.alive] at this ⊢
    omega
  · have hold : m.Addressable := ha.of_set hpeak rfl
    have hroom := h.room hold
    have hnonneg := h.nonneg
    have hcharges := h.charges_nonneg
    have hlimit := hold.1
    have hgrowth := hk hold
    simp only [htotal, owed] at hroom ⊢
    rcases hpool with ⟨rfl, rfl⟩ | hp
    · omega
    · have hbytes : (VariableTable.bytes k).toInt = 12 * k := by
        rw [toInt_bytes, Int64.toInt_ofInt_of_le (by omega) (by omega)]
      have := Pool.le_peak_of_alloc? hp h.used (by simp only [owed]; omega)
        (by simp only [owed]; omega)
      simp only [owed] at this
      omega

end Memory

end ObjectMachine
