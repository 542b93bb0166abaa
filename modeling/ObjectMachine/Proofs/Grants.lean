import ObjectMachine.Proofs.Validity
import ObjectMachine.Machine.Pool

/-! Pools over time. A log lists the requests that a pool has served, newest first, with the
answers. As long as the bytes in use and the requested ones add up to less than 2^63, the counters
are the exact sums of the log, and bytes are granted just when they fit. The first request that
goes beyond is granted by a pool of any size, and leaves a negative number of bytes in use. -/

namespace ObjectMachine

inductive Request
  /-- Bytes to use, perhaps for good. -/
  | grant (n : Int64) (forGood : Bool)
  | refund (n : Int64)

def Pool.serve (p : Pool) : Request → Pool × Bool
  | .grant n forGood =>
    match if forGood then p.pin? n else p.alloc? n with
    | some p' => (p', true)
    | none => (p, false)
  | .refund n => (p.refund n, true)

namespace Request

variable (inUse : Int)

/-- Some bytes are asked for, or some of those in use are given back. -/
def Proper : Request → Prop
  | grant n _ => 0 ≤ n.toInt
  | refund n => 0 ≤ n.toInt ∧ n.toInt ≤ inUse

/-- The bytes in use and the requested ones can be added in 64 bits. -/
def Modest : Request → Prop
  | grant n _ => inUse + n.toInt < 2 ^ 63
  | refund _ => True

def Fits (size : Int) : Request → Prop
  | grant n _ => inUse + n.toInt ≤ size
  | refund _ => True

instance : (r : Request) → Decidable (r.Proper inUse)
  | grant n _ => inferInstanceAs (Decidable (0 ≤ n.toInt))
  | refund n => inferInstanceAs (Decidable (0 ≤ n.toInt ∧ n.toInt ≤ inUse))

instance : (r : Request) → Decidable (r.Modest inUse)
  | grant n _ => inferInstanceAs (Decidable (inUse + n.toInt < 2 ^ 63))
  | refund _ => .isTrue trivial

instance (size : Int) : (r : Request) → Decidable (r.Fits inUse size)
  | grant n _ => inferInstanceAs (Decidable (inUse + n.toInt ≤ size))
  | refund _ => .isTrue trivial

end Request

abbrev RequestLog := List (Request × Bool)

namespace RequestLog

/-- The bytes that were granted without those that came back. -/
def balance : RequestLog → Int
  | [] => 0
  | (.grant n _, granted) :: log => if granted then balance log + n.toInt else balance log
  | (.refund n, _) :: log => balance log - n.toInt

def highest : RequestLog → Int
  | [] => 0
  | e :: log => max (highest log) (balance (e :: log))

/-- All requests of a log were of a kind, given the bytes in use at the time. -/
def All (kind : Int → Request → Prop) : RequestLog → Prop
  | [] => True
  | e :: log => kind (balance log) e.1 ∧ All kind log

instance All.decidable (kind : Int → Request → Prop) [∀ n r, Decidable (kind n r)] :
    (log : RequestLog) → Decidable (log.All kind)
  | [] => .isTrue trivial
  | e :: log =>
    have := All.decidable kind log
    inferInstanceAs (Decidable (kind (balance log) e.1 ∧ All kind log))

end RequestLog

namespace Pool

/-- A new pool of `size` bytes has served the requests of a log. -/
inductive Serves (size : Int64) : RequestLog → Pool → Prop
  | new : Serves size [] { size }
  | next {log : RequestLog} {p : Pool} (h : Serves size log p) (r : Request) :
      Serves size ((r, (p.serve r).2) :: log) (p.serve r).1

/-- The counters of a pool are the exact sums of its log, and it has not granted more than it
has. -/
structure Exact (size : Int64) (log : RequestLog) (p : Pool) : Prop where
  capacity : p.size = size
  used : p.used.toInt = log.balance
  peak : p.peak.toInt = log.highest
  nonneg : 0 ≤ log.balance
  le_highest : log.balance ≤ log.highest
  highest_le : log.highest ≤ size.toInt
  solvent : p.isOverdrawn = false

variable {p p' : Pool} {size n : Int64} {log : RequestLog} {forGood : Bool} {r : Request}

/-! ### One request -/

/-- The limit is tested in 64 bits. -/
theorem alloc?_isSome_iff (hn : 0 ≤ n.toInt) (hused : 0 ≤ p.used.toInt) (hsize : 0 ≤ p.size.toInt) :
    (p.alloc? n).isSome ↔
      p.used.toInt + n.toInt ≤ p.size.toInt ∨ 2 ^ 63 ≤ p.used.toInt + n.toInt := by
  have hnonneg : ¬n < 0 := by
    rw [Int64.lt_iff_toInt_lt]
    exact Int.not_lt.2 hn
  rw [← add_le_iff hused hn hsize, alloc?]
  by_cases hover : p.used + n > p.size
  · rw [if_pos (.inr hover)]
    exact iff_of_false nofun (Int64.not_le.2 hover)
  · rw [if_neg (not_or.2 ⟨hnonneg, hover⟩)]
    exact iff_of_true rfl (Int64.not_lt.1 hover)

theorem alloc?_counters (h : p.alloc? n = some p') :
    p'.size = p.size ∧ p'.used = p.used + n ∧
      p'.peak = if p.used + n > p.peak then p.used + n else p.peak := by
  unfold alloc? at h
  split at h
  · cases h
  · cases h
    exact ⟨rfl, rfl, rfl⟩

/-- Bytes that are granted for good are counted besides. -/
theorem serve_grant (p : Pool) (n : Int64) (forGood : Bool) :
    (p.serve (.grant n forGood)).2 = (p.alloc? n).isSome ∧
    match p.alloc? n with
    | some p' => ∃ pinned, (p.serve (.grant n forGood)).1 = { p' with pinned }
    | none => (p.serve (.grant n forGood)).1 = p := by
  cases forGood with
  | false => cases h : p.alloc? n with
    | none => simp [serve, h]
    | some p' => exact ⟨by simp [serve, h], p'.pinned, by simp [serve, h]⟩
  | true => cases h : p.alloc? n with
    | none => simp [serve, pin?, h]
    | some p' => exact ⟨by simp [serve, pin?, h], p'.pinned + n, by simp [serve, pin?, h]⟩

theorem serve_refused (h : (p.serve r).2 = false) : (p.serve r).1 = p := by
  cases r with
  | grant n forGood =>
    obtain ⟨hanswer, hpool⟩ := serve_grant p n forGood
    rw [hanswer, Option.isSome_eq_false_iff, Option.isNone_iff_eq_none] at h
    rwa [h] at hpool
  | refund n => cases h

namespace Exact

theorem new (hsize : 0 ≤ size.toInt) : Exact size [] { size } :=
  ⟨rfl, rfl, rfl, Int.le_refl 0, Int.le_refl 0, hsize, rfl⟩

/-- Bytes are granted when they fit, or when the sum wraps around. -/
theorem granted_iff (h : p.Exact size log) (hsize : 0 ≤ size.toInt) (hr : r.Proper log.balance) :
    (p.serve r).2 = true ↔ r.Fits log.balance size.toInt ∨ ¬r.Modest log.balance := by
  cases r with
  | grant n forGood =>
    have hused := h.used ▸ h.nonneg
    rw [(serve_grant ..).1, alloc?_isSome_iff hr hused (h.capacity ▸ hsize), h.used, h.capacity]
    exact or_congr_right Int.not_lt.symm
  | refund n => exact iff_of_true rfl (.inl trivial)

/-- A sum that wraps around is negative. -/
theorem used_of_wrapped (h : p.Exact size log) (hsize : 0 ≤ size.toInt) (hr : r.Proper log.balance)
    (hwraps : ¬r.Modest log.balance) : (p.serve r).1.used.toInt < 0 := by
  have hgranted := (h.granted_iff hsize hr).2 (.inr hwraps)
  cases r with
  | grant n forGood =>
    obtain ⟨hanswer, hpool⟩ := serve_grant p n forGood
    obtain ⟨p', hp⟩ := Option.isSome_iff_exists.1 (hanswer.symm.trans hgranted)
    rw [hp] at hpool
    obtain ⟨pinned, heq⟩ := hpool
    have hbig : 2 ^ 63 ≤ p.used.toInt + n.toInt := h.used ▸ Int.not_lt.1 hwraps
    have hused := p.used.toInt_lt
    have hn := n.toInt_lt
    rw [heq, (alloc?_counters hp).2.1, Int64.toInt_add, Int.bmod_def]
    split <;> omega
  | refund n => exact absurd trivial hwraps

/-- A grant that fits is booked. -/
theorem grant (h : p.Exact size log) (hn : 0 ≤ n.toInt) (hfits : log.balance + n.toInt ≤ size.toInt) :
    (p.serve (.grant n forGood)).1.Exact size ((.grant n forGood, true) :: log) := by
  have hsize := size.toInt_lt
  have hnonneg := h.nonneg
  have hused : 0 ≤ p.used.toInt := h.used ▸ h.nonneg
  have hsum : (p.used + n).toInt = log.balance + n.toInt := by
    rw [Int64.toInt_add, h.used]
    apply Int.bmod_eq_of_le <;> omega
  have hsome := (alloc?_isSome_iff hn hused (by rw [h.capacity]; omega)).2
    (.inl (by rwa [h.used, h.capacity]))
  obtain ⟨p', hp⟩ := Option.isSome_iff_exists.1 hsome
  have hpool := (serve_grant p n forGood).2
  rw [hp] at hpool
  obtain ⟨pinned, heq⟩ := hpool
  obtain ⟨hsize', hused', hpeak'⟩ := alloc?_counters hp
  have hhighest := h.highest_le
  rw [heq]
  refine ⟨hsize'.trans h.capacity, ?_, ?_, ?_, ?_, ?_, ?_⟩
  · exact (congrArg Int64.toInt hused').trans hsum
  · refine (congrArg Int64.toInt hpeak').trans ?_
    simp only [RequestLog.highest, RequestLog.balance, if_true]
    split
    · next hgt =>
      rw [gt_iff_lt, Int64.lt_iff_toInt_lt, hsum, h.peak] at hgt
      omega
    · next hle =>
      rw [gt_iff_lt, Int64.lt_iff_toInt_lt, hsum, h.peak] at hle
      rw [h.peak]
      omega
  · simp only [RequestLog.balance, if_true]
    omega
  · exact le_max_right _ _
  · simp only [RequestLog.highest, RequestLog.balance, if_true]
    omega
  · refine decide_eq_false ?_
    rw [Int64.lt_iff_toInt_lt, hused', hsum]
    exact Int.not_lt.2 (Int.add_nonneg hnonneg hn)

/-- A request that is refused changes no sum. -/
theorem refuse (h : p.Exact size log) :
    p.Exact size ((.grant n forGood, false) :: log) := by
  have hbalance : RequestLog.balance ((.grant n forGood, false) :: log) = log.balance := rfl
  have hhighest : RequestLog.highest ((.grant n forGood, false) :: log) = log.highest :=
    max_eq_left h.le_highest
  exact ⟨h.capacity, h.used, h.peak.trans hhighest.symm, h.nonneg, hhighest ▸ h.le_highest,
    hhighest ▸ h.highest_le, h.solvent⟩

/-- Bytes in use that come back are booked. -/
theorem refund {answer : Bool} (h : p.Exact size log) (hn : 0 ≤ n.toInt)
    (hle : n.toInt ≤ log.balance) : (p.refund n).Exact size ((.refund n, answer) :: log) := by
  have hlt := p.used.toInt_lt
  have husedeq := h.used
  have hused : (p.used - n).toInt = log.balance - n.toInt := by
    rw [Int64.toInt_sub, h.used]
    apply Int.bmod_eq_of_le <;> omega
  have hle_highest := h.le_highest
  have hhighest : RequestLog.highest ((.refund n, answer) :: log) = log.highest := by
    simp only [RequestLog.highest, RequestLog.balance]
    omega
  refine ⟨h.capacity, hused, h.peak.trans hhighest.symm, ?_, ?_, hhighest ▸ h.highest_le, ?_⟩
  · simp only [RequestLog.balance]
    omega
  · rw [hhighest]
    simp only [RequestLog.balance]
    omega
  · refine decide_eq_false ?_
    rw [Int64.lt_iff_toInt_lt]
    exact Int.not_lt.2 (hused ▸ Int.sub_nonneg.2 hle)

/-- A request is booked. -/
theorem serve (h : p.Exact size log) (hsize : 0 ≤ size.toInt) (hr : r.Proper log.balance)
    (hmodest : r.Modest log.balance) :
    (p.serve r).1.Exact size ((r, (p.serve r).2) :: log) := by
  cases r with
  | refund n => exact h.refund hr.1 hr.2
  | grant n forGood =>
    cases hanswer : (p.serve (.grant n forGood)).2 with
    | true =>
      rcases (h.granted_iff hsize hr).1 hanswer with hfits | hwraps
      · exact h.grant hr hfits
      · exact absurd hmodest hwraps
    | false =>
      rw [serve_refused hanswer]
      exact h.refuse

end Exact

/-! ### Many requests -/

theorem Serves.exact (h : Serves size log p) (hsize : 0 ≤ size.toInt)
    (hproper : log.All Request.Proper) (hmodest : log.All Request.Modest) : p.Exact size log := by
  induction h with
  | new => exact .new hsize
  | next _ r ih => exact (ih hproper.2 hmodest.2).serve hsize hproper.1 hmodest.1

end Pool

/-- A pool never grants more than it has, as long as no request goes beyond 64 bits. After any such
requests the bytes in use are those granted without those that came back, the peak is the largest
number of them that there was, and 0 ≤ used ≤ peak ≤ size. A further request is granted just when
it fits, and leaves the pool as it is when it is refused. A request that goes beyond 64 bits is
granted without fitting, and more bytes are in use than can be counted. -/
theorem pool_exact {size : Int64} {log : RequestLog} {p : Pool} (hsize : 0 ≤ size.toInt)
    (h : Pool.Serves size log p) (hproper : log.All Request.Proper)
    (hmodest : log.All Request.Modest) :
    p.Exact size log ∧ ∀ r : Request, r.Proper log.balance →
      (r.Modest log.balance → ((p.serve r).2 = true ↔ r.Fits log.balance size.toInt)) ∧
      ((p.serve r).2 = false → (p.serve r).1 = p) ∧
      (¬r.Modest log.balance → (p.serve r).2 = true ∧ ¬r.Fits log.balance size.toInt ∧
        (p.serve r).1.used.toInt < 0) := by
  have hexact := h.exact hsize hproper hmodest
  refine ⟨hexact, fun r hr => ⟨fun hm => ?_, Pool.serve_refused, fun hm => ?_⟩⟩
  · rw [hexact.granted_iff hsize hr]
    exact or_iff_left (not_not.2 hm)
  · refine ⟨(hexact.granted_iff hsize hr).2 (.inr hm), ?_, hexact.used_of_wrapped hsize hr hm⟩
    cases r with
    | grant n forGood =>
      intro hfits
      have hlt := size.toInt_lt
      have hbig : 2 ^ 63 ≤ log.balance + n.toInt := Int.not_lt.1 hm
      have hle : log.balance + n.toInt ≤ size.toInt := hfits
      omega
    | refund n => exact absurd trivial hm

/-- A pool of 100 bytes grants 60, refuses 50, grants 30 for good and takes 60 back; then it
refuses 71. -/
theorem pool_exact_hundred :
    ∃ log p, Pool.Serves 100 log p ∧ log.All Request.Proper ∧ log.All Request.Modest ∧
      p.used.toInt = log.balance ∧ log.balance = 30 ∧ p.peak.toInt = log.highest ∧
      log.highest = 90 ∧ (p.serve (.grant 71 false)).2 = false := by
  let log : RequestLog := [(.refund 60, true), (.grant 30 true, true), (.grant 50 false, false),
    (.grant 60 false, true)]
  have h : Pool.Serves 100 log ⟨100, 30, 90, 30, 2, 1⟩ :=
    (((Pool.Serves.new.next (.grant 60 false)).next (.grant 50 false)).next (.grant 30 true)).next
      (.refund 60)
  have hproper : log.All Request.Proper := by decide
  have hmodest : log.All Request.Modest := by decide
  obtain ⟨hexact, hnext⟩ := pool_exact (by decide) h hproper hmodest
  have hanswer := (hnext (.grant 71 false) (by decide)).1 (by decide)
  refine ⟨log, _, h, hproper, hmodest, hexact.used, rfl, hexact.peak, rfl, ?_⟩
  exact Bool.eq_false_iff.2 fun hgranted => absurd (hanswer.1 hgranted) (by decide)

/-- A pool of 10 bytes, one of them in use, grants all bytes that can be counted. -/
theorem overcommitted_ten :
    ∃ log p, Pool.Serves 10 log p ∧ log.All Request.Proper ∧
      ∃ r, r.Proper log.balance ∧ ¬r.Fits log.balance 10 ∧ (p.serve r).2 = true ∧
        (p.serve r).1.used = Int64.minValue := by
  refine ⟨[(.grant 1 false, true)], ⟨10, 1, 1, 0, 1, 0⟩, Pool.Serves.new.next (.grant 1 false),
    by decide, .grant Int64.maxValue false, by decide, by decide, by decide, by decide⟩

end ObjectMachine
