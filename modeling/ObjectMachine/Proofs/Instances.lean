import ObjectMachine.Proofs.Values

/-! Instances and their variables. Storing a value may free objects, those that only the replaced
value led to. What is still live afterwards was live before and holds what it held, but for the
instance that was written. An object is freed only with its last reference, so where every value
that is replaced is held elsewhere as well, storing frees nothing. -/

namespace ObjectMachine

namespace VariableTable

variable {t t' : VariableTable} {s k : Symbol} {v : Value} {es : List (Symbol × Value)} {p p' : Pool}
  {old : Option Value}

theorem lookup_cons_eq (e : Symbol × Value) (es : List (Symbol × Value)) (k : Symbol) :
    (e :: es).lookup k = if k = e.1 then some e.2 else es.lookup k := by
  rw [List.lookup_cons]
  by_cases hk : k = e.1
  · rw [if_pos hk, beq_iff_eq.2 hk]
  · rw [if_neg hk, beq_eq_false_iff_ne.2 hk]

/-- Storing a value changes what its own symbol gives, and nothing else. -/
theorem lookup_insertEntry (s : Symbol) (v : Value) (es : List (Symbol × Value)) (k : Symbol) :
    (insertEntry s v es).lookup k = if k = s then some v else es.lookup k := by
  fun_induction insertEntry s v es with
  | case1 => rw [lookup_cons_eq]
  | case2 j w rest hlt => rw [lookup_cons_eq]
  | case3 w rest =>
    rw [lookup_cons_eq, lookup_cons_eq]
    by_cases hk : k = s
    · rw [if_pos hk, if_pos hk]
    · rw [if_neg hk, if_neg hk, if_neg hk]
  | case4 j w rest hlt hne ih =>
    rw [lookup_cons_eq, lookup_cons_eq, ih]
    by_cases hk : k = j
    · have hs : k ≠ s := fun h => hne (h.symm.trans hk)
      rw [if_pos hk, if_neg hs, if_pos hk]
    · rw [if_neg hk, if_neg hk]

theorem mem_values_of_get? (h : t.get? k = some v) : v ∈ t.values := by
  obtain ⟨a, b, heq, -⟩ := List.lookup_eq_some_iff.1 h
  simp [values, heq]

/-- Storing fails only for a symbol without an entry, in a full table, without bytes to grow. -/
theorem set?_eq_none :
    t.set? p s v = none ↔
      t.get? s = none ∧ t.entries.length = t.capacity ∧ p.alloc? (bytes growth) = none := by
  unfold set?
  cases t.get? s with
  | some w => simp
  | none =>
    by_cases hfull : t.entries.length = t.capacity <;> simp [hfull]

theorem entries_of_set? (h : t.set? p s v = some (t', p', old)) :
    t'.entries = insertEntry s v t.entries ∧ old = t.get? s := by
  unfold set? at h
  split at h
  · next w hw =>
    cases h
    exact ⟨rfl, hw.symm⟩
  · next hnone =>
    split at h
    · obtain ⟨q, -, heq⟩ := Option.map_eq_some_iff.1 h
      cases heq
      exact ⟨rfl, hnone.symm⟩
    · cases h
      exact ⟨rfl, hnone.symm⟩

def after (t : VariableTable) (p : Pool) (s : Symbol) (v : Value) : VariableTable :=
  match t.set? p s v with
  | some (t', _, _) => t'
  | none => t

theorem get?_after (t : VariableTable) (p : Pool) (s : Symbol) (v : Value) (k : Symbol) :
    (t.after p s v).get? k = if k = s ∧ (t.set? p s v).isSome then some v else t.get? k := by
  unfold after
  cases h : t.set? p s v with
  | none => simp
  | some x =>
    obtain ⟨t', p', old⟩ := x
    simp only [get?, (entries_of_set? h).1, lookup_insertEntry, Option.isSome_some, and_true]

end VariableTable

namespace Memory

variable {μ μ₁ μ' : Memory} {v : Value} {r : Ref}

/-! ### References alone -/

/-- Objects are the same, and each place has so many references more. -/
structure Recounts (gain : Ref → Int) (μ μ' : Memory) : Prop where
  pool : μ'.pool = μ.pool
  live : μ'.live = μ.live
  bodies : μ'.heap.map HeapObject.body = μ.heap.map HeapObject.body
  counts : ∀ r, (countAt μ'.heap r : Int) = countAt μ.heap r + gain r

theorem Recounts.refl (μ : Memory) : Recounts (fun _ => 0) μ μ :=
  ⟨rfl, rfl, rfl, fun _ => (Int.add_zero _).symm⟩

theorem Recounts.trans {f g : Ref → Int} (h : Recounts f μ μ₁) (h' : Recounts g μ₁ μ') :
    Recounts (fun r => f r + g r) μ μ' :=
  ⟨h'.pool.trans h.pool, h'.live.trans h.live, h'.bodies.trans h.bodies,
    fun r => by rw [h'.counts, h.counts, Int.add_assoc]⟩

theorem Recounts.congr {f g : Ref → Int} (h : Recounts f μ μ') (hg : ∀ r, g r = f r) :
    Recounts g μ μ' :=
  ⟨h.pool, h.live, h.bodies, fun r => by rw [h.counts, hg]⟩

theorem Recounts.body {gain : Ref → Int} (h : Recounts gain μ μ') (r : Ref) :
    μ'.heap[r]?.map (·.body) = μ.heap[r]?.map (·.body) := by
  rw [← Array.getElem?_map, ← Array.getElem?_map]
  exact congrArg (·[r]?) h.bodies

theorem Recounts.size {gain : Ref → Int} (h : Recounts gain μ μ') : μ'.heap.size = μ.heap.size := by
  simpa using congrArg Array.size h.bodies

/-- One object gets another count. -/
theorem recounts_set (hr : r < μ.heap.size) (n : Nat) :
    Recounts (fun q => if r = q then n - μ.heap[r].refCount else 0) μ
      { μ with heap := μ.heap.set r { μ.heap[r] with refCount := n } } := by
  refine ⟨rfl, rfl, ?_, fun q => ?_⟩
  · refine Array.ext (by simp) fun i _ hi => ?_
    simp only [Array.getElem_map, Array.getElem_set]
    split
    · next h => simp only [h]
    · rfl
  · rw [countAt_set hr]
    split
    · next h =>
      subst h
      rw [countAt_of_getElem hr]
      dsimp only
      omega
    · omega

theorem acquire_of_live (hv : μ.Live v) :
    ∃ μ', μ.acquire v = (μ', none) ∧ Recounts (fun r => tally r [v]) μ μ' := by
  unfold acquire
  cases hr : v.ref? with
  | none => exact ⟨μ, rfl, (Recounts.refl μ).congr fun r => by rw [tally_one_of_immediate hr]; rfl⟩
  | some r =>
    have hlt := hv.lt_size hr
    have h0 : μ.heap[r].refCount ≠ 0 := countAt_of_getElem hlt ▸ hv r hr
    simp only [hlt, h0, dite_true, if_false]
    refine ⟨_, rfl, (recounts_set hlt _).congr fun q => ?_⟩
    rw [tally_one, hr]
    by_cases hq : r = q <;> simp [hq]

/-- Where a value is held twice, releasing it frees nothing. -/
theorem release_of_shared (hv : ∀ r, v.ref? = some r → 1 < countAt μ.heap r) :
    ∃ μ', μ.release v = (μ', none) ∧ Recounts (fun r => -tally r [v]) μ μ' := by
  unfold release settle
  cases hr : v.ref? with
  | none =>
    refine ⟨μ, by simp [settle], (Recounts.refl μ).congr fun r => ?_⟩
    rw [tally_one_of_immediate hr]
    rfl
  | some r =>
    have h1 := hv r hr
    have hlive : μ.Live v := fun q hq => by
      cases hr.symm.trans hq
      omega
    have hlt := hlive.lt_size hr
    rw [countAt_of_getElem hlt] at h1
    have hne0 : μ.heap[r].refCount ≠ 0 := by omega
    have hne1 : μ.heap[r].refCount ≠ 1 := by omega
    simp only [hlt, hne0, hne1, dite_true, if_false]
    refine ⟨_, by rw [settle]; rfl, (recounts_set hlt _).congr fun q => ?_⟩
    rw [tally_one, hr]
    by_cases hq : r = q
    · subst hq
      simp
      omega
    · simp [hq]

/-! ### Objects that last -/

def body? (μ : Memory) (r : Ref) : Option Body :=
  if countAt μ.heap r = 0 then none else μ.heap[r]?.map (·.body)

theorem body?_of_getElem (hr : r < μ.heap.size) :
    μ.body? r = if μ.heap[r].refCount = 0 then none else some μ.heap[r].body := by
  rw [body?, countAt_of_getElem hr, Array.getElem?_eq_getElem hr]
  rfl

theorem body?_set (hr : r < μ.heap.size) (o : HeapObject) (p : Pool) (n : Int) (q : Ref) :
    body? ⟨p, μ.heap.set r o, n⟩ q =
      if r = q then if o.refCount = 0 then none else some o.body else μ.body? q := by
  unfold body?
  rw [countAt_set hr]
  by_cases hq : r = q
  · subst hq
    simp [hr]
  · rw [if_neg hq, if_neg hq, Array.getElem?_set_ne hr hq]

/-- What is live afterwards was live, and held the same. -/
def Outlasts (μ μ' : Memory) : Prop := ∀ r b, μ'.body? r = some b → μ.body? r = some b

theorem Outlasts.refl (μ : Memory) : μ.Outlasts μ := fun _ _ h => h

theorem Outlasts.trans (h : μ.Outlasts μ₁) (h' : μ₁.Outlasts μ') : μ.Outlasts μ' :=
  fun r b hb => h r b (h' r b hb)

theorem outlasts_set (hr : r < μ.heap.size) {o : HeapObject} (p : Pool) (n : Int)
    (h : o.refCount ≠ 0 → μ.heap[r].refCount ≠ 0 ∧ o.body = μ.heap[r].body) :
    μ.Outlasts ⟨p, μ.heap.set r o, n⟩ := by
  intro q b hb
  rw [body?_set hr] at hb
  split at hb
  · next hq =>
    subst hq
    split at hb
    · cases hb
    · next h0 =>
      cases hb
      rw [body?_of_getElem hr, if_neg (h h0).1, (h h0).2]
  · exact hb

theorem Recounts.body?_eq {gain : Ref → Int} (h : Recounts gain μ μ')
    (hr : countAt μ.heap r = 0 ↔ countAt μ'.heap r = 0) : μ'.body? r = μ.body? r := by
  unfold Memory.body?
  rw [h.body]
  simp only [hr]

/-- A reference to a live value brings no object to life. -/
theorem Recounts.body?_of_live (h : Recounts (fun r => tally r [v]) μ μ') (hv : μ.Live v)
    (r : Ref) : μ'.body? r = μ.body? r := by
  refine h.body?_eq ⟨fun h0 => ?_, fun h0 => ?_⟩
  · have htally : tally r [v] = 0 := by
      rw [tally_one, if_neg fun hr => hv r hr h0]
    have := h.counts r
    omega
  · have := h.counts r
    omega

/-- Settling frees objects and changes no other. Objects are refunded only after they were freed. -/
theorem settle_outlasts {chores : List Chore}
    (hfreed : ∀ r, .refundObject r ∈ chores → countAt μ.heap r = 0) (hμ : μ₁.Outlasts μ) :
    match μ.settle chores with
    | (μ', none) => μ₁.Outlasts μ' ∧ μ'.heap.size = μ.heap.size
    | (_, some _) => True := by
  fun_induction settle μ chores with
  | case1 => exact ⟨hμ, rfl⟩
  | case2 μ v rest hv ih => exact ih (fun q hq => hfreed q (List.mem_cons_of_mem _ hq)) hμ
  | case3 => trivial
  | case4 μ v rest r hv hr o h0 μ₂ h1 ih =>
    have hrest : ∀ q, .refundObject q ∈ farewell r o ++ rest → countAt μ₂.heap q = 0 := by
      intro q hq
      rw [countAt_set hr]
      split
      · simp [dropped, o, h1]
      · next hne =>
        refine hfreed q (List.mem_cons_of_mem _ ?_)
        simpa [farewell, Ne.symm hne] using hq
    have hsettled := ih hrest (hμ.trans (outlasts_set hr _ _ fun _ => ⟨h0, rfl⟩))
    rwa [show μ₂.heap.size = μ.heap.size from Array.size_set hr] at hsettled
  | case5 μ v rest r hv hr o h0 μ₂ h1 ih =>
    have hrest : ∀ q, .refundObject q ∈ rest → countAt μ₂.heap q = 0 := by
      intro q hq
      have hq := hfreed q (List.mem_cons_of_mem _ hq)
      rw [countAt_set hr, if_neg, hq]
      rintro rfl
      exact h0 (countAt_of_getElem hr ▸ hq)
    have hsettled := ih hrest (hμ.trans (outlasts_set hr _ _ fun _ => ⟨h0, rfl⟩))
    rwa [show μ₂.heap.size = μ.heap.size from Array.size_set hr] at hsettled
  | case6 => trivial
  | case7 => trivial
  | case8 μ r rest o ho hc ih => exact ih (fun q hq => hfreed q (List.mem_cons_of_mem _ hq)) hμ
  | case9 => trivial
  | case10 μ r rest o ho _ pool μ₂ _ ih =>
    exact ih (fun q hq => hfreed q (List.mem_cons_of_mem _ hq)) (hμ.trans (.refl _))
  | case11 => trivial
  | case12 μ r rest hr o pool μ₂ _ ih =>
    have h0 : μ.heap[r].refCount = 0 := countAt_of_getElem hr ▸ hfreed r List.mem_cons_self
    have hrest : ∀ q, .refundObject q ∈ rest → countAt (μ.heap.set r (emptied o)) q = 0 := by
      intro q hq
      rw [countAt_set hr]
      split
      · exact h0
      · exact hfreed q (List.mem_cons_of_mem _ hq)
    have hsettled := ih hrest (hμ.trans (outlasts_set hr _ _ fun h => absurd h0 h))
    rwa [show (μ.heap.set r (emptied o)).size = μ.heap.size from Array.size_set hr] at hsettled
  | case13 => trivial

theorem getElem_of_body? {b : Body} (h : μ.body? r = some b) :
    ∃ hr : r < μ.heap.size, μ.heap[r].refCount ≠ 0 ∧ μ.heap[r].body = b := by
  unfold body? at h
  split at h
  · cases h
  · next h0 =>
    obtain ⟨o, ho, rfl⟩ := Option.map_eq_some_iff.1 h
    obtain ⟨hr, rfl⟩ := Array.getElem?_eq_some_iff.1 ho
    exact ⟨hr, countAt_of_getElem hr ▸ h0, rfl⟩

theorem live_of_body? {b : Body} (h : μ.body? r = some b) (hv : v.ref? = some r) : μ.Live v := by
  intro q hq h0
  cases hv.symm.trans hq
  simp [body?, h0] at h

theorem body?_of_live (h : μ.Live v) (hv : v.ref? = some r) : ∃ b, μ.body? r = some b := by
  have hr := h.lt_size hv
  have h0 := h r hv
  rw [countAt_of_getElem hr] at h0
  exact ⟨_, by rw [body?_of_getElem hr, if_neg h0]⟩

theorem isFreed_of_live (h : μ.Live v) : μ.isFreed v = false := by
  unfold isFreed refCount object?
  cases hr : v.ref? with
  | none => rfl
  | some r =>
    have hlt := h.lt_size hr
    have h0 : μ.heap[r].refCount ≠ 0 := countAt_of_getElem hlt ▸ h r hr
    simpa [hlt] using h0

end Memory

namespace Machine

open Memory

variable {m m₁ m' : Machine} {v : Value} {r : Ref} {c : ClassId} {t : VariableTable} {k s : Symbol}

/-! ### Variables -/

/-- What reading a variable gives. -/
def variableOf (m : Machine) (obj : Value) (k : Symbol) : Option Value :=
  match getVariable obj k m with
  | .ok v _ => some v
  | .error _ _ => none

theorem instance?_of_body? (h : m.memory.body? r = some (.object c t)) :
    m.instance? (.object r) = some (r, c, t) := by
  unfold body? at h
  split at h
  · cases h
  · obtain ⟨o, ho, hbody⟩ := Option.map_eq_some_iff.1 h
    simp only [instance?, ho]
    obtain ⟨n, size, body⟩ := o
    cases hbody
    rfl

theorem mustBeLive_ok (h : m.memory.Live v) : mustBeLive v m = .ok () m := by
  refine Leads.eq_ok ?_
  simp only [mustBeLive, Leads.bind_eq, Leads.get_eq, isFreed_of_live h]
  exact ⟨trivial, rfl⟩

theorem acquire_ok (hv : m.memory.Live v) :
    ∃ μ, acquire v m = .ok () { m with memory := μ } ∧
      Recounts (fun r => tally r [v]) m.memory μ := by
  obtain ⟨μ, hμ, hcounts⟩ := acquire_of_live hv
  refine ⟨μ, Leads.eq_ok ?_, hcounts⟩
  unfold acquire
  split
  · next hr =>
    rw [Memory.acquire, hr] at hμ
    cases hμ
    exact ⟨rfl, rfl⟩
  · simp only [onMemory, Leads.bind_eq, Leads.modifyGet_eq, hμ]
    exact ⟨trivial, rfl⟩

theorem release_ok (hv : ∀ r, v.ref? = some r → 1 < countAt m.memory.heap r) :
    ∃ μ, release v m = .ok () { m with memory := μ } ∧
      Recounts (fun r => -tally r [v]) m.memory μ := by
  obtain ⟨μ, hμ, hcounts⟩ := release_of_shared hv
  refine ⟨μ, Leads.eq_ok ?_, hcounts⟩
  unfold release
  split
  · next hr =>
    simp only [Memory.release, settle, hr] at hμ
    cases hμ
    exact ⟨rfl, rfl⟩
  · simp only [onMemory, Leads.bind_eq, Leads.modifyGet_eq, hμ]
    exact ⟨trivial, rfl⟩

/-- Reading a live instance gives what its table holds, with a reference for the reader. -/
theorem getVariable_ok (h : m.memory.body? r = some (.object c t))
    (hheld : ∀ v, t.get? k = some v → m.memory.Live v) :
    ∃ μ, getVariable (.object r) k m = .ok ((t.get? k).getD .nil) { m with memory := μ } ∧
      Recounts (fun q => tally q [(t.get? k).getD .nil]) m.memory μ := by
  have hlive : m.memory.Live (.object r) := live_of_body? h rfl
  cases hget : t.get? k with
  | none =>
    refine ⟨m.memory, Leads.eq_ok ?_, Recounts.refl _⟩
    simp only [getVariable, Leads.bind_eq, Leads.get_eq, instance?_of_body? h]
    refine .of_eq (mustBeLive_ok hlive) ?_
    simp only [hget]
    exact ⟨rfl, rfl⟩
  | some v =>
    obtain ⟨μ, hμ, hcounts⟩ := acquire_ok (hheld v hget)
    refine ⟨μ, Leads.eq_ok ?_, hcounts⟩
    simp only [getVariable, Leads.bind_eq, Leads.get_eq, instance?_of_body? h]
    refine .of_eq (mustBeLive_ok hlive) ?_
    simp only [hget, Leads.bind_eq]
    exact .of_eq hμ ⟨rfl, rfl⟩

theorem variableOf_eq (h : m.memory.body? r = some (.object c t))
    (hheld : ∀ v, t.get? k = some v → m.memory.Live v) :
    m.variableOf (.object r) k = some ((t.get? k).getD .nil) := by
  obtain ⟨μ, hμ, -⟩ := getVariable_ok h hheld
  rw [variableOf, hμ]

/-- Only what is live is acquired. -/
theorem acquire_live (v : Value) : Leads AnyFault (acquire v) m fun _ _ => m.memory.Live v := by
  unfold acquire
  split
  · next hr => exact live_of_immediate hr
  · next r hr =>
    simp only [onMemory, Leads.bind_eq, Leads.modifyGet_eq, Memory.acquire, hr]
    by_cases hlt : r < m.memory.heap.size
    · by_cases h0 : m.memory.heap[r].refCount = 0
      · simp only [hlt, h0, dite_true, if_true]
        trivial
      · simp only [hlt, h0, dite_true, if_false, Leads.pure_eq]
        intro q hq
        cases hr.symm.trans hq
        rwa [countAt_of_getElem hlt]
    · simp only [hlt, dite_false]
      trivial

/-- Releasing changes memory alone, where it frees objects. -/
theorem release_outlasts (v : Value) : Leads AnyFault (release v) m fun _ m' =>
    m' = { m with memory := m'.memory } ∧ m.memory.Outlasts m'.memory ∧
      m'.memory.heap.size = m.memory.heap.size := by
  have hfreed : ∀ r, Chore.refundObject r ∈ [Chore.drop v] → countAt m.memory.heap r = 0 := by simp
  have hsettle := settle_outlasts hfreed (.refl m.memory)
  unfold release
  split
  · exact ⟨rfl, .refl _, rfl⟩
  · simp only [onMemory, Leads.bind_eq, Leads.modifyGet_eq, Memory.release]
    cases hx : m.memory.settle [.drop v] with
    | mk μ fault =>
      rw [hx] at hsettle
      cases fault with
      | none => exact ⟨rfl, hsettle⟩
      | some e => trivial

/-! ### Storing -/

/-- What is live after a value was stored in an instance: the instance with its new table, and
others as they were. -/
structure Stored (r : Ref) (s : Symbol) (v : Value) (m m' : Machine) : Prop where
  alone : m' = { m with memory := m'.memory }
  size : m'.memory.heap.size = m.memory.heap.size
  others : ∀ q, q ≠ r → ∀ b, m'.memory.body? q = some b → m.memory.body? q = some b
  own : ∀ b', m'.memory.body? r = some b' → m.memory.body? r = some b' ∧ (∀ c t, b' ≠ .object c t) ∨
    ∃ c t, m.memory.body? r = some (.object c t) ∧ b' = .object c (t.after m.memory.pool s v)

theorem Stored.table (h : Stored r s v m m') {t' : VariableTable}
    (ht' : m'.memory.body? r = some (.object c t')) :
    ∃ t, m.memory.body? r = some (.object c t) ∧ t' = t.after m.memory.pool s v := by
  rcases h.own _ ht' with ⟨-, hother⟩ | ⟨c', t, ht, heq⟩
  · exact absurd rfl (hother c t')
  · cases heq
    exact ⟨t, ht, rfl⟩

/-- A freed instance stops the machine. -/
theorem mustBeLive_object {Q : Unit → Machine → Prop} (hr : r < m.memory.heap.size)
    (h : m.memory.heap[r].refCount ≠ 0 → Q () m) : Leads AnyFault (mustBeLive (.object r)) m Q := by
  simp only [mustBeLive, Leads.bind_eq, Leads.get_eq]
  by_cases h0 : m.memory.heap[r].refCount = 0
  · have hfreed : m.memory.isFreed (.object r) = true := by
      simp [isFreed, refCount, object?, Value.ref?, hr, h0]
    rw [if_pos hfreed]
    trivial
  · split
    · trivial
    · exact h h0

/-- A value is stored only where it and the instance are live. -/
theorem setVariable_live (r : Ref) (s : Symbol) (v : Value) :
    Leads AnyFault (setVariable (.object r) s v) m fun _ m' =>
      m' = m ∨ m.memory.Live (.object r) ∧ m.memory.Live v := by
  simp only [setVariable, Leads.bind_eq, Leads.get_eq]
  cases hi : m.instance? (.object r) with
  | none => exact .inl rfl
  | some x =>
    obtain ⟨r', c, t⟩ := x
    obtain ⟨hobj, hr, -⟩ := instance?_eq_some hi
    cases hobj
    simp only [Option.isNone_some, Bool.false_eq_true, if_false, Leads.bind_eq, Leads.get_eq]
    refine mustBeLive_object hr fun h0 => .intro (fun _ m₁ h₁ => ?_) fun _ _ _ => trivial
    have hv := (acquire_live v).of_ok h₁
    refine .intro (fun _ _ _ => .inr ⟨?_, hv⟩) fun _ _ _ => trivial
    rintro q ⟨⟩
    rwa [countAt_of_getElem hr]

theorem Stored.release (h : Stored r s v m m₁) (w : Value) :
    Leads AnyFault (release w) m₁ fun _ m' => Stored r s v m m' := by
  refine (release_outlasts w).mono fun _ m' ⟨halone, houtlasts, hsize⟩ => ⟨?_, hsize.trans h.size, ?_, ?_⟩
  · rw [halone, h.alone]
  · exact fun q hq b hb => h.others q hq b (houtlasts q b hb)
  · exact fun b' hb' => h.own b' (houtlasts r b' hb')

/-- A table is replaced in a live instance. -/
theorem Stored.of_put {μ : Memory} {pool : Pool} {hr : r < μ.heap.size}
    (hi : m.memory.body? r = some (.object c t)) (h0 : μ.heap[r].refCount ≠ 0)
    (hsize : μ.heap.size = m.memory.heap.size) (h : ∀ q, μ.body? q = m.memory.body? q) :
    Stored r s v m { m with memory := μ.withTable pool r hr c (t.after m.memory.pool s v) } := by
  refine ⟨rfl, (Array.size_set hr).trans hsize, fun q hq b hb => ?_, fun b' hb' => .inr ⟨c, t, hi, ?_⟩⟩
  · rwa [withTable, body?_set hr, if_neg (Ne.symm hq), h] at hb
  · rw [withTable, body?_set hr, if_pos rfl, if_neg h0] at hb'
    exact (Option.some.inj hb').symm

/-- Storing a value in a live instance: its table takes the value or refuses it, and no other object
changes while it lives. -/
theorem setVariable_stored (r : Ref) (s : Symbol) (v : Value) :
    Leads AnyFault (setVariable (.object r) s v) m fun _ m' => Stored r s v m m' := by
  cases hi : m.instance? (.object r) with
  | none =>
    simp only [setVariable, Leads.bind_eq, Leads.get_eq, hi]
    refine ⟨rfl, rfl, fun _ _ _ hb => hb, fun b' hb' => .inl ⟨hb', ?_⟩⟩
    rintro c t rfl
    cases hi.symm.trans (instance?_of_body? hb')
  | some x =>
    obtain ⟨r', c, t⟩ := x
    obtain ⟨hobj, hr, hbody⟩ := instance?_eq_some hi
    cases hobj
    simp only [setVariable, Leads.bind_eq, Leads.get_eq, hi, Option.isNone_some,
      Bool.false_eq_true, if_false]
    refine mustBeLive_object hr fun h0 => ?_
    have hlive : m.memory.body? r = some (.object c t) := by
      rw [body?_of_getElem hr, if_neg h0, hbody]
    refine .intro (fun _ m₁ hm₁ => ?_) fun _ _ _ => trivial
    have hv := (acquire_live v).of_ok hm₁
    obtain ⟨μ, hμ, hcounts⟩ := acquire_ok hv
    cases hμ.symm.trans hm₁
    have hsame := hcounts.body?_of_live hv
    obtain ⟨hr₁, h₁, hbody₁⟩ := getElem_of_body? ((hsame r).trans hlive)
    rw [instance?_of_body? (m := { m with memory := μ }) ((hsame r).trans hlive)]
    dsimp only
    cases hset : t.set? μ.pool s v with
    | none =>
      refine Stored.release ⟨rfl, hcounts.size, fun q _ b hb => (hsame q).symm.trans hb, fun b' hb' => ?_⟩ v
      cases hb'.symm.trans ((hsame r).trans hlive)
      refine .inr ⟨c, t, hlive, ?_⟩
      rw [VariableTable.after, ← hcounts.pool, hset]
    | some x =>
      obtain ⟨t', pool, old⟩ := x
      have hafter : t.after m.memory.pool s v = t' := by
        rw [VariableTable.after, ← hcounts.pool, hset]
      have hput : Stored r s v m { m with memory := μ.withTable pool r hr₁ c t' } := by
        rw [← hafter]
        exact .of_put hlive h₁ hcounts.size hsame
      simp only [Leads.bind_eq]
      refine .of_eq (heap_putVariables hr₁ hbody₁ pool) ?_
      cases old with
      | none => exact hput
      | some old => exact hput.release old

end Machine

end ObjectMachine
