import ObjectMachine.Proofs.Instances
import ObjectMachine.Proofs.Ownership

/-! Copies of instances. A copy is charged twice, for itself and for its table. When the first
charge is refused there is no copy and nothing has changed; when only the second one is, there is a
copy without variables. Each entry of a copied table is one more reference, so whatever is stored in
the copy afterwards frees nothing of what was there before; and what is stored in the original frees
nothing that the copy holds. -/

namespace ObjectMachine

open Machine

namespace Memory

variable {μ μ₁ μ' : Memory} {r : Ref}

/-- All objects but one hold what they held. -/
def SameBut (r : Ref) (μ μ' : Memory) : Prop :=
  μ'.heap.size = μ.heap.size ∧ ∀ q, q ≠ r → μ'.heap[q]?.map (·.body) = μ.heap[q]?.map (·.body)

theorem SameBut.refl (r : Ref) (μ : Memory) : SameBut r μ μ := ⟨rfl, fun _ _ => rfl⟩

theorem SameBut.trans (h : SameBut r μ μ₁) (h' : SameBut r μ₁ μ') :
    SameBut r μ μ' :=
  ⟨h'.1.trans h.1, fun q hq => (h'.2 q hq).trans (h.2 q hq)⟩

theorem Recounts.sameBut {gain : Ref → Int} (h : Recounts gain μ μ') (r : Ref) :
    SameBut r μ μ' :=
  ⟨h.size, fun q _ => h.body q⟩

theorem sameBut_withTable {c : ClassId} {t : VariableTable} {pool : Pool}
    (hr : r < μ.heap.size) :
    SameBut r μ (μ.withTable pool r hr c t) := by
  refine ⟨Array.size_set hr, fun q hq => ?_⟩
  rw [withTable, Array.getElem?_set_ne hr (Ne.symm hq)]

theorem countAt_withTable {c : ClassId} {t : VariableTable} {pool : Pool} (hr : r < μ.heap.size)
    (q : Ref) : countAt (μ.withTable pool r hr c t).heap q = countAt μ.heap q := by
  rw [withTable, countAt_set hr]
  split
  · next hq =>
    subst hq
    rw [countAt_of_getElem hr]
  · rfl

end Memory

/-- Only a table with entries can be refused. -/
theorem VariableTable.copy?_eq_none {t : VariableTable} {p : Pool} :
    t.copy? p = none ↔ t.entries ≠ [] ∧ p.alloc? (bytes (copyCapacity t.entries.length)) = none := by
  unfold copy?
  split
  · next hempty => simp [List.isEmpty_iff.1 hempty]
  · next hne =>
    rw [Option.map_eq_none_iff]
    exact ⟨fun h => ⟨fun hnil => hne (by rw [hnil]; rfl), h⟩, And.right⟩

theorem VariableTable.entries_of_copy? {t t' : VariableTable} {p p' : Pool}
    (h : t.copy? p = some (t', p')) : t'.entries = t.entries := by
  unfold copy? at h
  split at h
  · next hempty =>
    cases h
    exact (List.isEmpty_iff.1 hempty).symm
  · obtain ⟨q, -, heq⟩ := Option.map_eq_some_iff.1 h
    cases heq
    rfl

namespace Machine

open Memory

variable {m m₁ m' : Machine} {v : Value} {r : Ref} {c : ClassId} {t t' : VariableTable}
  {base : Ref → Nat}

/-! ### Writes to an instance that owns nothing alone -/

/-- Besides the references of an instance's table each object has `base` ones, and what the table
holds has some. -/
structure Shares (base : Ref → Nat) (r : Ref) (c : ClassId) (t : VariableTable) (μ : Memory) :
    Prop where
  own : μ.heap[r]?.map (·.body) = some (.object c t)
  alive : base r ≠ 0
  inOrder : t.InOrder
  counts : ∀ q, countAt μ.heap q = base q + tally q t.values
  shared : ∀ v ∈ t.values, ∀ q, v.ref? = some q → base q ≠ 0

namespace Shares

theorem body? {μ : Memory} (h : Shares base r c t μ) : μ.body? r = some (.object c t) := by
  have hcount := h.counts r
  have halive := h.alive
  rw [Memory.body?, if_neg (by omega), h.own]

theorem live_of_base {μ : Memory} (h : Shares base r c t μ) {q : Ref} (hv : v.ref? = some q)
    (hq : base q ≠ 0) : μ.Live v := by
  intro q' hq'
  cases hv.symm.trans hq'
  rw [h.counts]
  omega

/-- What is live has references besides those of the table. -/
theorem base_of_live {μ : Memory} (h : Shares base r c t μ) (hv : μ.Live v) {q : Ref}
    (hq : v.ref? = some q) : base q ≠ 0 := by
  intro h0
  have hcount := h.counts q
  have hlive := hv q hq
  have hpos : 0 < tally q t.values := by omega
  rw [tally, List.count_pos_iff, List.mem_filterMap] at hpos
  obtain ⟨w, hw, hwq⟩ := hpos
  exact h.shared w hw q hwq h0

theorem recount {μ μ' : Memory} {gain : Ref → Int} (h : Shares base r c t μ)
    (hμ : Recounts gain μ μ') (hgain : ∀ q, gain q = 0) : Shares base r c t μ' where
  own := (hμ.body r).trans h.own
  alive := h.alive
  inOrder := h.inOrder
  counts q := by
    have := hμ.counts q
    have := h.counts q
    have := hgain q
    omega
  shared := h.shared

end Shares

/-- Storing a value in such an instance frees nothing, and changes no other object. -/
theorem setVariable_shares (h : Shares base r c t m.memory) (s : Symbol) (v : Value) :
    Leads AnyFault (setVariable (.object r) s v) m fun _ m' =>
      SameBut r m.memory m'.memory ∧ ∃ t', Shares base r c t' m'.memory := by
  simp only [setVariable, Leads.bind_eq, Leads.get_eq, instance?_of_body? h.body?, Option.isNone_some,
    Bool.false_eq_true, if_false]
  refine .of_eq (mustBeLive_ok (live_of_body? h.body? rfl)) ?_
  refine .intro (fun _ m₁ hm₁ => ?_) fun _ _ _ => trivial
  have hv := (acquire_live v).of_ok hm₁
  obtain ⟨μ, hμ, hcounts⟩ := acquire_ok hv
  cases hμ.symm.trans hm₁
  have hi₁ : μ.body? r = some (.object c t) := (hcounts.body?_of_live hv r).trans h.body?
  obtain ⟨hr, h0, hbody⟩ := getElem_of_body? hi₁
  rw [instance?_of_body? (m := { m with memory := μ }) hi₁]
  dsimp only
  cases hset : t.set? μ.pool s v with
  | none =>
    have htwice : ∀ q, v.ref? = some q → 1 < countAt μ.heap q := by
      intro q hq
      have := hcounts.counts q
      have hlive := hv q hq
      rw [tally_one, if_pos hq] at this
      omega
    obtain ⟨μ₂, hμ₂, hcounts₂⟩ := release_ok (m := { m with memory := μ }) htwice
    refine .of_eq hμ₂ ⟨(hcounts.sameBut r).trans (hcounts₂.sameBut r), t, ?_⟩
    exact h.recount (hcounts.trans hcounts₂) fun q => Int.add_right_neg _
  | some x =>
    obtain ⟨t', pool, old⟩ := x
    obtain ⟨ht', -, htally⟩ := VariableTable.of_set? hset h.inOrder
    obtain ⟨hentries, hold⟩ := VariableTable.entries_of_set? hset
    have hshared : ∀ w ∈ t'.values, ∀ q, w.ref? = some q → base q ≠ 0 := by
      intro w hw
      obtain ⟨e, he, rfl⟩ := List.mem_map.1 hw
      rw [hentries] at he
      rcases VariableTable.mem_insertEntry he with rfl | he
      · exact fun q => h.base_of_live hv
      · exact h.shared _ (List.mem_map_of_mem he)
    -- the replaced value is still counted
    have hcount : ∀ q, countAt (μ.withTable pool r hr c t').heap q =
        base q + tally q t'.values + tally q old.toList := by
      intro q
      have := hcounts.counts q
      have := h.counts q
      have := htally q
      rw [countAt_withTable]
      omega
    have hown : (μ.withTable pool r hr c t').heap[r]?.map (·.body) = some (.object c t') := by
      simp [withTable, hr]
    have hput : SameBut r μ (μ.withTable pool r hr c t') := sameBut_withTable hr
    have hothers := (hcounts.sameBut r).trans hput
    simp only [Leads.bind_eq]
    refine .of_eq (heap_putVariables hr hbody pool) ?_
    cases old with
    | none => exact ⟨hothers, t', hown, h.alive, ht', hcount, hshared⟩
    | some old =>
      have htwice : ∀ q, old.ref? = some q → 1 < countAt (μ.withTable pool r hr c t').heap q := by
        intro q hq
        have hbase := h.shared old (VariableTable.mem_values_of_get? hold.symm) q hq
        have := hcount q
        rw [Option.toList_some, tally_one, if_pos hq] at this
        omega
      obtain ⟨μ₂, hμ₂, hcounts₂⟩ :=
        release_ok (m := { m with memory := μ.withTable pool r hr c t' }) htwice
      refine .of_eq hμ₂ ⟨hothers.trans (hcounts₂.sameBut r), t', ?_, h.alive, ht', fun q => ?_, hshared⟩
      · exact (hcounts₂.body r).trans hown
      · have := hcounts₂.counts q
        have := hcount q
        rw [Option.toList_some] at this
        dsimp only at *
        omega

def setVariables (obj : Value) : List (Symbol × Value) → Action Unit
  | [] => pure ()
  | (s, v) :: rest => do
    setVariable obj s v
    setVariables obj rest

theorem setVariables_shares (h : Shares base r c t m.memory) (ws : List (Symbol × Value)) :
    Leads AnyFault (setVariables (.object r) ws) m fun _ m' =>
      SameBut r m.memory m'.memory ∧ ∃ t', Shares base r c t' m'.memory := by
  induction ws generalizing m t with
  | nil => exact ⟨.refl r _, t, h⟩
  | cons w ws ih =>
    obtain ⟨s, v⟩ := w
    rw [setVariables, Leads.bind_eq]
    refine (setVariable_shares h s v).mono fun _ m₁ ⟨hsame₁, t₁, h₁⟩ => ?_
    refine (ih h₁).mono fun _ m₂ ⟨hsame₂, h₂⟩ => ⟨hsame₁.trans hsame₂, h₂⟩

/-! ### Writes to any instance -/

section Storing

variable {l : Nat} {d : List Duty} {H : List Value}

/-- Storing leaves other objects as they are while they live. -/
theorem setVariable_spares (h : Ledger True l d H m) (r : Ref) (s : Symbol) (v : Value) :
    Leads AnyFault (setVariable (.object r) s v) m fun _ m' => Ledger True l d H m' ∧
      ∀ q, q ≠ r → ∀ b, m'.memory.body? q = some b → m.memory.body? q = some b := by
  refine .intro (fun _ m₁ h₁ => ?_) fun _ _ _ => trivial
  have hstored := (setVariable_stored r s v).of_ok h₁
  refine ⟨?_, hstored.others⟩
  rcases (setVariable_live r s v).of_ok h₁ with rfl | ⟨hr, hv⟩
  · exact h
  · exact ((setVariable_ledger h s (fun _ => hr) fun _ => hv).of_ok h₁).1

theorem setVariables_spares (h : Ledger True l d H m) (r : Ref) (ws : List (Symbol × Value)) :
    Leads AnyFault (setVariables (.object r) ws) m fun _ m' => Ledger True l d H m' ∧
      ∀ q, q ≠ r → ∀ b, m'.memory.body? q = some b → m.memory.body? q = some b := by
  induction ws generalizing m with
  | nil => exact ⟨h, fun _ _ _ hb => hb⟩
  | cons w ws ih =>
    obtain ⟨s, v⟩ := w
    rw [setVariables, Leads.bind_eq]
    refine (setVariable_spares h r s v).mono fun _ m₁ ⟨h₁, hs₁⟩ => ?_
    exact (ih h₁).mono fun _ m₂ ⟨h₂, hs₂⟩ => ⟨h₂, fun q hq b hb => hs₁ q hq b (hs₂ q hq b hb)⟩

end Storing

/-! ### Copying -/

theorem acquireAll_ok {vs : List Value} (hvs : ∀ v ∈ vs, m.memory.Live v) :
    ∃ μ, acquireAll vs m = .ok () { m with memory := μ } ∧
      Recounts (fun q => tally q vs) m.memory μ := by
  induction vs generalizing m with
  | nil => exact ⟨m.memory, rfl, Recounts.refl _⟩
  | cons v vs ih =>
    obtain ⟨μ₁, hμ₁, hcounts₁⟩ := acquire_ok (hvs v List.mem_cons_self)
    have hvs₁ : ∀ w ∈ vs, μ₁.Live w := by
      intro w hw q hq
      have := hvs w (List.mem_cons_of_mem _ hw) q hq
      have := hcounts₁.counts q
      omega
    obtain ⟨μ₂, hμ₂, hcounts₂⟩ := ih (m := { m with memory := μ₁ }) hvs₁
    refine ⟨μ₂, Leads.eq_ok ?_, (hcounts₁.trans hcounts₂).congr fun q => ?_⟩
    · rw [acquireAll, Leads.bind_eq]
      exact .of_eq hμ₁ (.of_eq hμ₂ ⟨rfl, rfl⟩)
    · rw [tally_cons]
      exact Int.natCast_add _ _

/-- A new instance with its entries, beside what there was. -/
structure Made (c : ClassId) (es : List (Symbol × Value)) (p : Pool) (m m' : Machine) : Prop where
  table : ∃ t, t.entries = es ∧
    Shares (fun q => countAt m.memory.heap q + if q = m.memory.heap.size then 1 else 0)
      m.memory.heap.size c t m'.memory
  pool : m'.memory.pool = p
  live : m'.memory.live = m.memory.live + 1
  size : m'.memory.heap.size = m.memory.heap.size + 1
  others : ∀ q, q < m.memory.heap.size →
    m'.memory.heap[q]?.map (·.body) = m.memory.heap[q]?.map (·.body)

theorem made_bare (c : ClassId) (p : Pool) (hm' : m'.memory =
    ⟨p, m.memory.heap.push ⟨1, instanceBytes, .object c {}⟩, m.memory.live + 1⟩) :
    Made c [] p m m' := by
  refine ⟨⟨{}, rfl, ?_, by simp, VariableTable.inOrder_empty, fun q => ?_, nofun⟩, ?_, ?_, ?_,
    fun q hq => ?_⟩
  · simp [hm']
  · rw [hm', countAt_push]
    split
    · next hq => simp [hq, countAt, VariableTable.values]
    · rfl
  · rw [hm']
  · rw [hm']
  · rw [hm']
    exact Array.size_push _
  · rw [hm', Array.getElem?_push_lt hq, ← Array.getElem?_eq_getElem hq]

/-- A new instance gets a table whose values are counted. -/
theorem Made.copied {μ : Memory} {p p' : Pool} {hr : m.memory.heap.size < m₁.memory.heap.size}
    (h : Made c [] p m m₁) (ht : t.InOrder) (hheld : ∀ v ∈ t.values, m.memory.Live v)
    (hμ : Recounts (fun q => tally q t.values)
      (m₁.memory.withTable p' m.memory.heap.size hr c t) μ) (hm' : m'.memory = μ) :
    Made c t.entries p' m m' := by
  subst hm'
  obtain ⟨t₀, hnil, hshares⟩ := h.table
  refine ⟨⟨t, rfl, ?_, hshares.alive, ht, fun q => ?_, fun v hv q hq => ?_⟩, hμ.pool,
    hμ.live.trans h.live, ?_, fun q hq => ?_⟩
  · rw [hμ.body]
    simp [withTable, hr]
  · have hzero : tally q t₀.values = 0 := by simp [VariableTable.values, hnil]
    have := hμ.counts q
    have := hshares.counts q
    rw [countAt_withTable] at *
    omega
  · have := hheld v hv q hq
    omega
  · rw [hμ.size]
    exact (Array.size_set hr).trans h.size
  · rw [hμ.body, (sameBut_withTable hr).2 q (Nat.ne_of_lt hq), h.others q hq]

/-- A copy with its variables, a copy without them, or no copy. -/
theorem dupInstance_outcome (hobj : m.memory.body? r = some (.object c t)) (ht : t.InOrder)
    (hheld : ∀ v ∈ t.values, m.memory.Live v) :
    Leads NoFault (dupInstance (.object r)) m fun copy m' =>
      match m.memory.pool.alloc? instanceBytes with
      | none => copy = .nil ∧ m' = m
      | some p => copy = .object m.memory.heap.size ∧
        match t.copy? p with
        | some (_, p') => Made c t.entries p' m m'
        | none => Made c [] p m m' := by
  simp only [dupInstance, Leads.bind_eq, Leads.get_eq, instance?_of_body? hobj]
  refine .of_eq (mustBeLive_ok (live_of_body? hobj rfl)) ?_
  simp only [newInstance, allocate?, Memory.allocate?, Leads.bind_eq, Leads.modifyGet_eq]
  cases hpool : m.memory.pool.alloc? instanceBytes with
  | none => exact ⟨rfl, rfl⟩
  | some p =>
    simp only [Option.map_some, Leads.bind_eq, Leads.pure_eq, Leads.get_eq]
    -- the machine with the new instance, before it gets a table
    have hbare : Made c [] p m { m with memory := {
        pool := p, heap := m.memory.heap.push ⟨1, instanceBytes, .object c {}⟩,
        live := m.memory.live + 1 } } := made_bare c p rfl
    cases hcopy : t.copy? p with
    | none => exact ⟨rfl, hbare⟩
    | some x =>
      obtain ⟨t', p'⟩ := x
      have hentries := VariableTable.entries_of_copy? hcopy
      have ht' := (VariableTable.of_copy? hcopy ht).1
      have hr : m.memory.heap.size < (m.memory.heap.push ⟨1, instanceBytes, .object c {}⟩).size := by
        simp
      have hheld' : ∀ v ∈ t'.values, m.memory.Live v := by
        rwa [VariableTable.values, hentries]
      simp only [Leads.bind_eq, Leads.pure_eq]
      refine .of_eq (heap_putVariables hr (c := c) (t := {}) (by simp) p') ?_
      obtain ⟨μ, hμ, hcounts⟩ := acquireAll_ok (m := { m with
        memory := withTable ⟨p, m.memory.heap.push ⟨1, instanceBytes, .object c {}⟩,
          m.memory.live + 1⟩ p' _ hr c t' }) fun v hv => ((hheld' v hv).push rfl).withTable
      refine .of_eq hμ ⟨trivial, ?_⟩
      rw [← hentries]
      exact hbare.copied ht' hheld' hcounts rfl

theorem classOf_of_body (h : m.memory.heap[r]?.map (·.body) = some (.object c t)) :
    m.classOf (.object r) = c := by
  obtain ⟨⟨n, size, body⟩, ho, hbody⟩ := Option.map_eq_some_iff.1 h
  cases hbody
  simp only [classOf, ho]

theorem variableOf_of_shares (h : Shares base r c t m.memory) (k : Symbol) :
    m.variableOf (.object r) k = some ((t.get? k).getD .nil) :=
  variableOf_eq h.body? fun v hv q hq =>
    h.live_of_base hq (h.shared v (VariableTable.mem_values_of_get? hv) q hq) q hq

theorem variableOf_of_ledger {l : Nat} {d : List Duty} {H : List Value} (h : Ledger True l d H m)
    (hi : m.memory.body? r = some (.object c t)) (k : Symbol) :
    m.variableOf (.object r) k = some ((t.get? k).getD .nil) := by
  obtain ⟨hr, h0, hbody⟩ := getElem_of_body? hi
  exact variableOf_eq hi fun v hv =>
    (h.exact trivial).counts.live_of_held (Array.getElem_mem hr) h0 (mem_held_of_get? hbody hv)

/-- A copy of an instance with some of its variables. One owner has it, each of its entries is one
reference, and whatever is stored in one of the two, the variables of the other stay. -/
structure Duplicate (es : List (Symbol × Value)) (obj copy : Value) (m m' : Machine) : Prop where
  new : copy = .object m.memory.heap.size
  cls : m'.classOf copy = m.classOf obj
  reads : ∀ k, m'.variableOf copy k = some ((es.lookup k).getD .nil)
  counts : ∀ q, countAt m'.memory.heap q = countAt m.memory.heap q + tally q (es.map (·.2)) +
    if q = m.memory.heap.size then 1 else 0
  live : m'.memory.live = m.memory.live + 1
  original_kept : ∀ ws m'', setVariables copy ws m' = .ok () m'' →
    ∀ k, m''.variableOf obj k = m.variableOf obj k
  copy_kept : ∀ ws m'', setVariables obj ws m' = .ok () m'' →
    ∀ k, m''.variableOf copy k = m'.variableOf copy k

theorem Made.duplicate {l : Nat} {d : List Duty} {H : List Value} {es : List (Symbol × Value)}
    {p : Pool} (hmade : Made c es p m m') (h : Ledger True l d H m)
    (h' : Ledger True l d (.object m.memory.heap.size :: H) m')
    (hobj : m.memory.body? r = some (.object c t)) :
    Duplicate es (.object r) (.object m.memory.heap.size) m m' := by
  obtain ⟨t', rfl, hshares⟩ := hmade.table
  obtain ⟨hr, h0, hbody⟩ := getElem_of_body? hobj
  have hne : r ≠ m.memory.heap.size := Nat.ne_of_lt hr
  refine ⟨rfl, ?_, variableOf_of_shares hshares, fun q => ?_, hmade.live, fun ws m'' hws k => ?_,
    fun ws m'' hws k => ?_⟩
  · rw [classOf_of_body hshares.own, classOf_of_body (t := t)]
    simp [hr, hbody]
  · rw [hshares.counts q, Nat.add_right_comm]
    rfl
  · obtain ⟨hothers, t'', hshares''⟩ := (setVariables_shares hshares ws).of_ok hws
    have hbase : ∀ v : Value, m.memory.Live v → m''.memory.Live v := fun v hv q hq =>
      hshares''.live_of_base hq (by have := hv q hq; omega) q hq
    have hobj'' : m''.memory.body? r = some (.object c t) := by
      have hlive := hbase (.object r) (live_of_body? hobj rfl) r rfl
      rw [Memory.body?, if_neg hlive, hothers.2 r hne, hmade.others r hr, Array.getElem?_eq_getElem hr,
        Option.map_some, hbody]
    rw [variableOf_of_ledger h hobj k]
    refine variableOf_eq hobj'' fun v hv => hbase v ?_
    exact (h.exact trivial).counts.live_of_held (Array.getElem_mem hr) h0 (mem_held_of_get? hbody hv)
  · obtain ⟨h'', hspares⟩ := (setVariables_spares h' r ws).of_ok hws
    obtain ⟨b, hb⟩ := body?_of_live (h''.live_of_hand List.mem_cons_self trivial) rfl
    have hkept := hspares _ hne.symm b hb
    rw [hshares.body?] at hkept
    cases hkept
    rw [variableOf_of_ledger h'' hb, variableOf_of_shares hshares]

end Machine

/-- What duplicating does to a live instance. When its 16 bytes are refused, nothing is changed and
there is no copy. When its table fits as well, there is a copy with all variables, each value with
one reference more for each of its entries. When only the table is refused, there is a copy, but
without variables. In both of these cases the two instances are independent. -/
theorem duplication_exact {l : Nat} {d : List Duty} {H : List Value} {m : Machine} {r : Ref}
    {c : ClassId} {t : VariableTable} (h : Ledger True l d H m)
    (hobj : m.memory.body? r = some (.object c t)) :
    (∀ k, m.variableOf (.object r) k = some ((t.entries.lookup k).getD .nil)) ∧
    (m.memory.pool.alloc? instanceBytes = none → dupInstance (.object r) m = .ok .nil m) ∧
    ∀ p, m.memory.pool.alloc? instanceBytes = some p →
      ∃ copy m', dupInstance (.object r) m = .ok copy m' ∧
        if t.entries ≠ [] ∧
          p.alloc? (VariableTable.bytes (VariableTable.copyCapacity t.entries.length)) = none
        then Duplicate [] (.object r) copy m m'
        else Duplicate t.entries (.object r) copy m m' := by
  obtain ⟨hr, h0, hbody⟩ := Memory.getElem_of_body? hobj
  have ht : t.InOrder := by
    have := (h.balanced.sound _ (Array.getElem_mem hr)).table
    rwa [hbody] at this
  have hheld : ∀ v ∈ t.values, m.memory.Live v := fun v hv =>
    (h.exact trivial).counts.live_of_held (Array.getElem_mem hr) h0 (by rwa [hbody])
  have houtcome := dupInstance_outcome hobj ht hheld
  refine ⟨variableOf_of_ledger h hobj, fun hnone => ?_, fun p hp => ?_⟩
  · rw [hnone] at houtcome
    exact Leads.eq_ok houtcome
  · rw [hp] at houtcome
    obtain ⟨_, m', hdup, rfl, hmade⟩ := houtcome.exists_ok
    have h' := ((dupInstance_ledger h fun _ => Memory.live_of_body? hobj rfl).of_ok hdup).1
    refine ⟨_, m', hdup, ?_⟩
    cases hcopy : t.copy? p with
    | none =>
      rw [hcopy] at hmade
      rw [if_pos (VariableTable.copy?_eq_none.1 hcopy)]
      exact hmade.duplicate h h' hobj
    | some x =>
      rw [hcopy] at hmade
      rw [if_neg fun hrefused => nomatch hcopy.symm.trans (VariableTable.copy?_eq_none.2 hrefused)]
      exact hmade.duplicate h h' hobj

def Machine.withVariable (c : Config) : Option Machine :=
  match create c with
  | .ok m =>
    match setVariable m.topSelf 0 (.int 7) m with
    | .ok () m' => some m'
    | .error _ _ => none
  | .error _ => none

theorem Machine.withVariable_ledger {config : Config} {m : Machine}
    (h : Machine.withVariable config = some m) : Ledger True 0 [] [] m := by
  unfold Machine.withVariable at h
  split at h
  · next m₀ h₀ =>
    have hledger : Ledger True 0 [] [] m₀ := (create_ledger h₀).1
    split at h
    · next m' hm' =>
      cases h
      refine ((setVariable_ledger hledger 0 (fun _ => ?_) fun _ =>
        Memory.live_of_immediate rfl).of_ok hm').1
      exact hledger.live_of_mem trivial (by simp [roots])
    · cases h
  · cases h

/-- The copy of the main object has its variable, and keeps it from what is stored in the copy. -/
theorem duplication_exact_main : ∃ m copy m' m'', Machine.withVariable {} = some m ∧
    dupInstance (.object 0) m = .ok copy m' ∧
    m'.variableOf copy 0 = some (.int 7) ∧
    setVariables copy [(0, .int 9), (1, .int 9)] m' = .ok () m'' ∧
    ∀ k, m''.variableOf (.object 0) k = m.variableOf (.object 0) k := by
  have hrun : (Machine.withVariable {}).any fun m =>
      (m.instance? (.object 0)).any (fun x => x.2.2.entries == [(0, .int 7)]) &&
      Memory.countAt m.memory.heap 0 != 0 &&
      (m.memory.pool.alloc? instanceBytes).any (fun p => (p.alloc? (VariableTable.bytes 4)).isSome) &&
      decide (Leads NoFault (dupInstance (.object 0)) m fun copy m' =>
        Leads NoFault (setVariables copy [(0, .int 9), (1, .int 9)]) m' fun _ _ => True) := by
    decide +kernel
  obtain ⟨m, hm, hrun⟩ := (Option.any_eq_true _ _).1 hrun
  simp only [Bool.and_eq_true, decide_eq_true_eq, bne_iff_ne] at hrun
  obtain ⟨⟨⟨hi, hlive⟩, hpool⟩, hsteps⟩ := hrun
  obtain ⟨⟨r, c, t⟩, hi, hentries⟩ := (Option.any_eq_true _ _).1 hi
  obtain ⟨p, hp, htable⟩ := (Option.any_eq_true _ _).1 hpool
  obtain ⟨hobj, hr, hbody⟩ := instance?_eq_some hi
  cases hobj
  have hobj : m.memory.body? 0 = some (.object c t) := by
    rw [Memory.body?, if_neg hlive, Array.getElem?_eq_getElem hr, Option.map_some, hbody]
  obtain ⟨-, -, hdup⟩ := duplication_exact (Machine.withVariable_ledger hm) hobj
  obtain ⟨copy, m', hm', hcopy⟩ := hdup p hp
  rw [beq_iff_eq.1 hentries] at hcopy
  have hfits : p.alloc? (VariableTable.bytes 4) ≠ none := Option.isSome_iff_ne_none.1 htable
  rw [if_neg fun hrefused => hfits hrefused.2] at hcopy
  obtain ⟨_, m'', hm'', -⟩ := (hsteps.of_ok hm').exists_ok
  exact ⟨m, copy, m', m'', hm, hm', hcopy.reads 0, hm'', hcopy.original_kept _ m'' hm''⟩

/-- With 16 bytes left there is a copy of the main object, and its variable is lost. -/
theorem variables_lost_main : ∃ m copy m', Machine.withVariable { poolSize := 1104 } = some m ∧
    dupInstance (.object 0) m = .ok copy m' ∧ copy ≠ .nil ∧
    m.variableOf (.object 0) 0 = some (.int 7) ∧ m'.variableOf copy 0 = some .nil := by
  have hrun : (Machine.withVariable { poolSize := 1104 }).any fun m =>
      m.variableOf (.object 0) 0 == some (.int 7) &&
      decide (Leads NoFault (dupInstance (.object 0)) m fun copy m' =>
        copy ≠ .nil ∧ m'.variableOf copy 0 = some .nil) := by
    decide +kernel
  obtain ⟨m, hm, hrun⟩ := (Option.any_eq_true _ _).1 hrun
  simp only [Bool.and_eq_true, beq_iff_eq, decide_eq_true_eq] at hrun
  obtain ⟨hvariable, hdup⟩ := hrun
  obtain ⟨copy, m', hm', hcopy, hlost⟩ := hdup.exists_ok
  exact ⟨m, copy, m', hm, hm', hcopy, hvariable, hlost⟩

end ObjectMachine
