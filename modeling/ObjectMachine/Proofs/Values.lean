import ObjectMachine.Proofs.Ledger

/-! Registers, constants, instances and closures keep the books. Each action says what it
takes into hand and what it puts down; frames, classes and the exception stay as they are. -/

namespace ObjectMachine.Machine

variable {s : Prop} {l : Nat} {d : List Duty} {H : List Value} {m : Machine} {v : Value}

/-! ### Reading -/

theorem present_leads {α : Type} {o : Option α} {Q : α → Machine → Prop}
    (h : ∀ a, o = some a → Q a m) : Leads (Excused s) (present o) m Q := by
  cases o with
  | none => exact excused_outOfBounds s m
  | some a => exact h a rfl

theorem reg_leads {i : Int64} {Q : Value → Machine → Prop}
    (h : ∀ v, entryAt? m.regs i = some v → Q v m) : Leads (Excused s) (reg i) m Q := by
  simp only [reg, Leads.bind_eq, Leads.get_eq]
  exact present_leads h

theorem currentCode_leads {Q : Code → Machine → Prop}
    (h : ∀ c, m.context.code = some c → Q c m) : Leads (Excused s) currentCode m Q := by
  simp only [currentCode, Leads.bind_eq, Leads.get_eq]
  exact present_leads h

theorem currentSize_leads {Q : Int64 → Machine → Prop} (h : ∀ n, Q n m) :
    Leads (Excused s) currentSize m Q := by
  simp only [currentSize, Leads.bind_eq]
  exact currentCode_leads fun c _ => h _

/-- Stops at a freed object only. -/
theorem mustBeLive_leads {Q : Unit → Machine → Prop} (hv : s → m.memory.Live v)
    (h : m.memory.isFreed v = false → Q () m) : Leads (Excused s) (mustBeLive v) m Q := by
  simp only [mustBeLive, Leads.bind_eq, Leads.get_eq]
  cases hf : m.memory.isFreed v with
  | false => exact h hf
  | true =>
    refine ⟨nofun, fun hs => ?_, nofun⟩
    simp only [Memory.isFreed, Memory.refCount, beq_iff_eq] at hf
    split at hf
    · next o ho =>
      obtain ⟨r, hr, hget⟩ := Option.bind_eq_some_iff.1 ho
      refine absurd ?_ (hv hs r hr)
      simp only [Memory.countAt, hget, Option.map_some, Option.getD_some]
      omega
    · omega

/-! ### Registers -/

theorem entryAt?_eq_some {α : Type} {xs : Array α} {i : Int64} {a : α}
    (h : entryAt? xs i = some a) : ∃ hi : i.toInt.toNat < xs.size, xs[i.toInt.toNat] = a := by
  unfold entryAt? at h
  split at h
  · cases h
  · exact Array.getElem?_eq_some_iff.1 h

theorem exchangeReg_ledger (h : Ledger s l d (v :: H) m) (i : Int64) :
    Leads (Excused s) (exchangeReg i v) m fun old m' =>
      Ledger s l d (old :: H) m' ∧ m'.skeleton = m.skeleton ∧
      m'.regs = m.regs.setIfInBounds i.toInt.toNat v := by
  simp only [exchangeReg, Leads.bind_eq]
  refine reg_leads fun old hold => ?_
  simp only [Leads.modify_eq, Leads.pure_eq]
  refine ⟨h.keep rfl h.balanced fun hs => ?_, rfl, trivial⟩
  obtain ⟨hi, hget⟩ := entryAt?_eq_some hold
  refine (h.exact hs).counts.of_tally fun r => ?_
  have hset := tally_set r m.regs.toList i.toInt.toNat (by simpa using hi) v
  rw [Array.getElem_toList, hget] at hset
  rw [List.cons_append, List.cons_append, tally_cons r old, tally_cons r v]
  simp only [roots, duties, tally_append, Array.toList_setIfInBounds]
  omega

/-- A register takes a value over from the hand. -/
theorem setReg_ledger (h : Ledger s l d (v :: H) m) (i : Int64) :
    Leads (Excused s) (setReg i v) m fun _ m' =>
      Ledger s l d H m' ∧ m'.skeleton = m.skeleton ∧
      m'.regs = m.regs.setIfInBounds i.toInt.toNat v := by
  simp only [setReg, Leads.bind_eq]
  refine (exchangeReg_ledger h i).mono fun old m₁ ⟨h₁, hk₁, hr₁⟩ => ?_
  refine (release_ledger h₁).mono fun _ m₂ ⟨h₂, hk₂, hr₂⟩ => ?_
  exact ⟨h₂, hk₂.trans hk₁, hr₂.trans hr₁⟩

/-- A register gets an immediate value. -/
theorem setReg_immediate (h : Ledger s l d H m) (i : Int64) (hv : v.ref? = none) :
    Leads (Excused s) (setReg i v) m fun _ m' =>
      Ledger s l d H m' ∧ m'.skeleton = m.skeleton ∧
      m'.regs = m.regs.setIfInBounds i.toInt.toNat v :=
  setReg_ledger (h.hold hv) i

theorem clearRegs_ledger (h : Ledger s l d H m) (start : Int64) (count : Nat) :
    Leads (Excused s) (clearRegs start count) m fun _ m' =>
      Ledger s l d H m' ∧ m'.skeleton = m.skeleton := by
  induction count generalizing start m with
  | zero => exact ⟨h, rfl⟩
  | succ count ih =>
    simp only [clearRegs, clearReg, Leads.bind_eq]
    refine (setReg_immediate (v := .empty) h start rfl).mono fun _ m₁ ⟨h₁, hk₁, _⟩ => ?_
    exact (ih h₁ (start + 1)).mono fun _ m₂ ⟨h₂, hk₂⟩ => ⟨h₂, hk₂.trans hk₁⟩

theorem scrub_ledger (h : Ledger s l d H m) (start : Int64) (count : Nat) :
    Leads (Excused s) (scrub start count) m fun _ m' =>
      Ledger s l d H m' ∧ m'.skeleton = m.skeleton := by
  induction count generalizing start m with
  | zero => exact ⟨h, rfl⟩
  | succ count ih =>
    simp only [scrub, Leads.bind_eq]
    refine reg_leads fun v _ => ?_
    split
    · simp only [clearReg, Leads.bind_eq]
      refine (setReg_immediate (v := .empty) h start rfl).mono fun _ m₁ ⟨h₁, hk₁, _⟩ => ?_
      exact (ih h₁ (start + 1)).mono fun _ m₂ ⟨h₂, hk₂⟩ => ⟨h₂, hk₂.trans hk₁⟩
    · exact ih h (start + 1)

theorem scrubAbove_ledger (h : Ledger s l d H m) (top : Int64) :
    Leads (Excused s) (scrubAbove top) m fun _ m' =>
      Ledger s l d H m' ∧ m'.skeleton = m.skeleton := by
  simp only [scrubAbove, Leads.bind_eq, Leads.get_eq]
  refine (scrub_ledger h top _).mono fun _ m₁ ⟨h₁, hk₁⟩ => ?_
  split
  · exact ⟨h₁.keep rfl h₁.balanced fun hs => (h₁.exact hs).counts, hk₁⟩
  · exact ⟨h₁, hk₁⟩

theorem enterWindow_ledger (h : Ledger s l d H m) (base size : Int64) :
    Leads (Excused s) (enterWindow base size) m fun _ m' =>
      Ledger s l d H m' ∧ Quiet m m' ∧ m'.memory = m.memory := by
  simp only [enterWindow, Leads.bind_eq, Leads.get_eq]
  split
  · exact ⟨nofun, fun _ h => h, nofun⟩
  · split
    · exact ⟨h.keep rfl h.balanced fun hs => (h.exact hs).counts, ⟨rfl, rfl⟩, rfl⟩
    · exact ⟨h, .refl m, rfl⟩

/-! ### Constants -/

theorem tally_rebind (r : Ref) (k : Symbol) (v : Value) (cs : List (Symbol × Value)) :
    tally r ((rebind k v cs).map (·.2)) + tally r (cs.lookup k).toList =
      tally r (cs.map (·.2)) + tally r [v] := by
  fun_induction rebind k v cs with
  | case1 => simp
  | case2 w rest =>
    have hv := tally_cons r v (rest.map (·.2))
    have hw := tally_cons r w (rest.map (·.2))
    simp only [List.lookup_cons, beq_self_eq_true, List.map_cons, Option.toList_some]
    omega
  | case3 k' w rest hne ih =>
    have hb : (k == k') = false := by simpa using Ne.symm hne
    have hv := tally_cons r w ((rebind k v rest).map (·.2))
    have hw := tally_cons r w (rest.map (·.2))
    simp only [List.lookup_cons, hb, List.map_cons]
    omega

theorem mem_of_constant? {k : Symbol} (h : m.constant? k = some v) :
    v ∈ m.constants.map (·.2) := by
  unfold constant? at h
  obtain ⟨a, b, heq, -⟩ := List.lookup_eq_some_iff.1 h
  simp [heq]

theorem Ledger.live_of_constant (h : Ledger s l d H m) {k : Symbol} (hv : m.constant? k = some v)
    (hs : s) : m.memory.Live v := by
  refine h.live_of_mem hs ?_
  have := mem_of_constant? hv
  simp only [roots, List.mem_append]
  exact .inr (.inl (.inl (.inr this)))

theorem setConstant_ledger (h : Ledger s l d H m) (k : Symbol) (hv : s → m.memory.Live v) :
    Leads (Excused s) (setConstant k v) m fun _ m' => Ledger s l d H m' ∧ Quiet m m' := by
  simp only [setConstant, Leads.bind_eq]
  refine (acquire_ledger h hv).mono fun _ m₁ ⟨h₁, hq₁, _⟩ => ?_
  simp only [Leads.get_eq]
  -- the old value is released while the table still shows it
  have hswap : ∀ r, tally r (H ++ { m₁ with constants := rebind k v m₁.constants }.roots d)
      + tally r (m₁.constant? k).toList = tally r (v :: H ++ m₁.roots d) := by
    intro r
    have := tally_rebind r k v m₁.constants
    rw [List.cons_append, tally_cons r v]
    simp only [roots, duties, constant?, tally_append] at this ⊢
    omega
  cases hold : m₁.constant? k with
  | some old =>
    have he : s → Memory.Exact
        (old :: (H ++ { m₁ with constants := rebind k v m₁.constants }.roots d)) [] m₁.memory := by
      refine fun hs => (h₁.exact hs).counts.of_tally fun r => ?_
      rw [← hswap r, hold, tally_cons r old, Nat.add_comm]
      rfl
    simp only [Leads.bind_eq]
    refine (release_memory h₁.balanced he).mono ?_
    rintro _ m₂ ⟨hm, hb₂, he₂⟩
    rw [hm] at hb₂ he₂ ⊢
    exact ⟨h₁.keep rfl hb₂ he₂, hq₁.trans ⟨rfl, rfl⟩⟩
  | none =>
    refine ⟨h₁.keep rfl h₁.balanced fun hs => (h₁.exact hs).counts.of_tally fun r => ?_,
      hq₁.trans ⟨rfl, rfl⟩⟩
    rw [← hswap r, hold]
    rfl

theorem getConstant_ledger (h : Ledger s l d H m) (k : Symbol) :
    Leads (Excused s) (getConstant k) m fun v m' => Ledger s l d (v :: H) m' ∧ Quiet m m' := by
  simp only [getConstant, Leads.bind_eq, Leads.get_eq]
  split
  · next v hv =>
    simp only [Leads.bind_eq, Leads.pure_eq]
    exact (acquire_ledger h (h.live_of_constant hv)).mono fun _ m₁ ⟨h₁, hq₁, _⟩ => ⟨h₁, hq₁⟩
  · exact ⟨h.hold rfl, .refl m⟩

theorem intern_ledger (h : Ledger s l d H m) (name : Text) :
    Leads (Excused s) (intern name) m fun _ m' =>
      Ledger s l d H m' ∧ Quiet m m' ∧ m'.memory = m.memory := by
  simp only [intern, Leads.modifyGet_eq]
  exact ⟨h.keep rfl h.balanced fun hs => (h.exact hs).counts, ⟨rfl, rfl⟩, trivial⟩

theorem write_ledger (h : Ledger s l d H m) (t : Text) :
    Leads (Excused s) (write t) m fun _ m' =>
      Ledger s l d H m' ∧ Quiet m m' ∧ m'.memory = m.memory := by
  simp only [write, Leads.modify_eq]
  exact ⟨h.keep rfl h.balanced fun hs => (h.exact hs).counts, ⟨rfl, rfl⟩, trivial⟩

/-! ### Objects -/

/-- A new object without variables. -/
theorem allocate?_ledger (h : Ledger s l d H m) (size : Int64) (body : Body)
    (hc : body.capacity = 0) (hb : body.InOrder) (hh : body.held = []) :
    Leads (Excused s) (allocate? size body) m fun r m' =>
      Quiet m m' ∧
      match r with
      | some r => r = m.memory.heap.size ∧
          m'.memory.heap = m.memory.heap.push { refCount := 1, size, body } ∧
          ∀ v, v.ref? = some r → Ledger s l d (v :: H) m'
      | none => m' = m := by
  simp only [allocate?, Leads.modifyGet_eq]
  cases ha : m.memory.allocate? size body with
  | none => exact ⟨.refl m, rfl⟩
  | some p =>
    obtain ⟨memory, r⟩ := p
    have heq := ha
    obtain ⟨pool, -, hmem⟩ := Option.map_eq_some_iff.1 heq
    cases hmem
    refine ⟨⟨rfl, rfl⟩, rfl, rfl, fun v hv => ?_⟩
    exact h.keep rfl (Memory.allocate?_balanced h.balanced ha hc hb)
      fun hs => Memory.allocate?_exact (h.exact hs).counts ha hh hv

theorem newString_ledger (h : Ledger s l d H m) (t : Text) :
    Leads (Excused s) (newString t) m fun v m' => Ledger s l d (v :: H) m' ∧ Quiet m m' := by
  simp only [newString, Leads.bind_eq]
  refine (allocate?_ledger h _ (.string t) rfl trivial rfl).mono fun r m₁ ⟨hq₁, hr⟩ => ?_
  cases r with
  | some r => exact ⟨hr.2.2 _ rfl, hq₁⟩
  | none =>
    cases hr
    exact ⟨h.hold rfl, hq₁⟩

theorem newInstance_ledger (h : Ledger s l d H m) (c : ClassId) :
    Leads (Excused s) (newInstance c) m fun v m' =>
      Ledger s l d (v :: H) m' ∧ Quiet m m' ∧
      (v = .nil ∧ m' = m ∨ v = .object m.memory.heap.size ∧
        m'.memory.heap = m.memory.heap.push ⟨1, instanceBytes, .object c {}⟩) := by
  simp only [newInstance, Leads.bind_eq]
  refine (allocate?_ledger h _ (.object c {}) rfl VariableTable.inOrder_empty rfl).mono fun r m₁ ⟨hq₁, hr⟩ => ?_
  cases r with
  | some r => exact ⟨hr.2.2 _ rfl, hq₁, .inr ⟨congrArg _ hr.1, hr.2.1⟩⟩
  | none =>
    cases hr
    exact ⟨h.hold rfl, hq₁, .inl ⟨rfl, rfl⟩⟩

theorem newProc_ledger (h : Ledger s l d H m) (code : Code) :
    Leads (Excused s) (newProc code) m fun v m' => Ledger s l d (v :: H) m' ∧ Quiet m m' := by
  simp only [newProc, Leads.bind_eq, Leads.get_eq]
  refine reg_leads fun v _ => ?_
  refine (allocate?_ledger h _ (.proc code _ _) rfl trivial rfl).mono fun r m₁ ⟨hq₁, hr⟩ => ?_
  cases r with
  | some r => exact ⟨hr.2.2 _ rfl, hq₁⟩
  | none =>
    cases hr
    exact ⟨h.hold rfl, hq₁⟩

/-- A reference that was found on the heap. -/
theorem instance?_eq_some {r : Ref} {c : ClassId} {t : VariableTable}
    (h : m.instance? v = some (r, c, t)) :
    v = .object r ∧ ∃ hr : r < m.memory.heap.size, m.memory.heap[r].body = .object c t := by
  unfold instance? at h
  split at h
  · next r' =>
    split at h
    · next n size c' t' ho =>
      cases h
      obtain ⟨hr, hget⟩ := Array.getElem?_eq_some_iff.1 ho
      exact ⟨rfl, hr, by rw [hget]⟩
    · cases h
  · cases h

theorem refCount_ne_zero {r : Ref} (hr : r < m.memory.heap.size)
    (h : m.memory.isFreed (.object r) = false) : m.memory.heap[r].refCount ≠ 0 := by
  intro h0
  have : m.memory.isFreed (.object r) = true := by
    simp [Memory.isFreed, Memory.refCount, Memory.object?, Value.ref?, hr, h0]
  rw [h] at this
  cases this

theorem live_object {r : Ref} (hr : r < m.memory.heap.size) :
    m.memory.Live (.object r) ↔ m.memory.heap[r].refCount ≠ 0 := by
  constructor
  · intro h
    rw [← Memory.countAt_of_getElem hr]
    exact h r rfl
  · rintro h0 q hq
    cases hq
    rwa [Memory.countAt_of_getElem hr]

/-- Replacing the table of an instance. -/
theorem heap_putVariables {r : Ref} (hr : r < m.memory.heap.size) {c : ClassId}
    {t t' : VariableTable} (hbody : m.memory.heap[r].body = .object c t) (pool : Pool) :
    putVariables r t' pool m =
      .ok () { m with memory := m.memory.withTable pool r hr c t' } := by
  refine congrArg (fun heap => EStateM.Result.ok ()
    { m with memory := { m.memory with heap := heap, pool := pool } }) ?_
  apply Array.ext
  · simp
  · intro i _ hi
    simp only [Array.getElem_modify, Array.getElem_set]
    split
    · next h =>
      subst h
      simp only [hbody]
    · rfl

theorem instance?_of_spares {m' : Machine} (h : m.memory.Spares m'.memory) :
    m'.instance? v = m.instance? v := by
  have hbody : ∀ r : Ref, (m'.memory.heap[r]?).map HeapObject.body =
      (m.memory.heap[r]?).map HeapObject.body := by
    intro r
    rw [← Array.getElem?_map, ← Array.getElem?_map, h.1]
  cases v with
  | object r =>
    have := hbody r
    unfold instance?
    rcases h₁ : m.memory.heap[r]? with - | ⟨n, size, body⟩ <;>
      rcases h₂ : m'.memory.heap[r]? with - | ⟨n', size', body'⟩ <;> simp only [h₁, h₂] at this ⊢
    · cases this
    · cases this
    · cases this
      cases body <;> rfl
  | _ => rfl

/-- A table takes a value over from the hand, and hands the replaced one back. -/
theorem store_ledger {r : Ref} {c : ClassId} {t t' : VariableTable} {pool : Pool}
    {old : Option Value} {k : Symbol} (h : Ledger s l d (v :: H) m) (hr : r < m.memory.heap.size)
    (h0 : m.memory.heap[r].refCount ≠ 0) (hbody : m.memory.heap[r].body = .object c t)
    (hset : t.set? m.memory.pool k v = some (t', pool, old)) :
    Ledger s l d (old.toList ++ H) { m with memory := m.memory.withTable pool r hr c t' } := by
  have htable : t.InOrder := by
    have := (h.balanced.sound _ (Array.getElem_mem hr)).table
    rwa [hbody] at this
  obtain ⟨ht', hpool, htally⟩ := VariableTable.of_set? hset htable
  have hb : (m.memory.withTable pool r hr c t').Balanced (m.outlay d l) [] := by
    rcases hpool with ⟨hp, hc⟩ | ⟨hp, hc⟩
    · exact h.balanced.put h0 hbody ht' (k := 0) hc (.inl ⟨hp, rfl⟩) fun _ => by decide
    · exact h.balanced.put h0 hbody ht' hc (.inr hp) fun _ => by decide
  refine h.keep rfl hb fun hs => Memory.owing_nil.1 ?_
  refine Memory.put_owing (h.exact hs).counts h0 hbody fun q => ?_
  have := htally q
  rw [List.cons_append, tally_cons q v]
  simp only [roots, duties, tally_append, tally_nil]
  omega

theorem setVariable_ledger {obj : Value} (h : Ledger s l d H m) (k : Symbol)
    (hobj : s → m.memory.Live obj) (hv : s → m.memory.Live v) :
    Leads (Excused s) (setVariable obj k v) m fun _ m' => Ledger s l d H m' ∧ Quiet m m' := by
  simp only [setVariable, Leads.bind_eq, Leads.get_eq]
  cases hi : m.instance? obj with
  | none => exact ⟨h, .refl m⟩
  | some p =>
    obtain ⟨r, c, t⟩ := p
    obtain ⟨rfl, hr₀, -⟩ := instance?_eq_some hi
    simp only [Option.isNone_some, Bool.false_eq_true, if_false, Leads.bind_eq, Leads.get_eq]
    refine mustBeLive_leads hobj fun hfreed => ?_
    refine (acquire_ledger h hv).mono ?_
    rintro _ m₁ ⟨h₁, hq₁, hspares⟩
    have hlive := hspares.2 _ ((live_object hr₀).2 (refCount_ne_zero hr₀ hfreed))
    have hi₁ := instance?_of_spares hspares ▸ hi
    obtain ⟨-, hr, hbody⟩ := instance?_eq_some hi₁
    rw [hi₁]
    dsimp only
    cases hset : t.set? m₁.memory.pool k v with
    | none =>
      refine (release_ledger h₁).mono ?_
      rintro _ m₂ ⟨h₂, hq₂⟩
      exact ⟨h₂, hq₁.trans hq₂⟩
    | some p =>
      obtain ⟨t', pool, old⟩ := p
      have h₂ := store_ledger h₁ hr ((live_object hr).1 hlive) hbody hset
      simp only [Leads.bind_eq]
      refine Leads.of_eq (heap_putVariables hr hbody pool) ?_
      cases old with
      | none => exact ⟨h₂, hq₁.trans ⟨rfl, rfl⟩⟩
      | some old =>
        refine (release_ledger h₂).mono ?_
        rintro _ m₃ ⟨h₃, hq₃⟩
        exact ⟨h₃, hq₁.trans hq₃⟩

theorem mem_held_of_get? {o : HeapObject} {c : ClassId} {t : VariableTable} {k : Symbol}
    (hbody : o.body = .object c t) (hget : t.get? k = some v) : v ∈ o.body.held := by
  obtain ⟨a, b, heq, -⟩ := List.lookup_eq_some_iff.1 hget
  simp [hbody, Body.held, VariableTable.values, heq]

theorem getVariable_ledger {obj : Value} (h : Ledger s l d H m) (k : Symbol)
    (hobj : s → m.memory.Live obj) :
    Leads (Excused s) (getVariable obj k) m fun v m' => Ledger s l d (v :: H) m' ∧ Quiet m m' := by
  simp only [getVariable, Leads.bind_eq, Leads.get_eq]
  cases hi : m.instance? obj with
  | none => exact ⟨h.hold rfl, .refl m⟩
  | some p =>
    obtain ⟨r, c, t⟩ := p
    obtain ⟨rfl, hr, hbody⟩ := instance?_eq_some hi
    simp only [Leads.bind_eq]
    refine mustBeLive_leads hobj fun hfreed => ?_
    cases hget : t.get? k with
    | none => exact ⟨h.hold rfl, .refl m⟩
    | some v =>
      simp only [Leads.bind_eq, Leads.pure_eq]
      refine (acquire_ledger h fun hs => ?_).mono fun _ m₁ ⟨h₁, hq₁, _⟩ => ⟨h₁, hq₁⟩
      exact (h.exact hs).counts.live_of_held (Array.getElem_mem hr) (refCount_ne_zero hr hfreed)
        (mem_held_of_get? hbody hget)

/-- References that were handed out are counted one by one. -/
theorem acquireAll_memory {o : Int} {roots debts : List Value} (hb : m.memory.Balanced o [])
    (hlive : s → ∀ v ∈ debts, m.memory.Live v) (he : s → Memory.Owing debts roots m.memory) :
    Leads (Excused s) (acquireAll debts) m fun _ m' =>
      m' = { m with memory := m'.memory } ∧ m'.memory.Balanced o [] ∧
      (s → Memory.Exact roots [] m'.memory) := by
  induction debts generalizing m with
  | nil => exact ⟨rfl, hb, fun hs => Memory.owing_nil.1 (he hs)⟩
  | cons v rest ih =>
    simp only [acquireAll, Leads.bind_eq]
    refine (acquire_memory hb (fun hs => hlive hs v List.mem_cons_self) he).mono ?_
    rintro _ m₁ ⟨hm₁, hb₁, he₁, hspares⟩
    refine (ih hb₁ (fun hs w hw => hspares.2 w (hlive hs w (List.mem_cons_of_mem _ hw)))
      he₁).mono ?_
    rintro _ m₂ ⟨hm₂, hb₂, he₂⟩
    exact ⟨by rw [hm₂, hm₁], hb₂, he₂⟩

theorem dupInstance_ledger {obj : Value} (h : Ledger s l d H m) (hobj : s → m.memory.Live obj) :
    Leads (Excused s) (dupInstance obj) m fun v m' => Ledger s l d (v :: H) m' ∧ Quiet m m' := by
  simp only [dupInstance, Leads.bind_eq, Leads.get_eq]
  cases hi : m.instance? obj with
  | none => exact ⟨h.hold rfl, .refl m⟩
  | some p =>
    obtain ⟨r, c, t⟩ := p
    obtain ⟨rfl, hr, hbody⟩ := instance?_eq_some hi
    simp only [Leads.bind_eq]
    refine mustBeLive_leads hobj fun hfreed => ?_
    have h0 := refCount_ne_zero hr hfreed
    have htable : t.InOrder := by
      have := (h.balanced.sound _ (Array.getElem_mem hr)).table
      rwa [hbody] at this
    have hheld : s → ∀ v ∈ t.values, m.memory.Live v := by
      intro hs v hv
      refine (h.exact hs).counts.live_of_held (Array.getElem_mem hr) h0 ?_
      rwa [hbody]
    refine (newInstance_ledger h c).mono ?_
    rintro _ m₁ ⟨h₁, hq₁, ⟨rfl, rfl⟩ | ⟨rfl, hheap⟩⟩
    · exact ⟨h₁, hq₁⟩
    · simp only [Leads.bind_eq, Leads.get_eq]
      cases hcopy : t.copy? m₁.memory.pool with
      | none => exact ⟨h₁, hq₁⟩
      | some p =>
        obtain ⟨t', pool⟩ := p
        obtain ⟨ht', hvalues, hcapacity, hpool⟩ := VariableTable.of_copy? hcopy htable
        have hr₁ : m.memory.heap.size < m₁.memory.heap.size := by simp [hheap]
        have hnew : m₁.memory.heap[m.memory.heap.size] = ⟨1, instanceBytes, .object c {}⟩ := by
          simp [hheap]
        have hb : (m₁.memory.withTable pool _ hr₁ c t').Balanced (m₁.outlay d l) [] := by
          refine h₁.balanced.put (t := {}) (k := t'.capacity) (by simp [hnew]) (by simp [hnew]) ht'
            (by simp) hpool fun ha => ?_
          have hmem : m.memory.heap[r] ∈ m₁.memory.heap :=
            hheap ▸ Array.mem_push_of_mem _ (Array.getElem_mem hr)
          have := h₁.balanced.capacity_le ha hmem h0
          rw [hbody] at this
          simp only [Body.capacity] at this
          omega
        have he : s → Memory.Owing t'.values (.object m.memory.heap.size :: H ++ m₁.roots d)
            (m₁.memory.withTable pool _ hr₁ c t') := by
          refine fun hs => Memory.put_owing (h₁.exact hs).counts (by simp [hnew]) (t := {})
            (by simp [hnew]) fun q => ?_
          simp only [VariableTable.values, List.map_nil, tally_nil]
          omega
        simp only [Leads.bind_eq]
        refine Leads.of_eq (heap_putVariables hr₁ (c := c) (t := {}) (by simp [hnew]) pool) ?_
        refine (acquireAll_memory (m := { m₁ with memory := m₁.memory.withTable pool _ hr₁ c t' })
          hb (fun hs w hw => ?_) he).mono ?_
        · exact ((hheld hs w (hvalues ▸ hw)).push hheap).withTable
        · rintro _ m₂ ⟨hm₂, hb₂, he₂⟩
          rw [hm₂] at hb₂ he₂ ⊢
          exact ⟨h₁.keep rfl hb₂ he₂, hq₁.trans ⟨rfl, rfl⟩⟩

/-! ### Scopes -/

theorem followSelf_leads (hops : Nat) {Q : Value → Machine → Prop} (hv : v ∈ m.regs)
    (h : ∀ w ∈ m.regs, Q w m) : Leads (Excused s) (followSelf hops v) m Q := by
  induction hops generalizing v with
  | zero =>
    rw [followSelf]
    simp only [Leads.bind_eq, Leads.get_eq]
    split
    · exact h v hv
    · exact reg_leads fun w hw => h w (mem_of_entryAt? hw)
  | succ hops ih =>
    rw [followSelf]
    simp only [Leads.bind_eq, Leads.get_eq]
    split
    · exact h v hv
    · simp only [Leads.bind_eq, Leads.get_eq]
      exact reg_leads fun w hw => ih (mem_of_entryAt? hw)

/-- The receiver is in a register. -/
theorem self_leads {Q : Value → Machine → Prop} (h : ∀ v ∈ m.regs, Q v m) :
    Leads (Excused s) self m Q := by
  simp only [self, Leads.bind_eq, Leads.get_eq]
  exact reg_leads fun v hv => followSelf_leads _ (mem_of_entryAt? hv) h

theorem scopeOf_leads (level : Nat) {Q : Option Int64 → Machine → Prop} (h : ∀ b, Q b m) :
    Leads (Excused s) (scopeOf level v) m Q := by
  induction level generalizing v with
  | zero =>
    rw [scopeOf]
    simp only [Leads.bind_eq, Leads.get_eq]
    split
    · exact h _
    · split <;> exact h _
  | succ level ih =>
    rw [scopeOf]
    simp only [Leads.bind_eq, Leads.get_eq]
    split
    · exact h _
    · split
      · exact h _
      · simp only [Leads.bind_eq]
        exact reg_leads fun w _ => ih

theorem outerBase_leads (level : Int64) {Q : Option Int64 → Machine → Prop}
    (h : ∀ b, outerBase level m = .ok b m → Q b m) :
    Leads (Excused s) (outerBase level) m Q := by
  refine .unmoved ?_ h
  simp only [outerBase, Leads.bind_eq, Leads.get_eq]
  exact reg_leads fun v _ => scopeOf_leads _ fun _ => rfl

theorem blockGiven_leads {Q : Bool → Machine → Prop} (h : ∀ b, Q b m) :
    Leads (Excused s) blockGiven m Q := by
  simp only [blockGiven, Leads.bind_eq, Leads.get_eq]
  split
  · exact h _
  · split
    · exact h _
    · simp only [Leads.bind_eq]
      refine reg_leads fun v _ => ?_
      split
      · simp only [Leads.bind_eq]
        exact reg_leads fun w _ => h _
      · exact h _
      · split
        · exact h _
        · simp only [Leads.bind_eq]
          exact reg_leads fun w _ => h _

end ObjectMachine.Machine
