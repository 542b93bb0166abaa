import ObjectMachine.Proofs.Overdrafts

/-! Instance variables under their four accesses. The native of getters takes the name it was called
by for the name of the variable, the native of setters that name without one equals sign at its
end, and the instructions take their operand without one at sign in front. Names are interned, so
all four come to the same key for the same name, whatever characters the name has. What one access
stores another one loads, until an instruction stores the variable again. -/

namespace ObjectMachine

open Machine

namespace VariableTable

variable {t : VariableTable} {k : Symbol} {pool : Pool} {v : Value}

/-- The variable is there, or there is a slot for it, or bytes for more slots. -/
def HasRoom (t : VariableTable) (pool : Pool) (k : Symbol) : Prop :=
  t.get? k ≠ none ∨ t.entries.length ≠ t.capacity ∨ pool.alloc? (bytes growth) ≠ none

theorem set?_isSome_iff : (t.set? pool k v).isSome ↔ t.HasRoom pool k := by
  rw [Option.isSome_iff_ne_none, Ne, set?_eq_none, HasRoom]
  tauto

/-- A value is stored just where there is room for it. -/
theorem get?_after_self : (t.after pool k v).get? k = some v ↔ t.HasRoom pool k := by
  rw [get?_after, ← set?_isSome_iff (v := v)]
  by_cases h : (t.set? pool k v).isSome = true
  · simp [h]
  · have hnone : t.get? k = none := by
      rw [set?_isSome_iff] at h
      exact not_not.1 (not_or.1 h).1
    simp [h, hnone]

end VariableTable

namespace Text

theorem dropLead_append (lead t : Text) : dropLead lead (lead ++ t) = t := by
  rw [dropLead, if_pos (List.isPrefixOf_iff_prefix.2 (List.prefix_append lead t)), List.drop_left]

theorem dropTail_append (tail t : Text) : dropTail tail (t ++ tail) = t := by
  rw [dropTail, if_pos (List.isSuffixOf_iff_suffix.2 (List.suffix_append t tail)),
    List.length_append, Nat.add_sub_cancel, List.take_left]

end Text

instance (size : Nat) (w : Window) : Decidable (w.Admitted size) :=
  decidable_of_iff (0 ≤ w.base ∧ w.base ≤ w.base + w.argc + 2 ∧ (w.base + w.argc + 2).toInt ≤ size)
    ⟨fun ⟨hnonneg, hroom, htop⟩ => ⟨hnonneg, hroom, htop⟩, fun h => ⟨h.nonneg, h.room, h.top⟩⟩

namespace Machine

open Memory

variable {W : Ref → Text → Prop} {a m m₁ m' n : Machine} {v : Value} {r : Ref} {s : Symbol}
  {w : Window} {i j : Inst} {id : MethodId} {owner c : ClassId} {name : Text} {k : Native}
  {held owned H : List Value} {d : List Duty} {l : Nat} {pool : Pool} {t : VariableTable}
  {p p' : Pool} {log : List Installation}

/-! ### Accesses -/

/-- The instruction `i` stores `v` in the variable `name` of the instance `r`, with `pool` at hand:
it calls a setter, with `v` as the first argument, or it stores the variable of its receiver. A call
clears the register of its block before it looks for bytes. -/
inductive Assigns (m : Machine) (i : Inst) (r : Ref) (name : Text) (v : Value) : Pool → Prop
  | call {x : Symbol × Value} {m₁ : Machine} (h : m.CallsNative i r .attributeSet (name ++ "="))
      (hargc : 1 ≤ i.c) (hv : entryAt? m.regs (m.context.base + i.a + 1) = some v)
      (hready : ready i m.fetched = .ok x m₁) : Assigns m i r name v m₁.memory.pool
  | operand (hop : i.op = .setVariable) (hself : self m = .ok (.object r) m)
      (hslot : m.slot? i.b = some ("@" ++ name))
      (hv : entryAt? m.regs (m.context.base + i.a) = some v) : Assigns m i r name v m.memory.pool

/-- The instruction `i` loads the variable `name` of the instance `r`: it calls a getter with a
window in the register file, or it loads the variable of its receiver to a register in the file. -/
inductive Loads (m : Machine) (i : Inst) (r : Ref) (name : Text) : Prop
  | call (h : m.CallsNative i r .attributeGet name) (hargc : 0 ≤ i.c)
      (hwindow : Window.Admitted m.regs.size ⟨m.context.base + i.a, i.c⟩)
  | operand {old : Value} (hop : i.op = .getVariable) (hself : self m = .ok (.object r) m)
      (hslot : m.slot? i.b = some ("@" ++ name))
      (hreg : entryAt? m.regs (m.context.base + i.a) = some old)

/-- The variable `name` of the instance `r` has been stored, with `pool` at hand. -/
structure Puts (r : Ref) (name : Text) (v : Value) (pool : Pool) (m m' : Machine) : Prop where
  size : m.memory.heap.size ≤ m'.memory.heap.size
  table : ∃ key, m'.symbols.lookup? name = some key ∧ ∀ t', m'.memory.table? r = some t' →
    ∃ t, m.memory.table? r = some t ∧ ∀ k, t'.get? k = (t.after pool key v).get? k

theorem Puts.after (h : Puts r name v pool m₁ m') (houtlasts : m.memory.Outlasts m₁.memory)
    (hsize : m.memory.heap.size ≤ m₁.memory.heap.size) : Puts r name v pool m m' := by
  obtain ⟨key, hkey, htable⟩ := h.table
  refine ⟨hsize.trans h.size, key, hkey, fun t' ht' => ?_⟩
  obtain ⟨t, ht, hsame⟩ := htable t' ht'
  exact ⟨t, houtlasts.table? ht, hsame⟩

theorem Puts.persists (h : Puts r name v pool m m₁) (hr : r < m.memory.heap.size)
    (hp : Persists (fun _ _ => False) m₁ m') : Puts r name v pool m m' := by
  obtain ⟨key, hkey, htable⟩ := h.table
  refine ⟨h.size.trans hp.size, key, hp.lookup? hkey, fun t' ht' => ?_⟩
  obtain ⟨t₁, ht₁, hsame₁⟩ := hp.tables (Nat.lt_of_lt_of_le hr h.size) ht'
  obtain ⟨t, ht, hsame⟩ := htable t₁ ht₁
  exact ⟨t, ht, fun k => ((hsame₁ k).resolve_right fun ⟨_, hfalse, _⟩ => hfalse).trans (hsame k)⟩

theorem setVariable_puts (hname : m.symbols.lookup? name = some s) (v : Value) :
    Leads AnyFault (setVariable (.object r) s v) m fun _ m' =>
      Puts r name v m.memory.pool m m' := by
  refine (setVariable_stored r s v).mono fun _ m' h => ⟨Nat.le_of_eq h.size.symm, s, ?_, ?_⟩
  · rwa [h.alone]
  · intro t' ht'
    obtain ⟨c, hbody⟩ := table?_eq_some.1 ht'
    obtain ⟨t, ht, rfl⟩ := h.table hbody
    exact ⟨t, table?_eq_some.2 ⟨c, ht⟩, fun _ => rfl⟩

/-! ### The natives -/

theorem windowReg_ok {j : Int64} (hj : 0 ≤ j) (hlt : j < w.size)
    (hreg : entryAt? m.regs (w.base + j) = some v) : windowReg w j m = .ok v m := by
  rw [windowReg, if_pos ⟨hj, hlt⟩]
  exact reg_ok hreg

/-- The native of setters stores what it was called with. -/
theorem attributeSet_puts (hargc : 1 ≤ w.argc) (hr : entryAt? m.regs w.base = some (.object r))
    (hv : entryAt? m.regs (w.base + 1) = some v) (hlt : r < m.memory.heap.size)
    (hname : m.symbols.name m.context.callee = name ++ "=") :
    Leads AnyFault (runNative .attributeSet w) m fun o m' =>
      o = .done ∧ m'.core = m.core ∧ Puts r name v m.memory.pool m m' := by
  simp only [runNative, if_neg (Int64.not_lt.2 hargc), Leads.bind_eq, Leads.get_eq, nameOf,
    Leads.pure_eq, hname, Text.dropTail_append]
  refine (windowReg_leads fun v' hv' => ?_).forget
  cases hv.symm.trans hv'
  refine (windowReg_leads fun obj hobj => ?_).forget
  rw [Int64.add_zero] at hobj
  cases hr.symm.trans hobj
  refine (Leads.named _).mono fun key m₁ hkey => ?_
  cases hkey
  refine ((setVariable_puts (SymbolTable.lookup?_intern_self _ name) v).and
    (setVariable_tame (P := .everything) _ _ v _)).mono ?_
  rintro _ m₂ ⟨h₂, htame₂⟩
  have hm₂ := Persists.refl (W := fun _ _ => False) m₂
  refine ((hm₂.leads (Regime.returnShared_keeps w fun _ _ => trivial)).and
    (returnShared_tame (P := .everything) trivial v m₂)).mono ?_
  rintro _ m₃ ⟨h₃, htame₃⟩
  exact ⟨trivial, htame₃.core.trans htame₂.core,
    Puts.persists (h₂.after (.refl _) (Nat.le_refl _)) hlt h₃⟩

/-- Loading a variable that has been stored. -/
theorem getVariable_stored (h : Ledger True l d H m) (hstored : m.stored? r s = some v) :
    ∃ m', getVariable (.object r) s m = .ok v m' ∧ Ledger True l d (v :: H) m' ∧ Quiet m m' := by
  obtain ⟨t, ht, hget⟩ := Option.bind_eq_some_iff.1 hstored
  obtain ⟨c, hbody⟩ := table?_eq_some.1 ht
  obtain ⟨hr, h0, hheap⟩ := getElem_of_body? hbody
  obtain ⟨μ, hload, -⟩ := getVariable_ok (k := s) hbody fun v hv =>
    (h.exact trivial).counts.live_of_held (Array.getElem_mem hr) h0 (mem_held_of_get? hheap hv)
  rw [hget] at hload
  refine ⟨_, hload, ?_⟩
  exact (getVariable_ledger h s fun _ => live_of_body? hbody rfl).of_ok hload

/-- A register in the file holds what was stored to it. -/
theorem setReg_holds {j : Int64} {old : Value} (h : Ledger True l d (v :: H) m)
    (hj : entryAt? m.regs j = some old) : Leads Overdraws (setReg j v) m fun _ m' =>
      entryAt? m'.regs j = some v ∧ Ledger True l d H m' ∧ m'.skeleton = m.skeleton ∧
        m'.regs.size = m.regs.size := by
  refine (setReg_overdraws h hj).mono fun _ m' ⟨h', hskeleton, hregs⟩ => ?_
  exact ⟨by rw [hregs, entryAt?_set hj, if_pos rfl], h', hskeleton,
    by rw [hregs, Array.size_setIfInBounds]⟩

/-- The native of getters returns what is stored. -/
theorem attributeGet_stored (h : Ledger True l d H m) (hw : w.Admitted m.regs.size)
    (hargc : 0 ≤ w.argc) (hr : entryAt? m.regs w.base = some (.object r))
    (hstored : m.stored? r m.context.callee = some v) :
    Leads Overdraws (runNative .attributeGet w) m fun o m' => o = .done ∧
      entryAt? m'.regs w.base = some v ∧ Ledger True l d H m' ∧ m'.skeleton = m.skeleton ∧
      m'.regs.size = m.regs.size := by
  have hsize : 0 < w.size := hw.size_pos hargc
  have hplace : w.base + 0 = w.base := Int64.add_zero _
  have hzero : (0 : Int64) ≤ 0 := by decide
  simp only [runNative, setReturn, Leads.bind_eq, Leads.get_eq, Leads.pure_eq]
  refine .of_eq (windowReg_ok hzero hsize (by rw [hplace]; exact hr)) ?_
  obtain ⟨m₁, hload, h₁, hskeleton₁, hregs₁⟩ := getVariable_stored h hstored
  refine .of_eq hload ?_
  rw [← hregs₁] at hr
  refine .of_eq (windowReg_ok hzero hsize (by rw [hplace]; exact hr)) ?_
  refine (setReg_holds h₁ hr).mono ?_
  rintro _ m₂ ⟨hv, h₂, hskeleton₂, hsize₂⟩
  exact ⟨trivial, hv, h₂, hskeleton₂.trans hskeleton₁, hsize₂.trans (congrArg Array.size hregs₁)⟩

/-! ### Calls -/

theorem Sends.eq_kept (h : m.Sends i (.object r)) : (i.op = .send ∧ i.c ≠ -1 ∨ i.op = .sendBlock) ∧
    entryAt? m.regs (m.context.base + i.a) = some (.object r) := by
  cases h with
  | kept hop hreg => exact ⟨hop, hreg⟩

theorem Sends.eq (h : m.Sends i v) (h' : m.Sends i (.object r)) : v = .object r := by
  obtain ⟨hop', hreg'⟩ := h'.eq_kept
  cases h with
  | kept hop hreg => exact Option.some.inj (hreg.symm.trans hreg')
  | cleared hop hcount =>
    rcases hop' with ⟨-, hne⟩ | hother
    · exact absurd hcount hne
    · exact absurd (hop.symm.trans hother) (by decide)

theorem callsNative_iff : m.CallsNative i r k name ↔
    ((i.op = .send ∧ i.c ≠ -1 ∨ i.op = .sendBlock) ∧
      entryAt? m.regs (m.context.base + i.a) = some (.object r)) ∧ m.slot? i.b = some name ∧
    ∃ s ∈ m.sentSymbol i.b, ∃ x ∈ m.findMethod? (m.classOf (.object r)) s,
      (m.methodAt x.1).native? = some k := by
  refine ⟨fun h => ⟨h.sends.eq_kept, h.named, ?_⟩, ?_⟩
  · obtain ⟨s, id, owner, hs, hfound, hnative⟩ := h.answered
    exact ⟨s, hs, (id, owner), hfound, hnative⟩
  · rintro ⟨⟨hop, hreg⟩, hnamed, s, hs, ⟨id, owner⟩, hfound, hnative⟩
    exact ⟨.kept hop hreg, hnamed, s, id, owner, hs, hfound, hnative⟩

instance : Decidable (m.CallsNative i r k name) := decidable_of_iff _ callsNative_iff.symm

theorem codeSymbol_ok {b : Int64} (hs : m.sentSymbol b = some s) :
    ∃ symbols, codeSymbol b m = .ok s { m with symbols } := by
  obtain ⟨code, hcode, hentry⟩ := Option.bind_eq_some_iff.1 hs
  refine ⟨(m.symbols.internAll code.block.symbols.toList).1, Leads.eq_ok ?_⟩
  simp only [codeSymbol, currentCode, hcode, present, Leads.bind_eq, Leads.get_eq, Leads.pure_eq,
    Leads.modifyGet_eq, hentry]
  exact ⟨trivial, trivial⟩

theorem recordCall_changes (id : MethodId) (owner : ClassId) :
    Leads NoFault (recordCall id owner) m fun _ m' => m' = { m with profile := m'.profile } := by
  simp only [recordCall, Leads.bind_eq, Leads.get_eq]
  split <;> rfl

/-- The window of a call that is admitted can be made ready. -/
theorem ready_overdraws (h : m.CallsNative i r k name) (hm : Ledger True 0 [] H m) (hargc : 0 ≤ i.c)
    (hw : Window.Admitted m.regs.size ⟨m.context.base + i.a, i.c⟩) :
    Leads Overdraws (ready i) m fun _ m' => Ledger True 0 [] H m' := by
  obtain ⟨s, id, owner, hs, -, -⟩ := h.answered
  obtain ⟨hop, hreg⟩ := h.sends.eq_kept
  have hcount : i.c ≠ -1 := by
    intro heq
    rw [heq] at hargc
    exact absurd hargc (by decide)
  have hrest : ∀ m₁ : Machine, Ledger True 0 [] H m₁ → m₁.sentSymbol i.b = some s →
      entryAt? m₁.regs (m.context.base + i.a) = some (.object r) → Leads Overdraws (do
        let s ← codeSymbol i.b
        return (s, ← reg (m.context.base + i.a))) m₁ fun _ m' => Ledger True 0 [] H m' := by
    intro m₁ h₁ hs₁ hreg₁
    obtain ⟨symbols, hok⟩ := codeSymbol_ok hs₁
    simp only [Leads.bind_eq]
    refine .of_eq hok ?_
    have hreg₂ : entryAt? { m₁ with symbols }.regs (m.context.base + i.a) = some (.object r) :=
      hreg₁
    exact .of_eq (reg_ok hreg₂) ((codeSymbol_ledger i.b h₁).of_ok hok).1
  simp only [ready, Leads.bind_eq, Leads.get_eq] at hrest ⊢
  rcases hop with ⟨hop, -⟩ | hop
  · simp only [hop, if_true, Leads.bind_eq]
    refine (((enterWindow_admitted hw).imp (fun _ _ => False.elim) fun _ _ h => h).and
      (enterWindow_ledger hm _ _)).mono ?_
    rintro _ m₁ ⟨h₁, hledger₁, -, -⟩
    have hnil : Ledger True 0 [] (.nil :: H) m₁ := hledger₁.hold rfl
    obtain ⟨hbase, hlength, htop, hsmall⟩ := hw.ranges hargc
    obtain ⟨old, hold⟩ : ∃ old, entryAt? m.regs (m.context.base + i.a + i.c + 1) = some old := by
      have hone : (1 : Int64).toInt = 1 := rfl
      have hsum : (m.context.base + i.a + i.c).toInt = (m.context.base + i.a).toInt + i.c.toInt :=
        toInt_add (by dsimp only at *; omega) (by dsimp only at *; omega)
      have hplace : (m.context.base + i.a + i.c + 1).toInt =
          (m.context.base + i.a).toInt + i.c.toInt + 1 := by
        rw [toInt_add (by dsimp only at *; omega) (by dsimp only at *; omega), hsum, hone]
      dsimp only at hbase hlength htop hsmall
      exact entryAt?_isSome (by omega) (by omega)
    have hregs₁ : m₁.regs = m.regs := congrArg (·.regs) h₁
    rw [← hregs₁] at hold hreg
    refine ((setReg_overdraws hnil hold).and (setReg_changes _ .nil)).mono ?_
    rintro _ m₂ ⟨⟨hledger₂, -, hregs₂⟩, h₂, -⟩
    refine hrest m₂ hledger₂ ?_ ?_
    · have hcontext : m₂.context = m.context := by rw [h₂, h₁]
      have hsymbols : m₂.symbols = m.symbols := by rw [h₂, h₁]
      rw [← hs, sentSymbol, sentSymbol, hcontext, hsymbols]
    · rw [hregs₂, entryAt?_set hold, if_neg (behind_ne hcount), hreg]
  · simp only [hop, reduceCtorEq, if_false, Leads.bind_eq]
    exact hrest m hm hs hreg

theorem startNative_stored (h : Ledger True 0 [] H m) (hid : 0 < (m.methodAt id).refCount)
    (hnative : (m.methodAt id).native? = some .attributeGet) (hw : w.Admitted m.regs.size)
    (hargc : 0 ≤ w.argc) (hr : entryAt? m.regs w.base = some (.object r))
    (hstored : m.stored? r (m.methodAt id).symbol = some v) :
    Leads Overdraws (startNative id w []) m fun x m' => x = .inl .same ∧
      entryAt? m'.regs w.base = some v ∧ m'.core = m.core := by
  simp only [startNative, Leads.bind_eq, Leads.get_eq]
  have hentered := enterNative_ok m id w
  refine .of_eq hentered (.of_eq (checkWindow_admitted hw) ?_)
  obtain ⟨h₁, -, -⟩ := (enterNative_ledger h hid).of_ok hentered
  rw [native?_entering, hnative]
  simp only [present, Leads.pure_eq]
  refine (attributeGet_stored h₁ hw hargc hr hstored).mono ?_
  rintro _ m₂ ⟨rfl, hv, h₂, hskeleton, hsize⟩
  simp only [runDuties, runDuty, Leads.bind_eq, Leads.pure_eq]
  obtain ⟨hnonneg, -⟩ := hw.ranges hargc
  have hw₂ : w.Admitted m₂.regs.size := hsize ▸ hw
  refine ((leaveNative_overdraws h₂ hw₂ hargc).and (leaveNative_leads id hnonneg _ _)).mono ?_
  rintro _ m₃ ⟨-, halters, hcore, -⟩
  refine ⟨trivial, ?_, ?_⟩
  · rw [halters.reg_eq (fun _ h => h.elim) fun j hj => ?_, hv]
    have hlow : w.base.toInt + 1 ≤ j.toInt := hj
    omega
  · have hcore₂ : m₂.skeleton.core = (m.entering id w).skeleton.core := congrArg core hskeleton
    exact hcore.trans hcore₂

/-- A native is looked up and started, with its window entered and the call recorded. -/
theorem dispatch_native {E : Fault → Machine → Prop} {Q : Machine → Prop} {b argc : Int64}
    (hfound : m.findMethod? c s = some (id, owner)) (hnative : (m.methodAt id).native? = some k)
    (hwindow : Leads E (enterWindow (m.context.base + b) (argc + 2)) m fun _ m' =>
      m' = { m with regHigh := m'.regHigh })
    (hstart : ∀ regHigh profile, Leads E (startNative id ⟨m.context.base + b, argc⟩ [])
      { m with regHigh, profile } fun x m' => x = .inl .same ∧ Q m') :
    Leads E (dispatch b s argc c) m fun p m' => p = .same ∧ Q m' := by
  simp only [dispatch, Leads.bind_eq, Leads.get_eq]
  refine hwindow.mono fun _ m₁ h₁ => ?_
  obtain ⟨hfind, hat⟩ : m₁.findMethod? = m.findMethod? ∧ m₁.methodAt = m.methodAt :=
    findMethod?_congr (congrArg (·.classes) h₁) (congrArg (·.methods) h₁)
  rw [hfind, hfound]
  simp only [Leads.bind_eq, Leads.get_eq]
  refine ((recordCall_changes id owner).imp (fun _ _ => False.elim) fun _ _ h => h).mono ?_
  intro _ m₂ h₂
  have halone : m₂ = { m with regHigh := m₂.regHigh, profile := m₂.profile } := by rw [h₂, h₁]
  have hbody : (m₂.methodAt id).body = .native k := by
    rw [halone]
    exact Method.body_of_native? hnative
  rw [hbody]
  dsimp only
  rw [callNative, Leads.bind_eq, halone]
  refine (hstart _ _).mono ?_
  rintro _ m₃ ⟨rfl, hQ⟩
  exact ⟨rfl, hQ⟩

/-! ### Loads -/

/-- A live instance keeps its variables while others are freed. -/
theorem stored?_of_outlasts (h : m.memory.Outlasts m'.memory) (hlive : m'.memory.Live (.object r)) :
    m'.stored? r s = m.stored? r s := by
  have hr : r < m'.memory.heap.size := hlive.lt_size rfl
  have hcount : m'.memory.heap[r].refCount ≠ 0 := by
    rw [← countAt_of_getElem hr]
    exact hlive r rfl
  have hbody := body?_of_getElem hr
  rw [if_neg hcount] at hbody
  rw [stored?, stored?, table?, table?, hbody, h r _ hbody]

theorem send_stored (h : m.CallsNative i r .attributeGet name) (hm : Ledger True 0 [] H m)
    (hargc : 0 ≤ i.c) (hw : Window.Admitted m.regs.size ⟨m.context.base + i.a, i.c⟩)
    (hname : m.symbols.lookup? name = some s) (hstored : m.stored? r s = some v) :
    Leads Overdraws (step i) m fun p m' => p = .same ∧
      entryAt? m'.regs (m.context.base + i.a) = some v ∧ m'.pending = m.pending ∧
      m'.jumped = m.jumped := by
  obtain ⟨s', id, owner, hs, hfound, hnative⟩ := h.answered
  rw [step_eq_ready h.sends.op]
  refine ((ready_overdraws h hm hargc hw).and (ready_readies h.sends.op)).mono ?_
  rintro ⟨s₁, v₁⟩ m₁ ⟨h₁, hready⟩
  obtain rfl := hready.sends.eq h.sends
  cases hs.symm.trans hready.symbol
  obtain ⟨name', hslot, hlookup⟩ := hready.named
  cases hslot.symm.trans h.named
  cases hlookup.symm.trans ((hready.persists (W := fun _ _ => False)).lookup? hname)
  have hreceiver : entryAt? m₁.regs (m.context.base + i.a) = some (.object r) := hready.receiver
  obtain ⟨hfind, hat⟩ := findMethod?_congr hready.classes hready.methods
  have hlive : m₁.memory.Live (.object r) := h₁.live_of_reg (mem_of_entryAt? hreceiver) trivial
  rw [← stored?_of_outlasts hready.outlasts hlive] at hstored
  rw [← hready.context] at hreceiver hw ⊢
  rw [← hready.size] at hw
  rw [← hready.classOf, ← hfind] at hfound
  rw [← hat] at hnative
  refine (dispatch_native (Q := fun m' => entryAt? m'.regs (m₁.context.base + i.a) = some v ∧
    m'.core = m₁.core) hfound hnative
    ((enterWindow_admitted hw).imp (fun _ _ => False.elim) fun _ _ h => h)
    fun regHigh profile => ?_).mono ?_
  · have hm₁ : Ledger True 0 [] H { m₁ with regHigh, profile } :=
      h₁.keep rfl h₁.balanced fun hs => (h₁.exact hs).counts
    refine startNative_stored hm₁ (hm₁.refCount_of_findMethod? hfound) hnative hw hargc hreceiver ?_
    change m₁.stored? r (m₁.methodAt id).symbol = some v
    rwa [symbol_of_findMethod? hfound]
  rintro p m₂ ⟨rfl, hv, hcore⟩
  refine ⟨rfl, hv, (congrArg (·.pending) hcore : m₂.pending = m₁.pending).trans ?_,
    (congrArg (·.jumped) hcore : m₂.jumped = m₁.jumped).trans ?_⟩
  · rw [hready.alone]
  · rw [hready.alone]

theorem operand_stored {old : Value} (hm : Ledger True 0 [] H m) (hop : i.op = .getVariable)
    (hself : self m = .ok (.object r) m) (hslot : m.slot? i.b = some ("@" ++ name))
    (hreg : entryAt? m.regs (m.context.base + i.a) = some old)
    (hname : m.symbols.lookup? name = some s) (hstored : m.stored? r s = some v) :
    Leads Overdraws (step i) m fun p m' => p = .same ∧
      entryAt? m'.regs (m.context.base + i.a) = some v ∧ m'.pending = m.pending ∧
      m'.jumped = m.jumped := by
  obtain ⟨code, hcode, hentry⟩ := Option.bind_eq_some_iff.1 hslot
  have hintern : intern name m = .ok s m := by
    refine Leads.eq_ok ?_
    simp only [intern, SymbolTable.intern, hname, Leads.modifyGet_eq]
    exact ⟨trivial, trivial⟩
  simp only [step, hop, Leads.bind_eq, Leads.get_eq]
  refine .of_eq hself ?_
  simp only [variableSymbol, currentCode, hcode, hentry, present, Leads.bind_eq, Leads.get_eq,
    Leads.pure_eq, Text.dropLead_append]
  refine .of_eq hintern ?_
  obtain ⟨m₁, hload, h₁, hskeleton₁, hregs₁⟩ := getVariable_stored hm hstored
  refine .of_eq hload ?_
  rw [← hregs₁] at hreg
  refine (setReg_holds h₁ hreg).mono ?_
  rintro _ m₂ ⟨hv, -, hskeleton₂, -⟩
  have hskeleton : m₂.skeleton = m.skeleton := hskeleton₂.trans hskeleton₁
  exact ⟨trivial, hv, (congrArg (·.pending) hskeleton : m₂.skeleton.pending = m.skeleton.pending),
    (congrArg (·.jumped) hskeleton : m₂.skeleton.jumped = m.skeleton.jumped)⟩

/-- A call is the same wherever the code goes on. -/
theorem CallsNative.fetched (h : m.CallsNative i r k name) : m.fetched.CallsNative i r k name := by
  obtain ⟨hop, hreg⟩ := h.sends.eq_kept
  exact ⟨.kept hop hreg, h.named, h.answered⟩

/-- A load that follows a store gives the value that was stored. -/
theorem Loads.tick (h : m.Loads i r name) (hm : Reachable true owned m)
    (hi : m.control.next? = some i) (hname : m.symbols.lookup? name = some s)
    (hstored : m.stored? r s = some v) : Leads Overdraws tick m fun x m' =>
      x = none ∧ entryAt? m'.regs (m.context.base + i.a) = some v := by
  obtain ⟨hfetched, -, -⟩ :=
    (fetch_ledger hm.sane.ledger).of_ok (fetch_ok hi)
  refine tick_of_same hi ?_
  have hstep : Leads Overdraws (step i) m.fetched fun p m' => p = .same ∧
      entryAt? m'.regs (m.context.base + i.a) = some v ∧ m'.pending = m.pending ∧
      m'.jumped = m.jumped := by
    cases h with
    | call h hargc hwindow => exact send_stored h.fetched hfetched hargc hwindow hname hstored
    | operand hop hself hslot hreg =>
      exact operand_stored hfetched hop (self_fetched hself) hslot hreg hname hstored
  refine hstep.mono ?_
  rintro p m' ⟨rfl, hv, hpending, hjumped⟩
  exact ⟨rfl, hpending.trans (Machine.Reachable.steady hm).standing.2, 
    hjumped.trans (Machine.Reachable.jumped hm rfl), hv⟩

/-! ### Stores -/

theorem startNative_puts (hnative : (m.methodAt id).native? = some .attributeSet)
    (hargc : 1 ≤ w.argc) (hr : entryAt? m.regs w.base = some (.object r))
    (hv : entryAt? m.regs (w.base + 1) = some v) (hlt : r < m.memory.heap.size)
    (hname : m.symbols.name (m.methodAt id).symbol = name ++ "=") :
    Leads AnyFault (startNative id w []) m fun x m' => x = .inl .same ∧ m'.core = m.core ∧
      Puts r name v m.memory.pool m m' := by
  simp only [startNative, Leads.bind_eq, Leads.get_eq]
  refine .of_eq (enterNative_ok m id w) (checkWindow_nonneg fun hnonneg => ?_)
  rw [native?_entering, hnative]
  simp only [present, Leads.pure_eq]
  refine (attributeSet_puts (m := m.entering id w) hargc hr hv hlt hname).mono ?_
  rintro _ m₂ ⟨rfl, hcore₂, h₂⟩
  simp only [runDuties, runDuty, Leads.bind_eq, Leads.pure_eq]
  have hm₂ := Persists.refl (W := fun _ _ => False) m₂
  refine ((leaveNative_leads id hnonneg _ _).and
    (hm₂.leads (Regime.leaveNative_keeps id w _ _))).mono ?_
  rintro _ m₃ ⟨⟨-, hcore₃, -⟩, h₃⟩
  have hput : Puts r name v m.memory.pool m m₂ := h₂.after (.refl _) (Nat.le_refl _)
  exact ⟨trivial, hcore₃.trans hcore₂, hput.persists hlt h₃⟩

theorem after_ne {b n : Int64} (h : 1 ≤ n) : b + 1 ≠ b + n + 1 := by
  intro heq
  have hzero : n = 0 := Int64.add_eq_left.1 ((Int64.add_left_inj 1).1 heq).symm
  rw [hzero] at h
  exact absurd h (by decide)

theorem send_puts {x : Symbol × Value} (h : m.CallsNative i r .attributeSet (name ++ "="))
    (hm : Ledger True 0 [] H m) (hinverse : m.symbols.Inverse) (hargc : 1 ≤ i.c)
    (hv : entryAt? m.regs (m.context.base + i.a + 1) = some v) (hready : ready i m = .ok x m₁) :
    Leads AnyFault (step i) m fun p m' => p = .same ∧ m'.pending = m.pending ∧
      m'.jumped = m.jumped ∧ Puts r name v m₁.memory.pool m m' := by
  obtain ⟨s', id, owner, hs, hfound, hnative⟩ := h.answered
  have h₁ := (ready_readies h.sends.op).of_ok hready
  rw [step_eq_ready h.sends.op]
  refine .of_eq hready ?_
  obtain ⟨s₁, v₁⟩ := x
  obtain rfl := h₁.sends.eq h.sends
  cases hs.symm.trans h₁.symbol
  obtain ⟨name', hslot, hlookup⟩ := h₁.named
  cases hslot.symm.trans h.named
  obtain ⟨hfind, hat⟩ := findMethod?_congr h₁.classes h₁.methods
  have hlt : r < m₁.memory.heap.size := by
    obtain ⟨-, hreg⟩ := h.sends.eq_kept
    rw [h₁.heap]
    exact (hm.live_of_reg (mem_of_entryAt? hreg) trivial).lt_size rfl
  have hv₁ : entryAt? m₁.regs (m.context.base + i.a + 1) = some v := by
    rw [h₁.regs _ (after_ne hargc), hv]
  have hreceiver : entryAt? m₁.regs (m.context.base + i.a) = some (.object r) := h₁.receiver
  rw [← h₁.context] at hreceiver hv₁
  rw [← h₁.classOf, ← hfind] at hfound
  rw [← hat] at hnative
  refine (dispatch_native (Q := fun m' => m'.core = m₁.core ∧ Puts r name v m₁.memory.pool m₁ m')
    hfound hnative (enterWindow_changes _ _) fun regHigh profile => ?_).mono ?_
  · have hname : m₁.symbols.name (m₁.methodAt id).symbol = name ++ "=" := by
      rw [symbol_of_findMethod? hfound]
      exact (h₁.inverse hinverse).name_eq hlookup
    refine (startNative_puts (m := { m₁ with regHigh, profile })
      (w := ⟨m₁.context.base + i.a, i.c⟩) hnative hargc hreceiver hv₁ hlt hname).mono ?_
    rintro _ m₂ ⟨rfl, hcore, hput⟩
    exact ⟨rfl, hcore, hput.after (.refl _) (Nat.le_refl _)⟩
  rintro p m₂ ⟨rfl, hcore, hput⟩
  refine ⟨rfl, (congrArg (·.pending) hcore : m₂.pending = m₁.pending).trans ?_,
    (congrArg (·.jumped) hcore : m₂.jumped = m₁.jumped).trans ?_,
    hput.after h₁.outlasts (Nat.le_of_eq h₁.heap.symm)⟩
  · rw [h₁.alone]
  · rw [h₁.alone]

theorem operand_puts (hop : i.op = .setVariable) (hself : self m = .ok (.object r) m)
    (hslot : m.slot? i.b = some ("@" ++ name))
    (hv : entryAt? m.regs (m.context.base + i.a) = some v) :
    Leads AnyFault (step i) m fun p m' => p = .same ∧ m'.pending = m.pending ∧
      m'.jumped = m.jumped ∧ Puts r name v m.memory.pool m m' := by
  obtain ⟨code, hcode, hentry⟩ := Option.bind_eq_some_iff.1 hslot
  simp only [step, hop, Leads.bind_eq, Leads.get_eq]
  refine .of_eq hself ?_
  simp only [variableSymbol, currentCode, hcode, hentry, present, Leads.bind_eq, Leads.get_eq,
    Leads.pure_eq, Text.dropLead_append]
  refine (Leads.named _).mono fun key m₁ hkey => ?_
  cases hkey
  refine .of_eq (reg_ok hv) ?_
  refine ((setVariable_puts (SymbolTable.lookup?_intern_self _ name) v).and
    (setVariable_tame (P := .everything) _ _ v _)).mono ?_
  rintro _ m₂ ⟨h₂, htame₂⟩
  have hcore := htame₂.core
  exact ⟨trivial, (congrArg (·.pending) hcore :), (congrArg (·.jumped) hcore :),
    h₂.after (.refl _) (Nat.le_refl _)⟩

/-- A store is a tick of its own. -/
theorem Assigns.tick (h : m.Assigns i r name v pool) (hm : Reachable true owned m)
    (hi : m.control.next? = some i) :
    Leads AnyFault tick m fun x m' => x = none ∧ Puts r name v pool m m' := by
  obtain ⟨hfetched, -, -⟩ :=
    (fetch_ledger hm.sane.ledger).of_ok (fetch_ok hi)
  refine tick_of_same hi ?_
  have hstep : Leads AnyFault (step i) m.fetched fun p m' => p = .same ∧
      m'.pending = m.pending ∧ m'.jumped = m.jumped ∧ Puts r name v pool m.fetched m' := by
    have hinverse : m.symbols.Inverse := Machine.Reachable.inverse hm
    cases h with
    | call h hargc hv hready => exact send_puts h.fetched hfetched hinverse hargc hv hready
    | operand hop hself hslot hv =>
      exact operand_puts (m := m.fetched) hop (self_fetched hself) hslot hv
  refine hstep.mono ?_
  rintro p m' ⟨rfl, hpending, hjumped, hput⟩
  exact ⟨rfl, hpending.trans (Machine.Reachable.steady hm).standing.2,
    hjumped.trans (Machine.Reachable.jumped hm rfl), hput.after (.refl _) (Nat.le_refl _)⟩

/-! ### Agreement -/

theorem live_of_self (hm : Ledger True l d H m) (hself : self m = .ok (.object r) m) :
    m.memory.Live (.object r) :=
  hm.live_of_reg (mem_of_entryAt? (self_iff.1 hself)) trivial

theorem CallsNative.live (h : m.CallsNative i r k name) (hm : Ledger True l d H m) :
    m.memory.Live (.object r) := by
  obtain ⟨-, hreg⟩ := h.sends.eq_kept
  exact hm.live_of_reg (mem_of_entryAt? hreg) trivial

theorem Loads.live (h : m.Loads i r name) (hm : Ledger True l d H m) :
    m.memory.Live (.object r) := by
  cases h with
  | call h => exact h.live hm
  | operand _ hself => exact live_of_self hm hself

theorem Stores.op (h : m.Stores i r name) :
    i.op = .send ∨ i.op = .sendBlock ∨ i.op = .callSuper ∨ i.op = .setVariable := by
  cases h with
  | call h => exact h.sends.op.imp_right .inl
  | super h => exact .inr (.inr (.inl h.op))
  | operand hop => exact .inr (.inr (.inr hop))

/-- An assignment stores the one variable that it assigns. -/
theorem Assigns.stores_eq {q : Ref} {other : Text} (h : m.Assigns i r name v pool)
    (hs : m.Stores i q other) : q = r ∧ other = name := by
  cases h with
  | call h _ _ _ =>
    cases hs with
    | call h' _ =>
      cases h'.sends.eq h.sends
      cases h'.named.symm.trans h.named
      exact ⟨rfl, Text.dropTail_append _ _⟩
    | super h' => rcases h.sends.op with hop | hop <;> cases hop.symm.trans h'.op
    | operand hop' _ _ => rcases h.sends.op with hop | hop <;> cases hop.symm.trans hop'
  | operand hop hself hslot _ =>
    cases hs with
    | call h' _ => rcases h'.sends.op with hop' | hop' <;> cases hop'.symm.trans hop
    | super h' => cases h'.op.symm.trans hop
    | operand _ hself' hslot' =>
      cases hself.symm.trans hself'
      cases hslot'.symm.trans hslot
      exact ⟨rfl, Text.dropLead_append _ _⟩

end Machine

/-- The next instruction does not store the variable `name` of the instance `r`. -/
def Unwritten (r : Ref) (name : Text) (m : Machine) : Prop :=
  ∀ i, m.control.next? = some i → ¬m.Stores i r name

variable {held : List Value} {a n : Machine} {i : Inst} {r : Ref} {name : Text} {v : Value}
  {pool : Pool} {c : ClassId} {t : VariableTable} {x : Option Value}

/-- Setters, getters and the instructions of instance variables agree. Where the variable `name` of
an instance is assigned `v`, by a call of its setter or by an instruction, no other variable of any
instance changes; the variable is `v` afterwards just where it was there or a slot for it could be
had. Then a call of the getter and a load by an instruction, at once or later, give `v` as long as
no instruction stores the variable again. -/
theorem accessors_agree (ha : Reachable true held a) (hi : a.control.next? = some i)
    (hassigns : a.Assigns i r name v pool) (ht : a.memory.body? r = some (.object c t))
    (h : Machine.tick a = .ok x n) :
    x = none ∧ ∃ key, (∀ other, n.symbols.lookup? other = some key ↔ other = name) ∧
      (∀ q k, (q, k) ≠ (r, key) → (a.memory.table? q).isSome → (n.memory.table? q).isSome →
        n.stored? q k = a.stored? q k) ∧
      ((n.memory.table? r).isSome → (n.stored? r key = some v ↔ t.HasRoom pool key)) ∧
      (n.stored? r key = some v → ∀ owned m j, Since (Unwritten r name) held n true owned m →
        m.control.next? = some j → m.Loads j r name → Leads Overdraws Machine.tick m fun y m' =>
          y = none ∧ entryAt? m'.regs (m.context.base + j.a) = some v) := by
  obtain ⟨rfl, hsize, key, hkey, htable⟩ := (hassigns.tick ha hi).of_ok h
  have hn : Reachable true held n := ha.tick h
  have hpersists : Machine.Persists (fun q other => q = r ∧ other = name) a n := by
    refine tick_persists ha h fun j hj q other hstores => ?_
    cases hi.symm.trans hj
    exact hassigns.stores_eq hstores
  have hunique : ∀ {b : Machine}, b.symbols.Inverse → b.symbols.lookup? name = some key →
      ∀ other, b.symbols.lookup? other = some key → other = name := by
    intro b hb hname other hother
    rw [← hb.name_eq hother, hb.name_eq hname]
  refine ⟨rfl, key, fun other => ⟨?_, ?_⟩, fun q k hne hq hq' => ?_, fun hr => ?_, ?_⟩
  · exact hunique (Machine.Reachable.inverse hn) hkey other
  · rintro rfl
    exact hkey
  · obtain ⟨t₀, ht₀⟩ := Option.isSome_iff_exists.1 hq
    obtain ⟨t', ht'⟩ := Option.isSome_iff_exists.1 hq'
    obtain ⟨c₀, hbody₀⟩ := Memory.table?_eq_some.1 ht₀
    obtain ⟨hlt, -⟩ := Memory.getElem_of_body? hbody₀
    refine hpersists.stored?_eq hlt ht' ?_
    rintro _ ⟨rfl, rfl⟩ hk
    cases hkey.symm.trans hk
    exact hne rfl
  · obtain ⟨t', ht'⟩ := Option.isSome_iff_exists.1 hr
    obtain ⟨t₀, ht₀, hget⟩ := htable t' ht'
    cases ht₀.symm.trans (Memory.table?_eq_some.2 ⟨c, ht⟩)
    rw [Machine.stored?, ht', Option.bind_some, hget key]
    exact VariableTable.get?_after_self
  · intro hstored owned m j hsince hj hloads
    have hm : Reachable true owned m := hsince.later.reachable hn
    have hlater : Machine.Persists (fun q other => ¬(q = r ∧ other = name)) n m := by
      refine hsince.persists hn fun b hb k hk q other hstores => ?_
      rintro ⟨rfl, rfl⟩
      exact hb k hk hstores
    obtain ⟨t₁, ht₁, -⟩ := Option.bind_eq_some_iff.1 hstored
    have hlive := hloads.live hm.sane.ledger
    obtain ⟨t', ht'⟩ := hlater.table?_isSome ht₁ hlive
    obtain ⟨c₁, hbody₁⟩ := Memory.table?_eq_some.1 ht₁
    obtain ⟨hlt, -⟩ := Memory.getElem_of_body? hbody₁
    have hkey' : m.symbols.lookup? name = some key := hlater.lookup? hkey
    refine hloads.tick hm hj hkey' ?_
    rw [hlater.stored?_eq hlt ht', hstored]
    intro other hother hk
    exact hother ⟨rfl, hunique (Machine.Reachable.inverse hm) hkey' other hk⟩

/-- Code that defines accessors of a name with marks at both ends, for all objects, and calls the
setter and the getter of the main object. -/
def callingAccessors : Program where
  blocks := #[{
    registers := 4, symbols := #["@b=", "attr_accessor", "@b=="],
    code := #[⟨.targetClass, 1, 0, 0⟩, ⟨.loadSymbol, 2, 0, 0⟩, ⟨.send, 1, 1, 1⟩,
      ⟨.loadSelf, 1, 0, 0⟩, ⟨.loadInt, 2, 7, 0⟩, ⟨.send, 1, 2, 1⟩, ⟨.loadSelf, 1, 0, 0⟩,
      ⟨.send, 1, 0, 0⟩, ⟨.leave, 1, 0, 0⟩] }]

set_option synthInstance.maxSize 400 in
/-- The getter gives what the setter was called with. -/
theorem accessors_agree_main : ∃ a n m m' owned pool, Reachable true [] a ∧
    a.Assigns ⟨.send, 1, 2, 1⟩ 0 "@b=" (.int 7) pool ∧ Machine.tick a = .ok none n ∧
    Since (Unwritten 0 "@b=") [] n true owned m ∧ m.Loads ⟨.send, 1, 0, 0⟩ 0 "@b=" ∧
    Machine.tick m = .ok none m' ∧ entryAt? m'.regs (m.context.base + 1) = some (.int 7) := by
  have hrun : ∃ a ∈ callingAccessors.after 5, a.control.next? = some ⟨.send, 1, 2, 1⟩ ∧
      a.CallsNative ⟨.send, 1, 2, 1⟩ 0 .attributeSet ("@b=" ++ "=") ∧
      entryAt? a.regs (a.context.base + 1 + 1) = some (.int 7) ∧ (a.memory.table? 0).isSome ∧
      Leads NoFault (Machine.ready ⟨.send, 1, 2, 1⟩) a.fetched (fun _ _ => True) ∧
      Leads NoFault Machine.tick a fun x n => x = none ∧
        (∃ key ∈ n.symbols.lookup? "@b=", n.stored? 0 key = some (.int 7)) ∧
        n.control.next? = some ⟨.loadSelf, 1, 0, 0⟩ ∧ Leads NoFault Machine.tick n fun x m =>
          x = none ∧ m.control.next? = some ⟨.send, 1, 0, 0⟩ ∧
          m.CallsNative ⟨.send, 1, 0, 0⟩ 0 .attributeGet "@b=" ∧
          Window.Admitted m.regs.size ⟨m.context.base + 1, 0⟩ ∧
          Leads NoFault Machine.tick m fun _ _ => True := by
    decide +kernel
  have hvalid : callingAccessors.defect? = none := Program.defect?_eq_none (by decide +kernel)
  obtain ⟨a, hafter, hi, hcalls, hv, htable, hready, htick⟩ := hrun
  obtain ⟨_, m₁, hready, -⟩ := hready.exists_ok
  obtain ⟨_, n, hn, rfl, ⟨key, hkey, hstored⟩, hnext, htick⟩ := htick.exists_ok
  obtain ⟨_, m, hm, rfl, hj, hgets, hwindow, htick⟩ := htick.exists_ok
  obtain ⟨y, m', hm', -⟩ := htick.exists_ok
  obtain ⟨t, ht⟩ := Option.isSome_iff_exists.1 htable
  obtain ⟨c, hbody⟩ := Memory.table?_eq_some.1 ht
  have ha : Reachable true [] a := Reachable.of_after hvalid hafter
  have hassigns : a.Assigns ⟨.send, 1, 2, 1⟩ 0 "@b=" (.int 7) m₁.memory.pool :=
    .call hcalls (by decide) hv hready
  have hloads : m.Loads ⟨.send, 1, 0, 0⟩ 0 "@b=" := .call hgets (by decide) hwindow
  have hsince : Since (Unwritten 0 "@b=") [] n true [] m := by
    refine .tick .here (fun i hi => ?_) hm
    cases hnext.symm.trans hi
    exact fun hstores => absurd hstores.op (by decide)
  obtain ⟨-, key', hkeys, -, -, hagree⟩ := accessors_agree ha hi hassigns hbody hn
  cases hkey.symm.trans ((hkeys "@b=").2 rfl)
  obtain ⟨rfl, hload⟩ := (hagree hstored [] m _ hsince hj hloads).of_ok hm'
  exact ⟨a, n, m, m', [], m₁.memory.pool, ha, hassigns, hn, hsince, hloads, hm', hload⟩

end ObjectMachine
