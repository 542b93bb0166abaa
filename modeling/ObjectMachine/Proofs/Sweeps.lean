import ObjectMachine.Proofs.Floors
import ObjectMachine.Proofs.Constructors
import ObjectMachine.Proofs.Crashes

/-! What is left in the registers. A mark bounds the registers in use: a window that is entered
raises it, and the end of an instruction that moved control to another window clears what lies
above that window and lowers it. A return does not raise it again, nor does the landing in a
rescue or ensure body, so a window may reach above the mark. As long as no instruction stores
there, nothing is above the mark between instructions, and the end of a unit leaves every
register empty. -/

namespace ObjectMachine

namespace Machine

variable {P : Permit} {m m₁ m' a : Machine} {ph ph' : Phase} {owned : List Value}

/-! ### Above the mark -/

def Swept (m : Machine) : Prop :=
  ∀ (r : Nat) v, m.regHigh.toInt ≤ r → m.regs[r]? = some v → v = .empty

/-- Stores below the mark leave nothing above it. -/
theorem Swept.alters (h : m.Swept) (ha : Alters P m m') (htrims : ¬P.trims)
    (hstores : ∀ j, P.stores j → j.toInt < m'.regHigh.toInt) : m'.Swept := by
  intro r v hr hv
  rcases ha.regs r with heq | ⟨j, hj, hjr⟩ | ⟨-, hempty⟩
  · exact h r v (Int.le_trans (ha.high.resolve_left htrims) hr) (heq ▸ hv)
  · have hlt := hstores j hj
    omega
  · exact Option.some.inj (hv.symm.trans hempty)

/-- A register that was empty stays so where nothing is stored. -/
theorem Alters.empty (h : Alters P m m') (hstores : ∀ j, ¬P.stores j) {r : Nat}
    (hr : m.regs[r]? = some .empty) : m'.regs[r]? = some .empty := by
  rcases h.regs r with heq | ⟨j, hj, -⟩ | ⟨-, hempty⟩
  · exact heq.trans hr
  · exact absurd hj (hstores j)
  · exact hempty

theorem scrub_clears (start : Int64) (count : Nat) :
    Leads AnyFault (scrub start count) m fun _ m' => ∀ r : Nat, start.toInt ≤ r →
      (r : Int) < start.toInt + count → m'.regs[r]? = some .empty := by
  induction count generalizing start m with
  | zero =>
    intro r hle hlt
    omega
  | succ count ih =>
    rcases Int.lt_or_le start.toInt 0 with hneg | hnonneg
    · simp only [scrub, Leads.bind_eq]
      exact reg_of_neg hneg
    -- The first register is empty now and stays so.
    have hrest : ∀ m₁, m₁.regs[start.toInt.toNat]? = some .empty →
        Leads AnyFault (scrub (start + 1) count) m₁ fun _ m' => ∀ r : Nat, start.toInt ≤ r →
          (r : Int) < start.toInt + (count + 1 : Nat) → m'.regs[r]? = some .empty := by
      intro m₁ hfirst
      rcases Int.lt_or_le (start + 1).toInt 0 with hwrap | hnext
      · cases count with
        | zero =>
          intro r hle hlt
          rwa [show r = start.toInt.toNat by omega]
        | succ count =>
          simp only [scrub, Leads.bind_eq]
          exact reg_of_neg hwrap
      · have hsucc := toInt_succ hnonneg hnext
        have htame : Tame (.clearFrom 0) (scrub (start + 1) count) := scrub_tame _ _ id
        refine ((htame m₁).and (ih (start + 1))).mono ?_
        rintro _ m' ⟨hworks, hclears⟩ r hle hlt
        rcases Int.lt_or_eq_of_le hle with hlt' | heq
        · exact hclears r (by omega) (by omega)
        · rw [show r = start.toInt.toNat by omega]
          exact hworks.toAlters.empty (fun _ h => h) hfirst
    simp only [scrub, Leads.bind_eq]
    refine (reg_leads fun v hv => ?_).forget
    split
    · rw [Leads.bind_eq]
      refine (setReg_gets start .empty).mono fun _ m₁ hgets => hrest m₁ ?_
      rwa [entryAt?, if_neg (by rw [Int64.lt_iff_toInt_lt]; exact Int.not_lt.2 hnonneg)] at hgets
    · next hempty =>
      refine hrest m ?_
      rw [entryAt?, if_neg (by rw [Int64.lt_iff_toInt_lt]; exact Int.not_lt.2 hnonneg)] at hv
      rw [hv]
      cases v <;> simp [Value.isEmpty] at hempty ⊢

/-- Above a place everything is cleared, and the mark is no higher. -/
theorem scrubAbove_sweeps (top : Int64) (h : m.Swept) :
    Leads AnyFault (scrubAbove top) m fun _ m' => m'.Swept ∧
      (m.regHigh.toInt ≤ top.toInt ∧ m'.regHigh = m.regHigh ∨
        m'.regHigh = top ∧ 0 ≤ top.toInt) := by
  simp only [scrubAbove, Leads.bind_eq, Leads.get_eq]
  rcases Int.lt_or_le top.toInt m.regHigh.toInt with hlt | hle
  · have hcount : span top m.regHigh = (m.regHigh.toInt - top.toInt).toNat := rfl
    rcases Int.lt_or_le top.toInt 0 with hneg | hnonneg
    · obtain ⟨n, hn⟩ : ∃ n, span top m.regHigh = n + 1 := ⟨_, (Nat.succ_pred (by omega)).symm⟩
      rw [hn]
      simp only [scrub, Leads.bind_eq]
      exact reg_of_neg hneg
    · have htame : Tame (.clearFrom 0) (scrub top (span top m.regHigh)) := scrub_tame _ _ id
      refine ((htame m).and (scrub_clears _ _)).mono ?_
      rintro _ m₁ ⟨hworks, hclears⟩
      rw [if_pos (Int64.lt_iff_toInt_lt.2 hlt)]
      refine ⟨fun r v hr hv => ?_, .inr ⟨rfl, hnonneg⟩⟩
      have hr : top.toInt ≤ r := hr
      rcases Int.lt_or_le r m.regHigh.toInt with hbelow | habove
      · exact Option.some.inj (hv.symm.trans (hclears r hr (by omega)))
      · rcases hworks.regs r with heq | ⟨_, hj, -⟩ | ⟨-, hempty⟩
        · exact h r v habove (heq ▸ hv)
        · exact hj.elim
        · exact Option.some.inj (hv.symm.trans hempty)
  · have hcount : span top m.regHigh = 0 := by
      rw [span]
      omega
    have hkeep : ¬top < m.regHigh := by
      rw [Int64.lt_iff_toInt_lt]
      exact Int.not_lt.2 hle
    simp only [hcount, scrub, Leads.pure_eq, if_neg hkeep]
    exact ⟨h, .inl ⟨hle, trivial⟩⟩

/-- The end of an instruction keeps the mark where it is, or puts it above the running window. -/
theorem concludeStep_sweeps (h : m.Swept) :
    Leads AnyFault concludeStep m fun _ m' => m'.Swept ∧
      (m.regHigh.toInt ≤ m'.regHigh.toInt ∨ ∃ c, m.context.code = some c ∧
        0 ≤ (m.context.base + c.block.registers).toInt ∧
        (m.context.base + c.block.registers).toInt ≤ m'.regHigh.toInt) := by
  have hend : ∀ m₁, m₁.Swept → Leads AnyFault (do
      if (← get).pending.isNone then return false
      unwindTo (← get).context.entry
      return true) m₁ fun _ m' => m'.Swept ∧ m₁.regHigh.toInt ≤ m'.regHigh.toInt := by
    intro m₁ h₁
    simp only [Leads.bind_eq, Leads.get_eq]
    split
    · exact ⟨h₁, Int.le_refl _⟩
    · simp only [Leads.bind_eq, Leads.get_eq, Leads.pure_eq]
      refine (unwindTo_steers_size _).mono ?_
      rintro _ m₂ ⟨h₂, -⟩
      exact ⟨h₁.alters h₂.alters id fun _ hj => hj.elim, h₂.alters.high.resolve_left id⟩
  simp only [Leads.bind_eq, Leads.get_eq] at hend
  simp only [concludeStep, Leads.bind_eq, Leads.get_eq]
  split
  · simp only [currentSize, Leads.bind_eq, Leads.modify_eq, Leads.get_eq, Leads.pure_eq]
    refine (currentCode_leads fun c hc => ?_).forget
    refine Leads.mono (scrubAbove_sweeps (m := { m with jumped := false }) _ h) ?_
    rintro _ m₁ ⟨h₁, hmark⟩
    refine (hend m₁ h₁).mono ?_
    rintro _ m₂ ⟨h₂, hle⟩
    refine ⟨h₂, ?_⟩
    rcases hmark with ⟨-, heq⟩ | ⟨heq, hnonneg⟩
    · exact .inl (Int.le_trans (Int.le_of_eq (congrArg Int64.toInt heq).symm) hle)
    · exact .inr ⟨c, hc, hnonneg, Int.le_trans (Int.le_of_eq (congrArg Int64.toInt heq).symm) hle⟩
  · exact (hend m h).mono fun _ _ h₁ => ⟨h₁.1, .inl h₁.2⟩

/-! ### Stores below the mark -/

end Machine

/-- Registers in use when an instruction has been executed: those below the mark, or those up
to the end of the window that a call passes. -/
def Inst.extent (i : Inst) (m : Machine) : Int :=
  match i.argc? with
  | none => m.regHigh.toInt
  | some argc => (m.context.base + i.a + (argc + 2)).toInt

namespace Machine

variable {P : Permit} {m m₁ m' a : Machine} {ph ph' : Phase} {owned : List Value}

/-- The next instruction stores below the mark, or, if it calls, in the window it passes. -/
def Covered (m : Machine) : Prop :=
  ∀ i, m.control.next? = some i → ∀ j, (i.permit m.fetched).stores j → j.toInt < i.extent m

def isCovered (m : Machine) : Bool :=
  match m.control.next? with
  | none => true
  | some i => (i.targets m.context.base).all (fun j => j.toInt < i.extent m) &&
      (i.op != .setOuter || match outerBase i.c m.fetched with
        | .ok (some up) _ => (up + i.b).toInt < i.extent m
        | _ => true)

theorem Covered.of_check (h : m.isCovered) : m.Covered := by
  intro i hi j hj
  simp only [isCovered, hi, Bool.and_eq_true, List.all_eq_true, decide_eq_true_eq, Bool.or_eq_true,
    bne_iff_ne] at h
  rcases hj with hj | ⟨hop, up, hup, rfl⟩
  · exact h.1 j hj
  · have houter := h.2.resolve_left fun hne => hne hop
    rw [hup] at houter
    exact of_decide_eq_true houter

/-- What an instruction may do keeps the mark. -/
theorem Covered.alters (h : m.Covered) (hs : m.Swept) {i : Inst} (hi : m.control.next? = some i)
    (ha : Alters (i.permit m.fetched) m.fetched m')
    (hreaches : ∀ argc, i.argc? = some argc →
      (m.context.base + i.a + (argc + 2)).toInt ≤ m'.regHigh.toInt ∨ m'.regs = m.regs) :
    m'.Swept ∧ m.regHigh.toInt ≤ m'.regHigh.toInt := by
  have hhigh : m.regHigh.toInt ≤ m'.regHigh.toInt := ha.high.resolve_left id
  refine ⟨?_, hhigh⟩
  have hswept : m.fetched.Swept := hs
  have hextent : (∀ j, (i.permit m.fetched).stores j → j.toInt < m'.regHigh.toInt) → m'.Swept :=
    hswept.alters ha id
  have hcovered := h i hi
  unfold Inst.extent at hcovered
  split at hcovered
  · exact hextent fun j hj => Int.lt_of_lt_of_le (hcovered j hj) hhigh
  · next argc hargc =>
    rcases hreaches argc hargc with htop | hregs
    · exact hextent fun j hj => Int.lt_of_lt_of_le (hcovered j hj) htop
    · intro r v hr hv
      exact hs r v (Int.le_trans hhigh hr) (hregs ▸ hv)

end Machine

/-! ### Contexts with a register -/

def Context.Sized (x : Context) : Prop := ∃ c, x.code = some c ∧ 0 < c.block.registers.toInt

namespace Control

variable {c c' : Control} {ph ph' : Phase}

/-- An exception goes somewhere or it becomes pending. -/
theorem deliver_stays (h : c.deliver = some c') : c'.pending = c.pending ∨ Stays c c' := by
  unfold deliver at h
  split at h
  · obtain ⟨c₁, h₁, h₂⟩ := Option.bind_eq_some_iff.1 h
    exact .inl ((resume_slots h₂).pending.trans (popUntil_slots h₁).pending)
  · split at h
    · exact .inl (resume_slots h).pending
    · cases h
      exact .inr ⟨rfl, rfl⟩

theorem raise_stays {e : ClassId} {message : Value} (h : c.raise e message = some c') :
    c'.pending = c.pending ∨ Stays c c' := by
  obtain ⟨e', message', hd⟩ := raise_eq_deliver h
  exact deliver_stays (c := c.inFlight e' message') hd

theorem Move.stays {op : Opcode} (h : c.Move op .same c') :
    c'.pending = c.pending ∨ Stays c c' := by
  cases h with
  | call hop hcall =>
    cases hcall with
    | deed hd =>
      rcases hd with rfl | ⟨base, code, targetClass, rfl⟩ | ⟨e, message, hr⟩
      · exact .inl rfl
      · exact .inl rfl
      · exact raise_stays hr
  | resume htop hr => exact .inl (resume_slots hr).pending
  | back => exact .inl (pop_slots _ _).pending
  | _ => exact .inr ⟨rfl, rfl⟩

/-- Only a part that starts a pass makes one wait. -/
theorem Turn.waiting (h : Turn ph c ph' c') (hph : ph = .ready → ph' ≠ .ready) :
    c'.suspended ⊆ c.suspended := by
  have hsuspended := h.suspended
  cases h with
  | entered => exact absurd rfl (hph rfl)
  | resumed =>
    obtain ⟨s, hs⟩ := hsuspended
    exact fun t ht => hs ▸ List.mem_cons_of_mem s ht
  | _ => exact fun t ht => hsuspended ▸ ht

/-- Passes that wait have a register, and so does one that is about to end. -/
structure Roomy (ph : Phase) (c : Control) : Prop where
  waiting : ∀ s ∈ c.suspended, ∀ x made w duties,
    s.duties = .construct x made w :: duties → x.Sized
  raised : ph = .settling → c.pending ≠ none → c.context.Sized

theorem Turn.roomy (ht : Turn ph c ph' c') (hc : Standing ph c)
    (hplain : ∀ s ∈ c.suspended, ∃ x made w duties, s.duties = .construct x made w :: duties ∧
      ∀ d ∈ duties, IsPlain d)
    (hsized : ∀ i, c.next? = some i → c.context.Sized) (h : Roomy ph c) : Roomy ph' c' := by
  cases ht with
  | same hi hmove =>
    refine ⟨hmove.suspended_of_same ▸ h.waiting, fun _ hpending => ?_⟩
    rcases hmove.stays with heq | hstays
    · exact absurd (heq.trans hc.2) hpending
    · rw [Context.Sized, hstays.2]
      exact hsized _ hi
  | entered hi hmove =>
    obtain ⟨x, made, w, duties, base, argc, hx, -, rfl⟩ := hmove.eq_enter
    refine ⟨fun s hs y made' w' duties' hd => ?_, nofun⟩
    rcases List.mem_cons.1 hs with rfl | hs
    · cases hd
      have hcode : x.code = c.context.code := congrArg (·.code) hx
      rw [Context.Sized, hcode]
      exact hsized _ hi
    · exact h.waiting s hs y made' w' duties' hd
  | finished hi hmove =>
    obtain ⟨rfl, -⟩ := hmove.of_over
    exact ⟨h.waiting, nofun⟩
  | settled => exact ⟨h.waiting, nofun⟩
  | unwound hpending hu => exact ⟨(popUntil_samePass hu).suspended ▸ h.waiting, nofun⟩
  | @resumed _ _ s rest hs hr =>
    refine ⟨fun s' hs' => ?_, fun _ hpending => ?_⟩
    · rw [suspended_of_resumePass hr] at hs'
      exact h.waiting s' (hs ▸ List.mem_cons_of_mem _ hs')
    · obtain ⟨x, made, w, duties, hd, hplain⟩ := hplain s (hs ▸ List.mem_cons_self)
      have hx := h.waiting s (hs ▸ List.mem_cons_self) x made w duties hd
      rw [Control.resumePass, hd] at hr
      obtain ⟨c₁, h₁, h₂⟩ := Option.bind_eq_some_iff.1 hr
      rw [endDuties_of_plain hplain] at h₂
      cases h₂
      simp only [endDuty] at h₁
      split at h₁
      · rcases raise_stays h₁ with heq | hstays
        · exact absurd heq hpending
        · rw [Context.Sized, hstays.2]
          exact hx
      · next hnone =>
        cases h₁
        exact absurd hnone hpending

end Control

/-! ### Runs -/

namespace Machine

variable {P : Permit} {m m₁ m' a : Machine} {ph ph' : Phase} {owned : List Value}

/-- The registers that suspended passes wait for are below the mark. -/
def Reserved (m : Machine) : Prop :=
  ∀ s ∈ m.suspended, ∀ x made w duties, s.duties = .construct x made w :: duties →
    w.base.toInt < m.regHigh.toInt

theorem Reserved.mono (h : m.Reserved) (hs : m'.control.suspended ⊆ m.control.suspended)
    (hle : m.regHigh.toInt ≤ m'.regHigh.toInt) : m'.Reserved :=
  fun s hmem x made w duties hd => Int.lt_of_lt_of_le (h s (hs hmem) x made w duties hd) hle

/-- Nothing is above the mark, unless there is nothing left to execute. -/
structure Clear (ph : Phase) (m : Machine) : Prop where
  floored : m.Floored
  roomy : m.control.Roomy ph
  clean : (ph = .ready → m.control.next? ≠ none) → m.Swept ∧ m.Reserved

/-- The register of its receiver is one that a call stores into. -/
theorem permit_receiver {i : Inst} (hargc : i.argc? ≠ none) :
    (i.permit m).stores (m.context.base + i.a) := by
  refine permit_stores ?_
  obtain ⟨op, a, b, c⟩ := i
  cases op <;> simp [Inst.argc?, Inst.targets] at hargc ⊢

/-- A pass waits for a register below the mark that its constructor pass has set. -/
theorem Clear.settle {c : Code} (h : Clear .settling m) (hpos : 0 < c.block.registers.toInt)
    (hnonneg : 0 ≤ (m.context.base + c.block.registers).toInt)
    (hbase : 0 ≤ m.context.base.toInt)
    (htop : (m.context.base + c.block.registers).toInt ≤ m'.regHigh.toInt)
    (hs : m'.control.suspended ⊆ m.control.suspended) : m'.Reserved := by
  intro s hmem x made w duties hd
  have hlow : w.base.toInt ≤ m.context.base.toInt := h.floored.le_base (hs hmem) hd
  have hsum := toInt_add_of_nonneg hbase (Int.le_of_lt hpos) hnonneg
  omega

theorem Advance.clear (h : Advance ph m ph' m') (hm : Steady ph owned m) (ho : m.Orderly)
    (hv : m.Vetted) (ht : m'.Tidy) (hcovered : ph = .ready → m.Covered) (hc : Clear ph m) :
    Clear ph' m' := by
  have hturn := (h.turn hm).1
  refine ⟨h.floored hm hv ht hc.floored,
    hturn.roomy hm.standing ho.waiting (fun i hi => hv.size_pos hi) hc.roomy, fun hnext => ?_⟩
  have hready : ∀ {p}, (fetch >>= step) m = .ok p m' → ph = .ready → ∃ i,
      m.control.next? = some i ∧ Acts i m.fetched p m' ∧ m.Reserved ∧
        (Alters (i.permit m.fetched) m.fetched m' →
          m'.Swept ∧ m.regHigh.toInt ≤ m'.regHigh.toInt) := by
    intro p h hph
    obtain ⟨⟨i, hi, hacts⟩, hreaches⟩ :=
      ((fetch_step_acts hm.noProbe).and (fetch_step_reaches hm.noProbe)).of_ok h
    obtain ⟨hswept, hreserved⟩ := hc.clean fun _ => hi ▸ Option.some_ne_none i
    exact ⟨i, hi, hacts, hreserved, fun ha => (hcovered hph).alters hswept hi ha
      fun argc hargc => (hreaches i argc hi hargc).imp_left And.right⟩
  cases h with
  | same h =>
    obtain ⟨i, -, hacts, hreserved, hstep⟩ := hready h rfl
    obtain ⟨hswept, hle⟩ := hstep (Strides.alters hacts)
    exact ⟨hswept, hreserved.mono (hturn.waiting nofun) hle⟩
  | entered h =>
    obtain ⟨i, hi, ⟨argc, id, callee, made, hargc, hcon⟩, hreserved, hstep⟩ := hready h rfl
    obtain ⟨hswept, hle⟩ := hstep hcon.alters
    refine ⟨hswept, fun s hs x made' w duties hd => ?_⟩
    rw [hcon.suspended] at hs
    rcases List.mem_cons.1 hs with rfl | hs
    · cases hd
      have hstored := hcovered rfl i hi _ (permit_receiver (hargc ▸ Option.some_ne_none argc))
      simp only [Inst.extent, hargc] at hstored
      exact Int.lt_of_lt_of_le hstored hcon.top
    · exact Int.lt_of_lt_of_le (hreserved s hs x made' w duties hd) hle
  | finished h =>
    obtain ⟨i, -, hacts, hreserved, hstep⟩ := hready h rfl
    obtain ⟨hswept, hle⟩ := hstep (Works.toAlters hacts)
    exact ⟨hswept, hreserved.mono (hturn.waiting nofun) hle⟩
  | settled h =>
    obtain ⟨hswept, hreserved⟩ := hc.clean nofun
    obtain ⟨hswept', hmark⟩ := (concludeStep_sweeps hswept).of_ok h
    refine ⟨hswept', ?_⟩
    rcases hmark with hle | ⟨c, hcode, hnonneg, htop⟩
    · exact hreserved.mono (hturn.waiting nofun) hle
    · obtain ⟨-, -, hcontrol⟩ := (concludeStep_ledger (hm.books nofun)).of_ok h
      obtain ⟨i, hi⟩ := Option.ne_none_iff_exists'.1 (hnext rfl)
      rw [hcontrol] at hi
      obtain ⟨c', hcode', hpos⟩ := hv.size_pos hi
      cases hcode.symm.trans hcode'
      exact hc.settle hpos hnonneg hv.base_nonneg htop (hturn.waiting nofun)
  | unwound h =>
    obtain ⟨hswept, hreserved⟩ := hc.clean nofun
    obtain ⟨hswept', hmark⟩ := (concludeStep_sweeps hswept).of_ok h
    refine ⟨hswept', ?_⟩
    rcases hmark with hle | ⟨c, hcode, hnonneg, htop⟩
    · exact hreserved.mono (hturn.waiting nofun) hle
    · obtain ⟨-, hpending, -⟩ := (concludeStep_ledger (hm.books nofun)).of_ok h
      obtain ⟨c', hcode', hpos⟩ := hc.roomy.raised rfl hpending
      cases hcode.symm.trans hcode'
      exact hc.settle hpos hnonneg hv.base_nonneg htop (hturn.waiting nofun)
  | @resumed _ _ s rest hs h =>
    obtain ⟨hswept, hreserved⟩ := hc.clean nofun
    obtain ⟨x, made, w, _, callBase, callee, hawaits⟩ := ho s (hs ▸ List.mem_cons_self)
    obtain ⟨hgoes, -⟩ := (resumePass_goes hs hawaits).of_ok h
    have hle : m.regHigh.toInt ≤ m'.regHigh.toInt := hgoes.alters.high.resolve_left id
    refine ⟨hswept.alters hgoes.alters id fun j hj => ?_, hreserved.mono (hturn.waiting nofun) hle⟩
    obtain rfl : j = w.base := hj
    exact Int.lt_of_lt_of_le (hreserved s (hs ▸ List.mem_cons_self) _ _ _ _ hawaits.duties) hle

/-- A part of a run in which instructions store below the mark. -/
def StaysCovered (ph : Phase) (m : Machine) (_ : Phase) (_ : Machine) : Prop :=
  ph = .ready → m.Covered

theorem Course.clear (h : Course StaysCovered a ph m) (ha : Reachable true owned a)
    (hstart : Clear .ready a) : Clear ph m := by
  induction h with
  | began => exact hstart
  | next hcourse hok hadvance ih =>
    exact hadvance.clear (hcourse.steady ha) (hcourse.tidy ha).orderly (hcourse.vetted ha)
      ((hcourse.next hok hadvance).tidy ha) hok ih

/-! ### Units -/

def Emptied (m : Machine) : Prop := ∀ v ∈ m.regs, v = .empty

theorem Emptied.alters (h : m.Emptied) (ha : Alters P m m') (hstores : ∀ j, ¬P.stores j) :
    m'.Emptied := by
  intro v hv
  obtain ⟨r, hr, rfl⟩ := Array.mem_iff_getElem.1 hv
  have hsize : r < m.regs.size := ha.size ▸ hr
  have hbefore : m.regs[r]? = some .empty := by
    rw [Array.getElem?_eq_getElem hsize]
    exact congrArg some (h _ (Array.getElem_mem hsize))
  have hafter := ha.empty hstores hbefore
  rw [Array.getElem?_eq_getElem hr] at hafter
  exact Option.some.inj hafter

theorem Emptied.swept (h : m.Emptied) : m.Swept :=
  fun _ _ _ hv => h _ (Array.mem_of_getElem? hv)

theorem create_emptied {c : Config} (h : create c = .ok m) : m.Emptied := by
  have hblank : (blank (effective c)).Emptied := fun v hv => (Array.mem_replicate.1 hv).2
  exact hblank.alters (create_alters h) fun _ hj => hj

/-- A unit starts with the main object in its first register and nothing in the others. -/
theorem enterUnit_sets (code : Code) (h : m.Emptied) :
    Leads AnyFault (enterUnit code) m fun _ m' => ∀ (r : Nat) v, m'.regs[r]? = some v →
      v = .empty ∨ r = 0 ∧ v = m.topSelf := by
  have hgets : Leads AnyFault (enterUnit code) m fun _ m' =>
      entryAt? m'.regs 0 = some m.topSelf := by
    simp only [enterUnit, currentSize, currentCode, present, Leads.bind_eq, Leads.get_eq,
      Leads.modify_eq, Leads.pure_eq]
    refine (Leads.named _).mono fun _ m₁ _ => (setReg_gets 0 m.topSelf).mono fun _ m₂ h₂ => ?_
    refine Leads.mono ((enterWindow_clerical _ _).tame (P := .nothing) _) fun _ m₃ h₃ => ?_
    rw [h₃.regs_eq (fun _ h => h) fun _ h => h]
    exact h₂
  refine ((enterUnit_leads code).and hgets).mono ?_
  rintro _ m' ⟨⟨hgoes, -⟩, hfirst⟩ r v hv
  rcases hgoes.alters.regs r with heq | ⟨j, rfl, hj⟩ | ⟨⟨_, hj, -⟩, -⟩
  · exact .inl (h v (Array.mem_of_getElem? (heq ▸ hv)))
  · have hzero : r = 0 := by
      have : (0 : Int64).toInt = 0 := rfl
      omega
    subst hzero
    exact .inr ⟨rfl, Option.some.inj (hv.symm.trans hfirst)⟩
  · exact hj.elim

theorem Emptied.enter {p : Program} (h : m.Emptied) (hm : Reachable false owned m)
    (haborted : ¬m.aborted) (hpending : m.pending = none) (hvalid : p.defect? = none)
    (he : enterUnit p.root m = .ok () m') : Clear .ready m' := by
  obtain ⟨hgoes, hcontext, -, hs, htop⟩ := (enterUnit_leads _).of_ok he
  have hnil : m'.suspended = [] := hs.trans (hm.sane.idle nofun).1
  have hnil' : m'.control.suspended = [] := hnil
  refine ⟨by rw [Floored, hnil']; trivial, ⟨by rw [hnil']; exact nofun, nofun⟩, fun hnext => ?_⟩
  refine ⟨h.swept.alters hgoes.alters id fun j hj => ?_, by rw [Reserved, hnil]; exact nofun⟩
  obtain rfl : j = 0 := hj
  obtain ⟨i, hi⟩ := Option.ne_none_iff_exists'.1 (hnext rfl)
  obtain ⟨c, hc, hpos⟩ := Machine.Reachable.vetted (hm.enter p haborted hpending hvalid he) |>.size_pos hi
  rw [hcontext] at hc
  cases hc
  exact Int.lt_of_lt_of_le hpos htop

theorem leaveUnit_empties {v : Value} (h : m.Swept) :
    Leads AnyFault (leaveUnit v) m fun _ m' => m'.Emptied := by
  simp only [leaveUnit_eq, Leads.bind_eq, Leads.get_eq]
  refine (dropAllMarkers_steers (l := [])).mono fun _ m₁ ⟨h₁, _⟩ => ?_
  have hswept₁ : m₁.Swept := h.alters h₁.alters id fun _ hj => hj.elim
  refine (scrubAbove_sweeps 0 hswept₁).mono fun _ m₂ ⟨hswept₂, hmark⟩ => ?_
  have hzero : (0 : Int64).toInt = 0 := rfl
  have hemptied₂ : m₂.Emptied := by
    intro u hu
    obtain ⟨r, hr⟩ := Array.mem_iff_getElem?.1 hu
    refine hswept₂ r u ?_ hr
    rcases hmark with ⟨hle, heq⟩ | ⟨heq, -⟩ <;> rw [heq] <;> omega
  have hanswer : ∀ m₃, m₃.Emptied → Leads AnyFault (answer v) m₃ fun _ m' => m'.Emptied := by
    intro m₃ h₃
    simp only [answer, Leads.bind_eq, Leads.get_eq]
    split
    · simp only [Leads.bind_eq, Leads.pure_eq]
      exact (release_tame (P := .nothing) v m₃).mono fun _ _ h₄ => h₃.alters h₄.toAlters fun _ hj => hj
    · exact h₃
  split
  · rw [Leads.bind_eq]
    exact (clearException_goes (P := .nothing)).mono fun _ m₃ h₃ =>
      hanswer m₃ (hemptied₂.alters h₃.alters fun _ hj => hj)
  · exact hanswer m₂ hemptied₂

/-- Instructions store below the mark. -/
def neatness : Discipline Unit :=
  .onValid (fun _ m => m.Covered) () fun _ _ _ => ()

/-- The machines of a host that runs valid code whose instructions store below the mark. -/
abbrev Neat (running : Bool) (owned : List Value) (m : Machine) : Prop :=
  Disciplined neatness running owned () m

/-- Nothing is above the mark while a unit runs, and nothing is left when none does. -/
theorem Neat.clean {running : Bool} (h : Neat running owned m) :
    match running with
    | true => Clear .ready m
    | false => m.Emptied := by
  unfold Neat at h
  generalize () = notes at h
  induction h with
  | new _ h => exact create_emptied h
  | enter p hm haborted hpending hvalid h ih => exact ih.enter hm.reachable haborted hpending hvalid h
  | tick hm hcovered h ih =>
    exact (Course.began.tick (fun _ _ _ _ hn hph => hn hph ▸ hcovered) hm.reachable h).clear
      hm.reachable ih
  | leave hm hcovered ht h ih =>
    obtain ⟨b, hcourse, -, rfl⟩ := Course.began.tick_end (fun _ _ _ _ hn hph => hn hph ▸ hcovered)
      (Machine.Reachable.steady hm.reachable) ht
    have hswept := ((hcourse.clear hm.reachable ih).clean nofun).1
    exact (leaveUnit_empties (m := b.retired) hswept).of_ok h
  | release _ _ h ih =>
    exact ih.alters ((release_tame (P := .nothing) _ _).of_ok h).toAlters fun _ hj => hj
  | clearPending _ h ih =>
    exact ih.alters ((clearPending_goes (P := .nothing)).of_ok h).alters fun _ hj => hj

theorem Neat.runUnit {p : Program} (ticks : Nat) (h : Neat false owned m) (haborted : ¬m.aborted)
    (hpending : m.pending = none) (hvalid : p.defect? = none)
    (hcovered : ∀ k < ticks, ∀ m₁, (enterUnit p.root *> Machine.run k) m = .ok none m₁ →
      m₁.Covered) :
    Leads AnyFault (Machine.runUnit ticks p.root) m fun r m' =>
      r = .error .unfinished ∨ Neat false (resultHand r ++ owned) m' := by
  refine runUnit_leads (I := Neat true owned) ticks ?_ ?_ hcovered ?_
  · exact (Leads.named _).mono fun _ _ h₁ => h.enter p haborted hpending hvalid h₁
  · intro m₁ hm₁ hnow
    exact (Leads.named _).mono fun r m₂ hr hnone => hm₁.tick hnow (hnone ▸ hr)
  · intro m₁ v m₂ hm₁ hnow ht
    exact (Leads.named _).mono fun r m₃ h₃ => hm₁.leave hnow ht h₃

/-- Only a unit that was run gives a value or an unhandled exception. -/
theorem execute_runs {p : Program} {ticks : Nat} {r : Except ExecuteError Value}
    (hexec : execute ticks p m = .ok r m')
    (hr : (∃ v, r = .ok v) ∨ ∃ c message, r = .error (.unhandled c message)) :
    ¬m.aborted ∧ m.pending = none ∧ p.defect? = none := by
  have hleads : Leads AnyFault (execute ticks p) m fun r _ =>
      (∃ v, r = .ok v) ∨ (∃ c message, r = .error (.unhandled c message)) →
        ¬m.aborted ∧ m.pending = none ∧ p.defect? = none := by
    by_cases haborted : m.aborted
    · simp [execute, Leads.bind_eq, Leads.get_eq, Leads.pure_eq, haborted]
    · cases hpending : m.pending with
      | some c => simp [execute, Leads.bind_eq, Leads.get_eq, Leads.pure_eq, haborted, hpending]
      | none =>
        cases hvalid : p.defect? with
        | some d =>
          simp [execute, Leads.bind_eq, Leads.get_eq, Leads.pure_eq, haborted, hpending, hvalid]
        | none => exact .intro (fun _ _ _ _ => ⟨haborted, rfl, rfl⟩) fun _ _ _ => trivial
  exact hleads.of_ok hexec hr

end Machine

open Machine

/-- Units leave no register behind. When all units store below the mark, every register is empty
after each execution that gives a value or an unhandled exception, and the next unit starts with
the main object in its first register and nothing in the others. -/
theorem registers_swept {owned : List Value} {m m' : Machine} {p : Program} {ticks : Nat}
    {r : Except ExecuteError Value} (h : Neat false owned m)
    (hcovered : ∀ k < ticks, ∀ m₁, (enterUnit p.root *> run k) m = .ok none m₁ → m₁.Covered)
    (hexec : execute ticks p m = .ok r m')
    (hr : (∃ v, r = .ok v) ∨ ∃ c message, r = .error (.unhandled c message)) :
    Neat false (resultHand r ++ owned) m' ∧ (∀ v ∈ m'.regs, v = .empty) ∧
      ∀ q m'', enterUnit q m' = .ok () m'' → ∀ (j : Nat) v, m''.regs[j]? = some v →
        v = .empty ∨ j = 0 ∧ v = m'.topSelf := by
  obtain ⟨haborted, hpending, hvalid⟩ := execute_runs hexec hr
  have hunit := h.runUnit ticks haborted hpending hvalid hcovered
  have hneat : Leads AnyFault (execute ticks p) m fun r m' =>
      (∃ v, r = .ok v) ∨ (∃ c message, r = .error (.unhandled c message)) →
        Neat false (resultHand r ++ owned) m' := by
    rw [execute_iff haborted hpending hvalid]
    refine hunit.imp (fun e _ _ => ?_) fun r m₁ hm₁ hr => hm₁.resolve_left ?_
    · cases e with
      | fatal cause => rintro (⟨_, ⟨⟩⟩ | ⟨_, _, ⟨⟩⟩)
      | _ => trivial
    · rintro rfl
      rcases hr with ⟨_, ⟨⟩⟩ | ⟨_, _, ⟨⟩⟩
  have hm' := hneat.of_ok hexec hr
  exact ⟨hm', hm'.clean, fun q m'' hq => (enterUnit_sets q hm'.clean).of_ok hq⟩

/-- Code that calls a method with a smaller window and then loads a literal into the register `r`. -/
def helped (r : Int64) : Program where
  blocks := #[{
    registers := 10, symbols := #["helper"], pool := #[.ofText "left over"], children := #[1],
    code := #[⟨.targetClass, 1, 0, 0⟩, ⟨.makeBlock, 2, 0, 0⟩, ⟨.defineMethod, 1, 0, 0⟩,
      ⟨.loadSelf, 1, 0, 0⟩, ⟨.send, 1, 0, 0⟩, ⟨.loadLiteral, r, 0, 0⟩, ⟨.loadNil, 1, 0, 0⟩,
      ⟨.leave, 1, 0, 0⟩] }, {
    registers := 2, code := #[⟨.leave, 1, 0, 0⟩] }]

/-- The literal is stored below the mark that the method has left. -/
theorem registers_swept_helped :
    ∃ m m', Neat false [] m ∧ execute 9 (helped 2) m = .ok (.ok .nil) m' ∧
      ∀ v ∈ m'.regs, v = .empty := by
  have hrun : ∃ m ∈ (create {}).toOption, ¬m.aborted ∧ m.pending = none ∧
      (helped 2).stays isCovered 9 m ∧
      Leads NoFault (runUnit 9 (helped 2).root) m fun r _ => r = .ok .nil := by decide +kernel
  have hvalid : (helped 2).defect? = none := Program.defect?_eq_none (by decide +kernel)
  obtain ⟨m, hm, haborted, hpending, hstays, hunit⟩ := hrun
  have hleads : Leads NoFault (execute 9 (helped 2)) m fun r _ => r = .ok .nil := by
    rw [execute_iff haborted hpending hvalid]
    exact hunit.imp (fun _ _ hfault => hfault.elim) fun _ _ hr => hr
  have hneat : Neat false [] m := .new trivial (create_of_toOption hm)
  obtain ⟨_, m', hexec, rfl⟩ := hleads.exists_ok
  refine ⟨m, m', hneat, hexec, ?_⟩
  exact (registers_swept hneat (fun k hk _ hrun => .of_check (Program.check_of_stays hstays hk hrun))
    hexec (.inl ⟨_, rfl⟩)).2.1

/-- The literal is stored above the mark, and stays. -/
theorem register_left_helped :
    ∃ m m' s, Reachable false [] m ∧ (helped 9).defect? = none ∧
      execute 9 (helped 9) m = .ok (.ok .nil) m' ∧ m'.regs[9]? = some (.string s) := by
  have hrun : ∃ m ∈ (create {}).toOption, ¬m.aborted ∧ m.pending = none ∧
      Leads NoFault (runUnit 9 (helped 9).root) m fun r m' => r = .ok .nil ∧
        ∃ s ∈ (m'.regs[9]?.bind Value.ref?), m'.regs[9]? = some (.string s) := by decide +kernel
  have hvalid : (helped 9).defect? = none := Program.defect?_eq_none (by decide +kernel)
  obtain ⟨m, hm, haborted, hpending, hunit⟩ := hrun
  have hleads : Leads NoFault (execute 9 (helped 9)) m fun r m' => r = .ok .nil ∧
      ∃ s ∈ (m'.regs[9]?.bind Value.ref?), m'.regs[9]? = some (.string s) := by
    rw [execute_iff haborted hpending hvalid]
    exact hunit.imp (fun _ _ hfault => hfault.elim) fun _ _ hr => hr
  obtain ⟨_, m', hexec, rfl, s, -, hs⟩ := hleads.exists_ok
  exact ⟨m, m', s, .new (create_of_toOption hm), hvalid, hexec, hs⟩

end ObjectMachine
