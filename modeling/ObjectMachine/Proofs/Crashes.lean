import ObjectMachine.Proofs.Conduct
import ObjectMachine.Proofs.Custody

/-! Executions that cannot crash their host. A program is modest when it is valid, its blocks
have a register besides their receiver, and neither its windows nor its register operands nor
its argument counts come near the largest number; argument counts are not negative either. A
run is prudent when it takes no exception that an ensure body has still to hand on, and reaches
no outer scope above the running window. The prudent execution of a modest program ends with
a value, an unhandled exception or a fatal fault. Validity alone does not suffice for this. -/

namespace ObjectMachine

/-! ### Modest programs -/

/-- Register operands and argument counts that leave room for sums. -/
def Inst.isModest (i : Inst) : Bool :=
  i.operands.all (fun x => x.1 != .register || x.2.toInt ≤ 2 ^ 62) &&
    i.argc?.all fun n => 0 ≤ n.toInt && n.toInt + 2 ≤ 2 ^ 62

/-- A valid block among `count` others. -/
def Block.isModest (count : Nat) (b : Block) : Bool :=
  b.defect?.isNone && 2 ≤ b.registers.toInt && b.registers.toInt ≤ 2 ^ 62 &&
    b.code.size < 2 ^ 63 && b.code.all Inst.isModest && b.children.all (· < count)

def Program.isModest (p : Program) : Bool :=
  0 < p.blocks.size && p.blocks.all (Block.isModest p.blocks.size)

theorem Block.Refers.admits {b : Block} {span : Int} {n : Int64} {kind : OperandKind}
    (h : b.Refers span n.toInt kind) : b.Admits span n kind := by
  cases kind with
  | label => exact h.1
  | _ => exact h

theorem Inst.sturdy_of_modest {b : Block} {i : Inst} (hb : b.Passes) (hi : i ∈ b.code)
    (h : i.isModest) : i.Sturdy b := by
  simp only [isModest, Bool.and_eq_true, List.all_eq_true, Option.all_eq_true, Bool.or_eq_true,
    bne_iff_ne, decide_eq_true_eq] at h
  refine ⟨fun x hx => ?_, fun n hn => h.2 n hn⟩
  obtain ⟨⟨kind, n⟩, slot⟩ := x
  have hsmall := h.1 _ (List.fst_mem_of_mem_zipIdx hx)
  have hspan : (if slot = 0 then i.op.registerSpan.toInt else 1) = i.span slot := by
    rw [← i.toInt_registerSpan slot]
    split <;> rfl
  have hcases := i.span_cases slot
  dsimp only
  rw [hspan]
  rcases hb.operands i hi slot kind n (List.mem_zipIdx_iff_getElem?.1 hx) with hrefers | hoverflows
  · exact hrefers.admits
  · cases kind with
    | register =>
      have hn : n.toInt ≤ 2 ^ 62 := hsmall.resolve_left fun hne => hne rfl
      simp only [Overflows] at hoverflows
      omega
    | _ => exact hoverflows.elim

theorem Block.sturdy_of_modest {b : Block} {count : Nat} (h : b.isModest count) :
    b.Sturdy count := by
  simp only [isModest, Bool.and_eq_true, decide_eq_true_eq, Array.all_eq_true_iff_forall_mem,
    Option.isNone_iff_eq_none] at h
  obtain ⟨⟨⟨⟨⟨hvalid, htwo⟩, hsmall⟩, hshort⟩, hinsts⟩, hchildren⟩ := h
  exact ⟨htwo, hsmall, by omega,
    fun i hi => Inst.sturdy_of_modest (defect?_eq_none.1 hvalid) hi (hinsts i hi), hchildren⟩

namespace Program

variable {p : Program}

theorem sturdy_of_modest (h : p.isModest) : p.root.Sturdy := by
  simp only [isModest, Bool.and_eq_true, decide_eq_true_eq, Array.all_eq_true_iff_forall_mem] at h
  exact ⟨h.1, fun b hb => Block.sturdy_of_modest (h.2 b hb)⟩

theorem valid_of_modest (h : p.isModest) : p.defect? = none := by
  simp only [isModest, Bool.and_eq_true, decide_eq_true_eq, Array.all_eq_true_iff_forall_mem] at h
  refine defect?_eq_none (List.all_eq_true.2 fun b hb => ?_)
  have hb := h.2 b (Array.mem_toList_iff.1 hb)
  simp only [Block.isModest, Bool.and_eq_true] at hb
  exact hb.1.1.1.1.1

end Program

namespace Machine

variable {size : Nat} {owned : List Value} {m m₁ m' : Machine} {v : Value}

/-! ### Units of code -/

theorem Fit.zero_inFile (h : m.Fit size) : InFile size 0 := h.frameWindow none

theorem enterUnit_fits {code : Code} (h : m.Fit size) (hcode : code.Sturdy) :
    Leads Contained (enterUnit code) m fun _ m' => m'.Fit size ∧ m'.context.Fits size := by
  have hmain : m.topSelf.Within m.memory.heap.size := h.roots _ (by simp [roots])
  simp only [enterUnit, Leads.bind_eq, Leads.get_eq, Leads.modify_eq]
  refine (acquire_still h hmain).mono fun _ m₁ h₁ => ?_
  refine (setReg_still h₁.fit h.zero_inFile (hmain.mono h₁.grows)).mono fun _ m₂ h₂ => ?_
  refine currentSize_contained rfl ?_
  have h₃ : Fit size { m₂ with
      context := { m₂.context with
        base := 0, code := some code, pc := 0, targetClass := some .object
        entry := m₂.chain.head? }
      jumped := false } := h₂.fit.turn rfl
  refine Leads.mono (enterWindow_still h₃) ?_
  rintro _ m₄ ⟨h₄, hlow, htop⟩
  refine ⟨h₄.fit, ?_⟩
  have hzero : (0 : Int64).toInt = 0 := rfl
  rw [Int64.zero_add] at htop
  rw [Context.Fits, h₄.context]
  exact ⟨hlow, Int.le_of_eq hzero.symm, code, rfl, hcode, by dsimp only; omega⟩

/-- What a unit that has ended can answer. -/
def Answered (r : Except ExecuteError Value) : Prop :=
  (∃ v, r = .ok v) ∨ (∃ c message, r = .error (.unhandled c message)) ∨
    ∃ cause, r = .error (.fatal cause)

theorem answer_fits (h : m.Fit size) (hv : v.Within m.memory.heap.size) :
    Leads Contained (answer v) m fun r m' => m'.Fit size ∧ Answered r := by
  simp only [answer, Leads.bind_eq, Leads.get_eq]
  split
  · next error herror =>
    obtain ⟨e, -, rfl⟩ := Option.map_eq_some_iff.1 herror
    simp only [Leads.bind_eq, Leads.pure_eq]
    exact (release_still h hv).mono fun _ _ h₁ => ⟨h₁.fit, .inr (.inl ⟨_, _, rfl⟩)⟩
  · exact ⟨h, .inl ⟨v, rfl⟩⟩

theorem leaveUnit_fits (h : m.Fit size) (hv : v.Within m.memory.heap.size) :
    Leads Contained (leaveUnit v) m fun r m' => m'.Fit size ∧ Answered r := by
  simp only [leaveUnit_eq, Leads.bind_eq, Leads.get_eq]
  refine (dropAllMarkers_moved h).mono fun _ m₁ h₁ => ?_
  refine (scrubAbove_still h₁.fit h.zero_inFile.1).mono fun _ m₂ h₂ => ?_
  have h₁₂ := h₁.trans h₂.moved
  split
  · rw [Leads.bind_eq]
    refine (clearException_moved h₂.fit).mono fun _ m₃ h₃ => ?_
    exact answer_fits h₃.fit (hv.mono (h₁₂.trans h₃).grows)
  · exact answer_fits h₂.fit (hv.mono h₁₂.grows)

theorem answer_control (v : Value) :
    Leads AnyFault (answer v) m fun _ m' => m'.control = m.control := by
  simp only [answer, Leads.bind_eq, Leads.get_eq]
  split
  · simp only [Leads.bind_eq, Leads.pure_eq]
    exact release_control v
  · rfl

/-- A unit leaves no note behind that its return settles an exception. -/
theorem leaveUnit_noted (h : m.control.context.isNoted → m.exception ≠ none) :
    Leads AnyFault (leaveUnit v) m fun _ m' => ¬m'.control.context.isNoted := by
  simp only [leaveUnit_eq, Leads.bind_eq, Leads.get_eq]
  refine dropAllMarkers_control.mono fun _ m₁ hc₁ => ?_
  refine (scrubAbove_control 0).mono fun _ m₂ hc₂ => ?_
  have hc := hc₂.trans hc₁
  split
  · rw [Leads.bind_eq]
    refine clearException_control.mono fun _ m₃ hc₃ => ?_
    refine (answer_control v).mono fun _ m₄ hc₄ => ?_
    rw [hc₄, hc₃]
    nofun
  · next hexception =>
    refine (answer_control v).mono fun _ m₃ hc₃ hnoted => ?_
    have hsame : m₂.exception = m.exception := congrArg Control.exception hc
    rw [hc₃, hc] at hnoted
    refine h hnoted ?_
    rw [← hsame]
    simpa using hexception

/-! ### New machines -/

theorem blank_fit {c : Config} (hpos : 0 < c.maxRegisters.toInt)
    (hsmall : c.maxRegisters.toInt ≤ 2 ^ 62) : (blank c).Fit c.maxRegisters.toInt.toNat := by
  have hzero : (0 : Int64).toInt = 0 := rfl
  refine ⟨Array.size_replicate, by omega, by omega, ?_, fun v hv => ?_,
    fun o ho => absurd ho (Array.not_mem_empty o), fun k hk => absurd hk (Array.not_mem_empty k),
    fun k hk => absurd hk (Array.not_mem_empty k), fun f hf => absurd hf List.not_mem_nil,
    fun d hd => absurd hd List.not_mem_nil⟩
  · show (0 : Int64).toInt ≤ _
    omega
  · refine Value.within_of_immediate ?_
    simp [roots, duties, blank] at hv
    rcases hv with ⟨-, rfl⟩ | rfl
    · rfl
    · rfl

theorem defineClasses_still (cs : List (Text × ClassId)) (h : m.Fit size) :
    Leads Contained (defineClasses cs) m fun _ m' => Still size m m' := by
  induction cs generalizing m with
  | nil => exact .refl h
  | cons x cs ih =>
    obtain ⟨name, super⟩ := x
    simp only [defineClasses, Leads.bind_eq, Leads.discard_eq]
    refine (defineClass_still h name _).mono fun _ m₁ h₁ => ?_
    exact (ih h₁.fit).mono fun _ _ h₂ => h₁.trans h₂

theorem Fit.setMain (h : m.Fit size) (hv : v.Within m.memory.heap.size) :
    Fit size { m with topSelf := v } := by
  refine ⟨h.regs, h.pos, h.small, h.high, fun x hx => ?_, h.heap, h.methods, h.frames, h.nodes,
    h.duties⟩
  have hroots := h.roots x
  simp only [Machine.roots, Machine.duties, List.mem_append, List.mem_cons, List.not_mem_nil,
    or_false] at hx hroots
  rcases hx with (hx | hx | hx | rfl) | hx
  · exact hroots (.inl (.inl hx))
  · exact hroots (.inl (.inr (.inl hx)))
  · exact hroots (.inl (.inr (.inr (.inl hx))))
  · exact hv
  · exact hroots (.inr hx)

theorem bootstrap_fit (h : m.Fit size) :
    Leads Contained bootstrap m fun _ m' => m'.Fit size := by
  have hcore : ∀ x ∈ coreMethods, ∀ p, x.2.2 ≠ .probe p :=
    fun x hx => noProbe_of_coreMethods x (List.mem_append_left _ hx)
  have hdebug : ∀ x ∈ debugMethods, ∀ p, x.2.2 ≠ .probe p :=
    fun x hx => noProbe_of_coreMethods x (List.mem_append_right _ hx)
  have hend : ∀ m₁, m₁.Fit size → Leads Contained (newInstance .object) m₁ fun v m₂ =>
      Leads Contained (do
        if v.isNil then fatal .noMemoryForMain
        modify fun m => { m with topSelf := v }) m₂ fun _ m' => m'.Fit size := by
    intro m₁ h₁
    refine (newInstance_still h₁ _).mono fun v m₂ ⟨h₂, hv⟩ => ?_
    split
    · exact fatal_contained
    · exact h₂.fit.setMain hv
  simp only [bootstrap, Leads.bind_eq, Leads.discard_eq, Leads.get_eq]
  refine ((intern_clerical _).still h).mono fun _ m₁ h₁ => ?_
  refine (defineClass_still h₁.fit _ _).mono fun _ m₂ h₂ => ?_
  refine (defineClasses_still _ h₂.fit).mono fun _ m₃ h₃ => ?_
  refine ((intern_clerical _).still h₃.fit).mono fun _ m₄ h₄ => ?_
  refine ((intern_clerical _).still h₄.fit).mono fun _ m₅ h₅ => ?_
  refine ((defineNatives_clerical _ hcore).still h₅.fit).mono fun _ m₆ h₆ => ?_
  split
  · simp only [Leads.bind_eq]
    exact ((defineNatives_clerical _ hdebug).still h₆.fit).mono fun _ m₇ h₇ => hend m₇ h₇.fit
  · rw [Leads.bind_eq]
    exact hend m₆ h₆.fit

theorem create_fit {c : Config} (hc : c.maxRegisters.toInt ≤ 2 ^ 62) (h : create c = .ok m) :
    (∃ size, m.Fit size) ∧ m.control.context.isNoted = false := by
  have hpos : 0 < (effective c).maxRegisters.toInt := by
    simp only [effective]
    split
    · decide
    · next hpos =>
      rw [Int64.le_iff_toInt_le] at hpos
      exact Int.not_le.1 hpos
  have hsmall : (effective c).maxRegisters.toInt ≤ 2 ^ 62 := by
    simp only [effective]
    split
    · decide
    · exact hc
  unfold create at h
  have hboot := bootstrap_fit (blank_fit hpos hsmall)
  have hledger := bootstrap_ledger (s := True) (blank_ledger (effective c)) rfl
  split at h
  · next m' hm' =>
    cases h
    obtain ⟨-, hcontrol⟩ := hledger.of_ok hm'
    refine ⟨⟨_, hboot.of_ok hm'⟩, ?_⟩
    rw [hcontrol]
    rfl
  · cases h

/-! ### Prudent runs -/

/-- The next instruction takes no exception that an ensure body has still to hand on, and
reaches no outer scope above the running window. -/
structure Prudent (m : Machine) : Prop where
  takes : ∀ i, m.control.next? = some i → i.op = .takeException → ¬m.control.isAwaited
  reaches : ∀ i up m', m.control.next? = some i → i.op = .getOuter ∨ i.op = .setOuter →
    outerBase i.c m.fetched = .ok (some up) m' → up.toInt ≤ m.context.base.toInt

def isPrudent (m : Machine) : Bool :=
  match m.control.next? with
  | none => true
  | some i =>
    (i.op != .takeException || !m.control.isAwaited) &&
      (i.op != .getOuter && i.op != .setOuter || match outerBase i.c m.fetched with
        | .ok (some up) _ => up.toInt ≤ m.context.base.toInt
        | _ => true)

theorem Prudent.of_check (h : m.isPrudent) : Prudent m := by
  refine ⟨fun i hi hop => ?_, fun i up m' hi hop hup => ?_⟩
  · simp only [isPrudent, hi, hop, Bool.and_eq_true, Bool.or_eq_true, bne_self_eq_false,
      Bool.false_eq_true, false_or, Bool.not_eq_true'] at h
    simp [h.1]
  · simp only [isPrudent, hi, hup, Bool.and_eq_true, Bool.or_eq_true, bne_iff_ne,
      decide_eq_true_eq] at h
    refine h.2.resolve_left fun hne => ?_
    exact hop.elim hne.1 hne.2

/-- The code is modest and prudent, and there are not too many registers. -/
def prudence : Discipline Unit where
  configures c := c.maxRegisters.toInt ≤ 2 ^ 62
  runs p := p.isModest
  valid := Program.valid_of_modest
  allows _ m := m.Prudent
  blank := ()
  note _ _ _ := ()

/-- The machines of a host that runs modest code as long as it is prudent. -/
abbrev Guarded (running : Bool) (owned : List Value) (m : Machine) : Prop :=
  Disciplined prudence running owned () m

/-- A machine on which prudent, modest code cannot crash. -/
structure Poised (running : Bool) (m : Machine) : Prop where
  fit : ∃ size, m.Fit size ∧ (running → m.context.Fits size)
  custody : running → m.control.Custody
  idle : ¬running → ¬m.control.context.isNoted

/-- The custody of the exception sees to the returns of ensure bodies. -/
theorem Prudent.careful {i : Inst} (h : Prudent m) (hm : Reachable true owned m)
    (hcustody : m.control.Custody) (hf : fetch m = .ok i m') : Careful i m' := by
  obtain ⟨-, hi, hc⟩ := (fetch_ledger hm.sane.ledger).of_ok hf
  obtain rfl : m' = m.fetched := by
    rw [fetch_eq hi] at hf
    cases hf
    rfl
  refine ⟨fun _ hreturn => ?_, fun hop up m' hup => h.reaches i up m' hi hop hup⟩
  have hpending : m.fetched.control.pending = none := hm.pending_eq_none rfl
  have hcustody' : m.fetched.control.Custody := ⟨hcustody.held, hcustody.settled⟩
  rw [topMarker?_control] at hreturn
  exact Option.isSome_iff_ne_none.2 (hcustody'.handsOn hpending hreturn)

/-- What is known after a tick that ends a run. -/
def Over (v : Value) (m : Machine) : Prop :=
  (∃ size, m.Fit size ∧ v.Within m.memory.heap.size) ∧
    (m.control.context.isNoted → m.exception ≠ none)

theorem tick_poised (hm : Reachable true owned m) (h : Poised true m) (hprudent : m.Prudent) :
    Leads Contained tick m fun r m' =>
      match r with
      | none => Poised true m'
      | some v => Over v m' := by
  obtain ⟨size, hfit, hx⟩ := h.fit
  have hcustody := h.custody rfl
  have hsound := hm.sane.sound rfl
  have hcareful : ∀ i m', fetch m = .ok i m' → Careful i m' :=
    fun i m' hf => hprudent.careful hm hcustody hf
  refine ((tick_ticked hfit (hx rfl) hcareful).and
    (tick_ledger hm.sane.ledger fun _ => hsound.closed)).mono ?_
  rintro r m₁ ⟨⟨hmoved, hresult⟩, -, i, htick⟩
  have hkept := hcustody.tick hsound (hm.pending_eq_none rfl) htick fun hop =>
    hprudent.takes i htick.next?_eq hop
  cases r with
  | none => exact ⟨⟨size, hmoved.fit, fun _ => hmoved.place (hx rfl)⟩, fun _ => hkept, nofun⟩
  | some v => exact ⟨⟨size, hmoved.fit, hresult v rfl⟩, hkept⟩

theorem Poised.leave {r : Except ExecuteError Value} (h : Over v m)
    (hl : leaveUnit v m = .ok r m') : Poised false m' := by
  obtain ⟨⟨size, hfit, hv⟩, hnoted⟩ := h
  exact ⟨⟨size, ((leaveUnit_fits hfit hv).of_ok hl).1, nofun⟩, nofun,
    fun _ => (leaveUnit_noted hnoted).of_ok hl⟩

theorem Poised.enter {p : Program} (h : Poised false m) (hm : Reachable false owned m)
    (hp : p.isModest) (hpending : m.pending = none) :
    Leads Contained (enterUnit p.root) m fun _ m' => Poised true m' := by
  obtain ⟨size, hfit, -⟩ := h.fit
  refine ((enterUnit_fits hfit (Program.sturdy_of_modest hp)).and
    (enterUnit_ledger p.root hm.sane.ledger)).mono ?_
  rintro _ m₁ ⟨⟨hfit₁, hx₁⟩, -, hc₁⟩
  refine ⟨⟨size, hfit₁, fun _ => hx₁⟩, fun _ => ?_, nofun⟩
  rw [hc₁]
  exact .start p.root (hm.sane.idle nofun).1 (h.idle nofun) hpending

/-- A change of nothing but memory and what is pending. -/
theorem Poised.of_still (h : Poised false m) (hfit : ∀ size, m.Fit size → m'.Fit size)
    (hcontext : m'.control.context = m.control.context) : Poised false m' := by
  obtain ⟨size, hm, -⟩ := h.fit
  refine ⟨⟨size, hfit size hm, nofun⟩, nofun, fun _ => ?_⟩
  rw [hcontext]
  exact h.idle nofun

theorem Guarded.poised {running : Bool} (h : Guarded running owned m) : Poised running m := by
  unfold Guarded at h
  generalize () = notes at h
  induction h with
  | new hc h =>
    obtain ⟨⟨size, hfit⟩, hnoted⟩ := create_fit hc h
    exact ⟨⟨size, hfit, nofun⟩, nofun, fun _ => by simp [hnoted]⟩
  | enter p hm _ hpending hp h ih => exact (ih.enter hm.reachable hp hpending).of_ok h
  | tick hm hprudent h ih => exact (tick_poised hm.reachable ih hprudent).of_ok h
  | leave hm hprudent ht h ih => exact .leave ((tick_poised hm.reachable ih hprudent).of_ok ht) h
  | release hm hv h ih =>
    have hlive := hm.reachable.sane.ledger.live_of_hand hv trivial
    refine ih.of_still (fun size hfit => ?_) ?_
    · exact ((release_still hfit fun _ hr => hlive.lt_size hr).of_ok h).fit
    · rw [(release_control _).of_ok h]
  | clearPending hm h ih =>
    refine ih.of_still (fun size hfit => ((clearPending_moved hfit).of_ok h).fit) ?_
    rw [clearPending_control.of_ok h]

theorem run_succ_of_tick {k : Nat} (h : tick m = .ok none m₁) : run (k + 1) m = run k m₁ := by
  simp only [run, bind, EStateM.bind, h]

section Runs

variable {I K : Machine → Prop} {E : Fault → Machine → Prop}

/-- What every tick keeps holds of the last machine before a run is over. -/
theorem run_leads (ticks : Nat) (hI : I m)
    (htick : ∀ m, I m → K m → Leads E tick m fun r m' => r = none → I m')
    (hK : ∀ k < ticks, ∀ m₁, run k m = .ok none m₁ → K m₁) :
    Leads E (run ticks) m fun r m' => ∀ v, r = some v →
      ∃ m₁, I m₁ ∧ K m₁ ∧ tick m₁ = .ok (some v) m' := by
  induction ticks generalizing m with
  | zero => exact nofun
  | succ ticks ih =>
    have hnow : K m := hK 0 (Nat.succ_pos _) m rfl
    simp only [run, Leads.bind_eq]
    refine .intro (fun r m₁ hr => ?_) fun e m₁ he => (htick m hI hnow).of_error he
    cases r with
    | some v =>
      rintro _ ⟨⟩
      exact ⟨m, hI, hnow, hr⟩
    | none =>
      refine ih ((htick m hI hnow).of_ok hr rfl) fun k hk m₂ hm₂ => ?_
      exact hK (k + 1) (Nat.succ_lt_succ hk) m₂ (run_succ_of_tick hr ▸ hm₂)

/-- A unit that is over has been entered, run and left. -/
theorem runUnit_leads {p : Program} {Q : Except ExecuteError Value → Machine → Prop} (ticks : Nat)
    (henter : Leads E (enterUnit p.root) m fun _ m' => I m')
    (htick : ∀ m, I m → K m → Leads E tick m fun r m' => r = none → I m')
    (hK : ∀ k < ticks, ∀ m₁, (enterUnit p.root *> run k) m = .ok none m₁ → K m₁)
    (hleave : ∀ m₁ v m₂, I m₁ → K m₁ → tick m₁ = .ok (some v) m₂ → Leads E (leaveUnit v) m₂ Q) :
    Leads E (runUnit ticks p.root) m fun r m' => r = .error .unfinished ∨ Q r m' := by
  simp only [runUnit, Leads.bind_eq]
  refine .intro (fun _ m₁ h₁ => ?_) fun e m₁ he => henter.of_error he
  have hK₁ : ∀ k < ticks, ∀ m₂, run k m₁ = .ok none m₂ → K m₂ := by
    intro k hk m₂ hm₂
    refine hK k hk m₂ ?_
    rw [seqRight_eq_bind]
    simpa only [bind, EStateM.bind, h₁] using hm₂
  refine (run_leads ticks (henter.of_ok h₁) htick hK₁).mono fun r m₂ hr => ?_
  cases r with
  | none => exact .inl rfl
  | some v =>
    obtain ⟨m₃, h₃, hnow, ht⟩ := hr v rfl
    exact (hleave m₃ v m₂ h₃ hnow ht).mono fun _ _ => .inr

end Runs

theorem Guarded.runUnit {p : Program} (ticks : Nat) (h : Guarded false owned m)
    (haborted : ¬m.aborted) (hpending : m.pending = none) (hp : p.isModest)
    (hprudent : ∀ k < ticks, ∀ m₁, (enterUnit p.root *> Machine.run k) m = .ok none m₁ →
      m₁.Prudent) :
    Leads Contained (Machine.runUnit ticks p.root) m fun r m' =>
      r = .error .unfinished ∨ Answered r ∧ Guarded false (resultHand r ++ owned) m' := by
  have henter : Leads Contained (enterUnit p.root) m fun _ m' => Guarded true owned m' :=
    .intro (fun _ _ h₁ => h.enter p haborted hpending hp h₁) fun _ _ he =>
      (h.poised.enter h.reachable hp hpending).of_error he
  refine runUnit_leads ticks henter ?_ hprudent ?_
  · intro m₁ hm₁ hnow
    have hposed := tick_poised hm₁.reachable hm₁.poised hnow
    refine .intro (fun r m₂ hr hnone => ?_) fun e m₂ he => hposed.of_error he
    exact hm₁.tick hnow (hnone ▸ hr)
  · intro m₁ v m₂ hm₁ hnow ht
    have hover : Over v m₂ := (tick_poised hm₁.reachable hm₁.poised hnow).of_ok ht
    obtain ⟨size, hfit, hv⟩ := hover.1
    have hleft := leaveUnit_fits hfit hv
    exact .intro (fun r m₃ h₃ => ⟨(hleft.of_ok h₃).2, hm₁.leave hnow ht h₃⟩) fun e m₃ he =>
      hleft.of_error he

/-- A fatal fault becomes an answer, so only an overdrawn pool is left to end an execution. -/
theorem Guarded.execute {p : Program} (ticks : Nat) (h : Guarded false owned m)
    (haborted : ¬m.aborted) (hpending : m.pending = none) (hp : p.isModest)
    (hprudent : ∀ k < ticks, ∀ m₁, (enterUnit p.root *> Machine.run k) m = .ok none m₁ →
      m₁.Prudent) :
    Leads (fun e _ => e = .overdrawn) (Machine.execute ticks p) m fun r m' =>
      (r = .error .unfinished ∨ Answered r) ∧ (r ≠ .error .unfinished →
        (∀ cause, r ≠ .error (.fatal cause)) → Guarded false (resultHand r ++ owned) m') := by
  rw [execute_iff haborted hpending (Program.valid_of_modest hp)]
  refine (h.runUnit ticks haborted hpending hp hprudent).imp ?_ ?_
  · rintro e m₁ (rfl | ⟨cause, rfl⟩)
    · rfl
    · exact ⟨.inr (.inr (.inr ⟨cause, rfl⟩)), fun _ hne => absurd rfl (hne cause)⟩
  · rintro r m₁ (rfl | ⟨hanswered, hm₁⟩)
    · exact ⟨.inl rfl, fun hne => absurd rfl hne⟩
    · exact ⟨.inr hanswered, fun _ _ => hm₁⟩

end Machine

open Machine

/-- Modest code that runs prudently cannot crash its host: an execution that ends answers with a
value, an unhandled exception or a fatal fault, and the host can go on unless the fault was
fatal. Only a machine whose memory no number can measure overdraws its pool. -/
theorem host_unharmed {owned : List Value} {m : Machine} {p : Program} {ticks : Nat}
    (h : Guarded false owned m) (haborted : ¬m.aborted) (hpending : m.pending = none)
    (hp : p.isModest)
    (hprudent : ∀ k < ticks, ∀ m₁, (enterUnit p.root *> run k) m = .ok none m₁ → m₁.Prudent) :
    (∃ r m', execute ticks p m = .ok r m' ∧ (r = .error .unfinished ∨ Answered r) ∧
      (r ≠ .error .unfinished → (∀ cause, r ≠ .error (.fatal cause)) →
        Guarded false (resultHand r ++ owned) m')) ∨
    ∃ m', execute ticks p m = .error .overdrawn m' ∧ ¬m'.memory.Addressable := by
  have hexec := h.execute ticks haborted hpending hp hprudent
  have hsane := h.reachable.sane
  have hledger := execute_ledger (P := Control.Sound) (fun _ hP _ => hP.closed)
    (fun _ _ _ hP ht => hP.tick ht) ticks p hsane.ledger (hsane.start p.root) (hsane.idle nofun).1
  cases hr : execute ticks p m with
  | ok r m' => exact .inl ⟨r, m', rfl, hexec.of_ok hr⟩
  | error e m' =>
    obtain rfl : e = .overdrawn := hexec.of_error hr
    exact .inr ⟨m', rfl, (hledger.of_error hr).1 rfl⟩

/-- Whether the run of a program passes a check before each of some ticks. -/
def Program.stays (p : Program) (check : Machine → Bool) (ticks : Nat) (m : Machine) : Bool :=
  (List.range ticks).all fun k => match (enterUnit p.root *> run k) m with
    | .ok none m₁ => check m₁
    | _ => true

theorem Program.check_of_stays {p : Program} {check : Machine → Bool} {ticks k : Nat}
    {m m₁ : Machine} (h : p.stays check ticks m) (hk : k < ticks)
    (hrun : (enterUnit p.root *> run k) m = .ok none m₁) : check m₁ := by
  have hcheck := List.all_eq_true.1 h k (List.mem_range.2 hk)
  simpa only [hrun] using hcheck

def Program.staysPrudent (p : Program) (ticks : Nat) (m : Machine) : Bool := p.stays isPrudent ticks m

theorem Program.prudent_of_stays {p : Program} {ticks k : Nat} {m m₁ : Machine}
    (h : p.staysPrudent ticks m) (hk : k < ticks)
    (hrun : (enterUnit p.root *> run k) m = .ok none m₁) : m₁.Prudent :=
  .of_check (check_of_stays h hk hrun)

/-- Code that reads a variable of its scope from a block, raises through an ensure body and
takes what it rescues. -/
def rescuedCall : Program where
  blocks := #[{
    registers := 5, symbols := #["call"], pool := #[.ofText "boom"], children := #[1],
    code := #[⟨.loadInt, 1, 7, 0⟩, ⟨.makeBlock, 2, 0, 0⟩, ⟨.send, 2, 0, 0⟩, ⟨.pushRescue, 9, 0, 0⟩,
      ⟨.pushEnsure, 7, 0, 0⟩, ⟨.loadLiteral, 3, 0, 0⟩, ⟨.raise, 3, 0, 0⟩, ⟨.nop, 0, 0, 0⟩,
      ⟨.leave, 1, 0, 0⟩, ⟨.takeException, 3, 0, 0⟩, ⟨.leave, 2, 0, 0⟩] }, {
    registers := 2, code := #[⟨.getOuter, 1, 1, 0⟩, ⟨.leave, 1, 0, 0⟩] }]

theorem host_unharmed_rescuedCall :
    ∃ m m', Guarded false [] m ∧ execute 13 rescuedCall m = .ok (.ok (.int 7)) m' ∧
      Guarded false [.int 7] m' := by
  have hrun : ∃ m ∈ (create {}).toOption, ¬m.aborted ∧ m.pending = none ∧
      rescuedCall.staysPrudent 13 m ∧
      Leads NoFault (runUnit 13 rescuedCall.root) m fun r _ => r = .ok (.int 7) := by decide +kernel
  have hmodest : rescuedCall.isModest := by decide +kernel
  obtain ⟨m, hm, haborted, hpending, hstays, hunit⟩ := hrun
  have hguarded : Guarded false [] m :=
    .new (c := {}) (show (Config.maxRegisters {}).toInt ≤ 2 ^ 62 by decide) (create_of_toOption hm)
  have hleads : Leads NoFault (execute 13 rescuedCall) m fun r _ => r = .ok (.int 7) := by
    rw [execute_iff haborted hpending (Program.valid_of_modest hmodest)]
    exact hunit.imp (fun _ _ hfault => hfault.elim) fun _ _ hr => hr
  rcases host_unharmed hguarded haborted hpending hmodest fun k hk m₂ =>
    rescuedCall.prudent_of_stays hstays hk with ⟨r, m', hr, -, hlast⟩ | ⟨m', hr, -⟩
  · obtain rfl := hleads.of_ok hr
    exact ⟨m, m', hguarded, hr, hlast nofun nofun⟩
  · exact (hleads.of_error hr).elim

/-- Valid code that sends a message with a negative number of arguments. -/
def negativeCount : Program where
  blocks := #[{
    registers := 4, symbols := #["puts"],
    code := #[⟨.loadSelf, 1, 0, 0⟩, ⟨.send, 1, 0, -2⟩, ⟨.leave, 1, 0, 0⟩] }]

/-- The method is left with a window of no registers, and its return is out of bounds. -/
theorem host_crashes_negativeCount :
    ∃ m m', Reachable false [] m ∧ ¬m.aborted ∧ m.pending = none ∧ negativeCount.defect? = none ∧
      execute 3 negativeCount m = .error .outOfBounds m' := by
  have hrun : ∃ m ∈ (create {}).toOption, ¬m.aborted ∧ m.pending = none ∧
      Leads (fun e _ => e = .outOfBounds) (runUnit 3 negativeCount.root) m fun _ _ => False := by
    decide +kernel
  have hvalid : negativeCount.defect? = none := Program.defect?_eq_none (by decide +kernel)
  obtain ⟨m, hm, haborted, hpending, hunit⟩ := hrun
  have hleads : Leads (fun e _ => e = .outOfBounds) (execute 3 negativeCount) m
      fun _ _ => False := by
    rw [execute_iff haborted hpending hvalid]
    refine hunit.imp ?_ fun _ _ hr => hr
    rintro _ m₁ rfl
    rfl
  obtain ⟨_, m', hr, rfl⟩ := hleads.exists_error
  exact ⟨m, m', .new (create_of_toOption hm), haborted, hpending, hvalid, hr⟩

end ObjectMachine
