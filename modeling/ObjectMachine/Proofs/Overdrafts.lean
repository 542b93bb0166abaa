import ObjectMachine.Proofs.Writes

/-! Faults of machines whose books are in order. Every reference that is given back was counted, so
memory has one fault left, an overdrawn pool, and that only where more bytes are charged than there
are addresses. A native call whose window lies in the register file has no other fault when it ends,
and an instruction that goes nowhere is a tick of its own. -/

namespace ObjectMachine

/-- The pool was asked for too much, and more bytes are charged than there are addresses. -/
def Overdraws (e : Fault) (m : Machine) : Prop := e = .overdrawn ∧ ¬m.memory.Addressable

/-- Two facts about the same outcome, with two facts about its fault. -/
theorem Leads.meet {α : Type} {x : Action α} {E E' : Fault → Machine → Prop} {m : Machine}
    {Q R : α → Machine → Prop} (h : Leads E x m Q) (h' : Leads E' x m R) :
    Leads (fun e m' => E e m' ∧ E' e m') x m fun a m' => Q a m' ∧ R a m' :=
  .intro (fun _ _ hx => ⟨h.of_ok hx, h'.of_ok hx⟩) fun _ _ hx => ⟨h.of_error hx, h'.of_error hx⟩

namespace Memory

variable {m : Memory} {roots : List Value} {chores : List Chore}

theorem Exact.live_of_drop {v : Value} (h : Exact roots (.drop v :: chores) m) : m.Live v := by
  refine h.live_of_tally fun q hq => ?_
  have hmem : v ∈ drops (.drop v :: chores) := List.mem_cons_self
  have := tally_pos_of_mem hmem hq
  omega

/-- What is dropped is live, and what is refunded exists. -/
theorem settle_overdrawn {outside : Int} (hb : Balanced outside chores m)
    (h : Exact roots chores m) : ∀ e ∈ (m.settle chores).2, e = .overdrawn := by
  fun_induction settle m chores with
  | case1 => simp
  | case2 m v rest hv ih =>
    refine ih ⟨hb.nonneg, hb.used, hb.live, hb.sound, hb.room, hb.tidy⟩ fun q => ?_
    have heq := h q
    have hdrop := tally_cons q v (drops rest)
    rw [tally_one_of_immediate hv, Nat.zero_add] at hdrop
    rwa [drops, hdrop] at heq
  | case3 m v rest r hv hr o h0 =>
    have hlive : m.Live v := h.live_of_drop
    exact absurd (by rw [countAt_of_getElem hr]; exact h0) (hlive r hv)
  | case4 m v rest r hv hr o _ m' h1 ih => exact ih (hb.drop_last h1) (h.drop_last hv h1)
  | case5 m v rest r hv hr o h0 m' h1 ih => exact ih (hb.drop_one h0 h1) (h.drop_one hv h0 h1)
  | case6 m v rest r hv hr =>
    have hlive : m.Live v := h.live_of_drop
    exact absurd (hlive.lt_size hv) hr
  | case7 m r rest ho =>
    obtain ⟨⟨o, ho', -⟩, -⟩ := hb.tidy
    cases ho.symm.trans ho'
  | case8 m r rest o ho hc ih =>
    refine ih ⟨hb.nonneg, ?_, hb.live, hb.sound, ?_, hb.tidy.2⟩ h
    · simpa [owed, ho, hc] using hb.used
    · simpa [owed, ho, hc] using hb.room
  | case9 => simp
  | case10 m r rest o ho _ pool m' _ ih => exact ih (hb.refundTable ho) h
  | case11 => simp
  | case12 m r rest hr o pool m' _ ih =>
    obtain ⟨o', ho, h0⟩ := hb.tidy.1
    rw [Array.getElem?_eq_getElem hr] at ho
    cases ho
    exact ih hb.refundObject (h.empty h0 _ _)
  | case13 m r rest hr =>
    obtain ⟨⟨o, ho, -⟩, -⟩ := hb.tidy
    rw [Array.getElem?_eq_none (Nat.not_lt.1 hr)] at ho
    cases ho

end Memory

namespace Machine

variable {m m' : Machine} {l : Nat} {d : List Duty} {H owned : List Value} {v : Value} {j : Int64}
  {w : Window} {id : MethodId} {i : Inst}

/-! ### Registers -/

theorem release_overdraws (h : Ledger True l d (v :: H) m) :
    Leads Overdraws (release v) m fun _ m' => Ledger True l d H m' ∧ Quiet m m' := by
  have hfault : Leads (fun e _ => e = .overdrawn) (release v) m fun _ _ => True := by
    unfold release
    cases hr : v.ref? with
    | none => trivial
    | some r =>
      have hb : m.memory.Balanced (m.outlay d l) [.drop v] :=
        ⟨h.balanced.nonneg, h.balanced.used, h.balanced.live, h.balanced.sound, h.balanced.room, trivial⟩
      have he : Memory.Exact (H ++ m.roots d) [.drop v] m.memory := by
        intro q
        have heq := (h.exact trivial).counts q
        rw [List.cons_append, tally_cons q v] at heq
        simp only [Memory.drops, tally_nil] at heq ⊢
        omega
      have hsettle := Memory.settle_overdrawn hb he
      simp only [onMemory, Leads.bind_eq, Leads.modifyGet_eq, Memory.release]
      cases hx : m.memory.settle [.drop v] with
      | mk μ fault =>
        rw [hx] at hsettle
        cases fault with
        | none => trivial
        | some e => exact hsettle e rfl
  refine ((release_ledger h).meet hfault).imp ?_ fun _ _ h => h.1
  rintro _ m' ⟨hexcused, rfl⟩
  exact ⟨rfl, hexcused.overdrawn rfl⟩

theorem exchangeReg_ok {old : Value} (hj : entryAt? m.regs j = some old) (v : Value) :
    exchangeReg j v m = .ok old { m with regs := m.regs.setIfInBounds j.toInt.toNat v } := by
  refine Leads.eq_ok ?_
  simp only [exchangeReg, Leads.bind_eq]
  refine .of_eq (reg_ok hj) ?_
  exact ⟨rfl, rfl⟩

/-- A register in the file takes a value over from the hand. -/
theorem setReg_overdraws {old : Value} (h : Ledger True l d (v :: H) m)
    (hj : entryAt? m.regs j = some old) : Leads Overdraws (setReg j v) m fun _ m' =>
      Ledger True l d H m' ∧ m'.skeleton = m.skeleton ∧
        m'.regs = m.regs.setIfInBounds j.toInt.toNat v := by
  simp only [setReg, Leads.bind_eq]
  refine .of_eq (exchangeReg_ok hj v) ?_
  obtain ⟨h₁, hskeleton, hregs⟩ := (exchangeReg_ledger h j).of_ok (exchangeReg_ok hj v)
  refine (release_overdraws h₁).mono ?_
  rintro _ m₂ ⟨h₂, hskeleton₂, hregs₂⟩
  exact ⟨h₂, hskeleton₂.trans hskeleton, hregs₂.trans hregs⟩

structure Ranges (size : Nat) (start : Int64) (count : Nat) : Prop where
  nonneg : 0 ≤ start.toInt
  top : start.toInt + count ≤ size
  small : start.toInt + count < 2 ^ 63

theorem Ranges.tail {size count : Nat} {start : Int64} (h : Ranges size start (count + 1)) :
    Ranges size (start + 1) count := by
  have hnonneg := h.nonneg
  have htop := h.top
  have hsmall := h.small
  have hone : (1 : Int64).toInt = 1 := rfl
  have hstart : (start + 1).toInt = start.toInt + 1 := by
    rw [toInt_add (by omega) (by omega), hone]
  exact ⟨by omega, by omega, by omega⟩

theorem clearRegs_overdraws {start : Int64} {count : Nat} (h : Ledger True l d H m)
    (hrange : Ranges m.regs.size start count) : Leads Overdraws (clearRegs start count) m fun _ m' =>
      Ledger True l d H m' ∧ m'.skeleton = m.skeleton ∧ m'.regs.size = m.regs.size := by
  induction count generalizing start m with
  | zero => exact ⟨h, rfl, rfl⟩
  | succ count ih =>
    simp only [clearRegs, clearReg, Leads.bind_eq]
    have htop := hrange.top
    have hlt : start.toInt < m.regs.size := by omega
    obtain ⟨old, hold⟩ := entryAt?_isSome hrange.nonneg hlt
    have hclear : Ledger True l d (.empty :: H) m := h.hold rfl
    refine (setReg_overdraws hclear hold).mono ?_
    rintro _ m₁ ⟨h₁, hskeleton₁, hregs₁⟩
    have hsize₁ : m₁.regs.size = m.regs.size := by rw [hregs₁, Array.size_setIfInBounds]
    refine (ih h₁ (hsize₁ ▸ hrange.tail)).mono ?_
    rintro _ m₂ ⟨h₂, hskeleton₂, hsize₂⟩
    exact ⟨h₂, hskeleton₂.trans hskeleton₁, hsize₂.trans hsize₁⟩

end Machine

/-! ### Windows of native calls -/

/-- A window that a native call accepts. -/
structure Window.Admitted (size : Nat) (w : Window) : Prop where
  nonneg : 0 ≤ w.base
  room : w.base ≤ w.base + w.argc + 2
  top : (w.base + w.argc + 2).toInt ≤ size

/-- Such a window does not wrap around. -/
theorem Window.Admitted.ranges {size : Nat} {w : Window} (h : w.Admitted size) (hargc : 0 ≤ w.argc) :
    0 ≤ w.base.toInt ∧ 0 ≤ w.argc.toInt ∧ w.base.toInt + w.argc.toInt + 2 ≤ size ∧
      w.base.toInt + w.argc.toInt + 2 < 2 ^ 63 := by
  have hnonneg := Int64.le_iff_toInt_le.1 h.nonneg
  have hargc := Int64.le_iff_toInt_le.1 hargc
  have hroom := Int64.le_iff_toInt_le.1 h.room
  have htop := h.top
  have hzero : (0 : Int64).toInt = 0 := rfl
  have htwo : (2 : Int64).toInt = 2 := rfl
  have hbase := w.base.toInt_lt
  have hcount := w.argc.toInt_lt
  simp only [Int64.toInt_add, Int.bmod_def, hzero, htwo] at *
  refine ⟨hnonneg, hargc, ?_, ?_⟩ <;> split at htop <;> split at htop <;> omega

theorem Window.Admitted.size_pos {size : Nat} {w : Window} (hw : w.Admitted size) (hargc : 0 ≤ w.argc) :
    0 < w.size := by
  obtain ⟨hbase, hcount, -, hsmall⟩ := hw.ranges hargc
  have htwo : (2 : Int64).toInt = 2 := rfl
  have hsize : (w.argc + 2).toInt = w.argc.toInt + 2 := by
    rw [toInt_add (by omega) (by omega), htwo]
  rw [Int64.lt_iff_toInt_lt]
  change (0 : Int64).toInt < (w.argc + 2).toInt
  rw [hsize, Int64.toInt_zero]
  omega

namespace Machine

variable {m m' : Machine} {l : Nat} {d : List Duty} {H owned : List Value} {v : Value} {j : Int64}
  {w : Window} {id : MethodId} {i : Inst} {b : Int64} {c : Symbol}

theorem enterWindow_admitted (hw : w.Admitted m.regs.size) :
    Leads NoFault (enterWindow w.base (w.argc + 2)) m fun _ m' => m' = { m with regHigh := m'.regHigh } := by
  simp only [enterWindow, Leads.bind_eq, Leads.get_eq]
  have htop := hw.top
  rw [Int64.add_assoc] at htop
  rw [if_neg (not_or.2 ⟨Int64.not_lt.2 hw.nonneg, Int.not_lt.2 htop⟩)]
  split <;> rfl

theorem checkWindow_admitted (hw : w.Admitted m.regs.size) : checkWindow w m = .ok () m := by
  refine Leads.eq_ok ?_
  simp only [checkWindow, Leads.bind_eq, Leads.get_eq]
  rw [if_neg (not_or.2 ⟨Int64.not_lt.2 hw.nonneg, not_or.2 ⟨Int64.not_lt.2 hw.room,
    Int.not_lt.2 hw.top⟩⟩)]
  exact ⟨trivial, rfl⟩

/-! ### The end of a native call -/

theorem releaseMethod_overdraws (h : Ledger True l (.leave id w b c :: d) H m) :
    Leads Overdraws (releaseMethod id) m fun _ m' => Ledger True l d H m' ∧ m'.regs = m.regs := by
  have hfault : Leads (fun e _ => e = .overdrawn ∨ ∃ name, e = .fatal (.methodReleasedAgain name))
      (releaseMethod id) m fun _ m' => m'.regs = m.regs := by
    simp only [releaseMethod, modifyMethod, nameOf, Leads.bind_eq, Leads.modify_eq, Leads.get_eq]
    split
    · simp only [refund, onMemory, Leads.bind_eq, Leads.modifyGet_eq]
      cases hover : (m.memory.pool.refund methodBytes).isOverdrawn with
      | true => exact .inl rfl
      | false => rfl
    · split
      · exact .inr ⟨_, rfl⟩
      · rfl
  refine ((releaseMethod_ledger h).meet hfault).imp ?_ fun _ _ h => h
  rintro e m' ⟨hexcused, rfl | ⟨name, rfl⟩⟩
  · exact ⟨rfl, hexcused.overdrawn rfl⟩
  · exact absurd rfl (hexcused.method name)

theorem leaveNative_overdraws (h : Ledger True l (.leave id w b c :: d) H m)
    (hw : w.Admitted m.regs.size) (hargc : 0 ≤ w.argc) :
    Leads Overdraws (leaveNative id w b c) m fun _ m' => Ledger True l d H m' := by
  simp only [leaveNative, modifyContext, Leads.bind_eq, Leads.modify_eq, Leads.get_eq]
  refine (releaseMethod_overdraws h).mono ?_
  rintro _ m₁ ⟨h₁, hregs₁⟩
  have h₂ : Ledger True l d H { m₁ with context := { m₁.context with callBase := b, callee := c } } :=
    h₁.turn ⟨_, _, rfl⟩ rfl
  split
  · refine (clearRegs_overdraws h₂ ?_).mono fun _ _ h₃ => h₃.1
    obtain ⟨hbase, hcount, htop, hsmall⟩ := hw.ranges hargc
    have hone : (1 : Int64).toInt = 1 := rfl
    have hstart : (w.base + 1).toInt = w.base.toInt + 1 := by
      rw [toInt_add (by omega) (by omega), hone]
    have hlength : (w.argc + 1).toInt = w.argc.toInt + 1 := by
      rw [toInt_add (by omega) (by omega), hone]
    have hsize : m₁.regs.size = m.regs.size := congrArg Array.size hregs₁
    refine ⟨?_, ?_, ?_⟩
    · omega
    · simp only [hsize]
      omega
    · omega
  · exact h₂

/-! ### Ticks -/

theorem fetch_ok (hi : m.control.next? = some i) : fetch m = .ok i m.fetched := by
  obtain ⟨code, hcode, hentry⟩ := Option.bind_eq_some_iff.1 hi
  have hcode : m.context.code = some code := hcode
  have hentry : entryAt? code.block.code m.context.pc = some i := hentry
  refine Leads.eq_ok ?_
  obtain ⟨hlt, -⟩ := entryAt?_eq_some hentry
  have hnonneg := entryAt?_nonneg hentry
  simp only [fetch, currentCode, hcode, present, Leads.bind_eq, Leads.get_eq, Leads.pure_eq]
  rw [if_neg (by omega)]
  simp only [hentry, setPc, modifyContext, Leads.bind_eq, Leads.pure_eq, Leads.modify_eq]
  exact ⟨trivial, rfl⟩

/-- An instruction that goes nowhere is a tick of its own. -/
theorem tick_of_same {E : Fault → Machine → Prop} {Q : Machine → Prop}
    (hi : m.control.next? = some i) (h : Leads E (step i) m.fetched fun p m' =>
      p = .same ∧ m'.pending = none ∧ m'.jumped = false ∧ Q m') :
    Leads E tick m fun x m' => x = none ∧ Q m' := by
  simp only [tick, Leads.bind_eq]
  refine .of_eq (fetch_ok hi) (h.mono ?_)
  rintro p m₁ ⟨rfl, hpending, hjumped, hQ⟩
  simp only [Leads.bind_eq, Leads.get_eq]
  cases m₁.suspended with
  | nil =>
    simp only [finishStep, Leads.bind_eq]
    exact .of_eq (concludeStep_of_calm hjumped hpending) ⟨rfl, hQ⟩
  | cons s rest =>
    simp only [finishStep, Leads.bind_eq]
    exact .of_eq (concludeStep_of_calm hjumped hpending) ⟨rfl, hQ⟩

theorem enterUnit_jumped (code : Code) :
    Leads AnyFault (enterUnit code) m fun _ m' => m'.jumped = false := by
  simp only [enterUnit, Leads.bind_eq, Leads.get_eq, Leads.modify_eq]
  refine (Leads.named _).mono fun _ m₁ _ => (Leads.named _).mono fun _ m₂ _ => ?_
  refine (currentSize_leads fun size => ?_).forget
  exact (enterWindow_changes _ _).mono fun _ _ h => congrArg (·.jumped) h

/-- Machines at an instruction have nothing left to clear. -/
theorem Reachable.jumped {running : Bool} (h : Reachable running owned m) (hrun : running = true) :
    m.jumped = false := by
  induction h with
  | enter p _ _ _ _ h => exact (enterUnit_jumped _).of_ok h
  | tick hm h ih =>
    have hcourse : Course AnyPart _ .ready _ := Course.began.tick (fun _ _ _ _ _ => trivial) hm h
    rcases Course.jumped hm hcourse with rfl | hjumped
    · exact ih rfl
    · exact hjumped
  | _ => cases hrun

end Machine

end ObjectMachine
