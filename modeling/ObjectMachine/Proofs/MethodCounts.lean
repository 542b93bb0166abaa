import ObjectMachine.Proofs.Ownership

/-! Who holds a method. A class holds the methods it lists, a call frame the method it runs, and a
native call in progress the native. Whatever a host does and whatever code runs, a method is
counted once for each of them, so it stays for as long as it is listed or runs, and its bytes are
charged for just that time. No release ever finds a method that was released before. -/

namespace ObjectMachine

open Machine

namespace Machine

variable {m m' : Machine} {id : MethodId} {f : FrameId}

def links (m : Machine) (id : MethodId) : Nat := (m.classes.toList.flatMap (·.methods)).count id

def callsOf (m : Machine) (id : MethodId) : Nat :=
  m.chain.countP fun f => (m.frameAt f).method == some id

def nativeCallsOf (m : Machine) (id : MethodId) : Nat := (m.duties.flatMap Duty.methods).count id

def holds (m : Machine) (id : MethodId) : Nat := m.links id + m.callsOf id + m.nativeCallsOf id

/-! ### Frames on the chain -/

theorem frames_eq (m : Machine) : m.frames.toList = (List.range m.frames.size).map m.frameAt := by
  refine List.ext_getElem (by simp) fun i hi _ => ?_
  have hlt : i < m.frames.size := by simpa using hi
  simp [frameAt, Array.getD_eq_getD_getElem?, hlt]

/-- The frames that hold a method are the calls on the chain that run it. -/
theorem count_frames (h : ∀ f, m.MannedAt f) (id : MethodId) :
    (m.frames.toList.filterMap (·.method)).count id = m.callsOf id := by
  have hperm : ((List.range m.frames.size).filter fun f => (m.frameAt f).method == some id).Perm
      (m.chain.filter fun f => (m.frameAt f).method == some id) := by
    have hchain : (m.chain.filter fun f => (m.frameAt f).method == some id).Nodup := by
      refine List.nodup_iff_count_le_one.2 fun f => ?_
      by_cases hf : (m.frameAt f).method = some id
      · rw [List.count_filter (p := fun f => (m.frameAt f).method == some id) (beq_iff_eq.2 hf),
          (h f (by rw [hf]; nofun)).1]
      · have hout : f ∉ m.chain.filter fun f => (m.frameAt f).method == some id :=
          fun hmem => hf (beq_iff_eq.1 (List.mem_filter.1 hmem).2)
        rw [List.count_eq_zero.2 hout]
        exact Nat.zero_le 1
    refine (List.perm_ext_iff_of_nodup (List.nodup_range.filter _) hchain).2 fun f => ?_
    simp only [List.mem_filter, List.mem_range, beq_iff_eq]
    refine and_congr_left fun hf => ⟨fun _ => ?_, fun _ => frameAt_method_lt hf⟩
    exact List.count_pos_iff.1 ((h f (by rw [hf]; nofun)).1 ▸ Nat.one_pos)
  rw [List.count_filterMap, frames_eq, List.countP_map, List.countP_eq_length_filter, callsOf,
    List.countP_eq_length_filter]
  exact hperm.length_eq

variable {s : Prop} {H : List Value}

/-- The count of a method is the number of its holders. -/
theorem Ledger.refCount (h : Ledger s 0 [] H m) (id : MethodId) :
    (m.methodAt id).refCount = m.holds id := by
  rw [← h.form.held, holders, count_frames h.manned]
  rfl

theorem Ledger.liveMethods (h : Ledger s 0 [] H m) :
    m.liveMethods = (List.range m.methods.size).countP fun id => 0 < m.holds id := by
  have hmethods : m.methods.toList = (List.range m.methods.size).map m.methodAt := by
    refine List.ext_getElem (by simp) fun i hi _ => ?_
    have hlt : i < m.methods.size := by simpa using hi
    simp [methodAt, Array.getD_eq_getD_getElem?, hlt]
  rw [Machine.liveMethods, hmethods, List.countP_map]
  refine List.countP_congr fun id _ => ?_
  simp only [Function.comp, h.refCount id, Nat.cast_pos]

/-- The bytes that are charged outside the heap for classes and frames, and those for objects. -/
def otherBytes (m : Machine) : Int :=
  16 * m.classes.size + 40 * (m.nodes []).length
    + (m.memory.liveObjects.map (·.size.toInt)).sum
    + 12 * (m.memory.liveObjects.map fun o => (o.body.capacity : Int)).sum

theorem Ledger.used (h : Ledger s 0 [] H m) :
    m.memory.pool.used = Int64.ofInt (m.otherBytes
      + 24 * (List.range m.methods.size).countP fun id => 0 < m.holds id) := by
  rw [← h.liveMethods, h.balanced.used, Memory.total_charge, Memory.owed, outlay, otherBytes]
  congr 1
  omega

end Machine

/-! ### Boundaries -/

/-- The machines that a host comes to with its operations, and those between two instructions of
the code it runs. -/
inductive Boundary : (running : Bool) → Machine → Prop
  | new {c : Config} {m : Machine} (h : create c = .ok m) : Boundary false m
  | perform {m m' : Machine} {r : Option ExecuteError} (op : Operation) (hm : Boundary false m)
      (h : op.perform m = .ok r m') (hr : Ended r) : Boundary false m'
  | enter {m m' : Machine} (code : Code) (hm : Boundary false m)
      (h : enterUnit code m = .ok () m') : Boundary true m'
  | tick {m m' : Machine} (hm : Boundary true m) (h : tick m = .ok none m') : Boundary true m'
  | leave {m m₁ m' : Machine} {v : Value} {r : Except ExecuteError Value} (hm : Boundary true m)
      (ht : Machine.tick m = .ok (some v) m₁) (h : leaveUnit v m₁ = .ok r m') : Boundary false m'

/-- An execution reports no method that was released too often. -/
theorem execute_counted {m : Machine} (h : m.Idle) (ticks : Nat) (p : Program) (name : Text) :
    Leads (Excused False) (Machine.execute ticks p) m fun r _ =>
      r ≠ .error (.fatal (.methodReleasedAgain name)) := by
  have hrun := runUnit_ledger (P := fun _ => True) (fun _ _ => False.elim) (fun _ _ _ _ _ => trivial)
    ticks p.root h.ledger trivial
  simp only [Machine.execute, Leads.bind_eq, Leads.get_eq]
  split
  · rintro ⟨⟩
  · split
    · rintro ⟨⟩
    · split
      · rintro ⟨⟩
      · rw [Leads.bind_eq, Leads.tryCatch_eq, Leads.bind_eq]
        refine hrun.imp (fun e m₁ he => ?_) fun r m₁ hr => hr.1 _
        split
        · next cause =>
          intro hcause
          cases hcause
          exact he.method name rfl
        · exact Excused.mk he.overdrawn he.released he.method

theorem Operation.perform_counted (op : Operation) {m : Machine} (h : m.Idle) (name : Text) :
    Leads AnyFault op.perform m fun r _ => r ≠ some (.fatal (.methodReleasedAgain name)) := by
  cases op with
  | execute ticks p =>
    simp only [perform, Leads.bind_eq]
    refine (execute_counted h ticks p name).imp (fun _ _ _ => trivial) fun r m₁ hr => ?_
    cases r with
    | ok v => rintro ⟨⟩
    | error e => exact fun he => hr (congrArg _ (Option.some.inj he))
  | _ =>
    simp only [perform, Leads.bind_eq]
    exact .intro (fun _ _ _ => (Option.some_ne_none _).symm) fun _ _ _ => trivial

namespace Boundary

variable {running : Bool} {m m' : Machine} {owned : List Value}

/-- Nothing but the end of all passes lies between a run and the next operation. -/
theorem books (h : Boundary running m) :
    Ledger False 0 [] [] m ∧ (running = false → m.suspended = []) := by
  induction h with
  | new h =>
    obtain ⟨hledger, hsuspended, -⟩ := create_ledger h
    exact ⟨hledger, fun _ => hsuspended⟩
  | perform op _ h hr ih =>
    have hidle := (op.perform_idle ⟨ih.1, ih.2 rfl⟩).of_ok h hr
    exact ⟨hidle.ledger, fun _ => hidle.suspended⟩
  | enter code _ h ih => exact ⟨((enterUnit_ledger code ih.1).of_ok h).1, nofun⟩
  | tick _ h ih => exact ⟨((tick_ledger ih.1 fun hs => hs.elim).of_ok h).1, nofun⟩
  | leave _ ht h ih =>
    obtain ⟨h₁, i, hi⟩ := (tick_ledger ih.1 fun hs => hs.elim).of_ok ht
    obtain ⟨h₂, -, hs₂, -⟩ := (leaveUnit_ledger h₁).of_ok h
    exact ⟨h₂.of_not id, fun _ => hs₂.trans hi.suspended_eq_nil⟩

/-- A host that releases only what it owns is one of these. -/
theorem of_reachable (h : Reachable running owned m) : Boundary running m := by
  induction h with
  | new h => exact .new h
  | enter p _ _ _ _ h ih => exact .enter p.root ih h
  | tick _ h ih => exact .tick ih h
  | leave _ ht h ih => exact .leave ih ht h
  | @release _ m m' v _ _ h ih =>
    have hop : (Operation.release v).perform m = .ok none m' := by
      simp only [Operation.perform, bind, EStateM.bind, h]
      rfl
    exact .perform _ ih hop (by simp [Ended])
  | @clearPending _ m m' _ h ih =>
    have hop : Operation.clearPending.perform m = .ok none m' := by
      simp only [Operation.perform, bind, EStateM.bind, h]
      rfl
    exact .perform _ ih hop (by simp [Ended])

end Boundary

/-- The counts of methods are exact, between operations of any host and between any two
instructions of any code. A method is listed once at most, and its count is the number of classes
that list it, of calls on the chain that run it, and of native calls of it in progress. A frame
that holds a method stands on the chain once, and is freed when it leaves it. The pool is charged
for the methods that are held and for no other. So nothing that goes on from here releases a
method too often: no instruction, no end of a unit, and no operation. -/
theorem method_counts_exact {running : Bool} {m : Machine} (h : Boundary running m) :
    (∀ id, (m.methodAt id).refCount = m.links id + m.callsOf id + m.nativeCallsOf id) ∧
    (∀ id, m.links id ≤ 1) ∧
    (∀ f id, (m.frameAt f).method = some id → m.chain.count f = 1 ∧ 0 < (m.methodAt id).refCount) ∧
    m.memory.pool.used = Int64.ofInt (m.otherBytes
      + 24 * (List.range m.methods.size).countP fun id => 0 < m.holds id) ∧
    (running → ∀ name m',
      tick m ≠ .error (.fatal (.methodReleasedAgain name)) m' ∧
      ∀ v m₁, tick m = .ok (some v) m₁ →
        leaveUnit v m₁ ≠ .error (.fatal (.methodReleasedAgain name)) m') ∧
    (¬running → ∀ name m',
      (∀ op, Operation.perform op m ≠ .error (.fatal (.methodReleasedAgain name)) m' ∧
        Operation.perform op m ≠ .ok (some (.fatal (.methodReleasedAgain name))) m') ∧
      ∀ code, enterUnit code m ≠ .error (.fatal (.methodReleasedAgain name)) m') := by
  obtain ⟨hledger, hsuspended⟩ := h.books
  refine ⟨hledger.refCount, fun id => ?_, fun f id hf => ?_, hledger.used, fun hrun name m' => ?_,
    fun hrun name m' => ?_⟩
  · exact List.nodup_iff_count_le_one.1 hledger.form.linked id
  · have hon := (hledger.manned f (by rw [hf]; nofun)).1
    refine ⟨hon, ?_⟩
    have hcall : 0 < m.callsOf id := by
      refine List.countP_pos_iff.2 ⟨f, List.count_pos_iff.1 (hon ▸ Nat.one_pos), ?_⟩
      rw [hf, beq_self_eq_true]
    rw [hledger.refCount, holds]
    omega
  · have htick := tick_ledger hledger fun hs => hs.elim
    refine ⟨fun he => (htick.of_error he).method name rfl, fun v m₁ ht he => ?_⟩
    exact ((leaveUnit_ledger (htick.of_ok ht).1).of_error he).method name rfl
  · have hidle : m.Idle := ⟨hledger, hsuspended (by simpa using hrun)⟩
    refine ⟨fun op => ⟨fun he => ?_, fun he => ?_⟩, fun code he => ?_⟩
    · exact ((op.perform_idle hidle).of_error he).method name rfl
    · exact (op.perform_counted hidle name).of_ok he rfl
    · exact ((enterUnit_ledger code hledger).of_error he).method name rfl

/-- A method that defines itself anew, and returns. -/
def redefineSelf : Program where
  blocks := #[{
      registers := 5, symbols := #["Object", "work"], children := #[1],
      code := #[⟨.loadNil, 2, 0, 0⟩, ⟨.defineClass, 1, 0, 0⟩, ⟨.makeBlock, 2, 0, 0⟩,
        ⟨.defineMethod, 1, 1, 0⟩, ⟨.loadSelf, 1, 0, 0⟩, ⟨.send, 1, 1, 0⟩, ⟨.leave, 1, 0, 0⟩] },
    { name := "work", registers := 5, symbols := #["Object", "work"], children := #[2],
      code := #[⟨.loadNil, 2, 0, 0⟩, ⟨.defineClass, 1, 0, 0⟩, ⟨.makeBlock, 2, 0, 0⟩,
        ⟨.defineMethod, 1, 1, 0⟩, ⟨.loadNil, 1, 0, 0⟩, ⟨.leave, 1, 0, 0⟩] },
    { name := "other", registers := 3, code := #[⟨.loadNil, 1, 0, 0⟩, ⟨.leave, 1, 0, 0⟩] }]

/-- While it runs, the call is all that holds the old method; after the return nothing does. -/
theorem method_counts_exact_redefineSelf :
    ∃ m m' id, Boundary true m ∧ Boundary true m' ∧ id < m.methods.size ∧
      m.links id = 0 ∧ m.callsOf id = 1 ∧ (m.methodAt id).refCount = 1 ∧
      m'.holds id = 0 ∧ (m'.methodAt id).refCount = 0 := by
  have hvalid : redefineSelf.defect? = none := Program.defect?_eq_none (by decide +kernel)
  have hrun : (redefineSelf.after 10).any (fun m => (redefineSelf.after 12).any fun m' =>
      m.links (m.methods.size - 2) == 0 && m.callsOf (m.methods.size - 2) == 1 &&
      m.nativeCallsOf (m.methods.size - 2) == 0 && 2 ≤ m.methods.size &&
      m'.holds (m.methods.size - 2) == 0) := by
    decide +kernel
  obtain ⟨m, hm, hrun⟩ := (Option.any_eq_true _ _).1 hrun
  obtain ⟨m', hm', hrun⟩ := (Option.any_eq_true _ _).1 hrun
  simp only [Bool.and_eq_true, beq_iff_eq, decide_eq_true_eq] at hrun
  obtain ⟨⟨⟨⟨hlinks, hcalls⟩, hnatives⟩, hsize⟩, hholds⟩ := hrun
  have hb := Boundary.of_reachable (.of_after hvalid hm)
  have hb' := Boundary.of_reachable (.of_after hvalid hm')
  refine ⟨m, m', m.methods.size - 2, hb, hb', by omega, hlinks, hcalls, ?_, hholds, ?_⟩
  · rw [(method_counts_exact hb).1, hlinks, hcalls, hnatives]
    rfl
  · exact ((method_counts_exact hb').1 _).trans (congrArg Int.ofNat hholds)

end ObjectMachine
