import ObjectMachine.Proofs.Accounting
import ObjectMachine.Proofs.Passes
import ObjectMachine.Proofs.Validity

/-! Who holds what. A host that runs valid code and gives every result back at most once never
spoils a reference count: between any two instructions the count of an object is the number
of places that hold it. So no script can make a machine use what it has released. -/

namespace ObjectMachine

open Machine

/-- The machines of a host that runs valid code and releases only results it owns. `running`
says whether a unit of code is under way, and `owned` lists the results not yet released. -/
inductive Reachable : (running : Bool) → (owned : List Value) → Machine → Prop
  | new {c : Config} {m : Machine} (h : create c = .ok m) : Reachable false [] m
  | enter {owned : List Value} {m m' : Machine} (p : Program) (hm : Reachable false owned m)
      (haborted : ¬m.aborted) (hpending : m.pending = none) (hvalid : p.defect? = none)
      (h : enterUnit p.root m = .ok () m') : Reachable true owned m'
  | tick {owned : List Value} {m m' : Machine} (hm : Reachable true owned m)
      (h : tick m = .ok none m') : Reachable true owned m'
  | leave {owned : List Value} {m m₁ m' : Machine} {v : Value} {r : Except ExecuteError Value}
      (hm : Reachable true owned m) (ht : Machine.tick m = .ok (some v) m₁)
      (h : leaveUnit v m₁ = .ok r m') : Reachable false (resultHand r ++ owned) m'
  | release {owned : List Value} {m m' : Machine} {v : Value} (hm : Reachable false owned m)
      (hv : v ∈ owned) (h : release v m = .ok () m') : Reachable false (owned.erase v) m'
  | clearPending {owned : List Value} {m m' : Machine} (hm : Reachable false owned m)
      (h : clearPending m = .ok () m') : Reachable false owned m'

/-- What a host keeps to: the configurations it uses, the code it runs, and what it sees to before each
tick, by notes that it takes of those before. -/
structure Discipline (σ : Type) where
  configures : Config → Prop
  runs : Program → Prop
  valid : ∀ {p}, runs p → p.defect? = none
  allows : σ → Machine → Prop
  /-- The notes while no unit of code is under way. -/
  blank : σ
  /-- The notes after a tick that has led from one machine to another. -/
  note : σ → Machine → Machine → σ

/-- The discipline of a host that runs any code that is valid. -/
def Discipline.onValid {σ : Type} (allows : σ → Machine → Prop) (blank : σ)
    (note : σ → Machine → Machine → σ) : Discipline σ where
  configures _ := True
  runs p := p.defect? = none
  valid := id
  allows := allows
  blank := blank
  note := note

/-- The machines of a host that keeps to a discipline. -/
inductive Disciplined {σ : Type} (D : Discipline σ) :
    (running : Bool) → (owned : List Value) → (notes : σ) → Machine → Prop
  | new {c : Config} {m : Machine} (hc : D.configures c) (h : create c = .ok m) :
      Disciplined D false [] D.blank m
  | enter {owned : List Value} {m m' : Machine} (p : Program) (hm : Disciplined D false owned D.blank m)
      (haborted : ¬m.aborted) (hpending : m.pending = none) (hp : D.runs p)
      (h : enterUnit p.root m = .ok () m') : Disciplined D true owned D.blank m'
  | tick {owned : List Value} {notes : σ} {m m' : Machine} (hm : Disciplined D true owned notes m)
      (hallows : D.allows notes m) (h : tick m = .ok none m') :
      Disciplined D true owned (D.note notes m m') m'
  | leave {owned : List Value} {notes : σ} {m m₁ m' : Machine} {v : Value}
      {r : Except ExecuteError Value} (hm : Disciplined D true owned notes m)
      (hallows : D.allows notes m) (ht : Machine.tick m = .ok (some v) m₁)
      (h : leaveUnit v m₁ = .ok r m') : Disciplined D false (resultHand r ++ owned) D.blank m'
  | release {owned : List Value} {m m' : Machine} {v : Value} (hm : Disciplined D false owned D.blank m)
      (hv : v ∈ owned) (h : release v m = .ok () m') : Disciplined D false (owned.erase v) D.blank m'
  | clearPending {owned : List Value} {m m' : Machine} (hm : Disciplined D false owned D.blank m)
      (h : clearPending m = .ok () m') : Disciplined D false owned D.blank m'

theorem Disciplined.reachable {σ : Type} {D : Discipline σ} {running : Bool} {owned : List Value}
    {notes : σ} {m : Machine} (h : Disciplined D running owned notes m) : Reachable running owned m := by
  induction h with
  | new _ h => exact .new h
  | enter p _ haborted hpending hp h ih => exact .enter p ih haborted hpending (D.valid hp) h
  | tick _ _ h ih => exact .tick ih h
  | leave _ _ ht h ih => exact .leave ih ht h
  | release _ hv h ih => exact .release ih hv h
  | clearPending _ h ih => exact .clearPending ih h

/-- The books are exact, and passes are in order while there are any. -/
structure Machine.Sane (running : Bool) (owned : List Value) (m : Machine) : Prop where
  ledger : Ledger True 0 [] owned m
  sound : running → m.control.Sound
  idle : ¬running → m.suspended = [] ∧ m.context.markers = []

namespace Machine.Sane

variable {owned : List Value} {m m' : Machine}

/-- A unit of code can start on a machine that runs nothing. -/
theorem start (h : m.Sane false owned) (code : Code) : (m.control.start code).Sound := by
  obtain ⟨hsuspended, hmarkers⟩ := h.idle nofun
  refine .start code hsuspended hmarkers fun f hf => ?_
  have hlt := h.ledger.form.framed f (List.mem_append_left _ (List.mem_append_left _ hf))
  simpa [control] using hlt

theorem enter (h : m.Sane false owned) {code : Code} (he : enterUnit code m = .ok () m') :
    m'.Sane true owned := by
  obtain ⟨h₁, hc₁⟩ := (enterUnit_ledger code h.ledger).of_ok he
  exact ⟨h₁, fun _ => hc₁ ▸ h.start code, fun hn => absurd rfl hn⟩

theorem tick (h : m.Sane true owned) (ht : Machine.tick m = .ok none m') : m'.Sane true owned := by
  have hsound := h.sound rfl
  obtain ⟨h₁, i, hi⟩ := (tick_ledger h.ledger fun _ => hsound.closed).of_ok ht
  exact ⟨h₁, fun _ => hsound.tick hi, fun hn => absurd rfl hn⟩

theorem leave (h : m.Sane true owned) {m₁ : Machine} {v : Value} {r : Except ExecuteError Value}
    (ht : Machine.tick m = .ok (some v) m₁) (hl : leaveUnit v m₁ = .ok r m') :
    m'.Sane false (resultHand r ++ owned) := by
  obtain ⟨h₁, i, hi⟩ := (tick_ledger h.ledger fun _ => (h.sound rfl).closed).of_ok ht
  obtain ⟨h₂, hm₂, hs₂, -⟩ := (leaveUnit_ledger h₁).of_ok hl
  exact ⟨h₂, nofun, fun _ => ⟨hs₂.trans hi.suspended_eq_nil, hm₂⟩⟩

theorem release (h : m.Sane false owned) {v : Value} (hv : v ∈ owned)
    (hr : Machine.release v m = .ok () m') : m'.Sane false (owned.erase v) := by
  have h₀ : Ledger True 0 [] (v :: owned.erase v) m := by
    refine h.ledger.keep rfl h.ledger.balanced fun hs => (h.ledger.exact hs).counts.of_tally ?_
    intro r
    have hperm := (List.perm_cons_erase hv).append_right (m.roots [])
    exact ((hperm.filterMap Value.ref?).count_eq r).symm
  obtain ⟨h₁, hq₁⟩ := (release_ledger h₀).of_ok hr
  obtain ⟨hsuspended, hmarkers⟩ := h.idle nofun
  have hc₁ := control_of_skeleton hq₁.1
  exact ⟨h₁, nofun, fun _ => ⟨(congrArg Control.suspended hc₁).trans hsuspended,
    (congrArg (·.context.markers) hc₁).trans hmarkers⟩⟩

theorem clearPending (h : m.Sane false owned) (hp : Machine.clearPending m = .ok () m') :
    m'.Sane false owned := by
  obtain ⟨h₁, hc₁⟩ := ((clearPending_ledger h.ledger).and clearPending_control).of_ok hp
  obtain ⟨hsuspended, hmarkers⟩ := h.idle nofun
  exact ⟨h₁, nofun, fun _ => ⟨(congrArg Control.suspended hc₁).trans hsuspended,
    (congrArg (·.context.markers) hc₁).trans hmarkers⟩⟩

end Machine.Sane

namespace Reachable

variable {running : Bool} {owned : List Value} {m : Machine}

theorem sane (h : Reachable running owned m) : m.Sane running owned := by
  induction h with
  | new h =>
    obtain ⟨hledger, hsuspended, hmarkers, -⟩ := create_ledger h
    exact ⟨hledger, nofun, fun _ => ⟨hsuspended, hmarkers⟩⟩
  | enter p _ _ _ _ h ih => exact ih.enter h
  | tick _ h ih => exact ih.tick h
  | leave _ ht h ih => exact ih.leave ht h
  | release _ hv h ih => exact ih.release hv h
  | clearPending _ h ih => exact ih.clearPending h

theorem run (ticks : Nat) (h : Reachable true owned m) :
    Leads AnyFault (Machine.run ticks) m fun r m' =>
      match r with
      | some v => ∃ m₁, Reachable true owned m₁ ∧ Machine.tick m₁ = .ok (some v) m'
      | none => Reachable true owned m' := by
  induction ticks generalizing m with
  | zero => exact h
  | succ ticks ih =>
    simp only [Machine.run, Leads.bind_eq]
    refine .intro (fun r m₁ hr => ?_) fun _ _ _ => trivial
    cases r with
    | some v => exact ⟨m, h, hr⟩
    | none => exact ih (h.tick hr)

theorem runUnit (ticks : Nat) (p : Program) (h : Reachable false owned m) (haborted : ¬m.aborted)
    (hpending : m.pending = none) (hvalid : p.defect? = none) :
    Leads AnyFault (Machine.runUnit ticks p.root) m fun r m' =>
      r ≠ .error .unfinished → Reachable false (resultHand r ++ owned) m' := by
  simp only [Machine.runUnit, Leads.bind_eq]
  refine .intro (fun _ m₁ h₁ => ?_) fun _ _ _ => trivial
  refine ((h.enter p haborted hpending hvalid h₁).run ticks).mono fun r m₂ hr => ?_
  cases r with
  | none => exact fun hne => absurd rfl hne
  | some v =>
    obtain ⟨m₃, h₃, ht⟩ := hr
    exact .intro (fun r m₄ h₄ _ => h₃.leave ht h₄) fun _ _ _ => trivial

/-- A whole execution is made of these steps. -/
theorem execute (ticks : Nat) (p : Program) (h : Reachable false owned m) :
    Leads AnyFault (Machine.execute ticks p) m fun r m' =>
      r ≠ .error .unfinished → (∀ cause, r ≠ .error (.fatal cause)) →
        Reachable false (resultHand r ++ owned) m' := by
  simp only [Machine.execute, Leads.bind_eq, Leads.get_eq]
  split
  · exact fun _ _ => h
  · next haborted =>
    split
    · exact fun _ _ => h
    · next hpending =>
      rw [Bool.not_eq_true, Option.isSome_eq_false_iff, Option.isNone_iff_eq_none] at hpending
      split
      · exact fun _ _ => h
      · next hvalid =>
        rw [Leads.bind_eq, Leads.tryCatch_eq, Leads.bind_eq]
        have hunit := h.runUnit ticks p haborted hpending (Option.eq_none_iff_forall_ne_some.2 hvalid)
        refine hunit.imp (fun e m₁ _ => ?_) fun r m₁ hr hne _ => hr hne
        split
        · exact fun _ hne => absurd rfl (hne _)
        · trivial

end Reachable

/-- All places that hold a value: registers, constants, variables of live instances, the
messages of exceptions, the main object, instances under construction, and the host. -/
def Machine.places (owned : List Value) (m : Machine) : List Value :=
  m.regs.toList ++ m.constants.map (·.2) ++ m.memory.liveObjects.flatMap (·.body.held)
    ++ [m.excMessage, m.pendingMessage, m.topSelf] ++ m.duties.flatMap Duty.made ++ owned

theorem Memory.total_holding (m : Memory) (r : Ref) :
    total (HeapObject.holding r) m.heap = tally r (m.liveObjects.flatMap (·.body.held)) := by
  unfold total liveObjects
  induction m.heap.toList with
  | nil => rfl
  | cons o os ih =>
    rw [List.map_cons, List.sum_cons, ih, List.filter_cons]
    by_cases ho : o.refCount = 0
    · simp [HeapObject.holding, ho]
    · simp [HeapObject.holding, ho, Nat.pos_of_ne_zero ho, tally_append]

theorem Machine.Sane.count {running : Bool} {owned : List Value} {m : Machine}
    (h : m.Sane running owned) (r : Ref) : Memory.countAt m.memory.heap r = tally r (m.places owned) := by
  have hcount := (h.ledger.exact trivial).counts r
  rw [Memory.total_holding, Memory.drops, tally_append, tally_roots] at hcount
  simp only [places, tally_append]
  rw [tally_cons r m.excMessage, tally_cons r m.pendingMessage]
  simp only [List.nil_append] at hcount
  have hnil : tally r [] = 0 := rfl
  omega

/-- Ownership is exact between any two instructions: the count of an object is the number of
places that hold it, no place holds a freed object, and so neither the next instruction nor
any later execution acquires, releases or uses a released one. -/
theorem ownership_exact {running : Bool} {owned : List Value} {m : Machine}
    (h : Reachable running owned m) :
    (∀ r (hr : r < m.memory.heap.size), m.memory.heap[r].refCount = tally r (m.places owned)) ∧
    (∀ v ∈ m.places owned, ∀ r, v.ref? = some r → ∃ hr : r < m.memory.heap.size,
      0 < m.memory.heap[r].refCount) ∧
    (running → ∀ e m', tick m = .error e m' → ¬e.IsOfReleased) ∧
    (¬running → ∀ ticks p cause m', execute ticks p m = .ok (.error (.fatal cause)) m' →
      ¬(Fault.fatal cause).IsOfReleased) := by
  have hsane := h.sane
  refine ⟨fun r hr => ?_, fun v hv r hr => ?_, fun hrun e m' he => ?_, fun hrun ticks p cause m' he => ?_⟩
  · rw [← hsane.count r, Memory.countAt_of_getElem hr]
  · have hpos := tally_pos_of_mem hv hr
    rw [← hsane.count r] at hpos
    have hlive : m.memory.Live v := by
      intro q hq
      cases hr.symm.trans hq
      exact Nat.ne_of_gt hpos
    have hlt := hlive.lt_size hr
    exact ⟨hlt, Memory.countAt_of_getElem hlt ▸ hpos⟩
  · have hclosed := (hsane.sound hrun).closed
    exact ((tick_ledger hsane.ledger fun _ => hclosed).of_error he).2 trivial
  · have hidle : ¬running → running = false := by simp
    obtain rfl := hidle hrun
    have hexec := execute_ledger (P := Control.Sound) (fun _ hP _ => hP.closed)
      (fun _ _ _ hP ht => hP.tick ht) ticks p hsane.ledger (hsane.start p.root) (hsane.idle nofun).1
    exact (hexec.of_ok he).1 trivial cause rfl

/-- A new machine on which `ticks` instructions of a program were executed. -/
def Program.after (p : Program) (ticks : Nat) : Option Machine :=
  match create {} with
  | .ok m =>
    if m.aborted || m.pending.isSome then none
    else match (enterUnit p.root *> Machine.run ticks) m with
      | .ok none m' => some m'
      | _ => none
  | .error _ => none

theorem Reachable.of_after {p : Program} {ticks : Nat} {m : Machine} (hvalid : p.defect? = none)
    (h : p.after ticks = some m) : Reachable true [] m := by
  unfold Program.after at h
  split at h
  · next m₀ h₀ =>
    split at h
    · cases h
    · next hready =>
      simp only [Bool.or_eq_true, not_or, Bool.not_eq_true, Option.isSome_eq_false_iff,
        Option.isNone_iff_eq_none] at hready
      have hrun : Leads AnyFault (enterUnit p.root *> Machine.run ticks) m₀ fun r m' =>
          r = none → Reachable true [] m' := by
        rw [seqRight_eq_bind, Leads.bind_eq]
        refine .intro (fun _ m₁ h₁ => ?_) fun _ _ _ => trivial
        have hentered := Reachable.enter p (.new h₀) (by simp [hready.1]) hready.2 hvalid h₁
        refine (hentered.run ticks).mono fun r m₂ h₂ hr => ?_
        subst hr
        exact h₂
      split at h
      · next m' hm' =>
        cases h
        exact hrun.of_ok hm' rfl
      · cases h
  · cases h

/-- Code that makes a string, copies it and returns the copy. -/
def copyString : Program where
  blocks := #[{
    registers := 3, pool := #[.ofText "text"],
    code := #[⟨.loadLiteral, 1, 0, 0⟩, ⟨.move, 2, 1, 0⟩, ⟨.leave, 2, 0, 0⟩] }]

/-- Between the copy and the return two registers hold the string. -/
theorem ownership_exact_copyString :
    ∃ m, Reachable true [] m ∧ ∃ hr : 1 < m.memory.heap.size, m.memory.heap[1].refCount = 2 ∧
      m.memory.heap[1].refCount = tally 1 (m.places []) := by
  have hrun : (copyString.after 2).any (fun m => m.memory.heap[1]?.map (·.refCount) == some 2) := by
    decide +kernel
  have hvalid : copyString.defect? = none := Program.defect?_eq_none (by decide +kernel)
  obtain ⟨m, hm, hcount⟩ := (Option.any_eq_true _ _).1 hrun
  have hreach := Reachable.of_after hvalid hm
  obtain ⟨o, ho, hcount⟩ := Option.map_eq_some_iff.1 (beq_iff_eq.1 hcount)
  obtain ⟨hr, rfl⟩ := Array.getElem?_eq_some_iff.1 ho
  exact ⟨m, hreach, hr, hcount, (ownership_exact hreach).1 1 hr⟩

end ObjectMachine
