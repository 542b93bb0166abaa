import ObjectMachine.Proofs.Conduct
import ObjectMachine.Proofs.Enclosure

/-! Instructions that find what they refer to. On a machine whose values refer to objects of the heap,
an instruction ends in no fault but a fatal one or an overdrawn pool: the registers, literals, symbols
and children that it asks for are there. So an instruction with its operands in range stays inside of its
window, in what it reads, what it writes and what it asks for. -/

namespace ObjectMachine.Machine

variable {α β : Type} {m m₁ m' : Machine} {v obj : Value} {c : ClassId} {s : Symbol}

/-- Every reference is to an object of the heap. -/
structure Grounded (m : Machine) : Prop where
  regs : ∀ v ∈ m.regs, v.Within m.memory.heap.size
  constants : ∀ x ∈ m.constants, x.2.Within m.memory.heap.size
  message : m.excMessage.Within m.memory.heap.size
  heap : ∀ o ∈ m.memory.heap, ∀ v ∈ o.body.held, v.Within m.memory.heap.size

/-- A grounded machine that came from `m`. -/
structure Onward (m m' : Machine) : Prop where
  grounded : m'.Grounded
  heap : m.memory.heap.size ≤ m'.memory.heap.size
  regs : m'.regs.size = m.regs.size

theorem Onward.refl (h : m.Grounded) : Onward m m := ⟨h, Nat.le_refl _, rfl⟩

theorem Onward.trans (h : Onward m m₁) (h' : Onward m₁ m') : Onward m m' :=
  ⟨h'.grounded, Nat.le_trans h.heap h'.heap, h'.regs.trans h.regs⟩

/-- The action misses nothing that it asks for, and it ends as `Q` says. -/
def Finds (x : Action α) (m : Machine) (Q : α → Machine → Prop) : Prop :=
  Leads Contained x m fun a m' => Onward m m' ∧ Q a m'

/-- The action misses nothing that it asks for. -/
abbrev Sure (x : Action α) (m : Machine) : Prop := Finds x m fun _ _ => True

/-- A value that refers to an object, if to anything. -/
def Refers (v : Value) (m : Machine) : Prop := v.Within m.memory.heap.size

theorem Refers.onward (h : Refers v m) (h' : Onward m m') : Refers v m' := h.mono h'.heap

theorem refers_immediate (h : v.ref? = none) : Refers v m := Value.within_of_immediate h

namespace Finds

variable {x : Action α} {f : α → Action β} {Q : α → Machine → Prop} {R : β → Machine → Prop}

theorem of_pure {a : α} (h : m.Grounded) (hQ : Q a m) : Finds (pure a) m Q := ⟨.refl h, hQ⟩

theorem of_fatal (cause : FatalCause) : Finds (fatal cause : Action α) m Q := fatal_contained

theorem bind (hx : Finds x m Q) (hf : ∀ a m₁, Onward m m₁ → Q a m₁ → Finds (f a) m₁ R) :
    Finds (x >>= f) m R := by
  rw [Finds, Leads.bind_eq]
  exact hx.mono fun a m₁ h₁ => (hf a m₁ h₁.1 h₁.2).mono fun _ _ h₂ => ⟨h₁.1.trans h₂.1, h₂.2⟩

theorem of_get {f : Machine → Action β} (hf : Finds (f m) m R) : Finds (get >>= f) m R := hf

theorem of_discard (hx : Finds x m Q) : Sure (discard x) m := by
  rw [Sure, Finds, Leads.discard_eq]
  exact Leads.mono hx fun _ _ h => ⟨h.1, trivial⟩

/-- A change of what refers to no object. -/
theorem of_modify {change : Machine → Machine} (h : m.Grounded)
    (hregs : (change m).regs = m.regs) (hconstants : (change m).constants = m.constants)
    (hmessage : (change m).excMessage = m.excMessage) (hheap : (change m).memory.heap = m.memory.heap) :
    Sure (modify change : Action PUnit) m := by
  refine ⟨⟨⟨?_, ?_, ?_, ?_⟩, Nat.le_of_eq (congrArg Array.size hheap).symm, congrArg Array.size hregs⟩,
    trivial⟩
  · rw [hregs, hheap]
    exact h.regs
  · rw [hconstants, hheap]
    exact h.constants
  · rw [hmessage, hheap]
    exact h.message
  · rw [hheap]
    exact h.heap

end Finds

theorem Amends.onward {B : MethodBody → Prop} (hamends : Amends B m m') (h : m.Grounded) :
    Onward m m' := by
  cases hamends <;> exact ⟨{ h with }, Nat.le_refl _, rfl⟩

theorem Clerical.finds {x : Action α} (hx : Clerical (fun _ => True) x) (h : m.Grounded) : Sure x m :=
  (hx.amends m).imp (fun _ _ hfault => hfault.1) fun _ _ hamended =>
    ⟨hamended.keeps (R := Onward m) (fun _ _ hamends h₁ => h₁.trans (hamends.onward h₁.grounded)) (.refl h),
      trivial⟩

theorem present_finds {o : Option α} {a : α} {Q : α → Machine → Prop} (h : m.Grounded) (ho : o = some a)
    (hQ : Q a m) : Finds (present o) m Q := by
  subst ho
  exact .of_pure h hQ

/-! ### Memory and names -/

theorem onMemory_finds {change : Memory → Memory × Option Fault} (h : m.Grounded)
    (hbodies : ∀ o ∈ (change m.memory).1.heap, ∀ v ∈ o.body.held, v.Within m.memory.heap.size)
    (hsize : (change m.memory).1.heap.size = m.memory.heap.size)
    (hfault : ∀ e, (change m.memory).2 = some e → e = .overdrawn ∨ ∃ cause, e = .fatal cause) :
    Sure (onMemory change) m := by
  simp only [Sure, Finds, onMemory, Leads.bind_eq, Leads.modifyGet_eq]
  split
  · next e he => exact hfault e he
  · refine ⟨⟨⟨?_, ?_, ?_, ?_⟩, Nat.le_of_eq hsize.symm, rfl⟩, trivial⟩ <;> dsimp only <;> rw [hsize]
    · exact h.regs
    · exact h.constants
    · exact h.message
    · exact hbodies

theorem release_finds (h : m.Grounded) (hv : Refers v m) : Sure (release v) m := by
  unfold release
  split
  · exact .of_pure h trivial
  · have hempty : ∀ b : ObjectMachine.Body, b.emptied.held = [] := fun b => by cases b <;> rfl
    obtain ⟨hbodies, hsize, hfault⟩ := Memory.settle_within (n := m.memory.heap.size)
      (P := fun b => ∀ v ∈ b.held, v.Within m.memory.heap.size) (fun _ hb => hb)
      (fun b _ v hv => by rw [hempty] at hv; cases hv) [.drop v] rfl h.heap fun c hc => by
        cases List.mem_singleton.1 hc
        exact hv
    exact onMemory_finds h hbodies hsize hfault

theorem acquire_finds (h : m.Grounded) (hv : Refers v m) : Sure (acquire v) m := by
  unfold acquire
  split
  · exact .of_pure h trivial
  · next r hr =>
    have hlt := hv r hr
    refine onMemory_finds h ?_ ?_ fun e he => ?_
    · simp only [Memory.acquire, hr, hlt, dite_true]
      split
      · exact h.heap
      · exact Memory.forall_mem_set hlt h.heap (h.heap m.memory.heap[r] (Array.getElem_mem hlt))
    · simp only [Memory.acquire, hr, hlt, dite_true]
      split
      · rfl
      · exact Array.size_set hlt
    · simp only [Memory.acquire, hr, hlt, dite_true] at he
      split at he
      · exact .inr ⟨_, (Option.some.inj he).symm⟩
      · cases he

theorem allocate?_finds (h : m.Grounded) (size : Int64) (body : ObjectMachine.Body)
    (hbody : ∀ v ∈ body.held, Refers v m) :
    Finds (allocate? size body) m fun r m' => ∀ q, r = some q → q < m'.memory.heap.size := by
  simp only [Finds, allocate?, Leads.modifyGet_eq]
  cases ha : m.memory.allocate? size body with
  | none =>
    refine ⟨.refl h, ?_⟩
    rintro q ⟨⟩
  | some x =>
    obtain ⟨pool, -, rfl⟩ := Option.map_eq_some_iff.1 ha
    have hle : m.memory.heap.size ≤ (m.memory.heap.push { refCount := 1, size, body }).size := by
      rw [Array.size_push]
      exact Nat.le_succ _
    refine ⟨⟨⟨fun v hv => (h.regs v hv).mono hle, fun x hx => (h.constants x hx).mono hle,
      h.message.mono hle, fun o ho v hv => ?_⟩, hle, rfl⟩, ?_⟩
    · rcases Array.mem_push.1 ho with ho | rfl
      · exact (h.heap o ho v hv).mono hle
      · exact (hbody v hv).mono hle
    · rintro q ⟨⟩
      rw [Array.size_push]
      exact Nat.lt_succ_self _

theorem modifyContext_finds (h : m.Grounded) (change : Context → Context) :
    Sure (modifyContext change) m := .of_modify h rfl rfl rfl rfl

theorem modifyFrame_finds (h : m.Grounded) (f : FrameId) (change : Frame → Frame) :
    Sure (modifyFrame f change) m := .of_modify h rfl rfl rfl rfl

/-! ### Registers -/

def HasReg (m : Machine) (j : Int64) : Prop := InFile m.regs.size j

theorem HasReg.onward {j : Int64} (h : m.HasReg j) (h' : Onward m m') : m'.HasReg j := by
  unfold HasReg
  rw [h'.regs]
  exact h

theorem reg_finds {j : Int64} (h : m.Grounded) (hj : m.HasReg j) :
    Finds (reg j) m fun v m' => Refers v m' ∧ m' = m := by
  obtain ⟨v, hv⟩ := entryAt?_isSome hj.1 hj.2
  exact .of_get (present_finds h hv ⟨h.regs v (mem_of_entryAt? hv), rfl⟩)

theorem exchangeReg_finds {j : Int64} (h : m.Grounded) (hj : m.HasReg j) (hv : Refers v m) :
    Finds (exchangeReg j v) m fun old m' => Refers old m' ∧ m'.context = m.context := by
  refine (reg_finds h hj).bind fun old m₁ _ ⟨hold, heq⟩ => ?_
  subst heq
  refine ⟨⟨{ h with regs := fun x hx => ?_ }, Nat.le_refl _, Array.size_setIfInBounds⟩, hold, rfl⟩
  rcases Array.mem_or_eq_of_mem_setIfInBounds hx with hx | rfl
  · exact h.regs x hx
  · exact hv

theorem setReg_finds {j : Int64} (h : m.Grounded) (hj : m.HasReg j) (hv : Refers v m) :
    Sure (setReg j v) m :=
  (exchangeReg_finds h hj hv).bind fun _ _ h₁ hold => release_finds h₁.grounded hold.1

theorem clearRegs_finds {start : Int64} {count : Nat} (h : m.Grounded) (hlow : 0 ≤ start.toInt)
    (htop : start.toInt + count ≤ m.regs.size) (hsmall : m.regs.size < 2 ^ 63) :
    Sure (clearRegs start count) m := by
  induction count generalizing start m with
  | zero => exact .of_pure h trivial
  | succ count ih =>
    have hone : (1 : Int64).toInt = 1 := rfl
    have hnext : (start + 1).toInt = start.toInt + 1 := toInt_add (by omega) (by omega)
    have hstart : m.HasReg start := ⟨hlow, by omega⟩
    refine (setReg_finds h hstart (refers_immediate rfl)).bind fun _ m₁ h₁ _ => ?_
    have hregs := h₁.regs
    exact ih h₁.grounded (by omega) (by omega) (by omega)

theorem Grounded.constant? (h : m.Grounded) (hv : m.constant? s = some v) : Refers v m := by
  obtain ⟨a, b, heq, -⟩ := List.lookup_eq_some_iff.1 hv
  exact h.constants (s, v) (by simp [heq])

theorem setConstant_finds (h : m.Grounded) (s : Symbol) (hv : Refers v m) :
    Sure (setConstant s v) m := by
  have hbind : ∀ m₁, Onward m m₁ →
      Sure (modify fun m => { m with constants := rebind s v m.constants } : Action Unit) m₁ := by
    refine fun m₁ h₁ => ⟨⟨{ h₁.grounded with constants := fun x hx => ?_ }, Nat.le_refl _, rfl⟩, trivial⟩
    rcases mem_rebind hx with rfl | hx
    · exact (hv.onward h₁ : Refers v m₁)
    · exact h₁.grounded.constants x hx
  refine (acquire_finds h hv).bind fun _ m₁ h₁ _ => .of_get ?_
  split
  · next hold =>
    exact (release_finds h₁.grounded (h₁.grounded.constant? hold)).bind fun _ m₂ h₂ _ =>
      hbind m₂ (h₁.trans h₂)
  · exact hbind m₁ h₁

theorem getConstant_finds (h : m.Grounded) (s : Symbol) : Finds (getConstant s) m Refers := by
  refine .of_get ?_
  split
  · next hv =>
    have hrefers := h.constant? hv
    exact (acquire_finds h hrefers).bind fun _ _ h₁ _ => .of_pure h₁.grounded (hrefers.onward h₁)
  · exact .of_pure h (refers_immediate rfl)

theorem defineClass_finds (h : m.Grounded) (name : Text) (super : Option ClassId) :
    Sure (defineClass name super) m := by
  refine ((intern_clerical name).finds h).bind fun s m₁ h₁ _ => .of_get ?_
  split
  · exact .of_pure h₁.grounded trivial
  · exact .of_fatal _
  · refine .of_get ?_
    split
    · refine Finds.bind (Q := fun _ _ => True) ⟨⟨{ h₁.grounded with }, Nat.le_refl _, rfl⟩, trivial⟩
        fun _ m₂ h₂ _ => ?_
      exact (setConstant_finds h₂.grounded s (refers_immediate rfl)).bind fun _ _ h₃ _ =>
        .of_pure h₃.grounded trivial
    · exact .of_fatal _

/-! ### Objects -/

theorem newString_finds (h : m.Grounded) (t : Text) : Finds (newString t) m Refers := by
  refine (allocate?_finds h _ (.string t) nofun).bind fun r m₁ h₁ hr => ?_
  cases r with
  | none => exact .of_pure h₁.grounded (refers_immediate rfl)
  | some r =>
    refine .of_pure h₁.grounded fun q hq => ?_
    cases hq
    exact hr r rfl

theorem newProc_finds (h : m.Grounded) (hbase : m.HasReg m.context.base) (code : Code) :
    Finds (newProc code) m Refers := by
  refine .of_get ((reg_finds h hbase).bind fun v m₁ h₁ _ => ?_)
  refine (allocate?_finds h₁.grounded _ (.proc code _ _) nofun).bind fun r m₂ h₂ hr => ?_
  cases r with
  | none => exact .of_pure h₂.grounded (refers_immediate rfl)
  | some r =>
    refine .of_pure h₂.grounded fun q hq => ?_
    cases hq
    exact hr r rfl

theorem Grounded.instance? (h : m.Grounded) {r : Ref} {t : VariableTable}
    (hi : m.instance? v = some (r, c, t)) : ∀ x ∈ t.values, Refers x m := by
  unfold Machine.instance? at hi
  split at hi
  · split at hi
    · next ho =>
      cases hi
      exact fun x hx => h.heap _ (Array.mem_of_getElem? ho) x hx
    · cases hi
  · cases hi

theorem getVariable_finds (h : m.Grounded) (obj : Value) (s : Symbol) :
    Finds (getVariable obj s) m Refers := by
  refine .of_get ?_
  split
  · exact .of_pure h (refers_immediate rfl)
  · next r c t hi =>
    refine ((mustBeLive_clerical obj).finds h).bind fun _ m₁ h₁ _ => ?_
    split
    · exact .of_pure h₁.grounded (refers_immediate rfl)
    · next v hget =>
      have hmem : v ∈ t.values := by
        obtain ⟨a, b, heq, -⟩ := List.lookup_eq_some_iff.1 hget
        simp [VariableTable.values, heq]
      have hrefers := (h.instance? hi v hmem).onward h₁
      exact (acquire_finds h₁.grounded hrefers).bind fun _ _ h₂ _ =>
        .of_pure h₂.grounded (hrefers.onward h₂)

theorem putVariables_finds (h : m.Grounded) (r : Ref) {t : VariableTable} (pool : Pool)
    (ht : ∀ x ∈ t.values, Refers x m) : Sure (putVariables r t pool) m := by
  refine ⟨⟨⟨?_, ?_, ?_, fun o ho => ?_⟩, Nat.le_of_eq (by simp), rfl⟩, trivial⟩
  all_goals dsimp only
  all_goals rw [Array.size_modify]
  · exact h.regs
  · exact h.constants
  · exact h.message
  · obtain ⟨i, hi, rfl⟩ := Array.mem_iff_getElem.1 ho
    rw [Array.getElem_modify]
    have hlt : i < m.memory.heap.size := by simpa using hi
    have hold := h.heap _ (Array.getElem_mem hlt)
    split
    · split
      · exact ht
      · exact hold
    · exact hold

theorem setVariable_finds (h : m.Grounded) (obj : Value) (s : Symbol) (hv : Refers v m) :
    Sure (setVariable obj s v) m := by
  refine .of_get ?_
  split
  · exact .of_pure h trivial
  · refine ((mustBeLive_clerical obj).finds h).bind fun _ m₁ h₁ _ =>
      (acquire_finds h₁.grounded (hv.onward h₁)).bind fun _ m₂ h₂ _ => .of_get ?_
    have hv₂ := hv.onward (h₁.trans h₂)
    split
    · next r c t hi =>
      have hvalues := h₂.grounded.instance? hi
      split
      · exact release_finds h₂.grounded hv₂
      · next t' pool old hset =>
        obtain ⟨hnew, hold⟩ := values_of_set? hset
        have ht' : ∀ x ∈ t'.values, Refers x m₂ := by
          intro x hx
          rcases hnew x hx with rfl | hx
          · exact hv₂
          · exact hvalues x hx
        refine (putVariables_finds h₂.grounded r pool ht').bind fun _ m₃ h₃ _ => ?_
        split
        · next x => exact release_finds h₃.grounded ((hvalues x (hold x rfl)).onward h₃)
        · exact .of_pure h₃.grounded trivial
    · exact .of_pure h₂.grounded trivial

/-! ### Frames -/

theorem pushFrame_finds (h : m.Grounded) (methodId : Symbol) (offset nargs : Int64) :
    Finds (pushFrame methodId offset nargs) m fun _ m' => m'.context = m.context :=
  pushFrame_contained methodId offset nargs fun _ => ⟨⟨{ h with }, Nat.le_refl _, rfl⟩, rfl⟩

theorem freeFrame_finds (h : m.Grounded) (f : FrameId) : Sure (freeFrame f) m := by
  have hfree : ∀ m₁ : Machine, m₁.Grounded → Sure (do
      modifyFrame f fun k => { k with freed := true }
      refund frameBytes) m₁ :=
    fun _ h₁ => (modifyFrame_finds h₁ f _).bind fun _ _ h₂ _ => (refund_clerical _).finds h₂.grounded
  refine .of_get ?_
  split
  · exact ((releaseMethod_clerical _).finds h).bind fun _ _ h₁ _ => (modifyFrame_finds h₁.grounded f _).bind
      fun _ m₂ h₂ _ => hfree m₂ h₂.grounded
  · exact hfree m h

theorem dropMarkers_finds (fs : List FrameId) (h : m.Grounded) : Sure (dropMarkers fs) m := by
  induction fs generalizing m with
  | nil => exact .of_pure h trivial
  | cons f rest ih =>
    exact (modifyContext_finds h _).bind fun _ _ h₁ _ => (freeFrame_finds h₁.grounded f).bind
      fun _ _ h₂ _ => ih h₂.grounded

theorem popFrame_finds (h : m.Grounded) : Sure popFrame m := by
  refine .of_get ?_
  split
  · exact .of_fatal _
  · next f rest _ =>
    have hpop : ∀ (m₁ : Machine) (x : Action Unit), m₁.Grounded →
        (∀ m₂ : Machine, m₂.Grounded → Sure x m₂) → Sure (do
          modify fun m₁ => { m₁ with
            chain := rest
            context := { m₁.context with
              base := (m.frameAt f).base, code := (m.frameAt f).code, pc := (m.frameAt f).pc,
              targetClass := (m.frameAt f).targetClass } }
          freeFrame f
          x) m₁ :=
      fun m₁ x h₁ hx => Finds.bind (.of_modify h₁ rfl rfl rfl rfl) fun _ _ h₂ _ =>
        (freeFrame_finds h₂.grounded f).bind fun _ m₃ h₃ _ => hx m₃ h₃.grounded
    refine .of_get ?_
    dsimp only
    split
    · exact (Finds.of_get (dropMarkers_finds _ h)).bind fun _ m₁ h₁ _ => hpop m₁ _ h₁.grounded
        fun _ h₂ => .of_modify h₂ rfl rfl rfl rfl
    · exact hpop m _ h fun _ h₂ => .of_pure h₂ trivial

theorem popUntil_finds (target : Option FrameId) (fs : List FrameId) (h : m.Grounded) :
    Sure (popUntil target fs) m := by
  induction fs generalizing m with
  | nil =>
    rw [popUntil]
    split
    · exact .of_pure h trivial
    · exact .of_fatal _
  | cons f rest ih =>
    rw [popUntil]
    split
    · exact .of_pure h trivial
    · exact (popFrame_finds h).bind fun _ _ h₁ _ => ih h₁.grounded

theorem unwindTo_finds (target : Option FrameId) (h : m.Grounded) :
    Finds (unwindTo target) m fun _ m' => m'.exception = m.exception := by
  have hsame : Leads AnyFault (unwindTo target) m fun _ m' => m'.exception = m.exception :=
    (unwindTo_control target).mono fun _ _ hu => (Control.popUntil_sameSignal hu).exception
  have hfinds : Sure (unwindTo target) m := .of_get (popUntil_finds _ _ h)
  exact (Leads.and hfinds hsame).mono fun _ _ h' => ⟨h'.1.1, h'.2⟩

theorem pushMarker_finds (h : m.Grounded) (tag : FrameTag) (pc : Int64) : Sure (pushMarker tag pc) m := by
  refine ((charge_clerical _).finds h).bind fun granted m₁ h₁ _ => ?_
  split
  · exact .of_fatal _
  · exact .of_modify h₁.grounded rfl rfl rfl rfl

/-! ### Exceptions -/

theorem clearException_finds (h : m.Grounded) : Sure clearException m :=
  .of_get <| Finds.bind (Q := fun _ m' => m'.memory = m.memory)
    ⟨⟨{ h with message := refers_immediate rfl }, Nat.le_refl _, rfl⟩, rfl⟩ fun _ _ h₁ hmemory => by
      refine release_finds h₁.grounded ?_
      unfold Refers
      rw [hmemory]
      exact h.message

/-- There has to be an exception to settle. -/
theorem settlePending_finds (h : m.Grounded) (hexc : m.exception ≠ none) : Sure settlePending m := by
  have hend : ∀ m₁ : Machine, m₁.Grounded → m₁.pending ≠ none → Sure (do
      modify fun m => { m with
        exception := none
        excMessage := .nil
        context := { m.context with excState := .normal, settleOnReturn := false } }
      if (← get).pending.isNone then throw .outOfBounds : Action Unit) m₁ := by
    intro m₁ h₁ hpending
    refine Finds.bind (Q := fun _ m' => m'.pending = m₁.pending)
      ⟨⟨{ h₁ with message := refers_immediate rfl }, Nat.le_refl _, rfl⟩, rfl⟩ fun _ m₂ h₂ heq => .of_get ?_
    split
    · next hnone => exact absurd (heq.symm.trans (Option.isNone_iff_eq_none.1 hnone)) hpending
    · exact .of_pure h₂.grounded trivial
  refine .of_get ?_
  split
  · exact Finds.bind (Q := fun _ m' => m'.pending = m.exception) ⟨⟨{ h with }, Nat.le_refl _, rfl⟩, rfl⟩
      fun _ m₁ h₁ heq => hend m₁ h₁.grounded (heq ▸ hexc)
  · next hpending =>
    have hrelease : Finds (release m.excMessage) m fun _ m' => m'.pending = m.pending :=
      (Leads.and (release_finds h h.message) (release_control _)).mono fun _ _ ⟨h₁, hc⟩ =>
        ⟨h₁.1, congrArg Control.pending hc⟩
    exact hrelease.bind fun _ m₁ h₁ heq => hend m₁ h₁.grounded (heq ▸ by simpa using hpending)

theorem spliceNext_finds (h : m.Grounded) :
    Finds spliceNext m fun _ m' => m'.exception = m.exception := by
  simp only [Finds, spliceNext, Leads.modify_eq]
  split <;> exact ⟨⟨{ h with }, Nat.le_refl _, rfl⟩, rfl⟩

/-- There has to be an exception in flight. -/
theorem resumeAt_finds (f : FrameId) (h : m.Grounded) (hexc : m.exception ≠ none) :
    Sure (resumeAt f) m := by
  have hend : ∀ m₁ : Machine, m₁.Grounded → m₁.exception ≠ none → Sure (do
      if (← get).exception.isNone then throw .outOfBounds
      freeFrame f
      modify fun m => { m with jumped := true } : Action Unit) m₁ := by
    intro m₁ h₁ hexc₁
    refine .of_get ?_
    split
    · next hnone => exact absurd (Option.isNone_iff_eq_none.1 hnone) hexc₁
    · exact (freeFrame_finds h₁ f).bind fun _ _ h₂ _ => .of_modify h₂.grounded rfl rfl rfl rfl
  have hturn : ∀ (m₁ : Machine) (change : Context → Context), m₁.Grounded →
      Finds (modifyContext change) m₁ fun _ m' => m'.exception = m₁.exception :=
    fun _ _ h₁ => ⟨⟨{ h₁ with }, Nat.le_refl _, rfl⟩, rfl⟩
  refine .of_get ((unwindTo_finds _ h).bind fun _ m₁ h₁ heq₁ =>
    (hturn m₁ _ h₁.grounded).bind fun _ m₂ h₂ heq₂ => ?_)
  have hexc₂ : m₂.exception ≠ none := by rwa [heq₂, heq₁]
  split
  · exact (hturn m₂ _ h₂.grounded).bind fun _ m₃ h₃ heq₃ => hend m₃ h₃.grounded (heq₃ ▸ hexc₂)
  · exact (hturn m₂ _ h₂.grounded).bind fun _ m₃ h₃ heq₃ => (spliceNext_finds h₃.grounded).bind
      fun _ m₄ h₄ heq₄ => hend m₄ h₄.grounded (heq₄ ▸ heq₃ ▸ hexc₂)

theorem deliverException_finds (h : m.Grounded) (hexc : m.exception ≠ none) :
    Sure deliverException m := by
  refine .of_get ?_
  split
  · next f _ =>
    exact (unwindTo_finds _ h).bind fun _ m₁ h₁ heq₁ =>
      Finds.bind (Q := fun _ m' => m'.exception = m₁.exception)
        ⟨⟨{ h₁.grounded with }, Nat.le_refl _, rfl⟩, rfl⟩ fun _ m₂ h₂ heq₂ =>
          resumeAt_finds f h₂.grounded (heq₂ ▸ heq₁ ▸ hexc)
  · refine .of_get ?_
    split
    · next f rest _ =>
      exact Finds.bind (Q := fun _ m' => m'.exception = m.exception)
        ⟨⟨{ h with }, Nat.le_refl _, rfl⟩, rfl⟩ fun _ m₁ h₁ heq => resumeAt_finds f h₁.grounded (heq ▸ hexc)
    · exact Finds.bind (Q := fun _ m' => m'.exception = m.exception)
        ⟨⟨{ h with }, Nat.le_refl _, rfl⟩, rfl⟩ fun _ m₁ h₁ heq =>
          settlePending_finds h₁.grounded (heq ▸ hexc)

theorem raise_finds (h : m.Grounded) (c : ClassId) (hv : Refers v m) : Sure (raise c v) m := by
  refine Finds.bind (.of_modify h rfl rfl rfl rfl) fun _ m₁ h₁ _ => .of_get ?_
  split
  · refine (acquire_finds h₁.grounded (hv.onward h₁)).bind fun _ m₂ h₂ _ => ?_
    have hv₂ := hv.onward (h₁.trans h₂)
    exact Finds.bind (Q := fun _ m' => m'.exception = some c)
      ⟨⟨{ h₂.grounded with message := hv₂ }, Nat.le_refl _, rfl⟩, rfl⟩ fun _ m₃ h₃ heq =>
        deliverException_finds h₃.grounded (by rw [heq]; nofun)
  · next hexc => exact deliverException_finds h₁.grounded (by simpa using hexc)

theorem raiseText_finds (h : m.Grounded) (c : ClassId) (t : Text) : Sure (raiseText c t) m :=
  (newString_finds h t).bind fun _ _ h₁ hv => (raise_finds h₁.grounded c hv).bind fun _ _ h₂ _ =>
    release_finds h₂.grounded (hv.onward h₂)

/-! ### Parts of instructions -/

variable {code : Code} {i : Inst} {a b k : Int64}

theorem currentCode_finds (h : m.Grounded) (hc : m.context.code = some code) :
    Finds currentCode m fun c m' => c = code ∧ m' = m :=
  currentCode_contained hc ⟨.refl h, rfl, rfl⟩

theorem codeSymbol_finds (h : m.Grounded) (hc : m.context.code = some code) (hlow : 0 ≤ b.toInt)
    (hhigh : b.toInt < code.block.symbols.size) : Sure (codeSymbol b) m := by
  refine (currentCode_finds h hc).bind ?_
  rintro code _ _ ⟨rfl, rfl⟩
  refine Finds.bind (Q := fun ids _ => ids.length = code.block.symbols.size)
    ⟨⟨{ h with }, Nat.le_refl _, rfl⟩, ?_⟩ fun ids m₂ h₂ hlength => ?_
  · exact (length_internAll _ _).trans Array.length_toList
  · have hlt : b.toInt < ids.toArray.size := by rwa [List.size_toArray, hlength]
    obtain ⟨k, hk⟩ := entryAt?_isSome hlow hlt
    exact present_finds h₂.grounded hk trivial

theorem variableSymbol_finds (h : m.Grounded) (hc : m.context.code = some code) (hlow : 0 ≤ b.toInt)
    (hhigh : b.toInt < code.block.symbols.size) : Sure (variableSymbol b) m := by
  refine (currentCode_finds h hc).bind ?_
  rintro _ _ h₁ ⟨rfl, rfl⟩
  obtain ⟨name, hname⟩ := entryAt?_isSome hlow hhigh
  exact (present_finds (Q := fun _ _ => True) h hname trivial).bind fun _ _ h₂ _ =>
    (intern_clerical _).finds h₂.grounded

theorem literalValue_finds (h : m.Grounded) (l : Literal) : Finds (literalValue l) m Refers := by
  rcases literalValue_cases l with ⟨v, hv, -, hl⟩ | hl <;> rw [hl]
  · exact .of_pure h (refers_immediate hv)
  · exact newString_finds h l.text

theorem enterBody_finds (h : m.Grounded) (hc : m.context.code = some code) (c : ClassId)
    (hlow : 0 ≤ b.toInt) (hhigh : b.toInt < code.block.children.size) : Sure (enterBody a c b) m := by
  obtain ⟨child, hchild⟩ := Code.child?_isSome hlow hhigh
  refine .of_get ((pushFrame_finds h _ _ _).bind fun f m₁ h₁ hcontext => ?_)
  refine Finds.bind (Q := fun _ m' => m'.context = m₁.context)
    ⟨⟨{ h₁.grounded with }, Nat.le_refl _, rfl⟩, rfl⟩ fun _ m₂ h₂ hcontext₂ => ?_
  refine (currentCode_finds h₂.grounded (by rw [hcontext₂, hcontext, hc])).bind ?_
  rintro _ _ h₃ ⟨rfl, rfl⟩
  exact (present_finds (Q := fun _ _ => True) h₂.grounded hchild trivial).bind fun _ _ h₄ _ =>
    (modifyContext_finds h₄.grounded _).bind fun _ _ h₅ _ =>
      ((enterWindow_clerical _ _).finds h₅.grounded).bind fun _ _ h₆ _ =>
        .of_modify h₆.grounded rfl rfl rfl rfl

theorem takeException_finds (h : m.Grounded) (ha : m.HasReg (m.context.base + a))
    (hnext : m.HasReg (m.context.base + a + 1)) : Sure (takeException a) m := by
  refine .of_get (.of_get ?_)
  split
  · exact (setReg_finds h ha (refers_immediate rfl)).bind fun _ _ h₁ _ =>
      setReg_finds h₁.grounded (hnext.onward h₁) (refers_immediate rfl)
  · refine .of_get ((setReg_finds h ha (refers_immediate rfl)).bind fun _ m₁ h₁ _ => ?_)
    have hmessage : Refers m.excMessage m₁ := Refers.onward h.message h₁
    refine Finds.bind (Q := fun _ m' => m'.memory = m₁.memory)
      ⟨⟨{ h₁.grounded with message := refers_immediate rfl }, Nat.le_refl _, rfl⟩, rfl⟩
      fun _ m₂ h₂ _ => ?_
    exact (setReg_finds h₂.grounded (hnext.onward (h₁.trans h₂)) (hmessage.onward h₂)).bind
      fun _ _ h₃ _ => clearException_finds h₃.grounded

namespace Windowed

theorem hasReg (hm : Windowed code m) (hk : code.block.HasRegister k) :
    m.HasReg (m.context.base + k) := by
  have hsum := hm.toInt_add hk
  obtain ⟨hlow, hhigh⟩ := hk
  have hbase := hm.low
  have htop := hm.top
  exact ⟨by omega, by omega⟩

theorem hasReg_base (hm : Windowed code m) (hk : code.block.HasRegister k) :
    m.HasReg m.context.base := by
  obtain ⟨hlow, hhigh⟩ := hk
  have htop := hm.top
  exact ⟨hm.low, by omega⟩

end Windowed

theorem leaveFrame_finds (h : m.Grounded) (hm : Windowed code m) (ha : code.block.HasRegister a) :
    Sure (leaveFrame a) m := by
  refine .of_get ((exchangeReg_finds h (hm.hasReg ha) (refers_immediate rfl)).bind
    fun result m₁ h₁ ⟨hresult, hcontext⟩ => .of_get ?_)
  split
  · exact .of_pure h₁.grounded trivial
  · have hsize : Finds currentSize m₁ fun size m' => size = code.block.registers ∧ m' = m₁ := by
      refine (currentCode_finds h₁.grounded (hcontext ▸ hm.running)).bind ?_
      rintro _ _ _ ⟨rfl, rfl⟩
      exact .of_pure h₁.grounded ⟨rfl, rfl⟩
    refine hsize.bind ?_
    rintro _ _ _ ⟨rfl, rfl⟩
    obtain ⟨hstart, hend⟩ := hm.rest ha
    have hlow := hm.low
    have htop := hm.top
    have hsmall := hm.small
    have hregs := h₁.regs
    refine (clearRegs_finds h₁.grounded (by omega) (by omega) (by omega)).bind fun _ m₂ h₂ _ => ?_
    exact (setReg_finds h₂.grounded ((hm.hasReg_base ha).onward (h₁.trans h₂))
      (hresult.onward h₂)).bind fun _ _ h₃ _ => (popFrame_finds h₃.grounded).bind fun _ _ h₄ _ =>
        .of_pure h₄.grounded trivial

/-- A return that goes on with the unwinding needs an exception to go on with. -/
theorem leave_finds (h : m.Grounded) (hm : Windowed code m) (ha : code.block.HasRegister a)
    (hexc : m.topMarker?.isSome ∨ m.settlesOnReturn → m.exception ≠ none) : Sure (leave a) m := by
  refine .of_get ?_
  split
  · next f hf =>
    have hexc' : m.exception ≠ none := hexc (.inl (hf ▸ rfl))
    exact Finds.bind (Q := fun _ m' => m'.exception = m.exception)
      ⟨⟨{ h with }, Nat.le_refl _, rfl⟩, rfl⟩ fun _ _ h₁ heq =>
        (resumeAt_finds f h₁.grounded (heq ▸ hexc')).bind fun _ _ h₂ _ => .of_pure h₂.grounded trivial
  · split
    · next hsettles =>
      exact (settlePending_finds h (hexc (.inr hsettles))).bind fun _ _ h₁ _ => .of_pure h₁.grounded trivial
    · exact leaveFrame_finds h hm ha

/-- Outside of a block the receiver is in the window. -/
theorem self_finds (h : m.Grounded) (hbase : m.HasReg m.context.base)
    (hblock : (m.blockAt m.context.base).isSome → m.receiver?.isSome) :
    Finds self m fun v m' => Refers v m' ∧ m' = m := by
  have hreceiver : m.receiver?.isSome := by
    cases hb : m.blockAt m.context.base with
    | some p => exact hblock (by rw [hb]; rfl)
    | none =>
      obtain ⟨v, hv⟩ := entryAt?_isSome hbase.1 hbase.2
      rw [receiver?_of_plain hb, hv]
      rfl
  obtain ⟨v, hv⟩ := Option.isSome_iff_exists.1 hreceiver
  rw [Finds, Leads, self_eq_present, hv]
  exact ⟨.refl h, h.regs v (mem_of_entryAt? hv), rfl⟩

section Instruction

variable (h : m.Grounded) (hm : Windowed code m) (hi : i.InRange code.block) (hop : i.op ∉ Opcode.outward)
  (hself : i.op ∈ Opcode.personal → (m.blockAt m.context.base).isSome → m.receiver?.isSome)

include hm hi hop

theorem Uses.hasReg {j : Int64} (hj : Uses i m j) (h₁ : Onward m m₁) : m₁.HasReg j := by
  obtain ⟨k, rfl, hk⟩ := hj.hasRegister hi hop
  exact (hm.hasReg hk).onward h₁

include h hself

/-- In the end, an instruction refers to what is there. -/
theorem Concludes.finds {fresh : Bool} {known : List Value} {x : Action Progress}
    (hcon : Concludes i m fresh known x) (h₁ : Onward m m₁) (hknown : ∀ v ∈ known, Refers v m₁)
    (hfresh : fresh = true → m₁ = m) : Sure x m₁ := by
  have hlast : ∀ {α : Type} {m₂ : Machine} {x : Action α}, Sure x m₂ →
      Sure (x >>= fun _ => pure Progress.same) m₂ :=
    fun hx => hx.bind fun _ _ h₂ _ => .of_pure h₂.grounded trivial
  cases hcon with
  | done => exact .of_pure h₁.grounded trivial
  | setVariable s _ _ hv => exact hlast (setVariable_finds h₁.grounded _ s (hknown _ hv))
  | setConstant s hv => exact hlast (setConstant_finds h₁.grounded s (hknown _ hv))
  | install c s _ _ => exact hlast ((installCode?_clerical c s trivial).finds h₁.grounded).of_discard
  | goto _ _ _ => exact hlast (modifyContext_finds h₁.grounded _)
  | enterBody _ _ slot hk _ _ =>
    obtain rfl := hfresh rfl
    obtain ⟨hlow, hhigh⟩ := hi slot _ _ hk
    exact hlast (enterBody_finds h hm.running _ hlow hhigh)
  | protect tag _ _ _ _ => exact hlast (pushMarker_finds h₁.grounded tag _)
  | popMarkers _ => exact hlast (Finds.of_get (dropMarkers_finds _ h₁.grounded))
  | takeException htake ha =>
    obtain rfl := hfresh rfl
    exact hlast (takeException_finds h ((Uses.operand 0 ha).hasReg hm hi hop h₁)
      ((Uses.next ha (by rw [htake]; rfl)).hasReg hm hi hop h₁))
  | raise _ _ hv => exact hlast (raise_finds h₁.grounded _ (hknown _ hv))
  | raiseText t _ _ => exact hlast (raiseText_finds h₁.grounded _ t)
  | send hout | sendBlock hout | callSuper hout => exact absurd (by simp [Opcode.outward, hout]) hop
  | unknown number =>
    obtain rfl := hfresh rfl
    exact (currentCode_finds h hm.running).bind fun _ _ _ _ => .of_get (.of_fatal _)

/-- What is left of an instruction that ends nothing refers to what is there. -/
theorem Composed.finds {fresh : Bool} {held known : List Value} {x : Action Progress}
    (hcomp : Composed i m fresh held known x) (h₁ : Onward m m₁) (hheld : ∀ v ∈ held, Refers v m₁)
    (hknown : ∀ v ∈ known, Refers v m₁) (hfresh : fresh = true → m₁ = m) : Sure x m₁ := by
  have hold : ∀ {m₂ : Machine}, false = true → m₂ = m := nofun
  have hnone : ∀ {m₂ : Machine}, ∀ v ∈ ([] : List Value), Refers v m₂ := nofun
  have hmore : ∀ {m₂ m₃ : Machine} {vs : List Value} {v : Value}, Onward m₂ m₃ →
      (∀ v ∈ vs, Refers v m₂) → Refers v m₃ → ∀ w ∈ v :: vs, Refers w m₃ := fun hs hvs hv =>
    List.forall_mem_cons.2 ⟨hv, fun w hw => (hvs w hw).onward hs⟩
  induction hcomp generalizing m₁ with
  | read hj _ ih =>
    refine (reg_finds h₁.grounded (hj.hasReg hm hi hop h₁)).bind ?_
    rintro v _ - ⟨hv, rfl⟩
    exact ih v h₁ hheld (hmore (.refl h₁.grounded) hknown hv) hfresh
  | self hpersonal _ ih =>
    obtain rfl := hfresh rfl
    have ha : i.operands[0]? = some (.register, i.a) := by
      simp only [Opcode.personal, List.mem_cons, List.not_mem_nil, or_false] at hpersonal
      rcases hpersonal with hop | hop | hop <;> (simp only [Inst.operands, hop]; rfl)
    refine (self_finds h (hm.hasReg_base (hi.register 0 ha)) (hself hpersonal)).bind ?_
    rintro v _ - ⟨hv, rfl⟩
    exact ih v h₁ hheld (hmore h₁ hknown hv) hfresh
  | consult _ _ ih => exact .of_get (ih m₁ hfresh h₁ hheld hknown hfresh)
  | outer hout _ _ _ _ =>
    refine absurd ?_ hop
    rcases hout with hout | hout <;> simp [Opcode.outward, hout]
  | name slot hk _ ih =>
    obtain rfl := hfresh rfl
    obtain ⟨hlow, hhigh⟩ := hi slot _ _ hk
    obtain ⟨t, ht⟩ := entryAt?_isSome hlow hhigh
    refine (currentCode_finds h hm.running).bind ?_
    rintro code m - ⟨rfl, rfl⟩
    refine (present_finds (Q := fun _ m' => m' = m) h ht rfl).bind ?_
    rintro t _ - rfl
    exact ih t h₁ hheld hknown hfresh
  | symbol slot hk _ ih =>
    obtain rfl := hfresh rfl
    obtain ⟨hlow, hhigh⟩ := hi slot _ _ hk
    exact (codeSymbol_finds h hm.running hlow hhigh).bind fun s _ h₂ _ =>
      ih s h₂ (fun v hv => (hheld v hv).onward h₂) (fun v hv => (hknown v hv).onward h₂) hold
  | «variable» slot hk _ ih =>
    obtain rfl := hfresh rfl
    obtain ⟨hlow, hhigh⟩ := hi slot _ _ hk
    exact (variableSymbol_finds h hm.running hlow hhigh).bind fun s _ h₂ _ =>
      ih s h₂ (fun v hv => (hheld v hv).onward h₂) (fun v hv => (hknown v hv).onward h₂) hold
  | immediate v href _ _ ih =>
    exact ih h₁ (hmore (.refl h₁.grounded) hheld (refers_immediate href)) hknown hfresh
  | target _ ih =>
    refine ih h₁ (hmore (.refl h₁.grounded) hheld (refers_immediate ?_)) hknown hfresh
    cases m.context.targetClass <;> rfl
  | share hv _ ih =>
    exact (acquire_finds h₁.grounded (hknown _ hv)).bind fun _ _ h₂ _ =>
      ih (h₁.trans h₂) (hmore h₂ hheld ((hknown _ hv).onward h₂)) hnone hold
  | literal slot hk _ ih =>
    obtain rfl := hfresh rfl
    obtain ⟨hlow, hhigh⟩ := hi slot _ _ hk
    obtain ⟨l, hl⟩ := entryAt?_isSome hlow hhigh
    refine (currentCode_finds h hm.running).bind ?_
    rintro code m - ⟨rfl, rfl⟩
    refine (present_finds (Q := fun _ m' => m' = m) h hl rfl).bind ?_
    rintro l _ - rfl
    exact (literalValue_finds h l).bind fun v _ h₂ hv => ih v h₂ (hmore h₂ hheld hv) hnone hold
  | block _ ha slot hk _ ih =>
    obtain rfl := hfresh rfl
    obtain ⟨hlow, hhigh⟩ := hi slot _ _ hk
    obtain ⟨child, hchild⟩ := Code.child?_isSome hlow hhigh
    have hbase := hm.hasReg_base (hi.register 0 ha)
    refine (currentCode_finds h hm.running).bind ?_
    rintro code m - ⟨rfl, rfl⟩
    refine (present_finds (Q := fun _ m' => m' = m) h hchild rfl).bind ?_
    rintro child _ - rfl
    exact (newProc_finds h hbase child).bind fun v _ h₂ hv => ih v h₂ (hmore h₂ hheld hv) hnone hold
  | getVariable s _ _ ih =>
    exact (getVariable_finds h₁.grounded _ s).bind fun v _ h₂ hv =>
      ih v (h₁.trans h₂) (hmore h₂ hheld hv) hnone hold
  | getConstant s _ ih =>
    exact (getConstant_finds h₁.grounded s).bind fun v _ h₂ hv =>
      ih v (h₁.trans h₂) (hmore h₂ hheld hv) hnone hold
  | defineClass name _ _ _ _ ih =>
    exact (defineClass_finds h₁.grounded name _).bind fun c _ h₂ _ =>
      ih c (h₁.trans h₂) (hmore h₂ hheld (refers_immediate rfl)) hnone hold
  | store hj _ _ ih =>
    obtain ⟨hv, hrest⟩ := List.forall_mem_cons.1 hheld
    exact (setReg_finds h₁.grounded (hj.hasReg hm hi hop h₁) hv).bind fun _ _ h₂ _ =>
      ih (h₁.trans h₂) (fun w hw => (hrest w hw).onward h₂) hnone hold
  | last hlast => exact hlast.finds h hm hi hop hself h₁ hknown hfresh

/-- Operands that are in range refer to entries. -/
theorem step_finds
    (hexc : i.op = .leave → m.topMarker?.isSome ∨ m.settlesOnReturn → m.exception ≠ none) :
    Sure (step i) m := by
  cases hord : i.op.isOrdinary with
  | true =>
    obtain ⟨x, hcomp, hstep⟩ := step_composed m hord
    rw [Sure, Finds, Leads, hstep m rfl]
    exact hcomp.finds h hm hi hop hself (.refl h) nofun nofun fun _ => rfl
  | false =>
    rcases step_over hord with ⟨hleave, hstep⟩ | ⟨-, hstep⟩
    · have ha : i.operands[0]? = some (.register, i.a) := by simp only [Inst.operands, hleave]; rfl
      rw [Sure, Finds, Leads, hstep]
      exact leave_finds h hm (hi.register 0 ha) (hexc hleave)
    · rw [Sure, Finds, Leads, hstep]
      exact ⟨.refl h, trivial⟩

end Instruction

/-- What an instruction may miss although its operands are in range. -/
inductive Lacks (i : Inst) (m : Machine) : Prop
  /-- The exception that a return is to go on with. -/
  | exception (hop : i.op = .leave) (hgoes : m.topMarker?.isSome ∨ m.settlesOnReturn)
      (hnone : m.exception = none)
  /-- The receiver of a block, looked up through the frames that it was made in. -/
  | receiver (hop : i.op ∈ Opcode.personal) (hblock : (m.blockAt m.context.base).isSome)
      (hlost : m.receiver? = none)

/-- An instruction with its operands in range that is no call and reaches for no outer scope stays in
its window. However it ends, the registers outside are what they were. Nor does it depend on them, but
for those on the way to the receiver of a block. And it asks for nothing that is not there, but a
receiver that is gone or an exception to go on with. -/
theorem step_windowed (hm : Windowed code m) (hi : i.InRange code.block) (hop : i.op ∉ Opcode.outward) :
    Leads (fun _ m' => Untouched (code.Reaches m.context.base) m m') (step i) m
      (fun _ m' => Untouched (code.Reaches m.context.base) m m') ∧
    (∀ n, Beside (code.Reaches m.context.base) m n →
      (i.op ∈ Opcode.personal → ∀ w ∈ m.selfWindows, entryAt? n.regs w = entryAt? m.regs w) →
      Enclosed (code.Reaches m.context.base) (step i) m n) ∧
    (m.Grounded → Leads (fun e m' => Contained e m' ∨ Lacks i m) (step i) m fun _ _ => True) := by
  refine ⟨?_, fun n h hway => step_enclosed hm hi hop hway h, fun h => ?_⟩
  · exact (step_enclosed hm hi hop (fun _ _ _ => rfl) (.refl m)).untouched
  · by_cases hlacks : Lacks i m
    · exact .intro (fun _ _ _ => trivial) fun _ _ _ => .inr hlacks
    · have hself : i.op ∈ Opcode.personal → (m.blockAt m.context.base).isSome → m.receiver?.isSome := by
        refine fun hpersonal hblock => Option.isSome_iff_ne_none.2 fun hlost => ?_
        exact hlacks (.receiver hpersonal hblock hlost)
      have hexc : i.op = .leave → m.topMarker?.isSome ∨ m.settlesOnReturn → m.exception ≠ none :=
        fun hleave hgoes hnone => hlacks (.exception hleave hgoes hnone)
      exact (step_finds h hm hi hop hself hexc).imp (fun _ _ => .inl) fun _ _ _ => trivial

def raising : Code := ⟨⟨#[{ registers := 2, code := #[⟨.raise, 0, 0, 0⟩] }]⟩, 0⟩

/-- A machine about to raise, with a register before the window. -/
def aboutToRaise (v : Value) : Machine where
  config := {}
  memory.pool := { size := 1024, used := 32 }
  memory.heap := #[{ refCount := 1, size := 32, body := .string "no" }]
  regs := #[v, .cls .runtimeError, .string 0]
  context := { code := some raising, base := 1 }

/-- The register before the window makes no difference, and it stays when the exception is raised. -/
theorem aboutToRaise_windowed :
    Leads (fun _ m' => m'.regs[0]? = some (.int 7)) (step ⟨.raise, 0, 0, 0⟩) (aboutToRaise (.int 7))
      (fun _ m' => m'.regs[0]? = some (.int 7)) ∧
    Enclosed (raising.Reaches 1) (step ⟨.raise, 0, 0, 0⟩) (aboutToRaise (.int 7)) (aboutToRaise .nil) ∧
    Leads Contained (step ⟨.raise, 0, 0, 0⟩) (aboutToRaise (.int 7)) fun _ _ => True := by
  have hm : Windowed raising (aboutToRaise (.int 7)) := ⟨rfl, by decide, by decide, by decide⟩
  have hi : (⟨.raise, 0, 0, 0⟩ : Inst).InRange raising.block := by
    rintro slot kind n hn
    obtain ⟨rfl, heq⟩ : slot = 0 ∧ (.register, 0) = (kind, n) := by
      rcases slot with - | slot
      · exact ⟨rfl, Option.some.inj hn⟩
      · cases hn
    cases heq
    exact (by decide : (0 : Int) ≤ 0 ∧ (0 : Int) + 2 ≤ 2)
  have hgrounded : (aboutToRaise (.int 7)).Grounded := by
    refine ⟨fun v hv => ?_, nofun, nofun, fun o ho => ?_⟩
    · simp only [aboutToRaise, List.mem_toArray, List.mem_cons, List.not_mem_nil, or_false] at hv
      rcases hv with rfl | rfl | rfl
      · nofun
      · nofun
      · rintro r ⟨⟩
        exact Nat.zero_lt_one
    · simp only [aboutToRaise, List.mem_toArray, List.mem_singleton] at ho
      subst ho
      nofun
  have hbeside : Beside (raising.Reaches 1) (aboutToRaise (.int 7)) (aboutToRaise .nil) := by
    refine ⟨rfl, rfl, fun j hj => ?_⟩
    have hlow : (1 : Int) ≤ j := hj.1
    obtain ⟨j, rfl⟩ : ∃ k, j = k + 1 := ⟨j - 1, by omega⟩
    rfl
  obtain ⟨huntouched, hbesides, hfinds⟩ := step_windowed hm hi (by decide)
  have hout : ¬raising.Reaches 1 0 := fun h => absurd h.1 (by decide)
  refine ⟨huntouched.imp (fun _ _ h => h.same 0 hout) fun _ _ h => h.same 0 hout,
    hbesides _ hbeside (fun h => absurd h (by decide)), (hfinds hgrounded).imp ?_ fun _ _ _ => trivial⟩
  rintro e m' (he | hlacks)
  · exact he
  · rcases hlacks with hop | hop
    · cases hop
    · exact absurd hop (by decide)

end ObjectMachine.Machine
