import ObjectMachine.Proofs.Clerical

/-! Actions that touch no registers. Put other registers in the place of a machine's own, and such an
action does the same as before; the registers stay as they are. Memory, names, classes, frames and
exceptions are all changed by such actions, so an instruction touches the registers that it names
itself. -/

namespace ObjectMachine.Machine

variable {α β : Type}

theorem present_apart (o : Option α) : Apart (present o) := by
  cases o with
  | none => exact .of_throw _
  | some a => exact .of_pure a

theorem onMemory_apart (change : Memory → Memory × Option Fault) : Apart (onMemory change) := by
  refine Apart.bind (.of_modifyGet fun _ _ => rfl) fun fault => ?_
  cases fault with
  | none => exact .of_pure _
  | some e => exact .of_throw e

theorem release_apart (v : Value) : Apart (release v) := by
  unfold release
  split
  · exact .of_pure _
  · exact onMemory_apart _

theorem acquire_apart (v : Value) : Apart (acquire v) := by
  unfold acquire
  split
  · exact .of_pure _
  · exact onMemory_apart _

theorem allocate?_apart (size : Int64) (body : ObjectMachine.Body) : Apart (allocate? size body) := by
  refine .of_modifyGet fun m rs => ?_
  dsimp only
  split <;> rfl

theorem modifyContext_apart (change : Context → Context) : Apart (modifyContext change) :=
  .of_modify fun _ _ => rfl

theorem modifyFrame_apart (f : FrameId) (change : Frame → Frame) : Apart (modifyFrame f change) :=
  .of_modify fun _ _ => rfl

theorem currentCode_apart : Apart currentCode :=
  .get_bind (fun _ => present_apart _) fun _ _ _ => rfl

theorem currentSize_apart : Apart currentSize := currentCode_apart.bind fun _ => .of_pure _

/-! ### Constants, classes and methods -/

theorem setConstant_apart (s : Symbol) (v : Value) : Apart (setConstant s v) := by
  have hbind : Apart (modify fun m => { m with constants := rebind s v m.constants } : Action Unit) :=
    .of_modify fun _ _ => rfl
  refine (acquire_apart v).bind fun _ => .get_bind (fun m => ?_) fun _ _ _ => rfl
  split
  · exact (release_apart _).bind fun _ => hbind
  · exact hbind

theorem getConstant_apart (s : Symbol) : Apart (getConstant s) := by
  refine .get_bind (fun m => ?_) fun _ _ _ => rfl
  split
  · exact (acquire_apart _).bind fun _ => .of_pure _
  · exact .of_pure _

theorem defineClass_apart (name : Text) (super : Option ClassId) : Apart (defineClass name super) := by
  refine (intern_clerical name).apart.bind fun s => .get_bind (fun m => ?_) fun _ _ _ => rfl
  split
  · exact .of_pure _
  · exact .of_throw _
  · -- The new class is stored with the whole state.
    have hbind : ∀ k, Apart (do setConstant s (.cls k); return k : Action ClassId) :=
      fun k => (setConstant_apart s _).bind fun _ => .of_pure k
    intro m rs hrs
    cases hpool : m.memory.pool.pin? classBytes with
    | none =>
      simp only [bind, EStateM.bind, get, getThe, MonadStateOf.get, EStateM.get, hpool]
      rfl
    | some pool =>
      simp only [bind, EStateM.bind, get, getThe, MonadStateOf.get, EStateM.get, hpool]
      exact hbind m.classes.size { m with
        memory := { m.memory with pool }
        classes := m.classes.push
          ⟨s, name, super.or (if m.classes.isEmpty then none else some .object), []⟩ } rs hrs

/-! ### Objects -/

theorem newString_apart (t : Text) : Apart (newString t) := by
  refine (allocate?_apart _ _).bind fun r => ?_
  cases r <;> exact .of_pure _

theorem getVariable_apart (obj : Value) (s : Symbol) : Apart (getVariable obj s) := by
  refine .get_bind (fun m => ?_) fun _ _ _ => rfl
  split
  · exact .of_pure _
  · refine (mustBeLive_clerical obj).apart.bind fun _ => ?_
    split
    · exact .of_pure _
    · exact (acquire_apart _).bind fun _ => .of_pure _

theorem setVariable_apart (obj : Value) (s : Symbol) (v : Value) : Apart (setVariable obj s v) := by
  refine .get_bind (fun m => ?_) fun _ _ _ => rfl
  split
  · exact .of_pure _
  · refine (mustBeLive_clerical obj).apart.bind fun _ => (acquire_apart v).bind fun _ =>
      .get_bind (fun m₁ => ?_) fun _ _ _ => rfl
    split
    · split
      · exact release_apart v
      · refine Apart.bind (.of_modify fun _ _ => rfl) fun _ => ?_
        split
        · exact release_apart _
        · exact .of_pure _
    · exact .of_pure _

/-! ### Frames -/

theorem pushFrame_apart (methodId : Symbol) (offset nargs : Int64) :
    Apart (pushFrame methodId offset nargs) := by
  refine .get_bind (fun m => ?_) fun _ _ _ => rfl
  dsimp only
  split
  · exact .of_throw _
  · refine (charge_clerical _).apart.bind fun granted => ?_
    split
    · exact .of_throw _
    · exact Apart.bind (.of_modify fun _ _ => rfl) fun _ => .of_pure _

theorem freeFrame_apart (f : FrameId) : Apart (freeFrame f) := by
  have hfree : Apart (do
      modifyFrame f fun k => { k with freed := true }
      refund frameBytes) :=
    (modifyFrame_apart f _).bind fun _ => (refund_clerical _).apart
  refine .get_bind (fun m => ?_) fun _ _ _ => rfl
  split
  · exact (releaseMethod_clerical _).apart.bind fun _ => (modifyFrame_apart f _).bind fun _ => hfree
  · exact hfree

theorem dropMarkers_apart (fs : List FrameId) : Apart (dropMarkers fs) := by
  induction fs with
  | nil => exact .of_pure _
  | cons f rest ih => exact (modifyContext_apart _).bind fun _ => (freeFrame_apart f).bind fun _ => ih

theorem popMarkers_apart (n : Int64) : Apart (popMarkers n) :=
  .get_bind (fun _ => dropMarkers_apart _) fun _ _ _ => rfl

theorem dropFrameMarkers_apart (f : FrameId) : Apart (dropFrameMarkers f) :=
  .get_bind (fun _ => dropMarkers_apart _) fun _ _ _ => rfl

theorem popFrame_apart : Apart popFrame := by
  refine .get_bind (fun m => ?_) fun _ _ _ => rfl
  split
  · exact .of_throw _
  · next f rest _ =>
    refine .get_bind (fun m₁ => ?_) fun _ _ _ => rfl
    dsimp only
    split
    · refine (dropFrameMarkers_apart f).bind fun _ => Apart.bind (.of_modify fun _ _ => rfl) fun _ =>
        (freeFrame_apart f).bind fun _ => .of_modify fun _ _ => rfl
    · exact Apart.bind (.of_modify fun _ _ => rfl) fun _ => (freeFrame_apart f).bind fun _ => .of_pure _

theorem popUntil_apart (target : Option FrameId) (fs : List FrameId) : Apart (popUntil target fs) := by
  induction fs with
  | nil =>
    rw [popUntil]
    split
    · exact .of_pure _
    · exact .of_throw _
  | cons f rest ih =>
    rw [popUntil]
    split
    · exact .of_pure _
    · exact popFrame_apart.bind fun _ => ih

theorem unwindTo_apart (target : Option FrameId) : Apart (unwindTo target) :=
  .get_bind (fun _ => popUntil_apart _ _) fun _ _ _ => rfl

theorem pushMarker_apart (tag : FrameTag) (pc : Int64) : Apart (pushMarker tag pc) := by
  refine (charge_clerical _).apart.bind fun granted => ?_
  split
  · exact .of_throw _
  · exact .of_modify fun _ _ => rfl

/-! ### Exceptions -/

theorem clearException_apart : Apart clearException :=
  .get_bind (fun _ => Apart.bind (.of_modify fun _ _ => rfl) fun _ => release_apart _) fun _ _ _ => rfl

theorem settlePending_apart : Apart settlePending := by
  have hend : Apart (do
      modify fun m => { m with
        exception := none
        excMessage := .nil
        context := { m.context with excState := .normal, settleOnReturn := false } }
      if (← get).pending.isNone then throw .outOfBounds : Action Unit) := by
    refine Apart.bind (.of_modify fun _ _ => rfl) fun _ => .get_bind (fun m => ?_) fun _ _ _ => rfl
    split
    · exact .of_throw _
    · exact .of_pure _
  refine .get_bind (fun m => ?_) fun _ _ _ => rfl
  split
  · exact Apart.bind (.of_modify fun _ _ => rfl) fun _ => hend
  · exact (release_apart _).bind fun _ => hend

theorem spliceNext_apart : Apart spliceNext := by
  refine .of_modify fun m rs => ?_
  dsimp only
  split <;> rfl

theorem resumeAt_apart (f : FrameId) : Apart (resumeAt f) := by
  have hend : Apart (do
      if (← get).exception.isNone then throw .outOfBounds
      freeFrame f
      modify fun m => { m with jumped := true } : Action Unit) := by
    have hfree : Apart (do freeFrame f; modify fun m => { m with jumped := true } : Action Unit) :=
      (freeFrame_apart f).bind fun _ => .of_modify fun _ _ => rfl
    refine .get_bind (fun m => ?_) fun _ _ _ => rfl
    split
    · exact .of_throw _
    · exact hfree
  refine .get_bind (fun m => ?_) fun _ _ _ => rfl
  refine (unwindTo_apart _).bind fun _ => (modifyContext_apart _).bind fun _ => ?_
  split
  · exact (modifyContext_apart _).bind fun _ => hend
  · exact (modifyContext_apart _).bind fun _ => spliceNext_apart.bind fun _ => hend

theorem deliverException_apart : Apart deliverException := by
  refine .get_bind (fun m => ?_) fun _ _ _ => rfl
  split
  · exact (unwindTo_apart _).bind fun _ => Apart.bind (.of_modify fun _ _ => rfl) fun _ =>
      resumeAt_apart _
  · refine .get_bind (fun m₁ => ?_) fun _ _ _ => rfl
    split
    · exact (modifyContext_apart _).bind fun _ => resumeAt_apart _
    · exact (modifyContext_apart _).bind fun _ => settlePending_apart

theorem raise_apart (c : ClassId) (v : Value) : Apart (raise c v) := by
  refine Apart.bind (.of_modify fun _ _ => rfl) fun _ => .get_bind (fun m => ?_) fun _ _ _ => rfl
  split
  · exact (acquire_apart v).bind fun _ => Apart.bind (.of_modify fun _ _ => rfl) fun _ =>
      deliverException_apart
  · exact deliverException_apart

theorem raiseText_apart (c : ClassId) (t : Text) : Apart (raiseText c t) :=
  (newString_apart t).bind fun v => (raise_apart c v).bind fun _ => release_apart v

/-! ### Operands -/

theorem codeSymbol_apart (i : Int64) : Apart (codeSymbol i) :=
  currentCode_apart.bind fun _ => Apart.bind (.of_modifyGet fun _ _ => rfl) fun _ => present_apart _

theorem variableSymbol_apart (i : Int64) : Apart (variableSymbol i) :=
  currentCode_apart.bind fun _ => (present_apart _).bind fun _ => (intern_clerical _).apart

theorem literalValue_apart (l : Literal) : Apart (literalValue l) := by
  rcases literalValue_cases l with ⟨v, -, -, hl⟩ | hl <;> rw [hl]
  · exact .of_pure v
  · exact newString_apart l.text

theorem enterBody_apart (a : Int64) (c : ClassId) (child : Int64) : Apart (enterBody a c child) :=
  .get_bind (fun _ => (pushFrame_apart _ _ _).bind fun f => (modifyFrame_apart f _).bind fun _ =>
    currentCode_apart.bind fun _ => (present_apart _).bind fun _ => (modifyContext_apart _).bind fun _ =>
      (enterWindow_clerical _ _).apart.bind fun _ => .of_modify fun _ _ => rfl) fun _ _ _ => rfl

end ObjectMachine.Machine
