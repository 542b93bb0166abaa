import Mathlib
import ObjectMachine.Machine.Execution

/-! Outcomes of actions. `Leads E x m Q` says that the action `x`, started on `m`, either
ends with a result and a machine that satisfy `Q` or with a fault and a machine that
satisfy `E`. An action is unfolded along its binds; a called action is replaced by what
is known of its outcome. -/

namespace ObjectMachine

def AnyFault (_ : Fault) (_ : Machine) : Prop := True

def NoFault (_ : Fault) (_ : Machine) : Prop := False

/-- Faults that a host is prepared for, and those of a pool that was asked for too much. -/
def Contained (e : Fault) (_ : Machine) : Prop := e = .overdrawn ∨ ∃ cause, e = .fatal cause

instance (e : Fault) (m : Machine) : Decidable (NoFault e m) := isFalse id

def Leads {α : Type} (E : Fault → Machine → Prop) (x : Action α) (m : Machine)
    (Q : α → Machine → Prop) : Prop :=
  match x m with
  | .ok a m' => Q a m'
  | .error e m' => E e m'

namespace Leads

variable {α β : Type} {E : Fault → Machine → Prop} {m : Machine} {Q : α → Machine → Prop}

@[simp] theorem pure_eq (a : α) : Leads E (pure a) m Q = Q a m := rfl

@[simp] theorem bind_eq (x : Action β) (f : β → Action α) :
    Leads E (x >>= f) m Q = Leads E x m fun b m' => Leads E (f b) m' Q := by
  change (match EStateM.bind x f m with | .ok a m' => Q a m' | .error e m' => E e m') = _
  unfold EStateM.bind Leads
  cases x m <;> rfl

@[simp] theorem get_eq (Q : Machine → Machine → Prop) : Leads E get m Q = Q m m := rfl

@[simp] theorem set_eq (s : Machine) (Q : PUnit → Machine → Prop) :
    Leads E (set s) m Q = Q ⟨⟩ s := rfl

@[simp] theorem modify_eq (f : Machine → Machine) (Q : PUnit → Machine → Prop) :
    Leads E (modify f) m Q = Q ⟨⟩ (f m) := rfl

@[simp] theorem modifyGet_eq (f : Machine → α × Machine) :
    Leads E (modifyGet f) m Q = Q (f m).1 (f m).2 := rfl

@[simp] theorem throw_eq (e : Fault) : Leads E (throw e : Action α) m Q = E e m := rfl

@[simp] theorem fatal_eq (cause : FatalCause) :
    Leads E (Machine.fatal cause : Action α) m Q = E (.fatal cause) m := rfl

@[simp] theorem discard_eq (x : Action α) (Q : PUnit → Machine → Prop) :
    Leads E (discard x) m Q = Leads E x m fun _ m' => Q ⟨⟩ m' := by
  simp only [discard, Functor.discard, Functor.mapConst, Leads, EStateM.map, Function.comp,
    Function.const]
  cases x m <;> rfl

theorem tryCatch_eq (x : Action α) (f : Fault → Action α) :
    Leads E (tryCatch x f) m Q = Leads (fun e m' => Leads E (f e) m' Q) x m Q := by
  simp only [Leads, tryCatch, tryCatchThe, MonadExceptOf.tryCatch, EStateM.tryCatch,
    EStateM.Backtrackable.restore, EStateM.dummyRestore]
  cases x m <;> rfl

theorem imp {x : Action α} {E' : Fault → Machine → Prop} {R : α → Machine → Prop}
    (h : Leads E x m R) (he : ∀ e m', E e m' → E' e m') (hq : ∀ a m', R a m' → Q a m') :
    Leads E' x m Q := by
  unfold Leads at *
  split
  · next a m' hx =>
    rw [hx] at h
    exact hq a m' h
  · next e m' hx =>
    rw [hx] at h
    exact he e m' h

theorem mono {x : Action α} {R : α → Machine → Prop} (h : Leads E x m R)
    (hq : ∀ a m', R a m' → Q a m') : Leads E x m Q :=
  h.imp (fun _ _ he => he) hq

/-- Two facts about the same outcome; the second may ignore faults. -/
theorem and {x : Action α} {E' : Fault → Machine → Prop} {R : α → Machine → Prop}
    (h : Leads E x m Q) (h' : Leads E' x m R) : Leads E x m fun a m' => Q a m' ∧ R a m' := by
  unfold Leads at *
  split
  · next a m' hx =>
    rw [hx] at h h'
    exact ⟨h, h'⟩
  · next e m' hx =>
    rw [hx] at h
    exact h

/-- What is known of an outcome holds of the result that was found. -/
theorem of_ok {x : Action α} {a : α} {m' : Machine} (h : Leads E x m Q) (hx : x m = .ok a m') :
    Q a m' := by
  unfold Leads at h
  rwa [hx] at h

theorem of_error {x : Action α} {e : Fault} {m' : Machine} (h : Leads E x m Q)
    (hx : x m = .error e m') : E e m' := by
  unfold Leads at h
  rwa [hx] at h

theorem of_eq {x : Action α} {a : α} {m' : Machine} (hx : x m = .ok a m') (h : Q a m') :
    Leads E x m Q := by
  unfold Leads
  rwa [hx]

/-- An action that leads to one result and cannot fail has this result. -/
theorem eq_ok {x : Action α} {a : α} {m' : Machine}
    (h : Leads NoFault x m fun b m'' => b = a ∧ m'' = m') : x m = .ok a m' := by
  unfold Leads at h
  split at h
  · next heq =>
    obtain ⟨rfl, rfl⟩ := h
    exact heq
  · cases h

/-- An outcome is known from its two cases. -/
theorem intro {x : Action α} (hok : ∀ a m', x m = .ok a m' → Q a m')
    (herror : ∀ e m', x m = .error e m' → E e m') : Leads E x m Q := by
  unfold Leads
  split
  · next a m' hx => exact hok a m' hx
  · next e m' hx => exact herror e m' hx

/-- What has changed nothing has its result from the machine as it is. -/
theorem unmoved {x : Action α} (h : Leads E x m fun _ m' => m' = m)
    (hq : ∀ a, x m = .ok a m → Q a m) : Leads E x m Q := by
  refine intro (fun a m' hx => ?_) fun e m' hx => h.of_error hx
  obtain rfl : m' = m := h.of_ok hx
  exact hq a hx

/-- An outcome without a fault can be named. -/
theorem exists_ok {x : Action α} (h : Leads NoFault x m Q) :
    ∃ a m', x m = .ok a m' ∧ Q a m' := by
  unfold Leads at h
  split at h
  · next a m' hx => exact ⟨a, m', hx, h⟩
  · cases h

theorem exists_error {x : Action α} (h : Leads E x m fun _ _ => False) :
    ∃ e m', x m = .error e m' ∧ E e m' := by
  unfold Leads at h
  split at h
  · cases h
  · next e m' hx => exact ⟨e, m', hx, h⟩

/-- Outcomes can be tested by running the action. -/
instance decidable {x : Action α} [∀ e m', Decidable (E e m')] [∀ a m', Decidable (Q a m')] :
    Decidable (Leads E x m Q) :=
  match h : x m with
  | .ok a m' => decidable_of_iff (Q a m') (by rw [Leads, h])
  | .error e m' => decidable_of_iff (E e m') (by rw [Leads, h])

end Leads

theorem fatal_contained {α : Type} {cause : FatalCause} {m : Machine} {Q : α → Machine → Prop} :
    Leads Contained (Machine.fatal cause : Action α) m Q :=
  .inr ⟨cause, rfl⟩

/-- A literal gives an immediate value or a new string. -/
theorem Machine.literalValue_cases (lit : Literal) :
    (∃ v : Value, v.ref? = none ∧ v.cls? = none ∧ literalValue lit = pure v) ∨
      literalValue lit = newString lit.text := by
  unfold literalValue
  split
  · exact .inl ⟨.int lit.int, rfl, rfl, rfl⟩
  · exact .inl ⟨.float lit.float, rfl, rfl, rfl⟩
  · exact .inr rfl
  · exact .inl ⟨.nil, rfl, rfl, rfl⟩

end ObjectMachine
