import Mathlib

/-! Computations that end with a result or with a reason why there is none: when a chain of them
gives a result, and which. -/

namespace ObjectMachine

variable {α β ε : Type}

theorem bind_eq_ok {x : Except ε α} {f : α → Except ε β} {b : β} :
    (x >>= f) = .ok b ↔ ∃ a, x = .ok a ∧ f a = .ok b := by
  cases x <;> simp [bind, Except.bind]

theorem bind_pure_eq_ok {x : Except ε α} {g : α → β} {b : β} :
    (x >>= fun a => pure (g a)) = .ok b ↔ ∃ a, x = .ok a ∧ b = g a := by
  cases x <;> simp [bind, Except.bind, pure, Except.pure, eq_comm]

theorem mapM_eq_ok {f : α → Except ε β} {P : α → Prop} {g : α → β} {xs : List α} {ys : List β}
    (hf : ∀ x ∈ xs, ∀ y, f x = .ok y ↔ P x ∧ y = g x) :
    xs.mapM f = .ok ys ↔ (∀ x ∈ xs, P x) ∧ ys = xs.map g := by
  induction xs generalizing ys with
  | nil => cases ys <;> simp [pure, Except.pure]
  | cons x xs ih =>
    have hx := hf x List.mem_cons_self
    have hxs : ∀ ys, xs.mapM f = .ok ys ↔ (∀ x ∈ xs, P x) ∧ ys = xs.map g :=
      fun ys => ih fun y hy => hf y (List.mem_cons_of_mem x hy)
    rw [List.mapM_cons, List.forall_mem_cons, List.map_cons]
    cases hfx : f x with
    | error e =>
      refine ⟨by rintro ⟨⟩, fun h => ?_⟩
      cases hfx.symm.trans ((hx _).2 ⟨h.1.1, rfl⟩)
    | ok y =>
      obtain ⟨hP, rfl⟩ := (hx y).1 hfx
      cases hfxs : xs.mapM f with
      | error e =>
        refine ⟨by rintro ⟨⟩, fun h => ?_⟩
        cases hfxs.symm.trans ((hxs _).2 ⟨h.1.2, rfl⟩)
      | ok zs =>
        obtain ⟨hPs, rfl⟩ := (hxs zs).1 hfxs
        simpa [bind, Except.bind, pure, Except.pure, hP, eq_comm] using fun _ => hPs

theorem arrayMapM_eq_ok {f : α → Except ε β} {P : α → Prop} {g : α → β} {xs : Array α}
    {ys : Array β} (hf : ∀ x ∈ xs.toList, ∀ y, f x = .ok y ↔ P x ∧ y = g x) :
    xs.mapM f = .ok ys ↔ (∀ x ∈ xs, P x) ∧ ys = xs.map g := by
  have hys : ys = xs.map g ↔ ys.toList = xs.toList.map g := by
    rw [← Array.toList_map, Array.toList_inj]
  simp only [← Array.mem_toList_iff]
  rw [Array.mapM_eq_mapM_toList, hys, ← mapM_eq_ok hf]
  cases xs.toList.mapM f <;> simp [Functor.map, Except.map, ← Array.toList_inj]

end ObjectMachine
