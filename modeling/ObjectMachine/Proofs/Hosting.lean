import ObjectMachine.Proofs.Accounting
import ObjectMachine.Proofs.Ancestry

/-! Machines in the hands of a host. A host defines classes, binds constants and runs code in any
order. As long as it names no classes but those of the machine, the classes stay a tree. -/

namespace ObjectMachine

/-- The classes that an operation names are in the graph. -/
def Operation.Known (g : ClassGraph) : Operation → Prop
  | defineClass _ super => g.Has super
  | newInstance c => c < g.size
  | setVariable _ _ v => g.Has v.cls?
  | setConstant _ v => g.Has v.cls?
  | raise c message => c < g.size ∧ g.Has message.cls?
  | _ => True

/-- The machines of a host that names no classes but theirs. -/
inductive Hosted : Machine → Prop
  | new {c : Config} {m : Machine} (h : Machine.create c = .ok m) : Hosted m
  | step {m m' : Machine} {r : Option ExecuteError} (op : Operation) (hm : Hosted m)
      (hop : op.Known m.classGraph) (h : op.perform m = .ok r m') (hr : Ended r) : Hosted m'

namespace Machine

open Regime

variable {m : Machine}

/-! ### Runs -/

/-- An action that leaves the classes a tree, and those that there are where they are in it, whether
it ends or faults. -/
def Growing {α : Type} (x : Action α) (m : Machine) : Prop :=
  Leads (fun _ m' => WellRooted m' ∧ m.classGraph.Extends m'.classGraph) x m fun _ m' =>
    WellRooted m' ∧ m.classGraph.Extends m'.classGraph

namespace Growing

variable {α β : Type} {x : Action α} {f : α → Action β}

theorem of_gives {Q : α → Prop} (h : WellRooted m) (hx : (naming m.classGraph).Gives Q x) : Growing x m :=
  (hx m h.rooted).imp (fun _ _ h₁ => h.kept h₁) fun _ _ h₁ => h.kept h₁.1

theorem of_grown (h : WellRooted m)
    (hx : Leads (fun _ m' => Grown m.classGraph m') x m fun _ m' => Grown m.classGraph m') :
    Growing x m :=
  hx.imp (fun _ _ h₁ => h.extended h₁) fun _ _ h₁ => h.extended h₁

theorem bind (hx : Growing x m) (hf : ∀ a m₁, WellRooted m₁ → Growing (f a) m₁) :
    Growing (x >>= f) m := by
  rw [Growing, Leads.bind_eq]
  refine hx.mono fun a m₁ h₁ => (hf a m₁ h₁.1).imp ?_ ?_
  · exact fun _ _ h₂ => ⟨h₂.1, h₁.2.trans h₂.2⟩
  · exact fun _ _ h₂ => ⟨h₂.1, h₁.2.trans h₂.2⟩

theorem of_pure (h : WellRooted m) (a : α) : Growing (pure a) m := ⟨h, .refl _⟩

theorem of_discard (hx : Growing x m) : Growing (discard x) m := by
  rwa [Growing, Leads.discard_eq]

end Growing

theorem tick_growing (h : WellRooted m) : Growing tick m := by
  refine (Growing.of_gives h fetch_keeps).bind fun i m₁ h₁ => ?_
  refine (Growing.of_grown h₁ (step_rooted h₁.core i h₁.rooted h₁.tree)).bind fun p m₂ h₂ => ?_
  cases p with
  | finished v => exact .of_gives h₂ (endPass_keeps v)
  | entered => exact .of_pure h₂ none
  | same => exact .of_gives h₂ (Gives.of_get.bind fun m₃ hn₃ => finishStep_keeps _ hn₃.suspended)

theorem run_growing (ticks : Nat) (h : WellRooted m) : Growing (run ticks) m := by
  induction ticks generalizing m with
  | zero => exact .of_pure h none
  | succ ticks ih =>
    refine (tick_growing h).bind fun r m₁ h₁ => ?_
    cases r with
    | some v => exact .of_pure h₁ (some v)
    | none => exact ih h₁

theorem runUnit_growing (ticks : Nat) (code : Code) (h : WellRooted m) :
    Growing (runUnit ticks code) m := by
  refine (Growing.of_gives h (enterUnit_keeps (core_naming h.core) code)).bind fun _ m₁ h₁ => ?_
  refine (run_growing ticks h₁).bind fun r m₂ h₂ => ?_
  cases r with
  | some v => exact .of_gives h₂ (leaveUnit_keeps v)
  | none => exact .of_pure h₂ _

/-- A machine whose run was given up, for good or not. -/
theorem WellRooted.interrupted (h : WellRooted m) (aborted : Bool) :
    WellRooted { m with aborted, suspended := [] } :=
  ⟨{ h.rooted with duties := List.forall_mem_nil _ }, h.tree, h.core⟩

theorem execute_growing (ticks : Nat) (p : Program) (h : WellRooted m) :
    Growing (execute ticks p) m := by
  simp only [Growing, execute, Leads.bind_eq, Leads.get_eq]
  split
  · exact ⟨h, .refl _⟩
  · split
    · exact ⟨h, .refl _⟩
    · split
      · exact ⟨h, .refl _⟩
      · rw [Leads.bind_eq, Leads.tryCatch_eq, Leads.bind_eq]
        refine (runUnit_growing ticks p.root h).imp (fun e m₁ h₁ => ?_) fun _ _ h₁ => h₁
        cases e with
        | fatal cause => exact ⟨h₁.1.interrupted true, h₁.2⟩
        | _ => exact ⟨h₁.1.interrupted m₁.aborted, h₁.2⟩

end Machine

/-! ### Operations -/

open Machine Regime

/-- No operation changes where a class is in the tree, and none makes it no tree. -/
theorem Operation.perform_growing (op : Operation) {m : Machine} (h : WellRooted m)
    (hop : op.Known m.classGraph) : Growing op.perform m := by
  have hkept : ∀ {x : Action Unit}, (naming m.classGraph).Keeps x →
      Growing (do x; return none : Action (Option ExecuteError)) m :=
    fun hx => (Growing.of_gives h hx).bind fun _ _ h₁ => .of_pure h₁ none
  cases op with
  | defineClass name super =>
    have hpos : m.classGraph.size ≠ 0 := Nat.ne_of_gt (Nat.lt_of_lt_of_le (by decide) h.core)
    have hdefine : Growing (Machine.defineClass name super) m := by
      refine .of_grown h ((defineClass_rooted h.rooted h.tree name hop fun hzero =>
        absurd hzero hpos).mono ?_)
      rintro _ m' ⟨g', hext, htree, hrooted, -⟩
      exact ⟨g', hext, htree, hrooted⟩
    exact hdefine.of_discard.bind fun _ _ h₁ => .of_pure h₁ none
  | defineMethod c name native => exact hkept (defineNative?_clerical c name trivial).keeps.of_discard
  | installProc c name code => exact hkept (installCode?_clerical c name trivial).keeps.of_discard
  | newInstance c => exact hkept (newInstance_fetches hop).of_discard
  | newString t => exact hkept (newString_fetches t).of_discard
  | newProc code => exact hkept (newProc_fetches code).of_discard
  | dupInstance v => exact hkept (dupInstance_fetches v).of_discard
  | setVariable obj name v => exact hkept (naming_stores obj name v hop)
  | setConstant name v => exact hkept (setConstant_keeps name hop)
  | acquire v => exact hkept (acquire_keeps v)
  | release v => exact hkept (release_keeps v)
  | pushFrame methodId offset nargs => exact hkept (pushFrame_keeps methodId offset nargs).of_discard
  | popFrame => exact hkept popFrame_keeps
  | pushRescue pc => exact hkept (pushMarker_keeps .rescue pc)
  | pushEnsure pc => exact hkept (pushMarker_keeps .ensure pc)
  | popMarkers n => exact hkept (popMarkers_keeps n)
  | raise c message => exact hkept (raise_keeps hop.1 hop.2)
  | clearPending => exact hkept clearPending_keeps
  | execute ticks p =>
    refine (execute_growing ticks p h).bind fun r m₁ h₁ => ?_
    cases r with
    | ok v => exact .of_pure h₁ none
    | error e => exact .of_pure h₁ (some e)

theorem Hosted.wellRooted {m : Machine} (h : Hosted m) : WellRooted m := by
  induction h with
  | new h => exact create_wellRooted h
  | step op _ hop h hr ih => exact ((op.perform_growing ih hop).of_ok h).1

end ObjectMachine
