import ObjectMachine.Proofs.References
import ObjectMachine.Proofs.Writes

/-! The classes of a running machine. No part of a tick names a class that does not exist, and
none but the definition of a class changes what class is below which. So in every machine that is
reached the classes form a tree, in which superclasses are older than their subclasses, and the
tree of a later machine extends that of an earlier one. -/

namespace ObjectMachine

namespace Machine

open Regime

variable {g : ClassGraph} {m m' : Machine} {v : Value}

/-! ### Ticks -/

/-- An instruction leaves the graph as it is or adds to it. -/
theorem step_rooted (hcore : 16 ≤ g.size) (i : Inst) (h : m.Rooted g) (hg : g.Tree) :
    Leads (fun _ m' => Grown g m') (step i) m fun _ m' => Grown g m' := by
  by_cases hi : i.op = .defineClass
  · have hraise : ∀ m₁ : Machine, m₁.Rooted g → ∀ t,
        Leads (fun _ m' => Grown g m') (do raiseText .typeError t; return .same : Action Progress) m₁
          fun _ m' => Grown g m' := by
      intro m₁ h₁ t
      rw [Leads.bind_eq]
      exact grown_of_naming (raiseText_keeps (core_naming hcore _ (by decide)) t) hg h₁
        fun _ _ h₂ _ => h₂.grown hg
    obtain ⟨op, a, b, c⟩ := i
    cases hi
    simp only [step, Leads.bind_eq, Leads.get_eq]
    refine grown_of_naming (reg_fetches _) hg h fun v m₁ h₁ hv => ?_
    split
    · exact hraise m₁ h₁ _
    · next super hsuper =>
      have hhas : g.Has super := by
        unfold superOf? at hsuper
        split at hsuper <;> cases hsuper
        · exact g.has_none
        · exact g.has_none
        · exact hv
      simp only [Leads.bind_eq]
      refine grown_of_naming currentCode_keeps hg h₁ fun code m₂ h₂ _ => ?_
      refine grown_of_naming (present_keeps _) hg h₂ fun name m₃ h₃ _ => ?_
      have hpos : g.size ≠ 0 := fun hzero => by omega
      refine (defineClass_rooted h₃ hg name hhas fun hzero => absurd hzero hpos).mono ?_
      rintro k m₄ ⟨g', hext, hg', h₄, hk⟩
      simp only [Leads.pure_eq]
      have hset : (naming g').Keeps (setReg (m.context.base + a) (.cls k)) := setReg_keeps _ (has_some hk)
      exact (hset m₄ h₄).imp
        (fun _ _ h₅ => ⟨g', hext, hg', h₅⟩) fun _ _ h₅ => ⟨g', hext, hg', h₅.1⟩
  · have hkeeps : (naming g).Keeps (step i) :=
      step_keeps (core_naming hcore) i (fun _ => naming_stores) fun hdefine => absurd hdefine hi
    exact grown_of_naming hkeeps hg h fun _ _ h₁ _ => h₁.grown hg

variable {ph ph' : Phase} {owned : List Value} {running : Bool}

/-- A part of a tick leaves the graph as it is or adds to it. -/
theorem Advance.rooted (h : Advance ph m ph' m') (hcore : 16 ≤ g.size) (hg : g.Tree) (hm : m.Rooted g) :
    Grown g m' := by
  have hstep : Leads (fun _ m' => Grown g m') (fetch >>= step) m fun _ m' => Grown g m' := by
    rw [Leads.bind_eq]
    exact grown_of_naming fetch_keeps hg hm fun i m₁ h₁ _ => step_rooted hcore i h₁ hg
  cases h with
  | same h | entered h | finished h => exact hstep.of_ok h
  | settled h | unwound h => exact (hm.after concludeStep_keeps h).grown hg
  | resumed hs h => exact (hm.after (resumePass_keeps (hs ▸ hm.names.suspended)) h).grown hg

/-! ### New machines -/

theorem blank_rooted (c : Config) : (blank c).Rooted (blank c).classGraph where
  graph := rfl
  newest _ := .nil
  linked _ := nofun
  regs v hv := by
    obtain rfl := Array.eq_of_mem_replicate hv
    exact ClassGraph.has_none _
  constants := List.forall_mem_nil _
  distinct := List.nodup_nil
  heap _ ho := absurd ho (Array.not_mem_empty _)
  topSelf := ClassGraph.has_none _
  exception := ClassGraph.has_none _
  excMessage := ClassGraph.has_none _
  pending := ClassGraph.has_none _
  pendingMessage := ClassGraph.has_none _
  target := ClassGraph.has_none _
  frames _ hk := absurd hk (Array.not_mem_empty _)
  duties := List.forall_mem_nil _

/-- Each of the classes is made below one that exists. -/
theorem defineClasses_rooted (cs : List (Text × ClassId)) (h : m.Rooted g) (hg : g.Tree)
    (hu : Unheard (cs.map (·.1)) m) (hdistinct : (cs.map (·.1)).Nodup) (hpos : 0 < g.size)
    (horder : ∀ x ∈ cs.zipIdx g.size, x.1.2 < x.2) :
    Leads AnyFault (defineClasses cs) m fun _ m' =>
      ∃ g', g'.Tree ∧ m'.Rooted g' ∧ g'.size = g.size + cs.length := by
  induction cs generalizing g m with
  | nil => exact ⟨g, hg, h, rfl⟩
  | cons x cs ih =>
    obtain ⟨name, super⟩ := x
    obtain ⟨hne, hdistinct⟩ := List.nodup_cons.1 hdistinct
    rw [List.zipIdx_cons] at horder
    simp only [defineClasses, Leads.bind_eq, Leads.discard_eq]
    have hsuper : super < g.size := horder _ List.mem_cons_self
    refine ((defineClass_rooted h hg name (ClassGraph.has_some hsuper) fun hzero => ?_).and
      (defineClass_new _ hu hne)).imp (fun _ _ _ => trivial) ?_
    · exact absurd hzero (Nat.ne_of_gt hpos)
    rintro c m₁ ⟨⟨g₁, -, hg₁, h₁, -⟩, hsize, hu₁, -⟩
    rw [h₁.size, h.size] at hsize
    refine (ih h₁ hg₁ hu₁ hdistinct (hsize ▸ Nat.succ_pos _) ?_).mono ?_
    · exact fun y hy => horder y (List.mem_cons_of_mem _ (hsize ▸ hy))
    · rintro _ m₂ ⟨g₂, hg₂, h₂, hsize₂⟩
      refine ⟨g₂, hg₂, h₂, ?_⟩
      rw [hsize₂, hsize, List.length_cons]
      omega

/-- A new machine has sixteen classes, which form a tree. -/
theorem bootstrap_rooted (h : m.Rooted g) (hg : g.Tree) (hzero : g.size = 0)
    (hu : Unheard ("Object" :: coreClasses.map (·.1)) m) :
    Leads AnyFault bootstrap m fun _ m' => ∃ g', g'.Tree ∧ m'.Rooted g' ∧ g'.size = 16 := by
  have hmain : ∀ g' : ClassGraph, 16 ≤ g'.size → (naming g').Keeps (do
      let main ← newInstance .object
      if main.isNil then fatal .noMemoryForMain
      modify fun m => { m with topSelf := main }) := by
    intro g' hcore
    refine (newInstance_fetches (core_naming hcore _ (by decide))).bind fun v hv => ?_
    split
    · exact .of_throw _
    · exact .of_modify (fun _ hn => { hn with topSelf := hv }) fun _ => rfl
  have hrest : ∀ g' : ClassGraph, 16 ≤ g'.size → (naming g').Keeps (do
      discard <| intern initializer
      discard <| intern "call"
      defineNatives coreMethods
      if (← get).config.debugMethods then defineNatives debugMethods
      let main ← newInstance .object
      if main.isNil then fatal .noMemoryForMain
      modify fun m => { m with topSelf := main }) := by
    intro g' hcore
    refine (intern_clerical _).keeps.of_discard.bind fun _ _ =>
      (intern_clerical _).keeps.of_discard.bind fun _ _ =>
        (defineNatives_clerical _ fun _ _ => trivial).keeps.bind fun _ _ => Gives.of_get.bind fun m _ => ?_
    split
    · exact (defineNatives_clerical _ fun _ _ => trivial).keeps.bind fun _ _ => hmain g' hcore
    · exact hmain g' hcore
  rw [bootstrap, Leads.bind_eq, Leads.discard_eq, Machine.intern, Leads.modifyGet_eq, Leads.bind_eq,
    Leads.discard_eq]
  have hinterned : Rooted g { m with symbols := (m.symbols.intern []).1 } := { h with }
  refine ((defineClass_rooted hinterned hg _ g.has_none fun _ => rfl).and
    (defineClass_new none (hu.intern (by decide)) (by decide))).imp (fun _ _ _ => trivial) ?_
  rintro c m₁ ⟨⟨g₁, -, hg₁, h₁, -⟩, hsize₁, hu₁, -⟩
  have hone : g₁.size = 1 := by
    rw [← h₁.size, hsize₁, h.size, hzero]
  rw [Leads.bind_eq]
  refine (defineClasses_rooted coreClasses h₁ hg₁ hu₁ (by decide) (by rw [hone]; decide)
    (by rw [hone]; decide)).mono ?_
  rintro _ m₂ ⟨g₂, hg₂, h₂, hsize₂⟩
  have hsixteen : g₂.size = 16 := by
    rw [hsize₂, hone]
    rfl
  exact (hrest g₂ hsixteen.ge m₂ h₂).imp (fun _ _ _ => trivial) fun _ m₃ h₃ => ⟨g₂, hg₂, h₃.1, hsixteen⟩

/-- The classes of a machine are a tree, the core classes are there, and all that is named exists. -/
structure WellRooted (m : Machine) : Prop where
  rooted : m.Rooted m.classGraph
  tree : m.classGraph.Tree
  core : 16 ≤ m.classes.size

theorem create_wellRooted {c : Config} (h : create c = .ok m) : WellRooted m := by
  have hnone : ∀ k, (blank (effective c)).classGraph.super k = none := fun _ => rfl
  have htree : (blank (effective c)).classGraph.Tree :=
    ⟨hnone 0, fun k _ hk => absurd hk (Nat.not_lt_zero k), fun k _ => hnone k⟩
  have hboot := bootstrap_rooted (blank_rooted (effective c)) htree rfl ⟨fun _ _ => rfl, nofun⟩
  unfold create at h
  split at h
  · next hrun =>
    cases h
    obtain ⟨g', hg', h', hsize⟩ := hboot.of_ok hrun
    obtain rfl := h'.graph
    exact ⟨h', hg', hsize.ge⟩
  · cases h

/-! ### In the course of time -/

/-- What an action that adds to the graph makes of a machine. -/
theorem WellRooted.extended (h : WellRooted m) (hg : Grown m.classGraph m') :
    WellRooted m' ∧ m.classGraph.Extends m'.classGraph := by
  obtain ⟨g', hext, htree, hrooted⟩ := hg
  obtain rfl := hrooted.graph
  exact ⟨⟨hrooted, htree, Nat.le_trans h.core hext.size⟩, hext⟩

theorem WellRooted.kept (h : WellRooted m) (hm : m'.Rooted m.classGraph) :
    WellRooted m' ∧ m.classGraph.Extends m'.classGraph :=
  h.extended ⟨_, .refl _, h.tree, hm⟩

theorem WellRooted.after {α : Type} {Q : α → Prop} {x : Action α} {b : α} (h : WellRooted m)
    (hx : (naming m.classGraph).Gives Q x) (hok : x m = .ok b m') :
    WellRooted m' ∧ m.classGraph.Extends m'.classGraph :=
  h.kept (h.rooted.after hx hok)

theorem WellRooted.advance (h : WellRooted m) (ha : Advance ph m ph' m') :
    WellRooted m' ∧ m.classGraph.Extends m'.classGraph :=
  h.extended (ha.rooted h.core h.tree h.rooted)

theorem wellRooted_invariant : Invariant WellRooted where
  new h := create_wellRooted h
  enter _ h hI := (hI.after (enterUnit_keeps (core_naming hI.core) _) h).1
  part _ h hI := (hI.advance h).1
  retire hI := ⟨{ hI.rooted with }, hI.tree, hI.core⟩
  leave _ h hI := (hI.after (leaveUnit_keeps _) h).1
  release h hI := (hI.after (release_keeps _) h).1
  clearPending h hI := (hI.after clearPending_keeps h).1

theorem Reachable.wellRooted (h : Reachable running owned m) : WellRooted m :=
  wellRooted_invariant.reachable h

variable {a : Machine}

theorem Course.rooted {ok : Phase → Machine → Phase → Machine → Prop} (h : Course ok a ph m)
    (ha : WellRooted a) : WellRooted m ∧ a.classGraph.Extends m.classGraph := by
  induction h with
  | began => exact ⟨ha, .refl _⟩
  | next _ _ hadvance ih =>
    obtain ⟨hm, hext⟩ := ih.1.advance hadvance
    exact ⟨hm, ih.2.trans hext⟩

theorem tick_extends (ha : Reachable true owned a) (h : tick a = .ok none m) :
    a.classGraph.Extends m.classGraph := by
  have hcourse : Course AnyPart a .ready m := Course.began.tick (fun _ _ _ _ _ => trivial) ha h
  exact (hcourse.rooted (Reachable.wellRooted ha)).2

theorem tick_end_rooted (ha : Reachable true owned a) (h : tick a = .ok (some v) m) :
    WellRooted m ∧ a.classGraph.Extends m.classGraph := by
  have hbegan : Course AnyPart a .ready a := .began
  obtain ⟨b, hcourse, -, rfl⟩ := hbegan.tick_end (fun _ _ _ _ _ => trivial)
    (Machine.Reachable.steady ha) h
  obtain ⟨hb, hext⟩ := hcourse.rooted (Reachable.wellRooted ha)
  exact ⟨⟨{ hb.rooted with }, hb.tree, hb.core⟩, hext⟩

/-- Superclasses are older than their subclasses. -/
theorem WellRooted.older (h : WellRooted m) : m.Older := by
  intro k p hp
  have hsuper : m.classGraph.super k = some p := hp
  have hlt : k < m.classGraph.size := by
    refine Nat.lt_of_not_le fun hle => ?_
    rw [h.tree.outside k hle] at hsuper
    cases hsuper
  rcases Nat.eq_zero_or_pos k with rfl | hpos
  · rw [h.tree.root] at hsuper
    cases hsuper
  · obtain ⟨q, hq, heq⟩ := h.tree.below k hpos hlt
    cases hsuper.symm.trans heq
    exact hq

end Machine

open Machine Regime

/-- The superclasses that classes have stay theirs, whatever the host does later. -/
theorem Later.extends {held owned : List Value} {a m : Machine} {running : Bool}
    (h : Later held a running owned m) (ha : Reachable true held a) :
    a.classGraph.Extends m.classGraph := by
  induction h with
  | here => exact .refl _
  | enter p hm _ _ _ h ih =>
    have hroot := Machine.Reachable.wellRooted (hm.reachable ha)
    exact ih.trans (hroot.after (enterUnit_keeps (core_naming hroot.core) _) h).2
  | tick hm h ih => exact ih.trans (Machine.tick_extends (hm.reachable ha) h)
  | leave hm ht h ih =>
    obtain ⟨hroot, hext⟩ := Machine.tick_end_rooted (hm.reachable ha) ht
    exact ih.trans (hext.trans (hroot.after (leaveUnit_keeps _) h).2)
  | release hm _ h ih =>
    have hroot := Machine.Reachable.wellRooted (hm.reachable ha)
    exact ih.trans (hroot.after (release_keeps _) h).2
  | clearPending hm h ih =>
    have hroot := Machine.Reachable.wellRooted (hm.reachable ha)
    exact ih.trans (hroot.after clearPending_keeps h).2

end ObjectMachine
