import ObjectMachine.Proofs.Compliance
import ObjectMachine.Proofs.Invariants

/-! The chain is a stack, and what is taken off it is freed. Whatever an action does, the part of
the chain that it has kept lies below what it has pushed, and every other frame that was on the
chain has been freed for good. Nothing is assumed of the machine. -/

namespace ObjectMachine

def Permit.everything : Permit where
  stores _ := True
  clears _ := True
  makes _ := True
  installs _ := True
  trims := True

namespace Machine

/-- Of the chain of `m` a part is kept at the bottom of the chain of `m'`. The rest has been
freed, and no frame comes back from that. -/
structure Sheds (m m' : Machine) : Prop where
  le_size : m.frames.size ≤ m'.frames.size
  freed : ∀ f, f < m.frames.size → (m.frameAt f).freed → (m'.frameAt f).freed
  kept : ∃ kept, kept <:+ m.chain ∧ kept <:+ m'.chain ∧
    ∀ f ∈ m.chain, f < m.frames.size → f ∈ kept ∨ (m'.frameAt f).freed

variable {P : Permit} {m m₁ m' : Machine} {v : Value} {w : Window} {f : FrameId}
  {rest : List FrameId}

/-- The whole chain is kept. -/
theorem Sheds.of_suffix (hsize : m.frames.size ≤ m'.frames.size)
    (hfreed : ∀ f, f < m.frames.size → (m.frameAt f).freed → (m'.frameAt f).freed)
    (hchain : m.chain <:+ m'.chain) : Sheds m m' :=
  ⟨hsize, hfreed, m.chain, List.suffix_refl _, hchain, fun _ hf _ => .inl hf⟩

theorem Sheds.of_frames (hframes : m'.frames = m.frames) (hchain : m.chain <:+ m'.chain) :
    Sheds m m' := by
  refine .of_suffix (Nat.le_of_eq (congrArg Array.size hframes).symm) (fun f _ hf => ?_) hchain
  simpa only [frameAt, hframes] using hf

theorem Sheds.refl (m : Machine) : Sheds m m := .of_frames rfl (List.suffix_refl _)

/-- Of two parts that were kept in turn the smaller one is kept. -/
theorem Sheds.trans (h : Sheds m m₁) (h' : Sheds m₁ m') : Sheds m m' := by
  have hfreed : ∀ f, f < m.frames.size → (m.frameAt f).freed → (m'.frameAt f).freed :=
    fun f hlt hf => h'.freed f (Nat.lt_of_lt_of_le hlt h.le_size) (h.freed f hlt hf)
  refine ⟨Nat.le_trans h.le_size h'.le_size, hfreed, ?_⟩
  obtain ⟨kept, hbelow, habove, hshed⟩ := h.kept
  obtain ⟨kept', hbelow', habove', hshed'⟩ := h'.kept
  have hlater : ∀ f ∈ m.chain, f < m.frames.size →
      f ∈ kept ∧ f ∈ kept' ∨ (m'.frameAt f).freed := by
    intro f hf hlt
    have hlt₁ := Nat.lt_of_lt_of_le hlt h.le_size
    rcases hshed f hf hlt with hkept | hgone
    · exact (hshed' f (habove.subset hkept) hlt₁).imp_left (⟨hkept, ·⟩)
    · exact .inr (h'.freed f hlt₁ hgone)
  rcases List.suffix_or_suffix_of_suffix habove hbelow' with hsuffix | hsuffix
  · exact ⟨kept, hbelow, hsuffix.trans habove', fun f hf hlt => (hlater f hf hlt).imp_left (·.1)⟩
  · exact ⟨kept', hsuffix.trans hbelow, habove', fun f hf hlt => (hlater f hf hlt).imp_left (·.2)⟩

/-- The top of the chain was taken off and has been freed. -/
theorem Sheds.of_tail (hchain : m.chain = f :: rest) (h : Sheds { m with chain := rest } m')
    (hf : (m'.frameAt f).freed) : Sheds m m' := by
  obtain ⟨kept, hbelow, habove, hshed⟩ := h.kept
  refine ⟨h.le_size, h.freed, kept, ?_, habove, fun g hg hlt => ?_⟩
  · rw [hchain]
    exact hbelow.trans (List.suffix_cons f rest)
  · rw [hchain] at hg
    rcases List.mem_cons.1 hg with rfl | hg
    · exact .inr hf
    · exact hshed g hg hlt

/-- A frame that was on the chain is still there, or it has been freed. -/
theorem Sheds.mem_or_freed (h : Sheds m m') (hf : f ∈ m.chain) (hlt : f < m.frames.size) :
    f ∈ m'.chain ∨ (m'.frameAt f).freed := by
  obtain ⟨kept, -, habove, hshed⟩ := h.kept
  exact (hshed f hf hlt).imp_left (habove.subset ·)

/-! ### Actions -/

def Shedding {α : Type} (x : Action α) : Prop := ∀ m, Leads AnyFault x m fun _ m' => Sheds m m'

/-- The regime of actions that take the chain of `a` for a stack. -/
def stacking (a : Machine) : Regime := ⟨Sheds a, fun _ => True, fun _ => True⟩

variable {α : Type} {Q : α → Prop} {x : Action α} {a : Machine}

theorem Shedding.gives (h : Shedding x) (hq : ∀ b, Q b) : (stacking a).Gives Q x := by
  intro m hm
  exact (h m).imp (fun _ _ _ => trivial) fun b _ h' => ⟨Sheds.trans hm h', hq b⟩

theorem Sheds.leads (h : Sheds a m) (hx : (stacking a).Keeps x) :
    Leads AnyFault x m fun _ m' => Sheds a m' :=
  (hx m h).imp (fun _ _ _ => trivial) fun _ _ h' => h'.1

theorem Sheds.of_ok {b : α} (hx : (stacking m).Keeps x) (h : x m = .ok b m') : Sheds m m' :=
  ((Sheds.refl m).leads hx).of_ok h

theorem core_stacking : (stacking a).Core := fun _ _ => trivial

theorem owes_stacking (d : Duty) : (stacking a).Owes d := .of_knows (fun _ => trivial) d

theorem Works.sheds (h : Works P m m') : Sheds m m' := by
  have hchain : m'.chain = m.chain := congrArg (·.chain) h.core
  exact .of_frames (frames_of_core h.core) (hchain ▸ List.suffix_refl _)

theorem Tame.shedding {α : Type} {x : Action α} (h : Tame .everything x) : Shedding x :=
  fun m => (h m).mono fun _ _ h => h.sheds

instance : (stacking a).Lawful where
  halts _ := trivial
  names _ := .of_knows fun _ => trivial
  mild h hmild _ := Sheds.trans h (.of_suffix hmild.size hmild.freed hmild.chain)
  interned _ h := Sheds.trans h (.of_frames rfl (List.suffix_refl _))
  release_keeps v := (release_tame v).shedding.gives fun _ => trivial
  acquire_keeps v := (acquire_tame v).shedding.gives fun _ => trivial
  allocate?_keeps size body _ := by
    have htame : Tame .everything (allocate? size body) := allocate?_tame size fun _ _ => trivial
    exact htame.shedding.gives fun _ => trivial
  addMethod_keeps _ _ _ h := ⟨Sheds.trans h (.of_frames rfl (List.suffix_refl _)), trivial⟩
  unlink_keeps _ _ _ h := ⟨Sheds.trans h (.of_frames rfl (List.suffix_refl _)), trivial⟩

/-! ### Frames -/

theorem freeFrame_sheds (f : FrameId) :
    Leads AnyFault (freeFrame f) m fun _ m' =>
      Sheds m m' ∧ m'.chain = m.chain ∧ (m'.frameAt f).freed := by
  refine (freeFrame_leads f).mono fun _ m' ⟨_, _, hcore⟩ => ?_
  have hframes : m'.frames = m.frames.modify f Frame.retired := congrArg (·.frames) hcore
  have hchain : m'.chain = m.chain := congrArg (·.chain) hcore
  have hat : m'.frameAt = frameAt { m with frames := m.frames.modify f Frame.retired } := by
    funext g
    simp only [frameAt, hframes]
  refine ⟨.of_suffix ?_ (fun g _ hg => ?_) (hchain ▸ List.suffix_refl _), hchain, ?_⟩
  · rw [hframes, Array.size_modify]
  · rw [hat, frameAt_modify]
    split
    · rfl
    · exact hg
  · rw [hat, frameAt_modify]
    split
    · rfl
    · next hnot => exact frameAt_of_size_le (Nat.not_lt.1 fun hlt => hnot ⟨rfl, hlt⟩)

/-- A frame is freed by what it is popped by. -/
theorem popFrame_shedding : Shedding popFrame := by
  intro m
  simp only [popFrame, Leads.bind_eq, Leads.get_eq]
  split
  · trivial
  · next f rest hchain =>
    have hpop : ∀ m₁ : Machine, m₁.chain = f :: rest → ∀ context,
        Leads AnyFault (freeFrame f) { m₁ with chain := rest, context } fun _ m₂ => Sheds m₁ m₂ := by
      intro m₁ hchain₁ context
      refine (freeFrame_sheds f).mono ?_
      rintro _ m₂ ⟨h₂, -, hfreed⟩
      refine .of_tail hchain₁ (.trans ?_ h₂) hfreed
      exact .of_frames rfl (List.suffix_refl _)
    cases hk : (m.frameAt f).isMarker with
    | true =>
      simp only [Bool.not_true, Bool.false_eq_true, if_false, hk, Leads.bind_eq, Leads.get_eq,
        Leads.modify_eq, Leads.pure_eq]
      exact hpop m hchain _
    | false =>
      simp only [Bool.not_false, if_true, hk, Leads.bind_eq, Leads.get_eq, Leads.modify_eq]
      refine (((Sheds.refl m).leads (Regime.dropFrameMarkers_keeps f)).and
        (dropFrameMarkers_steers (l := []) f)).mono ?_
      rintro _ m₁ ⟨h₁, -, hchain₁⟩
      refine (hpop m₁ (hchain₁.trans hchain) _).mono fun _ m₂ h₂ => h₁.trans (h₂.trans ?_)
      exact .of_frames rfl (List.suffix_refl _)

/-- The marker that is resumed at is freed. -/
theorem resumeAt_sheds (f : FrameId) :
    Leads AnyFault (resumeAt f) m fun _ m' => Sheds m m' ∧ (m'.frameAt f).freed := by
  have hend : ∀ m₁, Sheds m m₁ → Leads AnyFault (do
      if (← get).exception.isNone then throw .outOfBounds
      freeFrame f
      modify fun m => { m with jumped := true } : Action Unit) m₁
      fun _ m' => Sheds m m' ∧ (m'.frameAt f).freed := by
    intro m₁ h₁
    simp only [Leads.bind_eq, Leads.get_eq]
    split
    · trivial
    · simp only [Leads.bind_eq, Leads.modify_eq]
      refine (freeFrame_sheds f).mono fun _ m₂ ⟨h₂, _, hfreed⟩ => ⟨h₁.trans (h₂.trans ?_), hfreed⟩
      exact .of_frames rfl (List.suffix_refl _)
  simp only [resumeAt, modifyContext, Leads.bind_eq, Leads.get_eq, Leads.modify_eq] at hend ⊢
  have hunwind := Regime.unwindTo_keeps (popFrame_shedding.gives (a := m) fun _ => trivial)
  refine ((Sheds.refl m).leads (hunwind _)).mono fun _ m₁ h₁ => ?_
  split
  · simp only [Leads.bind_eq, Leads.modify_eq]
    exact hend _ (h₁.trans (.of_frames rfl (List.suffix_refl _)))
  · simp only [Leads.bind_eq, Leads.modify_eq]
    refine Leads.mono (Sheds.leads (h₁.trans ?_) Regime.spliceNext_keeps) fun _ m₂ h₂ => hend m₂ h₂
    exact .of_frames rfl (List.suffix_refl _)

/-! ### The regime as a whole -/

instance : (stacking a).Complete where
  dupInstance_fetches obj := (dupInstance_tame obj).shedding.gives fun _ _ _ => trivial
  popFrame_keeps := popFrame_shedding.gives fun _ => trivial
  resumeTop_keeps {m f} h hhead := by
    obtain ⟨rest, hrest⟩ := List.head?_eq_some_iff.1 hhead
    rw [hrest, List.tail_cons]
    exact (resumeAt_sheds f).imp (fun _ _ _ => trivial) fun _ _ h' =>
      Sheds.trans h (.of_tail hrest h'.1 h'.2)

theorem step_stacking (i : Inst) : (stacking a).Keeps (step i) := by
  refine Regime.step_keeps core_stacking i (fun _ obj s v _ => ?_) fun _ name super _ => ?_
  · exact (setVariable_tame obj s v).shedding.gives fun _ => trivial
  · exact (defineClass_tame name super).shedding.gives fun _ => trivial

end Machine

end ObjectMachine
