import ObjectMachine.Proofs.Parts

/-! Invariants of a host's machines. What holds of a new machine and is kept by the entry of a
unit, by every part of a tick, and by what the host does afterwards, holds of every machine
that is reached. The first use: no listed frame is ever freed or listed twice, and suspended
passes are in order. -/

namespace ObjectMachine

namespace Machine

variable {P : Permit} {m m₁ m' a : Machine} {v : Value} {ph ph' : Phase} {owned : List Value}

/-! ### The end of a run -/

variable {ok : Phase → Machine → Phase → Machine → Prop}

/-- The last pass of a run is over. -/
def retired (m : Machine) : Machine := { m with context := { m.context with entry := none } }

theorem Course.finishStep_end (ss : List Suspension) (h : Course ok a .settling m)
    (hok : ∀ ph n ph' n', ph ≠ .ready → ok ph n ph' n') (hss : m.suspended = ss)
    (hm : Steady .settling owned m) :
    Leads AnyFault (Machine.finishStep ss) m fun r m' => ∀ v, r = some v →
      ∃ b, Course ok a .ended b ∧ b.suspended = [] ∧ m' = b.retired := by
  induction ss generalizing m with
  | nil =>
    simp only [Machine.finishStep, Leads.bind_eq]
    refine (Leads.named _).mono fun pending m₁ h₁ => ?_
    cases pending with
    | false => rintro v ⟨⟩
    | true =>
      intro v _
      have hs₁ : m₁.suspended = [] := ((Advance.unwound h₁).turn hm).1.suspended.trans hss
      exact ⟨m₁, h.next (hok _ _ _ _ (by simp)) (.unwound h₁), hs₁, rfl⟩
  | cons s rest ih =>
    simp only [Machine.finishStep, Leads.bind_eq]
    refine (Leads.named _).mono fun pending m₁ h₁ => ?_
    cases pending with
    | false => rintro v ⟨⟩
    | true =>
      simp only [if_true, Leads.bind_eq]
      refine (Leads.named _).mono fun _ m₂ h₂ => ?_
      obtain ⟨hturn₁, hm₁⟩ := (Advance.unwound h₁).turn hm
      have hs₁ : m₁.suspended = s :: rest := hturn₁.suspended.trans hss
      obtain ⟨hturn₂, hm₂⟩ := (Advance.resumed hs₁ h₂).turn hm₁
      obtain ⟨s', hs₂⟩ := hturn₂.suspended
      refine ih ((h.next ?_ (.unwound h₁)).next ?_ (.resumed hs₁ h₂)) ?_ hm₂
      · exact hok _ _ _ _ (by simp)
      · exact hok _ _ _ _ (by simp)
      exact (List.cons.inj (hs₁.symm.trans hs₂)).2.symm

/-- The tick that ends a run ends its last pass. -/
theorem Course.tick_end (h : Course ok a .ready m)
    (hok : ∀ ph n ph' n', (ph = .ready → n = m) → ok ph n ph' n') (hm : Steady .ready owned m)
    (ht : Machine.tick m = .ok (some v) m') :
    ∃ b, Course ok a .ended b ∧ b.suspended = [] ∧ m' = b.retired := by
  have hfirst : ∀ ph' n', ok .ready m ph' n' := fun _ _ => hok _ _ _ _ fun _ => rfl
  have hlater : ∀ ph n ph' n', ph ≠ .ready → ok ph n ph' n' :=
    fun _ _ _ _ hph => hok _ _ _ _ fun heq => absurd heq hph
  have hparts : Leads AnyFault Machine.tick m fun r m' => ∀ v, r = some v →
      ∃ b, Course ok a .ended b ∧ b.suspended = [] ∧ m' = b.retired := by
    have hstep := Leads.named (m := m) (fetch >>= step)
    rw [Leads.bind_eq] at hstep
    simp only [Machine.tick, Leads.bind_eq]
    refine hstep.mono fun i m₀ h₀ => h₀.mono fun p m₁ h₁ => ?_
    cases p with
    | entered => rintro v ⟨⟩
    | same =>
      simp only [Leads.bind_eq, Leads.get_eq]
      exact (h.next (hfirst _ _) (.same h₁)).finishStep_end m₁.suspended hlater rfl
        ((Advance.same h₁).turn hm).2
    | finished v =>
      obtain ⟨hturn, hm₁⟩ := (Advance.finished h₁).turn hm
      simp only [Machine.endPass, Leads.bind_eq, Leads.get_eq]
      split
      · next hnil =>
        intro v _
        exact ⟨m₁, h.next (hfirst _ _) (.finished h₁), hnil, rfl⟩
      · next s rest hs =>
        simp only [Leads.bind_eq]
        refine (Leads.named _).mono fun _ m₂ h₂ => ?_
        obtain ⟨hturn₂, hm₂⟩ := (Advance.resumed hs h₂).turn hm₁
        obtain ⟨s', hs₂⟩ := hturn₂.suspended
        refine ((h.next (hfirst _ _) (.finished h₁)).next ?_ (.resumed hs h₂)).finishStep_end rest
          hlater ?_ hm₂
        · exact hlater _ _ _ _ (by simp)
        exact (List.cons.inj (hs.symm.trans hs₂)).2.symm
  exact hparts.of_ok ht v rfl

end Machine

/-- Chain, passes, window and code are the same, and so is the frame that is noted. -/
structure Control.Rests (c c' : Control) : Prop where
  suspended : c'.suspended = c.suspended
  chain : c'.chain = c.chain
  base : c'.context.base = c.context.base
  code : c'.context.code = c.context.code
  finalizeFrame : c'.context.finalizeFrame = c.context.finalizeFrame

theorem Control.Rests.trans {c c₁ c' : Control} (h : c.Rests c₁) (h' : c₁.Rests c') : c.Rests c' :=
  ⟨h'.suspended.trans h.suspended, h'.chain.trans h.chain, h'.base.trans h.base,
    h'.code.trans h.code, h'.finalizeFrame.trans h.finalizeFrame⟩

namespace Machine

variable {P : Permit} {m m₁ m' a : Machine} {v : Value} {ph ph' : Phase} {owned : List Value}

theorem Works.rests (h : Works P m m') : m.control.Rests m'.control :=
  ⟨congrArg (·.suspended) h.core, congrArg (·.chain) h.core, congrArg (·.context.base) h.core,
    congrArg (·.context.code) h.core, congrArg (·.context.finalizeFrame) h.core⟩

/-! ### Units of code -/

theorem enterUnit_leads (code : Code) :
    Leads AnyFault (enterUnit code) m fun _ m' => Goes (.store 0) m m' ∧
      m'.context = { m.context with
        base := 0, code := some code, pc := 0, targetClass := some .object, entry := m.chain.head? } ∧
      m'.chain = m.chain ∧ m'.suspended = m.suspended ∧
      (code.block.registers).toInt ≤ m'.regHigh.toInt := by
  simp only [enterUnit, currentSize, currentCode, present, Leads.bind_eq, Leads.get_eq,
    Leads.modify_eq, Leads.pure_eq]
  refine (acquire_tame (P := .store 0) _ m).mono fun _ m₁ h₁ => ?_
  refine (setReg_tame (P := .store 0) rfl m₁).mono fun _ m₂ h₂ => ?_
  refine Leads.mono (((enterWindow_clerical _ _).tame (P := .store 0) _).and (enterWindow_leads _ _)) ?_
  rintro _ m₃ ⟨h₃, -, -, htop⟩
  have hchain : m₂.chain = m.chain := congrArg (·.chain) (h₂.core.trans h₁.core)
  have hsuspended : m₂.suspended = m.suspended := congrArg (·.suspended) (h₂.core.trans h₁.core)
  have hturn : Goes (.store 0) m₂ { m₂ with
      context := { m₂.context with
        base := 0, code := some code, pc := 0, targetClass := some .object
        entry := m₂.chain.head? }
      jumped := false } := ⟨.of_eq rfl rfl rfl rfl, .of_perm rfl (.refl _), rfl⟩
  refine ⟨h₁.goes.trans (h₂.goes.trans (hturn.trans h₃.goes)), ?_, ?_, ?_, ?_⟩
  · rw [h₃.names, h₂.names, h₁.names, hchain]
  · exact (congrArg (·.chain) h₃.core : m₃.chain = m₂.chain).trans hchain
  · exact (congrArg (·.suspended) h₃.core : m₃.suspended = m₂.suspended).trans hsuspended
  · rwa [Int64.zero_add] at htop

theorem clearException_goes :
    Leads AnyFault clearException m fun _ m' => Goes P m m' := by
  refine ((clearException_steers (l := [])).and clearException_control).mono fun _ m₁ ⟨h₁, hc₁⟩ => ?_
  exact h₁.goes (size_of_control (by rw [hc₁]; rfl))

theorem leaveUnit_goes (v : Value) :
    Leads AnyFault (leaveUnit v) m fun _ m' => Goes (.trim 0) m m' ∧ m.control.Rests m'.control := by
  simp only [leaveUnit_eq, Leads.bind_eq, Leads.get_eq]
  refine ((dropAllMarkers_steers (l := [])).and dropAllMarkers_control).mono ?_
  rintro _ m₁ ⟨⟨h₁, -⟩, hc₁⟩
  have h₁ : Goes (.trim 0) m m₁ := h₁.goes (size_of_control (by rw [hc₁]))
  have hrests₁ : m.control.Rests m₁.control := hc₁ ▸ ⟨rfl, rfl, rfl, rfl, rfl⟩
  refine (scrubAbove_works 0 0 id).mono fun _ m₂ h₂ => ?_
  have hrests₂ := hrests₁.trans h₂.rests
  have hanswer : ∀ m₃, Goes (.trim 0) m m₃ → m.control.Rests m₃.control →
      Leads AnyFault (answer v) m₃ fun _ m' => Goes (.trim 0) m m' ∧ m.control.Rests m'.control := by
    intro m₃ h₃ hrests₃
    simp only [answer, Leads.bind_eq, Leads.get_eq]
    split
    · simp only [Leads.bind_eq, Leads.pure_eq]
      exact (release_tame (P := .trim 0) v m₃).mono fun _ m₄ h₄ =>
        ⟨h₃.trans h₄.goes, hrests₃.trans h₄.rests⟩
    · exact ⟨h₃, hrests₃⟩
  split
  · rw [Leads.bind_eq]
    refine ((clearException_goes (P := .trim 0)).and clearException_control).mono ?_
    rintro _ m₃ ⟨h₃, hc₃⟩
    exact hanswer m₃ (h₁.trans (h₂.goes.trans h₃)) (hrests₂.trans (hc₃ ▸ ⟨rfl, rfl, rfl, rfl, rfl⟩))
  · exact hanswer m₂ (h₁.trans h₂.goes) hrests₂

theorem clearPending_goes : Leads AnyFault clearPending m fun _ m' => Goes P m m' := by
  simp only [clearPending, Leads.bind_eq, Leads.get_eq, Leads.modify_eq]
  refine Leads.mono (release_tame (P := P) _ _) fun _ m₁ h₁ => Goes.trans ?_ h₁.goes
  exact ⟨.of_eq rfl rfl rfl rfl, .of_perm rfl (.refl _), rfl⟩

end Machine

open Machine

/-! ### Invariants -/

/-- A property that new machines have and that nothing destroys. -/
structure Invariant (I : Machine → Prop) : Prop where
  new : ∀ {c : Config} {m : Machine}, create c = .ok m → I m
  enter : ∀ {p : Program} {m m' : Machine}, p.defect? = none → enterUnit p.root m = .ok () m' →
    I m → I m'
  part : ∀ {ph ph' : Phase} {owned : List Value} {m m' : Machine}, Steady ph owned m →
    Advance ph m ph' m' → I m → I m'
  retire : ∀ {m : Machine}, I m → I m.retired
  leave : ∀ {v : Value} {r : Except ExecuteError Value} {m m' : Machine}, m.suspended = [] →
    leaveUnit v m = .ok r m' → I m → I m'
  release : ∀ {v : Value} {m m' : Machine}, release v m = .ok () m' → I m → I m'
  clearPending : ∀ {m m' : Machine}, clearPending m = .ok () m' → I m → I m'

namespace Invariant

variable {I : Machine → Prop} {a m : Machine} {ph : Phase} {owned : List Value} {running : Bool}

theorem course (hI : Invariant I) {ok : Phase → Machine → Phase → Machine → Prop}
    (h : Course ok a ph m) (ha : Reachable true owned a) (hIa : I a) : I m := by
  induction h with
  | began => exact hIa
  | next hcourse _ hadvance ih => exact hI.part (hcourse.steady ha) hadvance ih

theorem reachable (hI : Invariant I) (h : Reachable running owned m) : I m := by
  induction h with
  | new h => exact hI.new h
  | enter p _ _ _ hvalid h ih => exact hI.enter hvalid h ih
  | tick hm h ih => exact hI.course (Course.began.tick (fun _ _ _ _ _ => trivial) hm h) hm ih
  | leave hm ht h ih =>
    obtain ⟨b, hcourse, hnil, rfl⟩ := Course.began.tick_end (fun _ _ _ _ _ => trivial)
      (Machine.Reachable.steady hm) ht
    exact hI.leave (m := b.retired) hnil h (hI.retire (hI.course hcourse hm ih))
  | release _ _ h ih => exact hI.release h ih
  | clearPending _ h ih => exact hI.clearPending h ih

end Invariant

namespace Machine

variable {m m' a : Machine} {ph : Phase} {owned : List Value} {running : Bool}

/-- Listed frames are in order, and so are suspended passes. -/
structure Tidy (m : Machine) : Prop where
  listed : Listed [] m
  orderly : m.Orderly

theorem Tidy.goes {P : Permit} (h : m.Tidy) (hgoes : Goes P m m') (hs : m'.suspended = m.suspended) :
    m'.Tidy :=
  ⟨hgoes.lasting.listed [] h.listed, by rw [Orderly, hs]; exact h.orderly⟩

theorem tidy_invariant : Invariant Tidy where
  new h := by
    obtain ⟨-, hsuspended, hmarkers, hchain⟩ := create_ledger (s := True) h
    refine ⟨⟨?_, fun f hf => ?_⟩, by simp [Orderly, hsuspended]⟩
    · simp [nodes, savedMarkers, duties, hsuspended, hmarkers, hchain]
    · simp [nodes, savedMarkers, duties, hsuspended, hmarkers, hchain] at hf
  enter _ h hI := by
    obtain ⟨hgoes, -, -, hs, -⟩ := (enterUnit_leads _).of_ok h
    exact hI.goes hgoes hs
  part hm h hI :=
    ⟨(h.lasting hm hI.orderly).listed [] hI.listed, h.orderly hm hI.orderly⟩
  retire hI := hI.goes (P := .nothing) ⟨.of_eq rfl rfl rfl rfl, .of_perm rfl (.refl _), rfl⟩ rfl
  leave _ h hI := by
    obtain ⟨hgoes, hrests⟩ := (leaveUnit_goes _).of_ok h
    exact hI.goes hgoes hrests.suspended
  release h hI := by
    have hworks := (release_tame (P := .nothing) _ _).of_ok h
    exact hI.goes hworks.goes (congrArg (·.suspended) hworks.core)
  clearPending h hI := by
    refine hI.goes (P := .nothing) (clearPending_goes.of_ok h) ?_
    exact congrArg Control.suspended (clearPending_control.of_ok h)

end Machine

end ObjectMachine
