import ObjectMachine.Proofs.Constructors
import ObjectMachine.Proofs.Provenance
import ObjectMachine.Proofs.Shedding

/-! What comes later. From a machine that runs a unit of code the host goes on as it likes. Frames
are shed and never come back, closures stay what they are, and each of them was made in a context
that had the frames it refers to on its chain. So a closure refers to frames that are on the chain
or have been freed. -/

namespace ObjectMachine

open Machine

/-- The machines that a host comes to from `a`, where it runs a unit of code and owns `held`. -/
inductive Later (held : List Value) (a : Machine) : (running : Bool) → (owned : List Value) →
    Machine → Prop
  | here : Later held a true held a
  | enter {owned : List Value} {m m' : Machine} (p : Program) (hm : Later held a false owned m)
      (haborted : ¬m.aborted) (hpending : m.pending = none) (hvalid : p.defect? = none)
      (h : enterUnit p.root m = .ok () m') : Later held a true owned m'
  | tick {owned : List Value} {m m' : Machine} (hm : Later held a true owned m)
      (h : tick m = .ok none m') : Later held a true owned m'
  | leave {owned : List Value} {m m₁ m' : Machine} {v : Value} {r : Except ExecuteError Value}
      (hm : Later held a true owned m) (ht : Machine.tick m = .ok (some v) m₁)
      (h : leaveUnit v m₁ = .ok r m') : Later held a false (resultHand r ++ owned) m'
  | release {owned : List Value} {m m' : Machine} {v : Value} (hm : Later held a false owned m)
      (hv : v ∈ owned) (h : release v m = .ok () m') : Later held a false (owned.erase v) m'
  | clearPending {owned : List Value} {m m' : Machine} (hm : Later held a false owned m)
      (h : clearPending m = .ok () m') : Later held a false owned m'

namespace Machine

/-- Frames are shed and stay what they were, and closures are kept. -/
structure Follows (m m' : Machine) : Prop where
  sheds : Sheds m m'
  lasting : Lasting [] [] m m'
  kept : ∀ r p, m.memory.closure? r = some p → m'.memory.closure? r = some p

variable {P : Permit} {a m m₁ m' : Machine} {ph ph' : Phase} {owned held : List Value}
  {running : Bool} {f : FrameId} {p : Closure} {v : Value}

theorem Follows.refl (m : Machine) : Follows m m := ⟨.refl m, .refl m, fun _ _ h => h⟩

theorem Follows.trans (h : Follows m m₁) (h' : Follows m₁ m') : Follows m m' :=
  ⟨h.sheds.trans h'.sheds, h.lasting.trans h'.lasting, fun r p hp => h'.kept r p (h.kept r p hp)⟩

theorem Goes.follows (h : Goes P m m') (hs : Sheds m m') : Follows m m' :=
  ⟨hs, h.lasting, h.alters.kept⟩

theorem retired_follows : Follows m m.retired :=
  ⟨.of_frames rfl (List.suffix_refl _), .of_perm rfl (.refl _), fun _ _ h => h⟩

/-! ### What makes closures -/

/-- The next instruction of `m` makes the closure `p` of a block of its code. -/
def Captures (m : Machine) (p : Closure) : Prop :=
  ∃ i x child, m.control.next? = some i ∧ i.op = .makeBlock ∧ m.context.code = some x ∧
    x.child? i.b = some child ∧ p = m.closureOver child

/-- Only instructions make closures. -/
theorem Advance.alters (h : Advance ph m ph' m') (hm : Steady ph owned m) (ho : m.Orderly) :
    ∃ P : Permit, Alters P m m' ∧ ∀ p, P.makes p → ph = .ready ∧ m.Captures p := by
  have hinst : ∀ i : Inst, m.control.next? = some i → ∀ p, (i.permit m.fetched).makes p →
      m.Captures p := by
    rintro i hi p ⟨hop, x, child, hx, hchild, rfl⟩
    exact ⟨i, x, child, hi, hop, hx, hchild, rfl⟩
  have hfetched : ∀ P, Alters P m m.fetched := fun P => .of_eq rfl rfl rfl rfl
  cases h with
  | same h =>
    obtain ⟨i, hi, hacts⟩ := (fetch_step_acts hm.noProbe).of_ok h
    exact ⟨_, (hfetched _).trans (Strides.alters hacts), fun p hp => ⟨rfl, hinst i hi p hp⟩⟩
  | entered h =>
    obtain ⟨i, hi, argc, id, callee, made, -, hacts⟩ := (fetch_step_acts hm.noProbe).of_ok h
    exact ⟨_, (hfetched _).trans hacts.alters, fun p hp => ⟨rfl, hinst i hi p hp⟩⟩
  | finished h =>
    obtain ⟨i, hi, hacts⟩ := (fetch_step_acts hm.noProbe).of_ok h
    exact ⟨_, (hfetched _).trans (Works.toAlters hacts), fun p hp => ⟨rfl, hinst i hi p hp⟩⟩
  | settled h => exact ⟨_, (concludeStep_goes.of_ok h).1.alters, nofun⟩
  | unwound h => exact ⟨_, (concludeStep_goes.of_ok h).1.alters, nofun⟩
  | resumed hs h =>
    obtain ⟨x, made, w, id, callBase, callee, hawaits⟩ := ho _ (hs ▸ List.mem_cons_self)
    exact ⟨_, ((resumePass_goes hs hawaits).of_ok h).1.alters, nofun⟩

theorem Advance.sheds (h : Advance ph m ph' m') : Sheds m m' := by
  have hstep : (stacking m).Keeps (fetch >>= step) :=
    Regime.fetch_keeps.bind fun i _ => step_stacking i
  cases h with
  | same h | entered h | finished h => exact .of_ok hstep h
  | settled h | unwound h => exact .of_ok Regime.concludeStep_keeps h
  | resumed hs h => exact .of_ok (Regime.resumePass_keeps fun _ _ d _ => owes_stacking d) h

theorem Advance.follows (h : Advance ph m ph' m') (hm : Steady ph owned m) (ho : m.Orderly) :
    Follows m m' := by
  obtain ⟨P, halters, -⟩ := h.alters hm ho
  exact ⟨h.sheds, h.lasting hm ho, halters.kept⟩

theorem Tidy.chain_lt (h : m.Tidy) : ∀ f ∈ m.chain, f < m.frames.size :=
  fun f hf => h.listed.lt_size (by simp [nodes, hf])

theorem Course.follows {ok : Phase → Machine → Phase → Machine → Prop} (h : Course ok a ph m)
    (ha : Reachable true owned a) : Follows a m := by
  induction h with
  | began => exact .refl a
  | next hcourse _ hadvance ih =>
    exact ih.trans (hadvance.follows (hcourse.steady ha) (hcourse.tidy ha).orderly)

theorem tick_follows (ha : Reachable true owned a) (h : tick a = .ok none m) : Follows a m := by
  have hcourse : Course AnyPart a .ready m := Course.began.tick (fun _ _ _ _ _ => trivial) ha h
  exact hcourse.follows ha

/-- A closure that is new after a tick was made by its instruction. -/
theorem Course.made (h : Course (fun ph n _ _ => ph = .ready → n = a) a ph m)
    (ha : Reachable true owned a) {r : Ref} (hp : m.memory.closure? r = some p) :
    a.memory.closure? r = some p ∨ a.Captures p := by
  induction h with
  | began => exact .inl hp
  | next hcourse hok hadvance ih =>
    obtain ⟨P, halters, hmakes⟩ := hadvance.alters (hcourse.steady ha) (hcourse.tidy ha).orderly
    rcases halters.made r p hp with hold | hnew
    · exact ih hold
    · obtain ⟨hready, hcaptures⟩ := hmakes p hnew
      exact .inr (hok hready ▸ hcaptures)

theorem tick_made (ha : Reachable true owned a) (h : tick a = .ok none m) {r : Ref}
    (hnew : a.memory.closure? r = none) (hp : m.memory.closure? r = some p) : a.Captures p := by
  have hcourse : Course (fun ph n _ _ => ph = .ready → n = a) a .ready m :=
    Course.began.tick (fun _ _ _ _ hfirst => hfirst) ha h
  refine (hcourse.made ha hp).resolve_left fun hold => ?_
  cases hnew.symm.trans hold

theorem enterUnit_follows {code : Code} (h : enterUnit code m = .ok () m') : Follows m m' := by
  obtain ⟨hgoes, -⟩ := (enterUnit_leads code).of_ok h
  exact hgoes.follows (.of_ok (Regime.enterUnit_keeps core_stacking code) h)

theorem leaveUnit_follows {r : Except ExecuteError Value} (h : leaveUnit v m = .ok r m') :
    Follows m m' :=
  ((leaveUnit_goes v).of_ok h).1.follows (.of_ok (Regime.leaveUnit_keeps v) h)

theorem release_follows (h : release v m = .ok () m') : Follows m m' :=
  ((release_tame (P := .nothing) v m).of_ok h).goes.follows
    (.of_ok (Regime.release_keeps v) h)

theorem clearPending_follows (h : clearPending m = .ok () m') : Follows m m' :=
  ((clearPending_goes (P := .nothing)).of_ok h).follows
    (.of_ok Regime.clearPending_keeps h)

end Machine

namespace Later

variable {held owned : List Value} {a m : Machine} {running : Bool}

theorem reachable (h : Later held a running owned m) (ha : Reachable true held a) :
    Reachable running owned m := by
  induction h with
  | here => exact ha
  | enter p _ haborted hpending hvalid h ih => exact ih.enter p haborted hpending hvalid h
  | tick _ h ih => exact ih.tick h
  | leave _ ht h ih => exact ih.leave ht h
  | release _ hv h ih => exact ih.release hv h
  | clearPending _ h ih => exact ih.clearPending h

theorem follows (h : Later held a running owned m) (ha : Reachable true held a) : Follows a m := by
  induction h with
  | here => exact .refl a
  | enter p _ _ _ _ h ih => exact ih.trans (enterUnit_follows h)
  | tick hm h ih => exact ih.trans (tick_follows (hm.reachable ha) h)
  | @leave _ m₀ _ _ _ _ hm ht h ih =>
    have hreach := hm.reachable ha
    have hbegan : Course AnyPart m₀ .ready m₀ := .began
    obtain ⟨b, hcourse, -, rfl⟩ := hbegan.tick_end (fun _ _ _ _ _ => trivial)
      (Machine.Reachable.steady hreach) ht
    exact ih.trans ((hcourse.follows hreach).trans (retired_follows.trans (leaveUnit_follows h)))
  | release _ _ h ih => exact ih.trans (release_follows h)
  | clearPending _ h ih => exact ih.trans (clearPending_follows h)

/-- What happens within a unit of code. -/
theorem run {m' : Machine} (ticks : Nat) (h : Later held a true owned m)
    (hrun : Machine.run ticks m = .ok none m') : Later held a true owned m' := by
  induction ticks generalizing m m' with
  | zero =>
    cases hrun
    exact h
  | succ ticks ih =>
    have hticks : Leads AnyFault (Machine.run (ticks + 1)) m fun r m' =>
        r = none → Later held a true owned m' := by
      simp only [Machine.run, Leads.bind_eq]
      refine (Leads.named _).mono fun r m₁ h₁ => ?_
      cases r with
      | some v => rintro ⟨⟩
      | none =>
        refine (Leads.named _).mono fun r m₂ h₂ hr => ih (h.tick h₁) ?_
        rw [← hr]
        exact h₂
    exact hticks.of_ok hrun rfl

end Later

namespace Machine

variable {P : Permit} {a m m₁ m' : Machine} {ph ph' : Phase} {owned held : List Value}
  {running : Bool} {f : FrameId} {p : Closure} {v : Value}

/-! ### Frames of closures -/

/-- Frames that closures refer to are on the chain or have been freed. -/
def Anchored (m : Machine) : Prop :=
  ∀ r p f, m.memory.closure? r = some p → p.2.1 = some f ∨ p.2.2 = some f →
    f < m.frames.size ∧ (f ∈ m.chain ∨ (m.frameAt f).freed)

theorem Sheds.anchored (h : Sheds m m')
    (hf : f < m.frames.size ∧ (f ∈ m.chain ∨ (m.frameAt f).freed)) :
    f < m'.frames.size ∧ (f ∈ m'.chain ∨ (m'.frameAt f).freed) := by
  obtain ⟨hlt, hf⟩ := hf
  refine ⟨Nat.lt_of_lt_of_le hlt h.le_size, ?_⟩
  rcases hf with hmem | hfreed
  · exact h.mem_or_freed hmem hlt
  · exact .inr (h.freed f hlt hfreed)

/-- What was made refers to the frame on top, or to what another closure refers to. -/
theorem Anchored.closureOver (h : m.Anchored) (hlt : ∀ f ∈ m.chain, f < m.frames.size) {code : Code}
    (hf : (m.closureOver code).2.1 = some f ∨ (m.closureOver code).2.2 = some f) :
    f < m.frames.size ∧ (f ∈ m.chain ∨ (m.frameAt f).freed) := by
  have htop : m.chain.head? = some f → f < m.frames.size ∧ (f ∈ m.chain ∨ (m.frameAt f).freed) :=
    fun hhead => ⟨hlt f (List.mem_of_head? hhead), .inl (List.mem_of_head? hhead)⟩
  rcases hf with hf | hf
  · exact htop hf
  · simp only [Machine.closureOver] at hf
    split at hf
    · next code' frame selfFrame hproc =>
      obtain ⟨v, -, hv⟩ := Option.bind_eq_some_iff.1 hproc
      obtain ⟨r, -, hr⟩ := proc?_eq_some hv
      exact h r _ f hr (.inr hf)
    · exact htop hf

theorem Anchored.alters (h : m.Anchored) (hs : Sheds m m') (ha : Alters P m m')
    (hlt : ∀ f ∈ m.chain, f < m.frames.size) (hmakes : ∀ p, P.makes p → m.Captures p) :
    m'.Anchored := by
  intro r p f hp hf
  refine hs.anchored ?_
  rcases ha.made r p hp with hold | hnew
  · exact h r p f hold hf
  · obtain ⟨i, x, child, -, -, -, -, rfl⟩ := hmakes p hnew
    exact h.closureOver hlt hf

theorem Anchored.goes (h : m.Anchored) (hgoes : Goes P m m') (hs : Sheds m m')
    (hmakes : ∀ p, ¬P.makes p) : m'.Anchored := by
  intro r p f hp hf
  exact hs.anchored (h r p f ((hgoes.alters.made r p hp).resolve_right (hmakes p)) hf)

theorem anchored_invariant : Invariant fun m => Tidy m ∧ Anchored m where
  new h := by
    refine ⟨tidy_invariant.new h, fun r p f hp => ?_⟩
    rcases (create_alters h).made r p hp with hold | hnew
    · simp [blank, Memory.closure?] at hold
    · exact hnew.elim
  enter hvalid h hI :=
    ⟨tidy_invariant.enter hvalid h hI.1, hI.2.goes ((enterUnit_leads _).of_ok h).1
      (enterUnit_follows h).sheds fun _ h => h.elim⟩
  part hm h hI := by
    refine ⟨tidy_invariant.part hm h hI.1, ?_⟩
    obtain ⟨P, halters, hmakes⟩ := h.alters hm hI.1.orderly
    exact hI.2.alters h.sheds halters hI.1.chain_lt fun p hp => (hmakes p hp).2
  retire hI := ⟨tidy_invariant.retire hI.1, hI.2⟩
  leave hs h hI :=
    ⟨tidy_invariant.leave hs h hI.1, hI.2.goes ((leaveUnit_goes _).of_ok h).1
      (leaveUnit_follows h).sheds fun _ h => h.elim⟩
  release h hI :=
    ⟨tidy_invariant.release h hI.1, hI.2.goes ((release_tame (P := .nothing) _ _).of_ok h).goes
      (release_follows h).sheds fun _ h => h.elim⟩
  clearPending h hI :=
    ⟨tidy_invariant.clearPending h hI.1, hI.2.goes ((clearPending_goes (P := .nothing)).of_ok h)
      (clearPending_follows h).sheds fun _ h => h.elim⟩

theorem Reachable.anchored (h : Reachable running owned m) : m.Anchored :=
  (anchored_invariant.reachable h).2

end Machine

end ObjectMachine
