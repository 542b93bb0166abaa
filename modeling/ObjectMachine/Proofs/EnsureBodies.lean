import ObjectMachine.Proofs.Routing

/-! What runs in an ensure body. A body that raises nothing and touches neither markers nor the
exception only pushes calls above the chain it was entered with, and returns from them. It
may start constructor passes, which do the same above their own entries. So when it comes to
its closing return, markers, chain and exception are what they were. -/

namespace ObjectMachine

/-- An instruction that ends no pass and touches neither markers nor the exception. -/
def Opcode.isCalm : Opcode → Bool
  | takeException | pushRescue | pushEnsure | popMarkers | stop | abort => false
  | _ => true

namespace Control

def Raises (c c' : Control) : Prop :=
  ∃ e message c₁, (c.goto (c.context.pc + 1)).raise e message = some c₁ ∧
    c₁.finish c₁.suspended = some (c', false)

/-- What a return does. -/
theorem Move.leave_cases {c c' : Control} {p : Machine.Progress} (h : c.Move .leave p c') :
    (∃ f, c.topMarker? = some f ∧ { c with chain := c.chain.tail }.resume f = some c' ∧
      p = .same) ∨
    (c.topMarker? = none ∧ c.settlesOnReturn ∧ c' = c.settle ∧ p = .same) ∨
    (c.topMarker? = none ∧ ¬c.settlesOnReturn ∧ c.chain.head? ≠ c.context.entry ∧
      (∃ f rest, c.chain = f :: rest ∧ c' = c.pop f rest) ∧ p = .same) ∨
    (c.topMarker? = none ∧ ¬c.settlesOnReturn ∧ c.chain.head? = c.context.entry ∧ c' = c) := by
  generalize hop : Opcode.leave = op at h
  cases h with
  | call hop' _ =>
    subst hop
    cases hop'
  | jump hop' _ =>
    subst hop
    cases hop'
  | protect tag _ _ => split at hop <;> cases hop
  | halt hop' => rcases hop' with rfl | rfl <;> cases hop
  | resume htop hr => exact .inl ⟨_, htop, hr, rfl⟩
  | settle htop hsettle _ => exact .inr (.inl ⟨htop, hsettle, rfl, rfl⟩)
  | back htop hsettle hentry hchain =>
    exact .inr (.inr (.inl ⟨htop, hsettle, hentry, ⟨_, _, hchain, rfl⟩, rfl⟩))
  | finished _ htop hsettle hentry => exact .inr (.inr (.inr ⟨htop, hsettle, hentry, rfl⟩))
  | _ => cases hop

theorem Tick.next?_eq {c c' : Control} {i : Inst} {ended : Bool} (h : c.Tick i c' ended) :
    c.next? = some i := by
  obtain ⟨hi, -, -⟩ := h
  exact hi

/-- The next instruction is the closing return of a body that was entered at `c₀`. -/
def Closing (c₀ c : Control) : Prop :=
  c.chain = c₀.chain ∧ c.suspended.length = c₀.suspended.length ∧
    ∃ i, c.next? = some i ∧ i.op = .leave

structure SameState (x y : Context) : Prop where
  excState : x.excState = y.excState
  settleOnReturn : x.settleOnReturn = y.settleOnReturn
  finalizeFrame : x.finalizeFrame = y.finalizeFrame

/-- The passes above a body that was entered at `c₀`, with the running one in the context `x`
and the frames `fresh` pushed since. -/
inductive Layered (c₀ : Control) : List Suspension → Context → List FrameId → Prop
  | own {ss : List Suspension} {x : Context} {fresh : List FrameId} (hs : ss = c₀.suspended)
      (hmarkers : x.markers = c₀.context.markers) (hentry : x.entry = c₀.context.entry)
      (hstate : SameState x c₀.context) : Layered c₀ ss x fresh
  | nested {ss rest : List Suspension} {x x' : Context} {made : Value} {w : Window}
      {duties : List Duty} {fresh upper lower : List FrameId}
      (hs : ss = ⟨x'.entry, .construct x' made w :: duties⟩ :: rest)
      (hduties : ∀ d ∈ duties, IsPlain d) (hfresh : fresh = upper ++ lower)
      (hmarkers : x.markers = []) (hentry : x.entry = (lower ++ c₀.chain).head?)
      (hstate : SameState x c₀.context) (hlower : Layered c₀ rest x' lower) :
      Layered c₀ ss x fresh

variable {c c' c₀ : Control} {ss : List Suspension} {x x' : Context} {f : FrameId}
  {fresh : List FrameId}

namespace Layered

theorem state (h : Layered c₀ ss x fresh) : SameState x c₀.context := by
  cases h with
  | own _ _ _ hstate => exact hstate
  | nested _ _ _ _ _ hstate _ => exact hstate

theorem markers (h : Layered c₀ ss x fresh) : x.markers ⊆ c₀.context.markers := by
  cases h with
  | own _ hmarkers _ _ => exact hmarkers ▸ fun _ hf => hf
  | nested _ _ _ hmarkers _ _ _ => exact hmarkers ▸ fun _ hf => nomatch hf

theorem length_le (h : Layered c₀ ss x fresh) : c₀.suspended.length ≤ ss.length := by
  induction h with
  | own hs _ _ _ => exact hs ▸ Nat.le_refl _
  | nested hs _ _ _ _ _ _ ih =>
    rw [hs]
    exact Nat.le_succ_of_le ih

theorem turn (h : Layered c₀ ss x fresh) (hmarkers : x'.markers = x.markers)
    (hentry : x'.entry = x.entry) (hstate : SameState x' x) : Layered c₀ ss x' fresh := by
  have htrans : SameState x c₀.context → SameState x' c₀.context := fun h =>
    ⟨hstate.excState.trans h.excState, hstate.settleOnReturn.trans h.settleOnReturn,
      hstate.finalizeFrame.trans h.finalizeFrame⟩
  cases h with
  | own hs hm he hf => exact .own hs (hmarkers.trans hm) (hentry.trans he) (htrans hf)
  | nested hs hd hfresh hm he hf hl =>
    exact .nested hs hd hfresh (hmarkers.trans hm) (hentry.trans he) (htrans hf) hl

theorem push (h : Layered c₀ ss x fresh) (f : FrameId) : Layered c₀ ss x (f :: fresh) := by
  cases h with
  | own hs hm he hf => exact .own hs hm he hf
  | nested hs hd hfresh hm he hf hl =>
    exact .nested hs hd (hfresh ▸ (List.cons_append ..).symm) hm he hf hl

/-- A pass that is not at its entry can pop a frame. -/
theorem pop (h : Layered c₀ ss x (f :: fresh)) (hne : some f ≠ x.entry) :
    Layered c₀ ss x fresh := by
  cases h with
  | own hs hm he hf => exact .own hs hm he hf
  | @nested _ _ _ _ _ _ _ _ upper lower hs hd hfresh hm he hf hl =>
    cases upper with
    | nil =>
      rw [List.nil_append] at hfresh
      rw [← hfresh] at he
      exact absurd he.symm hne
    | cons u upper =>
      rw [List.cons_append, List.cons.injEq] at hfresh
      exact .nested hs hd hfresh.2 hm he hf hl

end Layered

structure SameSignal (c c' : Control) : Prop where
  exception : c'.exception = c.exception
  excMessage : c'.excMessage = c.excMessage
  pending : c'.pending = c.pending
  pendingMessage : c'.pendingMessage = c.pendingMessage
  state : SameState c'.context c.context

theorem pop_sameSignal {rest : List FrameId} : SameSignal c (c.pop f rest) := by
  simp only [pop, restore]
  split <;> exact ⟨rfl, rfl, rfl, rfl, rfl, rfl, rfl⟩

theorem markers_of_pop {rest : List FrameId}
    (h : ∀ g ∈ c.context.markers, (c.frameAt g).depth ≠ some f) :
    (c.pop f rest).context.markers = c.context.markers := by
  have hkeep : c.markersWithout f = c.context.markers := by
    unfold markersWithout
    cases hm : c.context.markers with
    | nil => rfl
    | cons g gs =>
      have hg := h g (hm ▸ List.mem_cons_self)
      rw [List.dropWhile_cons_of_neg (by simpa using hg)]
  simp only [pop, restore, hkeep]
  split <;> rfl

theorem finish_of_none {rest : List Suspension} (h : c.pending = none) :
    c.finish rest = some (c, false) := by
  cases rest with
  | nil => rw [finish, if_pos h]
  | cons s rest => rw [finish, if_pos h]

/-- An ensure body whose return goes on with the unwinding. -/
structure BodyEntry (c₀ : Control) : Prop where
  framed : ∀ f ∈ c₀.chain, f < c₀.frames.size
  marked : ∀ f ∈ c₀.context.markers, f < c₀.frames.size
  depth : ∀ f ∈ c₀.context.markers, ∀ d, (c₀.frameAt f).depth = some d → d < c₀.frames.size
  entry : ∀ e, c₀.context.entry = some e → e < c₀.frames.size
  home : c₀.suspended ≠ [] → c₀.chain.head? ≠ c₀.context.entry
  settle : c₀.context.settleOnReturn → c₀.context.finalizeFrame = c₀.chain.head?
  pending : c₀.pending = none

/-- Control in a body that was entered at `c₀`, with the frames `fresh` pushed since. -/
structure Within (c₀ c : Control) (fresh : List FrameId) : Prop where
  chain : c.chain = fresh ++ c₀.chain
  calls : ∀ f ∈ fresh, c₀.frames.size ≤ f ∧ f < c.frames.size ∧ (c.frameAt f).isMarker = false
  newer : fresh.Pairwise (· > ·)
  layered : Layered c₀ c.suspended c.context fresh
  le_size : c₀.frames.size ≤ c.frames.size
  old : ∀ f, f < c₀.frames.size → c.frameAt f = c₀.frameAt f
  exception : c.exception = c₀.exception
  excMessage : c.excMessage = c₀.excMessage
  pending : c.pending = none

namespace Within

theorem refl (h₀ : BodyEntry c₀) : Within c₀ c₀ [] where
  chain := rfl
  calls := List.forall_mem_nil _
  newer := .nil
  layered := .own rfl rfl rfl ⟨rfl, rfl, rfl⟩
  le_size := Nat.le_refl _
  old _ _ := rfl
  exception := rfl
  excMessage := rfl
  pending := h₀.pending

/-- Other code of the same pass goes on. -/
theorem turn (h : Within c₀ c fresh) (hx : x.markers = c.context.markers)
    (hentry : x.entry = c.context.entry) (hstate : SameState x c.context) :
    Within c₀ { c with context := x } fresh :=
  { h with layered := h.layered.turn hx hentry hstate }

theorem goto (h : Within c₀ c fresh) (pc : Int64) : Within c₀ (c.goto pc) fresh :=
  h.turn rfl rfl ⟨rfl, rfl, rfl⟩

theorem call (h : Within c₀ c fresh) (base : Int64) (code : Code) (targetClass : Option ClassId) :
    Within c₀ (c.call base code targetClass) (c.frames.size :: fresh) := by
  have hframes : (c.call base code targetClass).frames =
      c.frames.push (c.saved .call c.context.pc none) := rfl
  have hold : ∀ f, f < c.frames.size → (c.call base code targetClass).frameAt f = c.frameAt f :=
    fun f hf => frameAt_push_of_lt hf _ hframes
  have hsize : (c.call base code targetClass).frames.size = c.frames.size + 1 := by
    rw [hframes, Array.size_push]
  refine ⟨congrArg (c.frames.size :: ·) h.chain, fun f hf => ?_,
    List.pairwise_cons.2 ⟨fun f hf => (h.calls f hf).2.1, h.newer⟩, ?_, ?_, fun f hf => ?_,
    h.exception, h.excMessage, h.pending⟩
  · rw [hsize]
    rcases List.mem_cons.1 hf with rfl | hf
    · refine ⟨h.le_size, Nat.lt_succ_self _, ?_⟩
      rw [frameAt_push_size _ hframes]
      rfl
    · obtain ⟨hle, hlt, hcall⟩ := h.calls f hf
      exact ⟨hle, Nat.lt_succ_of_lt hlt, hold f hlt ▸ hcall⟩
  · exact (h.layered.push _).turn rfl rfl ⟨rfl, rfl, rfl⟩
  · rw [hsize]
    exact Nat.le_succ_of_le h.le_size
  · rw [hold f (Nat.lt_of_lt_of_le hf h.le_size)]
    exact h.old f hf

theorem enter (h : Within c₀ c fresh) (made : Value) (w : Window) {duties : List Duty}
    (base argc : Int64) (hx : x.bare = c.context) (hduties : ∀ d ∈ duties, IsPlain d) :
    Within c₀ (c.enter (.construct x made w :: duties) base argc) fresh := by
  refine { h with layered := ?_ }
  have hlower := h.layered
  rw [← hx] at hlower
  have hs : (c.enter (.construct x made w :: duties) base argc).suspended =
      ⟨x.entry, .construct x made w :: duties⟩ :: c.suspended := by
    have hentry : x.entry = c.context.entry := hx ▸ rfl
    rw [hentry]
    rfl
  refine .nested hs hduties (List.nil_append fresh).symm rfl ?_ ?_
    (hlower.turn rfl rfl ⟨rfl, rfl, rfl⟩)
  · rw [← h.chain]
    rfl
  · exact ⟨h.layered.state.excState, h.layered.state.settleOnReturn, h.layered.state.finalizeFrame⟩

/-- A call in the body returns. -/
theorem pop (h₀ : BodyEntry c₀) (h : Within c₀ c (f :: fresh)) (hne : some f ≠ c.context.entry) :
    Within c₀ (c.pop f (fresh ++ c₀.chain)) fresh := by
  obtain ⟨hle, -, hcall⟩ := h.calls f List.mem_cons_self
  have hmarkers : (c.pop f (fresh ++ c₀.chain)).context.markers = c.context.markers := by
    refine markers_of_pop fun g hg heq => ?_
    have hg₀ := h.layered.markers hg
    rw [h.old g (h₀.marked g hg₀)] at heq
    exact absurd (h₀.depth g hg₀ f heq) (Nat.not_lt.2 hle)
  have hsame : SamePass c (c.pop f (fresh ++ c₀.chain)) := pop_samePass
  have hat := frameAt_of_frames hsame.frames
  have hsignal : SameSignal c (c.pop f (fresh ++ c₀.chain)) := pop_sameSignal
  refine ⟨rfl, fun g hg => ?_, (List.pairwise_cons.1 h.newer).2, ?_, ?_, fun g hg => ?_,
    hsignal.exception.trans h.exception, hsignal.excMessage.trans h.excMessage,
    hsignal.pending.trans h.pending⟩
  · rw [hsame.frames, hat]
    exact h.calls g (List.mem_cons_of_mem _ hg)
  · rw [hsame.suspended]
    exact (h.layered.pop hne).turn hmarkers hsame.entry hsignal.state
  · rw [hsame.frames]
    exact h.le_size
  · rw [hat]
    exact h.old g hg

/-- A body that has pushed nothing can only return at its closing return. -/
theorem ne_nil_of_leave (h : Within c₀ c fresh) (hsound : Sound c) {i : Inst}
    (hi : c.next? = some i) (hop : i.op = .leave) (hopen : ¬Closing c₀ c) : fresh ≠ [] := by
  rintro rfl
  cases h.layered with
  | own hs _ _ _ => exact hopen ⟨h.chain, congrArg List.length hs, i, hi, hop⟩
  | nested hs _ hfresh _ hentry _ _ =>
    obtain ⟨-, rfl⟩ := List.append_eq_nil_iff.1 hfresh.symm
    refine hsound.closed ?_ ?_ i hi hop
    · rw [hs]
      exact List.cons_ne_nil _ _
    · rw [h.chain, hentry]

/-- The frame on top of the chain in a call from the body. -/
theorem head? (h : Within c₀ c (f :: fresh)) : c.chain.head? = some f := by
  rw [h.chain]
  rfl

theorem ne_of_mem (h₀ : BodyEntry c₀) (h : Within c₀ c (f :: fresh)) {g : FrameId}
    (hg : g ∈ fresh ++ c₀.chain) : f ≠ g := by
  rcases List.mem_append.1 hg with hg | hg
  · exact Nat.ne_of_gt ((List.pairwise_cons.1 h.newer).1 g hg)
  · have hlt := h₀.framed g hg
    have hle := (h.calls f List.mem_cons_self).1
    exact Nat.ne_of_gt (Nat.lt_of_lt_of_le hlt hle)

/-- A return in a call from the body is a plain one. -/
theorem leave {p : Machine.Progress} (h₀ : BodyEntry c₀) (h : Within c₀ c (f :: fresh))
    (hclosed : c.suspended ≠ [] → c.chain.head? ≠ c.context.entry)
    (hm : c.Move .leave p c') : p = .same ∧ Within c₀ c' fresh := by
  obtain ⟨hle, -, hcall⟩ := h.calls f List.mem_cons_self
  have hstate := h.layered.state
  obtain ⟨g, htop, -, -⟩ | ⟨-, hsettle, -, -⟩ | ⟨-, -, hentry, ⟨g, rest, hchain, rfl⟩, hp⟩ |
    ⟨-, -, hentry, -⟩ := hm.leave_cases
  · obtain ⟨hhead, hmarker⟩ := Option.filter_eq_some_iff.1 htop
    cases h.head?.symm.trans hhead
    simp [hcall] at hmarker
  · simp only [settlesOnReturn, Bool.and_eq_true, beq_iff_eq] at hsettle
    obtain ⟨⟨-, hon⟩, hhead⟩ := hsettle
    rw [hstate.settleOnReturn] at hon
    rw [h.head?, hstate.finalizeFrame, h₀.settle hon] at hhead
    exact absurd (h₀.framed f (List.mem_of_head? hhead.symm)) (Nat.not_lt.2 hle)
  · rw [h.chain, List.cons_append, List.cons.injEq] at hchain
    obtain ⟨rfl, rfl⟩ := hchain
    rw [h.head?] at hentry
    exact ⟨hp, h.pop h₀ hentry⟩
  · cases h.layered with
    | own _ _ he _ =>
      rw [h.head?, he] at hentry
      exact absurd (h₀.entry f hentry.symm) (Nat.not_lt.2 hle)
    | nested hs _ _ _ _ _ _ =>
      refine absurd hentry (hclosed ?_)
      rw [hs]
      exact List.cons_ne_nil _ _

/-- A constructor pass that was started in the body comes to its end. -/
theorem endPass (h₀ : BodyEntry c₀) (h : Within c₀ c fresh) (hn : c.suspended ≠ [])
    (hentry : c.chain.head? = c.context.entry) (he : c.endPass = some (c', false)) :
    Within c₀ c' fresh := by
  cases hl : h.layered with
  | own hs _ hentry₀ _ =>
    cases fresh with
    | nil =>
      refine absurd ?_ (h₀.home (hs ▸ hn))
      rw [← hentry₀, ← hentry, h.chain]
      rfl
    | cons f fresh =>
      rw [h.head?, hentry₀] at hentry
      exact absurd (h₀.entry f hentry.symm) (Nat.not_lt.2 (h.calls f List.mem_cons_self).1)
  | @nested _ rest _ x made w duties _ upper lower hs hduties hfresh _ hentry' _ hlower =>
    have hupper : upper = [] := by
      cases upper with
      | nil => rfl
      | cons u upper =>
        rw [List.cons_append] at hfresh
        subst hfresh
        rw [h.head?, hentry'] at hentry
        refine absurd rfl (h.ne_of_mem h₀ (g := u) ?_)
        rw [List.append_assoc]
        exact List.mem_append_right _ (List.mem_of_head? hentry.symm)
    subst hupper
    rw [List.nil_append] at hfresh
    subst hfresh
    simp only [Control.endPass, hs, Control.resumePass, endDuties, endDuty, h.pending,
      Option.bind_some, endDuties_of_plain hduties] at he
    rw [finish_of_none rfl] at he
    cases he
    exact { h with layered := hlower.turn rfl rfl ⟨rfl, rfl, rfl⟩, pending := rfl }

/-- A calm tick stays in the body. -/
theorem tick {i : Inst} (h₀ : BodyEntry c₀) (h : Within c₀ c fresh) (hsound : Sound c)
    (ht : c.Tick i c' false)
    (hcalm : i.op.isCalm ∨ i.op = .abort ∧ c.suspended ≠ [] ∧ c.chain.head? = c.context.entry)
    (hquiet : ¬c.Raises c') (hopen : ¬Closing c₀ c) : ∃ fresh', Within c₀ c' fresh' := by
  obtain ⟨hi, hmove, hend⟩ := ht
  next p c₁ =>
  have hfetched := h.goto (c.context.pc + 1)
  have hsame : ∀ c₂ fresh', Within c₀ c₂ fresh' → c₂.conclude .same = some (c', false) →
      ∃ fresh', Within c₀ c' fresh' := by
    intro c₂ fresh' h₂ hend
    rw [conclude, finish_of_none h₂.pending] at hend
    cases hend
    exact ⟨fresh', h₂⟩
  by_cases hleave : i.op = .leave
  · cases fresh with
    | nil => exact absurd rfl (h.ne_nil_of_leave hsound hi hleave hopen)
    | cons f fresh =>
      rw [hleave] at hmove
      obtain ⟨rfl, h₁⟩ := hfetched.leave h₀
        (fun hn hentry => hsound.closed hn hentry i hi hleave) hmove
      exact hsame _ _ h₁ hend
  · generalize i.op = op at hmove hcalm hleave
    cases hmove with
    | call _ hcall =>
      cases hcall with
      | deed hd =>
        rcases hd with rfl | ⟨base, code, targetClass, rfl⟩ | ⟨e, message, hr⟩
        · exact hsame _ _ hfetched hend
        · exact hsame _ _ (hfetched.call base code targetClass) hend
        · exact absurd ⟨e, message, _, hr, hend⟩ hquiet
      | entered base argc hx hduties =>
        cases hend
        exact ⟨fresh, hfetched.enter _ _ base argc hx hduties⟩
    | jump _ pc => exact hsame _ _ (hfetched.goto pc) hend
    | protect tag pc _ =>
      split at hcalm <;> simp [Opcode.isCalm] at hcalm
    | halt hop =>
      rcases hop with rfl | rfl
      · obtain hcalm | ⟨-, hn, hentry⟩ := hcalm
        · cases hcalm
        · exact ⟨fresh, hfetched.endPass h₀ hn hentry hend⟩
      · simp [Opcode.isCalm] at hcalm
    | unprotect _ => simp [Opcode.isCalm] at hcalm
    | take _ => simp [Opcode.isCalm] at hcalm
    | _ => exact absurd rfl hleave

/-- At its closing return a body has left everything as it was. -/
theorem closing (h : Within c₀ c fresh) (hclosing : Closing c₀ c) :
    c.suspended = c₀.suspended ∧ c.context.markers = c₀.context.markers ∧
      c.context.entry = c₀.context.entry ∧ SameState c.context c₀.context := by
  cases h.layered with
  | own hs hmarkers hentry hstate => exact ⟨hs, hmarkers, hentry, hstate⟩
  | nested hs _ _ _ _ _ hlower =>
    have hlength := hclosing.2.1
    rw [hs, List.length_cons] at hlength
    have hle := hlower.length_le
    omega

end Within

end Control

namespace Machine

/-- A tick that raises nothing and touches neither markers nor the exception. The end of a
constructor pass is such a tick. -/
structure Calm (m m' : Machine) : Prop where
  tick : tick m = .ok none m'
  op : ∀ i, m.control.next? = some i →
    i.op.isCalm ∨ i.op = .abort ∧ m.suspended ≠ [] ∧ m.chain.head? = m.context.entry
  quiet : ¬m.control.Raises m'.control

/-- The run of an ensure body from its entry `a` up to its closing return. -/
inductive Body (a : Machine) : Machine → Prop
  | entered : Body a a
  | step {b b' : Machine} (h : Body a b) (hopen : ¬a.control.Closing b.control)
      (hcalm : Calm b b') : Body a b'

theorem Body.within {owned : List Value} {a b : Machine} (h₀ : a.control.BodyEntry)
    (ha : Reachable true owned a) (h : Body a b) :
    Reachable true owned b ∧ ∃ fresh, a.control.Within b.control fresh := by
  induction h with
  | entered => exact ⟨ha, [], .refl h₀⟩
  | step _ hopen hcalm ih =>
    obtain ⟨hb, fresh, hwithin⟩ := ih
    have hsound := hb.sane.sound rfl
    obtain ⟨-, i, ht⟩ := (tick_ledger hb.sane.ledger fun _ => hsound.closed).of_ok hcalm.tick
    have hi := ht.next?_eq
    exact ⟨hb.tick hcalm.tick,
      hwithin.tick h₀ hsound ht (hcalm.op i hi) hcalm.quiet hopen⟩

end Machine

end ObjectMachine
