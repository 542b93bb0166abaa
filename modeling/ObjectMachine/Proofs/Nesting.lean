import ObjectMachine.Proofs.Courses

/-! Passes on one call chain. A pass that ends by a return or with a pending exception leaves
the chain and the number of calls as it found them. An instruction that stops a pass does
not unwind it: whatever was on the chain above its entry stays there, and belongs to the
pass below. -/

namespace ObjectMachine

namespace Control

variable {c c' : Control} {ph ph' : Phase} {extra ss : List Suspension}

/-- The chain below the pass that `extra` passes stand on. -/
def floor (c : Control) (extra : List Suspension) : List FrameId :=
  extra.foldl (fun ground s => reach ground s.entry) c.ground

theorem floor_of_ground (h : c'.ground = c.ground) : c'.floor extra = c.floor extra := by
  rw [floor, floor, h]

/-- The chain below a pass stays as it is until the pass is left. -/
theorem Turn.floor (h : Turn ph c ph' c') (hc : Standing ph c) (hs : c.suspended = extra ++ ss)
    (hlength : ss.length ≤ c'.suspended.length) :
    ∃ extra', c'.suspended = extra' ++ ss ∧ c'.floor extra' = c.floor extra := by
  have hsuspended := h.suspended
  cases h with
  | same hi hmove =>
    refine ⟨extra, hsuspended.trans hs, floor_of_ground ?_⟩
    refine (hc.1.fetch hi fun hop => ?_).ground_move hmove
    cases hmove.eq_over_of_abort hop
  | entered hi hmove =>
    obtain ⟨x, made, w, duties, base, argc, hx, -, rfl⟩ := hmove.eq_enter
    refine ⟨⟨c.context.entry, .construct x made w :: duties⟩ :: extra, congrArg (_ :: ·) hs, ?_⟩
    have hground : ground (enter (c.goto (c.context.pc + 1)) (.construct x made w :: duties)
        base argc) = c.chain := reach_head? c.chain
    rw [Control.floor, List.foldl_cons, hground]
    rfl
  | finished hi hmove =>
    obtain ⟨rfl, -⟩ := hmove.of_over
    exact ⟨extra, hs, floor_of_ground rfl⟩
  | settled => exact ⟨extra, hs, rfl⟩
  | unwound hpending hu =>
    refine ⟨extra, hsuspended.trans hs, floor_of_ground ?_⟩
    rw [ground, (chain_of_popUntil hu rfl).1, (popUntil_samePass hu).entry, reach_reach]
    rfl
  | resumed hs' hr =>
    obtain ⟨s, hs₁⟩ := hsuspended
    obtain ⟨upper, below, born, hstands⟩ := hc
    cases extra with
    | nil =>
      have hshort := congrArg List.length (hs₁.symm.trans hs)
      simp only [List.length_cons, List.nil_append] at hshort
      omega
    | cons s' extra =>
      rw [hs', List.cons_append, List.cons.injEq] at hs
      obtain ⟨rfl, hrest⟩ := hs
      refine ⟨extra, (suspended_of_resumePass hr).trans hrest, ?_⟩
      rw [Control.floor, Control.floor, List.foldl_cons, hstands.ground_resumePass hs' hr]

/-- Frames that have been pushed save what they saved. -/
structure Extends (c c' : Control) : Prop where
  le_size : c.frames.size ≤ c'.frames.size
  old : ∀ f, f < c.frames.size → c'.frameAt f = c.frameAt f

theorem Extends.trans {c₁ c₂ c₃ : Control} (h : Extends c₁ c₂) (h' : Extends c₂ c₃) :
    Extends c₁ c₃ where
  le_size := Nat.le_trans h.le_size h'.le_size
  old f hf := (h'.old f (Nat.lt_of_lt_of_le hf h.le_size)).trans (h.old f hf)

theorem Extends.of_frames (h : c'.frames = c.frames) : Extends c c' where
  le_size := Nat.le_of_eq (congrArg Array.size h).symm
  old f _ := frameAt_of_frames h f

theorem Extends.of_push {k : Frame} (h : c'.frames = c.frames.push k) : Extends c c' where
  le_size := by rw [h, Array.size_push]; exact Nat.le_succ _
  old _ hf := frameAt_push_of_lt hf k h

theorem Move.extends {op : Opcode} {p : Machine.Progress} (h : c.Move op p c') : Extends c c' := by
  cases h with
  | call hop hcall =>
    cases hcall with
    | deed hd =>
      rcases hd with rfl | ⟨base, code, targetClass, rfl⟩ | ⟨e, message, hr⟩
      · exact .of_frames rfl
      · exact .of_push rfl
      · exact .of_frames (raise_samePass hr).frames
    | entered => exact .of_frames rfl
  | protect => exact .of_push rfl
  | resume htop hr => exact .of_frames (resume_samePass hr).frames
  | back => exact .of_frames pop_samePass.frames
  | _ => exact .of_frames rfl

theorem frames_of_endDuties {duties : List Duty} (h : c.endDuties duties = some c') :
    c'.frames = c.frames := by
  induction duties generalizing c with
  | nil => exact Option.some.inj h ▸ rfl
  | cons d duties ih =>
    obtain ⟨c₁, h₁, h₂⟩ := Option.bind_eq_some_iff.1 h
    refine (ih h₂).trans ?_
    cases d with
    | construct x made w =>
      simp only [endDuty] at h₁
      split at h₁
      · exact (raise_samePass h₁).frames
      · cases h₁
        rfl
    | leave => exact Option.some.inj h₁ ▸ rfl
    | deliver => exact Option.some.inj h₁ ▸ rfl

theorem Turn.extends (h : Turn ph c ph' c') : Extends c c' := by
  cases h with
  | same hi hmove | entered hi hmove | finished hi hmove =>
    obtain ⟨hle, hold⟩ := hmove.extends
    exact ⟨hle, hold⟩
  | settled => exact .of_frames rfl
  | unwound hpending hu => exact .of_frames (popUntil_samePass hu).frames
  | resumed hs hr =>
    obtain ⟨hle, hold⟩ := Extends.of_frames (frames_of_endDuties hr)
    exact ⟨hle, hold⟩

theorem Move.over_cases {op : Opcode} {v : Value} (h : c.Move op (.finished v) c') :
    c' = c ∧ (op = .leave ∧ c.chain.head? = c.context.entry ∨ op = .stop ∨ op = .abort) := by
  cases h with
  | call hop hcall => cases hcall
  | finished v htop hsettle hentry => exact ⟨rfl, .inl ⟨rfl, hentry⟩⟩
  | halt hop => exact ⟨rfl, .inr hop.symm⟩

end Control

namespace Machine

variable {owned : List Value} {a b m m' : Machine} {ph ph' : Phase}

/-- The first instruction of a pass: of a unit of code, or of a constructor pass. -/
inductive Begins (owned : List Value) : Machine → Prop
  | unit {m a : Machine} (p : Program) (hm : Reachable false owned m) (haborted : ¬m.aborted)
      (hpending : m.pending = none) (hvalid : p.defect? = none)
      (h : enterUnit p.root m = .ok () a) : Begins owned a
  | construct {m a : Machine} (hm : Reachable true owned m)
      (h : (fetch >>= step) m = .ok .entered a) : Begins owned a

theorem tick_of_entered (h : (fetch >>= step) m = .ok .entered m') : tick m = .ok none m' := by
  have hstep : Leads NoFault (fetch >>= step) m fun p m₁ => p = .entered ∧ m₁ = m' :=
    .of_eq h ⟨rfl, rfl⟩
  rw [Leads.bind_eq] at hstep
  apply Leads.eq_ok
  simp only [tick, Leads.bind_eq]
  refine hstep.mono fun i m₁ h₁ => h₁.mono ?_
  rintro p m₂ ⟨rfl, rfl⟩
  exact ⟨rfl, rfl⟩

theorem Begins.reachable (h : Begins owned a) : Reachable true owned a := by
  cases h with
  | unit p hm haborted hpending hvalid h => exact .enter p hm haborted hpending hvalid h
  | construct hm h => exact hm.tick (tick_of_entered h)

/-- A pass begins on top of the chain. -/
theorem Begins.ground_eq (h : Begins owned a) : a.control.ground = a.chain := by
  cases h with
  | unit p hm haborted hpending hvalid h =>
    obtain ⟨-, hc⟩ := (enterUnit_ledger p.root hm.sane.ledger).of_ok h
    have hchain := congrArg Control.chain hc
    rw [Control.ground, hc]
    exact (Control.reach_head? _).trans hchain.symm
  | construct hm h =>
    obtain ⟨-, i, hi, hmove⟩ := (fetch_step_stepped hm.sane.ledger).of_ok h
    obtain ⟨x, made, w, duties, base, argc, -, -, hc⟩ := hmove.eq_enter
    have hchain := congrArg Control.chain hc
    rw [Control.ground, hc]
    exact (Control.reach_head? _).trans hchain.symm

/-- The pass that began at `a` is not left. -/
def StaysIn (a : Machine) (_ : Phase) (_ : Machine) (_ : Phase) (m' : Machine) : Prop :=
  a.suspended.length ≤ m'.suspended.length

theorem Course.floor (h : Course (StaysIn a) a ph m) (ha : Reachable true owned a) :
    ∃ extra, m.suspended = extra ++ a.suspended ∧ m.control.floor extra = a.control.ground := by
  induction h with
  | began => exact ⟨[], rfl, rfl⟩
  | next hcourse hok hadvance ih =>
    obtain ⟨extra, hs, hfloor⟩ := ih
    have hm := hcourse.steady ha
    obtain ⟨extra', hs', hfloor'⟩ := (hadvance.turn hm).1.floor hm.standing hs hok
    exact ⟨extra', hs', hfloor'.trans hfloor⟩

theorem Course.extends {ok : Phase → Machine → Phase → Machine → Prop} (h : Course ok a ph m)
    (ha : Reachable true owned a) : a.control.Extends m.control := by
  induction h with
  | began => exact .of_frames rfl
  | next hcourse _ hadvance ih => exact ih.trans (hadvance.turn (hcourse.steady ha)).1.extends

theorem Course.imp {ok ok' : Phase → Machine → Phase → Machine → Prop} (h : Course ok a ph m)
    (himp : ∀ ph m ph' m', ok ph m ph' m' → ok' ph m ph' m') : Course ok' a ph m := by
  induction h with
  | began => exact .began
  | next _ hok hadvance ih => exact ih.next (himp _ _ _ _ hok) hadvance

/-- A machine that runs is in the course of a unit of code. -/
theorem Reachable.course (h : Reachable true owned m) :
    ∃ a, Begins owned a ∧ a.suspended = [] ∧ Course AnyPart a .ready m := by
  generalize hr : true = running at h
  induction h with
  | enter p hm haborted hpending hvalid h =>
    obtain ⟨-, hc⟩ := (enterUnit_ledger p.root hm.sane.ledger).of_ok h
    refine ⟨_, .unit p hm haborted hpending hvalid h, ?_, .began⟩
    exact (congrArg Control.suspended hc).trans (hm.sane.idle nofun).1
  | tick hm h ih =>
    obtain ⟨a, hbegin, hnil, hcourse⟩ := ih hr
    exact ⟨a, hbegin, hnil, hcourse.tick (fun _ _ _ _ _ => trivial) hm h⟩
  | _ => cases hr

/-- A unit of code that has just been entered on a new machine. -/
theorem Begins.of_after {p : Program} (hvalid : p.defect? = none) (h : p.after 0 = some a) :
    Begins [] a ∧ a.suspended = [] := by
  unfold Program.after at h
  split at h
  · next m₀ h₀ =>
    split at h
    · cases h
    · next hready =>
      simp only [Bool.or_eq_true, not_or, Bool.not_eq_true, Option.isSome_eq_false_iff,
        Option.isNone_iff_eq_none] at hready
      have hnew : Reachable false [] m₀ := .new h₀
      have hentered : Leads AnyFault (enterUnit p.root *> Machine.run 0) m₀ fun _ m' =>
          enterUnit p.root m₀ = .ok () m' := by
        rw [seqRight_eq_bind, Leads.bind_eq]
        exact .intro (fun _ _ h₁ => h₁) fun _ _ _ => trivial
      split at h
      · next m' hm' =>
        cases h
        have henter := hentered.of_ok hm'
        obtain ⟨-, hc⟩ := (enterUnit_ledger p.root hnew.sane.ledger).of_ok henter
        refine ⟨.unit p hnew (by simp [hready.1]) hready.2 hvalid henter, ?_⟩
        exact (congrArg Control.suspended hc).trans (hnew.sane.idle nofun).1
      · cases h
  · cases h

/-- What a pass leaves on the chain when it is over. -/
theorem Course.left (hbegin : Begins owned a) (h : Course (StaysIn a) a ph m)
    (hlevel : m.suspended.length = a.suspended.length) (hend : Advance ph m .ended b) :
    ∃ left, b.chain = left ++ a.chain ∧ (left = [] ↔ b.chain.head? = b.context.entry) := by
  have ha := hbegin.reachable
  have hm := h.steady ha
  obtain ⟨hturn, hb⟩ := hend.turn hm
  have hsuspended : b.suspended = m.suspended := by
    have := hturn.suspended
    cases ph with
    | ended => cases hend
    | _ => exact this
  have hlength : a.suspended.length ≤ b.suspended.length := by
    refine Nat.le_of_eq ?_
    rw [hsuspended, hlevel]
  obtain ⟨extra, hs, hfloor⟩ := Course.floor (h.next hlength hend) ha
  obtain ⟨upper, below, born, hstands⟩ := hb.standing.stands
  have hnil : extra = [] := by
    have := congrArg List.length (hsuspended.symm.trans hs)
    rw [hlevel, List.length_append] at this
    exact List.length_eq_zero_iff.1 (by omega)
  subst hnil
  have hbelow : below = a.chain := by
    rw [← hstands.ground_eq, ← hbegin.ground_eq]
    exact hfloor
  have hchain : b.chain = upper ++ below := hstands.chain
  refine ⟨upper, hbelow ▸ hchain, ?_⟩
  rw [hchain]
  exact hstands.level.head?_eq_entry_iff.symm

theorem callCount_append (fs gs : List FrameId) :
    m.callCount (fs ++ gs) = m.callCount fs + m.callCount gs := List.countP_append

/-- Whether a pass that is over stands at its entry depends on the instruction only if that
stopped the pass. -/
theorem Advance.head?_eq_entry_iff (h : Advance ph m .ended b) (hm : Steady ph owned m) :
    b.chain.head? = b.context.entry ↔ ¬∃ i, ph = .ready ∧ m.control.next? = some i ∧
      (i.op = .stop ∨ i.op = .abort) ∧ m.chain.head? ≠ m.context.entry := by
  obtain ⟨hturn, -⟩ := h.turn hm
  generalize hc : b.control = c at hturn
  have hhead : b.chain.head? = b.context.entry ↔ c.chain.head? = c.context.entry := by
    rw [← hc]
    rfl
  rw [hhead]
  cases hturn with
  | @finished _ _ i v hi hmove =>
    obtain ⟨rfl, hop⟩ := hmove.over_cases
    constructor
    · rintro hentry ⟨j, -, hj, -, hne⟩
      exact hne hentry
    · intro hnone
      rcases hop with ⟨-, hentry⟩ | hop
      · exact hentry
      · exact Classical.byContradiction fun hne => hnone ⟨i, rfl, hi, hop, hne⟩
  | unwound hpending hu =>
    refine iff_of_true ?_ ?_
    · rw [(Control.chain_of_popUntil hu rfl).2, (Control.popUntil_samePass hu).entry]
    · rintro ⟨i, hph, -⟩
      cases hph

end Machine

open Machine

/-- A pass leaves frames above the chain it found, and counts the calls among them. It leaves
none, and so the chain and the depth as they were when it began, unless an instruction
stopped it above its entry. -/
theorem pass_balanced {owned : List Value} {a m b : Machine} {ph : Phase}
    (hbegin : Begins owned a) (hcourse : Course (StaysIn a) a ph m)
    (hlevel : m.suspended.length = a.suspended.length) (hend : Advance ph m .ended b) :
    (∃ left, b.chain = left ++ a.chain ∧ b.depth = a.depth + b.callCount left) ∧
    (b.chain = a.chain ∧ b.depth = a.depth ↔ ¬∃ i, ph = .ready ∧ m.control.next? = some i ∧
      (i.op = .stop ∨ i.op = .abort) ∧ m.chain.head? ≠ m.context.entry) := by
  have ha := hbegin.reachable
  have hm := hcourse.steady ha
  have hb := (hend.turn hm).2
  obtain ⟨left, hchain, hleft⟩ := hcourse.left hbegin hlevel hend
  have hold : b.callCount a.chain = a.callCount a.chain := by
    have hextends := (hcourse.extends ha).trans (hend.turn hm).1.extends
    refine List.countP_congr fun f hf => ?_
    have hlt : f < a.control.frames.size := by
      have hframed := ha.sane.ledger.form.framed f (by simp [nodes, hf])
      simpa [Machine.control] using hframed
    have hsame := hextends.old f hlt
    rw [frameAt_control, frameAt_control] at hsame
    have hmarker := congrArg Frame.isMarker hsame
    rw [Frame.isMarker_bare, Frame.isMarker_bare] at hmarker
    rw [hmarker]
  have hdepth : b.depth = a.depth + b.callCount left := by
    rw [hb.depth, hchain, callCount_append, hold, ha.sane.ledger.depth]
    omega
  refine ⟨⟨left, hchain, hdepth⟩, ?_⟩
  rw [← hend.head?_eq_entry_iff hm, ← hleft]
  constructor
  · rintro ⟨hsame, -⟩
    rw [hchain] at hsame
    exact List.append_left_eq_self.1 hsame
  · rintro rfl
    exact ⟨hchain, by simpa [callCount] using hdepth⟩

/-- A class body that stops the unit it belongs to. -/
def stoppedBody : Program where
  blocks := #[{
    registers := 3, children := #[1],
    code := #[⟨.targetClass, 1, 0, 0⟩, ⟨.runBody, 1, 0, 0⟩, ⟨.leave, 1, 0, 0⟩] },
    { registers := 1, code := #[⟨.stop, 0, 0, 0⟩] }]

/-- The call of the body stays on the chain. -/
theorem pass_balanced_stoppedBody :
    ∃ a m b, Begins [] a ∧ Course (StaysIn a) a .ready m ∧ Advance .ready m .ended b ∧
      ¬(b.chain = a.chain ∧ b.depth = a.depth) := by
  have hrun : ∃ m ∈ stoppedBody.after 2, m.control.next? = some ⟨.stop, 0, 0, 0⟩ ∧
      m.chain.head? ≠ m.context.entry ∧ m.suspended.length = 0 ∧
      Leads NoFault (fetch >>= step) m fun p _ => p = .finished .nil := by decide +kernel
  have hvalid : stoppedBody.defect? = none := Program.defect?_eq_none (by decide +kernel)
  obtain ⟨m, hm, hnext, hentry, hsuspended, hruns⟩ := hrun
  obtain ⟨_, b, hb, rfl⟩ := hruns.exists_ok
  obtain ⟨a, hbegin, hnil, hcourse⟩ := Reachable.course (Reachable.of_after hvalid hm)
  have hstays : Course (StaysIn a) a .ready m := by
    refine hcourse.imp fun _ _ _ _ _ => ?_
    rw [StaysIn, hnil]
    exact Nat.zero_le _
  have hlevel : m.suspended.length = a.suspended.length := by
    rw [hsuspended, hnil, List.length_nil]
  have hbalanced := (pass_balanced hbegin hstays hlevel (.finished hb)).2
  refine ⟨a, m, b, hbegin, hstays, .finished hb, fun hsame => ?_⟩
  exact hbalanced.1 hsame ⟨_, rfl, hnext, .inl rfl, hentry⟩

end ObjectMachine
