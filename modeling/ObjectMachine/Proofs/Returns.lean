import ObjectMachine.Proofs.Away
import ObjectMachine.Proofs.Finalizing

/-! Calls come back. From the instruction that pushes the frame of a call to the return that pops
it, nothing of the caller is lost if nothing disturbs the call: the return finds frames, markers
and registers of the caller as they were, and hands its result over in the place of the
receiver. -/

namespace ObjectMachine

namespace Machine

variable {o m m' : Machine} {b : Int64} {f : FrameId} {ph ph' : Phase} {owned : List Value}

/-- Only a call puts a new frame on the chain. -/
theorem called_of_mem {c c' : Control} {op : Opcode} (hmove : c.Move op .same c')
    (hold : ∀ f ∈ c.chain, f < c.frames.size) (hnew : ∀ f ∈ c'.chain, f < c'.frames.size)
    (hmem : c.frames.size ∈ c'.chain) : ∃ base code targetClass, c' = c.call base code targetClass := by
  have hsize : c'.frames.size ≠ c.frames.size := Nat.ne_of_gt (hnew _ hmem)
  cases hmove with
  | call hop hcall =>
    cases hcall with
    | deed hd =>
      rcases hd with rfl | ⟨base, code, targetClass, rfl⟩ | ⟨e, message, hr⟩
      · exact absurd rfl hsize
      · exact ⟨base, code, targetClass, rfl⟩
      · exact absurd (congrArg Array.size (Control.raise_samePass hr).frames) hsize
  | protect => exact absurd (hold _ hmem) (Nat.lt_irrefl _)
  | resume htop hr => exact absurd (congrArg Array.size (Control.resume_samePass hr).frames) hsize
  | back => exact absurd (congrArg Array.size Control.pop_samePass.frames) hsize
  | _ => exact absurd rfl hsize

theorem Reachable.departs (hm : Reachable true owned m) : m.Departs where
  chain f hf := by
    have hlt := (Machine.Reachable.steady hm).standing.chain_lt f hf
    rwa [size_control] at hlt
  markers f hf := hm.sane.ledger.form.framed f (by simp [nodes, hf])
  depth g hg d hd := by
    obtain ⟨upper, below, born, hstands⟩ := (Machine.Reachable.steady hm).standing.stands
    have hmem : g ∈ upper ++ m.context.markers := List.mem_append_right _ hg
    have hdepth : (m.control.frameAt g).depth = some d := by
      rw [frameAt_control]
      exact hd
    have hlt : g < m.frames.size := hm.sane.ledger.form.framed g (by simp [nodes, hg])
    rcases hstands.level.leading g hmem (hstands.level.marked g hg) with ⟨d', hd', -, hlt'⟩ | ⟨-, hentry⟩
    · cases hdepth.symm.trans hd'
      exact Nat.lt_trans hlt' hlt
    · have hborn := hstands.level.entry_lt (hentry.symm.trans hdepth)
      exact Nat.lt_of_lt_of_le hborn (size_control (m := m) ▸ hstands.le_size)
  entry e he := by
    obtain ⟨upper, below, born, hstands⟩ := (Machine.Reachable.steady hm).standing.stands
    exact Nat.lt_of_lt_of_le (hstands.level.entry_lt he) (size_control (m := m) ▸ hstands.le_size)
  noted g hg := by
    have hlt := (dated_invariant.reachable hm).2.here g hg
    rwa [size_control] at hlt

theorem Departs.fetched (h : m.Departs) : m.fetched.Departs :=
  ⟨h.chain, h.markers, h.depth, h.entry, h.noted⟩

variable {i : Inst} {n : Machine}

/-- The call itself. -/
theorem Away.called (hpending : m.pending = none)
    (hstrides : Strides (i.permit m.fetched) (i.landing m.context.base) m.fetched m') {base : Int64}
    {code : Code} {targetClass : Option ClassId}
    (hcall : m'.control = m.fetched.control.call base code targetClass)
    (hcount : ∀ argc, i.argc? = some argc → 0 ≤ argc.toInt) :
    Away m.fetched (i.landing m.context.base) m' [] := by
  have hentered := hstrides.entered hcall
  obtain ⟨hsaved, hframes⟩ := origin_of_push (congrArg Control.frames hcall)
  have hkin : m'.context.Kin m.fetched.context :=
    ⟨(congrArg (·.context.entry) hcall :), (congrArg (·.context.finalizeFrame) hcall :),
      (congrArg (·.context.settleOnReturn) hcall :), hstrides.callBase, hstrides.callee⟩
  have hnone : Belong m'.origin m'.frames.size [m.frames.size] [] := ⟨nofun, .nil⟩
  refine ⟨?_, fun f hf => ?_, List.pairwise_singleton _ _, .own ?_ hkin ?_ hnone ?_, ?_, hsaved,
    fun f hf => Lasting.origin hstrides.lasting hf, fun r hr => ?_⟩
  · rw [← size_control]
    exact congrArg Control.chain hcall
  · rw [List.mem_singleton.1 hf, hframes]
    exact ⟨Nat.le_refl _, Nat.lt_succ_self _, (congrArg Frame.isMarker hsaved :)⟩
  · exact congrArg Control.suspended hcall
  · exact (congrArg (·.context.markers) hcall :)
  · exact hentered.base
  · exact (congrArg Control.pending hcall).trans hpending
  · exact hstrides.alters.below_call hcount hentered.nonneg hr

/-- In the course of a run that a call does not leave, control is in the call. -/
theorem Course.away (hm : Reachable true owned m) (hi : m.control.next? = some i)
    (h : Course (Undisturbed m.frames.size) m ph n) : ph = .ready ∧ n = m ∨
      (∃ fresh, Away m.fetched (i.landing m.context.base) n fresh) ∧
      (ph = .ended → n.chain.head? = n.context.entry) := by
  have hd := Machine.Reachable.departs hm
  have hsteady := Machine.Reachable.steady hm
  induction h with
  | began => exact .inl ⟨rfl, rfl⟩
  | @next ph ph' n n' hcourse hok hadvance ih =>
    refine .inr ?_
    rcases ih with ⟨rfl, rfl⟩ | ⟨⟨fresh, haway⟩, hend⟩
    · obtain ⟨hmem, hgentle⟩ := hok
      obtain ⟨hturn, hsteady'⟩ := hadvance.turn hsteady
      have hnew : ∀ f ∈ n'.control.chain, f < n'.control.frames.size := hsteady'.standing.chain_lt
      cases hadvance with
      | same hstep =>
        obtain ⟨j, hj, hacts⟩ := (fetch_step_acts hsteady.noProbe).of_ok hstep
        cases hi.symm.trans hj
        generalize hc : n'.control = c' at hturn hnew
        cases hturn with
        | same hj hmove =>
          cases hi.symm.trans hj
          have hmem' : n.control.frames.size ∈ c'.chain := by
            rw [size_control, ← hc]
            exact hmem
          obtain ⟨base, code, targetClass, rfl⟩ :=
            called_of_mem hmove hsteady.standing.chain_lt hnew hmem'
          exact ⟨⟨[], .called hsteady.standing.2 hacts hc (hgentle rfl i hi).count⟩, nofun⟩
      | entered hstep =>
        obtain ⟨j, -, argc, id, callee, made, -, hcon⟩ := (fetch_step_acts hsteady.noProbe).of_ok hstep
        rw [hcon.chain] at hmem
        exact absurd (hd.chain _ hmem) (Nat.lt_irrefl _)
      | finished hstep =>
        obtain ⟨j, -, hworks⟩ := (fetch_step_acts hsteady.noProbe).of_ok hstep
        have hchain : n'.chain = n.chain := congrArg (·.chain) (Works.core hworks)
        rw [hchain] at hmem
        exact absurd (hd.chain _ hmem) (Nat.lt_irrefl _)
    · exact haway.advance hd.fetched (hcourse.steady hm) (hcourse.vetted hm) hadvance hok hend

/-- Machines at an instruction have nothing left to clear, but for the first one. -/
theorem Course.jumped {ok : Phase → Machine → Phase → Machine → Prop} (hm : Reachable true owned m)
    (h : Course ok m .ready n) : n = m ∨ n.jumped = false := by
  cases h with
  | began => exact .inl rfl
  | next hcourse hok hadvance =>
    refine .inr ?_
    cases hadvance with
    | entered hstep =>
      obtain ⟨j, -, argc, id, callee, made, -, hcon⟩ :=
        (fetch_step_acts (hcourse.steady hm).noProbe).of_ok hstep
      exact hcon.jumped
    | settled hstep => exact concludeStep_jumped.of_ok hstep rfl

/-! ### The return -/

theorem dropMarkers_jumped (fs : List FrameId) :
    Leads AnyFault (dropMarkers fs) m fun _ m' => m'.jumped = m.jumped := by
  induction fs generalizing m with
  | nil => rfl
  | cons f fs ih =>
    simp only [dropMarkers, modifyContext, Leads.bind_eq, Leads.modify_eq]
    refine Leads.mono (freeFrame_leads f) ?_
    rintro _ m₁ ⟨-, -, hcore⟩
    exact ih.mono fun _ _ h => h.trans (congrArg (·.jumped) hcore :)

theorem popFrame_jumped : Leads AnyFault popFrame m fun _ m' => m'.jumped = m.jumped := by
  simp only [popFrame, Leads.bind_eq, Leads.get_eq]
  split
  · trivial
  · next f rest hchain =>
    cases hk : (m.frameAt f).isMarker with
    | true =>
      simp only [Bool.not_true, Bool.false_eq_true, if_false, hk, Leads.bind_eq, Leads.get_eq,
        Leads.modify_eq, Leads.pure_eq]
      exact Leads.mono (freeFrame_leads f) fun _ _ h => (congrArg (·.jumped) h.2.2 :)
    | false =>
      simp only [Bool.not_false, if_true, hk, dropFrameMarkers, Leads.bind_eq, Leads.get_eq,
        Leads.modify_eq]
      refine (dropMarkers_jumped _).mono fun _ m₁ h₁ => ?_
      refine Leads.mono (freeFrame_leads f) ?_
      rintro _ m₂ ⟨-, -, hcore⟩
      exact Eq.trans (congrArg (·.jumped) hcore :) h₁

theorem exchangeReg_gets (i : Int64) (v : Value) :
    Leads AnyFault (exchangeReg i v) m fun old _ => entryAt? m.regs i = some old := by
  simp only [exchangeReg, Leads.bind_eq, Leads.pure_eq, Leads.modify_eq]
  exact (reg_leads fun old hold => hold).forget

/-- A return hands the result over. -/
theorem leaveFrame_gets (a : Int64) :
    Leads AnyFault (leaveFrame a) m fun p m' => p = .same → m'.jumped = m.jumped ∧
      ∃ v, entryAt? m.regs (m.context.base + a) = some v ∧
        entryAt? m'.regs m.context.base = some v := by
  let all : Permit := { Permit.nothing with stores := fun _ => True, clears := fun _ => True }
  simp only [leaveFrame, Leads.bind_eq, Leads.get_eq]
  refine ((exchangeReg_tame (P := all) (v := .empty) (fun _ => Or.inl trivial) m).and
    (exchangeReg_gets _ _)).mono ?_
  rintro v m₁ ⟨h₁, hv⟩
  split
  · rintro ⟨⟩
  · simp only [Leads.bind_eq, Leads.pure_eq]
    refine (currentSize_leads fun size => ?_).forget
    have hclear : ∀ start count, Tame (.clearFrom 0) (clearRegs start count) :=
      fun start count => clearRegs_tame start count id
    refine ((hclear _ _).mono (Q := all) { clears := fun _ _ => trivial } m₁).mono fun _ m₂ h₂ => ?_
    refine ((setReg_tame (P := all) trivial m₂).and (setReg_gets _ v)).mono ?_
    rintro _ m₃ ⟨h₃, hgets⟩
    refine ((popFrame_steers (l := [])).and popFrame_jumped).mono ?_
    rintro _ m₄ ⟨⟨h₄, -⟩, hjumped⟩ _
    refine ⟨hjumped.trans ?_, v, hv, ?_⟩
    · exact (congrArg (·.jumped) (h₁.trans (h₂.trans h₃)).core :)
    · rw [h₄.alters.regs_eq (fun _ h => h) fun _ h => h]
      exact hgets

theorem return_gets {j : Inst} (hj : m.control.next? = some j) (hop : j.op = .leave)
    (htop : m.control.topMarker? = none) (hsettle : ¬m.control.settlesOnReturn) :
    Leads AnyFault (fetch >>= step) m fun p m' => p = .same → m'.jumped = m.jumped ∧
      ∃ v, entryAt? m.regs (m.context.base + j.a) = some v ∧
        entryAt? m'.regs m.context.base = some v := by
  rw [Leads.bind_eq]
  refine fetch_leads.mono ?_
  rintro i _ ⟨hi, rfl⟩
  cases hi.symm.trans hj
  obtain ⟨op, a, b, c⟩ := j
  cases hop
  have htop' : m.fetched.topMarker? = none := (topMarker?_control m.fetched).trans htop
  have hsettle' : ¬m.fetched.settlesOnReturn := hsettle
  simp only [step, Leads.bind_eq, Leads.get_eq, leave, htop', hsettle']
  exact leaveFrame_gets (m := m.fetched) a

/-- An instruction that goes nowhere is a tick of its own. -/
theorem tick_of_calm (h : Leads AnyFault (fetch >>= step) m fun p m₁ =>
      p = .same ∧ m₁.pending = none ∧ m₁.jumped = false) :
    Leads AnyFault tick m fun _ m' => (fetch >>= step) m = .ok .same m' := by
  have hnamed := h.and (Leads.named (fetch >>= step))
  rw [Leads.bind_eq] at hnamed
  simp only [tick, Leads.bind_eq]
  refine hnamed.mono fun i m₀ h₀ => h₀.mono ?_
  rintro p m₁ ⟨⟨rfl, hpending, hjumped⟩, hstep⟩
  have hend : Leads AnyFault concludeStep m₁ fun pending m' => pending = false ∧ m' = m₁ :=
    .of_eq (concludeStep_of_calm hjumped hpending) ⟨rfl, rfl⟩
  simp only [Leads.bind_eq, Leads.get_eq]
  cases hs : m₁.suspended with
  | nil =>
    simp only [finishStep, Leads.bind_eq]
    refine hend.mono ?_
    rintro _ _ ⟨rfl, rfl⟩
    exact hstep
  | cons s rest =>
    simp only [finishStep, Leads.bind_eq]
    refine hend.mono ?_
    rintro _ _ ⟨rfl, rfl⟩
    exact hstep

/-- At the return from a call, control is in the pass of the caller. -/
theorem Away.returning (h : Away o b n []) (hm : Steady .ready owned n) {j : Inst}
    (hj : n.control.next? = some j) (hop : j.op = .leave) :
    n.suspended = o.suspended ∧ n.context.Kin o.context ∧ n.context.base = b ∧
      ∃ newer, n.context.markers = newer ++ o.context.markers ∧
        Belong n.origin n.frames.size [o.frames.size] newer := by
  have hinside := h.inside
  generalize hx : n.context = x at hinside
  generalize hss : n.suspended = ss at hinside
  cases hinside with
  | own hs hkin hmarkers hnewer hstack => exact ⟨hs, hkin, hstack, _, hmarkers, hnewer⟩
  | @nested _ _ _ _ _ _ _ _ _ _ _ upper lower hs _ _ hfresh hentry _ _ _ =>
    obtain ⟨-, rfl⟩ := List.append_eq_nil_iff.1 hfresh.symm
    have hsuspended : n.control.suspended ≠ [] := by
      have hcons : n.control.suspended = _ := hss.trans hs
      rw [hcons]
      exact List.cons_ne_nil _ _
    have hhead : n.chain.head? = n.context.entry := by rw [h.chain, hx, hentry]
    rcases hm.standing.1.op_of_entry hsuspended hhead hj with hsend | habort
    · cases hop.symm.trans hsend
    · cases hop.symm.trans habort

/-- The return pops the frame of the call. -/
theorem Away.pops (hd : o.Departs) (h : Away o b n []) (hn : Steady .ready owned n) {j : Inst}
    (hj : n.control.next? = some j) (hop : j.op = .leave) :
    Leads AnyFault (fetch >>= step) n fun p m' =>
      p = .same ∧ m'.control = n.fetched.control.pop o.frames.size o.chain := by
  have hentry : n.chain.head? ≠ n.context.entry := by
    rw [h.chain, (h.returning hn hj hop).2.1.entry]
    exact fun heq => absurd (hd.entry _ heq.symm) (Nat.lt_irrefl _)
  refine .intro (fun p m' hstep => ?_) fun _ _ _ => trivial
  obtain ⟨-, j', hj', hmove⟩ := (fetch_step_stepped (hn.books nofun)).of_ok hstep
  cases hj.symm.trans hj'
  rw [hop] at hmove
  rcases hmove.leave_cases with ⟨f, hf, -⟩ | ⟨-, hsettle, -⟩ |
    ⟨-, -, -, ⟨f, rest, hchain, hc⟩, hp⟩ | ⟨-, -, hentry', -⟩
  · cases h.topMarker?.symm.trans hf
  · exact absurd hsettle (h.not_settles hd)
  · obtain ⟨rfl, rfl⟩ := List.cons.inj (hchain.symm.trans h.chain)
    exact ⟨hp, hc⟩
  · exact absurd hentry' hentry

/-- The context of the caller comes back. -/
theorem Away.context_eq (hd : o.Departs) (h : Away o b n []) (hn : Steady .ready owned n) {j : Inst}
    (hj : n.control.next? = some j) (hop : j.op = .leave) (hcallBase : m'.context.callBase = n.context.callBase)
    (hcallee : m'.context.callee = n.context.callee)
    (hcontrol : m'.control = n.fetched.control.pop o.frames.size o.chain) :
    m'.context = { o.context with excState := n.context.excState } := by
  obtain ⟨-, hkin, -, newer, hmarkers, hnewer⟩ := h.returning hn hj hop
  have hat := Control.at_pop (c := n.fetched.control) o.frames.size o.chain
  have hcaller : n.fetched.control.frameAt o.frames.size = o.control.saved .call o.context.pc none :=
    (frameAt_control n.fetched o.frames.size).trans h.caller
  rw [← hcontrol, hcaller] at hat
  have hsignal : Control.SameSignal n.fetched.control
      (n.fetched.control.pop o.frames.size o.chain) := Control.pop_sameSignal
  rw [← hcontrol] at hsignal
  have hentry : m'.context.entry = n.context.entry :=
    (congrArg (·.context.entry) hcontrol).trans Control.pop_samePass.entry
  have hkin' : m'.context.Kin o.context :=
    ⟨hentry.trans hkin.entry, hsignal.state.finalizeFrame.trans hkin.finalizeFrame,
      hsignal.state.settleOnReturn.trans hkin.settleOnReturn, hcallBase.trans hkin.callBase,
      hcallee.trans hkin.callee⟩
  have hstate : m'.context.excState = n.context.excState := hsignal.state.excState
  rw [← hstate]
  refine hkin'.eq hat.code hat.pc hat.base hat.targetClass ?_
  -- The markers of the call go with its frame.
  refine (congrArg (·.context.markers) hcontrol).trans ?_
  refine (pop_markers_of_call (m := n.fetched) (congrArg Frame.isMarker h.caller :)).trans ?_
  refine (congrArg (List.dropWhile _) hmarkers).trans (hnewer.dropWhile_eq fun g hg heq => ?_)
  rw [h.old g (hd.markers g hg)] at heq
  exact absurd (hd.depth g hg _ heq) (Nat.lt_irrefl _)

end Machine

open Machine

/-- A call and its return are transparent to the caller. In `m` the instruction `i` pushes the
frame of a call; then nothing disturbs the call until its return in `n`. After the return the
caller goes on in its own context behind the call, with its own frames and markers and with the
registers below the receiver as they were, and the result is in the place of the receiver. -/
theorem call_returns {owned : List Value} {m n m' : Machine} {i j : Inst}
    (hm : Reachable true owned m) (hi : m.control.next? = some i)
    (hcourse : Course (Undisturbed m.frames.size) m .ready n)
    (hhead : n.chain.head? = some m.frames.size) (hj : n.control.next? = some j)
    (hop : j.op = .leave) (htick : tick n = .ok none m') :
    m'.context = { m.fetched.context with excState := n.context.excState } ∧
      m'.chain = m.chain ∧ m'.depth = m.depth ∧ m'.suspended = m.suspended ∧ m'.pending = none ∧
      (∀ r : Nat, (r : Int) < (m.context.base + i.a).toInt → m'.regs[r]? = m.regs[r]?) ∧
      ∃ v, entryAt? n.regs (n.context.base + j.a) = some v ∧
        entryAt? m'.regs (m.context.base + i.a) = some v := by
  have hd := Machine.Reachable.departs hm
  have hn := hcourse.steady hm
  have hv := hcourse.vetted hm
  have hne : n ≠ m := by
    rintro rfl
    exact absurd (hd.chain _ (List.mem_of_head? hhead)) (Nat.lt_irrefl _)
  obtain ⟨-, rfl⟩ | ⟨⟨fresh, haway⟩, -⟩ := hcourse.away hm hi
  · exact absurd rfl hne
  -- The frame of the call is on top of the chain.
  have hnil : fresh = [] := by
    cases fresh with
    | nil => rfl
    | cons f fresh =>
      rw [haway.chain, List.cons_append, List.head?_cons, Option.some.injEq] at hhead
      exact absurd (haway.fresh_gt List.mem_cons_self) (hhead ▸ Nat.lt_irrefl _)
  subst hnil
  obtain ⟨hsuspended, -, hbase, -⟩ := haway.returning hn hj hop
  have hpop := haway.pops hd.fetched hn hj hop
  have hgets := return_gets hj hop haway.topMarker? (haway.not_settles hd.fetched)
  have hcalm : Leads AnyFault (fetch >>= step) n fun p n₁ =>
      p = .same ∧ n₁.pending = none ∧ n₁.jumped = false := by
    refine (hpop.and hgets).mono ?_
    rintro p n₁ ⟨⟨rfl, hcontrol⟩, hgets⟩
    refine ⟨rfl, ?_, (hgets rfl).1.trans ((hcourse.jumped hm).resolve_left hne)⟩
    have hpending : n₁.control.pending = _ := congrArg Control.pending hcontrol
    exact hpending.trans (Control.pop_sameSignal.pending.trans haway.pending)
  have hstep := (tick_of_calm hcalm).of_ok htick
  obtain ⟨-, hcontrol⟩ := hpop.of_ok hstep
  obtain ⟨v, hresult, hreturned⟩ := (hgets.of_ok hstep rfl).2
  obtain ⟨j', hj', hacts⟩ := (fetch_step_acts hn.noProbe).of_ok hstep
  cases hj.symm.trans hj'
  have hacts : Strides _ _ _ _ := hacts
  have hchain : m'.chain = m.chain := congrArg Control.chain hcontrol
  have hlanding : i.landing m.context.base = m.context.base + i.a :=
    (landing_cases (hbase ▸ hv.base_nonneg)).2
  refine ⟨?_, hchain, ?_, ?_, ?_, fun r hr => ?_, v, hresult, ?_⟩
  · exact haway.context_eq hd.fetched hn hj hop hacts.callBase hacts.callee hcontrol
  · rw [((Advance.same hstep).turn hn).2.depth, (Machine.Reachable.steady hm).depth, hchain]
    refine congrArg Int.ofNat (List.countP_congr fun f hf => ?_)
    have hlt := hd.chain f hf
    have horigin : m'.origin f = m.origin f :=
      (Lasting.origin hacts.lasting (Nat.lt_trans hlt haway.size_lt)).trans (haway.old f hlt)
    have hmarker : (m'.frameAt f).isMarker = (m.frameAt f).isMarker :=
      (congrArg Frame.isMarker horigin :)
    rw [hmarker]
  · exact (congrArg Control.suspended hcontrol).trans (Control.pop_samePass.suspended.trans hsuspended)
  · exact (congrArg Control.pending hcontrol).trans (Control.pop_sameSignal.pending.trans haway.pending)
  · have hargc : j.argc? = none := by simp only [Inst.argc?, hop]
    rw [← hlanding] at hr
    have hbelow := hacts.alters.below hv hj (by simp [hargc]) (absurd hargc) (by simp [hop]) (hbase ▸ hr)
    exact hbelow.trans (haway.regs r hr)
  · rw [← hlanding, ← hbase]
    exact hreturned

namespace Machine

variable {m m' : Machine} {ph ph' : Phase} {f : FrameId}

def undisturbed? (f : FrameId) (ph : Phase) (m : Machine) (_ : Phase) (m' : Machine) : Bool :=
  m'.chain.contains f && (ph != .ready || m.pending.isNone && m'.exception.isNone &&
    m'.pending.isNone && m.control.next?.all fun i =>
      i.op != .setOuter && i.op != .popMarkers && i.op != .stop &&
      (i.op != .abort || !m.suspended.isEmpty && m.chain.head? == m.context.entry) &&
      i.argc?.all fun argc => decide (0 ≤ argc.toInt))

theorem undisturbed_of_check (h : undisturbed? f ph m ph' m') : Undisturbed f ph m ph' m' := by
  simp only [undisturbed?, Bool.and_eq_true, Bool.or_eq_true, bne_iff_ne, beq_iff_eq,
    Option.isNone_iff_eq_none, Option.all_eq_true, Bool.not_eq_true', List.isEmpty_eq_false_iff,
    decide_eq_true_eq, List.contains_iff_mem] at h
  obtain ⟨hmem, hready⟩ := h
  refine ⟨hmem, fun hph i hi => ?_⟩
  obtain ⟨⟨⟨hpending, hexception⟩, hpending'⟩, hop⟩ := hready.resolve_left (absurd hph)
  obtain ⟨⟨⟨⟨houter, hmarkers⟩, hstop⟩, habort⟩, hcount⟩ := hop i hi
  refine ⟨⟨houter, hmarkers, hstop⟩, fun h => habort.resolve_left (absurd h), hcount,
    fun e message hr => ?_⟩
  have hsignals : ∃ e' v, Control.Signals e' v m'.control := by
    unfold Control.raise at hr
    split at hr
    · exact ⟨e, message, .deliver rfl rfl hpending hr⟩
    · next hsome =>
      rw [Option.isNone_iff_eq_none] at hsome
      obtain ⟨e', he⟩ := Option.ne_none_iff_exists'.1 hsome
      exact ⟨e', _, .deliver he rfl hpending hr⟩
  obtain ⟨e', v, ⟨he, -⟩ | ⟨-, he, -⟩⟩ := hsignals
  · cases hexception.symm.trans he
  · cases hpending'.symm.trans he

end Machine

/-- A method that makes an object and leaves a marker behind. Its caller has a marker too. -/
def markedCall : Program where
  blocks := #[{
    registers := 5, symbols := #["work", "initialize"], children := #[1, 2],
    code := #[⟨.targetClass, 1, 0, 0⟩, ⟨.makeBlock, 2, 0, 0⟩, ⟨.defineMethod, 1, 0, 0⟩,
      ⟨.makeBlock, 2, 1, 0⟩, ⟨.defineMethod, 1, 1, 0⟩, ⟨.pushRescue, 8, 0, 0⟩,
      ⟨.loadSelf, 2, 0, 0⟩, ⟨.send, 2, 0, 0⟩, ⟨.leave, 2, 0, 0⟩] }, {
    registers := 3, symbols := #["new"],
    code := #[⟨.pushEnsure, 3, 0, 0⟩, ⟨.targetClass, 1, 0, 0⟩, ⟨.send, 1, 0, 0⟩,
      ⟨.leave, 1, 0, 0⟩] }, {
    registers := 1,
    code := #[⟨.leave, 0, 0, 0⟩] }]

/-- The marker of the caller is left when the method has returned, and the one of the method
is gone. -/
theorem call_returns_markedCall :
    ∃ m n m', Reachable true [] m ∧ m.context.markers = [0] ∧
      Course (Undisturbed m.frames.size) m .ready n ∧ n.context.markers = [2, 0] ∧
      tick n = .ok none m' ∧ m'.context.markers = [0] ∧ m'.context.pc = 8 := by
  have hrun : ∃ m ∈ markedCall.after 7, m.context.markers = [0] ∧ m.context.pc = 7 ∧
      m.control.next? = some ⟨.send, 2, 0, 0⟩ ∧
      ∃ x ∈ follow (undisturbed? m.frames.size) 14 .ready m, x.1 = .ready ∧
        x.2.context.markers = [2, 0] ∧ x.2.chain.head? = some m.frames.size ∧
        x.2.control.next? = some ⟨.leave, 1, 0, 0⟩ ∧
        Leads NoFault tick x.2 fun r _ => r = none := by decide +kernel
  have hvalid : markedCall.defect? = none := Program.defect?_eq_none (by decide +kernel)
  obtain ⟨m, hm, hmarkers, hpc, hnext, ⟨ph, n⟩, hfollow, rfl, hmarkers', hhead, hleave, hruns⟩ := hrun
  obtain ⟨_, m', htick, rfl⟩ := hruns.exists_ok
  have hreach := Reachable.of_after hvalid hm
  have hcourse : Course (Undisturbed m.frames.size) m .ready n :=
    Course.began.follow (fun _ _ _ _ hcheck => undisturbed_of_check hcheck) hfollow
  obtain ⟨hcontext, -⟩ := call_returns hreach hnext hcourse hhead hleave rfl htick
  refine ⟨m, n, m', hreach, hmarkers, hcourse, hmarkers', htick, ?_, ?_⟩
  · rw [hcontext]
    exact hmarkers
  · rw [hcontext]
    exact (congrArg (· + 1) hpc).trans rfl

end ObjectMachine
