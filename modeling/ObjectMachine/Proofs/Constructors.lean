import ObjectMachine.Proofs.Invariants

/-! Constructor passes leave their caller alone. While the pass that `new` starts is under way,
the markers of the caller wait with its context among the duties of the suspended pass: none of
them is on the chain or among the markers of a running pass, and none is freed. When the pass
is over, the caller goes on in its own context, with the instance in place of the class; or,
if the pass left an exception pending, with a raise of it where `new` was called. -/

namespace ObjectMachine

namespace Machine

variable {owned : List Value} {a b m m' : Machine} {ph ph' : Phase} {f : FrameId}

theorem Course.tidy {ok : Phase → Machine → Phase → Machine → Prop} (h : Course ok a ph m)
    (ha : Reachable true owned a) : m.Tidy :=
  tidy_invariant.course h ha (tidy_invariant.reachable ha)

theorem Course.lasting {ok : Phase → Machine → Phase → Machine → Prop} (h : Course ok a ph m)
    (ha : Reachable true owned a) : Lasting [] [] a m := by
  induction h with
  | began => exact .refl a
  | next hcourse _ hadvance ih =>
    exact ih.trans (hadvance.lasting (hcourse.steady ha) (hcourse.tidy ha).orderly)

/-- A listed frame is the frame that was pushed. -/
theorem Lasting.frameAt_eq {l l' : List FrameId} (h : Lasting l l' m m') (hlt : f < m.frames.size)
    (hf : (m'.frameAt f).freed = false) : m'.frameAt f = m.frameAt f := by
  refine (h.old f hlt).resolve_right fun hretired => ?_
  rw [hretired] at hf
  cases hf

/-- The markers that a suspended pass waits with are out of reach. -/
theorem Tidy.saved (h : m.Tidy) (hf : f ∈ m.savedMarkers []) :
    (m.frameAt f).freed = false ∧ f ∉ m.chain ++ m.context.markers := by
  refine ⟨h.listed.unfreed f (List.mem_append_right _ (List.mem_append_right _ hf)), fun hmem => ?_⟩
  have hdistinct : (m.chain ++ m.context.markers ++ m.savedMarkers []).Nodup := h.listed.distinct
  exact List.disjoint_of_nodup_append hdistinct hmem hf

def site (m : Machine) (w : Window) (callee : Symbol) : Context :=
  { m.context with callBase := w.base, callee }

/-- A pass that another one waits for, and that ends with an exception pending, has left no
frame on the chain. -/
theorem Course.chain_eq (hbegin : Begins owned a) (h : Course (StaysIn a) a .ended b)
    (hlevel : b.suspended.length = a.suspended.length) (hpending : b.pending ≠ none) :
    b.chain = a.chain := by
  cases h with
  | @next ph _ n _ hcourse hok hadvance =>
    have hm := hcourse.steady hbegin.reachable
    have hturn := (hadvance.turn hm).1
    have hsuspended : b.suspended = n.suspended := by
      have := hturn.suspended
      cases ph with
      | ended => cases hadvance
      | _ => exact this
    obtain ⟨left, hchain, hleft⟩ := hcourse.left hbegin (hsuspended ▸ hlevel) hadvance
    have hentry : b.chain.head? = b.context.entry := by
      refine (hadvance.head?_eq_entry_iff hm).2 ?_
      rintro ⟨i, rfl, -⟩
      obtain ⟨-, hnone⟩ := hm.standing
      generalize hc : b.control = c at hturn
      cases hturn with
      | finished hi hmove =>
        obtain ⟨rfl, -⟩ := hmove.over_cases
        exact hpending ((congrArg Control.pending hc).trans hnone)
    rw [hchain, hleft.2 hentry, List.nil_append]

end Machine

open Machine

/-- A constructor pass cannot touch the protection of its caller. From the call of `new` in `m`,
through the pass that began at `a` and was over at `b`, to the caller in `m'`: the markers of
the caller stay what they are and out of reach, its context comes back, and what the pass left
pending is raised at the call with nil in the place of the instance. -/
theorem constructor_isolated {owned : List Value} {m a b m' : Machine} (hm : Reachable true owned m)
    (hnew : (fetch >>= step) m = .ok .entered a) (hend : Course (StaysIn a) a .ended b)
    (hlevel : b.suspended.length = a.suspended.length) (hresume : Advance .ended b .settling m') :
    ∃ i w id callee made, m.control.next? = some i ∧ w.base = m.context.base + i.a ∧
      i.argc? = some w.argc ∧ entryAt? a.regs w.base = some made ∧
      (∀ ph n, Course (StaysIn a) a ph n → ∀ f ∈ m.context.markers,
        n.frameAt f = m.frameAt f ∧ (n.frameAt f).freed = false ∧
        f ∉ n.chain ++ n.context.markers) ∧
      (b.pending = none → m'.context = m.fetched.context ∧ m'.suspended = m.suspended ∧
        m'.chain = b.chain ∧ m'.pending = none ∧ entryAt? m'.regs w.base = some made) ∧
      ∀ c, b.pending = some c → ∃ m₀ m₁ m₂ m₃, Returned (m.fetched.site w callee) m.suspended b m₀ ∧
        (release made >>= fun _ => setReturn w .nil)
          { m₀ with pending := none, pendingMessage := .nil } = .ok () m₁ ∧
        m₁.context = m.fetched.site w callee ∧ m₁.chain = m.chain ∧ m₁.suspended = m.suspended ∧
        m₁.pending = none ∧ m₁.pendingMessage = .nil ∧ entryAt? m₁.regs w.base = some .nil ∧
        raise c b.pendingMessage m₁ = .ok () m₂ ∧ release b.pendingMessage m₂ = .ok () m₃ ∧
        leaveNative id w m.context.callBase m.context.callee m₃ = .ok () m' := by
  have hbegin : Begins owned a := .construct hm hnew
  have ha := hbegin.reachable
  obtain ⟨i, hi, argc, id, callee, made, hargc, hcon⟩ :=
    (fetch_step_acts (Machine.Reachable.steady hm).noProbe).of_ok hnew
  obtain ⟨s, hs, hawaits⟩ := hcon.awaits
  have hsuspended : m.fetched.suspended = m.suspended := rfl
  rw [hsuspended] at hs
  refine ⟨i, ⟨m.context.base + i.a, argc⟩, id, callee, made, hi, rfl, hargc, hcon.receiver, ?_, ?_⟩
  · intro ph n hcourse f hf
    obtain ⟨extra, hextra, -⟩ := hcourse.floor ha
    have hsaved : f ∈ n.savedMarkers [] := by
      have hduty : Duty.construct _ _ _ ∈ n.duties :=
        List.mem_flatMap.2 ⟨s, by simp [hextra, hs], hawaits.duties ▸ List.mem_cons_self⟩
      exact List.mem_flatMap.2 ⟨_, hduty, hf⟩
    obtain ⟨hfreed, hapart⟩ := (hcourse.tidy ha).saved hsaved
    refine ⟨?_, hfreed, hapart⟩
    have hframes : a.frames = m.frames := hcon.frames
    have hlt : f < m.frames.size :=
      hm.sane.ledger.form.framed f (by simp [nodes, hf])
    rw [(hcourse.lasting ha).frameAt_eq (hframes ▸ hlt) hfreed]
    simp only [frameAt, hframes]
  · -- The pass that was waiting is the caller.
    obtain ⟨extra, hextra, -⟩ := hend.floor ha
    have hnil : extra = [] := by
      rw [hextra, List.length_append] at hlevel
      exact List.length_eq_zero_iff.1 (by omega)
    rw [hnil, List.nil_append, hs] at hextra
    cases hresume with
    | @resumed _ _ s' rest hs' h =>
      obtain ⟨rfl, rfl⟩ := List.cons.inj (hs'.symm.trans hextra)
      refine ⟨fun hnone => ?_, fun c hc => ?_⟩
      · obtain ⟨hcontext, hrest, hchain, hpending, hreceiver⟩ := hawaits.quiet hs' h hnone
        exact ⟨hcontext, hrest, hchain, hpending, hreceiver⟩
      · obtain ⟨m₀, m₁, m₂, m₃, h₀, h₁, hcontext, hchain, hloud⟩ := hawaits.loud hs' h hc
        have hpending : b.pending ≠ none := by rw [hc]; exact Option.some_ne_none c
        have hback : b.chain = m.chain := (hend.chain_eq hbegin hlevel hpending).trans hcon.chain
        exact ⟨m₀, m₁, m₂, m₃, h₀, h₁, hcontext, hchain.trans hback, hloud⟩

/-- A class whose initializer raises, with a rescue marker around the call of `new`. -/
def raisingInitializer : Program where
  blocks := #[{
    registers := 6, symbols := #["Widget", "new"], children := #[1],
    code := #[⟨.loadNil, 2, 0, 0⟩, ⟨.defineClass, 1, 0, 0⟩, ⟨.runBody, 1, 0, 0⟩,
      ⟨.pushRescue, 6, 0, 0⟩, ⟨.getConstant, 1, 0, 0⟩, ⟨.send, 1, 1, 0⟩, ⟨.leave, 1, 0, 0⟩] },
    { registers := 4, symbols := #["initialize"], children := #[2],
      code := #[⟨.targetClass, 1, 0, 0⟩, ⟨.makeBlock, 2, 0, 0⟩, ⟨.defineMethod, 1, 0, 0⟩,
        ⟨.leave, 1, 0, 0⟩] },
    { registers := 4, code := #[⟨.pushEnsure, 2, 0, 0⟩, ⟨.raise, 1, 0, 0⟩, ⟨.leave, 1, 0, 0⟩] }]

/-- The exception of the initializer is raised under the marker of the caller. -/
theorem constructor_isolated_raisingInitializer :
    ∃ m a b m' f, Reachable true [] m ∧ m.context.markers = [f] ∧
      (fetch >>= step) m = .ok .entered a ∧ Course (StaysIn a) a .ended b ∧
      b.suspended.length = a.suspended.length ∧ Advance .ended b .settling m' ∧
      b.pending = some .typeError ∧ (b.frameAt f).freed = false ∧
      ∃ m₁ m₂, m₁.context.markers = [f] ∧ m₁.pending = none ∧
        raise .typeError b.pendingMessage m₁ = .ok () m₂ ∧ m'.context.markers = [] := by
  have hrun : ∃ m ∈ raisingInitializer.after 9, m.context.markers = [1] ∧
      Leads NoFault (fetch >>= step) m fun p a => p = .entered ∧
        ∃ x ∈ follow (fun _ _ _ k => decide (a.suspended.length ≤ k.suspended.length)) 8 .ready a,
          x.1 = .ended ∧ x.2.suspended.length = a.suspended.length ∧
          x.2.pending = some .typeError ∧
          ∃ y ∈ advance .ended x.2, y.1 = .settling ∧ y.2.context.markers = [] := by
    decide +kernel
  have hvalid : raisingInitializer.defect? = none := Program.defect?_eq_none (by decide +kernel)
  obtain ⟨m, hm, hmarkers, hstep⟩ := hrun
  obtain ⟨p, a, hstep, rfl, ⟨_, b⟩, hb, rfl, hlevel, hpending, ⟨_, m'⟩, hm', rfl, hm'₂⟩ := hstep.exists_ok
  have hreach := Reachable.of_after hvalid hm
  have hcourse : Course (StaysIn a) a .ended b :=
    Course.began.follow (fun _ _ _ _ h => by simpa [StaysIn] using h) hb
  have hresume : Advance .ended b .settling m' := advance_of_eq hm'
  obtain ⟨i, w, id, callee, made, -, -, -, -, hkept, -, hloud⟩ :=
    constructor_isolated hreach hstep hcourse hlevel hresume
  obtain ⟨m₀, m₁, m₂, m₃, -, -, hcontext, -, -, hnone, -, -, hraise, -⟩ := hloud _ hpending
  refine ⟨m, a, b, m', 1, hreach, hmarkers, hstep, hcourse, hlevel, hresume, hpending,
    (hkept .ended b hcourse 1 (hmarkers ▸ List.mem_singleton_self _)).2.1, m₁, m₂, ?_, hnone, hraise,
    hm'₂⟩
  rw [hcontext]
  exact hmarkers

end ObjectMachine
