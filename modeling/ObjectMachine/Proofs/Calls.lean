import ObjectMachine.Proofs.Natives

/-! Calls keep the books. A native that is done leaves its duties behind it at once; one that
waits for a constructor pass hands them over to the suspended pass. Either way a call moves
control at most once: into code, into a constructor pass, or to where an exception goes. -/

namespace ObjectMachine

namespace Control

/-- Starts a constructor pass. The context of the caller waits in the first duty. -/
def enter (c : Control) (duties : List Duty) (base argc : Int64) : Control :=
  { c with
    suspended := ⟨c.context.entry, duties⟩ :: c.suspended
    context := { c.context with
      markers := [], base, code := some (Machine.constructorCode argc), pc := 0,
      entry := c.chain.head? } }

/-- A duty of a native call that is over once it is done. -/
def IsPlain : Duty → Prop
  | .construct _ _ _ => False
  | _ => True

/-- Ends a duty. A constructor pass returns to the context it was called in, and raises there
what it left pending. -/
def endDuty (c : Control) : Duty → Option Control
  | .construct context _ _ =>
    let c := { c with context := context.bare }
    match c.pending with
    | some e => { c with pending := none, pendingMessage := .nil }.raise e c.pendingMessage
    | none => some c
  | _ => some c

def endDuties (c : Control) : List Duty → Option Control
  | [] => some c
  | d :: rest => (c.endDuty d).bind fun c => c.endDuties rest

theorem suspended_of_endDuty {x : Duty} {c c' : Control} (h : c.endDuty x = some c') :
    c'.suspended = c.suspended := by
  cases x with
  | construct context made w =>
    simp only [endDuty] at h
    split at h
    · exact (raise_samePass h).suspended
    · cases h
      rfl
  | leave => exact Option.some.inj h ▸ rfl
  | deliver => exact Option.some.inj h ▸ rfl

theorem suspended_of_endDuties {xs : List Duty} {c c' : Control} (h : c.endDuties xs = some c') :
    c'.suspended = c.suspended := by
  induction xs generalizing c with
  | nil => exact Option.some.inj h ▸ rfl
  | cons x xs ih =>
    obtain ⟨c₁, h₁, h₂⟩ := Option.bind_eq_some_iff.1 h
    exact (ih h₂).trans (suspended_of_endDuty h₁)

/-- What a call does to control. -/
inductive Call (c : Control) : Machine.Progress → Control → Prop
  | deed {c' : Control} (h : c.Deed c') : Call c .same c'
  | entered {context : Context} {made : Value} {w : Window} {duties : List Duty}
      (base argc : Int64) (hcontext : context.bare = c.context)
      (hduties : ∀ x ∈ duties, IsPlain x) :
      Call c .entered (c.enter (.construct context made w :: duties) base argc)

theorem endDuties_of_plain {c : Control} {d : List Duty} (h : ∀ x ∈ d, IsPlain x) :
    c.endDuties d = some c := by
  induction d with
  | nil => rfl
  | cons x d ih =>
    have hx : c.endDuty x = some c := by
      cases x with
      | construct => exact (h _ List.mem_cons_self).elim
      | leave => rfl
      | deliver => rfl
    rw [endDuties, hx]
    exact ih fun y hy => h y (List.mem_cons_of_mem _ hy)

end Control

namespace Machine

variable {s : Prop} {l : Nat} {d : List Duty} {H : List Value} {m : Machine} {v : Value}
  {w : Window}

/-! ### Duties -/

/-- The books of a machine whose duties and markers have only changed hands. -/
theorem Ledger.hand_over {d' : List Duty} {H' : List Value} {m' : Machine}
    (h : Ledger s l d H m)
    (hchange : ∃ context suspended jumped, m' = { m with context, suspended, jumped })
    (hmarkers : (m'.context.markers ++ m'.savedMarkers d').Perm
      (m.context.markers ++ m.savedMarkers d))
    (hmethods : ((d' ++ m'.duties).flatMap Duty.methods).Perm
      ((d ++ m.duties).flatMap Duty.methods))
    (hmade : ∀ r, tally r H' + tally r ((d' ++ m'.duties).flatMap Duty.made) =
      tally r H + tally r ((d ++ m.duties).flatMap Duty.made)) : Ledger s l d' H' m' := by
  obtain ⟨context, suspended, jumped, rfl⟩ := hchange
  have hnodes : (nodes d' { m with context, suspended, jumped }).Perm (m.nodes d) := by
    simp only [nodes, List.append_assoc]
    exact List.Perm.append_left m.chain hmarkers
  refine ⟨⟨h.balanced.congr ?_, ⟨fun f hf => ?_, fun f hf => ?_, fun id => ?_, h.form.linked⟩,
    fun hs => ?_⟩, h.depth, h.manned⟩
  · simp only [outlay, hnodes.length_eq]
    rfl
  · exact h.form.framed f (hnodes.mem_iff.1 hf)
  · exact h.form.marked f (hmarkers.mem_iff.1 hf)
  · have hheld := h.form.held id
    simp only [holders, hmethods.count_eq id] at hheld ⊢
    exact hheld
  · refine ⟨(h.exact hs).counts.of_tally fun r => ?_, (h.exact hs).proper.noException,
      (h.exact hs).proper.noPending, (h.exact hs).proper.noProbe⟩
    have := hmade r
    simp only [tally_append, tally_roots]
    omega

theorem leaveNative_ledger {id : MethodId} {b : Int64} {c : Symbol}
    (h : Ledger s l (.leave id w b c :: d) H m) :
    Leads (Excused s) (leaveNative id w b c) m fun _ m' =>
      Ledger s l d H m' ∧ m'.control = m.control := by
  simp only [leaveNative, modifyContext, Leads.bind_eq, Leads.modify_eq, Leads.get_eq]
  refine ((releaseMethod_ledger h).and (releaseMethod_clerical id).control).mono ?_
  rintro _ m₁ ⟨h₁, hc₁⟩
  have h₂ : Ledger s l d H { m₁ with context := { m₁.context with callBase := b, callee := c } } :=
    h₁.turn ⟨_, _, rfl⟩ rfl
  split
  · refine (clearRegs_ledger h₂ _ _).mono ?_
    rintro _ m₂ ⟨h₃, hk₃⟩
    exact ⟨h₃, (control_of_skeleton hk₃).trans hc₁⟩
  · exact ⟨h₂, hc₁⟩

theorem deliver_ledger {scratch : Int64} (h : Ledger s l (.deliver scratch w :: d) H m) :
    Leads (Excused s) (runDuty (.deliver scratch w)) m fun _ m' =>
      Ledger s l d H m' ∧ m'.control = m.control := by
  have h₀ : Ledger s l d H m := h.hand_over ⟨_, _, _, rfl⟩ (.refl _) (.refl _) fun _ => rfl
  simp only [runDuty, Leads.bind_eq]
  refine (exchangeReg_ledger (v := .empty) (h₀.hold rfl) scratch).mono fun old m₁ ⟨h₁, hk₁, _⟩ => ?_
  exact (setReturn_ledger h₁).mono fun _ m₂ ⟨h₂, hk₂, _⟩ =>
    ⟨h₂, control_of_skeleton (hk₂.trans hk₁)⟩

theorem dropAllMarkers_control :
    Leads AnyFault dropAllMarkers m fun _ m' =>
      m'.control = { m.control with context := { m.control.context with markers := [] } } := by
  simp only [dropAllMarkers, Leads.bind_eq, Leads.get_eq]
  refine (dropMarkers_control _).mono fun _ m' h => ?_
  rw [h, List.drop_length]

/-- The end of a constructor pass. Its instance is in hand until it is returned or lost. -/
theorem endConstruct_ledger {context : Context} {made : Value}
    (h : Ledger s l (.construct context made w :: d) H m) :
    Leads (Excused s) (endConstruct context made w) m fun _ m' =>
      Ledger s l d H m' ∧
      m.control.endDuty (.construct context made w) = some m'.control := by
  simp only [endConstruct, Leads.bind_eq, Leads.modify_eq, Leads.get_eq]
  refine ((dropAllMarkers_ledger h).and dropAllMarkers_control).mono ?_
  rintro _ m₁ ⟨h₁, hc₁⟩
  have hmarkers : m₁.context.markers = [] := congrArg (·.context.markers) hc₁
  have h₂ : Ledger s l d (made :: H) { m₁ with context, jumped := false } := by
    refine h₁.hand_over ⟨_, _, _, rfl⟩ ?_ ?_ fun r => ?_
    · simp only [savedMarkers, duties, hmarkers, List.cons_append, List.flatMap_cons, Duty.markers,
        List.nil_append]
      exact .refl _
    · exact .refl _
    · have hcons := tally_cons r made H
      have hmade := tally_append r [made] ((d ++ m₁.duties).flatMap Duty.made)
      simp only [duties, List.cons_append, List.flatMap_cons, Duty.made] at hcons hmade ⊢
      omega
  have hc₂ : control { m₁ with context, jumped := false } =
      { m.control with context := context.bare } := by
    change { m₁.control with context := context.bare } = _
    rw [hc₁]
  have hpending : m₁.pending = m.pending := congrArg Control.pending hc₁
  have hmessage : m₁.pendingMessage = m.pendingMessage := congrArg Control.pendingMessage hc₁
  split
  · next e he =>
    simp only [Leads.bind_eq, Leads.modify_eq]
    have he' : m.control.pending = some e := hpending.symm.trans he
    have h₃ : Ledger s l d (made :: m₁.pendingMessage :: H)
        { m₁ with context, jumped := false, pending := none, pendingMessage := .nil } := by
      refine h₂.reword ⟨_, _, _, _, _, _, rfl⟩ rfl h₂.balanced (fun hs => ?_)
        (fun hs => (h₂.exact hs).proper.noException) fun _ _ => rfl
      refine (h₂.exact hs).counts.of_tally fun r => ?_
      rw [List.cons_append, List.cons_append, List.cons_append, tally_cons r made (_ :: _),
        tally_cons r made (H ++ _), tally_cons r m₁.pendingMessage]
      simp only [tally_append, tally_roots, duties, tally_nil_value]
      omega
    refine Leads.mono (release_ledger h₃) ?_
    rintro _ m₄ ⟨h₄, hq₄⟩
    refine (setReturn_ledger (h₄.hold (v := .nil) rfl)).mono ?_
    rintro _ m₅ ⟨h₅, hk₅, _⟩
    have hc₅ : m₅.control = { m.control with
        context := context.bare, pending := none, pendingMessage := .nil } := by
      rw [control_of_skeleton (hk₅.trans hq₄.1)]
      exact congrArg (fun c => { c with pending := none, pendingMessage := .nil }) hc₂
    refine ((raise_ledger e h₅ (h₅.live_of_hand List.mem_cons_self)).and (raise_control e _)).mono ?_
    rintro _ m₆ ⟨h₆, hc₆⟩
    refine (release_ledger h₆).mono ?_
    rintro _ m₇ ⟨h₇, hq₇⟩
    refine ⟨h₇, ?_⟩
    simp only [Control.endDuty, he']
    rw [control_of_skeleton hq₇.1, ← hc₆, hc₅, hmessage]
    rfl
  · next he =>
    have he' : m.control.pending = none := hpending.symm.trans he
    refine Leads.mono (setReturn_ledger h₂) ?_
    rintro _ m₃ ⟨h₃, hk₃, _⟩
    refine ⟨h₃, ?_⟩
    simp only [Control.endDuty, he']
    rw [control_of_skeleton hk₃, hc₂]
    simp only [he']

theorem runDuty_ledger (x : Duty) (h : Ledger s l (x :: d) H m) :
    Leads (Excused s) (runDuty x) m fun _ m' =>
      Ledger s l d H m' ∧ m.control.endDuty x = some m'.control := by
  cases x with
  | construct context made w => exact endConstruct_ledger h
  | leave id w b c => exact (leaveNative_ledger h).mono fun _ _ ⟨h₁, hc₁⟩ => ⟨h₁, hc₁ ▸ rfl⟩
  | deliver scratch w => exact (deliver_ledger h).mono fun _ _ ⟨h₁, hc₁⟩ => ⟨h₁, hc₁ ▸ rfl⟩

theorem runDuties_ledger (xs : List Duty) (h : Ledger s l (xs ++ d) H m) :
    Leads (Excused s) (runDuties xs) m fun _ m' =>
      Ledger s l d H m' ∧ m.control.endDuties xs = some m'.control := by
  induction xs generalizing m with
  | nil => exact ⟨h, rfl⟩
  | cons x xs ih =>
    simp only [runDuties, Leads.bind_eq]
    refine (runDuty_ledger x h).mono fun _ m₁ ⟨h₁, hc₁⟩ => ?_
    refine (ih h₁).mono fun _ m₂ ⟨h₂, hc₂⟩ => ⟨h₂, ?_⟩
    rw [Control.endDuties, hc₁]
    exact hc₂

/-! ### Native calls -/

def Called (s : Prop) (l : Nat) (H : List Value) (m : Machine) (p : Progress) (m' : Machine) :
    Prop :=
  Ledger s l [] H m' ∧ m.control.Call p m'.control

theorem Called.after {m₁ m' : Machine} {p : Progress} (h : Called s l H m₁ p m')
    (hc : m₁.control = m.control) : Called s l H m p m' :=
  ⟨h.1, hc ▸ h.2⟩

theorem enterConstruct_called {made : Value} (h : Ledger s l d (made :: H) m)
    (hd : ∀ x ∈ d, Control.IsPlain x) :
    Leads (Excused s) (enterConstruct made w d) m fun _ m' => Called s l H m .entered m' := by
  simp only [enterConstruct, enterPass, modifyContext, Leads.bind_eq, Leads.modify_eq,
    Leads.get_eq]
  refine currentSize_leads fun size => ?_
  refine Leads.mono (enterWindow_ledger (H := H) (d := []) (h.hand_over ⟨_, _, _, rfl⟩ (.refl _)
    (.refl _) fun r => ?_) _ _) ?_
  · have hcons := tally_cons r made H
    have hmade := tally_append r [made] ((d ++ m.duties).flatMap Duty.made)
    simp only [duties, List.nil_append, List.flatMap_cons, List.cons_append, Duty.made]
      at hcons hmade ⊢
    omega
  · rintro _ m₁ ⟨h₁, hq₁, _⟩
    have hc₁ : m₁.control = m.control.enter (.construct m.context made w :: d)
        m.context.callBase w.argc := control_of_skeleton hq₁.1
    refine ⟨h₁, ?_⟩
    rw [hc₁]
    exact .entered m.context.callBase w.argc rfl hd

theorem enterNative_ledger {id : MethodId} (h : Ledger s l d H m)
    (hid : 0 < (m.methodAt id).refCount) :
    Leads (Excused s) (enterNative id w) m fun x m' =>
      Ledger s l (x :: d) H m' ∧ m'.control = m.control ∧ Control.IsPlain x := by
  simp only [enterNative, modifyContext, acquireMethod, modifyMethod, Leads.bind_eq, Leads.get_eq,
    Leads.modify_eq, Leads.pure_eq]
  exact ⟨(h.lease w _ _ hid).turn ⟨_, _, rfl⟩ rfl, rfl, trivial⟩

theorem checkWindow_leads {Q : Unit → Machine → Prop} (h : Q () m) :
    Leads (Excused s) (checkWindow w) m Q := by
  simp only [checkWindow, Leads.bind_eq, Leads.get_eq]
  split
  · exact excused_outOfBounds s m
  · exact h

/-- A native call is over, waits for a pass, or asks for an inner call. -/
theorem startNative_called {id : MethodId} (h : Ledger s l d H m)
    (hid : 0 < (m.methodAt id).refCount) (hd : ∀ x ∈ d, Control.IsPlain x) :
    Leads (Excused s) (startNative id w d) m fun r m' =>
      match r with
      | .inl p => Called s l H m p m'
      | .inr call => Ledger s l call.duties H m' ∧ m'.control = m.control ∧
          0 < (m'.methodAt call.method).refCount ∧ ∀ x ∈ call.duties, Control.IsPlain x := by
  simp only [startNative, Leads.bind_eq, Leads.get_eq]
  refine (enterNative_ledger h hid).mono fun x m₁ ⟨h₁, hc₁, hx⟩ => checkWindow_leads ?_
  refine present_leads fun n hn => ?_
  have hprobe : s → ∀ p, n ≠ .probe p := by
    rintro hs p rfl
    exact (h₁.exact hs).proper.noProbe id p hn
  have hplain : ∀ y ∈ x :: d, Control.IsPlain y := by
    intro y hy
    rcases List.mem_cons.1 hy with rfl | hy
    · exact hx
    · exact hd y hy
  refine (runNative_ran h₁ hprobe).mono fun o m₂ h₂ => ?_
  cases o with
  | done =>
    simp only [Leads.bind_eq, Leads.pure_eq]
    have h₂' : Ledger s l (x :: d ++ []) H m₂ := by
      rw [List.append_nil]
      exact h₂.ledger
    refine (runDuties_ledger (x :: d) h₂').mono fun _ m₃ ⟨h₃, hc₃⟩ => ?_
    rw [Control.endDuties_of_plain hplain, Option.some.injEq, eq_comm] at hc₃
    refine ⟨h₃, .deed ?_⟩
    rw [hc₃, ← hc₁]
    exact h₂.deed
  | construct made =>
    simp only [Leads.bind_eq, Leads.pure_eq]
    have hc₂ : m₂.control = m.control := (h₂.stay.resolve_left nofun).trans hc₁
    exact (enterConstruct_called h₂.ledger hplain).mono fun _ m₃ h₃ => h₃.after hc₂
  | call id' w' =>
    refine ⟨?_, (h₂.stay.resolve_left nofun).trans hc₁, h₂.callable id' w' rfl, ?_⟩
    · exact h₂.ledger.hand_over ⟨_, _, _, rfl⟩ (.refl _) (.refl _) fun _ => rfl
    · intro y hy
      rcases List.mem_cons.1 hy with rfl | hy
      · trivial
      · exact hplain y hy

theorem callNative_called (limit : Nat) (call : InnerCall) (h : Ledger s l call.duties H m)
    (hid : 0 < (m.methodAt call.method).refCount) (hd : ∀ x ∈ call.duties, Control.IsPlain x) :
    Leads (Excused s) (callNative limit call) m fun p m' => Called s l H m p m' := by
  induction limit generalizing m call with
  | zero =>
    rw [callNative, Leads.bind_eq]
    refine (startNative_called h hid hd).mono fun r m₁ h₁ => ?_
    cases r with
    | inl p => exact h₁
    | inr inner => exact excused_outOfBounds s m₁
  | succ limit ih =>
    rw [callNative, Leads.bind_eq]
    refine (startNative_called h hid hd).mono fun r m₁ h₁ => ?_
    cases r with
    | inl p => exact h₁
    | inr inner =>
      obtain ⟨hinner, hc₁, hid₁, hd₁⟩ := h₁
      exact (ih inner hinner hid₁ hd₁).mono fun _ m₂ h₂ => h₂.after hc₁

/-! ### Calls of methods -/

/-- A method that is code gets a frame of its own, which holds the method. -/
theorem callCode_called {a argc : Int64} {name : Symbol} {id : MethodId} (owner : ClassId)
    (code : Code) (h : Ledger s l [] H m) (hid : 0 < (m.methodAt id).refCount) :
    Leads (Excused s) (callCode a name argc id owner code) m fun _ m' =>
      Called s l H m .same m' := by
  simp only [callCode, modifyFrame, acquireMethod, modifyMethod, modifyContext, Leads.bind_eq,
    Leads.get_eq, Leads.modify_eq]
  refine ((pushFrame_ledger _ _ _ h).and (pushFrame_control _ _ _)).mono ?_
  rintro f m₁ ⟨⟨h₁, hf, hnone, hon, hmethods, -⟩, -, hc₁⟩
  have hid₁ : 0 < (m₁.methodAt id).refCount := by
    unfold methodAt at hid ⊢
    rwa [hmethods]
  have hframes : Leads AnyFault (modifyFrame f fun k =>
      { k with ownClass := some owner, method := some id }) m₁ fun _ m₂ =>
        m₂.control = m₁.control := modifyFrame_control f fun _ => rfl
  refine Leads.mono (enterCode_ran (h₁.adopt owner hf hnone hon hid₁) ?_ _ code _ _)
    fun _ m₂ h₂ => ⟨h₂.ledger, .deed h₂.deed⟩
  exact hframes.trans hc₁

theorem dispatch_called (a : Int64) (name : Symbol) (argc : Int64) (c : ClassId)
    (h : Ledger s l [] H m) :
    Leads (Excused s) (dispatch a name argc c) m fun p m' => Called s l H m p m' := by
  simp only [dispatch, Leads.bind_eq, Leads.get_eq]
  refine (enterWindow_ledger h _ _).mono fun _ m₁ ⟨h₁, hq₁, _⟩ => ?_
  have hc₁ := control_of_skeleton hq₁.1
  split
  · simp only [Leads.bind_eq, Leads.get_eq, Leads.pure_eq]
    refine reg_leads fun v _ => (raiseText_ran _ _ h₁).mono fun _ m₂ h₂ => ?_
    exact Called.after ⟨h₂.ledger, .deed h₂.deed⟩ hc₁
  · next id owner hfound =>
    simp only [Leads.bind_eq, Leads.get_eq]
    refine (recordCall_ledger id owner h₁).mono fun _ m₂ ⟨h₂, hq₂, _⟩ => ?_
    have hc₂ := (control_of_skeleton hq₂.1).trans hc₁
    have hid : 0 < (m₂.methodAt id).refCount := by
      have hat := congrArg (fun k : Machine => k.methodAt id) hq₂.1
      change m₂.methodAt id = m₁.methodAt id at hat
      rw [hat]
      exact h₁.refCount_of_findMethod? hfound
    split
    · have hcall := callNative_called argc.toInt.toNat ⟨id, ⟨m.context.base + a, argc⟩, []⟩ h₂ hid
        (List.forall_mem_nil _)
      exact hcall.mono fun _ m₃ h₃ => h₃.after hc₂
    · simp only [Leads.bind_eq, Leads.pure_eq]
      exact (callCode_called owner _ h₂ hid).mono fun _ m₃ h₃ => h₃.after hc₂

end Machine

end ObjectMachine
