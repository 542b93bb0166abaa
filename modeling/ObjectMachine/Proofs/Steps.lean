import ObjectMachine.Proofs.Calls
import ObjectMachine.Proofs.Making

/-! One instruction. Every instruction keeps the books, and it moves control in one of a few
ways: most leave it alone or call something, and only a return, the instructions on markers
and exceptions, and the end of a pass do more. -/

namespace ObjectMachine

namespace Control

/-- The marker on top of the chain of the current pass. -/
def topMarker? (c : Control) : Option FrameId :=
  c.chain.head?.filter fun f => c.context.entry != some f && (c.frameAt f).isMarker

/-- Whether a return ends the last ensure body of an exception. -/
def settlesOnReturn (c : Control) : Bool :=
  c.context.excState == .finalizing && c.context.settleOnReturn
    && c.chain.head? == c.context.finalizeFrame

def goto (c : Control) (pc : Int64) : Control := { c with context := { c.context with pc } }

def unmark (c : Control) (n : Nat) : Control :=
  { c with context := { c.context with markers := c.context.markers.drop n } }

def relax (c : Control) : Control :=
  { c with
    exception := none
    excMessage := .nil
    context := { c.context with excState := .normal } }

/-- What an instruction does to control. -/
inductive Move (c : Control) : Opcode → Machine.Progress → Control → Prop
  | call {op : Opcode} {p : Machine.Progress} {c' : Control} (hop : op.isOrdinary)
      (h : c.Call p c') : Move c op p c'
  | jump {op : Opcode} (hop : op.isJump) (pc : Int64) : Move c op .same (c.goto pc)
  | protect (tag : FrameTag) (pc : Int64) (h : tag ≠ .call) :
      Move c (if tag = .rescue then .pushRescue else .pushEnsure) .same (c.mark tag pc)
  | unprotect (n : Nat) : Move c .popMarkers .same (c.unmark n)
  | take (h : c.exception ≠ none) : Move c .takeException .same c.relax
  | resume {f : FrameId} {c' : Control} (htop : c.topMarker? = some f)
      (h : { c with chain := c.chain.tail }.resume f = some c') : Move c .leave .same c'
  | settle (htop : c.topMarker? = none) (h : c.settlesOnReturn) (hexc : c.settle.pending ≠ none) :
      Move c .leave .same c.settle
  | back {f : FrameId} {rest : List FrameId} (htop : c.topMarker? = none)
      (hsettle : ¬c.settlesOnReturn) (hentry : c.chain.head? ≠ c.context.entry)
      (hchain : c.chain = f :: rest) : Move c .leave .same (c.pop f rest)
  | finished (v : Value) (htop : c.topMarker? = none) (hsettle : ¬c.settlesOnReturn)
      (hentry : c.chain.head? = c.context.entry) : Move c .leave (.finished v) c
  | halt {op : Opcode} (hop : op = .abort ∨ op = .stop) : Move c op (.finished .nil) c

end Control

namespace Machine

/-- The result that is in hand when a pass is over. -/
def Progress.hand : Progress → List Value
  | .finished v => [v]
  | _ => []

def Stepped (s : Prop) (l : Nat) (H : List Value) (m : Machine) (op : Opcode) (p : Progress)
    (m' : Machine) : Prop :=
  Ledger s l [] (p.hand ++ H) m' ∧ m.control.Move op p m'.control

variable {s : Prop} {l : Nat} {d : List Duty} {H : List Value} {m : Machine} {v : Value}
  {op : Opcode}

theorem Stepped.still {m' : Machine} (hop : op.isOrdinary) (h : Ledger s l [] H m')
    (hc : m'.control = m.control) : Stepped s l H m op .same m' :=
  ⟨h, .call hop (.deed (.stay hc))⟩

theorem hand_of_call {c c' : Control} {p : Progress} (h : c.Call p c') : p.hand = [] := by
  cases h <;> rfl

theorem Stepped.called {m₁ m' : Machine} {p : Progress} (hop : op.isOrdinary)
    (h : Called s l H m₁ p m') (hc : m₁.control = m.control) : Stepped s l H m op p m' :=
  ⟨hand_of_call h.2 ▸ h.1, .call hop (hc ▸ h.2)⟩

theorem Stepped.ran {m₁ m' : Machine} (hop : op.isOrdinary) (h : Ran s l [] H m₁ .done m')
    (hc : m₁.control = m.control) : Stepped s l H m op .same m' :=
  .called hop ⟨h.ledger, .deed h.deed⟩ hc

/-! ### Parts of instructions -/

theorem codeSymbol_ledger (i : Int64) (h : Ledger s l d H m) :
    Leads (Excused s) (codeSymbol i) m fun _ m' =>
      Ledger s l d H m' ∧ Quiet m m' ∧ m'.memory = m.memory := by
  simp only [codeSymbol, Leads.bind_eq]
  refine currentCode_leads fun code _ => ?_
  simp only [Leads.modifyGet_eq]
  refine present_leads fun k _ => ?_
  exact ⟨h.keep rfl h.balanced fun hs => (h.exact hs).counts, ⟨rfl, rfl⟩, rfl⟩

theorem variableSymbol_ledger (i : Int64) (h : Ledger s l d H m) :
    Leads (Excused s) (variableSymbol i) m fun _ m' =>
      Ledger s l d H m' ∧ Quiet m m' ∧ m'.memory = m.memory := by
  simp only [variableSymbol, Leads.bind_eq]
  exact currentCode_leads fun code _ => present_leads fun name _ => intern_ledger h _

theorem literalValue_ledger (x : Literal) (h : Ledger s l d H m) :
    Leads (Excused s) (literalValue x) m fun v m' => Ledger s l d (v :: H) m' ∧ Quiet m m' := by
  rcases literalValue_cases x with ⟨v, hv, -, hx⟩ | hx <;> rw [hx]
  · exact ⟨h.hold hv, .refl m⟩
  · exact newString_ledger h x.text

/-- Stores a value that is in hand. -/
theorem setReg_stepped (hop : op.isOrdinary) (i : Int64) {m₁ : Machine}
    (h : Ledger s l [] (v :: H) m₁) (hk : m₁.skeleton = m.skeleton) :
    Leads (Excused s) (setReg i v) m₁ fun _ m' => Stepped s l H m op .same m' :=
  (setReg_ledger h i).mono fun _ _ ⟨h₂, hk₂, _⟩ =>
    .still hop h₂ (control_of_skeleton (hk₂.trans hk))

theorem raiseText_stepped (hop : op.isOrdinary) (c : ClassId) (t : Text) {m₁ : Machine}
    (h : Ledger s l [] H m₁) (hc : m₁.control = m.control) :
    Leads (Excused s) (raiseText c t) m₁ fun _ m' => Stepped s l H m op .same m' :=
  (raiseText_ran c t h).mono fun _ _ h₂ => .ran hop h₂ hc

theorem raise_stepped (hop : op.isOrdinary) (c : ClassId) (h : Ledger s l [] H m)
    (hv : s → m.memory.Live v) :
    Leads (Excused s) (raise c v) m fun _ m' => Stepped s l H m op .same m' :=
  ((raise_ledger c h hv).and (raise_control c v)).mono fun _ _ ⟨h₁, hc₁⟩ =>
    ⟨h₁, .call hop (.deed (.raised c v hc₁))⟩

theorem setPc_stepped (hop : op.isJump) (pc : Int64) (h : Ledger s l [] H m) :
    Leads (Excused s) (setPc pc) m fun _ m' => Stepped s l H m op .same m' := by
  simp only [setPc, modifyContext, Leads.modify_eq]
  exact ⟨h.turn ⟨_, _, rfl⟩ rfl, .jump hop pc⟩

/-! ### Calls of a superclass, class bodies and returns -/

theorem callSuper_stepped (hop : op.isOrdinary) (a argc : Int64) (h : Ledger s l [] H m) :
    Leads (Excused s) (callSuper a argc) m fun p m' => Stepped s l H m op p m' := by
  simp only [callSuper, Leads.bind_eq, Leads.get_eq]
  split
  · simp only [Leads.bind_eq, Leads.get_eq]
    refine self_leads fun v hv => ?_
    refine (acquire_ledger h (h.live_of_reg hv)).mono fun _ m₁ ⟨h₁, hq₁, _⟩ => ?_
    refine (setReg_ledger h₁ _).mono fun _ m₂ ⟨h₂, hk₂, _⟩ => ?_
    refine (enterWindow_ledger h₂ _ _).mono fun _ m₃ ⟨h₃, hq₃, _⟩ => ?_
    refine (setReg_immediate (v := .nil) h₃ _ rfl).mono fun _ m₄ ⟨h₄, hk₄, _⟩ => ?_
    have hk : m₄.skeleton = m.skeleton := hk₄.trans (hq₃.1.trans (hk₂.trans hq₁.1))
    split
    · simp only [nameOf, Leads.bind_eq, Leads.get_eq, Leads.pure_eq]
      exact raiseText_stepped hop _ _ h₄ (control_of_skeleton hk)
    · exact (dispatch_called _ _ _ _ h₄).mono fun _ _ h₅ => .called hop h₅ (control_of_skeleton hk)
  · simp only [Leads.bind_eq, Leads.pure_eq]
    exact raiseText_stepped hop _ _ h rfl

theorem enterBody_stepped (hop : op.isOrdinary) (a : Int64) (c : ClassId) (child : Int64)
    (h : Ledger s l [] H m) :
    Leads (Excused s) (enterBody a c child) m fun _ m' => Stepped s l H m op .same m' := by
  simp only [enterBody, modifyContext, Leads.bind_eq, Leads.get_eq, Leads.modify_eq]
  refine ((pushFrame_ledger _ _ _ h).and (pushFrame_control _ _ _)).mono ?_
  rintro f m₁ ⟨⟨h₁, -⟩, -, hc₁⟩
  refine Leads.mono (modifyFrame_ledger f (fun _ => rfl) (fun _ => rfl) h₁) ?_
  rintro _ m₂ ⟨h₂, hc₂⟩
  refine currentCode_leads fun code _ => present_leads fun body _ => ?_
  exact (enterCode_ran h₂ (hc₂.trans hc₁) _ body _ _).mono fun _ _ h₃ => .ran hop h₃ rfl

theorem topMarker?_control (m : Machine) : m.topMarker? = m.control.topMarker? := by
  simp only [topMarker?, Control.topMarker?, isMarker_control]
  rfl

theorem leaveFrame_stepped (a : Int64) (h : Ledger s l [] H m)
    (htop : m.control.topMarker? = none) (hsettle : ¬m.control.settlesOnReturn) :
    Leads (Excused s) (leaveFrame a) m fun p m' => Stepped s l H m .leave p m' := by
  simp only [leaveFrame, Leads.bind_eq, Leads.get_eq]
  refine (exchangeReg_ledger (v := .empty) (h.hold rfl) _).mono fun v m₁ ⟨h₁, hk₁, _⟩ => ?_
  have hc₁ := control_of_skeleton hk₁
  have hchain : m₁.chain = m.chain := congrArg Control.chain hc₁
  have hentry : m₁.context.entry = m.context.entry := congrArg (·.context.entry) hc₁
  split
  · next hover =>
    rw [hchain, hentry] at hover
    refine ⟨h₁, ?_⟩
    rw [hc₁]
    exact .finished v htop hsettle hover
  · next hover =>
    rw [hchain, hentry] at hover
    simp only [Leads.bind_eq, Leads.pure_eq]
    refine currentSize_leads fun size => ?_
    refine (clearRegs_ledger h₁ _ _).mono fun _ m₂ ⟨h₂, hk₂⟩ => ?_
    refine (setReg_ledger h₂ _).mono fun _ m₃ ⟨h₃, hk₃, _⟩ => ?_
    have hc₃ : m₃.control = m.control := control_of_skeleton (hk₃.trans (hk₂.trans hk₁))
    refine ((popFrame_ledger h₃).and popFrame_control).mono ?_
    rintro _ m₄ ⟨h₄, f, rest, hfs, hc₄⟩
    refine ⟨h₄, ?_⟩
    rw [hc₄, hc₃]
    exact .back htop hsettle hover ((congrArg Control.chain hc₃).symm.trans hfs)

theorem leave_stepped (a : Int64) (h : Ledger s l [] H m) :
    Leads (Excused s) (leave a) m fun p m' => Stepped s l H m .leave p m' := by
  simp only [leave, Leads.bind_eq, Leads.get_eq]
  split
  · next f hf =>
    obtain ⟨hhead, hmarker⟩ := Option.filter_eq_some_iff.1 hf
    obtain ⟨rest, hrest⟩ := List.head?_eq_some_iff.1 hhead
    simp only [Bool.and_eq_true] at hmarker
    simp only [Leads.bind_eq, Leads.modify_eq, Leads.pure_eq]
    refine Leads.mono ((resumeAt_ledger f (h.unlinkMarker hrest hmarker.2)).and
      (resumeAt_control f)) fun _ m₁ ⟨h₁, hc₁⟩ => ⟨h₁, ?_⟩
    rw [topMarker?_control] at hf
    exact .resume hf hc₁
  · next htop =>
    rw [topMarker?_control] at htop
    split
    · next hsettle =>
      simp only [Leads.bind_eq, Leads.pure_eq]
      refine ((settlePending_ledger h).and settlePending_control).mono ?_
      rintro _ m₁ ⟨h₁, hc₁, hpending⟩
      have hpending' : m₁.control.pending ≠ none := hpending
      refine ⟨h₁, ?_⟩
      rw [hc₁] at hpending' ⊢
      exact .settle htop hsettle hpending'
    · next hsettle => exact leaveFrame_stepped a h htop hsettle

theorem clearException_control :
    Leads AnyFault clearException m fun _ m' => m'.control = m.control.relax := by
  simp only [clearException, Leads.bind_eq, Leads.get_eq, Leads.modify_eq]
  exact Leads.mono (release_control _) fun _ _ h => h

theorem takeException_stepped (a : Int64) (h : Ledger s l [] H m) :
    Leads (Excused s) (takeException a) m fun _ m' =>
      Stepped s l H m .takeException .same m' := by
  have hop : Opcode.takeException.isOrdinary := rfl
  simp only [takeException, Leads.bind_eq, Leads.get_eq]
  split
  · simp only [Leads.bind_eq]
    refine (setReg_immediate (v := .nil) h _ rfl).mono ?_
    rintro _ m₁ ⟨h₁, hk₁, _⟩
    exact setReg_stepped hop _ (h₁.hold (v := .nil) rfl) hk₁
  · next e he =>
    simp only [Leads.bind_eq, Leads.get_eq, Leads.modify_eq]
    refine (setReg_immediate (v := .cls e) h _ rfl).mono ?_
    rintro _ m₁ ⟨h₁, hk₁, _⟩
    have hc₁ := control_of_skeleton hk₁
    have he₁ : m₁.exception = some e := (congrArg Control.exception hc₁).trans he
    have hmessage : m₁.excMessage = m.excMessage := congrArg Control.excMessage hc₁
    have h₂ : Ledger s l [] (m.excMessage :: H) { m₁ with excMessage := .nil } := by
      refine h₁.reword ⟨_, _, _, _, _, _, rfl⟩ rfl h₁.balanced (fun hs => ?_) (fun _ _ => rfl)
        fun hs => (h₁.exact hs).proper.noPending
      refine (h₁.exact hs).counts.of_tally fun r => ?_
      rw [List.cons_append, tally_cons r m.excMessage, ← hmessage]
      simp only [tally_append, tally_roots, duties, tally_nil_value]
      omega
    refine Leads.mono (setReg_ledger h₂ _) ?_
    rintro _ m₃ ⟨h₃, hk₃, _⟩
    refine ((clearException_ledger h₃).and clearException_control).mono ?_
    rintro _ m₄ ⟨h₄, hc₄⟩
    refine ⟨h₄, ?_⟩
    have hc₃ : m₃.control = { m.control with excMessage := .nil } := by
      rw [control_of_skeleton hk₃, ← hc₁]
      rfl
    rw [hc₄, hc₃]
    refine .take fun hnone => ?_
    cases he.symm.trans hnone

/-! ### All instructions -/

theorem popMarkers_control (n : Int64) :
    Leads AnyFault (popMarkers n) m fun _ m' => m'.control = m.control.unmark n.toInt.toNat := by
  simp only [popMarkers, Leads.bind_eq, Leads.get_eq]
  refine (dropMarkers_control _).mono fun _ m₁ h₁ => ?_
  have hdrop : m.context.markers.drop (m.context.markers.take n.toInt.toNat).length =
      m.context.markers.drop n.toInt.toNat := by
    rw [List.length_take]
    rcases Nat.le_total n.toInt.toNat m.context.markers.length with hle | hle
    · rw [Nat.min_eq_left hle]
    · rw [Nat.min_eq_right hle, List.drop_length, List.drop_eq_nil_of_le hle]
  rw [h₁, hdrop]
  rfl

/-- A call of the method that a symbol of the code names. -/
theorem send_stepped (hop : op.isOrdinary) (a b argc : Int64) {m₁ : Machine}
    (h : Ledger s l [] H m₁) (hc : m₁.control = m.control) (i : Int64) :
    Leads (Excused s) (codeSymbol b) m₁ fun k m₂ =>
      Leads (Excused s) (reg i) m₂ fun v m₃ =>
        Leads (Excused s) (dispatch a k argc (m₃.classOf v)) m₃ fun p m' =>
          Stepped s l H m op p m' := by
  refine (codeSymbol_ledger b h).mono fun k m₂ ⟨h₂, hq₂, _⟩ => reg_leads fun v _ => ?_
  exact (dispatch_called a k argc _ h₂).mono fun _ _ h₃ =>
    .called hop h₃ ((control_of_skeleton hq₂.1).trans hc)

/-- In the end, an instruction that ends nothing keeps the books. -/
theorem Concludes.stepped {i : Inst} {m₁ : Machine} {fresh : Bool} {known : List Value}
    {x : Action Progress} (hx : Concludes i m fresh known x) (hop : i.op.isOrdinary)
    (h : Ledger s l [] H m₁) (hc : m₁.control = m.control)
    (hlive : ∀ v ∈ known, s → m₁.memory.Live v) (hfresh : fresh = true → m₁ = m) :
    Leads (Excused s) x m₁ fun p m' => Stepped s l H m i.op p m' := by
  cases hx with
  | done => exact .still hop h hc
  | setVariable k _ hobj hv =>
    rw [Leads.bind_eq]
    refine (setVariable_ledger h k (hlive _ hobj) (hlive _ hv)).mono fun _ m₂ ⟨h₂, hq₂⟩ => ?_
    exact .still hop h₂ ((control_of_skeleton hq₂.1).trans hc)
  | setConstant k hv =>
    rw [Leads.bind_eq]
    refine (setConstant_ledger h k (hlive _ hv)).mono fun _ m₂ ⟨h₂, hq₂⟩ => ?_
    exact .still hop h₂ ((control_of_skeleton hq₂.1).trans hc)
  | install c k _ _ =>
    simp only [Leads.bind_eq, Leads.discard_eq]
    exact (installCode?_ledger c k _ h).mono fun _ m₂ ⟨h₂, hc₂⟩ => .still hop h₂ (hc₂.trans hc)
  | goto hjump slot _ =>
    obtain rfl := hfresh rfl
    rw [Leads.bind_eq]
    exact setPc_stepped hjump _ h
  | enterBody _ _ slot _ _ _ =>
    obtain rfl := hfresh rfl
    rw [Leads.bind_eq]
    exact enterBody_stepped hop _ _ _ h
  | protect tag htag hprotect slot _ =>
    obtain rfl := hfresh rfl
    rw [Leads.bind_eq, hprotect]
    refine ((pushMarker_ledger tag htag _ h).and (pushMarker_control tag _)).mono ?_
    rintro _ m₂ ⟨h₂, hc₂⟩
    exact ⟨h₂, hc₂ ▸ .protect tag _ htag⟩
  | popMarkers hpop =>
    obtain rfl := hfresh rfl
    rw [Leads.bind_eq, hpop]
    refine ((popMarkers_ledger _ h).and (popMarkers_control _)).mono ?_
    rintro _ m₂ ⟨h₂, hc₂⟩
    exact ⟨h₂, hc₂ ▸ .unprotect _⟩
  | takeException htake _ =>
    obtain rfl := hfresh rfl
    rw [Leads.bind_eq, htake]
    exact takeException_stepped _ h
  | raise _ _ hv =>
    obtain rfl := hfresh rfl
    rw [Leads.bind_eq]
    exact raise_stepped hop _ h (hlive _ hv)
  | raiseText t _ _ =>
    rw [Leads.bind_eq]
    exact raiseText_stepped hop _ t h hc
  | send _ =>
    obtain rfl := hfresh rfl
    simp only [Leads.bind_eq, Leads.get_eq]
    refine (enterWindow_ledger h _ _).mono ?_
    rintro _ m₂ ⟨h₂, hq₂, _⟩
    refine (setReg_immediate (v := .nil) h₂ _ rfl).mono ?_
    rintro _ m₃ ⟨h₃, hk₃, _⟩
    exact send_stepped hop _ _ _ h₃ (control_of_skeleton (hk₃.trans hq₂.1)) _
  | sendBlock _ =>
    obtain rfl := hfresh rfl
    simp only [Leads.bind_eq, Leads.get_eq]
    exact send_stepped hop _ _ _ h rfl _
  | callSuper _ =>
    obtain rfl := hfresh rfl
    exact callSuper_stepped hop _ _ h
  | unknown number =>
    simp only [Leads.bind_eq, Leads.get_eq]
    exact currentCode_leads fun code _ => ⟨by simp, fun _ h => h, by simp⟩

/-- What is left of an instruction that ends nothing keeps the books. -/
theorem Composed.stepped {i : Inst} {m₁ : Machine} {fresh : Bool} {held known : List Value}
    {x : Action Progress} (hx : Composed i m fresh held known x) (hop : i.op.isOrdinary)
    (h : Ledger s l [] (held ++ H) m₁) (hc : m₁.control = m.control)
    (hlive : ∀ v ∈ known, s → m₁.memory.Live v) (hfresh : fresh = true → m₁ = m) :
    Leads (Excused s) x m₁ fun p m' => Stepped s l H m i.op p m' := by
  have hnone : ∀ {m₂ : Machine}, ∀ v ∈ ([] : List Value), s → m₂.memory.Live v := nofun
  have hold : ∀ {m₂ : Machine}, false = true → m₂ = m := nofun
  induction hx generalizing m₁ with
  | read hj _ ih =>
    rw [Leads.bind_eq]
    refine reg_leads fun v hv => ih v h hc ?_ hfresh
    exact List.forall_mem_cons.2 ⟨h.live_of_reg (mem_of_entryAt? hv), hlive⟩
  | self _ _ ih =>
    rw [Leads.bind_eq]
    exact self_leads fun v hv =>
      ih v h hc (List.forall_mem_cons.2 ⟨h.live_of_reg hv, hlive⟩) hfresh
  | consult _ _ ih => exact ih m₁ hfresh h hc hlive hfresh
  | outer _ _ _ ihnone ihsome =>
    obtain rfl := hfresh rfl
    rw [Leads.bind_eq]
    refine outerBase_leads _ fun up hup => ?_
    cases up with
    | none => exact ihnone h rfl hlive hfresh
    | some up => exact ihsome up hup h rfl hlive hfresh
  | name slot _ _ ih =>
    simp only [Leads.bind_eq]
    exact currentCode_leads fun code _ => present_leads fun t _ => ih t h hc hlive hfresh
  | symbol slot _ _ ih =>
    rw [Leads.bind_eq]
    refine (codeSymbol_ledger _ h).mono fun k m₂ ⟨h₂, hq₂, hm₂⟩ => ?_
    exact ih k h₂ ((control_of_skeleton hq₂.1).trans hc) (hm₂ ▸ hlive) hold
  | «variable» slot _ _ ih =>
    rw [Leads.bind_eq]
    refine (variableSymbol_ledger _ h).mono fun k m₂ ⟨h₂, hq₂, hm₂⟩ => ?_
    exact ih k h₂ ((control_of_skeleton hq₂.1).trans hc) (hm₂ ▸ hlive) hold
  | immediate v href _ _ ih => exact ih (h.hold href) hc hlive hfresh
  | target _ ih =>
    refine ih (h.hold ?_) hc hlive hfresh
    cases m.context.targetClass <;> rfl
  | share hv _ ih =>
    rw [Leads.bind_eq]
    refine (acquire_ledger h (hlive _ hv)).mono fun _ m₂ ⟨h₂, hq₂, _⟩ => ?_
    exact ih h₂ ((control_of_skeleton hq₂.1).trans hc) hnone hold
  | literal slot _ _ ih =>
    simp only [Leads.bind_eq]
    refine currentCode_leads fun code _ => present_leads fun x _ => ?_
    refine (literalValue_ledger x h).mono fun v m₂ ⟨h₂, hq₂⟩ => ?_
    exact ih v h₂ ((control_of_skeleton hq₂.1).trans hc) hnone hold
  | block _ _ slot _ _ ih =>
    simp only [Leads.bind_eq]
    refine currentCode_leads fun code _ => present_leads fun child _ => ?_
    refine (newProc_ledger h child).mono fun v m₂ ⟨h₂, hq₂⟩ => ?_
    exact ih v h₂ ((control_of_skeleton hq₂.1).trans hc) hnone hold
  | getVariable k hobj _ ih =>
    rw [Leads.bind_eq]
    refine (getVariable_ledger h k (hlive _ hobj)).mono fun v m₂ ⟨h₂, hq₂⟩ => ?_
    exact ih v h₂ ((control_of_skeleton hq₂.1).trans hc) hnone hold
  | getConstant k _ ih =>
    rw [Leads.bind_eq]
    refine (getConstant_ledger h k).mono fun v m₂ ⟨h₂, hq₂⟩ => ?_
    exact ih v h₂ ((control_of_skeleton hq₂.1).trans hc) hnone hold
  | defineClass name _ _ _ _ ih =>
    rw [Leads.bind_eq]
    refine (defineClass_ledger name _ h).mono fun k m₂ ⟨h₂, hc₂⟩ => ?_
    exact ih k (h₂.hold rfl) (hc₂.trans hc) hnone hold
  | store _ _ _ ih =>
    rw [Leads.bind_eq]
    refine (setReg_ledger h _).mono fun _ m₂ ⟨h₂, hk₂, _⟩ => ?_
    exact ih h₂ ((control_of_skeleton hk₂).trans hc) hnone hold
  | last hlast => exact hlast.stepped hop h hc hlive hfresh

theorem step_stepped (i : Inst) (h : Ledger s l [] H m) :
    Leads (Excused s) (step i) m fun p m' => Stepped s l H m i.op p m' := by
  cases hop : i.op.isOrdinary with
  | true =>
    obtain ⟨x, hx, hstep⟩ := step_composed m hop
    rw [Leads, hstep m rfl]
    exact hx.stepped hop h rfl (List.forall_mem_nil _) fun _ => rfl
  | false =>
    rcases step_over hop with ⟨hleave, hstep⟩ | ⟨hhalt, hstep⟩
    · rw [Leads, hstep, hleave]
      exact leave_stepped i.a h
    · rw [Leads, hstep]
      exact ⟨h.hold rfl, .halt hhalt⟩

end Machine

end ObjectMachine
