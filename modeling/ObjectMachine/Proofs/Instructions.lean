import ObjectMachine.Proofs.Strides
import ObjectMachine.Proofs.Passes

/-! What one instruction does outside control. It stores into the registers it names, a call
clears registers above its receiver and a return those of its window, a block is made of the
running code, and a method of a closure. -/

namespace ObjectMachine

/-- Where the window of a call begins. Other instructions call nothing. -/
def Inst.landing (i : Inst) (r : Int64) : Int64 :=
  match i.op with
  | .send | .sendBlock | .callSuper | .runBody => r + i.a
  | _ => -1

namespace Machine

/-- The closure that a block of the running code becomes. One made inside another has its
self. -/
def closureOver (m : Machine) (code : Code) : Closure :=
  (code, m.chain.head?, match (entryAt? m.regs m.context.base).bind m.proc? with
    | some (_, _, selfFrame) => selfFrame
    | none => m.chain.head?)

end Machine

def Inst.permit (i : Inst) (m : Machine) : Permit where
  stores := Machine.FillsRegister i m
  clears j := i.argc? ≠ none ∧ (m.context.base + i.a).toInt < j.toInt ∨
    i.op = .leave ∧ (m.context.base.toInt ≤ j.toInt ∨ j = m.context.base + i.a)
  makes p := i.op = .makeBlock ∧ ∃ x child, m.context.code = some x ∧ x.child? i.b = some child ∧
    p = m.closureOver child
  installs c := i.op = .defineMethod ∧ ∃ r f g, m.memory.closure? r = some (c, f, g)

namespace Machine

variable {P : Permit} {m m₁ m' : Machine} {v : Value} {i : Inst}

theorem permit_inert (hblock : i.op ≠ .makeBlock) (hmethod : i.op ≠ .defineMethod) :
    (i.permit m).Inert :=
  ⟨fun _ h => hblock h.1, fun _ h => hmethod h.1, id⟩

def Acts (i : Inst) (m : Machine) : Progress → Machine → Prop
  | .same, m' => Strides (i.permit m) (i.landing m.context.base) m m'
  | .entered, m' => ∃ argc id callee made, i.argc? = some argc ∧
      Constructs (i.permit m) ⟨m.context.base + i.a, argc⟩ id callee made m m'
  | .finished _, m' => Works (i.permit m) m m'

/-! ### Parts of instructions -/

theorem codeSymbol_tame (i : Int64) : Tame P (codeSymbol i) :=
  currentCode_tame.bind fun _ => Tame.bind (fun _ => Works.report) fun _ => present_tame _

theorem variableSymbol_tame (i : Int64) : Tame P (variableSymbol i) :=
  currentCode_tame.bind fun _ => (present_tame _).bind fun _ => (intern_clerical _).tame

theorem literalValue_tame (x : Literal) : Tame P (literalValue x) := by
  rcases literalValue_cases x with ⟨v, -, -, hx⟩ | hx <;> rw [hx]
  · exact .of_pure v
  · exact newString_tame x.text

theorem allocate?_closure (size : Int64) (p : Closure) (h : P.makes p) :
    Leads AnyFault (allocate? size (.proc p.1 p.2.1 p.2.2)) m fun place m' => Works P m m' ∧
      ∀ r, place = some r → m'.memory.closure? r = some p := by
  have hworks : Tame P (allocate? size (.proc p.1 p.2.1 p.2.2)) :=
    allocate?_tame size fun q hq => by
      cases hq
      exact h
  have hplace : Leads AnyFault (allocate? size (.proc p.1 p.2.1 p.2.2)) m fun place m' =>
      ∀ r, place = some r → m'.memory.closure? r = some p := by
    simp only [allocate?, Leads.modifyGet_eq]
    cases ha : m.memory.allocate? size (.proc p.1 p.2.1 p.2.2) with
    | none => simp
    | some q =>
      obtain ⟨pool, -, rfl⟩ := Option.map_eq_some_iff.1 ha
      rintro _ ⟨⟩
      rw [closure?_push, if_pos rfl]
      rfl
  exact (hworks m).and hplace

/-- A block becomes a closure, if there is memory for it. -/
theorem newProc_works {code : Code} (h : P.makes (m.closureOver code)) :
    Leads AnyFault (newProc code) m fun v m' => Works P m m' ∧
      (v = .nil ∨ ∃ r, v = .proc r ∧ m'.memory.closure? r = some (m.closureOver code)) := by
  simp only [newProc, Leads.bind_eq, Leads.get_eq]
  refine (reg_leads fun u hu => ?_).forget
  have hmake := allocate?_closure (m := m) procBytes (m.closureOver code) h
  simp only [closureOver, hu, Option.bind_some] at hmake ⊢
  refine hmake.mono ?_
  rintro place m₁ ⟨h₁, hr⟩
  cases place with
  | none => exact ⟨h₁, .inl rfl⟩
  | some r => exact ⟨h₁, .inr ⟨r, rfl, hr r rfl⟩⟩

theorem callSuper_responds (a argc : Int64) (hP : P.Inert)
    (hcall : (Permit.call (m.context.base + a)).Within P)
    (hblock : P.stores (m.context.base + a + argc + 1))
    (hprobe : ∀ id p, (m.methodAt id).native? ≠ some (.probe p)) :
    Leads AnyFault (callSuper a argc) m fun p m' =>
      Responds P ⟨m.context.base + a, argc⟩ m p m' ∧ (0 ≤ (m.context.base + a).toInt ∧
        (m.context.base + a + (argc + 2)).toInt ≤ m'.regHigh.toInt ∨ m'.regs = m.regs) := by
  simp only [callSuper, Leads.bind_eq, Leads.get_eq]
  split
  · simp only [Leads.bind_eq, Leads.get_eq]
    refine (self_leads fun receiver _ => ?_).forget
    refine (acquire_tame (P := P) receiver m).mono fun _ m₁ h₁ => ?_
    rw [h₁.names]
    refine (setReg_tame (hcall.stores _ rfl) m₁).mono fun _ m₂ h₂ => ?_
    refine (((enterWindow_clerical _ _).tame (P := P) m₂).and (enterWindow_leads _ _)).mono ?_
    rintro _ m₃ ⟨h₃, hnonneg, -, htop⟩
    refine (setReg_tame hblock m₃).mono fun _ m₄ h₄ => ?_
    have h : Works P m m₄ := h₁.trans (h₂.trans (h₃.trans h₄))
    split
    · simp only [nameOf, Leads.bind_eq, Leads.get_eq, Leads.pure_eq]
      refine (raiseText_striding (b := m.context.base + a) hP _ _ m₄).mono fun _ m₅ h₅ =>
        ⟨h₅.after h hP, .inl ⟨hnonneg, ?_⟩⟩
      have hhigh := (h₄.toAlters.trans h₅.alters).high
      exact Int.le_trans htop (hhigh.resolve_left hP.trims)
    · refine (dispatch_responds a _ argc _ (h.noProbe hprobe)).mono fun p m₅ h₅ => ?_
      rw [h.names] at h₅
      exact ⟨(h₅.1.mono hcall).after h hP, .inl h₅.2⟩
  · simp only [Leads.bind_eq, Leads.pure_eq]
    refine (raiseText_striding (b := m.context.base + a) Permit.nothing_inert _ _ m).mono fun _ m₁ h₁ => ?_
    exact ⟨Strides.mono h₁ (Permit.nothing_within P), .inr (h₁.alters.regs_eq (fun _ h => h) fun _ h => h)⟩

theorem enterBody_strides (a : Int64) (c : ClassId) (child : Int64) :
    Leads AnyFault (enterBody a c child) m fun _ m' => Strides P (m.context.base + a) m m' := by
  simp only [enterBody, modifyContext, Leads.bind_eq, Leads.get_eq, Leads.modify_eq]
  refine (pushFrame_pushed 0 a 0).mono ?_
  rintro _ m₁ ⟨rfl, h₁⟩
  refine (h₁.modify rfl).mono fun _ m₂ h₂ => ?_
  refine (currentCode_leads fun x hx => (present_leads fun code hcode => ?_).forget).forget
  rw [h₂.context] at hx
  exact h₂.enterCode rfl (.inr (.inr ⟨x, child, hx, hcode⟩)) _

/-! ### Returns and exceptions -/

theorem leaveFrame_acts {b : Int64} (a : Int64) (hP : P.Inert) (hresult : P.clears (m.context.base + a))
    (hwindow : ∀ j, m.context.base.toInt ≤ j.toInt → P.clears j) (hstore : P.stores m.context.base) :
    Leads AnyFault (leaveFrame a) m fun p m' =>
      match p with
      | .same => Strides P b m m'
      | .entered => False
      | .finished _ => Works P m m' := by
  simp only [leaveFrame, Leads.bind_eq, Leads.get_eq]
  refine (exchangeReg_tame (v := .empty) (P := P) fun _ => .inr ⟨hresult, rfl⟩) m |>.mono ?_
  intro result m₁ h₁
  split
  · exact h₁
  · simp only [Leads.bind_eq, Leads.pure_eq]
    refine (currentSize_leads fun size => ?_).forget
    have hstart : 0 ≤ (m.context.base + 1).toInt →
        m.context.base.toInt ≤ (m.context.base + 1).toInt := by
      intro hnext
      rcases Int.lt_or_le m.context.base.toInt 0 with hneg | hnonneg
      · omega
      · have hsucc := toInt_succ hnonneg hnext
        omega
    have hclear := (clearRegs_tame (m.context.base + 1)
      (span (m.context.base + 1) (m.context.base + size)) hstart).mono
      (Q := P) { clears := fun j hj => hwindow j hj }
    refine (hclear m₁).mono fun _ m₂ h₂ => ?_
    refine (setReg_tame hstore m₂).mono fun _ m₃ h₃ => ?_
    refine ((popFrame_steers (l := [])).and popFrame_control).mono ?_
    rintro _ m₄ ⟨⟨h₄, -⟩, f, rest, -, hc₄⟩
    have hsize : m₄.frames.size = m₃.frames.size := by
      apply size_of_control
      rw [hc₄]
      exact Control.pop_samePass.frames
    exact (h₄.strides hsize).after (h₁.trans (h₂.trans h₃)) hP

theorem leave_acts {b : Int64} (a : Int64) (hP : P.Inert) (hresult : P.clears (m.context.base + a))
    (hwindow : ∀ j, m.context.base.toInt ≤ j.toInt → P.clears j) (hstore : P.stores m.context.base) :
    Leads AnyFault (leave a) m fun p m' =>
      match p with
      | .same => Strides P b m m'
      | .entered => False
      | .finished _ => Works P m m' := by
  simp only [leave, Leads.bind_eq, Leads.get_eq]
  split
  · next f hf =>
    obtain ⟨hhead, -⟩ := Option.filter_eq_some_iff.1 hf
    obtain ⟨rest, hrest⟩ := List.head?_eq_some_iff.1 hhead
    simp only [Leads.bind_eq, Leads.modify_eq, Leads.pure_eq, hrest, List.tail_cons]
    refine ((resumeAt_steers (l := []) f).and (resumeAt_control f)).mono ?_
    rintro _ m₁ ⟨h₁, hc₁⟩
    exact ((Steers.takeTop hrest).trans h₁).strides
      (size_of_control (Control.resume_samePass hc₁).frames)
  · split
    · simp only [Leads.bind_eq, Leads.pure_eq]
      refine ((settlePending_steers (l := [])).and settlePending_control).mono ?_
      rintro _ m₁ ⟨h₁, hc₁, -⟩
      refine h₁.strides (size_of_control ?_)
      rw [hc₁]
      rfl
    · exact leaveFrame_acts a hP hresult hwindow hstore

theorem takeException_strides {b : Int64} (a : Int64) (hfirst : P.stores (m.context.base + a))
    (hsecond : P.stores (m.context.base + a + 1)) :
    Leads AnyFault (takeException a) m fun _ m' => Strides P b m m' := by
  simp only [takeException, Leads.bind_eq, Leads.get_eq]
  split
  · simp only [Leads.bind_eq]
    refine (setReg_tame hfirst m).mono fun _ m₁ h₁ => ?_
    exact (setReg_tame hsecond m₁).mono fun _ m₂ h₂ => (h₁.trans h₂).strides
  · simp only [Leads.bind_eq, Leads.get_eq, Leads.modify_eq]
    refine (setReg_tame hfirst m).mono fun _ m₁ h₁ => ?_
    refine Leads.mono (setReg_tame hsecond _) fun _ m₂ h₂ => ?_
    have hmiddle : Steers [] [] m₁ { m₁ with excMessage := .nil } := .turn rfl rfl (.refl _)
    refine ((clearException_steers (l := [])).and clearException_control).mono ?_
    rintro _ m₃ ⟨h₃, hc₃⟩
    have hnothing := Permit.nothing_within P
    have hsize : m₃.frames.size = m.frames.size := by
      have hlast : m₃.frames.size = m₂.frames.size := size_of_control (by rw [hc₃]; rfl)
      have hframes : m₂.frames = m₁.frames := congrArg (·.frames) h₂.core
      rw [hlast, hframes, frames_of_core h₁.core]
    refine ⟨?_, ?_, ?_, ?_, fun f hle hlt => absurd (hsize ▸ hlt) (Nat.not_lt.2 hle)⟩
    · exact h₁.toAlters.trans ((hmiddle.alters.mono hnothing).trans
        (h₂.toAlters.trans (h₃.alters.mono hnothing)))
    · exact (Lasting.of_core h₁.core).trans (hmiddle.lasting.trans
        ((Lasting.of_core h₂.core).trans h₃.lasting))
    · rw [h₃.callBase, h₂.names, h₁.names]
    · rw [h₃.callee, h₂.names, h₁.names]

theorem setPc_strides {b : Int64} (pc : Int64) :
    Leads AnyFault (setPc pc) m fun _ m' => Strides P b m m' := by
  have hturn : Steers [] [] m { m with context := { m.context with pc } } := .turn rfl rfl (.refl _)
  exact hturn.strides rfl

theorem pushMarker_strides {b : Int64} {tag : FrameTag} (htag : tag ≠ .call) (pc : Int64) :
    Leads AnyFault (pushMarker tag pc) m fun _ m' => Strides P b m m' := by
  refine ((pushMarker_steers (l := []) tag pc).and (pushMarker_control tag pc)).mono ?_
  rintro _ m₁ ⟨h₁, hc₁⟩
  refine ⟨h₁.alters.mono (Permit.nothing_within P), h₁.lasting, h₁.callBase, h₁.callee,
    fun f hle hlt => .inl ?_⟩
  have hsize : f = m.control.frames.size := by
    have hframes := congrArg (·.frames.size) hc₁
    simp only [Control.mark, Machine.control, Array.size_map, Array.size_push] at hframes ⊢
    omega
  rw [← isMarker_control, hc₁, hsize, Control.frameAt_push_size _ rfl]
  exact bne_iff_ne.2 htag

/-! ### All instructions -/

theorem permit_stores {j : Int64} (h : j ∈ i.targets m.context.base) : (i.permit m).stores j := .inl h

/-- A call of the method that a symbol of the code names. -/
theorem send_responds (a b argc : Int64) (hP : P.Inert)
    (hcall : (Permit.call (m.context.base + a)).Within P) (h : Works P m m₁)
    (hprobe : ∀ id p, (m.methodAt id).native? ≠ some (.probe p)) :
    Leads AnyFault (codeSymbol b) m₁ fun k m₂ =>
      Leads AnyFault (reg (m.context.base + a)) m₂ fun v m₃ =>
        Leads AnyFault (dispatch a k argc (m₃.classOf v)) m₃ fun p m' =>
          Responds P ⟨m.context.base + a, argc⟩ m p m' ∧ 0 ≤ (m.context.base + a).toInt ∧
          (m.context.base + a + (argc + 2)).toInt ≤ m'.regHigh.toInt := by
  refine (codeSymbol_tame (P := P) b m₁).mono fun k m₂ h₂ => (reg_leads fun v _ => ?_).forget
  have hworks := h.trans h₂
  refine (dispatch_responds a k argc _ (hworks.noProbe hprobe)).mono fun p m₃ h₃ => ?_
  rw [hworks.names] at h₃
  exact ⟨(h₃.1.mono hcall).after hworks hP, h₃.2⟩

theorem Responds.acts {p : Progress} {argc : Int64} (hargc : i.argc? = some argc)
    (h : Responds (i.permit m) ⟨m.context.base + i.a, argc⟩ m p m') : Acts i m p m' := by
  cases p with
  | same =>
    have hlanding : i.landing m.context.base = m.context.base + i.a := by
      unfold Inst.argc? at hargc
      unfold Inst.landing
      split at hargc <;> first | (cases hargc; done) | simp only [*]
    rw [← hlanding] at h
    exact h
  | entered =>
    obtain ⟨id, callee, made, h⟩ := h
    exact ⟨argc, id, callee, made, hargc, h⟩
  | finished v => exact h.elim

/-- A call is permitted to instructions that pass arguments, and they make nothing. -/
theorem permit_call {argc : Int64} (hargc : i.argc? = some argc) :
    (i.permit m).Inert ∧ (Permit.call (m.context.base + i.a)).Within (i.permit m) := by
  have hop : i.op = .send ∨ i.op = .sendBlock ∨ i.op = .callSuper := by
    unfold Inst.argc? at hargc
    split at hargc <;> first | (cases hargc; done) | simp [*]
  have htarget : m.context.base + i.a ∈ i.targets m.context.base := by
    rcases hop with hop | hop | hop <;> simp [Inst.targets, hop]
  refine ⟨permit_inert ?_ ?_, { stores := ?_, clears := fun _ hj => .inl ⟨by simp [hargc], hj⟩ }⟩
  · rcases hop with hop | hop | hop <;> simp [hop]
  · rcases hop with hop | hop | hop <;> simp [hop]
  · rintro _ rfl
    exact permit_stores htarget

/-- In the end, an instruction acts as it is permitted to. -/
theorem Concludes.acts {fresh : Bool} {known : List Value} {x : Action Progress}
    (hx : Concludes i m fresh known x)
    (hprobe : ∀ id p, (m.methodAt id).native? ≠ some (.probe p)) (h : Works (i.permit m) m m₁)
    (hfresh : fresh = true → m₁ = m) : Leads AnyFault x m₁ fun p m' => Acts i m p m' := by
  cases hx with
  | done => exact h.strides
  | setVariable s _ _ _ =>
    rw [Leads.bind_eq]
    exact (setVariable_tame _ s _ m₁).mono fun _ _ h₂ => (h.trans h₂).strides
  | setConstant s _ =>
    rw [Leads.bind_eq]
    exact (setConstant_tame s _ m₁).mono fun _ _ h₂ => (h.trans h₂).strides
  | install c s hop hbody =>
    obtain ⟨r, -, hr⟩ := proc?_eq_some hbody
    simp only [Leads.bind_eq, Leads.discard_eq]
    have hinstalls : (i.permit m).installs _ := ⟨hop, r, _, _, hr⟩
    exact ((installCode?_clerical c s hinstalls).tame m₁).mono fun _ _ h₂ => (h.trans h₂).strides
  | goto _ _ _ =>
    obtain rfl := hfresh rfl
    rw [Leads.bind_eq]
    exact setPc_strides _
  | enterBody hop _ _ _ _ _ =>
    obtain rfl := hfresh rfl
    have hlanding : i.landing m₁.context.base = m₁.context.base + i.a := by
      simp only [Inst.landing, hop]
    rw [Leads.bind_eq]
    refine (enterBody_strides (P := i.permit m₁) i.a _ _).mono fun _ _ h₂ => ?_
    rw [← hlanding] at h₂
    exact h₂
  | protect tag htag _ _ _ =>
    obtain rfl := hfresh rfl
    rw [Leads.bind_eq]
    exact pushMarker_strides htag _
  | popMarkers _ =>
    obtain rfl := hfresh rfl
    rw [Leads.bind_eq]
    refine ((popMarkers_steers (l := []) _).and (popMarkers_control _)).mono ?_
    rintro _ m₂ ⟨h₂, hc₂⟩
    refine h₂.strides (size_of_control ?_)
    rw [hc₂]
    rfl
  | takeException hop _ =>
    obtain rfl := hfresh rfl
    rw [Leads.bind_eq]
    exact takeException_strides i.a (.inl (by simp [Inst.targets, hop]))
      (.inl (by simp [Inst.targets, hop]))
  | raise _ _ _ =>
    obtain rfl := hfresh rfl
    rw [Leads.bind_eq]
    exact raise_striding _ _ m₁
  | raiseText t _ hquiet =>
    rw [Leads.bind_eq]
    rcases hquiet with hquiet | hop
    · obtain rfl := hfresh hquiet
      exact (raiseText_striding Permit.nothing_inert _ t m₁).mono fun _ _ h₂ =>
        h₂.mono (Permit.nothing_within _)
    · have hP : (i.permit m).Inert := permit_inert (by simp [hop]) (by simp [hop])
      exact (raiseText_striding hP _ t m₁).mono fun _ _ h₂ => h₂.after h hP
  | send hop =>
    obtain rfl := hfresh rfl
    have hargc : i.argc? = some i.c := by simp only [Inst.argc?, hop]
    obtain ⟨hP, hcall⟩ := permit_call (m := m₁) hargc
    have hblock : (i.permit m₁).stores (m₁.context.base + i.a + i.c + 1) :=
      permit_stores (by simp [Inst.targets, hop])
    simp only [Leads.bind_eq, Leads.get_eq]
    refine ((enterWindow_clerical _ _).tame (P := i.permit m₁) m₁).mono fun _ m₂ h₂ => ?_
    refine (setReg_tame hblock m₂).mono fun _ m₃ h₃ => ?_
    exact (send_responds i.a i.b i.c hP hcall (h₂.trans h₃) hprobe).mono fun _ _ h₄ =>
      h₄.mono fun _ _ h₅ => h₅.mono fun _ _ h₆ => h₆.1.acts hargc
  | sendBlock hop =>
    obtain rfl := hfresh rfl
    have hargc : i.argc? = some i.c := by simp only [Inst.argc?, hop]
    obtain ⟨hP, hcall⟩ := permit_call (m := m₁) hargc
    simp only [Leads.bind_eq, Leads.get_eq]
    exact (send_responds i.a i.b i.c hP hcall (.refl m₁) hprobe).mono fun _ _ h₂ =>
      h₂.mono fun _ _ h₃ => h₃.mono fun _ _ h₄ => h₄.1.acts hargc
  | callSuper hop =>
    obtain rfl := hfresh rfl
    have hargc : i.argc? = some i.b := by simp only [Inst.argc?, hop]
    obtain ⟨hP, hcall⟩ := permit_call (m := m₁) hargc
    have hblock : (i.permit m₁).stores (m₁.context.base + i.a + i.b + 1) :=
      permit_stores (by simp [Inst.targets, hop])
    exact (callSuper_responds i.a i.b hP hcall hblock hprobe).mono fun _ _ h₂ => h₂.1.acts hargc
  | unknown number =>
    simp only [Leads.bind_eq, Leads.get_eq]
    exact (currentCode_leads fun _ _ => trivial).forget

/-- What is left of an instruction that ends nothing acts as the instruction is permitted to. -/
theorem Composed.acts {fresh : Bool} {held known : List Value} {x : Action Progress}
    (hx : Composed i m fresh held known x)
    (hprobe : ∀ id p, (m.methodAt id).native? ≠ some (.probe p)) (h : Works (i.permit m) m m₁)
    (hfresh : fresh = true → m₁ = m) : Leads AnyFault x m₁ fun p m' => Acts i m p m' := by
  have hold : ∀ {m₂ : Machine}, false = true → m₂ = m := nofun
  induction hx generalizing m₁ with
  | read _ _ ih =>
    rw [Leads.bind_eq]
    exact (reg_leads fun v _ => ih v h hfresh).forget
  | self _ _ ih =>
    rw [Leads.bind_eq]
    exact (self_leads fun v _ => ih v h hfresh).forget
  | consult _ _ ih => exact ih m₁ hfresh h hfresh
  | outer _ _ _ ihnone ihsome =>
    obtain rfl := hfresh rfl
    rw [Leads.bind_eq]
    refine (outerBase_leads _ fun up hup => ?_).forget
    cases up with
    | none => exact ihnone h hfresh
    | some up => exact ihsome up hup h hfresh
  | name _ _ _ ih =>
    simp only [Leads.bind_eq]
    exact (currentCode_leads fun _ _ => (present_leads fun t _ => ih t h hfresh).forget).forget
  | symbol _ _ _ ih =>
    rw [Leads.bind_eq]
    exact (codeSymbol_tame _ m₁).mono fun k _ h₂ => ih k (h.trans h₂) hold
  | «variable» _ _ _ ih =>
    rw [Leads.bind_eq]
    exact (variableSymbol_tame _ m₁).mono fun k _ h₂ => ih k (h.trans h₂) hold
  | immediate _ _ _ _ ih | target _ ih => exact ih h hfresh
  | share _ _ ih =>
    rw [Leads.bind_eq]
    exact (acquire_tame _ m₁).mono fun _ _ h₂ => ih (h.trans h₂) hold
  | literal _ _ _ ih =>
    simp only [Leads.bind_eq]
    refine (currentCode_leads fun _ _ => (present_leads fun x _ => ?_).forget).forget
    exact (literalValue_tame x m₁).mono fun v _ h₂ => ih v (h.trans h₂) hold
  | block hop _ _ _ _ ih =>
    obtain rfl := hfresh rfl
    simp only [Leads.bind_eq]
    refine (currentCode_leads fun code hc => (present_leads fun child hchild => ?_).forget).forget
    have hmakes : (i.permit m₁).makes (m₁.closureOver child) := ⟨hop, code, child, hc, hchild, rfl⟩
    exact (newProc_works hmakes).mono fun v _ h₂ => ih v (h.trans h₂.1) hold
  | getVariable s _ _ ih =>
    rw [Leads.bind_eq]
    exact (getVariable_tame _ s m₁).mono fun v _ h₂ => ih v (h.trans h₂) hold
  | getConstant s _ ih =>
    rw [Leads.bind_eq]
    exact (getConstant_tame s m₁).mono fun v _ h₂ => ih v (h.trans h₂) hold
  | defineClass name _ _ _ _ ih =>
    rw [Leads.bind_eq]
    exact (defineClass_tame name _ m₁).mono fun c _ h₂ => ih c (h.trans h₂) hold
  | store _ hfills _ ih =>
    rw [Leads.bind_eq]
    exact (setReg_tame hfills m₁).mono fun _ _ h₂ => ih (h.trans h₂) hold
  | last hlast => exact hlast.acts hprobe h hfresh

/-- An instruction acts as it is permitted to. -/
theorem step_acts (i : Inst) (hprobe : ∀ id p, (m.methodAt id).native? ≠ some (.probe p)) :
    Leads AnyFault (step i) m fun p m' => Acts i m p m' := by
  cases hop : i.op.isOrdinary with
  | true =>
    obtain ⟨x, hx, hstep⟩ := step_composed m hop
    rw [Leads, hstep m rfl]
    exact hx.acts hprobe (.refl m) fun _ => rfl
  | false =>
    rcases step_over hop with ⟨hleave, hstep⟩ | ⟨-, hstep⟩
    · have hP : (i.permit m).Inert := permit_inert (by simp [hleave]) (by simp [hleave])
      have hresult : (i.permit m).clears (m.context.base + i.a) := .inr ⟨hleave, .inr rfl⟩
      have hstore : (i.permit m).stores m.context.base :=
        permit_stores (by simp [Inst.targets, hleave])
      rw [Leads, hstep]
      refine (leave_acts (b := i.landing m.context.base) i.a hP hresult
        (fun j hj => .inr ⟨hleave, .inl hj⟩) hstore).mono fun p m' h => ?_
      cases p with
      | same => exact h
      | entered => exact h.elim
      | finished v => exact h
    · rw [Leads, hstep]
      exact Works.refl m

/-- Arguments are in the register file, and below the mark. -/
theorem step_reaches (i : Inst) {argc : Int64} (hargc : i.argc? = some argc)
    (hprobe : ∀ id p, (m.methodAt id).native? ≠ some (.probe p)) :
    Leads AnyFault (step i) m fun _ m' => 0 ≤ (m.context.base + i.a).toInt ∧
      (m.context.base + i.a + (argc + 2)).toInt ≤ m'.regHigh.toInt ∨ m'.regs = m.regs := by
  obtain ⟨op, a, b, c⟩ := i
  let all : Permit := { Permit.nothing with stores := fun _ => True, clears := fun _ => True }
  have hP : all.Inert := ⟨fun _ h => h, fun _ h => h, id⟩
  have hcall : (Permit.call (m.context.base + a)).Within all :=
    { stores := fun _ _ => trivial, clears := fun _ _ => trivial }
  cases op <;> first | (cases hargc; done) | skip
  case send =>
    cases hargc
    simp only [step, Leads.bind_eq, Leads.get_eq]
    refine ((enterWindow_clerical _ _).tame (P := all) m).mono fun _ m₁ h₁ => ?_
    refine (setReg_tame (P := all) trivial m₁).mono fun _ m₂ h₂ => ?_
    exact (send_responds a b c hP hcall (h₁.trans h₂) hprobe).mono fun _ _ h₃ => h₃.mono fun _ _ h₄ =>
      h₄.mono fun _ _ h₅ => .inl h₅.2
  case sendBlock =>
    cases hargc
    simp only [step, Leads.bind_eq, Leads.get_eq]
    exact (send_responds a b c hP hcall (.refl m) hprobe).mono fun _ _ h₃ => h₃.mono fun _ _ h₄ =>
      h₄.mono fun _ _ h₅ => .inl h₅.2
  case callSuper =>
    cases hargc
    simp only [step, Leads.bind_eq, Leads.get_eq]
    exact (callSuper_responds a b hP hcall trivial hprobe).mono fun _ _ h₁ => h₁.2

end Machine

end ObjectMachine
