import ObjectMachine.Proofs.Confinement
import ObjectMachine.Proofs.Making

/-! Instructions and ticks of sturdy code on a fitting machine. Two kinds of instructions ask
for more than their operands: a return that hands on an exception needs one, and an outer
variable must not lie above the window of the running code. -/

namespace ObjectMachine

/-! ### Operands -/

theorem Inst.Sturdy.operand {b : Block} {i : Inst} (h : i.Sturdy b) (slot : Nat)
    {kind : OperandKind} {value : Int64} (hk : i.operands[slot]? = some (kind, value)) :
    b.Admits (if slot = 0 then i.op.registerSpan.toInt else 1) value kind := by
  have hmem : ((kind, value), slot) ∈ i.operands.zipIdx := List.mem_zipIdx_iff_getElem?.2 hk
  exact h.operands _ hmem

/-- An operand that refers to something. -/
theorem Inst.Sturdy.admits {b : Block} {i : Inst} (h : i.Sturdy b) {slot : Nat}
    {kind : OperandKind} {value : Int64} (hk : i.operands[slot]? = some (kind, value)) :
    b.Admits 1 value kind := by
  have hspan : 1 ≤ i.op.registerSpan.toInt := by
    unfold Opcode.registerSpan
    split <;> decide
  have hwide := h.operand slot hk
  cases kind <;> simp only [Block.Admits] at hwide ⊢ <;> first | assumption | skip
  split at hwide <;> omega

theorem Place.reg {size : Nat} {base pc n : Int64} {c : Code} (h : Place size base (some c) pc)
    (hsize : (size : Int) ≤ 2 ^ 62) (hn : 0 ≤ n.toInt) (hlt : n.toInt < c.block.registers.toInt) :
    InFile size (base + n) := by
  obtain ⟨c', hc, -, htop⟩ := h.sturdy
  cases hc
  have hbase := h.base_nonneg
  have hsum : (base + n).toInt = base.toInt + n.toInt := toInt_add (by omega) (by omega)
  exact ⟨by omega, by omega⟩

namespace Machine

variable {size : Nat} {m m₁ m' : Machine} {v : Value} {code : Code}

/-- What an instruction has led to. A result that ends a pass is in hand. -/
def Went (size : Nat) (m : Machine) (p : Progress) (m' : Machine) : Prop :=
  Moved size m m' ∧ ∀ v, p = .finished v → v.Within m'.memory.heap.size

theorem Moved.went (h : Moved size m m') : Went size m .same m' := ⟨h, nofun⟩

theorem Still.went (h : Still size m m') : Went size m .same m' := h.moved.went

/-! ### Parts of instructions -/

theorem currentCode_contained {Q : Code → Machine → Prop} (hc : m.context.code = some code)
    (hQ : Q code m) : Leads Contained currentCode m Q := by
  simp only [currentCode, present, Leads.bind_eq, Leads.get_eq, hc]
  exact hQ

theorem present_contained {α : Type} {xs : Array α} {i : Int64} {Q : α → Machine → Prop}
    (hi : 0 ≤ i.toInt) (hlt : i.toInt < xs.size) (hQ : ∀ a ∈ xs, Q a m) :
    Leads Contained (present (entryAt? xs i)) m Q := by
  obtain ⟨a, ha⟩ := entryAt?_isSome hi hlt
  rw [ha]
  exact hQ a (mem_of_entryAt? ha)

theorem length_internAll (t : SymbolTable) (names : List Text) :
    (t.internAll names).2.length = names.length := by
  induction names generalizing t with
  | nil => rfl
  | cons name names ih => exact congrArg (· + 1) (ih _)

theorem codeSymbol_still {i : Int64} (h : m.Fit size) (hc : m.context.code = some code)
    (hi : code.block.Admits 1 i .symbol) :
    Leads Contained (codeSymbol i) m fun _ m' => Still size m m' := by
  simp only [codeSymbol, Leads.bind_eq]
  refine currentCode_contained hc ?_
  simp only [Leads.modifyGet_eq]
  refine present_contained hi.1 ?_ fun _ _ => h.report
  rw [List.size_toArray, length_internAll, Array.length_toList]
  exact hi.2

theorem variableSymbol_still {i : Int64} (h : m.Fit size) (hc : m.context.code = some code)
    (hi : code.block.Admits 1 i .symbol) :
    Leads Contained (variableSymbol i) m fun _ m' => Still size m m' := by
  simp only [variableSymbol, Leads.bind_eq]
  exact currentCode_contained hc (present_contained hi.1 hi.2 fun _ _ => (intern_clerical _).still h)

theorem literalValue_still (x : Literal) (h : m.Fit size) :
    Leads Contained (literalValue x) m fun v m' => Still size m m' ∧ v.Within m'.memory.heap.size := by
  rcases literalValue_cases x with ⟨v, hv, -, hx⟩ | hx <;> rw [hx]
  · exact ⟨.refl h, Value.within_of_immediate hv⟩
  · exact newString_still h x.text

theorem setPc_moved {pc : Int64} (h : m.Fit size) (hpc : 0 ≤ pc.toInt) :
    Leads Contained (setPc pc) m fun _ m' => Moved size m m' := by
  simp only [setPc, modifyContext, Leads.modify_eq]
  exact ⟨h.turn rfl, Nat.le_refl _, Nat.le_refl _, fun hx => ⟨hx.base_nonneg, hpc, hx.sturdy⟩⟩

/-! ### Calls of a superclass, class bodies and returns -/

theorem callSuper_went {a argc : Int64} (h : m.Fit size) (hx : m.context.Fits size)
    (ha : InFile size (m.context.base + a)) (hargc : 0 ≤ argc.toInt)
    (hlt : argc.toInt + 2 ≤ 2 ^ 62) :
    Leads Contained (callSuper a argc) m fun p m' => Went size m p m' := by
  simp only [callSuper, Leads.bind_eq, Leads.get_eq]
  split
  · simp only [Leads.bind_eq, Leads.get_eq]
    refine self_contained h hx fun v hv => ?_
    refine (acquire_still h hv).mono fun _ m₁ h₁ => ?_
    rw [h₁.context]
    refine (setReg_still h₁.fit ha (hv.mono h₁.grows)).mono fun _ m₂ h₂ => ?_
    refine (enterWindow_still h₂.fit).mono ?_
    rintro _ m₃ ⟨h₃, _, htop⟩
    have hw := window_of_entered h.small ha hargc hlt htop
    have hblock : InFile size (m.context.base + a + argc + 1) := hw.block_inFile h.small
    refine (setReg_of_immediate h₃.fit hblock rfl).mono fun _ m₄ h₄ => ?_
    have h₁₄ := h₁.trans (h₂.trans (h₃.trans h₄))
    split
    · simp only [nameOf, Leads.bind_eq, Leads.get_eq, Leads.pure_eq]
      exact (raiseText_moved _ _ h₄.fit).mono fun _ _ h₅ => (h₁₄.before h₅).went
    · have hx₄ : m₄.context.Fits size := h₁₄.moved.place hx
      rw [← h₁₄.context] at ha
      refine (dispatch_moved _ _ h₄.fit hx₄ ha hargc hlt).mono ?_
      rintro _ _ ⟨h₅, hover⟩
      exact ⟨h₁₄.before h₅, fun v hv => absurd hv (hover v)⟩
  · simp only [Leads.bind_eq, Leads.pure_eq]
    exact (raiseText_moved _ _ h).mono fun _ _ h₁ => h₁.went

theorem modify_push {α : Type} (xs : Array α) (a : α) (f : α → α) :
    (xs.push a).modify xs.size f = xs.push (f a) := by
  apply Array.ext
  · simp
  · intro i hi _
    rw [Array.getElem_modify, Array.getElem_push, Array.getElem_push]
    rw [Array.size_modify, Array.size_push] at hi
    split
    · next heq => simp [heq]
    · next hne =>
      have hlt : i < xs.size := by omega
      simp [hlt]

/-- The frame of a class body fits once the window of the body is entered. -/
theorem enterBody_moved {a child : Int64} (c : ClassId) (h : m.Fit size) (hx : m.context.Fits size)
    (hc : m.context.code = some code) (ha : InFile size (m.context.base + a))
    (hchild : code.block.Admits 1 child .child) (hcode : code.Sturdy) :
    Leads Contained (enterBody a c child) m fun _ m' => Moved size m m' := by
  obtain ⟨body, hbody⟩ := Code.child?_isSome hchild.1 hchild.2
  have hsturdy := hcode.child hbody
  simp only [enterBody, Machine.modifyFrame, modifyContext, Leads.bind_eq, Leads.get_eq,
    Leads.modify_eq]
  refine pushFrame_contained 0 a 0 fun pool => currentCode_contained hc ?_
  rw [hbody]
  simp only [present, Leads.pure_eq, modify_push, enterWindow, Leads.bind_eq, Leads.get_eq]
  split
  · exact fatal_contained
  · next hroom =>
    obtain ⟨hlow, hhigh⟩ := not_or.1 hroom
    have hhigh : (m.context.base + a + body.block.registers).toInt ≤ size := by
      rw [h.regs] at hhigh
      omega
    have htop : (m.context.base + a).toInt + body.block.registers.toInt ≤ size := by
      have hsmall := h.small
      have hregisters := hsturdy.block.small
      have htwo := hsturdy.block.two_le
      obtain ⟨halow, hahigh⟩ := ha
      rwa [toInt_add (by omega) (by omega)] at hhigh
    have hzero : (0 : Int64).toInt = 0 := rfl
    have hwindow : Window.Fits size ⟨m.context.base + a, 0⟩ := by
      have htwo := hsturdy.block.two_le
      exact ⟨ha.1, Int.le_of_eq hzero.symm, by dsimp only; omega⟩
    have hframe : Frame.Fits size { m.savedFrame .call with
        ownClass := some c, methodId := 0, offset := a, nargs := 0 } := ⟨hx, hwindow⟩
    have h₁ := (h.pool pool).fit.pushFrames hframe
    have h₂ : Still size m { m with
        memory := { m.memory with pool }
        frames := m.frames.push { m.savedFrame .call with
          ownClass := some c, methodId := 0, offset := a, nargs := 0 }
        chain := m.frames.size :: m.chain
        depth := m.depth + 1 } := by
      refine ⟨h₁.fit.relist fun f hf => ?_, h₁.grows, h₁.frames, rfl⟩
      rcases List.mem_append.1 hf with hf | hf
      · rcases List.mem_cons.1 hf with rfl | hf
        · rw [Array.size_push]
          exact Nat.lt_succ_self _
        · exact h₁.fit.chain_lt f hf
      · exact h₁.fit.markers_lt f hf
    have hplace : Place size (m.context.base + a) (some body) 0 :=
      ⟨ha.1, Int.le_of_eq hzero.symm, body, rfl, hsturdy, htop⟩
    split
    · have h₃ := h₂.fit.raiseHigh hhigh
      exact (h₂.trans h₃).before ⟨h₃.fit.turn rfl, Nat.le_refl _, Nat.le_refl _, fun _ => hplace⟩
    · exact h₂.before ⟨h₂.fit.turn rfl, Nat.le_refl _, Nat.le_refl _, fun _ => hplace⟩

theorem leaveFrame_went {a : Int64} (h : m.Fit size) (hx : m.context.Fits size)
    (ha : InFile size (m.context.base + a)) :
    Leads Contained (leaveFrame a) m fun p m' => Went size m p m' := by
  simp only [leaveFrame, Leads.bind_eq, Leads.get_eq]
  refine (exchangeReg_still h ha (Value.within_of_immediate rfl)).mono ?_
  rintro v m₁ ⟨h₁, hv⟩
  split
  · refine ⟨h₁.moved, fun x hx => ?_⟩
    cases hx
    exact hv
  · simp only [Leads.bind_eq, Leads.pure_eq]
    obtain ⟨c, hc, hsturdy, htop⟩ := hx.sturdy
    have hbase := hx.base_nonneg
    have hsmall := h.small
    have htwo := hsturdy.block.two_le
    have hone : (1 : Int64).toInt = 1 := rfl
    refine currentSize_contained (h₁.context ▸ hc) ?_
    have hnext : (m.context.base + 1).toInt = m.context.base.toInt + 1 := by
      rw [toInt_add (by omega) (by omega), hone]
    have hhigh : (m.context.base + c.block.registers).toInt =
        m.context.base.toInt + c.block.registers.toInt := toInt_add (by omega) (by omega)
    have hrange : RangeInFile size (m.context.base + 1)
        (span (m.context.base + 1) (m.context.base + c.block.registers)) := by
      intro _
      unfold span
      omega
    refine (clearRegs_still h₁.fit hrange).mono fun _ m₂ h₂ => ?_
    refine (setReg_still h₂.fit hx.inFile (hv.mono h₂.grows)).mono fun _ m₃ h₃ => ?_
    exact (popFrame_moved h₃.fit).mono fun _ _ h₄ => (h₁.trans (h₂.trans h₃)).before h₄ |>.went

/-- A return that hands on an exception needs one. -/
theorem leave_went {a : Int64} (h : m.Fit size) (hx : m.context.Fits size)
    (ha : InFile size (m.context.base + a))
    (hexc : m.topMarker?.isSome ∨ m.settlesOnReturn → m.exception.isSome) :
    Leads Contained (leave a) m fun p m' => Went size m p m' := by
  simp only [leave, Leads.bind_eq, Leads.get_eq]
  split
  · next f hf =>
    obtain ⟨hhead, -⟩ := Option.filter_eq_some_iff.1 hf
    have hmem : f ∈ m.chain := List.mem_of_head? hhead
    simp only [Leads.bind_eq, Leads.modify_eq, Leads.pure_eq]
    have h₁ : Moved size m { m with chain := m.chain.tail } := by
      refine ⟨h.relist fun g hg => ?_, Nat.le_refl _, Nat.le_refl _, fun hx => hx⟩
      rcases List.mem_append.1 hg with hg | hg
      · exact h.chain_lt g (List.mem_of_mem_tail hg)
      · exact h.markers_lt g hg
    have hexc' : m.exception.isSome := hexc (.inl (hf ▸ rfl))
    exact Leads.mono (resumeAt_moved h₁.fit (h.chain_lt f hmem) hexc')
      fun _ _ h₂ => (h₁.trans h₂).went
  · split
    · next hsettle =>
      simp only [Leads.bind_eq, Leads.pure_eq]
      exact (settlePending_moved h (hexc (.inr hsettle))).mono fun _ _ h₁ => h₁.went
    · exact leaveFrame_went h hx ha

theorem takeException_moved {a : Int64} (h : m.Fit size) (ha : InFile size (m.context.base + a))
    (ha' : InFile size (m.context.base + a + 1)) :
    Leads Contained (takeException a) m fun _ m' => Moved size m m' := by
  simp only [takeException, Leads.bind_eq, Leads.get_eq]
  split
  · simp only [Leads.bind_eq]
    refine (setReg_of_immediate h ha rfl).mono fun _ m₁ h₁ => ?_
    exact (setReg_of_immediate h₁.fit ha' rfl).mono fun _ _ h₂ => (h₁.trans h₂).moved
  · simp only [Leads.bind_eq, Leads.get_eq, Leads.modify_eq]
    have hmessage := h.excMessage_within
    refine (setReg_of_immediate h ha rfl).mono fun _ m₁ h₁ => ?_
    have h₂ : Still size m₁ { m₁ with excMessage := .nil } :=
      h₁.fit.reword (Value.within_of_immediate rfl) h₁.fit.pendingMessage_within
    refine Leads.mono (setReg_still h₂.fit ha' (hmessage.mono h₁.grows)) fun _ m₃ h₃ => ?_
    exact (clearException_moved h₃.fit).mono fun _ _ h₄ => (h₁.trans (h₂.trans h₃)).before h₄

/-! ### All instructions -/

/-- What an instruction asks of the machine besides its operands. -/
structure Careful (i : Inst) (m : Machine) : Prop where
  handsOn : i.op = .leave → m.topMarker?.isSome ∨ m.settlesOnReturn → m.exception.isSome
  outer : i.op = .getOuter ∨ i.op = .setOuter → ∀ up m',
    outerBase i.c m = .ok (some up) m' → up.toInt ≤ m.context.base.toInt

/-- A call of the method that a symbol of the code names. -/
theorem send_went {a b argc : Int64} (h : Still size m m₁) (hx : m.context.Fits size)
    (hc : m.context.code = some code) (ha : InFile size (m.context.base + a))
    (hb : code.block.Admits 1 b .symbol) (hargc : 0 ≤ argc.toInt ∧ argc.toInt + 2 ≤ 2 ^ 62) :
    Leads Contained (codeSymbol b) m₁ fun k m₂ =>
      Leads Contained (reg (m.context.base + a)) m₂ fun v m₃ =>
        Leads Contained (dispatch a k argc (m₃.classOf v)) m₃ fun p m' => Went size m p m' := by
  refine (codeSymbol_still h.fit (h.context ▸ hc) hb).mono fun k m₂ h₂ => ?_
  have h₁₂ := h.trans h₂
  refine reg_contained h₂.fit ha fun v _ => ?_
  rw [← h₁₂.context] at ha
  refine (dispatch_moved k _ h₂.fit (h₁₂.moved.place hx) ha hargc.1 hargc.2).mono ?_
  exact fun _ _ ⟨h₃, hover⟩ => ⟨h₁₂.before h₃, fun v hv => absurd hv (hover v)⟩

/-- The scope of an outer variable lies in the register file up to the window of the code. -/
theorem outer_inFile {up b : Int64} (h : m.Fit size) (hx : m.context.Fits size)
    (hc : m.context.code = some code) (hup : 0 ≤ up.toInt)
    (hle : up.toInt ≤ m.context.base.toInt) (hb : code.block.Admits 1 b .register) :
    InFile size (up + b) := by
  obtain ⟨c, hc', -, htop⟩ := hx.sturdy
  cases hc.symm.trans hc'
  obtain ⟨hblow, hbhigh⟩ := hb
  have hsmall := h.small
  have hsum : (up + b).toInt = up.toInt + b.toInt := toInt_add (by omega) (by omega)
  exact ⟨by omega, by omega⟩

section Instruction

variable {i : Inst} (h : m.Fit size) (hx : m.context.Fits size) (hc : m.context.code = some code)
  (hi : i.Sturdy code.block) (hcare : Careful i m)

include h hx hc hi hcare

/-- The registers of an instruction are in the file. -/
theorem Uses.inFile {j : Int64} (hj : Uses i m j) : InFile size j := by
  obtain ⟨code', hc', hsturdy, -⟩ := hx.sturdy
  obtain rfl : code = code' := Option.some.inj (hc.symm.trans hc')
  have hplace : Place size m.context.base (some code) m.context.pc := hc ▸ hx
  cases hj with
  | operand slot hk =>
    obtain ⟨hlow, hhigh⟩ := hi.admits hk
    exact hplace.reg h.small hlow (by omega)
  | @next k hk hspan =>
    obtain ⟨hlow, hhigh⟩ := hi.operand 0 hk
    rw [if_pos rfl, hspan] at hhigh
    have hone : (1 : Int64).toInt = 1 := rfl
    have htwo : (2 : Int64).toInt = 2 := rfl
    have hregisters := hsturdy.block.small
    have hnext : (k + 1).toInt = k.toInt + (1 : Int64).toInt :=
      toInt_add (by omega) (by omega)
    rw [Int64.add_assoc]
    exact hplace.reg h.small (by omega) (by omega)
  | outer hop hup =>
    have hfound : Leads Contained (outerBase i.c) m fun b _ => ∀ up, b = some up → 0 ≤ up.toInt :=
      outerBase_contained i.c h hx fun _ hb => hb
    have hk : i.operands[1]? = some (.register, i.b) := by
      rcases hop with hop | hop <;> (simp only [Inst.operands, hop]; rfl)
    exact outer_inFile h hx hc (hfound.of_ok hup _ rfl) (hcare.outer hop _ m hup) (hi.admits hk)

/-- The operands of a call by name. -/
theorem sends_sturdy (hop : i.op = .send ∨ i.op = .sendBlock) :
    InFile size (m.context.base + i.a) ∧ code.block.Admits 1 i.b .symbol ∧
      0 ≤ i.c.toInt ∧ i.c.toInt + 2 ≤ 2 ^ 62 := by
  have ha : i.operands[0]? = some (.register, i.a) := by
    rcases hop with hop | hop <;> (simp only [Inst.operands, hop]; rfl)
  have hb : i.operands[1]? = some (.symbol, i.b) := by
    rcases hop with hop | hop <;> (simp only [Inst.operands, hop]; rfl)
  have hargc : i.argc? = some i.c := by rcases hop with hop | hop <;> simp only [Inst.argc?, hop]
  exact ⟨(Uses.operand 0 ha).inFile h hx hc hi hcare, hi.admits hb, hi.argc i.c hargc⟩

/-- In the end, an instruction keeps to the register file. -/
theorem Concludes.went {fresh : Bool} {known : List Value} {x : Action Progress}
    (hcon : Concludes i m fresh known x) (hstill : Still size m m₁)
    (hknown : ∀ v ∈ known, v.Within m₁.memory.heap.size) (hfresh : fresh = true → m₁ = m) :
    Leads Contained x m₁ fun p m' => Went size m p m' := by
  obtain ⟨code', hc', hsturdy, -⟩ := hx.sturdy
  obtain rfl : code = code' := Option.some.inj (hc.symm.trans hc')
  cases hcon with
  | done => exact hstill.went
  | setVariable k _ _ hv =>
    rw [Leads.bind_eq]
    exact (setVariable_still hstill.fit k (hknown _ hv)).mono fun _ _ h₂ => (hstill.trans h₂).went
  | setConstant k hv =>
    rw [Leads.bind_eq]
    exact (setConstant_still hstill.fit k (hknown _ hv)).mono fun _ _ h₂ => (hstill.trans h₂).went
  | install c k _ hproc =>
    simp only [Leads.bind_eq, Leads.discard_eq]
    exact ((installCode?_clerical c k (code_of_proc? h hproc)).still hstill.fit).mono fun _ _ h₂ =>
      (hstill.trans h₂).went
  | goto _ slot hk =>
    obtain rfl := hfresh rfl
    rw [Leads.bind_eq]
    exact (setPc_moved h (hi.admits hk)).mono fun _ _ h₂ => h₂.went
  | enterBody _ ha slot hk _ _ =>
    obtain rfl := hfresh rfl
    rw [Leads.bind_eq]
    exact (enterBody_moved _ h hx hc ((Uses.operand 0 ha).inFile h hx hc hi hcare) (hi.admits hk)
      hsturdy).mono fun _ _ h₂ => h₂.went
  | protect tag _ _ slot hk =>
    obtain rfl := hfresh rfl
    rw [Leads.bind_eq]
    exact (pushMarker_moved h hx (hi.admits hk)).mono fun _ _ h₂ => h₂.went
  | popMarkers _ =>
    obtain rfl := hfresh rfl
    rw [Leads.bind_eq]
    exact (popMarkers_moved _ h).mono fun _ _ h₂ => h₂.went
  | takeException hop ha =>
    obtain rfl := hfresh rfl
    have hfirst := (Uses.operand 0 ha).inFile h hx hc hi hcare
    have hsecond := (Uses.next ha (by rw [hop]; rfl)).inFile h hx hc hi hcare
    rw [Leads.bind_eq]
    exact (takeException_moved h hfirst hsecond).mono fun _ _ h₂ => h₂.went
  | raise _ _ hv =>
    obtain rfl := hfresh rfl
    rw [Leads.bind_eq]
    exact (raise_moved _ h (hknown _ hv)).mono fun _ _ h₂ => h₂.went
  | raiseText t _ _ =>
    rw [Leads.bind_eq]
    exact (raiseText_moved _ t hstill.fit).mono fun _ _ h₂ => (hstill.before h₂).went
  | send hop =>
    obtain rfl := hfresh rfl
    obtain ⟨hreceiver, hname, hargc⟩ := sends_sturdy h hx hc hi hcare (.inl hop)
    simp only [Leads.bind_eq, Leads.get_eq]
    refine (enterWindow_still h).mono ?_
    rintro _ m₂ ⟨h₂, _, htop⟩
    have hw := window_of_entered h.small hreceiver hargc.1 hargc.2 htop
    have hblock : InFile size (m₁.context.base + i.a + i.c + 1) := hw.block_inFile h.small
    refine (setReg_of_immediate h₂.fit hblock rfl).mono fun _ m₃ h₃ => ?_
    exact send_went (h₂.trans h₃) hx hc hreceiver hname hargc
  | sendBlock hop =>
    obtain rfl := hfresh rfl
    obtain ⟨hreceiver, hname, hargc⟩ := sends_sturdy h hx hc hi hcare (.inr hop)
    simp only [Leads.bind_eq, Leads.get_eq]
    exact send_went (.refl h) hx hc hreceiver hname hargc
  | callSuper hop =>
    obtain rfl := hfresh rfl
    have ha : i.operands[0]? = some (.register, i.a) := by simp only [Inst.operands, hop]; rfl
    have hargc := hi.argc i.b (by simp only [Inst.argc?, hop])
    exact callSuper_went h hx ((Uses.operand 0 ha).inFile h hx hc hi hcare) hargc.1 hargc.2
  | unknown number =>
    obtain rfl := hfresh rfl
    simp only [Leads.bind_eq, Leads.get_eq]
    exact currentCode_contained hc fatal_contained

/-- What is left of an instruction that ends nothing keeps to the register file. -/
theorem Composed.went {fresh : Bool} {held known : List Value} {x : Action Progress}
    (hcomp : Composed i m fresh held known x) (hstill : Still size m m₁)
    (hheld : ∀ v ∈ held, v.Within m₁.memory.heap.size)
    (hknown : ∀ v ∈ known, v.Within m₁.memory.heap.size) (hfresh : fresh = true → m₁ = m) :
    Leads Contained x m₁ fun p m' => Went size m p m' := by
  obtain ⟨code', hc', hsturdy, -⟩ := hx.sturdy
  obtain rfl : code = code' := Option.some.inj (hc.symm.trans hc')
  have hold : ∀ {m₂ : Machine}, false = true → m₂ = m := nofun
  have hnone : ∀ {m₂ : Machine}, ∀ v ∈ ([] : List Value), v.Within m₂.memory.heap.size := nofun
  have hmore : ∀ {m₂ m₃ : Machine} {vs : List Value} {v : Value}, Still size m₂ m₃ →
      (∀ v ∈ vs, v.Within m₂.memory.heap.size) → v.Within m₃.memory.heap.size →
      ∀ w ∈ v :: vs, w.Within m₃.memory.heap.size := fun hs hvs hv =>
    List.forall_mem_cons.2 ⟨hv, fun w hw => (hvs w hw).mono hs.grows⟩
  induction hcomp generalizing m₁ with
  | read hj _ ih =>
    rw [Leads.bind_eq]
    refine reg_contained hstill.fit (hj.inFile h hx hc hi hcare) fun v hv => ?_
    exact ih v hstill hheld (hmore (.refl hstill.fit) hknown hv) hfresh
  | self _ _ ih =>
    obtain rfl := hfresh rfl
    rw [Leads.bind_eq]
    refine self_contained h hx fun v hv => ?_
    exact ih v hstill hheld (hmore hstill hknown hv) hfresh
  | consult _ _ ih => exact ih m₁ hfresh hstill hheld hknown hfresh
  | outer _ _ _ ihnone ihsome =>
    obtain rfl := hfresh rfl
    rw [Leads.bind_eq]
    refine .unmoved (outerBase_contained _ h hx fun _ _ => rfl) fun up hup => ?_
    cases up with
    | none => exact ihnone hstill hheld hknown hfresh
    | some up => exact ihsome up hup hstill hheld hknown hfresh
  | name slot hk _ ih =>
    obtain rfl := hfresh rfl
    obtain ⟨hlow, hhigh⟩ := hi.admits hk
    simp only [Leads.bind_eq]
    refine currentCode_contained hc (present_contained hlow hhigh fun t _ => ?_)
    exact ih t hstill hheld hknown hfresh
  | symbol slot hk _ ih =>
    rw [Leads.bind_eq]
    refine (codeSymbol_still hstill.fit (hstill.context ▸ hc) (hi.admits hk)).mono fun k _ h₂ => ?_
    exact ih k (hstill.trans h₂) (fun v hv => (hheld v hv).mono h₂.grows)
      (fun v hv => (hknown v hv).mono h₂.grows) hold
  | «variable» slot hk _ ih =>
    rw [Leads.bind_eq]
    refine (variableSymbol_still hstill.fit (hstill.context ▸ hc) (hi.admits hk)).mono
      fun k _ h₂ => ?_
    exact ih k (hstill.trans h₂) (fun v hv => (hheld v hv).mono h₂.grows)
      (fun v hv => (hknown v hv).mono h₂.grows) hold
  | immediate v href _ _ ih =>
    exact ih hstill (hmore (.refl hstill.fit) hheld (Value.within_of_immediate href)) hknown hfresh
  | target _ ih =>
    refine ih hstill (hmore (.refl hstill.fit) hheld (Value.within_of_immediate ?_)) hknown hfresh
    cases m.context.targetClass <;> rfl
  | share hv _ ih =>
    have hwithin := hknown _ hv
    rw [Leads.bind_eq]
    refine (acquire_still hstill.fit hwithin).mono fun _ _ h₂ => ?_
    exact ih (hstill.trans h₂) (hmore h₂ hheld (hwithin.mono h₂.grows)) hnone hold
  | literal slot hk _ ih =>
    obtain rfl := hfresh rfl
    obtain ⟨hlow, hhigh⟩ := hi.admits hk
    simp only [Leads.bind_eq]
    refine currentCode_contained hc (present_contained hlow hhigh fun x _ => ?_)
    refine (literalValue_still x h).mono ?_
    rintro v m₂ ⟨h₂, hv⟩
    exact ih v h₂ (hmore h₂ hheld hv) hnone hold
  | block _ _ slot hk _ ih =>
    obtain rfl := hfresh rfl
    obtain ⟨hlow, hhigh⟩ := hi.admits hk
    obtain ⟨body, hbody⟩ := Code.child?_isSome hlow hhigh
    simp only [Leads.bind_eq]
    refine currentCode_contained hc ?_
    rw [hbody]
    refine (newProc_still h hx (hsturdy.child hbody)).mono ?_
    rintro v m₂ ⟨h₂, hv⟩
    exact ih v h₂ (hmore h₂ hheld hv) hnone hold
  | getVariable k _ _ ih =>
    rw [Leads.bind_eq]
    refine (getVariable_still hstill.fit k).mono ?_
    rintro v m₂ ⟨h₂, hv⟩
    exact ih v (hstill.trans h₂) (hmore h₂ hheld hv) hnone hold
  | getConstant k _ ih =>
    rw [Leads.bind_eq]
    refine (getConstant_still hstill.fit k).mono ?_
    rintro v m₂ ⟨h₂, hv⟩
    exact ih v (hstill.trans h₂) (hmore h₂ hheld hv) hnone hold
  | defineClass name _ _ _ _ ih =>
    rw [Leads.bind_eq]
    refine (defineClass_still hstill.fit name _).mono fun k m₂ h₂ => ?_
    exact ih k (hstill.trans h₂) (hmore h₂ hheld (Value.within_of_immediate rfl)) hnone hold
  | store hj _ _ ih =>
    obtain ⟨hv, hrest⟩ := List.forall_mem_cons.1 hheld
    rw [Leads.bind_eq]
    refine (setReg_still hstill.fit (hj.inFile h hx hc hi hcare) hv).mono fun _ m₂ h₂ => ?_
    exact ih (hstill.trans h₂) (fun w hw => (hrest w hw).mono h₂.grows) hnone hold
  | last hlast => exact hlast.went h hx hc hi hcare hstill hknown hfresh

theorem step_went : Leads Contained (step i) m fun p m' => Went size m p m' := by
  cases hop : i.op.isOrdinary with
  | true =>
    obtain ⟨x, hcomp, hstep⟩ := step_composed m hop
    rw [Leads, hstep m rfl]
    exact hcomp.went h hx hc hi hcare (.refl h) nofun nofun fun _ => rfl
  | false =>
    rcases step_over hop with ⟨hleave, hstep⟩ | ⟨-, hstep⟩
    · have ha : i.operands[0]? = some (.register, i.a) := by simp only [Inst.operands, hleave]; rfl
      rw [Leads, hstep]
      exact leave_went h hx ((Uses.operand 0 ha).inFile h hx hc hi hcare) (hcare.handsOn hleave)
    · rw [Leads, hstep]
      refine ⟨(Still.refl h).moved, fun v hv => ?_⟩
      cases hv
      exact Value.within_of_immediate rfl

end Instruction

/-! ### Ticks -/

/-- The result of a run that is over is in hand. -/
def Ticked (size : Nat) (m : Machine) (r : Option Value) (m' : Machine) : Prop :=
  Moved size m m' ∧ ∀ v, r = some v → v.Within m'.memory.heap.size

theorem resumePass_moved {s : Suspension} {rest : List Suspension} (h : m.Fit size)
    (hs : ∀ d ∈ s.duties, Ready size m d)
    (hrest : ∀ d ∈ rest.flatMap (·.duties), Ready size m d) :
    Leads Contained (resumePass s rest) m fun _ m' => Moved size m m' := by
  simp only [resumePass, Leads.bind_eq, Leads.modify_eq]
  have h₁ : Moved size m { m with
      suspended := rest, context := { m.context with entry := s.entry } } :=
    ⟨h.suspend hrest h.markers_lt, Nat.le_refl _, Nat.le_refl _, fun hx => hx⟩
  refine Leads.mono (runDuties_moved s.duties h₁.fit fun d hd => ?_) fun _ _ h₂ => h₁.trans h₂
  exact (hs d hd).moved h₁

theorem concludeStep_moved (h : m.Fit size) (hx : m.context.Fits size) :
    Leads Contained concludeStep m fun _ m' => Moved size m m' := by
  have hend : ∀ m₁, Moved size m m₁ → Leads Contained (do
      if (← get).pending.isNone then return false
      unwindTo (← get).context.entry
      return true) m₁ fun _ m' => Moved size m m' := by
    intro m₁ h₁
    simp only [Leads.bind_eq, Leads.get_eq]
    split
    · exact h₁
    · simp only [Leads.bind_eq, Leads.get_eq, Leads.pure_eq]
      exact (unwindTo_moved _ h₁.fit).mono fun _ _ ⟨h₂, _⟩ => h₁.trans h₂
  simp only [Leads.bind_eq, Leads.get_eq] at hend
  simp only [concludeStep, Leads.bind_eq, Leads.get_eq]
  split
  · simp only [Leads.bind_eq, Leads.modify_eq, Leads.get_eq]
    obtain ⟨c, hc, hsturdy, htop⟩ := hx.sturdy
    have h₁ : Moved size m { m with jumped := false } :=
      ⟨h.turn rfl, Nat.le_refl _, Nat.le_refl _, fun hx => hx⟩
    refine currentSize_contained hc ?_
    have hhigh : 0 ≤ (m.context.base + c.block.registers).toInt := by
      have hbase := hx.base_nonneg
      have htwo := hsturdy.block.two_le
      have hsmall := h.small
      rw [toInt_add (by omega) (by omega)]
      omega
    exact Leads.mono (scrubAbove_still h₁.fit hhigh) fun _ m₂ h₂ => hend m₂ (h₁.trans h₂.moved)
  · exact hend m (Still.refl h).moved

theorem endLastPass_ticked (h : m.Fit size) (hv : v.Within m.memory.heap.size) :
    Leads Contained (endLastPass v) m fun r m' => Ticked size m r m' := by
  simp only [endLastPass, modifyContext, Leads.bind_eq, Leads.modify_eq, Leads.pure_eq]
  refine ⟨⟨h.turn rfl, Nat.le_refl _, Nat.le_refl _, fun hx => hx⟩, fun x hx => ?_⟩
  cases hx
  exact hv

theorem Ticked.after {r : Option Value} (h : Moved size m m₁) (h' : Ticked size m₁ r m') :
    Ticked size m r m' :=
  ⟨h.trans h'.1, h'.2⟩

theorem finishStep_ticked (ss : List Suspension) (h : m.Fit size) (hx : m.context.Fits size)
    (hss : ∀ d ∈ ss.flatMap (·.duties), Ready size m d) :
    Leads Contained (finishStep ss) m fun r m' => Ticked size m r m' := by
  induction ss generalizing m with
  | nil =>
    simp only [finishStep, Leads.bind_eq]
    refine (concludeStep_moved h hx).mono fun pending m₁ h₁ => ?_
    cases pending with
    | false => exact ⟨h₁, by simp⟩
    | true =>
      exact (endLastPass_ticked h₁.fit (Value.within_of_immediate rfl)).mono
        fun _ _ h₂ => h₂.after h₁
  | cons s rest ih =>
    simp only [finishStep, Leads.bind_eq]
    refine (concludeStep_moved h hx).mono fun pending m₁ h₁ => ?_
    cases pending with
    | false => exact ⟨h₁, by simp⟩
    | true =>
      simp only [if_true, Leads.bind_eq]
      have hs : ∀ d ∈ s.duties, Ready size m₁ d := fun d hd =>
        (hss d (List.mem_append_left _ hd)).moved h₁
      have hrest : ∀ d ∈ rest.flatMap (·.duties), Ready size m₁ d := fun d hd =>
        (hss d (List.mem_append_right _ hd)).moved h₁
      refine (resumePass_moved h₁.fit hs hrest).mono fun _ m₂ h₂ => ?_
      have h₁₂ := h₁.trans h₂
      exact (ih h₁₂.fit (h₁₂.place hx) fun d hd => (hrest d hd).moved h₂).mono
        fun _ _ h₃ => h₃.after h₁₂

theorem endPass_ticked (h : m.Fit size) (hx : m.context.Fits size)
    (hv : v.Within m.memory.heap.size) :
    Leads Contained (endPass v) m fun r m' => Ticked size m r m' := by
  simp only [endPass, Leads.bind_eq, Leads.get_eq]
  split
  · exact endLastPass_ticked h hv
  · next s rest hss =>
    have hready := h.ready
    rw [duties, hss, List.flatMap_cons] at hready
    simp only [Leads.bind_eq]
    have hs : ∀ d ∈ s.duties, Ready size m d := fun d hd =>
      hready d (List.mem_append_left _ hd)
    have hrest : ∀ d ∈ rest.flatMap (·.duties), Ready size m d := fun d hd =>
      hready d (List.mem_append_right _ hd)
    refine (resumePass_moved h hs hrest).mono fun _ m₁ h₁ => ?_
    exact (finishStep_ticked rest h₁.fit (h₁.place hx) fun d hd => (hrest d hd).moved h₁).mono
      fun _ _ h₂ => h₂.after h₁

/-- Sturdy code is left behind its end only by a fatal fault. -/
theorem fetch_contained {Q : Inst → Machine → Prop} (h : m.Fit size) (hx : m.context.Fits size)
    (hQ : ∀ i m' code, fetch m = .ok i m' → Moved size m m' → m'.context.code = some code →
      i.Sturdy code.block → Q i m') :
    Leads Contained fetch m Q := by
  obtain ⟨c, hc, hsturdy, -⟩ := hx.sturdy
  have hfetched : Leads Contained fetch m fun i m' =>
      Moved size m m' ∧ m'.context.code = some c ∧ i.Sturdy c.block := by
    simp only [fetch, Leads.bind_eq, Leads.get_eq]
    refine currentCode_contained hc ?_
    split
    · exact fatal_contained
    · next hpc =>
      have hlt : m.context.pc.toInt < c.block.code.size := by omega
      simp only [Leads.bind_eq, Leads.pure_eq]
      refine present_contained hx.pc_nonneg hlt fun i hi => ?_
      have hone : (1 : Int64).toInt = 1 := rfl
      have hshort := hsturdy.block.short
      have hnext : 0 ≤ (m.context.pc + 1).toInt := by
        have hpc := hx.pc_nonneg
        rw [toInt_add (by omega) (by omega)]
        omega
      simp only [setPc, modifyContext, Leads.modify_eq]
      refine ⟨⟨h.turn rfl, Nat.le_refl _, Nat.le_refl _, fun hx => ?_⟩, hc, hsturdy.block.insts i hi⟩
      exact ⟨hx.base_nonneg, hnext, hx.sturdy⟩
  refine Leads.intro (fun i m' heq => ?_) fun e m' heq => hfetched.of_error heq
  obtain ⟨hmoved, hc', hi⟩ := hfetched.of_ok heq
  exact hQ i m' c heq hmoved hc' hi

/-- A tick whose instruction is careful ends in no fault that a host is not prepared for. -/
theorem tick_ticked (h : m.Fit size) (hx : m.context.Fits size)
    (hcare : ∀ i m', fetch m = .ok i m' → Careful i m') :
    Leads Contained tick m fun r m' => Ticked size m r m' := by
  simp only [tick, Leads.bind_eq]
  refine fetch_contained h hx fun i m₁ code heq h₁ hc hi => ?_
  refine (step_went h₁.fit (h₁.place hx) hc hi (hcare i m₁ heq)).mono ?_
  rintro p m₂ ⟨h₂, hover⟩
  have h₁₂ := h₁.trans h₂
  have hx₂ := h₁₂.place hx
  cases p with
  | same =>
    simp only [Leads.bind_eq, Leads.get_eq]
    exact (finishStep_ticked m₂.suspended h₂.fit hx₂ h₂.fit.ready).mono fun _ _ h₃ => h₃.after h₁₂
  | entered => exact ⟨h₁₂, by simp⟩
  | finished v => exact (endPass_ticked h₂.fit hx₂ (hover v rfl)).mono fun _ _ h₃ => h₃.after h₁₂

end Machine

end ObjectMachine
