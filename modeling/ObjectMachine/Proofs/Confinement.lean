import ObjectMachine.Proofs.Containment

/-! Natives and calls on a fitting machine. A native that gets a window in the register file
reads nothing outside of it. A call that passes a number of arguments that is neither negative
nor huge gets such a window, or ends in a fatal fault. -/

namespace ObjectMachine.Machine

variable {size : Nat} {m m₁ m' : Machine} {v : Value} {w : Window}

/-! ### The window of a native -/

theorem windowReg_contained {i : Int64} {Q : Value → Machine → Prop} (h : m.Fit size)
    (hw : w.Fits size) (hi : 0 ≤ i.toInt) (hlt : i.toInt < w.argc.toInt + 2)
    (hQ : ∀ v, v.Within m.memory.heap.size → Q v m) :
    Leads Contained (windowReg w i) m Q := by
  have hsmall := h.small
  have hbase := hw.base
  have hargc := hw.argc
  have htop := hw.top
  have htwo : (2 : Int64).toInt = 2 := rfl
  have hsize : w.size.toInt = w.argc.toInt + 2 := by
    rw [Window.size, toInt_add (by omega) (by omega), htwo]
  have hin : 0 ≤ i ∧ i < w.size := by
    rw [Int64.le_iff_toInt_le, Int64.lt_iff_toInt_lt, hsize]
    exact ⟨hi, hlt⟩
  rw [windowReg, if_pos hin]
  exact reg_contained h (hw.inFile h.small hi hlt) hQ

/-- The receiver. -/
theorem windowReg_zero {Q : Value → Machine → Prop} (h : m.Fit size) (hw : w.Fits size)
    (hQ : ∀ v, v.Within m.memory.heap.size → Q v m) : Leads Contained (windowReg w 0) m Q := by
  have hzero : (0 : Int64).toInt = 0 := rfl
  have hargc := hw.argc
  exact windowReg_contained h hw (by omega) (by omega) hQ

/-- The first argument. Without arguments it is the block. -/
theorem windowReg_one {Q : Value → Machine → Prop} (h : m.Fit size) (hw : w.Fits size)
    (hQ : ∀ v, v.Within m.memory.heap.size → Q v m) : Leads Contained (windowReg w 1) m Q := by
  have hone : (1 : Int64).toInt = 1 := rfl
  have hargc := hw.argc
  exact windowReg_contained h hw (by omega) (by omega) hQ

theorem windowReg_block {Q : Value → Machine → Prop} (h : m.Fit size) (hw : w.Fits size)
    (hQ : ∀ v, v.Within m.memory.heap.size → Q v m) :
    Leads Contained (windowReg w (w.argc + 1)) m Q := by
  have hone : (1 : Int64).toInt = 1 := rfl
  have hsmall := h.small
  have hbase := hw.base
  have hargc := hw.argc
  have htop := hw.top
  have hsum : (w.argc + 1).toInt = w.argc.toInt + 1 := by
    rw [toInt_add (by omega) (by omega), hone]
  exact windowReg_contained h hw (by omega) (by omega) hQ

theorem setReturn_still (h : m.Fit size) (hw : w.Fits size) (hv : v.Within m.memory.heap.size) :
    Leads Contained (setReturn w v) m fun _ m' => Still size m m' := by
  simp only [setReturn, Leads.bind_eq]
  exact windowReg_zero h hw fun _ _ => setReg_still h hw.base_inFile hv

theorem setReturn_of_immediate (h : m.Fit size) (hw : w.Fits size) (hv : v.ref? = none) :
    Leads Contained (setReturn w v) m fun _ m' => Moved size m m' :=
  (setReturn_still h hw (Value.within_of_immediate hv)).mono fun _ _ h₁ => h₁.moved

theorem argumentsFrom_contained {i : Int64} {count : Nat} {Q : List Value → Machine → Prop}
    (h : m.Fit size) (hw : w.Fits size) (hi : 0 ≤ i.toInt)
    (hlt : i.toInt + count ≤ w.argc.toInt + 2)
    (hQ : ∀ vs, (∀ v ∈ vs, v.Within m.memory.heap.size) → Q vs m) :
    Leads Contained (argumentsFrom w i count) m Q := by
  induction count generalizing i Q with
  | zero => exact hQ [] nofun
  | succ count ih =>
    simp only [argumentsFrom, Leads.bind_eq, Leads.pure_eq]
    have hsmall := h.small
    have hbase := hw.base
    have htop := hw.top
    have hone : (1 : Int64).toInt = 1 := rfl
    have hnext : (i + 1).toInt = i.toInt + 1 := by
      rw [toInt_add (by omega) (by omega), hone]
    refine windowReg_contained h hw hi (by omega) fun v hv => ?_
    refine ih (by omega) (by omega) fun vs hvs => hQ (v :: vs) fun x hx => ?_
    rcases List.mem_cons.1 hx with rfl | hx
    · exact hv
    · exact hvs x hx

theorem arguments_contained {Q : List Value → Machine → Prop} (h : m.Fit size) (hw : w.Fits size)
    (hQ : ∀ vs, (∀ v ∈ vs, v.Within m.memory.heap.size) → Q vs m) :
    Leads Contained (arguments w) m Q := by
  have hone : (1 : Int64).toInt = 1 := rfl
  have hargc := hw.argc
  exact argumentsFrom_contained h hw (by omega) (by omega) hQ

theorem returnShared_moved (h : m.Fit size) (hw : w.Fits size)
    (hv : v.Within m.memory.heap.size) :
    Leads Contained (returnShared w v) m fun _ m' => Still size m m' := by
  simp only [returnShared, Leads.bind_eq]
  refine (acquire_still h hv).mono fun _ m₁ h₁ => ?_
  exact (setReturn_still h₁.fit hw (hv.mono h₁.grows)).mono fun _ _ h₂ => h₁.trans h₂

theorem returnText_moved (h : m.Fit size) (hw : w.Fits size) (t : Text) :
    Leads Contained (returnText w t) m fun _ m' => Moved size m m' := by
  simp only [returnText, Leads.bind_eq]
  refine (newString_still h t).mono ?_
  rintro v m₁ ⟨h₁, hv⟩
  exact (setReturn_still h₁.fit hw hv).mono fun _ _ h₂ => (h₁.trans h₂).moved

/-- A native that writes a text and returns nil. -/
theorem writeText_moved (h : m.Fit size) (hw : w.Fits size) (t : Text) :
    Leads Contained (write t) m fun _ m₁ =>
      Leads Contained (setReturn w .nil) m₁ fun _ m' => Moved size m m' :=
  ((write_clerical t).still h).mono fun _ _ h₁ =>
    (setReturn_of_immediate h₁.fit hw rfl).mono fun _ _ h₂ => h₁.before h₂

/-! ### Natives with a name of their own -/

theorem defineAttributes_moved (c : ClassId) (writable : Bool) (vs : List Value) (h : m.Fit size)
    (hw : w.Fits size) :
    Leads Contained (defineAttributes w c writable vs) m fun _ m' => Moved size m m' := by
  induction vs generalizing m with
  | nil => exact setReturn_of_immediate h hw rfl
  | cons v vs ih =>
    simp only [defineAttributes, Leads.bind_eq, Leads.get_eq]
    split
    · exact raiseText_moved _ _ h
    · simp only [Leads.bind_eq, Leads.discard_eq]
      refine ((defineNative?_clerical c _ fun _ hp => by cases hp).still h).mono fun _ m₁ h₁ => ?_
      split
      · simp only [Leads.bind_eq, Leads.discard_eq]
        refine ((defineNative?_clerical c _ fun _ hp => by cases hp).still h₁.fit).mono fun _ m₂ h₂ => ?_
        exact (ih h₂.fit).mono fun _ _ h₃ => (h₁.trans h₂).before h₃
      · exact (ih h₁.fit).mono fun _ _ h₂ => h₁.before h₂

theorem attributes_moved (writable : Bool) (h : m.Fit size) (hw : w.Fits size) :
    Leads Contained (attributes w writable) m fun _ m' => Moved size m m' := by
  simp only [attributes, Leads.bind_eq]
  refine windowReg_zero h hw fun v _ => ?_
  split
  · exact raiseText_moved _ _ h
  · simp only [Leads.bind_eq]
    exact arguments_contained h hw fun vs _ => defineAttributes_moved _ _ vs h hw

theorem raiseArguments_contained {Q : ClassId × Value → Machine → Prop} (h : m.Fit size)
    (hw : w.Fits size) (hQ : ∀ c v, v.Within m.memory.heap.size → Q (c, v) m) :
    Leads Contained (raiseArguments w) m Q := by
  have hnil : Value.Within m.memory.heap.size .nil := Value.within_of_immediate rfl
  unfold raiseArguments
  split
  · exact hQ _ _ hnil
  · split
    · simp only [Leads.bind_eq]
      refine windowReg_one h hw fun v hv => ?_
      split
      · exact hQ _ _ hnil
      · exact hQ _ _ hv
    · split
      · next hargc =>
        simp only [Leads.bind_eq]
        refine windowReg_one h hw fun v _ => ?_
        split
        · simp only [Leads.bind_eq]
          have htwo : (2 : Int64).toInt = 2 := rfl
          refine windowReg_contained h hw (by omega) ?_ fun x hx => hQ _ _ hx
          rw [hargc]
          omega
        · exact hQ _ _ hnil
      · exact hQ _ _ hnil

theorem raiseNative_moved (h : m.Fit size) (hw : w.Fits size) :
    Leads Contained (raiseArguments w) m fun p m₁ =>
      Leads Contained (setReturn w .nil) m₁ fun _ m₂ =>
        Leads Contained (raise p.1 p.2) m₂ fun _ m' => Moved size m m' := by
  refine raiseArguments_contained h hw fun c v hv => ?_
  refine (setReturn_of_immediate h hw rfl).mono fun _ m₁ h₁ => ?_
  exact (raise_moved c h₁.fit (hv.mono h₁.grows)).mono fun _ _ h₂ => h₁.trans h₂

/-- What is known when a native left off. Only probes ask for inner calls. -/
def LeftOff (size : Nat) (m : Machine) : Outcome → Machine → Prop
  | .done, m' => Moved size m m'
  | .construct made, m' => Still size m m' ∧ made.Within m'.memory.heap.size
  | .call _ _, _ => False

theorem construct_leftOff (h : m.Fit size) (hw : w.Fits size) :
    Leads Contained (construct w) m fun o m' => LeftOff size m o m' := by
  simp only [construct, Leads.bind_eq]
  refine windowReg_zero h hw fun v _ => ?_
  split
  · next c _ =>
    simp only [Leads.bind_eq]
    refine (newInstance_still h c).mono ?_
    rintro made m₁ ⟨h₁, hmade⟩
    split
    · simp only [Leads.bind_eq, Leads.pure_eq]
      exact (setReturn_of_immediate h₁.fit hw rfl).mono fun _ _ h₂ => h₁.before h₂
    · simp only [Leads.bind_eq, Leads.get_eq]
      refine ((intern_clerical _).still h₁.fit).mono fun k m₂ h₂ => ?_
      have hmade₂ := hmade.mono h₂.grows
      split
      · simp only [Leads.bind_eq, Leads.pure_eq]
        exact (setReturn_still h₂.fit hw hmade₂).mono fun _ _ h₃ => ((h₁.trans h₂).trans h₃).moved
      · simp only [Leads.bind_eq, Leads.pure_eq]
        exact (returnShared_moved h₂.fit hw hmade₂).mono fun _ _ h₃ =>
          ⟨(h₁.trans h₂).trans h₃, hmade₂.mono h₃.grows⟩
  · simp only [Leads.bind_eq, Leads.get_eq, Leads.pure_eq]
    exact raiseText_moved _ _ h

/-- Control goes on at the start of sturdy code, if there is room for its window. -/
theorem enterCode_moved {base : Int64} {code : Code} {targetClass : Option ClassId}
    (h : m.Fit size) (hcode : code.Sturdy) (hbase : InFile size base) :
    Leads Contained (enterWindow base code.block.registers)
      { m with context := { m.context with base, code := some code, pc := 0, targetClass } }
      fun _ m' => Moved size m { m' with jumped := true } := by
  have h₁ : Fit size
      { m with context := { m.context with base, code := some code, pc := 0, targetClass } } :=
    h.turn rfl
  refine (enterWindow_still h₁).mono fun _ m₂ ⟨h₂, hlow, hhigh⟩ => ?_
  refine ⟨h₂.fit.turn rfl, h₂.grows, h₂.frames, fun _ => ?_⟩
  have hregisters := hcode.block.small
  have htwo := hcode.block.two_le
  have hsmall := h.small
  have hlt := hbase.2
  rw [toInt_add (by omega) (by omega)] at hhigh
  have hzero : (0 : Int64).toInt = 0 := rfl
  have hplace : Place size base (some code) 0 :=
    ⟨hlow, Int.le_of_eq hzero.symm, code, rfl, hcode, hhigh⟩
  show m₂.context.Fits size
  rw [h₂.context]
  exact hplace

/-- A frame for a call from a place whose window lies in the register file. -/
theorem pushFrame_moved (methodId : Symbol) {offset nargs : Int64} (h : m.Fit size)
    (hx : m.context.Fits size) (hw : Window.Fits size ⟨m.context.base + offset, nargs⟩) :
    Leads Contained (pushFrame methodId offset nargs) m fun f m' =>
      Still size m m' ∧ f < m'.frames.size := by
  refine pushFrame_contained methodId offset nargs fun pool => ⟨?_, ?_⟩
  · have h₁ := h.pool pool
    have hframe : Frame.Fits size { m.savedFrame .call with
        ownClass := m.context.targetClass, methodId, offset, nargs } := ⟨hx, hw⟩
    have h₂ := h₁.fit.pushFrames hframe
    refine ⟨h₂.fit.relist fun f hf => ?_, h₂.grows, h₂.frames, rfl⟩
    rcases List.mem_append.1 hf with hf | hf
    · rcases List.mem_cons.1 hf with rfl | hf
      · rw [Array.size_push]
        exact Nat.lt_succ_self _
      · exact h₂.fit.chain_lt f hf
    · exact h₂.fit.markers_lt f hf
  · show m.frames.size < (m.frames.push _).size
    rw [Array.size_push]
    exact Nat.lt_succ_self _

/-- A closure is called on the window of the native that calls it. -/
theorem callProc_moved (h : m.Fit size) (hx : m.context.Fits size) (hw : w.Fits size)
    (hbase : m.context.callBase = w.base) :
    Leads Contained (callProc w) m fun _ m' => Moved size m m' := by
  simp only [callProc, Leads.bind_eq, Leads.get_eq]
  refine windowReg_zero h hw fun v _ => ?_
  split
  · simp only [Leads.bind_eq, Leads.get_eq]
    exact raiseText_moved _ _ h
  · next code frame selfFrame hproc =>
    have hcode := code_of_proc? h hproc
    have hoffset : m.context.base + (m.context.callBase - m.context.base) = w.base := by
      rw [Int64.add_comm, Int64.sub_add_cancel, hbase]
    have hwindow : Window.Fits size
        ⟨m.context.base + (m.context.callBase - m.context.base), w.argc⟩ := by
      rw [hoffset]
      exact hw
    have hend : ∀ m₁, Still size m m₁ →
        Leads Contained (enterWindow m₁.context.callBase code.block.registers)
          { m₁ with context := { m₁.context with
            base := m₁.context.callBase, code := some code, pc := 0 } }
          fun _ m' => Moved size m { m' with jumped := true } := by
      intro m₁ h₁
      have hcall : InFile size m₁.context.callBase := by
        rw [h₁.context, hbase]
        exact hw.base_inFile
      exact (enterCode_moved h₁.fit hcode hcall).mono fun _ _ h₂ => h₁.before h₂
    simp only [Leads.bind_eq, Leads.get_eq]
    refine (pushFrame_moved 0 h hx hwindow).mono ?_
    rintro f m₁ ⟨h₁, _⟩
    split
    · simp only [Leads.bind_eq, Leads.get_eq]
      split
      · next g _ =>
        simp only [modifyContext, Machine.modifyFrame, Leads.bind_eq, Leads.modify_eq,
          Leads.get_eq]
        have h₂ := h₁.fit.modifyFrame f (fun k => { k with
          methodId := (m₁.frameAt g).methodId, ownClass := (m₁.frameAt g).ownClass })
          fun k hk => ⟨hk.place, hk.window⟩
        exact hend _ (h₁.trans h₂)
      · simp only [modifyContext, Leads.bind_eq, Leads.modify_eq, Leads.get_eq]
        exact hend m₁ h₁
    · simp only [modifyContext, Leads.bind_eq, Leads.modify_eq, Leads.get_eq]
      exact hend m₁ h₁

/-! ### All natives -/

theorem runNative_leftOff {n : Native} (h : m.Fit size) (hx : m.context.Fits size)
    (hw : w.Fits size) (hbase : m.context.callBase = w.base) (hn : ∀ p, n ≠ .probe p) :
    Leads Contained (runNative n w) m fun o m' => LeftOff size m o m' := by
  have hreturn : ∀ {v : Value}, v.ref? = none →
      Leads Contained (setReturn w v) m fun _ m' => LeftOff size m .done m' :=
    fun hv => setReturn_of_immediate h hw hv
  cases n <;>
    simp only [runNative, returnBool, Leads.bind_eq, Leads.get_eq, Leads.pure_eq]
  case not | isNil | classOf | objectId => exact windowReg_zero h hw fun v _ => hreturn rfl
  case nilToInt | nilToFloat => exact hreturn rfl
  case equal | notEqual | compare =>
    split
    · simp only [Leads.bind_eq, Leads.pure_eq]
      exact hreturn rfl
    · simp only [Leads.bind_eq, Leads.get_eq, Leads.pure_eq]
      exact windowReg_zero h hw fun u _ => windowReg_one h hw fun v _ => hreturn rfl
  case caseEqual =>
    split
    · simp only [Leads.bind_eq, Leads.pure_eq]
      exact hreturn rfl
    · simp only [Leads.bind_eq]
      refine windowReg_zero h hw fun u _ => windowReg_one h hw fun v _ => ?_
      split
      · simp only [Leads.bind_eq, Leads.get_eq, Leads.pure_eq]
        exact hreturn rfl
      · simp only [Leads.bind_eq, Leads.get_eq, Leads.pure_eq]
        exact hreturn rfl
  case isKindOf =>
    split
    · simp only [Value.cls?, Leads.bind_eq, Leads.pure_eq]
      exact raiseText_moved _ _ h
    · rw [Leads.bind_eq]
      refine windowReg_one h hw fun v _ => ?_
      split
      · simp only [Leads.bind_eq, Leads.pure_eq]
        exact raiseText_moved _ _ h
      · simp only [Leads.bind_eq, Leads.get_eq, Leads.pure_eq]
        exact windowReg_zero h hw fun v _ => hreturn rfl
  case new => exact construct_leftOff h hw
  case dup =>
    refine windowReg_zero h hw fun v hv => ?_
    split
    · simp only [Leads.bind_eq, Leads.pure_eq]
      refine (dupInstance_still h).mono ?_
      rintro v m₁ ⟨h₁, hv⟩
      exact (setReturn_still h₁.fit hw hv).mono fun _ _ h₂ => (h₁.trans h₂).moved
    · exact (Still.refl h).moved
  case attributeReader => exact attributes_moved false h hw
  case attributeAccessor => exact attributes_moved true h hw
  case blockGiven => exact blockGiven_contained h fun b => hreturn rfl
  case raise => exact raiseNative_moved h hw
  case inspect | boolToText => exact windowReg_zero h hw fun v _ => returnText_moved h hw _
  case nilInspect | nilToText => exact returnText_moved h hw _
  case toText =>
    refine windowReg_zero h hw fun v _ => ?_
    split
    · exact (Still.refl h).moved
    · simp only [Leads.bind_eq, Leads.get_eq, Leads.pure_eq]
      exact returnText_moved h hw _
  case «show» =>
    refine arguments_contained h hw fun vs hvs => ((write_clerical _).still h).mono fun _ m₁ h₁ => ?_
    split
    · next v =>
      simp only [Leads.bind_eq, Leads.pure_eq]
      have hv := (hvs v List.mem_cons_self).mono h₁.grows
      exact (returnShared_moved h₁.fit hw hv).mono fun _ _ h₂ => (h₁.trans h₂).moved
    · simp only [Leads.bind_eq, Leads.pure_eq]
      exact (setReturn_of_immediate h₁.fit hw rfl).mono fun _ _ h₂ => h₁.before h₂
  case print => exact arguments_contained h hw fun vs _ => writeText_moved h hw _
  case put =>
    refine arguments_contained h hw fun vs _ => ?_
    split
    · simp only [Leads.bind_eq, Leads.pure_eq]
      exact writeText_moved h hw _
    · simp only [Leads.bind_eq, Leads.pure_eq]
      exact writeText_moved h hw _
  case callProc => exact callProc_moved h hx hw hbase
  case newProc =>
    refine windowReg_block h hw fun v hv => ?_
    split
    · simp only [Leads.bind_eq, Leads.pure_eq]
      exact (returnShared_moved h hw hv).mono fun _ _ h₁ => h₁.moved
    · simp only [Leads.bind_eq, Leads.pure_eq]
      exact raiseText_moved _ _ h
  case attributeGet =>
    refine windowReg_zero h hw fun v _ => ?_
    refine (getVariable_still h _).mono ?_
    rintro x m₁ ⟨h₁, hx₁⟩
    exact (setReturn_still h₁.fit hw hx₁).mono fun _ _ h₂ => (h₁.trans h₂).moved
  case attributeSet =>
    split
    · simp only [Leads.bind_eq, Leads.pure_eq]
      exact raiseText_moved _ _ h
    · simp only [Leads.bind_eq, Leads.get_eq, nameOf, Leads.pure_eq]
      refine windowReg_one h hw fun v hv => windowReg_zero h hw fun obj _ => ?_
      refine ((intern_clerical _).still h).mono fun k m₁ h₁ => ?_
      refine (setVariable_still h₁.fit k (hv.mono h₁.grows)).mono fun _ m₂ h₂ => ?_
      have h₁₂ := h₁.trans h₂
      exact (returnShared_moved h₂.fit hw (hv.mono h₁₂.grows)).mono
        fun _ _ h₃ => (h₁₂.trans h₃).moved
  case instanceMethods | instanceVariables =>
    exact windowReg_zero h hw fun v _ => writeText_moved h hw _
  case memoryStatistics => exact writeText_moved h hw _
  case probe p => exact absurd rfl (hn p)

/-! ### Duties -/

/-- A duty that is in hand and can be done. -/
structure Ready (size : Nat) (m : Machine) (d : Duty) : Prop where
  fits : d.Fits size
  made : ∀ v ∈ d.made, v.Within m.memory.heap.size
  markers : ∀ f ∈ d.markers, f < m.frames.size

theorem Ready.moved {d : Duty} (h : Ready size m d) (hm : Moved size m m') : Ready size m' d :=
  ⟨h.fits, fun v hv => (h.made v hv).mono hm.grows,
    fun f hf => Nat.lt_of_lt_of_le (h.markers f hf) hm.frames⟩

/-- The duties of suspended passes can be done. -/
theorem Fit.ready (h : m.Fit size) : ∀ d ∈ m.duties, Ready size m d := by
  intro d hd
  refine ⟨h.duties d hd, fun v hv => h.roots v ?_, fun f hf => h.nodes f ?_⟩
  · exact List.mem_append_right _ (List.mem_flatMap.2 ⟨d, hd, hv⟩)
  · exact List.mem_append_right _ (List.mem_flatMap.2 ⟨d, hd, hf⟩)

/-- Passes are suspended or taken up. -/
theorem Fit.suspend (h : m.Fit size) {suspended : List Suspension} {context : Context}
    {jumped : Bool} (hready : ∀ d ∈ suspended.flatMap (·.duties), Ready size m d)
    (hmarkers : ∀ f ∈ context.markers, f < m.frames.size) :
    Fit size { m with suspended, context, jumped } := by
  refine ⟨h.regs, h.pos, h.small, h.high, fun v hv => ?_, h.heap, h.methods, h.frames,
    fun f hf => ?_, fun d hd => (hready d hd).fits⟩
  · rcases List.mem_append.1 hv with hv | hv
    · exact h.roots v (List.mem_append_left _ hv)
    · obtain ⟨d, hd, hv⟩ := List.mem_flatMap.1 hv
      exact (hready d hd).made v hv
  · rcases List.mem_append.1 hf with hf | hf
    · exact (List.mem_append.1 hf).elim (h.chain_lt f) (hmarkers f)
    · obtain ⟨d, hd, hf⟩ := List.mem_flatMap.1 hf
      exact (hready d hd).markers f hf

theorem leaveNative_moved {id : MethodId} {b : Int64} {c : Symbol} (h : m.Fit size)
    (hw : w.Fits size) :
    Leads Contained (leaveNative id w b c) m fun _ m' => Moved size m m' := by
  simp only [leaveNative, modifyContext, Leads.bind_eq, Leads.modify_eq, Leads.get_eq]
  refine ((releaseMethod_clerical id).still h).mono fun _ m₁ h₁ => ?_
  have h₂ : Moved size m { m₁ with context := { m₁.context with callBase := b, callee := c } } :=
    h₁.before ⟨h₁.fit.turn rfl, Nat.le_refl _, Nat.le_refl _, fun hx => hx⟩
  split
  · have hone : (1 : Int64).toInt = 1 := rfl
    have hsmall := h.small
    have hbase := hw.base
    have hargc := hw.argc
    have htop := hw.top
    have hrange : RangeInFile size (w.base + 1) (w.argc + 1).toInt.toNat := by
      intro _
      rw [toInt_add (by omega) (by omega), toInt_add (by omega) (by omega), hone]
      omega
    exact Leads.mono (clearRegs_still h₂.fit hrange) fun _ _ h₃ => h₂.trans h₃.moved
  · exact h₂

/-- A constructor pass comes back to the context of its caller. -/
theorem endConstruct_moved {context : Context} {made : Value} (h : m.Fit size)
    (hready : Ready size m (.construct context made w)) :
    Leads Contained (endConstruct context made w) m fun _ m' => Moved size m m' := by
  simp only [endConstruct, Leads.bind_eq, Leads.modify_eq, Leads.get_eq]
  refine (dropAllMarkers_moved h).mono fun _ m₁ h₁ => ?_
  have hready₁ := hready.moved h₁
  obtain ⟨hx, hw⟩ := hready.fits
  have hmade : made.Within m₁.memory.heap.size := hready₁.made made List.mem_cons_self
  have h₂ : Moved size m { m₁ with context, jumped := false } := by
    refine h₁.trans ⟨h₁.fit.relist fun f hf => ?_, Nat.le_refl _, Nat.le_refl _, fun _ => hx⟩
    exact (List.mem_append.1 hf).elim (h₁.fit.chain_lt f) (hready₁.markers f)
  split
  · simp only [Leads.bind_eq, Leads.modify_eq]
    have hmessage := h₁.fit.pendingMessage_within
    have h₃ : Still size { m₁ with context, jumped := false }
        { m₁ with context, jumped := false, pending := none, pendingMessage := .nil } :=
      h₂.fit.reword h₂.fit.excMessage_within (Value.within_of_immediate rfl)
    refine Leads.mono (release_still h₃.fit hmade) fun _ m₄ h₄ => ?_
    have hmessage₄ := hmessage.mono h₄.grows
    refine (setReturn_of_immediate h₄.fit hw rfl).mono fun _ m₅ h₅ => ?_
    refine (raise_moved _ h₅.fit (hmessage₄.mono h₅.grows)).mono fun _ m₆ h₆ => ?_
    have hmessage₆ := (hmessage₄.mono h₅.grows).mono h₆.grows
    refine (release_still h₆.fit hmessage₆).mono fun _ m₇ h₇ => ?_
    exact h₂.trans ((h₃.trans h₄).before (h₅.trans (h₆.trans h₇.moved)))
  · exact Leads.mono (setReturn_still h₂.fit hw hmade) fun _ _ h₃ => h₂.trans h₃.moved

theorem runDuty_moved {d : Duty} (h : m.Fit size) (hd : Ready size m d) :
    Leads Contained (runDuty d) m fun _ m' => Moved size m m' := by
  cases d with
  | construct context made w => exact endConstruct_moved h hd
  | leave id w b c => exact leaveNative_moved h hd.fits
  | deliver scratch w => exact hd.fits.elim

theorem runDuties_moved (ds : List Duty) (h : m.Fit size) (hds : ∀ d ∈ ds, Ready size m d) :
    Leads Contained (runDuties ds) m fun _ m' => Moved size m m' := by
  induction ds generalizing m with
  | nil => exact (Still.refl h).moved
  | cons d ds ih =>
    simp only [runDuties, Leads.bind_eq]
    refine (runDuty_moved h (hds d List.mem_cons_self)).mono fun _ m₁ h₁ => ?_
    refine (ih h₁.fit fun x hx => ?_).mono fun _ _ h₂ => h₁.trans h₂
    exact (hds x (List.mem_cons_of_mem _ hx)).moved h₁

/-! ### Native calls -/

/-- The code of a constructor pass fits a window of its caller. -/
theorem constructorCode_sturdy (hw : w.Fits size) (hsize : (size : Int) ≤ 2 ^ 62) :
    (constructorCode w.argc).Sturdy ∧
      (constructorCode w.argc).block.registers.toInt = w.argc.toInt + 2 := by
  have htwo : (2 : Int64).toInt = 2 := rfl
  have hzero : (0 : Int64).toInt = 0 := rfl
  have hone : (1 : Int64).toInt = 1 := rfl
  have hbase := hw.base
  have hargc := hw.argc
  have htop := hw.top
  have hregisters : (w.argc + 2).toInt = w.argc.toInt + 2 := by
    rw [toInt_add (by omega) (by omega), htwo]
  refine ⟨⟨Nat.zero_lt_one, fun b hb => ?_⟩, hregisters⟩
  obtain rfl := List.mem_singleton.1 (Array.mem_def.1 hb)
  have hshort : ((2 : Nat) : Int) < 2 ^ 63 := by decide
  refine ⟨by rw [hregisters]; omega, by rw [hregisters]; omega, hshort, fun i hi => ?_, nofun⟩
  · have hi' : i = ⟨.sendBlock, 0, 0, w.argc⟩ ∨ i = ⟨.abort, 0, 0, 0⟩ := by
      simpa using hi
    rcases hi' with rfl | rfl
    · refine ⟨fun x hx => ?_, fun n hn => ?_⟩
      · simp [Inst.operands, Opcode.operands] at hx
        rcases hx with rfl | rfl | rfl
        · simp only [Block.Admits, if_true, Opcode.registerSpan, hregisters, hzero, hone]
          omega
        · simp [Block.Admits]
        · trivial
      · obtain rfl := Option.some.inj hn
        show 0 ≤ w.argc.toInt ∧ w.argc.toInt + 2 ≤ 2 ^ 62
        omega
    · refine ⟨fun x hx => absurd hx List.not_mem_nil, fun n hn => ?_⟩
      exact absurd hn (Option.some_ne_none n).symm

theorem currentSize_contained {c : Code} {Q : Int64 → Machine → Prop}
    (hc : m.context.code = some c) (hQ : Q c.block.registers m) :
    Leads Contained currentSize m Q := by
  simp only [currentSize, currentCode, present, Leads.bind_eq, Leads.get_eq, hc, Leads.pure_eq]
  exact hQ

theorem enterConstruct_moved {made : Value} {leave : Duty} (h : m.Fit size)
    (hx : m.context.Fits size) (hw : w.Fits size) (hbase : m.context.callBase = w.base)
    (hmade : made.Within m.memory.heap.size) (hleave : Ready size m leave) :
    Leads Contained (enterConstruct made w [leave]) m fun _ m' => Moved size m m' := by
  obtain ⟨hsturdy, hregisters⟩ := constructorCode_sturdy hw h.small
  simp only [enterConstruct, enterPass, modifyContext, Leads.bind_eq, Leads.modify_eq,
    Leads.get_eq]
  refine currentSize_contained rfl ?_
  have hready : ∀ d ∈ .construct m.context made w :: leave :: m.duties, Ready size m d := by
    intro d hd
    rcases List.mem_cons.1 hd with rfl | hd
    · refine ⟨⟨hx, hw⟩, fun v hv => ?_, h.markers_lt⟩
      obtain rfl := List.mem_singleton.1 hv
      exact hmade
    · rcases List.mem_cons.1 hd with rfl | hd
      · exact hleave
      · exact h.ready d hd
  have h₁ : Fit size { m with
      suspended := ⟨m.context.entry, [.construct m.context made w, leave]⟩ :: m.suspended
      context := { m.context with
        markers := [], base := m.context.callBase, code := some (constructorCode w.argc), pc := 0
        entry := m.chain.head? }
      jumped := false } := h.suspend hready (by simp)
  refine Leads.mono (enterWindow_still h₁) ?_
  rintro _ m₂ ⟨h₂, _, _⟩
  refine ⟨h₂.fit, h₂.grows, h₂.frames, fun _ => ?_⟩
  have hzero : (0 : Int64).toInt = 0 := rfl
  have htop := hw.top
  rw [Context.Fits, h₂.context]
  refine ⟨?_, Int.le_of_eq hzero.symm, _, rfl, hsturdy, ?_⟩
  · show 0 ≤ m.context.callBase.toInt
    rw [hbase]
    exact hw.base
  · show m.context.callBase.toInt + _ ≤ _
    rw [hbase, hregisters]
    omega

/-- A native call has begun on its window. -/
theorem enterNative_contained {id : MethodId} {Q : Duty → Machine → Prop} (h : m.Fit size)
    (hw : w.Fits size)
    (hQ : ∀ d m', Moved size m m' → Ready size m' d → m'.context.callBase = w.base →
      (m'.methodAt id).native? = (m.methodAt id).native? → Q d m') :
    Leads Contained (enterNative id w) m Q := by
  simp only [enterNative, modifyContext, acquireMethod, modifyMethod, Leads.bind_eq, Leads.get_eq,
    Leads.modify_eq, Leads.pure_eq]
  have h₁ : Moved size m { m with context := { m.context with
      callBase := w.base, callee := (m.methodAt id).symbol } } :=
    ⟨h.turn rfl, Nat.le_refl _, Nat.le_refl _, fun hx => hx⟩
  have h₂ := h₁.fit.modifyMethods id (f := fun k => { k with refCount := k.refCount + 1 })
    fun _ => rfl
  refine hQ _ _ (h₁.trans h₂.moved) ⟨hw, by simp [Duty.made], by simp [Duty.markers]⟩ rfl ?_
  exact native?_modify (f := fun k => { k with refCount := k.refCount + 1 }) fun _ => rfl

theorem checkWindow_contained {Q : Unit → Machine → Prop} (h : m.Fit size) (hw : w.Fits size)
    (hQ : Q () m) : Leads Contained (checkWindow w) m Q := by
  have hsmall := h.small
  have hbase := hw.base
  have hargc := hw.argc
  have htop := hw.top
  have htwo : (2 : Int64).toInt = 2 := rfl
  have hzero : (0 : Int64).toInt = 0 := rfl
  have hargs : (w.base + w.argc).toInt = w.base.toInt + w.argc.toInt :=
    toInt_add (by omega) (by omega)
  have hhigh : (w.base + w.argc + 2).toInt = w.base.toInt + w.argc.toInt + 2 := by
    rw [toInt_add (by omega) (by omega), hargs, htwo]
  simp only [checkWindow, Leads.bind_eq, Leads.get_eq]
  rw [if_neg]
  · exact hQ
  · rw [Int64.lt_iff_toInt_lt, Int64.lt_iff_toInt_lt, hhigh, h.regs]
    omega

/-- A native call is over, or waits for a constructor pass. -/
theorem callNative_moved (limit : Nat) {id : MethodId} (h : m.Fit size) (hx : m.context.Fits size)
    (hw : w.Fits size) (hid : (m.methodAt id).isNative) :
    Leads Contained (callNative limit ⟨id, w, []⟩) m fun p m' =>
      Moved size m m' ∧ ∀ v, p ≠ .finished v := by
  obtain ⟨n, hn⟩ := Option.isSome_iff_exists.1 hid
  have hprobe : ∀ p, n ≠ .probe p := by
    have hfits := methodAt_fits h id
    unfold Method.native? at hn
    split at hn
    · next n' hbody =>
      cases hn
      rw [hbody] at hfits
      exact hfits
    · cases hn
  unfold callNative
  simp only [startNative, Leads.bind_eq, Leads.get_eq]
  refine enterNative_contained h hw fun leave m₁ h₁ hleave hbase hnative => ?_
  refine checkWindow_contained h₁.fit hw ?_
  rw [hnative, hn]
  simp only [present, Leads.pure_eq]
  refine (runNative_leftOff h₁.fit (h₁.place hx) hw hbase hprobe).mono fun o m₂ h₂ => ?_
  cases o with
  | done =>
    simp only [Leads.bind_eq, Leads.pure_eq]
    have h₁₂ := h₁.trans h₂
    refine (runDuties_moved [leave] h₁₂.fit fun d hd => ?_).mono fun _ _ h₃ => ⟨h₁₂.trans h₃, by simp⟩
    obtain rfl := List.mem_singleton.1 hd
    exact hleave.moved h₂
  | construct made =>
    simp only [Leads.bind_eq, Leads.pure_eq]
    obtain ⟨hstill, hmade⟩ := h₂
    have hx₂ : m₂.context.Fits size := hstill.moved.place (h₁.place hx)
    refine (enterConstruct_moved hstill.fit hx₂ hw (hstill.context ▸ hbase) hmade
      (hleave.moved hstill.moved)).mono fun _ _ h₃ => ?_
    exact ⟨h₁.trans (hstill.before h₃), by simp⟩
  | call id' w' => exact h₂.elim

/-! ### Calls of methods -/

/-- A method that is code is entered in the window of its arguments. -/
theorem callCode_moved {a argc : Int64} {name : Symbol} {id : MethodId} (owner : ClassId)
    {code : Code} (h : m.Fit size) (hx : m.context.Fits size)
    (hw : Window.Fits size ⟨m.context.base + a, argc⟩) (hcode : code.Sturdy) :
    Leads Contained (callCode a name argc id owner code) m fun _ m' => Moved size m m' := by
  simp only [callCode, Machine.modifyFrame, acquireMethod, modifyMethod, modifyContext,
    Leads.bind_eq, Leads.get_eq, Leads.modify_eq]
  refine (pushFrame_moved name h hx hw).mono ?_
  rintro f m₁ ⟨h₁, _⟩
  have h₂ := h₁.fit.modifyFrame f (fun k => { k with ownClass := some owner, method := some id })
    fun k hk => ⟨hk.place, hk.window⟩
  have h₃ := h₂.fit.modifyMethods id (f := fun k => { k with refCount := k.refCount + 1 })
    fun _ => rfl
  exact Leads.mono (enterCode_moved h₃.fit hcode hw.base_inFile)
    fun _ _ h₄ => ((h₁.trans h₂).trans h₃).before h₄

/-- The window of a call, once it is entered. -/
theorem window_of_entered {base argc : Int64} (hsize : (size : Int) ≤ 2 ^ 62)
    (hbase : InFile size base) (hargc : 0 ≤ argc.toInt) (hlt : argc.toInt + 2 ≤ 2 ^ 62)
    (htop : (base + (argc + 2)).toInt ≤ size) : Window.Fits size ⟨base, argc⟩ := by
  have htwo : (2 : Int64).toInt = 2 := rfl
  obtain ⟨hlow, hhigh⟩ := hbase
  have hsum : (argc + 2).toInt = argc.toInt + 2 := by
    rw [toInt_add (by omega) (by omega), htwo]
  rw [toInt_add (by omega) (by omega), hsum] at htop
  exact ⟨hlow, hargc, by dsimp only; omega⟩

theorem dispatch_moved {a argc : Int64} (name : Symbol) (c : ClassId) (h : m.Fit size)
    (hx : m.context.Fits size) (ha : InFile size (m.context.base + a)) (hargc : 0 ≤ argc.toInt)
    (hlt : argc.toInt + 2 ≤ 2 ^ 62) :
    Leads Contained (dispatch a name argc c) m fun p m' =>
      Moved size m m' ∧ ∀ v, p ≠ .finished v := by
  simp only [dispatch, Leads.bind_eq, Leads.get_eq]
  refine (enterWindow_still h).mono ?_
  rintro _ m₁ ⟨h₁, _, htop⟩
  have hw := window_of_entered h.small ha hargc hlt htop
  have hx₁ : m₁.context.Fits size := h₁.moved.place hx
  split
  · simp only [Leads.bind_eq, Leads.get_eq, Leads.pure_eq]
    refine reg_contained h₁.fit ha fun v _ => ?_
    exact (raiseText_moved _ _ h₁.fit).mono fun _ _ h₂ => ⟨h₁.before h₂, by simp⟩
  · next id owner _ =>
    simp only [Leads.bind_eq, Leads.get_eq]
    refine ((recordCall_clerical id owner).still h₁.fit).mono fun _ m₂ h₂ => ?_
    have hx₂ : m₂.context.Fits size := h₂.moved.place hx₁
    have h₁₂ := h₁.trans h₂
    split
    · next n hbody =>
      have hnative : (m₂.methodAt id).isNative := by
        simp [Method.isNative, Method.native?, hbody]
      refine (callNative_moved _ h₂.fit hx₂ hw hnative).mono ?_
      rintro _ _ ⟨h₃, hover⟩
      exact ⟨h₁₂.before h₃, hover⟩
    · next code hbody =>
      have hcode : code.Sturdy := by
        have hfits := methodAt_fits h₂.fit id
        rw [hbody] at hfits
        exact hfits
      simp only [Leads.bind_eq, Leads.pure_eq]
      rw [← h₁₂.context] at hw
      exact (callCode_moved owner h₂.fit hx₂ hw hcode).mono fun _ _ h₃ =>
        ⟨h₁₂.before h₃, by simp⟩

end ObjectMachine.Machine
