import ObjectMachine.Proofs.Invariants
import ObjectMachine.Proofs.Linkage

/-! Where code comes from. Control only ever goes to the code of a frame or marker of the running
pass, to that of a method or closure, to a child of the running code, or back to a pass that
waits. Methods are made of closures and closures of children, so all of it is code that was
checked when a unit was entered, or the code of a constructor: its register operands are not
negative, and neither are the bases of windows. -/

namespace ObjectMachine

namespace Code

/-- Code that runs in a window and refers to no register below it. -/
structure Valid (c : Code) : Prop where
  size : 0 ≤ c.block.registers.toInt
  receiver : c.block.code ≠ #[] → 0 < c.block.registers.toInt
  operand : ∀ i ∈ c.block.code, ∀ n, (.register, n) ∈ i.operands → 0 ≤ n.toInt

/-- Code of a program that was checked, or that of a constructor. -/
def Trusted (c : Code) : Prop :=
  c.program.defect? = none ∧
    (c.index ∈ c.program.visitOrder ∨ c.program.blocks.size ≤ c.index) ∨
  ∃ argc : Int64, 0 < (argc + 2).toInt ∧ c = Machine.constructorCode argc

end Code

theorem Block.valid_of_defect? {b : Block} (h : b.defect? = none) :
    0 < b.registers.toInt ∧ ∀ i ∈ b.code, ∀ n, (.register, n) ∈ i.operands → 0 ≤ n.toInt := by
  obtain ⟨hregisters, -, hoperands⟩ := defect?_eq_none.1 h
  refine ⟨by omega, fun i hi n hn => ?_⟩
  obtain ⟨slot, hslot⟩ := List.mem_iff_getElem?.1 hn
  rcases hoperands i hi slot _ n hslot with hrefers | hoverflows
  · exact hrefers.1
  · have hspan := i.span_cases slot
    simp only [Inst.Overflows] at hoverflows
    omega

namespace Code.Trusted

variable {c c' : Code}

theorem root {p : Program} (h : p.defect? = none) : p.root.Trusted := by
  refine .inl ⟨h, ?_⟩
  rcases Nat.eq_zero_or_pos p.blocks.size with hsize | hpos
  · exact .inr (Nat.le_of_eq hsize)
  · exact .inl (Program.mem_visits_of_mem List.mem_cons_self (List.mem_range.2 hpos))

theorem child (h : c.Trusted) {i : Int64} (hc : c.child? i = some c') : c'.Trusted := by
  unfold child? at hc
  split at hc
  · cases hc
  · obtain ⟨n, hn, rfl⟩ := Option.map_eq_some_iff.1 hc
    rcases h with ⟨hvalid, hindex⟩ | ⟨argc, -, rfl⟩
    · refine .inl ⟨hvalid, ?_⟩
      rcases Nat.lt_or_ge n c.program.blocks.size with hlt | hle
      · refine .inl ?_
        rcases hindex with hvisited | hout
        · refine Program.mem_visits_child hvisited ?_ (List.mem_range.2 hlt)
          exact Array.mem_toList_iff.2 (Array.mem_of_getElem? hn)
        · simp [block, Program.block, Array.getElem?_eq_none hout] at hn
      · exact .inr hle
    · simp [Machine.constructorCode, block, Program.root, Program.block] at hn

theorem valid (h : c.Trusted) : c.Valid := by
  rcases h with ⟨hvalid, hvisited | hout⟩ | ⟨argc, hpos, rfl⟩
  · obtain ⟨hsize, hoperand⟩ := Block.valid_of_defect? (List.findSome?_eq_none_iff.1 hvalid _ hvisited)
    exact ⟨Int.le_of_lt hsize, fun _ => hsize, hoperand⟩
  · have hblock : c.block = {} := by simp [block, Program.block, Array.getElem?_eq_none hout]
    refine ⟨?_, ?_, ?_⟩ <;> rw [hblock]
    · decide
    · exact fun hne => absurd rfl hne
    · exact fun _ hi => absurd hi (Array.not_mem_empty _)
  · refine ⟨Int.le_of_lt hpos, fun _ => hpos, fun i hi n hn => ?_⟩
    simp only [Machine.constructorCode, block, Program.root, Program.block, Array.getD_eq_getD_getElem?,
      List.getElem?_toArray, List.getElem?_cons_zero, Option.getD_some, List.mem_toArray,
      List.mem_cons, List.not_mem_nil, or_false] at hi
    rcases hi with rfl | rfl
    · simp only [Inst.operands, Opcode.operands, List.zip_cons_cons, List.zip_nil_right, List.mem_cons,
        Prod.mk.injEq, List.not_mem_nil, or_false, true_and, reduceCtorEq, false_and] at hn
      rw [hn]
      decide
    · simp [Inst.operands, Opcode.operands] at hn

end Code.Trusted

/-! ### Where control goes -/

namespace Control

variable {c c' : Control} {f : FrameId}

def Stays (c c' : Control) : Prop :=
  c'.context.base = c.context.base ∧ c'.context.code = c.context.code

theorem At.of_frames {c₁ : Control} (h : c'.At (c₁.frameAt f)) (hframes : c₁.frames = c.frames) :
    c'.At (c.frameAt f) := by
  rwa [frameAt_of_frames hframes] at h

theorem at_pop (f : FrameId) (rest : List FrameId) : (c.pop f rest).At (c.frameAt f) := by
  simp only [pop, restore]
  split <;> exact ⟨rfl, rfl, rfl, rfl⟩

theorem mem_own_of_head {rest : List FrameId} (h : c.chain = f :: rest)
    (hne : c.context.entry ≠ some f) : f ∈ c.own := by
  simp [own, h, hne]

theorem deliver_place (h : c.deliver = some c') :
    Stays c c' ∨ ∃ f ∈ c.own ++ c.context.markers, c'.At (c.frameAt f) := by
  unfold deliver at h
  split at h
  · next f fs hspliced =>
    obtain ⟨c₁, h₁, h₂⟩ := Option.bind_eq_some_iff.1 h
    have hf : f ∈ c.spliced := hspliced ▸ List.mem_cons_self
    refine .inr ⟨f, List.mem_append_left _ (List.mem_filter.1 hf).1, ?_⟩
    exact (at_resume h₂).of_frames (popUntil_samePass h₁).frames
  · split at h
    · next f rest hmarkers =>
      exact .inr ⟨f, List.mem_append_right _ (hmarkers ▸ List.mem_cons_self),
        (at_resume h).of_frames rfl⟩
    · cases h
      exact .inl ⟨rfl, rfl⟩

theorem raise_place {e : ClassId} {message : Value} (h : c.raise e message = some c') :
    Stays c c' ∨ ∃ f ∈ c.own ++ c.context.markers, c'.At (c.frameAt f) := by
  obtain ⟨e', message', hd⟩ := raise_eq_deliver h
  rcases deliver_place hd with hstays | ⟨f, hf, hat⟩
  · exact .inl hstays
  · exact .inr ⟨f, hf, hat.of_frames rfl⟩

/-- Where an instruction goes that stays in its pass. -/
theorem Move.place {op : Opcode} (h : c.Move op .same c') :
    Stays c c' ∨ (∃ f ∈ c.own ++ c.context.markers, c'.At (c.frameAt f)) ∨
      ∃ base code targetClass, c' = c.call base code targetClass := by
  cases h with
  | call hop hcall =>
    cases hcall with
    | deed hd =>
      rcases hd with rfl | ⟨base, code, targetClass, rfl⟩ | ⟨e, message, hr⟩
      · exact .inl ⟨rfl, rfl⟩
      · exact .inr (.inr ⟨base, code, targetClass, rfl⟩)
      · exact (raise_place hr).imp_right .inl
  | resume htop hr =>
    obtain ⟨hhead, hkeep⟩ := Option.filter_eq_some_iff.1 htop
    obtain ⟨rest, hchain⟩ := List.head?_eq_some_iff.1 hhead
    refine .inr (.inl ⟨_, List.mem_append_left _ ?_, (at_resume hr).of_frames rfl⟩)
    rw [Bool.and_eq_true] at hkeep
    exact mem_own_of_head hchain (bne_iff_ne.1 hkeep.1)
  | @back f rest htop hsettle hentry hchain =>
    refine .inr (.inl ⟨_, List.mem_append_left _ ?_, at_pop _ _⟩)
    rw [hchain] at hentry
    exact mem_own_of_head hchain fun heq => hentry heq.symm
  | _ => exact .inl ⟨rfl, rfl⟩

/-- All code that control can come to without a call is in `K`, with its window. -/
structure Throughout (K : Int64 → Option Code → Prop) (c : Control) : Prop where
  here : K c.context.base c.context.code
  frames : ∀ f, K (c.frameAt f).base (c.frameAt f).code
  waiting : ∀ s ∈ c.suspended, ∀ x made w, .construct x made w ∈ s.duties → K x.base x.code

variable {K : Int64 → Option Code → Prop} {ph ph' : Phase}

theorem Throughout.at (h : c.Throughout K) (hat : c'.At (c.frameAt f)) :
    K c'.context.base c'.context.code := by
  rw [hat.base, hat.code]
  exact h.frames f

theorem Throughout.stays (h : c.Throughout K) (hstays : Stays c c') :
    K c'.context.base c'.context.code := by
  rw [hstays.1, hstays.2]
  exact h.here

/-- A frame that is pushed comes back to where control is. -/
theorem Throughout.push (h : c.Throughout K) {k : Frame} (hframes : c'.frames = c.frames.push k)
    (hbase : k.base = c.context.base) (hcode : k.code = c.context.code) (f : FrameId) :
    K (c'.frameAt f).base (c'.frameAt f).code := by
  have hat : c'.frameAt f = if f = c.frames.size then k else c.frameAt f := by
    simp only [frameAt, hframes, Array.getD_eq_getD_getElem?, Array.getElem?_push]
    split <;> rfl
  rw [hat]
  split
  · rw [hbase, hcode]
    exact h.here
  · exact h.frames f

theorem Throughout.same (h : c.Throughout K) (hframes : c'.frames = c.frames)
    (hsuspended : c'.suspended ⊆ c.suspended) (hhere : K c'.context.base c'.context.code) :
    c'.Throughout K :=
  ⟨hhere, fun f => frameAt_of_frames hframes f ▸ h.frames f, fun s hs => h.waiting s (hsuspended hs)⟩

theorem popUntil_place {target : Option FrameId} {fs : List FrameId}
    (h : popUntil target fs c = some c') : Stays c c' ∨
      ∃ f ∈ fs.takeWhile fun f => target != some f,
        c'.context.base = (c.frameAt f).base ∧ c'.context.code = (c.frameAt f).code := by
  induction fs generalizing c with
  | nil =>
    rw [popUntil] at h
    split at h
    · cases h
      exact .inl ⟨rfl, rfl⟩
    · cases h
  | cons f rest ih =>
    rw [popUntil] at h
    split at h
    · cases h
      exact .inl ⟨rfl, rfl⟩
    · next hne =>
      rw [List.takeWhile_cons_of_pos (p := fun f => target != some f) (bne_iff_ne.2 hne)]
      rcases ih h with hstays | ⟨g, hg, hat⟩
      · refine .inr ⟨f, List.mem_cons_self, ?_, ?_⟩
        · exact hstays.1.trans (at_pop f rest).base
        · exact hstays.2.trans (at_pop f rest).code
      · rw [frameAt_of_frames pop_samePass.frames] at hat
        exact .inr ⟨g, List.mem_cons_of_mem _ hg, hat⟩

theorem Throughout.move {op : Opcode} (h : c.Throughout K) (hm : c.Move op .same c')
    (hcall : ∀ base code targetClass, c' = c.call base code targetClass → K base (some code)) :
    c'.Throughout K := by
  have hhere : K c'.context.base c'.context.code := by
    rcases hm.place with hstays | ⟨f, -, hat⟩ | ⟨base, code, targetClass, rfl⟩
    · exact h.stays hstays
    · exact h.at hat
    · exact hcall base code targetClass rfl
  have hsuspended : c'.suspended ⊆ c.suspended := hm.suspended_of_same ▸ List.Subset.refl _
  cases hm with
  | call hop hc =>
    cases hc with
    | deed hd =>
      rcases hd with rfl | ⟨base, code, targetClass, rfl⟩ | ⟨e, message, hr⟩
      · exact h
      · exact ⟨hhere, h.push (k := c.saved .call c.context.pc none) rfl rfl rfl, h.waiting⟩
      · exact h.same (raise_samePass hr).frames hsuspended hhere
  | protect tag pc htag =>
    exact ⟨hhere, h.push (k := c.saved tag pc c.chain.head?) rfl rfl rfl, h.waiting⟩
  | resume htop hr => exact h.same (resume_samePass hr).frames hsuspended hhere
  | back => exact h.same pop_samePass.frames hsuspended hhere
  | _ => exact h.same rfl hsuspended hhere

/-- Back in the pass that waits, or where an exception goes from there. -/
theorem Throughout.resumePass {s : Suspension} {rest : List Suspension} (h : c.Throughout K)
    (hs : c.suspended = s :: rest) (hr : c.resumePass s rest = some c')
    {x : Context} {made : Value} {w : Window} {duties : List Duty}
    (hd : s.duties = .construct x made w :: duties) (hplain : ∀ d ∈ duties, IsPlain d) :
    c'.Throughout K := by
  have hsub : rest ⊆ c.suspended := hs ▸ List.subset_cons_self _ _
  have hx : K x.base x.code :=
    h.waiting s (hs ▸ List.mem_cons_self) x made w (hd ▸ List.mem_cons_self)
  rw [Control.resumePass, hd] at hr
  obtain ⟨c₁, h₁, h₂⟩ := Option.bind_eq_some_iff.1 hr
  rw [endDuties_of_plain hplain] at h₂
  cases h₂
  simp only [endDuty] at h₁
  split at h₁
  · have hback : Throughout K { c with
        suspended := rest, context := x.bare, pending := none, pendingMessage := .nil } :=
      h.same rfl hsub hx
    have hsame := raise_samePass h₁
    refine hback.same hsame.frames (hsame.suspended ▸ List.Subset.refl _) ?_
    rcases raise_place h₁ with hstays | ⟨f, -, hat⟩
    · exact hback.stays hstays
    · exact hback.at hat
  · cases h₁
    exact h.same rfl hsub hx

theorem Throughout.goto (h : c.Throughout K) (pc : Int64) : (c.goto pc).Throughout K :=
  h.same rfl (List.Subset.refl _) h.here

/-- A part of a tick goes nowhere else, unless it calls. -/
theorem Throughout.turn (h : c.Throughout K) (ht : Turn ph c ph' c')
    (hwaiting : ∀ s ∈ c.suspended, ∃ x made w duties, s.duties = .construct x made w :: duties ∧
      ∀ d ∈ duties, IsPlain d)
    (hcall : ph = .ready → ph' = .settling → ∀ base code targetClass,
      c' = (c.goto (c.context.pc + 1)).call base code targetClass → K base (some code))
    (hnew : ph = .ready → ph' = .ready → K c'.context.base c'.context.code) : c'.Throughout K := by
  cases ht with
  | same hi hmove => exact (h.goto _).move hmove (hcall rfl rfl)
  | entered hi hmove =>
    have hhere := hnew rfl rfl
    obtain ⟨x, made, w, duties, base, argc, hx, hplain, rfl⟩ := hmove.eq_enter
    refine ⟨hhere, h.frames, fun s hs y made' w' hd => ?_⟩
    rcases List.mem_cons.1 hs with rfl | hs
    · rcases List.mem_cons.1 hd with heq | hd
      · cases heq
        have hbase : x.base = c.context.base := congrArg (·.base) hx
        have hcode : x.code = c.context.code := congrArg (·.code) hx
        rw [hbase, hcode]
        exact h.here
      · exact (hplain _ hd).elim
    · exact h.waiting s hs y made' w' hd
  | finished hi hmove =>
    obtain ⟨rfl, -⟩ := hmove.of_over
    exact h.goto _
  | settled hpending => exact h
  | unwound hpending hu =>
    have hsame := popUntil_samePass hu
    refine h.same hsame.frames (hsame.suspended ▸ List.Subset.refl _) ?_
    rcases popUntil_place hu with hstays | ⟨f, -, hbase, hcode⟩
    · exact h.stays hstays
    · rw [hbase, hcode]
      exact h.frames f
  | resumed hs hr =>
    obtain ⟨x, made, w, duties, hd, hplain⟩ := hwaiting _ (hs ▸ List.mem_cons_self)
    exact h.resumePass hs hr hd hplain

end Control

/-! ### Machines -/

namespace Machine

variable {P : Permit} {b : Int64} {m m₁ m' : Machine} {ph ph' : Phase} {owned : List Value}

/-- Every window is in the file from a register on, and all code is checked. -/
structure Vetted (m : Machine) : Prop where
  places : m.control.Throughout fun b code => 0 ≤ b.toInt ∧ ∀ c, code = some c → c.Trusted
  closures : ∀ r c f g, m.memory.closure? r = some (c, f, g) → c.Trusted
  methods : ∀ id c, (m.methodAt id).body = .code c → c.Trusted

theorem Vetted.offers (h : m.Vetted) {code : Code} (hc : m.Offers code) : code.Trusted := by
  rcases hc with ⟨id, hid⟩ | ⟨r, f, g, hr⟩ | ⟨x, i, hx, hi⟩
  · exact h.methods id code hid
  · exact h.closures r code f g hr
  · exact (h.places.here.2 x hx).child hi

/-- Values and code have changed as permitted, where only checked code is permitted. -/
theorem Vetted.alters (h : m.Vetted) (ha : Alters P m m')
    (hmakes : ∀ p : Closure, P.makes p → p.1.Trusted) (hinstalls : ∀ c, P.installs c → c.Trusted)
    (hplaces : m'.control.Throughout fun b code => 0 ≤ b.toInt ∧ ∀ c, code = some c → c.Trusted) :
    m'.Vetted where
  places := hplaces
  closures r c f g hr := (ha.made r _ hr).elim (h.closures r c f g) (hmakes _)
  methods id c hid := (ha.code hid).elim (h.methods id c) (hinstalls c)

theorem Vetted.permit (h : m.Vetted) {i : Inst} :
    (∀ p, (i.permit m).makes p → p.1.Trusted) ∧ ∀ c, (i.permit m).installs c → c.Trusted := by
  refine ⟨?_, ?_⟩
  · rintro p ⟨-, x, child, hx, hchild, rfl⟩
    exact (h.places.here.2 x hx).child hchild
  · rintro c ⟨-, r, f, g, hr⟩
    exact h.closures r c f g hr

theorem Vetted.fetched (h : m.Vetted) : m.fetched.Vetted :=
  ⟨h.places.same rfl (List.Subset.refl _) h.places.here, h.closures, h.methods⟩

/-- The frame that a call has pushed. -/
theorem Strides.entered (h : Strides P b m m') {base : Int64} {code : Code}
    {targetClass : Option ClassId} (hc : m'.control = m.control.call base code targetClass) :
    Entered b m m' m.frames.size := by
  have hframes : m'.control.frames = m.control.frames.push (m.control.saved .call m.context.pc none) :=
    congrArg Control.frames hc
  have hsize : m.control.frames.size = m.frames.size := Array.size_map
  have hlt : m.frames.size < m'.frames.size := by
    have hpush := congrArg Array.size hframes
    rw [Array.size_push, hsize] at hpush
    have hsize' : m'.control.frames.size = m'.frames.size := Array.size_map
    omega
  refine (h.fresh _ (Nat.le_refl _) hlt).resolve_left fun hmarker => ?_
  rw [← isMarker_control, ← hsize, Control.frameAt_push_size _ hframes] at hmarker
  cases hmarker

theorem Orderly.waiting (h : m.Orderly) : ∀ s ∈ m.control.suspended, ∃ x made w duties,
    s.duties = .construct x made w :: duties ∧ ∀ d ∈ duties, Control.IsPlain d := by
  intro s hs
  obtain ⟨x, made, w, id, callBase, callee, hawaits⟩ := h s hs
  refine ⟨x, made, w, _, hawaits.duties, fun d hd => ?_⟩
  rw [List.mem_singleton.1 hd]
  trivial

/-- What every part of a tick keeps. -/
theorem Advance.vetted (h : Advance ph m ph' m') (hm : Steady ph owned m) (ho : m.Orderly)
    (hv : m.Vetted) : m'.Vetted := by
  have hturn := (h.turn hm).1
  have hfetched := hv.fetched
  cases h with
  | same h =>
    obtain ⟨i, -, hacts⟩ := (fetch_step_acts hm.noProbe).of_ok h
    have hacts : Strides _ _ _ _ := hacts
    refine hfetched.alters hacts.alters hfetched.permit.1 hfetched.permit.2 ?_
    refine hv.places.turn hturn ho.waiting (fun _ _ base code targetClass hcall => ?_) nofun
    have hentered := hacts.entered hcall
    obtain ⟨code', hcode, hoffers, -⟩ := hentered.code
    have hbase : m'.context.base = base := congrArg (·.context.base) hcall
    have hcode' : m'.context.code = some code := congrArg (·.context.code) hcall
    cases hcode.symm.trans hcode'
    refine ⟨?_, fun c hc => ?_⟩
    · rw [← hbase, hentered.base]
      exact hentered.nonneg
    · cases hc
      exact hfetched.offers hoffers
  | entered h =>
    obtain ⟨i, -, argc, id, callee, made, -, hacts⟩ := (fetch_step_acts hm.noProbe).of_ok h
    refine hfetched.alters hacts.alters hfetched.permit.1 hfetched.permit.2 ?_
    refine hv.places.turn hturn ho.waiting nofun fun _ _ => ?_
    have hbase : m'.context.base = m.context.base + i.a := congrArg (·.base) hacts.context
    have hcode : m'.context.code = some (constructorCode argc) := congrArg (·.code) hacts.context
    refine ⟨?_, fun c hc => ?_⟩
    · have hnonneg := entryAt?_nonneg hacts.receiver
      exact hbase ▸ hnonneg
    · have hcode' : m'.context.code = some c := hc
      cases hcode.symm.trans hcode'
      exact .inr ⟨argc, hacts.size_pos, rfl⟩
  | finished h =>
    obtain ⟨i, -, hacts⟩ := (fetch_step_acts hm.noProbe).of_ok h
    refine hfetched.alters (Works.toAlters hacts) hfetched.permit.1 hfetched.permit.2 ?_
    exact hv.places.turn hturn ho.waiting nofun nofun
  | settled h =>
    obtain ⟨hgoes, -⟩ := concludeStep_goes.of_ok h
    refine hv.alters hgoes.alters (fun _ h => h.elim) (fun _ h => h.elim) ?_
    exact hv.places.turn hturn ho.waiting nofun nofun
  | unwound h =>
    obtain ⟨hgoes, -⟩ := concludeStep_goes.of_ok h
    refine hv.alters hgoes.alters (fun _ h => h.elim) (fun _ h => h.elim) ?_
    exact hv.places.turn hturn ho.waiting nofun nofun
  | resumed hs h =>
    obtain ⟨x, made, w, id, callBase, callee, hawaits⟩ := ho _ (hs ▸ List.mem_cons_self)
    obtain ⟨hgoes, -⟩ := (resumePass_goes hs hawaits).of_ok h
    refine hv.alters hgoes.alters (fun _ h => h.elim) (fun _ h => h.elim) ?_
    exact hv.places.turn hturn ho.waiting nofun nofun

/-! ### New machines -/

theorem defineClasses_tame (cs : List (Text × ClassId)) : Tame P (defineClasses cs) := by
  induction cs with
  | nil => exact .of_pure _
  | cons x cs ih => exact (defineClass_tame x.1 (some x.2)).of_discard.bind fun _ => ih

/-- Setting up a machine makes no closure and no method in code, and leaves the registers alone. -/
theorem create_alters {c : Config} (h : create c = .ok m) : Alters .nothing (blank (effective c)) m := by
  have hcore : ∀ x ∈ coreMethods, ∀ p, x.2.2 ≠ .probe p :=
    fun x hx => noProbe_of_coreMethods x (List.mem_append_left _ hx)
  have hdebug : ∀ x ∈ debugMethods, ∀ p, x.2.2 ≠ .probe p :=
    fun x hx => noProbe_of_coreMethods x (List.mem_append_right _ hx)
  have hend : ∀ m₁, Leads AnyFault (newInstance .object) m₁ fun v m₂ =>
      Leads AnyFault (do
        if v.isNil then fatal .noMemoryForMain
        modify fun m => { m with topSelf := v }) m₂ fun _ m' => Alters .nothing m₁ m' := by
    intro m₁
    refine (newInstance_tame (P := .nothing) .object m₁).mono fun v m₂ h₂ => ?_
    split
    · trivial
    · exact h₂.toAlters.trans (.of_eq rfl rfl rfl rfl)
  have hboot : Leads AnyFault bootstrap (blank (effective c)) fun _ m' =>
      Alters .nothing (blank (effective c)) m' := by
    simp only [bootstrap, Leads.bind_eq, Leads.discard_eq, Leads.get_eq]
    refine ((intern_clerical _).tame (P := .nothing) _).mono fun _ m₁ h₁ => ?_
    refine (defineClass_tame (P := .nothing) _ _ m₁).mono fun _ m₂ h₂ => ?_
    refine (defineClasses_tame (P := .nothing) _ m₂).mono fun _ m₃ h₃ => ?_
    refine ((intern_clerical _).tame (P := .nothing) m₃).mono fun _ m₄ h₄ => ?_
    refine ((intern_clerical _).tame (P := .nothing) m₄).mono fun _ m₅ h₅ => ?_
    refine ((defineNatives_clerical _ hcore).tame (P := .nothing) m₅).mono fun _ m₆ h₆ => ?_
    have h : Works .nothing (blank (effective c)) m₆ :=
      h₁.trans (h₂.trans (h₃.trans (h₄.trans (h₅.trans h₆))))
    split
    · simp only [Leads.bind_eq]
      refine ((defineNatives_clerical _ hdebug).tame (P := .nothing) m₆).mono fun _ m₇ h₇ => ?_
      exact (hend m₇).mono fun _ _ h₈ => h₈.mono fun _ _ h₉ => (h.trans h₇).toAlters.trans h₉
    · rw [Leads.bind_eq]
      exact (hend m₆).mono fun _ _ h₈ => h₈.mono fun _ _ h₉ => h.toAlters.trans h₉
  unfold create at h
  split at h
  · next hm' =>
    cases h
    exact hboot.of_ok hm'
  · cases h

theorem create_control {c : Config} (h : create c = .ok m) :
    m.control = (blank (effective c)).control := by
  have hboot := bootstrap_ledger (s := True) (blank_ledger (effective c)) rfl
  unfold create at h
  split at h
  · next hm' =>
    cases h
    exact (hboot.of_ok hm').2
  · cases h

/-- Frames come back to where they came back to. -/
theorem Goes.place (h : Goes P m m') (f : FrameId) :
    (m'.frameAt f).base = (m.frameAt f).base ∧ (m'.frameAt f).code = (m.frameAt f).code := by
  rcases Nat.lt_or_ge f m.frames.size with hlt | hle
  · rcases h.lasting.old f hlt with heq | heq <;> rw [heq] <;> exact ⟨rfl, rfl⟩
  · have hle' : m'.frames.size ≤ f := h.size ▸ hle
    simp [frameAt, Array.getD_eq_getD_getElem?, hle, hle']

theorem Vetted.goes (h : m.Vetted) (hgoes : Goes P m m') (hmakes : ∀ p, ¬P.makes p)
    (hinstalls : ∀ c, ¬P.installs c) (hsuspended : m'.suspended = m.suspended)
    (hhere : 0 ≤ m'.context.base.toInt ∧ ∀ c, m'.context.code = some c → c.Trusted) : m'.Vetted := by
  refine h.alters hgoes.alters (fun p hp => (hmakes p hp).elim) (fun c hc => (hinstalls c hc).elim)
    ⟨hhere, fun f => ?_, ?_⟩
  · obtain ⟨hbase, hcode⟩ := hgoes.place f
    simp only [frameAt_control, Frame.bare, hbase, hcode]
    simpa only [frameAt_control, Frame.bare] using h.places.frames f
  · have hwaiting := h.places.waiting
    simp only [control] at hwaiting ⊢
    rwa [hsuspended]

theorem Vetted.rests (h : m.Vetted) (hgoes : Goes P m m') (hmakes : ∀ p, ¬P.makes p)
    (hinstalls : ∀ c, ¬P.installs c) (hrests : m.control.Rests m'.control) : m'.Vetted := by
  refine h.goes hgoes hmakes hinstalls hrests.suspended ?_
  have hbase : m'.context.base = m.context.base := hrests.base
  have hcode : m'.context.code = m.context.code := hrests.code
  rw [hbase, hcode]
  exact h.places.here

theorem vetted_invariant : Invariant fun m => Tidy m ∧ Vetted m where
  new h := by
    refine ⟨tidy_invariant.new h, ?_⟩
    have hcontrol := create_control h
    have hblank : ∀ c, Vetted (blank c) := by
      refine fun c => ⟨⟨⟨Int.le_refl _, nofun⟩, fun f => ?_, nofun⟩, nofun, nofun⟩
      simp [Control.frameAt, control, blank]
    refine (hblank _).alters (create_alters h) (fun _ h => h.elim) (fun _ h => h.elim) ?_
    rw [hcontrol]
    exact (hblank _).places
  enter hvalid h hI := by
    obtain ⟨hgoes, hcontext, -, hs, -⟩ := (enterUnit_leads _).of_ok h
    refine ⟨tidy_invariant.enter hvalid h hI.1, hI.2.goes hgoes (fun _ h => h) (fun _ h => h) hs ?_⟩
    rw [hcontext]
    refine ⟨Int.le_refl _, fun c hc => ?_⟩
    cases hc
    exact .root hvalid
  part hm h hI := ⟨tidy_invariant.part hm h hI.1, h.vetted hm hI.1.orderly hI.2⟩
  retire hI := ⟨tidy_invariant.retire hI.1, hI.2.places.same rfl (List.Subset.refl _) hI.2.places.here,
    hI.2.closures, hI.2.methods⟩
  leave hs h hI := by
    obtain ⟨hgoes, hrests⟩ := (leaveUnit_goes _).of_ok h
    exact ⟨tidy_invariant.leave hs h hI.1, hI.2.rests hgoes (fun _ h => h) (fun _ h => h) hrests⟩
  release h hI := by
    have hworks := (release_tame (P := .nothing) _ _).of_ok h
    exact ⟨tidy_invariant.release h hI.1, hI.2.rests hworks.goes (fun _ h => h) (fun _ h => h) hworks.rests⟩
  clearPending h hI := by
    have hgoes := (clearPending_goes (P := .nothing)).of_ok h
    refine ⟨tidy_invariant.clearPending h hI.1, hI.2.rests hgoes (fun _ h => h) (fun _ h => h) ?_⟩
    have hcontrol := clearPending_control.of_ok h
    rw [hcontrol]
    exact ⟨rfl, rfl, rfl, rfl, rfl⟩

variable {a : Machine} {running : Bool}

theorem Reachable.vetted (h : Reachable running owned m) : m.Vetted := (vetted_invariant.reachable h).2

theorem Course.vetted {ok : Phase → Machine → Phase → Machine → Prop} (h : Course ok a ph m)
    (ha : Reachable true owned a) : m.Vetted :=
  (vetted_invariant.course h ha (vetted_invariant.reachable ha)).2

/-- The next instruction refers to no register below its window. -/
theorem Vetted.operand (h : m.Vetted) {i : Inst} (hi : m.control.next? = some i) {n : Int64}
    (hn : (.register, n) ∈ i.operands) : 0 ≤ n.toInt := by
  obtain ⟨c, hc, hget⟩ := Option.bind_eq_some_iff.1 hi
  exact (h.places.here.2 c hc).valid.operand i (mem_of_entryAt? hget) n hn

theorem Vetted.base_nonneg (h : m.Vetted) : 0 ≤ m.context.base.toInt := h.places.here.1

theorem Vetted.size_nonneg (h : m.Vetted) {c : Code} (hc : m.context.code = some c) :
    0 ≤ c.block.registers.toInt := (h.places.here.2 c hc).valid.size

/-- The running code has a register while it has instructions. -/
theorem Vetted.size_pos (h : m.Vetted) {i : Inst} (hi : m.control.next? = some i) :
    ∃ c, m.context.code = some c ∧ 0 < c.block.registers.toInt := by
  obtain ⟨c, hc, hget⟩ := Option.bind_eq_some_iff.1 hi
  refine ⟨c, hc, (h.places.here.2 c hc).valid.receiver fun hnil => ?_⟩
  rw [hnil] at hget
  exact absurd (mem_of_entryAt? hget) (Array.not_mem_empty i)

end Machine

end ObjectMachine
