import ObjectMachine.Proofs.Away

/-! The floors of passes. A constructor pass stands on the register that its result goes into:
neither the window it runs in nor a window that one of its frames or markers leads back to lies
below. So as long as the pass is under way the register is in use. -/

namespace ObjectMachine

namespace Control

variable {c c' : Control} {f : FrameId} {rest : List FrameId} {ph ph' : Phase}

/-! ### What is listed -/

/-- Nothing is on the chain or among the markers that was on neither. -/
def Lists (c c' : Control) : Prop :=
  c'.chain ++ c'.context.markers ⊆ c.chain ++ c.context.markers

theorem Lists.trans {c₁ : Control} (h : Lists c c₁) (h' : Lists c₁ c') : Lists c c' :=
  fun _ hf => h (h' hf)

theorem pop_lists (hchain : c.chain = f :: rest) : Lists c (c.pop f rest) := by
  have hrest : rest.Sublist c.chain := hchain ▸ List.sublist_cons_self _ _
  exact (hrest.append pop_markers.sublist).subset

theorem popUntil_lists {target : Option FrameId} {fs : List FrameId}
    (h : popUntil target fs c = some c') (hfs : c.chain = fs) : Lists c c' := by
  induction fs generalizing c with
  | nil =>
    rw [popUntil] at h
    split at h
    · cases h
      exact List.Subset.refl _
    · cases h
  | cons f fs ih =>
    rw [popUntil] at h
    split at h
    · cases h
      exact List.Subset.refl _
    · exact (pop_lists hfs).trans (ih h rfl)

theorem popUntil_markers {target : Option FrameId} {fs : List FrameId}
    (h : popUntil target fs c = some c') : c'.context.markers <:+ c.context.markers := by
  induction fs generalizing c with
  | nil =>
    rw [popUntil] at h
    split at h
    · cases h
      exact List.suffix_refl _
    · cases h
  | cons f fs ih =>
    rw [popUntil] at h
    split at h
    · cases h
      exact List.suffix_refl _
    · exact (ih h).trans pop_markers

theorem splice_lists_subset : Lists c c.splice := by
  unfold splice
  split
  · next g gs hmarkers =>
    intro f hf
    simp only [List.cons_append, List.mem_cons, List.mem_append] at hf
    simp only [hmarkers, List.mem_append, List.mem_cons]
    tauto
  · exact List.Subset.refl _

theorem land_lists (k : Frame) : Lists c (c.land k) := by
  unfold land
  split
  · exact List.Subset.refl _
  · exact splice_lists_subset

theorem resume_lists (h : c.resume f = some c') : Lists c c' := by
  obtain ⟨c₁, h₁, rfl⟩ := Option.map_eq_some_iff.1 h
  exact (popUntil_lists h₁ rfl).trans (land_lists _)

theorem tail_lists : Lists c { c with chain := c.chain.tail } :=
  ((List.tail_sublist _).append (List.Sublist.refl _)).subset

theorem deliver_lists (h : c.deliver = some c') : Lists c c' := by
  unfold deliver at h
  split at h
  · obtain ⟨c₁, h₁, h₂⟩ := Option.bind_eq_some_iff.1 h
    exact (popUntil_lists h₁ rfl).trans (tail_lists.trans (resume_lists h₂))
  · split at h
    · next f fs hmarkers =>
      have hdrop : Lists c { c with context := { c.context with markers := fs } } := by
        have hsub : fs.Sublist c.context.markers := hmarkers ▸ List.sublist_cons_self _ _
        exact ((List.Sublist.refl _).append hsub).subset
      exact hdrop.trans (resume_lists h)
    · cases h
      exact List.Subset.refl _

theorem raise_lists {e : ClassId} {message : Value} (h : c.raise e message = some c') :
    Lists c c' := by
  obtain ⟨e', message', hd⟩ := raise_eq_deliver h
  exact deliver_lists (c := c.inFlight e' message') hd

theorem own_append_ground (c : Control) : c.own ++ c.ground = c.chain :=
  List.takeWhile_append_dropWhile

/-- Where the ground stays, what is left of a pass belonged to it before. -/
theorem Lists.own (h : Lists c c') (hground : c'.ground = c.ground)
    (hdistinct : (c'.chain ++ c'.context.markers).Nodup) :
    c'.own ++ c'.context.markers ⊆ c.own ++ c.context.markers := by
  rw [← own_append_ground c'] at hdistinct
  intro f hf
  have hout : f ∉ c.ground := by
    rw [← hground]
    intro hg
    rw [List.nodup_append, List.nodup_append] at hdistinct
    obtain ⟨⟨-, -, hown⟩, -, hmarkers⟩ := hdistinct
    rcases List.mem_append.1 hf with hf | hf
    · exact hown f hf f hg rfl
    · exact hmarkers f (List.mem_append_right _ hg) f hf rfl
  have hlisted : f ∈ c'.chain ++ c'.context.markers := by
    rw [← own_append_ground c', List.append_assoc]
    rcases List.mem_append.1 hf with hf | hf
    · exact List.mem_append_left _ hf
    · exact List.mem_append_right _ (List.mem_append_right _ hf)
  have hmem := h hlisted
  rw [← own_append_ground c, List.append_assoc] at hmem
  rcases List.mem_append.1 hmem with hmem | hmem
  · exact List.mem_append_left _ hmem
  · exact List.mem_append_right _ ((List.mem_append.1 hmem).resolve_left hout)

/-! ### Floors -/

section Floors

variable (k : FrameId → Frame)

/-- A pass in the context `x`, with `chain` down to the end, does not go below `low`. -/
structure High (low : Int) (x : Context) (chain : List FrameId) : Prop where
  base : low ≤ x.base.toInt
  frames : ∀ f ∈ chain.takeWhile (fun f => x.entry != some f) ++ x.markers,
    low ≤ (k f).base.toInt

/-- Every pass stands on the register of the pass below that its result goes into. -/
def Floored : Context → List FrameId → List Suspension → Prop
  | _, _, [] => True
  | x, chain, s :: rest => ∃ x' made w duties, s.duties = .construct x' made w :: duties ∧
    x'.base.toInt ≤ w.base.toInt ∧ High k w.base.toInt x chain ∧
    Floored x' (reach chain x.entry) rest

end Floors

variable {k k' : FrameId → Frame} {low : Int} {x x' : Context} {chain chain' : List FrameId}
  {ss : List Suspension}

/-- All suspended passes wait for registers that are not above the running window. -/
theorem Floored.le_base (h : Floored k x chain ss) {s : Suspension} (hs : s ∈ ss) {made : Value}
    {w : Window} {duties : List Duty} (hd : s.duties = .construct x' made w :: duties) :
    w.base.toInt ≤ x.base.toInt := by
  induction ss generalizing x chain with
  | nil => cases hs
  | cons s₁ rest ih =>
    obtain ⟨x₁, made₁, w₁, duties₁, hd₁, hw, hhigh, hrest⟩ := h
    rcases List.mem_cons.1 hs with rfl | hs
    · cases hd₁.symm.trans hd
      exact hhigh.base
    · exact Int.le_trans (ih hrest hs) (Int.le_trans hw hhigh.base)

/-- Frames above the running window are above every floor. -/
theorem Floored.frames (h : Floored k x chain ss) {hi : Int} (hx : x.base.toInt ≤ hi)
    (hk : ∀ f, (k' f).base = (k f).base ∨ hi ≤ (k' f).base.toInt) : Floored k' x chain ss := by
  induction ss generalizing x chain with
  | nil => trivial
  | cons s rest ih =>
    obtain ⟨x', made, w, duties, hd, hw, hhigh, hrest⟩ := h
    have hlow : w.base.toInt ≤ hi := Int.le_trans hhigh.base hx
    refine ⟨x', made, w, duties, hd, hw, ⟨hhigh.base, fun f hf => ?_⟩, ih hrest (Int.le_trans hw hlow)⟩
    rcases hk f with heq | hle
    · rw [heq]
      exact hhigh.frames f hf
    · exact Int.le_trans hlow hle

/-- The running pass goes on above its floor. -/
theorem Floored.step (h : Floored k x chain ss)
    (hhigh : ∀ low, High k low x chain → High k low x' chain')
    (hground : reach chain' x'.entry = reach chain x.entry) : Floored k x' chain' ss := by
  cases ss with
  | nil => trivial
  | cons s rest =>
    obtain ⟨x₁, made, w, duties, hd, hw, hrun, hrest⟩ := h
    exact ⟨x₁, made, w, duties, hd, hw, hhigh _ hrun, hground ▸ hrest⟩

theorem Floored.turn (h : Floored k x chain ss) (hbase : x'.base = x.base)
    (hentry : x'.entry = x.entry) (hmarkers : x'.markers = x.markers) : Floored k x' chain ss := by
  refine h.step (fun low hlow => ⟨hbase ▸ hlow.base, ?_⟩) (by rw [hentry])
  rw [hentry, hmarkers]
  exact hlow.frames

/-! ### Turns -/

theorem frames_push_ne (c : Control) (k : Frame) : c.frames.push k ≠ c.frames := by
  intro heq
  have hsize := congrArg Array.size heq
  rw [Array.size_push] at hsize
  exact absurd hsize (Nat.succ_ne_self _)

/-- What pushes a frame is a call or a marker. -/
theorem Move.frames_cases {op : Opcode} (h : c.Move op .same c') : c'.frames = c.frames ∨
    (∃ base code targetClass, c' = c.call base code targetClass) ∨ ∃ tag pc, c' = c.mark tag pc := by
  cases h with
  | call hop hcall =>
    cases hcall with
    | deed hd =>
      rcases hd with rfl | ⟨base, code, targetClass, rfl⟩ | ⟨e, message, hr⟩
      · exact .inl rfl
      · exact .inr (.inl ⟨base, code, targetClass, rfl⟩)
      · exact .inl (raise_samePass hr).frames
  | protect tag pc htag => exact .inr (.inr ⟨tag, pc, rfl⟩)
  | resume htop hr => exact .inl (resume_samePass hr).frames
  | back => exact .inl pop_samePass.frames
  | _ => exact .inl rfl

theorem Move.lists {op : Opcode} (h : c.Move op .same c') (hframes : c'.frames = c.frames) :
    Lists c c' := by
  cases h with
  | call hop hcall =>
    cases hcall with
    | deed hd =>
      rcases hd with rfl | ⟨base, code, targetClass, rfl⟩ | ⟨e, message, hr⟩
      · exact List.Subset.refl _
      · exact absurd hframes (frames_push_ne c _)
      · exact raise_lists hr
  | protect tag pc htag => exact absurd hframes (frames_push_ne c _)
  | unprotect n => exact ((List.Sublist.refl _).append (List.drop_sublist _ _)).subset
  | resume htop hr => exact tail_lists.trans (resume_lists hr)
  | back htop hsettle hentry hchain => exact pop_lists hchain
  | _ => exact List.Subset.refl _

/-- An instruction that pushes nothing stays above the floor. -/
theorem Sound.move_high {op : Opcode} (h : Sound c) (hm : c.Move op .same c')
    (hframes : c'.frames = c.frames) (hdistinct : (c'.chain ++ c'.context.markers).Nodup)
    (hhigh : High c.frameAt low c.context c.chain) : High c.frameAt low c'.context c'.chain := by
  refine ⟨?_, fun f hf => hhigh.frames f ((hm.lists hframes).own (h.ground_move hm) hdistinct hf)⟩
  rcases hm.place with hstays | ⟨f, hf, hat⟩ | ⟨base, code, targetClass, rfl⟩
  · rw [hstays.1]
    exact hhigh.base
  · rw [hat.base]
    exact hhigh.frames f hf
  · exact absurd hframes (frames_push_ne c _)

/-- A frame that saves the running window is above every floor. -/
theorem frameAt_push_cases {k : Frame} (hframes : c'.frames = c.frames.push k) (f : FrameId) :
    c'.frameAt f = c.frameAt f ∨ c'.frameAt f = k := by
  simp only [frameAt, hframes, Array.getD_eq_getD_getElem?, Array.getElem?_push]
  split
  · exact .inr rfl
  · exact .inl rfl

theorem Sound.move_floored {op : Opcode} (h : Sound c) (hm : c.Move op .same c')
    (hdistinct : (c'.chain ++ c'.context.markers).Nodup)
    (hfloored : Floored c.frameAt c.context c.chain c.suspended)
    (hcall : ∀ base code targetClass, c' = c.call base code targetClass →
      c.context.base.toInt ≤ base.toInt) :
    Floored c'.frameAt c'.context c'.chain c'.suspended := by
  rw [hm.suspended_of_same]
  have hpush : ∀ k : Frame, c'.frames = c.frames.push k → k.base = c.context.base →
      Floored c'.frameAt c.context c.chain c.suspended := by
    intro k hframes hk
    refine hfloored.frames (Int.le_refl _) fun f => ?_
    rcases frameAt_push_cases hframes f with heq | heq
    · exact .inl (congrArg Frame.base heq)
    · rw [heq, hk]
      exact .inr (Int.le_refl _)
  have hnew : ∀ k : Frame, c'.frames = c.frames.push k → k.base = c.context.base →
      (c'.frameAt c.frames.size).base = c.context.base := by
    intro k hframes hk
    rw [frameAt_push_size k hframes, hk]
  rcases hm.frames_cases with hframes | ⟨base, code, targetClass, rfl⟩ | ⟨tag, pc, rfl⟩
  · have hat : c'.frameAt = c.frameAt := funext (frameAt_of_frames hframes)
    rw [hat]
    exact hfloored.step (fun _ hhigh => h.move_high hm hframes hdistinct hhigh) (h.ground_move hm)
  · have hbase := hnew (c.saved .call c.context.pc none) rfl rfl
    refine (hpush (c.saved .call c.context.pc none) rfl rfl).step (fun low hhigh => ⟨?_, ?_⟩)
      (h.ground_move hm)
    · exact Int.le_trans hhigh.base (hcall base code targetClass rfl)
    · intro f hf
      rcases List.mem_append.1 hf with hf | hf
      · have hchain : (c.call base code targetClass).chain = c.frames.size :: c.chain := rfl
        rw [hchain, List.takeWhile_cons] at hf
        split at hf
        · rcases List.mem_cons.1 hf with rfl | hf
          · rw [hbase]
            exact hhigh.base
          · exact hhigh.frames f (List.mem_append_left _ hf)
        · cases hf
      · exact hhigh.frames f (List.mem_append_right _ hf)
  · have hbase := hnew (c.saved tag pc c.chain.head?) rfl rfl
    refine (hpush (c.saved tag pc c.chain.head?) rfl rfl).step (fun low hhigh => ⟨hhigh.base, ?_⟩)
      (h.ground_move hm)
    intro f hf
    rcases List.mem_append.1 hf with hf | hf
    · exact hhigh.frames f (List.mem_append_left _ hf)
    · rcases List.mem_cons.1 hf with rfl | hf
      · rw [hbase]
        exact hhigh.base
      · exact hhigh.frames f (List.mem_append_right _ hf)

/-- An exception goes nowhere below the floor. -/
theorem Sound.raise_floored {e : ClassId} {message : Value} (h : Sound c)
    (hr : c.raise e message = some c') (hdistinct : (c'.chain ++ c'.context.markers).Nodup)
    (hfloored : Floored c.frameAt c.context c.chain c.suspended) :
    Floored c'.frameAt c'.context c'.chain c'.suspended := by
  have hsame := raise_samePass hr
  have hground := h.ground_raise hr
  rw [hsame.suspended, funext (frameAt_of_frames hsame.frames)]
  refine hfloored.step (fun low hhigh => ⟨?_, fun f hf => ?_⟩) hground
  · rcases raise_place hr with hstays | ⟨f, hf, hat⟩
    · rw [hstays.1]
      exact hhigh.base
    · rw [hat.base]
      exact hhigh.frames f hf
  · exact hhigh.frames f ((raise_lists hr).own hground hdistinct hf)

/-- The entry of a pass that waits is not among the frames of a pass above. -/
theorem Stands.reach_waiting {upper below : List FrameId} {born : Nat} (h : Stands c upper below born)
    {s : Suspension} (hs : c.suspended = s :: ss) :
    reach c.chain s.entry = reach c.ground s.entry := by
  have hlower := h.lower
  rw [hs] at hlower
  obtain ⟨x, made, w, duties, upper', below', born', rfl, -, -, hborn, hlevel, -, -⟩ := hlower
  have hpass : ∀ f ∈ upper, (x.entry != some f) = true := by
    intro f hf
    have hyoung := (h.level.younger f (List.mem_append_left _ hf)).1
    exact bne_iff_ne.2 (hlevel.entry_ne (Nat.le_trans hborn hyoung))
  rw [h.ground_eq, h.chain, reach, List.dropWhile_append_of_pos hpass]
  rfl

/-- The pass that waits is taken up with what the ended one left on the chain. -/
theorem Floored.takeUp {s : Suspension} (h : Floored k c.context c.chain (s :: ss))
    (hwaiting : reach c.chain s.entry = reach c.ground s.entry)
    {made : Value} {w : Window} {duties : List Duty} (hd : s.duties = .construct x made w :: duties)
    (hentry : s.entry = x.entry) : Floored k x c.chain ss := by
  obtain ⟨x', made', w', duties', hd', hw, hhigh, hrest⟩ := h
  cases hd'.symm.trans hd
  rw [hentry] at hwaiting
  refine hrest.step (fun low hlow => ⟨hlow.base, fun f hf => ?_⟩) hwaiting
  rcases List.mem_append.1 hf with hf | hf
  · rw [← own_append_ground c] at hf
    have hmem : f ∈ c.own ∨ f ∈ c.ground.takeWhile fun f => x.entry != some f := by
      rw [List.takeWhile_append] at hf
      split at hf
      · exact List.mem_append.1 hf
      · exact .inl ((List.takeWhile_sublist _).subset hf)
    rcases hmem with hf | hf
    · exact Int.le_trans hlow.base (Int.le_trans hw (hhigh.frames f (List.mem_append_left _ hf)))
    · exact hlow.frames f (List.mem_append_left _ hf)
  · exact hlow.frames f (List.mem_append_right _ hf)

/-- A pass that begins stands on the register it was called on. -/
theorem Floored.enter (h : Floored c.frameAt c.context c.chain c.suspended) {made : Value}
    {w : Window} {duties : List Duty} {base argc : Int64} (hx : x.bare = c.context)
    (hw : c.context.base.toInt ≤ w.base.toInt) (hbase : base = w.base) :
    Floored c.frameAt (c.enter (.construct x made w :: duties) base argc).context c.chain
      (⟨c.context.entry, .construct x made w :: duties⟩ :: c.suspended) := by
  have hxbase : x.base = c.context.base := congrArg (·.base) hx
  have hxentry : x.entry = c.context.entry := congrArg (·.entry) hx
  have hxmarkers : x.markers = c.context.markers := congrArg (·.markers) hx
  refine ⟨x, made, w, duties, rfl, hxbase ▸ hw, ⟨Int.le_of_eq (congrArg Int64.toInt hbase.symm),
    fun f hf => ?_⟩, ?_⟩
  · have hown : c.chain.takeWhile (fun f => c.chain.head? != some f) = [] := takeWhile_head? rfl
    have hnil : f ∈ c.chain.takeWhile (fun f => c.chain.head? != some f) ++ [] := hf
    rw [hown] at hnil
    exact absurd hnil List.not_mem_nil
  · have hground : reach c.chain c.chain.head? = c.chain := reach_head? c.chain
    exact hground.symm ▸ h.turn hxbase hxentry hxmarkers

theorem Turn.floored (ht : Turn ph c ph' c') (hc : Standing ph c)
    (h : Floored c.frameAt c.context c.chain c.suspended)
    (hdistinct : (c'.chain ++ c'.context.markers).Nodup)
    (hcall : ph = .ready → ph' = .settling → ∀ base code targetClass,
      c' = (c.goto (c.context.pc + 1)).call base code targetClass → c.context.base.toInt ≤ base.toInt)
    (hnew : ph = .ready → ph' = .ready → ∀ s ∈ c'.suspended.head?, ∀ x made w duties,
      s.duties = .construct x made w :: duties →
      c.context.base.toInt ≤ w.base.toInt ∧ c'.context.base = w.base) :
    Floored c'.frameAt c'.context c'.chain c'.suspended := by
  cases ht with
  | same hi hmove =>
    refine (hc.1.fetch hi fun hop => ?_).move_floored hmove hdistinct
      (h.turn rfl rfl rfl) (hcall rfl rfl)
    cases hmove.eq_over_of_abort hop
  | entered hi hmove =>
    obtain ⟨x, made, w, duties, base, argc, hx, hplain, rfl⟩ := hmove.eq_enter
    obtain ⟨hw, hbase⟩ := hnew rfl rfl _ rfl x made w duties rfl
    exact Floored.enter (c := c.goto (c.context.pc + 1)) (h.turn rfl rfl rfl) hx hw hbase
  | finished hi hmove =>
    obtain ⟨rfl, -⟩ := hmove.of_over
    exact h.turn rfl rfl rfl
  | settled hpending => exact h
  | unwound hpending hu =>
    have hsame := popUntil_samePass hu
    obtain ⟨hchain, hhead⟩ := chain_of_popUntil hu rfl
    rw [hsame.suspended, funext (frameAt_of_frames hsame.frames)]
    refine h.step (fun low hhigh => ⟨?_, fun f hf => ?_⟩) ?_
    · rcases popUntil_place hu with hstays | ⟨f, hf, hbase, -⟩
      · rw [hstays.1]
        exact hhigh.base
      · rw [hbase]
        exact hhigh.frames f (List.mem_append_left _ hf)
    · rw [hsame.entry, takeWhile_head? hhead, List.nil_append] at hf
      exact hhigh.frames f (List.mem_append_right _ ((popUntil_markers hu).subset hf))
    · rw [hchain, hsame.entry, reach_reach]
  | @resumed _ _ s rest hs hr =>
    obtain ⟨upper, below, born, hstands⟩ := hc
    obtain ⟨x, made, w, duties, rfl, hplain, hsound⟩ := hstands.takeUp hs
    rw [hs] at h
    have hup := h.takeUp (hstands.reach_waiting hs) rfl rfl
    rw [Control.resumePass] at hr
    obtain ⟨c₁, h₁, h₂⟩ := Option.bind_eq_some_iff.1 hr
    rw [endDuties_of_plain hplain] at h₂
    cases h₂
    simp only [endDuty] at h₁
    split at h₁
    · refine Sound.raise_floored ?_ h₁ hdistinct ?_
      · exact hsound.keep ⟨rfl, rfl, rfl⟩ rfl (List.suffix_refl _) hsound.2
      · exact hup.turn rfl rfl rfl
    · cases h₁
      exact hup.turn rfl rfl rfl

end Control

namespace Machine

variable {m m' : Machine} {ph ph' : Phase} {owned : List Value}

/-- Every pass is above its floor. -/
def Floored (m : Machine) : Prop :=
  Control.Floored m.control.frameAt m.control.context m.control.chain m.control.suspended

theorem Tidy.distinct (h : m.Tidy) : (m.chain ++ m.context.markers).Nodup := by
  have hdistinct : (m.chain ++ m.context.markers ++ m.savedMarkers []).Nodup := h.listed.distinct
  exact (List.nodup_append.1 hdistinct).1

theorem Advance.floored (h : Advance ph m ph' m') (hm : Steady ph owned m) (hv : m.Vetted)
    (ht : m'.Tidy) (hf : m.Floored) : m'.Floored := by
  refine (h.turn hm).1.floored hm.standing hf ht.distinct ?_ ?_
  · rintro rfl rfl base code targetClass hcall
    cases h with
    | same h =>
      obtain ⟨i, hi, hacts⟩ := (fetch_step_acts hm.noProbe).of_ok h
      have hacts : Strides _ _ _ _ := hacts
      have hentered := hacts.entered hcall
      have hbase : m'.context.base = base := congrArg (·.context.base) hcall
      rw [← hbase, hentered.base]
      exact hv.landing_low hi hentered.nonneg
  · rintro rfl rfl s hs x made w duties hd
    cases h with
    | entered h =>
      obtain ⟨i, hi, argc, id, callee, made', hargc, hcon⟩ := (fetch_step_acts hm.noProbe).of_ok h
      have hs : m'.suspended.head? = some s := hs
      rw [hcon.suspended] at hs
      cases hs
      cases hd
      have hsome : i.argc? ≠ none := hargc ▸ Option.some_ne_none _
      refine ⟨?_, (congrArg (·.base) hcon.context :)⟩
      exact le_add hv.base_nonneg (hv.receiver hi (.inl hsome)) (entryAt?_nonneg hcon.receiver)

end Machine

end ObjectMachine
