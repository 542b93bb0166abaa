import ObjectMachine.Proofs.Upkeep

/-! What markers lead back to. A marker notes the frame that was on top of the chain when it
was pushed. A call that returns takes its markers with it, but a marker that is resumed from
the chain does not take those that were pushed above it. So a run in which no marker is
pushed while another one waits on top of the chain never loses the frame that a marker leads
back to, and no exception fails to find it. -/

namespace ObjectMachine

namespace Control

section Links

variable (k : FrameId → Frame) (entry : Option FrameId)

/-- A marker leads back to the entry of its pass, or to a call among the frames `fs`. -/
def LeadsBack (fs : List FrameId) (f : FrameId) : Prop :=
  (k f).depth = entry ∨ ∃ d ∈ fs, (k f).depth = some d ∧ (k d).isMarker = false

/-- Every marker on the chain leads back below itself. -/
def Rooted : List FrameId → Prop
  | [] => True
  | f :: fs => ((k f).isMarker → LeadsBack k entry fs f) ∧ Rooted fs

/-- The markers of a pass in the context `x` lead back into its part `upper` of the chain. -/
structure Tied (x : Context) (upper : List FrameId) : Prop where
  rooted : Rooted k x.entry upper
  markers : ∀ f ∈ x.markers, LeadsBack k x.entry upper f

end Links

variable {k : FrameId → Frame} {nested : Prop} {x x' : Context} {entry : Option FrameId}
  {upper below fs gs : List FrameId} {born size : Nat} {c c' : Control} {f g : FrameId}

theorem LeadsBack.mono (h : LeadsBack k entry fs f) (hsub : fs ⊆ gs) : LeadsBack k entry gs f :=
  h.imp_right fun ⟨d, hd, hdepth⟩ => ⟨d, hsub hd, hdepth⟩

/-- A frame that a marker does not lead back to may go. -/
theorem LeadsBack.tail (h : LeadsBack k entry (f :: fs) g)
    (hne : (k f).isMarker = false → (k g).depth ≠ some f) : LeadsBack k entry fs g := by
  rcases h with h | ⟨d, hd, hdepth, hcall⟩
  · exact .inl h
  · rcases List.mem_cons.1 hd with rfl | hd
    · exact absurd hdepth (hne hcall)
    · exact .inr ⟨d, hd, hdepth, hcall⟩

theorem LeadsBack.congr {k' : FrameId → Frame} (h : LeadsBack k entry fs f) (hf : k' f = k f)
    (hfs : ∀ g ∈ fs, k' g = k g) : LeadsBack k' entry fs f := by
  unfold LeadsBack
  rw [hf]
  refine h.imp_right fun ⟨d, hd, hdepth, hcall⟩ => ⟨d, hd, hdepth, ?_⟩
  rw [hfs d hd]
  exact hcall

theorem Rooted.congr {k' : FrameId → Frame} (h : Rooted k entry fs) (hk : ∀ f ∈ fs, k' f = k f) :
    Rooted k' entry fs := by
  induction fs with
  | nil => trivial
  | cons f fs ih =>
    have hfs : ∀ g ∈ fs, k' g = k g := fun g hg => hk g (List.mem_cons_of_mem _ hg)
    have hf : k' f = k f := hk f List.mem_cons_self
    refine ⟨fun hm => ?_, ih h.2 hfs⟩
    rw [hf] at hm
    exact (h.1 hm).congr hf hfs

/-- The chain of a pass joins that of the pass below. -/
theorem Rooted.append {entry' : Option FrameId} (h : Rooted k entry fs) (h' : Rooted k entry' gs)
    (hne : ∀ f ∈ fs, (k f).isMarker → (k f).depth ≠ entry) : Rooted k entry' (fs ++ gs) := by
  induction fs with
  | nil => exact h'
  | cons f fs ih =>
    refine ⟨fun hm => ?_, ih h.2 fun g hg => hne g (List.mem_cons_of_mem _ hg)⟩
    rcases h.1 hm with hentry | ⟨d, hd, hdepth⟩
    · exact absurd hentry (hne f List.mem_cons_self hm)
    · exact .inr ⟨d, List.mem_append_left _ hd, hdepth⟩

theorem Tied.turn (h : Tied k x upper) (hmarkers : x'.markers ⊆ x.markers)
    (hentry : x'.entry = x.entry) : Tied k x' upper := by
  refine ⟨hentry ▸ h.rooted, fun f hf => ?_⟩
  rw [hentry]
  exact h.markers f (hmarkers hf)

theorem Tied.congr {k' : FrameId → Frame} (h : Tied k x upper)
    (hk : ∀ f ∈ upper ++ x.markers, k' f = k f) : Tied k' x upper := by
  have hupper : ∀ f ∈ upper, k' f = k f := fun f hf => hk f (List.mem_append_left _ hf)
  refine ⟨h.rooted.congr hupper, fun f hf => ?_⟩
  exact (h.markers f hf).congr (hk f (List.mem_append_right _ hf)) hupper

/-- A call goes with the markers that lead back to it. The others lead to frames below it, for
older markers lead back no higher than newer ones. -/
theorem Tied.pop (hk : c.frameAt = k) (h : Tied k c.context (f :: upper))
    (hlevel : Level k nested c.context (f :: upper) below born size) (rest : List FrameId) :
    Tied k (c.pop f rest).context upper := by
  have hentry : (c.pop f rest).context.entry = c.context.entry := pop_samePass.entry
  refine ⟨hentry ▸ h.rooted.2, fun g hg => ?_⟩
  rw [hentry]
  have hmem : g ∈ c.context.markers := pop_markers.subset hg
  refine (h.markers g hmem).tail fun hcall hdepth => ?_
  have hkept : g ∈ c.markersWithout f := by
    simp only [Control.pop, restore, hk, hcall] at hg
    exact hg
  rw [markersWithout, hk] at hkept
  cases hdrop : c.context.markers.dropWhile fun j => (k j).depth == some f with
  | nil =>
    rw [hdrop] at hkept
    cases hkept
  | cons j js =>
    have hj : (k j).depth ≠ some f := by
      have hhead := List.head?_dropWhile_not (fun j => (k j).depth == some f) c.context.markers
      rw [hdrop] at hhead
      simpa using hhead
    rw [hdrop] at hkept
    rcases List.mem_cons.1 hkept with rfl | hgs
    · exact hj hdepth
    · have hordered := hlevel.ordered
      have hsuffix : (j :: js) <:+ c.context.markers := hdrop ▸ List.dropWhile_suffix _
      have hpair := (List.pairwise_cons.1 (hordered.sublist hsuffix.sublist)).1 g hgs
      refine hpair ((h.markers j (hsuffix.subset List.mem_cons_self)).imp_right ?_) f ?_ hdepth
      · rintro ⟨d, hd, hdepth, -⟩
        exact ⟨d, hd, hdepth⟩
      · simp [above, hj]

/-- No marker leads back to one that is taken off the chain. -/
theorem Tied.shed (h : Tied k x (f :: upper)) (hf : (k f).isMarker) : Tied k x upper := by
  refine ⟨h.rooted.2, fun g hg => (h.markers g hg).tail fun hcall => ?_⟩
  rw [hf] at hcall
  cases hcall

/-- A marker that is pushed leads back to the top of the chain, which has to be a call. -/
theorem Tied.mark (h : Tied k x upper) (hdepth : (k f).depth = upper.head?.or x.entry)
    (htop : ∀ u ∈ upper.head?, (k u).isMarker = false) (hmarkers : x'.markers = f :: x.markers)
    (hentry : x'.entry = x.entry) : Tied k x' upper := by
  refine ⟨hentry ▸ h.rooted, fun g hg => ?_⟩
  rw [hmarkers] at hg
  rw [hentry]
  rcases List.mem_cons.1 hg with rfl | hg
  · cases upper with
    | nil => exact .inl hdepth
    | cons u us => exact .inr ⟨u, List.mem_cons_self, hdepth, htop u rfl⟩
  · exact h.markers g hg

/-- The markers of a pass stay tied if none is pushed on another one. -/
def links : Upkeep where
  Goes _ := Tied
  Unwinds _ := Tied
  LeadsTo _ := LeadsBack
  Enters _ _ := True
  Bears k fs := ∀ f ∈ fs.head?, (k f).isMarker = false

theorem links_laws : links.Laws where
  congr h hk := h.congr hk
  bears h hk f hf := by
    rw [hk f (List.mem_of_mem_head? hf)]
    exact h f hf
  begin hmarkers := ⟨trivial, fun f hf => nomatch hmarkers ▸ hf⟩
  turn h hmarkers hentry _ := h.turn hmarkers hentry
  call h hcall _ _ hmarkers hentry _ := by
    refine ⟨⟨fun hm => ?_, hentry ▸ h.rooted⟩, fun g hg => ?_⟩
    · cases hcall.symm.trans hm
    · rw [hentry]
      exact (h.markers g (hmarkers ▸ hg)).mono (List.subset_cons_self _ _)
  mark h hdepth _ _ htop hmarkers hentry _ := h.mark hdepth htop hmarkers hentry
  back hk h hlevel _ := h.pop hk hlevel _
  splice {_ _ _ _ _ f} h _ hm _ hentry _ := by
    refine ⟨⟨fun _ => ?_, hentry ▸ h.rooted⟩, fun g hg => ?_⟩
    · rw [hentry]
      exact h.markers f (hm ▸ List.mem_cons_self)
    · rw [hentry]
      exact (h.markers g (hm ▸ List.mem_cons_of_mem f hg)).mono (List.subset_cons_self _ _)
  unwinds h := h
  pop hk h hlevel := h.pop hk hlevel _
  shed h hf := ⟨h.shed hf, h.rooted.1 hf⟩
  take h hm hentry :=
    ⟨h.turn (hm ▸ List.subset_cons_self _ _) hentry, h.markers _ (hm ▸ List.mem_cons_self)⟩
  arrive h _ _ _ hmarkers hentry _ := h.turn (hmarkers ▸ List.Subset.refl _) hentry

/-! ### All passes -/

/-- No marker has lost the frame it leads back to. -/
def Linked : Control → Prop := links.Holds

theorem Linked.tied (h : Linked c) : Tied c.frameAt c.context c.own :=
  have ⟨_, _, htied⟩ := h.here
  htied

/-- Where no marker waits on top of the chain, one may be pushed. -/
theorem Sound.bears (hc : Sound c) (htop : c.topMarker? = none) :
    links.Bears c.frameAt c.own := by
  obtain ⟨⟨upper, below, born, hstands⟩, -⟩ := hc
  rw [hstands.own_eq]
  cases upper with
  | nil => nofun
  | cons u us =>
    intro f hf
    obtain rfl : u = f := Option.some.inj hf
    exact hstands.isMarker_of_top htop

/-- A suspended pass is taken up, with what the pass it waited for left on the chain. -/
theorem Linked.takeUp (h : Linked c) (hstands : Stands c upper below born) {made : Value}
    {w : Window} {duties : List Duty} {rest : List Suspension}
    (hs : c.suspended = ⟨x.entry, .construct x made w :: duties⟩ :: rest) :
    Linked { c with suspended := rest, context := x.bare } := by
  have hlower := hstands.lower
  have htied := h.lower
  rw [hs] at hlower htied
  obtain ⟨x', made', w', duties', upper', below', born', heq, -, rfl, hborn, hlevel, -, -⟩ := hlower
  simp only [Suspension.mk.injEq, List.cons.injEq, Duty.construct.injEq] at heq
  obtain ⟨-, ⟨rfl, -, -⟩, -⟩ := heq
  have hnested : c.suspended ≠ [] := by rw [hs]; exact List.cons_ne_nil _ _
  have hjoin := hstands.level.join hnested hlevel hborn hstands.le_size
  have hchain : c.chain = (upper ++ upper') ++ below' := by
    rw [hstands.chain, List.append_assoc]
  obtain ⟨_, _, hbelow⟩ := htied.1 x made w duties rfl
  rw [hstands.ground_eq, hlevel.takeWhile_chain] at hbelow
  have hown := h.tied.rooted
  rw [hstands.own_eq] at hown
  refine ⟨⟨0, fun _ => rfl, ?_⟩, ?_⟩
  · have heq : own { c with suspended := rest, context := x.bare } = upper ++ upper' := by
      rw [own, hchain]
      exact hjoin.takeWhile_chain
    rw [heq]
    refine ⟨hown.append hbelow.rooted fun f hf hm hdepth => ?_, fun f hf => ?_⟩
    · rcases hstands.level.leading f (List.mem_append_left _ hf) hm with ⟨d, hd, hd₁, -⟩ | ⟨hn, -⟩
      · exact hstands.level.entry_ne hd₁ (hdepth.symm.trans hd)
      · exact hn hnested
    · exact (hbelow.markers f hf).mono (List.subset_append_right upper upper')
  · have heq : ground { c with suspended := rest, context := x.bare } = below' := by
      rw [ground, hchain]
      exact hjoin.reach_entry
    have hrest := htied.2
    rw [hstands.ground_eq, hlevel.reach_entry] at hrest
    rw [heq]
    exact hrest

theorem Linked.unwindEntry (h : Linked c) (hc : Sound c)
    (hu : c.unwind c.context.entry = some c') : Linked c' := by
  have hsame := popUntil_samePass hu
  obtain ⟨⟨upper, below, born, hstands⟩, -⟩ := hc
  refine Upkeep.Holds.step h hsame ?_ fun _ htied => ?_
  · rw [ground, (chain_of_popUntil hu rfl).1, hsame.entry, reach_reach]
    rfl
  · rw [hstands.own_eq] at htied
    rw [Control.unwind, hstands.chain] at hu
    exact links_laws.unwind 0 rfl htied hstands.level hstands.chain (.inl rfl) hu

/-- No part of a tick takes a frame away from a marker that leads back to it. -/
theorem Turn.linked {ph ph' : Phase} (h : Turn ph c ph' c') (hc : Standing ph c) (hl : Linked c)
    (hpush : ph = .ready → ∀ i, c.next? = some i → i.op = .pushRescue ∨ i.op = .pushEnsure →
      c.topMarker? = none) : Linked c' := by
  have hgoto : Linked (c.goto (c.context.pc + 1)) :=
    links_laws.keep hl ⟨rfl, rfl, rfl⟩ rfl (List.Subset.refl _) rfl
  cases h with
  | same hi hmove =>
    have hsound : Sound (c.goto (c.context.pc + 1)) :=
      hc.1.fetch hi fun hop => nomatch hmove.eq_over_of_abort hop
    exact links_laws.move hgoto hsound hmove (fun _ _ _ _ => trivial)
      fun hop => hsound.bears (hpush rfl _ hi hop)
  | entered hi hmove =>
    obtain ⟨x, made, w, duties, base, argc, hx, -, rfl⟩ := hmove.eq_enter
    exact links_laws.enter hgoto made w duties base argc hx
  | finished hi hmove =>
    obtain ⟨rfl, -⟩ := hmove.of_over
    exact hgoto
  | settled => exact hl
  | unwound hpending hu => exact hl.unwindEntry hc hu
  | resumed hs hr =>
    obtain ⟨upper, below, born, hstands⟩ := hc
    obtain ⟨x, made, w, duties, rfl, hd, hsound⟩ := hstands.takeUp hs
    have htaken := hl.takeUp hstands hs
    obtain ⟨c₁, h₁, h₂⟩ := Option.bind_eq_some_iff.1 hr
    rw [endDuties_of_plain hd] at h₂
    cases h₂
    simp only [endDuty] at h₁
    split at h₁
    · refine links_laws.raise ?_ ?_ h₁
      · exact links_laws.keep htaken ⟨rfl, rfl, rfl⟩ rfl (List.Subset.refl _) rfl
      · exact hsound.keep ⟨rfl, rfl, rfl⟩ rfl (List.suffix_refl _) hsound.2
    · cases h₁
      exact htaken

theorem Linked.raisePoint {c₀ : Control} (h : Linked c) (hc : Sound c) (hp : c.RaisePoint c₀) :
    Linked c₀ := by
  induction hp with
  | instruction hi hop => exact links_laws.keep h ⟨rfl, rfl, rfl⟩ rfl (List.Subset.refl _) rfl
  | @handover c₀ c₁ c₂ entry x made w duties rest hp hc₁ _ hu hs ih =>
    have hsound₀ := hc.raisePoint hp
    have hsound : Sound c₁ ∧ Linked c₁ := by
      rcases hc₁ with ⟨e, message, hr⟩ | rfl
      · exact ⟨hsound₀.raise hr, links_laws.raise ih hsound₀ hr⟩
      · exact ⟨hsound₀.keep ⟨rfl, rfl, rfl⟩ rfl (List.suffix_refl _) hsound₀.2,
          links_laws.keep ih ⟨rfl, rfl, rfl⟩ rfl (List.Subset.refl _) rfl⟩
    obtain ⟨upper, below, born, hstands⟩ := hsound.1.unwindEntry hu
    have hs₂ := (popUntil_samePass hu).suspended.trans hs
    obtain ⟨x', made', w', duties', heq, -, -⟩ := hstands.takeUp hs₂
    cases heq
    have htaken := (hsound.2.unwindEntry hsound.1 hu).takeUp hstands hs₂
    exact links_laws.keep htaken ⟨rfl, rfl, rfl⟩ rfl (List.Subset.refl _) rfl

/-! ### Exceptions find their way -/

theorem popUntil_isSome {target : Option FrameId} (h : target = none ∨ ∃ d ∈ fs, target = some d) :
    (popUntil target fs c).isSome := by
  induction fs generalizing c with
  | nil =>
    rcases h with rfl | ⟨d, hd, -⟩
    · rfl
    · cases hd
  | cons f fs ih =>
    rw [popUntil]
    split
    · rfl
    · next hne =>
      refine ih (h.imp_right ?_)
      rintro ⟨d, hd, ht⟩
      rcases List.mem_cons.1 hd with rfl | hd
      · exact absurd ht hne
      · exact ⟨d, hd, ht⟩

/-- A marker of a pass can be resumed. -/
theorem LeadsBack.resume_isSome (hk : c.frameAt = k) (h : LeadsBack k c.context.entry upper f)
    (hentry : below.head? = c.context.entry) (hchain : c.chain = upper ++ below) :
    (c.resume f).isSome := by
  rw [Control.resume, Option.isSome_map, Control.unwind, hk]
  apply popUntil_isSome
  rcases h with h | ⟨d, hd, hdepth, -⟩
  · rw [h, ← hentry, hchain]
    cases below with
    | nil => exact .inl rfl
    | cons e below => exact .inr ⟨e, by simp, rfl⟩
  · exact .inr ⟨d, hchain ▸ List.mem_append_left _ hd, hdepth⟩

theorem Linked.deliver_isSome (h : Linked c) (hc : Sound c) : c.deliver.isSome := by
  obtain ⟨⟨upper, below, born, hstands⟩, -⟩ := hc
  have htied := h.tied
  rw [hstands.own_eq] at htied
  unfold Control.deliver
  split
  · next f fs hfs =>
    have hspliced := hstands.level.spliced_eq rfl hstands.chain
    have hf : f ∈ upper ∧ (c.frameAt f).isMarker := by
      have hmem : f ∈ upper.filter fun f => (c.frameAt f).isMarker := by
        rw [← hspliced, hfs]
        exact List.mem_cons_self
      exact List.mem_filter.1 hmem
    have hsome : (c.unwind (some f)).isSome :=
      popUntil_isSome (.inr ⟨f, hstands.chain ▸ List.mem_append_left _ hf.1, rfl⟩)
    obtain ⟨c₁, hu⟩ := Option.isSome_iff_exists.1 hsome
    rw [hu, Option.bind_some]
    obtain ⟨upper₂, hw⟩ := hstands.level.unwindFrame rfl hstands.chain hf.1 hu
    have hsame := popUntil_samePass hu
    have hborn := (hstands.level.younger f (List.mem_append_left _ hf.1)).1
    have htied₁ : Tied c.frameAt c₁.context (f :: upper₂) := by
      rw [← hw.level.own_eq hw.chain]
      rw [Control.unwind, hstands.chain] at hu
      exact links_laws.unwind 0 rfl htied hstands.level hstands.chain (.inr ⟨f, rfl, hborn⟩) hu
    refine LeadsBack.resume_isSome (c := { c₁ with chain := c₁.chain.tail })
      (funext (frameAt_of_frames hsame.frames)) (htied₁.rooted.1 hf.2) hw.level.entry ?_
    rw [hw.chain]
    rfl
  · split
    · next f rest hm =>
      exact LeadsBack.resume_isSome (c := { c with context := { c.context with markers := rest } })
        rfl (htied.markers f (hm ▸ List.mem_cons_self)) hstands.level.entry hstands.chain
    · rfl

theorem Linked.raise_isSome (h : Linked c) (hc : Sound c) (e : ClassId) (message : Value) :
    (c.raise e message).isSome := by
  unfold Control.raise
  split
  · have hflight : Linked (c.inFlight (some e) message) :=
      links_laws.keep h ⟨rfl, rfl, rfl⟩ rfl (List.Subset.refl _) rfl
    exact hflight.deliver_isSome (hc.inFlight (some e) message)
  · exact h.deliver_isSome hc

end Control

namespace Machine

variable {m : Machine}

/-- Any fault but the one of an unwinding that does not find its target. -/
def Found (e : Fault) (_ : Machine) : Prop := e ≠ .fatal .unwindTargetMissing

theorem settle_found {memory memory' : Memory} {chores : List Memory.Chore} {e : Fault}
    (h : memory.settle chores = (memory', some e)) : e ≠ .fatal .unwindTargetMissing := by
  fun_induction Memory.settle memory chores with
  | case1 => cases h
  | case2 _ _ _ _ ih => exact ih h
  | case4 _ _ _ _ _ _ _ _ _ _ ih => exact ih h
  | case5 _ _ _ _ _ _ _ _ _ _ ih => exact ih h
  | case8 _ _ _ _ _ _ ih => exact ih h
  | case10 _ _ _ _ _ _ _ _ _ ih => exact ih h
  | case12 _ _ _ _ _ _ _ _ ih => exact ih h
  | _ =>
    cases (Prod.mk.inj h).2
    simp

theorem onMemory_found {change : Memory → Memory × Option Fault}
    (h : ∀ memory memory' e, change memory = (memory', some e) → e ≠ .fatal .unwindTargetMissing) :
    Leads Found (onMemory change) m fun _ _ => True := by
  simp only [onMemory, Leads.bind_eq, Leads.modifyGet_eq]
  split
  · next e he => exact h m.memory (change m.memory).1 e (Prod.ext rfl he)
  · trivial

theorem release_found (v : Value) : Leads Found (release v) m fun _ _ => True := by
  unfold release
  split
  · trivial
  · exact onMemory_found fun _ _ _ h => settle_found h

theorem acquire_found (v : Value) : Leads Found (acquire v) m fun _ _ => True := by
  unfold acquire
  split
  · trivial
  · refine onMemory_found fun memory memory' e h => ?_
    unfold Memory.acquire at h
    split at h
    · cases h
    · split at h
      · dsimp only at h
        split at h
        · cases h
          simp
        · cases h
      · cases h
        simp

theorem refund_found (n : Int64) : Leads Found (refund n) m fun _ _ => True := by
  refine onMemory_found fun memory memory' e h => ?_
  dsimp only at h
  split at h
  · cases h
    nofun
  · cases h

theorem freeFrame_found (f : FrameId) : Leads Found (freeFrame f) m fun _ _ => True := by
  simp only [freeFrame, modifyFrame, Leads.bind_eq, Leads.get_eq]
  split
  · simp only [releaseMethod, modifyMethod, nameOf, Leads.bind_eq, Leads.get_eq, Leads.modify_eq]
    split
    · exact (refund_found _).mono fun _ _ _ => refund_found _
    · split
      · simp [Found]
      · exact refund_found _
  · exact refund_found _

theorem dropMarkers_found (fs : List FrameId) : Leads Found (dropMarkers fs) m fun _ _ => True := by
  induction fs generalizing m with
  | nil => trivial
  | cons f fs ih =>
    simp only [dropMarkers, modifyContext, Leads.bind_eq, Leads.modify_eq]
    exact (freeFrame_found f).mono fun _ _ _ => ih

theorem popFrame_found : Leads Found popFrame m fun _ _ => True := by
  simp only [popFrame, dropFrameMarkers, Leads.bind_eq, Leads.get_eq]
  split
  · simp [Found]
  · next f rest hchain =>
    cases hk : (m.frameAt f).isMarker with
    | true =>
      simp only [hk, Bool.not_true, Bool.false_eq_true, if_false, Leads.bind_eq, Leads.get_eq,
        Leads.modify_eq, Leads.pure_eq]
      exact freeFrame_found f
    | false =>
      simp only [hk, Bool.not_false, if_true, Leads.bind_eq, Leads.get_eq, Leads.modify_eq]
      exact (dropMarkers_found _).mono fun _ _ _ => freeFrame_found f

theorem settlePending_found : Leads Found settlePending m fun _ _ => True := by
  simp only [settlePending, Leads.bind_eq, Leads.get_eq]
  split
  · simp only [Leads.bind_eq, Leads.get_eq, Leads.modify_eq]
    split
    · simp [Found]
    · trivial
  · simp only [Leads.bind_eq, Leads.get_eq, Leads.modify_eq]
    refine (release_found _).mono fun _ _ _ => ?_
    split
    · simp [Found]
    · trivial

/-- Only an unwinding that control does not find its target in fails to find it. -/
def Missing (x : Option Control) (e : Fault) (_ : Machine) : Prop :=
  e = .fatal .unwindTargetMissing → x = none

theorem Leads.missing {α : Type} {x : Action α} {Q : α → Machine → Prop} {y : Option Control}
    (h : Leads Found x m fun _ _ => True) (h' : Leads AnyFault x m Q) : Leads (Missing y) x m Q :=
  (h.and h').imp (fun _ _ he heq => absurd heq he) fun _ _ hq => hq.2

theorem popUntil_missing (target : Option FrameId) (fs : List FrameId) (hfs : m.chain = fs) :
    Leads (Missing (m.control.popUntil target fs)) (popUntil target fs) m fun _ m' =>
      m.control.popUntil target fs = some m'.control := by
  induction fs generalizing m with
  | nil =>
    simp only [popUntil, Control.popUntil]
    split
    · rfl
    · exact fun _ => rfl
  | cons f rest ih =>
    simp only [popUntil, Control.popUntil]
    split
    · rfl
    · simp only [Leads.bind_eq]
      refine (Leads.missing popFrame_found popFrame_control).mono ?_
      rintro _ m₁ ⟨f', rest', hchain, h₁⟩
      rw [hfs] at hchain
      cases hchain
      rw [← h₁]
      exact ih (congrArg Control.chain h₁)

theorem unwindTo_missing (target : Option FrameId) :
    Leads (Missing (m.control.unwind target)) (unwindTo target) m fun _ m' =>
      m.control.unwind target = some m'.control := by
  simp only [unwindTo, Leads.bind_eq, Leads.get_eq]
  exact popUntil_missing target m.chain rfl

theorem resumeAt_missing (f : FrameId) :
    Leads (Missing (m.control.resume f)) (resumeAt f) m fun _ _ => True := by
  have hresume : m.control.resume f =
      (m.control.unwind (m.frameAt f).depth).map (·.land (m.frameAt f).bare) := by
    rw [Control.resume, frameAt_control]
    rfl
  have hfree : ∀ m₁ : Machine, Leads (Missing (m.control.resume f)) (do
      freeFrame f
      modify fun m => { m with jumped := true }) m₁ fun _ _ => True := by
    intro m₁
    rw [Leads.bind_eq]
    exact (freeFrame_found f).imp (fun _ _ he heq => absurd heq he) fun _ _ _ => trivial
  simp only [resumeAt, spliceNext, modifyContext, Leads.bind_eq, Leads.get_eq, Leads.modify_eq]
    at hfree ⊢
  refine (unwindTo_missing _).imp (fun e m₁ he heq => ?_) fun _ m₁ _ => ?_
  · rw [hresume, he heq, Option.map_none]
  · split
    all_goals
      simp only [Leads.bind_eq, Leads.get_eq, Leads.modify_eq]
      split
      · simp [Missing]
      · simp only [Leads.bind_eq, Leads.modify_eq]
        exact hfree _

theorem deliverException_missing :
    Leads (Missing m.control.deliver) deliverException m fun _ _ => True := by
  simp only [deliverException, modifyContext, Leads.bind_eq, Leads.get_eq, splicedMarker?_eq]
  cases hs : m.control.spliced with
  | cons f fs =>
    simp only [List.head?_cons, Leads.bind_eq, Leads.modify_eq, Control.deliver, hs]
    refine (unwindTo_missing _).imp (fun e m₁ he heq => ?_) fun _ m₁ h₁ => ?_
    · rw [he heq, Option.bind_none]
    · rw [h₁, Option.bind_some]
      exact resumeAt_missing f
  | nil =>
    simp only [List.head?_nil, Leads.bind_eq, Leads.get_eq]
    split
    · next f rest hm =>
      have hm' : m.control.context.markers = f :: rest := hm
      simp only [Leads.bind_eq, Leads.modify_eq, Control.deliver, hs, hm']
      exact resumeAt_missing f
    · simp only [Leads.bind_eq, Leads.modify_eq]
      exact settlePending_found.imp (fun _ _ he heq => absurd heq he) fun _ _ h => h

/-- A raise fails to find its target only where control has none. -/
theorem raise_missing (e : ClassId) (v : Value) :
    Leads (Missing (m.control.raise e v)) (raise e v) m fun _ _ => True := by
  simp only [raise, Leads.bind_eq, Leads.modify_eq, Leads.get_eq]
  by_cases he : m.exception.isNone
  · have he' : m.control.exception.isNone := he
    simp only [he, if_true, Leads.bind_eq, Leads.modify_eq]
    refine (Leads.missing (acquire_found v) (acquire_control v)).mono fun _ m₁ h₁ => ?_
    have h₁' : m₁.control = m.control := h₁
    simp only [Control.raise, he', if_true]
    rw [← h₁']
    exact deliverException_missing
  · have he' : ¬m.control.exception.isNone := he
    simp only [he, Bool.false_eq_true, if_false, Control.raise, he']
    exact deliverException_missing

/-- No marker is pushed while another one waits on top of the chain. -/
def PushesClear (ph : Phase) (m : Machine) (_ : Phase) (_ : Machine) : Prop :=
  ph = .ready → ∀ i, m.control.next? = some i → i.op = .pushRescue ∨ i.op = .pushEnsure →
    m.topMarker? = none

variable {owned : List Value} {a : Machine} {ph : Phase}

/-- A unit of code begins without markers. -/
theorem Begins.linked (h : Begins owned a) (hunit : a.suspended = []) : a.control.Linked := by
  cases h with
  | unit p hm haborted hpending hvalid h =>
    obtain ⟨-, hc⟩ := (enterUnit_ledger p.root hm.sane.ledger).of_ok h
    have hidle := hm.sane.idle nofun
    have hmarkers : a.control.context.markers = [] :=
      (congrArg (·.context.markers) hc).trans hidle.2
    have hsuspended : a.control.suspended = [] := hunit
    have hown : a.control.own = [] := by
      rw [hc]
      exact Control.takeWhile_head? rfl
    refine ⟨⟨0, fun _ => rfl, ?_⟩, ?_⟩
    · rw [hown]
      exact ⟨trivial, fun f hf => nomatch hmarkers ▸ hf⟩
    · rw [hsuspended]
      trivial
  | construct hm h =>
    obtain ⟨s, hs⟩ := ((Advance.entered h).turn (Reachable.steady hm)).1.suspended
    cases hs.symm.trans hunit

theorem Course.linked (hbegin : Begins owned a) (hunit : a.suspended = [])
    (h : Course PushesClear a ph m) : m.control.Linked := by
  induction h with
  | began => exact hbegin.linked hunit
  | next hcourse hok hadvance ih =>
    have hm := hcourse.steady hbegin.reachable
    refine (hadvance.turn hm).1.linked hm.standing ih fun hph i hi hop => ?_
    rw [← topMarker?_control]
    exact hok hph i hi hop

end Machine

namespace Control

/-- A target that is not found above another one is found below it. -/
theorem reach_suffix {target target' : Option FrameId} {fs : List FrameId}
    (h : ∀ d ∈ fs.takeWhile (fun f => target != some f), target' ≠ some d) :
    reach fs target' <:+ reach fs target := by
  induction fs with
  | nil => exact List.suffix_refl _
  | cons f fs ih =>
    by_cases ht : target = some f
    · have hall : reach (f :: fs) target = f :: fs := by simp [reach, ht]
      rw [hall]
      exact List.dropWhile_suffix _
    · have hcons : (f :: fs).takeWhile (fun f => target != some f) =
          f :: fs.takeWhile fun f => target != some f := by simp [ht]
      rw [hcons] at h
      rw [reach_cons_of_ne ht, reach_cons_of_ne (h f List.mem_cons_self)]
      exact ih fun d hd => h d (List.mem_cons_of_mem _ hd)

/-- What a marker leads back to is on the chain, or there is nothing below. -/
theorem Linked.depth_mem (h : Linked c) (hc : Sound c) (hf : f ∈ c.context.markers) :
    (c.frameAt f).depth = none ∨ ∃ d ∈ c.chain, (c.frameAt f).depth = some d := by
  obtain ⟨⟨upper, below, born, hstands⟩, -⟩ := hc
  have hback := h.tied.markers f hf
  rw [hstands.own_eq] at hback
  rcases hback with hentry | ⟨d, hd, hdepth, -⟩
  · rw [hentry, ← hstands.level.entry, hstands.chain]
    cases below with
    | nil => exact .inl rfl
    | cons e below => exact .inr ⟨e, by simp, rfl⟩
  · exact .inr ⟨d, hstands.chain ▸ List.mem_append_left _ hd, hdepth⟩

/-- Older markers lead back no higher than newer ones. -/
theorem Linked.depths_ordered (h : Linked c) (hc : Sound c) :
    c.context.markers.Pairwise fun f g =>
      reach c.chain (c.frameAt g).depth <:+ reach c.chain (c.frameAt f).depth := by
  obtain ⟨⟨upper, below, born, hstands⟩, -⟩ := hc
  refine hstands.level.ordered.imp_of_mem fun {f g} hf _ hfg => reach_suffix ?_
  have hback := h.tied.markers f hf
  rw [hstands.own_eq] at hback
  have hlive : (c.frameAt f).depth = c.context.entry ∨
      ∃ d ∈ upper, (c.frameAt f).depth = some d :=
    hback.imp_right fun ⟨d, hd, hdepth, _⟩ => ⟨d, hd, hdepth⟩
  have habove : (c.chain.takeWhile fun d => (c.frameAt f).depth != some d) =
      above c.frameAt upper f := by
    rw [hstands.chain, above, List.takeWhile_append]
    split
    · next hlength =>
      have hall := (List.takeWhile_prefix _).eq_of_length hlength
      rcases hlive with hentry | ⟨d, hd, hdepth⟩
      · rw [hall, hentry, takeWhile_head? hstands.level.entry, List.append_nil]
      · have hpass := List.all_eq_true.1 List.all_takeWhile d (hall.symm ▸ hd)
        simp [hdepth] at hpass
    · rfl
  rw [habove]
  exact hfg hlive

end Control

open Machine

/-- In a unit that pushes no marker while another one waits on top of the chain, every marker
of the running pass leads back to a frame on the chain, or to its end; older markers lead
back no higher than newer ones; and no raise fails to find the frame it unwinds to. -/
theorem markers_linked {owned : List Value} {a m : Machine} (hbegin : Begins owned a)
    (hunit : a.suspended = []) (hcourse : Course PushesClear a .ready m) :
    (∀ f ∈ m.context.markers, (m.frameAt f).depth = none ∨
      ∃ d ∈ m.chain, (m.frameAt f).depth = some d) ∧
    (m.context.markers.Pairwise fun f g =>
      Control.reach m.chain (m.frameAt g).depth <:+ Control.reach m.chain (m.frameAt f).depth) ∧
    ∀ e v m₁ m₂, m.control.RaisePoint m₁.control →
      raise e v m₁ ≠ .error (.fatal .unwindTargetMissing) m₂ := by
  have hlinked := hcourse.linked hbegin hunit
  have hsound : m.control.Sound := (hcourse.steady hbegin.reachable).standing.1
  have hat : ∀ f, (m.control.frameAt f).depth = (m.frameAt f).depth := by
    intro f
    rw [frameAt_control]
    rfl
  refine ⟨fun f hf => ?_, ?_, fun e v m₁ m₂ hpoint hraise => ?_⟩
  · have hdepth := hlinked.depth_mem hsound hf
    rw [hat] at hdepth
    exact hdepth
  · have hordered := hlinked.depths_ordered hsound
    simp only [hat] at hordered
    exact hordered
  · have hsome := (hlinked.raisePoint hsound hpoint).raise_isSome (hsound.raisePoint hpoint) e v
    have hnone := (raise_missing e v).of_error hraise rfl
    rw [hnone] at hsome
    cases hsome

/-- Code with two markers that calls a method twice. The method pushes two markers, raises into one of
them, pushes another one and returns. -/
def markedCalls : Program where
  blocks := #[{
    registers := 3, symbols := #["work"], children := #[1],
    code := #[⟨.targetClass, 1, 0, 0⟩, ⟨.makeBlock, 2, 0, 0⟩, ⟨.defineMethod, 1, 0, 0⟩,
      ⟨.pushEnsure, 9, 0, 0⟩, ⟨.pushRescue, 9, 0, 0⟩, ⟨.loadSelf, 1, 0, 0⟩, ⟨.send, 1, 0, 0⟩,
      ⟨.loadSelf, 1, 0, 0⟩, ⟨.send, 1, 0, 0⟩, ⟨.leave, 1, 0, 0⟩] }, {
    registers := 3,
    code := #[⟨.pushEnsure, 5, 0, 0⟩, ⟨.pushRescue, 3, 0, 0⟩, ⟨.raise, 1, 0, 0⟩,
      ⟨.takeException, 1, 0, 0⟩, ⟨.pushRescue, 5, 0, 0⟩, ⟨.leave, 1, 0, 0⟩] }]

/-- In the second call the raise has taken the marker 8 off, and the return from the first call has
taken off those of that call. -/
theorem markers_linked_markedCalls :
    ∃ a m, Begins [] a ∧ a.suspended = [] ∧ Course PushesClear a .ready m ∧
      m.context.markers = [9, 7, 1, 0] ∧ m.chain = [6] ∧
      ((m.frameAt 9).depth = none ∨ (m.frameAt 9).depth = some 6) ∧
      Control.reach m.chain (m.frameAt 1).depth <:+ Control.reach m.chain (m.frameAt 7).depth ∧
      ∀ m₂, raise .typeError .nil m.fetched ≠ .error (.fatal .unwindTargetMissing) m₂ := by
  have hrun : ∃ a ∈ markedCalls.after 0,
      ∃ x ∈ follow (fun _ m _ _ => m.topMarker? == none) 40 .ready a, x.1 = .ready ∧
        x.2.context.markers = [9, 7, 1, 0] ∧ x.2.chain = [6] ∧
        x.2.control.next? = some ⟨.leave, 1, 0, 0⟩ := by
    decide +kernel
  have hvalid : markedCalls.defect? = none := Program.defect?_eq_none (by decide +kernel)
  obtain ⟨a, ha, ⟨ph, m⟩, hfollow, rfl, hmarkers, hchain, hnext⟩ := hrun
  obtain ⟨hbegin, hunit⟩ := Begins.of_after hvalid ha
  have hcourse : Course PushesClear a .ready m :=
    Course.began.follow (fun _ _ _ _ htop _ _ _ _ => beq_iff_eq.1 htop) hfollow
  have hpoint := raisePoint_fetched hnext nofun
  obtain ⟨hback, hordered, hfound⟩ := markers_linked hbegin hunit hcourse
  refine ⟨a, m, hbegin, hunit, hcourse, hmarkers, hchain, ?_, ?_, fun m₂ => hfound _ _ m.fetched m₂ hpoint⟩
  · rw [hchain] at hback
    simpa using hback 9 (hmarkers ▸ List.mem_cons_self)
  · rw [hmarkers] at hordered
    exact (List.pairwise_cons.1 (List.pairwise_cons.1 hordered).2).1 1 List.mem_cons_self

/-- An ensure body that pushes a marker while the outer one waits on the chain, and returns. -/
def abandonedRescue : Program where
  blocks := #[{
    registers := 3,
    code := #[⟨.pushRescue, 5, 0, 0⟩, ⟨.pushEnsure, 3, 0, 0⟩, ⟨.raise, 1, 0, 0⟩,
      ⟨.pushRescue, 5, 0, 0⟩, ⟨.leave, 1, 0, 0⟩, ⟨.raise, 1, 0, 0⟩] }]

/-- The marker 2 leads back to the marker 0, which is off the chain, and the next raise fails. -/
theorem marker_dangles_abandonedRescue :
    ∃ m m₂, Reachable true [] m ∧ m.control.RaisePoint m.fetched.control ∧
      m.context.markers = [2] ∧ (m.frameAt 2).depth = some 0 ∧ m.chain = [] ∧
      raise .typeError .nil m.fetched = .error (.fatal .unwindTargetMissing) m₂ := by
  have hrun : ∃ m ∈ abandonedRescue.after 5, m.control.next? = some ⟨.raise, 1, 0, 0⟩ ∧
      m.context.markers = [2] ∧ (m.frameAt 2).depth = some 0 ∧ m.chain = [] ∧
      Leads (fun e _ => e = .fatal .unwindTargetMissing) (raise .typeError .nil) m.fetched
        fun _ _ => False := by decide +kernel
  have hvalid : abandonedRescue.defect? = none := Program.defect?_eq_none (by decide +kernel)
  obtain ⟨m, hm, hnext, hmarkers, hdepth, hchain, hruns⟩ := hrun
  obtain ⟨_, m₂, hr, rfl⟩ := hruns.exists_error
  exact ⟨m, m₂, Reachable.of_after hvalid hm, raisePoint_fetched hnext nofun, hmarkers, hdepth,
    hchain, hr⟩

end ObjectMachine
