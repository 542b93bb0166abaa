import ObjectMachine.Proofs.Frames

/-! Raising, resuming and settling keep the books. The messages of the exception in flight
and of the pending one are held by the machine itself. -/

namespace ObjectMachine.Machine

variable {s : Prop} {l : Nat} {d : List Duty} {H : List Value} {m : Machine} {v : Value}

/-- The books of a machine with another exception and other messages. -/
theorem Ledger.reword {H' : List Value} {m' : Machine} (h : Ledger s l d H m)
    (hchange : ∃ context exception excMessage pending pendingMessage memory, m' = { m with
      context, exception, excMessage, pending, pendingMessage, memory })
    (hmarkers : m'.context.markers = m.context.markers)
    (hb : m'.memory.Balanced (m.outlay d l) [])
    (he : s → Memory.Exact (H' ++ m'.roots d) [] m'.memory)
    (hexception : s → m'.exception = none → m'.excMessage = .nil)
    (hpending : s → m'.pending = none → m'.pendingMessage = .nil) : Ledger s l d H' m' := by
  obtain ⟨context, exception, excMessage, pending, pendingMessage, memory, rfl⟩ := hchange
  replace hmarkers : context.markers = m.context.markers := hmarkers
  refine ⟨⟨hb.congr ?_, ⟨?_, ?_, h.form.held, h.form.linked⟩, fun hs => ⟨he hs, hexception hs,
    hpending hs, (h.exact hs).proper.noProbe⟩⟩, h.depth, h.manned⟩
  · simp only [outlay, liveMethods, nodes, savedMarkers, duties, hmarkers]
  · have := h.form.framed
    simp only [nodes, savedMarkers, duties, hmarkers] at this ⊢
    exact this
  · have := h.form.marked
    simp only [savedMarkers, duties, hmarkers] at this ⊢
    exact this

theorem clearException_ledger (h : Ledger s l d H m) :
    Leads (Excused s) clearException m fun _ m' => Ledger s l d H m' := by
  simp only [clearException, Leads.bind_eq, Leads.get_eq, Leads.modify_eq]
  refine Leads.mono (release_ledger (H := H) ?_) fun _ _ h' => h'.1
  refine h.reword ⟨_, _, _, _, _, _, rfl⟩ rfl h.balanced (fun hs => ?_) (fun _ _ => rfl)
    fun hs => (h.exact hs).proper.noPending
  refine (h.exact hs).counts.of_tally fun r => ?_
  rw [List.cons_append, tally_cons r m.excMessage]
  simp only [tally_append, tally_roots, duties, tally_nil_value]
  omega

theorem clearPending_ledger (h : Ledger s l d H m) :
    Leads (Excused s) clearPending m fun _ m' => Ledger s l d H m' := by
  simp only [clearPending, Leads.bind_eq, Leads.get_eq, Leads.modify_eq]
  refine Leads.mono (release_ledger (H := H) ?_) fun _ _ h' => h'.1
  refine h.reword ⟨_, _, _, _, _, _, rfl⟩ rfl h.balanced (fun hs => ?_)
    (fun hs => (h.exact hs).proper.noException) fun _ _ => rfl
  refine (h.exact hs).counts.of_tally fun r => ?_
  rw [List.cons_append, tally_cons r m.pendingMessage]
  simp only [tally_append, tally_roots, duties, tally_nil_value]
  omega

theorem settlePending_ledger (h : Ledger s l d H m) :
    Leads (Excused s) settlePending m fun _ m' => Ledger s l d H m' := by
  simp only [settlePending, Leads.bind_eq, Leads.get_eq]
  by_cases hp : m.pending.isNone
  · have hnone : m.pending = none := Option.isNone_iff_eq_none.1 hp
    simp only [hp, if_true, Leads.bind_eq, Leads.modify_eq, Leads.get_eq]
    split
    · exact excused_outOfBounds s _
    · refine h.reword ⟨_, _, _, _, _, _, rfl⟩ rfl h.balanced (fun hs => ?_) (fun _ _ => rfl)
        fun hs => (h.exact hs).proper.noException
      refine (h.exact hs).counts.of_tally fun r => ?_
      simp only [tally_append, tally_roots, duties, tally_nil_value,
        (h.exact hs).proper.noPending hnone]
      omega
  · simp only [hp, Bool.false_eq_true, if_false, Leads.bind_eq, Leads.modify_eq, Leads.get_eq]
    have he : s → Memory.Exact (m.excMessage :: (H ++ roots d { m with excMessage := .nil })) []
        m.memory := by
      refine fun hs => (h.exact hs).counts.of_tally fun r => ?_
      rw [tally_cons r m.excMessage]
      simp only [tally_append, tally_roots, duties, tally_nil_value]
      omega
    refine (release_memory h.balanced he).mono ?_
    rintro _ m₁ ⟨hm₁, hb₁, he₁⟩
    rw [hm₁] at hb₁ he₁ ⊢
    split
    · exact excused_outOfBounds s _
    · exact h.reword ⟨_, _, _, _, _, _, rfl⟩ rfl hb₁ he₁ (fun _ _ => rfl)
        fun hs => (h.exact hs).proper.noPending

theorem spliceNext_ledger (h : Ledger s l d H m) :
    Leads (Excused s) spliceNext m fun _ m' => Ledger s l d H m' := by
  simp only [spliceNext, Leads.modify_eq]
  split
  · next next rest hm =>
    have hnext := h.form.marked next (List.mem_append_left _ (hm ▸ List.mem_cons_self))
    refine ⟨h.toBooks.relist ⟨_, _, _, _, rfl⟩ (fun f hf => ?_) ?_ fun f hf => ?_, ?_, fun g => ?_⟩
    · simp only [nodes, savedMarkers, duties, hm, List.mem_append, List.mem_cons] at hf ⊢
      grind
    · simp only [nodes, savedMarkers, duties, hm, List.length_append, List.length_cons]
      omega
    · exact h.form.marked f (List.mem_append_left _ (hm ▸ List.mem_cons_of_mem _ hf))
    · have hcount := callCount_cons (m := m) next m.chain
      rw [if_pos hnext] at hcount
      exact h.depth.trans (congrArg Int.ofNat hcount.symm)
    · by_cases hg : next = g
      · exact .of_none (hg ▸ (h.manned next).method_of_marker hnext)
      · exact (h.manned g).of_eq rfl rfl (List.count_cons_of_ne hg)
  · exact h.turn ⟨_, _, rfl⟩ rfl

/-- Continues at a marker that was taken off its list. -/
theorem resumeAt_ledger (f : FrameId) (h : Ledger s (l + 1) d H m) :
    Leads (Excused s) (resumeAt f) m fun _ m' => Ledger s l d H m' := by
  simp only [resumeAt, modifyContext, Leads.bind_eq, Leads.get_eq, Leads.modify_eq]
  refine (unwindTo_ledger _ h).mono fun _ m₁ h₁ => ?_
  have hend : ∀ m₂, Ledger s (l + 1) d H m₂ → Leads (Excused s) (freeFrame f) m₂ fun _ m' =>
      Ledger s l d H { m' with jumped := true } := by
    intro m₂ h₂
    refine (freeFrame_ledger f h₂.toBooks h₂.depth fun g _ => h₂.manned g).mono fun _ m₃ h₃ => ?_
    exact h₃.turn ⟨_, _, rfl⟩ rfl
  split
  · simp only [Leads.bind_eq, Leads.modify_eq, Leads.get_eq]
    split
    · exact excused_outOfBounds s _
    · simp only [Leads.bind_eq, Leads.modify_eq]
      exact hend _ (h₁.turn ⟨_, _, rfl⟩ rfl)
  · simp only [Leads.bind_eq, Leads.modify_eq, Leads.get_eq]
    refine Leads.mono (spliceNext_ledger (h₁.turn ⟨_, _, rfl⟩ rfl)) fun _ m₂ h₂ => ?_
    split
    · exact excused_outOfBounds s _
    · simp only [Leads.bind_eq, Leads.modify_eq]
      exact hend _ h₂

theorem deliverException_ledger (h : Ledger s l d H m) :
    Leads (Excused s) deliverException m fun _ m' => Ledger s l d H m' := by
  simp only [deliverException, modifyContext, Leads.bind_eq, Leads.get_eq]
  split
  · next f hf =>
    have hmarker : (m.frameAt f).isMarker := by
      unfold splicedMarker? at hf
      exact List.find?_some (p := fun f => (m.frameAt f).isMarker) hf
    simp only [Leads.bind_eq, Leads.modify_eq]
    refine ((unwindTo_ledger _ h).and (unwindTo_control _)).mono ?_
    rintro _ m₁ ⟨h₁, hc₁⟩
    have hhead : m₁.chain.head? = some f := (Control.chain_of_popUntil hc₁ rfl).2
    obtain ⟨rest, hrest⟩ := List.head?_eq_some_iff.1 hhead
    refine resumeAt_ledger f (h₁.unlinkMarker hrest ?_)
    rw [← isMarker_control, Control.frameAt_of_frames (Control.popUntil_samePass hc₁).frames,
      isMarker_control]
    exact hmarker
  · simp only [Leads.bind_eq, Leads.get_eq]
    split
    · next f rest hm =>
      simp only [Leads.bind_eq, Leads.modify_eq]
      refine resumeAt_ledger f ⟨h.toBooks.relist ⟨_, _, _, _, rfl⟩ (fun g hg => ?_) ?_
        fun g hg => ?_, h.depth, h.manned⟩
      · simp only [nodes, savedMarkers, duties, hm, List.mem_append, List.mem_cons] at hg ⊢
        grind
      · simp only [nodes, savedMarkers, duties, hm, List.length_append, List.length_cons]
        omega
      · exact h.form.marked g (List.mem_append_left _ (hm ▸ List.mem_cons_of_mem _ hg))
    · simp only [Leads.bind_eq, Leads.modify_eq]
      exact settlePending_ledger (h.turn ⟨_, _, rfl⟩ rfl)

theorem raise_ledger (c : ClassId) (h : Ledger s l d H m) (hv : s → m.memory.Live v) :
    Leads (Excused s) (raise c v) m fun _ m' => Ledger s l d H m' := by
  simp only [raise, Leads.bind_eq, Leads.modify_eq, Leads.get_eq]
  have h₁ : Ledger s l d H
      { m with profile := m.profile.map (·.recordRaise (m.className c)) } :=
    h.keep rfl h.balanced fun hs => (h.exact hs).counts
  by_cases he : m.exception.isNone
  · simp only [he, if_true, Leads.bind_eq, Leads.modify_eq]
    refine Leads.mono (acquire_ledger h₁ hv) ?_
    rintro _ m₂ ⟨h₂, hq₂, _⟩
    refine deliverException_ledger (h₂.reword ⟨_, _, _, _, _, _, rfl⟩ rfl h₂.balanced (fun hs => ?_)
      (by simp) fun hs => (h₂.exact hs).proper.noPending)
    have hsame := congrArg Control.exception (control_of_skeleton hq₂.1)
    have hnone : m₂.exception = none := hsame.trans (Option.isNone_iff_eq_none.1 he)
    refine (h₂.exact hs).counts.of_tally fun r => ?_
    rw [List.cons_append, tally_cons r v]
    simp only [tally_append, tally_roots, duties, tally_nil_value,
      (h₂.exact hs).proper.noException hnone]
    omega
  · simp only [he, Bool.false_eq_true, if_false]
    exact deliverException_ledger h₁

theorem raiseText_ledger (c : ClassId) (t : Text) (h : Ledger s l d H m) :
    Leads (Excused s) (raiseText c t) m fun _ m' =>
      Ledger s l d H m' ∧ ∃ v, m.control.raise c v = some m'.control := by
  simp only [raiseText, Leads.bind_eq]
  refine (newString_ledger h t).mono fun v m₁ ⟨h₁, hq₁⟩ => ?_
  refine ((raise_ledger c h₁ (h₁.live_of_hand List.mem_cons_self)).and (raise_control c v)).mono ?_
  rintro _ m₂ ⟨h₂, hc₂⟩
  refine (release_ledger h₂).mono fun _ m₃ ⟨h₃, hq₃⟩ => ⟨h₃, v, ?_⟩
  rw [control_of_skeleton hq₃.1, ← control_of_skeleton hq₁.1]
  exact hc₂

end ObjectMachine.Machine
