import ObjectMachine.Proofs.Effects

/-! How long frames last. A frame keeps what it saved from the moment it is pushed; it is freed
once it has been taken off its list, and no frame is on two lists. So a frame that is still
listed is the frame that was pushed. Moving control alters no register and no closure. -/

namespace ObjectMachine

def Frame.retired (k : Frame) : Frame := { k with method := none, freed := true }

namespace Machine

/-- No frame is listed twice, and none that is listed has been freed. The frames `l` were
taken off their list. -/
structure Listed (l : List FrameId) (m : Machine) : Prop where
  distinct : (l ++ m.nodes []).Nodup
  unfreed : ∀ f ∈ l ++ m.nodes [], (m.frameAt f).freed = false

/-- Frames that existed in `m` are the same in `m'` or have been freed, and listed frames are
still in order, with `l` taken off their lists before and `l'` after. -/
structure Lasting (l l' : List FrameId) (m m' : Machine) : Prop where
  listed : ∀ others, Listed (l ++ others) m → Listed (l' ++ others) m'
  le_size : m.frames.size ≤ m'.frames.size
  old : ∀ f, f < m.frames.size →
    m'.frameAt f = m.frameAt f ∨ m'.frameAt f = (m.frameAt f).retired

variable {l l' l₂ : List FrameId} {m m₁ m' : Machine} {f : FrameId}

theorem frameAt_of_size_le (h : m.frames.size ≤ f) : (m.frameAt f).freed = true := by
  simp [frameAt, Array.getD_eq_getD_getElem?, Array.getElem?_eq_none h]

theorem Listed.lt_size (h : Listed l m) (hf : f ∈ l ++ m.nodes []) : f < m.frames.size := by
  apply Nat.lt_of_not_le
  intro hle
  have hfreed := h.unfreed f hf
  rw [frameAt_of_size_le hle] at hfreed
  cases hfreed

theorem Lasting.trans (h : Lasting l l' m m₁) (h' : Lasting l' l₂ m₁ m') :
    Lasting l l₂ m m' where
  listed others ho := h'.listed others (h.listed others ho)
  le_size := Nat.le_trans h.le_size h'.le_size
  old f hf := by
    rcases h'.old f (Nat.lt_of_lt_of_le hf h.le_size) with heq | heq <;> rw [heq]
    · exact h.old f hf
    · right
      rcases h.old f hf with heq₁ | heq₁ <;> rw [heq₁]
      rfl

/-- Frames stay, and lists only change hands. -/
theorem Lasting.of_perm (hframes : m'.frames = m.frames)
    (hperm : (l' ++ m'.nodes []).Perm (l ++ m.nodes [])) : Lasting l l' m m' := by
  have hat : m'.frameAt = m.frameAt := by
    funext f
    simp only [frameAt, hframes]
  have hall : ∀ others, (l' ++ others ++ m'.nodes []).Perm (l ++ others ++ m.nodes []) := by
    intro others
    refine List.perm_iff_count.2 fun f => ?_
    have hcount := hperm.count_eq f
    simp only [List.count_append] at hcount ⊢
    omega
  refine ⟨fun others ho => ⟨?_, fun f hf => ?_⟩, Nat.le_of_eq (congrArg Array.size hframes).symm,
    fun f _ => .inl (by rw [hat])⟩
  · exact (hall others).nodup_iff.2 ho.distinct
  · rw [hat]
    exact ho.unfreed f ((hall others).mem_iff.1 hf)

theorem Lasting.refl (m : Machine) : Lasting l l m m := .of_perm rfl (.refl _)

theorem nodes_of_core (h : m'.core = m.core) : m'.nodes [] = m.nodes [] :=
  show m'.core.nodes [] = m.core.nodes [] from h ▸ rfl

theorem frames_of_core (h : m'.core = m.core) : m'.frames = m.frames :=
  show m'.core.frames = m.core.frames from h ▸ rfl

theorem Lasting.of_core (h : m'.core = m.core) : Lasting l l m m' :=
  .of_perm (frames_of_core h) (nodes_of_core h ▸ .refl _)

/-- A frame that is pushed on one of the lists. -/
theorem Lasting.push {k : Frame} (hframes : m'.frames = m.frames.push k) (hk : k.freed = false)
    (hnodes : (m'.nodes []).Perm (m.frames.size :: m.nodes [])) : Lasting l l m m' := by
  have hat : ∀ f, m'.frameAt f = if f = m.frames.size then k else m.frameAt f := by
    intro f
    simp only [frameAt, hframes, Array.getD_eq_getD_getElem?, Array.getElem?_push]
    split <;> rfl
  refine ⟨fun others ho => ?_, ?_, fun f hf => .inl ?_⟩
  · have hperm : (l ++ others ++ m'.nodes []).Perm
        (m.frames.size :: (l ++ others ++ m.nodes [])) :=
      (hnodes.append_left _).trans List.perm_middle
    refine ⟨hperm.nodup_iff.2 (List.nodup_cons.2 ⟨fun hmem => ?_, ho.distinct⟩), fun f hf => ?_⟩
    · exact Nat.lt_irrefl _ (ho.lt_size hmem)
    · rw [hat]
      split
      · exact hk
      · next hne => exact ho.unfreed f ((List.mem_cons.1 (hperm.mem_iff.1 hf)).resolve_left hne)
  · rw [hframes, Array.size_push]
    exact Nat.le_succ _
  · rw [hat, if_neg (Nat.ne_of_lt hf)]

/-- A frame in hand is freed. -/
theorem Lasting.free (hframes : m'.frames = m.frames.modify f Frame.retired)
    (hnodes : m'.nodes [] = m.nodes []) : Lasting (f :: l) l m m' := by
  have hat : ∀ g, m'.frameAt g = if f = g ∧ f < m.frames.size then (m.frameAt g).retired
      else m.frameAt g := by
    intro g
    simp only [frameAt, hframes, Array.getD_eq_getD_getElem?, Array.getElem?_modify]
    by_cases hfg : f = g
    · subst hfg
      by_cases hlt : f < m.frames.size <;> simp [hlt]
    · simp [hfg]
  refine ⟨fun others ho => ⟨?_, fun g hg => ?_⟩, ?_, fun g _ => ?_⟩
  · rw [hnodes]
    exact (List.nodup_cons.1 ho.distinct).2
  · rw [hnodes] at hg
    have hne : f ≠ g := by
      rintro rfl
      exact (List.nodup_cons.1 ho.distinct).1 hg
    rw [hat, if_neg fun h => hne h.1]
    exact ho.unfreed g (List.mem_cons_of_mem _ hg)
  · rw [hframes, Array.size_modify]
  · rw [hat]
    split
    · exact .inr rfl
    · exact .inl rfl

/-! ### Moving control -/

/-- Control has moved from `m` to `m'`, with `l` and `l'` taken off their lists. -/
structure Steers (l l' : List FrameId) (m m' : Machine) : Prop where
  alters : Alters .nothing m m'
  lasting : Lasting l l' m m'
  callBase : m'.context.callBase = m.context.callBase
  callee : m'.context.callee = m.context.callee

theorem Steers.refl (m : Machine) : Steers l l m m := ⟨.refl m, .refl m, rfl, rfl⟩

theorem Steers.trans (h : Steers l l' m m₁) (h' : Steers l' l₂ m₁ m') :
    Steers l l₂ m m' :=
  ⟨h.alters.trans h'.alters, h.lasting.trans h'.lasting, h'.callBase.trans h.callBase,
    h'.callee.trans h.callee⟩

theorem Works.steers (h : Works .nothing m m') : Steers l l m m' :=
  ⟨h.toAlters, .of_core h.core, by rw [h.names], by rw [h.names]⟩

/-- A change of context, chain and exception in which the lists only change hands. -/
theorem Steers.turn {context : Context} {chain : List FrameId} {depth : Int} {jumped : Bool}
    {exception pending : Option ClassId} {excMessage pendingMessage : Value}
    {suspended : List Suspension} {profile : Option Profile}
    (hcallBase : context.callBase = m.context.callBase) (hcallee : context.callee = m.context.callee)
    (hperm : (l' ++ nodes [] { m with context, chain, suspended }).Perm (l ++ m.nodes [])) :
    Steers l l' m { m with
      context, chain, depth, jumped, exception, excMessage, pending, pendingMessage, suspended,
      profile } :=
  ⟨.of_eq rfl rfl rfl rfl, .of_perm rfl hperm, hcallBase, hcallee⟩

theorem modify_congr {α : Type} {xs : Array α} {i : Nat} {f g : α → α}
    (h : ∀ a, xs[i]? = some a → f a = g a) : xs.modify i f = xs.modify i g := by
  apply Array.ext
  · simp
  · intro j hj _
    simp only [Array.getElem_modify]
    split
    · next heq =>
      subst heq
      exact h _ (Array.getElem?_eq_getElem _)
    · rfl

theorem modify_modify {α : Type} (xs : Array α) (i : Nat) (f g : α → α) :
    (xs.modify i f).modify i g = xs.modify i (g ∘ f) := by
  apply Array.ext
  · simp
  · intro j _ _
    simp only [Array.getElem_modify]
    split <;> rfl

/-- Freeing a frame changes the frame, and memory and its method outside control. -/
theorem freeFrame_leads (f : FrameId) :
    Leads AnyFault (freeFrame f) m fun _ m' =>
      Alters .nothing m m' ∧ m'.context = m.context ∧
      m'.core = { m.core with frames := m.frames.modify f Frame.retired } := by
  have hfree : ∀ (m₁ m₂ : Machine) (frames : Array Frame), Works .nothing m m₁ →
      m₂ = { m₁ with frames } → Leads AnyFault (refund frameBytes) m₂ fun _ m' =>
        Alters .nothing m m' ∧ m'.context = m.context ∧ m'.core = { m.core with frames } := by
    rintro m₁ _ frames h₁ rfl
    refine ((refund_clerical _).tame _).mono fun _ m' h' => ⟨h₁.toAlters.trans (.trans ?_ h'.toAlters), ?_, ?_⟩
    · exact .of_eq rfl rfl rfl rfl
    · exact h'.names.trans h₁.names
    · rw [h'.core]
      exact congrArg (fun k : Machine => { k with frames }) h₁.core
  simp only [freeFrame, modifyFrame, Leads.bind_eq, Leads.get_eq]
  split
  · simp only [Leads.bind_eq, Leads.modify_eq]
    refine ((releaseMethod_clerical _).tame m).mono fun _ m₁ h₁ => hfree m₁ _ _ h₁ ?_
    rw [modify_modify, frames_of_core h₁.core]
    rfl
  · next hnone =>
    refine hfree m _ _ (.refl m) ?_
    rw [modify_congr fun k hk => ?_]
    have hmethod : k.method = none := by
      simpa [frameAt, Array.getD_eq_getD_getElem?, hk, ← Option.eq_none_iff_forall_ne_some]
        using hnone
    rw [Frame.retired, ← hmethod]

theorem freeFrame_steers (f : FrameId) :
    Leads AnyFault (freeFrame f) m fun _ m' =>
      Steers (f :: l) l m m' ∧ m'.context = m.context ∧ m'.chain = m.chain := by
  refine (freeFrame_leads f).mono fun _ m' ⟨halters, hcontext, hcore⟩ => ?_
  have hframes : m'.core.frames = m.frames.modify f Frame.retired := by rw [hcore]
  have hnodes : m'.core.nodes [] = m.core.nodes [] := by rw [hcore]; rfl
  have hchain : m'.core.chain = m.core.chain := by rw [hcore]
  exact ⟨⟨halters, .free hframes hnodes, by rw [hcontext], by rw [hcontext]⟩, hcontext, hchain⟩

/-- Counting decides whether lists have only changed hands. -/
theorem perm_of_count {fs gs : List FrameId} (h : ∀ f, fs.count f = gs.count f) : fs.Perm gs :=
  List.perm_iff_count.2 h

/-- The newest marker is taken in l. -/
theorem Steers.takeMarker {rest : List FrameId} (h : m.context.markers = f :: rest) :
    Steers l (f :: l) m { m with context := { m.context with markers := rest } } := by
  refine .turn rfl rfl (perm_of_count fun g => ?_)
  simp only [nodes, savedMarkers, duties, h, List.count_append, List.count_cons]
  omega

/-- The top of the chain is taken in l. -/
theorem Steers.takeTop {rest : List FrameId} (h : m.chain = f :: rest) :
    Steers l (f :: l) m { m with chain := rest } := by
  refine .turn rfl rfl (perm_of_count fun g => ?_)
  simp only [nodes, savedMarkers, duties, h, List.count_append, List.count_cons]
  omega

theorem dropMarkers_steers (fs rest : List FrameId) (h : m.context.markers = fs ++ rest) :
    Leads AnyFault (dropMarkers fs) m fun _ m' => Steers l l m m' ∧ m'.chain = m.chain := by
  induction fs generalizing m with
  | nil => exact ⟨.refl m, rfl⟩
  | cons f fs ih =>
    simp only [dropMarkers, modifyContext, Leads.bind_eq, Leads.modify_eq, h, List.cons_append,
      List.tail_cons]
    refine (freeFrame_steers (l := l) f).mono ?_
    rintro _ m₁ ⟨h₁, hcontext, hchain⟩
    refine (ih (m := m₁) (by rw [hcontext])).mono ?_
    rintro _ m' ⟨h', hchain'⟩
    exact ⟨(Steers.takeMarker h).trans (h₁.trans h'), hchain'.trans hchain⟩

theorem popMarkers_steers (n : Int64) :
    Leads AnyFault (popMarkers n) m fun _ m' => Steers l l m m' := by
  simp only [popMarkers, Leads.bind_eq, Leads.get_eq]
  have hmarkers := (List.take_append_drop n.toInt.toNat m.context.markers).symm
  exact (dropMarkers_steers _ _ hmarkers).mono fun _ _ h => h.1

theorem dropAllMarkers_steers :
    Leads AnyFault dropAllMarkers m fun _ m' => Steers l l m m' ∧ m'.chain = m.chain := by
  simp only [dropAllMarkers, Leads.bind_eq, Leads.get_eq]
  exact dropMarkers_steers _ [] (List.append_nil _).symm

theorem dropFrameMarkers_steers (f : FrameId) :
    Leads AnyFault (dropFrameMarkers f) m fun _ m' =>
      Steers l l m m' ∧ m'.chain = m.chain := by
  simp only [dropFrameMarkers, Leads.bind_eq, Leads.get_eq]
  exact dropMarkers_steers _ _ List.takeWhile_append_dropWhile.symm

theorem popFrame_steers :
    Leads AnyFault popFrame m fun _ m' => Steers l l m m' ∧ m'.chain = m.chain.tail := by
  simp only [popFrame, Leads.bind_eq, Leads.get_eq]
  split
  · trivial
  · next f rest hchain =>
    -- The frame leaves the chain, and the context it saved is continued.
    have hpop : ∀ m₁ : Machine, Steers l l m m₁ → m₁.chain = m.chain →
        ∀ k : Frame, Leads AnyFault (freeFrame f) { m₁ with
          chain := rest
          context := { m₁.context with
            base := k.base, code := k.code, pc := k.pc, targetClass := k.targetClass } }
          fun _ m₂ => Steers l l m m₂ ∧ m₂.chain = m.chain.tail := by
      intro m₁ h₁ hchain₁ k
      have htake : Steers l (f :: l) m₁ { m₁ with
          chain := rest
          context := { m₁.context with
            base := k.base, code := k.code, pc := k.pc, targetClass := k.targetClass } } := by
        have htop := Steers.takeTop (l := l) (hchain₁.trans hchain)
        exact htop.trans (.turn rfl rfl (.refl _))
      refine (freeFrame_steers (l := l) f).mono ?_
      rintro _ m₂ ⟨h₂, -, hchain₂⟩
      exact ⟨h₁.trans (htake.trans h₂), hchain₂.trans (by rw [hchain]; rfl)⟩
    cases hk : (m.frameAt f).isMarker with
    | true =>
      simp only [Bool.not_true, Bool.false_eq_true, if_false, hk, Leads.bind_eq, Leads.get_eq,
        Leads.modify_eq, Leads.pure_eq]
      exact hpop m (.refl m) rfl _
    | false =>
      simp only [Bool.not_false, if_true, hk, Leads.bind_eq, Leads.get_eq, Leads.modify_eq]
      refine (dropFrameMarkers_steers (l := l) f).mono ?_
      rintro _ m₁ ⟨h₁, hchain₁⟩
      refine (hpop m₁ h₁ hchain₁ _).mono ?_
      rintro _ m₂ ⟨h₂, hchain₂⟩
      exact ⟨h₂.trans (.turn rfl rfl (.refl _)), hchain₂⟩

theorem popUntil_steers (target : Option FrameId) (fs : List FrameId) :
    Leads AnyFault (popUntil target fs) m fun _ m' => Steers l l m m' := by
  induction fs generalizing m with
  | nil =>
    simp only [popUntil]
    split
    · exact .refl m
    · trivial
  | cons f rest ih =>
    simp only [popUntil]
    split
    · exact .refl m
    · simp only [Leads.bind_eq]
      exact popFrame_steers.mono fun _ m₁ h₁ => ih.mono fun _ _ h₂ => h₁.1.trans h₂

theorem unwindTo_steers (target : Option FrameId) :
    Leads AnyFault (unwindTo target) m fun _ m' => Steers l l m m' := by
  simp only [unwindTo, Leads.bind_eq, Leads.get_eq]
  exact popUntil_steers target _

/-! ### Exceptions -/

theorem clearException_steers :
    Leads AnyFault clearException m fun _ m' => Steers l l m m' := by
  simp only [clearException, Leads.bind_eq, Leads.get_eq, Leads.modify_eq]
  refine (release_tame (P := .nothing) _ _).mono fun _ m₁ h₁ => Steers.trans ?_ h₁.steers
  exact .turn rfl rfl (.refl _)

theorem settlePending_steers :
    Leads AnyFault settlePending m fun _ m' => Steers l l m m' := by
  have hend : ∀ m₁, Steers l l m m₁ →
      Leads AnyFault (do
        modify fun m => { m with
          exception := none
          excMessage := .nil
          context := { m.context with excState := .normal, settleOnReturn := false } }
        if (← get).pending.isNone then throw .outOfBounds : Action Unit) m₁
        fun _ m' => Steers l l m m' := by
    intro m₁ h₁
    simp only [Leads.bind_eq, Leads.modify_eq, Leads.get_eq]
    split
    · trivial
    · exact h₁.trans (.turn rfl rfl (.refl _))
  simp only [settlePending, Leads.bind_eq, Leads.get_eq] at hend ⊢
  split
  · simp only [Leads.bind_eq, Leads.modify_eq]
    refine hend { m with pending := m.exception, pendingMessage := m.excMessage } ?_
    exact .turn rfl rfl (.refl _)
  · simp only [Leads.bind_eq]
    exact (release_tame _ m).mono fun _ m₁ h₁ => hend m₁ h₁.steers

theorem spliceNext_steers : Leads AnyFault spliceNext m fun _ m' => Steers l l m m' := by
  simp only [spliceNext, Leads.modify_eq]
  split
  · next next rest h =>
    refine .turn rfl rfl (perm_of_count fun g => ?_)
    simp only [nodes, savedMarkers, duties, h, List.count_append, List.count_cons]
    omega
  · exact .turn rfl rfl (.refl _)

theorem resumeAt_steers (f : FrameId) :
    Leads AnyFault (resumeAt f) m fun _ m' => Steers (f :: l) l m m' := by
  have hend : ∀ m₁, Steers (f :: l) (f :: l) m m₁ →
      Leads AnyFault (do
        if (← get).exception.isNone then throw .outOfBounds
        freeFrame f
        modify fun m => { m with jumped := true } : Action Unit) m₁
        fun _ m' => Steers (f :: l) l m m' := by
    intro m₁ h₁
    simp only [Leads.bind_eq, Leads.get_eq]
    split
    · trivial
    · simp only [Leads.bind_eq, Leads.modify_eq]
      refine (freeFrame_steers (l := l) f).mono fun _ m₂ ⟨h₂, _⟩ => ?_
      exact h₁.trans (h₂.trans (.turn rfl rfl (.refl _)))
  simp only [resumeAt, modifyContext, Leads.bind_eq, Leads.get_eq, Leads.modify_eq] at hend ⊢
  refine (unwindTo_steers (l := f :: l) _).mono fun _ m₁ h₁ => ?_
  split
  · simp only [Leads.bind_eq, Leads.modify_eq]
    exact hend _ (h₁.trans (.turn rfl rfl (.refl _)))
  · simp only [Leads.bind_eq, Leads.modify_eq]
    refine (spliceNext_steers (l := f :: l)).mono fun _ m₂ h₂ => ?_
    refine hend m₂ (h₁.trans (Steers.trans ?_ h₂))
    exact .turn rfl rfl (.refl _)

theorem deliverException_steers :
    Leads AnyFault deliverException m fun _ m' => Steers l l m m' := by
  simp only [deliverException, modifyContext, Leads.bind_eq, Leads.get_eq]
  split
  · next f hf =>
    simp only [Leads.bind_eq, Leads.modify_eq]
    refine ((unwindTo_steers (l := l) (some f)).and (unwindTo_control (some f))).mono ?_
    rintro _ m₁ ⟨h₁, hc₁⟩
    have hhead : m₁.chain.head? = some f := (Control.chain_of_popUntil hc₁ rfl).2
    obtain ⟨rest, hrest⟩ := List.head?_eq_some_iff.1 hhead
    rw [hrest, List.tail_cons]
    refine (resumeAt_steers (l := l) f).mono fun _ m₂ h₂ => ?_
    exact h₁.trans ((Steers.takeTop hrest).trans h₂)
  · simp only [Leads.bind_eq, Leads.get_eq]
    split
    · next f rest hm =>
      simp only [Leads.bind_eq, Leads.modify_eq]
      refine (resumeAt_steers (l := l) f).mono fun _ m₁ h₁ => ?_
      exact (Steers.takeMarker hm).trans h₁
    · simp only [Leads.bind_eq, Leads.modify_eq]
      refine settlePending_steers.mono fun _ m₁ h₁ => Steers.trans ?_ h₁
      exact .turn rfl rfl (.refl _)

theorem raise_steers (c : ClassId) (v : Value) :
    Leads AnyFault (raise c v) m fun _ m' => Steers l l m m' := by
  simp only [raise, Leads.bind_eq, Leads.modify_eq, Leads.get_eq]
  have hcount : Steers l l m { m with profile := m.profile.map (·.recordRaise (m.className c)) } :=
    .turn rfl rfl (.refl _)
  split
  · simp only [Leads.bind_eq, Leads.modify_eq]
    refine (acquire_tame (P := .nothing) v _).mono fun _ m₁ h₁ => ?_
    refine (deliverException_steers (l := l)).mono fun _ m₂ h₂ => ?_
    refine hcount.trans (h₁.steers.trans (Steers.trans ?_ h₂))
    exact .turn rfl rfl (.refl _)
  · exact deliverException_steers.mono fun _ m₁ h₁ => hcount.trans h₁

/-! ### Pushing -/

theorem pushMarker_steers (tag : FrameTag) (pc : Int64) :
    Leads AnyFault (pushMarker tag pc) m fun _ m' => Steers l l m m' := by
  simp only [pushMarker, Leads.bind_eq]
  refine ((charge_clerical _).tame (P := .nothing) m).mono fun granted m₁ h₁ => ?_
  cases granted with
  | false => trivial
  | true =>
    refine h₁.steers.trans ⟨.of_eq rfl rfl rfl rfl, .push rfl rfl (perm_of_count fun g => ?_), rfl, rfl⟩
    simp only [nodes, savedMarkers, duties, List.count_append, List.count_cons]
    omega

end Machine

end ObjectMachine
