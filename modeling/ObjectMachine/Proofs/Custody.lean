import ObjectMachine.Proofs.Finalizing

/-! The exception that ensure bodies have to hand on. A pass owes it while a marker waits on its
part of the chain, or while its context notes that the return of an ensure body settles it.
Suspended passes may owe it as well. Whatever a part of a tick does, an exception that is
owed is there, unless an instruction takes it while a marker waits or a suspended pass owes
it. So the return of an ensure body finds the exception it goes on with. -/

namespace ObjectMachine

/-- An ensure body of this context settles the exception when it returns. -/
def Context.isNoted (x : Context) : Bool := x.excState == .finalizing && x.settleOnReturn

def Duty.isNoted : Duty → Bool
  | .construct x _ _ => x.isNoted
  | _ => false

namespace Control

/-- A marker waits on the part of a chain above an entry. -/
def marked (k : FrameId → Frame) (entry : Option FrameId) (chain : List FrameId) : Bool :=
  (chain.takeWhile fun f => entry != some f).any fun f => (k f).isMarker

/-- One of the passes that are suspended on a chain owes the exception. -/
def awaits (k : FrameId → Frame) : List Suspension → List FrameId → Bool
  | [], _ => false
  | s :: rest, chain =>
    marked k s.entry chain || s.duties.any Duty.isNoted || awaits k rest (reach chain s.entry)

/-- A marker waits, or a suspended pass owes the exception. -/
def isAwaited (c : Control) : Bool :=
  marked c.frameAt c.context.entry c.chain || awaits c.frameAt c.suspended c.ground

/-- An exception that is owed is in flight or pending, and one that is pending is not owed by
the running pass. -/
structure Custody (c : Control) : Prop where
  held : c.context.isNoted ∨ c.isAwaited → c.exception ≠ none ∨ c.pending ≠ none
  settled : c.pending ≠ none → ¬c.context.isNoted

variable {k k' : FrameId → Frame} {c c' : Control} {ph ph' : Phase} {entry : Option FrameId}
  {f : FrameId} {rest chain upper below : List FrameId} {e : ClassId} {v : Value}

theorem marked_cons_of_ne (h : entry ≠ some f) :
    marked k entry (f :: rest) = ((k f).isMarker || marked k entry rest) := by
  simp [marked, h]

theorem marked_head? (chain : List FrameId) : marked k chain.head? chain = false := by
  cases chain <;> simp [marked]

theorem marked_append (h : ∀ f ∈ upper, entry ≠ some f) :
    marked k entry (upper ++ below) =
      (upper.any (fun f => (k f).isMarker) || marked k entry below) := by
  have hpass : ∀ f ∈ upper, (entry != some f) = true := fun f hf => bne_iff_ne.2 (h f hf)
  rw [marked, List.takeWhile_append_of_pos hpass, List.any_append]
  rfl

theorem marked_congr (hk : ∀ f ∈ chain, k' f = k f) : marked k' entry chain = marked k entry chain := by
  unfold marked
  rw [Bool.eq_iff_iff, List.any_eq_true, List.any_eq_true]
  refine exists_congr fun f => and_congr_right fun hf => ?_
  rw [hk f ((List.takeWhile_prefix _).subset hf)]

theorem awaits_congr {ss : List Suspension} (hk : ∀ f ∈ chain, k' f = k f) :
    awaits k' ss chain = awaits k ss chain := by
  induction ss generalizing chain with
  | nil => rfl
  | cons s rest ih =>
    have hreach : ∀ f ∈ reach chain s.entry, k' f = k f :=
      fun f hf => hk f ((List.dropWhile_suffix _).subset hf)
    rw [awaits, awaits, marked_congr hk, ih hreach]

theorem isMarker_of_topMarker? (h : c.topMarker? = some f) : c.isAwaited := by
  obtain ⟨hhead, hf⟩ := Option.filter_eq_some_iff.1 h
  obtain ⟨rest, hchain⟩ := List.head?_eq_some_iff.1 hhead
  simp only [Bool.and_eq_true, bne_iff_ne] at hf
  rw [isAwaited, hchain, marked_cons_of_ne hf.1, hf.2]
  rfl

/-- The return of an ensure body finds the exception. -/
theorem Custody.handsOn (h : Custody c) (hp : c.pending = none)
    (hreturn : c.topMarker?.isSome ∨ c.settlesOnReturn) : c.exception ≠ none := by
  have howed : c.context.isNoted ∨ c.isAwaited := by
    rcases hreturn with htop | hsettle
    · obtain ⟨f, hf⟩ := Option.isSome_iff_exists.1 htop
      exact .inr (isMarker_of_topMarker? hf)
    · simp only [settlesOnReturn, Bool.and_eq_true] at hsettle
      exact .inl (Bool.and_eq_true_iff.2 hsettle.1)
  exact (h.held howed).resolve_right fun hne => hne hp

/-- What is owed does not grow, and the exception is the same. -/
theorem Custody.keep (h : Custody c) (hp : c.pending = none) (hexception : c'.exception = c.exception)
    (hpending : c'.pending = c.pending)
    (howed : c'.context.isNoted ∨ c'.isAwaited → c.context.isNoted ∨ c.isAwaited) : Custody c' where
  held h' := by
    rw [hexception, hpending]
    exact h.held (howed h')
  settled hne := absurd (hpending.trans hp) hne

theorem Custody.of_exception (he : c.exception ≠ none) (hp : c.pending = none) : Custody c :=
  ⟨fun _ => .inl he, fun hne => absurd hp hne⟩

theorem Custody.of_settle (hp : c.settle.pending ≠ none) : Custody c.settle :=
  ⟨fun _ => .inr hp, fun _ hn => nomatch hn⟩

/-- An exception that is raised is in flight afterwards, or pending. -/
theorem Custody.deliver (he : c.exception ≠ none) (hp : c.pending = none)
    (hd : c.deliver = some c') : Custody c' := by
  unfold Control.deliver at hd
  split at hd
  · obtain ⟨c₁, hu, hr⟩ := Option.bind_eq_some_iff.1 hd
    have h₁ := popUntil_slots hu
    have h₂ := resume_slots hr
    refine .of_exception ?_ ?_
    · rw [h₂.exception]
      exact h₁.exception ▸ he
    · rw [h₂.pending]
      exact h₁.pending.trans hp
  · split at hd
    · have h₁ := resume_slots hd
      refine .of_exception ?_ ?_
      · rw [h₁.exception]
        exact he
      · rw [h₁.pending]
        exact hp
    · cases hd
      refine .of_settle ?_
      simpa [settle, hp] using he

theorem Custody.raise (hp : c.pending = none) (hr : c.raise e v = some c') : Custody c' := by
  unfold Control.raise at hr
  split at hr
  · exact Custody.deliver (c := { c with exception := some e, excMessage := v }) nofun hp hr
  · next hne => exact Custody.deliver (by simpa using hne) hp hr

/-- New frames are not on the chain. -/
theorem isAwaited_of_push (hc : Sound c) {j : Frame} (hframes : c'.frames = c.frames.push j)
    (hentry : c'.context.entry = c.context.entry) (hsuspended : c'.suspended = c.suspended)
    (hchain : c'.chain = c.chain) : c'.isAwaited = c.isAwaited := by
  have hold : ∀ f ∈ c.chain, c'.frameAt f = c.frameAt f :=
    fun f hf => frameAt_push_of_lt (hc.lt_size hf) j hframes
  have hground : ∀ f ∈ c.ground, c'.frameAt f = c.frameAt f :=
    fun f hf => hold f ((List.dropWhile_suffix _).subset hf)
  have hsame : c'.ground = c.ground := by rw [ground, ground, hchain, hentry]
  rw [isAwaited, isAwaited, hsuspended, hchain, hentry, hsame, marked_congr hold,
    awaits_congr hground]

/-- A call is no marker. -/
theorem isAwaited_call (hc : Sound c) (base : Int64) (code : Code) (targetClass : Option ClassId) :
    (c.call base code targetClass).isAwaited = c.isAwaited := by
  obtain ⟨⟨upper, below, born, hstands⟩, -⟩ := id hc
  have hne : c.context.entry ≠ some c.frames.size := hstands.level.entry_ne hstands.le_size
  have hframes : (c.call base code targetClass).frames =
      c.frames.push (c.saved .call c.context.pc none) := rfl
  have hcall : ((c.call base code targetClass).frameAt c.frames.size).isMarker = false := by
    rw [frameAt_push_size _ hframes]
    rfl
  have hpush : isAwaited { c.call base code targetClass with chain := c.chain } = c.isAwaited :=
    isAwaited_of_push hc hframes rfl rfl rfl
  rw [← hpush, isAwaited, isAwaited, ground, ground]
  have hchain : (c.call base code targetClass).chain = c.frames.size :: c.chain := rfl
  have hentry : (c.call base code targetClass).context.entry = c.context.entry := rfl
  rw [hchain, hentry, marked_cons_of_ne hne, reach_cons_of_ne hne, hcall, Bool.false_or]
  rfl

/-- What a pass owes it owes while it waits for a constructor pass. -/
theorem owed_of_enter {x : Context} {made : Value} {w : Window} {duties : List Duty}
    {base argc : Int64} (hx : x.bare = c.context) (hduties : ∀ d ∈ duties, IsPlain d)
    (h : (c.enter (.construct x made w :: duties) base argc).isAwaited) :
    c.context.isNoted ∨ c.isAwaited := by
  have hnoted : x.isNoted = c.context.isNoted := hx ▸ rfl
  have hplain : duties.any Duty.isNoted = false := by
    rw [List.any_eq_false]
    intro d hd
    have := hduties d hd
    cases d with
    | construct => exact this.elim
    | leave => nofun
    | deliver => nofun
  have hground : (c.enter (.construct x made w :: duties) base argc).ground = c.chain :=
    reach_head? c.chain
  rw [isAwaited, hground] at h
  have hmarked : marked (c.enter (.construct x made w :: duties) base argc).frameAt
      (c.enter (.construct x made w :: duties) base argc).context.entry
      (c.enter (.construct x made w :: duties) base argc).chain = false := marked_head? c.chain
  rw [hmarked, Bool.false_or] at h
  have hawaits : (marked c.frameAt c.context.entry c.chain ||
      (.construct x made w :: duties).any Duty.isNoted ||
        awaits c.frameAt c.suspended c.ground) = true := h
  simp only [List.any_cons, hplain, Bool.or_false, Bool.or_eq_true] at hawaits
  rcases hawaits with (hmarked | hx') | hrest
  · exact .inr (by rw [isAwaited, hmarked]; rfl)
  · exact .inl (hnoted ▸ hx')
  · exact .inr (by rw [isAwaited, hrest, Bool.or_true])

/-- An instruction that does not take an exception that is awaited. -/
theorem Custody.move {op : Opcode} {p : Machine.Progress} (h : Custody c) (hc : Sound c)
    (hp : c.pending = none) (hm : c.Move op p c')
    (htake : op = .takeException → ¬c.isAwaited) : Custody c' := by
  cases hm with
  | call hop hcall =>
    cases hcall with
    | deed hd =>
      rcases hd with rfl | ⟨base, code, targetClass, rfl⟩ | ⟨e, v, hr⟩
      · exact h
      · refine h.keep hp rfl rfl fun howed => howed.imp_right fun hawaited => ?_
        rwa [isAwaited_call hc] at hawaited
      · exact Custody.raise hp hr
    | entered base argc hx hduties =>
      exact h.keep hp rfl rfl fun howed => howed.elim .inl (owed_of_enter hx hduties)
  | protect tag pc htag =>
    have hsame : (c.mark tag pc).isAwaited = c.isAwaited := isAwaited_of_push hc rfl rfl rfl rfl
    refine h.keep hp rfl rfl fun howed => howed.imp_right fun hawaited => ?_
    rwa [hsame] at hawaited
  | take =>
    refine ⟨fun howed => ?_, fun hne => absurd hp hne⟩
    rcases howed with hnoted | hawaited
    · cases hnoted
    · exact absurd hawaited (htake rfl)
  | resume htop hr =>
    have hslots := resume_slots hr
    have he : c.exception ≠ none := h.handsOn hp (.inl (htop ▸ rfl))
    refine .of_exception ?_ ?_
    · rw [hslots.exception]
      exact he
    · rw [hslots.pending]
      exact hp
  | settle htop hsettle hexc => exact .of_settle hexc
  | @back f rest htop hsettle hentry hchain =>
    have hsame : SamePass c (c.pop f rest) := pop_samePass
    have hslots : SameSlots c (c.pop f rest) := pop_slots f rest
    have hstate : SameState (c.pop f rest).context c.context := pop_sameSignal.state
    have hne : c.context.entry ≠ some f := by
      rw [hchain] at hentry
      exact fun heq => hentry heq.symm
    have hat : (c.pop f rest).frameAt = c.frameAt := funext (frameAt_of_frames hsame.frames)
    refine h.keep hp hslots.exception hslots.pending fun howed => howed.imp ?_ ?_
    · unfold Context.isNoted
      rw [hstate.excState, hstate.settleOnReturn]
      exact id
    · intro hawaited
      rw [isAwaited, ground, hat, hsame.suspended, hsame.entry, pop_chain] at hawaited
      rw [isAwaited, ground, hchain, marked_cons_of_ne hne, reach_cons_of_ne hne, Bool.or_assoc,
        hawaited, Bool.or_true]
  | _ => exact h.keep hp rfl rfl id

/-- A suspended pass that is taken up owes what it owed, and what the pass it waited for left
on the chain. -/
theorem Custody.resumePass {s : Suspension} {ss : List Suspension} {born : Nat} (h : Custody c)
    (hstands : Stands c upper below born) (hs : c.suspended = s :: ss)
    (hr : c.resumePass s ss = some c') : Custody c' := by
  have hground := hstands.ground_resumePass hs hr
  have hlower := hstands.lower
  rw [hs] at hlower
  obtain ⟨x, made, w, duties, upper', below', born', rfl, hd, hbelow, hborn, hlevel, -⟩ := hlower
  obtain ⟨c₁, h₁, h₂⟩ := Option.bind_eq_some_iff.1 hr
  rw [endDuties_of_plain hd] at h₂
  cases h₂
  simp only [endDuty] at h₁
  split at h₁
  · exact Custody.raise rfl h₁
  · next hp =>
    cases h₁
    refine h.keep hp rfl rfl fun howed => .inr ?_
    -- The entry of the suspended pass is older than the pass it waited for.
    have hpass : ∀ f ∈ upper, x.entry ≠ some f := by
      intro f hf
      have hyoung := (hstands.level.younger f (List.mem_append_left _ hf)).1
      exact hlevel.entry_ne (Nat.le_trans hborn hyoung)
    have hmarked : marked c.frameAt x.entry c.chain =
        (upper.any (fun f => (c.frameAt f).isMarker) || marked c.frameAt x.entry below) := by
      rw [hstands.chain]
      exact marked_append hpass
    have hown : marked c.frameAt c.context.entry c.chain =
        upper.any fun f => (c.frameAt f).isMarker := by
      rw [marked, hstands.chain, hstands.level.takeWhile_chain]
    have hawaits : awaits c.frameAt c.suspended c.ground =
        (marked c.frameAt x.entry below || (.construct x made w :: duties).any Duty.isNoted ||
          awaits c.frameAt ss (reach c.ground x.entry)) := by
      rw [hs, hstands.ground_eq]
      rfl
    rw [isAwaited, hown, hawaits]
    rcases howed with hnoted | hawaited
    · have hx : x.isNoted = true := hnoted
      rw [List.any_cons, Duty.isNoted, hx]
      simp
    · rw [isAwaited, hground] at hawaited
      have hawaited : (marked c.frameAt x.entry c.chain ||
          awaits c.frameAt ss (reach c.ground x.entry)) = true := hawaited
      rw [hmarked] at hawaited
      simp only [Bool.or_eq_true] at hawaited ⊢
      rcases hawaited with (hupper | hbelow) | hrest
      · exact .inl hupper
      · exact .inr (.inl (.inl hbelow))
      · exact .inr (.inr hrest)

theorem Turn.custody (h : Turn ph c ph' c') (hc : Standing ph c) (hcustody : Custody c)
    (htake : ph = .ready → ∀ i, c.next? = some i → i.op = .takeException → ¬c.isAwaited) :
    Custody c' := by
  have hmove : ∀ {i : Inst} {p : Machine.Progress}, ph = .ready → c.next? = some i →
      (c.goto (c.context.pc + 1)).Move i.op p c' → (∀ v, p ≠ .finished v) → Custody c' := by
    rintro i p rfl hi hm hover
    have hop : i.op ≠ .abort := fun hop => hover .nil (hm.eq_over_of_abort hop)
    exact Custody.move (c := c.goto (c.context.pc + 1)) ⟨hcustody.held, hcustody.settled⟩
      (hc.1.fetch hi hop) hc.2 hm (htake rfl i hi)
  cases h with
  | same hi hm => exact hmove rfl hi hm nofun
  | entered hi hm => exact hmove rfl hi hm nofun
  | finished hi hm =>
    obtain ⟨rfl, -⟩ := hm.of_over
    exact ⟨hcustody.held, hcustody.settled⟩
  | settled => exact hcustody
  | unwound hpending hu =>
    have hsignal := popUntil_sameSignal hu
    refine ⟨fun _ => .inr (hsignal.pending ▸ hpending), fun _ => ?_⟩
    unfold Context.isNoted
    rw [hsignal.state.excState, hsignal.state.settleOnReturn]
    exact hcustody.settled hpending
  | resumed hs hr =>
    obtain ⟨upper, below, born, hstands⟩ := hc
    exact hcustody.resumePass hstands hs hr

/-- A running pass that owes the exception has it in flight. -/
theorem Custody.noted (h : Custody c) (hn : c.context.isNoted) : c.exception ≠ none :=
  (h.held (.inl hn)).resolve_right fun hp => h.settled hp hn

/-- What is known after a tick. The last pass has left the entry it stood on, so that markers
which earlier units left on the chain no longer count. -/
def Kept (c : Control) (ended : Bool) : Prop :=
  if ended then c.context.isNoted → c.exception ≠ none else Custody c

theorem Custody.finish {ss : List Suspension} {ended : Bool} (h : Custody c) (hc : Sound c)
    (hss : c.suspended = ss) (hf : c.finish ss = some (c', ended)) : Kept c' ended := by
  induction ss generalizing c with
  | nil =>
    rw [Control.finish] at hf
    split at hf
    · cases hf
      exact h
    · next hp =>
      obtain ⟨c₁, hu, heq⟩ := Option.map_eq_some_iff.1 hf
      cases heq
      exact ((Turn.unwound hp hu).custody hc h (by simp)).noted
  | cons s rest ih =>
    rw [Control.finish] at hf
    split at hf
    · cases hf
      exact h
    · next hp =>
      obtain ⟨c₁, hu, hf⟩ := Option.bind_eq_some_iff.1 hf
      obtain ⟨c₂, hr, hf⟩ := Option.bind_eq_some_iff.1 hf
      have hunwound : Turn .settling c .ended c₁ := .unwound hp hu
      have hs : c₁.suspended = s :: rest := (popUntil_samePass hu).suspended.trans hss
      have hresumed : Turn .ended c₁ .settling c₂ := .resumed hs hr
      have hc₁ := hunwound.standing hc
      have hcustody₂ := hresumed.custody hc₁ (hunwound.custody hc h (by simp)) (by simp)
      exact ih hcustody₂ (hresumed.standing hc₁) (suspended_of_resumePass hr) hf

theorem Custody.endPass {ended : Bool} (h : Custody c) (hc : Standing .ended c)
    (he : c.endPass = some (c', ended)) : Kept c' ended := by
  unfold Control.endPass at he
  split at he
  · cases he
    exact h.noted
  · next s rest hs =>
    obtain ⟨c₁, hr, hf⟩ := Option.bind_eq_some_iff.1 he
    have hresumed : Turn .ended c .settling c₁ := .resumed hs hr
    exact (hresumed.custody hc h nofun).finish (hresumed.standing hc) (suspended_of_resumePass hr) hf

theorem Custody.tick {i : Inst} {ended : Bool} (h : Custody c) (hc : Sound c)
    (hp : c.pending = none) (ht : c.Tick i c' ended)
    (htake : i.op = .takeException → ¬c.isAwaited) : Kept c' ended := by
  obtain ⟨hi, hmove, hend⟩ := ht
  next p c₁ =>
  have htake' : Phase.ready = .ready → ∀ j, c.next? = some j → j.op = .takeException →
      ¬c.isAwaited := by
    intro _ j hj
    cases hi.symm.trans hj
    exact htake
  have hc' : Standing .ready c := ⟨hc, hp⟩
  cases p with
  | same =>
    have hturn : Turn .ready c .settling c₁ := .same hi hmove
    exact (hturn.custody hc' h htake').finish (hturn.standing hc') rfl hend
  | entered =>
    have hturn : Turn .ready c .ready c₁ := .entered hi hmove
    cases hend
    exact hturn.custody hc' h htake'
  | finished v =>
    have hturn : Turn .ready c .ended c₁ := .finished hi hmove
    exact (hturn.custody hc' h htake').endPass (hturn.standing hc') hend

/-- Nothing is owed when a unit of code starts. -/
theorem Custody.start (code : Code) (hsuspended : c.suspended = []) (hnoted : ¬c.context.isNoted)
    (hp : c.pending = none) : Custody (c.start code) := by
  refine ⟨fun howed => ?_, fun hne => absurd hp hne⟩
  rcases howed with hn | hawaited
  · exact absurd hn hnoted
  · have hmarked : marked (c.start code).frameAt (c.start code).context.entry
        (c.start code).chain = false := marked_head? c.chain
    have hs : (c.start code).suspended = [] := hsuspended
    rw [isAwaited, hmarked, hs] at hawaited
    cases hawaited

end Control

end ObjectMachine
