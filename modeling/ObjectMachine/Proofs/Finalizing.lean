import ObjectMachine.Proofs.Nesting

/-! Ensure bodies and the exception in flight. While an ensure body runs, the exception that
entered it stays in its slot, and whatever is raised meanwhile is dropped in its favour. What
can be lost is the note that the return of the body goes on with it: the running pass keeps
one such note, and an exception rescued in the same pass takes it away. Constructor passes
have notes of their own. So a body whose own pass raises nothing, and in which nobody takes
the exception, hands it on when it returns, whatever its constructor passes raise and rescue. -/

namespace ObjectMachine

namespace Control

variable {c c' c₀ : Control} {e : ClassId} {v : Value} {ph ph' : Phase}

/-- Control in an ensure body, whose return goes on with the unwinding: at the marker on top
of the chain, or by settling the exception. -/
structure Finalizing (c : Control) : Prop where
  excState : c.context.excState = .finalizing
  noted : c.context.settleOnReturn → c.context.finalizeFrame = c.chain.head?
  next : c.topMarker?.isSome ∨ c.context.settleOnReturn

/-! ### The exception slot -/

/-- The exception is in flight, or pending at the end of a pass. -/
def Signals (e : ClassId) (v : Value) (c : Control) : Prop :=
  c.exception = some e ∧ c.excMessage = v ∧ c.pending = none ∨
    c.exception = none ∧ c.pending = some e ∧ c.pendingMessage = v

structure SameSlots (c c' : Control) : Prop where
  exception : c'.exception = c.exception
  excMessage : c'.excMessage = c.excMessage
  pending : c'.pending = c.pending
  pendingMessage : c'.pendingMessage = c.pendingMessage

theorem SameSlots.trans {c₁ c₂ c₃ : Control} (h : SameSlots c₁ c₂) (h' : SameSlots c₂ c₃) :
    SameSlots c₁ c₃ :=
  ⟨h'.exception.trans h.exception, h'.excMessage.trans h.excMessage, h'.pending.trans h.pending,
    h'.pendingMessage.trans h.pendingMessage⟩

theorem Signals.of_slots (h : Signals e v c) (hs : SameSlots c c') : Signals e v c' := by
  unfold Signals
  rw [hs.exception, hs.excMessage, hs.pending, hs.pendingMessage]
  exact h

theorem popUntil_slots {target : Option FrameId} {fs : List FrameId}
    (h : popUntil target fs c = some c') : SameSlots c c' :=
  have hsignal := popUntil_sameSignal h
  ⟨hsignal.exception, hsignal.excMessage, hsignal.pending, hsignal.pendingMessage⟩

theorem pop_slots (f : FrameId) (rest : List FrameId) : SameSlots c (c.pop f rest) :=
  have hsignal : SameSignal c (c.pop f rest) := pop_sameSignal
  ⟨hsignal.exception, hsignal.excMessage, hsignal.pending, hsignal.pendingMessage⟩

theorem land_slots (k : Frame) : SameSlots c (c.land k) := by
  unfold land splice
  split
  · exact ⟨rfl, rfl, rfl, rfl⟩
  · split <;> exact ⟨rfl, rfl, rfl, rfl⟩

theorem resume_slots {f : FrameId} (h : c.resume f = some c') : SameSlots c c' := by
  obtain ⟨c₁, hu, rfl⟩ := Option.map_eq_some_iff.1 h
  exact (popUntil_slots hu).trans (land_slots _)

/-- An exception in flight is delivered to a marker, or becomes pending. -/
theorem Signals.deliver (he : c.exception = some e) (hv : c.excMessage = v) (hp : c.pending = none)
    (hd : c.deliver = some c') : Signals e v c' := by
  have hstart : Signals e v c := .inl ⟨he, hv, hp⟩
  unfold Control.deliver at hd
  split at hd
  · obtain ⟨c₁, hu, hr⟩ := Option.bind_eq_some_iff.1 hd
    obtain ⟨hexception, hmessage, hpending, hpendingMessage⟩ := resume_slots hr
    exact (hstart.of_slots (popUntil_slots hu)).of_slots
      ⟨hexception, hmessage, hpending, hpendingMessage⟩
  · split at hd
    · obtain ⟨hexception, hmessage, hpending, hpendingMessage⟩ := resume_slots hd
      exact hstart.of_slots ⟨hexception, hmessage, hpending, hpendingMessage⟩
    · cases hd
      exact .inr ⟨rfl, by simp [settle, hp, he], by simp [settle, hp, hv]⟩

/-- The first exception is kept. -/
theorem Signals.raise {e' : ClassId} {v' : Value} (he : c.exception = some e)
    (hv : c.excMessage = v) (hp : c.pending = none) (hr : c.raise e' v' = some c') :
    Signals e v c' := by
  rw [Control.raise, he] at hr
  exact Signals.deliver he hv hp hr

/-- No instruction but the one that takes it loses the exception. -/
theorem Signals.move {op : Opcode} {p : Machine.Progress} (he : c.exception = some e)
    (hv : c.excMessage = v) (hp : c.pending = none) (hop : op ≠ .takeException)
    (hm : c.Move op p c') : Signals e v c' := by
  have hstart : Signals e v c := .inl ⟨he, hv, hp⟩
  cases hm with
  | call _ hcall =>
    cases hcall with
    | deed hd =>
      rcases hd with rfl | ⟨base, code, targetClass, rfl⟩ | ⟨e', v', hr⟩
      · exact hstart
      · exact hstart.of_slots ⟨rfl, rfl, rfl, rfl⟩
      · exact Signals.raise he hv hp hr
    | entered => exact hstart.of_slots ⟨rfl, rfl, rfl, rfl⟩
  | take => exact absurd rfl hop
  | resume htop hr =>
    obtain ⟨hexception, hmessage, hpending, hpendingMessage⟩ := resume_slots hr
    exact hstart.of_slots ⟨hexception, hmessage, hpending, hpendingMessage⟩
  | settle => exact .inr ⟨rfl, by simp [Control.settle, hp, he], by simp [Control.settle, hp, hv]⟩
  | back => exact hstart.of_slots (pop_slots _ _)
  | _ => exact hstart.of_slots ⟨rfl, rfl, rfl, rfl⟩

/-- A pass that ends hands its pending exception over to the pass below. -/
theorem Signals.resumePass {s : Suspension} {rest : List Suspension} {upper below : List FrameId}
    {born : Nat} (h : Signals e v c) (hstands : Stands c upper below born)
    (hs : c.suspended = s :: rest) (hr : c.resumePass s rest = some c') : Signals e v c' := by
  obtain ⟨x, made, w, duties, rfl, hd, -⟩ := hstands.takeUp hs
  obtain ⟨c₁, h₁, h₂⟩ := Option.bind_eq_some_iff.1 hr
  rw [endDuties_of_plain hd] at h₂
  cases h₂
  simp only [endDuty] at h₁
  split at h₁
  · next e' he' =>
    rcases h with ⟨-, -, hp⟩ | ⟨he, hp, hv⟩
    · cases hp.symm.trans he'
    · cases hp.symm.trans he'
      simp only [Control.raise, he, Option.isNone_none, if_true] at h₁
      exact Signals.deliver rfl hv rfl h₁
  · next hnone =>
    cases h₁
    rcases h with h | ⟨-, hp, -⟩
    · exact .inl h
    · cases hp.symm.trans hnone

theorem Turn.signals (h : Turn ph c ph' c') (hc : Standing ph c) (hs : Signals e v c)
    (htake : ph = .ready → ∀ i, c.next? = some i → i.op ≠ .takeException) : Signals e v c' := by
  have hmove : ∀ {i : Inst} {p : Machine.Progress}, ph = .ready → c.next? = some i →
      (c.goto (c.context.pc + 1)).Move i.op p c' → Signals e v c' := by
    rintro i p rfl hi hm
    rcases hs with ⟨he, hv, hp⟩ | ⟨-, hp, -⟩
    · exact Signals.move (c := c.goto (c.context.pc + 1)) he hv hp (htake rfl i hi) hm
    · cases hp.symm.trans hc.2
  cases h with
  | same hi hm => exact hmove rfl hi hm
  | entered hi hm => exact hmove rfl hi hm
  | finished hi hm => exact hmove rfl hi hm
  | settled => exact hs
  | unwound hpending hu => exact hs.of_slots (popUntil_slots hu)
  | resumed hs' hr =>
    obtain ⟨upper, below, born, hstands⟩ := hc
    exact hs.resumePass hstands hs' hr

/-! ### The pass of the body -/

structure Calls (c₀ c : Control) (fresh : List FrameId) : Prop where
  extends_ : Extends c₀ c
  calls : ∀ f ∈ fresh, c₀.frames.size ≤ f ∧ f < c.frames.size ∧ (c.frameAt f).isMarker = false

/-- A context of the pass of the body that stands as the body stood at `c₀`. -/
structure Keeps (c₀ : Control) (x : Context) : Prop where
  entry : x.entry = c₀.context.entry
  state : SameState x c₀.context

structure Runs (c₀ c : Control) (fresh : List FrameId) : Prop extends Calls c₀ c fresh where
  suspended : c.suspended = c₀.suspended
  chain : c.chain = fresh ++ c₀.chain
  keeps : Keeps c₀ c.context

/-- The pass of the body waits for constructor passes. -/
structure Waits (c₀ c : Control) (fresh : List FrameId) : Prop extends Calls c₀ c fresh where
  waits : ∃ extra x made w duties, Keeps c₀ x ∧
    c.suspended = extra ++ ⟨x.entry, .construct x made w :: duties⟩ :: c₀.suspended ∧
    c.floor extra = fresh ++ c₀.chain

variable {fresh : List FrameId} {x : Context}

theorem Calls.step (h : Calls c₀ c fresh) (hext : Extends c c') : Calls c₀ c' fresh where
  extends_ := h.extends_.trans hext
  calls f hf := by
    obtain ⟨hle, hlt, hcall⟩ := h.calls f hf
    exact ⟨hle, Nat.lt_of_lt_of_le hlt hext.le_size, hext.old f hlt ▸ hcall⟩

theorem Calls.push (h : Calls c₀ c fresh) {k : Frame} (hframes : c'.frames = c.frames.push k)
    (hcall : k.isMarker = false) : Calls c₀ c' (c.frames.size :: fresh) := by
  have hext : Extends c c' := .of_push hframes
  refine ⟨h.extends_.trans hext, fun f hf => ?_⟩
  rcases List.mem_cons.1 hf with rfl | hf
  · refine ⟨h.extends_.le_size, ?_, ?_⟩
    · rw [hframes, Array.size_push]
      exact Nat.lt_succ_self _
    · rw [frameAt_push_size k hframes]
      exact hcall
  · exact (h.step hext).calls f hf

theorem Calls.tail {f : FrameId} (h : Calls c₀ c (f :: fresh)) : Calls c₀ c fresh where
  extends_ := h.extends_
  calls g hg := h.calls g (List.mem_cons_of_mem _ hg)

theorem Keeps.turn {x' : Context} (h : Keeps c₀ x) (hentry : x'.entry = x.entry)
    (hstate : SameState x' x) : Keeps c₀ x' :=
  ⟨hentry.trans h.entry, hstate.trans h.state⟩

theorem Runs.go (h : Runs c₀ c fresh) (hext : Extends c c') (hs : c'.suspended = c.suspended)
    (hchain : c'.chain = c.chain) (hentry : c'.context.entry = c.context.entry)
    (hstate : SameState c'.context c.context) : Runs c₀ c' fresh :=
  ⟨h.toCalls.step hext, hs.trans h.suspended, hchain.trans h.chain, h.keeps.turn hentry hstate⟩

theorem Runs.goto (h : Runs c₀ c fresh) (pc : Int64) : Runs c₀ (c.goto pc) fresh :=
  h.go (.of_frames rfl) rfl rfl rfl ⟨rfl, rfl, rfl⟩

/-- A call from the body returns. -/
theorem Runs.pop {f : FrameId} (h : Runs c₀ c (f :: fresh)) :
    Runs c₀ (c.pop f (fresh ++ c₀.chain)) fresh := by
  have hsame : SamePass c (c.pop f (fresh ++ c₀.chain)) := pop_samePass
  have hsignal : SameSignal c (c.pop f (fresh ++ c₀.chain)) := pop_sameSignal
  exact ⟨h.toCalls.tail.step (.of_frames hsame.frames), hsame.suspended.trans h.suspended, rfl,
    h.keeps.turn hsame.entry hsignal.state⟩

/-- A return in a call from the body is a plain one. -/
theorem Runs.leave {f : FrameId} (h : Runs c₀ c (f :: fresh)) (h₀ : Sound c₀)
    (hfinal : c₀.Finalizing) (hm : c.Move .leave .same c') : Runs c₀ c' fresh := by
  obtain ⟨hle, -, hcall⟩ := h.calls f List.mem_cons_self
  have hhead : c.chain.head? = some f := by
    rw [h.chain]
    rfl
  obtain ⟨g, htop, -, -⟩ | ⟨-, hsettle, -, -⟩ | ⟨-, -, -, ⟨g, rest, hchain, rfl⟩, -⟩ |
    ⟨-, -, hentry, -⟩ := hm.leave_cases
  · obtain ⟨hhead', hmarker⟩ := Option.filter_eq_some_iff.1 htop
    cases hhead.symm.trans hhead'
    simp [hcall] at hmarker
  · simp only [settlesOnReturn, Bool.and_eq_true, beq_iff_eq] at hsettle
    obtain ⟨⟨-, hon⟩, hframe⟩ := hsettle
    rw [h.keeps.state.settleOnReturn] at hon
    rw [hhead, h.keeps.state.finalizeFrame, hfinal.noted hon] at hframe
    exact absurd (h₀.lt_size (List.mem_of_head? hframe.symm)) (Nat.not_lt.2 hle)
  · rw [h.chain, List.cons_append, List.cons.injEq] at hchain
    obtain ⟨rfl, rfl⟩ := hchain
    exact h.pop
  · rw [hhead, h.keeps.entry] at hentry
    obtain ⟨⟨upper, below, born, hstands⟩, -⟩ := h₀
    have hlt := hstands.level.entry_lt hentry.symm
    exact absurd (Nat.lt_of_lt_of_le hlt hstands.le_size) (Nat.not_lt.2 hle)

/-- An instruction in the pass of the body that raises nothing and takes no exception. -/
theorem Runs.move {i : Inst} (h : Runs c₀ c fresh) (h₀ : Sound c₀) (hfinal : c₀.Finalizing)
    (hi : c.next? = some i) (hm : (c.goto (c.context.pc + 1)).Move i.op .same c')
    (hopen : ¬Closing c₀ c) (htake : i.op ≠ .takeException)
    (hcalm : ¬∃ e v, (c.goto (c.context.pc + 1)).raise e v = some c') :
    ∃ fresh', Runs c₀ c' fresh' := by
  have hfetched := h.goto (c.context.pc + 1)
  by_cases hleave : i.op = .leave
  · cases fresh with
    | nil => exact absurd ⟨h.chain, congrArg List.length h.suspended, i, hi, hleave⟩ hopen
    | cons f fresh =>
      rw [hleave] at hm
      exact ⟨fresh, hfetched.leave h₀ hfinal hm⟩
  · generalize i.op = op at hm htake hleave
    cases hm with
    | call _ hcall =>
      cases hcall with
      | deed hd =>
        rcases hd with rfl | ⟨base, code, targetClass, rfl⟩ | ⟨e, v, hr⟩
        · exact ⟨fresh, hfetched⟩
        · refine ⟨c.frames.size :: fresh, hfetched.toCalls.push rfl rfl, h.suspended, ?_, ?_⟩
          · exact congrArg (c.frames.size :: ·) h.chain
          · exact h.keeps.turn rfl ⟨rfl, rfl, rfl⟩
        · exact absurd ⟨e, v, hr⟩ hcalm
    | jump _ pc => exact ⟨fresh, hfetched.goto pc⟩
    | protect tag pc _ =>
      exact ⟨fresh, hfetched.go (.of_push rfl) rfl rfl rfl ⟨rfl, rfl, rfl⟩⟩
    | unprotect n => exact ⟨fresh, hfetched.go (.of_frames rfl) rfl rfl rfl ⟨rfl, rfl, rfl⟩⟩
    | take _ => exact absurd rfl htake
    | _ => exact absurd rfl hleave

/-- A constructor pass begins in the body. -/
theorem Runs.enter (h : Runs c₀ c fresh) {made : Value} {w : Window} {duties : List Duty}
    {base argc : Int64} (hx : x.bare = c.context) :
    Waits c₀ (c.enter (.construct x made w :: duties) base argc) fresh := by
  have hentry : x.entry = c.context.entry := hx ▸ rfl
  have hstate : SameState x c.context := hx ▸ ⟨rfl, rfl, rfl⟩
  refine ⟨h.toCalls.step (.of_frames rfl), [], x, made, w, duties, h.keeps.turn hentry hstate, ?_, ?_⟩
  · rw [hentry, ← h.suspended]
    rfl
  · rw [← h.chain]
    exact reach_head? c.chain

/-- The pass of the body goes on waiting. -/
theorem Waits.turn (h : Waits c₀ c fresh) (hturn : Turn ph c ph' c') (hc : Standing ph c)
    (hlength : c₀.suspended.length < c'.suspended.length) : Waits c₀ c' fresh := by
  obtain ⟨extra, x, made, w, duties, hkeeps, hs, hfloor⟩ := h.waits
  obtain ⟨extra', hs', hfloor'⟩ := hturn.floor hc hs hlength
  exact ⟨h.toCalls.step hturn.extends, extra', x, made, w, duties, hkeeps, hs', hfloor'.trans hfloor⟩

/-- The last constructor pass is over, and left nothing on the chain. -/
theorem Waits.resume (h : Waits c₀ c fresh) (hc : Standing .ended c) {s : Suspension}
    {rest : List Suspension} (hs : c.suspended = s :: rest) (hr : c.resumePass s rest = some c')
    (hlength : rest.length = c₀.suspended.length) (hhead : c.chain.head? = c.context.entry)
    (hpending : c.pending = none) : Runs c₀ c' fresh := by
  obtain ⟨extra, x, made, w, duties, hkeeps, hs', hfloor⟩ := h.waits
  have hnil : extra = [] := by
    have hlengths := congrArg List.length (hs.symm.trans hs')
    rw [List.length_append, List.length_cons, List.length_cons] at hlengths
    exact List.length_eq_zero_iff.1 (by omega)
  subst hnil
  rw [hs, List.nil_append, List.cons.injEq] at hs'
  obtain ⟨rfl, rfl⟩ := hs'
  have hground : c.ground = c.chain := by
    rw [ground, ← hhead, reach_head?]
  obtain ⟨upper, below, born, hstands⟩ := hc
  obtain ⟨x', made', w', duties', heq, hd, -⟩ := hstands.takeUp hs
  simp only [Suspension.mk.injEq, List.cons.injEq, Duty.construct.injEq] at heq
  obtain ⟨-, -, rfl⟩ := heq
  obtain ⟨c₁, h₁, h₂⟩ := Option.bind_eq_some_iff.1 hr
  rw [endDuties_of_plain hd] at h₂
  cases h₂
  simp only [endDuty, hpending] at h₁
  cases h₁
  refine ⟨h.toCalls.step (.of_frames rfl), rfl, ?_, hkeeps.turn rfl ⟨rfl, rfl, rfl⟩⟩
  rw [← hfloor]
  exact hground.symm

/-- The pass of the body is running, or it waits for constructor passes. -/
def Holds (c₀ c : Control) : Prop := ∃ fresh, Runs c₀ c fresh ∨ Waits c₀ c fresh

theorem Waits.length_lt (h : Waits c₀ c fresh) : c₀.suspended.length < c.suspended.length := by
  obtain ⟨extra, x, made, w, duties, -, hs, -⟩ := h.waits
  rw [hs, List.length_append, List.length_cons]
  omega

theorem Holds.runs (h : Holds c₀ c) (hlength : c.suspended.length = c₀.suspended.length) :
    ∃ fresh, Runs c₀ c fresh := by
  obtain ⟨fresh, hruns | hwaits⟩ := h
  · exact ⟨fresh, hruns⟩
  · exact absurd hlength (Nat.ne_of_gt hwaits.length_lt)

/-- What is asked of a part of a run in a body that was entered at `c₀`: passes that end are
constructor passes, and end at their entry; nobody takes the exception; the pass of the body
raises nothing, and nothing escapes into it; and the body has not returned yet. -/
structure Heeds (c₀ : Control) (ph : Phase) (c : Control) (ph' : Phase) (c' : Control) : Prop where
  stays : c₀.suspended.length ≤ c'.suspended.length
  whole : ph' = .ended → c₀.suspended.length < c'.suspended.length ∧
    c'.chain.head? = c'.context.entry
  untaken : ph = .ready → ∀ i, c.next? = some i → i.op ≠ .takeException
  calm : ph = .ready → c'.suspended.length = c₀.suspended.length →
    ¬∃ e v, (c.goto (c.context.pc + 1)).raise e v = some c'
  contained : ph = .ended → c'.suspended.length = c₀.suspended.length → c.pending = none
  unclosed : ph = .ready → ¬Closing c₀ c

/-- Where no marker is left, a raise turns the exception into the pending one. -/
theorem exception_of_raise {e' : ClassId} {v' : Value} (hactive : c.active = [])
    (hr : c.raise e' v' = some c') : c'.exception = none := by
  obtain ⟨e₁, v₁, hd⟩ := raise_eq_deliver hr
  obtain ⟨hspliced, hmarkers⟩ := List.append_eq_nil_iff.1 hactive
  have hspliced' : (c.inFlight e₁ v₁).spliced = [] := hspliced
  have hmarkers' : (c.inFlight e₁ v₁).context.markers = [] := hmarkers
  simp only [Control.deliver, hspliced', hmarkers', Option.some.injEq] at hd
  subst hd
  rfl

def heeds? (c₀ : Control) (ph : Phase) (c : Control) (ph' : Phase) (c' : Control) : Bool :=
  c₀.suspended.length ≤ c'.suspended.length &&
  (ph' != .ended || c₀.suspended.length < c'.suspended.length &&
    c'.chain.head? == c'.context.entry) &&
  (ph != .ready || c.next?.all fun i => i.op != .takeException &&
    (i.op != .leave || c.chain != c₀.chain || c.suspended.length != c₀.suspended.length)) &&
  (c'.suspended.length != c₀.suspended.length ||
    (ph != .ready || c.active.isEmpty && c'.exception.isSome) && (ph != .ended || c.pending.isNone))

theorem Heeds.of_check (h : heeds? c₀ ph c ph' c') : Heeds c₀ ph c ph' c' := by
  simp only [heeds?, Bool.and_eq_true, Bool.or_eq_true, bne_iff_ne, beq_iff_eq,
    decide_eq_true_eq, List.isEmpty_iff, Option.all_eq_true, Option.isNone_iff_eq_none] at h
  obtain ⟨⟨⟨hstays, hwhole⟩, hready⟩, hown⟩ := h
  refine ⟨hstays, fun hph => hwhole.resolve_left (absurd hph), fun hph i hi => ?_,
    fun hph hlength => ?_, fun hph hlength => ?_, fun hph => ?_⟩
  · exact (hready.resolve_left (absurd hph) i hi).1
  · rintro ⟨e, v, hr⟩
    obtain ⟨hactive, hsome⟩ := (hown.resolve_left (absurd hlength)).1.resolve_left (absurd hph)
    have hfetched : (c.goto (c.context.pc + 1)).active = [] := hactive
    rw [exception_of_raise hfetched hr] at hsome
    cases hsome
  · exact (hown.resolve_left (absurd hlength)).2.resolve_left (absurd hph)
  · rintro ⟨hchain, hlength, i, hi, hop⟩
    obtain ⟨-, (hne | hne) | hne⟩ := hready.resolve_left (absurd hph) i hi
    · exact hne hop
    · exact hne hchain
    · exact hne hlength

theorem Turn.holds (h : Turn ph c ph' c') (hc : Standing ph c) (h₀ : Sound c₀)
    (hfinal : c₀.Finalizing) (hheeds : Heeds c₀ ph c ph' c') (hholds : Holds c₀ c)
    (hhead : ph = .ended → c.chain.head? = c.context.entry) : Holds c₀ c' := by
  obtain ⟨fresh, hruns | hwaits⟩ := hholds
  · have hlength := congrArg List.length hruns.suspended
    have hsuspended := h.suspended
    cases h with
    | same hi hm =>
      have hlength' := (congrArg List.length hsuspended).trans hlength
      obtain ⟨fresh', hruns'⟩ := hruns.move h₀ hfinal hi hm (hheeds.unclosed rfl)
        (hheeds.untaken rfl _ hi) (hheeds.calm rfl hlength')
      exact ⟨fresh', .inl hruns'⟩
    | entered hi hm =>
      obtain ⟨x, made, w, duties, base, argc, hx, -, rfl⟩ := hm.eq_enter
      exact ⟨fresh, .inr ((hruns.goto _).enter hx)⟩
    | finished hi hm =>
      have hlt := (hheeds.whole rfl).1
      have hlength' := (congrArg List.length hsuspended).trans hlength
      omega
    | settled => exact ⟨fresh, .inl hruns⟩
    | unwound hpending hu =>
      have hlt := (hheeds.whole rfl).1
      have hlength' := (congrArg List.length hsuspended).trans hlength
      omega
    | resumed hs hr =>
      obtain ⟨s, hs'⟩ := hsuspended
      have hlength' := congrArg List.length hs'
      have hle := hheeds.stays
      rw [List.length_cons] at hlength'
      omega
  · by_cases hlength : c'.suspended.length = c₀.suspended.length
    · have hlt := hwaits.length_lt
      have hsuspended := h.suspended
      cases h with
      | resumed hs hr =>
        rw [suspended_of_resumePass hr] at hlength
        exact ⟨fresh, .inl (hwaits.resume hc hs hr hlength (hhead rfl) (hheeds.contained rfl
          ((congrArg List.length (suspended_of_resumePass hr)).trans hlength)))⟩
      | entered hi hm =>
        obtain ⟨s, hs⟩ := hsuspended
        have hlength' := congrArg List.length hs
        rw [List.length_cons] at hlength'
        omega
      | _ =>
        have hlength' := congrArg List.length hsuspended
        omega
    · exact ⟨fresh, .inr (hwaits.turn h hc (Nat.lt_of_le_of_ne hheeds.stays (Ne.symm hlength)))⟩

theorem Runs.topMarker?_eq (h : Runs c₀ c []) (h₀ : Sound c₀) : c.topMarker? = c₀.topMarker? := by
  have hchain : c.chain = c₀.chain := h.chain
  rw [topMarker?, topMarker?, hchain, h.keeps.entry]
  cases hc : c₀.chain with
  | nil => rfl
  | cons f rest =>
    have hlt : f < c₀.frames.size := h₀.lt_size (hc ▸ List.mem_cons_self)
    simp only [List.head?_cons, Option.filter_some, h.extends_.old f hlt]

/-- The closing return of a body goes on with the exception. -/
theorem Runs.close {p : Machine.Progress} (h : Runs c₀ c []) (h₀ : Sound c₀)
    (hfinal : c₀.Finalizing) (he : c.exception = some e) (hv : c.excMessage = v)
    (hp : c.pending = none) (hm : c.Move .leave p c') :
    p = .same ∧ match c₀.topMarker? with
      | some f => c'.At (c₀.frameAt f) ∧ c'.exception = some e ∧ c'.excMessage = v
      | none => c'.pending = some e ∧ c'.pendingMessage = v := by
  have htop := h.topMarker?_eq h₀
  have hchain : c.chain = c₀.chain := h.chain
  have hsettles : c₀.topMarker? = none → c.settlesOnReturn := by
    intro hnone
    have hon : c₀.context.settleOnReturn := by
      rcases hfinal.next with hsome | hon
      · rw [hnone] at hsome
        cases hsome
      · exact hon
    have hframe := hfinal.noted hon
    simp [settlesOnReturn, h.keeps.state.excState, hfinal.excState, h.keeps.state.settleOnReturn,
      hon, h.keeps.state.finalizeFrame, hframe, hchain]
  obtain ⟨f, hf, hr, hsame⟩ | ⟨hnone, -, hc', hsame⟩ | ⟨hnone, hnot, -⟩ | ⟨hnone, hnot, -⟩ :=
    hm.leave_cases
  · refine ⟨hsame, ?_⟩
    rw [← htop, hf]
    have hslots := resume_slots hr
    have hmem : f ∈ c₀.chain := hchain ▸ List.mem_of_head? (Option.filter_eq_some_iff.1 hf).1
    refine ⟨?_, hslots.exception.trans he, hslots.excMessage.trans hv⟩
    rw [← h.extends_.old f (h₀.lt_size hmem)]
    exact at_resume (c := { c with chain := c.chain.tail }) hr
  · refine ⟨hsame, ?_⟩
    rw [← htop, hnone, hc']
    exact ⟨by simp [settle, hp, he], by simp [settle, hp, hv]⟩
  · exact absurd (hsettles (htop ▸ hnone)) hnot
  · exact absurd (hsettles (htop ▸ hnone)) hnot

end Control

namespace Machine

variable {owned : List Value} {a m : Machine} {ph : Phase} {e : ClassId} {v : Value}

/-- A part of a run in the ensure body that was entered at `a`. -/
def Heeds (a : Machine) (ph : Phase) (m : Machine) (ph' : Phase) (m' : Machine) : Prop :=
  a.control.Heeds ph m.control ph' m'.control

theorem Course.holds (ha : Reachable true owned a) (hfinal : a.control.Finalizing)
    (he : a.exception = some e) (hv : a.excMessage = v) (h : Course (Heeds a) a ph m) :
    a.control.Holds m.control ∧ m.control.Signals e v ∧
      (ph = .ended → m.chain.head? = m.context.entry) := by
  induction h with
  | began =>
    refine ⟨⟨[], .inl ⟨⟨.of_frames rfl, nofun⟩, rfl, rfl, rfl, rfl, rfl, rfl⟩⟩, ?_, nofun⟩
    exact .inl ⟨he, hv, ha.pending_eq_none rfl⟩
  | next hcourse hok hadvance ih =>
    obtain ⟨hholds, hsignals, hhead⟩ := ih
    have hm := hcourse.steady ha
    have hturn := (hadvance.turn hm).1
    have hsound := ha.sane.sound rfl
    exact ⟨hturn.holds hm.standing hsound hfinal hok hholds hhead,
      hturn.signals hm.standing hsignals hok.untaken, fun hph => (hok.whole hph).2⟩

end Machine

open Machine

/-- An ensure body that was entered with an exception in flight, and comes to its closing
return, hands the exception on: to the next marker, or as the pending exception of its pass. -/
theorem ensure_hands_on {owned : List Value} {a b m' : Machine} {e : ClassId} {v : Value}
    {p : Progress} (ha : Reachable true owned a) (hfinal : a.control.Finalizing)
    (he : a.exception = some e) (hv : a.excMessage = v) (hcourse : Course (Heeds a) a .ready b)
    (hclosing : a.control.Closing b.control) (hm : (fetch >>= step) b = .ok p m') :
    p = .same ∧ match a.topMarker? with
      | some f => m'.ResumedAt (a.frameAt f) ∧ m'.exception = some e ∧ m'.excMessage = v
      | none => m'.pending = some e ∧ m'.pendingMessage = v := by
  obtain ⟨hholds, hsignals, -⟩ := hcourse.holds ha hfinal he hv
  have hb := hcourse.steady ha
  obtain ⟨hchain, hlength, i, hi, hop⟩ := hclosing
  obtain ⟨fresh, hruns⟩ := hholds.runs hlength
  have hnil : fresh = [] := List.append_left_eq_self.1 (hruns.chain.symm.trans hchain)
  subst hnil
  obtain ⟨he', hv', hp'⟩ | ⟨-, hp', -⟩ := hsignals
  · obtain ⟨-, j, hj, hmove⟩ := (fetch_step_stepped (hb.books nofun)).of_ok hm
    cases hi.symm.trans hj
    rw [hop] at hmove
    have hfetched := hruns.goto (b.control.context.pc + 1)
    obtain ⟨hsame, hgoes⟩ := hfetched.close (ha.sane.sound rfl) hfinal he' hv' hp' hmove
    refine ⟨hsame, ?_⟩
    rw [topMarker?_control]
    split at hgoes
    · next f hf =>
      obtain ⟨hat, hexception, hmessage⟩ := hgoes
      rw [frameAt_control] at hat
      exact ⟨⟨hat.base, hat.code, hat.pc, hat.targetClass⟩, hexception, hmessage⟩
    · exact hgoes
  · cases hp'.symm.trans hb.standing.2

/-- An ensure body that makes an object, whose constructor raises and rescues. -/
def constructingEnsure : Program where
  blocks := #[{
    registers := 4, symbols := #["initialize", "new"], children := #[1],
    code := #[⟨.targetClass, 1, 0, 0⟩, ⟨.makeBlock, 2, 0, 0⟩, ⟨.defineMethod, 1, 0, 0⟩,
      ⟨.targetClass, 1, 0, 0⟩, ⟨.pushEnsure, 6, 0, 0⟩, ⟨.raise, 1, 0, 0⟩, ⟨.targetClass, 1, 0, 0⟩,
      ⟨.send, 1, 1, 0⟩, ⟨.leave, 1, 0, 0⟩] }, {
    registers := 3,
    code := #[⟨.pushRescue, 2, 0, 0⟩, ⟨.raise, 1, 0, 0⟩, ⟨.leave, 1, 0, 0⟩] }]

/-- The exception that entered the body is the pending one when the body has returned. -/
theorem ensure_hands_on_constructingEnsure :
    ∃ a b m', Reachable true [] a ∧ a.control.Finalizing ∧ a.exception = some .object ∧
      Course (Heeds a) a .ready b ∧ a.control.Closing b.control ∧
      (fetch >>= step) b = .ok .same m' ∧ m'.pending = some .object := by
  have hrun : ∃ a ∈ constructingEnsure.after 6, a.context.excState = .finalizing ∧
      a.context.finalizeFrame = a.chain.head? ∧ a.context.settleOnReturn ∧
      a.exception = some .object ∧ a.topMarker? = none ∧
      ∃ x ∈ follow (fun ph m ph' m' => a.control.heeds? ph m.control ph' m'.control) 14 .ready a,
        x.1 = .ready ∧ x.2.chain = a.chain ∧ x.2.suspended.length = a.suspended.length ∧
        x.2.control.next? = some ⟨.leave, 1, 0, 0⟩ ∧
        Leads NoFault (fetch >>= step) x.2 fun _ _ => True := by decide +kernel
  have hvalid : constructingEnsure.defect? = none := Program.defect?_eq_none (by decide +kernel)
  obtain ⟨a, ha, hstate, hframe, hon, hexception, htop, ⟨ph, b⟩, hfollow, rfl, hchain, hlength,
    hnext, hruns⟩ := hrun
  obtain ⟨p, m', hm, -⟩ := hruns.exists_ok
  have hfinal : a.control.Finalizing := ⟨hstate, fun _ => hframe, .inr hon⟩
  have hclosing : a.control.Closing b.control := ⟨hchain, hlength, _, hnext, rfl⟩
  have hcourse : Course (Heeds a) a .ready b :=
    Course.began.follow (fun _ _ _ _ hcheck => .of_check hcheck) hfollow
  have hreach := Reachable.of_after hvalid ha
  obtain ⟨rfl, hgoes⟩ := ensure_hands_on hreach hfinal hexception rfl hcourse hclosing hm
  rw [htop] at hgoes
  exact ⟨a, b, m', hreach, hfinal, hexception, hcourse, hclosing, hm, hgoes.1⟩

/-- An ensure body that runs a class body, which raises and rescues in the same pass. -/
def rescuingEnsure : Program where
  blocks := #[{
    registers := 3, children := #[1],
    code := #[⟨.targetClass, 1, 0, 0⟩, ⟨.pushEnsure, 3, 0, 0⟩, ⟨.raise, 1, 0, 0⟩,
      ⟨.targetClass, 1, 0, 0⟩, ⟨.runBody, 1, 0, 0⟩, ⟨.leave, 1, 0, 0⟩] }, {
    registers := 3,
    code := #[⟨.pushRescue, 2, 0, 0⟩, ⟨.raise, 1, 0, 0⟩, ⟨.leave, 1, 0, 0⟩] }]

/-- The closing return of the body ends the unit, with nothing pending. -/
theorem exception_dropped_rescuingEnsure :
    ∃ a b v m', Reachable true [] a ∧ a.control.Finalizing ∧ a.exception = some .object ∧
      Course AnyPart a .ready b ∧ a.control.Closing b.control ∧ b.exception = some .object ∧
      (fetch >>= step) b = .ok (.finished v) m' ∧ m'.pending = none := by
  have hrun : ∃ a ∈ rescuingEnsure.after 3, a.context.excState = .finalizing ∧
      a.context.finalizeFrame = a.chain.head? ∧ a.context.settleOnReturn ∧
      a.exception = some .object ∧ ∃ x ∈ follow (fun _ _ _ _ => true) 10 .ready a,
        x.1 = .ready ∧ x.2.chain = a.chain ∧ x.2.suspended.length = a.suspended.length ∧
        x.2.control.next? = some ⟨.leave, 1, 0, 0⟩ ∧ x.2.exception = some .object ∧
        Leads NoFault (fetch >>= step) x.2 fun p m' => p.hand ≠ [] ∧ m'.pending = none := by
    decide +kernel
  have hvalid : rescuingEnsure.defect? = none := Program.defect?_eq_none (by decide +kernel)
  obtain ⟨a, ha, hstate, hframe, hon, hexception, ⟨ph, b⟩, hfollow, rfl, hchain, hlength, hnext,
    hexception', hruns⟩ := hrun
  obtain ⟨p, m', hm, hhand, hpending⟩ := hruns.exists_ok
  have hfinal : a.control.Finalizing := ⟨hstate, fun _ => hframe, .inr hon⟩
  have hcourse : Course AnyPart a .ready b :=
    Course.began.follow (fun _ _ _ _ _ => trivial) hfollow
  cases p with
  | finished v =>
    exact ⟨a, b, v, m', Reachable.of_after hvalid ha, hfinal, hexception, hcourse,
      ⟨hchain, hlength, _, hnext, rfl⟩, hexception', hm, hpending⟩
  | same | entered => exact absurd rfl hhand

end ObjectMachine
