import ObjectMachine.Proofs.Clerical

/-! Where control stands. The control of a machine is its context, its frames, the exception
and the suspended passes, without values, methods and charges. Pushing, popping, resuming and
raising are functions on it, and the actions follow these functions whenever they end without
a fault. -/

namespace ObjectMachine

/-- The part of a context that outlasts a native call. -/
def Context.bare (c : Context) : Context := { c with callBase := 0, callee := 0 }

/-- The context a frame saves, with its tag and the depth of a marker. -/
def Frame.bare (f : Frame) : Frame :=
  { f with ownClass := none, methodId := 0, nargs := 0, offset := 0, method := none, freed := false }

theorem Frame.isMarker_bare (f : Frame) : f.bare.isMarker = f.isMarker := rfl

structure Control where
  context : Context
  frames : Array Frame
  chain : List FrameId
  exception : Option ClassId
  excMessage : Value
  pending : Option ClassId
  pendingMessage : Value
  suspended : List Suspension

def Machine.control (m : Machine) : Control where
  context := m.context.bare
  frames := m.frames.map Frame.bare
  chain := m.chain
  exception := m.exception
  excMessage := m.excMessage
  pending := m.pending
  pendingMessage := m.pendingMessage
  suspended := m.suspended

namespace Control

def frameAt (c : Control) (f : FrameId) : Frame :=
  c.frames.getD f ⟨0, none, 0, none, none, 0, 0, 0, .call, none, none, false⟩

/-- Continues in the context that a frame saved. -/
def restore (c : Control) (k : Frame) : Control :=
  { c with context := { c.context with
      base := k.base, code := k.code, pc := k.pc, targetClass := k.targetClass } }

def saved (c : Control) (tag : FrameTag) (pc : Int64) (depth : Option FrameId) : Frame where
  base := c.context.base
  code := c.context.code
  pc := pc
  targetClass := c.context.targetClass
  tag := tag
  depth := depth

def push (c : Control) : Control :=
  { c with
    frames := c.frames.push (c.saved .call c.context.pc none)
    chain := c.frames.size :: c.chain }

/-- Pushes a marker that resumes at `pc`. -/
def mark (c : Control) (tag : FrameTag) (pc : Int64) : Control :=
  { c with
    frames := c.frames.push (c.saved tag pc c.chain.head?)
    context := { c.context with markers := c.frames.size :: c.context.markers } }

/-- The markers without the newest ones that belong to a frame. -/
def markersWithout (c : Control) (f : FrameId) : List FrameId :=
  c.context.markers.dropWhile fun k => (c.frameAt k).depth == some f

/-- Pops frame `f` off the chain and leaves `rest`. -/
def pop (c : Control) (f : FrameId) (rest : List FrameId) : Control :=
  let k := c.frameAt f
  let c := if k.isMarker then c
    else { c with context := { c.context with markers := c.markersWithout f } }
  { c.restore k with chain := rest }

/-- Pops frames until `target` is on top; `none` when it is not on the chain. -/
def popUntil (target : Option FrameId) : List FrameId → Control → Option Control
  | [], c => if target = none then some c else none
  | f :: rest, c => if target = some f then some c else popUntil target rest (c.pop f rest)

def unwind (target : Option FrameId) (c : Control) : Option Control := popUntil target c.chain c

/-- Moves the next marker onto the chain, or notes that the return settles the exception. -/
def splice (c : Control) : Control :=
  match c.context.markers with
  | next :: rest =>
    { c with chain := next :: c.chain, context := { c.context with markers := rest } }
  | [] =>
    { c with context := { c.context with finalizeFrame := c.chain.head?, settleOnReturn := true } }

/-- Continues in the context of a marker, with an exception in flight. -/
def arrive (c : Control) (k : Frame) (excState : ExceptionState) : Control :=
  { c.restore k with context := { (c.restore k).context with settleOnReturn := false, excState } }

/-- Enters the rescue or ensure body of a marker. -/
def land (c : Control) (k : Frame) : Control :=
  if k.tag = .rescue then c.arrive k .handled else (c.arrive k .finalizing).splice

/-- Continues in the context of a marker that is on neither list. -/
def resume (f : FrameId) (c : Control) : Option Control :=
  (c.unwind (c.frameAt f).depth).map (·.land (c.frameAt f))

/-- The markers on the chain of the current pass, newest first. -/
def spliced (c : Control) : List FrameId :=
  (c.chain.takeWhile fun f => c.context.entry != some f).filter fun f => (c.frameAt f).isMarker

/-- Turns the exception in flight into the pending one, unless one is pending. -/
def settle (c : Control) : Control :=
  { c with
    pending := if c.pending.isNone then c.exception else c.pending
    pendingMessage := if c.pending.isNone then c.excMessage else c.pendingMessage
    exception := none
    excMessage := .nil
    context := { c.context with excState := .normal, settleOnReturn := false } }

/-- Hands the exception in flight over to the first marker on the chain, else to the first
marker of the pass, else to the host. -/
def deliver (c : Control) : Option Control :=
  match c.spliced with
  | f :: _ => (c.unwind (some f)).bind fun c => { c with chain := c.chain.tail }.resume f
  | [] =>
    match c.context.markers with
    | f :: rest => { c with context := { c.context with markers := rest } }.resume f
    | [] => some c.settle

def raise (e : ClassId) (message : Value) (c : Control) : Option Control :=
  (if c.exception.isNone then { c with exception := some e, excMessage := message }
    else c).deliver

variable {c c' : Control} {f : FrameId} {rest : List FrameId} {target : Option FrameId}

@[simp] theorem pop_chain : (c.pop f rest).chain = rest := rfl

theorem frameAt_of_frames {c' : Control} (h : c'.frames = c.frames) (f : FrameId) :
    c'.frameAt f = c.frameAt f := by
  simp only [frameAt, h]

/-- The part of a chain from a frame on; nothing when there is no such frame. -/
def reach (chain : List FrameId) (target : Option FrameId) : List FrameId :=
  chain.dropWhile fun f => target != some f

/-- Unwinding stops at its target. -/
theorem chain_of_popUntil {fs : List FrameId} (h : popUntil target fs c = some c')
    (hfs : c.chain = fs) : c'.chain = reach fs target ∧ c'.chain.head? = target := by
  induction fs generalizing c with
  | nil =>
    rw [popUntil] at h
    split at h
    · next ht =>
      cases h
      simp [hfs, reach, ht]
    · cases h
  | cons f rest ih =>
    rw [popUntil] at h
    split at h
    · next ht =>
      cases h
      simp [hfs, reach, ht]
    · next ht =>
      have := ih h rfl
      simpa [reach, ht] using this

/-- The frames, the suspended passes and the entry of the running pass are the same. -/
structure SamePass (c c' : Control) : Prop where
  frames : c'.frames = c.frames
  suspended : c'.suspended = c.suspended
  entry : c'.context.entry = c.context.entry

theorem SamePass.trans {c₁ c₂ c₃ : Control} (h : SamePass c₁ c₂) (h' : SamePass c₂ c₃) :
    SamePass c₁ c₃ :=
  ⟨h'.frames.trans h.frames, h'.suspended.trans h.suspended, h'.entry.trans h.entry⟩

theorem pop_samePass : SamePass c (c.pop f rest) := by
  simp only [pop, restore]
  split <;> exact ⟨rfl, rfl, rfl⟩

theorem popUntil_samePass {fs : List FrameId} (h : popUntil target fs c = some c') :
    SamePass c c' := by
  induction fs generalizing c with
  | nil =>
    rw [popUntil] at h
    split at h
    · cases h
      exact ⟨rfl, rfl, rfl⟩
    · cases h
  | cons f rest ih =>
    rw [popUntil] at h
    split at h
    · cases h
      exact ⟨rfl, rfl, rfl⟩
    · exact pop_samePass.trans (ih h)

theorem splice_samePass : SamePass c c.splice := by
  unfold splice
  split <;> exact ⟨rfl, rfl, rfl⟩

theorem land_samePass (k : Frame) : SamePass c (c.land k) := by
  unfold land
  split
  · exact ⟨rfl, rfl, rfl⟩
  · obtain ⟨hframes, hsuspended, hentry⟩ := splice_samePass
    exact ⟨hframes, hsuspended, hentry⟩

theorem resume_samePass (h : c.resume f = some c') : SamePass c c' := by
  obtain ⟨c₁, h₁, rfl⟩ := Option.map_eq_some_iff.1 h
  exact (popUntil_samePass h₁).trans (land_samePass _)

theorem deliver_samePass (h : c.deliver = some c') : SamePass c c' := by
  unfold deliver at h
  split at h
  · obtain ⟨c₁, h₁, h₂⟩ := Option.bind_eq_some_iff.1 h
    obtain ⟨hframes, hsuspended, hentry⟩ := resume_samePass h₂
    exact (popUntil_samePass h₁).trans ⟨hframes, hsuspended, hentry⟩
  · split at h
    · obtain ⟨hframes, hsuspended, hentry⟩ := resume_samePass h
      exact ⟨hframes, hsuspended, hentry⟩
    · cases h
      exact ⟨rfl, rfl, rfl⟩

theorem raise_samePass {e : ClassId} {message : Value} (h : c.raise e message = some c') :
    SamePass c c' := by
  unfold raise at h
  split at h
  · obtain ⟨hframes, hsuspended, hentry⟩ := deliver_samePass h
    exact ⟨hframes, hsuspended, hentry⟩
  · exact deliver_samePass h

/-- Goes on in other code, to return here. -/
def call (c : Control) (base : Int64) (code : Code) (targetClass : Option ClassId) : Control :=
  { c.push with context := { c.context with base, code := some code, pc := 0, targetClass } }

/-- What an action that is no return can do to control. -/
inductive Deed (c c' : Control) : Prop
  | stay (h : c' = c)
  | called (base : Int64) (code : Code) (targetClass : Option ClassId)
      (h : c' = c.call base code targetClass)
  | raised (e : ClassId) (message : Value) (h : c.raise e message = some c')

end Control

namespace Machine

theorem frameAt_control (m : Machine) (f : FrameId) :
    m.control.frameAt f = (m.frameAt f).bare := by
  simp only [Control.frameAt, frameAt, control, Array.getD_eq_getD_getElem?, Array.getElem?_map]
  cases m.frames[f]? <;> rfl

variable {m m' : Machine}

theorem splicedMarker?_eq (m : Machine) : m.splicedMarker? = m.control.spliced.head? := by
  simp only [splicedMarker?, Control.spliced, List.head?_filter, frameAt_control,
    Frame.isMarker_bare]
  rfl

/-! ### Actions that leave control where it is -/

theorem onMemory_control (change : Memory → Memory × Option Fault) :
    Leads AnyFault (onMemory change) m fun _ m' => m'.control = m.control := by
  simp only [onMemory, Leads.bind_eq, Leads.modifyGet_eq]
  split
  · trivial
  · rfl

theorem acquire_control (v : Value) :
    Leads AnyFault (acquire v) m fun _ m' => m'.control = m.control := by
  unfold acquire
  split
  · rfl
  · exact onMemory_control _

theorem release_control (v : Value) :
    Leads AnyFault (release v) m fun _ m' => m'.control = m.control := by
  unfold release
  split
  · rfl
  · exact onMemory_control _

theorem Clerical.control {α : Type} {x : Action α} (hx : Clerical (fun _ => True) x) :
    Leads AnyFault x m fun _ m' => m'.control = m.control := by
  refine (hx.amends m).imp (fun _ _ _ => trivial) fun _ _ h =>
    h.keeps (R := fun n => n.control = m.control) (fun _ _ hamends hn => ?_) rfl
  cases hamends <;> exact hn

/-- A change of what a frame holds besides its context. -/
theorem modifyFrame_control (f : FrameId) {change : Frame → Frame}
    (h : ∀ k, (change k).bare = k.bare) :
    Leads AnyFault (modifyFrame f change) m fun _ m' => m'.control = m.control := by
  have : (m.frames.modify f change).map Frame.bare = m.frames.map Frame.bare := by
    apply Array.ext
    · simp
    · intro i _ _
      simp only [Array.getElem_map, Array.getElem_modify]
      split
      · exact h _
      · rfl
  simp only [modifyFrame, Leads.modify_eq, control, this]

theorem freeFrame_control (f : FrameId) :
    Leads AnyFault (freeFrame f) m fun _ m' => m'.control = m.control := by
  simp only [freeFrame, Leads.bind_eq, Leads.get_eq]
  have hfree : ∀ m₁ : Machine, m₁.control = m.control →
      Leads AnyFault (modifyFrame f fun k => { k with freed := true }) m₁ fun _ m₂ =>
        Leads AnyFault (refund frameBytes) m₂ fun _ m' => m'.control = m.control := by
    intro m₁ h₁
    refine (modifyFrame_control f fun _ => by rfl).mono fun _ m₂ h₂ => ?_
    exact (onMemory_control _).mono fun _ m₃ h₃ => h₃.trans (h₂.trans h₁)
  split
  · simp only [Leads.bind_eq]
    refine (releaseMethod_clerical _).control.mono fun _ m₁ h₁ => ?_
    exact (modifyFrame_control f fun _ => by rfl).mono fun _ m₂ h₂ => hfree m₂ (h₂.trans h₁)
  · exact hfree m rfl

/-! ### Frames and markers -/

theorem pushFrame_control (methodId : Symbol) (offset nargs : Int64) :
    Leads AnyFault (pushFrame methodId offset nargs) m fun f m' =>
      f = m.frames.size ∧ m'.control = m.control.push := by
  simp only [pushFrame, Leads.bind_eq, Leads.get_eq]
  split
  · trivial
  · simp only [Leads.bind_eq]
    refine (charge_clerical _).control.mono fun granted m₁ h₁ => ?_
    cases granted with
    | false => trivial
    | true =>
      refine ⟨rfl, ?_⟩
      rw [← h₁]
      simp only [control, Control.push, Control.saved, Array.map_push, Array.size_map]
      have hsize : m₁.frames.size = m.frames.size := by
        simpa [control] using congrArg (·.frames.size) h₁
      rw [hsize]
      rfl

theorem pushMarker_control (tag : FrameTag) (pc : Int64) :
    Leads AnyFault (pushMarker tag pc) m fun _ m' => m'.control = m.control.mark tag pc := by
  simp only [pushMarker, Leads.bind_eq]
  refine (charge_clerical _).control.mono fun granted m₁ h₁ => ?_
  cases granted with
  | false => trivial
  | true =>
    rw [← h₁]
    simp only [Bool.not_true, Bool.false_eq_true, if_false, Leads.modify_eq, control,
      Control.mark, Control.saved, Array.map_push, Array.size_map]
    rfl

theorem dropMarkers_control (fs : List FrameId) :
    Leads AnyFault (dropMarkers fs) m fun _ m' =>
      m'.control = { m.control with context := { m.control.context with
        markers := m.context.markers.drop fs.length } } := by
  induction fs generalizing m with
  | nil => rfl
  | cons f rest ih =>
    simp only [dropMarkers, modifyContext, Leads.bind_eq, Leads.modify_eq]
    refine (freeFrame_control f).mono fun _ m₁ h₁ => ?_
    refine ih.mono fun _ m₂ h₂ => ?_
    have hmarkers : m₁.context.markers = m.context.markers.tail :=
      congrArg (·.context.markers) h₁
    rw [h₂, h₁, hmarkers, List.drop_tail]
    rfl

theorem drop_length_takeWhile {α : Type} (p : α → Bool) (l : List α) :
    l.drop (l.takeWhile p).length = l.dropWhile p := by
  induction l with
  | nil => rfl
  | cons a l ih =>
    cases h : p a <;> simp [h, ih]

theorem dropFrameMarkers_control (f : FrameId) :
    Leads AnyFault (dropFrameMarkers f) m fun _ m' =>
      m'.control = { m.control with context := { m.control.context with
        markers := m.control.markersWithout f } } := by
  simp only [dropFrameMarkers, Leads.bind_eq, Leads.get_eq]
  refine (dropMarkers_control _).mono fun _ m' h => ?_
  rw [h, drop_length_takeWhile]
  simp only [Control.markersWithout, frameAt_control]
  rfl

theorem popFrame_control :
    Leads AnyFault popFrame m fun _ m' =>
      ∃ f rest, m.chain = f :: rest ∧ m'.control = m.control.pop f rest := by
  simp only [popFrame, Leads.bind_eq, Leads.get_eq]
  split
  · trivial
  · next f rest hchain =>
    have hframe := frameAt_control m f
    refine Leads.mono (R := fun _ m' => m'.control = m.control.pop f rest) ?_
      fun _ m' h => ⟨f, rest, hchain, h⟩
    cases hk : (m.frameAt f).isMarker with
    | true =>
      simp only [Bool.not_true, Bool.false_eq_true, if_false, hk, Leads.bind_eq, Leads.get_eq,
        Leads.modify_eq, Leads.pure_eq]
      refine (freeFrame_control f).mono fun _ m₂ h₂ => h₂.trans ?_
      simp only [Control.pop, hframe, Frame.isMarker_bare, hk, if_true]
      rfl
    | false =>
      simp only [Bool.not_false, if_true, hk, Leads.bind_eq, Leads.get_eq, Leads.modify_eq]
      refine (dropFrameMarkers_control f).mono fun _ m₁ h₁ => ?_
      refine (freeFrame_control f).mono fun _ m₂ h₂ => h₂.trans ?_
      simp only [Control.pop, hframe, Frame.isMarker_bare, hk, Bool.false_eq_true, if_false]
      rw [← h₁]
      rfl

theorem popUntil_control (target : Option FrameId) (fs : List FrameId) (hfs : m.chain = fs) :
    Leads AnyFault (popUntil target fs) m fun _ m' =>
      m.control.popUntil target fs = some m'.control := by
  induction fs generalizing m with
  | nil =>
    simp only [popUntil, Control.popUntil]
    split
    · rfl
    · trivial
  | cons f rest ih =>
    simp only [popUntil, Control.popUntil]
    split
    · rfl
    · simp only [Leads.bind_eq]
      refine popFrame_control.mono ?_
      rintro _ m₁ ⟨f', rest', hchain, h₁⟩
      rw [hfs] at hchain
      cases hchain
      rw [← h₁]
      exact ih (congrArg Control.chain h₁)

theorem unwindTo_control (target : Option FrameId) :
    Leads AnyFault (unwindTo target) m fun _ m' => m.control.unwind target = some m'.control := by
  simp only [unwindTo, Leads.bind_eq, Leads.get_eq]
  exact popUntil_control target m.chain rfl

/-! ### Exceptions -/

theorem spliceNext_control :
    Leads AnyFault spliceNext m fun _ m' => m'.control = m.control.splice := by
  simp only [spliceNext, Leads.modify_eq]
  cases h : m.context.markers <;> simp only [Control.splice, control, Context.bare, h]

theorem resumeAt_control (f : FrameId) :
    Leads AnyFault (resumeAt f) m fun _ m' => m.control.resume f = some m'.control := by
  simp only [resumeAt, modifyContext, Leads.bind_eq, Leads.get_eq, Leads.modify_eq]
  refine (unwindTo_control _).mono fun _ m₁ h₁ => ?_
  have hresume : m.control.resume f =
      (m.control.unwind (m.frameAt f).depth).map (·.land (m.frameAt f).bare) := by
    rw [Control.resume, frameAt_control]
    rfl
  have htag : (m.frameAt f).bare.tag = (m.frameAt f).tag := rfl
  rw [hresume, h₁, Option.map_some, Control.land, htag]
  split
  · simp only [Leads.bind_eq, Leads.modify_eq, Leads.get_eq]
    split
    · trivial
    · simp only [Leads.bind_eq, Leads.modify_eq]
      refine (freeFrame_control f).mono fun _ m₂ h₂ => ?_
      exact congrArg some h₂.symm
  · simp only [Leads.bind_eq, Leads.modify_eq, Leads.get_eq]
    refine spliceNext_control.mono fun _ m₂ h₂ => ?_
    split
    · trivial
    · simp only [Leads.bind_eq, Leads.modify_eq]
      refine (freeFrame_control f).mono fun _ m₃ h₃ => ?_
      exact congrArg some (h₃.trans h₂).symm

theorem settlePending_control :
    Leads AnyFault settlePending m fun _ m' =>
      m'.control = m.control.settle ∧ m'.pending ≠ none := by
  simp only [settlePending, Leads.bind_eq, Leads.get_eq]
  by_cases hp : m.pending.isNone
  · simp only [hp, if_true, Leads.bind_eq, Leads.modify_eq, Leads.get_eq]
    split
    · trivial
    · next h => exact ⟨by simp [control, Control.settle, hp, Context.bare], by simpa using h⟩
  · simp only [hp, Bool.false_eq_true, if_false, Leads.bind_eq, Leads.modify_eq, Leads.get_eq]
    refine (release_control _).mono fun _ m₁ h₁ => ?_
    have hp₁ : m₁.pending.isNone = false :=
      (congrArg (·.pending.isNone) h₁).trans ((Bool.not_eq_true _).mp hp)
    split
    · trivial
    · next h =>
      refine ⟨?_, by simpa using h⟩
      rw [← h₁]
      simp [control, Control.settle, hp₁, Context.bare]

theorem deliverException_control :
    Leads AnyFault deliverException m fun _ m' => m.control.deliver = some m'.control := by
  simp only [deliverException, modifyContext, Leads.bind_eq, Leads.get_eq, splicedMarker?_eq]
  cases hs : m.control.spliced with
  | cons f fs =>
    simp only [List.head?_cons, Leads.bind_eq, Leads.modify_eq]
    refine (unwindTo_control _).mono fun _ m₁ h₁ => ?_
    refine (resumeAt_control f).mono fun _ m₂ h₂ => ?_
    simp only [Control.deliver, hs, h₁, Option.bind_some]
    exact h₂
  | nil =>
    simp only [List.head?_nil, Leads.bind_eq, Leads.get_eq]
    split
    · next f rest hm =>
      simp only [Leads.bind_eq, Leads.modify_eq]
      refine (resumeAt_control f).mono fun _ m₂ h₂ => ?_
      have hm' : m.control.context.markers = f :: rest := hm
      simp only [Control.deliver, hs, hm']
      exact h₂
    · next hm =>
      simp only [Leads.bind_eq, Leads.modify_eq]
      refine settlePending_control.mono fun _ m₂ ⟨h₂, _⟩ => ?_
      have hm' : m.control.context.markers = [] := hm
      simp only [Control.deliver, hs, hm', h₂]
      rfl

theorem raise_control (e : ClassId) (message : Value) :
    Leads AnyFault (raise e message) m fun _ m' =>
      m.control.raise e message = some m'.control := by
  simp only [raise, Leads.bind_eq, Leads.modify_eq, Leads.get_eq]
  by_cases he : m.exception.isNone
  · have he' : m.control.exception.isNone := he
    simp only [he, if_true, Leads.bind_eq, Leads.modify_eq]
    refine (acquire_control _).mono fun _ m₁ h₁ => ?_
    refine deliverException_control.mono fun _ m₂ h₂ => ?_
    have h₁' : m₁.control = m.control := h₁
    simp only [Control.raise, he', if_true, ← h₂]
    rw [← h₁']
    rfl
  · have he' : ¬m.control.exception.isNone := he
    simp only [he, Bool.false_eq_true, if_false]
    refine deliverException_control.mono fun _ m₂ h₂ => ?_
    simp only [Control.raise, he', Bool.false_eq_true, if_false, ← h₂]
    rfl

end Machine

end ObjectMachine
