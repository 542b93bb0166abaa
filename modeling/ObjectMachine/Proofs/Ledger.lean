import ObjectMachine.Proofs.Holdings

/-! The books of a machine. They say what the pool is charged for, who holds a reference to
a method, and, for a machine whose host gives back what it got and nothing else, that every
reference count is the number of places that hold the object. An action keeps its books
in terms of what it has in hand: values it owns, duties it has still to do, and frames it took
off their list and has still to free. -/

namespace ObjectMachine

namespace Duty

/-- The markers of the pass that a duty will return to. -/
def markers : Duty → List FrameId
  | construct context _ _ => context.markers
  | _ => []

def made : Duty → List Value
  | construct _ v _ => [v]
  | _ => []

def methods : Duty → List MethodId
  | leave id _ _ _ => [id]
  | _ => []

end Duty

namespace Machine

/-- What is left of a machine without its values and without what it only reports. -/
def skeleton (m : Machine) : Machine :=
  { m with
    symbols := {}
    constants := []
    memory := { pool := { size := 0 } }
    profile := none
    regs := #[]
    regHigh := 0
    console := #[] }

def duties (m : Machine) : List Duty := m.suspended.flatMap (·.duties)

section Books

variable (d : List Duty) (m : Machine)

def savedMarkers : List FrameId := (d ++ m.duties).flatMap Duty.markers

def nodes : List FrameId := m.chain ++ m.context.markers ++ m.savedMarkers d

def liveMethods : Nat := m.methods.toList.countP fun k => 0 < k.refCount

/-- The bytes the pool is charged for outside the heap, with `l` frames in hand. -/
def outlay (l : Nat) : Int :=
  16 * m.classes.size + 24 * m.liveMethods + 40 * ((m.nodes d).length + l)

/-- How often a method is held: by classes, by frames and by duties. -/
def holders (id : MethodId) : Nat :=
  (m.classes.toList.flatMap (·.methods)).count id
    + (m.frames.toList.filterMap (·.method)).count id
    + ((d ++ m.duties).flatMap Duty.methods).count id

def callCount (chain : List FrameId) : Nat := chain.countP fun f => !(m.frameAt f).isMarker

/-- Frames that are listed exist, those listed as markers are markers, the count of a method is
the number of its holders, and no method is linked twice. -/
structure InForm : Prop where
  framed : ∀ f ∈ m.nodes d, f < m.frames.size
  marked : ∀ f ∈ m.context.markers ++ m.savedMarkers d, (m.frameAt f).isMarker
  held : ∀ id, (m.holders d id : Int) = (m.methodAt id).refCount
  linked : (m.classes.toList.flatMap (·.methods)).Nodup

/-- A frame that holds a method is a call that stands on the chain once. -/
def MannedAt (f : FrameId) : Prop :=
  (m.frameAt f).method ≠ none → m.chain.count f = 1 ∧ (m.frameAt f).isMarker = false

def roots : List Value :=
  m.regs.toList ++ m.constants.map (·.2) ++ [m.excMessage, m.pendingMessage, m.topSelf]
    ++ (d ++ m.duties).flatMap Duty.made

/-- There is no message without its exception, and no native but those that a machine is
born with. -/
structure Proper : Prop where
  noException : m.exception = none → m.excMessage = .nil
  noPending : m.pending = none → m.pendingMessage = .nil
  noProbe : ∀ id p, (m.methodAt id).native? ≠ some (.probe p)

theorem tally_roots (r : Ref) :
    tally r (m.roots d) = tally r m.regs.toList + tally r (m.constants.map (·.2))
      + tally r [m.excMessage] + tally r [m.pendingMessage] + tally r [m.topSelf]
      + tally r ((d ++ m.duties).flatMap Duty.made) := by
  simp only [roots, tally_append]
  rw [tally_cons r m.excMessage, tally_cons r m.pendingMessage]
  omega

/-- Every reference is counted, with `hand` the values in hand. -/
structure Exact (hand : List Value) : Prop where
  counts : Memory.Exact (hand ++ m.roots d) [] m.memory
  proper : m.Proper

end Books

/-- The books are in order, with the values `hand`, the duties `d` and `l` frames in hand.
References are counted only when `s` holds: a host may spoil them. -/
structure Books (s : Prop) (l : Nat) (d : List Duty) (hand : List Value) (m : Machine) :
    Prop where
  balanced : m.memory.Balanced (m.outlay d l) []
  form : m.InForm d
  exact : s → m.Exact d hand

/-- The books are in order, the calls on the chain are counted, and only they hold methods. -/
structure Ledger (s : Prop) (l : Nat) (d : List Duty) (hand : List Value) (m : Machine) : Prop
    extends Books s l d hand m where
  depth : m.depth = m.callCount m.chain
  manned : ∀ f, m.MannedAt f

/-- The faults that books in order allow: only bytes beyond all addresses overdraw the pool,
nothing that is counted is found released, and no method is released too often. -/
structure Excused (s : Prop) (e : Fault) (m : Machine) : Prop where
  overdrawn : e = .overdrawn → ¬m.memory.Addressable
  released : s → ¬e.IsOfReleased
  method : ∀ name, e ≠ .fatal (.methodReleasedAgain name)

@[simp] theorem excused_outOfBounds (s : Prop) (m : Machine) : Excused s .outOfBounds m :=
  ⟨nofun, fun _ h => h, nofun⟩

/-- Nothing but memory and reports has changed. -/
def Quiet (m m' : Machine) : Prop := m'.skeleton = m.skeleton ∧ m'.regs = m.regs

theorem Quiet.refl (m : Machine) : Quiet m m := ⟨rfl, rfl⟩

theorem Quiet.trans {m₁ m₂ m₃ : Machine} (h : Quiet m₁ m₂) (h' : Quiet m₂ m₃) : Quiet m₁ m₃ :=
  ⟨h'.1.trans h.1, h'.2.trans h.2⟩

section Transport

variable {s : Prop} {l : Nat} {d : List Duty} {H H' : List Value} {m m' : Machine}

theorem InForm.of_skeleton (h : m.InForm d) (hk : m'.skeleton = m.skeleton) : m'.InForm d := by
  have hm : m.skeleton.InForm d := ⟨h.framed, h.marked, h.held, h.linked⟩
  rw [← hk] at hm
  exact ⟨hm.framed, hm.marked, hm.held, hm.linked⟩

theorem Proper.of_skeleton (h : m.Proper) (hk : m'.skeleton = m.skeleton) : m'.Proper := by
  have hm : m.skeleton.Proper := ⟨h.noException, h.noPending, h.noProbe⟩
  rw [← hk] at hm
  exact ⟨hm.noException, hm.noPending, hm.noProbe⟩

theorem outlay_of_skeleton (hk : m'.skeleton = m.skeleton) : m'.outlay d l = m.outlay d l :=
  show m'.skeleton.outlay d l = m.skeleton.outlay d l from hk ▸ rfl

/-- A change of memory, registers, constants and reports alone. -/
theorem Ledger.keep (h : Ledger s l d H m) (hk : m'.skeleton = m.skeleton)
    (hb : m'.memory.Balanced (m.outlay d l) [])
    (he : s → Memory.Exact (H' ++ m'.roots d) [] m'.memory) : Ledger s l d H' m' where
  balanced := outlay_of_skeleton hk ▸ hb
  form := h.form.of_skeleton hk
  exact hs := ⟨he hs, (h.exact hs).proper.of_skeleton hk⟩
  depth := by
    have hm : m.skeleton.depth = m.skeleton.callCount m.skeleton.chain := h.depth
    rwa [← hk] at hm
  manned := by
    have hm : ∀ f, m.skeleton.MannedAt f := h.manned
    rwa [← hk] at hm

/-- Values in hand count whatever their order. -/
theorem Ledger.of_tally (h : Ledger s l d H m) (ht : ∀ r, tally r H' = tally r H) :
    Ledger s l d H' m := by
  refine h.keep rfl h.balanced fun hs => (h.exact hs).counts.of_tally fun r => ?_
  rw [tally_append, tally_append, ht]

/-- Immediate values come and go. -/
theorem Ledger.hold (h : Ledger s l d H m) {v : Value} (hv : v.ref? = none) :
    Ledger s l d (v :: H) m := by
  refine h.of_tally fun r => ?_
  rw [tally_cons, tally_one_of_immediate hv, Nat.zero_add]

theorem Ledger.let_go {v : Value} (h : Ledger s l d (v :: H) m) (hv : v.ref? = none) :
    Ledger s l d H m := by
  refine h.of_tally fun r => ?_
  rw [tally_cons, tally_one_of_immediate hv, Nat.zero_add]

/-- Where references are not counted, anything may be in hand. -/
theorem Ledger.of_not (h : Ledger s l d H m) (hs : ¬s) : Ledger s l d H' m :=
  ⟨⟨h.balanced, h.form, fun h => absurd h hs⟩, h.depth, h.manned⟩

theorem Ledger.live_of_mem (h : Ledger s l d H m) (hs : s) {v : Value} (hv : v ∈ H ++ m.roots d) :
    m.memory.Live v :=
  (h.exact hs).counts.live hv

/-- A value in a register is live. -/
theorem Ledger.live_of_reg (h : Ledger s l d H m) {v : Value} (hv : v ∈ m.regs) (hs : s) :
    m.memory.Live v := by
  refine h.live_of_mem hs ?_
  simp [roots, hv]

theorem Ledger.live_of_hand (h : Ledger s l d H m) {v : Value} (hv : v ∈ H) (hs : s) :
    m.memory.Live v :=
  h.live_of_mem hs (List.mem_append_left _ hv)

end Transport

/-! ### Memory -/

/-- Memory knows nothing of methods. -/
theorem settle_fault {μ : Memory} {chores : List Memory.Chore} {e : Fault}
    (h : (μ.settle chores).2 = some e) (name : Text) : e ≠ .fatal (.methodReleasedAgain name) := by
  rintro rfl
  fun_induction Memory.settle μ chores <;> simp_all

theorem acquire_fault {μ : Memory} {v : Value} {e : Fault} (h : (μ.acquire v).2 = some e)
    (name : Text) : e ≠ .fatal (.methodReleasedAgain name) := by
  rintro rfl
  unfold Memory.acquire at h
  split at h
  · cases h
  · split at h
    · dsimp only at h
      split at h <;> cases h
    · cases h

section Memory

variable {s : Prop} {l : Nat} {d : List Duty} {H : List Value} {m : Machine} {v : Value}

/-- Taking a reference changes memory alone. -/
theorem acquire_memory {o : Int} {debts vs : List Value} (hb : m.memory.Balanced o [])
    (hv : s → m.memory.Live v) (he : s → Memory.Owing (v :: debts) vs m.memory) :
    Leads (Excused s) (acquire v) m fun _ m' =>
      m' = { m with memory := m'.memory } ∧ m'.memory.Balanced o [] ∧
      (s → Memory.Owing debts vs m'.memory) ∧ m.memory.Spares m'.memory := by
  unfold acquire
  cases hr : v.ref? with
  | none =>
    refine ⟨rfl, hb, fun hs r => ?_, .refl m.memory⟩
    have heq := he hs r
    rwa [tally_cons, tally_one_of_immediate hr, Nat.zero_add] at heq
  | some r =>
    have hb₁ := Memory.acquire_balanced hb v
    have hname := @acquire_fault m.memory v
    have he₁ := fun hs => Memory.acquire_owing (he hs) (hv hs)
    have hspares := m.memory.acquire_spares v
    simp only [onMemory, Leads.bind_eq, Leads.modifyGet_eq]
    cases hx : m.memory.acquire v with
    | mk memory fault =>
      simp only [hx] at hb₁ he₁ hspares hname
      cases fault with
      | none => exact ⟨rfl, hb₁, he₁, hspares⟩
      | some e => exact ⟨fun h => absurd h hb₁, he₁, hname rfl⟩

theorem acquire_ledger (h : Ledger s l d H m) (hv : s → m.memory.Live v) :
    Leads (Excused s) (acquire v) m fun _ m' =>
      Ledger s l d (v :: H) m' ∧ Quiet m m' ∧ m.memory.Spares m'.memory := by
  have howing : s → Memory.Owing [v] (v :: H ++ m.roots d) m.memory :=
    fun hs => Memory.owing_cons (h.exact hs).counts
  refine (acquire_memory h.balanced hv howing).mono ?_
  rintro _ m' ⟨hm, hb, he, hspares⟩
  rw [hm] at hb he hspares ⊢
  exact ⟨h.keep rfl hb fun hs => Memory.owing_nil.1 (he hs), ⟨rfl, rfl⟩, hspares⟩

/-- Releasing a value changes memory alone, whatever else refers to it. -/
theorem release_memory {o : Int} {vs : List Value} (hb : m.memory.Balanced o [])
    (he : s → Memory.Exact (v :: vs) [] m.memory) :
    Leads (Excused s) (release v) m fun _ m' =>
      m' = { m with memory := m'.memory } ∧ m'.memory.Balanced o [] ∧
      (s → Memory.Exact vs [] m'.memory) := by
  unfold release
  cases hr : v.ref? with
  | none =>
    refine ⟨rfl, hb, fun hs => (he hs).of_tally fun r => ?_⟩
    rw [tally_cons r v, tally_one_of_immediate hr, Nat.zero_add]
  | some r =>
    have hb' : m.memory.Balanced o [.drop v] :=
      ⟨hb.nonneg, hb.used, hb.live, hb.sound, hb.room, trivial⟩
    have he' : s → Memory.Exact vs [.drop v] m.memory := by
      intro hs q
      have heq := he hs q
      rw [tally_cons q v vs] at heq
      simp only [Memory.drops, tally_nil] at heq ⊢
      omega
    have hb₁ := Memory.settle_balanced hb'
    have hname := @settle_fault m.memory [.drop v]
    have he₁ := fun hs => Memory.settle_exact hb' (he' hs)
    simp only [onMemory, Leads.bind_eq, Leads.modifyGet_eq, Memory.release]
    cases hx : m.memory.settle [.drop v] with
    | mk memory fault =>
      simp only [hx] at hb₁ he₁ hname
      cases fault with
      | none => exact ⟨rfl, hb₁, he₁⟩
      | some e => exact ⟨hb₁, he₁, hname rfl⟩

theorem release_ledger (h : Ledger s l d (v :: H) m) :
    Leads (Excused s) (release v) m fun _ m' => Ledger s l d H m' ∧ Quiet m m' := by
  refine (release_memory h.balanced fun hs => (h.exact hs).counts).mono ?_
  rintro _ m' ⟨hm, hb, he⟩
  rw [hm] at hb he ⊢
  exact ⟨h.keep rfl hb he, rfl, rfl⟩

end Memory

end Machine

end ObjectMachine
