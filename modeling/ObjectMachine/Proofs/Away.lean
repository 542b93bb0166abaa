import ObjectMachine.Proofs.Notes

/-! In a call. Suppose that since a call no exception was raised, no marker was discarded, no
outer variable was set and no pass was stopped. Then the frames above the call are calls in
windows that lie no lower than that of the callee, the markers pushed since belong to these
frames, and passes that were started since have the caller of the call below them. The caller's
registers below the call have not changed. -/

namespace ObjectMachine

namespace Machine

variable {m m' : Machine}

/-- What a frame saved, whether it has been freed or not. -/
def origin (m : Machine) (f : FrameId) : Frame := (m.frameAt f).retired

theorem Lasting.origin {l l' : List FrameId} (h : Lasting l l' m m') {f : FrameId}
    (hf : f < m.frames.size) : m'.origin f = m.origin f := by
  rcases h.old f hf with heq | heq
  · simp only [Machine.origin, heq]
  · simp only [Machine.origin, heq]
    rfl

end Machine

/-! ### Above a call -/

/-- Two contexts of one pass, in the same native call. -/
structure Context.Kin (x y : Context) : Prop where
  entry : x.entry = y.entry
  finalizeFrame : x.finalizeFrame = y.finalizeFrame
  settleOnReturn : x.settleOnReturn = y.settleOnReturn
  callBase : x.callBase = y.callBase
  callee : x.callee = y.callee

theorem Context.Kin.trans {x y z : Context} (h : x.Kin y) (h' : y.Kin z) : x.Kin z :=
  ⟨h.entry.trans h'.entry, h.finalizeFrame.trans h'.finalizeFrame,
    h.settleOnReturn.trans h'.settleOnReturn, h.callBase.trans h'.callBase, h.callee.trans h'.callee⟩

/-- A context is known by its place, its markers and its kin. -/
theorem Context.Kin.eq {x y : Context} (h : x.Kin y) (hcode : x.code = y.code) (hpc : x.pc = y.pc)
    (hbase : x.base = y.base) (htargetClass : x.targetClass = y.targetClass)
    (hmarkers : x.markers = y.markers) : x = { y with excState := x.excState } := by
  obtain ⟨hentry, hfinal, hsettle, hcallBase, hcallee⟩ := h
  cases x
  cases y
  simp only at *
  subst hcode hpc hbase htargetClass hmarkers hentry hfinal hsettle hcallBase hcallee
  rfl

section Inside

variable (k : FrameId → Frame) (o : Machine) (b : Int64) (size : Nat)

/-- Calls that lead from the window at `home` to the one at `base`, never below `b`. -/
def Stacked (home : Int64) : List FrameId → Int64 → Prop
  | [], base => base = home
  | f :: fs, base => base = (k f).window ∧ b.toInt ≤ base.toInt ∧ Stacked home fs (k f).base

/-- Markers that belong to frames of `fs`, in the order of the frames. -/
structure Belong (fs newer : List FrameId) : Prop where
  depth : ∀ g ∈ newer, g < size ∧ ∃ d ∈ fs, (k g).depth = some d
  ordered : newer.Pairwise fun g g' =>
    ∀ d d', (k g).depth = some d → (k g').depth = some d' → d' ≤ d

/-- The passes above a call from `o` into the window at `b`, with the running one in the context
`x` and the frames `fresh` pushed since. -/
inductive Inside : Context → List Suspension → List FrameId → Prop
  | own {x : Context} {ss : List Suspension} {fresh newer : List FrameId}
      (hs : ss = o.suspended) (hkin : x.Kin o.context)
      (hmarkers : x.markers = newer ++ o.context.markers)
      (hnewer : Belong k size (fresh ++ [o.frames.size]) newer)
      (hstack : Stacked k b b fresh x.base) : Inside x ss fresh
  | nested {x x' : Context} {made : Value} {w : Window} {id : MethodId} {callBase : Int64}
      {callee : Symbol} {s : Suspension} {ss rest : List Suspension}
      {fresh upper lower : List FrameId} (hs : ss = s :: rest)
      (hawaits : Machine.Awaits x' made w id callBase callee s) (hw : b.toInt ≤ w.base.toInt)
      (hfresh : fresh = upper ++ lower)
      (hentry : x.entry = (lower ++ o.frames.size :: o.chain).head?)
      (hfinal : x.finalizeFrame = o.context.finalizeFrame)
      (hstack : Stacked k b w.base upper x.base)
      (hlower : Inside { x' with callBase, callee } rest lower) : Inside x ss fresh

end Inside

variable {k k' : FrameId → Frame} {o : Machine} {b home base : Int64} {size size' : Nat}
  {x x' : Context} {ss : List Suspension} {f g : FrameId} {fs fresh newer : List FrameId}

theorem dropWhile_append_of_neg {α : Type} {p : α → Bool} {xs ys : List α}
    (h : ∀ a ∈ ys, p a = false) : (xs ++ ys).dropWhile p = xs.dropWhile p ++ ys := by
  induction xs with
  | nil =>
    cases ys with
    | nil => rfl
    | cons a ys =>
      have ha := h a List.mem_cons_self
      simp [ha]
  | cons a xs ih =>
    rw [List.cons_append, List.dropWhile_cons, List.dropWhile_cons]
    split
    · exact ih
    · rfl

theorem Stacked.low (h : Stacked k b home fs base) (hhome : b.toInt ≤ home.toInt) :
    b.toInt ≤ base.toInt := by
  cases fs with
  | nil =>
    rw [show base = home from h]
    exact hhome
  | cons f fs => exact h.2.1

theorem Stacked.congr (h : Stacked k b home fs base) (hk : ∀ f ∈ fs, k' f = k f) :
    Stacked k' b home fs base := by
  induction fs generalizing base with
  | nil => exact h
  | cons f fs ih =>
    obtain ⟨hwindow, hlow, hrest⟩ := h
    rw [Stacked, hk f List.mem_cons_self]
    exact ⟨hwindow, hlow, ih hrest fun g hg => hk g (List.mem_cons_of_mem _ hg)⟩

namespace Belong

theorem congr (h : Belong k size fs newer) (hk : ∀ f, f < size → k' f = k f) (hsize : size ≤ size') :
    Belong k' size' fs newer := by
  have hmem : ∀ g ∈ newer, k' g = k g := fun g hg => hk g (h.depth g hg).1
  refine ⟨fun g hg => ?_, h.ordered.imp_of_mem fun hg hg' hle => ?_⟩
  · obtain ⟨hlt, hdepth⟩ := h.depth g hg
    rw [hmem g hg]
    exact ⟨Nat.lt_of_lt_of_le hlt hsize, hdepth⟩
  · rwa [hmem _ hg, hmem _ hg']

theorem mono {fs' : List FrameId} (h : Belong k size fs newer) (hsub : fs ⊆ fs') :
    Belong k size fs' newer :=
  ⟨fun g hg => (h.depth g hg).imp_right fun ⟨d, hd, heq⟩ => ⟨d, hsub hd, heq⟩, h.ordered⟩

/-- A marker is pushed while the newest of the frames is on top. -/
theorem mark (h : Belong k size (f :: fs) newer) (hg : g < size) (hdepth : (k g).depth = some f)
    (hfs : ∀ d ∈ fs, d < f) : Belong k size (f :: fs) (g :: newer) := by
  refine ⟨fun j hj => ?_, List.pairwise_cons.2 ⟨fun j hj d d' hd hd' => ?_, h.ordered⟩⟩
  · rcases List.mem_cons.1 hj with rfl | hj
    · exact ⟨hg, f, List.mem_cons_self, hdepth⟩
    · exact h.depth j hj
  · cases hdepth.symm.trans hd
    obtain ⟨-, e, he, heq⟩ := h.depth j hj
    cases heq.symm.trans hd'
    rcases List.mem_cons.1 he with rfl | he
    · exact Nat.le_refl _
    · exact Nat.le_of_lt (hfs _ he)

/-- The markers of the newest frame are the newest ones. -/
theorem pop (h : Belong k size (f :: fs) newer) (hfs : ∀ d ∈ fs, d < f) :
    Belong k size fs (newer.dropWhile fun g => (k g).depth == some f) := by
  induction newer with
  | nil => exact ⟨nofun, .nil⟩
  | cons g newer ih =>
    obtain ⟨hfirst, hrest⟩ := List.pairwise_cons.1 h.ordered
    obtain ⟨hlt, d, hd, hdepth⟩ := h.depth g List.mem_cons_self
    by_cases heq : (k g).depth = some f
    · have hdrop : ((k g).depth == some f) = true := beq_iff_eq.2 heq
      rw [List.dropWhile_cons_of_pos (p := fun g => (k g).depth == some f) hdrop]
      exact ih ⟨fun j hj => h.depth j (List.mem_cons_of_mem _ hj), hrest⟩
    · rw [List.dropWhile_cons_of_neg (by simpa using heq)]
      have hold : d ∈ fs := (List.mem_cons.1 hd).resolve_left fun hdf => heq (hdf ▸ hdepth)
      refine ⟨fun j hj => ?_, h.ordered⟩
      rcases List.mem_cons.1 hj with rfl | hmem
      · exact ⟨hlt, d, hold, hdepth⟩
      · obtain ⟨hlt', e, he, heq'⟩ := h.depth j hj
        refine ⟨hlt', e, (List.mem_cons.1 he).resolve_left ?_, heq'⟩
        rintro rfl
        exact absurd (hfs d hold) (Nat.not_lt.2 (hfirst j hmem d e hdepth heq'))

/-- The markers that a call left behind go with its frame. -/
theorem dropWhile_eq {older : List FrameId} (h : Belong k size [f] newer)
    (holder : ∀ g ∈ older, (k g).depth ≠ some f) :
    (newer ++ older).dropWhile (fun g => (k g).depth == some f) = older := by
  rw [List.dropWhile_append_of_pos fun g hg => ?_]
  · cases older with
    | nil => rfl
    | cons g older =>
      rw [List.dropWhile_cons_of_neg]
      simpa using holder g List.mem_cons_self
  · obtain ⟨-, d, hd, hdepth⟩ := h.depth g hg
    rw [hdepth, List.mem_singleton.1 hd]
    exact beq_self_eq_true _

end Belong

namespace Inside

theorem low (h : Inside k o b size x ss fresh) : b.toInt ≤ x.base.toInt := by
  cases h with
  | own _ _ _ _ hstack => exact hstack.low (Int.le_refl _)
  | nested _ _ hw _ _ _ hstack _ => exact hstack.low hw

theorem finalizeFrame (h : Inside k o b size x ss fresh) :
    x.finalizeFrame = o.context.finalizeFrame := by
  cases h with
  | own _ hkin _ _ _ => exact hkin.finalizeFrame
  | nested _ _ _ _ _ hfinal _ _ => exact hfinal

theorem congr (h : Inside k o b size x ss fresh) (hk : ∀ f, f < size → k' f = k f)
    (hsize : size ≤ size') (hfresh : ∀ f ∈ fresh, f < size) : Inside k' o b size' x ss fresh := by
  induction h with
  | own hs hkin hmarkers hnewer hstack =>
    exact .own hs hkin hmarkers (hnewer.congr hk hsize) (hstack.congr fun f hf => hk f (hfresh f hf))
  | nested hs hawaits hw heq hentry hfinal hstack _ ih =>
    subst heq
    refine .nested hs hawaits hw rfl hentry hfinal (hstack.congr fun f hf => ?_) (ih fun f hf => ?_)
    · exact hk f (hfresh f (List.mem_append_left _ hf))
    · exact hfresh f (List.mem_append_right _ hf)

/-- Control goes on in the same window. -/
theorem turn (h : Inside k o b size x ss fresh) (hkin : x'.Kin x) (hmarkers : x'.markers = x.markers)
    (hbase : x'.base = x.base) : Inside k o b size x' ss fresh := by
  cases h with
  | own hs hkin' hmarkers' hnewer hstack =>
    exact .own hs (hkin.trans hkin') (hmarkers.trans hmarkers') hnewer (hbase ▸ hstack)
  | nested hs hawaits hw heq hentry hfinal hstack hlower =>
    exact .nested hs hawaits hw heq (hkin.entry.trans hentry) (hkin.finalizeFrame.trans hfinal)
      (hbase ▸ hstack) hlower

theorem push (h : Inside k o b size x ss fresh) (hkin : x'.Kin x) (hmarkers : x'.markers = x.markers)
    (hbase : x'.base = (k f).window) (hlow : b.toInt ≤ x'.base.toInt) (hsaved : (k f).base = x.base) :
    Inside k o b size x' ss (f :: fresh) := by
  cases h with
  | own hs hkin' hmarkers' hnewer hstack =>
    refine .own hs (hkin.trans hkin') (hmarkers.trans hmarkers') (hnewer.mono ?_) ⟨hbase, hlow, ?_⟩
    · exact List.subset_cons_self _ _
    · rwa [hsaved]
  | @nested _ _ _ _ _ _ _ _ _ _ _ upper lower hs hawaits hw heq hentry hfinal hstack hlower =>
    have hfresh : f :: fresh = (f :: upper) ++ lower := by rw [heq, List.cons_append]
    refine .nested hs hawaits hw hfresh (hkin.entry.trans hentry) (hkin.finalizeFrame.trans hfinal)
      ⟨hbase, hlow, ?_⟩ hlower
    rwa [hsaved]

theorem mark (h : Inside k o b size x ss fresh) (hkin : x'.Kin x)
    (hmarkers : x'.markers = g :: x.markers) (hbase : x'.base = x.base) (hg : g < size)
    (hdepth : (k g).depth = (fresh ++ [o.frames.size]).head?)
    (hfresh : (fresh ++ [o.frames.size]).Pairwise (· > ·)) : Inside k o b size x' ss fresh := by
  cases h with
  | @own _ _ _ newer hs hkin' hmarkers' hnewer hstack =>
    have hmore : x'.markers = (g :: newer) ++ o.context.markers := by
      rw [hmarkers, hmarkers', List.cons_append]
    refine .own hs (hkin.trans hkin') hmore ?_ (hbase ▸ hstack)
    cases fresh with
    | nil => exact hnewer.mark hg hdepth (List.pairwise_cons.1 hfresh).1
    | cons f fresh => exact hnewer.mark hg hdepth (List.pairwise_cons.1 hfresh).1
  | nested hs hawaits hw heq hentry hfinal hstack hlower =>
    exact .nested hs hawaits hw heq (hkin.entry.trans hentry) (hkin.finalizeFrame.trans hfinal)
      (hbase ▸ hstack) hlower

/-- A call returns that is not the first one. -/
theorem pop (h : Inside k o b size x ss (f :: fresh)) (hkin : x'.Kin x)
    (hmarkers : x'.markers = x.markers.dropWhile fun g => (k g).depth == some f)
    (hbase : x'.base = (k f).base) (hentry : x.entry ≠ some f)
    (hold : ∀ g ∈ o.context.markers, (k g).depth ≠ some f)
    (hfresh : ∀ d ∈ fresh ++ [o.frames.size], d < f) : Inside k o b size x' ss fresh := by
  cases h with
  | @own _ _ _ newer hs hkin' hmarkers' hnewer hstack =>
    refine .own hs (hkin.trans hkin') ?_ (hnewer.pop hfresh) ?_
    · rw [hmarkers, hmarkers', dropWhile_append_of_neg]
      exact fun g hg => by simpa using hold g hg
    · rw [hbase]
      exact hstack.2.2
  | @nested _ _ _ _ _ _ _ _ _ _ _ upper lower hs hawaits hw heq hentry' hfinal hstack hlower =>
    cases upper with
    | nil =>
      rw [List.nil_append] at heq
      rw [← heq] at hentry'
      exact absurd hentry' hentry
    | cons u upper =>
      rw [List.cons_append, List.cons.injEq] at heq
      obtain ⟨rfl, rfl⟩ := heq
      refine .nested hs hawaits hw rfl (hkin.entry.trans hentry') (hkin.finalizeFrame.trans hfinal)
        ?_ hlower
      rw [hbase]
      exact hstack.2.2

end Inside

/-! ### Registers below a window -/

namespace Machine

variable {m m' : Machine} {i : Inst}

theorem le_add {x y : Int64} (hx : 0 ≤ x.toInt) (hy : 0 ≤ y.toInt) (h : 0 ≤ (x + y).toInt) :
    x.toInt ≤ (x + y).toInt := by
  have hsum := toInt_add_of_nonneg hx hy h
  omega

/-- A sum that has wrapped around is far below zero. -/
theorem nonneg_of_succ {x y : Int64} (hx : 0 ≤ x.toInt) (hy : 0 ≤ y.toInt)
    (h : 0 ≤ (x + y + 1).toInt) : 0 ≤ (x + y).toInt := by
  have hlt := x.toInt_lt
  have hlt' := y.toInt_lt
  have hone : (1 : Int64).toInt = 1 := rfl
  have hsum := Int64.toInt_add x y
  have hnext := Int64.toInt_add (x + y) 1
  rw [Int.bmod_def] at hsum hnext
  split at hsum <;> split at hnext <;> omega

/-- The receiver of a call is in the window. -/
theorem Vetted.receiver (hv : m.Vetted) (hi : m.control.next? = some i)
    (hop : i.argc? ≠ none ∨ i.op = .leave) : 0 ≤ i.a.toInt := by
  refine hv.operand hi ?_
  obtain ⟨op, a, b, c⟩ := i
  cases op <;> simp [Inst.argc?] at hop <;> simp [Inst.operands, Opcode.operands]

/-- A call stores into no register below its receiver. -/
theorem targets_beyond {base argc j : Int64} (hargc : i.argc? = some argc) (hcount : 0 ≤ argc.toInt)
    (hcall : 0 ≤ (base + i.a).toInt) (hj : j ∈ i.targets base) (hnonneg : 0 ≤ j.toInt) :
    (base + i.a).toInt ≤ j.toInt := by
  obtain ⟨op, a, b, c⟩ := i
  cases op <;> simp only [Inst.targets, List.mem_cons, List.not_mem_nil, or_false] at hj <;>
    first | (cases hargc; done) | skip
  case sendBlock =>
    rw [hj]
  case send | callSuper =>
    cases hargc
    rcases hj with rfl | rfl
    · exact Int.le_refl _
    · have hlast := nonneg_of_succ hcall hcount hnonneg
      exact Int.le_trans (le_add hcall hcount hlast) (le_add hlast (by decide) hnonneg)

/-- An instruction stores into no register below its window. -/
theorem Vetted.targets_low (hv : m.Vetted) (hi : m.control.next? = some i)
    (hcount : ∀ argc, i.argc? = some argc → 0 ≤ argc.toInt)
    (hcall : i.argc? ≠ none → 0 ≤ (m.context.base + i.a).toInt) {j : Int64}
    (hj : j ∈ i.targets m.context.base) (hnonneg : 0 ≤ j.toInt) :
    m.context.base.toInt ≤ j.toInt := by
  have hbase := hv.base_nonneg
  cases hargc : i.argc? with
  | some argc =>
    have hsome : i.argc? ≠ none := hargc ▸ nofun
    refine Int.le_trans (le_add hbase (hv.receiver hi (.inl hsome)) (hcall hsome)) ?_
    exact targets_beyond hargc (hcount argc hargc) (hcall hsome) hj hnonneg
  | none =>
    obtain ⟨op, a, b, c⟩ := i
    cases op <;> simp only [Inst.targets, List.mem_cons, List.not_mem_nil, or_false] at hj
    case move | loadLiteral | loadInt | loadSymbol | loadNil | loadSelf | loadTrue | loadFalse
      | getVariable | getConstant | getOuter | makeBlock | defineClass | targetClass =>
      subst hj
      exact le_add hbase (hv.operand hi (by simp [Inst.operands, Opcode.operands])) hnonneg
    case send | sendBlock | callSuper => cases hargc
    case takeException =>
      have ha : 0 ≤ a.toInt := hv.operand hi (by simp [Inst.operands, Opcode.operands])
      rcases hj with rfl | rfl
      · exact le_add hbase ha hnonneg
      · have hfirst := nonneg_of_succ hbase ha hnonneg
        exact Int.le_trans (le_add hbase ha hfirst) (le_add hfirst (by decide) hnonneg)
    case rescueMatch =>
      subst hj
      exact le_add hbase (hv.operand hi (by simp [Inst.operands, Opcode.operands])) hnonneg
    case leave =>
      subst hj
      exact Int.le_refl _

/-- An instruction changes no register below its window unless it sets an outer variable. -/
theorem Alters.below (h : Alters (i.permit m.fetched) m.fetched m') (hv : m.Vetted)
    (hi : m.control.next? = some i) (hcount : ∀ argc, i.argc? = some argc → 0 ≤ argc.toInt)
    (hcall : i.argc? ≠ none → 0 ≤ (m.context.base + i.a).toInt) (houter : i.op ≠ .setOuter) {r : Nat}
    (hr : (r : Int) < m.context.base.toInt) : m'.regs[r]? = m.regs[r]? := by
  have hbase := hv.base_nonneg
  rcases h.regs r with heq | ⟨j, hj, hjr⟩ | ⟨⟨j, hj, hjr⟩, -⟩
  · exact heq
  · rcases hj with hj | ⟨hop, -⟩
    · have hle := hv.targets_low hi hcount hcall hj (by omega)
      omega
    · exact absurd hop houter
  · rcases hj with ⟨hargc, hlt⟩ | ⟨hop, hle | rfl⟩
    · have hlow := le_add hbase (hv.receiver hi (.inl hargc)) (hcall hargc)
      have hlt : (m.context.base + i.a).toInt < j.toInt := hlt
      omega
    · have hle : m.context.base.toInt ≤ j.toInt := hle
      omega
    · have hjr : (m.context.base + i.a).toInt = r := hjr
      have hlow := le_add hbase (hv.receiver hi (.inr hop)) (by omega)
      omega

/-- The instructions that call, with the window of the call. -/
theorem landing_cases {base : Int64} (h : 0 ≤ (i.landing base).toInt) :
    (i.argc? ≠ none ∨ i.op = .runBody) ∧ i.landing base = base + i.a := by
  obtain ⟨op, a, b, c⟩ := i
  cases op <;> simp only [Inst.landing, Inst.argc?] at h ⊢ <;>
    first | (exact absurd h (by decide)) | simp

/-- A call changes no register below its receiver. -/
theorem Alters.below_call (h : Alters (i.permit m.fetched) m.fetched m')
    (hcount : ∀ argc, i.argc? = some argc → 0 ≤ argc.toInt)
    (hcall : 0 ≤ (i.landing m.context.base).toInt) {r : Nat}
    (hr : (r : Int) < (i.landing m.context.base).toInt) : m'.regs[r]? = m.regs[r]? := by
  obtain ⟨hop, hlanding⟩ := landing_cases hcall
  rw [hlanding] at hcall hr
  rcases h.regs r with heq | ⟨j, hj, hjr⟩ | ⟨⟨j, hj, hjr⟩, -⟩
  · exact heq
  · rcases hop with hargc | hbody
    · obtain ⟨argc, hargc⟩ := Option.ne_none_iff_exists'.1 hargc
      rcases hj with hj | ⟨houter, -⟩
      · have hle := targets_beyond hargc (hcount argc hargc) hcall hj (by omega)
        omega
      · simp [Inst.argc?, houter] at hargc
    · rcases hj with hj | ⟨houter, -⟩
      · simp [Inst.targets, hbody] at hj
      · cases hbody.symm.trans houter
  · rcases hj with ⟨-, hlt⟩ | ⟨hleave, -⟩
    · have hlt : (m.context.base + i.a).toInt < j.toInt := hlt
      omega
    · rcases hop with hargc | hbody
      · simp [Inst.argc?, hleave] at hargc
      · cases hbody.symm.trans hleave

/-- The window of a call begins in that of its caller. -/
theorem Vetted.landing_low (hv : m.Vetted) (hi : m.control.next? = some i)
    (h : 0 ≤ (i.landing m.context.base).toInt) :
    m.context.base.toInt ≤ (i.landing m.context.base).toInt := by
  have hbase := hv.base_nonneg
  obtain ⟨op, a, b, c⟩ := i
  cases op
  case send | sendBlock | callSuper | runBody =>
    exact le_add hbase (hv.operand hi (by simp [Inst.operands, Opcode.operands])) h
  all_goals exact absurd h (show ¬0 ≤ (-1 : Int64).toInt by decide)

/-! ### Away from the caller -/

/-- A machine about to call. What it lists and notes is older than the frame of the call. -/
structure Departs (o : Machine) : Prop where
  chain : ∀ f ∈ o.chain, f < o.frames.size
  markers : ∀ g ∈ o.context.markers, g < o.frames.size
  depth : ∀ g ∈ o.context.markers, ∀ d, (o.origin g).depth = some d → d < o.frames.size
  entry : ∀ e, o.context.entry = some e → e < o.frames.size
  noted : ∀ g, o.context.finalizeFrame = some g → g < o.frames.size

/-- A machine that is in a call from `o` into the window at `b`, or in calls that it made. -/
structure Away (o : Machine) (b : Int64) (m : Machine) (fresh : List FrameId) : Prop where
  chain : m.chain = fresh ++ o.frames.size :: o.chain
  calls : ∀ f ∈ fresh ++ [o.frames.size],
    o.frames.size ≤ f ∧ f < m.frames.size ∧ (m.origin f).isMarker = false
  newer : (fresh ++ [o.frames.size]).Pairwise (· > ·)
  inside : Inside m.origin o b m.frames.size m.context m.suspended fresh
  pending : m.pending = none
  caller : (m.origin o.frames.size).bare = o.control.saved .call o.context.pc none
  old : ∀ f, f < o.frames.size → m.origin f = o.origin f
  regs : ∀ r : Nat, (r : Int) < b.toInt → m.regs[r]? = o.regs[r]?

variable {o : Machine} {b : Int64} {fresh fresh' : List FrameId} {f : FrameId} {ph ph' : Phase}
  {owned : List Value}

theorem size_control : m.control.frames.size = m.frames.size := Array.size_map

/-- The frame that was pushed last. -/
theorem origin_of_push {k : Frame} (hframes : m'.control.frames = m.control.frames.push k) :
    (m'.origin m.frames.size).bare = k ∧ m'.frames.size = m.frames.size + 1 := by
  refine ⟨?_, ?_⟩
  · have hat := Control.frameAt_push_size k hframes
    rw [frameAt_control, size_control] at hat
    exact hat
  · have hsize := congrArg Array.size hframes
    rwa [Array.size_push, size_control, size_control] at hsize

/-- With a call the newest markers go, as far as they belong to it. -/
theorem pop_markers_of_call {rest : List FrameId} (hcall : (m.origin f).isMarker = false) :
    (m.control.pop f rest).context.markers =
      m.context.markers.dropWhile fun g => (m.origin g).depth == some f := by
  have hmarker : (m.control.frameAt f).isMarker = false := (isMarker_control f).trans hcall
  have hdepth : ∀ g, (m.control.frameAt g).depth = (m.origin g).depth := fun g => by
    rw [frameAt_control]
    rfl
  rw [Control.pop, hmarker]
  simp only [Control.restore, Control.markersWithout, hdepth]
  rfl

namespace Away

theorem size_lt (h : Away o b m fresh) : o.frames.size < m.frames.size :=
  (h.calls _ (List.mem_append_right _ List.mem_cons_self)).2.1

theorem fresh_lt (h : Away o b m fresh) : ∀ f ∈ fresh, f < m.frames.size :=
  fun f hf => (h.calls f (List.mem_append_left _ hf)).2.1

theorem fresh_gt (h : Away o b m fresh) (hf : f ∈ fresh) : o.frames.size < f :=
  (List.pairwise_append.1 h.newer).2.2 f hf _ List.mem_cons_self

/-- Frames that are pushed and freed are seen by nothing of this. -/
theorem inside_of_lasting (h : Away o b m fresh) (hl : Lasting [] [] m m') :
    Inside m'.origin o b m'.frames.size m.context m.suspended fresh :=
  h.inside.congr (fun _ hf => Lasting.origin hl hf) hl.le_size h.fresh_lt

/-- Control moves, and no frame is pushed on the chain. -/
theorem keep (h : Away o b m fresh) (hl : Lasting [] [] m m') (hsub : fresh'.Sublist fresh)
    (hchain : m'.chain = fresh' ++ o.frames.size :: o.chain)
    (hinside : Inside m'.origin o b m'.frames.size m'.context m'.suspended fresh')
    (hpending : m'.pending = none)
    (hregs : ∀ r : Nat, (r : Int) < b.toInt → m'.regs[r]? = m.regs[r]?) : Away o b m' fresh' := by
  have hlist := hsub.append (List.Sublist.refl [o.frames.size])
  refine ⟨hchain, fun f hf => ?_, h.newer.sublist hlist, hinside, hpending, ?_, fun f hf => ?_,
    fun r hr => (hregs r hr).trans (h.regs r hr)⟩
  · obtain ⟨hle, hlt, hcall⟩ := h.calls f (hlist.subset hf)
    rw [Lasting.origin hl hlt]
    exact ⟨hle, Nat.lt_of_lt_of_le hlt hl.le_size, hcall⟩
  · rw [Lasting.origin hl h.size_lt]
    exact h.caller
  · rw [Lasting.origin hl (Nat.lt_trans hf h.size_lt)]
    exact h.old f hf

/-- A call is pushed. -/
theorem push (h : Away o b m fresh) (hl : Lasting [] [] m m')
    (hframes : m'.frames.size = m.frames.size + 1)
    (hcall : (m'.origin m.frames.size).isMarker = false)
    (hsaved : (m'.origin m.frames.size).base = m.context.base)
    (hchain : m'.chain = m.frames.size :: m.chain) (hsuspended : m'.suspended = m.suspended)
    (hkin : m'.context.Kin m.context) (hmarkers : m'.context.markers = m.context.markers)
    (hbase : m'.context.base = (m'.origin m.frames.size).window)
    (hlow : b.toInt ≤ m'.context.base.toInt) (hpending : m'.pending = none)
    (hregs : ∀ r : Nat, (r : Int) < b.toInt → m'.regs[r]? = m.regs[r]?) :
    Away o b m' (m.frames.size :: fresh) := by
  refine ⟨by rw [hchain, h.chain, List.cons_append], fun f hf => ?_, ?_, ?_, hpending, ?_,
    fun f hf => ?_, fun r hr => (hregs r hr).trans (h.regs r hr)⟩
  · rw [hframes]
    rcases List.mem_cons.1 hf with rfl | hf
    · exact ⟨Nat.le_of_lt h.size_lt, Nat.lt_succ_self _, hcall⟩
    · obtain ⟨hle, hlt, hcall⟩ := h.calls f hf
      rw [Lasting.origin hl hlt]
      exact ⟨hle, Nat.lt_succ_of_lt hlt, hcall⟩
  · exact List.pairwise_cons.2 ⟨fun f hf => (h.calls f hf).2.1, h.newer⟩
  · rw [hsuspended]
    exact (h.inside_of_lasting hl).push hkin hmarkers hbase hlow hsaved
  · rw [Lasting.origin hl h.size_lt]
    exact h.caller
  · rw [Lasting.origin hl (Nat.lt_trans hf h.size_lt)]
    exact h.old f hf

theorem head? (h : Away o b m fresh) : m.chain.head? = (fresh ++ [o.frames.size]).head? := by
  rw [h.chain]
  cases fresh <;> rfl

/-- The frame on top of the chain is that of a call, and it is not an old one. -/
theorem of_head (h : Away o b m fresh) (hf : m.chain.head? = some f) :
    o.frames.size ≤ f ∧ (m.origin f).isMarker = false := by
  rw [h.head?] at hf
  obtain ⟨hle, -, hcall⟩ := h.calls f (List.mem_of_head? hf)
  exact ⟨hle, hcall⟩

/-- No return in a call goes on with the unwinding. -/
theorem not_settles (hd : o.Departs) (h : Away o b m fresh) : ¬m.control.settlesOnReturn := by
  intro hsettle
  simp only [Control.settlesOnReturn, Bool.and_eq_true, beq_iff_eq] at hsettle
  have hhead : m.chain.head? = m.context.finalizeFrame := hsettle.2
  rw [h.inside.finalizeFrame] at hhead
  cases hf : o.context.finalizeFrame with
  | none =>
    rw [hf, h.head?] at hhead
    cases fresh <;> cases hhead
  | some f =>
    rw [hf] at hhead
    exact absurd (hd.noted f hf) (Nat.not_lt.2 (h.of_head hhead).1)

theorem topMarker? (h : Away o b m fresh) : m.control.topMarker? = none := by
  refine Option.eq_none_iff_forall_ne_some.2 fun f hf => ?_
  obtain ⟨hhead, hkeep⟩ := Option.filter_eq_some_iff.1 hf
  rw [Bool.and_eq_true, isMarker_control] at hkeep
  have hcall : (m.frameAt f).isMarker = false := (h.of_head hhead).2
  rw [hcall] at hkeep
  cases hkeep.2

variable {P : Permit} {w : Int64}

/-- A marker is pushed in the call. -/
theorem mark (h : Away o b m fresh) (hs : Strides P w m m') {tag : FrameTag} {pc : Int64}
    (hc : m'.control = m.control.mark tag pc)
    (hregs : ∀ r : Nat, (r : Int) < b.toInt → m'.regs[r]? = m.regs[r]?) : Away o b m' fresh := by
  obtain ⟨hsaved, hframes⟩ := origin_of_push (congrArg Control.frames hc)
  have hkin : m'.context.Kin m.context :=
    ⟨(congrArg (·.context.entry) hc :), (congrArg (·.context.finalizeFrame) hc :),
      (congrArg (·.context.settleOnReturn) hc :), hs.callBase, hs.callee⟩
  have hmarkers : m'.context.markers = m.frames.size :: m.context.markers := by
    rw [← size_control]
    exact congrArg (·.context.markers) hc
  have hchain : m'.chain = m.chain := congrArg Control.chain hc
  have hsuspended : m'.suspended = m.suspended := congrArg Control.suspended hc
  refine h.keep hs.lasting (.refl _) (hchain.trans h.chain) ?_
    ((congrArg Control.pending hc).trans h.pending) hregs
  rw [hsuspended]
  refine (h.inside_of_lasting hs.lasting).mark hkin hmarkers (congrArg (·.context.base) hc :) ?_ ?_ h.newer
  · rw [hframes]
    exact Nat.lt_succ_self _
  · exact (congrArg Frame.depth hsaved).trans h.head?

/-- A call that was made in the call returns. -/
theorem back (hd : o.Departs) (h : Away o b m fresh) (hs : Strides P w m m') {f : FrameId}
    {rest : List FrameId} (hc : m'.control = m.control.pop f rest)
    (hentry : m.chain.head? ≠ m.context.entry) (hchain : m.chain = f :: rest)
    (hmem : o.frames.size ∈ m'.chain)
    (hregs : ∀ r : Nat, (r : Int) < b.toInt → m'.regs[r]? = m.regs[r]?) :
    ∃ fresh', Away o b m' fresh' := by
  have hchain : fresh ++ o.frames.size :: o.chain = f :: rest := h.chain.symm.trans hchain
  cases fresh with
  | nil =>
    obtain ⟨rfl, rfl⟩ := List.cons.inj hchain
    have hback : m'.chain = o.chain := congrArg Control.chain hc
    rw [hback] at hmem
    exact absurd (hd.chain _ hmem) (Nat.lt_irrefl _)
  | cons u fresh =>
    obtain ⟨rfl, rfl⟩ := List.cons.inj hchain
    have hsub : fresh.Sublist (u :: fresh) := List.sublist_cons_self _ _
    obtain ⟨-, hlt, hcall⟩ := h.calls u List.mem_cons_self
    have hpop : m'.control.context.markers = m.context.markers.dropWhile fun g =>
        (m.origin g).depth == some u := by
      rw [hc]
      exact pop_markers_of_call hcall
    have hsuspended : m'.suspended = m.suspended :=
      (congrArg Control.suspended hc).trans Control.pop_samePass.suspended
    have hpending : m'.pending = none :=
      ((congrArg Control.pending hc).trans Control.pop_sameSignal.pending).trans h.pending
    have hkin : m'.context.Kin m.context :=
      ⟨(congrArg (·.context.entry) hc).trans Control.pop_samePass.entry,
        (congrArg (·.context.finalizeFrame) hc).trans Control.pop_sameSignal.state.finalizeFrame,
        (congrArg (·.context.settleOnReturn) hc).trans Control.pop_sameSignal.state.settleOnReturn,
        hs.callBase, hs.callee⟩
    refine ⟨fresh, h.keep hs.lasting hsub (congrArg Control.chain hc) ?_ hpending hregs⟩
    rw [hsuspended]
    refine Inside.congr (h.inside.pop hkin hpop ?_ ?_ ?_ ?_) (fun _ hf => Lasting.origin hs.lasting hf)
      hs.lasting.le_size fun f hf => h.fresh_lt f (hsub.subset hf)
    · have hat := congrArg (·.context.base) hc
      rw [show _ = (m.control.frameAt u).base from (Control.at_pop _ _).base, frameAt_control] at hat
      exact hat
    · exact fun heq => hentry (h.head?.trans heq.symm)
    · intro g hg heq
      rw [h.old g (hd.markers g hg)] at heq
      exact absurd (hd.depth g hg u heq) (Nat.not_lt.2 (Nat.le_of_lt (h.fresh_gt List.mem_cons_self)))
    · exact (List.pairwise_cons.1 h.newer).1

/-- An instruction in the call that does not return from it. -/
theorem move (hd : o.Departs) (h : Away o b m fresh) {op : Opcode}
    (hmove : m.control.Move op .same m'.control) (hs : Strides P w m m')
    (hquiet : ∀ e message, m.control.raise e message ≠ some m'.control) (hop : op ≠ .popMarkers)
    (hmem : o.frames.size ∈ m'.chain) (hlow : 0 ≤ w.toInt → b.toInt ≤ w.toInt)
    (hregs : ∀ r : Nat, (r : Int) < b.toInt → m'.regs[r]? = m.regs[r]?) :
    ∃ fresh', Away o b m' fresh' := by
  have hinside := h.inside_of_lasting hs.lasting
  generalize hc : m'.control = c' at hmove hquiet
  have hkin : c'.context.entry = m.context.entry → c'.context.finalizeFrame = m.context.finalizeFrame →
      c'.context.settleOnReturn = m.context.settleOnReturn → m'.context.Kin m.context :=
    fun hentry hfinal hsettle => by
      rw [← hc] at hentry hfinal hsettle
      exact ⟨hentry, hfinal, hsettle, hs.callBase, hs.callee⟩
  have hstill : c'.chain = m.chain → c'.suspended = m.suspended → c'.pending = none →
      m'.context.Kin m.context → c'.context.markers = m.context.markers →
      c'.context.base = m.context.base → ∃ fresh', Away o b m' fresh' :=
    fun hchain hsuspended hpending hkin hmarkers hbase => by
      rw [← hc] at hchain hsuspended hpending hmarkers hbase
      have hsuspended : m'.suspended = m.suspended := hsuspended
      refine ⟨fresh, h.keep hs.lasting (.refl _) (hchain.trans h.chain) ?_ hpending hregs⟩
      rw [hsuspended]
      exact hinside.turn hkin hmarkers hbase
  cases hmove with
  | call hop' hcall =>
    cases hcall with
    | deed hdeed =>
      rcases hdeed with rfl | ⟨base, code, targetClass, rfl⟩ | ⟨e, message, hr⟩
      · exact hstill rfl rfl h.pending (hkin rfl rfl rfl) rfl rfl
      · obtain ⟨hsaved, hframes⟩ := origin_of_push (congrArg Control.frames hc)
        have hentered := hs.entered hc
        have hchain : m'.chain = m.frames.size :: m.chain := by
          rw [← size_control]
          exact congrArg Control.chain hc
        refine ⟨_, h.push hs.lasting hframes ?_ (congrArg Frame.base hsaved :) hchain
          (congrArg Control.suspended hc) (hkin rfl rfl rfl) (congrArg (·.context.markers) hc :)
          (hentered.base.trans hentered.window.symm) ?_ ?_ hregs⟩
        · exact (congrArg Frame.isMarker hsaved :)
        · rw [hentered.base]
          exact hlow hentered.nonneg
        · exact (congrArg Control.pending hc).trans h.pending
      · exact absurd hr (hquiet e message)
  | jump hop' pc => exact hstill rfl rfl h.pending (hkin rfl rfl rfl) rfl rfl
  | take hexc => exact hstill rfl rfl h.pending (hkin rfl rfl rfl) rfl rfl
  | protect tag pc htag => exact ⟨fresh, h.mark hs hc hregs⟩
  | unprotect n => exact absurd rfl hop
  | resume htop hr => cases h.topMarker?.symm.trans htop
  | settle htop hsettle hexc => exact absurd hsettle (h.not_settles hd)
  | back htop hsettle hentry hchain => exact h.back hd hs hc hentry hchain hmem hregs

theorem fetched (h : Away o b m fresh) : Away o b m.fetched fresh :=
  ⟨h.chain, h.calls, h.newer, h.inside.turn ⟨rfl, rfl, rfl, rfl, rfl⟩ rfl rfl, h.pending, h.caller,
    h.old, h.regs⟩

theorem base_low (h : Away o b m fresh) : b.toInt ≤ m.context.base.toInt := h.inside.low

end Away

/-- An instruction that raises nothing, discards no marker, sets no outer variable, passes no
negative number of arguments, and stops nothing but a constructor pass that is done. -/
structure Gentle (i : Inst) (m m' : Machine) : Prop where
  op : i.op ≠ .setOuter ∧ i.op ≠ .popMarkers ∧ i.op ≠ .stop
  abort : i.op = .abort → m.suspended ≠ [] ∧ m.chain.head? = m.context.entry
  count : ∀ argc, i.argc? = some argc → 0 ≤ argc.toInt
  quiet : ∀ e message, m.fetched.control.raise e message ≠ some m'.control

/-- A part of a run in which the call whose frame is `f` goes on. -/
def Undisturbed (f : FrameId) (ph : Phase) (m : Machine) (_ : Phase) (m' : Machine) : Prop :=
  f ∈ m'.chain ∧ (ph = .ready → ∀ i, m.control.next? = some i → Gentle i m m')

namespace Away

variable {i : Inst}

/-- An instruction that starts a constructor pass. -/
theorem enter (h : Away o b m fresh) (hv : m.Vetted) (hi : m.control.next? = some i)
    (hgentle : Gentle i m m') {argc : Int64} {id : MethodId} {callee : Symbol} {made : Value}
    (hargc : i.argc? = some argc)
    (hcon : Constructs (i.permit m.fetched) ⟨m.context.base + i.a, argc⟩ id callee made m.fetched m')
    (hpending : m'.pending = none) : Away o b m' fresh := by
  have hcall : 0 ≤ (m.context.base + i.a).toInt := entryAt?_nonneg hcon.receiver
  have hsome : i.argc? ≠ none := hargc ▸ Option.some_ne_none _
  have hlow : b.toInt ≤ (m.context.base + i.a).toInt :=
    Int.le_trans h.base_low (le_add hv.base_nonneg (hv.receiver hi (.inl hsome)) hcall)
  have hframes : m'.frames = m.frames := hcon.frames
  obtain ⟨s, hs, hawaits⟩ := hcon.awaits
  have hinside := h.fetched.inside_of_lasting hcon.lasting
  refine h.fetched.keep hcon.lasting (.refl _) (hcon.chain.trans h.chain) ?_ hpending fun r hr => ?_
  · refine .nested hs hawaits hlow (List.nil_append fresh).symm ?_ ?_ ?_ (hinside.turn ?_ rfl rfl)
    · rw [hcon.context]
      exact congrArg List.head? h.chain
    · rw [hcon.context]
      exact h.inside.finalizeFrame
    · exact (congrArg (·.base) hcon.context :)
    · exact ⟨rfl, rfl, rfl, rfl, rfl⟩
  · refine hcon.alters.below hv hi hgentle.count (fun _ => hcall) hgentle.op.1 ?_
    exact Int.lt_of_lt_of_le hr h.base_low

/-- An instruction that ends a pass. -/
theorem finish (h : Away o b m fresh) (hv : m.Vetted) (hi : m.control.next? = some i)
    (hgentle : Gentle i m m') (hworks : Works (i.permit m.fetched) m.fetched m')
    (hargc : i.argc? = none) : Away o b m' fresh := by
  have hchain : m'.chain = m.chain := congrArg (·.chain) hworks.core
  have hsuspended : m'.suspended = m.suspended := congrArg (·.suspended) hworks.core
  have hpending : m'.pending = m.pending := congrArg (·.pending) hworks.core
  refine h.fetched.keep (.of_core hworks.core) (.refl _) (hchain.trans h.chain) ?_
    (hpending.trans h.pending) fun r hr => ?_
  · rw [hworks.names, hsuspended]
    exact h.fetched.inside_of_lasting (.of_core hworks.core)
  · refine hworks.toAlters.below hv hi hgentle.count (absurd hargc) hgentle.op.1 ?_
    exact Int.lt_of_lt_of_le hr h.base_low

/-- A constructor pass that is over was started in the call. -/
theorem resume (hd : o.Departs) (h : Away o b m fresh) (hentry : m.chain.head? = m.context.entry)
    {s : Suspension} {rest : List Suspension} (hs : m.suspended = s :: rest)
    (hr : resumePass s rest m = .ok () m') : ∃ fresh', Away o b m' fresh' := by
  have hinside := h.inside
  generalize hx : m.context = x at hinside
  generalize hss : m.suspended = ss at hinside
  cases hinside with
  | own _ hkin _ _ _ =>
    rw [hx, hkin.entry, h.head?] at hentry
    cases he : o.context.entry with
    | none =>
      rw [he] at hentry
      cases fresh <;> cases hentry
    | some e =>
      rw [he] at hentry
      have hle := (h.calls e (List.mem_of_head? hentry)).1
      exact absurd (hd.entry e he) (Nat.not_lt.2 hle)
  | @nested _ x' made w id callBase callee s' _ rest' _ upper lower hs' hawaits hw hfresh hentry' hfinal
      hstack hlower =>
    obtain ⟨rfl, rfl⟩ := List.cons.inj (hs.symm.trans (hss.trans hs'))
    -- The pass has nothing of its own on the chain.
    have hnil : upper = [] := by
      cases upper with
      | nil => rfl
      | cons u upper =>
        have hnewer := h.newer
        rw [h.chain, hx, hentry', hfresh, List.cons_append, List.cons_append, List.head?_cons] at hentry
        rw [hfresh, List.cons_append, List.cons_append] at hnewer
        have hmem : u ∈ upper ++ lower ++ [o.frames.size] := by
          cases lower with
          | nil =>
            cases hentry
            exact List.mem_append_right _ List.mem_cons_self
          | cons f lower =>
            cases hentry
            exact List.mem_append_left _ (List.mem_append_right _ List.mem_cons_self)
        exact absurd ((List.pairwise_cons.1 hnewer).1 u hmem) (Nat.lt_irrefl _)
    rw [hnil, List.nil_append] at hfresh
    subst hfresh
    obtain ⟨hgoes, -⟩ := (resumePass_goes hs hawaits).of_ok hr
    obtain ⟨hcontext, hsuspended, hchain, hpending, -⟩ := hawaits.quiet hs hr h.pending
    refine ⟨fresh, h.keep hgoes.lasting (.refl _) (hchain.trans h.chain) ?_ hpending fun r hr => ?_⟩
    · rw [hcontext, hsuspended]
      exact hlower.congr (fun _ hf => Lasting.origin hgoes.lasting hf) hgoes.lasting.le_size h.fresh_lt
    · rcases hgoes.alters.regs r with heq | ⟨j, rfl, hj⟩ | ⟨⟨j, hlt, hj⟩, -⟩
      · exact heq
      · omega
      · have hlt : w.base.toInt < j.toInt := hlt
        omega

/-- The end of an instruction clears nothing below the window. -/
theorem settle (h : Away o b m fresh) (hv : m.Vetted) (hc : m'.control = m.control)
    (hgoes : Goes m.leftovers m m') (hcallBase : m'.context.callBase = m.context.callBase)
    (hcallee : m'.context.callee = m.context.callee) : Away o b m' fresh := by
  have hkin : m'.context.Kin m.context :=
    ⟨(congrArg (·.context.entry) hc :), (congrArg (·.context.finalizeFrame) hc :),
      (congrArg (·.context.settleOnReturn) hc :), hcallBase, hcallee⟩
  have hsuspended : m'.suspended = m.suspended := congrArg Control.suspended hc
  refine h.keep hgoes.lasting (.refl _) ((congrArg Control.chain hc).trans h.chain) ?_
    ((congrArg Control.pending hc).trans h.pending) fun r hr => ?_
  · rw [hsuspended]
    refine (h.inside_of_lasting hgoes.lasting).turn hkin ?_ ?_
    · exact (congrArg (·.context.markers) hc :)
    · exact (congrArg (·.context.base) hc :)
  · rcases hgoes.alters.regs r with heq | ⟨j, hj, -⟩ | ⟨⟨j, ⟨-, code, hcode, htop, hle⟩, hj⟩, -⟩
    · exact heq
    · exact hj.elim
    · have hlow := le_add hv.base_nonneg (hv.size_nonneg hcode) htop
      have hbase := h.base_low
      omega

/-- A part of a tick in the call. Passes that are over left nothing on the chain. -/
theorem advance (hd : o.Departs) (h : Away o b m fresh) (hm : Steady ph owned m) (hv : m.Vetted)
    (hadvance : Advance ph m ph' m') (hok : Undisturbed o.frames.size ph m ph' m')
    (hend : ph = .ended → m.chain.head? = m.context.entry) :
    (∃ fresh', Away o b m' fresh') ∧ (ph' = .ended → m'.chain.head? = m'.context.entry) := by
  have hturn := (hadvance.turn hm).1
  obtain ⟨hmem, hgentle⟩ := hok
  generalize hc : m'.control = c' at hturn
  cases hadvance with
  | same hstep =>
    obtain ⟨i, hi, hacts⟩ := (fetch_step_acts hm.noProbe).of_ok hstep
    have hacts : Strides _ _ _ _ := hacts
    have hgentle := hgentle rfl i hi
    cases hturn with
    | same hi' hmove =>
      cases hi.symm.trans hi'
      refine ⟨h.fetched.move hd (hc ▸ hmove) hacts hgentle.quiet hgentle.op.2.1 hmem (fun hw => ?_)
        fun r hr => ?_, nofun⟩
      · exact Int.le_trans h.base_low (hv.landing_low hi hw)
      · have hbelow := fun hcall => hacts.alters.below hv hi hgentle.count hcall hgentle.op.1
          (Int.lt_of_lt_of_le hr h.base_low)
        by_cases hargc : i.argc? = none
        · exact hbelow (absurd hargc)
        · obtain ⟨argc, hargc⟩ := Option.ne_none_iff_exists'.1 hargc
          rcases (fetch_step_reaches hm.noProbe).of_ok hstep i argc hi hargc with ⟨hcall, -⟩ | hregs
          · exact hbelow fun _ => hcall
          · rw [hregs]
            rfl
  | entered hstep =>
    obtain ⟨i, hi, argc, id, callee, made, hargc, hcon⟩ := (fetch_step_acts hm.noProbe).of_ok hstep
    cases hturn with
    | entered hi' hmove =>
      obtain ⟨x, made', w, duties, base, argc', -, -, rfl⟩ := hmove.eq_enter
      refine ⟨⟨fresh, h.enter hv hi (hgentle rfl i hi) hargc hcon ?_⟩, nofun⟩
      exact (congrArg Control.pending hc).trans h.pending
  | finished hstep =>
    obtain ⟨i, hi, hworks⟩ := (fetch_step_acts hm.noProbe).of_ok hstep
    have hgentle := hgentle rfl i hi
    cases hturn with
    | finished hi' hmove =>
      cases hi.symm.trans hi'
      obtain ⟨rfl, hop⟩ := hmove.over_cases
      have hargc : i.argc? = none := by
        rcases hop with ⟨hop, -⟩ | hop | hop <;> simp only [Inst.argc?, hop]
      refine ⟨⟨fresh, h.finish hv hi hgentle hworks hargc⟩, fun _ => ?_⟩
      have hchain : m'.chain = m.chain := congrArg Control.chain hc
      have hentry : m'.context.entry = m.context.entry := (congrArg (·.context.entry) hc :)
      rw [hchain, hentry]
      rcases hop with ⟨-, hentry⟩ | hop | hop
      · exact hentry
      · exact absurd hop hgentle.op.2.2
      · exact (hgentle.abort hop).2
  | settled hstep =>
    obtain ⟨hgoes, hcallBase, hcallee⟩ := concludeStep_goes.of_ok hstep
    cases hturn with
    | settled hpending => exact ⟨⟨fresh, h.settle hv hc hgoes hcallBase hcallee⟩, nofun⟩
  | unwound hstep =>
    cases hturn with
    | unwound hpending hu => exact absurd h.pending hpending
  | resumed hs hr => exact ⟨h.resume hd (hend rfl) hs hr, nofun⟩

end Away

end Machine

end ObjectMachine
