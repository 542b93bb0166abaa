import ObjectMachine.Proofs.Nesting

/-! What is kept of every pass. Something that is said of a pass, of its context, its part of the
chain and its markers, holds of all passes at any time if the few changes that a pass can make to
these keep it: calls and returns, markers that are pushed, taken and resumed. Where the part of a
pass ends on the chain, and what exceptions do to it, is the same whatever is said. -/

namespace ObjectMachine

namespace Control

/-- The part of the chain that belongs to the running pass. -/
def own (c : Control) : List FrameId := c.chain.takeWhile fun f => c.context.entry != some f

variable {k k' : FrameId → Frame} {nested : Prop} {x x' : Context} {floor : Int64}
  {upper below fs gs : List FrameId} {born size : Nat} {c c' : Control} {f : FrameId}

theorem takeWhile_head? {entry : Option FrameId} (h : fs.head? = entry) :
    (fs.takeWhile fun f => entry != some f) = [] := by
  cases fs with
  | nil => rfl
  | cons f fs =>
    have hentry : entry = some f := h.symm
    simp [hentry]

theorem Level.own_eq (h : Level k nested c.context upper below born size)
    (hchain : c.chain = upper ++ below) : c.own = upper := by
  rw [own, hchain]
  exact h.takeWhile_chain

theorem Stands.own_eq (h : Stands c upper below born) : c.own = upper := h.level.own_eq h.chain

/-- A marker on top of the chain is the first frame of its pass. -/
theorem Stands.cons_of_top (h : Stands c upper below born) (htop : c.topMarker? = some f) :
    ∃ us, upper = f :: us ∧ (c.frameAt f).isMarker := by
  obtain ⟨hhead, hmarker⟩ := Option.filter_eq_some_iff.1 htop
  simp only [Bool.and_eq_true, bne_iff_ne] at hmarker
  have hstart := h.chain
  cases upper with
  | nil =>
    rw [hstart] at hhead
    exact absurd (h.level.entry.symm.trans hhead) hmarker.1
  | cons u us =>
    rw [hstart] at hhead
    obtain rfl : u = f := Option.some.inj hhead
    exact ⟨us, rfl, hmarker.2⟩

/-- So is a frame above the entry. -/
theorem Stands.cons_of_chain (h : Stands c upper below born) {rest : List FrameId}
    (hchain : c.chain = f :: rest) (hentry : c.chain.head? ≠ c.context.entry) :
    ∃ us, upper = f :: us ∧ rest = us ++ below := by
  have hstart := h.chain
  cases upper with
  | nil =>
    rw [hstart] at hentry
    exact absurd h.level.entry hentry
  | cons u us =>
    rw [hchain, List.cons_append, List.cons.injEq] at hstart
    exact ⟨us, by rw [hstart.1], hstart.2⟩

/-- A frame above the entry that is no waiting marker is a call. -/
theorem Stands.isMarker_of_top (h : Stands c (f :: fs) below born) (htop : c.topMarker? = none) :
    (c.frameAt f).isMarker = false := by
  have hne : c.context.entry ≠ some f :=
    h.level.entry_ne (h.level.younger f List.mem_cons_self).1
  have hhead : c.chain.head? = some f := by
    rw [h.chain]
    rfl
  simpa [topMarker?, hhead, hne] using htop

/-- The frames of a pass are above what it leads back to at its top. -/
theorem Level.eq_of_head? (h : Level k nested x upper below born size) (hgs : gs <:+ upper)
    (hhead : gs.head?.or x.entry = upper.head?.or x.entry) : gs = upper := by
  cases upper with
  | nil => exact List.suffix_nil.1 hgs
  | cons u us =>
    rcases List.suffix_cons_iff.1 hgs with rfl | hrest
    · rfl
    · have hborn := (h.younger u List.mem_cons_self).1
      cases gs with
      | nil => exact absurd hhead (h.entry_ne hborn)
      | cons g gs =>
        obtain rfl : g = u := Option.some.inj hhead
        have hmem : g ∈ us := hrest.subset List.mem_cons_self
        exact absurd hmem (List.nodup_cons.1 (List.nodup_append.1 h.distinct).1).1

/-! ### What is said of a pass -/

/-- What is said of a pass that began at `floor`, in the context `x`, with the frames `fs` on the
chain: while it runs or waits, while it is unwound, of its markers, of its calls, and of where it
pushes markers. -/
structure Upkeep where
  Goes (floor : Int64) (k : FrameId → Frame) (x : Context) (fs : List FrameId) : Prop
  Unwinds (floor : Int64) (k : FrameId → Frame) (x : Context) (fs : List FrameId) : Prop
  /-- The marker `f` leads back to one of `fs`, or to the entry. -/
  LeadsTo (floor : Int64) (k : FrameId → Frame) (entry : Option FrameId) (fs : List FrameId)
    (f : FrameId) : Prop
  /-- The call of the frame `f` goes on in the window at `base`. -/
  Enters (f : FrameId) (base : Int64) : Prop
  /-- A marker may be pushed on `fs`. -/
  Bears (k : FrameId → Frame) (fs : List FrameId) : Prop

namespace Upkeep

/-- The changes of a pass keep what is said of it. -/
structure Laws (U : Upkeep) : Prop where
  congr : ∀ {floor k k' x fs}, U.Goes floor k x fs → (∀ g ∈ fs ++ x.markers, k' g = k g) →
    U.Goes floor k' x fs
  bears : ∀ {k k' fs}, U.Bears k fs → (∀ g ∈ fs, k' g = k g) → U.Bears k' fs
  begin : ∀ {k x}, x.markers = [] → U.Goes x.base k x []
  turn : ∀ {floor k x x' fs}, U.Goes floor k x fs → x'.markers ⊆ x.markers → x'.entry = x.entry →
    x'.base = x.base → U.Goes floor k x' fs
  call : ∀ {floor k x x' fs f}, U.Goes floor k x fs → (k f).isMarker = false → (k f).base = x.base →
    (∀ g ∈ x.markers, (k g).depth ≠ some f) → x'.markers = x.markers → x'.entry = x.entry →
    U.Enters f x'.base → U.Goes floor k x' (f :: fs)
  mark : ∀ {floor k x x' fs f}, U.Goes floor k x fs → (k f).depth = fs.head?.or x.entry →
    (k f).base = x.base → (∀ gs, gs <:+ fs → gs.head?.or x.entry = (k f).depth → gs = fs) →
    U.Bears k fs → x'.markers = f :: x.markers → x'.entry = x.entry → x'.base = x.base →
    U.Goes floor k x' fs
  back : ∀ {floor k nested} {c : Control} {f fs rest below born size}, c.frameAt = k →
    U.Goes floor k c.context (f :: fs) → Level k nested c.context (f :: fs) below born size →
    (k f).isMarker = false → U.Goes floor k (c.pop f rest).context fs
  splice : ∀ {floor k x x' fs f}, U.Goes floor k x fs → (k f).isMarker → x.markers = f :: x'.markers →
    (∀ g ∈ x'.markers, (k g).depth ≠ some f) → x'.entry = x.entry → x'.base = x.base →
    U.Goes floor k x' (f :: fs)
  unwinds : ∀ {floor k x fs}, U.Goes floor k x fs → U.Unwinds floor k x fs
  pop : ∀ {floor k nested} {c : Control} {f fs rest below born size}, c.frameAt = k →
    U.Unwinds floor k c.context (f :: fs) → Level k nested c.context (f :: fs) below born size →
    U.Unwinds floor k (c.pop f rest).context fs
  /-- A marker is taken off the chain. -/
  shed : ∀ {floor k x fs f}, U.Unwinds floor k x (f :: fs) → (k f).isMarker →
    U.Unwinds floor k x fs ∧ U.LeadsTo floor k x.entry fs f
  /-- A marker is taken off the side stack. -/
  take : ∀ {floor k x x' fs f}, U.Unwinds floor k x fs → x.markers = f :: x'.markers →
    x'.entry = x.entry → U.Unwinds floor k x' fs ∧ U.LeadsTo floor k x.entry fs f
  arrive : ∀ {floor k x x' fs gs f}, U.Unwinds floor k x fs → U.LeadsTo floor k x.entry gs f →
    fs <:+ gs → fs.head?.or x.entry = (k f).depth → x'.markers = x.markers → x'.entry = x.entry →
    x'.base = (k f).base → U.Goes floor k x' fs

variable {U U' : Upkeep} (hU : U.Laws)

include hU

/-! ### Unwinding -/

theorem Laws.unwind (floor : Int64) {target : Option FrameId} (hk : c.frameAt = k)
    (h : U.Unwinds floor k c.context upper) (hlevel : Level k nested c.context upper below born size)
    (hchain : c.chain = upper ++ below)
    (htarget : target = c.context.entry ∨ ∃ d, target = some d ∧ born ≤ d)
    (hu : c.popUntil target (upper ++ below) = some c') : U.Unwinds floor k c'.context c'.own := by
  induction upper generalizing c with
  | nil =>
    obtain ⟨rfl, -⟩ := hlevel.stop htarget hu
    rw [hlevel.own_eq hchain]
    exact h
  | cons f upper ih =>
    rw [List.cons_append, popUntil] at hu
    split at hu
    · cases hu
      rw [hlevel.own_eq hchain]
      exact h
    · have hsame : SamePass c (c.pop f (upper ++ below)) := pop_samePass
      have hat : (c.pop f (upper ++ below)).frameAt = k := by
        rw [← hk]
        exact funext (frameAt_of_frames hsame.frames)
      refine ih hat (hU.pop hk h hlevel) ?_ rfl (by rwa [hsame.entry]) hu
      exact hlevel.shrink (List.suffix_cons f upper) pop_markers hsame.entry

/-- The next marker moves onto the chain. -/
theorem Laws.splice_own (h : U.Goes floor k c.context upper)
    (hlevel : Level k nested c.context upper below born size) (hchain : c.chain = upper ++ below)
    (hne : nested → upper ≠ []) : U.Goes floor k c.splice.context c.splice.own := by
  cases hm : c.context.markers with
  | nil =>
    have hsplice : c.splice.own = upper ∧ c.splice.context.markers = [] ∧
        c.splice.context.entry = c.context.entry ∧ c.splice.context.base = c.context.base := by
      rw [← hlevel.own_eq hchain]
      simp only [Control.splice, hm, own]
      exact ⟨trivial, trivial, trivial, trivial⟩
    obtain ⟨hown, hmarkers, hentry, hbase⟩ := hsplice
    rw [hown]
    exact hU.turn h (hmarkers ▸ List.nil_subset _) hentry hbase
  | cons f rest =>
    have hf : f ∈ c.context.markers := hm ▸ List.mem_cons_self
    have hsplice : c.splice = { c with
        chain := f :: c.chain, context := { c.context with markers := rest } } := by
      simp only [Control.splice, hm]
    have hown : c.splice.own = f :: upper := by
      have hentry : { c.context with markers := rest }.entry = c.context.entry := rfl
      rw [hsplice, own, hchain]
      exact (hlevel.splice hm hentry hne).takeWhile_chain
    rw [hown, hsplice]
    exact hU.splice h (hlevel.marked f hf) hm
      (fun g hg => hlevel.apart f hf g (hm ▸ List.mem_cons_of_mem f hg)) rfl rfl

/-- A pass that is unwound goes on where a marker leads back to. -/
theorem Laws.resume (hk : c.frameAt = k) (h : U.Unwinds floor k c.context upper)
    (hlevel : Level k nested c.context upper below born size) (hchain : c.chain = upper ++ below)
    (hlead : Leading k nested c.context born f)
    (hback : U.LeadsTo floor k c.context.entry upper f) (hr : c.resume f = some c') :
    U.Goes floor k c'.context c'.own := by
  obtain ⟨c₁, hu, rfl⟩ := Option.map_eq_some_iff.1 hr
  rw [hk] at hu ⊢
  obtain ⟨upper', hw, hne⟩ := hlevel.unwindLead hk hchain hlead hu
  have hentry := (popUntil_samePass hu).entry
  have hhead : upper'.head?.or c.context.entry = (k f).depth := by
    rw [← hw.head, hw.chain, List.head?_append, ← hlevel.entry]
  have h₁ : U.Unwinds floor k c₁.context upper' := by
    rw [← hw.level.own_eq hw.chain]
    rw [Control.unwind, hchain] at hu
    refine hU.unwind floor hk h hlevel hchain ?_ hu
    rcases hlead with ⟨d, hd, hborn, -⟩ | ⟨-, hentry⟩
    · exact .inr ⟨d, hd, hborn⟩
    · exact .inl hentry
  have harrive : ∀ s, U.Goes floor k (c₁.arrive (k f) s).context upper' := fun s =>
    hU.arrive h₁ (hentry ▸ hback) hw.suffix (hentry ▸ hhead) rfl rfl rfl
  unfold land
  split
  · have hown : (c₁.arrive (k f) .handled).own = upper' := hw.level.own_eq (c := c₁) hw.chain
    rw [hown]
    exact harrive _
  · exact hU.splice_own (harrive .finalizing) (hw.level.turn rfl rfl) hw.chain hne

theorem Laws.deliver (hk : c.frameAt = k) (h : U.Goes floor k c.context upper)
    (hlevel : Level k nested c.context upper below born size) (hchain : c.chain = upper ++ below)
    (hd : c.deliver = some c') : U.Goes floor k c'.context c'.own := by
  have hspliced := hlevel.spliced_eq hk hchain
  unfold Control.deliver at hd
  split at hd
  · next f fs hfs =>
    have hf : f ∈ upper ∧ (k f).isMarker := by
      have hmem : f ∈ upper.filter fun f => (k f).isMarker := by
        rw [← hspliced, hfs]
        exact List.mem_cons_self
      exact List.mem_filter.1 hmem
    obtain ⟨c₁, hu, hr⟩ := Option.bind_eq_some_iff.1 hd
    obtain ⟨upper₂, hw⟩ := hlevel.unwindFrame hk hchain hf.1 hu
    have hsame := popUntil_samePass hu
    have hat : c₁.frameAt = k := by
      rw [← hk]
      exact funext (frameAt_of_frames hsame.frames)
    have h₁ : U.Unwinds floor k c₁.context (f :: upper₂) := by
      rw [← hw.level.own_eq hw.chain]
      rw [Control.unwind, hchain] at hu
      have hborn := (hlevel.younger f (List.mem_append_left _ hf.1)).1
      exact hU.unwind floor hk (hU.unwinds h) hlevel hchain (.inr ⟨f, rfl, hborn⟩) hu
    obtain ⟨h₂, hback⟩ := hU.shed h₁ hf.2
    have htail : c₁.chain.tail = upper₂ ++ below := by
      rw [hw.chain]
      rfl
    have hlead : Leading k nested c₁.context born f := by
      unfold Leading
      rw [hsame.entry]
      exact hlevel.leading f (List.mem_append_left _ hf.1) hf.2
    exact hU.resume (c := { c₁ with chain := c₁.chain.tail }) hat h₂
      (hw.level.shrink (List.suffix_cons f upper₂) (List.suffix_refl _) rfl) htail hlead hback hr
  · split at hd
    · next f rest hm =>
      have hmem : f ∈ c.context.markers := hm ▸ List.mem_cons_self
      have hlead := hlevel.leading f (List.mem_append_right _ hmem) (hlevel.marked f hmem)
      have htaken : U.Unwinds floor k { c.context with markers := rest } upper ∧
          U.LeadsTo floor k c.context.entry upper f := hU.take (hU.unwinds h) hm rfl
      obtain ⟨h₁, hback⟩ := htaken
      exact hU.resume (c := { c with context := { c.context with markers := rest } }) hk h₁
        (hlevel.shrink (List.suffix_refl _) (hm ▸ List.suffix_cons f rest) rfl) hchain hlead hback hd
    · cases hd
      have hown : c.settle.own = upper := hlevel.own_eq hchain
      rw [hown]
      exact hU.turn h (List.Subset.refl _) rfl rfl

omit hU

/-! ### All passes -/

/-- It holds of the suspended passes on a chain. The last one began at 0. -/
def HoldsBelow (U : Upkeep) (k : FrameId → Frame) : List Suspension → List FrameId → Prop
  | [], _ => True
  | s :: rest, chain =>
    (∀ x made v duties, s = ⟨x.entry, .construct x made v :: duties⟩ →
      ∃ floor, (rest = [] → floor = 0) ∧
        U.Goes floor k x (chain.takeWhile fun f => x.entry != some f)) ∧
    U.HoldsBelow k rest (reach chain s.entry)

/-- It holds of the running pass and of those that wait. -/
structure Holds (U : Upkeep) (c : Control) : Prop where
  here : ∃ floor, (c.suspended = [] → floor = 0) ∧ U.Goes floor c.frameAt c.context c.own
  lower : U.HoldsBelow c.frameAt c.suspended c.ground

/-- What is said of other frames. -/
theorem HoldsBelow.imp {ss : List Suspension} {chain : List FrameId} (h : U.HoldsBelow k ss chain)
    (hbelow : Below k ss chain born) (himp : ∀ floor x fs, (∀ g ∈ fs ++ x.markers, g < born) →
      U.Goes floor k x fs → U'.Goes floor k' x fs) : U'.HoldsBelow k' ss chain := by
  induction ss generalizing chain born with
  | nil => trivial
  | cons s rest ih =>
    obtain ⟨x, made, v, duties, upper, below, born', rfl, -, rfl, hborn, hlevel, -, hrest⟩ := hbelow
    obtain ⟨hgoes, hlower⟩ := h
    refine ⟨fun x' made' v' duties' heq => ?_, ?_⟩
    · obtain ⟨floor, hfloor, hgoes⟩ := hgoes x' made' v' duties' heq
      simp only [Suspension.mk.injEq, List.cons.injEq, Duty.construct.injEq] at heq
      obtain ⟨-, ⟨rfl, -, -⟩, -⟩ := heq
      rw [hlevel.takeWhile_chain] at hgoes ⊢
      exact ⟨floor, hfloor, himp _ _ _ (fun g hg => (hlevel.younger g hg).2) hgoes⟩
    · rw [hlevel.reach_entry] at hlower ⊢
      exact ih hlower hrest fun floor x fs hfs =>
        himp floor x fs fun g hg => Nat.lt_of_lt_of_le (hfs g hg) hborn

theorem Holds.imp (h : U.Holds c) (hstands : Stands c upper below born)
    (himp : ∀ floor x fs, (∀ g ∈ fs ++ x.markers, g < c.frames.size) →
      U.Goes floor c.frameAt x fs → U'.Goes floor c.frameAt x fs) : U'.Holds c := by
  obtain ⟨⟨floor, hfloor, hgoes⟩, hlower⟩ := h
  rw [hstands.own_eq] at hgoes
  refine ⟨⟨floor, hfloor, ?_⟩, ?_⟩
  · rw [hstands.own_eq]
    exact himp _ _ _ (fun g hg => (hstands.level.younger g hg).2) hgoes
  · rw [hstands.ground_eq] at hlower ⊢
    exact hlower.imp hstands.lower fun floor x fs hfs =>
      himp floor x fs fun g hg => Nat.lt_of_lt_of_le (hfs g hg) hstands.le_size

/-- The running pass goes on in its own part of the chain. -/
theorem Holds.step (h : U.Holds c) (hsame : SamePass c c') (hground : c'.ground = c.ground)
    (hgoes : ∀ floor, U.Goes floor c.frameAt c.context c.own →
      U.Goes floor c.frameAt c'.context c'.own) : U.Holds c' := by
  have hat : c'.frameAt = c.frameAt := funext (frameAt_of_frames hsame.frames)
  obtain ⟨⟨floor, hfloor, hhere⟩, hlower⟩ := h
  refine ⟨⟨floor, hsame.suspended ▸ hfloor, hat ▸ hgoes floor hhere⟩, ?_⟩
  rw [hat, hsame.suspended, hground]
  exact hlower

include hU

theorem Laws.keep (h : U.Holds c) (hsame : SamePass c c') (hchain : c'.chain = c.chain)
    (hmarkers : c'.context.markers ⊆ c.context.markers) (hbase : c'.context.base = c.context.base) :
    U.Holds c' := by
  have hown : c'.own = c.own := by rw [own, own, hchain, hsame.entry]
  have hground : c'.ground = c.ground := by rw [ground, ground, hchain, hsame.entry]
  refine h.step hsame hground fun floor hgoes => ?_
  rw [hown]
  exact hU.turn hgoes hmarkers hsame.entry hbase

theorem Laws.raise (h : U.Holds c) (hc : Sound c) {e : ClassId} {message : Value}
    (hr : c.raise e message = some c') : U.Holds c' := by
  obtain ⟨e', message', hd⟩ := raise_eq_deliver hr
  have hground := hc.ground_raise hr
  obtain ⟨⟨upper, below, born, hstands⟩, -⟩ := hc.inFlight e' message'
  refine h.step (raise_samePass hr) hground fun floor hgoes => ?_
  have hown : c.own = upper := hstands.own_eq
  rw [hown] at hgoes
  exact hU.deliver (c := c.inFlight e' message') rfl (hU.turn hgoes (List.Subset.refl _) rfl rfl)
    hstands.level hstands.chain hd

/-- Frames that are pushed are new to all passes. -/
theorem Laws.push (h : U.Holds c) (hstands : Stands c upper below born) {j : Frame}
    (hframes : c'.frames = c.frames.push j) (hsuspended : c'.suspended = c.suspended)
    (hground : c'.ground = c.ground) (hgoes : ∀ floor, U.Goes floor c'.frameAt c.context upper →
      U.Goes floor c'.frameAt c'.context c'.own) : U.Holds c' := by
  have hold : ∀ f, f < c.frames.size → c'.frameAt f = c.frameAt f :=
    fun f hf => frameAt_push_of_lt hf j hframes
  obtain ⟨⟨floor, hfloor, hhere⟩, hlower⟩ := h
  rw [hstands.own_eq] at hhere
  refine ⟨⟨floor, hsuspended ▸ hfloor, hgoes floor (hU.congr hhere fun g hg => ?_)⟩, ?_⟩
  · exact hold g (hstands.level.younger g hg).2
  · rw [hsuspended, hground, hstands.ground_eq]
    rw [hstands.ground_eq] at hlower
    exact hlower.imp hstands.lower fun floor x fs hfs hgoes => hU.congr hgoes fun g hg =>
      hold g (Nat.lt_of_lt_of_le (hfs g hg) hstands.le_size)

theorem Laws.called (h : U.Holds c) (hc : Sound c) {base : Int64} (code : Code)
    (targetClass : Option ClassId) (henters : U.Enters c.frames.size base) :
    U.Holds (c.call base code targetClass) := by
  have hmove : c.Move .nop .same (c.call base code targetClass) :=
    .call rfl (.deed (.called base code targetClass rfl))
  have hground := hc.ground_move hmove
  obtain ⟨⟨upper, below, born, hstands⟩, -⟩ := hc
  refine hU.push h hstands rfl rfl hground fun floor hgoes => ?_
  have hown : (c.call base code targetClass).own = c.frames.size :: upper := by
    have hne : c.context.entry ≠ some c.frames.size := hstands.level.entry_ne hstands.le_size
    have hcons : (c.call base code targetClass).own = c.frames.size :: c.own :=
      List.takeWhile_cons_of_pos (bne_iff_ne.2 hne)
    rw [hcons, hstands.own_eq]
  have hnew : (c.call base code targetClass).frameAt c.frames.size =
      c.saved .call c.context.pc none := frameAt_push_size _ rfl
  rw [hown]
  refine hU.call hgoes (by rw [hnew]; rfl) (by rw [hnew]; rfl) (fun g hg => ?_) rfl rfl henters
  have hyoung := hstands.level.younger g (List.mem_append_right _ hg)
  have hat : (c.call base code targetClass).frameAt g = c.frameAt g :=
    frameAt_push_of_lt hyoung.2 _ rfl
  rw [hat]
  have hlead := hstands.level.leading g (List.mem_append_right _ hg) (hstands.level.marked g hg)
  exact hstands.level.ne_of_leading hlead hstands.le_size (Nat.le_of_lt hyoung.2)

/-- A marker that is pushed leads back to the top of the chain, in the running window. -/
theorem Laws.marked (h : U.Holds c) (hc : Sound c) (tag : FrameTag) (pc : Int64)
    (hbears : U.Bears c.frameAt c.own) : U.Holds (c.mark tag pc) := by
  obtain ⟨⟨upper, below, born, hstands⟩, -⟩ := hc
  rw [hstands.own_eq] at hbears
  refine hU.push h hstands rfl rfl rfl fun floor hgoes => ?_
  have hown : (c.mark tag pc).own = upper := hstands.own_eq
  have hnew : (c.mark tag pc).frameAt c.frames.size = c.saved tag pc c.chain.head? :=
    frameAt_push_size _ rfl
  have hdepth : ((c.mark tag pc).frameAt c.frames.size).depth = upper.head?.or c.context.entry := by
    rw [hnew, ← hstands.level.entry, ← List.head?_append, ← hstands.chain]
    rfl
  rw [hown]
  refine hU.mark hgoes hdepth (by rw [hnew]; rfl) (fun gs hgs hhead => ?_) ?_ rfl rfl rfl
  · exact hstands.level.eq_of_head? hgs (hhead.trans hdepth)
  · exact hU.bears hbears fun g hg =>
      frameAt_push_of_lt (hstands.level.younger g (List.mem_append_left _ hg)).2 _ rfl

theorem Laws.resumeTop (h : U.Holds c) (hc : Sound c) (htop : c.topMarker? = some f)
    (hr : { c with chain := c.chain.tail }.resume f = some c') : U.Holds c' := by
  have hground := hc.ground_resumeTop htop hr
  have hsame := resume_samePass hr
  obtain ⟨⟨upper, below, born, hstands⟩, -⟩ := hc
  obtain ⟨us, rfl, hmarker⟩ := hstands.cons_of_top htop
  refine h.step ⟨hsame.frames, hsame.suspended, hsame.entry⟩ hground fun floor hgoes => ?_
  rw [hstands.own_eq] at hgoes
  obtain ⟨h₁, hback⟩ := hU.shed (hU.unwinds hgoes) hmarker
  have htail : c.chain.tail = us ++ below := by
    rw [hstands.chain]
    rfl
  exact hU.resume (c := { c with chain := c.chain.tail }) rfl h₁
    (hstands.level.shrink (List.suffix_cons f us) (List.suffix_refl _) rfl) htail
    (hstands.level.leading f List.mem_cons_self hmarker) hback hr

theorem Laws.returned (h : U.Holds c) (hc : Sound c) {rest : List FrameId}
    (hchain : c.chain = f :: rest) (hentry : c.chain.head? ≠ c.context.entry)
    (htop : c.topMarker? = none) : U.Holds (c.pop f rest) := by
  obtain ⟨⟨upper, below, born, hstands⟩, -⟩ := hc
  obtain ⟨us, rfl, rfl⟩ := hstands.cons_of_chain hchain hentry
  have hsame : SamePass c (c.pop f (us ++ below)) := pop_samePass
  have hstands' := hstands.step hsame rfl
    (hstands.level.shrink (List.suffix_cons f us) pop_markers hsame.entry)
  refine h.step hsame ?_ fun floor hgoes => ?_
  · rw [hstands'.ground_eq, hstands.ground_eq]
  · rw [hstands.own_eq] at hgoes
    rw [hstands'.own_eq]
    exact hU.back rfl hgoes hstands.level (hstands.isMarker_of_top htop)

/-- Every instruction that stays in its pass. -/
theorem Laws.move {op : Opcode} (h : U.Holds c) (hc : Sound c) (hm : c.Move op .same c')
    (hcall : ∀ base code targetClass, c' = c.call base code targetClass →
      U.Enters c.frames.size base)
    (hpush : op = .pushRescue ∨ op = .pushEnsure → U.Bears c.frameAt c.own) : U.Holds c' := by
  cases hm with
  | call hop hcalled =>
    cases hcalled with
    | deed hd =>
      rcases hd with rfl | ⟨base, code, targetClass, rfl⟩ | ⟨e, message, hr⟩
      · exact h
      · exact hU.called h hc code targetClass (hcall base code targetClass rfl)
      · exact hU.raise h hc hr
  | protect tag pc htag =>
    refine hU.marked h hc tag pc (hpush ?_)
    split
    · exact .inl rfl
    · exact .inr rfl
  | unprotect n => exact hU.keep h ⟨rfl, rfl, rfl⟩ rfl (List.drop_subset n _) rfl
  | resume htop hr => exact hU.resumeTop h hc htop hr
  | back htop _ hne hchain => exact hU.returned h hc hchain hne htop
  | _ => exact hU.keep h ⟨rfl, rfl, rfl⟩ rfl (List.Subset.refl _) rfl

/-- A constructor pass begins, and the pass that called it waits. -/
theorem Laws.enter (h : U.Holds c) (made : Value) (v : Window) (duties : List Duty)
    (base argc : Int64) (hx : x.bare = c.context) :
    U.Holds (c.enter (.construct x made v :: duties) base argc) := by
  have hmarkers : x.markers = c.context.markers := hx ▸ rfl
  have hentry : x.entry = c.context.entry := hx ▸ rfl
  have hbase : x.base = c.context.base := hx ▸ rfl
  have hground : (c.enter (.construct x made v :: duties) base argc).ground = c.chain :=
    reach_head? c.chain
  have hown : (c.enter (.construct x made v :: duties) base argc).own = [] := takeWhile_head? rfl
  refine ⟨⟨base, nofun, ?_⟩, ?_⟩
  · rw [hown]
    exact hU.begin (x := (c.enter (.construct x made v :: duties) base argc).context) rfl
  · rw [hground]
    refine ⟨fun x' made' v' duties' heq => ?_, h.lower⟩
    simp only [Suspension.mk.injEq, List.cons.injEq, Duty.construct.injEq] at heq
    obtain ⟨-, ⟨rfl, -, -⟩, -⟩ := heq
    obtain ⟨floor, hfloor, hgoes⟩ := h.here
    refine ⟨floor, hfloor, ?_⟩
    rw [hentry]
    exact hU.turn hgoes (hmarkers ▸ List.Subset.refl _) hentry hbase

end Upkeep

end Control

end ObjectMachine
