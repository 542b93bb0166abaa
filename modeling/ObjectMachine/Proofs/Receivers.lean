import ObjectMachine.Proofs.Scopes
import ObjectMachine.Proofs.Windows

/-! Blocks see the scope they were written in. A block takes its receiver from the window that it
was made in, or from where the block running there takes its own, and so on through windows of
calls that are still on the chain. There are no more of these than calls, so the limit on the
number of hops is only reached in a circle. As long as the call that made a block goes on, all
of these windows are what they were, and the block finds the same receiver, variables and block
argument from wherever it is called. -/

namespace ObjectMachine

namespace Machine

variable {a m n m' : Machine} {owned held : List Value} {running : Bool} {f : FrameId} {p q : Closure}
  {r : Ref} {v s : Value} {w : Int64} {hops more : Nat} {vs ws : List Int64}

/-! ### The way to the receiver -/

/-- The closure of the block that runs in the window at `w`. -/
def blockAt (m : Machine) (w : Int64) : Option Closure := (entryAt? m.regs w).bind m.proc?

/-- What `R(0)` of the window at `w` holds, with its closure if it is a block. -/
def occupant (m : Machine) (w : Int64) : Option (Value × Option Closure) :=
  (entryAt? m.regs w).map fun v => (v, m.proc? v)

/-- The window in which a block that runs at `w` looks for its receiver. -/
def selfScope (m : Machine) (w : Int64) : Option Int64 :=
  (m.blockAt w).map fun p => m.frameWindow p.2.2

/-- The window that holds the receiver of the one at `w`, or 0 when it is too many hops away. -/
def receiverWindow (m : Machine) : (hops : Nat) → Int64 → Int64
  | 0, w => (m.selfScope w).elim w fun _ => 0
  | hops + 1, w => (m.selfScope w).elim w (m.receiverWindow hops)

def trail (m : Machine) : (hops : Nat) → Int64 → List Int64
  | 0, w => w :: (m.selfScope w).elim [] fun _ => [0]
  | hops + 1, w => w :: (m.selfScope w).elim [] (m.trail hops)

/-- The windows whose `R(0)` is read for the receiver of the running code. -/
def selfWindows (m : Machine) : List Int64 := m.trail (m.depth + 1).toNat m.context.base

theorem reg_iff {i : Int64} : reg i m = .ok v m ↔ entryAt? m.regs i = some v := by
  refine ⟨fun h => ?_, reg_ok⟩
  have hreg : Leads AnyFault (reg i) m fun u _ => entryAt? m.regs i = some u :=
    (reg_leads fun u hu => hu).forget
  exact hreg.of_ok h

theorem receiverWindow_of_none (h : m.selfScope w = none) : m.receiverWindow hops w = w := by
  cases hops <;> rw [receiverWindow, h] <;> rfl

theorem receiverWindow_zero {w' : Int64} (h : m.selfScope w = some w') :
    m.receiverWindow 0 w = 0 := by
  rw [receiverWindow, h]
  rfl

theorem receiverWindow_succ {w' : Int64} (h : m.selfScope w = some w') :
    m.receiverWindow (hops + 1) w = m.receiverWindow hops w' := by
  rw [receiverWindow, h]
  rfl

theorem trail_of_none (h : m.selfScope w = none) : m.trail hops w = [w] := by
  cases hops <;> rw [trail, h] <;> rfl

theorem trail_zero {w' : Int64} (h : m.selfScope w = some w') : m.trail 0 w = [w, 0] := by
  rw [trail, h]
  rfl

theorem trail_succ {w' : Int64} (h : m.selfScope w = some w') :
    m.trail (hops + 1) w = w :: m.trail hops w' := by
  rw [trail, h]
  rfl

theorem mem_trail_self : w ∈ m.trail hops w := by
  cases hops <;> exact List.mem_cons_self

/-- The way through a window that a block runs in and one hop away. -/
theorem walk_induction {motive : Nat → Int64 → Prop}
    (found : ∀ hops w, m.selfScope w = none → motive hops w)
    (limit : ∀ w w', m.selfScope w = some w' → motive 0 w)
    (hop : ∀ hops w w', m.selfScope w = some w' → motive hops w' → motive (hops + 1) w)
    (hops : Nat) (w : Int64) : motive hops w := by
  induction hops generalizing w with
  | zero =>
    cases h : m.selfScope w with
    | none => exact found 0 w h
    | some w' => exact limit w w' h
  | succ hops ih =>
    cases h : m.selfScope w with
    | none => exact found (hops + 1) w h
    | some w' => exact hop hops w w' h (ih w')

theorem receiverWindow_mem : m.receiverWindow hops w ∈ m.trail hops w := by
  induction hops, w using walk_induction (m := m) with
  | found hops w h => simp [receiverWindow_of_none h, trail_of_none h]
  | limit w w' h => simp [receiverWindow_zero h, trail_zero h]
  | hop hops w w' h ih =>
    rw [receiverWindow_succ h, trail_succ h]
    exact List.mem_cons_of_mem w ih

theorem selfScope_of_reg (h : entryAt? m.regs w = some v) :
    m.selfScope w = (m.proc? v).map fun p => m.frameWindow p.2.2 := by
  rw [selfScope, blockAt, h, Option.bind_some]

theorem reg_followSelf_iff (h : ∀ v, entryAt? m.regs w = some v →
      (followSelf hops v m = .ok s m ↔ entryAt? m.regs (m.receiverWindow hops w) = some s)) :
    (reg w >>= followSelf hops) m = .ok s m ↔
      entryAt? m.regs (m.receiverWindow hops w) = some s := by
  cases hv : entryAt? m.regs w with
  | none =>
    have hscope : m.selfScope w = none := by
      rw [selfScope, blockAt, hv]
      rfl
    rw [receiverWindow_of_none hscope, hv]
    refine iff_of_false (fun hok => ?_) (Option.some_ne_none s).symm
    have hfaults : Leads AnyFault (reg w >>= followSelf hops) m fun _ _ => False := by
      rw [Leads.bind_eq]
      refine (reg_leads fun u hu => ?_).forget
      cases hv.symm.trans hu
    exact hfaults.of_ok hok
  | some v =>
    have hbind : (reg w >>= followSelf hops) m = followSelf hops v m := by
      change EStateM.bind _ _ m = _
      rw [EStateM.bind, reg_ok hv]
    rw [hbind]
    exact h v hv

/-- A block takes its receiver from where the way ends. -/
theorem followSelf_iff (h : entryAt? m.regs w = some v) :
    followSelf hops v m = .ok s m ↔ entryAt? m.regs (m.receiverWindow hops w) = some s := by
  induction hops, w using walk_induction (m := m) generalizing v with
  | found hops w hscope =>
    have hp : m.proc? v = none := by simpa [selfScope_of_reg h] using hscope
    have hself : followSelf hops v m = .ok v m := by
      apply Leads.eq_ok
      rw [followSelf.eq_def]
      simp only [Leads.bind_eq, Leads.get_eq, hp, Leads.pure_eq, and_self]
    rw [hself, receiverWindow_of_none hscope, h]
    simp
  | limit w w' hscope =>
    obtain ⟨⟨code, frame, g⟩, hp, -⟩ :=
      Option.map_eq_some_iff.1 ((selfScope_of_reg h).symm.trans hscope)
    have hself : followSelf 0 v m = reg 0 m := by
      conv_lhs => rw [followSelf.eq_def]
      simp only [bind, EStateM.bind, get, getThe, MonadStateOf.get, EStateM.get, hp]
    rw [hself, receiverWindow_zero hscope, reg_iff]
  | hop hops w w' hscope ih =>
    obtain ⟨⟨code, frame, g⟩, hp, rfl⟩ :=
      Option.map_eq_some_iff.1 ((selfScope_of_reg h).symm.trans hscope)
    have hself : followSelf (hops + 1) v m = (reg (m.frameWindow g) >>= followSelf hops) m := by
      conv_lhs => rw [followSelf.eq_def]
      simp only [bind, EStateM.bind, get, getThe, MonadStateOf.get, EStateM.get, hp]
    rw [hself, receiverWindow_succ hscope]
    exact reg_followSelf_iff fun v => ih

theorem self_iff : self m = .ok s m ↔
    entryAt? m.regs (m.receiverWindow (m.depth + 1).toNat m.context.base) = some s :=
  reg_followSelf_iff fun _ => followSelf_iff

theorem reg_of_self (h : self m = .ok s m) : ∃ v, entryAt? m.regs m.context.base = some v := by
  cases hv : entryAt? m.regs m.context.base with
  | some v => exact ⟨v, rfl⟩
  | none =>
    have hscope : m.selfScope m.context.base = none := by
      rw [selfScope, blockAt, hv]
      rfl
    rw [self_iff, receiverWindow_of_none hscope, hv] at h
    cases h

/-- Outside blocks the receiver is at hand. -/
theorem self_of_plain (hv : entryAt? m.regs m.context.base = some v) (hp : m.proc? v = none) :
    self m = .ok v m ∧ m.selfWindows = [m.context.base] := by
  have hscope : m.selfScope m.context.base = none := by
    rw [selfScope, blockAt, hv, Option.bind_some, hp]
    rfl
  refine ⟨self_iff.2 ?_, trail_of_none hscope⟩
  rw [receiverWindow_of_none hscope]
  exact hv

/-! ### The limit on the number of hops -/

theorem trail_circle (hops : Nat) (hcircle : ∀ x ∈ vs, ∃ y ∈ vs, m.selfScope x = some y) (hw : w ∈ vs) :
    m.receiverWindow hops w = 0 ∧ m.trail hops w ⊆ vs ++ [0] ∧ 0 ∈ m.trail hops w := by
  induction hops generalizing w with
  | zero =>
    obtain ⟨y, -, hy⟩ := hcircle w hw
    rw [receiverWindow_zero hy, trail_zero hy]
    refine ⟨rfl, fun x hx => ?_, by simp⟩
    rcases List.mem_cons.1 hx with rfl | hx
    · exact List.mem_append_left _ hw
    · exact List.mem_append_right _ hx
  | succ hops ih =>
    obtain ⟨y, hmem, hy⟩ := hcircle w hw
    obtain ⟨hwindow, hsub, hzero⟩ := ih hmem
    rw [receiverWindow_succ hy, trail_succ hy]
    refine ⟨hwindow, fun x hx => ?_, List.mem_cons_of_mem w hzero⟩
    rcases List.mem_cons.1 hx with rfl | hx
    · exact List.mem_append_left _ hw
    · exact hsub hx

/-- In a circle more hops lead no further. -/
theorem trail_circle_stable (hcircle : ∀ x ∈ vs, ∃ y ∈ vs, m.selfScope x = some y) (hw : w ∈ vs)
    (hops more : Nat) : m.receiverWindow more w = m.receiverWindow hops w ∧
      m.trail more w ⊆ vs ++ m.trail hops w := by
  obtain ⟨hwindow, -, hzero⟩ := trail_circle hops hcircle hw
  obtain ⟨hwindow', hsub', -⟩ := trail_circle more hcircle hw
  refine ⟨hwindow'.trans hwindow.symm, fun x hx => ?_⟩
  rcases List.mem_append.1 (hsub' hx) with hx | hx
  · exact List.mem_append_left _ hx
  · rw [List.mem_singleton.1 hx]
    exact List.mem_append_right _ hzero

/-- The windows `vs` lead on to `w` and through each other. -/
def LeadTo (m : Machine) (vs : List Int64) (w : Int64) : Prop :=
  ∀ x ∈ vs, ∃ y, m.selfScope x = some y ∧ (y = w ∨ y ∈ vs)

theorem LeadTo.circle (h : m.LeadTo vs w) (hw : w ∈ vs) : ∀ x ∈ vs, ∃ y ∈ vs, m.selfScope x = some y := by
  intro x hx
  obtain ⟨y, hy, rfl | hmem⟩ := h x hx
  · exact ⟨y, hw, hy⟩
  · exact ⟨y, hmem, hy⟩

theorem LeadTo.cons {w' : Int64} (h : m.LeadTo vs w) (hw : m.selfScope w = some w') :
    m.LeadTo (w :: vs) w' := by
  intro x hx
  rcases List.mem_cons.1 hx with rfl | hx
  · exact ⟨w', hw, .inl rfl⟩
  · obtain ⟨y, hy, rfl | hmem⟩ := h x hx
    · exact ⟨y, hy, .inr List.mem_cons_self⟩
    · exact ⟨y, hy, .inr (List.mem_cons_of_mem w hmem)⟩

/-- Windows through which a way leads to `w`. If there are no more other windows behind `w` than
hops are left, more hops lead no further. -/
theorem LeadTo.trail_stable (h : m.LeadTo vs w) (hdistinct : vs.Nodup) (hvs : vs ⊆ ws) (hw : w ∈ ws)
    (hclosed : ∀ x ∈ m.trail hops w, ∀ y, m.selfScope x = some y → y ∈ ws)
    (hlength : ws.length ≤ vs.length + hops + 1) (hle : hops ≤ more) :
    m.receiverWindow more w = m.receiverWindow hops w ∧
      m.trail more w ⊆ vs ++ m.trail hops w := by
  induction hops, w using walk_induction (m := m) generalizing vs more with
  | found hops w hscope =>
    rw [receiverWindow_of_none hscope, receiverWindow_of_none hscope, trail_of_none hscope,
      trail_of_none hscope]
    exact ⟨rfl, List.subset_append_right _ _⟩
  | limit w w' hscope =>
    by_cases hagain : w ∈ vs
    · exact trail_circle_stable (h.circle hagain) hagain _ more
    -- All windows have been visited, so the next one is among them.
    have hall : ws.Perm (w :: vs) := by
      have hsub := List.subperm_of_subset (List.nodup_cons.2 ⟨hagain, hdistinct⟩)
        (List.cons_subset.2 ⟨hw, hvs⟩)
      exact (hsub.perm_of_length_le (by simpa using hlength)).symm
    have hback : w' ∈ w :: vs := hall.subset (hclosed w mem_trail_self w' hscope)
    have hcircle : ∀ x ∈ w :: vs, ∃ y ∈ w :: vs, m.selfScope x = some y := (h.cons hscope).circle hback
    obtain ⟨hwindow, hsub⟩ := trail_circle_stable hcircle List.mem_cons_self 0 more
    refine ⟨hwindow, fun x hx => ?_⟩
    rcases List.mem_cons.1 (hsub hx) with rfl | hx
    · exact List.mem_append_right _ mem_trail_self
    · exact hx
  | hop hops w w' hscope ih =>
    by_cases hagain : w ∈ vs
    · exact trail_circle_stable (h.circle hagain) hagain _ more
    obtain ⟨more, rfl⟩ : ∃ n, more = n + 1 := ⟨more - 1, by omega⟩
    have hclosed' : ∀ x ∈ m.trail hops w', ∀ y, m.selfScope x = some y → y ∈ ws := fun x hx =>
      hclosed x (trail_succ hscope ▸ List.mem_cons_of_mem w hx)
    obtain ⟨hwindow, hsub⟩ := ih (h.cons hscope) (List.nodup_cons.2 ⟨hagain, hdistinct⟩)
      (List.cons_subset.2 ⟨hw, hvs⟩) (hclosed w mem_trail_self w' hscope) hclosed'
      (by rw [List.length_cons]; omega) (show hops ≤ more by omega)
    rw [receiverWindow_succ hscope, receiverWindow_succ hscope, trail_succ hscope, trail_succ hscope]
    refine ⟨hwindow, List.cons_subset.2 ⟨?_, fun x hx => ?_⟩⟩
    · exact List.mem_append_right _ List.mem_cons_self
    · rcases List.mem_cons.1 (hsub hx) with rfl | hx
      · exact List.mem_append_right _ List.mem_cons_self
      · rcases List.mem_append.1 hx with hx | hx
        · exact List.mem_append_left _ hx
        · exact List.mem_append_right _ (List.mem_cons_of_mem w hx)

/-! ### Scopes that go on -/

def OfCall (m : Machine) (g : Option FrameId) : Prop :=
  ∀ f, g = some f → (m.frameAt f).freed = false → (m.frameAt f).isMarker = false

def callWindows (m : Machine) : List Int64 :=
  0 :: (m.chain.filter fun f => !(m.frameAt f).isMarker).map m.windowAt

theorem length_callWindows : m.callWindows.length = m.callCount m.chain + 1 := by
  rw [callWindows, List.length_cons, List.length_map, ← List.countP_eq_length_filter]
  rfl

/-- Blocks that refer to calls look for their receivers in windows of calls. -/
theorem Anchored.selfScope_mem (h : m.Anchored) (hcall : ∀ q, m.blockAt w = some q → m.OfCall q.2.2)
    {w' : Int64} (hw : m.selfScope w = some w') : w' ∈ m.callWindows := by
  obtain ⟨⟨code, frame, g⟩, hq, rfl⟩ := Option.map_eq_some_iff.1 hw
  obtain ⟨v, -, hv⟩ := Option.bind_eq_some_iff.1 hq
  obtain ⟨r, -, hr⟩ := proc?_eq_some hv
  cases g with
  | none => exact List.mem_cons_self
  | some f =>
    rw [frameWindow]
    split
    · exact List.mem_cons_self
    · next hlive =>
      have hmem : f ∈ m.chain := (h r _ f hr (.inr rfl)).2.resolve_right hlive
      have hcall := hcall _ hq f rfl (by simpa using hlive)
      refine List.mem_cons_of_mem 0 (List.mem_map.2 ⟨f, List.mem_filter.2 ⟨hmem, ?_⟩, rfl⟩)
      rw [hcall]
      rfl

theorem trail_congr (h : ∀ x ∈ m.trail hops w, n.selfScope x = m.selfScope x) :
    n.trail hops w = m.trail hops w ∧ n.receiverWindow hops w = m.receiverWindow hops w := by
  have hw : n.selfScope w = m.selfScope w := h w mem_trail_self
  induction hops, w using walk_induction (m := m) with
  | found hops w hscope =>
    have hscope' := hw.trans hscope
    rw [trail_of_none hscope, trail_of_none hscope', receiverWindow_of_none hscope,
      receiverWindow_of_none hscope']
    exact ⟨rfl, rfl⟩
  | limit w w' hscope =>
    have hscope' := hw.trans hscope
    rw [trail_zero hscope, trail_zero hscope', receiverWindow_zero hscope, receiverWindow_zero hscope']
    exact ⟨rfl, rfl⟩
  | hop hops w w' hscope ih =>
    have hscope' := hw.trans hscope
    have hrest : ∀ x ∈ m.trail hops w', n.selfScope x = m.selfScope x := fun x hx =>
      h x (trail_succ hscope ▸ List.mem_cons_of_mem w hx)
    obtain ⟨htrail, hwindow⟩ := ih hrest (hrest w' mem_trail_self)
    rw [trail_succ hscope, trail_succ hscope', receiverWindow_succ hscope, receiverWindow_succ hscope',
      htrail, hwindow]
    exact ⟨rfl, rfl⟩

/-- As long as its top stays, the whole chain stays. -/
theorem Follows.chain_suffix (h : Follows a n) (ha : a.Tidy) (hn : n.Tidy)
    (hlive : ∀ f, a.chain.head? = some f → f ∈ n.chain) : a.chain <:+ n.chain := by
  obtain ⟨kept, hbelow, habove, hshed⟩ := h.sheds.kept
  cases hchain : a.chain with
  | nil => exact List.nil_suffix
  | cons f rest =>
    have hf : f ∈ a.chain := by simp [hchain]
    have hfree : (n.frameAt f).freed = false := by
      refine hn.listed.unfreed f ?_
      simp [nodes, hlive f (by rw [hchain]; rfl)]
    have hmem : f ∈ kept := (hshed f hf (ha.chain_lt f hf)).resolve_right (by simp [hfree])
    have hdistinct := ha.chain_nodup
    rw [hchain] at hbelow hdistinct
    rcases List.suffix_cons_iff.1 hbelow with rfl | hrest
    · exact habove
    · exact absurd (hrest.subset hmem) (List.nodup_cons.1 hdistinct).1

/-- A frame is where it was. -/
theorem Follows.frameAt (h : Follows a n) (ha : a.Tidy) (hn : n.Tidy) (hchain : a.chain <:+ n.chain)
    (hf : f ∈ a.chain) : n.frameAt f = a.frameAt f := by
  have hfree : (n.frameAt f).freed = false := hn.listed.unfreed f (by simp [nodes, hchain.subset hf])
  rcases h.lasting.old f (ha.chain_lt f hf) with heq | heq
  · exact heq
  · rw [heq] at hfree
    cases hfree

theorem Follows.frameWindow (h : Follows a n) (ha : a.Tidy) (hn : n.Tidy)
    (hchain : a.chain <:+ n.chain) {g : Option FrameId}
    (hg : ∀ f, g = some f → f < a.frames.size ∧ (f ∈ a.chain ∨ (a.frameAt f).freed)) :
    n.frameWindow g = a.frameWindow g := by
  cases g with
  | none => rfl
  | some f =>
    obtain ⟨hlt, hmem | hfreed⟩ := hg f rfl
    · simp only [Machine.frameWindow, h.frameAt ha hn hchain hmem]
    · simp only [Machine.frameWindow, hfreed, h.sheds.freed f hlt hfreed, if_true]

/-- A window that holds what it held leads where it led. -/
theorem Follows.selfScope (h : Follows a n) (ha : a.Tidy) (hn : n.Tidy)
    (hchain : a.chain <:+ n.chain) (hanchored : a.Anchored) (hw : n.occupant w = a.occupant w) :
    n.selfScope w = a.selfScope w := by
  have hblock : n.blockAt w = a.blockAt w := by
    have heq : ∀ m : Machine, m.blockAt w = (m.occupant w).bind (·.2) := by
      intro m
      rw [blockAt, occupant]
      cases entryAt? m.regs w <;> rfl
    rw [heq, heq, hw]
  rw [Machine.selfScope, hblock, Machine.selfScope]
  cases hq : a.blockAt w with
  | none => rfl
  | some q =>
    obtain ⟨v, -, hv⟩ := Option.bind_eq_some_iff.1 hq
    obtain ⟨r, -, hr⟩ := proc?_eq_some hv
    exact congrArg some (h.frameWindow ha hn hchain fun f hf => hanchored r q f hr (.inr hf))

theorem hops_eq (h : Reachable running owned m) :
    (m.depth + 1).toNat = m.callCount m.chain + 1 := by
  rw [h.sane.ledger.depth]
  omega

theorem Follows.callCount_le (h : Follows a n) (ha : a.Tidy) (hn : n.Tidy)
    (hchain : a.chain <:+ n.chain) : a.callCount a.chain ≤ n.callCount n.chain := by
  have hsame : n.callCount a.chain = a.callCount a.chain :=
    List.countP_congr fun f hf => by rw [h.frameAt ha hn hchain hf]
  rw [← hsame]
  exact hchain.sublist.countP_le

/-- A block that is called finds the receiver of the code that made it. -/
theorem Follows.self_eq (h : Follows a n) (ha : Reachable true held a)
    (hn : Reachable running owned n) (hchain : a.chain <:+ n.chain)
    (htop : a.frameWindow a.chain.head? = a.context.base)
    (hcall : ∀ w ∈ a.selfWindows, ∀ q, a.blockAt w = some q → a.OfCall q.2.2)
    (hkept : ∀ w ∈ a.selfWindows, n.occupant w = a.occupant w) {code : Code}
    (hblock : n.blockAt n.context.base = some (a.closureOver code)) (hself : self a = .ok s a) :
    self n = .ok s n := by
  have hta := tidy_invariant.reachable ha
  have htn := tidy_invariant.reachable hn
  have hanchored := Machine.Reachable.anchored ha
  have hscope : ∀ w ∈ a.selfWindows, n.selfScope w = a.selfScope w := fun w hw =>
    h.selfScope hta htn hchain hanchored (hkept w hw)
  have hreg : ∀ w ∈ a.selfWindows, entryAt? n.regs w = entryAt? a.regs w := by
    intro w hw
    have heq := congrArg (Option.map (·.1)) (hkept w hw)
    simpa only [occupant, Option.map_map, Function.comp_def, Option.map_id'] using heq
  have hnext : n.selfScope n.context.base = some (n.frameWindow (a.closureOver code).2.2) := by
    rw [Machine.selfScope, hblock]
    rfl
  rw [self_iff, hops_eq ha] at hself
  rw [self_iff, hops_eq hn, receiverWindow_succ hnext]
  rw [selfWindows, hops_eq ha] at hkept hcall hscope hreg
  cases hq : a.blockAt a.context.base with
  | none =>
    -- The code that made the block is no block.
    have hscope₀ : a.selfScope a.context.base = none := by rw [Machine.selfScope, hq]; rfl
    have hframe : (a.closureOver code).2.2 = a.chain.head? := by
      rw [blockAt] at hq
      simp only [closureOver, hq]
    have hwindow : n.frameWindow a.chain.head? = a.context.base := by
      rw [← htop]
      refine h.frameWindow hta htn hchain fun f hf => ?_
      have hmem := List.mem_of_head? hf
      exact ⟨hta.chain_lt f hmem, .inl hmem⟩
    rw [receiverWindow_of_none hscope₀] at hself
    rw [hframe, hwindow, receiverWindow_of_none ((hscope _ mem_trail_self).trans hscope₀),
      hreg _ mem_trail_self]
    exact hself
  | some q =>
    obtain ⟨qcode, qframe, g⟩ := q
    have hscope₀ : a.selfScope a.context.base = some (a.frameWindow g) := by
      rw [Machine.selfScope, hq]
      rfl
    have hframe : (a.closureOver code).2.2 = g := by
      rw [blockAt] at hq
      simp only [closureOver, hq]
    have hwindow : n.frameWindow g = a.frameWindow g := by
      obtain ⟨v, -, hv⟩ := Option.bind_eq_some_iff.1 hq
      obtain ⟨r, -, hr⟩ := proc?_eq_some hv
      exact h.frameWindow hta htn hchain fun f hf => hanchored r _ f hr (.inr hf)
    rw [trail_succ hscope₀] at hkept hcall hscope hreg
    rw [receiverWindow_succ hscope₀] at hself
    rw [hframe, hwindow]
    have hclosed : ∀ x ∈ a.trail (a.callCount a.chain) (a.frameWindow g), ∀ y,
        a.selfScope x = some y → y ∈ a.callWindows := fun x hx y hy =>
      hanchored.selfScope_mem (hcall x (List.mem_cons_of_mem _ hx)) hy
    have hfirst := hanchored.selfScope_mem (hcall a.context.base List.mem_cons_self) hscope₀
    have hnone : a.LeadTo [] (a.frameWindow g) := by simp [LeadTo]
    obtain ⟨hmore, hsub⟩ := hnone.trail_stable List.nodup_nil (List.nil_subset _)
      hfirst hclosed (by rw [length_callWindows]; simp) (h.callCount_le hta htn hchain)
    rw [List.nil_append] at hsub
    obtain ⟨-, hsame⟩ := trail_congr (m := a) (n := n) fun x hx =>
      hscope x (List.mem_cons_of_mem _ (hsub hx))
    rw [hsame, hmore, hreg _ (List.mem_cons_of_mem _ receiverWindow_mem)]
    exact hself

/-- Its variables are those of the window of the code that made it. -/
theorem Follows.outerBase_eq (h : Follows a n) (ha : a.Tidy) (hn : n.Tidy)
    (hchain : a.chain <:+ n.chain) (htop : a.frameWindow a.chain.head? = a.context.base)
    {code : Code} (hblock : n.blockAt n.context.base = some (a.closureOver code)) :
    outerBase 0 n = .ok (some a.context.base) n := by
  obtain ⟨v, hv, hp⟩ := Option.bind_eq_some_iff.1 hblock
  have hlive : (a.chain.head?.any fun f => (n.frameAt f).freed) = false := by
    refine Option.any_eq_false _ _ |>.2 fun f hf => ?_
    have hmem := hchain.subset (List.mem_of_head? hf)
    simp [hn.listed.unfreed f (by simp [nodes, hmem])]
  have hwindow : n.frameWindow a.chain.head? = a.context.base := by
    rw [← htop]
    refine h.frameWindow ha hn hchain fun f hf => ?_
    have hmem := List.mem_of_head? hf
    exact ⟨ha.chain_lt f hmem, .inl hmem⟩
  apply Leads.eq_ok
  simp only [outerBase, Leads.bind_eq, Leads.get_eq]
  refine .of_eq (reg_ok hv) ?_
  have hlevel : (0 : Int64).toUInt64.toNat = 0 := rfl
  rw [hlevel, scopeOf.eq_def]
  simp only [Leads.bind_eq, Leads.get_eq, hp, closureOver, hlive, Bool.false_eq_true, if_false,
    hwindow, Leads.pure_eq, and_self]

/-! ### The block argument -/

def passedBlock : Option FrameId → Action Bool
  | none => return false
  | some g => do
    let frame := (← get).frameAt g
    if frame.freed then return false
    return (← reg (frame.window + frame.nargs + 1)).isProc

structure AtTop (m : Machine) (f : FrameId) : Prop where
  head : m.chain.head? = some f
  call : (m.frameAt f).isMarker = false
  window : (m.frameAt f).window = m.context.base

theorem AtTop.blockGiven (h : m.AtTop f) (hv : entryAt? m.regs m.context.base = some v) :
    blockGiven m = match m.proc? v with
      | none => (reg (m.context.base + (m.frameAt f).nargs + 1) >>= fun u => pure u.isProc) m
      | some p => passedBlock p.2.2 m := by
  obtain ⟨rest, hchain⟩ := List.head?_eq_some_iff.1 h.head
  have hreg : reg (m.frameAt f).window m = .ok v m := reg_ok (h.window ▸ hv)
  rw [← h.window]
  simp only [Machine.blockGiven, bind, EStateM.bind, get, getThe, MonadStateOf.get, EStateM.get,
    hchain, h.call, Bool.false_eq_true, if_false, hreg]
  cases m.proc? v with
  | none => rfl
  | some p =>
    obtain ⟨code, frame, g⟩ := p
    cases g with
    | none => rfl
    | some g => simp only [passedBlock, bind, EStateM.bind, get, getThe, MonadStateOf.get, EStateM.get]

/-- In a block that is called, the question is whether the call it belongs to was passed one. -/
theorem AtTop.blockGiven_block (h : m.AtTop f) (hblock : m.blockAt m.context.base = some p) :
    Machine.blockGiven m = passedBlock p.2.2 m := by
  obtain ⟨v, hv, hp⟩ := Option.bind_eq_some_iff.1 hblock
  rw [h.blockGiven hv, hp]

theorem passedBlock_freed (hf : (m.frameAt f).freed) : passedBlock (some f) m = .ok false m := by
  simp only [passedBlock, bind, EStateM.bind, get, getThe, MonadStateOf.get, EStateM.get, hf, if_true]
  rfl

/-- The same is asked where the block is made. -/
theorem blockGiven_closureOver (ht : m.Tidy) (ha : m.Anchored)
    (htop : m.frameWindow m.chain.head? = m.context.base) (hcall : m.OfCall m.chain.head?)
    (hv : entryAt? m.regs m.context.base = some v) (code : Code) :
    blockGiven m = passedBlock (m.closureOver code).2.2 m := by
  have hover : (m.closureOver code).2.2 = match m.proc? v with
      | some p => p.2.2
      | none => m.chain.head? := by
    simp only [closureOver, hv, Option.bind_some]
    cases m.proc? v <;> rfl
  cases hhead : m.chain.head? with
  | none =>
    have hnil : m.chain = [] := List.head?_eq_none_iff.1 hhead
    have hno : blockGiven m = .ok false m := by
      simp only [blockGiven, bind, EStateM.bind, get, getThe, MonadStateOf.get, EStateM.get, hnil]
      rfl
    rw [hno, hover]
    cases hp : m.proc? v with
    | none =>
      rw [hhead]
      rfl
    | some p =>
      obtain ⟨code', frame, g⟩ := p
      obtain ⟨r, -, hr⟩ := proc?_eq_some hp
      cases g with
      | none => rfl
      | some g =>
        have hfreed := (ha r _ g hr (.inr rfl)).2.resolve_left (by simp [hnil])
        exact (passedBlock_freed hfreed).symm
  | some f =>
    have hmem : f ∈ m.chain := List.mem_of_head? hhead
    have hlive : (m.frameAt f).freed = false := ht.listed.unfreed f (by simp [nodes, hmem])
    have hat : m.AtTop f := by
      refine ⟨hhead, hcall f hhead hlive, ?_⟩
      rw [hhead, frameWindow, hlive] at htop
      exact htop
    rw [hat.blockGiven hv, hover]
    cases hp : m.proc? v with
    | none =>
      rw [hhead]
      simp only [passedBlock, bind, EStateM.bind, get, getThe, MonadStateOf.get, EStateM.get, hlive,
        Bool.false_eq_true, if_false, hat.window]
    | some p => rfl

end Machine

end ObjectMachine
