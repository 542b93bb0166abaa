import ObjectMachine.Proofs.Later

/-! Outer scopes are those of calls that go on. A block refers to the frame that was on top where
it was made, and level by level an outer variable is looked up in the windows of such frames. The
lookup ends at a frame that has been freed, and every frame that has left the chain has been. So
it finds no register of a call that is over. -/

namespace ObjectMachine

namespace Machine

variable {a m m' : Machine} {owned held : List Value} {running : Bool} {f c : FrameId} {p : Closure}
  {r : Ref} {v : Value}

/-- The receiver of the window `level` scopes out from the block `v`, which is the block of the
next level if there is one. -/
def scopeBlock (m : Machine) : (level : Nat) → Value → Option Value
  | 0, v => some v
  | level + 1, v => do
    let (_, frame, _) ← m.proc? v
    m.scopeBlock level (← entryAt? m.regs (m.frameWindow frame))

/-- The block at a level, counted from the running one. -/
def levelBlock (m : Machine) (level : Nat) : Option Value := do
  m.scopeBlock level (← entryAt? m.regs m.context.base)

/-- A frame whose window is used is on the chain. -/
theorem Anchored.scopeOf (h : m.Anchored) (level : Nat) (v : Value) :
    Leads AnyFault (scopeOf level v) m fun b m' => m' = m ∧
      ∀ base, b = some base → base = 0 ∨ ∃ f ∈ m.chain, base = (m.frameAt f).window := by
  induction level generalizing v with
  | zero =>
    rw [Machine.scopeOf]
    simp only [Leads.bind_eq, Leads.get_eq]
    split
    · exact ⟨rfl, by simp⟩
    · next code frame selfFrame hproc =>
      obtain ⟨r, -, hr⟩ := proc?_eq_some hproc
      split
      · exact ⟨rfl, by simp⟩
      · next hfreed =>
        refine ⟨rfl, fun base hbase => ?_⟩
        obtain rfl := Option.some.inj hbase
        cases frame with
        | none => exact .inl rfl
        | some f =>
          have hlive : ¬(m.frameAt f).freed := by simpa using hfreed
          refine .inr ⟨f, (h r _ f hr (.inl rfl)).2.resolve_right hlive, ?_⟩
          rw [frameWindow, if_neg hlive]
  | succ level ih =>
    rw [Machine.scopeOf]
    simp only [Leads.bind_eq, Leads.get_eq]
    split
    · exact ⟨rfl, by simp⟩
    · split
      · exact ⟨rfl, by simp⟩
      · simp only [Leads.bind_eq]
        exact (reg_leads fun w _ => ih w).forget

theorem reg_ok {i : Int64} (h : entryAt? m.regs i = some v) : reg i m = .ok v m := by
  apply Leads.eq_ok
  simp only [reg, Leads.bind_eq, Leads.get_eq, h, present, Leads.pure_eq, and_self]

/-- The lookup does not get past a frame that has been freed. -/
theorem scopeOf_freed {level n : Nat} (hblock : m.scopeBlock n v = some (.proc r))
    (hr : m.memory.closure? r = some p) (hf : p.2.1 = some f) (hfreed : (m.frameAt f).freed)
    (hle : n ≤ level) : scopeOf level v m = .ok none m := by
  induction n generalizing v level with
  | zero =>
    obtain rfl := Option.some.inj hblock
    obtain ⟨code, frame, selfFrame⟩ := p
    obtain rfl : frame = some f := hf
    apply Leads.eq_ok
    rw [scopeOf.eq_def]
    simp only [Leads.bind_eq, Leads.get_eq, proc?_eq, hr, Option.any_some, hfreed, if_true,
      Leads.pure_eq, and_self]
  | succ n ih =>
    cases level with
    | zero => exact absurd hle (Nat.not_succ_le_zero n)
    | succ level =>
      obtain ⟨⟨code, frame, selfFrame⟩, hproc, hnext⟩ := Option.bind_eq_some_iff.1 hblock
      obtain ⟨w, hw, hblock⟩ := Option.bind_eq_some_iff.1 hnext
      apply Leads.eq_ok
      rw [scopeOf]
      simp only [Leads.bind_eq, Leads.get_eq, hproc]
      split
      · exact ⟨rfl, rfl⟩
      · rw [Leads.bind_eq]
        exact .of_eq (reg_ok hw) (.of_eq (ih hblock (Nat.le_of_succ_le_succ hle)) ⟨rfl, rfl⟩)

theorem outerBase_freed {level : Int64} {n : Nat} (hblock : m.levelBlock n = some (.proc r))
    (hr : m.memory.closure? r = some p) (hf : p.2.1 = some f) (hfreed : (m.frameAt f).freed)
    (hle : n ≤ level.toUInt64.toNat) : outerBase level m = .ok none m := by
  obtain ⟨v, hv, hblock⟩ := Option.bind_eq_some_iff.1 hblock
  apply Leads.eq_ok
  simp only [outerBase, Leads.bind_eq, Leads.get_eq]
  exact .of_eq (reg_ok hv) (.of_eq (scopeOf_freed hblock hr hf hfreed hle) ⟨rfl, rfl⟩)

/-- With one frame of a chain those above it are gone. -/
theorem Sheds.freed_of_gone (h : Sheds m m') (hdistinct : m.chain.Nodup)
    (hlt : ∀ f ∈ m.chain, f < m.frames.size) (htop : m.chain.head? = some f) (hc : c ∈ m.chain)
    (hgone : c ∉ m'.chain) : (m'.frameAt f).freed := by
  obtain ⟨kept, hbelow, habove, hshed⟩ := h.kept
  have hf := List.mem_of_head? htop
  refine (hshed f hf (hlt f hf)).resolve_left fun hkept => hgone (habove.subset ?_)
  obtain ⟨rest, hrest⟩ := List.head?_eq_some_iff.1 htop
  rw [hrest] at hbelow hdistinct hc
  rcases List.suffix_cons_iff.1 hbelow with rfl | hrest
  · exact hc
  · exact absurd (hrest.subset hkept) (List.nodup_cons.1 hdistinct).1

theorem Tidy.chain_nodup (h : m.Tidy) : m.chain.Nodup :=
  h.listed.distinct.sublist (by simp [nodes, List.append_assoc])

/-- An instruction that sets or gets an outer variable where there is no scope. -/
theorem step_of_gone {i : Inst} (hop : i.op = .getOuter ∨ i.op = .setOuter)
    (hgone : outerBase i.c m = .ok none m) : step i m =
      (raiseText .runtimeError "outer scope of block is gone" >>= fun _ => pure .same) m := by
  have hbind : ∀ k : Option Int64 → Action Progress, (outerBase i.c >>= k) m = k none m := by
    intro k
    change EStateM.bind _ k m = _
    rw [EStateM.bind, hgone]
  rcases hop with hop | hop
  · simp only [step, hop]
    exact hbind _
  · simp only [step, hop]
    exact hbind _

end Machine

open Machine

/-- A scope that is found begins at register 0 or is the window of a frame that is on the chain
at this moment. And it is not found past a block that an instruction at `a` made while `c` was on
the chain, once `c` is no longer there: outer variables raise instead. -/
theorem outer_scope_live {running : Bool} {owned : List Value} {m : Machine}
    (h : Reachable running owned m) :
    (∀ level b m', outerBase level m = .ok (some b) m' →
      m' = m ∧ (b = 0 ∨ ∃ f ∈ m.chain, b = (m.frameAt f).window)) ∧
    ∀ held a a' r p c, Reachable true held a → tick a = .ok none a' → a.memory.closure? r = none →
      a'.memory.closure? r = some p → c ∈ a.chain → Later held a' running owned m → c ∉ m.chain →
      ∀ n level, m.levelBlock n = some (.proc r) → n ≤ level.toUInt64.toNat →
        outerBase level m = .ok none m ∧
        ∀ i : Inst, i.op = .getOuter ∨ i.op = .setOuter → i.c = level → step i m =
          (raiseText .runtimeError "outer scope of block is gone" >>= fun _ => pure .same) m := by
  refine ⟨fun level b m' hb => ?_, ?_⟩
  · have hscope : Leads AnyFault (outerBase level) m fun b m' => m' = m ∧
        ∀ base, b = some base → base = 0 ∨ ∃ f ∈ m.chain, base = (m.frameAt f).window := by
      simp only [outerBase, Leads.bind_eq, Leads.get_eq]
      exact (reg_leads fun v _ => (Machine.Reachable.anchored h).scopeOf _ v).forget
    obtain ⟨rfl, hbase⟩ := hscope.of_ok hb
    exact ⟨rfl, hbase b rfl⟩
  · intro held a a' r p c ha ht hnew hp hc hlater hgone n level hblock hle
    have hfollows : Follows a m := (tick_follows ha ht).trans (hlater.follows (ha.tick ht))
    obtain ⟨i, x, child, -, -, -, -, rfl⟩ := tick_made ha ht hnew hp
    have htidy := tidy_invariant.reachable ha
    -- The block refers to the top of the chain, which cannot outlive `c`.
    obtain ⟨f, hf⟩ : ∃ f, a.chain.head? = some f := by
      cases hchain : a.chain with
      | nil => rw [hchain] at hc; cases hc
      | cons f rest => exact ⟨f, rfl⟩
    have hfreed := hfollows.sheds.freed_of_gone htidy.chain_nodup htidy.chain_lt hf hc hgone
    have hr := (hlater.follows (ha.tick ht)).kept r _ hp
    have hnone := outerBase_freed hblock hr hf hfreed hle
    exact ⟨hnone, fun i hop hlevel => step_of_gone hop (hlevel ▸ hnone)⟩

/-- Code that calls a method for a block and then calls the block, which gets a variable of the
method. -/
def outlivingBlock : Program where
  blocks := #[{
    registers := 6, symbols := #["make", "call"], children := #[1],
    code := #[⟨.targetClass, 1, 0, 0⟩, ⟨.makeBlock, 2, 0, 0⟩, ⟨.defineMethod, 1, 0, 0⟩,
      ⟨.loadSelf, 1, 0, 0⟩, ⟨.send, 1, 0, 0⟩, ⟨.send, 1, 1, 0⟩, ⟨.leave, 1, 0, 0⟩] },
    { registers := 4, children := #[2], code := #[⟨.makeBlock, 1, 0, 0⟩, ⟨.leave, 1, 0, 0⟩] },
    { registers := 4, code := #[⟨.getOuter, 1, 1, 0⟩, ⟨.leave, 1, 0, 0⟩] }]

set_option synthInstance.maxSize 256 in
/-- When the block runs, the call that made it is over. -/
theorem outer_scope_live_outlivingBlock :
    ∃ a a' m r, Reachable true [] a ∧ tick a = .ok none a' ∧ a.memory.closure? r = none ∧
      (a'.memory.closure? r).isSome ∧ a.chain = [0] ∧ Later [] a' true [] m ∧ m.chain = [1] ∧
      m.levelBlock 0 = some (.proc r) ∧ outerBase 0 m = .ok none m := by
  have hrun : ∃ a ∈ outlivingBlock.after 5, (a.memory.closure? 2).isNone ∧ a.chain = [0] ∧
      Leads NoFault tick a fun r a' => r = none ∧ (a'.memory.closure? 2).isSome ∧
        Leads NoFault (Machine.run 2) a' fun r m => r = none ∧ m.chain = [1] ∧
          m.levelBlock 0 = some (.proc 2) := by
    decide +kernel
  have hvalid : outlivingBlock.defect? = none := Program.defect?_eq_none (by decide +kernel)
  obtain ⟨a, ha, hnew, hchain, htick⟩ := hrun
  obtain ⟨_, a', ht, rfl, hmade, hrest⟩ := htick.exists_ok
  obtain ⟨_, m, hm, rfl, hgone, hblock⟩ := hrest.exists_ok
  obtain ⟨p, hp⟩ := Option.isSome_iff_exists.1 hmade
  rw [Option.isNone_iff_eq_none] at hnew
  have hreach := Reachable.of_after hvalid ha
  have hlater : Later [] a' true [] m := Later.run 2 .here hm
  have hnone := ((outer_scope_live (hlater.reachable (hreach.tick ht))).2 [] a a' 2 p 0 hreach ht hnew
    hp (by simp [hchain]) hlater (by simp [hgone]) 0 0 hblock (Nat.zero_le _)).1
  exact ⟨a, a', m, 2, hreach, ht, hnew, hmade, hchain, hlater, hgone, hblock, hnone⟩

end ObjectMachine
