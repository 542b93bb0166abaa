import ObjectMachine.Proofs.BlockCalls

/-! Calls of methods that are code, and the receiver they see. A send of a message that code
answers pushes a frame and goes on in the code, with the receiver as `R(0)`. What asks for the
receiver reads `R(0)`. A block there is taken for the block that runs, whoever put it there: then
the receiver is asked for in the window that the block was made in. So a method sees the value it
was sent to, until it writes to `R(0)`, unless that value is a block. -/

namespace ObjectMachine

namespace Machine

variable {a m m₁ m' n : Machine} {ph : Phase} {owned : List Value} {v s : Value} {i j : Inst}
  {id : MethodId} {owner : ClassId} {code : Code} {w : Int64}

/-! ### Into the code -/

theorem callCode_opens (a : Int64) (name : Symbol) (argc : Int64) (id : MethodId) (owner : ClassId)
    (code : Code) (hreg : entryAt? m.regs (m.context.base + a) = some v) :
    Leads AnyFault (callCode a name argc id owner code) m fun _ m' =>
      Opens (m.context.base + a) v code m m' := by
  simp only [callCode, modifyContext, Leads.bind_eq, Leads.get_eq, Leads.modify_eq]
  refine (pushFrame_pushed name a argc).mono ?_
  rintro _ m₁ ⟨rfl, h₁⟩
  refine (h₁.modify rfl).mono fun _ m₂ h₂ => ?_
  refine ((acquireMethod_clerical id).tame (P := .nothing) m₂).mono fun _ m₃ h₃ => ?_
  exact (h₂.works h₃).opens hreg code _

theorem dispatch_code_opens (a argc : Int64) {c : ClassId} {name : Symbol}
    (hfound : m.findMethod? c name = some (id, owner)) (hbody : (m.methodAt id).body = .code code)
    (hreg : entryAt? m.regs (m.context.base + a) = some v) :
    Leads AnyFault (dispatch a name argc c) m fun x m' =>
      x = .same ∧ Opens (m.context.base + a) v code m m' := by
  simp only [dispatch, Leads.bind_eq, Leads.get_eq]
  refine (((enterWindow_clerical _ _).tame (P := .nothing) m).and (enterWindow_sameNames _ _)).mono ?_
  rintro _ m₁ ⟨h₁, hnames₁⟩
  rw [hnames₁.findMethod?, hfound]
  simp only [Leads.bind_eq, Leads.get_eq]
  refine (((recordCall_clerical id owner).tame (P := .nothing) m₁).and (recordCall_sameNames id owner)).mono ?_
  rintro _ m₂ ⟨h₂, hnames₂⟩
  have hworks : Works .nothing m m₂ := h₁.trans h₂
  have hbase : m₂.context.base = m.context.base := by rw [hworks.names]
  have hreg₂ : entryAt? m₂.regs (m₂.context.base + a) = some v := by
    rw [hbase, hworks.regs_eq (fun _ h => h) fun _ h => h]
    exact hreg
  rw [(hnames₁.trans hnames₂).methodAt, hbody]
  simp only [Leads.bind_eq, Leads.pure_eq]
  refine (callCode_opens a name argc id owner code hreg₂).mono fun _ m₃ h₃ => ⟨trivial, ?_⟩
  exact hbase ▸ h₃.after hworks.core

/-- The instruction `i` sends `v` a message that `code` answers. -/
structure CallsCode (m : Machine) (i : Inst) (v : Value) (code : Code) : Prop where
  sends : m.Sends i v
  callee : ∃ s id owner, m.sentSymbol i.b = some s ∧ m.findMethod? (m.classOf v) s = some (id, owner) ∧
    (m.methodAt id).body = .code code

theorem step_opens_code (h : m.CallsCode i v code) : Leads AnyFault (step i) m fun x m' =>
    x = .same ∧ Opens (m.context.base + i.a) v code m m' := by
  obtain ⟨hsends, s, id, owner, hs, hfound, hbody⟩ := h
  refine step_sends hsends hs fun P m₁ h₁ hclasses hmethods hreg₁ => ?_
  obtain ⟨hfind, hat⟩ := findMethod?_congr hclasses hmethods
  have hbase : m₁.context.base = m.context.base := by rw [h₁.names]
  rw [← hbase] at hreg₁ ⊢
  refine (dispatch_code_opens i.a i.c (hfind ▸ hfound) (hat ▸ hbody) hreg₁).mono ?_
  rintro x m₂ ⟨hx, h₂⟩
  exact ⟨hx, h₂.after h₁.core⟩

/-- A method is called with the receiver as the first register. -/
theorem tick_calls (hm : Reachable true owned m) (hi : m.control.next? = some i)
    (h : m.CallsCode i v code) : Leads AnyFault tick m fun x n =>
      x = none ∧ CalledAt (m.context.base + i.a) v code m n := by
  obtain ⟨-, -, id, -, -, -, hbody⟩ := id h
  have htrusted : code.Trusted := (Machine.Reachable.vetted hm).methods id code hbody
  have hsends : m.fetched.Sends i v := by
    cases h.sends with
    | kept hop hreg => exact .kept hop hreg
    | cleared hop hcount => exact .cleared hop hcount
  exact tick_called hm hi h.sends.op htrusted (step_opens_code ⟨hsends, h.callee⟩)

/-! ### In the code -/

/-- A part of a run that leaves the register at `w` as it is. -/
def Spares (w : Int64) (_ : Phase) (m : Machine) (_ : Phase) (m' : Machine) : Prop :=
  entryAt? m'.regs w = entryAt? m.regs w

theorem Course.spared (h : Course (Spares w) a ph m) : entryAt? m.regs w = entryAt? a.regs w := by
  induction h with
  | began => rfl
  | next _ hspares _ ih => exact hspares.trans ih

theorem self_fetched (h : self m = .ok s m) : self m.fetched = .ok s m.fetched := by
  have hscope : ∀ x, m.fetched.selfScope x = m.selfScope x := fun _ => rfl
  have hwindow := (trail_congr fun x (_ : x ∈ m.selfWindows) => hscope x).2
  refine self_iff.2 ?_
  exact (congrArg (entryAt? m.regs) hwindow).trans (self_iff.1 h)

/-- What an instruction that asks for the receiver does, with `s` as the receiver. -/
structure ActsOn (m : Machine) (j : Inst) (s : Value) : Prop where
  loadSelf : j.op = .loadSelf → step j m = (do
    acquire s
    setReg (m.context.base + j.a) s
    return Progress.same) m
  getVariable : j.op = .getVariable → step j m = (do
    setReg (m.context.base + j.a) (← Machine.getVariable s (← variableSymbol j.b))
    return Progress.same) m
  setVariable : j.op = .setVariable → step j m = (do
    let name ← variableSymbol j.b
    Machine.setVariable s name (← reg (m.context.base + j.a))
    return Progress.same) m

theorem actsOn_of_self (h : self m = .ok s m) : m.ActsOn j s := by
  have hget : ∀ {α : Type} (f : Machine → Action α), (get >>= f) m = f m m := fun f => rfl
  refine ⟨fun hop => ?_, fun hop => ?_, fun hop => ?_⟩
  all_goals
    simp only [step, hop, hget]
    exact bind_of_ok h

theorem Leads.congr {α : Type} {E : Fault → Machine → Prop} {x y : Action α}
    {Q : α → Machine → Prop} (h : x m = y m) (hy : Leads E y m Q) : Leads E x m Q := by
  unfold Leads
  rw [h]
  exact hy

/-- The receiver is loaded. -/
theorem tick_loads (hm : Reachable true owned m) (hjumped : m.jumped = false)
    (hj : m.control.next? = some j) (hop : j.op = .loadSelf) (hself : self m = .ok s m) :
    Leads AnyFault tick m fun _ m' => entryAt? m'.regs (m.context.base + j.a) = some s := by
  have hpending : m.pending = none := (Machine.Reachable.steady hm).standing.2
  have hstep : Leads AnyFault (fetch >>= step) m fun p m' => p = .same ∧
      Works (.store (m.context.base + j.a)) m.fetched m' ∧
      entryAt? m'.regs (m.context.base + j.a) = some s := by
    rw [Leads.bind_eq]
    refine fetch_leads.mono ?_
    rintro i _ ⟨hi, rfl⟩
    cases hj.symm.trans hi
    refine Leads.congr ((actsOn_of_self (j := j) (self_fetched hself)).loadSelf hop) ?_
    let P : Permit := .store (m.context.base + j.a)
    simp only [Leads.bind_eq, Leads.pure_eq]
    refine (acquire_tame (P := P) s m.fetched).mono fun _ m₁ h₁ => ?_
    refine ((setReg_tame (P := P) rfl m₁).and (setReg_gets _ s)).mono ?_
    rintro _ m₂ ⟨h₂, hgets⟩
    exact ⟨trivial, h₁.trans h₂, hgets⟩
  have hcalm : Leads AnyFault (fetch >>= step) m fun p m' =>
      p = .same ∧ m'.pending = none ∧ m'.jumped = false := by
    refine hstep.mono fun p m' ⟨hp, hworks, _⟩ => ⟨hp, ?_, ?_⟩
    · exact (congrArg (·.pending) hworks.core : m'.pending = m.pending).trans hpending
    · exact (congrArg (·.jumped) hworks.core : m'.jumped = m.jumped).trans hjumped
  refine (tick_of_calm hcalm).mono fun _ m' hok => ?_
  exact (hstep.of_ok hok).2.2

/-- Where code has begun, nothing is left to clear. -/
theorem CalledAt.jumped {b : Int64} (h : CalledAt b v code a n) (ha : Reachable true owned a)
    (ht : tick a = .ok none n) : n.jumped = false := by
  have hcourse : Course AnyPart a .ready n := Course.began.tick (fun _ _ _ _ _ => trivial) ha ht
  refine (hcourse.jumped ha).resolve_left ?_
  rintro rfl
  exact List.cons_ne_self _ _ h.chain.symm

end Machine

open Machine

/-- The receiver of a method. Suppose that an instruction sends `v` a message that `code` answers,
and that its tick does not fault. Then the code begins in a window that starts with `v`. As long as
nothing writes there, the code sees `v` as its receiver if `v` is no block; if it is one, the code
sees the receiver that the block would see if it ran in the same window. Loading the receiver and
reading and storing variables act on the value that is seen. -/
theorem method_receiver {owned : List Value} {a n : Machine} {i : Inst} {v : Value} {code : Code}
    {x : Option Value} (ha : Reachable true owned a) (hi : a.control.next? = some i)
    (hcalls : a.CallsCode i v code) (ht : tick a = .ok x n) :
    x = none ∧ CalledAt (a.context.base + i.a) v code a n ∧
    ∀ m j, Course (Spares n.context.base) n .ready m → m.context.base = n.context.base →
      m.context.code = some code → m.control.next? = some j →
      ((∀ r, v ≠ .proc r) → self m = .ok v m) ∧
      (∀ r p, v = .proc r → a.memory.closure? r = some p → ∀ s, self m = .ok s m ↔
        entryAt? m.regs (m.receiverWindow m.depth.toNat (m.frameWindow p.2.2)) = some s) ∧
      ∀ s, self m = .ok s m → m.fetched.ActsOn j s ∧
        (j.op = .loadSelf → ∀ y m', tick m = .ok y m' →
          entryAt? m'.regs (m.context.base + j.a) = some s) := by
  obtain ⟨rfl, hcalled⟩ := (tick_calls ha hi hcalls).of_ok ht
  refine ⟨rfl, hcalled, fun m j hcourse hbase hcode hj => ?_⟩
  have hn : Reachable true owned n := ha.tick ht
  have hm : Reachable true owned m := hcourse.reachable hn
  have hsome : code.block.code ≠ #[] := by
    intro hnil
    obtain ⟨c, hc, hget⟩ := Option.bind_eq_some_iff.1 hj
    cases hcode.symm.trans hc
    rw [hnil] at hget
    exact absurd (mem_of_entryAt? hget) (Array.not_mem_empty j)
  have hreg : entryAt? m.regs m.context.base = some v := by
    rw [hbase, hcourse.spared, hcalled.base]
    exact hcalled.receiver hsome
  refine ⟨fun hplain => (self_of_plain hreg ?_).1, ?_, fun s hself => ⟨?_, fun hop y m' hty => ?_⟩⟩
  · cases v with
    | proc r => exact absurd rfl (hplain r)
    | _ => rfl
  · rintro r p rfl hp s
    have hkept : m.memory.closure? r = some p :=
      (hcourse.follows hn).kept r p ((tick_follows ha ht).kept r p hp)
    have hscope : m.selfScope m.context.base = some (m.frameWindow p.2.2) := by
      rw [selfScope_of_reg hreg, proc?_eq, hkept, Option.map_some]
    have hhops : (m.depth + 1).toNat = m.depth.toNat + 1 := by
      have hdepth := hm.sane.ledger.depth
      omega
    rw [self_iff, hhops, receiverWindow_succ hscope]
  · exact actsOn_of_self (self_fetched hself)
  · have hjumped : m.jumped = false := by
      rcases hcourse.jumped hn with rfl | hjumped
      · exact hcalled.jumped ha ht
      · exact hjumped
    exact (tick_loads hm hjumped hj hop hself).of_ok hty

namespace Machine

variable {m m' : Machine} {ph ph' : Phase} {w : Int64}

def spares? (w : Int64) (_ : Phase) (m : Machine) (_ : Phase) (m' : Machine) : Bool :=
  entryAt? m'.regs w == entryAt? m.regs w

theorem spares_of_check (h : spares? w ph m ph' m') : Spares w ph m ph' m' := eq_of_beq h

theorem code_of_native? {k : Method} (h : k.native? = none) : ∃ code, k.body = .code code := by
  unfold Method.native? at h
  cases hbody : k.body with
  | native n =>
    rw [hbody] at h
    cases h
  | code c => exact ⟨c, rfl⟩

end Machine

/-- Defines a method of all objects that returns its receiver, and sends it to what `i` puts into
the register. -/
def sentTo (i : Inst) : Program where
  blocks := #[{
    registers := 4, symbols := #["work"], children := #[1, 2],
    code := #[⟨.targetClass, 1, 0, 0⟩, ⟨.makeBlock, 2, 0, 0⟩, ⟨.defineMethod, 1, 0, 0⟩, i,
      ⟨.send, 1, 0, 0⟩, ⟨.leave, 1, 0, 0⟩] }, {
    registers := 2,
    code := #[⟨.loadNil, 1, 0, 0⟩, ⟨.loadSelf, 1, 0, 0⟩, ⟨.leave, 1, 0, 0⟩] }, {
    registers := 2, code := #[⟨.leave, 0, 0, 0⟩] }]

set_option synthInstance.maxSize 400 in
/-- A method of a number loads the number. -/
theorem method_receiver_number :
    ∃ a n m m' code, Reachable true [] a ∧ a.CallsCode ⟨.send, 1, 0, 0⟩ (.int 7) code ∧
      tick a = .ok none n ∧ Course (Spares n.context.base) n .ready m ∧
      m.control.next? = some ⟨.loadSelf, 1, 0, 0⟩ ∧ tick m = .ok none m' ∧
      entryAt? m'.regs (m.context.base + 1) = some (.int 7) := by
  have hrun : ∃ a ∈ (sentTo ⟨.loadInt, 1, 7, 0⟩).after 4,
      a.control.next? = some ⟨.send, 1, 0, 0⟩ ∧ entryAt? a.regs (a.context.base + 1) = some (.int 7) ∧
      (∃ s ∈ a.sentSymbol 0, ∃ x ∈ a.findMethod? .integer s, (a.methodAt x.1).native? = none) ∧
      Leads NoFault tick a fun x n => x = none ∧ ∃ y ∈ follow (spares? n.context.base) 2 .ready n,
        y.1 = .ready ∧ y.2.context.base = n.context.base ∧
        y.2.context.code.map (fun c => (c.program, c.index)) =
          n.context.code.map (fun c => (c.program, c.index)) ∧
        y.2.control.next? = some ⟨.loadSelf, 1, 0, 0⟩ ∧ Leads NoFault tick y.2 fun x _ => x = none := by
    decide +kernel
  have hvalid : (sentTo ⟨.loadInt, 1, 7, 0⟩).defect? = none := Program.defect?_eq_none (by decide +kernel)
  have hinjective : Function.Injective fun c : Code => (c.program, c.index) := by
    rintro ⟨_, _⟩ ⟨_, _⟩ heq
    cases heq
    rfl
  obtain ⟨a, hafter, hi, hreg, ⟨s, hs, ⟨id, owner⟩, hfound, hnative⟩, htick⟩ := hrun
  obtain ⟨_, n, ht, rfl, ⟨ph, m⟩, hfollow, rfl, hbase, hsame, hj, hload⟩ := htick.exists_ok
  obtain ⟨_, m', hty, rfl⟩ := hload.exists_ok
  obtain ⟨code, hbody⟩ := code_of_native? hnative
  have ha : Reachable true [] a := Reachable.of_after hvalid hafter
  have hcalls : a.CallsCode ⟨.send, 1, 0, 0⟩ (.int 7) code :=
    ⟨.kept (.inl ⟨rfl, by decide⟩) hreg, s, id, owner, hs, hfound, hbody⟩
  have hcourse : Course (Spares n.context.base) n .ready m :=
    Course.began.follow (fun _ _ _ _ hcheck => spares_of_check hcheck) hfollow
  obtain ⟨-, hcalled, hlater⟩ := method_receiver ha hi hcalls ht
  have hcode : m.context.code = some code :=
    (Option.map_injective hinjective hsame).trans hcalled.body
  obtain ⟨hplain, -, hacts⟩ := hlater m _ hcourse hbase hcode hj
  exact ⟨a, n, m, m', code, ha, hcalls, ht, hcourse, hj, hty,
    (hacts _ (hplain nofun)).2 rfl none m' hty⟩

set_option synthInstance.maxSize 400 in
/-- A method of a block loads the main object, in whose scope the block was made. -/
theorem method_misled_block :
    ∃ a n m m' code, Reachable true [] a ∧ a.CallsCode ⟨.send, 1, 0, 0⟩ (.proc 2) code ∧
      tick a = .ok none n ∧ tick n = .ok none m ∧ m.context.base = n.context.base ∧
      entryAt? m.regs m.context.base = some (.proc 2) ∧
      m.control.next? = some ⟨.loadSelf, 1, 0, 0⟩ ∧ tick m = .ok none m' ∧
      entryAt? m'.regs (m.context.base + 1) = some (.object 0) := by
  have hrun : ∃ a ∈ (sentTo ⟨.makeBlock, 1, 1, 0⟩).after 4,
      entryAt? a.regs (a.context.base + 1) = some (.proc 2) ∧
      (∃ s ∈ a.sentSymbol 0, ∃ x ∈ a.findMethod? .proc s, (a.methodAt x.1).native? = none) ∧
      Leads NoFault tick a fun x n => x = none ∧ Leads NoFault tick n fun x m => x = none ∧
        m.context.base = n.context.base ∧ entryAt? m.regs m.context.base = some (.proc 2) ∧
        m.control.next? = some ⟨.loadSelf, 1, 0, 0⟩ ∧ Leads NoFault tick m fun x m' => x = none ∧
          entryAt? m'.regs (m.context.base + 1) = some (.object 0) := by
    decide +kernel
  have hvalid : (sentTo ⟨.makeBlock, 1, 1, 0⟩).defect? = none :=
    Program.defect?_eq_none (by decide +kernel)
  obtain ⟨a, hafter, hreg, ⟨s, hs, ⟨id, owner⟩, hfound, hnative⟩, htick⟩ := hrun
  obtain ⟨_, n, ht, rfl, hnext⟩ := htick.exists_ok
  obtain ⟨_, m, ht', rfl, hbase, hblock, hj, hload⟩ := hnext.exists_ok
  obtain ⟨_, m', hty, rfl, hloaded⟩ := hload.exists_ok
  obtain ⟨code, hbody⟩ := code_of_native? hnative
  exact ⟨a, n, m, m', code, Reachable.of_after hvalid hafter,
    ⟨.kept (.inl ⟨rfl, by decide⟩) hreg, s, id, owner, hs, hfound, hbody⟩, ht, ht', hbase, hblock, hj,
    hty, hloaded⟩

end ObjectMachine
