import ObjectMachine.Proofs.Outcome

/-! Clerical work. Many actions change nothing but the pool, the names, the lists of classes and
methods, the reports and the mark of the registers in use. No value takes part in them. Each is made of
a few kinds of amendments, and touches no registers. This is shown once of each action. What amendments
keep, such actions keep then. -/

namespace ObjectMachine.Machine

variable {α β : Type}

/-! ### No registers -/

def onState (g : Machine → Machine) : EStateM.Result Fault Machine α → EStateM.Result Fault Machine α
  | .ok a m => .ok a (g m)
  | .error e m => .error e (g m)

/-- An action that touches no registers. -/
def Apart (x : Action α) : Prop :=
  ∀ (m : Machine) (rs : Array Value), rs.size = m.regs.size →
    x { m with regs := rs } = onState (fun m' => { m' with regs := rs }) (x m)

namespace Apart

variable {x : Action α} {f : α → Action β}

theorem regs (h : Apart x) (m : Machine) :
    Leads (fun _ m' => m'.regs = m.regs) x m fun _ m' => m'.regs = m.regs := by
  have hsame := h m m.regs rfl
  unfold Leads
  cases hx : x m with
  | ok a m' =>
    rw [hx] at hsame
    obtain ⟨-, heq⟩ := EStateM.Result.ok.inj hsame
    exact (congrArg Machine.regs heq :)
  | error e m' =>
    rw [hx] at hsame
    obtain ⟨-, heq⟩ := EStateM.Result.error.inj hsame
    exact (congrArg Machine.regs heq :)

theorem of_pure (a : α) : Apart (pure a : Action α) := fun _ _ _ => rfl

theorem of_throw (e : Fault) : Apart (throw e : Action α) := fun _ _ _ => rfl

theorem bind (hx : Apart x) (hf : ∀ a, Apart (f a)) : Apart (x >>= f) := by
  intro m rs hrs
  have hregs := hx.regs m
  change EStateM.bind x f { m with regs := rs } = onState _ (EStateM.bind x f m)
  unfold EStateM.bind
  rw [hx m rs hrs]
  cases h : x m with
  | ok a m' => exact hf a m' rs (hrs.trans (congrArg Array.size (hregs.of_ok h)).symm)
  | error e m' => rfl

/-- The state is asked for what does not depend on the registers. -/
theorem get_bind {f : Machine → Action β} (hf : ∀ m, Apart (f m))
    (hsame : ∀ (m : Machine) (rs : Array Value), rs.size = m.regs.size →
      f { m with regs := rs } = f m) : Apart (get >>= f) := by
  intro m rs hrs
  change f { m with regs := rs } { m with regs := rs } = onState _ (f m m)
  rw [hsame m rs hrs]
  exact hf m m rs hrs

theorem of_modify {change : Machine → Machine}
    (h : ∀ m (rs : Array Value), change { m with regs := rs } = { change m with regs := rs }) :
    Apart (modify change : Action PUnit) := by
  intro m rs _
  exact congrArg (EStateM.Result.ok PUnit.unit) (h m rs)

theorem of_modifyGet {change : Machine → α × Machine}
    (h : ∀ m (rs : Array Value),
      change { m with regs := rs } = ((change m).1, { (change m).2 with regs := rs })) :
    Apart (modifyGet change : Action α) := by
  intro m rs _
  exact congrArg (fun p : α × Machine => EStateM.Result.ok p.1 p.2) (h m rs)

theorem of_discard (hx : Apart x) : Apart (discard x) :=
  hx.bind fun _ => of_pure _

end Apart

/-! ### Amendments -/

/-- One amendment of the books. A method that is made has a body of `B`. -/
inductive Amends (B : MethodBody → Prop) (m : Machine) : Machine → Prop
  | pool (pool : Pool) : Amends B m { m with memory := { m.memory with pool } }
  | name (t : Text) : Amends B m { m with symbols := (m.symbols.intern t).1 }
  | define (c : ClassId) {method : Method} (hbody : B method.body) : Amends B m { m with
      methods := m.methods.push method
      classes := m.classes.modify c fun k => { k with methods := m.methods.size :: k.methods } }
  | unlink (c : ClassId) (id : MethodId) : Amends B m { m with
      classes := m.classes.modify c fun k => { k with methods := k.methods.erase id } }
  | count (id : MethodId) (d : Int) : Amends B m { m with
      methods := m.methods.modify id fun k => { k with refCount := k.refCount + d } }
  | report (profile : Option Profile) (console : Array Text) : Amends B m { m with profile, console }
  | mark {top : Int64} (hrise : m.regHigh.toInt < top.toInt) (hfits : top.toInt ≤ m.regs.size) :
      Amends B m { m with regHigh := top }

/-- The books have been amended, any number of times. -/
def Amended (B : MethodBody → Prop) : Machine → Machine → Prop := Relation.ReflTransGen (Amends B)

/-- An action that does clerical work only. -/
structure Clerical (B : MethodBody → Prop) (x : Action α) : Prop where
  registers : Apart x
  amends (m : Machine) :
    Leads (fun e m' => Contained e m' ∧ Amended B m m') x m fun _ m' => Amended B m m'

variable {B : MethodBody → Prop} {m m' : Machine}

/-- What each amendment keeps is kept. -/
theorem Amended.keeps {R : Machine → Prop} (h : Amended B m m')
    (hkeep : ∀ m₁ m₂, Amends B m₁ m₂ → R m₁ → R m₂) (hm : R m) : R m' := by
  induction h with
  | refl => exact hm
  | tail _ hamends ih => exact hkeep _ _ hamends ih

namespace Clerical

variable {x : Action α} {f : α → Action β}

theorem of_pure (a : α) : Clerical B (pure a) := ⟨.of_pure a, fun _ => .refl⟩

theorem of_fatal (cause : FatalCause) : Clerical B (fatal cause : Action α) :=
  ⟨.of_throw _, fun _ => ⟨.inr ⟨cause, rfl⟩, .refl⟩⟩

theorem bind (hx : Clerical B x) (hf : ∀ a, Clerical B (f a)) : Clerical B (x >>= f) := by
  refine ⟨hx.registers.bind fun a => (hf a).registers, fun m => ?_⟩
  rw [Leads.bind_eq]
  refine (hx.amends m).mono fun a m₁ h₁ => ?_
  exact ((hf a).amends m₁).imp (fun _ _ h₂ => ⟨h₂.1, h₁.trans h₂.2⟩) fun _ _ h₂ => h₁.trans h₂

theorem get_bind {f : Machine → Action β} (hf : ∀ m, Clerical B (f m))
    (hsame : ∀ (m : Machine) (rs : Array Value), rs.size = m.regs.size →
      f { m with regs := rs } = f m) : Clerical B (get >>= f) :=
  ⟨.get_bind (fun m => (hf m).registers) hsame, fun m => (hf m).amends m⟩

theorem of_modify {change : Machine → Machine}
    (hapart : ∀ m (rs : Array Value), change { m with regs := rs } = { change m with regs := rs })
    (h : ∀ m, Amends B m (change m)) : Clerical B (modify change : Action PUnit) :=
  ⟨.of_modify hapart, fun m => .single (h m)⟩

theorem of_discard (hx : Clerical B x) : Clerical B (discard x) := hx.bind fun _ => of_pure _

theorem apart (hx : Clerical (fun _ => True) x) : Apart x := hx.registers

end Clerical

/-! ### Clerical work -/

theorem charge_clerical (n : Int64) : Clerical B (charge n) := by
  refine ⟨.of_modifyGet fun m rs => ?_, fun m => ?_⟩
  · dsimp only
    split <;> rfl
  · simp only [charge, Leads.modifyGet_eq]
    split
    · exact .single (.pool _)
    · exact .refl

theorem refund_clerical (n : Int64) : Clerical B (refund n) := by
  refine ⟨Apart.bind (.of_modifyGet fun _ _ => rfl) fun fault => ?_, fun m => ?_⟩
  · cases fault with
    | none => exact .of_pure _
    | some e => exact .of_throw e
  · have hpool : Amended B m { m with memory := { m.memory with pool := m.memory.pool.refund n } } :=
      .single (.pool _)
    simp only [refund, onMemory, Leads.bind_eq, Leads.modifyGet_eq]
    split
    · next e he =>
      split at he
      · exact ⟨.inl (Option.some.inj he).symm, hpool⟩
      · cases he
    · exact hpool

theorem mustBeLive_clerical (v : Value) : Clerical B (mustBeLive v) := by
  refine .get_bind (fun m => ?_) fun _ _ _ => rfl
  split
  · exact .of_fatal _
  · exact .of_pure _

theorem intern_clerical (name : Text) : Clerical B (intern name) :=
  ⟨.of_modifyGet fun _ _ => rfl, fun _ => .single (.name name)⟩

theorem nameOf_clerical (s : Symbol) : Clerical B (nameOf s) :=
  .get_bind (fun _ => .of_pure _) fun _ _ _ => rfl

theorem write_clerical (t : Text) : Clerical B (write t) :=
  .of_modify (fun _ _ => rfl) fun m => .report m.profile _

/-- A window is checked against the number of registers. -/
theorem enterWindow_clerical (base size : Int64) : Clerical B (enterWindow base size) := by
  refine ⟨.get_bind (fun m => ?_) fun m rs hrs => ?_, fun m => ?_⟩
  · dsimp only
    split
    · exact .of_throw _
    · split
      · exact .of_modify fun _ _ => rfl
      · exact .of_pure _
  · dsimp only
    rw [hrs]
  · simp only [enterWindow, Leads.bind_eq, Leads.get_eq]
    split
    · exact ⟨.inr ⟨_, rfl⟩, .refl⟩
    · next hfits =>
      split
      · next hrise =>
        exact .single (.mark (Int64.lt_iff_toInt_lt.1 hrise) (Int.not_lt.1 (not_or.1 hfits).2))
      · exact .refl

theorem acquireMethod_clerical (id : MethodId) : Clerical B (acquireMethod id) :=
  .of_modify (fun _ _ => rfl) fun _ => .count id 1

theorem releaseMethod_clerical (id : MethodId) : Clerical B (releaseMethod id) := by
  have hcount : Clerical B (modifyMethod id fun k => { k with refCount := k.refCount - 1 }) :=
    .of_modify (fun _ _ => rfl) fun _ => .count id (-1)
  refine hcount.bind fun _ => .get_bind (fun m => ?_) fun _ _ _ => rfl
  dsimp only
  split
  · exact refund_clerical _
  · split
    · exact (nameOf_clerical _).bind fun _ => .of_fatal _
    · exact .of_pure _

theorem addMethod_clerical (c : ClassId) (method : Method) (hbody : B method.body) :
    Clerical B (addMethod c method) :=
  ⟨.get_bind (fun _ => Apart.bind (.of_modify fun _ _ => rfl) fun _ =>
    Apart.bind (.of_modify fun _ _ => rfl) fun _ => .of_pure _) fun _ _ _ => rfl,
    fun _ => .single (.define c hbody)⟩

theorem chargeMethod_clerical (c : ClassId) : Clerical B (chargeMethod c) := by
  refine .get_bind (fun m => ?_) fun _ _ _ => rfl
  split
  · exact charge_clerical _
  · exact .of_pure _

theorem defineNative?_clerical (c : ClassId) (name : Text) {native : Native} (hbody : B (.native native)) :
    Clerical B (defineNative? c name native) := by
  refine (chargeMethod_clerical c).bind fun granted => ?_
  split
  · exact (intern_clerical name).bind fun s =>
      (addMethod_clerical c { symbol := s, body := .native native } hbody).bind fun _ => .of_pure _
  · exact .of_pure _

theorem installCode?_clerical (c : ClassId) (s : Symbol) {code : Code} (hbody : B (.code code)) :
    Clerical B (installCode? c s code) := by
  have hadd : Clerical B (do
      if ← chargeMethod c then
        return some (← addMethod c { symbol := s, body := .code code })
      else return none : Action (Option MethodId)) := by
    refine (chargeMethod_clerical c).bind fun granted => ?_
    split
    · exact (addMethod_clerical c { symbol := s, body := .code code } hbody).bind fun _ => .of_pure _
    · exact .of_pure _
  refine .get_bind (fun m => ?_) fun _ _ _ => rfl
  split
  · next old _ =>
    have hunlink : Clerical B (modifyClass c fun k => { k with methods := k.methods.erase old }) :=
      .of_modify (fun _ _ => rfl) fun _ => .unlink c old
    exact hunlink.bind fun _ => (releaseMethod_clerical _).bind fun _ => hadd
  · exact hadd

theorem recordCall_clerical (id : MethodId) (owner : ClassId) : Clerical B (recordCall id owner) := by
  refine .get_bind (fun m => ?_) fun _ _ _ => rfl
  split
  · exact .of_modify (fun _ _ => rfl) fun m => .report _ m.console
  · exact .of_pure _

end ObjectMachine.Machine
