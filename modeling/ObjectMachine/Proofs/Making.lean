import ObjectMachine.Proofs.Outcome

/-! What instructions are made of. An instruction reads registers, brings values into hand and puts
them into the registers it names, or it does something of its own kind in the end. The instructions
are gone through once here. What is shown of their parts and of what they do in the end holds of all of
them then. -/

namespace ObjectMachine

namespace Opcode

/-- An instruction that ends nothing. -/
def isOrdinary : Opcode → Bool
  | leave | abort | stop => false
  | _ => true

def isJump : Opcode → Bool
  | jump | jumpIf | jumpUnless => true
  | _ => false

/-- The operations on the receiver of the running method. -/
def personal : List Opcode := [.loadSelf, .getVariable, .setVariable]

end Opcode

/-- The registers an instruction stores into, with a window at `r`. -/
def Inst.targets (i : Inst) (r : Int64) : List Int64 :=
  match i.op with
  | .move | .loadLiteral | .loadInt | .loadSymbol | .loadNil | .loadSelf | .loadTrue | .loadFalse
  | .getVariable | .getConstant | .getOuter | .makeBlock | .defineClass | .targetClass
  | .sendBlock => [r + i.a]
  | .send => [r + i.a, r + i.a + i.c + 1]
  | .callSuper => [r + i.a, r + i.a + i.b + 1]
  | .takeException => [r + i.a, r + i.a + 1]
  | .rescueMatch => [r + i.c]
  | .leave => [r]
  | _ => []

namespace Machine

section Composition

variable (i : Inst) (m : Machine)

/-- The registers that an instruction reads or stores into as a part of it. -/
inductive Uses : Int64 → Prop
  | operand (slot : Nat) {k : Int64} (hk : i.operands[slot]? = some (.register, k)) :
    Uses (m.context.base + k)
  | next {k : Int64} (hk : i.operands[0]? = some (.register, k)) (hspan : i.op.registerSpan = 2) :
    Uses (m.context.base + k + 1)
  | outer {up : Int64} (hop : i.op = .getOuter ∨ i.op = .setOuter)
    (hup : outerBase i.c m = .ok (some up) m) : Uses (up + i.b)

/-- Those it stores into are its targets, or lie in an outer scope. -/
def FillsRegister (j : Int64) : Prop :=
  j ∈ i.targets m.context.base ∨ i.op = .setOuter ∧
    ∃ up, outerBase i.c m = .ok (some up) m ∧ j = up + i.b

/-- What the machine `m` does in the end of the instruction `i` when the values `known` were read, from
places where they still are. As long as it is `fresh`, nothing has changed. -/
inductive Concludes : Bool → List Value → Action Progress → Prop
  | done {fresh known} : Concludes fresh known (pure .same)
  | setVariable {fresh known obj v} (s : Symbol) (hop : i.op = .setVariable) (hobj : obj ∈ known)
    (hv : v ∈ known) : Concludes fresh known (setVariable obj s v >>= fun _ => pure .same)
  | setConstant {fresh known v} (s : Symbol) (hv : v ∈ known) :
    Concludes fresh known (setConstant s v >>= fun _ => pure .same)
  | install {fresh known body code home selfFrame} (c : ClassId) (s : Symbol)
    (hop : i.op = .defineMethod) (hbody : m.proc? body = some (code, home, selfFrame)) :
    Concludes fresh known (discard (installCode? c s code) >>= fun _ => pure .same)
  | goto {known pc} (hop : i.op.isJump) (slot : Nat)
    (hk : i.operands[slot]? = some (.label, pc)) :
    Concludes true known (setPc pc >>= fun _ => pure .same)
  | enterBody {known v c k} (hop : i.op = .runBody) (ha : i.operands[0]? = some (.register, i.a))
    (slot : Nat) (hk : i.operands[slot]? = some (.child, k)) (hv : v ∈ known)
    (hc : v.cls? = some c) : Concludes true known (enterBody i.a c k >>= fun _ => pure .same)
  | protect {known pc} (tag : FrameTag) (htag : tag ≠ .call)
    (hop : i.op = if tag = .rescue then .pushRescue else .pushEnsure) (slot : Nat)
    (hk : i.operands[slot]? = some (.label, pc)) :
    Concludes true known (pushMarker tag pc >>= fun _ => pure .same)
  | popMarkers {known} (hop : i.op = .popMarkers) :
    Concludes true known (popMarkers i.a >>= fun _ => pure .same)
  | takeException {known} (hop : i.op = .takeException)
    (ha : i.operands[0]? = some (.register, i.a)) :
    Concludes true known (takeException i.a >>= fun _ => pure .same)
  | raise {known c v} (hop : i.op = .raise) (hc : c = .runtimeError ∨ .cls c ∈ known)
    (hv : v ∈ known) : Concludes true known (raise c v >>= fun _ => pure .same)
  | raiseText {fresh known c} (t : Text) (hc : c < 16)
    (hfresh : fresh = true ∨ i.op = .getConstant) :
    Concludes fresh known (raiseText c t >>= fun _ => pure .same)
  | send {known} (hop : i.op = .send) : Concludes true known (do
      enterWindow (m.context.base + i.a) (i.c + 2)
      setReg (m.context.base + i.a + i.c + 1) .nil
      let s ← codeSymbol i.b
      let receiver ← reg (m.context.base + i.a)
      dispatch i.a s i.c ((← get).classOf receiver))
  | sendBlock {known} (hop : i.op = .sendBlock) : Concludes true known (do
      let s ← codeSymbol i.b
      let receiver ← reg (m.context.base + i.a)
      dispatch i.a s i.c ((← get).classOf receiver))
  | callSuper {known} (hop : i.op = .callSuper) : Concludes true known (callSuper i.a i.b)
  | unknown {known} (number : UInt8) : Concludes true known (do
      let code ← currentCode
      fatal (.unknownOpcode number code.block.name ((← get).context.pc - 1))
      return .same)

/-- What the machine `m` has still to do of the instruction `i` when the values `held` are in hand,
besides those it has read. -/
inductive Composed : Bool → List Value → List Value → Action Progress → Prop
  -- Something is looked up.
  | read {fresh held known j} {f : Value → Action Progress} (hj : Uses i m j)
    (h : ∀ v, Composed fresh held (v :: known) (f v)) : Composed fresh held known (reg j >>= f)
  | self {held known} {f : Value → Action Progress} (hop : i.op ∈ Opcode.personal)
    (h : ∀ v, Composed true held (v :: known) (f v)) : Composed true held known (self >>= f)
  | consult {fresh held known} {f : Machine → Action Progress}
    (hf : ∀ m₁ regs, f { m₁ with regs } = f m₁)
    (h : ∀ m₁, (fresh = true → m₁ = m) → Composed fresh held known (f m₁)) :
    Composed fresh held known (get >>= f)
  | outer {known} {f : Option Int64 → Action Progress} (hop : i.op = .getOuter ∨ i.op = .setOuter)
    (hnone : Composed true [] known (f none))
    (hsome : ∀ up, outerBase i.c m = .ok (some up) m → Composed true [] known (f (some up))) :
    Composed true [] known (outerBase i.c >>= f)
  | name {held known k} {f : Text → Action Progress} (slot : Nat)
    (hk : i.operands[slot]? = some (.symbol, k)) (h : ∀ name, Composed true held known (f name)) :
    Composed true held known
      (currentCode >>= fun code => present (entryAt? code.block.symbols k) >>= f)
  | symbol {held known k} {f : Symbol → Action Progress} (slot : Nat)
    (hk : i.operands[slot]? = some (.symbol, k)) (h : ∀ s, Composed false held known (f s)) :
    Composed true held known (codeSymbol k >>= f)
  | variable {held known k} {f : Symbol → Action Progress} (slot : Nat)
    (hk : i.operands[slot]? = some (.symbol, k)) (h : ∀ s, Composed false held known (f s)) :
    Composed true held known (variableSymbol k >>= f)
  -- A value comes into hand.
  | immediate {fresh held known x} (v : Value) (href : v.ref? = none) (hcls : v.cls? = none)
    (h : Composed fresh (v :: held) known x) : Composed fresh held known x
  | target {held known x}
    (h : Composed true ((m.context.targetClass.map .cls).getD .nil :: held) known x) :
    Composed true held known x
  | share {fresh held known v x} (hv : v ∈ known) (h : Composed false (v :: held) [] x) :
    Composed fresh held known (acquire v >>= fun _ => x)
  | literal {held known k} {f : Value → Action Progress} (slot : Nat)
    (hk : i.operands[slot]? = some (.literal, k)) (h : ∀ v, Composed false (v :: held) [] (f v)) :
    Composed true held known
      (currentCode >>= fun code => present (entryAt? code.block.pool k) >>= fun x => literalValue x >>= f)
  | block {held known} {f : Value → Action Progress} (hop : i.op = .makeBlock)
    (ha : i.operands[0]? = some (.register, i.a)) (slot : Nat)
    (hk : i.operands[slot]? = some (.child, i.b))
    (h : ∀ v, Composed false (v :: held) [] (f v)) :
    Composed true held known
      (currentCode >>= fun code => present (code.child? i.b) >>= fun child => newProc child >>= f)
  | getVariable {fresh held known obj} (s : Symbol) {f : Value → Action Progress}
    (hobj : obj ∈ known) (h : ∀ v, Composed false (v :: held) [] (f v)) :
    Composed fresh held known (getVariable obj s >>= f)
  | getConstant {fresh held known} (s : Symbol) {f : Value → Action Progress}
    (h : ∀ v, Composed false (v :: held) [] (f v)) : Composed fresh held known (getConstant s >>= f)
  | defineClass {held known v super} (name : Text) {f : ClassId → Action Progress}
    (hop : i.op = .defineClass) (hv : v ∈ known) (hsuper : superOf? v = some super)
    (h : ∀ c, Composed false (.cls c :: held) [] (f c)) :
    Composed true held known (defineClass name super >>= f)
  -- A value goes out of hand.
  | store {fresh held known j v x} (hj : Uses i m j) (hfills : FillsRegister i m j)
    (h : Composed false held [] x) : Composed fresh (v :: held) known (setReg j v >>= fun _ => x)
  -- It comes to its end.
  | last {fresh known x} (h : Concludes i m fresh known x) : Composed fresh [] known x

end Composition

namespace Composed

variable {i : Inst} {m : Machine} {fresh : Bool} {held known : List Value}

theorem nameOf {s : Symbol} {f : Text → Action Progress}
    (h : ∀ name, Composed i m fresh held known (f name)) :
    Composed i m fresh held known (nameOf s >>= f) := by
  have hname : (Machine.nameOf s >>= f) = get >>= fun m => f (m.symbols.name s) := by
    simp only [Machine.nameOf, bind_assoc, pure_bind]
  rw [hname]
  exact .consult (fun _ _ => rfl) fun _ _ => h _

theorem put {j : Int64} {v : Value} (hj : Uses i m j) (hfills : FillsRegister i m j) :
    Composed i m fresh [v] known (setReg j v >>= fun _ => pure .same) :=
  .store hj hfills (.last .done)

theorem copy {source target : Int64} (hsource : Uses i m source) (htarget : Uses i m target)
    (hfills : FillsRegister i m target) :
    Composed i m fresh [] known (copyReg source target >>= fun _ => pure .same) := by
  simp only [copyReg, bind_assoc]
  exact .read hsource fun v => .share List.mem_cons_self (.put htarget hfills)

end Composed

/-- An instruction that ends nothing is composed. -/
theorem step_composed {i : Inst} (m : Machine) (hop : i.op.isOrdinary) :
    ∃ x, Composed i m true [] [] x ∧
      ∀ n : Machine, n.context.base = m.context.base → step i n = x n := by
  have hbody : ∃ body : Machine → Action Progress, step i = get >>= body ∧
      (∀ n : Machine, n.context.base = m.context.base → body n = body m) ∧
      Composed i m true [] [] (body m) := by
    refine ⟨_, rfl, fun n hn => by simp only [hn], ?_⟩
    obtain ⟨op, a, b, c⟩ := i
    -- Most instructions use `R(a)`, or store into it in the end.
    have huse : ∀ op, (⟨op, a, b, c⟩ : Inst).operands[0]? = some (.register, a) →
        Uses ⟨op, a, b, c⟩ m (m.context.base + a) := fun op h => .operand 0 h
    have hput : ∀ {op : Opcode} {fresh : Bool} {known : List Value} {v : Value},
        (⟨op, a, b, c⟩ : Inst).operands[0]? = some (.register, a) →
        m.context.base + a ∈ Inst.targets ⟨op, a, b, c⟩ m.context.base →
        Composed ⟨op, a, b, c⟩ m fresh [v] known
          (setReg (m.context.base + a) v >>= fun _ => pure .same) :=
      fun h hj => .put (.operand 0 h) (.inl hj)
    cases op <;> dsimp only
    case leave | abort | stop => cases hop
    case nop => exact .last .done
    case move => exact .copy (.operand 1 rfl) (huse _ rfl) (.inl List.mem_cons_self)
    case loadLiteral => exact .literal 1 rfl fun v => hput rfl List.mem_cons_self
    case loadInt | loadNil | loadTrue | loadFalse =>
      exact .immediate _ rfl rfl (hput rfl List.mem_cons_self)
    case loadSymbol =>
      exact .symbol 1 rfl fun s => .immediate _ rfl rfl (hput rfl List.mem_cons_self)
    case loadSelf =>
      exact .self (by simp [Opcode.personal]) fun v => .share List.mem_cons_self
        (hput rfl List.mem_cons_self)
    case getVariable =>
      exact .self (by simp [Opcode.personal]) fun obj => .variable 1 rfl fun s =>
        .getVariable s List.mem_cons_self fun v => hput rfl List.mem_cons_self
    case setVariable =>
      exact .self (by simp [Opcode.personal]) fun obj => .variable 1 rfl fun s =>
        .read (huse _ rfl) fun v =>
          .last (.setVariable s rfl (List.mem_cons_of_mem v List.mem_cons_self) List.mem_cons_self)
    case getConstant =>
      refine .symbol 1 rfl fun s => .consult (fun _ _ => rfl) fun m₁ _ => ?_
      split
      · exact .getConstant s fun v => hput rfl List.mem_cons_self
      · exact .nameOf fun t => .last (.raiseText _ (by decide) (.inr rfl))
    case setConstant =>
      exact .symbol 1 rfl fun s => .read (huse _ rfl) fun v =>
        .last (.setConstant s List.mem_cons_self)
    case getOuter =>
      refine .outer (.inl rfl) (.last (.raiseText _ (by decide) (.inl rfl))) fun up hup => ?_
      exact .copy (.outer (.inl rfl) hup) (huse _ rfl) (.inl List.mem_cons_self)
    case setOuter =>
      refine .outer (.inr rfl) (.last (.raiseText _ (by decide) (.inl rfl))) fun up hup => ?_
      exact .copy (huse _ rfl) (.outer (.inr rfl) hup) (.inr ⟨rfl, up, hup, rfl⟩)
    case jump => exact .last (.goto rfl 0 rfl)
    case jumpIf | jumpUnless =>
      refine .read (huse _ rfl) fun v => ?_
      split
      · exact .last (.goto rfl 1 rfl)
      · exact .last .done
    case send => exact .last (.send rfl)
    case sendBlock => exact .last (.sendBlock rfl)
    case callSuper => exact .last (.callSuper rfl)
    case makeBlock => exact .block rfl rfl 1 rfl fun v => hput rfl List.mem_cons_self
    case defineMethod =>
      refine .read (huse _ rfl) fun owner => .read (.next rfl rfl) fun body =>
        .consult (fun _ _ => rfl) fun m₁ hm₁ => ?_
      obtain rfl := hm₁ rfl
      split
      · next hbody => exact .symbol 1 rfl fun s => .last (.install _ s rfl hbody)
      · exact .last (.raiseText _ (by decide) (.inl rfl))
    case defineClass =>
      refine .read (.next rfl rfl) fun v => ?_
      split
      · exact .last (.raiseText _ (by decide) (.inl rfl))
      · next hsuper =>
        exact .name 1 rfl fun name => .defineClass name rfl List.mem_cons_self hsuper fun c =>
          hput rfl List.mem_cons_self
    case runBody =>
      refine .read (huse _ rfl) fun v => ?_
      split
      · exact .last (.raiseText _ (by decide) (.inl rfl))
      · next hc => exact .last (.enterBody rfl rfl 1 rfl List.mem_cons_self hc)
    case targetClass =>
      refine .consult (fun _ _ => rfl) fun m₁ hm₁ => ?_
      obtain rfl := hm₁ rfl
      exact .target (hput rfl List.mem_cons_self)
    case pushRescue => exact .last (.protect .rescue (by decide) rfl 0 rfl)
    case pushEnsure => exact .last (.protect .ensure (by decide) rfl 0 rfl)
    case popMarkers => exact .last (.popMarkers rfl)
    case takeException => exact .last (.takeException rfl rfl)
    case rescueMatch =>
      exact .read (huse _ rfl) fun exc => .read (.operand 1 rfl) fun target =>
        .consult (fun _ _ => rfl) fun m₁ _ => .immediate _ rfl rfl
          (.put (.operand 2 rfl) (.inl List.mem_cons_self))
    case raise =>
      refine .read (huse _ rfl) fun v => ?_
      split
      · next c _ =>
        exact .read (.next rfl rfl) fun w =>
          .last (.raise rfl (.inr (List.mem_cons_of_mem w List.mem_cons_self)) List.mem_cons_self)
      · exact .last (.raise rfl (.inl rfl) List.mem_cons_self)
      · exact .last (.raiseText _ (by decide) (.inl rfl))
    case unknown number => exact .last (.unknown number)
  obtain ⟨body, hstep, hbase, hbody⟩ := hbody
  refine ⟨body m, hbody, fun n hn => ?_⟩
  rw [hstep, ← hbase n hn]
  rfl

/-- The instructions that end something. -/
theorem step_over {i : Inst} (h : i.op.isOrdinary = false) :
    i.op = .leave ∧ (∀ m, step i m = leave i.a m) ∨
    (i.op = .abort ∨ i.op = .stop) ∧ ∀ m, step i m = .ok (.finished .nil) m := by
  obtain ⟨op, a, b, c⟩ := i
  cases op <;> first | (cases h; done) | skip
  case leave => exact .inl ⟨rfl, fun _ => rfl⟩
  case abort => exact .inr ⟨.inl rfl, fun _ => rfl⟩
  case stop => exact .inr ⟨.inr rfl, fun _ => rfl⟩

end Machine

end ObjectMachine
