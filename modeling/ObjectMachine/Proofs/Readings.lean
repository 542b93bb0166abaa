import ObjectMachine.Assembly
import ObjectMachine.Proofs.Attempts

/-! Readings taken apart. An operand, an instruction and a line can each be read in a few ways. What is
known of the words is stated for each way, and with it what the reading leaves. -/

namespace ObjectMachine

/-- The instruction of an operation with its operands in a list. -/
def Inst.make (op : Opcode) (ns : List Int64) : Inst :=
  { op, a := ns.getD 0 0, b := ns.getD 1 0, c := ns.getD 2 0 }

namespace Assembly

/-! ### Operands -/

namespace Draft

variable {d d' : Draft} {number slot : Nat}

/-- How an operand is read, which number it gets, and what the draft is then. -/
inductive Numbers (d : Draft) (number slot : Nat) : OperandKind → Token → Int64 → Draft → Prop
  | register {t : Token} {n : Int64} (hread : readRegister t = .ok n) : Numbers d number slot .register t n d
  | integer {t : Token} {n : Int64} (hread : readInteger t = .ok n) : Numbers d number slot .integer t n d
  | literal {t : Token} {lit : Literal} {pool : Array Literal} {n : Int64} (hread : readLiteral t = .ok lit)
      (hplace : place d.pool lit (Literal.same · lit) = (pool, n)) :
      Numbers d number slot .literal t n { d with pool }
  | symbol {t : Token} {name : Text} {symbols : Array Text} {n : Int64} (hread : readSymbol t = .ok name)
      (hplace : place d.symbols name (· == name) = (symbols, n)) :
      Numbers d number slot .symbol t n { d with symbols }
  | child {t : Token} {name : Text} {references : Array (Nat × Text)} {n : Int64}
      (hread : afterMark? '@' t = some name)
      (hplace : place d.references (number, name) (·.2 == name) = (references, n)) :
      Numbers d number slot .child t n { d with references }
  | position {label : Text} {n : Int64} (hread : Text.readInt64? label = some n) :
      Numbers d number slot .label (.word label) n d
  | label {label : Text} (hread : Text.readInt64? label = none) :
      Numbers d number slot .label (.word label) 0
        { d with fixups := d.fixups.push ⟨number, d.code.size, slot, label⟩ }

theorem operand_eq_ok {kind : OperandKind} {t : Token} {n : Int64}
    (h : d.operand number slot kind t = .ok (d', n)) : d.Numbers number slot kind t n d' := by
  cases kind with
  | register =>
    obtain ⟨m, hread, heq⟩ := bind_pure_eq_ok.1 h
    cases heq
    exact .register hread
  | integer =>
    obtain ⟨m, hread, heq⟩ := bind_pure_eq_ok.1 h
    cases heq
    exact .integer hread
  | literal =>
    obtain ⟨lit, hread, heq⟩ := bind_eq_ok.1 h
    cases heq
    exact .literal hread rfl
  | symbol =>
    obtain ⟨name, hread, heq⟩ := bind_eq_ok.1 h
    cases heq
    exact .symbol hread rfl
  | child =>
    rw [operand] at h
    cases hread : afterMark? '@' t with
    | none =>
      rw [hread] at h
      cases h
    | some name =>
      rw [hread] at h
      cases h
      exact .child hread rfl
  | label =>
    cases t with
    | word label =>
      rw [operand] at h
      cases hread : Text.readInt64? label with
      | some m =>
        rw [hread] at h
        cases h
        exact .position hread
      | none =>
        rw [hread] at h
        cases h
        exact .label hread
    | string => cases h
    | symbol => cases h
  | none => cases h

theorem operandsFrom_cons_eq_ok {kind : OperandKind} {kinds : List OperandKind} {t : Token} {ts : List Token}
    {ns : List Int64} (h : d.operandsFrom number slot (kind :: kinds) (t :: ts) = .ok (d', ns)) :
    ∃ e n ms, d.Numbers number slot kind t n e ∧ e.operandsFrom number (slot + 1) kinds ts = .ok (d', ms) ∧
      ns = n :: ms := by
  rw [operandsFrom] at h
  obtain ⟨⟨e, n⟩, hfirst, h⟩ := bind_eq_ok.1 h
  obtain ⟨⟨e', ms⟩, hrest, heq⟩ := bind_eq_ok.1 h
  cases heq
  exact ⟨e, n, ms, operand_eq_ok hfirst, hrest, rfl⟩

/-! ### Lines of a block -/

theorem instruction_eq_ok {head : Token} {args : List Token} (h : d.instruction number head args = .ok d') :
    ∃ name op e ns, head = .word name ∧ Opcode.ofMnemonic? (upperCase name) = some op ∧
      args.length = op.operands.length ∧ d.operandsFrom number 0 op.operands args = .ok (e, ns) ∧
      d' = { e with code := e.code.push (.make op ns) } := by
  cases head with
  | word name =>
    rw [instruction] at h
    cases hop : Opcode.ofMnemonic? (upperCase name) with
    | none =>
      rw [hop] at h
      cases h
    | some op =>
      rw [hop] at h
      dsimp only at h
      split_ifs at h with hcount
      obtain ⟨⟨e, ns⟩, hoperands, heq⟩ := bind_eq_ok.1 h
      cases heq
      exact ⟨name, op, e, ns, rfl, hop, not_not.1 hcount, hoperands, rfl⟩
  | string => cases h
  | symbol => cases h

theorem define_eq_ok {label : Text} (h : d.define label = .ok d') : d.labels.lookup label = none ∧
    d' = { d with labels := (label, d.code.size) :: d.labels } := by
  rw [define] at h
  split_ifs at h with hnew
  cases h
  exact ⟨Option.not_isSome_iff_eq_none.1 hnew, rfl⟩

def readLine (d : Draft) (number : Nat) : List Token → Except Complaint Draft
  | [] => .ok d
  | head :: args =>
    match definedLabel? (head :: args) with
    | some label => d.define label
    | none => d.instruction number head args

/-- A line in a block is empty, defines a label or adds an instruction. -/
theorem readLine_eq_ok {line : List Token} (h : d.readLine number line = .ok d') :
    (line = [] ∧ d' = d) ∨ (∃ label, definedLabel? line = some label ∧ d.define label = .ok d') ∨
      ∃ head args, line = head :: args ∧ definedLabel? line = none ∧ d.instruction number head args = .ok d' := by
  rcases line with _ | ⟨head, args⟩
  · cases h
    exact .inl ⟨rfl, rfl⟩
  · rw [readLine] at h
    cases hlabel : definedLabel? (head :: args) with
    | some label =>
      rw [hlabel] at h
      exact .inr (.inl ⟨label, rfl, h⟩)
    | none =>
      rw [hlabel] at h
      exact .inr (.inr ⟨head, args, rfl, rfl, h⟩)

end Draft

/-! ### Lines of a source -/

/-- The attributes of a header are numbers of registers and locals. -/
theorem readAttributes_eq_ok {d d' : Draft} {ts : List Token} (h : readAttributes d ts = .ok d') :
    ∃ registers locals, d' = { d with registers, locals } ∧ (0 ≤ d.locals → 0 ≤ locals) := by
  induction ts generalizing d with
  | nil =>
    cases h
    exact ⟨_, _, rfl, id⟩
  | cons t ts ih =>
    rw [readAttributes] at h
    split at h
    · cases h
    · split at h
      · cases h
      · split_ifs at h with hneg
        · obtain ⟨registers, locals, rfl, hlocals⟩ := ih h
          exact ⟨registers, locals, rfl, hlocals⟩
        · obtain ⟨registers, locals, rfl, hlocals⟩ := ih h
          exact ⟨registers, locals, rfl, fun _ => hlocals (Int64.not_lt.1 hneg)⟩

theorem atLine_eq_ok {α : Type} {number : Nat} {x : Except Complaint α} {a : α} :
    atLine number x = .ok a ↔ x = .ok a := by
  cases x <;> simp [atLine]

namespace Reader

variable {r r' : Reader} {number : Nat}

/-- How the words of a line are read, and where the reader stands then. -/
inductive Turns (r : Reader) (number : Nat) : List Token → Reader → Prop
  | blank : Turns r number [] r
  | header {name : Text} {attributes : List Token} {d : Draft} (hcurrent : r.current = none)
      (hnew : ∀ e ∈ r.finished, e.name ≠ name)
      (hread : readAttributes { name, line := number } attributes = .ok d) :
      Turns r number (.word ".irep" :: .word name :: attributes) { r with current := some d }
  | finish {args : List Token} {d : Draft} {code : Array Inst} (hcurrent : r.current = some d)
      (hcode : d.resolve = .ok code) :
      Turns r number (.word ".end" :: args) ⟨r.finished.push { d with code }, none⟩
  | content {head : Token} {args : List Token} {d d' : Draft} (hcurrent : r.current = some d)
      (hbegin : head ≠ .word ".irep") (hend : head ≠ .word ".end")
      (hread : d.readLine number (head :: args) = .ok d') :
      Turns r number (head :: args) { r with current := some d' }

theorem beginBlock_turns {args : List Token} (h : r.beginBlock number args = .ok r') :
    r.Turns number (.word ".irep" :: args) r' := by
  unfold beginBlock at h
  split at h
  · cases h
  · next hcurrent =>
    split at h
    · split_ifs at h with hnew
      obtain ⟨d, hread, rfl⟩ := bind_pure_eq_ok.1 h
      refine .header hcurrent (fun e he heq => hnew ?_) hread
      exact Array.any_eq_true'.2 ⟨e, he, beq_iff_eq.2 heq⟩
    · cases h

theorem endBlock_turns {args : List Token} (h : r.endBlock number = .ok r') :
    r.Turns number (.word ".end" :: args) r' := by
  unfold endBlock at h
  split at h
  · cases h
  · next d hcurrent =>
    obtain ⟨code, hcode, rfl⟩ := bind_pure_eq_ok.1 h
    exact .finish hcurrent hcode

theorem content_turns {head : Token} {args : List Token} (hbegin : head ≠ .word ".irep")
    (hend : head ≠ .word ".end") (h : r.content number head args = .ok r') :
    r.Turns number (head :: args) r' := by
  unfold content at h
  split at h
  · cases h
  · next d hcurrent =>
    have hline : (d.readLine number (head :: args) >>= fun d' => pure { r with current := some d' }) = .ok r' := by
      rw [Draft.readLine]
      cases hlabel : definedLabel? (head :: args) <;> rwa [hlabel] at h
    obtain ⟨d', hread, rfl⟩ := bind_pure_eq_ok.1 hline
    exact .content hcurrent hbegin hend hread

theorem line_eq_ok {text : Text} (h : r.line number text = .ok r') :
    ∃ ts, tokens text = .ok ts ∧ r.Turns number ts r' := by
  unfold Reader.line at h
  cases htokens : tokens text with
  | error e =>
    rw [htokens] at h
    cases h
  | ok ts =>
    rw [htokens] at h
    refine ⟨ts, rfl, ?_⟩
    rcases ts with _ | ⟨head, args⟩
    · cases h
      exact .blank
    · dsimp only at h
      split_ifs at h with hbegin hend
      · exact hbegin ▸ beginBlock_turns (atLine_eq_ok.1 h)
      · exact hend ▸ endBlock_turns h
      · exact content_turns hbegin hend (atLine_eq_ok.1 h)

/-- What holds at the start and is kept line by line holds at the end. -/
theorem lines_induction {P : Reader → Prop} {texts : List (Text × Nat)} (h : P r)
    (hline : ∀ x ∈ texts, ∀ r r', P r → r.line x.2 x.1 = .ok r' → P r') (hread : r.lines texts = .ok r') :
    P r' := by
  induction texts generalizing r with
  | nil =>
    cases hread
    exact h
  | cons x texts ih =>
    obtain ⟨hx, htexts⟩ := List.forall_mem_cons.1 hline
    obtain ⟨s, hfirst, hrest⟩ := bind_eq_ok.1 hread
    exact ih (hx r s h hfirst) htexts hrest

end Reader

end Assembly

end ObjectMachine
