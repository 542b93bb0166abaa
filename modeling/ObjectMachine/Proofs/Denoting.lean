import ObjectMachine.Proofs.Outlines
import ObjectMachine.Proofs.Relisting

/-! What the operands of assembled code stand for. Literals are kept in a pool, where each is the first of
those that count as the same; symbols and children are numbered by name; and an operand that waits for
its label is filled in at the end of the block. -/

namespace ObjectMachine.Assembly

/-! ### What is written -/

def opcode? : List Token → Option Opcode
  | .word name :: _ => Opcode.ofMnemonic? (upperCase name)
  | _ => none

def writtenOperands (line : List Token) : List (OperandKind × Token) :=
  match opcode? line with
  | some op => op.operands.zip line.tail
  | none => []

def literalsOf (xs : List (OperandKind × Token)) : List Literal :=
  xs.filterMap fun x => if x.1 = .literal then (readLiteral x.2).toOption else none

/-- The first of some literals that is the same as another, or else that one. -/
def shared (earlier : List Literal) (lit : Literal) : Literal :=
  (earlier.find? (Literal.same · lit)).getD lit

/-- A line that defines a label with so many instructions before it. -/
def Defines (lines : List (List Token)) (label : Text) (pc : Nat) : Prop :=
  ∃ before line after, lines = before ++ line :: after ∧ definedLabel? line = some label ∧
    pc = (instructionLines before).length

theorem literalsOf_append (xs ys : List (OperandKind × Token)) :
    literalsOf (xs ++ ys) = literalsOf xs ++ literalsOf ys := List.filterMap_append

theorem literalsOf_literal {t : Token} {lit : Literal} (h : readLiteral t = .ok lit) :
    literalsOf [(.literal, t)] = [lit] := by
  rw [literalsOf, List.filterMap_cons, if_pos rfl, h]
  rfl

theorem literalsOf_other {kind : OperandKind} {t : Token} (h : kind ≠ .literal) : literalsOf [(kind, t)] = [] := by
  rw [literalsOf, List.filterMap_cons, if_neg h]
  rfl

/-- Another line may define one more label. -/
theorem defines_append {lines : List (List Token)} {line : List Token} {label : Text} {pc : Nat} :
    Defines (lines ++ [line]) label pc ↔
      Defines lines label pc ∨ definedLabel? line = some label ∧ pc = (instructionLines lines).length := by
  constructor
  · rintro ⟨before, defining, after, heq, hlabel, rfl⟩
    rcases List.eq_nil_or_concat after with rfl | ⟨after, last, rfl⟩
    · obtain ⟨rfl, hline⟩ := List.append_inj' heq rfl
      cases hline
      exact .inr ⟨hlabel, rfl⟩
    · rw [List.concat_eq_append, ← List.cons_append, ← List.append_assoc] at heq
      exact .inl ⟨before, defining, after, (List.append_inj' heq rfl).1, hlabel, rfl⟩
  · rintro (⟨before, defining, after, rfl, hlabel, rfl⟩ | ⟨hlabel, rfl⟩)
    · exact ⟨before, defining, after ++ [line], by simp, hlabel, rfl⟩
    · exact ⟨lines, line, [], rfl, hlabel, rfl⟩

/-! ### Pools -/

/-- Whatever literal is looked for, the same is found first among the written ones and in the pool. -/
def Pooled (written : List Literal) (pool : Array Literal) : Prop :=
  ∀ lit, pool.toList.find? (Literal.same · lit) = written.find? (Literal.same · lit)

theorem find?_toList_of_findIdx? {α : Type} {xs : Array α} {p : α → Bool} {i : Nat}
    (h : xs.findIdx? p = some i) : xs[i]? = xs.toList.find? p := by
  obtain ⟨hi, hat, hbefore⟩ := Array.findIdx?_eq_some_iff_getElem.1 h
  rw [Array.getElem?_eq_getElem hi, eq_comm, List.find?_eq_some_iff_getElem]
  refine ⟨hat, i, by simpa using hi, rfl, fun j hj => ?_⟩
  simpa using hbefore j hj

theorem Pooled.place {written : List Literal} {pool pool' : Array Literal} {lit : Literal} {n : Int64}
    (h : Pooled written pool) (hplace : Assembly.place pool lit (Literal.same · lit) = (pool', n)) :
    Pooled (written ++ [lit]) pool' ∧ ∃ k, n = Int64.ofNat k ∧ pool'[k]? = some (shared written lit) := by
  unfold Assembly.place at hplace
  cases hfound : pool.findIdx? (Literal.same · lit) with
  | some i =>
    rw [hfound] at hplace
    cases hplace
    have hentry := (find?_toList_of_findIdx? hfound).trans (h lit)
    obtain ⟨hi, hsame, -⟩ := Array.findIdx?_eq_some_iff_getElem.1 hfound
    refine ⟨fun other => ?_, i, rfl, ?_⟩
    · rw [h other, List.find?_append]
      cases hother : written.find? (Literal.same · other) with
      | some => rfl
      | none =>
        -- were the new literal the same as the other, so were the entry it shares
        have hnone := (h other).trans hother
        have hentry := List.find?_eq_none.1 hnone pool[i] (Array.getElem_mem_toList hi)
        have hlit : Literal.same lit other = false := by
          refine Bool.eq_false_iff.2 fun heq => hentry ?_
          rw [← same_literal pool[i] lit other heq]
          exact hsame
        simp [hlit]
    · rw [hentry, shared]
      cases hwritten : written.find? (Literal.same · lit) with
      | some => rfl
      | none =>
        rw [hwritten, Array.getElem?_eq_getElem hi] at hentry
        cases hentry
  | none =>
    rw [hfound] at hplace
    cases hplace
    have hnone : written.find? (Literal.same · lit) = none := by
      rw [← h lit, List.find?_eq_none]
      intro x hx
      simpa using Array.findIdx?_eq_none_iff.1 hfound x (Array.mem_toList_iff.1 hx)
    refine ⟨fun other => ?_, _, rfl, ?_⟩
    · rw [Array.toList_push, List.find?_append, List.find?_append, h other]
    · rw [shared, hnone, Option.getD_none]
      exact Array.getElem?_push_size

/-! ### Operands -/

namespace Draft

variable {d d' d'' : Draft} {line pc slot : Nat} {earlier xs : List (OperandKind × Token)} {n : Int64}

/-- All that was numbered keeps its number, and operands keep waiting. -/
structure Grows (d d' : Draft) : Prop where
  code : d'.code = d.code
  labels : d'.labels = d.labels
  pool : ∀ (k : Nat) lit, d.pool[k]? = some lit → d'.pool[k]? = some lit
  symbols : ∀ (k : Nat) name, d.symbols[k]? = some name → d'.symbols[k]? = some name
  references : ∀ (k : Nat) ref, d.references[k]? = some ref → d'.references[k]? = some ref
  fixups : ∀ f ∈ d.fixups, f ∈ d'.fixups

theorem Grows.refl (d : Draft) : d.Grows d :=
  ⟨rfl, rfl, fun _ _ => id, fun _ _ => id, fun _ _ => id, fun _ => id⟩

theorem Grows.trans (h : d.Grows d') (h' : d'.Grows d'') : d.Grows d'' where
  code := h'.code.trans h.code
  labels := h'.labels.trans h.labels
  pool k lit hk := h'.pool k lit (h.pool k lit hk)
  symbols k name hk := h'.symbols k name (h.symbols k name hk)
  references k ref hk := h'.references k ref (h.references k ref hk)
  fixups f hf := h'.fixups f (h.fixups f hf)

/-- What a number in the given slot of an instruction stands for. A label that is no number waits. -/
def Means (d : Draft) (earlier : List (OperandKind × Token)) (pc slot : Nat) (x : OperandKind × Token)
    (n : Int64) : Prop :=
  match x.1 with
  | .register => readRegister x.2 = .ok n
  | .integer => readInteger x.2 = .ok n
  | .literal => ∃ lit k, readLiteral x.2 = .ok lit ∧ n = Int64.ofNat k ∧
      d.pool[k]? = some (shared (literalsOf earlier) lit)
  | .symbol => ∃ name k, readSymbol x.2 = .ok name ∧ n = Int64.ofNat k ∧ d.symbols[k]? = some name
  | .child => ∃ name k number, afterMark? '@' x.2 = some name ∧ n = Int64.ofNat k ∧
      d.references[k]? = some (number, name)
  | .label => ∃ label, x.2 = .word label ∧
      match Text.readInt64? label with
      | some m => n = m
      | none => ∃ f ∈ d.fixups, f.pc = pc ∧ f.slot = slot ∧ f.label = label
  | .none => False

theorem Grows.means {x : OperandKind × Token} (h : d.Grows d') (hx : d.Means earlier pc slot x n) :
    d'.Means earlier pc slot x n := by
  obtain ⟨kind, t⟩ := x
  cases kind with
  | register => exact hx
  | integer => exact hx
  | none => exact hx
  | literal =>
    obtain ⟨lit, k, hlit, hn, hk⟩ := hx
    exact ⟨lit, k, hlit, hn, h.pool k _ hk⟩
  | symbol =>
    obtain ⟨name, k, hname, hn, hk⟩ := hx
    exact ⟨name, k, hname, hn, h.symbols k _ hk⟩
  | child =>
    obtain ⟨name, k, number, hname, hn, hk⟩ := hx
    exact ⟨name, k, number, hname, hn, h.references k _ hk⟩
  | label =>
    obtain ⟨label, hlabel, hx⟩ := hx
    refine ⟨label, hlabel, ?_⟩
    cases hread : Text.readInt64? label with
    | some m =>
      rw [hread] at hx
      exact hx
    | none =>
      rw [hread] at hx
      obtain ⟨f, hf, hpos⟩ := hx
      exact ⟨f, h.fixups f hf, hpos⟩

/-- A draft before and after written operands are read for the slots from `slot` on. -/
structure Adds (d : Draft) (earlier : List (OperandKind × Token)) (slot : Nat) (xs : List (OperandKind × Token))
    (ns : List Int64) (d' : Draft) : Prop where
  grows : d.Grows d'
  pooled : Pooled (literalsOf (earlier ++ xs)) d'.pool
  means : ∀ (j : Nat) x n, xs[j]? = some x → ns[j]? = some n →
    d'.Means (earlier ++ xs.take j) d.code.size (slot + j) x n
  fixups : ∀ f ∈ d'.fixups, f ∈ d.fixups ∨ f.pc = d.code.size ∧ Text.readInt64? f.label = none ∧
    ∃ j, f.slot = slot + j ∧ xs[j]? = some (.label, .word f.label)

theorem Adds.nil (h : Pooled (literalsOf earlier) d.pool) : d.Adds earlier slot [] [] d where
  grows := .refl d
  pooled := by rwa [List.append_nil]
  means := by simp
  fixups _ hf := .inl hf

theorem Adds.cons {x : OperandKind × Token} {ns : List Int64} (h : d.Adds earlier slot [x] [n] d')
    (h' : d'.Adds (earlier ++ [x]) (slot + 1) xs ns d'') : d.Adds earlier slot (x :: xs) (n :: ns) d'' where
  grows := h.grows.trans h'.grows
  pooled := by simpa using h'.pooled
  means j y m hy hm := by
    rcases j with _ | j
    · exact h'.grows.means (h.means 0 y m hy hm)
    · have hmeans := h'.means j y m hy hm
      rw [h.grows.code] at hmeans
      simpa [Nat.add_assoc, Nat.add_comm 1 j] using hmeans
  fixups f hf := by
    rcases h'.fixups f hf with hf | ⟨hpc, hread, j, hslot, hj⟩
    · rcases h.fixups f hf with hf | ⟨hpc, hread, j, hslot, hj⟩
      · exact .inl hf
      · rcases j with _ | j
        · exact .inr ⟨hpc, hread, 0, hslot, hj⟩
        · cases hj
    · exact .inr ⟨hpc.trans (congrArg Array.size h.grows.code), hread, j + 1, by omega, hj⟩

/-- One operand, of which all is known but what it does to the draft. -/
theorem Adds.one {x : OperandKind × Token} (hgrows : d.Grows d')
    (hpooled : Pooled (literalsOf (earlier ++ [x])) d'.pool) (hmeans : d'.Means earlier d.code.size slot x n)
    (hfixups : ∀ f ∈ d'.fixups, f ∈ d.fixups ∨ f.pc = d.code.size ∧ Text.readInt64? f.label = none ∧
      f.slot = slot ∧ x = (.label, .word f.label)) : d.Adds earlier slot [x] [n] d' where
  grows := hgrows
  pooled := hpooled
  means j y m hy hm := by
    obtain rfl : j = 0 := by simpa using (List.getElem?_eq_some_iff.1 hy).1
    cases hy
    cases hm
    simpa using hmeans
  fixups f hf := (hfixups f hf).imp_right fun ⟨hpc, hread, hslot, hx⟩ =>
    ⟨hpc, hread, 0, hslot, congrArg some hx⟩

/-- An entry that is placed by a key. -/
theorem getElem?_of_place {α : Type} {xs ys : Array α} {x : α} {isSame : α → Bool}
    (h : place xs x isSame = (ys, n)) (hx : isSame x) :
    ∃ k y, n = Int64.ofNat k ∧ ys[k]? = some y ∧ isSame y := by
  unfold place at h
  cases hfound : xs.findIdx? isSame with
  | some i =>
    rw [hfound] at h
    cases h
    obtain ⟨hi, hat, -⟩ := Array.findIdx?_eq_some_iff_getElem.1 hfound
    exact ⟨i, xs[i], rfl, Array.getElem?_eq_getElem hi, hat⟩
  | none =>
    rw [hfound] at h
    cases h
    exact ⟨_, x, rfl, Array.getElem?_push_size, hx⟩

theorem getElem?_place {α : Type} {xs ys : Array α} {x y : α} {isSame : α → Bool} {k : Nat}
    (h : place xs x isSame = (ys, n)) (hk : xs[k]? = some y) : ys[k]? = some y := by
  unfold place at h
  split at h
  · cases h
    exact hk
  · cases h
    rw [Array.getElem?_push, if_neg (Array.getElem?_eq_some_iff.1 hk).1.ne, hk]

theorem Numbers.adds {kind : OperandKind} {t : Token} (hpool : Pooled (literalsOf earlier) d.pool)
    (h : d.Numbers line slot kind t n d') : d.Adds earlier slot [(kind, t)] [n] d' := by
  have hplain : kind ≠ .literal → Pooled (literalsOf (earlier ++ [(kind, t)])) d.pool := fun hkind => by
    rwa [literalsOf_append, literalsOf_other hkind, List.append_nil]
  cases h with
  | register hread => exact .one (.refl d) (hplain (by decide)) hread fun _ => .inl
  | integer hread => exact .one (.refl d) (hplain (by decide)) hread fun _ => .inl
  | @literal _ lit _ _ hread hplace =>
    obtain ⟨hpooled, k, hk, hentry⟩ := hpool.place hplace
    refine .one ⟨rfl, rfl, fun _ _ => getElem?_place hplace, fun _ _ => id, fun _ _ => id, fun _ => id⟩ ?_
      ⟨lit, k, hread, hk, hentry⟩ fun _ => .inl
    rwa [literalsOf_append, literalsOf_literal hread]
  | @symbol _ name _ _ hread hplace =>
    obtain ⟨k, y, hk, hentry, hy⟩ := getElem?_of_place hplace (beq_self_eq_true name)
    obtain rfl := eq_of_beq hy
    exact .one ⟨rfl, rfl, fun _ _ => id, fun _ _ => getElem?_place hplace, fun _ _ => id, fun _ => id⟩
      (hplain (by decide)) ⟨y, k, hread, hk, hentry⟩ fun _ => .inl
  | @child _ name _ _ hread hplace =>
    obtain ⟨k, ⟨number, y⟩, hk, hentry, hy⟩ := getElem?_of_place hplace (beq_self_eq_true name)
    obtain rfl : y = name := eq_of_beq hy
    exact .one ⟨rfl, rfl, fun _ _ => id, fun _ _ => id, fun _ _ => getElem?_place hplace, fun _ => id⟩
      (hplain (by decide)) ⟨y, k, number, hread, hk, hentry⟩ fun _ => .inl
  | @position label _ hread =>
    exact .one (.refl d) (hplain (by decide)) ⟨label, rfl, by rw [hread]⟩ fun _ => .inl
  | @label label hread =>
    refine .one ⟨rfl, rfl, fun _ _ => id, fun _ _ => id, fun _ _ => id, fun _ => Array.mem_push_of_mem _⟩
      (hplain (by decide)) ⟨label, rfl, ?_⟩ fun f hf => ?_
    · rw [hread]
      exact ⟨_, Array.mem_push_self, rfl, rfl, rfl⟩
    · refine (Array.mem_push.1 hf).imp_right fun heq => ?_
      cases heq
      exact ⟨rfl, hread, rfl, rfl⟩

theorem operandsFrom_adds {kinds : List OperandKind} {ts : List Token} {ns : List Int64}
    (hpool : Pooled (literalsOf earlier) d.pool) (h : d.operandsFrom line slot kinds ts = .ok (d', ns)) :
    d.Adds earlier slot (kinds.zip ts) ns d' := by
  induction kinds generalizing d earlier slot ts ns with
  | nil =>
    cases h
    exact .nil hpool
  | cons kind kinds ih =>
    cases ts with
    | nil =>
      cases h
      exact .nil hpool
    | cons t ts =>
      obtain ⟨e, n, ms, hfirst, hrest, rfl⟩ := operandsFrom_cons_eq_ok h
      have hadds := hfirst.adds hpool
      exact hadds.cons (ih hadds.pooled hrest)

end Draft

/-! ### Lines -/

/-- A line names an operation and gives as many operands as it takes. -/
structure Matches (line : List Token) (op : Opcode) : Prop where
  opcode : opcode? line = some op
  arity : line.tail.length = op.operands.length

theorem Matches.written {line : List Token} {op : Opcode} (h : Matches line op) :
    writtenOperands line = op.operands.zip line.tail := by
  rw [writtenOperands, h.opcode]

/-- What is written before the given slot of the given instruction. -/
def writtenBefore (lines : List (List Token)) (k slot : Nat) : List (OperandKind × Token) :=
  (lines.take k).flatMap writtenOperands ++ ((lines[k]?).elim [] writtenOperands).take slot

theorem writtenBefore_append {lines more : List (List Token)} {k slot : Nat} (hk : k < lines.length) :
    writtenBefore (lines ++ more) k slot = writtenBefore lines k slot := by
  rw [writtenBefore, writtenBefore, List.getElem?_append_left hk, List.take_append_of_le_length hk.le]

theorem writtenBefore_length {lines : List (List Token)} {line : List Token} {slot : Nat} :
    writtenBefore (lines ++ [line]) lines.length slot =
      lines.flatMap writtenOperands ++ (writtenOperands line).take slot := by
  rw [writtenBefore, List.getElem?_concat_length, List.take_left]
  rfl

/-- A draft that some lines were read into. -/
structure Draft.Tells (lines : List (List Token)) (d : Draft) : Prop where
  labels : ∀ label pc, d.labels.lookup label = some pc ↔ Defines lines label pc
  pooled : Pooled (literalsOf ((instructionLines lines).flatMap writtenOperands)) d.pool
  code : List.Forall₂ Matches (instructionLines lines) (d.code.toList.map Inst.op)
  means : ∀ k slot line i x n, (instructionLines lines)[k]? = some line → d.code[k]? = some i →
    (writtenOperands line)[slot]? = some x → i.operands[slot]? = some (x.1, n) →
      d.Means (writtenBefore (instructionLines lines) k slot) k slot x n
  fixups : ∀ f ∈ d.fixups, Text.readInt64? f.label = none ∧ ∃ line,
    (instructionLines lines)[f.pc]? = some line ∧ (writtenOperands line)[f.slot]? = some (.label, .word f.label)

namespace Draft

variable {d d' : Draft} {number : Nat} {line : List Token} {lines : List (List Token)}

theorem Fresh.tells (h : d.Fresh) : d.Tells [] where
  labels label pc := by
    rw [h.labels]
    refine iff_of_false (by simp) ?_
    rintro ⟨before, line, after, heq, -⟩
    simp at heq
  pooled lit := by simp [h.pool, instructionLines, literalsOf]
  code := by
    rw [h.code]
    exact .nil
  means k slot line i x n hline := by simp [instructionLines] at hline
  fixups f hf := by simp [h.fixups] at hf

theorem Tells.size (h : d.Tells lines) : d.code.size = (instructionLines lines).length := by
  rw [h.code.length_eq, List.length_map, Array.length_toList]

/-- A line without an instruction adds nothing but a label. -/
theorem Tells.relabel {labels : List (Text × Nat)} (h : d.Tells lines) (hline : ¬isInstruction line)
    (hlabels : ∀ label pc, labels.lookup label = some pc ↔ Defines (lines ++ [line]) label pc) :
    Tells (lines ++ [line]) { d with labels } := by
  have hinst : instructionLines (lines ++ [line]) = instructionLines lines := by
    simp [instructionLines, hline]
  refine ⟨hlabels, ?_, ?_, ?_, ?_⟩
  · rw [hinst]
    exact h.pooled
  · rw [hinst]
    exact h.code
  · rw [hinst]
    exact h.means
  · rw [hinst]
    exact h.fixups

theorem Tells.define {label : Text} (h : d.Tells lines) (hline : definedLabel? line = some label)
    (hread : d.define label = .ok d') : d'.Tells (lines ++ [line]) := by
  obtain ⟨hnew, rfl⟩ := define_eq_ok hread
  refine h.relabel (by simp [isInstruction, hline]) fun other pc => ?_
  rw [defines_append, hline, List.lookup_cons, Option.some_inj]
  by_cases heq : other = label
  · have hnone : ¬Defines lines other pc := fun hdef => by
      rw [heq, ← h.labels, hnew] at hdef
      cases hdef
    simp [heq, heq ▸ hnone, h.size, eq_comm]
  · rw [beq_eq_false_iff_ne.2 heq]
    simp [Ne.symm heq, h.labels]

theorem Tells.instruction {head : Token} {args : List Token} (h : d.Tells lines)
    (hline : definedLabel? (head :: args) = none) (hread : d.instruction number head args = .ok d') :
    d'.Tells (lines ++ [head :: args]) := by
  have hinst : instructionLines (lines ++ [head :: args]) = instructionLines lines ++ [head :: args] := by
    simp [instructionLines, isInstruction, hline]
  obtain ⟨name, op, e, ns, rfl, hop, harity, hoperands, rfl⟩ := instruction_eq_ok hread
  obtain ⟨hlength, -⟩ := operandsFrom_reads harity hoperands
  have hadds := operandsFrom_adds h.pooled hoperands
  have hmatches : Matches (.word name :: args) op := ⟨hop, harity⟩
  have hwritten : writtenOperands (.word name :: args) = op.operands.zip args := hmatches.written
  constructor
  · intro label pc
    rw [defines_append, hline, ← h.labels, hadds.grows.labels]
    simp
  · rw [hinst, List.flatMap_append, List.flatMap_singleton, hwritten]
    exact hadds.pooled
  · rw [hinst, Array.toList_push, hadds.grows.code, List.map_append]
    exact List.rel_append h.code (.cons hmatches .nil)
  · intro k slot line i x n hl hi hx hn
    rw [hinst] at hl ⊢
    rw [hadds.grows.code] at hi
    rcases Nat.lt_or_ge k (instructionLines lines).length with hk | hk
    · rw [List.getElem?_append_left hk] at hl
      rw [Array.getElem?_push, if_neg (h.size ▸ hk.ne)] at hi
      rw [writtenBefore_append hk]
      exact hadds.grows.means (h.means k slot line i x n hl hi hx hn)
    · obtain rfl : k = (instructionLines lines).length := by
        have hlt := (List.getElem?_eq_some_iff.1 hl).1
        rw [List.length_append, List.length_singleton] at hlt
        omega
      rw [List.getElem?_concat_length] at hl
      rw [← h.size, Array.getElem?_push_size] at hi
      cases hl
      cases hi
      rw [hwritten] at hx
      rw [writtenBefore_length, hwritten, ← h.size]
      have hns : ns[slot]? = some n := by
        change (Inst.make op ns).operands[slot]? = _ at hn
        rw [Inst.operands_make hlength] at hn
        exact (List.getElem?_zip_eq_some.1 hn).2
      have hmeans := hadds.means slot x n hx hns
      rwa [Nat.zero_add] at hmeans
  · intro f hf
    rw [hinst]
    rcases hadds.fixups f hf with hf | ⟨hpc, hlabel, j, hslot, hj⟩
    · obtain ⟨hlabel, line, hl, hslot⟩ := h.fixups f hf
      refine ⟨hlabel, line, ?_, hslot⟩
      rwa [List.getElem?_append_left (List.getElem?_eq_some_iff.1 hl).1]
    · refine ⟨hlabel, .word name :: args, ?_, ?_⟩
      · rw [hpc, h.size, List.getElem?_concat_length]
      · rw [hslot, Nat.zero_add, hwritten, hj]

theorem Tells.readLine (h : d.Tells lines) (hread : d.readLine number line = .ok d') :
    d'.Tells (lines ++ [line]) := by
  rcases readLine_eq_ok hread with ⟨rfl, rfl⟩ | ⟨label, hline, hdefine⟩ | ⟨head, args, rfl, hline, hinst⟩
  · refine h.relabel (by simp [isInstruction]) fun label pc => ?_
    rw [defines_append, h.labels]
    simp [definedLabel?]
  · exact h.define hline hdefine
  · exact h.instruction hline hinst

theorem Tells.takes {more : List (List Token)} (h : d.Tells lines) (htakes : d.Takes more d') :
    d'.Tells (lines ++ more) := by
  induction htakes generalizing lines with
  | nil => rwa [List.append_nil]
  | cons first _ ih =>
    rw [List.append_cons]
    exact ih (h.readLine first)

/-! ### Labels -/

theorem operands_setSlot {i : Inst} {slot slot' : Nat} {n : Int64} (hslot : slot < 3) :
    (setSlot i slot n).operands[slot']? =
      i.operands[slot']?.map fun x => if slot' = slot then (x.1, n) else x := by
  have hset : (setSlot i slot n).operands = i.op.operands.zip ([i.a, i.b, i.c].set slot n) := by
    rcases slot with _ | _ | _ | slot
    · rfl
    · rfl
    · rfl
    · omega
  rw [hset, Inst.operands, List.zip_eq_zipWith, List.zip_eq_zipWith, List.getElem?_zipWith, List.getElem?_zipWith,
    List.getElem?_set]
  cases i.op.operands[slot']? with
  | none => rfl
  | some kind =>
    by_cases heq : slot = slot'
    · subst heq
      have hlt : slot < [i.a, i.b, i.c].length := hslot
      rw [List.getElem?_eq_getElem hlt]
      simp [hslot]
    · cases hn : [i.a, i.b, i.c][slot']? <;> simp [heq, Ne.symm heq]

/-- An operand of resolved code is filled in, or it never waited. -/
theorem resolve_spec {code : Array Inst} (h : d.resolve = .ok code)
    (hslots : ∀ f ∈ d.fixups, f.slot < 3) {k : Nat} {i : Inst} (hi : d.code[k]? = some i) :
    ∃ i', code[k]? = some i' ∧ i'.op = i.op ∧
      ∀ slot x, i'.operands[slot]? = some x →
        (∃ f ∈ d.fixups, f.pc = k ∧ f.slot = slot ∧
          ∃ pc, d.labels.lookup f.label = some pc ∧ x.2 = Int64.ofNat pc) ∨
          (∀ f ∈ d.fixups, f.pc = k → f.slot ≠ slot) ∧ i.operands[slot]? = some x := by
  obtain ⟨fs, hfs⟩ : ∃ fs, d.fixups.toList = fs := ⟨_, rfl⟩
  induction fs generalizing d i with
  | nil =>
    rw [resolve_nil hfs] at h
    cases h
    refine ⟨i, hi, rfl, fun slot x hx => .inr ⟨fun f hf => ?_, hx⟩⟩
    rw [← Array.mem_toList_iff, hfs] at hf
    cases hf
  | cons f fs ih =>
    cases hlabel : d.labels.lookup f.label with
    | none =>
      rw [resolve_undefined hfs hlabel] at h
      cases h
    | some pc =>
      rw [resolve_cons hfs hlabel] at h
      have hrest : ∀ g ∈ (d.fill f fs pc).fixups, g ∈ d.fixups := fun g hg =>
        Array.mem_toList_iff.1 (hfs ▸ List.mem_cons_of_mem f (by simpa [fill] using hg))
      have hmem : f ∈ d.fixups := Array.mem_toList_iff.1 (hfs ▸ List.mem_cons_self)
      have hfilled : (d.fill f fs pc).code[k]? =
          some (if f.pc = k then setSlot i f.slot (Int64.ofNat pc) else i) := by
        rw [fill, Array.getElem?_modify, hi]
        split_ifs
        · rfl
        · rfl
      obtain ⟨i', hi', hop, hoperands⟩ := ih h (fun g hg => hslots g (hrest g hg)) hfilled (by simp [fill])
      refine ⟨i', hi', ?_, fun slot x hx => ?_⟩
      · rw [hop]
        split_ifs
        · exact op_setSlot
        · rfl
      · rcases hoperands slot x hx with ⟨g, hg, hk, hslot, hdef⟩ | ⟨hnone, hx⟩
        · exact .inl ⟨g, hrest g hg, hk, hslot, hdef⟩
        · have hothers : (f.pc = k → f.slot ≠ slot) → ∀ g ∈ d.fixups, g.pc = k → g.slot ≠ slot := by
            intro hf g hg
            rw [← Array.mem_toList_iff, hfs] at hg
            rcases List.mem_cons.1 hg with rfl | hg
            · exact hf
            · exact hnone g (by simpa [fill] using hg)
          by_cases hk : f.pc = k
          · rw [if_pos hk, operands_setSlot (hslots f hmem)] at hx
            obtain ⟨y, hy, heq⟩ := Option.map_eq_some_iff.1 hx
            by_cases hslot : slot = f.slot
            · rw [if_pos hslot] at heq
              exact .inl ⟨f, hmem, hk, hslot.symm, pc, hlabel, heq ▸ rfl⟩
            · rw [if_neg hslot] at heq
              exact .inr ⟨hothers fun _ => Ne.symm hslot, heq ▸ hy⟩
          · rw [if_neg hk] at hx
            exact .inr ⟨hothers fun hpc => absurd hpc hk, hx⟩

end Draft

/-! ### Blocks -/

/-- What an operand of a block stands for. A label that is no number is one of the block, defined once. -/
def Section.Means (s : Section) (p : Program) (b : Block) (k slot : Nat) (x : OperandKind × Token)
    (n : Int64) : Prop :=
  match x.1 with
  | .register => readRegister x.2 = .ok n
  | .integer => readInteger x.2 = .ok n
  | .literal => ∃ lit, readLiteral x.2 = .ok lit ∧ entryAt? b.pool n =
      some (shared (literalsOf (writtenBefore (instructionLines s.lines) k slot)) lit)
  | .symbol => ∃ name, readSymbol x.2 = .ok name ∧ entryAt? b.symbols n = some name
  | .child => ∃ name c, afterMark? '@' x.2 = some name ∧ entryAt? b.children n = some c ∧
      ∀ j < p.blocks.size, (p.block j).name = name ↔ j = c
  | .label => ∃ label, x.2 = .word label ∧
      match Text.readInt64? label with
      | some m => n = m
      | none => ∃ pc, (∀ q, Defines s.lines label q ↔ q = pc) ∧ n = Int64.ofNat pc
  | .none => False

/-- A section and the block that it is assembled to. -/
structure Section.Denotes (s : Section) (p : Program) (b : Block) : Prop where
  name : b.name = s.name
  code : List.Forall₂ Matches (instructionLines s.lines) (b.code.toList.map Inst.op)
  means : ∀ k slot line i x n, (instructionLines s.lines)[k]? = some line → b.code[k]? = some i →
    (writtenOperands line)[slot]? = some x → i.operands[slot]? = some (x.1, n) → s.Means p b k slot x n

theorem matches_getElem? {lines : List (List Token)} {code : Array Inst} {k : Nat} {line : List Token} {i : Inst}
    (h : List.Forall₂ Matches lines (code.toList.map Inst.op)) (hline : lines[k]? = some line)
    (hi : code[k]? = some i) : Matches line i.op := by
  obtain ⟨hk, rfl⟩ := List.getElem?_eq_some_iff.1 hline
  obtain ⟨hk', rfl⟩ := Array.getElem?_eq_some_iff.1 hi
  simpa using h.get hk (by simpa using hk')

namespace Draft.Tells

variable {d : Draft} {lines : List (List Token)} {k slot : Nat} {line : List Token} {i : Inst} {code : Array Inst}

theorem matches_of (h : d.Tells lines) (hline : (instructionLines lines)[k]? = some line)
    (hi : d.code[k]? = some i) : Matches line i.op :=
  matches_getElem? h.code hline hi

/-- What waits is an operand for a label. -/
theorem waiting (h : d.Tells lines) {f : Fixup} (hf : f ∈ d.fixups) :
    ∃ i, d.code[f.pc]? = some i ∧ i.op.operands[f.slot]? = some .label := by
  obtain ⟨-, line, hline, hslot⟩ := h.fixups f hf
  have hlt := (List.getElem?_eq_some_iff.1 hline).1
  rw [← h.size] at hlt
  have hi := Array.getElem?_eq_getElem hlt
  rw [(h.matches_of hline hi).written] at hslot
  exact ⟨_, hi, (List.getElem?_zip_eq_some.1 hslot).1⟩

theorem ops_resolve (h : d.Tells lines) (hcode : d.resolve = .ok code) :
    code.toList.map Inst.op = d.code.toList.map Inst.op := by
  have hsame := congrArg (List.map Inst.op) (resolve_unlabelled hcode fun f hf => h.waiting hf)
  rwa [List.map_map, List.map_map] at hsame

/-- A number that never waited means what it meant; one that waited is that of its label. -/
theorem resolved {slot : Nat} {i' : Inst} {x : OperandKind × Token} {n : Int64} (h : d.Tells lines)
    (hcode : d.resolve = .ok code) (hline : (instructionLines lines)[k]? = some line) (hi' : code[k]? = some i')
    (hx : (writtenOperands line)[slot]? = some x) (hn : i'.operands[slot]? = some (x.1, n)) :
    (∃ label pc, x = (.label, .word label) ∧ Text.readInt64? label = none ∧
      (∀ q, Defines lines label q ↔ q = pc) ∧ n = Int64.ofNat pc) ∨
    ((∀ f ∈ d.fixups, f.pc = k → f.slot ≠ slot) ∧
      d.Means (writtenBefore (instructionLines lines) k slot) k slot x n) := by
  have hslots : ∀ f ∈ d.fixups, f.slot < 3 := fun f hf => by
    obtain ⟨i, -, hkind⟩ := h.waiting hf
    exact (List.getElem?_eq_some_iff.1 hkind).1.trans_le (Inst.length_operands_le i.op)
  have hlt := (List.getElem?_eq_some_iff.1 hline).1
  rw [← h.size] at hlt
  have hi := Array.getElem?_eq_getElem hlt
  obtain ⟨j, hj, -, hoperands⟩ := resolve_spec hcode hslots hi
  obtain rfl : j = i' := Option.some.inj (hj.symm.trans hi')
  rcases hoperands slot _ hn with ⟨f, hf, rfl, rfl, pc, hpc, hnumber⟩ | ⟨hnone, hn⟩
  · obtain ⟨hread, other, hother, hslot⟩ := h.fixups f hf
    obtain rfl : other = line := Option.some.inj (hother.symm.trans hline)
    obtain rfl : (.label, .word f.label) = x := Option.some.inj (hslot.symm.trans hx)
    refine .inl ⟨f.label, pc, rfl, hread, fun q => ?_, hnumber⟩
    rw [← h.labels, hpc, Option.some_inj, eq_comm]
  · exact .inr ⟨hnone, h.means k slot line _ x n hline hi hx hn⟩

end Draft.Tells

/-- What is numbered has an entry, when the numbers are few enough. -/
theorem entryAt?_of_getElem? {α : Type} {xs : Array α} {k : Nat} {x : α} (hsize : xs.size ≤ 2 ^ 63)
    (h : xs[k]? = some x) : entryAt? xs (Int64.ofNat k) = some x := by
  obtain ⟨hk, rfl⟩ := Array.getElem?_eq_some_iff.1 h
  exact Listing.entryAt?_ofNat hk (hk.trans_le hsize)

def linkedProgram (drafts : Array Draft) : Program := ⟨drafts.map (·.linked drafts)⟩

section

variable {drafts : Array Draft} {s : Section} {d : Draft} {j : Nat}

theorem block_linkedProgram (hj : drafts[j]? = some d) : (linkedProgram drafts).block j = d.linked drafts := by
  simp [linkedProgram, Program.block, hj]

/-- A name that is looked up is that of one block alone. -/
theorem name_block_iff {name : Text} {c : Nat} (hnames : (drafts.toList.map (·.name)).Nodup)
    (hc : indexOf? drafts name = some c) :
    ∀ j < (linkedProgram drafts).blocks.size, ((linkedProgram drafts).block j).name = name ↔ j = c := by
  intro j hj
  rw [linkedProgram, Array.size_map] at hj
  have hat : ∀ k (hk : k < drafts.size), ((linkedProgram drafts).block k).name = drafts[k].name := fun k hk => by
    rw [block_linkedProgram (Array.getElem?_eq_getElem hk)]
    rfl
  obtain ⟨d, hd, rfl⟩ := indexOf?_eq_some hc
  obtain ⟨hk, rfl⟩ := Array.getElem?_eq_some_iff.1 hd
  rw [hat j hj]
  refine ⟨fun heq => ?_, fun heq => by simp only [heq]⟩
  have hlength : (drafts.toList.map (·.name)).length = drafts.size := by simp
  have hsame : (drafts.toList.map (·.name)).get ⟨j, hlength ▸ hj⟩ =
      (drafts.toList.map (·.name)).get ⟨c, hlength ▸ hk⟩ := by simpa using heq
  exact congrArg Fin.val (List.nodup_iff_injective_get.1 hnames hsame)

theorem Section.Gives.denotes (h : s.Gives d) (hclosed : d.Closed drafts)
    (hnames : (drafts.toList.map (·.name)).Nodup) (hpasses : (d.linked drafts).Passes)
    (hassembled : (d.linked drafts).Assembled) : s.Denotes (linkedProgram drafts) (d.linked drafts) := by
  obtain ⟨start, last, code, hfresh, hname, htakes, hcode, rfl⟩ := h
  have htells : last.Tells s.lines := hfresh.tells.takes htakes
  refine ⟨(name_of_takes htakes).trans hname, ?_, fun k slot line i x n hline hi hx hn => ?_⟩
  · exact (htells.ops_resolve hcode).symm ▸ htells.code
  rcases htells.resolved hcode hline hi hx hn with ⟨label, pc, rfl, hread, hdef, rfl⟩ | ⟨hnone, hmeans⟩
  · refine ⟨label, rfl, ?_⟩
    rw [hread]
    exact ⟨pc, hdef, rfl⟩
  obtain ⟨kind, t⟩ := x
  cases kind with
  | register => exact hmeans
  | integer => exact hmeans
  | none => exact hmeans
  | literal =>
    obtain ⟨lit, m, hlit, rfl, hm⟩ := hmeans
    exact ⟨lit, hlit, entryAt?_of_getElem? (hassembled.pool.size_le (hpasses.nonneg_uses (by simp) (by simp))) hm⟩
  | symbol =>
    obtain ⟨name, m, hsymbol, rfl, hm⟩ := hmeans
    exact ⟨name, hsymbol,
      entryAt?_of_getElem? (hassembled.symbols.size_le (hpasses.nonneg_uses (by simp) (by simp))) hm⟩
  | child =>
    obtain ⟨name, m, number, hmark, rfl, hm⟩ := hmeans
    obtain ⟨c, hc⟩ := Option.isSome_iff_exists.1 (hclosed (number, name) (Array.mem_of_getElem? hm))
    refine ⟨name, c, hmark, ?_, name_block_iff hnames hc⟩
    refine entryAt?_of_getElem? (hassembled.children.size_le (hpasses.nonneg_uses (by simp) (by simp))) ?_
    simp [Draft.linked, hm, hc]
  | label =>
    obtain ⟨label, hlabel, hx⟩ := hmeans
    refine ⟨label, hlabel, ?_⟩
    cases hread : Text.readInt64? label with
    | some m =>
      rw [hread] at hx
      exact hx
    | none =>
      rw [hread] at hx
      obtain ⟨f, hf, hpc, hslot, -⟩ := hx
      exact absurd hslot (hnone f hf hpc)

end

/-- Each block of a source that assembles is what its section says. -/
theorem parse_denotes {source : Text} {p : Program} (h : parse source = .ok p) {i : Nat} (hi : p.Reached i) :
    ∃ s, (sections (tokenLines source))[i]? = some s ∧ s.Denotes p (p.block i) := by
  have hp := parse_assembled h
  obtain ⟨drafts, rfl, hclosed, hnames, hgives⟩ := parse_sections h
  have hlt : i < drafts.size := by simpa using hp.lt_size hi
  have hd := Array.getElem?_eq_getElem hlt
  have hsize : i < (sections (tokenLines source)).length := by
    rw [hgives.length_eq]
    exact hlt
  have hblock := block_linkedProgram hd
  refine ⟨_, List.getElem?_eq_getElem hsize, ?_⟩
  have hgive := hgives.get hsize hlt
  change Section.Denotes _ (linkedProgram drafts) ((linkedProgram drafts).block i)
  rw [hblock]
  exact Section.Gives.denotes hgive (hclosed _ (Array.getElem_mem hlt)) hnames (hblock ▸ hp.passes hi)
    (hblock ▸ hp.block hi)

end ObjectMachine.Assembly
