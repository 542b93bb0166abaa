import ObjectMachine.Proofs.Readings
import ObjectMachine.Proofs.Visits

/-! What assembling a source gives. The blocks have words for names, literals that were read, and
operands that number literals, symbols and children in the order of their first uses. -/

namespace ObjectMachine

/-! ### Words -/

/-- Text that a line can hold as one bare word. -/
structure Text.IsWord (t : Text) : Prop where
  nonempty : t ≠ []
  whole : ∀ b ∈ t, Assembly.endsWord b = false
  unbroken : ∀ b ∈ t, b ≠ Text.byte '\n'
  unquoted : t.head? ≠ some (Text.byte '"')
  unmarked : ¬[Text.byte ':', Text.byte '"'] <+: t

namespace Assembly

theorem suffix_of_closeQuote? {t body rest : Text} (h : closeQuote? t = some (body, rest)) :
    rest <:+ t := by
  induction t using closeQuote?.induct generalizing body rest with
  | case1 => cases h
  | case2 b t hquote =>
    rw [closeQuote?.eq_def] at h
    dsimp only at h
    rw [if_pos hquote] at h
    cases h
    exact List.suffix_cons b _
  | case3 b hquote hescape =>
    rw [closeQuote?, if_neg hquote, if_pos hescape] at h
    cases h
  | case4 b hquote hescape c t ih =>
    rw [closeQuote?, if_neg hquote, if_pos hescape] at h
    obtain ⟨⟨inner, after⟩, hinner, heq⟩ := Option.map_eq_some_iff.1 h
    cases heq
    exact (ih hinner).trans ((List.suffix_cons c t).trans (List.suffix_cons b _))
  | case5 b t hquote hescape ih =>
    rw [closeQuote?.eq_def] at h
    dsimp only at h
    rw [if_neg hquote, if_neg hescape] at h
    obtain ⟨⟨inner, after⟩, hinner, heq⟩ := Option.map_eq_some_iff.1 h
    cases heq
    exact (ih hinner).trans (List.suffix_cons b t)

theorem suffix_of_readQuoted {t value rest : Text} (h : readQuoted t = .ok (value, rest)) :
    rest <:+ t := by
  unfold readQuoted at h
  cases hclose : closeQuote? t with
  | none =>
    rw [hclose] at h
    cases h
  | some parts =>
    obtain ⟨body, after⟩ := parts
    rw [hclose] at h
    dsimp only at h
    split at h
    · cases h
      exact suffix_of_closeQuote? hclose
    · cases h

theorem isWord_of_mem_splitWords {steps : Nat} {line t : Text} {ts : List Token}
    (hline : ∀ b ∈ line, b ≠ Text.byte '\n') (h : splitWords steps line = .ok ts)
    (ht : .word t ∈ ts) : t.IsWord := by
  induction steps generalizing line ts with
  | zero =>
    cases h
    cases ht
  | succ steps ih =>
    rcases line with _ | ⟨b, rest⟩
    · cases h
      cases ht
    have hrest : ∀ b ∈ rest, b ≠ Text.byte '\n' := fun c hc => hline c (List.mem_cons_of_mem b hc)
    rw [splitWords] at h
    split_ifs at h with hblank hcomment hquote hsymbol
    · exact ih hrest h ht
    · cases h
      cases ht
    · obtain ⟨⟨value, after⟩, hread, h⟩ := bind_eq_ok.1 h
      obtain ⟨more, hmore, rfl⟩ := bind_pure_eq_ok.1 h
      rcases List.mem_cons.1 ht with ht | ht
      · cases ht
      · exact ih (fun c hc => hrest c ((suffix_of_readQuoted hread).subset hc)) hmore ht
    · obtain ⟨⟨value, after⟩, hread, h⟩ := bind_eq_ok.1 h
      obtain ⟨more, hmore, rfl⟩ := bind_pure_eq_ok.1 h
      rcases List.mem_cons.1 ht with ht | ht
      · cases ht
      · have hafter := (suffix_of_readQuoted hread).trans (List.tail_suffix rest)
        exact ih (fun c hc => hrest c (hafter.subset hc)) hmore ht
    · obtain ⟨more, hmore, rfl⟩ := bind_pure_eq_ok.1 h
      rcases List.mem_cons.1 ht with ht | ht
      · obtain rfl := Token.word.inj ht
        have hstart := (List.takeWhile_prefix (p := (!endsWord ·)) (l := rest))
        refine ⟨by simp, fun c hc => ?_, fun c hc => ?_, ?_, ?_⟩
        · rcases List.mem_cons.1 hc with rfl | hc
          · simp [endsWord, hblank, hcomment]
          · simpa using List.mem_takeWhile_imp hc
        · rcases List.mem_cons.1 hc with rfl | hc
          · exact hline _ List.mem_cons_self
          · exact hrest c (hstart.subset hc)
        · simpa using hquote
        · intro hmark
          obtain ⟨hb, hnext⟩ := List.cons_prefix_cons.1 hmark
          obtain ⟨after, hrest⟩ := hnext.trans hstart
          exact hsymbol (by simp [← hb, ← hrest])
      · exact ih (fun c hc => hrest c ((List.dropWhile_suffix _).subset hc)) hmore ht

end Assembly

/-! ### Operands -/

def numbersOf (kind : OperandKind) (xs : List (OperandKind × Int64)) : List Int64 :=
  (xs.filter (·.1 = kind)).map (·.2)

theorem numbersOf_cons {kind : OperandKind} {x : OperandKind × Int64} {xs : List (OperandKind × Int64)} :
    numbersOf kind (x :: xs) = numbersOf kind [x] ++ numbersOf kind xs := by
  rw [numbersOf, numbersOf, numbersOf, ← List.map_append, ← List.filter_append, List.singleton_append]

def uses (kind : OperandKind) (code : List Inst) : List Int64 :=
  code.flatMap fun i => numbersOf kind i.operands

namespace Inst

def unlabelled (i : Inst) : Inst :=
  { i with
    a := if i.op.operands[0]? = some .label then 0 else i.a
    b := if i.op.operands[1]? = some .label then 0 else i.b
    c := if i.op.operands[2]? = some .label then 0 else i.c }

/-- Operands that the operation does not have are zero. -/
structure Padded (i : Inst) : Prop where
  a : i.op.operands.length ≤ 0 → i.a = 0
  b : i.op.operands.length ≤ 1 → i.b = 0
  c : i.op.operands.length ≤ 2 → i.c = 0

theorem padded_unlabelled {i : Inst} : i.unlabelled.Padded ↔ i.Padded := by
  have hnone : ∀ slot, i.op.operands.length ≤ slot → i.op.operands[slot]? ≠ some .label :=
    fun slot hlen => by simp [List.getElem?_eq_none hlen]
  refine ⟨fun h => ⟨fun hlen => ?_, fun hlen => ?_, fun hlen => ?_⟩,
    fun h => ⟨fun hlen => ?_, fun hlen => ?_, fun hlen => ?_⟩⟩
  · exact (if_neg (hnone 0 hlen)).symm.trans (h.a hlen)
  · exact (if_neg (hnone 1 hlen)).symm.trans (h.b hlen)
  · exact (if_neg (hnone 2 hlen)).symm.trans (h.c hlen)
  · exact (if_neg (hnone 0 hlen)).trans (h.a hlen)
  · exact (if_neg (hnone 1 hlen)).trans (h.b hlen)
  · exact (if_neg (hnone 2 hlen)).trans (h.c hlen)

theorem numbersOf_unlabelled {kind : OperandKind} (hkind : kind ≠ .label) (i : Inst) :
    numbersOf kind i.unlabelled.operands = numbersOf kind i.operands := by
  obtain ⟨op, a, b, c⟩ := i
  cases op <;> simp [numbersOf, operands, Opcode.operands, unlabelled, List.filter_cons, hkind.symm]

theorem length_operands_le (op : Opcode) : op.operands.length ≤ 3 := by
  cases op <;> simp [Opcode.operands]

theorem operands_make {op : Opcode} {ns : List Int64} (h : ns.length = op.operands.length) :
    (make op ns).operands = op.operands.zip ns := by
  have hlen := length_operands_le op
  rw [← h] at hlen
  rcases ns with _ | ⟨a, _ | ⟨b, _ | ⟨c, _ | ⟨d, ns⟩⟩⟩⟩
  · simp [operands, make, List.length_eq_zero_iff.1 h.symm]
  · obtain ⟨k, hk⟩ := List.length_eq_one_iff.1 h.symm
    simp [operands, make, hk]
  · obtain ⟨k, l, hk⟩ := List.length_eq_two.1 h.symm
    simp [operands, make, hk]
  · simp [operands, make]
  · simp only [List.length_cons] at hlen
    omega

theorem padded_make {op : Opcode} {ns : List Int64} (h : ns.length = op.operands.length) :
    (make op ns).Padded where
  a hlen := by simp [make, List.getElem?_eq_none (h.trans_le hlen)]
  b hlen := by simp [make, List.getElem?_eq_none (h.trans_le hlen)]
  c hlen := by simp [make, List.getElem?_eq_none (h.trans_le hlen)]

end Inst

theorem uses_unlabelled {kind : OperandKind} (hkind : kind ≠ .label) (code : List Inst) :
    uses kind (code.map Inst.unlabelled) = uses kind code := by
  rw [uses, List.flatMap_map]
  exact congrArg (List.flatMap · code) (funext fun i => i.numbersOf_unlabelled hkind)

namespace Assembly

/-! ### Numbering -/

/-- Entries are placed one after another: one that is the same as an earlier one gets the number of
the first such, and the others are added. This leads from `xs` to `ys`, with the numbers `ns`. -/
inductive Placed {α : Type} (same : α → α → Bool) (xs : Array α) : List Int64 → Array α → Prop
  | nil : Placed same xs [] xs
  | reuse {ns : List Int64} {ys : Array α} {y : α} {i : Nat} (before : Placed same xs ns ys)
      (entry : ys[i]? = some y) (first : ys.findIdx? (same · y) = some i) :
      Placed same xs (ns ++ [Int64.ofNat i]) ys
  | add {ns : List Int64} {ys : Array α} {y : α} (before : Placed same xs ns ys)
      (new : ys.findIdx? (same · y) = none) :
      Placed same xs (ns ++ [Int64.ofNat ys.size]) (ys.push y)

theorem findIdx?_congr {α : Type} {xs : Array α} {p q : α → Bool} (h : ∀ x ∈ xs, p x = q x) :
    xs.findIdx? p = xs.findIdx? q := by
  cases hq : xs.findIdx? q with
  | none =>
    rw [Array.findIdx?_eq_none_iff] at hq ⊢
    exact fun x hx => (h x hx).trans (hq x hx)
  | some i =>
    rw [Array.findIdx?_eq_some_iff_getElem] at hq ⊢
    obtain ⟨hi, hat, hbefore⟩ := hq
    refine ⟨hi, (h _ (Array.getElem_mem hi)).trans hat, fun j hj => ?_⟩
    rw [h _ (Array.getElem_mem (hj.trans hi))]
    exact hbefore j hj

namespace Placed

variable {α β : Type} {same : α → α → Bool} {xs ys zs : Array α} {ns ms : List Int64}

theorem append (h : Placed same xs ns ys) (h' : Placed same ys ms zs) :
    Placed same xs (ns ++ ms) zs := by
  induction h' with
  | nil => rwa [List.append_nil]
  | reuse _ entry first ih =>
    rw [← List.append_assoc]
    exact .reuse ih entry first
  | add _ new ih =>
    rw [← List.append_assoc]
    exact .add ih new

/-- What a search finds is the same as what was searched for, so it may stand for that. -/
theorem of_place {y : α} {n : Int64} (hsame : ∀ x a b, same a b → same x a = same x b)
    (h : place xs y (same · y) = (ys, n)) : Placed same xs [n] ys := by
  unfold place at h
  cases hfound : xs.findIdx? (same · y) with
  | some i =>
    rw [hfound] at h
    cases h
    obtain ⟨hi, hat, -⟩ := Array.findIdx?_eq_some_iff_getElem.1 hfound
    refine .reuse .nil (Array.getElem?_eq_getElem hi) ?_
    rw [← hfound]
    exact findIdx?_congr fun x _ => hsame x _ _ hat
  | none =>
    rw [hfound] at h
    cases h
    exact .add .nil hfound

/-- Entries may be placed through a function that keeps them apart just when they were. -/
theorem map {same' : β → β → Bool} {f : α → β} (h : Placed same xs ns ys)
    (hf : ∀ x ∈ ys, ∀ y ∈ ys, same' (f x) (f y) = same x y) :
    Placed same' (xs.map f) ns (ys.map f) := by
  induction h with
  | nil => exact .nil
  | @reuse ns ys y i _ entry first ih =>
    refine .reuse (y := f y) (ih hf) (by simp [entry]) ?_
    rw [Array.findIdx?_map, ← first]
    exact findIdx?_congr fun x hx => hf x hx y (Array.mem_of_getElem? entry)
  | @add ns ys y _ new ih =>
    rw [Array.map_push, ← Array.size_map (f := f)]
    refine .add (ih fun x hx z hz => ?_) ?_
    · exact hf x (Array.mem_push_of_mem y hx) z (Array.mem_push_of_mem y hz)
    · rw [Array.findIdx?_map, ← new]
      exact findIdx?_congr fun x hx => hf x (Array.mem_push_of_mem y hx) y Array.mem_push_self

/-- Every new entry has a number. -/
theorem mem_of_new (h : Placed same xs ns ys) {k : Nat} (hxs : xs.size ≤ k) (hys : k < ys.size) :
    Int64.ofNat k ∈ ns := by
  induction h with
  | nil => omega
  | reuse _ _ _ ih => exact List.mem_append_left _ (ih hys)
  | @add ns ys y _ _ ih =>
    rw [Array.size_push] at hys
    by_cases hk : k = ys.size
    · rw [hk]
      exact List.mem_append_right _ List.mem_cons_self
    · exact List.mem_append_left _ (ih (by omega))

end Placed

/-! ### Operands that were read -/

/-- A literal that is read is an integer, a float or a text, with nothing else to it. -/
theorem readLiteral_cases {t : Token} {lit : Literal} (h : readLiteral t = .ok lit) :
    (∃ n, lit = .ofInt n) ∨ (∃ word x, Double.read word = .ok x ∧ lit = .ofFloat x) ∨
      ∃ text, lit = .ofText text := by
  cases t with
  | string text => exact .inr (.inr ⟨text, (Except.ok.inj h).symm⟩)
  | symbol => cases h
  | word t =>
    unfold readLiteral at h
    dsimp only at h
    split_ifs at h
    · cases hread : Double.read t with
      | error => rw [hread] at h; cases h
      | ok x =>
        rw [hread] at h
        exact .inr (.inl ⟨t, x, hread, (Except.ok.inj h).symm⟩)
    · cases hread : Text.readInt64? t with
      | none => rw [hread] at h; cases h
      | some n =>
        rw [hread] at h
        exact .inl ⟨n, (Except.ok.inj h).symm⟩

theorem same_double {u v : Double} (h : u.same v) (w : Double) : w.same u = w.same v := by
  simp only [Double.same, Bool.and_eq_true, Bool.not_eq_true', beq_iff_eq] at h
  simp [Double.same, h]

theorem same_literal (x a b : Literal) (h : Literal.same a b) : Literal.same x a = Literal.same x b := by
  simp only [Literal.same, Bool.and_eq_true, beq_iff_eq] at h
  obtain ⟨⟨⟨hkind, hint⟩, hfloat⟩, htext⟩ := h
  rw [Literal.same, Literal.same, hkind, hint, same_double hfloat, htext]

/-- A draft before and after operands for the slots from `slot` on are read. -/
structure Draft.Reads (d : Draft) (slot : Nat) (xs : List (OperandKind × Int64)) (d' : Draft) :
    Prop where
  name : d'.name = d.name
  locals : d'.locals = d.locals
  code : d'.code = d.code
  pool : Placed Literal.same d.pool (numbersOf .literal xs) d'.pool
  symbols : Placed (· == ·) d.symbols (numbersOf .symbol xs) d'.symbols
  references : Placed (·.2 == ·.2) d.references (numbersOf .child xs) d'.references
  literals : ∀ lit ∈ d'.pool, lit ∈ d.pool ∨ ∃ t, readLiteral t = .ok lit
  fixups : ∀ f ∈ d'.fixups, f ∈ d.fixups ∨
    f.pc = d.code.size ∧ ∃ k, f.slot = slot + k ∧ (xs.map Prod.fst)[k]? = some .label

namespace Draft

variable {d d' d'' : Draft} {line slot : Nat} {xs ys : List (OperandKind × Int64)}

theorem Reads.nil : d.Reads slot [] d where
  name := rfl
  locals := rfl
  code := rfl
  pool := .nil
  symbols := .nil
  references := .nil
  literals _ h := .inl h
  fixups _ h := .inl h

theorem Reads.cons {x : OperandKind × Int64} (h : d.Reads slot [x] d')
    (h' : d'.Reads (slot + 1) xs d'') : d.Reads slot (x :: xs) d'' where
  name := h'.name.trans h.name
  locals := h'.locals.trans h.locals
  code := h'.code.trans h.code
  pool := numbersOf_cons ▸ h.pool.append h'.pool
  symbols := numbersOf_cons ▸ h.symbols.append h'.symbols
  references := numbersOf_cons ▸ h.references.append h'.references
  literals lit hlit := (h'.literals lit hlit).elim (h.literals lit) .inr
  fixups f hf := by
    rcases h'.fixups f hf with hf | ⟨hpc, k, hslot, hkind⟩
    · rcases h.fixups f hf with hf | ⟨hpc, k, hslot, hkind⟩
      · exact .inl hf
      · obtain rfl : k = 0 := by
          by_contra hne
          rw [List.getElem?_eq_none (by simp; omega)] at hkind
          cases hkind
        exact .inr ⟨hpc, 0, hslot, by simpa using hkind⟩
    · exact .inr ⟨hpc.trans (congrArg Array.size h.code), k + 1, by omega, hkind⟩

/-- An operand that is not numbered leaves the draft as it is. -/
theorem Reads.same {kind : OperandKind} {n : Int64} (hliteral : kind ≠ .literal)
    (hsymbol : kind ≠ .symbol) (hchild : kind ≠ .child) : d.Reads slot [(kind, n)] d where
  name := rfl
  locals := rfl
  code := rfl
  pool := by simpa [numbersOf, hliteral] using .nil
  symbols := by simpa [numbersOf, hsymbol] using .nil
  references := by simpa [numbersOf, hchild] using .nil
  literals _ h := .inl h
  fixups _ h := .inl h

/-- What is placed was there or is new. -/
theorem mem_of_place {α : Type} {xs ys : Array α} {x y : α} {n : Int64} {isSame : α → Bool}
    (h : place xs y isSame = (ys, n)) (hx : x ∈ ys) : x ∈ xs ∨ x = y := by
  unfold place at h
  cases hfound : xs.findIdx? isSame with
  | some i =>
    rw [hfound] at h
    cases h
    exact .inl hx
  | none =>
    rw [hfound] at h
    cases h
    exact Array.mem_push.1 hx

theorem Numbers.reads {kind : OperandKind} {t : Token} {n : Int64} (h : d.Numbers line slot kind t n d') :
    d.Reads slot [(kind, n)] d' := by
  cases h with
  | register => exact .same (by simp) (by simp) (by simp)
  | integer => exact .same (by simp) (by simp) (by simp)
  | position => exact .same (by simp) (by simp) (by simp)
  | @literal _ lit pool _ hlit hplace =>
    have hpool : Placed Literal.same d.pool [n] pool := .of_place same_literal hplace
    refine ⟨rfl, rfl, rfl, hpool, .nil, .nil, fun x hx => ?_, fun f hf => .inl hf⟩
    rcases mem_of_place hplace hx with hx | rfl
    · exact .inl hx
    · exact .inr ⟨t, hlit⟩
  | @symbol _ name symbols _ _ hplace =>
    have hsymbols : Placed (· == ·) d.symbols [n] symbols :=
      .of_place (fun _ _ _ hab => by rw [eq_of_beq hab]) hplace
    exact ⟨rfl, rfl, rfl, .nil, hsymbols, .nil, fun x hx => .inl hx, fun f hf => .inl hf⟩
  | @child _ name references _ _ hplace =>
    have hreferences : Placed (·.2 == ·.2) d.references [n] references :=
      .of_place (y := (line, name)) (fun _ _ _ hab => by rw [eq_of_beq hab]) hplace
    exact ⟨rfl, rfl, rfl, .nil, .nil, hreferences, fun x hx => .inl hx, fun f hf => .inl hf⟩
  | label =>
    refine ⟨rfl, rfl, rfl, .nil, .nil, .nil, fun x hx => .inl hx, fun f hf => ?_⟩
    refine (Array.mem_push.1 hf).imp_right fun heq => ?_
    exact ⟨congrArg Fixup.pc heq, 0, congrArg Fixup.slot heq, rfl⟩

theorem operandsFrom_reads {kinds : List OperandKind} {ts : List Token} {ns : List Int64}
    (hlength : ts.length = kinds.length) (h : d.operandsFrom line slot kinds ts = .ok (d', ns)) :
    ns.length = kinds.length ∧ d.Reads slot (kinds.zip ns) d' := by
  induction kinds generalizing d slot ts ns with
  | nil =>
    cases h
    exact ⟨rfl, .nil⟩
  | cons kind kinds ih =>
    obtain ⟨t, ts, rfl⟩ := List.exists_cons_of_length_eq_add_one hlength
    obtain ⟨e, n, ms, hfirst, hrest, rfl⟩ := operandsFrom_cons_eq_ok h
    obtain ⟨hlen, hreads⟩ := ih (Nat.succ.inj hlength) hrest
    exact ⟨congrArg Nat.succ hlen, hfirst.reads.cons hreads⟩

/-- What holds of a draft while its lines are read. -/
structure Sound (d : Draft) : Prop where
  name : d.name.IsWord
  locals : 0 ≤ d.locals
  ops : ∀ i ∈ d.code, i.op ∈ Opcode.all
  padded : ∀ i ∈ d.code, i.Padded
  pool : Placed Literal.same #[] (uses .literal d.code.toList) d.pool
  symbols : Placed (· == ·) #[] (uses .symbol d.code.toList) d.symbols
  references : Placed (·.2 == ·.2) #[] (uses .child d.code.toList) d.references
  literals : ∀ lit ∈ d.pool, ∃ t, readLiteral t = .ok lit
  fixups : ∀ f ∈ d.fixups, ∃ i, d.code[f.pc]? = some i ∧ i.op.operands[f.slot]? = some .label

theorem uses_push {kind : OperandKind} (code : Array Inst) (i : Inst) :
    uses kind (code.push i).toList = uses kind code.toList ++ numbersOf kind i.operands := by
  simp [uses]

/-- Adding an instruction with the operands that were read. -/
theorem Sound.push {op : Opcode} {ns : List Int64} (h : d.Sound) (hop : op ∈ Opcode.all)
    (hns : ns.length = op.operands.length) (hreads : d.Reads 0 (op.operands.zip ns) d') :
    { d' with code := d'.code.push (.make op ns) }.Sound where
  name := hreads.name ▸ h.name
  locals := hreads.locals ▸ h.locals
  ops i hi := by
    rcases Array.mem_push.1 hi with hi | rfl
    · exact h.ops i (hreads.code ▸ hi)
    · exact hop
  padded i hi := by
    rcases Array.mem_push.1 hi with hi | rfl
    · exact h.padded i (hreads.code ▸ hi)
    · exact Inst.padded_make hns
  pool := by
    rw [uses_push, Inst.operands_make hns, hreads.code]
    exact h.pool.append hreads.pool
  symbols := by
    rw [uses_push, Inst.operands_make hns, hreads.code]
    exact h.symbols.append hreads.symbols
  references := by
    rw [uses_push, Inst.operands_make hns, hreads.code]
    exact h.references.append hreads.references
  literals lit hlit := (hreads.literals lit hlit).elim (h.literals lit) id
  fixups f hf := by
    rw [hreads.code]
    rcases hreads.fixups f hf with hf | ⟨hpc, k, hslot, hkind⟩
    · obtain ⟨i, hi, hlabel⟩ := h.fixups f hf
      refine ⟨i, ?_, hlabel⟩
      rwa [Array.getElem?_push, if_neg (Array.getElem?_eq_some_iff.1 hi).1.ne]
    · refine ⟨.make op ns, by simp [hpc], ?_⟩
      rw [List.map_fst_zip hns.ge] at hkind
      rw [hslot, Nat.zero_add]
      exact hkind

theorem Sound.instruction {head : Token} {args : List Token} (h : d.Sound)
    (hread : d.instruction line head args = .ok d') : d'.Sound := by
  obtain ⟨name, op, e, ns, -, hop, hcount, hoperands, rfl⟩ := instruction_eq_ok hread
  obtain ⟨hlength, hreads⟩ := operandsFrom_reads hcount hoperands
  exact h.push (List.mem_of_find?_eq_some hop) hlength hreads

theorem Sound.readLine {ts : List Token} (h : d.Sound) (hread : d.readLine line ts = .ok d') : d'.Sound := by
  rcases readLine_eq_ok hread with ⟨-, rfl⟩ | ⟨label, -, hdefine⟩ | ⟨head, args, -, -, hinst⟩
  · exact h
  · obtain ⟨-, rfl⟩ := define_eq_ok hdefine
    exact { h with }
  · exact h.instruction hinst

@[simp] theorem op_setSlot {i : Inst} {n : Int64} : (setSlot i slot n).op = i.op := by
  rcases slot with _ | _ | slot <;> rfl

theorem unlabelled_setSlot {i : Inst} {n : Int64} (h : i.op.operands[slot]? = some .label) :
    (setSlot i slot n).unlabelled = i.unlabelled := by
  have hslot : slot < 3 := (List.getElem?_eq_some_iff.1 h).1.trans_le (Inst.length_operands_le i.op)
  rcases slot with _ | _ | _ | slot
  · simp [setSlot, Inst.unlabelled, h]
  · simp [setSlot, Inst.unlabelled, h]
  · simp [setSlot, Inst.unlabelled, h]
  · omega

theorem unlabelled_modify {code : Array Inst} {i : Inst} {pc : Nat} {n : Int64}
    (hi : code[pc]? = some i) (h : i.op.operands[slot]? = some .label) :
    (code.modify pc (setSlot · slot n)).toList.map Inst.unlabelled =
      code.toList.map Inst.unlabelled := by
  refine List.ext_getElem? fun k => ?_
  rw [List.getElem?_map, List.getElem?_map, Array.getElem?_toList, Array.getElem?_toList,
    Array.getElem?_modify]
  split_ifs with hk
  · rw [← hk, hi]
    exact congrArg some (unlabelled_setSlot h)
  · rfl

def fill (d : Draft) (f : Fixup) (rest : List Fixup) (pc : Nat) : Draft :=
  { d with code := d.code.modify f.pc (setSlot · f.slot (Int64.ofNat pc)), fixups := rest.toArray }

theorem resolve_nil (h : d.fixups.toList = []) : d.resolve = .ok d.code := by
  rw [resolve, ← Array.foldlM_toList, h]
  rfl

theorem resolve_cons {f : Fixup} {rest : List Fixup} {pc : Nat} (h : d.fixups.toList = f :: rest)
    (hlabel : d.labels.lookup f.label = some pc) : d.resolve = (d.fill f rest pc).resolve := by
  rw [resolve, resolve, ← Array.foldlM_toList, ← Array.foldlM_toList, h, List.foldlM_cons, hlabel]
  rfl

theorem resolve_undefined {f : Fixup} {rest : List Fixup} (h : d.fixups.toList = f :: rest)
    (hlabel : d.labels.lookup f.label = none) :
    d.resolve = .error ⟨f.line, .undefinedLabel f.label⟩ := by
  rw [resolve, ← Array.foldlM_toList, h, List.foldlM_cons, hlabel]
  rfl

theorem resolve_unlabelled {code : Array Inst} (h : d.resolve = .ok code)
    (hfixups : ∀ f ∈ d.fixups, ∃ i, d.code[f.pc]? = some i ∧ i.op.operands[f.slot]? = some .label) :
    code.toList.map Inst.unlabelled = d.code.toList.map Inst.unlabelled := by
  obtain ⟨fs, hfs⟩ : ∃ fs, d.fixups.toList = fs := ⟨_, rfl⟩
  induction fs generalizing d with
  | nil =>
    rw [resolve_nil hfs] at h
    cases h
    rfl
  | cons f fs ih =>
    obtain ⟨i, hi, hslot⟩ := hfixups f (Array.mem_toList_iff.1 (hfs ▸ List.mem_cons_self))
    cases hlabel : d.labels.lookup f.label with
    | none =>
      rw [resolve_undefined hfs hlabel] at h
      cases h
    | some pc =>
      rw [resolve_cons hfs hlabel] at h
      rw [ih h ?_ rfl, fill, unlabelled_modify hi hslot]
      intro g hg
      have hmem : g ∈ d.fixups :=
        Array.mem_toList_iff.1 (hfs ▸ List.mem_cons_of_mem f (by simpa [fill] using hg))
      obtain ⟨j, hj, hkind⟩ := hfixups g hmem
      rw [fill, Array.getElem?_modify, hj]
      split_ifs
      · exact ⟨_, rfl, by rwa [op_setSlot]⟩
      · exact ⟨j, rfl, hkind⟩

/-- Filling in labels keeps everything else about the code. -/
theorem Sound.resolved {code : Array Inst} (h : d.Sound) (hresolve : d.resolve = .ok code) :
    { d with code }.Sound := by
  have hcode := resolve_unlabelled hresolve h.fixups
  have hmem : ∀ i ∈ code, ∃ j ∈ d.code, j.unlabelled = i.unlabelled := by
    intro i hi
    have himage := List.mem_map_of_mem (f := Inst.unlabelled) (Array.mem_toList_iff.2 hi)
    rw [hcode] at himage
    obtain ⟨j, hj, heq⟩ := List.mem_map.1 himage
    exact ⟨j, Array.mem_toList_iff.1 hj, heq⟩
  have huses : ∀ kind, kind ≠ .label → uses kind code.toList = uses kind d.code.toList := by
    intro kind hkind
    rw [← uses_unlabelled hkind, hcode, uses_unlabelled hkind]
  refine ⟨h.name, h.locals, fun i hi => ?_, fun i hi => ?_, ?_, ?_, ?_, h.literals, fun f hf => ?_⟩
  · obtain ⟨j, hj, heq⟩ := hmem i hi
    exact congrArg Inst.op heq ▸ h.ops j hj
  · obtain ⟨j, hj, heq⟩ := hmem i hi
    exact Inst.padded_unlabelled.1 (heq ▸ Inst.padded_unlabelled.2 (h.padded j hj))
  · exact huses .literal (by simp) ▸ h.pool
  · exact huses .symbol (by simp) ▸ h.symbols
  · exact huses .child (by simp) ▸ h.references
  · obtain ⟨j, hj, hkind⟩ := h.fixups f hf
    have hat := congrArg (·[f.pc]?) hcode
    rw [List.getElem?_map, List.getElem?_map, Array.getElem?_toList, Array.getElem?_toList, hj] at hat
    obtain ⟨i, hi, heq⟩ := Option.map_eq_some_iff.1 hat
    exact ⟨i, hi, congrArg Inst.op heq ▸ hkind⟩

end Draft

/-! ### Lines -/

/-- Whatever has been read is sound. -/
structure Reader.Sound (r : Reader) : Prop where
  finished : ∀ d ∈ r.finished, d.Sound
  current : ∀ d, r.current = some d → d.Sound

namespace Reader

variable {r r' : Reader} {number : Nat}

theorem Sound.line {text : Text} (h : r.Sound) (htext : ∀ b ∈ text, b ≠ Text.byte '\n')
    (hread : r.line number text = .ok r') : r'.Sound := by
  obtain ⟨ts, htokens, hturns⟩ := line_eq_ok hread
  cases hturns with
  | blank => exact h
  | @header name attributes d _ _ hd =>
    have hname : name.IsWord := isWord_of_mem_splitWords htext htokens (by simp)
    obtain ⟨registers, locals, rfl, hlocals⟩ := readAttributes_eq_ok hd
    refine ⟨h.finished, fun e he => ?_⟩
    cases he
    exact ⟨hname, hlocals (Int64.le_refl 0), by simp, by simp, .nil, .nil, .nil, by simp, by simp⟩
  | finish hd hcode =>
    refine ⟨fun e he => ?_, by simp⟩
    rcases Array.mem_push.1 he with he | rfl
    · exact h.finished e he
    · exact (h.current _ hd).resolved hcode
  | content hd _ _ hd' =>
    refine ⟨h.finished, fun e he => ?_⟩
    cases he
    exact (h.current _ hd).readLine hd'

theorem Sound.lines {texts : List (Text × Nat)} (h : r.Sound)
    (htexts : ∀ t ∈ texts, ∀ b ∈ t.1, b ≠ Text.byte '\n') (hread : r.lines texts = .ok r') :
    r'.Sound :=
  lines_induction h (fun t ht _ _ h => h.line (htexts t ht)) hread

end Reader

theorem not_mem_of_mem_splitOn {sep : UInt8} {t part : Text} (h : part ∈ t.splitOn sep) :
    ∀ b ∈ part, b ≠ sep := by
  induction t generalizing part with
  | nil =>
    rw [Text.splitOn, List.mem_singleton] at h
    rw [h]
    rintro b ⟨⟩
  | cons c t ih =>
    rw [Text.splitOn] at h
    split_ifs at h with hc
    · rcases List.mem_cons.1 h with rfl | h
      · rintro b ⟨⟩
      · exact ih h
    · have hne : c ≠ sep := by simpa using hc
      cases hparts : Text.splitOn sep t with
      | nil =>
        rw [hparts] at h
        rw [List.mem_singleton.1 h]
        simpa using hne
      | cons first parts =>
        rw [hparts] at h ih
        rcases List.mem_cons.1 h with rfl | h
        · exact List.forall_mem_cons.2 ⟨hne, ih List.mem_cons_self⟩
        · exact ih (List.mem_cons_of_mem first h)

end Assembly

open Assembly

/-! ### Programs -/

structure Block.Assembled (b : Block) : Prop where
  name : b.name.IsWord
  locals : 0 ≤ b.locals
  ops : ∀ i ∈ b.code, i.op ∈ Opcode.all
  padded : ∀ i ∈ b.code, i.Padded
  pool : Placed Literal.same #[] (uses .literal b.code.toList) b.pool
  symbols : Placed (· == ·) #[] (uses .symbol b.code.toList) b.symbols
  children : Placed (· == ·) #[] (uses .child b.code.toList) b.children
  literals : ∀ lit ∈ b.pool, ∃ t, readLiteral t = .ok lit

structure Program.Assembled (p : Program) : Prop where
  nonempty : 0 < p.blocks.size
  blocks : ∀ b ∈ p.blocks, b.Assembled
  children : ∀ b ∈ p.blocks, ∀ c ∈ b.children, c < p.blocks.size
  acyclic : p.cyclicBlock? = none
  valid : p.defect? = none

namespace Program.Assembled

variable {p : Program} {i : Nat}

theorem lt_size (h : p.Assembled) (hi : p.Reached i) : i < p.blocks.size := by
  induction hi with
  | refl => exact h.nonempty
  | @tail i c _ hc ih => exact h.children _ (p.block_mem ih) c (Array.mem_toList_iff.1 hc)

theorem block (h : p.Assembled) (hi : p.Reached i) : (p.block i).Assembled :=
  h.blocks _ (p.block_mem (h.lt_size hi))

theorem mem_visitOrder (h : p.Assembled) : i ∈ p.visitOrder ↔ p.Reached i :=
  Program.mem_visitOrder.trans (and_iff_left_of_imp h.lt_size)

theorem visitOrder_ne_nil (h : p.Assembled) : p.visitOrder ≠ [] :=
  List.ne_nil_of_mem (h.mem_visitOrder.2 (.root p))

end Program.Assembled

namespace Assembly

def indexOf? (drafts : Array Draft) (name : Text) : Option Nat := drafts.findIdx? (·.name == name)

theorem indexOf?_eq_some {drafts : Array Draft} {name : Text} {i : Nat}
    (h : indexOf? drafts name = some i) : ∃ d, drafts[i]? = some d ∧ d.name = name := by
  obtain ⟨hi, hname, -⟩ := Array.findIdx?_eq_some_iff_getElem.1 h
  exact ⟨drafts[i], Array.getElem?_eq_getElem hi, eq_of_beq hname⟩

def lookUp (drafts : Array Draft) (ref : Nat × Text) : Except SyntaxError Nat :=
  match indexOf? drafts ref.2 with
  | some i => .ok i
  | none => .error ⟨ref.1, .undefinedBlock ref.2⟩

theorem lookUp_eq_ok {drafts : Array Draft} {ref : Nat × Text} {i : Nat} :
    lookUp drafts ref = .ok i ↔
      (indexOf? drafts ref.2).isSome ∧ i = (indexOf? drafts ref.2).getD 0 := by
  unfold lookUp
  cases indexOf? drafts ref.2 <;> simp [eq_comm]

def Draft.linked (d : Draft) (drafts : Array Draft) : Block :=
  { name := d.name, locals := d.locals, registers := d.registers, code := d.code, pool := d.pool,
    symbols := d.symbols, children := d.references.map fun ref => (indexOf? drafts ref.2).getD 0 }

/-- All references of a draft are found. -/
def Draft.Closed (d : Draft) (drafts : Array Draft) : Prop :=
  ∀ ref ∈ d.references, (indexOf? drafts ref.2).isSome

theorem Draft.link_eq_ok {d : Draft} {drafts : Array Draft} {b : Block} :
    d.link drafts = .ok b ↔ d.Closed drafts ∧ b = d.linked drafts := by
  have hlink : d.link drafts = d.references.mapM (lookUp drafts) >>= fun children =>
    pure { d.linked drafts with children } := rfl
  rw [hlink, bind_pure_eq_ok]
  simp only [arrayMapM_eq_ok fun _ _ _ => lookUp_eq_ok, and_assoc, exists_and_left, exists_eq_left]
  rfl

theorem link_eq_ok {drafts : Array Draft} {p : Program} :
    link drafts = .ok p ↔ (∀ d ∈ drafts, d.Closed drafts) ∧ p = ⟨drafts.map (·.linked drafts)⟩ := by
  rw [link, bind_pure_eq_ok]
  simp only [arrayMapM_eq_ok fun _ _ _ => Draft.link_eq_ok, and_assoc, exists_and_left, exists_eq_left]

/-- References that are found are found among the blocks. -/
theorem lt_size_of_link {drafts : Array Draft} {p : Program} (h : link drafts = .ok p) :
    ∀ b ∈ p.blocks, ∀ c ∈ b.children, c < p.blocks.size := by
  obtain ⟨hclosed, rfl⟩ := link_eq_ok.1 h
  intro b hb c hc
  obtain ⟨d, hd, rfl⟩ := Array.mem_map.1 hb
  obtain ⟨ref, href, rfl⟩ := Array.mem_map.1 hc
  obtain ⟨i, hi⟩ := Option.isSome_iff_exists.1 (hclosed d hd ref href)
  rw [hi, Option.getD_some, Array.size_map]
  exact (Array.findIdx?_eq_some_iff_getElem.1 hi).1

/-- The blocks of a source are read, and their references to each other found. -/
def Links (source : Text) (p : Program) : Prop :=
  ∃ drafts, Reader.lines {} ((source.splitOn (Text.byte '\n')).zipIdx 1) = .ok ⟨drafts, none⟩ ∧
    0 < drafts.size ∧ link drafts = .ok p

/-- What is left to do once the blocks are linked. -/
theorem Links.parse_eq {source : Text} {p : Program} (h : Links source p) : ∃ line : Nat → Nat × Text,
    parse source =
      match p.cyclicBlock? with
      | some n => .error ⟨(line n).1, .cyclicBlock (line n).2⟩
      | none =>
        match p.defect? with
        | some defect => .error ⟨0, .invalid defect⟩
        | none => .ok p := by
  obtain ⟨drafts, hlines, hsize, hlink⟩ := h
  have hempty : drafts.isEmpty = false := by simpa [Array.isEmpty] using Nat.ne_of_gt hsize
  refine ⟨fun n => ((drafts[n]?).map fun d => (d.line, d.name)).getD (0, []), ?_⟩
  rw [parse, hlines]
  simp only [bind, Except.bind, hempty, hlink, pure, Except.pure, Bool.false_eq_true, if_false]
  cases p.cyclicBlock? with
  | some n => rfl
  | none => cases p.defect? <;> rfl

theorem Links.parse_eq_ok_iff {source : Text} {p q : Program} (h : Links source q) :
    parse source = .ok p ↔ q = p ∧ q.cyclicBlock? = none ∧ q.defect? = none := by
  obtain ⟨line, hparse⟩ := h.parse_eq
  rw [hparse]
  cases q.cyclicBlock? with
  | some n => simp
  | none => cases q.defect? <;> simp

theorem exists_links_of_parse {source : Text} {p : Program} (h : parse source = .ok p) :
    ∃ q, Links source q := by
  obtain ⟨⟨drafts, _ | d⟩, hlines, h⟩ := bind_eq_ok.1 h
  · dsimp only at h
    split_ifs at h with hempty
    · cases h
    · obtain ⟨q, hlink, -⟩ := bind_eq_ok.1 h
      exact ⟨q, drafts, hlines, by simpa [Array.isEmpty, Nat.pos_iff_ne_zero] using hempty, hlink⟩
  · cases h

theorem parse_eq_ok {source : Text} {p : Program} : parse source = .ok p ↔
    ∃ drafts, Reader.lines {} ((source.splitOn (Text.byte '\n')).zipIdx 1) = .ok ⟨drafts, none⟩ ∧
      0 < drafts.size ∧ link drafts = .ok p ∧ p.cyclicBlock? = none ∧ p.defect? = none := by
  constructor
  · intro h
    obtain ⟨q, hq⟩ := exists_links_of_parse h
    obtain ⟨rfl, hcyclic, hdefect⟩ := hq.parse_eq_ok_iff.1 h
    obtain ⟨drafts, hlines, hsize, hlink⟩ := hq
    exact ⟨drafts, hlines, hsize, hlink, hcyclic, hdefect⟩
  · rintro ⟨drafts, hlines, hsize, hlink, hcyclic, hdefect⟩
    exact Links.parse_eq_ok_iff ⟨drafts, hlines, hsize, hlink⟩ |>.2 ⟨rfl, hcyclic, hdefect⟩

def Draft.alone (d : Draft) : Block :=
  { name := d.name, locals := d.locals, registers := d.registers, code := d.code, pool := d.pool,
    symbols := d.symbols }

/-- A source with one block that has no children. -/
theorem parse_single {source : Text} {d : Draft}
    (hlines : Reader.lines {} ((source.splitOn (Text.byte '\n')).zipIdx 1) = .ok ⟨#[d], none⟩)
    (hreferences : d.references = #[]) (hvalid : d.alone.defect? = none) :
    parse source = .ok (.single d.alone) := by
  have hlink : link #[d] = .ok (.single d.alone) :=
    link_eq_ok.2 ⟨by simp [Draft.Closed, hreferences],
      by simp [Program.single, Draft.linked, Draft.alone, hreferences]⟩
  exact parse_eq_ok.2 ⟨_, hlines, by simp, hlink, Program.cyclicBlock?_single rfl,
    Program.defect?_single rfl hvalid⟩

/-- Two names have the same index just when they are the same name. -/
theorem indexOf?_inj {drafts : Array Draft} {x y : Text} {i j : Nat} (hi : indexOf? drafts x = some i)
    (hj : indexOf? drafts y = some j) : i = j ↔ x = y := by
  obtain ⟨d, hd, rfl⟩ := indexOf?_eq_some hi
  obtain ⟨e, he, rfl⟩ := indexOf?_eq_some hj
  constructor
  · rintro rfl
    rw [Option.some.inj (hd.symm.trans he)]
  · intro heq
    rw [heq] at hi
    exact Option.some.inj (hi.symm.trans hj)

theorem Draft.Sound.linked {d : Draft} {drafts : Array Draft} (h : d.Sound)
    (hclosed : d.Closed drafts) : (d.linked drafts).Assembled where
  name := h.name
  locals := h.locals
  ops := h.ops
  padded := h.padded
  pool := h.pool
  symbols := h.symbols
  literals := h.literals
  children := by
    have hsame : ∀ x ∈ d.references, ∀ y ∈ d.references,
        ((indexOf? drafts x.2).getD 0 == (indexOf? drafts y.2).getD 0) = (x.2 == y.2) := by
      intro x hx y hy
      obtain ⟨i, hi⟩ := Option.isSome_iff_exists.1 (hclosed x hx)
      obtain ⟨j, hj⟩ := Option.isSome_iff_exists.1 (hclosed y hy)
      rw [hi, hj, Bool.eq_iff_iff, beq_iff_eq, beq_iff_eq]
      exact indexOf?_inj hi hj
    exact Array.map_empty ▸ h.references.map hsame

/-- What assembles is a sound program. -/
theorem parse_assembled {source : Text} {p : Program} (h : parse source = .ok p) : p.Assembled := by
  obtain ⟨drafts, hlines, hsize, hlink, hacyclic, hvalid⟩ := parse_eq_ok.1 h
  obtain ⟨hclosed, rfl⟩ := link_eq_ok.1 hlink
  have hsound : Reader.Sound ⟨drafts, none⟩ := by
    refine Reader.Sound.lines ⟨by simp, by simp⟩ (fun t ht => ?_) hlines
    exact not_mem_of_mem_splitOn (List.fst_mem_of_mem_zipIdx ht)
  refine ⟨by simpa using hsize, fun b hb => ?_, lt_size_of_link hlink, hacyclic, hvalid⟩
  obtain ⟨d, hd, rfl⟩ := Array.mem_map.1 hb
  exact (hsound.finished d hd).linked (hclosed d hd)

end Assembly

end ObjectMachine
