import ObjectMachine.Proofs.Listings
import ObjectMachine.Proofs.Naming
import ObjectMachine.Proofs.Validity

/-! Sections of listings read back. The operands still to come lead the literals, symbols and children
of the draft to those of the block, and the labels still waited for are those of its targets; so at the
end of the section the draft is the block again. -/

namespace ObjectMachine

open Text (byte)
open Listing (nameOf)

namespace Assembly

/-! ### Numbering again -/

namespace Placed

variable {α : Type} {same : α → α → Bool} {xs ys : Array α} {ns : List Int64} {n : Int64} {x : α} {k : Nat}

/-- When no number is negative, the entries are few enough to be numbered. -/
theorem size_le (h : Placed same #[] ns ys) (hns : ∀ n ∈ ns, 0 ≤ n) : ys.size ≤ 2 ^ 63 := by
  by_contra! hlt
  exact absurd (hns _ (h.mem_of_new (Nat.zero_le (2 ^ 63)) hlt)) (by decide)

theorem eq_of_nil (h : Placed same xs [] ys) : xs = ys := by
  generalize hnone : ([] : List Int64) = none at h
  cases h with
  | nil => rfl
  | reuse => cases List.append_ne_nil_of_right_ne_nil _ (List.cons_ne_nil _ _) hnone.symm
  | add => cases List.append_ne_nil_of_right_ne_nil _ (List.cons_ne_nil _ _) hnone.symm

/-- The first number is the one that placing its entry gives. -/
theorem step (h : Placed same xs (n :: ns) ys) : ∃ k y zs, n = Int64.ofNat k ∧ ys[k]? = some y ∧
    place xs y (same · y) = (zs, n) ∧ Placed same zs ns ys := by
  obtain ⟨ms, hms⟩ : ∃ ms, n :: ns = ms := ⟨_, rfl⟩
  rw [hms] at h
  induction h generalizing ns with
  | nil => cases hms
  | @reuse ms ys y k before entry first ih =>
    rcases ms with _ | ⟨m, ms⟩
    · obtain ⟨rfl, rfl⟩ := List.cons.inj hms
      obtain rfl := before.eq_of_nil
      exact ⟨k, y, _, rfl, entry, by rw [place, first], .nil⟩
    · obtain ⟨rfl, rfl⟩ := List.cons.inj hms
      obtain ⟨j, z, zs, hj, hz, hplace, hrest⟩ := ih rfl
      exact ⟨j, z, zs, hj, hz, hplace, hrest.reuse entry first⟩
  | @add ms ys y before new ih =>
    rcases ms with _ | ⟨m, ms⟩
    · obtain ⟨rfl, rfl⟩ := List.cons.inj hms
      obtain rfl := before.eq_of_nil
      exact ⟨_, y, _, rfl, Array.getElem?_push_size, by rw [place, new], .nil⟩
    · obtain ⟨rfl, rfl⟩ := List.cons.inj hms
      obtain ⟨j, z, zs, hj, hz, hplace, hrest⟩ := ih rfl
      refine ⟨j, z, zs, hj, ?_, hplace, hrest.add new⟩
      rw [Array.getElem?_push, if_neg (Array.getElem?_eq_some_iff.1 hz).1.ne, hz]

/-- The first number leads to an entry, and placing that entry gives the number. -/
theorem entry (h : Placed same xs (n :: ns) ys) (hsize : ys.size ≤ 2 ^ 63) : ∃ y ∈ ys, ∃ zs,
    entryAt? ys n = some y ∧ place xs y (same · y) = (zs, n) ∧ Placed same zs ns ys := by
  obtain ⟨k, y, zs, rfl, hy, hplace, hrest⟩ := h.step
  obtain ⟨hk, rfl⟩ := Array.getElem?_eq_some_iff.1 hy
  exact ⟨_, Array.getElem_mem hk, zs, Listing.entryAt?_ofNat hk (by omega), hplace, hrest⟩

end Placed

/-- Entries are placed by what a function gives of them. -/
theorem place_map {α β : Type} {xs : Array α} {zs : Array β} {f : α → β} {isSame : β → Bool} {x : α}
    {n : Int64} (h : place (xs.map f) (f x) isSame = (zs, n)) :
    ∃ ys, place xs x (fun y => isSame (f y)) = (ys, n) ∧ ys.map f = zs := by
  rw [place, Array.findIdx?_map] at h
  rw [place]
  cases hfound : xs.findIdx? (isSame ∘ f) with
  | some i =>
    rw [hfound] at h
    cases h
    exact ⟨xs, by rw [show (fun y => isSame (f y)) = isSame ∘ f from rfl, hfound], rfl⟩
  | none =>
    rw [hfound] at h
    cases h
    exact ⟨xs.push x, by rw [show (fun y => isSame (f y)) = isSame ∘ f from rfl, hfound, Array.size_map],
      Array.map_push⟩

end Assembly

open Assembly

/-! ### Operands -/

/-- What a block needs for its section to be read back. -/
structure Block.Listed (names : List (Nat × Text)) (b : Block) : Prop where
  assembled : b.Assembled
  passes : b.Passes
  whole : ∀ s ∈ b.symbols, IsWhole s
  children : ∀ c ∈ b.children, (nameOf names c).IsWord
  apart : ∀ c ∈ b.children, ∀ c' ∈ b.children, nameOf names c = nameOf names c' → c = c'

theorem Block.Passes.nonneg {b : Block} {i : Inst} {kind : OperandKind} {n : Int64} (h : b.Passes)
    (hi : i ∈ b.code) (hn : (kind, n) ∈ i.operands) (hnone : kind ≠ .none) (hinteger : kind ≠ .integer) :
    0 ≤ n := by
  obtain ⟨slot, hslot⟩ := List.getElem?_of_mem hn
  have hspan := i.span_cases slot
  rw [Int64.le_iff_toInt_le, Int64.toInt_zero]
  rcases h.operands i hi slot kind n hslot with hrefers | hover
  · cases kind
    case none => exact absurd rfl hnone
    case integer => exact absurd rfl hinteger
    all_goals exact hrefers.1
  · cases kind
    case register =>
      have hover : 2 ^ 63 ≤ n.toInt + i.span slot := hover
      omega
    all_goals exact hover.elim

theorem Block.Passes.nonneg_uses {b : Block} {kind : OperandKind} (h : b.Passes) (hnone : kind ≠ .none)
    (hinteger : kind ≠ .integer) : ∀ n ∈ uses kind b.code.toList, 0 ≤ n := by
  intro n hn
  obtain ⟨i, hi, hn⟩ := List.mem_flatMap.1 hn
  obtain ⟨⟨kind', m⟩, hx, rfl⟩ := List.mem_map.1 hn
  obtain ⟨hmem, hkind⟩ := List.mem_filter.1 hx
  obtain rfl : kind' = kind := of_decide_eq_true hkind
  exact h.nonneg (Array.mem_toList_iff.1 hi) hmem hnone hinteger

theorem Inst.ne_none_of_mem_operands {i : Inst} {x : OperandKind × Int64} (hx : x ∈ i.operands) :
    x.1 ≠ .none := by
  have hops : ∀ op : Opcode, OperandKind.none ∉ op.operands := by
    intro op
    cases op <;> simp [Opcode.operands]
  exact fun hnone => hops i.op (hnone ▸ (List.of_mem_zip hx).1)

namespace Block.Listed

variable {names : List (Nat × Text)} {b : Block}

theorem size_pool (h : b.Listed names) : b.pool.size ≤ 2 ^ 63 :=
  h.assembled.pool.size_le (h.passes.nonneg_uses (by simp) (by simp))

theorem size_symbols (h : b.Listed names) : b.symbols.size ≤ 2 ^ 63 :=
  h.assembled.symbols.size_le (h.passes.nonneg_uses (by simp) (by simp))

theorem size_children (h : b.Listed names) : (b.children.map (nameOf names)).size ≤ 2 ^ 63 := by
  rw [Array.size_map]
  exact h.assembled.children.size_le (h.passes.nonneg_uses (by simp) (by simp))

end Block.Listed

/-- What the operands still to be read lead to. -/
structure Assembly.Draft.Leads (names : List (Nat × Text)) (b : Block) (d : Draft)
    (xs : List (OperandKind × Int64)) : Prop where
  pool : Placed Literal.same d.pool (numbersOf .literal xs) b.pool
  symbols : Placed (· == ·) d.symbols (numbersOf .symbol xs) b.symbols
  references : Placed (· == ·) (d.references.map (·.2)) (numbersOf .child xs) (b.children.map (nameOf names))

/-- The draft has got fixups, and perhaps literals, symbols and references. -/
structure Assembly.Draft.Gets (d : Draft) (fs : List Fixup) (d' : Draft) : Prop where
  name : d'.name = d.name
  registers : d'.registers = d.registers
  locals : d'.locals = d.locals
  code : d'.code = d.code
  labels : d'.labels = d.labels
  fixups : d'.fixups.toList = d.fixups.toList ++ fs

def waiting (line pc slot : Nat) : OperandKind × Int64 → List Fixup
  | (.label, n) => [⟨line, pc, slot, byte 'L' :: Text.ofInt64 n⟩]
  | _ => []

/-- What the operands from a slot on wait for. -/
def waitings (line pc : Nat) : (slot : Nat) → List (OperandKind × Int64) → List Fixup
  | _, [] => []
  | slot, x :: xs => waiting line pc slot x ++ waitings line pc (slot + 1) xs

/-- The number that an operand has while its label is waited for. -/
def unfilled (x : OperandKind × Int64) : Int64 := if x.1 = .label then 0 else x.2

namespace Assembly.Draft

variable {names : List (Nat × Text)} {b : Block} {d d' : Draft} {x : OperandKind × Int64}
  {xs ys : List (OperandKind × Int64)}

theorem Gets.nothing (d : Draft) : d.Gets [] d := ⟨rfl, rfl, rfl, rfl, rfl, (List.append_nil _).symm⟩

theorem Leads.skip (h : d.Leads names b (x :: xs)) (hliteral : x.1 ≠ .literal) (hsymbol : x.1 ≠ .symbol)
    (hchild : x.1 ≠ .child) : d.Leads names b xs where
  pool := by simpa [numbersOf, hliteral] using h.pool
  symbols := by simpa [numbersOf, hsymbol] using h.symbols
  references := by simpa [numbersOf, hchild] using h.references

/-- An operand that is listed is read as what it was. -/
theorem Leads.operand (h : d.Leads names b (x :: xs)) (hb : b.Listed names) (hnone : x.1 ≠ .none)
    (hregister : x.1 = .register → 0 ≤ x.2) (line slot : Nat) : ∃ (token : Token) (d' : Draft),
      token.WrittenAs (Listing.writeOperand names b x.1 x.2) ∧
      d.operand line slot x.1 token = .ok (d', unfilled x) ∧
      d.Gets (waiting line d.code.size slot x) d' ∧ d'.Leads names b xs := by
  obtain ⟨kind, n⟩ := x
  cases kind with
  | none => exact absurd rfl hnone
  | register =>
    obtain ⟨token, hwritten, hread⟩ := register_written (hregister rfl)
    refine ⟨token, d, hwritten, ?_, .nothing d, h.skip (by simp) (by simp) (by simp)⟩
    rw [Draft.operand, hread]
    rfl
  | integer =>
    refine ⟨.word (Text.ofInt64 n), d, writtenAs_word (isWord_ofInt64 n), ?_, .nothing d,
      h.skip (by simp) (by simp) (by simp)⟩
    rw [Draft.operand, readInteger_ofInt64]
    rfl
  | label =>
    refine ⟨_, { d with fixups := d.fixups.push ⟨line, d.code.size, slot, byte 'L' :: Text.ofInt64 n⟩ },
      label_written n, ?_, ⟨rfl, rfl, rfl, rfl, rfl, Array.toList_push⟩, ?_⟩
    · rw [Draft.operand, readInt64?_label]
      rfl
    · obtain ⟨hpool, hsymbols, hreferences⟩ := h.skip (by simp) (by simp) (by simp)
      exact ⟨hpool, hsymbols, hreferences⟩
  | literal =>
    obtain ⟨lit, hlit, pool, hentry, hplace, hrest⟩ := h.pool.entry hb.size_pool
    obtain ⟨token, hwritten, hread⟩ := literal_written (hb.assembled.literals lit hlit)
    refine ⟨token, { d with pool }, ?_, ?_, ⟨rfl, rfl, rfl, rfl, rfl, (List.append_nil _).symm⟩,
      hrest, h.symbols, h.references⟩
    · rwa [Listing.writeOperand, hentry]
    · rw [Draft.operand, hread]
      dsimp only [bind, Except.bind]
      rw [hplace]
      rfl
  | symbol =>
    obtain ⟨name, hname, symbols, hentry, hplace, hrest⟩ := h.symbols.entry hb.size_symbols
    obtain ⟨token, hwritten, hread⟩ := symbol_written (hb.whole name hname)
    refine ⟨token, { d with symbols }, ?_, ?_, ⟨rfl, rfl, rfl, rfl, rfl, (List.append_nil _).symm⟩,
      h.pool, hrest, h.references⟩
    · rwa [Listing.writeOperand, hentry]
    · rw [Draft.operand, hread]
      dsimp only [bind, Except.bind]
      rw [hplace]
      rfl
  | child =>
    obtain ⟨name, hname, written, hentry, hplace, hrest⟩ := h.references.entry hb.size_children
    rw [Listing.entryAt?_map] at hentry
    obtain ⟨c, hc, rfl⟩ := Option.map_eq_some_iff.1 hentry
    obtain ⟨c', hc', hsame⟩ := Array.mem_map.1 hname
    obtain ⟨token, hwritten, hread⟩ := child_written (hsame ▸ hb.children c' hc')
    obtain ⟨references, hreferences, rfl⟩ := place_map (x := (line, nameOf names c)) hplace
    refine ⟨token, { d with references }, ?_, ?_, ⟨rfl, rfl, rfl, rfl, rfl, (List.append_nil _).symm⟩,
      h.pool, h.symbols, hrest⟩
    · rwa [Listing.writeOperand, hc]
    · rw [Draft.operand, hread]
      dsimp only
      rw [hreferences]
      rfl

theorem Gets.trans {d'' : Draft} {fs gs : List Fixup} (h : d.Gets fs d') (h' : d'.Gets gs d'') :
    d.Gets (fs ++ gs) d'' where
  name := h'.name.trans h.name
  registers := h'.registers.trans h.registers
  locals := h'.locals.trans h.locals
  code := h'.code.trans h.code
  labels := h'.labels.trans h.labels
  fixups := by rw [h'.fixups, h.fixups, List.append_assoc]

/-- Operands that are listed one after another are read as what they were. -/
theorem Leads.operandsFrom (h : d.Leads names b (ys ++ xs)) (hb : b.Listed names)
    (hys : ∀ x ∈ ys, x.1 ≠ .none ∧ (x.1 = .register → 0 ≤ x.2)) (line slot : Nat) :
    ∃ (words : List (Text × Token)) (d' : Draft),
      words.map (·.1) = ys.map (fun x => Listing.writeOperand names b x.1 x.2) ∧
      (∀ w ∈ words, w.2.WrittenAs w.1) ∧
      d.operandsFrom line slot (ys.map (·.1)) (words.map (·.2)) = .ok (d', ys.map unfilled) ∧
      d.Gets (waitings line d.code.size slot ys) d' ∧ d'.Leads names b xs := by
  induction ys generalizing d slot with
  | nil => exact ⟨[], d, rfl, by simp, rfl, .nothing d, h⟩
  | cons y ys ih =>
    obtain ⟨hy, hys⟩ := List.forall_mem_cons.1 hys
    obtain ⟨token, e, hwritten, hread, hgets, hleads⟩ := h.operand hb hy.1 hy.2 line slot
    obtain ⟨words, d', htexts, hwords, hreads, hgets', hleads'⟩ := ih hleads hys (slot + 1)
    rw [hgets.code] at hgets'
    refine ⟨(_, token) :: words, d', congrArg (_ :: ·) htexts, List.forall_mem_cons.2 ⟨hwritten, hwords⟩, ?_,
      hgets.trans hgets', hleads'⟩
    rw [List.map_cons, List.map_cons, Draft.operandsFrom, hread]
    dsimp only [bind, Except.bind]
    rw [hreads]
    rfl

end Assembly.Draft

/-! ### Instructions -/

theorem Opcode.mnemonic_spec : ∀ op ∈ Opcode.all, (∀ b ∈ op.mnemonic, Text.isBare b) ∧
    ofMnemonic? (upperCase op.mnemonic) = some op ∧ op.mnemonic ≠ [] ∧ op.mnemonic ≠ ".irep" ∧
      op.mnemonic ≠ ".end" ∧ op.mnemonic.getLast? ≠ some (byte ':') := by decide +kernel

theorem Inst.map_fst_operands (i : Inst) : i.operands.map (·.1) = i.op.operands :=
  List.map_fst_zip (length_operands_le i.op)

theorem Inst.make_unfilled {i : Inst} (h : i.Padded) : make i.op (i.operands.map unfilled) = i.unlabelled := by
  obtain ⟨op, a, b, c⟩ := i
  obtain ⟨ha, hb, hc⟩ := h
  cases op <;> simp_all [make, unlabelled, operands, Opcode.operands, unfilled]

namespace Listing

def instLine (names : List (Nat × Text)) (b : Block) (i : Inst) : Text :=
  Text.ofString "    " ++ i.op.mnemonic
    ++ i.operands.flatMap fun (kind, n) => 32 :: writeOperand names b kind n

theorem instLine_eq (names : List (Nat × Text)) (b : Block) (i : Inst) : instLine names b i =
    32 :: 32 :: 32 :: (i.op.mnemonic :: i.operands.map fun x => writeOperand names b x.1 x.2).flatMap (32 :: ·) := by
  have hindent : Text.ofString "    " = [32, 32, 32, 32] := by decide
  rw [instLine, hindent, List.flatMap_cons, List.flatMap_map]
  rfl

theorem writeInst_eq (names : List (Nat × Text)) (b : Block) (i : Inst) :
    writeInst names b i = instLine names b i ++ [byte '\n'] := rfl

/-- A label is a number after an L. -/
def label (pc : Nat) : Text := byte 'L' :: Text.ofNat pc

def labelLine (targets : List Int64) (pc : Nat) : List Text :=
  if Int64.ofNat pc ∈ targets then [label pc ++ [byte ':']] else []

end Listing

namespace Assembly

open Listing (instLine label labelLine)

variable {names : List (Nat × Text)} {b : Block} {d : Draft} {xs : List (OperandKind × Int64)} {i : Inst}

theorem Draft.Leads.instruction (h : d.Leads names b (i.operands ++ xs)) (hb : b.Listed names)
    (hi : i ∈ b.code) (line : Nat) : ∃ (args : List Token) (d' : Draft),
      tokens (instLine names b i) = .ok (.word i.op.mnemonic :: args) ∧
      d.instruction line (.word i.op.mnemonic) args = .ok { d' with code := d.code.push i.unlabelled } ∧
      d.Gets (waitings line d.code.size 0 i.operands) d' ∧ d'.Leads names b xs := by
  obtain ⟨hbare, hop, hne, -⟩ := Opcode.mnemonic_spec i.op (hb.assembled.ops i hi)
  have hoperands : ∀ x ∈ i.operands, x.1 ≠ .none ∧ (x.1 = .register → 0 ≤ x.2) := by
    refine fun x hx => ⟨Inst.ne_none_of_mem_operands hx, fun hkind => ?_⟩
    exact hb.passes.nonneg hi hx (by simp [hkind]) (by simp [hkind])
  obtain ⟨words, d', htexts, hwords, hreads, hgets, hleads⟩ := h.operandsFrom hb hoperands line 0
  refine ⟨words.map (·.2), d', ?_, ?_, hgets, hleads⟩
  · have hline : instLine names b i = 32 :: 32 :: 32 ::
        ((i.op.mnemonic, Token.word i.op.mnemonic) :: words).flatMap fun x => 32 :: x.1 := by
      rw [Listing.instLine_eq, ← htexts, List.flatMap_cons, List.flatMap_cons, List.flatMap_map]
    have hblank : isBlank 32 := by decide
    rw [hline, tokens_blank hblank, tokens_blank hblank, tokens_blank hblank]
    exact tokens_flatMap (List.forall_mem_cons.2 ⟨writtenAs_word (.of_bare hbare hne), hwords⟩)
  · have hcount : (words.map (·.2)).length = i.op.operands.length := by
      have hlength := congrArg List.length htexts
      rw [List.length_map, List.length_map] at hlength
      rw [List.length_map, hlength, ← i.map_fst_operands, List.length_map]
    rw [i.map_fst_operands] at hreads
    rw [Draft.instruction, hop]
    dsimp only
    rw [if_neg (not_not.2 hcount), hreads, ← hgets.code, ← Inst.make_unfilled (hb.assembled.padded i hi)]
    rfl

/-! ### Labels -/

theorem label_injective : Function.Injective label := fun _ _ h => Text.ofNat_injective (List.cons.inj h).2

/-- The labels of the targets before a position. -/
def labelsBefore (targets : List Int64) : Nat → List (Text × Nat)
  | 0 => []
  | pc + 1 =>
    if Int64.ofNat pc ∈ targets then (label pc, pc) :: labelsBefore targets pc
    else labelsBefore targets pc

theorem lookup_labelsBefore (targets : List Int64) (m k : Nat) : (labelsBefore targets m).lookup (label k) =
    if k < m ∧ Int64.ofNat k ∈ targets then some k else none := by
  induction m with
  | zero => simp [labelsBefore]
  | succ m ih =>
    rw [labelsBefore]
    rcases eq_or_ne k m with rfl | hne
    · by_cases hk : Int64.ofNat k ∈ targets
      · simp [hk]
      · simp [hk, ih]
    · have hlabel : (label k == label m) = false := by simpa using fun h => hne (label_injective h)
      have hlt : k < m + 1 ↔ k < m := by omega
      simp only [hlt]
      rw [← ih]
      split
      · rw [List.lookup_cons, hlabel]
      · rfl

/-- What a label of a block stands for. -/
def target (b : Block) (l : Text) : Int64 :=
  Int64.ofNat (((labelsBefore (Listing.targets b) (b.code.size + 1)).lookup l).getD 0)

def mend (b : Block) (code : Array Inst) (f : Fixup) : Array Inst :=
  code.modify f.pc (setSlot · f.slot (target b f.label))

theorem modify_push_of_lt {code : Array Inst} {pc : Nat} (h : pc < code.size) (g : Inst → Inst) :
    (code.push i).modify pc g = (code.modify pc g).push i := by
  refine Array.ext_getElem? fun k => ?_
  rw [Array.getElem?_modify, Array.getElem?_push, Array.getElem?_push, Array.getElem?_modify, Array.size_modify]
  split_ifs <;> first | rfl | omega

theorem modify_push_size (code : Array Inst) (g : Inst → Inst) :
    (code.push i).modify code.size g = code.push (g i) := by
  refine Array.ext_getElem? fun k => ?_
  rw [Array.getElem?_modify, Array.getElem?_push, Array.getElem?_push]
  split_ifs <;> first | rfl | omega

/-- Earlier operands are filled in as before when an instruction is added. -/
theorem foldl_mend_push {fs : List Fixup} {code : Array Inst} (h : ∀ f ∈ fs, f.pc < code.size) :
    fs.foldl (mend b) (code.push i) = (fs.foldl (mend b) code).push i := by
  induction fs generalizing code with
  | nil => rfl
  | cons f fs ih =>
    obtain ⟨hf, hfs⟩ := List.forall_mem_cons.1 h
    rw [List.foldl_cons, List.foldl_cons, mend, modify_push_of_lt hf, ih fun g hg => ?_]
    · rfl
    · rw [Array.size_modify]
      exact hfs g hg

/-- Filling in the labels of the last instruction. -/
theorem foldl_mend_waitings {code : Array Inst} (line : Nat)
    (h : ∀ n, (.label, n) ∈ i.operands → target b (byte 'L' :: Text.ofInt64 n) = n) :
    (waitings line code.size 0 i.operands).foldl (mend b) (code.push i.unlabelled) = code.push i := by
  obtain ⟨op, x, y, z⟩ := i
  cases op <;> simp_all [waitings, waiting, Inst.operands, Opcode.operands, Inst.unlabelled, mend,
    modify_push_size, setSlot]

theorem ofInt64_of_nonneg {n : Int64} (hn : 0 ≤ n) : Text.ofInt64 n = Text.ofNat n.toInt.toNat := by
  rw [Int64.le_iff_toInt_le, Int64.toInt_zero] at hn
  rw [Text.ofInt64, Text.ofInt, if_neg (Int.not_lt.2 hn)]
  congr 1
  omega

theorem ofNat_toInt {n : Int64} (hn : 0 ≤ n) : Int64.ofNat n.toInt.toNat = n := by
  rw [Int64.le_iff_toInt_le, Int64.toInt_zero] at hn
  have hlt := n.toInt_lt
  rw [← Int64.toInt_inj, Int64.toInt_ofNat_of_lt (by omega), Int.toNat_of_nonneg hn]

theorem mem_targets {n : Int64} : n ∈ Listing.targets b ↔ ∃ i ∈ b.code, (.label, n) ∈ i.operands := by
  simp [Listing.targets]

/-- What a label is defined as is what the operand was. -/
theorem lookup_target {n : Int64} (h : b.Passes) (hn : n ∈ Listing.targets b) :
    (labelsBefore (Listing.targets b) (b.code.size + 1)).lookup (byte 'L' :: Text.ofInt64 n) =
      some n.toInt.toNat := by
  obtain ⟨i, hi, hx⟩ := mem_targets.1 hn
  have hnonneg := h.nonneg hi hx (by simp) (by simp)
  obtain ⟨slot, hslot⟩ := List.getElem?_of_mem hx
  have hle : n.toInt ≤ b.code.size := ((h.operands i hi slot _ n hslot).resolve_right id).2
  rw [ofInt64_of_nonneg hnonneg]
  refine (lookup_labelsBefore _ _ _).trans (if_pos ⟨by omega, ?_⟩)
  rwa [ofNat_toInt hnonneg]

theorem target_eq {n : Int64} (h : b.Passes) (hn : n ∈ Listing.targets b) :
    target b (byte 'L' :: Text.ofInt64 n) = n := by
  obtain ⟨i, hi, hx⟩ := mem_targets.1 hn
  rw [target, lookup_target h hn, Option.getD_some, ofNat_toInt (h.nonneg hi hx (by simp) (by simp))]

/-! ### Lines -/

/-- The lines are read from a reader, whatever their numbers are, and bring it to a property. -/
def Reader.Yields (r : Reader) (texts : List Text) (P : Reader → Prop) : Prop :=
  ∀ number, ∃ r', r.lines (texts.zipIdx number) = .ok r' ∧ P r'

theorem Reader.lines_append (r : Reader) (xs ys : List (Text × Nat)) :
    r.lines (xs ++ ys) = r.lines xs >>= fun r => r.lines ys := by
  induction xs generalizing r with
  | nil => rfl
  | cons x xs ih =>
    rw [List.cons_append, Reader.lines, Reader.lines]
    cases r.line x.2 x.1 with
    | error e => rfl
    | ok r => exact ih r

namespace Reader.Yields

variable {r : Reader} {text : Text} {texts more : List Text} {P Q : Reader → Prop}

theorem nil (h : P r) : r.Yields [] P := fun _ => ⟨r, rfl, h⟩

theorem single (h : ∀ number, ∃ r', r.line number text = .ok r' ∧ P r') : r.Yields [text] P := by
  intro number
  obtain ⟨r', hline, hr'⟩ := h number
  exact ⟨r', by rw [List.zipIdx_singleton, Reader.lines, hline]; rfl, hr'⟩

theorem append (h : r.Yields texts Q) (hmore : ∀ r', Q r' → r'.Yields more P) :
    r.Yields (texts ++ more) P := by
  intro number
  obtain ⟨s, hlines, hs⟩ := h number
  obtain ⟨r', hrest, hr'⟩ := hmore s hs (number + texts.length)
  refine ⟨r', ?_, hr'⟩
  rw [List.zipIdx_append, Reader.lines_append, hlines]
  exact hrest

end Reader.Yields

theorem tokens_word {t : Text} (h : t.IsWord) : tokens t = .ok [.word t] := by
  have hread := (writtenAs_word h).reads [] [] ends_nil rfl
  rwa [List.append_nil] at hread

theorem isWord_label (pc : Nat) : Text.IsWord (label pc ++ [byte ':']) := by
  have hdigit : ∀ b ∈ Text.ofNat pc, Text.isBare b := fun b hb =>
    Text.isBare_of_isNumeric (by simp [Double.isNumeric, Text.isDigit_ofNat pc b hb])
  refine .of_bare (List.forall_mem_append.2 ⟨?_, ?_⟩) (by simp)
  · exact List.forall_mem_cons.2 ⟨by decide, hdigit⟩
  · exact List.forall_mem_singleton.2 (by decide)

/-- The line of a label defines it. -/
theorem Reader.line_label {finished : Array Draft} (number pc : Nat) (hnew : d.labels.lookup (label pc) = none) :
    Reader.line ⟨finished, some d⟩ number (label pc ++ [byte ':']) =
      .ok ⟨finished, some { d with labels := (label pc, d.code.size) :: d.labels }⟩ := by
  have hlabel : definedLabel? [.word (label pc ++ [byte ':'])] = some (label pc) := by
    have hmarks : (some (byte ':') == some (byte ':') && some (byte 'L') != some (byte ':')) = true := by decide
    rw [definedLabel?, List.getLast?_concat, List.dropLast_concat]
    exact if_pos hmarks
  have hhead : ∀ t : Text, t.head? ≠ some (byte 'L') → Token.word (label pc ++ [byte ':']) ≠ .word t := by
    rintro t ht heq
    exact ht (by rw [← Token.word.inj heq]; rfl)
  rw [Reader.line, tokens_word (isWord_label pc)]
  dsimp only
  rw [if_neg (hhead _ (by decide)), if_neg (hhead _ (by decide)), Reader.content]
  dsimp only
  rw [hlabel]
  dsimp only
  rw [Draft.define, hnew]
  rfl

/-- The line of an instruction adds it. -/
theorem Reader.line_inst {finished : Array Draft} {number : Nat} {d' : Draft} {args : List Token}
    (hop : i.op ∈ Opcode.all) (htokens : tokens (instLine names b i) = .ok (.word i.op.mnemonic :: args))
    (hread : d.instruction number (.word i.op.mnemonic) args = .ok d') :
    Reader.line ⟨finished, some d⟩ number (instLine names b i) = .ok ⟨finished, some d'⟩ := by
  obtain ⟨-, -, -, hbegin, hend, hlast⟩ := Opcode.mnemonic_spec i.op hop
  have hlabel : definedLabel? (.word i.op.mnemonic :: args) = none := by
    cases args with
    | nil => exact if_neg (by simp [hlast])
    | cons => rfl
  rw [Reader.line, htokens]
  dsimp only
  rw [if_neg fun h => hbegin (Token.word.inj h), if_neg fun h => hend (Token.word.inj h), Reader.content]
  dsimp only
  rw [hlabel]
  dsimp only
  rw [hread]
  rfl

/-! ### Code -/

/-- The draft while a section is read: `done` has been read, with the labels of the first positions,
and `rest` has not. -/
structure Draft.Mirrors (names : List (Nat × Text)) (b : Block) (name : Text) (labelled : Nat)
    (done rest : List Inst) (d : Draft) : Prop where
  name : d.name = name
  registers : d.registers = b.registers
  locals : d.locals = b.locals
  code : d.code.toList = done.map Inst.unlabelled
  labels : d.labels = labelsBefore (Listing.targets b) labelled
  mended : d.fixups.toList.foldl (mend b) d.code = done.toArray
  fixups : ∀ f ∈ d.fixups.toList,
    f.pc < done.length ∧ ∃ n ∈ Listing.targets b, f.label = byte 'L' :: Text.ofInt64 n
  leads : d.Leads names b (rest.flatMap Inst.operands)

namespace Draft.Mirrors

variable {finished : Array Draft} {name : Text} {done rest : List Inst}

theorem size_code {labelled : Nat} (h : d.Mirrors names b name labelled done rest) :
    d.code.size = done.length := by
  rw [← Array.length_toList, h.code, List.length_map]

/-- The label of the next position is read. -/
theorem label_read (h : d.Mirrors names b name done.length done rest) :
    Reader.Yields ⟨finished, some d⟩ (labelLine (Listing.targets b) done.length) fun r =>
      ∃ d', r = ⟨finished, some d'⟩ ∧ d'.Mirrors names b name (done.length + 1) done rest := by
  rw [labelLine]
  split_ifs with htarget
  · have hnew : d.labels.lookup (label done.length) = none := by
      rw [h.labels, lookup_labelsBefore, if_neg (by omega)]
    refine .single fun number => ⟨_, Reader.line_label number _ hnew, _, rfl, ?_⟩
    refine { h with labels := ?_, leads := ⟨h.leads.pool, h.leads.symbols, h.leads.references⟩ }
    rw [labelsBefore, if_pos htarget, h.labels, h.size_code]
  · refine .nil ⟨d, rfl, { h with labels := ?_ }⟩
    rw [labelsBefore, if_neg htarget, h.labels]

theorem mem_waitings {line pc slot : Nat} {f : Fixup} (hf : f ∈ waitings line pc slot xs) :
    f.pc = pc ∧ ∃ n, (.label, n) ∈ xs ∧ f.label = byte 'L' :: Text.ofInt64 n := by
  induction xs generalizing slot with
  | nil => cases hf
  | cons x xs ih =>
    rw [waitings, List.mem_append] at hf
    rcases hf with hf | hf
    · obtain ⟨kind, n⟩ := x
      cases kind
      case label =>
        rw [waiting, List.mem_singleton] at hf
        rw [hf]
        exact ⟨rfl, n, List.mem_cons_self, rfl⟩
      all_goals cases hf
    · obtain ⟨hpc, n, hn, hlabel⟩ := ih hf
      exact ⟨hpc, n, List.mem_cons_of_mem x hn, hlabel⟩

/-- The next instruction is read. -/
theorem inst_read (h : d.Mirrors names b name (done.length + 1) done (i :: rest)) (hb : b.Listed names)
    (hi : i ∈ b.code) : Reader.Yields ⟨finished, some d⟩ [instLine names b i] fun r =>
      ∃ d', r = ⟨finished, some d'⟩ ∧ d'.Mirrors names b name (done ++ [i]).length (done ++ [i]) rest := by
  refine .single fun number => ?_
  obtain ⟨args, d', htokens, hread, hgets, hleads⟩ :=
    (List.flatMap_cons ▸ h.leads : d.Leads names b (i.operands ++ rest.flatMap Inst.operands)).instruction
      hb hi number
  refine ⟨_, Reader.line_inst (hb.assembled.ops i hi) htokens hread, _, rfl, ?_⟩
  have hlength : (done ++ [i]).length = done.length + 1 := List.length_append
  refine ⟨hgets.name.trans h.name, hgets.registers.trans h.registers, hgets.locals.trans h.locals, ?_, ?_, ?_,
    fun f hf => ?_, ⟨hleads.pool, hleads.symbols, hleads.references⟩⟩
  · rw [Array.toList_push, h.code, List.map_append, List.map_singleton]
  · rw [hlength]
    exact hgets.labels.trans h.labels
  · have hsize : d.code.size = done.toArray.size := h.size_code.trans List.size_toArray.symm
    have hfixups : ∀ f ∈ d.fixups.toList, f.pc < d.code.size := fun f hf => h.size_code ▸ (h.fixups f hf).1
    dsimp only
    rw [hgets.fixups, List.foldl_append, foldl_mend_push hfixups, h.mended, hsize,
      foldl_mend_waitings number fun n hn => target_eq hb.passes (mem_targets.2 ⟨i, hi, hn⟩)]
    exact List.push_toArray done i
  · rw [hgets.fixups, List.mem_append] at hf
    rw [hlength]
    rcases hf with hf | hf
    · exact ⟨Nat.lt_succ_of_lt (h.fixups f hf).1, (h.fixups f hf).2⟩
    · obtain ⟨hpc, n, hn, hlabel⟩ := mem_waitings hf
      rw [hpc, h.size_code]
      exact ⟨Nat.lt_succ_self _, n, mem_targets.2 ⟨i, hi, hn⟩, hlabel⟩

/-- The code of a section is read. -/
theorem code_read (h : d.Mirrors names b name done.length done rest) (hb : b.Listed names)
    (hcode : b.code.toList = done ++ rest) :
    Reader.Yields ⟨finished, some d⟩ ((rest.zipIdx done.length).flatMap fun x =>
        labelLine (Listing.targets b) x.2 ++ [instLine names b x.1]) fun r =>
      ∃ d', r = ⟨finished, some d'⟩ ∧ d'.Mirrors names b name b.code.size b.code.toList [] := by
  induction rest generalizing done d with
  | nil =>
    rw [List.append_nil] at hcode
    refine .nil ⟨d, rfl, ?_⟩
    rwa [← Array.length_toList, hcode]
  | cons i rest ih =>
    have hi : i ∈ b.code := by
      rw [← Array.mem_toList_iff, hcode]
      simp
    have hstep : Reader.Yields ⟨finished, some d⟩
        (labelLine (Listing.targets b) done.length ++ [instLine names b i]) fun r => ∃ d',
          r = ⟨finished, some d'⟩ ∧ d'.Mirrors names b name (done ++ [i]).length (done ++ [i]) rest := by
      refine h.label_read.append ?_
      rintro _ ⟨d, rfl, h⟩
      exact h.inst_read hb hi
    rw [List.zipIdx_cons, List.flatMap_cons]
    refine hstep.append ?_
    rintro _ ⟨d, rfl, h⟩
    have hrest := ih h (by rw [hcode, List.append_assoc, List.singleton_append])
    rwa [List.length_append, List.length_singleton] at hrest

end Draft.Mirrors

/-- The draft is the block, with the names of its children. -/
structure Draft.Copies (names : List (Nat × Text)) (b : Block) (name : Text) (d : Draft) : Prop where
  name : d.name = name
  registers : d.registers = b.registers
  locals : d.locals = b.locals
  code : d.code = b.code
  pool : d.pool = b.pool
  symbols : d.symbols = b.symbols
  references : d.references.map (·.2) = b.children.map (nameOf names)

theorem tokens_end : tokens ".end" = .ok [.word ".end"] := by decide

/-- Labels that are all defined are filled in. -/
theorem Draft.resolve_mend (hlabels : d.labels = labelsBefore (Listing.targets b) (b.code.size + 1))
    (h : ∀ f ∈ d.fixups.toList, (d.labels.lookup f.label).isSome) :
    d.resolve = .ok (d.fixups.toList.foldl (mend b) d.code) := by
  obtain ⟨fs, hfs⟩ : ∃ fs, d.fixups.toList = fs := ⟨_, rfl⟩
  induction fs generalizing d with
  | nil => rw [Draft.resolve_nil hfs, hfs, List.foldl_nil]
  | cons f fs ih =>
    rw [hfs, List.forall_mem_cons] at h
    obtain ⟨pc, hpc⟩ := Option.isSome_iff_exists.1 h.1
    have htarget : target b f.label = Int64.ofNat pc := by rw [target, ← hlabels, hpc, Option.getD_some]
    rw [Draft.resolve_cons hfs hpc, ih (d := d.fill f fs pc) hlabels h.2 rfl, hfs, List.foldl_cons, mend,
      htarget]
    rfl

namespace Draft.Mirrors

variable {finished : Array Draft} {name : Text}

/-- The section is closed. -/
theorem end_read (h : d.Mirrors names b name (b.code.size + 1) b.code.toList []) (hb : b.Listed names) :
    Reader.Yields ⟨finished, some d⟩ [Text.ofString ".end"] fun r =>
      ∃ d', r = ⟨finished.push d', none⟩ ∧ d'.Copies names b name := by
  have hresolve : d.resolve = .ok b.code := by
    rw [Draft.resolve_mend h.labels, h.mended]
    intro f hf
    obtain ⟨-, n, hn, hlabel⟩ := h.fixups f hf
    rw [hlabel, h.labels, lookup_target hb.passes hn]
    rfl
  refine .single fun number => ⟨⟨finished.push { d with code := b.code }, none⟩, ?_, _, rfl, ?_⟩
  · rw [Reader.line, tokens_end]
    dsimp only
    rw [if_neg (by decide), if_pos rfl, Reader.endBlock]
    dsimp only
    rw [hresolve]
    rfl
  · exact ⟨h.name, h.registers, h.locals, rfl, h.leads.pool.eq_of_nil, h.leads.symbols.eq_of_nil,
      h.leads.references.eq_of_nil⟩

end Draft.Mirrors

end Assembly

/-! ### Sections -/

namespace Listing

def headLine (name : Text) (b : Block) : Text :=
  ".irep " ++ name ++ " nregs=" ++ Text.ofInt64 b.registers ++ " nlocals=" ++ Text.ofInt64 b.locals

def sectionLines (names : List (Nat × Text)) (name : Text) (b : Block) : List Text :=
  [headLine name b]
    ++ (b.code.toList.zipIdx.flatMap fun x => labelLine (targets b) x.2 ++ [instLine names b x.1])
    ++ labelLine (targets b) b.code.size ++ [Text.ofString ".end"]

theorem writeSection_eq (names : List (Nat × Text)) (name : Text) (b : Block) :
    writeSection names name b = (sectionLines names name b).flatMap (· ++ [byte '\n']) := by
  have hlabel : ∀ pc, writeLabel (targets b) pc = (labelLine (targets b) pc).flatMap (· ++ [byte '\n']) := by
    intro pc
    rw [writeLabel, labelLine]
    split_ifs <;> simp [label]
  have hnewline : Text.ofString "\n" = [byte '\n'] := by decide
  have hend : Text.ofString ".end\n" = Text.ofString ".end" ++ [byte '\n'] := by decide
  simp only [writeSection, sectionLines, headLine, hlabel, hnewline, hend, writeInst_eq,
    List.flatMap_append, List.flatMap_singleton, List.flatMap_assoc, List.append_assoc]

end Listing

namespace Assembly

open Listing (headLine instLine labelLine sectionLines)

variable {names : List (Nat × Text)} {b : Block} {name : Text} {finished : Array Draft}

theorem cut_eq {sep : UInt8} {key : Text} (h : ∀ b ∈ key, b ≠ sep) (value : Text) :
    Text.cut sep (key ++ sep :: value) = some (key, value) := by
  induction key with
  | nil => simp [Text.cut]
  | cons b key ih =>
    obtain ⟨hb, hkey⟩ := List.forall_mem_cons.1 h
    rw [List.cons_append, Text.cut, if_neg (by simpa using hb), ih hkey]
    rfl

def attributeText (key : Text) (n : Int64) : Text := key ++ byte '=' :: Text.ofInt64 n

theorem isWord_attributeText {key : Text} (h : ∀ b ∈ key, Text.isBare b) (n : Int64) : (attributeText key n).IsWord := by
  refine .of_bare (List.forall_mem_append.2 ⟨h, List.forall_mem_cons.2 ⟨by decide, isBare_ofInt64 n⟩⟩) ?_
  exact List.append_ne_nil_of_right_ne_nil _ (List.cons_ne_nil _ _)

theorem readAttributes_attributeText {d : Draft} {key : Text} {n : Int64} {ts : List Token}
    (hkey : ∀ b ∈ key, b ≠ byte '=') (hn : 0 ≤ n) : readAttributes d (.word (attributeText key n) :: ts) =
      if key = "nregs" then readAttributes { d with registers := n } ts
      else if key = "nlocals" then readAttributes { d with locals := n } ts
      else .error (.attributeUnknown key) := by
  rw [readAttributes, Token.text, attributeText, cut_eq hkey]
  dsimp only
  rw [Text.readInt64?_ofInt64]
  exact if_neg (Int64.not_lt.2 hn)

theorem headLine_eq (name : Text) (b : Block) : headLine name b = Text.ofString ".irep" ++
    [name, attributeText "nregs" b.registers, attributeText "nlocals" b.locals].flatMap (32 :: ·) := by
  have hbegin : Text.ofString ".irep " = Text.ofString ".irep" ++ [32] := by decide
  have hregisters : Text.ofString " nregs=" = 32 :: Text.ofString "nregs" ++ [byte '='] := by decide
  have hlocals : Text.ofString " nlocals=" = 32 :: Text.ofString "nlocals" ++ [byte '='] := by decide
  rw [headLine, hbegin, hregisters, hlocals]
  simp [attributeText]

/-- A line of words, a blank between any two. -/
theorem tokens_words {w : Text} {ws : List Text} (hw : w.IsWord) (hws : ∀ w ∈ ws, w.IsWord) :
    tokens (w ++ ws.flatMap (32 :: ·)) = .ok (.word w :: ws.map .word) := by
  have hrest : tokens ((ws.map fun w => (w, Token.word w)).flatMap fun x => 32 :: x.1) =
      .ok ((ws.map fun w => (w, Token.word w)).map (·.2)) := by
    refine tokens_flatMap fun x hx => ?_
    obtain ⟨w, hmem, rfl⟩ := List.mem_map.1 hx
    exact writtenAs_word (hws w hmem)
  rw [List.flatMap_map, List.map_map] at hrest
  refine (writtenAs_word hw).reads _ _ ?_ hrest
  cases ws with
  | nil => exact ends_nil
  | cons w ws => exact ends_blank (by decide) _

theorem tokens_headLine (hname : name.IsWord) (b : Block) : tokens (headLine name b) = .ok [.word ".irep",
    .word name, .word (attributeText "nregs" b.registers), .word (attributeText "nlocals" b.locals)] := by
  have hbegin : Text.IsWord ".irep" := .of_bare (by decide +kernel) (by decide +kernel)
  rw [headLine_eq]
  refine tokens_words hbegin ?_
  simp only [List.forall_mem_cons, List.not_mem_nil, false_implies, implies_true, and_true]
  exact ⟨hname, isWord_attributeText (by decide +kernel) _, isWord_attributeText (by decide +kernel) _⟩

/-- The header of a section opens the draft. -/
theorem head_read (hb : b.Listed names) (hname : name.IsWord) (hnew : ∀ d ∈ finished, d.name ≠ name) :
    Reader.Yields ⟨finished, none⟩ [headLine name b] fun r =>
      ∃ d, r = ⟨finished, some d⟩ ∧ d.Mirrors names b name 0 [] b.code.toList := by
  have hregisters : 0 ≤ b.registers := by
    have hpos := hb.passes.registers
    rw [Int64.le_iff_toInt_le, Int64.toInt_zero]
    omega
  have hfree : finished.any (·.name == name) = false := by
    rw [Array.any_eq_false]
    exact fun k hk => by simpa using hnew _ (Array.getElem_mem hk)
  have hread : ∀ number, readAttributes { name, line := number } [.word (attributeText "nregs" b.registers),
      .word (attributeText "nlocals" b.locals)] =
        .ok { name, line := number, registers := b.registers, locals := b.locals } := by
    intro number
    rw [readAttributes_attributeText (by decide +kernel) hregisters, if_pos rfl,
      readAttributes_attributeText (by decide +kernel) hb.assembled.locals, if_neg (by decide +kernel), if_pos rfl]
    rfl
  refine .single fun number => ?_
  refine ⟨⟨finished, some { name, line := number, registers := b.registers, locals := b.locals }⟩, ?_,
    _, rfl, ?_⟩
  · rw [Reader.line, tokens_headLine hname]
    dsimp only
    rw [if_pos rfl, Reader.beginBlock]
    dsimp only
    rw [hfree, if_neg Bool.false_ne_true, hread]
    rfl
  · have huses : ∀ kind, numbersOf kind (b.code.toList.flatMap Inst.operands) = uses kind b.code.toList := by
      intro kind
      rw [numbersOf, uses, List.filter_flatMap, List.map_flatMap]
      rfl
    refine ⟨rfl, rfl, rfl, rfl, rfl, rfl, by simp, ?_, ?_, ?_⟩
    · rw [huses]
      exact hb.assembled.pool
    · rw [huses]
      exact hb.assembled.symbols
    · have hchildren : Placed (· == ·) (#[].map (nameOf names)) (uses .child b.code.toList)
          (b.children.map (nameOf names)) := by
        refine hb.assembled.children.map fun c hc c' hc' => ?_
        rw [Bool.eq_iff_iff, beq_iff_eq, beq_iff_eq]
        exact ⟨hb.apart c hc c' hc', congrArg _⟩
      dsimp only
      rw [huses, Array.map_empty]
      rwa [Array.map_empty] at hchildren

/-- A section is read as its block. -/
theorem section_read (hb : b.Listed names) (hname : name.IsWord) (hnew : ∀ d ∈ finished, d.name ≠ name) :
    Reader.Yields ⟨finished, none⟩ (sectionLines names name b) fun r =>
      ∃ d, r = ⟨finished.push d, none⟩ ∧ d.Copies names b name := by
  have hcode : Reader.Yields ⟨finished, none⟩ ([headLine name b] ++ b.code.toList.zipIdx.flatMap fun x =>
      labelLine (Listing.targets b) x.2 ++ [instLine names b x.1]) fun r =>
        ∃ d, r = ⟨finished, some d⟩ ∧ d.Mirrors names b name b.code.size b.code.toList [] := by
    refine (head_read hb hname hnew).append ?_
    rintro _ ⟨d, rfl, h⟩
    rw [← List.length_nil] at h
    exact h.code_read hb rfl
  have hlabel : Reader.Yields ⟨finished, none⟩ (([headLine name b] ++ b.code.toList.zipIdx.flatMap fun x =>
      labelLine (Listing.targets b) x.2 ++ [instLine names b x.1]) ++
        labelLine (Listing.targets b) b.code.size) fun r => ∃ d, r = ⟨finished, some d⟩ ∧
          d.Mirrors names b name (b.code.size + 1) b.code.toList [] := by
    refine hcode.append ?_
    rintro _ ⟨d, rfl, h⟩
    exact h.label_read
  refine hlabel.append ?_
  rintro _ ⟨d, rfl, h⟩
  exact h.end_read hb

end Assembly

end ObjectMachine
