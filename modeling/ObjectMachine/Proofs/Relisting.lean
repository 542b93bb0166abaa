import ObjectMachine.Proofs.Rereading

/-! Listings read back. The blocks of a listing that is assembled again stand in visiting order, under
the names they were listed with, and so they are listed the same. -/

namespace ObjectMachine

open Text (byte)
open Assembly
open Listing (IsName nameOf sectionLines)

/-! ### Texts in parts -/

namespace Text

variable {sep : UInt8} {t : Text}

theorem splitOn_ne_nil (sep : UInt8) (t : Text) : splitOn sep t ≠ [] := by
  cases t with
  | nil => exact List.cons_ne_nil _ _
  | cons b t =>
    rw [splitOn]
    split_ifs
    · exact List.cons_ne_nil _ _
    · cases splitOn sep t <;> exact List.cons_ne_nil _ _

theorem splitOn_append (sep : UInt8) (s t : Text) :
    splitOn sep (s ++ sep :: t) = splitOn sep s ++ splitOn sep t := by
  induction s with
  | nil => simp [splitOn]
  | cons b s ih =>
    rw [List.cons_append, splitOn, splitOn]
    split_ifs
    · rw [ih, List.cons_append]
    · rw [ih]
      cases hparts : splitOn sep s with
      | nil => exact absurd hparts (splitOn_ne_nil sep s)
      | cons part parts => rfl

theorem splitOn_of_unbroken (h : ∀ b ∈ t, b ≠ sep) : splitOn sep t = [t] := by
  induction t with
  | nil => rfl
  | cons b t ih =>
    obtain ⟨hb, ht⟩ := List.forall_mem_cons.1 h
    rw [splitOn, if_neg (by simpa using hb), ih ht]

theorem splitOn_flatMap (sep : UInt8) (lines : List Text) (t : Text) :
    splitOn sep (lines.flatMap (· ++ [sep]) ++ t) = lines.flatMap (splitOn sep) ++ splitOn sep t := by
  induction lines with
  | nil => rfl
  | cons line lines ih =>
    rw [List.flatMap_cons, List.flatMap_cons, List.append_assoc, List.append_assoc, List.append_assoc,
      List.singleton_append, splitOn_append, ih]

/-- The parts of a text have no other bytes than the text. -/
theorem mem_of_mem_splitOn {part : Text} {b : UInt8} (hpart : part ∈ splitOn sep t) (hb : b ∈ part) :
    b ∈ t := by
  induction t generalizing part with
  | nil =>
    obtain rfl := List.mem_singleton.1 hpart
    exact hb
  | cons c t ih =>
    rw [splitOn] at hpart
    split_ifs at hpart
    · rcases List.mem_cons.1 hpart with rfl | hpart
      · cases hb
      · exact List.mem_cons_of_mem _ (ih hpart hb)
    · obtain ⟨first, parts, hparts⟩ := List.exists_cons_of_ne_nil (splitOn_ne_nil sep t)
      rw [hparts] at hpart ih
      rcases List.mem_cons.1 hpart with rfl | hpart
      · exact (List.mem_cons.1 hb).elim (· ▸ List.mem_cons_self)
          fun hb => List.mem_cons_of_mem _ (ih List.mem_cons_self hb)
      · exact List.mem_cons_of_mem _ (ih (List.mem_cons_of_mem _ hpart) hb)

/-- The lines of sections with an empty one after each. -/
theorem splitOn_join (sep : UInt8) {parts : List (List Text)} (h : parts ≠ []) :
    splitOn sep (join [sep] (parts.map fun lines => lines.flatMap (· ++ [sep]))) =
      parts.flatMap fun lines => lines.flatMap (splitOn sep) ++ [[]] := by
  induction parts with
  | nil => exact absurd rfl h
  | cons lines parts ih =>
    cases parts with
    | nil =>
      have hlast := splitOn_flatMap sep lines []
      rw [List.append_nil] at hlast
      simpa [join, splitOn] using hlast
    | cons more parts =>
      rw [List.map_cons, List.map_cons, join, ← List.map_cons, List.append_assoc, splitOn_flatMap,
        List.singleton_append, splitOn, if_pos (beq_self_eq_true sep), ih (List.cons_ne_nil _ _)]
      simp

end Text

/-! ### Names -/

namespace Listing

variable {p : Program} {i : Nat} {x y : Nat × Text}

theorem lookup_of_mem {names : List (Nat × Text)} (hnodup : (names.map (·.1)).Nodup) (hx : x ∈ names) :
    names.lookup x.1 = some x.2 := by
  induction names with
  | nil => cases hx
  | cons y names ih =>
    rw [List.map_cons, List.nodup_cons] at hnodup
    rcases List.mem_cons.1 hx with rfl | hx
    · rw [List.lookup_cons, beq_self_eq_true]
    · have hne : (x.1 == y.1) = false := by
        refine beq_false_of_ne fun heq => hnodup.1 ?_
        exact heq ▸ List.mem_map_of_mem hx
      rw [List.lookup_cons, hne]
      exact ih hnodup.2 hx

theorem map_fst_names (p : Program) : (names p).map (·.1) = p.visitOrder := map_fst_assignNames p [] 0 _

theorem nodup_names (p : Program) : ((names p).map (·.2)).Nodup := (nodup_assignNames p [] 0 _).1

theorem nameOf_names (hx : x ∈ names p) : nameOf (names p) x.1 = x.2 := by
  have hnodup : ((names p).map (·.1)).Nodup := map_fst_names p ▸ Program.visitOrder_nodup
  rw [nameOf, lookup_of_mem hnodup hx, Option.getD_some]

theorem exists_mem_names (hi : i ∈ p.visitOrder) : ∃ x ∈ names p, x.1 = i :=
  List.mem_map.1 (map_fst_names p ▸ hi)

/-- The name that a block has of its own is not shown. -/
theorem writeSection_named (names : List (Nat × Text)) (name : Text) (b : Block) (own : Text) :
    writeSection names name { b with name := own } = writeSection names name b := rfl

theorem eq_of_names (hx : x ∈ names p) (hy : y ∈ names p) (h : x.2 = y.2) : x = y :=
  List.inj_on_of_nodup_map (nodup_names p) hx hy h

end Listing

/-- Every symbol that is listed stays in one piece. -/
def Program.Whole (p : Program) : Prop :=
  ∀ i, p.Reached i → ∀ s ∈ (p.block i).symbols, Assembly.IsWhole s

namespace Program.Assembled

variable {p : Program} {i : Nat}

theorem isName_of_mem_names {x : Nat × Text} (h : p.Assembled) (hx : x ∈ Listing.names p) : IsName x.2 :=
  Listing.isName_of_mem_assignNames (fun _ hi => (h.block (h.mem_visitOrder.1 hi)).name) hx

theorem reached_of_mem_names {x : Nat × Text} (h : p.Assembled) (hx : x ∈ Listing.names p) : p.Reached x.1 :=
  h.mem_visitOrder.1 (Listing.map_fst_names p ▸ List.mem_map_of_mem hx)

theorem passes (h : p.Assembled) (hi : p.Reached i) : (p.block i).Passes :=
  defect?_eq_none_iff.1 h.valid i hi (h.lt_size hi)

theorem exists_name_of_child (h : p.Assembled) (hi : p.Reached i) {c : Nat} (hc : c ∈ (p.block i).children) :
    ∃ x ∈ Listing.names p, x.1 = c :=
  Listing.exists_mem_names (h.mem_visitOrder.2 (hi.child (Array.mem_toList_iff.2 hc)))

theorem isWord_nameOf (h : p.Assembled) (hi : p.Reached i) :
    ∀ c ∈ (p.block i).children, (nameOf (Listing.names p) c).IsWord := by
  intro c hc
  obtain ⟨x, hx, rfl⟩ := h.exists_name_of_child hi hc
  rw [Listing.nameOf_names hx]
  exact (h.isName_of_mem_names hx).word

theorem listed (h : p.Assembled) (hwhole : p.Whole) (hi : p.Reached i) :
    (p.block i).Listed (Listing.names p) := by
  refine ⟨h.block hi, h.passes hi, hwhole i hi, h.isWord_nameOf hi, fun c hc c' hc' heq => ?_⟩
  obtain ⟨x, hx, rfl⟩ := h.exists_name_of_child hi hc
  obtain ⟨y, hy, rfl⟩ := h.exists_name_of_child hi hc'
  rw [Listing.nameOf_names hx, Listing.nameOf_names hy] at heq
  rw [Listing.eq_of_names hx hy heq]

end Program.Assembled

/-! ### Lines that stay whole -/

namespace Listing

variable {names : List (Nat × Text)} {b : Block} {kind : OperandKind} {i : Inst}

/-- A token that is a symbol in quotes only when the symbol needs them. -/
def Fits (token : Token) : Prop := ∀ s, token = .symbol s → isQuoted s

theorem fits_word (t : Text) : Fits (.word t) := by rintro s ⟨⟩

/-- What stands for the entries of a table stands for an operand too, missing or not. -/
theorem token_entry {α : Type} {xs : Array α} {write : α → Text} {n : Int64}
    (h : ∀ x ∈ xs, entryAt? xs n = some x → ∃ token : Token, token.WrittenAs (write x) ∧ Fits token) :
    ∃ token : Token, token.WrittenAs (((entryAt? xs n).map write).getD (byte '?' :: Text.ofInt64 n)) ∧
      Fits token := by
  have hmissing : Text.IsWord (byte '?' :: Text.ofInt64 n) := (isWord_ofInt64 n).cons (by decide) (by decide)
  unfold entryAt? at h ⊢
  split_ifs at h ⊢
  · exact ⟨_, writtenAs_word hmissing, fits_word _⟩
  · cases hx : xs[n.toInt.toNat]? with
    | none => exact ⟨_, writtenAs_word hmissing, fits_word _⟩
    | some x => exact h x (Array.mem_of_getElem? hx) hx

/-- Operands stand as one token, but for symbols that are not whole. -/
theorem token_writeOperand (hb : b.Assembled) (hchildren : ∀ c ∈ b.children, (nameOf names c).IsWord) {n : Int64}
    (hsymbol : kind = .symbol → ∀ s ∈ b.symbols, entryAt? b.symbols n = some s → IsWhole s) :
    ∃ token : Token, token.WrittenAs (writeOperand names b kind n) ∧ Fits token := by
  have hword : ∀ mark : UInt8, Text.isBare mark → mark ≠ byte ':' →
      ∃ token : Token, token.WrittenAs (mark :: Text.ofInt64 n) ∧ Fits token := fun mark hbare hmark =>
    ⟨_, writtenAs_word ((isWord_ofInt64 n).cons hbare hmark), fits_word _⟩
  cases kind with
  | none => exact ⟨_, writtenAs_word (isWord_ofInt64 n), fits_word _⟩
  | integer => exact ⟨_, writtenAs_word (isWord_ofInt64 n), fits_word _⟩
  | register => exact hword _ (by decide) (by decide)
  | label => exact hword _ (by decide) (by decide)
  | literal =>
    refine token_entry fun lit hlit _ => ?_
    obtain ⟨token, hwritten, hread⟩ := literal_written (hb.literals lit hlit)
    refine ⟨token, hwritten, ?_⟩
    rintro s rfl
    cases hread
  | symbol =>
    refine token_entry fun s hmem hs => ?_
    rw [writeSymbol_eq]
    cases hquoted : isQuoted s with
    | true =>
      refine ⟨_, writtenAs_quotedSymbol s, ?_⟩
      rintro _ ⟨⟩
      exact hquoted
    | false =>
      have hwhole := (hsymbol rfl s hmem hs).resolve_left (by simp [hquoted])
      exact ⟨_, writtenAs_word (isWord_symbol hquoted hwhole), fits_word _⟩
  | child =>
    have hwrite : writeOperand names b .child n =
        ((entryAt? b.children n).map fun c => byte '@' :: nameOf names c).getD (byte '?' :: Text.ofInt64 n) := by
      rw [writeOperand]
      cases entryAt? b.children n <;> rfl
    rw [hwrite]
    refine token_entry fun c hc _ => ?_
    exact ⟨_, writtenAs_word ((hchildren c hc).cons (by decide) (by decide)), fits_word _⟩

theorem tokens_written {P : Token → Prop} {words : List Text}
    (h : ∀ t ∈ words, ∃ token : Token, token.WrittenAs t ∧ P token) :
    ∃ ts, tokens (words.flatMap (32 :: ·)) = .ok ts ∧ ∀ token ∈ ts, P token := by
  have : Nonempty Token := ⟨.word []⟩
  choose! token hwritten htoken using h
  have hread : tokens ((words.map fun t => (t, token t)).flatMap fun x => 32 :: x.1) =
      .ok ((words.map fun t => (t, token t)).map (·.2)) := by
    refine tokens_flatMap ?_
    rwa [List.forall_mem_map]
  rw [List.flatMap_map, List.map_map] at hread
  exact ⟨_, hread, List.forall_mem_map.2 htoken⟩

/-- The line of an instruction stands as its tokens. -/
theorem tokens_instLine (hb : b.Assembled) (hchildren : ∀ c ∈ b.children, (nameOf names c).IsWord)
    (hi : i ∈ b.code)
    (hsymbol : ∀ x ∈ i.operands, x.1 = .symbol → ∀ s ∈ b.symbols, entryAt? b.symbols x.2 = some s → IsWhole s) :
    (∀ c ∈ instLine names b i, c ≠ byte '\n') ∧
      ∃ ts, tokens (instLine names b i) = .ok ts ∧ ∀ token ∈ ts, Fits token := by
  obtain ⟨hbare, -, hne, -⟩ := Opcode.mnemonic_spec i.op (hb.ops i hi)
  have hwords : ∀ t ∈ i.op.mnemonic :: i.operands.map fun x => writeOperand names b x.1 x.2,
      ∃ token : Token, token.WrittenAs t ∧ Fits token := by
    refine List.forall_mem_cons.2 ⟨⟨_, writtenAs_word (.of_bare hbare hne), fits_word _⟩, ?_⟩
    simp only [List.forall_mem_map]
    exact fun x hx => token_writeOperand hb hchildren (hsymbol x hx)
  obtain ⟨ts, hts, hfits⟩ := tokens_written hwords
  have hblank : isBlank 32 := by decide
  rw [instLine_eq]
  refine ⟨?_, ts, ?_, hfits⟩
  · have hunbroken : ∀ t ∈ i.op.mnemonic :: i.operands.map fun x => writeOperand names b x.1 x.2,
        ∀ c ∈ 32 :: t, c ≠ byte '\n' := by
      intro t ht
      obtain ⟨token, hwritten, -⟩ := hwords t ht
      exact List.forall_mem_cons.2 ⟨by decide, hwritten.unbroken⟩
    rw [List.forall_mem_cons, List.forall_mem_cons, List.forall_mem_cons, List.forall_mem_flatMap]
    exact ⟨by decide, by decide, by decide, hunbroken⟩
  · rw [tokens_blank hblank, tokens_blank hblank, tokens_blank hblank, hts]

theorem unbroken_headLine {name : Text} (hname : ∀ c ∈ name, c ≠ byte '\n') (b : Block) :
    ∀ c ∈ headLine name b, c ≠ byte '\n' := by
  have hbegin : ∀ c ∈ Text.ofString ".irep ", c ≠ byte '\n' := by decide +kernel
  have hregisters : ∀ c ∈ Text.ofString " nregs=", c ≠ byte '\n' := by decide +kernel
  have hlocals : ∀ c ∈ Text.ofString " nlocals=", c ≠ byte '\n' := by decide +kernel
  simp only [headLine, List.forall_mem_append]
  exact ⟨⟨⟨⟨⟨hbegin, hname⟩, hregisters⟩, (isWord_ofInt64 _).unbroken⟩, hlocals⟩,
    (isWord_ofInt64 _).unbroken⟩

/-- A section has its lines in one piece each when its instructions have. -/
theorem unbroken_sectionLines (hinst : ∀ i ∈ b.code, ∀ c ∈ instLine names b i, c ≠ byte '\n')
    {name : Text} (hname : ∀ c ∈ name, c ≠ byte '\n') :
    ∀ line ∈ sectionLines names name b, ∀ c ∈ line, c ≠ byte '\n' := by
  have hlabel : ∀ pc, ∀ line ∈ labelLine (targets b) pc, ∀ c ∈ line, c ≠ byte '\n' := by
    intro pc line hline
    rw [labelLine] at hline
    split_ifs at hline
    · rw [List.mem_singleton.1 hline]
      exact (Assembly.isWord_label pc).unbroken
    · cases hline
  have hend : ∀ c ∈ Text.ofString ".end", c ≠ byte '\n' := by decide +kernel
  simp only [sectionLines, List.forall_mem_append, List.forall_mem_singleton, List.forall_mem_flatMap]
  refine ⟨⟨⟨unbroken_headLine hname b, fun x hx => ⟨hlabel x.2, ?_⟩⟩, hlabel _⟩, hend⟩
  exact hinst x.1 (Array.mem_toList_iff.1 (List.fst_mem_of_mem_zipIdx hx))

end Listing

/-! ### Sections one after another -/

namespace Assembly

variable {p : Program} {names : List (Nat × Text)} {finished : Array Draft} {xs : List (Nat × Text)}

theorem blank_read (r : Reader) : r.Yields [[]] (· = r) := .single fun _ => ⟨r, rfl, rfl⟩

/-- Sections with different names are read as their blocks, in order. -/
theorem sections_read (hxs : ∀ x ∈ xs, (p.block x.1).Listed names ∧ x.2.IsWord) (hnodup : (xs.map (·.2)).Nodup)
    (hnew : ∀ d ∈ finished, ∀ x ∈ xs, d.name ≠ x.2) : Reader.Yields ⟨finished, none⟩
      (xs.flatMap fun x => sectionLines names x.2 (p.block x.1) ++ [[]]) fun r =>
        ∃ ds : List Draft, r = ⟨finished ++ ds, none⟩ ∧
          List.Forall₂ (fun x d => d.Copies names (p.block x.1) x.2) xs ds := by
  induction xs generalizing finished with
  | nil => exact .nil ⟨[], by simp, .nil⟩
  | cons x xs ih =>
    obtain ⟨⟨hlisted, hname⟩, hxs⟩ := List.forall_mem_cons.1 hxs
    rw [List.map_cons, List.nodup_cons] at hnodup
    have hsection : Reader.Yields ⟨finished, none⟩ (sectionLines names x.2 (p.block x.1) ++ [[]]) fun r =>
        ∃ d, r = ⟨finished.push d, none⟩ ∧ d.Copies names (p.block x.1) x.2 := by
      refine (section_read hlisted hname fun d hd => hnew d hd x List.mem_cons_self).append ?_
      rintro _ ⟨d, rfl, hd⟩
      intro number
      obtain ⟨_, hblank, rfl⟩ := blank_read ⟨finished.push d, none⟩ number
      exact ⟨_, hblank, d, rfl, hd⟩
    rw [List.flatMap_cons]
    refine hsection.append ?_
    rintro _ ⟨d, rfl, hd⟩
    have hrest : ∀ e ∈ finished.push d, ∀ y ∈ xs, e.name ≠ y.2 := by
      intro e he y hy
      rcases Array.mem_push.1 he with he | rfl
      · exact hnew e he y (List.mem_cons_of_mem x hy)
      · rw [hd.name]
        exact fun heq => hnodup.1 (heq ▸ List.mem_map_of_mem hy)
    intro number
    obtain ⟨r', hlines, ds, rfl, hds⟩ := ih hxs hnodup.2 hrest number
    exact ⟨_, hlines, d :: ds, by simp, .cons hd hds⟩

/-- The lines of a listing. -/
theorem splitOn_listing (h : p.visitOrder ≠ []) : p.listing.splitOn (byte '\n') = (Listing.names p).flatMap fun x =>
    (sectionLines (Listing.names p) x.2 (p.block x.1)).flatMap (Text.splitOn (byte '\n')) ++ [[]] := by
  have hne : (Listing.names p).map (fun x => sectionLines (Listing.names p) x.2 (p.block x.1)) ≠ [] := by
    intro hnil
    have hnames := congrArg (List.map (·.1)) (List.map_eq_nil_iff.1 hnil)
    rw [Listing.map_fst_names] at hnames
    exact h hnames
  have hjoin := Text.splitOn_join (byte '\n') hne
  rw [List.map_map, List.flatMap_map] at hjoin
  rw [Program.listing]
  simp only [Listing.writeSection_eq]
  exact hjoin

/-- A listing is read as its blocks, in order. -/
theorem listing_read (h : p.Assembled) (hwhole : p.Whole) :
    Reader.Yields {} (p.listing.splitOn (byte '\n')) fun r => ∃ ds : List Draft, r = ⟨ds.toArray, none⟩ ∧
      List.Forall₂ (fun x d => d.Copies (Listing.names p) (p.block x.1) x.2) (Listing.names p) ds := by
  have hlisted : ∀ x ∈ Listing.names p, (p.block x.1).Listed (Listing.names p) ∧ x.2.IsWord := fun x hx =>
    ⟨h.listed hwhole (h.reached_of_mem_names hx), (h.isName_of_mem_names hx).word⟩
  have hlines : p.listing.splitOn (byte '\n') = (Listing.names p).flatMap fun x =>
      sectionLines (Listing.names p) x.2 (p.block x.1) ++ [[]] := by
    rw [splitOn_listing h.visitOrder_ne_nil]
    refine List.flatMap_congr fun x hx => ?_
    obtain ⟨hb, hname⟩ := hlisted x hx
    have hunbroken := Listing.unbroken_sectionLines (fun i hi =>
      (Listing.tokens_instLine hb.assembled hb.children hi fun _ _ _ s hs _ => hb.whole s hs).1)
      hname.unbroken
    rw [List.flatMap_congr fun line hline => Text.splitOn_of_unbroken (hunbroken line hline)]
    simp
  have hempty : ∀ d ∈ (#[] : Array Draft), ∀ x ∈ Listing.names p, d.name ≠ x.2 := by simp
  rw [hlines]
  intro number
  obtain ⟨r, hread, ds, rfl, hds⟩ := sections_read hlisted (Listing.nodup_names p) hempty number
  exact ⟨_, hread, ds, by simp, hds⟩

end Assembly

/-! ### The program again -/

/-- The blocks of `p` that can be reached stand in `q` in visiting order, under the names that they
are listed with. -/
structure Program.Relisted (p q : Program) : Prop where
  size : q.blocks.size = p.visitOrder.length
  block : ∀ i, p.Reached i → q.block (p.visitOrder.idxOf i) = { p.block i with
    name := nameOf (Listing.names p) i
    children := (p.block i).children.map p.visitOrder.idxOf }

namespace Assembly

variable {p : Program} {ds : List Draft}

/-- The drafts of a listing with the names that they were listed with. -/
theorem map_name_of_copies {names xs : List (Nat × Text)}
    (h : List.Forall₂ (fun x d => d.Copies names (p.block x.1) x.2) xs ds) :
    ds.map (·.name) = xs.map (·.2) := by
  induction h with
  | nil => rfl
  | cons hx _ ih => rw [List.map_cons, List.map_cons, hx.name, ih]

/-- The names stand in visiting order. -/
theorem names_getElem {i : Nat} (hi : i ∈ p.visitOrder) : ∃ hk : p.visitOrder.idxOf i < (Listing.names p).length,
    (Listing.names p)[p.visitOrder.idxOf i] = (i, nameOf (Listing.names p) i) := by
  have hlength : (Listing.names p).length = p.visitOrder.length := by
    rw [← Listing.map_fst_names, List.length_map]
  have hk := List.idxOf_lt_length_of_mem hi
  have hfst : ((Listing.names p)[p.visitOrder.idxOf i]).1 = i := by
    have hat := List.getElem_idxOf hk
    simp only [← Listing.map_fst_names, List.getElem_map] at hat ⊢
    exact hat
  refine ⟨hlength ▸ hk, Prod.ext hfst ?_⟩
  rw [← Listing.nameOf_names (List.getElem_mem _), hfst]

theorem indexOf?_listed {i : Nat} (hi : i ∈ p.visitOrder) (h : ds.map (·.name) = (Listing.names p).map (·.2)) :
    indexOf? ds.toArray (nameOf (Listing.names p) i) = some (p.visitOrder.idxOf i) := by
  obtain ⟨hk, hat⟩ := names_getElem hi
  have hcount : ds.length = (Listing.names p).length := by
    have hlength := congrArg List.length h
    rwa [List.length_map, List.length_map] at hlength
  have hdraft : ∀ j (hj : j < (Listing.names p).length), ds[j].name = ((Listing.names p)[j]).2 := by
    intro j hj
    have hname := List.getElem_of_eq h (i := j) (by simpa using hcount ▸ hj)
    rwa [List.getElem_map, List.getElem_map] at hname
  refine Array.findIdx?_eq_some_iff_getElem.2 ⟨by simpa using hcount ▸ hk, ?_, fun j hj heq => ?_⟩
  · rw [beq_iff_eq, List.getElem_toArray, hdraft _ hk, hat]
  · have hj' := hj.trans hk
    rw [beq_iff_eq, List.getElem_toArray, hdraft j hj'] at heq
    have hsame : ((Listing.names p)[j]).2 = ((Listing.names p)[p.visitOrder.idxOf i]).2 := by rw [heq, hat]
    have hnodup : (Listing.names p).Nodup := (Listing.nodup_names p).of_map
    have hentry := Listing.eq_of_names (List.getElem_mem hj') (List.getElem_mem hk) hsame
    exact hj.ne (hnodup.getElem_inj_iff.1 hentry)

/-- What is read from a listing is the program again. -/
theorem relisted_of_copies (h : p.Assembled)
    (hds : List.Forall₂ (fun x d => d.Copies (Listing.names p) (p.block x.1) x.2) (Listing.names p) ds) :
    ∃ q, link ds.toArray = .ok q ∧ p.Relisted q := by
  have hindex : ∀ i, p.Reached i → indexOf? ds.toArray (nameOf (Listing.names p) i) =
      some (p.visitOrder.idxOf i) := fun i hi =>
    indexOf?_listed (h.mem_visitOrder.2 hi) (map_name_of_copies hds)
  have hcopy : ∀ i, p.Reached i → ∃ hk : p.visitOrder.idxOf i < ds.length,
      ds[p.visitOrder.idxOf i].Copies (Listing.names p) (p.block i) (nameOf (Listing.names p) i) := by
    intro i hi
    obtain ⟨hk, hat⟩ := names_getElem (h.mem_visitOrder.2 hi)
    have hget := hds.get hk (hds.length_eq ▸ hk)
    rw [List.get_eq_getElem, List.get_eq_getElem, hat] at hget
    exact ⟨hds.length_eq ▸ hk, hget⟩
  refine ⟨_, link_eq_ok.2 ⟨fun d hd ref href => ?_, rfl⟩, ?_, fun i hi => ?_⟩
  · obtain ⟨k, hk, rfl⟩ := List.getElem_of_mem (List.mem_toArray.1 hd)
    have hk' : k < (Listing.names p).length := hds.length_eq ▸ hk
    have hget := hds.get hk' hk
    rw [List.get_eq_getElem, List.get_eq_getElem] at hget
    have hi := h.reached_of_mem_names (List.getElem_mem hk')
    have hname := Array.mem_map_of_mem (f := (·.2)) href
    rw [hget.references] at hname
    obtain ⟨c, hc, heq⟩ := Array.mem_map.1 hname
    rw [← heq, hindex c (hi.child (Array.mem_toList_iff.2 hc))]
    rfl
  · have hlength := congrArg List.length (Listing.map_fst_names p)
    rw [List.length_map, hds.length_eq] at hlength
    simpa using hlength
  · obtain ⟨hk, hd⟩ := hcopy i hi
    have hblock : Program.block ⟨ds.toArray.map (·.linked ds.toArray)⟩ (p.visitOrder.idxOf i) =
        ds[p.visitOrder.idxOf i].linked ds.toArray := by
      simp [Program.block, hk]
    have hchildren : ds[p.visitOrder.idxOf i].references.map
        (fun ref => (indexOf? ds.toArray ref.2).getD 0) = (p.block i).children.map p.visitOrder.idxOf := by
      have hnames : ds[p.visitOrder.idxOf i].references.map (fun ref => (indexOf? ds.toArray ref.2).getD 0) =
          (ds[p.visitOrder.idxOf i].references.map (·.2)).map fun t => (indexOf? ds.toArray t).getD 0 :=
        (Array.map_map (f := fun ref : Nat × Text => ref.2) (g := fun t => (indexOf? ds.toArray t).getD 0)).symm
      rw [hnames, hd.references, Array.map_map]
      refine Array.map_congr_left fun c hc => ?_
      rw [Function.comp_apply, hindex c (hi.child (Array.mem_toList_iff.2 hc)), Option.getD_some]
    rw [hblock, Draft.linked, hchildren, hd.name, hd.registers, hd.locals, hd.code, hd.pool, hd.symbols]

end Assembly

namespace Program.Relisted

variable {p q : Program}

theorem moved (h : p.Relisted q) (hp : p.Assembled) : Moved p.visitOrder.idxOf p.Reached p q where
  closed _ hi _ hc := hi.child hc
  inj i j hi hj heq := List.idxOf_inj (hp.mem_visitOrder.2 hi) |>.1 heq
  children i hi := by rw [children, h.block i hi, Array.toList_map, children]

theorem idxOf_root (hp : p.Assembled) : p.visitOrder.idxOf 0 = 0 := by
  obtain ⟨rest, hrest⟩ := visitOrder_eq_cons hp.nonempty
  rw [hrest, List.idxOf_cons_self]

theorem bound (h : p.Relisted q) (hp : p.Assembled) {j : Nat} (hj : p.Reached j) :
    j < p.blocks.size ↔ p.visitOrder.idxOf j < q.blocks.size := by
  refine iff_of_true (hp.lt_size hj) ?_
  rw [h.size]
  exact List.idxOf_lt_length_of_mem (hp.mem_visitOrder.2 hj)

theorem cyclicBlock?_eq (h : p.Relisted q) (hp : p.Assembled) : q.cyclicBlock? = none := by
  rw [(h.moved hp).cyclicBlock?_eq (.root p) (idxOf_root hp) fun j hj => h.bound hp hj, hp.acyclic]
  rfl

theorem defect?_eq (h : p.Relisted q) (hp : p.Assembled) : q.defect? = none := by
  refine defect?_eq_none_iff.2 fun j hj _ => ?_
  obtain ⟨i, hi, rfl⟩ := ((h.moved hp).reached_iff (.root p) (idxOf_root hp)).1 hj
  obtain ⟨hregisters, hknown, hoperands⟩ := hp.passes hi
  rw [h.block i hi]
  refine ⟨hregisters, hknown, fun inst hinst slot kind n hn => ?_⟩
  refine (hoperands inst hinst slot kind n hn).imp_left fun hrefers => ?_
  cases kind
  case child => simpa [Block.Refers] using hrefers
  all_goals exact hrefers

theorem block_of_mem_names (h : p.Relisted q) (hp : p.Assembled) {x : Nat × Text} (hx : x ∈ Listing.names p) :
    q.block (p.visitOrder.idxOf x.1) = { p.block x.1 with
      name := x.2
      children := (p.block x.1).children.map p.visitOrder.idxOf } := by
  rw [h.block x.1 (hp.reached_of_mem_names hx), Listing.nameOf_names hx]

/-- The names of a listing are kept, because each is usable and no two are the same. -/
theorem names_eq (h : p.Relisted q) (hp : p.Assembled) :
    Listing.names q = (Listing.names p).map fun x => (p.visitOrder.idxOf x.1, x.2) := by
  have horder : q.visitOrder = (Listing.names p).map fun x => p.visitOrder.idxOf x.1 := by
    rw [(h.moved hp).visitOrder_eq (.root p) (idxOf_root hp) fun j hj => h.bound hp hj,
      ← Listing.map_fst_names, List.map_map]
    rfl
  have hname : ∀ x ∈ Listing.names p, (q.block (p.visitOrder.idxOf x.1)).name = x.2 := fun x hx => by
    rw [h.block_of_mem_names hp hx]
  rw [Listing.names, horder, Listing.assignNames_own, List.map_map]
  · exact List.map_congr_left fun x hx => congrArg _ (hname x hx)
  · simp only [List.forall_mem_map]
    exact fun x hx => hname x hx ▸ (hp.isName_of_mem_names hx).usable
  · rw [List.map_map]
    exact List.map_congr_left hname ▸ Listing.nodup_names p
  · simp

/-- It is listed the same. -/
theorem listing_eq (h : p.Relisted q) (hp : p.Assembled) : q.listing = p.listing := by
  have hreached : ∀ y ∈ Listing.names p, y.1 ∈ p.visitOrder := fun y hy =>
    Listing.map_fst_names p ▸ List.mem_map_of_mem hy
  have hsection : ∀ x ∈ Listing.names p,
      Listing.writeSection (Listing.names q) x.2 (q.block (p.visitOrder.idxOf x.1)) =
        Listing.writeSection (Listing.names p) x.2 (p.block x.1) := by
    intro x hx
    rw [h.block_of_mem_names hp hx, ← Listing.writeSection_named _ _ (p.block x.1) x.2]
    have hchildren : ((p.block x.1).children.map p.visitOrder.idxOf).map (List.lookup · (Listing.names q)) =
        (p.block x.1).children.map (List.lookup · (Listing.names p)) := by
      rw [h.names_eq hp, Array.map_map]
      refine Array.map_congr_left fun c hc => ?_
      have hinj : ∀ y ∈ Listing.names p, p.visitOrder.idxOf y.1 = p.visitOrder.idxOf c → y.1 = c :=
        fun y hy heq => (List.idxOf_inj (hreached y hy)).1 heq
      exact Listing.lookup_map (f := p.visitOrder.idxOf) hinj
    refine Listing.writeSection_congr ?_ ?_ hchildren x.2
    · rfl
    · rfl
  have hnames : (Listing.names q).map (fun x => Listing.writeSection (Listing.names q) x.2 (q.block x.1)) =
      (Listing.names p).map fun x => Listing.writeSection (Listing.names p) x.2 (p.block x.1) := by
    rw [← List.map_congr_left hsection, h.names_eq hp, List.map_map]
    rfl
  exact congrArg (Text.join [byte '\n']) hnames

end Program.Relisted

/-- A listing in which every symbol stays in one piece assembles again, and lists the same. -/
theorem Program.Assembled.listing_reparsed {p : Program} (h : p.Assembled) (hwhole : p.Whole) :
    ∃ q, Assembly.parse p.listing = .ok q ∧ q.listing = p.listing := by
  obtain ⟨r, hlines, ds, rfl, hds⟩ := Assembly.listing_read h hwhole 1
  obtain ⟨q, hlink, hq⟩ := Assembly.relisted_of_copies h hds
  have hsize : 0 < ds.toArray.size := by
    have hne := h.visitOrder_ne_nil
    rw [← Listing.map_fst_names, ne_eq, List.map_eq_nil_iff, ← List.length_eq_zero_iff, hds.length_eq] at hne
    simpa using Nat.pos_of_ne_zero hne
  refine ⟨q, Assembly.parse_eq_ok.2 ⟨ds.toArray, hlines, hsize, hlink, hq.cyclicBlock?_eq h,
    hq.defect?_eq h⟩, hq.listing_eq h⟩

end ObjectMachine
