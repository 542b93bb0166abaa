import ObjectMachine.Proofs.Relisting

/-! When a listing assembles again. A bare symbol is listed as it is, and a comma or the end of a
line in it cuts its line in pieces. Whatever such a listing is read as, the symbol is lost: all
symbols that are read from a listing are whole. -/

namespace ObjectMachine

open Assembly
open Text (byte)
open Listing (Fits IsName headLine instLine label labelLine nameOf sectionLines)

namespace Assembly

/-! ### Where symbols come from -/

/-- The symbols of a draft are read from tokens of a kind. -/
def Draft.Told (T : Token → Prop) (d : Draft) : Prop := ∀ s ∈ d.symbols, ∃ t, T t ∧ readSymbol t = .ok s

variable {T : Token → Prop} {d d' : Draft} {number slot : Nat} {t : Token} {ts : List Token}

theorem Draft.Told.operand {kind : OperandKind} {n : Int64} (h : d.Told T) (ht : T t)
    (hread : d.Numbers number slot kind t n d') : d'.Told T := by
  cases hread with
  | symbol hname hplace =>
    intro s hs
    rcases Draft.mem_of_place hplace hs with hs | rfl
    · exact h s hs
    · exact ⟨t, ht, hname⟩
  | _ => exact h

theorem Draft.Told.operandsFrom {kinds : List OperandKind} {ns : List Int64} (h : d.Told T) (hts : ∀ t ∈ ts, T t)
    (hread : d.operandsFrom number slot kinds ts = .ok (d', ns)) : d'.Told T := by
  induction kinds generalizing d slot ts ns with
  | nil =>
    cases hread
    exact h
  | cons kind kinds ih =>
    cases ts with
    | nil =>
      cases hread
      exact h
    | cons t ts =>
      obtain ⟨ht, hts⟩ := List.forall_mem_cons.1 hts
      obtain ⟨e, n, ms, hfirst, hrest, rfl⟩ := Draft.operandsFrom_cons_eq_ok hread
      exact ih (h.operand ht hfirst) hts hrest

theorem Draft.Told.readLine {line : List Token} (h : d.Told T) (hline : ∀ t ∈ line, T t)
    (hread : d.readLine number line = .ok d') : d'.Told T := by
  rcases Draft.readLine_eq_ok hread with ⟨-, rfl⟩ | ⟨label, -, hdefine⟩ | ⟨head, args, rfl, -, hinst⟩
  · exact h
  · obtain ⟨-, rfl⟩ := Draft.define_eq_ok hdefine
    exact h
  · obtain ⟨name, op, e, ns, -, -, -, hoperands, rfl⟩ := Draft.instruction_eq_ok hinst
    have htold : e.Told T := h.operandsFrom (List.forall_mem_cons.1 hline).2 hoperands
    exact htold

structure Reader.Told (T : Token → Prop) (r : Reader) : Prop where
  finished : ∀ d ∈ r.finished, d.Told T
  current : ∀ d, r.current = some d → d.Told T

theorem Reader.Told.line {r r' : Reader} {text : Text} (h : r.Told T)
    (htext : ∀ ts, tokens text = .ok ts → ∀ t ∈ ts, T t) (hread : r.line number text = .ok r') :
    r'.Told T := by
  obtain ⟨ts, htokens, hturns⟩ := Reader.line_eq_ok hread
  cases hturns with
  | blank => exact h
  | header _ _ hd =>
    obtain ⟨registers, locals, rfl, -⟩ := readAttributes_eq_ok hd
    refine ⟨h.finished, fun e he => ?_⟩
    cases he
    simp [Draft.Told]
  | finish hd _ =>
    refine ⟨fun e he => ?_, by simp⟩
    rcases Array.mem_push.1 he with he | rfl
    · exact h.finished e he
    · have htold := h.current _ hd
      exact htold
  | content hd _ _ hd' =>
    refine ⟨h.finished, fun e he => ?_⟩
    cases he
    exact (h.current _ hd).readLine (htext _ htokens) hd'

theorem Reader.Told.lines {r r' : Reader} {texts : List (Text × Nat)} (h : r.Told T)
    (htexts : ∀ x ∈ texts, ∀ ts, tokens x.1 = .ok ts → ∀ t ∈ ts, T t) (hread : r.lines texts = .ok r') :
    r'.Told T :=
  Reader.lines_induction h (fun x hx _ _ h => h.line (htexts x hx)) hread

/-- A symbol that was read bare or in fitting quotes stays whole. -/
theorem isWhole_of_readSymbol {s : Text} (hword : ∀ w, t = .word w → w.IsWord) (hfits : Fits t)
    (hread : readSymbol t = .ok s) : IsWhole s := by
  cases t with
  | symbol name =>
    cases hread
    exact .inl (hfits _ rfl)
  | string name => cases hread
  | word w =>
    have hw := hword w rfl
    rw [readSymbol.eq_def] at hread
    dsimp only at hread
    cases hmark : afterMark? ':' (.word w) with
    | none =>
      rw [hmark] at hread
      cases hread
    | some name =>
      rw [hmark] at hread
      cases hread
      rcases w with _ | ⟨b, _ | ⟨c, w⟩⟩
      · cases hmark
      · cases hmark
      · obtain ⟨-, hname⟩ := Option.ite_none_right_eq_some.1 hmark
        obtain rfl := Option.some.inj hname
        refine .inr (Bool.eq_false_iff.2 fun hany => ?_)
        obtain ⟨x, hx, hmem⟩ := List.any_eq_true.1 hany
        have hbytes : ∀ x ∈ Text.ofString ",\r\n", endsWord x ∨ x = byte '\n' := by decide +kernel
        rcases hbytes x (by simpa using hmem) with hends | hline
        · rw [hw.whole x (List.mem_cons_of_mem b hx)] at hends
          cases hends
        · exact hw.unbroken x (List.mem_cons_of_mem b hx) hline

/-- A text without quotes has words only. -/
theorem tokens_unquoted {text : Text} (h : ∀ b ∈ text, b ≠ byte '"') (hread : tokens text = .ok ts) :
    ∀ t ∈ ts, ∃ w, t = .word w := by
  have hsteps : ∀ steps (text : Text) ts, (∀ b ∈ text, b ≠ byte '"') → splitWords steps text = .ok ts →
      ∀ t ∈ ts, ∃ w, t = .word w := by
    intro steps
    induction steps with
    | zero =>
      intro text ts _ hread
      cases hread
      simp
    | succ steps ih =>
      intro text ts h hread
      rcases text with _ | ⟨b, rest⟩
      · cases hread
        simp
      obtain ⟨hb, hrest⟩ := List.forall_mem_cons.1 h
      rw [splitWords] at hread
      split_ifs at hread with hblank hcomment hquote hsymbol
      · exact ih rest ts hrest hread
      · cases hread
        simp
      · exact absurd (eq_of_beq hquote) hb
      · rw [Bool.and_eq_true, beq_iff_eq, beq_iff_eq] at hsymbol
        exact absurd rfl (hrest _ (List.mem_of_head? hsymbol.2))
      · obtain ⟨more, hmore, rfl⟩ := bind_pure_eq_ok.1 hread
        refine List.forall_mem_cons.2 ⟨⟨_, rfl⟩, ih _ more (fun c hc => ?_) hmore⟩
        exact hrest c ((List.dropWhile_suffix _).subset hc)
  exact hsteps _ text ts h hread

end Assembly

/-! ### Lines with a bare symbol -/

namespace Listing

variable {names : List (Nat × Text)} {b : Block} {i : Inst} {s : Text}

theorem operands_of_symbol (h : .symbol ∈ i.op.operands) : ∃ more,
    i.operands = (.register, i.a) :: (.symbol, i.b) :: more ∧ (more = [] ∨ more = [(.integer, i.c)]) := by
  obtain ⟨op, x, y, z⟩ := i
  cases op <;> simp_all [Inst.operands, Opcode.operands]

/-- What such a line has before the symbol. -/
def before (i : Inst) : Text := 32 :: 32 :: 32 :: 32 :: i.op.mnemonic ++ 32 :: byte 'r' :: Text.ofInt64 i.a

variable (names) in
/-- The line of an instruction with a symbol that is listed bare. -/
theorem instLine_symbol (h : .symbol ∈ i.op.operands) (hs : entryAt? b.symbols i.b = some s)
    (hquoted : isQuoted s = false) : ∃ after, (after = [] ∨ after = 32 :: Text.ofInt64 i.c) ∧
      instLine names b i = before i ++ 32 :: byte ':' :: s ++ after := by
  obtain ⟨more, hoperands, hmore⟩ := operands_of_symbol h
  have hsymbol : writeOperand names b .symbol i.b = byte ':' :: s := by
    rw [writeOperand, hs, Option.map_some, Option.getD_some, writeSymbol_eq, hquoted]
    rfl
  have hregister : writeOperand names b .register i.a = byte 'r' :: Text.ofInt64 i.a := rfl
  rw [instLine_eq, hoperands]
  refine ⟨(more.map fun x => writeOperand names b x.1 x.2).flatMap (32 :: ·), ?_, ?_⟩
  · rcases hmore with rfl | rfl
    · exact .inl rfl
    · exact .inr (List.append_nil _)
  · simp [hsymbol, hregister, before]

theorem not_mem_of_bare (hquoted : isQuoted s = false) : 32 ∉ s ∧ byte '"' ∉ s := by
  obtain ⟨-, hmarks⟩ := Bool.or_eq_false_iff.1 hquoted
  exact ⟨fun h => not_mem_of_containsAny hmarks h (by decide),
    fun h => not_mem_of_containsAny hmarks h (by decide)⟩

theorem not_mem_ofInt64 {c : UInt8} (hc : Text.isDigit c = false) (hminus : c ≠ byte '-') (n : Int64) :
    c ∉ Text.ofInt64 n := by
  intro hmem
  rcases mem_ofInt64 n c hmem with hdigit | rfl
  · rw [hc] at hdigit
    cases hdigit
  · exact hminus rfl

theorem not_mem_mnemonic {c : UInt8} (hc : Text.isBare c = false) (hop : i.op ∈ Opcode.all) :
    c ∉ i.op.mnemonic := by
  intro hmem
  have hbare := (Opcode.mnemonic_spec i.op hop).1 c hmem
  rw [hc] at hbare
  cases hbare

theorem unquoted_symbol {after : Text} (hop : i.op ∈ Opcode.all) (hquoted : isQuoted s = false)
    (hafter : after = [] ∨ after = 32 :: Text.ofInt64 i.c) :
    ∀ c ∈ before i ++ 32 :: byte ':' :: s ++ after, c ≠ byte '"' := by
  have hnumber : ∀ n, byte '"' ∉ Text.ofInt64 n := not_mem_ofInt64 (by decide) (by decide)
  have hmnemonic : byte '"' ∉ i.op.mnemonic := not_mem_mnemonic (by decide) hop
  have hsymbol := (not_mem_of_bare hquoted).2
  have hend : byte '"' ∉ after := by
    rcases hafter with rfl | rfl
    · exact List.not_mem_nil
    · exact List.not_mem_cons_of_ne_of_not_mem (by decide) (hnumber _)
  rintro c hc rfl
  simp only [before, List.cons_append, List.mem_append, List.mem_cons, hmnemonic, hnumber, hsymbol, hend] at hc
  revert hc
  decide

end Listing

/-! ### Pieces -/

theorem Text.sublist_of_mem_splitOn {sep : UInt8} {t part : Text} (h : part ∈ splitOn sep t) : part.Sublist t := by
  induction t generalizing part with
  | nil =>
    rw [splitOn, List.mem_singleton] at h
    exact h ▸ List.Sublist.refl []
  | cons b t ih =>
    rw [splitOn] at h
    split_ifs at h
    · rcases List.mem_cons.1 h with rfl | h
      · exact List.nil_sublist _
      · exact (ih h).cons b
    · cases hparts : splitOn sep t with
      | nil => exact absurd hparts (splitOn_ne_nil sep t)
      | cons first parts =>
        rw [hparts] at h ih
        rcases List.mem_cons.1 h with rfl | h
        · exact (ih List.mem_cons_self).cons_cons b
        · exact (ih (List.mem_cons_of_mem first h)).cons b

namespace Listing

variable {names : List (Nat × Text)} {b : Block} {i : Inst} {s : Text} {ts : List Token}

/-- Whatever the pieces of an instruction's line are read as, its symbols are in fitting quotes. -/
theorem fits_of_piece (hb : b.Assembled) (hchildren : ∀ c ∈ b.children, (nameOf names c).IsWord)
    (hi : i ∈ b.code) {piece : Text} (hpiece : piece ∈ Text.splitOn (byte '\n') (instLine names b i))
    (htokens : tokens piece = .ok ts) : ∀ t ∈ ts, Fits t := by
  by_cases hwhole : ∀ x ∈ i.operands, x.1 = .symbol →
      ∀ s ∈ b.symbols, entryAt? b.symbols x.2 = some s → IsWhole s
  · obtain ⟨hunbroken, ts', hread, hfits⟩ := tokens_instLine hb hchildren hi hwhole
    rw [Text.splitOn_of_unbroken hunbroken, List.mem_singleton] at hpiece
    rw [hpiece, hread] at htokens
    cases htokens
    exact hfits
  · push Not at hwhole
    obtain ⟨⟨kind, n⟩, hx, rfl, s, -, hs, hcut⟩ := hwhole
    have hop : .symbol ∈ i.op.operands := (List.of_mem_zip hx).1
    have hn : n = i.b := by
      obtain ⟨more, hoperands, rfl | rfl⟩ := operands_of_symbol hop
      · simpa [hoperands] using hx
      · simpa [hoperands] using hx
    have hquoted : isQuoted s = false := Bool.eq_false_iff.2 fun hq => hcut (.inl hq)
    obtain ⟨after, hafter, hline⟩ := instLine_symbol names hop (hn ▸ hs) hquoted
    rw [hline] at hpiece
    have hunquoted := unquoted_symbol (hb.ops i hi) hquoted hafter
    intro t ht
    obtain ⟨w, rfl⟩ := tokens_unquoted
      (fun c hc => hunquoted c ((Text.sublist_of_mem_splitOn hpiece).subset hc)) htokens t ht
    exact fits_word w

/-- Whatever the pieces of a section's lines are read as, its symbols are in fitting quotes. -/
theorem fits_of_section (hb : b.Assembled) (hchildren : ∀ c ∈ b.children, (nameOf names c).IsWord) {name : Text}
    (hname : name.IsWord) {piece : Text}
    (hpiece : piece ∈ (sectionLines names name b).flatMap (Text.splitOn (byte '\n')))
    (htokens : tokens piece = .ok ts) : ∀ t ∈ ts, Fits t := by
  have hwords : ∀ line, (∀ c ∈ line, c ≠ byte '\n') → ∀ ws : List Text, tokens line = .ok (ws.map .word) →
      piece ∈ Text.splitOn (byte '\n') line → ∀ t ∈ ts, Fits t := by
    intro line hunbroken ws hread hpiece
    rw [Text.splitOn_of_unbroken hunbroken, List.mem_singleton] at hpiece
    rw [hpiece, hread] at htokens
    cases htokens
    exact List.forall_mem_map.2 fun w _ => fits_word w
  have hlabel : ∀ pc, ∀ line ∈ labelLine (targets b) pc, piece ∈ Text.splitOn (byte '\n') line →
      ∀ t ∈ ts, Fits t := by
    intro pc line hline
    rw [labelLine] at hline
    split_ifs at hline
    · rw [List.mem_singleton.1 hline]
      exact hwords _ (isWord_label pc).unbroken [_] (tokens_word (isWord_label pc))
    · cases hline
  obtain ⟨line, hline, hpiece⟩ := List.mem_flatMap.1 hpiece
  simp only [sectionLines, List.mem_append, List.mem_singleton, List.mem_flatMap] at hline
  rcases hline with ((rfl | ⟨x, hx, hline | rfl⟩) | hline) | rfl
  · exact hwords _ (unbroken_headLine hname.unbroken b) [_, _, _, _] (tokens_headLine hname b) hpiece
  · exact hlabel _ line hline hpiece
  · exact fits_of_piece hb hchildren (Array.mem_toList_iff.1 (List.fst_mem_of_mem_zipIdx hx)) hpiece htokens
  · exact hlabel _ line hline hpiece
  · exact hwords _ (by decide +kernel) [_] tokens_end hpiece

end Listing

/-- What a listing is read as has whole symbols only. -/
theorem Program.Assembled.whole_of_parse {p q : Program} (h : p.Assembled) (hq : parse p.listing = .ok q) :
    ∀ b ∈ q.blocks, ∀ s ∈ b.symbols, IsWhole s := by
  obtain ⟨drafts, hlines, -, hlink, -⟩ := parse_eq_ok.1 hq
  obtain ⟨-, rfl⟩ := link_eq_ok.1 hlink
  have htold : Reader.Told (fun t => (∀ w, t = .word w → w.IsWord) ∧ Fits t) ⟨drafts, none⟩ := by
    refine Reader.Told.lines ⟨by simp, by simp⟩ (fun x hx ts htokens t ht => ⟨?_, ?_⟩) hlines
    · rintro w rfl
      have hunbroken := not_mem_of_mem_splitOn (List.fst_mem_of_mem_zipIdx hx)
      exact isWord_of_mem_splitWords hunbroken htokens ht
    · have hmem := List.fst_mem_of_mem_zipIdx hx
      rw [splitOn_listing h.visitOrder_ne_nil] at hmem
      obtain ⟨y, hy, hmem⟩ := List.mem_flatMap.1 hmem
      have hi := h.reached_of_mem_names hy
      rcases List.mem_append.1 hmem with hmem | hmem
      · exact Listing.fits_of_section (h.block hi) (h.isWord_nameOf hi) (h.isName_of_mem_names hy).word hmem
          htokens t ht
      · rw [List.mem_singleton.1 hmem] at htokens
        cases htokens
        cases ht
  intro b hb s hs
  obtain ⟨d, hd, rfl⟩ := Array.mem_map.1 hb
  obtain ⟨t, ⟨hword, hfits⟩, hread⟩ := htold.finished d hd s hs
  exact isWhole_of_readSymbol hword hfits hread

/-- The listing of an assembled program whose symbols are whole assembles again, and the result has the
same listing. Whatever else a listing assembles to, its symbols are whole. -/
theorem listing_reassembles {source : Text} {p : Program} (h : parse source = .ok p) :
    (p.Whole → ∃ q, parse p.listing = .ok q ∧ q.listing = p.listing) ∧
      ∀ q, parse p.listing = .ok q → ∀ b ∈ q.blocks, ∀ s ∈ b.symbols, IsWhole s := by
  have hp := parse_assembled h
  exact ⟨hp.listing_reparsed, fun _ hq => hp.whole_of_parse hq⟩

def symbolSource (symbol : String) : Text :=
  ".irep main nregs=2\n    LOADSYM r1 " ++ Text.ofString symbol ++ "\n    RETURN r1\n.end\n"

def symbolDraft (s : Text) : Draft :=
  { name := "main", line := 1, registers := 2, symbols := #[s],
    code := #[{ op := .loadSymbol, a := 1 }, { op := .leave, a := 1 }] }

def symbolBlock (s : Text) : Block :=
  { name := "main", registers := 2, symbols := #[s],
    code := #[{ op := .loadSymbol, a := 1 }, { op := .leave, a := 1 }] }

theorem parse_symbolSource {symbol : String} {s : Text}
    (h : Reader.lines {} (((symbolSource symbol).splitOn (byte '\n')).zipIdx 1) =
      .ok ⟨#[symbolDraft s], none⟩) :
    parse (symbolSource symbol) = .ok (.single (symbolBlock s)) :=
  parse_single h rfl rfl

/-- A symbol that must be quoted, with a comma in it. -/
theorem listing_reassembles_quoted :
    parse (symbolSource ":\"a, b\"") = .ok (.single (symbolBlock "a, b")) ∧
    ∃ q, parse (Program.single (symbolBlock "a, b")).listing = .ok q ∧
      q.listing = (Program.single (symbolBlock "a, b")).listing := by
  have hparse : parse (symbolSource ":\"a, b\"") = .ok (.single (symbolBlock "a, b")) :=
    parse_symbolSource (by decide +kernel)
  refine ⟨hparse, (listing_reassembles hparse).1 fun i hi s hs => ?_⟩
  obtain rfl := Program.reached_single rfl hi
  obtain rfl : s = "a, b" := by simpa [symbolBlock] using hs
  exact .inl (by decide)

/-- A symbol with a comma and without blanks is listed bare, and its listing is refused. -/
theorem listing_refused_comma :
    parse (symbolSource ":\"a,b\"") = .ok (.single (symbolBlock "a,b")) ∧
    ∀ q, parse (Program.single (symbolBlock "a,b")).listing ≠ .ok q := by
  have hlisting : (Program.single (symbolBlock "a,b")).listing =
      ".irep main nregs=2 nlocals=0\n    LOADSYM r1 :a,b\n    RETURN r1\n.end\n" := by
    rw [Program.listing, Listing.names, Program.visitOrder_single rfl]
    decide
  refine ⟨parse_symbolSource (by decide +kernel), fun q hq => ?_⟩
  rw [hlisting] at hq
  obtain ⟨drafts, hlines, -⟩ := parse_eq_ok.1 hq
  have hfails : (Reader.lines {} ((Text.splitOn (byte '\n')
      ".irep main nregs=2 nlocals=0\n    LOADSYM r1 :a,b\n    RETURN r1\n.end\n").zipIdx 1)).toOption = none := by
    decide +kernel
  rw [hlines] at hfails
  cases hfails

end ObjectMachine
