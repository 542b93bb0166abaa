import ObjectMachine.Proofs.Cycles
import ObjectMachine.Proofs.Relisting

/-! The sections of a listing and their names, for blocks with any names at all. A walk that meets
shared blocks again and again gives each a name when it first meets it. A name that cannot be used
or is taken gives way to the first made name that is free; the search for it ends, as made names
are distinct and only finitely many are taken. -/

namespace ObjectMachine.Listing

open Text (byte)

variable {p : Program} {taken taken' : List Text} {own name : Text} {i n n' : Nat} {order : List Nat}
  {names r r' : List (Nat × Text)}

theorem isUsable_iff : isUsable name ↔
    name ≠ [] ∧ byte ' ' ∉ name ∧ byte '\t' ∉ name ∧ byte '@' ∉ name := by
  have hmarks : Text.ofString " \t@" = [byte ' ', byte '\t', byte '@'] := by decide
  have hany : name.containsAny " \t@" = false ↔ ∀ b ∈ name, b ∉ Text.ofString " \t@" := by
    simp [Text.containsAny]
  rw [isUsable, Bool.and_eq_true, Bool.not_eq_true', Bool.not_eq_true', hany, hmarks]
  refine and_congr (by simp) ⟨fun h => ⟨?_, ?_, ?_⟩, fun h b hb hmem => ?_⟩
  · exact fun hb => h _ hb (by simp)
  · exact fun hb => h _ hb (by simp)
  · exact fun hb => h _ hb (by simp)
  · rcases (by simpa using hmem : b = byte ' ' ∨ b = byte '\t' ∨ b = byte '@') with rfl | rfl | rfl
    · exact h.1 hb
    · exact h.2.1 hb
    · exact h.2.2 hb

/-! ### The search for a name -/

/-- A name that can be used and is free is given; otherwise the made name with number `n` is tried
next. -/
inductive Search (taken : List Text) : Text → Nat → Text → Nat → Prop
  | found {name : Text} {n : Nat} (h : isUsable name ∧ name ∉ taken) : Search taken name n name n
  | next {name given : Text} {n n' : Nat} (h : ¬(isUsable name ∧ name ∉ taken))
      (hnext : Search taken (madeName n) (n + 1) given n') : Search taken name n given n'

theorem Search.functional {given given' : Text} {n'' : Nat} (h : Search taken own n given n')
    (h' : Search taken own n given' n'') : given = given' ∧ n' = n'' := by
  induction h with
  | found h =>
    cases h' with
    | found _ => exact ⟨rfl, rfl⟩
    | next hnot _ => exact absurd h hnot
  | next hnot _ ih =>
    cases h' with
    | found h => exact absurd h hnot
    | next _ hnext => exact ih hnext

theorem Search.congr {given : Text} (h : Search taken own n given n')
    (hmem : ∀ t, t ∈ taken ↔ t ∈ taken') : Search taken' own n given n' := by
  induction h with
  | found h => exact .found (by rwa [← hmem])
  | next hnot _ ih => exact .next (by rwa [← hmem]) ih

/-- The tries end at the name that the search ends at, when that one is free. -/
theorem search_freeName (tries n : Nat) (hfree : (freeName taken tries n).1 ∉ taken) :
    Search taken (madeName n) (n + 1) (freeName taken tries n).1 (freeName taken tries n).2 := by
  induction tries generalizing n with
  | zero => exact .found ⟨(isName_madeName n).usable, hfree⟩
  | succ tries ih =>
    rw [freeName] at hfree ⊢
    split_ifs at hfree ⊢ with hn
    · exact .next (fun h => h.2 hn) (ih (n + 1) hfree)
    · exact .found ⟨(isName_madeName n).usable, hn⟩

/-! ### Names along a walk -/

/-- A walk goes over blocks with the names given so far. A block that has one is passed over. -/
inductive Naming (p : Program) :
    List (Nat × Text) → Nat → List Nat → List (Nat × Text) → Prop
  | nil {names : List (Nat × Text)} {n : Nat} : Naming p names n [] names
  | again {names r : List (Nat × Text)} {n i : Nat} {rest : List Nat} (hi : i ∈ names.map (·.1))
      (hrest : Naming p names n rest r) : Naming p names n (i :: rest) r
  | give {names r : List (Nat × Text)} {n n' i : Nat} {rest : List Nat} {name : Text}
      (hi : i ∉ names.map (·.1))
      (hsearch : Search (names.map (·.2)) (p.block i).name n name n')
      (hrest : Naming p (names ++ [(i, name)]) n' rest r) : Naming p names n (i :: rest) r

theorem Naming.functional (h : Naming p names n order r) (h' : Naming p names n order r') : r = r' := by
  induction h with
  | nil =>
    cases h'
    rfl
  | again hi _ ih =>
    cases h' with
    | again _ hrest => exact ih hrest
    | give hnot _ _ => exact absurd hi hnot
  | give hnot hsearch _ ih =>
    cases h' with
    | again hi _ => exact absurd hi hnot
    | give _ hsearch' hrest =>
      obtain ⟨rfl, rfl⟩ := hsearch.functional hsearch'
      exact ih hrest

/-- One block gets the name that the search gives, and the rest goes on from there. -/
theorem assignNames_cons (p : Program) (taken : List Text) (n i : Nat) (rest : List Nat) :
    ∃ name n', Search taken (p.block i).name n name n' ∧
      assignNames p taken n (i :: rest) = (i, name) :: assignNames p (name :: taken) n' rest := by
  rw [assignNames]
  dsimp only
  split_ifs with hown
  · exact ⟨_, n, .found (by simpa using hown), rfl⟩
  · exact ⟨_, _, .next (by simpa using hown) (search_freeName _ n (freeName_not_mem taken n)), rfl⟩

/-- Names are given to first visits only, so the other ones may be left out. -/
theorem naming_assignNames (hmem : ∀ t, t ∈ taken ↔ t ∈ names.map (·.2)) :
    Naming p names n order
      (names ++ assignNames p taken n (order.filter (· ∉ names.map (·.1))).eraseDups) := by
  induction order generalizing names taken n with
  | nil => simpa [assignNames] using Naming.nil
  | cons i rest ih =>
    by_cases hi : i ∈ names.map (·.1)
    · rw [List.filter_cons_of_neg (by simpa using hi)]
      exact .again hi (ih hmem)
    · rw [List.filter_cons_of_pos (by simpa using hi), List.eraseDups_cons, List.filter_filter]
      obtain ⟨name, n', hsearch, heq⟩ := assignNames_cons p taken n i
        ((rest.filter fun a => !(a == i) && decide (a ∉ names.map (·.1))).eraseDups)
      have hgiven : ∀ t, t ∈ name :: taken ↔ t ∈ (names ++ [(i, name)]).map (·.2) := fun t => by
        simp [← hmem, or_comm]
      have hrest := @ih (name :: taken) n' _ hgiven
      have hfresh : rest.filter (· ∉ (names ++ [(i, name)]).map (·.1)) =
          rest.filter fun a => !(a == i) && decide (a ∉ names.map (·.1)) := by
        refine List.filter_congr fun a _ => Bool.eq_iff_iff.2 ?_
        simp
        tauto
      rw [hfresh, List.append_assoc, List.singleton_append] at hrest
      rw [heq]
      exact .give hi (hsearch.congr hmem) hrest

/-- A search gives the name it starts with or a made one. -/
theorem Search.own_or_made {given : Text} (h : Search taken own n given n') :
    (isUsable own ∧ own ∉ taken → given = own) ∧
      (¬(isUsable own ∧ own ∉ taken) → ∃ k, given = madeName k) := by
  induction h with
  | found h => exact ⟨fun _ => rfl, fun hnot => absurd h hnot⟩
  | @next _ _ n _ hnot _ ih =>
    refine ⟨fun h => absurd h hnot, fun _ => ?_⟩
    by_cases hmade : isUsable (madeName n) ∧ madeName n ∉ taken
    · exact ⟨n, ih.1 hmade⟩
    · exact ih.2 hmade

/-- A block keeps the name it has, when that can be used and was not given before, and gets a made
one otherwise. -/
theorem assignNames_split {before after : List (Nat × Text)} {x : Nat × Text}
    (h : assignNames p taken n order = before ++ x :: after) :
    (isUsable (p.block x.1).name ∧ (p.block x.1).name ∉ taken ++ before.map (·.2) →
        x.2 = (p.block x.1).name) ∧
      (¬(isUsable (p.block x.1).name ∧ (p.block x.1).name ∉ taken ++ before.map (·.2)) →
        ∃ k, x.2 = madeName k) := by
  induction order generalizing before taken n with
  | nil => simp [assignNames] at h
  | cons i rest ih =>
    obtain ⟨name, n', hsearch, heq⟩ := assignNames_cons p taken n i rest
    rw [heq] at h
    cases before with
    | nil =>
      obtain ⟨rfl, -⟩ := List.cons.inj h
      rw [List.map_nil, List.append_nil]
      exact hsearch.own_or_made
    | cons y before =>
      obtain ⟨rfl, hrest⟩ := List.cons.inj h
      have hmem : (p.block x.1).name ∉ (name :: taken) ++ before.map (·.2) ↔
          (p.block x.1).name ∉ taken ++ ((i, name) :: before).map (·.2) := by
        simp only [List.map_cons, List.mem_append, List.mem_cons]
        tauto
      rw [← hmem]
      exact ih hrest

theorem mem_names_cases {x : Nat × Text} (hx : x ∈ Listing.names p) :
    (isUsable (p.block x.1).name ∧ x.2 = (p.block x.1).name) ∨ ∃ k, x.2 = madeName k := by
  obtain ⟨before, after, hsplit⟩ := List.append_of_mem hx
  obtain ⟨hown, hmade⟩ := assignNames_split hsplit
  by_cases h : isUsable (p.block x.1).name ∧ (p.block x.1).name ∉ [] ++ before.map (·.2)
  · exact .inl ⟨h.1, hown h⟩
  · exact .inr (hmade h)

theorem isUsable_of_mem_names {x : Nat × Text} (hx : x ∈ Listing.names p) : isUsable x.2 := by
  rcases mem_names_cases hx with ⟨husable, heq⟩ | ⟨k, heq⟩
  · exact heq ▸ husable
  · exact heq ▸ (isName_madeName k).usable

/-- Made names stay on a line, so a name does when the own one of its block does. -/
theorem unbroken_name {x : Nat × Text} (hx : x ∈ Listing.names p)
    (h : ∀ c ∈ (p.block x.1).name, c ≠ byte '\n') : ∀ c ∈ x.2, c ≠ byte '\n' := by
  rcases mem_names_cases hx with ⟨-, heq⟩ | ⟨k, heq⟩
  · exact heq ▸ h
  · exact heq ▸ (isName_madeName k).word.unbroken

/-- The names of a listing are those that the walk gives, in just one way. -/
theorem naming_iff (hg : p.Graph) (hwalk : p.Walk [0] order) :
    Naming p [] 0 order r ↔ r = Listing.names p := by
  have hnames : Naming p [] 0 order (Listing.names p) := by
    have hnone : ∀ t : Text, t ∈ [] ↔ t ∈ ([] : List (Nat × Text)).map (·.2) := by simp
    have h : Naming p [] 0 order _ := naming_assignNames hnone
    simpa [Listing.names, hwalk.visitOrder_eq hg] using h
  exact ⟨fun h => h.functional hnames, fun h => h ▸ hnames⟩

/-! ### Headings -/

variable {b : Block} {kind : OperandKind} {line t lead rest : Text} {k : Int64}

/-- The name on a line that opens a section, the word after `.irep`. -/
def heading? (line : Text) : Option Text :=
  if (Text.ofString ".irep ").isPrefixOf line then some ((line.drop 6).takeWhile (· != byte ' ')) else none

/-- The names on the lines of a text that open a section. -/
def headings (t : Text) : List Text := (t.splitOn (byte '\n')).filterMap heading?

/-- Whether a text has several lines and the last of them reads `.irep`. What is written behind such
a text on the same line becomes the name of a section. -/
def reopens (t : Text) : Bool := (t.splitOn (byte '\n')).tail.getLast? == some (Text.ofString ".irep")

/-- The name of the section that the line of an instruction opens. It does when the instruction has a
symbol that reopens and another operand after it. -/
def instHeading? (b : Block) (i : Inst) : Option Text :=
  if i.op.operands = [.register, .symbol, .integer] ∧
      (entryAt? b.symbols i.b).any fun s => reopens (writeSymbol s) then
    some (Text.ofInt64 i.c)
  else none

/-- The names on the lines of a section that open one: the first line of its name, the attribute after
a name that reopens, and those on the lines of its instructions. -/
def sectionHeadings (name : Text) (b : Block) : List Text :=
  name.takeWhile (· != byte '\n')
    :: (if reopens name then [Assembly.attributeText "nregs" b.registers] else [])
    ++ b.code.toList.filterMap (instHeading? b)

theorem unbroken_iff : (∀ c ∈ t, c ≠ byte '\n') ↔ byte '\n' ∉ t :=
  ⟨fun h hmem => h _ hmem rfl, fun h _ hc heq => h (heq ▸ hc)⟩

theorem takeWhile_of_not_mem {sep : UInt8} (h : sep ∉ t) : t.takeWhile (· != sep) = t :=
  List.takeWhile_eq_self_iff.2 fun c hc => by simpa using fun heq : c = sep => h (heq ▸ hc)

theorem takeWhile_break {sep : UInt8} (h : sep ∉ line) (t : Text) :
    (line ++ sep :: t).takeWhile (· != sep) = line := by
  rw [List.takeWhile_append_of_pos fun c hc => by simpa using fun heq : c = sep => h (heq ▸ hc)]
  simp

theorem irep_eq : Text.ofString ".irep " = [46, 105, 114, 101, 112, 32] := by decide

theorem heading?_opening (t : Text) :
    heading? (Text.ofString ".irep " ++ t) = some (t.takeWhile (· != byte ' ')) := by
  rw [heading?, if_pos (List.isPrefixOf_iff_prefix.2 (List.prefix_append _ t)), irep_eq]
  rfl

/-- No other line of a section opens one. -/
theorem heading?_eq_none (h : line.head? ≠ some 46 ∨ byte ' ' ∉ line) : heading? line = none := by
  rw [heading?, if_neg]
  intro hpre
  obtain ⟨rest, rfl⟩ := List.isPrefixOf_iff_prefix.1 hpre
  rw [irep_eq] at h
  rcases h with h | h
  · exact h rfl
  · exact h (by simp [byte])

theorem headings_of_unbroken (h : byte '\n' ∉ t) : headings t = (heading? t).toList := by
  rw [headings, Text.splitOn_of_unbroken (unbroken_iff.2 h)]
  cases hname : heading? t <;> simp [hname]

theorem headings_append (s t : Text) : headings (s ++ byte '\n' :: t) = headings s ++ headings t := by
  rw [headings, Text.splitOn_append, List.filterMap_append]
  rfl

theorem not_reopens_of_unbroken (h : byte '\n' ∉ t) : reopens t = false := by
  rw [reopens, Text.splitOn_of_unbroken (unbroken_iff.2 h)]
  rfl

theorem reopens_append (s : Text) (h : byte '\n' ∉ t) :
    reopens (s ++ byte '\n' :: t) = (t == Text.ofString ".irep") := by
  obtain ⟨part, parts, hparts⟩ := List.exists_cons_of_ne_nil (Text.splitOn_ne_nil (byte '\n') s)
  rw [reopens, Text.splitOn_append, Text.splitOn_of_unbroken (unbroken_iff.2 h), hparts, List.cons_append, List.tail_cons,
    List.getLast?_concat]
  rfl

/-- A text with a line break is cut at the last one. -/
theorem exists_last_line (h : byte '\n' ∈ t) :
    ∃ s line, t = s ++ byte '\n' :: line ∧ byte '\n' ∉ line := by
  obtain ⟨line, s, hreverse, hline⟩ := List.eq_append_cons_of_mem (List.mem_reverse.2 h)
  refine ⟨s.reverse, line.reverse, ?_, fun hmem => hline (List.mem_reverse.1 hmem)⟩
  rw [← List.reverse_reverse t, hreverse]
  simp

/-- Lines without blanks open nothing. -/
theorem headings_eq_nil (h : byte ' ' ∉ t) : headings t = [] := by
  refine List.filterMap_eq_nil_iff.2 fun line hline => heading?_eq_none (.inr fun hmem => h ?_)
  exact Text.mem_of_mem_splitOn hline hmem

/-- Of the lines of a text without blanks that follows `lead` only the first can open a section. -/
theorem headings_lead (hlead : byte '\n' ∉ lead) (ht : byte ' ' ∉ t) :
    headings (lead ++ t) = (heading? (lead ++ t.takeWhile (· != byte '\n'))).toList := by
  by_cases hbreak : byte '\n' ∈ t
  · obtain ⟨line, s, rfl, hline⟩ := List.eq_append_cons_of_mem hbreak
    have hs : byte ' ' ∉ s := fun hmem => ht (by simp [hmem])
    rw [← List.append_assoc, headings_append, headings_of_unbroken (by simp [hlead, hline]),
      headings_eq_nil hs, takeWhile_break hline, List.append_nil]
  · rw [headings_of_unbroken (by simp [hlead, hbreak]), takeWhile_of_not_mem hbreak]

/-- A line without blanks, with more behind it that begins with one, opens a section when it is the word that does. -/
theorem heading?_line (hline : byte ' ' ∉ line) (hblank : rest = [] ∨ rest.head? = some (byte ' ')) :
    heading? (line ++ rest) =
      if line = Text.ofString ".irep" then heading? (Text.ofString ".irep" ++ rest) else none := by
  split_ifs with hword
  · rw [hword]
  · cases rest with
    | nil => rw [List.append_nil, heading?_eq_none (.inr hline)]
    | cons c rest =>
      obtain rfl : c = byte ' ' := Option.some.inj (hblank.resolve_left (List.cons_ne_nil _ _))
      have hirep : Text.ofString ".irep " = Text.ofString ".irep" ++ [byte ' '] := by decide
      have hspace : ∀ c ∈ Text.ofString ".irep", c ≠ byte ' ' := by decide +kernel
      have hplain : ∀ c ∈ line, c ≠ byte ' ' := fun c hc heq => hline (heq ▸ hc)
      rw [heading?, if_neg]
      intro hpre
      obtain ⟨more, hmore⟩ := List.isPrefixOf_iff_prefix.1 hpre
      rw [hirep, List.append_assoc, List.singleton_append] at hmore
      have hcut := congrArg (Text.cut (byte ' ')) hmore
      rw [Assembly.cut_eq hspace, Assembly.cut_eq hplain] at hcut
      exact hword (congrArg Prod.fst (Option.some.inj hcut)).symm

/-- A text without blanks between two that stay on their lines. When it is broken, its first line is
on the line of what stands before it, and its last one on that of what follows. -/
theorem headings_between (hlead : byte '\n' ∉ lead) (ht : byte ' ' ∉ t) (hrest : byte '\n' ∉ rest)
    (hblank : rest = [] ∨ rest.head? = some (byte ' ')) (hbreak : byte '\n' ∈ t) :
    headings (lead ++ t ++ rest) = (heading? (lead ++ t.takeWhile (· != byte '\n'))).toList ++
      if reopens t then (heading? (Text.ofString ".irep" ++ rest)).toList else [] := by
  obtain ⟨s, line, rfl, hline⟩ := exists_last_line hbreak
  have hs : byte ' ' ∉ s := fun hmem => ht (List.mem_append_left _ hmem)
  have hend : byte ' ' ∉ line := fun hmem => ht (by simp [hmem])
  have hfirst : (s ++ byte '\n' :: line).takeWhile (· != byte '\n') = s.takeWhile (· != byte '\n') := by
    by_cases hmem : byte '\n' ∈ s
    · obtain ⟨u, v, rfl, hu⟩ := List.eq_append_cons_of_mem hmem
      rw [List.append_assoc, List.cons_append, takeWhile_break hu, takeWhile_break hu]
    · rw [takeWhile_break hmem, takeWhile_of_not_mem hmem]
  have hsplit : lead ++ (s ++ byte '\n' :: line) ++ rest = lead ++ s ++ byte '\n' :: (line ++ rest) := by
    simp
  rw [hsplit, headings_append, headings_lead hlead hs, hfirst,
    headings_of_unbroken (by simp [hline, hrest]), heading?_line hend hblank, reopens_append s hline]
  by_cases hword : line = Text.ofString ".irep" <;> simp [hword]

/-- A text on a line that begins with a blank. It stays on the line, or it has no blanks. -/
theorem headings_operand (hlead : byte '\n' ∉ lead) (hrest : byte '\n' ∉ rest)
    (hblank : rest = [] ∨ rest.head? = some (byte ' ')) (ht : byte '\n' ∉ t ∨ byte ' ' ∉ t) :
    headings (byte ' ' :: lead ++ t ++ rest) =
      if reopens t then (heading? (Text.ofString ".irep" ++ rest)).toList else [] := by
  have hfirst : ∀ u : Text, heading? (byte ' ' :: lead ++ u) = none := fun u =>
    heading?_eq_none (.inl (by simp [byte]))
  have hindent : byte '\n' ∉ byte ' ' :: lead := List.not_mem_cons_of_ne_of_not_mem (by decide) hlead
  by_cases hbreak : byte '\n' ∈ t
  · have hspace : byte ' ' ∉ t := ht.resolve_left fun h => h hbreak
    rw [headings_between hindent hspace hrest hblank hbreak, hfirst]
    rfl
  · have hline : byte '\n' ∉ byte ' ' :: lead ++ t ++ rest := by
      simp only [List.mem_append, not_or]
      exact ⟨⟨hindent, hbreak⟩, hrest⟩
    rw [headings_of_unbroken hline, not_reopens_of_unbroken hbreak, List.append_assoc, hfirst]
    rfl

/-! ### The lines of a section -/

theorem unbroken_literal (lit : Literal) : ∀ c ∈ lit.write, c ≠ byte '\n' := by
  have hfloat : ∀ x : Double, ∀ c ∈ (Literal.ofFloat x).write, c ≠ byte '\n' := by
    intro x
    by_cases hnan : x.isNaN
    · have hwrite : (Literal.ofFloat x).write = (Literal.ofFloat .nan).write := by
        have hx : x.write = Double.nan.write := by
          rw [Double.write, if_pos hnan, Double.write, if_pos (by decide)]
        exact congrArg Double.marked hx
      rw [hwrite]
      exact (read_write_float fun _ => rfl).2.2.unbroken
    · exact (read_write_float fun hx => absurd hx hnan).2.2.unbroken
  unfold Literal.write
  split
  · exact hfloat lit.float
  · exact Text.unbroken_quote lit.text
  · exact (isWord_ofInt64 lit.int).unbroken

theorem unbroken_marked {mark : UInt8} (hmark : mark ≠ byte '\n') :
    ∀ c ∈ mark :: Text.ofInt64 k, c ≠ byte '\n' :=
  List.forall_mem_cons.2 ⟨hmark, (isWord_ofInt64 k).unbroken⟩

theorem unbroken_entry {α : Type} {xs : Array α} {write : α → Text}
    (h : ∀ x ∈ xs, ∀ c ∈ write x, c ≠ byte '\n') :
    ∀ c ∈ ((entryAt? xs k).map write).getD (byte '?' :: Text.ofInt64 k), c ≠ byte '\n' := by
  rw [entryAt?]
  split_ifs
  · exact unbroken_marked (by decide)
  · cases hx : xs[k.toInt.toNat]? with
    | none => exact unbroken_marked (by decide)
    | some x => exact h x (Array.mem_of_getElem? hx)

/-- Operands that are neither names nor symbols stay on their line. -/
theorem unbroken_writeOperand (hsymbol : kind ≠ .symbol) (hchild : kind ≠ .child) :
    ∀ c ∈ writeOperand names b kind k, c ≠ byte '\n' := by
  cases kind with
  | none => exact (isWord_ofInt64 k).unbroken
  | integer => exact (isWord_ofInt64 k).unbroken
  | register => exact unbroken_marked (by decide)
  | label => exact unbroken_marked (by decide)
  | literal => exact unbroken_entry fun lit _ => unbroken_literal lit
  | symbol => exact absurd rfl hsymbol
  | child => exact absurd rfl hchild

/-- A symbol in quotes stays on its line; one without has no blanks. -/
theorem unbroken_or_blankless_symbol :
    byte '\n' ∉ writeOperand names b .symbol k ∨ byte ' ' ∉ writeOperand names b .symbol k := by
  rw [writeOperand]
  cases entryAt? b.symbols k with
  | none => exact .inl (unbroken_iff.1 (unbroken_marked (by decide)))
  | some s =>
    rw [Option.map_some, Option.getD_some, Assembly.writeSymbol_eq]
    split_ifs with hquoted
    · exact .inl (unbroken_iff.1 (List.forall_mem_cons.2 ⟨by decide, Text.unbroken_quote s⟩))
    · refine .inr fun hmem => hquoted ?_
      have hspace : byte ' ' ∈ s := (List.mem_cons.1 hmem).resolve_left (by decide)
      rw [Assembly.isQuoted, Double.containsAny_of_mem hspace (by decide), Bool.or_true]

theorem unbroken_or_blankless_child (h : ∀ i ∈ b.children, byte ' ' ∉ nameOf names i) :
    byte '\n' ∉ writeOperand names b .child k ∨ byte ' ' ∉ writeOperand names b .child k := by
  rw [writeOperand]
  cases hc : entryAt? b.children k with
  | none => exact .inl (unbroken_iff.1 (unbroken_marked (by decide)))
  | some i =>
    refine .inr fun hmem => h i (mem_of_entryAt? hc) ?_
    exact (List.mem_cons.1 hmem).resolve_left (by decide)

theorem unbroken_mnemonic (op : Opcode) : ∀ c ∈ op.mnemonic, c ≠ byte '\n' := by
  have hknown : op ∈ Opcode.all → ∀ c ∈ op.mnemonic, c ≠ byte '\n' := fun hop c hc =>
    (Text.isBare_iff.1 ((Opcode.mnemonic_spec op hop).1 c hc)).2.1
  cases op
  case unknown n =>
    have hlead : ∀ c ∈ Text.ofString "OP_", c ≠ byte '\n' := by decide +kernel
    refine List.forall_mem_append.2 ⟨hlead, fun c hc => ?_⟩
    rintro rfl
    exact absurd (Text.isDigit_ofNat _ _ hc) (by decide)
  all_goals exact hknown (by decide)

/-- The shapes of lines: at most one operand is a symbol or a name, and only behind a symbol there may be
another one. -/
theorem operands_cases (op : Opcode) :
    (∀ kind ∈ op.operands, kind ≠ .symbol ∧ kind ≠ .child) ∨ op.operands = [.register, .symbol] ∨
      op.operands = [.register, .child] ∨ op.operands = [.register, .symbol, .integer] := by
  cases op <;> simp [Opcode.operands]

theorem unbroken_instLine {i : Inst} (h : ∀ kind ∈ i.op.operands, kind ≠ .symbol ∧ kind ≠ .child) :
    ∀ c ∈ instLine names b i, c ≠ byte '\n' := by
  have hindent : ∀ c ∈ Text.ofString "    ", c ≠ byte '\n' := by decide +kernel
  simp only [instLine, List.forall_mem_append, List.forall_mem_flatMap, List.forall_mem_cons]
  refine ⟨⟨hindent, unbroken_mnemonic i.op⟩, fun x hx => ⟨by decide, ?_⟩⟩
  have hkind := h x.1 (i.map_fst_operands ▸ List.mem_map_of_mem hx)
  exact unbroken_writeOperand hkind.1 hkind.2

theorem reopens_writeOperand_symbol : reopens (writeOperand names b .symbol k) =
    (entryAt? b.symbols k).any fun s => reopens (writeSymbol s) := by
  rw [writeOperand]
  cases entryAt? b.symbols k with
  | none => exact not_reopens_of_unbroken (unbroken_iff.1 (unbroken_marked (by decide)))
  | some s => rfl

theorem headings_instLine (h : ∀ i ∈ b.children, byte ' ' ∉ nameOf names i) (i : Inst) :
    headings (instLine names b i) = (instHeading? b i).toList := by
  have hlead : byte '\n' ∉
      32 :: 32 :: 32 :: i.op.mnemonic ++ 32 :: writeOperand names b .register i.a ++ [32] := by
    refine unbroken_iff.1 ?_
    simp only [List.cons_append, List.forall_mem_cons, List.forall_mem_append]
    exact ⟨by decide, by decide, by decide, ⟨unbroken_mnemonic i.op, by decide,
      unbroken_marked (by decide)⟩, by decide, nofun⟩
  have hnone : heading? (Text.ofString ".irep" ++ []) = none := by decide
  rcases operands_cases i.op with hplain | hop | hop | hop
  · have hlong : i.op.operands ≠ [.register, .symbol, .integer] := fun heq => by
      rw [heq] at hplain
      exact (hplain .symbol (by simp)).1 rfl
    have hfirst : (instLine names b i).head? ≠ some 46 := by
      rw [instLine_eq]
      simp
    rw [headings_of_unbroken (unbroken_iff.1 (unbroken_instLine hplain)), heading?_eq_none (.inl hfirst),
      instHeading?, if_neg fun heq => hlong heq.1]
  · have hline : instLine names b i = byte ' ' ::
        (32 :: 32 :: 32 :: i.op.mnemonic ++ 32 :: writeOperand names b .register i.a ++ [32]) ++
          writeOperand names b .symbol i.b ++ [] := by
      rw [instLine_eq, Inst.operands, hop]
      simp [byte]
    rw [hline, headings_operand hlead (by simp) (.inl rfl) unbroken_or_blankless_symbol, hnone,
      instHeading?, hop]
    simp
  · have hline : instLine names b i = byte ' ' ::
        (32 :: 32 :: 32 :: i.op.mnemonic ++ 32 :: writeOperand names b .register i.a ++ [32]) ++
          writeOperand names b .child i.b ++ [] := by
      rw [instLine_eq, Inst.operands, hop]
      simp [byte]
    rw [hline, headings_operand hlead (by simp) (.inl rfl) (unbroken_or_blankless_child h), hnone,
      instHeading?, hop]
    simp
  · have hline : instLine names b i = byte ' ' ::
        (32 :: 32 :: 32 :: i.op.mnemonic ++ 32 :: writeOperand names b .register i.a ++ [32]) ++
          writeOperand names b .symbol i.b ++ byte ' ' :: Text.ofInt64 i.c := by
      rw [instLine_eq, Inst.operands, hop]
      simp [byte, writeOperand]
    have hrest : byte '\n' ∉ byte ' ' :: Text.ofInt64 i.c := unbroken_iff.1 (unbroken_marked (by decide))
    have hword : heading? (Text.ofString ".irep" ++ byte ' ' :: Text.ofInt64 i.c) =
        some (Text.ofInt64 i.c) := by
      have hirep : Text.ofString ".irep" ++ byte ' ' :: Text.ofInt64 i.c =
          Text.ofString ".irep " ++ Text.ofInt64 i.c := by
        rw [irep_eq]
        rfl
      have hblank : byte ' ' ∉ Text.ofInt64 i.c := fun hmem =>
        absurd (isBare_ofInt64 i.c _ hmem) (by decide)
      rw [hirep, heading?_opening, takeWhile_of_not_mem hblank]
    rw [hline, headings_operand hlead hrest (.inr rfl) unbroken_or_blankless_symbol, hword,
      reopens_writeOperand_symbol, instHeading?, hop]
    by_cases hopens : (entryAt? b.symbols i.b).any fun s => reopens (writeSymbol s) <;> simp [hopens]

theorem headings_headLine (hname : byte ' ' ∉ name) (b : Block) :
    headings (headLine name b) = name.takeWhile (· != byte '\n') ::
      if reopens name then [Assembly.attributeText "nregs" b.registers] else [] := by
  have hkey : ∀ c ∈ Text.ofString "nregs", Text.isBare c := by decide +kernel
  have hkey' : ∀ c ∈ Text.ofString "nlocals", Text.isBare c := by decide +kernel
  have hirep : Text.ofString ".irep " = Text.ofString ".irep" ++ [byte ' '] := by decide
  have hbegin : byte '\n' ∉ Text.ofString ".irep " := by decide
  have hregisters := Assembly.isWord_attributeText hkey b.registers
  have hlocals := Assembly.isWord_attributeText hkey' b.locals
  have hblank : byte ' ' ∉ Assembly.attributeText "nregs" b.registers := fun hmem =>
    absurd (hregisters.whole _ hmem) (by decide)
  -- What stands behind the name on its last line.
  obtain ⟨rest, hrest⟩ : ∃ rest, rest = byte ' ' :: (Assembly.attributeText "nregs" b.registers ++
    byte ' ' :: Assembly.attributeText "nlocals" b.locals) := ⟨_, rfl⟩
  have hunbroken : byte '\n' ∉ rest := by
    rw [hrest]
    refine unbroken_iff.1 (List.forall_mem_cons.2 ⟨by decide, List.forall_mem_append.2 ⟨hregisters.unbroken, ?_⟩⟩)
    exact List.forall_mem_cons.2 ⟨by decide, hlocals.unbroken⟩
  have hline : headLine name b = Text.ofString ".irep " ++ name ++ rest := by
    rw [Assembly.headLine_eq, hirep, hrest]
    simp [byte]
  have hfirst : heading? (Text.ofString ".irep " ++ name.takeWhile (· != byte '\n')) =
      some (name.takeWhile (· != byte '\n')) := by
    rw [heading?_opening, takeWhile_of_not_mem fun hmem => hname ((List.takeWhile_prefix _).mem hmem)]
  have hnext : heading? (Text.ofString ".irep" ++ rest) =
      some (Assembly.attributeText "nregs" b.registers) := by
    have hopening : Text.ofString ".irep" ++ rest = Text.ofString ".irep " ++
        (Assembly.attributeText "nregs" b.registers ++
          byte ' ' :: Assembly.attributeText "nlocals" b.locals) := by
      rw [hirep, hrest]
      simp
    rw [hopening, heading?_opening, takeWhile_break hblank]
  rw [hline]
  by_cases hbreak : byte '\n' ∈ name
  · rw [headings_between hbegin hname hunbroken (.inr (by rw [hrest]; rfl)) hbreak, hfirst, hnext]
    rfl
  · have hwhole : byte '\n' ∉ Text.ofString ".irep " ++ name ++ rest := by
      simp only [List.mem_append, not_or]
      exact ⟨⟨hbegin, hbreak⟩, hunbroken⟩
    rw [headings_of_unbroken hwhole, List.append_assoc, heading?_opening, hrest, takeWhile_break hname,
      not_reopens_of_unbroken hbreak, takeWhile_of_not_mem hbreak]
    rfl

/-- The lines of a section open it, and more sections where its name or a symbol reopens. -/
theorem headings_sectionLines (hname : byte ' ' ∉ name) (h : ∀ i ∈ b.children, byte ' ' ∉ nameOf names i) :
    (sectionLines names name b).flatMap headings = sectionHeadings name b := by
  have hlabel : ∀ pc, (labelLine (targets b) pc).flatMap headings = [] := by
    intro pc
    rw [labelLine]
    split_ifs
    · rw [List.flatMap_singleton, headings_of_unbroken (unbroken_iff.1 (Assembly.isWord_label pc).unbroken),
        heading?_eq_none (.inl (by simp [label, byte]))]
      rfl
    · rfl
  have hend : headings (Text.ofString ".end") = [] := by decide
  have hbody : (b.code.toList.zipIdx.flatMap fun x =>
      labelLine (targets b) x.2 ++ [instLine names b x.1]).flatMap headings =
        b.code.toList.filterMap (instHeading? b) := by
    have hcode := List.zipIdx_map_fst 0 b.code.toList
    rw [List.flatMap_assoc]
    simp only [List.flatMap_append, hlabel, List.nil_append, List.flatMap_singleton, headings_instLine h]
    rw [← hcode, List.filterMap_map, hcode, List.filterMap_eq_flatMap_toList]
    rfl
  rw [sectionLines, List.flatMap_append, List.flatMap_append, List.flatMap_append, hbody, hlabel,
    List.flatMap_singleton, List.flatMap_singleton, hend, headings_headLine hname, sectionHeadings]
  simp

theorem blankless_nameOf (p : Program) (i : Nat) : byte ' ' ∉ nameOf (Listing.names p) i := by
  rw [nameOf]
  cases hlookup : (Listing.names p).lookup i with
  | none => exact List.not_mem_nil
  | some name =>
    obtain ⟨before, after, hsplit, -⟩ := List.lookup_eq_some_iff.1 hlookup
    have hmem : (i, name) ∈ Listing.names p := hsplit ▸ List.mem_append_right _ List.mem_cons_self
    exact (isUsable_iff.1 (isUsable_of_mem_names hmem)).2.1

/-- The lines of a listing that open sections, one section after the other. -/
theorem headings_listing (hroot : p.visitOrder ≠ []) : headings p.listing =
    (Listing.names p).flatMap fun x => sectionHeadings x.2 (p.block x.1) := by
  rw [headings, Assembly.splitOn_listing hroot, List.filterMap_flatMap]
  refine List.flatMap_congr fun x hx => ?_
  have hblank : [([] : Text)].filterMap heading? = [] := by decide
  rw [List.filterMap_append, hblank, List.append_nil, List.filterMap_flatMap]
  exact headings_sectionLines (isUsable_iff.1 (isUsable_of_mem_names hx)).2.1 fun i _ => blankless_nameOf p i

/-! ### Single headings -/

theorem length_sectionHeadings (name : Text) (b : Block) : (sectionHeadings name b).length = 1 ↔
    reopens name = false ∧ ∀ i ∈ b.code, instHeading? b i = none := by
  have hcode : (b.code.toList.filterMap (instHeading? b)).length = 0 ↔ ∀ i ∈ b.code, instHeading? b i = none := by
    simp [List.length_eq_zero_iff]
  rw [← hcode, sectionHeadings]
  cases reopens name <;> simp

theorem sectionHeadings_eq_singleton : sectionHeadings name b = [name] ↔
    byte '\n' ∉ name ∧ ∀ i ∈ b.code, instHeading? b i = none := by
  refine ⟨fun h => ?_, fun ⟨hname, hcode⟩ => ?_⟩
  · obtain ⟨-, hcode⟩ := (length_sectionHeadings name b).1 (congrArg List.length h)
    refine ⟨unbroken_iff.1 fun c hc => ?_, hcode⟩
    have htake : name.takeWhile (· != byte '\n') = name := (List.cons.inj h).1
    simpa using List.takeWhile_eq_self_iff.1 htake c hc
  · have hnone : b.code.toList.filterMap (instHeading? b) = [] :=
      List.filterMap_eq_nil_iff.2 fun i hi => hcode i (Array.mem_toList_iff.1 hi)
    rw [sectionHeadings, takeWhile_of_not_mem hname, not_reopens_of_unbroken hname, hnone]
    rfl

/-- Lists that are not empty are as long together as they are many when each has one entry. -/
theorem length_flatMap_eq {α β : Type} {xs : List α} {f : α → List β} (h : ∀ x ∈ xs, f x ≠ []) :
    (xs.flatMap f).length = xs.length ↔ ∀ x ∈ xs, (f x).length = 1 := by
  induction xs with
  | nil => simp
  | cons x xs ih =>
    obtain ⟨hx, hxs⟩ := List.forall_mem_cons.1 h
    have hpos := List.length_pos_iff.2 hx
    have hrest : xs.length ≤ (xs.flatMap f).length := by
      rw [List.length_flatMap, ← List.length_map (fun x => (f x).length)]
      refine List.length_le_sum_of_one_le _ fun n hn => ?_
      obtain ⟨y, hy, rfl⟩ := List.mem_map.1 hn
      exact List.length_pos_iff.2 (hxs y hy)
    rw [List.forall_mem_cons, ← ih hxs, List.flatMap_cons, List.length_append, List.length_cons]
    omega

theorem flatMap_eq_map {α β : Type} {xs : List α} {f : α → List β} {g : α → β} (h : ∀ x ∈ xs, f x ≠ []) :
    xs.flatMap f = xs.map g ↔ ∀ x ∈ xs, f x = [g x] := by
  refine ⟨fun heq => ?_, fun heq => by rw [List.flatMap_congr heq, ← List.map_eq_flatMap]⟩
  have hlength : (xs.flatMap f).length = xs.length := by rw [heq, List.length_map]
  have hone := (length_flatMap_eq h).1 hlength
  clear hlength
  induction xs with
  | nil => nofun
  | cons x xs ih =>
    obtain ⟨hx, hxs⟩ := List.forall_mem_cons.1 h
    obtain ⟨hfirst, hrest⟩ := List.forall_mem_cons.1 hone
    obtain ⟨y, hy⟩ := List.length_eq_one_iff.1 hfirst
    rw [List.flatMap_cons, List.map_cons, hy, List.singleton_append] at heq
    obtain ⟨rfl, htail⟩ := List.cons.inj heq
    exact List.forall_mem_cons.2 ⟨hy, ih hxs htail hrest⟩

/-- A symbol on one line is written on one line. -/
theorem instHeading?_eq_none {i : Inst} (h : ∀ s ∈ b.symbols, ∀ c ∈ s, c ≠ byte '\n') :
    instHeading? b i = none := by
  rw [instHeading?, if_neg]
  rintro ⟨-, hopens⟩
  obtain ⟨s, hs, hopens⟩ := (Option.any_eq_true _ _).1 hopens
  have hunbroken : ∀ c ∈ writeSymbol s, c ≠ byte '\n' := by
    rw [writeSymbol]
    split_ifs
    · exact List.forall_mem_cons.2 ⟨by decide, Text.unbroken_quote s⟩
    · exact List.forall_mem_cons.2 ⟨by decide, h s (mem_of_entryAt? hs)⟩
  rw [not_reopens_of_unbroken (unbroken_iff.1 hunbroken)] at hopens
  cases hopens

/-! ### What a listing shows -/

/-- The sections of a listing and their names, where `order` are the visits of the walk over the blocks. -/
structure Sections (p : Program) (order : List Nat) : Prop where
  /-- The walk comes to an end, and so does the search for each name, in one way. -/
  walk : p.Walk [0] order
  naming : ∀ r, Naming p [] 0 order r ↔ r = Listing.names p
  root : order.head? = some 0
  reached : ∀ i, i ∈ order ↔ p.Reached i
  /-- Each block that is visited has a name, in the order of the first visits. -/
  visits : (Listing.names p).map (·.1) = order.eraseDups
  distinct : ((Listing.names p).map (·.2)).Nodup
  usable : ∀ x ∈ Listing.names p, x.2 ≠ [] ∧ byte ' ' ∉ x.2 ∧ byte '\t' ∉ x.2 ∧ byte '@' ∉ x.2
  /-- A block keeps the name it has, when that can be used and was not given before. -/
  kept : ∀ before x after, Listing.names p = before ++ x :: after →
    isUsable (p.block x.1).name → (p.block x.1).name ∉ before.map (·.2) → x.2 = (p.block x.1).name
  made : ∀ before x after, Listing.names p = before ++ x :: after →
    ¬(isUsable (p.block x.1).name ∧ (p.block x.1).name ∉ before.map (·.2)) → ∃ k, x.2 = madeName k
  sections : p.listing = Text.join [byte '\n'] (order.eraseDups.map fun i =>
    writeSection (Listing.names p) (nameOf (Listing.names p) i) (p.block i))
  /-- The lines that open a section. A name with a line break opens with its first line, and once more
  when its last line is the word that opens a section; so does a symbol with an operand behind it. -/
  opened : headings p.listing = order.eraseDups.flatMap fun i =>
    sectionHeadings (nameOf (Listing.names p) i) (p.block i)
  counted : (headings p.listing).length = order.eraseDups.length ↔
    ∀ i ∈ order, reopens (nameOf (Listing.names p) i) = false ∧
      ∀ x ∈ (p.block i).code, instHeading? (p.block i) x = none
  headed : headings p.listing = order.eraseDups.map (nameOf (Listing.names p)) ↔
    ∀ i ∈ order, byte '\n' ∉ nameOf (Listing.names p) i ∧
      ∀ x ∈ (p.block i).code, instHeading? (p.block i) x = none
  whole : (∀ i ∈ order, (∀ c ∈ (p.block i).name, c ≠ byte '\n') ∧
      ∀ s ∈ (p.block i).symbols, ∀ c ∈ s, c ≠ byte '\n') →
    headings p.listing = order.eraseDups.map (nameOf (Listing.names p))
  /-- A child that an operand refers to is shown by the name of its section, which no other block has. -/
  child : ∀ i ∈ order, ∀ k c, entryAt? (p.block i).children k = some c →
    writeOperand (Listing.names p) (p.block i) .child k = byte '@' :: nameOf (Listing.names p) c ∧
      c ∈ order ∧ ∀ d ∈ order, nameOf (Listing.names p) d = nameOf (Listing.names p) c → d = c

/-- Blocks that form no cycle have a listing with sections of their own, whatever they are called. -/
theorem names_distinct (hg : p.Graph) (hacyclic : ¬p.Cyclic) : ∃ order, Sections p order := by
  obtain ⟨order, hwalk⟩ := hg.exists_walk_iff.2 hacyclic
  have hvisits : order.eraseDups = p.visitOrder := (hwalk.visitOrder_eq hg).symm
  have hfirst : (Listing.names p).map (·.1) = order.eraseDups := (map_fst_names p).trans hvisits.symm
  have hreached : ∀ i, i ∈ order ↔ p.Reached i := fun i => by
    rw [← List.mem_eraseDups, hvisits, Program.mem_visitOrder]
    exact and_iff_left_of_imp hg.reached
  have hchild : ∀ i ∈ order, ∀ c ∈ (p.block i).children, c ∈ order := fun i hi c hc =>
    (hreached c).2 (((hreached i).1 hi).child (Array.mem_toList_iff.2 hc))
  have hnamed : ∀ i ∈ order, ∃ x ∈ Listing.names p, x.1 = i := fun i hi =>
    exists_mem_names (hvisits ▸ List.mem_eraseDups.2 hi)
  have hroot : p.visitOrder ≠ [] := fun hnil => by
    have hzero := (hreached 0).2 (.root p)
    rw [← List.mem_eraseDups, hvisits, hnil] at hzero
    cases hzero
  have hopened : headings p.listing = order.eraseDups.flatMap fun i =>
      sectionHeadings (nameOf (Listing.names p) i) (p.block i) := by
    rw [headings_listing hroot, ← hfirst, List.flatMap_map]
    exact List.flatMap_congr fun x hx => by rw [nameOf_names hx]
  have hsome : ∀ i ∈ order.eraseDups, sectionHeadings (nameOf (Listing.names p) i) (p.block i) ≠ [] :=
    fun i _ => List.cons_ne_nil _ _
  have hheaded : headings p.listing = order.eraseDups.map (nameOf (Listing.names p)) ↔
      ∀ i ∈ order, byte '\n' ∉ nameOf (Listing.names p) i ∧
        ∀ x ∈ (p.block i).code, instHeading? (p.block i) x = none := by
    rw [hopened, flatMap_eq_map hsome]
    simp only [List.mem_eraseDups, sectionHeadings_eq_singleton]
  exact ⟨order, {
    walk := hwalk
    naming := fun r => naming_iff hg hwalk
    root := by
      cases hwalk
      rfl
    reached := hreached
    visits := hfirst
    distinct := nodup_names p
    usable := fun x hx => isUsable_iff.1 (isUsable_of_mem_names hx)
    kept := fun before x after hsplit hown hfree => (assignNames_split hsplit).1 ⟨hown, hfree⟩
    made := fun before x after hsplit => (assignNames_split hsplit).2
    sections := by
      rw [Program.listing, ← hfirst, List.map_map]
      congr 1
      exact List.map_congr_left fun x hx => by rw [Function.comp_apply, nameOf_names hx]
    opened := hopened
    counted := by
      rw [hopened, length_flatMap_eq hsome]
      simp only [List.mem_eraseDups, length_sectionHeadings]
    headed := hheaded
    whole := fun hwhole => hheaded.2 fun i hi => by
      obtain ⟨x, hx, rfl⟩ := hnamed i hi
      obtain ⟨hname, hsymbols⟩ := hwhole x.1 hi
      refine ⟨?_, fun inst _ => instHeading?_eq_none hsymbols⟩
      rw [nameOf_names hx]
      exact unbroken_iff.1 (unbroken_name hx hname)
    child := fun i hi k c hc => by
      have hmem := hchild i hi c (mem_of_entryAt? hc)
      refine ⟨by rw [writeOperand, hc, nameOf], hmem, fun d hd heq => ?_⟩
      obtain ⟨x, hx, rfl⟩ := hnamed d hd
      obtain ⟨y, hy, rfl⟩ := hnamed c hmem
      rw [nameOf_names hx, nameOf_names hy] at heq
      rw [eq_of_names hx hy heq] }⟩

/-- The root has a space in its name and a child twice. This child has the name that the root would
be given next, and the two blocks below cannot have theirs. -/
def aliased : Program where
  blocks := #[{ name := "a b", children := #[1, 2, 1] }, { name := "rep1", children := #[3] },
    { name := "rep1", children := #[3] }, {}]

theorem graph_aliased : aliased.Graph :=
  .of_blocks (by decide) (by decide)

theorem names_distinct_aliased : aliased.Graph ∧ ¬aliased.Cyclic ∧
    Listing.names aliased = [(0, madeName 0), (1, madeName 1), (3, madeName 2), (2, madeName 3)] ∧
    headings aliased.listing = [madeName 0, madeName 1, madeName 2, madeName 3] := by
  have hrange : List.range aliased.blocks.size = [0, 1, 2, 3] := rfl
  have hacyclic : ¬aliased.Cyclic := by
    rw [← graph_aliased.cyclicBlock?_eq_none, Program.cyclicBlock?, hrange]
    simp [Program.openBlock?, Program.children, Program.block, aliased]
  have hvisits : aliased.visitOrder = [0, 1, 3, 2] := by
    rw [Program.visitOrder, hrange]
    simp [Program.visits, Program.children, Program.block, aliased]
  have hnames : Listing.names aliased =
      [(0, madeName 0), (1, madeName 1), (3, madeName 2), (2, madeName 3)] := by
    rw [Listing.names, hvisits]
    decide
  obtain ⟨order, h⟩ := names_distinct graph_aliased hacyclic
  have hmem : ∀ i ∈ order, i ∈ [0, 1, 3, 2] := fun i hi => by
    have hfirst := List.mem_eraseDups.2 hi
    rwa [← h.visits, hnames] at hfirst
  have hunbroken : ∀ i ∈ [0, 1, 3, 2], (∀ c ∈ (aliased.block i).name, c ≠ byte '\n') ∧
      ∀ s ∈ (aliased.block i).symbols, ∀ c ∈ s, c ≠ byte '\n' := by decide +kernel
  refine ⟨graph_aliased, hacyclic, hnames, ?_⟩
  rw [h.whole fun i hi => hunbroken i (hmem i hi), ← h.visits, hnames]
  decide

/-- A block whose name goes over three lines, the last of which reads like the word that opens a section. -/
def reopened : Program where
  blocks := #[{ name := "a\n.end\n.irep", registers := 1, code := #[⟨.leave, 0, 0, 0⟩] }]

theorem listing_reopened : reopened.Graph ∧ ¬reopened.Cyclic ∧
    (Listing.names reopened).map (·.1) = [0] ∧ headings reopened.listing = ["a", "nregs=1"] := by
  have hg : reopened.Graph := .of_blocks (by decide) (by decide)
  have hrange : List.range reopened.blocks.size = [0] := rfl
  have hvisits : reopened.visitOrder = [0] := by
    rw [Program.visitOrder, hrange]
    simp [Program.visits, Program.children, Program.block, reopened]
  refine ⟨hg, ?_, (map_fst_names reopened).trans hvisits, ?_⟩
  · rw [← hg.cyclicBlock?_eq_none, Program.cyclicBlock?, hrange]
    simp [Program.openBlock?, Program.children, Program.block, reopened]
  · rw [headings_listing (by rw [hvisits]; exact List.cons_ne_nil 0 []), Listing.names, hvisits]
    decide

end ObjectMachine.Listing
