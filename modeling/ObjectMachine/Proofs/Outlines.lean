import ObjectMachine.Proofs.Assembling

/-! The outline of a source. Its sections are told from the headers alone: each one reaches from a
header to the next end of a block. When a source assembles, its blocks are these sections, one for one
and in order, each read line by line, and no two of them have the same name. -/

namespace ObjectMachine.Assembly

open Text (byte)

def tokenLines (source : Text) : List (List Token) :=
  (source.splitOn (byte '\n')).map fun line => (tokens line).toOption.getD []

def headerName? : List Token → Option Text
  | .word w :: .word name :: _ => if w = Text.ofString ".irep" then some name else none
  | _ => none

def isEnd (line : List Token) : Bool := line.head? == some (.word ".end")

/-- What is written between the header of a block and its end. -/
structure Section where
  name : Text
  lines : List (List Token)
  deriving DecidableEq

def sections : List (List Token) → List Section
  | [] => []
  | line :: rest =>
    match headerName? line with
    | some name => ⟨name, rest.takeWhile (!isEnd ·)⟩ :: sections rest
    | none => sections rest

def isInstruction (line : List Token) : Bool := !line.isEmpty && (definedLabel? line).isNone

def instructionLines (lines : List (List Token)) : List (List Token) := lines.filter isInstruction

/-! ### Lines of a block -/

/-- A draft before and after lines are read into it. -/
inductive Draft.Takes : Draft → List (List Token) → Draft → Prop
  | nil {d : Draft} : Takes d [] d
  | cons {d d' d'' : Draft} {number : Nat} {line : List Token} {lines : List (List Token)}
      (first : d.readLine number line = .ok d') (rest : Takes d' lines d'') : Takes d (line :: lines) d''

structure Draft.Fresh (d : Draft) : Prop where
  code : d.code = #[]
  pool : d.pool = #[]
  symbols : d.symbols = #[]
  references : d.references = #[]
  labels : d.labels = []
  fixups : d.fixups = #[]

/-- A finished draft is what a section gives. -/
def Section.Gives (s : Section) (d : Draft) : Prop :=
  ∃ (start last : Draft) (code : Array Inst), start.Fresh ∧ start.name = s.name ∧ start.Takes s.lines last ∧
    last.resolve = .ok code ∧ d = { last with code }

variable {r r' : Reader} {d d' : Draft} {number : Nat} {args : List Token} {name : Text}

/-! ### Lines of a source -/

/-- The lines that follow give the drafts: one for each section that begins there, after the one that
is open. -/
def Reader.Leads (r : Reader) (lines : List (List Token)) (drafts : Array Draft) : Prop :=
  ∃ ds, List.Forall₂ Section.Gives (sections lines) ds ∧
    match r.current with
    | none => drafts.toList = r.finished.toList ++ ds
    | some d => ∃ last code, d.Takes (lines.takeWhile (!isEnd ·)) last ∧ last.resolve = .ok code ∧
        drafts.toList = r.finished.toList ++ { last with code } :: ds

theorem sections_of_not_header {line : List Token} {lines : List (List Token)} (h : headerName? line = none) :
    sections (line :: lines) = sections lines := by
  rw [sections, h]

theorem headerName?_eq_none {head : Token} (h : head ≠ .word ".irep") : headerName? (head :: args) = none := by
  unfold headerName?
  split
  · next heq =>
    cases heq
    exact if_neg fun hw => h (congrArg Token.word hw)
  · rfl

namespace Reader.Leads

variable {head : Token} {lines : List (List Token)} {drafts : Array Draft} {code : Array Inst}

theorem blank (h : r.Leads lines drafts) : r.Leads ([] :: lines) drafts := by
  obtain ⟨ds, hds, hdrafts⟩ := h
  refine ⟨ds, hds, ?_⟩
  cases hcurrent : r.current with
  | none => rwa [hcurrent] at hdrafts
  | some d =>
    rw [hcurrent] at hdrafts
    obtain ⟨last, code, htakes, hcode, hdrafts⟩ := hdrafts
    have hread : d.readLine 0 [] = .ok d := rfl
    exact ⟨last, code, .cons hread htakes, hcode, hdrafts⟩

theorem header {attributes : List Token} (hcurrent : r.current = none) (hfresh : d.Fresh) (hname : d.name = name)
    (h : Reader.Leads { r with current := some d } lines drafts) :
    r.Leads ((.word ".irep" :: .word name :: attributes) :: lines) drafts := by
  obtain ⟨ds, hds, last, code, htakes, hcode, hdrafts⟩ := h
  refine ⟨{ last with code } :: ds, .cons ⟨d, last, code, hfresh, hname, htakes, hcode, rfl⟩ hds, ?_⟩
  rw [hcurrent]
  exact hdrafts

theorem finish (hcurrent : r.current = some d) (hcode : d.resolve = .ok code)
    (h : Reader.Leads ⟨r.finished.push { d with code }, none⟩ lines drafts) :
    r.Leads ((.word ".end" :: args) :: lines) drafts := by
  obtain ⟨ds, hds, hdrafts⟩ := h
  refine ⟨ds, by rwa [sections_of_not_header (headerName?_eq_none (by decide))], ?_⟩
  rw [hcurrent]
  refine ⟨d, code, ?_, hcode, ?_⟩
  · rw [List.takeWhile_cons_of_neg (by simp [isEnd])]
    exact .nil
  · simpa using hdrafts

theorem content (hcurrent : r.current = some d) (hread : d.readLine number (head :: args) = .ok d')
    (hbegin : head ≠ .word ".irep") (hend : head ≠ .word ".end")
    (h : Reader.Leads { r with current := some d' } lines drafts) : r.Leads ((head :: args) :: lines) drafts := by
  obtain ⟨ds, hds, last, code, htakes, hcode, hdrafts⟩ := h
  refine ⟨ds, by rwa [sections_of_not_header (headerName?_eq_none hbegin)], ?_⟩
  rw [hcurrent]
  refine ⟨last, code, ?_, hcode, hdrafts⟩
  rw [List.takeWhile_cons_of_pos (by simpa [isEnd] using hend)]
  exact .cons hread htakes

end Reader.Leads

theorem Reader.leads_of_lines {texts : List (Text × Nat)} {drafts : Array Draft}
    (h : r.lines texts = .ok ⟨drafts, none⟩) :
    r.Leads (texts.map fun x => (tokens x.1).toOption.getD []) drafts := by
  induction texts generalizing r with
  | nil =>
    cases h
    exact ⟨[], .nil, (List.append_nil _).symm⟩
  | cons x texts ih =>
    obtain ⟨s, hline, hrest⟩ := bind_eq_ok.1 h
    have hleads := ih hrest
    obtain ⟨ts, htokens, hturns⟩ := Reader.line_eq_ok hline
    rw [List.map_cons, htokens]
    cases hturns with
    | blank => exact hleads.blank
    | header hcurrent _ hread =>
      obtain ⟨registers, locals, rfl, -⟩ := readAttributes_eq_ok hread
      exact hleads.header hcurrent ⟨rfl, rfl, rfl, rfl, rfl, rfl⟩ rfl
    | finish hcurrent hcode => exact hleads.finish hcurrent hcode
    | content hcurrent hbegin hend hread => exact hleads.content hcurrent hread hbegin hend

/-! ### Names -/

structure Reader.Distinct (r : Reader) : Prop where
  nodup : (r.finished.toList.map (·.name)).Nodup
  new : ∀ d, r.current = some d → ∀ e ∈ r.finished, e.name ≠ d.name

theorem name_readLine {line : List Token} (h : d.readLine number line = .ok d') : d'.name = d.name := by
  rcases Draft.readLine_eq_ok h with ⟨-, rfl⟩ | ⟨label, -, hdefine⟩ | ⟨head, args, -, -, hinst⟩
  · rfl
  · obtain ⟨-, rfl⟩ := Draft.define_eq_ok hdefine
    rfl
  · obtain ⟨_, op, e, ns, -, -, hcount, hoperands, rfl⟩ := Draft.instruction_eq_ok hinst
    exact (Draft.operandsFrom_reads hcount hoperands).2.name

theorem name_of_takes {lines : List (List Token)} (h : d.Takes lines d') : d'.name = d.name := by
  induction h with
  | nil => rfl
  | cons first _ ih => exact ih.trans (name_readLine first)

theorem Reader.Distinct.line {text : Text} (h : r.Distinct) (hread : r.line number text = .ok r') :
    r'.Distinct := by
  obtain ⟨ts, -, hturns⟩ := Reader.line_eq_ok hread
  cases hturns with
  | blank => exact h
  | header _ hnew hd =>
    obtain ⟨registers, locals, rfl, -⟩ := readAttributes_eq_ok hd
    refine ⟨h.nodup, fun e he => ?_⟩
    cases he
    exact hnew
  | finish hcurrent _ =>
    refine ⟨?_, by simp⟩
    rw [Array.toList_push, List.map_append, List.nodup_append]
    refine ⟨h.nodup, List.nodup_singleton _, ?_⟩
    rintro _ hx _ hy rfl
    obtain ⟨e, he, heq⟩ := List.mem_map.1 hx
    rw [List.map_singleton, List.mem_singleton] at hy
    exact h.new _ hcurrent e (Array.mem_toList_iff.1 he) (heq.trans hy)
  | content hcurrent _ _ hd' =>
    refine ⟨h.nodup, fun e he => ?_⟩
    cases he
    rw [name_readLine hd']
    exact h.new _ hcurrent

theorem Reader.Distinct.lines {texts : List (Text × Nat)} (h : r.Distinct) (hread : r.lines texts = .ok r') :
    r'.Distinct :=
  Reader.lines_induction h (fun _ _ _ _ h => h.line) hread

/-- The blocks of a source that assembles are its sections. -/
theorem parse_sections {source : Text} {p : Program} (h : parse source = .ok p) :
    ∃ drafts : Array Draft, p = ⟨drafts.map (·.linked drafts)⟩ ∧ (∀ d ∈ drafts, d.Closed drafts) ∧
      (drafts.toList.map (·.name)).Nodup ∧
      List.Forall₂ Section.Gives (sections (tokenLines source)) drafts.toList := by
  obtain ⟨drafts, hlines, -, hlink, -⟩ := parse_eq_ok.1 h
  obtain ⟨hclosed, rfl⟩ := link_eq_ok.1 hlink
  obtain ⟨ds, hds, hdrafts⟩ := Reader.leads_of_lines hlines
  have hdistinct : Reader.Distinct ⟨drafts, none⟩ := .lines ⟨by simp, by simp⟩ hlines
  refine ⟨drafts, rfl, hclosed, hdistinct.nodup, ?_⟩
  have hlist : drafts.toList = ds := hdrafts
  rw [hlist, tokenLines, ← List.zipIdx_map_fst 1 (source.splitOn (byte '\n')), List.map_map]
  exact hds

end ObjectMachine.Assembly
