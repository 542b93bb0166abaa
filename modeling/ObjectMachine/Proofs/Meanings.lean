import ObjectMachine.Proofs.Denoting
import ObjectMachine.Proofs.Doubles

/-! Operands and what was written for them. A literal is found in the pool, but for a zero after a zero of
the other sign, which share an entry; symbols and children are found by their names. A label is the number
of instructions before it, unless it looks like a number. -/

namespace ObjectMachine

/-- Numbers are the same when they are equal, or zeros of either sign. -/
theorem Double.eq_or_zero {x y : Double} (h : x.same y) :
    x = y ∨ x.isZero ∧ y.isZero ∧ x.isNegative ≠ y.isNegative := by
  simp only [Double.same, Bool.and_eq_true, beq_iff_eq] at h
  obtain ⟨-, hrank⟩ := h
  by_cases hsign : x.isNegative = y.isNegative
  · refine .inl ?_
    have hmagnitude : x.magnitude = y.magnitude := by
      unfold Double.rank at hrank
      rw [hsign] at hrank
      split at hrank <;> omega
    rw [← x.ofMagnitude_eta, ← y.ofMagnitude_eta, hsign, hmagnitude]
  · refine .inr ?_
    have hzero : x.magnitude = 0 ∧ y.magnitude = 0 := by
      unfold Double.rank at hrank
      split at hrank <;> split at hrank <;> first | omega | simp_all
    exact ⟨beq_iff_eq.2 hzero.1, beq_iff_eq.2 hzero.2, hsign⟩

namespace Assembly

/-- Zeros of different signs. -/
def Opposite (a b : Literal) : Prop :=
  ∃ x y, a = .ofFloat x ∧ b = .ofFloat y ∧ x.isZero ∧ y.isZero ∧ x.isNegative ≠ y.isNegative

/-- Literals that were read are the same when they are equal, or zeros of either sign. -/
theorem eq_or_opposite {t t' : Token} {a b : Literal} (ha : readLiteral t = .ok a)
    (hb : readLiteral t' = .ok b) (h : Literal.same a b) : a = b ∨ Opposite a b := by
  simp only [Literal.same, Bool.and_eq_true, beq_iff_eq] at h
  obtain ⟨⟨⟨hkind, hint⟩, hfloat⟩, htext⟩ := h
  obtain ⟨n, rfl⟩ | ⟨-, x, -, rfl⟩ | ⟨text, rfl⟩ := readLiteral_cases ha <;>
    obtain ⟨m, rfl⟩ | ⟨-, y, -, rfl⟩ | ⟨text', rfl⟩ := readLiteral_cases hb <;>
    try (simp [Literal.ofInt, Literal.ofFloat, Literal.ofText] at hkind; done)
  · exact .inl (congrArg Literal.ofInt hint)
  · exact (Double.eq_or_zero hfloat).imp (congrArg Literal.ofFloat) fun hzero => ⟨x, y, rfl, rfl, hzero⟩
  · exact .inl (congrArg Literal.ofText htext)

theorem exists_token_of_mem {xs : List (OperandKind × Token)} {lit : Literal} (h : lit ∈ literalsOf xs) :
    ∃ t, readLiteral t = .ok lit := by
  obtain ⟨x, -, hx⟩ := List.mem_filterMap.1 h
  split_ifs at hx
  cases hread : readLiteral x.2 with
  | error => rw [hread] at hx; cases hx
  | ok a =>
    rw [hread] at hx
    exact ⟨x.2, hread.trans (congrArg _ (Option.some.inj hx))⟩

/-- A shared literal is the one that was written, or an earlier zero of the other sign. -/
theorem shared_cases (earlier : List (OperandKind × Token)) {t : Token} {lit : Literal}
    (h : readLiteral t = .ok lit) : shared (literalsOf earlier) lit = lit ∨
      shared (literalsOf earlier) lit ∈ literalsOf earlier ∧ Opposite (shared (literalsOf earlier) lit) lit := by
  unfold shared
  cases hfound : (literalsOf earlier).find? (Literal.same · lit) with
  | none => exact .inl rfl
  | some a =>
    have hsame : a.same lit := List.find?_some (p := (Literal.same · lit)) hfound
    have hmem := List.mem_of_find?_eq_some hfound
    obtain ⟨t', ha⟩ := exists_token_of_mem hmem
    exact (eq_or_opposite ha h hsame).imp_right fun hzero => ⟨hmem, hzero⟩

/-- An operand that is written has a number. -/
theorem Matches.number {line : List Token} {i : Inst} {slot : Nat} {x : OperandKind × Token}
    (h : Matches line i.op) (hx : (writtenOperands line)[slot]? = some x) :
    ∃ n, i.operands[slot]? = some (x.1, n) := by
  rw [h.written] at hx
  have hkind := (List.getElem?_zip_eq_some.1 hx).1
  have hslot := (List.getElem?_eq_some_iff.1 hkind).1.trans_le (Inst.length_operands_le i.op)
  have hlt : slot < [i.a, i.b, i.c].length := hslot
  exact ⟨_, List.getElem?_zip_eq_some.2 ⟨hkind, List.getElem?_eq_getElem hlt⟩⟩

/-- Each line of a section has its instruction, and each operand of the line its number. -/
theorem Section.Denotes.instruction {s : Section} {p : Program} {b : Block} (h : s.Denotes p b) {k : Nat}
    {line : List Token} (hline : (instructionLines s.lines)[k]? = some line) :
    ∃ i, b.code[k]? = some i ∧ Matches line i.op ∧
      ∀ slot x, (writtenOperands line)[slot]? = some x →
        ∃ n, i.operands[slot]? = some (x.1, n) ∧ s.Means p b k slot x n := by
  have hlt := (List.getElem?_eq_some_iff.1 hline).1
  have hsize : b.code.size = (instructionLines s.lines).length := by
    rw [h.code.length_eq, List.length_map, Array.length_toList]
  obtain ⟨i, hi⟩ : ∃ i, b.code[k]? = some i := ⟨_, Array.getElem?_eq_getElem (hsize ▸ hlt)⟩
  have hmatches := matches_getElem? h.code hline hi
  refine ⟨_, hi, hmatches, fun slot x hx => ?_⟩
  obtain ⟨n, hn⟩ := hmatches.number hx
  exact ⟨n, hn, h.means k slot line _ x n hline hi hx hn⟩

end Assembly

open Assembly

/-- In a source that assembles, the instructions of a block are those of the lines of its section, and
their operands denote what is written there. A literal has an entry in the pool that is this literal, unless
it is a zero and the first zero before it in the block has the other sign: then it is that one. A symbol
has exactly its name, and a child is the one block with its name. -/
theorem operands_denote {source : Text} {p : Program} (h : parse source = .ok p) {i : Nat} (hi : p.Reached i) :
    ∃ s, (sections (tokenLines source))[i]? = some s ∧ (p.block i).name = s.name ∧
      ∀ (k : Nat) line, (instructionLines s.lines)[k]? = some line →
        ∃ inst : Inst, (p.block i).code[k]? = some inst ∧ Matches line inst.op ∧
        ∀ (slot : Nat) kind t, (writtenOperands line)[slot]? = some (kind, t) →
          ∃ n, inst.operands[slot]? = some (kind, n) ∧
            (kind = .literal → ∃ lit entry, readLiteral t = .ok lit ∧
              entryAt? (p.block i).pool n = some entry ∧
              entry = shared (literalsOf (writtenBefore (instructionLines s.lines) k slot)) lit ∧
              (entry ≠ lit → Opposite entry lit ∧
                entry ∈ literalsOf (writtenBefore (instructionLines s.lines) k slot))) ∧
            (kind = .symbol → ∃ name, readSymbol t = .ok name ∧ entryAt? (p.block i).symbols n = some name) ∧
            (kind = .child → ∃ name c, afterMark? '@' t = some name ∧
              entryAt? (p.block i).children n = some c ∧
              ∀ j < p.blocks.size, (p.block j).name = name ↔ j = c) := by
  obtain ⟨s, hs, hdenotes⟩ := parse_denotes h hi
  refine ⟨s, hs, hdenotes.name, fun k line hline => ?_⟩
  obtain ⟨inst, hinst, hmatches, hoperands⟩ := hdenotes.instruction hline
  refine ⟨inst, hinst, hmatches, fun slot kind t hx => ?_⟩
  obtain ⟨n, hn, hmeans⟩ := hoperands slot (kind, t) hx
  refine ⟨n, hn, ?_, ?_, ?_⟩
  · rintro rfl
    obtain ⟨lit, hlit, hentry⟩ := hmeans
    refine ⟨lit, _, hlit, hentry, rfl, fun hne => ?_⟩
    obtain ⟨hmem, hzero⟩ := (shared_cases _ hlit).resolve_left hne
    exact ⟨hzero, hmem⟩
  · rintro rfl
    exact hmeans
  · rintro rfl
    exact hmeans

/-- A number that is written twice after its negative, the second time in another way. -/
theorem operands_denote_numbers :
    let source : Text := ".irep main nregs=2\n LOADL r1 -1.5\n LOADL r1 1.5\n LOADL r1 15e-1\n RETURN r1\n.end"
    ∃ p, parse source = .ok p ∧ p.Reached 0 ∧ ∃ inst n, (p.block 0).code[2]? = some inst ∧
      inst.operands[1]? = some (.literal, n) ∧
      entryAt? (p.block 0).pool n = some (.ofFloat ⟨0x3FF8000000000000⟩) := by
  intro source
  let d : Draft :=
    { name := "main", line := 1, registers := 2
      pool := #[.ofFloat ⟨0xBFF8000000000000⟩, .ofFloat ⟨0x3FF8000000000000⟩]
      code := #[⟨.loadLiteral, 1, 0, 0⟩, ⟨.loadLiteral, 1, 1, 0⟩, ⟨.loadLiteral, 1, 1, 0⟩,
        ⟨.leave, 1, 0, 0⟩] }
  have hparse : parse source = .ok (.single d.alone) := parse_single (by decide +kernel) rfl (by decide)
  have hsection : (sections (tokenLines source))[0]? = some ⟨"main",
      [[.word "LOADL", .word "r1", .word "-1.5"], [.word "LOADL", .word "r1", .word "1.5"],
        [.word "LOADL", .word "r1", .word "15e-1"], [.word "RETURN", .word "r1"]]⟩ := by decide
  obtain ⟨s, hs, -, hlines⟩ := operands_denote hparse (.root _)
  obtain rfl := Option.some.inj (hs.symm.trans hsection)
  obtain ⟨inst, hinst, -, hoperands⟩ := hlines 2 [.word "LOADL", .word "r1", .word "15e-1"] (by decide)
  obtain ⟨n, hn, hliteral, -⟩ := hoperands 1 .literal (.word "15e-1") (by decide)
  obtain ⟨lit, entry, hlit, hentry, rfl, -⟩ := hliteral rfl
  have hread : readLiteral (.word "15e-1") = .ok (.ofFloat ⟨0x3FF8000000000000⟩) := by decide
  obtain rfl := Except.ok.inj (hlit.symm.trans hread)
  exact ⟨_, hparse, .root _, inst, n, hinst, hn, hentry.trans (by decide)⟩

/-- The zeros share an entry, so that a negative zero after a positive one is lost. -/
theorem literal_lost_negativeZero :
    let source : Text := ".irep main nregs=2\n LOADL r1 0.0\n LOADL r1 -0.0\n RETURN r1\n.end"
    ∃ p s inst n, parse source = .ok p ∧ p.Reached 0 ∧ (sections (tokenLines source))[0]? = some s ∧
      (instructionLines s.lines)[1]? = some [.word "LOADL", .word "r1", .word "-0.0"] ∧
      readLiteral (.word "-0.0") = .ok (.ofFloat ⟨0x8000000000000000⟩) ∧
      (p.block 0).code[1]? = some inst ∧ inst.operands[1]? = some (.literal, n) ∧
      entryAt? (p.block 0).pool n = some (.ofFloat .zero) := by
  intro source
  let d : Draft :=
    { name := "main", line := 1, registers := 2, pool := #[.ofFloat .zero]
      code := #[⟨.loadLiteral, 1, 0, 0⟩, ⟨.loadLiteral, 1, 0, 0⟩, ⟨.leave, 1, 0, 0⟩] }
  have hparse : parse source = .ok (.single d.alone) := parse_single (by decide +kernel) rfl (by decide)
  have hsection : (sections (tokenLines source))[0]? = some ⟨"main",
      [[.word "LOADL", .word "r1", .word "0.0"], [.word "LOADL", .word "r1", .word "-0.0"],
        [.word "RETURN", .word "r1"]]⟩ := by decide
  exact ⟨_, _, ⟨.loadLiteral, 1, 0, 0⟩, 0, hparse, .root _, hsection, by decide,
    by decide, rfl, rfl, rfl⟩

/-- In a source that assembles, a label that does not look like a number is defined just once in its block,
and the operand is the number of instructions before that. One that does is that number. -/
theorem labels_resolve {source : Text} {p : Program} (h : parse source = .ok p) {i : Nat} (hi : p.Reached i) :
    ∃ s, (sections (tokenLines source))[i]? = some s ∧ (p.block i).name = s.name ∧
      ∀ (k : Nat) line, (instructionLines s.lines)[k]? = some line →
        ∃ inst : Inst, (p.block i).code[k]? = some inst ∧ Matches line inst.op ∧
        ∀ (slot : Nat) t, (writtenOperands line)[slot]? = some (.label, t) →
          ∃ label n, t = .word label ∧ inst.operands[slot]? = some (.label, n) ∧
            (Text.readInt64? label = none →
              ∃ pc, (∀ q, Defines s.lines label q ↔ q = pc) ∧ n = Int64.ofNat pc) ∧
            ∀ m, Text.readInt64? label = some m → n = m := by
  obtain ⟨s, hs, hdenotes⟩ := parse_denotes h hi
  refine ⟨s, hs, hdenotes.name, fun k line hline => ?_⟩
  obtain ⟨inst, hinst, hmatches, hoperands⟩ := hdenotes.instruction hline
  refine ⟨inst, hinst, hmatches, fun slot t hx => ?_⟩
  obtain ⟨n, hn, label, hlabel, hmeans⟩ := hoperands slot (.label, t) hx
  refine ⟨label, n, hlabel, hn, fun hread => ?_, fun m hread => ?_⟩
  · rw [hread] at hmeans
    exact hmeans
  · rw [hread] at hmeans
    exact hmeans

/-- A jump over one instruction. -/
theorem labels_resolve_ahead :
    let source : Text := ".irep main nregs=2\n JMP end\n LOADNIL r1\nend:\n LOADNIL r1\n RETURN r1\n.end"
    ∃ p, parse source = .ok p ∧ p.Reached 0 ∧ ∃ inst, (p.block 0).code[0]? = some inst ∧
      inst.operands[0]? = some (.label, 2) := by
  intro source
  let d : Draft :=
    { name := "main", line := 1, registers := 2, labels := [("end", 2)], fixups := #[⟨2, 0, 0, "end"⟩]
      code := #[⟨.jump, 2, 0, 0⟩, ⟨.loadNil, 1, 0, 0⟩, ⟨.loadNil, 1, 0, 0⟩, ⟨.leave, 1, 0, 0⟩] }
  have hparse : parse source = .ok (.single d.alone) := parse_single (by decide +kernel) rfl (by decide)
  have hsection : (sections (tokenLines source))[0]? = some ⟨"main", [[.word "JMP", .word "end"],
      [.word "LOADNIL", .word "r1"], [.word "end:"], [.word "LOADNIL", .word "r1"],
        [.word "RETURN", .word "r1"]]⟩ := by decide
  obtain ⟨s, hs, -, hlines⟩ := labels_resolve hparse (.root _)
  obtain rfl := Option.some.inj (hs.symm.trans hsection)
  obtain ⟨inst, hinst, -, hoperands⟩ := hlines 0 [.word "JMP", .word "end"] (by decide)
  obtain ⟨label, n, hlabel, hn, hdefined, -⟩ := hoperands 0 (.word "end") (by decide)
  obtain rfl := Token.word.inj hlabel
  obtain ⟨pc, hpc, rfl⟩ := hdefined (by decide)
  have htwo : Defines [[.word "JMP", .word "end"], [.word "LOADNIL", .word "r1"], [.word "end:"],
      [.word "LOADNIL", .word "r1"], [.word "RETURN", .word "r1"]] "end" 2 :=
    ⟨[[.word "JMP", .word "end"], [.word "LOADNIL", .word "r1"]], [.word "end:"], _, rfl, by decide,
      by decide⟩
  obtain rfl := (hpc 2).1 htwo
  exact ⟨_, hparse, .root _, inst, hinst, hn⟩

/-- A label that looks like a number can be defined, but not be jumped to. -/
theorem label_missed_number :
    let source : Text := ".irep main nregs=2\n JMP 3\n3:\n LOADNIL r1\n LOADNIL r1\n RETURN r1\n.end"
    ∃ p s inst, parse source = .ok p ∧ p.Reached 0 ∧ (sections (tokenLines source))[0]? = some s ∧
      (instructionLines s.lines)[0]? = some [.word "JMP", .word "3"] ∧ Defines s.lines "3" 1 ∧
      (p.block 0).code[0]? = some inst ∧ inst.operands[0]? = some (.label, 3) := by
  intro source
  let d : Draft :=
    { name := "main", line := 1, registers := 2, labels := [("3", 1)]
      code := #[⟨.jump, 3, 0, 0⟩, ⟨.loadNil, 1, 0, 0⟩, ⟨.loadNil, 1, 0, 0⟩, ⟨.leave, 1, 0, 0⟩] }
  have hparse : parse source = .ok (.single d.alone) := parse_single (by decide +kernel) rfl (by decide)
  have hsection : (sections (tokenLines source))[0]? = some ⟨"main", [[.word "JMP", .word "3"], [.word "3:"],
      [.word "LOADNIL", .word "r1"], [.word "LOADNIL", .word "r1"], [.word "RETURN", .word "r1"]]⟩ := by
    decide
  refine ⟨_, _, ⟨.jump, 3, 0, 0⟩, hparse, .root _, hsection, by decide, ?_, rfl, rfl⟩
  exact ⟨[[.word "JMP", .word "3"]], [.word "3:"], _, rfl, by decide, by decide⟩

end ObjectMachine
