import ObjectMachine.Proofs.Operands

/-! The names that a listing gives to blocks. No two blocks get the same, each can be written as a
word, and giving names to blocks that have such names already changes nothing. -/

namespace ObjectMachine.Listing

open Text (byte)

variable {p : Program} {taken : List Text} {order : List Nat} {n : Nat}

/-! ### Made names -/

theorem madeName_injective : Function.Injective madeName := fun _ _ h =>
  Text.ofNat_injective (List.append_cancel_left h)

/-- A made name is taken only when all those before it are that the search went over. -/
theorem freeName_spec (taken : List Text) (tries n : Nat) : ∃ k,
    freeName taken tries n = (madeName k, k + 1) ∧
      (madeName k ∈ taken → ∀ j < tries, madeName (n + j) ∈ taken) := by
  induction tries generalizing n with
  | zero => exact ⟨n, rfl, fun _ j hj => absurd hj (Nat.not_lt_zero j)⟩
  | succ tries ih =>
    rw [freeName]
    split_ifs with hn
    · obtain ⟨k, heq, hk⟩ := ih (n + 1)
      refine ⟨k, heq, fun htaken j hj => ?_⟩
      rcases j with _ | j
      · exact hn
      · have hmem := hk htaken j (by omega)
        rwa [Nat.add_assoc, Nat.add_comm 1 j] at hmem
    · exact ⟨n, rfl, fun htaken => absurd htaken hn⟩

/-- With one more try than there are taken names, one of them finds a free name. -/
theorem freeName_not_mem (taken : List Text) (n : Nat) :
    (freeName taken (taken.length + 1) n).1 ∉ taken := by
  obtain ⟨k, heq, hk⟩ := freeName_spec taken (taken.length + 1) n
  rw [heq]
  intro htaken
  have hnodup : ((List.range (taken.length + 1)).map fun j => madeName (n + j)).Nodup :=
    List.nodup_range.map fun i j hij => Nat.add_left_cancel (madeName_injective hij)
  have hsubset : (List.range (taken.length + 1)).map (fun j => madeName (n + j)) ⊆ taken := by
    intro t ht
    obtain ⟨j, hj, rfl⟩ := List.mem_map.1 ht
    exact hk htaken j (List.mem_range.1 hj)
  have hlength := (List.subperm_of_subset hnodup hsubset).length_le
  rw [List.length_map, List.length_range] at hlength
  omega

/-- A name that can stand in a listing as it is. -/
structure IsName (t : Text) : Prop where
  word : t.IsWord
  usable : isUsable t

theorem isName_madeName (n : Nat) : IsName (madeName n) := by
  have hlead : ∀ b ∈ Text.ofString "rep", Text.isBare b ∧ b ∉ Text.ofString " \t@" := by decide +kernel
  have hmarks : ∀ b ∈ Text.ofString " \t@", Text.isDigit b = false := by decide +kernel
  have hbytes : ∀ b ∈ madeName n, Text.isBare b ∧ b ∉ Text.ofString " \t@" := by
    refine List.forall_mem_append.2 ⟨hlead, fun b hb => ?_⟩
    have hdigit := Text.isDigit_ofNat n b hb
    refine ⟨Text.isBare_of_isNumeric (by simp [Double.isNumeric, hdigit]), fun hmark => ?_⟩
    rw [hmarks b hmark] at hdigit
    cases hdigit
  have hne : madeName n ≠ [] := by simp [madeName, Text.ofNat_ne_nil]
  refine ⟨.of_bare (fun b hb => (hbytes b hb).1) hne, ?_⟩
  have hnone : (madeName n).containsAny " \t@" = false := by
    refine Bool.eq_false_iff.2 fun hany => ?_
    obtain ⟨b, hb, hmark⟩ := List.any_eq_true.1 hany
    exact (hbytes b hb).2 (by simpa using hmark)
  rw [isUsable, hnone]
  simpa using hne

theorem isName_freeName (taken : List Text) (tries n : Nat) : IsName (freeName taken tries n).1 := by
  obtain ⟨k, heq, -⟩ := freeName_spec taken tries n
  rw [heq]
  exact isName_madeName k

/-! ### Assigned names -/

/-- Blocks whose own names are words get names that can stand in the listing. -/
theorem isName_of_mem_assignNames {x : Nat × Text} (h : ∀ i ∈ order, (p.block i).name.IsWord)
    (hx : x ∈ assignNames p taken n order) : IsName x.2 := by
  induction order generalizing taken n with
  | nil => cases hx
  | cons i rest ih =>
    obtain ⟨hi, hrest⟩ := List.forall_mem_cons.1 h
    rw [assignNames] at hx
    dsimp only at hx
    split_ifs at hx with hown
    · rw [Bool.and_eq_true] at hown
      rcases List.mem_cons.1 hx with rfl | hx
      · exact ⟨hi, hown.1⟩
      · exact ih hrest hx
    · rcases List.mem_cons.1 hx with rfl | hx
      · exact isName_freeName taken _ n
      · exact ih hrest hx

/-- No name is given twice, and none that is taken. -/
theorem nodup_assignNames (p : Program) (taken : List Text) (n : Nat) (order : List Nat) :
    ((assignNames p taken n order).map (·.2)).Nodup ∧
      ∀ t ∈ (assignNames p taken n order).map (·.2), t ∉ taken := by
  induction order generalizing taken n with
  | nil => simp [assignNames]
  | cons i rest ih =>
    have hcons : ∀ (name : Text) (n : Nat), name ∉ taken →
        (((i, name) :: assignNames p (name :: taken) n rest).map (·.2)).Nodup ∧
          ∀ t ∈ ((i, name) :: assignNames p (name :: taken) n rest).map (·.2), t ∉ taken := by
      intro name n hname
      obtain ⟨hnodup, hfree⟩ := ih (name :: taken) n
      rw [List.map_cons, List.nodup_cons]
      refine ⟨⟨fun hmem => hfree name hmem List.mem_cons_self, hnodup⟩, ?_⟩
      exact List.forall_mem_cons.2 ⟨hname, fun t ht hmem => hfree t ht (List.mem_cons_of_mem name hmem)⟩
    rw [assignNames]
    dsimp only
    split_ifs with hown
    · refine hcons _ n ?_
      rw [Bool.and_eq_true] at hown
      simpa using hown.2
    · exact hcons _ _ (freeName_not_mem taken n)

/-- Blocks that have usable names of their own keep them. -/
theorem assignNames_own (husable : ∀ i ∈ order, isUsable (p.block i).name)
    (hnodup : (order.map fun i => (p.block i).name).Nodup) (hfree : ∀ i ∈ order, (p.block i).name ∉ taken) :
    assignNames p taken n order = order.map fun i => (i, (p.block i).name) := by
  induction order generalizing taken with
  | nil => rfl
  | cons i rest ih =>
    obtain ⟨hi, husable⟩ := List.forall_mem_cons.1 husable
    obtain ⟨hnot, hfree⟩ := List.forall_mem_cons.1 hfree
    rw [List.map_cons, List.nodup_cons] at hnodup
    rw [assignNames]
    dsimp only
    rw [if_pos (by simp [hi, hnot]), List.map_cons, ih husable hnodup.2 fun j hj hmem => ?_]
    rcases List.mem_cons.1 hmem with heq | hmem
    · exact hnodup.1 (heq ▸ List.mem_map_of_mem hj)
    · exact hfree j hj hmem

def nameOf (names : List (Nat × Text)) (i : Nat) : Text := (names.lookup i).getD []

end ObjectMachine.Listing
