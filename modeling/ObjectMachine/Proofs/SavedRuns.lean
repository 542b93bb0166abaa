import Mathlib
import ObjectMachine.ProfileStore

/-! What saved profiles give back. The three tables are keyed, and a save replaces the rows that
have a key of its own and leaves all others in place. So the runs are listed with their last
saves, while the counts of a run are, for each method and for each class of exceptions, those of
the newest save that has it. They are the counts of the last save exactly when no save of the
run has a method or a class that the last one lacks. -/

namespace ObjectMachine

open ProfileStore

variable {α β κ : Type} [DecidableEq κ]

/-! ### Rows with keys -/

/-- Adding `b` to a table puts the row `row b` in the place of the one with its key. -/
structure Puts (key : α → κ) (row : β → α) (add : List α → β → List α) : Prop where
  find? : ∀ l b k, (add l b).find? (key · = k) =
    if key (row b) = k then some (row b) else l.find? (key · = k)
  nodup : ∀ l b, (l.map key).Nodup → ((add l b).map key).Nodup

omit [DecidableEq κ] in
/-- Keys stay different when one is added that is new or already there. -/
theorem nodup_addKey {k : κ} {ks : List κ} [Decidable (k ∈ ks)] (h : ks.Nodup) :
    (if k ∈ ks then ks else ks ++ [k]).Nodup := by
  split
  · exact h
  · next hnew =>
    rw [← List.concat_eq_append]
    exact h.concat hnew

section Upsert
variable {key : α → κ} {isSame : α → Bool} {row : α}

theorem find?_upsert (hs : ∀ r, isSame r = true ↔ key r = key row) (l : List α) (k : κ) :
    (upsert isSame row l).find? (key · = k) =
      if key row = k then some row else l.find? (key · = k) := by
  induction l with
  | nil => by_cases hk : key row = k <;> simp [upsert, hk]
  | cons r rest ih =>
    unfold upsert
    by_cases hr : key r = key row
    · rw [if_pos ((hs r).2 hr)]
      by_cases hk : key row = k <;> simp [hk, hr]
    · rw [if_neg (mt (hs r).1 hr)]
      by_cases hk : key r = k
      · have hne : key row ≠ k := fun h => hr (hk.trans h.symm)
        simp [hk, hne]
      · simp [hk, ih]

theorem keys_upsert (hs : ∀ r, isSame r = true ↔ key r = key row) (l : List α) :
    (upsert isSame row l).map key =
      if key row ∈ l.map key then l.map key else l.map key ++ [key row] := by
  induction l with
  | nil => simp [upsert]
  | cons r rest ih =>
    unfold upsert
    by_cases hr : key r = key row
    · simp [(hs r).2 hr, hr]
    · rw [if_neg (mt (hs r).1 hr), List.map_cons, ih]
      simp only [List.map_cons, List.mem_cons, Ne.symm hr, false_or]
      split <;> rfl

theorem nodup_upsert (hs : ∀ r, isSame r = true ↔ key r = key row) (l : List α)
    (hl : (l.map key).Nodup) : ((upsert isSame row l).map key).Nodup := by
  rw [keys_upsert hs]
  exact nodup_addKey hl

end Upsert

/-- What is relied on of a package for tables: a row is found under its key, where it replaces the one that
was there, all others are found as before, and no key comes twice. -/
structure ProfileStore.TablePackage.Laws (d : TablePackage) : Prop where
  find? : ∀ {α κ : Type} [DecidableEq κ] {key : α → κ} {isSame : α → Bool} {row : α},
    (∀ r, isSame r = true ↔ key r = key row) → ∀ (l : List α) (k : κ),
      (d.put isSame row l).find? (key · = k) =
        if key row = k then some row else l.find? (key · = k)
  nodup : ∀ {α κ : Type} [DecidableEq κ] {key : α → κ} {isSame : α → Bool} {row : α},
    (∀ r, isSame r = true ↔ key r = key row) → ∀ l : List α,
      (l.map key).Nodup → ((d.put isSame row l).map key).Nodup

theorem ProfileStore.tables_laws : tables.Laws where
  find? := find?_upsert
  nodup := nodup_upsert

namespace Puts

variable {key : α → κ} {row : β → α} {add : List α → β → List α}

/-- Rows with keys of their own all get into the table. -/
theorem foldl_find? (h : Puts key row add) {bs : List β} (hb : (bs.map fun b => key (row b)).Nodup)
    (l : List α) (k : κ) :
    (bs.foldl add l).find? (key · = k) =
      ((bs.find? fun b => key (row b) = k).map row).or (l.find? (key · = k)) := by
  induction bs generalizing l with
  | nil => simp
  | cons b rest ih =>
    obtain ⟨hfresh, hrest⟩ := List.nodup_cons.1 hb
    rw [List.foldl_cons, ih hrest, h.find?]
    by_cases hk : key (row b) = k
    · have hnone : (rest.find? fun b => key (row b) = k) = none := by
        refine List.find?_eq_none.2 fun c hc => ?_
        simp only [decide_eq_true_eq]
        exact fun hck => hfresh (List.mem_map.2 ⟨c, hc, hck.trans hk.symm⟩)
      simp [hnone, hk]
    · simp [hk]

theorem foldl_nodup (h : Puts key row add) (bs : List β) {l : List α} (hl : (l.map key).Nodup) :
    ((bs.foldl add l).map key).Nodup := by
  induction bs generalizing l with
  | nil => exact hl
  | cons b rest ih => exact ih (h.nodup l b hl)

end Puts

section Keyed
variable {key : α → κ} {l : List α}

theorem exists_find?_key {x : α} (hx : x ∈ l) : ∃ y, l.find? (key · = key x) = some y :=
  Option.isSome_iff_exists.1 (List.find?_isSome.2 ⟨x, hx, decide_eq_true rfl⟩)

/-- In a table without double keys a row is the one that is found under its key. -/
theorem find?_eq_some_key (hl : (l.map key).Nodup) {k : κ} {x : α} :
    l.find? (key · = k) = some x ↔ x ∈ l ∧ key x = k := by
  refine ⟨fun h => ⟨List.mem_of_find?_eq_some h, by simpa using List.find?_some h⟩, ?_⟩
  rintro ⟨hx, rfl⟩
  obtain ⟨y, hf⟩ : ∃ y, l.find? (key · = key x) = some y := exists_find?_key hx
  have hy : key y = key x := by simpa using List.find?_some hf
  rw [hf, List.inj_on_of_nodup_map hl (List.mem_of_find?_eq_some hf) hx hy]

theorem mem_iff_find? (hl : (l.map key).Nodup) {x : α} :
    x ∈ l ↔ l.find? (key · = key x) = some x :=
  ((find?_eq_some_key hl).trans (and_iff_left rfl)).symm

theorem filter_key (hl : (l.map key).Nodup) (k : κ) :
    l.filter (key · = k) = (l.find? (key · = k)).toList := by
  induction l with
  | nil => rfl
  | cons x rest ih =>
    obtain ⟨hfresh, hrest⟩ := List.nodup_cons.1 hl
    by_cases hk : key x = k
    · have hnone : rest.filter (key · = k) = [] := by
        refine List.filter_eq_nil_iff.2 fun y hy => ?_
        simp only [decide_eq_true_eq]
        exact fun hyk => hfresh (List.mem_map.2 ⟨y, hy, hyk.trans hk.symm⟩)
      simp [hk, hnone]
    · simpa [hk] using ih hrest

theorem find?_perm {l' : List α} (hl : (l.map key).Nodup) (hp : l'.Perm l) (k : κ) :
    l'.find? (key · = k) = l.find? (key · = k) := by
  refine Option.ext fun x => ?_
  rw [find?_eq_some_key ((hp.map key).nodup_iff.2 hl), find?_eq_some_key hl, hp.mem_iff]

end Keyed

/-! ### Profiles -/

/-- The names a call count is saved under. -/
def CallCount.names (c : CallCount) : Text × Text := (c.owner, c.method)

/-- The profiles that counting brings about. -/
inductive Profile.Recorded : Profile → Prop
  | new : Recorded {}
  | call {p : Profile} (h : Recorded p) (id : MethodId) (owner method : Text) (native : Bool) :
      Recorded (p.recordCall id owner method native)
  | raised {p : Profile} (h : Recorded p) (name : Text) : Recorded (p.recordRaise name)

theorem Profile.keys_countRaise (name : Text) (l : List (Text × Nat)) :
    (countRaise name l).map (·.1) =
      if name ∈ l.map (·.1) then l.map (·.1) else l.map (·.1) ++ [name] := by
  induction l with
  | nil => rfl
  | cons r rest ih =>
    obtain ⟨k, n⟩ := r
    unfold countRaise
    by_cases hk : k = name
    · simp [hk]
    · rw [if_neg hk, List.map_cons, ih]
      simp only [List.map_cons, List.mem_cons, Ne.symm hk, false_or]
      split <;> rfl

/-- Each class of exceptions is counted once. -/
theorem Profile.Recorded.raises_nodup {p : Profile} (h : p.Recorded) :
    (p.raises.map (·.1)).Nodup := by
  induction h with
  | new => exact List.nodup_nil
  | call _ _ _ _ _ ih => exact ih
  | raised _ name ih =>
    rw [recordRaise, keys_countRaise]
    exact nodup_addKey ih

theorem Profile.keys_mergeCount (c : CallCount) (l : List CallCount) :
    (mergeCount c l).map (·.key) =
      if c.key ∈ l.map (·.key) then l.map (·.key) else l.map (·.key) ++ [c.key] := by
  induction l with
  | nil => rfl
  | cons d rest ih =>
    unfold mergeCount
    by_cases hk : d.key = c.key
    · simp only [hk, if_true, List.map_cons, List.mem_cons, true_or]
      exact congrArg (· :: _) hk
    · rw [if_neg hk, List.map_cons, ih]
      simp only [List.map_cons, List.mem_cons, Ne.symm hk, false_or]
      split <;> rfl

def Profile.merged (cs : List CallCount) : List CallCount :=
  cs.foldl (fun merged c => mergeCount c merged) []

theorem Profile.merged_concat (cs : List CallCount) (c : CallCount) :
    merged (cs ++ [c]) = mergeCount c (merged cs) :=
  List.foldl_concat ..

theorem Profile.nodup_merged (cs : List CallCount) : ((merged cs).map (·.key)).Nodup := by
  induction cs using List.reverseRecOn with
  | nil => exact List.nodup_nil
  | append_singleton cs c ih =>
    rw [merged_concat, keys_mergeCount]
    exact nodup_addKey ih

theorem Profile.report_perm (p : Profile) : p.report.Perm (merged (p.calls.map (·.2))) :=
  List.mergeSort_perm _ _

/-- Each key is reported once. -/
theorem Profile.nodup_report_keys (p : Profile) : (p.report.map (·.key)).Nodup :=
  (p.report_perm.map _).nodup_iff.2 (nodup_merged _)

/-- Each method is reported once. -/
theorem Profile.report_nodup (p : Profile) : (p.report.map CallCount.names).Nodup := by
  -- the key of a count is made of its names
  have hnames : p.report.map (·.key) =
      (p.report.map CallCount.names).map fun n => n.1 ++ [Text.byte '#'] ++ n.2 := by
    rw [List.map_map]
    rfl
  exact (hnames ▸ p.nodup_report_keys).of_map _

/-! ### Saves in order -/

structure Save where
  id : Text
  script : Text
  savedAt : Nat
  profile : Profile

def Save.run (v : Save) : SavedRun :=
  ⟨v.id, v.script, v.profile.total, v.profile.totalRaises, v.savedAt⟩

def stored : List Save → ProfileStore
  | [] => {}
  | v :: past => (stored past).save v.id v.script v.savedAt v.profile

def lastSave? (saves : List Save) (id : Text) : Option Save := saves.find? (·.id = id)

/-- The row of the key in the newest save of the run that has one. -/
def newest? (rows : Profile → List β) (key : β → κ) (saves : List Save) (id : Text) (k : κ) :
    Option β :=
  saves.findSome? fun v => if v.id = id then (rows v.profile).find? (key · = k) else none

/-- No save of the run has a key that this one lacks. -/
def Covers (rows : Profile → List β) (key : β → κ) (saves : List Save) (v : Save) : Prop :=
  ∀ w ∈ saves, w.id = v.id → (rows w.profile).map key ⊆ (rows v.profile).map key

section Table
variable {rows : Profile → List β} {key : β → κ} {saves : List Save} {id : Text} {v : Save}

variable (rows key) in
/-- A save takes its keys from its own rows and the others from the saves before it. -/
theorem newest?_last (hv : lastSave? saves id = some v) : ∃ past, (∀ w ∈ past, w ∈ saves) ∧
    ∀ k, newest? rows key saves id k =
      ((rows v.profile).find? (key · = k)).or (newest? rows key past id k) := by
  obtain ⟨hid, later, past, rfl, hlater⟩ := List.find?_eq_some_iff_append.1 hv
  refine ⟨past, fun w hw => by simp [hw], fun k => ?_⟩
  have hnone : newest? rows key later id k = none :=
    List.findSome?_eq_none_iff.2 fun w hw => if_neg (by simpa using hlater w hw)
  rw [newest?, List.findSome?_append, List.findSome?_cons, if_pos (by simpa using hid)]
  rw [newest?] at hnone
  rw [hnone, Option.none_or]
  cases (rows v.profile).find? (key · = k) <;> rfl

theorem newest?_isSome {w : Save} (hw : w ∈ saves) (hid : w.id = id) {k : κ}
    (hk : k ∈ (rows w.profile).map key) : (newest? rows key saves id k).isSome := by
  obtain ⟨b, hb, rfl⟩ := List.mem_map.1 hk
  refine List.findSome?_isSome_iff.2 ⟨w, hw, ?_⟩
  rw [if_pos hid]
  exact List.find?_isSome.2 ⟨b, hb, by simp⟩

theorem newest?_key {k : κ} {b : β} (hb : newest? rows key saves id k = some b) : key b = k := by
  obtain ⟨w, _, hw⟩ := List.exists_of_findSome?_eq_some hb
  split at hw
  · simpa using List.find?_some hw
  · cases hw

/-- The newest rows are those of the last save just when it covers the others. -/
theorem newest?_eq_last_iff (hv : lastSave? saves id = some v)
    (hn : ((rows v.profile).map key).Nodup) :
    (∀ b, newest? rows key saves id (key b) = some b ↔ b ∈ rows v.profile) ↔
      Covers rows key saves v := by
  have hvid : v.id = id := by simpa using List.find?_some hv
  constructor
  · intro h w hw hid k hk
    obtain ⟨b, hb⟩ := Option.isSome_iff_exists.1 (newest?_isSome hw (hid.trans hvid) hk)
    have hkey := newest?_key hb
    subst hkey
    exact List.mem_map_of_mem ((h b).1 hb)
  · intro h b
    obtain ⟨past, hpast, hlast⟩ := newest?_last rows key hv
    rw [hlast, mem_iff_find? hn]
    cases hf : (rows v.profile).find? (key · = key b) with
    | some c => rfl
    | none =>
      have hout : key b ∉ (rows v.profile).map key := fun hmem => by
        obtain ⟨c, hc, hcb⟩ := List.mem_map.1 hmem
        simpa [hcb] using List.find?_eq_none.1 hf c hc
      refine ⟨fun hb => absurd ?_ hout, nofun⟩
      obtain ⟨w, hw, hwb⟩ := List.exists_of_findSome?_eq_some (Option.none_or.symm.trans hb)
      split at hwb
      · next hid =>
        exact h w (hpast w hw) (hid.trans hvid.symm) (List.mem_map_of_mem (List.mem_of_find?_eq_some hwb))
      · cases hwb

end Table

/-! ### Tables of counts -/

def table (add : Text → List (Text × β) → β → List (Text × β)) (rows : Profile → List β) :
    List Save → List (Text × β)
  | [] => []
  | v :: past => (rows v.profile).foldl (add v.id) (table add rows past)

def rowsOf (id : Text) (l : List (Text × β)) : List β :=
  l.filterMap fun (run, b) => if run == id then some b else none

theorem mem_rowsOf {id : Text} {l : List (Text × β)} {b : β} : b ∈ rowsOf id l ↔ (id, b) ∈ l := by
  simp only [rowsOf, List.mem_filterMap, Prod.exists, beq_iff_eq, Option.ite_none_right_eq_some,
    Option.some.injEq]
  exact ⟨fun ⟨_, _, hm, hr, hb⟩ => hr ▸ hb ▸ hm, fun hm => ⟨id, b, hm, rfl, rfl⟩⟩

section Table
variable {add : Text → List (Text × β) → β → List (Text × β)} {rows : Profile → List β}
  {key : β → κ} {saves : List Save}

theorem table_find? (hadd : ∀ id, Puts (fun r => (r.1, key r.2)) (fun b => (id, b)) (add id))
    (hrows : ∀ v ∈ saves, ((rows v.profile).map key).Nodup) (id : Text) (k : κ) :
    (table add rows saves).find? (fun r => (r.1, key r.2) = (id, k)) =
      (newest? rows key saves id k).map (id, ·) := by
  induction saves with
  | nil => rfl
  | cons v past ih =>
    have hv := hrows v List.mem_cons_self
    have hput : ((rows v.profile).map fun b => (v.id, key b)).Nodup := by
      rw [show (fun b => (v.id, key b)) = (Prod.mk v.id) ∘ key from rfl, ← List.map_map]
      exact hv.map (Prod.mk_right_injective v.id)
    rw [table, (hadd v.id).foldl_find? hput, ih fun w hw => hrows w (List.mem_cons_of_mem _ hw),
      newest?, newest?, List.findSome?_cons]
    by_cases hid : v.id = id
    · subst hid
      simp only [Prod.mk.injEq, true_and, if_true]
      cases (rows v.profile).find? (key · = k) <;> rfl
    · have hnone : (rows v.profile).find? (fun b => (v.id, key b) = (id, k)) = none :=
        List.find?_eq_none.2 fun b _ => by simp [hid]
      rw [hnone, if_neg hid]
      rfl

variable (rows saves) in
theorem table_nodup (hadd : ∀ id, Puts (fun r => (r.1, key r.2)) (fun b => (id, b)) (add id)) :
    ((table add rows saves).map fun r => (r.1, key r.2)).Nodup := by
  induction saves with
  | nil => exact List.nodup_nil
  | cons v past ih => exact (hadd v.id).foldl_nodup _ ih

/-- The rows that a table has for a run are the newest of each key. -/
theorem mem_table (hadd : ∀ id, Puts (fun r => (r.1, key r.2)) (fun b => (id, b)) (add id))
    (hrows : ∀ v ∈ saves, ((rows v.profile).map key).Nodup) {id : Text} {b : β} :
    b ∈ rowsOf id (table add rows saves) ↔ newest? rows key saves id (key b) = some b := by
  rw [mem_rowsOf, mem_iff_find? (table_nodup rows saves hadd), table_find? hadd hrows]
  simp

theorem rowsOf_table_nodup
    (hadd : ∀ id, Puts (fun r => (r.1, key r.2)) (fun b => (id, b)) (add id)) (id : Text) :
    (rowsOf id (table add rows saves)).Nodup := by
  refine (table_nodup rows saves hadd).of_map.filterMap ?_
  rintro ⟨run, b⟩ ⟨run', b'⟩ c hb hb'
  simp only [Option.mem_def, Option.ite_none_right_eq_some, beq_iff_eq, Option.some.injEq] at hb hb'
  rw [hb.1, hb.2, hb'.1, hb'.2]

/-- A run has the rows of its last save just when that one covers the others. -/
theorem table_perm_iff (hadd : ∀ id, Puts (fun r => (r.1, key r.2)) (fun b => (id, b)) (add id))
    (hrows : ∀ v ∈ saves, ((rows v.profile).map key).Nodup) {id : Text} {v : Save}
    (hv : lastSave? saves id = some v) :
    (rowsOf id (table add rows saves)).Perm (rows v.profile) ↔ Covers rows key saves v := by
  have hn := hrows v (List.mem_of_find?_eq_some hv)
  rw [List.perm_ext_iff_of_nodup (rowsOf_table_nodup hadd id) hn.of_map,
    ← newest?_eq_last_iff hv hn]
  exact forall_congr' fun b => iff_congr (mem_table hadd hrows) Iff.rfl

end Table

/-! ### The store -/

theorem saveCall_puts (id : Text) :
    Puts (fun r : Text × CallCount => (r.1, r.2.names)) (fun c => (id, c)) (saveCall id) where
  find? l c := tables_laws.find? (by simp [CallCount.names, and_assoc]) l
  nodup l c := tables_laws.nodup (by simp [CallCount.names, and_assoc]) l

theorem saveRaise_puts (id : Text) :
    Puts (fun r : Text × Text × Nat => (r.1, r.2.1)) (fun c => (id, c)) (saveRaise id) where
  find? l c := tables_laws.find? (by simp) l
  nodup l c := tables_laws.nodup (by simp) l

theorem saveRun_puts :
    Puts SavedRun.id id fun (l : List SavedRun) r => tables.put (·.id == r.id) r l where
  find? l r := tables_laws.find? (by simp) l
  nodup l r := tables_laws.nodup (by simp) l

theorem stored_calls (saves : List Save) :
    (stored saves).calls = table saveCall Profile.report saves := by
  induction saves with
  | nil => rfl
  | cons v past ih => exact congrArg (v.profile.report.foldl (saveCall v.id)) ih

theorem stored_raises (saves : List Save) :
    (stored saves).raises = table saveRaise Profile.raises saves := by
  induction saves with
  | nil => rfl
  | cons v past ih => exact congrArg (v.profile.raises.foldl (saveRaise v.id)) ih

theorem stored_run? (saves : List Save) (id : Text) :
    (stored saves).runs.find? (·.id = id) = (lastSave? saves id).map Save.run := by
  induction saves with
  | nil => rfl
  | cons v past ih =>
    refine (saveRun_puts.find? (stored past).runs v.run id).trans ?_
    rw [ih, lastSave?, lastSave?, List.find?_cons]
    by_cases hid : v.id = id <;> simp [hid, Save.run]

theorem stored_runs_nodup (saves : List Save) : ((stored saves).runs.map SavedRun.id).Nodup := by
  induction saves with
  | nil => exact List.nodup_nil
  | cons v past ih => exact saveRun_puts.nodup _ v.run ih

/-- The history has one row of each run, that of its last save. -/
theorem stored_history (saves : List Save) (id : Text) :
    (stored saves).history.filter (·.id = id) = ((lastSave? saves id).map Save.run).toList := by
  have hperm : (stored saves).history.Perm (stored saves).runs := List.mergeSort_perm _ _
  rw [filter_key ((hperm.map _).nodup_iff.2 (stored_runs_nodup saves)),
    find?_perm (stored_runs_nodup saves) hperm, stored_run?]

theorem load?_stored (saves : List Save) (id : Text) :
    (stored saves).load? id = (lastSave? saves id).map fun _ =>
      (rowsOf id (stored saves).calls).mergeSort ProfileStore.ranksBefore := by
  have hany : (stored saves).runs.any (·.id == id) = (lastSave? saves id).isSome := by
    rw [← Option.isSome_map, ← stored_run?, List.isSome_find?]
    exact congrArg _ (funext fun r => beq_eq_decide _ _)
  unfold load?
  rw [hany]
  cases lastSave? saves id <;> rfl

/-- What a store gives back after any saves. It knows the runs that were saved, and lists each
once, as its last save has it. For each method the newest save of the run that counted its calls
decides, and likewise for each class of exceptions. So the last save is what is loaded just when
it has all the methods, or all the classes, that the saves of the run before it had. -/
theorem saves_kept (saves : List Save) (hrec : ∀ v ∈ saves, v.profile.Recorded) (id : Text) :
    ((stored saves).load? id = none ↔ ∀ v ∈ saves, v.id ≠ id) ∧
    (stored saves).history.filter (·.id = id) = ((lastSave? saves id).map Save.run).toList ∧
    ∀ v, lastSave? saves id = some v → ∃ counts, (stored saves).load? id = some counts ∧
      (∀ c, c ∈ counts ↔ newest? Profile.report CallCount.names saves id c.names = some c) ∧
      (∀ r, r ∈ (stored saves).raisesOf id ↔
        newest? Profile.raises Prod.fst saves id r.1 = some r) ∧
      (counts.Perm v.profile.report ↔ Covers Profile.report CallCount.names saves v) ∧
      (((stored saves).raisesOf id).Perm v.profile.raises ↔
        Covers Profile.raises Prod.fst saves v) := by
  have hcalls : ∀ v ∈ saves, (v.profile.report.map CallCount.names).Nodup :=
    fun v _ => v.profile.report_nodup
  have hraises : ∀ v ∈ saves, (v.profile.raises.map Prod.fst).Nodup :=
    fun v hv => (hrec v hv).raises_nodup
  refine ⟨?_, stored_history saves id, fun v hv => ?_⟩
  · rw [load?_stored, Option.map_eq_none_iff, lastSave?, List.find?_eq_none]
    simp only [decide_eq_true_eq, ne_eq]
  · rw [load?_stored, hv]
    have hsorted : ((rowsOf id (stored saves).calls).mergeSort ProfileStore.ranksBefore).Perm
        (rowsOf id (table saveCall Profile.report saves)) := by
      rw [← stored_calls]
      exact List.mergeSort_perm _ _
    have hrow : (stored saves).raisesOf id = rowsOf id (table saveRaise Profile.raises saves) := by
      rw [← stored_raises]
      rfl
    refine ⟨_, rfl, fun c => ?_, fun r => ?_, ?_, ?_⟩
    · exact hsorted.mem_iff.trans (mem_table saveCall_puts hcalls)
    · rw [hrow]
      exact mem_table saveRaise_puts hraises
    · rw [← table_perm_iff saveCall_puts hcalls hv]
      exact ⟨hsorted.symm.trans, hsorted.trans⟩
    · rw [hrow]
      exact table_perm_iff saveRaise_puts hraises hv

/-- The first of these saves counted a call and a raise, the second was made after a reset. -/
def resetSaves : List Save :=
  [⟨"1", "b", 2, {}⟩,
   ⟨"1", "a", 1, (Profile.recordCall {} 0 "Object" "puts" true).recordRaise "TypeError"⟩]

theorem resetSaves_recorded : ∀ v ∈ resetSaves, v.profile.Recorded := by
  intro v hv
  simp only [resetSaves, List.mem_cons, List.not_mem_nil, or_false] at hv
  rcases hv with rfl | rfl
  · exact .new
  · exact .raised (.call .new _ _ _ _) _

/-- The old counts are still there. -/
theorem saves_kept_reset :
    ((stored resetSaves).load? "1" = none ↔ ∀ v ∈ resetSaves, v.id ≠ "1") ∧
    ∃ counts, (stored resetSaves).load? "1" = some counts ∧
      ⟨"Object", "puts", true, 1⟩ ∈ counts ∧
      (("TypeError" : Text), 1) ∈ (stored resetSaves).raisesOf "1" := by
  obtain ⟨hnone, -, hall⟩ := saves_kept resetSaves resetSaves_recorded "1"
  obtain ⟨counts, hload, hcounts, hraises, -⟩ := hall _ rfl
  exact ⟨hnone, counts, hload, (hcounts _).2 (by decide +kernel), (hraises _).2 (by decide +kernel)⟩

/-- Saving again does not drop what the last profile lacks. -/
theorem loads_older_counts :
    ¬ ∀ (saves : List Save) (id : Text), (∀ v ∈ saves, v.profile.Recorded) →
      ∀ v, lastSave? saves id = some v → ∃ counts, (stored saves).load? id = some counts ∧
        (∀ c, c ∈ counts ↔ c ∈ v.profile.report) ∧
        ∀ r, r ∈ (stored saves).raisesOf id ↔ r ∈ v.profile.raises := by
  intro h
  obtain ⟨_, -, -, hraises⟩ := h resetSaves "1" resetSaves_recorded _ rfl
  exact absurd ((hraises ("TypeError", 1)).1 (by decide)) (by decide)

end ObjectMachine
