import Mathlib.Data.List.Forall2
import ObjectMachine.Machine.SharedSymbols
import ObjectMachine.Proofs.Footprints

/-! Names shared by several machines. Each machine numbers names on its own and a block remembers
the numbers of one machine. What a block remembers is always what the table of that machine says,
as numbers never change. So a machine may ask a block at any time, however many others asked it
before, and it is answered as if nothing had been remembered. -/

namespace ObjectMachine

/-! ### Tables -/

namespace SymbolTable

variable {t : SymbolTable} {name other : Text} {s : Symbol} {names : List Text} {ids : List Symbol}

/-- Numbers by name and names by number say the same. -/
def Exact (t : SymbolTable) : Prop :=
  ∀ name s, t.lookup? name = some s ↔ t.names[s]? = some name

theorem exact_empty : ({} : SymbolTable).Exact := fun _ _ => by simp [lookup?]

namespace Exact

theorem inverse (h : t.Exact) : t.Inverse := fun name s => (h name s).1

theorem name_eq (h : t.Exact) (hs : t.lookup? name = some s) : t.name s = name :=
  h.inverse.name_eq hs

/-- The numbers that are given are those below the size. -/
theorem dense (h : t.Exact) : (∃ name, t.lookup? name = some s) ↔ s < t.size := by
  refine (exists_congr fun name => h name s).trans ⟨fun ⟨name, hs⟩ => ?_, fun hlt => ?_⟩
  · exact (Array.getElem?_eq_some_iff.1 hs).1
  · exact ⟨_, Array.getElem?_eq_getElem hlt⟩

theorem intern (h : t.Exact) (name : Text) : (t.intern name).1.Exact := by
  intro other s
  refine ⟨h.inverse.intern name other s, fun hs => ?_⟩
  cases hold : t.lookup? name with
  | some id =>
    rw [SymbolTable.intern, hold] at hs ⊢
    exact (h other s).2 hs
  | none =>
    rw [Machine.intern_of_lookup? hold, Array.getElem?_push] at hs
    split at hs
    · next heq =>
      cases hs
      rw [lookup?_intern_self, Machine.intern_of_lookup? hold, heq]
    · exact lookup?_intern_of_some ((h other s).2 hs)

theorem internAll (h : t.Exact) (names : List Text) : (t.internAll names).1.Exact := by
  induction names generalizing t with
  | nil => exact h
  | cons name names ih => exact ih (h.intern name)

/-- Up to 2 ^ 32 names, numbers of 32 bits still tell them apart. -/
theorem ofNat_inj (h : t.Exact) (hsize : t.size ≤ 2 ^ 32) {s' : Symbol}
    (hs : t.lookup? name = some s) (hs' : t.lookup? other = some s')
    (heq : UInt32.ofNat s = UInt32.ofNat s') : name = other := by
  have hlt : s < 2 ^ 32 := Nat.lt_of_lt_of_le (h.dense.1 ⟨name, hs⟩) hsize
  have hlt' : s' < 2 ^ 32 := Nat.lt_of_lt_of_le (h.dense.1 ⟨other, hs'⟩) hsize
  have hnum : s = s' := by
    have hnat := congrArg UInt32.toNat heq
    rwa [UInt32.toNat_ofNat_of_lt' hlt, UInt32.toNat_ofNat_of_lt' hlt'] at hnat
  subst hnum
  exact h.inverse.inj hs hs'

end Exact

def Numbers (t : SymbolTable) : List Text → List Symbol → Prop :=
  List.Forall₂ fun name s => t.lookup? name = some s

theorem numbers_internAll (t : SymbolTable) (names : List Text) :
    (t.internAll names).1.Numbers names (t.internAll names).2 := by
  induction names generalizing t with
  | nil => exact .nil
  | cons name names ih =>
    have hself : ((t.intern name).1.internAll names).1.lookup? name = some (t.intern name).2 :=
      lookup?_internAll_of_some (lookup?_intern_self t name)
    exact .cons hself (ih _)

/-- Names that have numbers keep them, and nothing is added. -/
theorem internAll_of_numbers (h : t.Numbers names ids) : t.internAll names = (t, ids) := by
  induction h with
  | nil => rfl
  | cons hs _ ih => simp only [internAll, SymbolTable.intern, hs, ih]

end SymbolTable

theorem rel_entryAt? {α β : Type} {R : α → β → Prop} {xs : List α} {ys : List β}
    (h : List.Forall₂ R xs ys) (i : Int64) :
    Option.Rel R (entryAt? xs.toArray i) (entryAt? ys.toArray i) := by
  rw [entryAt?, entryAt?]
  split
  · exact .none
  · rw [List.getElem?_toArray, List.getElem?_toArray]
    generalize i.toInt.toNat = n
    induction h generalizing n with
    | nil => exact .none
    | cons hab _ ih =>
      cases n with
      | zero => exact .some hab
      | succ n => exact ih n

/-- The code asks for all its names each time. -/
theorem Machine.codeSymbol_eq {m : Machine} {code : Code} (i : Int64)
    (hcode : m.context.code = some code) :
    codeSymbol i m = present (entryAt? (m.symbols.internAll code.block.symbols.toList).2.toArray i)
      { m with symbols := (m.symbols.internAll code.block.symbols.toList).1 } := by
  simp only [codeSymbol, currentCode, bind, EStateM.bind, get, getThe, MonadStateOf.get,
    EStateM.get, hcode, present, pure, EStateM.pure, modifyGet, MonadStateOf.modifyGet,
    EStateM.modifyGet]

/-! ### Blocks -/

namespace SharedSymbols

variable {V B : Type} {names : B → Array Text} {w w₁ w' : SharedSymbols V B}

/-- What blocks remember is what the tables say. -/
structure Coherent (names : B → Array Text) (w : SharedSymbols V B) : Prop where
  tables : ∀ v, (w.tables v).Exact
  caches : ∀ b c, w.caches b = some c →
    (w.tables c.owner).Numbers (names b).toList c.ids.toList

/-- No number is changed. -/
def Grows (w w' : SharedSymbols V B) : Prop :=
  ∀ v name s, (w.tables v).lookup? name = some s → (w'.tables v).lookup? name = some s

theorem Grows.refl (w : SharedSymbols V B) : w.Grows w := fun _ _ _ h => h

theorem Grows.trans (h : w.Grows w₁) (h' : w₁.Grows w') : w.Grows w' :=
  fun v name s hs => h' v name s (h v name s hs)

theorem coherent_empty : ({} : SharedSymbols V B).Coherent names where
  tables _ := SymbolTable.exact_empty
  caches b c h := by cases h

variable [DecidableEq V]

/-- A table with more names takes the place of the one of a machine. -/
theorem grows_update {v : V} {t : SymbolTable} {caches : B → Option (SymbolCache V)}
    (h : ∀ name s, (w.tables v).lookup? name = some s → t.lookup? name = some s) :
    w.Grows { tables := Function.update w.tables v t, caches } := by
  intro u name s hs
  by_cases hu : u = v
  · subst hu
    simp only [Function.update_self]
    exact h name s hs
  · simpa only [Function.update_of_ne hu] using hs

theorem exact_update {v : V} {t : SymbolTable} (h : ∀ u, (w.tables u).Exact) (ht : t.Exact) (u : V) :
    (Function.update w.tables v t u).Exact := by
  by_cases hu : u = v
  · subst hu
    rwa [Function.update_self]
  · rw [Function.update_of_ne hu]
    exact h u

omit [DecidableEq V] in
theorem Grows.numbers (h : w.Grows w') {v : V} {xs : List Text} {ids : List Symbol}
    (hx : (w.tables v).Numbers xs ids) : (w'.tables v).Numbers xs ids :=
  hx.imp fun name s => h v name s

theorem intern_grows (w : SharedSymbols V B) (v : V) (name : Text) : w.Grows (w.intern v name).1 :=
  grows_update fun _ _ => SymbolTable.lookup?_intern_of_some

theorem Coherent.intern (h : w.Coherent names) (v : V) (name : Text) :
    (w.intern v name).1.Coherent names where
  tables := exact_update h.tables ((h.tables v).intern name)
  caches b c hc := (intern_grows w v name).numbers (h.caches b c hc)

variable [DecidableEq B]

theorem prepare_grows (names : B → Array Text) (w : SharedSymbols V B) (v : V) (b : B) :
    w.Grows (w.prepare names v b) := by
  rw [prepare]
  split
  · exact .refl w
  · exact grows_update fun _ _ => SymbolTable.lookup?_internAll_of_some

/-- A block that got ready remembers the numbers of this machine. -/
theorem prepare_cache (names : B → Array Text) (w : SharedSymbols V B) (v : V) (b : B) :
    ∃ ids, (w.prepare names v b).caches b = some { owner := v, ids } := by
  rw [prepare]
  split
  · next h =>
    obtain ⟨c, hc, rfl⟩ := Option.map_eq_some_iff.1 h
    exact ⟨c.ids, hc⟩
  · exact ⟨_, Function.update_self ..⟩

theorem Coherent.prepare (h : w.Coherent names) (v : V) (b : B) :
    (w.prepare names v b).Coherent names := by
  have hgrows := prepare_grows names w v b
  rw [SharedSymbols.prepare] at hgrows ⊢
  split
  · exact h
  · next hother =>
    rw [if_neg hother] at hgrows
    refine ⟨exact_update h.tables ((h.tables v).internAll _), fun b' c hc => ?_⟩
    by_cases hb : b' = b
    · subst hb
      cases (Function.update_self ..).symm.trans hc
      simp only [Function.update_self]
      exact SymbolTable.numbers_internAll ..
    · exact hgrows.numbers (h.caches b' c ((Function.update_of_ne hb ..).symm.trans hc))

/-- One request changes no number and leaves blocks and tables in agreement. -/
theorem serve_coherent (h : w.Coherent names) (r : Request V B) :
    (w.serve names r).1.Coherent names ∧ w.Grows (w.serve names r).1 := by
  cases r with
  | intern v name => exact ⟨h.intern v name, intern_grows w v name⟩
  | symbol v b i => exact ⟨h.prepare v b, prepare_grows names w v b⟩

theorem run_coherent (h : w.Coherent names) (rs : List (Request V B)) :
    (w.run names rs).Coherent names ∧ w.Grows (w.run names rs) := by
  induction rs generalizing w with
  | nil => exact ⟨h, .refl w⟩
  | cons r rs ih =>
    obtain ⟨hserve, hgrows⟩ := serve_coherent h r
    exact ⟨(ih hserve).1, hgrows.trans (ih hserve).2⟩

/-- A block answers with the number of the name in the slot. -/
theorem Coherent.symbol? (h : w.Coherent names) (v : V) (b : B) (i : Int64) :
    Option.Rel (fun name s => ((w.prepare names v b).tables v).lookup? name = some s)
      (entryAt? (names b) i) (w.symbol? names v b i).2 := by
  obtain ⟨ids, hids⟩ := prepare_cache names w v b
  simp only [SharedSymbols.symbol?, hids, Option.bind_some]
  exact rel_entryAt? ((h.prepare v b).caches b _ hids) i

/-- What is remembered makes no difference: the names of a block could be interned each time. -/
theorem Coherent.prepare_eq (h : w.Coherent names) (v : V) (b : B) :
    ∃ ids, (w.prepare names v b).caches b = some { owner := v, ids } ∧
      (w.tables v).internAll (names b).toList = ((w.prepare names v b).tables v, ids.toList) := by
  rw [SharedSymbols.prepare]
  split
  · next hown =>
    obtain ⟨c, hc, rfl⟩ := Option.map_eq_some_iff.1 hown
    exact ⟨c.ids, hc, SymbolTable.internAll_of_numbers (h.caches b c hc)⟩
  · refine ⟨_, Function.update_self .., ?_⟩
    simp only [Function.update_self]

theorem Coherent.codeSymbol_eq (h : w.Coherent names) (v : V) (b : B) (i : Int64) {m : Machine}
    {code : Code} (hm : m.symbols = w.tables v) (hcode : m.context.code = some code)
    (hnames : code.block.symbols = names b) :
    Machine.codeSymbol i m = Machine.present (w.symbol? names v b i).2
      { m with symbols := (w.symbol? names v b i).1.tables v } := by
  obtain ⟨ids, hids, hall⟩ := h.prepare_eq v b
  rw [Machine.codeSymbol_eq i hcode, hnames, hm, hall]
  simp only [SharedSymbols.symbol?, hids, Option.bind_some]

/-- What was answered once is answered from then on. -/
theorem Coherent.serve_again (h : w.Coherent names) (r : Request V B) (rs : List (Request V B)) :
    (((w.serve names r).1.run names rs).serve names r).2 = (w.serve names r).2 := by
  obtain ⟨hserve, -⟩ := serve_coherent h r
  obtain ⟨hlater, hgrows⟩ := run_coherent hserve rs
  cases r with
  | intern v name =>
    have hs : ((w.intern v name).1.tables v).lookup? name = some (w.intern v name).2 := by
      simp only [SharedSymbols.intern, Function.update_self]
      exact SymbolTable.lookup?_intern_self ..
    have hlate := hgrows v name _ hs
    simp only [serve, SharedSymbols.intern] at hlate ⊢
    rw [SymbolTable.intern, hlate]
  | symbol v b i =>
    have hnow := h.symbol? v b i
    have hthen := hlater.symbol? v b i
    have hkept := hgrows.trans (prepare_grows names _ v b) v
    simp only [serve] at hthen hkept ⊢
    generalize (w.symbol? names v b i).2 = now at hnow ⊢
    generalize (((w.symbol? names v b i).1.run names rs).symbol? names v b i).2 = later at hthen ⊢
    generalize entryAt? (names b) i = slot at hnow hthen
    cases hnow with
    | none =>
      cases hthen
      rfl
    | some hs =>
      cases hthen with
      | some hs' => exact hs'.symm.trans (hkept _ _ hs)

/-- Whatever several machines asked for so far, names and numbers of each table are inverse to each
other, the numbers are those below its size (different numbers of 32 bits, while there are at most
2 ^ 32), none ever changes, and a block answers each machine with the number of the name in the
slot, just as the machine itself finds it by interning all names of the block. -/
theorem requests_coherent (names : B → Array Text) (before later : List (Request V B)) :
    let w := ({} : SharedSymbols V B).run names before
    (∀ v, (w.tables v).Exact ∧ (∀ s, (∃ name, (w.tables v).lookup? name = some s) ↔
        s < (w.tables v).size) ∧
      ((w.tables v).size ≤ 2 ^ 32 → ∀ name other s s', (w.tables v).lookup? name = some s →
        (w.tables v).lookup? other = some s' → UInt32.ofNat s = UInt32.ofNat s' → name = other)) ∧
    w.Grows (w.run names later) ∧
    (∀ r, (((w.serve names r).1.run names later).serve names r).2 = (w.serve names r).2) ∧
    ∀ v b i, Option.Rel (fun name s =>
        let t := (w.symbol? names v b i).1.tables v
        t.lookup? name = some s ∧ t.name s = name)
          (entryAt? (names b) i) (w.symbol? names v b i).2 ∧
      ∀ (m : Machine) (code : Code), m.symbols = w.tables v → m.context.code = some code →
        code.block.symbols = names b → Machine.codeSymbol i m =
          Machine.present (w.symbol? names v b i).2
            { m with symbols := (w.symbol? names v b i).1.tables v } := by
  intro w
  have hw : w.Coherent names := (run_coherent coherent_empty before).1
  refine ⟨fun v => ⟨hw.tables v, fun s => (hw.tables v).dense, fun hsize name other s s' =>
    (hw.tables v).ofNat_inj hsize⟩, (run_coherent hw later).2, fun r => hw.serve_again r later,
    fun v b i => ⟨?_, fun m code => hw.codeSymbol_eq v b i⟩⟩
  have hexact := (hw.prepare v b).tables v
  have hanswer := hw.symbol? v b i
  generalize entryAt? (names b) i = slot at hanswer ⊢
  generalize (w.symbol? names v b i).2 = answer at hanswer ⊢
  cases hanswer with
  | none => exact .none
  | some hs => exact .some ⟨hs, hexact.name_eq hs⟩

/-- Two machines give the names of one block different numbers, and each gets its own. -/
theorem requests_coherent_two :
    let names : Unit → Array Text := fun _ => #[[97], [98]]
    let w := ({} : SharedSymbols Bool Unit).run names
      [.symbol true () 0, .intern false [98], .symbol false () 0]
    let m : Machine := {
      config := {}, memory := { pool := { size := 0 } }, regs := #[], symbols := w.tables true,
      context := { code := some (Program.root ⟨#[{ symbols := names () }]⟩) } }
    (w.symbol? names true () 1).2 = some 1 ∧ (w.symbol? names false () 1).2 = some 0 ∧
      ∃ m', Machine.codeSymbol 1 m = .ok 1 m' := by
  intro names w m
  have htrue : (w.symbol? names true () 1).2 = some 1 := by decide
  have hcode := ((requests_coherent names
    [.symbol true () 0, .intern false [98], .symbol false () 0] []).2.2.2 true () 1).2 m _ rfl rfl rfl
  refine ⟨htrue, by decide, { m with symbols := (w.symbol? names true () 1).1.tables true }, ?_⟩
  rw [hcode, htrue]
  rfl

end SharedSymbols

end ObjectMachine
