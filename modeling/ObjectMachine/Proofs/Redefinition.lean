import ObjectMachine.Proofs.MethodCounts
import ObjectMachine.Proofs.Resolution

/-! Redefinitions that a pool refuses. Code that is installed as a method takes the old method of
its name off the class before it asks for bytes. The bytes of an old method that nothing runs are
enough for the new one. A method that runs keeps its bytes until it returns; so where it is
redefined while fewer bytes are free, the name is left without it. -/

namespace ObjectMachine

open Machine

namespace Machine

variable {m m₁ m' : Machine} {c k : ClassId} {s t : Symbol} {old : MethodId} {code : Code}

/-! ### Lookups -/

/-- The lineage of a class depends on superclasses alone. -/
theorem lineage_congr (h : ∀ k, (m'.classAt k).super = (m.classAt k).super) (c : ClassId) :
    lineage m'.classes c = lineage m.classes c := by
  induction c using Nat.strong_induction_on with
  | _ c ih =>
    have hsuper : (m'.classes[c]?).bind (·.super) = (m.classes[c]?).bind (·.super) := by
      rw [← classAt_super, ← classAt_super, h]
    rw [lineage.eq_def m'.classes, lineage.eq_def m.classes, hsuper]
    cases (m.classes[c]?).bind (·.super) with
    | none => rfl
    | some p =>
      by_cases hlt : p < c
      · simp only [if_pos hlt, ih p hlt]
      · simp only [if_neg hlt]

/-- A search that ends elsewhere does not depend on what one place holds. -/
theorem findSome?_congr_of_ne {α β : Type} {f g : α → Option β} {a : α} {l : List α}
    (hsame : ∀ x, x ≠ a → g x = f x) (ha : (f a).isSome) (hne : l.findSome? f ≠ f a) :
    l.findSome? g = l.findSome? f := by
  induction l with
  | nil => rfl
  | cons x l ih =>
    have hx : x ≠ a := by
      rintro rfl
      obtain ⟨b, hb⟩ := Option.isSome_iff_exists.1 ha
      exact hne (by rw [List.findSome?_cons, hb])
    rw [List.findSome?_cons] at hne
    rw [List.findSome?_cons, List.findSome?_cons, hsame x hx]
    cases hf : f x with
    | none => exact ih (by rwa [hf] at hne)
    | some b => rfl

theorem Unaffected.findMethod? (h : Unaffected m m') (k : ClassId) (t : Symbol) :
    m'.findMethod? k t = m.findMethod? k t := by
  rw [Machine.findMethod?, Machine.findMethod?, h.classes]
  refine congrArg (List.findSome? · _) (funext fun x => ?_)
  rw [h.ownMethod? (congrArg (·.methods) (h.classAt x))]

/-- Lookups that did not give the method that was unlinked give what they gave. -/
theorem Unlinks.findMethod? (h : Unlinks c s m m') (hold : m.ownMethod? c s = some old)
    (hne : t = s → m.findMethod? k t ≠ some (old, c)) : m'.findMethod? k t = m.findMethod? k t := by
  rw [Machine.findMethod?, Machine.findMethod?, lineage_congr h.super]
  by_cases ht : t = s
  · subst ht
    have hc : (m.ownMethod? c t).map (·, c) = some (old, c) := by rw [hold]; rfl
    refine findSome?_congr_of_ne (a := c) (fun x hx => ?_) (by rw [hc]; rfl) ?_
    · rw [h.own x t fun hxt => hx hxt.1]
    · rw [hc]
      exact hne rfl
  · exact congrArg (List.findSome? · _) (funext fun x => by rw [h.own x t fun hxt => ht hxt.2])

theorem findMethod?_of_own (hold : m.ownMethod? c s = some old) :
    m.findMethod? c s = some (old, c) := by
  rw [findMethod?, lineage]
  split
  · split <;> rw [List.findSome?_cons, hold] <;> rfl
  · rw [List.findSome?_cons, hold]
    rfl

theorem own_of_findMethod? {id : MethodId} (h : m.findMethod? k s = some (id, c)) :
    m.ownMethod? c s = some id := by
  obtain ⟨x, -, hx⟩ := List.exists_of_findSome?_eq_some h
  obtain ⟨id', hid, heq⟩ := Option.map_eq_some_iff.1 hx
  cases heq
  exact hid

/-! ### Refusals -/

/-- The bytes of a method that was just released are granted again. -/
theorem chargeMethod_after_refund {pool : Pool} (hc : c < m.classes.size)
    (hroom : pool.used ≤ pool.size)
    (hm : m.memory.pool = pool.refund methodBytes) :
    Leads AnyFault (chargeMethod c) m fun granted _ => granted = true := by
  have hfits : ¬(methodBytes < 0 ∨ m.memory.pool.used + methodBytes > m.memory.pool.size) := by
    rw [hm]
    rintro (hneg | hover)
    · exact absurd hneg (by decide)
    · have hsum : (pool.refund methodBytes).used + methodBytes = pool.used := Int64.sub_add_cancel _ _
      rw [hsum] at hover
      exact absurd hover (Int64.not_lt.2 hroom)
  simp only [chargeMethod, charge, Pool.alloc?, Leads.bind_eq, Leads.get_eq]
  rw [if_pos hc, Leads.modifyGet_eq, if_neg hfits]

/-- An idle method gives its bytes back when it is taken off its class. -/
theorem releaseMethod_refunds {id : MethodId} (h1 : (m.methodAt id).refCount = 1) :
    Leads AnyFault (releaseMethod id) m fun _ m' =>
      m'.memory.pool = m.memory.pool.refund methodBytes ∧ m'.classes = m.classes := by
  have hi : id < m.methods.size := lt_size_of_refCount (by omega)
  simp only [releaseMethod, modifyMethod, Leads.bind_eq, Leads.modify_eq, Leads.get_eq,
    methodAt_modify, hi, and_self, if_true, h1, Int.sub_self]
  simp only [refund, onMemory, Leads.bind_eq, Leads.modifyGet_eq]
  split
  · trivial
  · exact ⟨rfl, rfl⟩

/-- So when it was the bytes of an idle method that came back, a new method gets them. -/
theorem releaseMethod_frees {id : MethodId} (hc : c < m.classes.size) :
    Leads AnyFault (releaseMethod id) m fun _ m₁ => Unaffected m m₁ ∧
      (m.memory.pool.used ≤ m.memory.pool.size → (m.methodAt id).refCount = 1 →
        Leads AnyFault (chargeMethod c) m₁ fun granted _ => granted = true) := by
  by_cases h1 : (m.methodAt id).refCount = 1
  · refine ((releaseMethod_same id).and (releaseMethod_refunds h1)).mono ?_
    rintro _ m₁ ⟨hsame, hpool, hclasses⟩
    exact ⟨hsame, fun hroom _ => chargeMethod_after_refund (hclasses ▸ hc) hroom hpool⟩
  · exact (releaseMethod_same id).mono fun _ m₁ hsame => ⟨hsame, fun _ h => (h1 h).elim⟩

/-- The last part of an installation: where it is refused, only the pool was asked. -/
theorem charge_refused (c : ClassId) (k : Method) :
    Leads AnyFault (chargeMethod c) m fun granted m₁ =>
      Leads AnyFault (if granted = true then return some (← addMethod c k) else return none) m₁
        fun r m' => r = none → granted = false ∧ Unaffected m m' := by
  refine (chargeMethod_leads c).mono ?_
  rintro granted _ ⟨pool, rfl⟩
  cases granted with
  | false => exact fun _ => ⟨rfl, .of_eq rfl rfl⟩
  | true =>
    simp only [if_true, Leads.bind_eq, Leads.pure_eq]
    exact .of_eq (addMethod_eq c k) nofun

/-- What a refusal leaves behind. -/
theorem installCode?_refused (c : ClassId) (s : Symbol) (code : Code) :
    Leads AnyFault (installCode? c s code) m fun r m' => r = none →
      (m.ownMethod? c s = none → Unaffected m m') ∧
      ∀ old, m.ownMethod? c s = some old → Unlinks c s m m' ∧
        (m'.classAt c).methods = (m.classAt c).methods.erase old ∧
        (m.memory.pool.used ≤ m.memory.pool.size → (m.methodAt old).refCount ≠ 1) := by
  have hcharge := fun m₁ => charge_refused (m := m₁) c { symbol := s, body := .code code }
  simp only [installCode?, modifyClass, Leads.bind_eq, Leads.get_eq]
  split
  · next old hold =>
    have hc := (mem_of_ownMethod? hold).1
    have hu := unlinks_erase hold
    have hat := classAt_modify (m := m) c c (f := fun k => { k with methods := k.methods.erase old })
    rw [if_pos ⟨rfl, hc⟩] at hat
    simp only [Leads.bind_eq, Leads.modify_eq]
    refine (releaseMethod_frees (hc.trans_eq Array.size_modify.symm)).mono ?_
    rintro _ m₁ ⟨hsame, hgranted⟩
    refine Leads.intro (fun granted m₂ hm₂ => ?_) fun _ _ _ => trivial
    refine ((hcharge m₁).of_ok hm₂).mono fun _ m' h hr => ?_
    obtain ⟨hrefused, hsame'⟩ := h hr
    refine ⟨fun hnone => (Option.some_ne_none old (hold.symm.trans hnone)).elim, ?_⟩
    intro old' hold'
    cases hold.symm.trans hold'
    refine ⟨hu.trans (hsame.trans hsame').unlinks, ?_, fun hroom h1 => ?_⟩
    · rw [(hsame.trans hsame').classAt, hat]
    · exact Bool.false_ne_true (hrefused.symm.trans ((hgranted hroom h1).of_ok hm₂))
  · next hnone =>
    rw [Leads.bind_eq]
    refine (hcharge m).mono fun _ m₁ h₁ => h₁.mono fun _ m' h hr => ?_
    exact ⟨fun _ => (h hr).2, fun old hold => (hnone old hold).elim⟩

/-- A class lists a method once. -/
theorem Ledger.nodup_methods {s : Prop} {l : Nat} {d : List Duty} {H : List Value}
    (h : Ledger s l d H m) (hc : c < m.classes.size) : (m.classAt c).methods.Nodup := by
  have hlinked := (List.nodup_flatMap.1 h.form.linked).1 m.classes[c] (by simp)
  simpa [classAt, Array.getD_eq_getD_getElem?, hc] using hlinked

end Machine

/-- What a refused installation of code changes. A host asks for it between two operations, and an
instruction when it has moved on and interned the names of its block. All lookups stay as they are
just when the class has no method of that name itself. When it has one, this method is not found
any more, and lookups that gave another one give the same; and unless more bytes are in use than
there are, the method was running, as a call on the chain or as a native that waits for a pass. -/
theorem refused_install_exact {running : Bool} {m m' : Machine} (h : Boundary running m)
    (symbols : SymbolTable) (pc : Int64) (c : ClassId) (s : Symbol) (code : Code)
    (hr : installCode? c s code { m with symbols, context := { m.context with pc } } =
      .ok none m') :
    ((∀ k t, m'.findMethod? k t = m.findMethod? k t) ↔ m.ownMethod? c s = none) ∧
    ∀ old, m.ownMethod? c s = some old →
      m.findMethod? c s = some (old, c) ∧
      (∀ k, m'.findMethod? k s ≠ some (old, c)) ∧
      (∀ k t, (t = s → m.findMethod? k t ≠ some (old, c)) →
        m'.findMethod? k t = m.findMethod? k t) ∧
      (m.memory.pool.used ≤ m.memory.pool.size → 0 < m.callsOf old + m.nativeCallsOf old) := by
  obtain ⟨hsame, hgone⟩ := (installCode?_refused c s code).of_ok hr rfl
  have hledger := h.books.1
  have hold : ∀ old, m.ownMethod? c s = some old →
      m.findMethod? c s = some (old, c) ∧
      (∀ k, m'.findMethod? k s ≠ some (old, c)) ∧
      (∀ k t, (t = s → m.findMethod? k t ≠ some (old, c)) →
        m'.findMethod? k t = m.findMethod? k t) ∧
      (m.memory.pool.used ≤ m.memory.pool.size → 0 < m.callsOf old + m.nativeCallsOf old) := by
    intro old hown
    obtain ⟨hunlinks, hmethods, hruns⟩ := hgone old hown
    obtain ⟨hc, hmem⟩ := mem_of_ownMethod? hown
    refine ⟨findMethod?_of_own hown, fun k hk => ?_, fun k t => hunlinks.findMethod? hown,
      fun hroom => ?_⟩
    · have hmem' := (mem_of_ownMethod? (own_of_findMethod? hk)).2
      rw [hmethods] at hmem'
      exact (hledger.nodup_methods hc).not_mem_erase hmem'
    · have hpos := hledger.refCount_of_findMethod? (findMethod?_of_own hown)
      have hlinks : m.links old ≤ 1 := List.nodup_iff_count_le_one.1 hledger.form.linked old
      have hruns : (m.methodAt old).refCount ≠ 1 := hruns hroom
      rw [hledger.refCount, holds] at hpos hruns
      omega
  refine ⟨⟨fun hall => ?_, fun hnone k t => ?_⟩, hold⟩
  · refine Option.eq_none_iff_forall_ne_some.2 fun old hown => ?_
    obtain ⟨hfound, hlost, -⟩ := hold old hown
    exact hlost c ((hall c s).trans hfound)
  · exact (hsame hnone).findMethod? k t

/-- A machine of a configuration on which `ticks` instructions of a program were executed. -/
def Program.under (c : Config) (p : Program) (ticks : Nat) : Option Machine :=
  match create c with
  | .ok m =>
    match (enterUnit p.root *> Machine.run ticks) m with
    | .ok none m' => some m'
    | _ => none
  | .error _ => none

theorem Boundary.run {m : Machine} (h : Boundary true m) (ticks : Nat) :
    Leads AnyFault (Machine.run ticks) m fun r m' => r = none → Boundary true m' := by
  induction ticks generalizing m with
  | zero => exact fun _ => h
  | succ ticks ih =>
    rw [Machine.run, Leads.bind_eq]
    refine .intro (fun r m₁ h₁ => ?_) fun _ _ _ => trivial
    cases r with
    | some v =>
      intro hnone
      cases hnone
    | none => exact ih (h.tick h₁)

theorem Boundary.of_under {config : Config} {p : Program} {ticks : Nat} {m : Machine}
    (h : p.under config ticks = some m) : Boundary true m := by
  unfold Program.under at h
  split at h
  · next m₀ h₀ =>
    have hrun : Leads AnyFault (enterUnit p.root *> Machine.run ticks) m₀ fun r m' =>
        r = none → Boundary true m' := by
      rw [seqRight_eq_bind, Leads.bind_eq]
      exact .intro (fun _ m₁ h₁ => (Boundary.enter p.root (.new h₀) h₁).run ticks) fun _ _ _ => trivial
    split at h
    · next m' hm' =>
      cases h
      exact hrun.of_ok hm' rfl
    · cases h
  · cases h

def Machine.refused? (m : Machine) (c : ClassId) (s : Symbol) (code : Code) : Option Machine :=
  match installCode? c s code m with
  | .ok none m' => some m'
  | _ => none

theorem installCode?_of_refused? {m m' : Machine} {c : ClassId} {s : Symbol} {code : Code}
    (h : m.refused? c s code = some m') : installCode? c s code m = .ok none m' := by
  unfold Machine.refused? at h
  split at h
  · next hm' =>
    cases h
    exact hm'
  · cases h

/-- A method is about to define itself anew, and 12 bytes are left. A new name is refused and
nothing changes; its own name, 41, is refused because the call holds the old bytes. -/
theorem refused_install_exact_redefineSelf : ∃ m m₁ m₂ old, Boundary true m ∧
    installCode? .object 0 redefineSelf.root m = .ok none m₁ ∧
    (∀ k t, m₁.findMethod? k t = m.findMethod? k t) ∧
    installCode? .object 41 redefineSelf.root m = .ok none m₂ ∧
    m.findMethod? .object 41 = some (old, .object) ∧
    (∀ k, m₂.findMethod? k 41 ≠ some (old, .object)) ∧
    0 < m.callsOf old + m.nativeCallsOf old := by
  have hrun : (redefineSelf.under { poolSize := 1140 } 9).any fun m =>
      (m.refused? .object 0 redefineSelf.root).isSome &&
      (m.refused? .object 41 redefineSelf.root).isSome &&
      (m.ownMethod? .object 0).isNone && (m.ownMethod? .object 41).isSome &&
      decide (m.memory.pool.used ≤ m.memory.pool.size) := by
    decide +kernel
  obtain ⟨m, hm, hrun⟩ := (Option.any_eq_true _ _).1 hrun
  simp only [Bool.and_eq_true, Option.isSome_iff_exists, Option.isNone_iff_eq_none,
    decide_eq_true_eq] at hrun
  obtain ⟨⟨⟨⟨⟨m₁, h₁⟩, m₂, h₂⟩, hnone⟩, old, hold⟩, hroom⟩ := hrun
  have hboundary := Boundary.of_under hm
  have h₁ := installCode?_of_refused? h₁
  have h₂ := installCode?_of_refused? h₂
  obtain ⟨hsame, -⟩ := refused_install_exact hboundary m.symbols m.context.pc _ _ _ h₁
  obtain ⟨-, hgone⟩ := refused_install_exact hboundary m.symbols m.context.pc _ _ _ h₂
  obtain ⟨hfound, hlost, -, hruns⟩ := hgone old hold
  exact ⟨m, m₁, m₂, old, hboundary, h₁, hsame.2 hnone, h₂, hfound, hlost, hruns hroom⟩

/-- There the refused redefinition changes what the name gives: nothing is found any more. -/
theorem method_lost_redefineSelf : ∃ m m', Boundary true m ∧
    installCode? .object 41 redefineSelf.root m = .ok none m' ∧
    m'.findMethod? .object 41 ≠ m.findMethod? .object 41 := by
  have hrun : (redefineSelf.under { poolSize := 1140 } 9).any fun m =>
      (m.findMethod? .object 41).isSome && (m.refused? .object 41 redefineSelf.root).any fun m' =>
        (m'.findMethod? .object 41).isNone := by
    decide +kernel
  obtain ⟨m, hm, hrun⟩ := (Option.any_eq_true _ _).1 hrun
  rw [Bool.and_eq_true] at hrun
  obtain ⟨hsome, hlost⟩ := hrun
  obtain ⟨m', hm', hnone⟩ := (Option.any_eq_true _ _).1 hlost
  refine ⟨m, m', .of_under hm, installCode?_of_refused? hm', fun heq => ?_⟩
  rw [← heq, Option.isNone_iff_eq_none.1 hnone] at hsome
  cases hsome

end ObjectMachine
