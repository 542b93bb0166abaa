import ObjectMachine.Command.ClassTree
import ObjectMachine.Proofs.Climbing
import ObjectMachine.Proofs.Comparing
import ObjectMachine.Proofs.Hosting

/-! The registered classes and their tree. A class is listed once for every constant that is bound
to it, and it is drawn once for every way to choose a constant for it and for each class above it.
So a second constant for a class draws the class twice, with all that is below it. -/

namespace ObjectMachine

theorem Value.cls?_eq_some {v : Value} {c : ClassId} : v.cls? = some c ↔ v = .cls c := by
  cases v <;> simp [cls?]

namespace Machine

variable {m : Machine} {c d s : ClassId} {n : Nat}

/-! ### The list -/

def boundTo (m : Machine) (c : ClassId) : List Symbol :=
  (m.constants.filter fun x => x.2.cls? == some c).map (·.1)

theorem nodup_boundTo (h : (m.constants.map (·.1)).Nodup) : (m.boundTo c).Nodup :=
  h.sublist (List.filter_sublist.map _)

theorem lookup_eq_some {cs : List (Symbol × Value)} (h : (cs.map (·.1)).Nodup) {k : Symbol}
    {v : Value} : cs.lookup k = some v ↔ (k, v) ∈ cs := by
  induction cs with
  | nil => simp
  | cons x cs ih =>
    obtain ⟨hx, hcs⟩ := List.nodup_cons.1 h
    rw [List.lookup_cons, List.mem_cons]
    by_cases heq : k = x.1
    · subst heq
      have hnot : (x.1, v) ∉ cs := fun hmem => hx (List.mem_map.2 ⟨_, hmem, rfl⟩)
      simp [hnot, Prod.ext_iff, eq_comm]
    · have hne : (k, v) ≠ x := fun hx => heq (congrArg Prod.fst hx)
      simp [beq_false_of_ne heq, hne, ih hcs]

theorem mem_boundTo (h : (m.constants.map (·.1)).Nodup) {k : Symbol} :
    k ∈ m.boundTo c ↔ m.constant? k = some (.cls c) := by
  simp [boundTo, constant?, lookup_eq_some h, Value.cls?_eq_some]

theorem count_registeredClasses (m : Machine) (c : ClassId) :
    m.registeredClasses.count c = (m.boundTo c).length := by
  rw [registeredClasses, (List.mergeSort_perm _ _).count_eq, List.count_filterMap, boundTo,
    List.length_map, List.countP_eq_length_filter]

theorem registeredClasses_sorted (m : Machine) :
    m.registeredClasses.Pairwise fun c d => (m.className c).atMost (m.className d) := by
  refine List.pairwise_mergeSort (fun c d e => ?_) (fun c d => ?_) _
  · exact Text.atMost_trans
  · exact Bool.or_eq_true_iff.2 (Text.atMost_total _ _)

/-! ### Lines of descent -/

theorem rank_le (h : m.Older) (c : ClassId) : m.rank c ≤ m.classes.size := by
  have hle : m.rank c ≤ c := by
    induction c using Nat.strong_induction_on with
    | _ c ih =>
      cases hc : (m.classAt c).super with
      | none => simp [rank, superclasses_of_none hc]
      | some p =>
        have hlt := h c p hc
        have hp := ih p hlt
        rw [rank, superclasses_of_some h hc, lineage_eq_cons, List.length_cons]
        exact Nat.lt_of_le_of_lt hp hlt
  rcases Nat.lt_or_ge c m.classes.size with hc | hc
  · exact hle.trans hc.le
  · have hnone : (m.classAt c).super = none := by
      simp [classAt, Array.getD_eq_getD_getElem?, Array.getElem?_eq_none hc]
    simp [rank, superclasses_of_none hnone]

/-- The number of ways to choose a constant for a class and for each class above it. -/
def ways (m : Machine) (c : ClassId) : Nat :=
  ((lineage m.classes c).map fun k => (m.boundTo k).length).prod

theorem ways_eq_one : m.ways c = 1 ↔ ∀ k ∈ lineage m.classes c, (m.boundTo k).length = 1 := by
  refine ⟨fun h k hk => ?_, fun h => List.prod_eq_one (List.forall_mem_map.2 h)⟩
  exact Nat.dvd_one.1 (h ▸ List.dvd_prod (List.mem_map_of_mem hk))

theorem ways_of_none (hc : (m.classAt c).super = none) : m.ways c = (m.boundTo c).length := by
  simp [ways, lineage_eq_cons, superclasses_of_none hc]

theorem ways_of_some (h : m.Older) (hc : (m.classAt c).super = some s) :
    m.ways c = (m.boundTo c).length * m.ways s := by
  rw [ways, lineage_eq_cons, superclasses_of_some h hc, List.map_cons, List.prod_cons, ways]

end Machine

namespace Command

open Machine

variable {m : Machine} {c d s : ClassId} {n : Nat}

theorem count_subclasses (m : Machine) (c d : ClassId) : (subclasses m c).count d =
    if (m.classAt d).super = some c then (m.boundTo d).length else 0 := by
  rw [subclasses, ← count_registeredClasses]
  split
  · next hd => exact List.count_filter (by simpa using hd)
  · next hd => exact List.count_eq_zero.2 fun hmem => hd (by simpa using (List.mem_filter.1 hmem).2)

def descent (m : Machine) : (depth : Nat) → ClassId → List ClassId
  | 0, c => [c]
  | depth + 1, c => c :: (subclasses m c).flatMap (descent m depth)

theorem descent_succ (m : Machine) (n : Nat) (c : ClassId) :
    descent m (n + 1) c = c :: (subclasses m c).flatMap (descent m n) := rfl

/-- Where each list counts a class of its own and some of the other list, so do all together. -/
theorem count_flatMap_eq {f g : ClassId → List ClassId} {b : Nat}
    (h : ∀ c, (f c).count d = (if c = d then 1 else 0) + b * (g c).count s) (cs : List ClassId) :
    (cs.flatMap f).count d = cs.count d + b * (cs.flatMap g).count s := by
  induction cs with
  | nil => simp
  | cons c cs ih =>
    rw [List.flatMap_cons, List.flatMap_cons, List.count_append, List.count_append, ih, h,
      List.count_cons, Nat.mul_add]
    simp only [beq_iff_eq]
    omega

theorem count_descent_of_none (hd : (m.classAt d).super = none) (n : Nat) (c : ClassId) :
    (descent m n c).count d = if c = d then 1 else 0 := by
  induction n generalizing c with
  | zero => simp [descent, List.count_singleton]
  | succ n ih =>
    have hbelow := count_flatMap_eq (d := d) (s := d) (b := 0) (g := descent m n)
      (fun c => by rw [ih]; simp) (subclasses m c)
    rw [descent_succ, List.count_cons, hbelow, count_subclasses, hd]
    simp

/-- A class is below what its superclass is, and once for every constant. -/
theorem count_descent_of_some (hd : (m.classAt d).super = some s) (n : Nat) (c : ClassId) :
    (descent m (n + 1) c).count d =
      (if c = d then 1 else 0) + (m.boundTo d).length * (descent m n c).count s := by
  have hsuper : ∀ k, (if (m.classAt d).super = some k then (m.boundTo d).length else 0) =
      (m.boundTo d).length * if k = s then 1 else 0 := fun k => by
    simp only [hd, Option.some.injEq, eq_comm, mul_ite, Nat.mul_one, Nat.mul_zero]
  induction n generalizing c with
  | zero =>
    have hbelow : (subclasses m c).flatMap (descent m 0) = subclasses m c := List.flatMap_singleton' _
    rw [descent_succ, List.count_cons, hbelow, count_subclasses, hsuper]
    simp [descent, List.count_singleton, Nat.add_comm]
  | succ n ih =>
    rw [descent_succ, List.count_cons, count_flatMap_eq ih, count_subclasses, hsuper, descent_succ,
      List.count_cons, Nat.mul_add]
    simp only [beq_iff_eq]
    omega

def roots (m : Machine) : List ClassId := m.registeredClasses.filter fun c => (m.classAt c).super.isNone

theorem count_roots (m : Machine) (d : ClassId) :
    (roots m).count d = if (m.classAt d).super = none then (m.boundTo d).length else 0 := by
  rw [roots, ← count_registeredClasses]
  split
  · next hd => exact List.count_filter (by simp [hd])
  · next hd => exact List.count_eq_zero.2 fun hmem => hd (by simpa using (List.mem_filter.1 hmem).2)

/-- From the roots down there are as many of a class as there are ways to it. -/
theorem count_descent_roots (h : m.Older) (hn : m.rank d ≤ n) :
    ((roots m).flatMap (descent m n)).count d = m.ways d := by
  have hroot : ∀ {d n}, (m.classAt d).super = none →
      ((roots m).flatMap (descent m n)).count d = m.ways d := by
    intro d n hd
    have hflat := count_flatMap_eq (d := d) (s := d) (b := 0) (g := descent m n)
      (fun c => by rw [count_descent_of_none hd]; simp) (roots m)
    rw [hflat, count_roots, if_pos hd, ways_of_none hd, Nat.zero_mul, Nat.add_zero]
  induction n generalizing d with
  | zero =>
    refine hroot (Option.eq_none_iff_forall_ne_some.2 fun p hp => ?_)
    rw [rank, superclasses_of_some h hp, lineage_eq_cons] at hn
    cases hn
  | succ n ih =>
    cases hd : (m.classAt d).super with
    | none => exact hroot hd
    | some p =>
      have hp : m.rank p ≤ n := by
        rw [rank, superclasses_of_some h hd, lineage_eq_cons, List.length_cons] at hn
        exact Nat.le_of_succ_le_succ hn
      rw [count_flatMap_eq (count_descent_of_some hd n), count_roots, if_neg (by simp [hd]), ih hp,
        ways_of_some h hd, Nat.zero_add]

/-! ### Drawn classes -/

/-- A class with the trees below it. -/
inductive ClassTree
  | node (c : ClassId) (below : List ClassTree)

namespace ClassTree

mutual

def classes : ClassTree → List ClassId
  | node c below => c :: classesOf below

def classesOf : List ClassTree → List ClassId
  | [] => []
  | t :: rest => t.classes ++ classesOf rest

end

mutual

def labelled (label : ClassId → Text) : ClassTree → LabelTree
  | node c below => .node (label c) (labelledAll label below)

def labelledAll (label : ClassId → Text) : List ClassTree → List LabelTree
  | [] => []
  | t :: rest => t.labelled label :: labelledAll label rest

end

theorem classesOf_append (ts us : List ClassTree) :
    classesOf (ts ++ us) = classesOf ts ++ classesOf us := by
  induction ts with
  | nil => rfl
  | cons t ts ih => rw [List.cons_append, classesOf, classesOf, ih, List.append_assoc]

theorem labelledAll_append (label : ClassId → Text) (ts us : List ClassTree) :
    labelledAll label (ts ++ us) = labelledAll label ts ++ labelledAll label us := by
  induction ts with
  | nil => rfl
  | cons t ts ih => rw [List.cons_append, labelledAll, labelledAll, ih, List.cons_append]

end ClassTree

/-- Classes without a label may be lost, all others stay. -/
def Retains (label : ClassId → Text) (cs ds : List ClassId) : Prop :=
  ∀ c, ds.count c ≤ cs.count c ∧ (label c ≠ [] → ds.count c = cs.count c)

namespace Retains

variable {label : ClassId → Text} {cs cs' ds ds' es : List ClassId}

theorem refl (cs : List ClassId) : Retains label cs cs := fun _ => ⟨Nat.le_refl _, fun _ => rfl⟩

theorem trans (h : Retains label cs ds) (h' : Retains label ds es) : Retains label cs es :=
  fun c => ⟨(h' c).1.trans (h c).1, fun hc => ((h' c).2 hc).trans ((h c).2 hc)⟩

theorem append (h : Retains label cs ds) (h' : Retains label cs' ds') :
    Retains label (cs ++ cs') (ds ++ ds') := by
  intro c
  rw [List.count_append, List.count_append]
  exact ⟨Nat.add_le_add (h c).1 (h' c).1, fun hc => by rw [(h c).2 hc, (h' c).2 hc]⟩

theorem cons (c : ClassId) (h : Retains label cs ds) : Retains label (c :: cs) (c :: ds) :=
  append (.refl [c]) h

/-- A class without a label is lost. -/
theorem drop (hc : label c = []) : Retains label (c :: cs) cs := by
  intro d
  rw [List.count_cons]
  refine ⟨Nat.le_add_right _ _, fun hd => ?_⟩
  have hne : c ≠ d := fun heq => hd (heq ▸ hc)
  rw [if_neg (by simpa using hne), Nat.add_zero]

end Retains

open ClassTree

variable {label : ClassId → Text}

mutual

/-- Trees that are put below a label keep their classes, but for those without a label. -/
theorem exists_addTo (label : ClassId → Text) (siblings : List ClassTree) : (t : ClassTree) →
    ∃ ts, labelledAll label ts = LabelTree.addTo (labelledAll label siblings) (t.labelled label) ∧
      Retains label (classesOf siblings ++ t.classes) (classesOf ts)
  | .node c [] => by
    refine ⟨siblings ++ [.node c []], ?_, ?_⟩
    · rw [labelledAll_append, labelled, labelledAll, LabelTree.addTo, labelledAll, labelled, labelledAll]
    · rw [classesOf_append, classesOf, classesOf, List.append_nil]
      exact .refl _
  | .node c (t :: rest) => by
    have hkeep : Retains label (classesOf siblings ++ (ClassTree.node c (t :: rest)).classes)
        (classesOf (siblings ++ [.node c (t :: rest)])) := by
      rw [classesOf_append, classesOf, classesOf, List.append_nil]
      exact .refl _
    rw [labelled, labelledAll, LabelTree.addTo]
    rcases List.eq_nil_or_concat siblings with rfl | ⟨before, ⟨k, below⟩, rfl⟩
    · exact ⟨[.node c (t :: rest)], rfl, hkeep⟩
    · have hlast : labelledAll label (before.concat (.node k below)) =
          labelledAll label before ++ [.node (label k) (labelledAll label below)] := by
        rw [List.concat_eq_append, labelledAll_append, labelledAll, labelled, labelledAll]
      rw [hlast, List.getLast?_concat, List.dropLast_concat]
      dsimp only
      split
      · next hc =>
        -- The trees below `c` go below the sibling before it, and `c` is lost.
        obtain ⟨us, hus, hretains⟩ : ∃ us, labelledAll label us =
            (if (labelledAll label below).isEmpty then labelledAll label (t :: rest)
              else LabelTree.addAllTo (labelledAll label below) (labelledAll label (t :: rest))) ∧
            Retains label (classesOf below ++ classesOf (t :: rest)) (classesOf us) := by
          cases below with
          | nil => exact ⟨t :: rest, rfl, .refl _⟩
          | cons u below => exact exists_addAllTo label (u :: below) (t :: rest)
        refine ⟨before ++ [.node k us], ?_, ?_⟩
        · rw [labelledAll_append, labelledAll, labelled, hus, labelledAll, labelledAll]
        · have hlost : Retains label (classesOf below ++ (ClassTree.node c (t :: rest)).classes)
              (classesOf us) := by
            rw [ClassTree.classes]
            exact ((Retains.refl _).append (.drop (List.isEmpty_iff.1 hc))).trans hretains
          rw [List.concat_eq_append, classesOf_append, classesOf_append, List.append_assoc]
          refine (Retains.refl _).append ?_
          rw [classesOf, classesOf, classesOf, classesOf, ClassTree.classes, ClassTree.classes,
            List.append_nil, List.append_nil, List.cons_append]
          exact hlost.cons k
      · refine ⟨_, ?_, hkeep⟩
        rw [labelledAll_append, hlast, labelledAll, labelled, labelledAll, labelledAll]

theorem exists_addAllTo (label : ClassId → Text) (siblings : List ClassTree) : (ts : List ClassTree) →
    ∃ us, labelledAll label us = LabelTree.addAllTo (labelledAll label siblings) (labelledAll label ts) ∧
      Retains label (classesOf siblings ++ classesOf ts) (classesOf us)
  | [] => by
    refine ⟨siblings, ?_, ?_⟩
    · rw [labelledAll, LabelTree.addAllTo]
    · rw [classesOf, List.append_nil]
      exact .refl _
  | t :: rest => by
    obtain ⟨us, hus, hretains⟩ := exists_addTo label siblings t
    obtain ⟨vs, hvs, hretains'⟩ := exists_addAllTo label us rest
    refine ⟨vs, ?_, ?_⟩
    · rw [hvs, hus, labelledAll, LabelTree.addAllTo]
    · rw [classesOf, ← List.append_assoc]
      exact (hretains.append (.refl _)).trans hretains'

end

/-- What is relied on of a package for trees: those that are put below a label keep what they hold, but
for what has no label. -/
structure TreePackage.Laws (k : TreePackage) : Prop where
  exists_join : ∀ (label : ClassId → Text) (ts : List ClassTree), ∃ us,
    labelledAll label us = k.join (labelledAll label ts) ∧ Retains label (classesOf ts) (classesOf us)

theorem trees_laws : trees.Laws where
  exists_join label := exists_addAllTo label []

/-- Trees for each of some classes, one after another. -/
theorem exists_forest {f : ClassId → LabelTree} {g : ClassId → List ClassId}
    (h : ∀ c, ∃ t : ClassTree, t.labelled label = f c ∧ Retains label (g c) t.classes)
    (cs : List ClassId) : ∃ ts, labelledAll label ts = cs.map f ∧
      Retains label (cs.flatMap g) (classesOf ts) := by
  induction cs with
  | nil => exact ⟨[], rfl, .refl _⟩
  | cons c cs ih =>
    obtain ⟨t, ht, hretains⟩ := h c
    obtain ⟨ts, hts, hretains'⟩ := ih
    refine ⟨t :: ts, ?_, ?_⟩
    · rw [labelledAll, ht, hts, List.map_cons]
    · rw [List.flatMap_cons, classesOf]
      exact hretains.append hretains'

/-- The tree of a class has the classes below it. -/
theorem exists_classNode (m : Machine) (n : Nat) (c : ClassId) : ∃ t : ClassTree,
    t.labelled (classLabel m) = classNode m n c ∧ Retains (classLabel m) (descent m n c) t.classes := by
  induction n generalizing c with
  | zero => exact ⟨.node c [], rfl, .refl _⟩
  | succ n ih =>
    obtain ⟨ts, hts, hretains⟩ := exists_forest ih (subclasses m c)
    obtain ⟨us, hus, hretains'⟩ := trees_laws.exists_join (classLabel m) ts
    refine ⟨.node c us, ?_, ?_⟩
    · rw [labelled, classNode, hus, hts]
    · exact (hretains.trans hretains').cons c

def drawn (m : Machine) (forest : List ClassTree) : Text :=
  ((labelledAll (classLabel m) forest).flatMap trees.draw).flatMap (· ++ "\n")

/-- What the tree of classes draws. -/
theorem exists_classTree (h : m.Older) : ∃ forest, classTree m = drawn m forest ∧
    ∀ c, (classesOf forest).count c ≤ m.ways c ∧
      (classLabel m c ≠ [] → (classesOf forest).count c = m.ways c) := by
  obtain ⟨forest, hforest, hretains⟩ :=
    exists_forest (exists_classNode m m.classes.size) (roots m)
  refine ⟨forest, ?_, fun c => ?_⟩
  · rw [drawn, hforest, List.flatMap_map]
    rfl
  · rw [← count_descent_roots h (rank_le h c)]
    exact hretains c

end Command

open Machine Command ClassTree

/-- What the list of registered classes and their tree hold, on the machines of a host that names no
classes but theirs. The list is in the order of the names and has each class once for every constant
that is bound to it. The tree draws a class, unless it has no label, once for every way to choose a
constant for it and for each class above it: so it is drawn exactly once just when each of these
classes is bound to exactly one constant. -/
theorem registry_exact {m : Machine} (h : Hosted m) :
    (m.registeredClasses.Pairwise fun c d => (m.className c).atMost (m.className d)) ∧
    (∀ c, (m.boundTo c).Nodup ∧ (∀ k, k ∈ m.boundTo c ↔ m.constant? k = some (.cls c)) ∧
      m.registeredClasses.count c = (m.boundTo c).length) ∧
    ∃ forest, classTree m = drawn m forest ∧
      ∀ c, (classesOf forest).count c ≤ m.ways c ∧
        (classLabel m c ≠ [] → (classesOf forest).count c = m.ways c ∧
          ((classesOf forest).count c = 1 ↔
            ∀ k ∈ lineage m.classes c, (m.boundTo k).length = 1)) := by
  have hwell := h.wellRooted
  have hdistinct := hwell.rooted.distinct
  refine ⟨m.registeredClasses_sorted, fun c => ?_, ?_⟩
  · exact ⟨nodup_boundTo hdistinct, fun k => mem_boundTo hdistinct, m.count_registeredClasses c⟩
  · obtain ⟨forest, htext, hcount⟩ := exists_classTree hwell.older
    refine ⟨forest, htext, fun c => ⟨(hcount c).1, fun hc => ?_⟩⟩
    have heq := (hcount c).2 hc
    exact ⟨heq, by rw [heq, ways_eq_one]⟩

/-- Code that defines a class and one below it, gives the first a second name, and its first name to the
other. -/
def renamedKinds : Program where
  blocks := #[{
    registers := 3, symbols := #["Animal", "Dog", "Beast"],
    code := #[⟨.loadNil, 2, 0, 0⟩, ⟨.defineClass, 1, 0, 0⟩, ⟨.move, 2, 1, 0⟩, ⟨.defineClass, 1, 1, 0⟩,
      ⟨.setConstant, 2, 2, 0⟩, ⟨.setConstant, 1, 0, 0⟩, ⟨.leave, 1, 0, 0⟩] }]

/-- The first class is listed and drawn once, by its second name, and the other one twice. -/
theorem registry_exact_renamedKinds : ∃ m, Hosted m ∧ m.className 16 = "Animal" ∧
    m.registeredClasses.count 16 = 1 ∧ m.registeredClasses.count 17 = 2 ∧
    ∃ forest, classTree m = drawn m forest ∧ (classesOf forest).count 16 = 1 ∧
      (classesOf forest).count 17 = 2 := by
  have hrun : ∃ m₀ ∈ (create {}).toOption, ¬m₀.aborted ∧ m₀.pending = none ∧
      Leads NoFault (runUnit 7 renamedKinds.root) m₀ fun r m => r = .ok (.cls 17) ∧
        m.className 16 = "Animal" ∧ (m.boundTo 16).length = 1 ∧ (m.boundTo 17).length = 2 ∧
        classLabel m 16 ≠ [] ∧ classLabel m 17 ≠ [] ∧ m.ways 17 = 2 ∧
        ∀ k ∈ lineage m.classes 16, (m.boundTo k).length = 1 := by
    decide +kernel
  have hvalid : renamedKinds.defect? = none := Program.defect?_eq_none (by decide +kernel)
  obtain ⟨m₀, hm₀, haborted, hpending, hunit⟩ := hrun
  obtain ⟨_, m, hunit, rfl, hname, hanimal, hdog, hlabel, hlabel', hways, hlineage⟩ := hunit.exists_ok
  have hperform := Operation.perform_execute haborted hpending hvalid hunit
  have hhosted : Hosted m :=
    .step (.execute 7 renamedKinds) (.new (create_of_toOption hm₀)) trivial hperform (by simp [Ended])
  obtain ⟨-, hlist, forest, htext, hcount⟩ := registry_exact hhosted
  exact ⟨m, hhosted, hname, (hlist _).2.2.trans hanimal, (hlist _).2.2.trans hdog, forest, htext,
    ((hcount _).2 hlabel).2.2 hlineage, ((hcount _).2 hlabel').1.trans hways⟩

/-- Code that gives `Object` a second name. -/
def aliasObject : Program where
  blocks := #[{
    registers := 2, symbols := #["Alias"],
    code := #[⟨.targetClass, 1, 0, 0⟩, ⟨.setConstant, 1, 0, 0⟩, ⟨.leave, 1, 0, 0⟩] }]

/-- Then `Object` is listed twice, and it is drawn twice with all that is below it. -/
theorem object_drawn_twice : ∃ m, Hosted m ∧ m.registeredClasses.count .object = 2 ∧
    ∃ forest, classTree m = drawn m forest ∧ (classesOf forest).count .object = 2 ∧
      m.registeredClasses.count .exception = 1 ∧ (classesOf forest).count .exception = 2 := by
  have hrun : ∃ m₀ ∈ (create {}).toOption, ¬m₀.aborted ∧ m₀.pending = none ∧
      Leads NoFault (runUnit 3 aliasObject.root) m₀ fun r m => r = .ok (.cls .object) ∧
        (m.boundTo .object).length = 2 ∧ (m.boundTo .exception).length = 1 ∧
        classLabel m .object ≠ [] ∧ classLabel m .exception ≠ [] ∧
        m.ways .object = 2 ∧ m.ways .exception = 2 := by
    decide +kernel
  have hvalid : aliasObject.defect? = none := Program.defect?_eq_none (by decide +kernel)
  obtain ⟨m₀, hm₀, haborted, hpending, hunit⟩ := hrun
  obtain ⟨_, m, hunit, rfl, hobject, hexception, hlabel, hlabel', hways, hways'⟩ := hunit.exists_ok
  have hperform := Operation.perform_execute haborted hpending hvalid hunit
  have hhosted : Hosted m :=
    .step (.execute 3 aliasObject) (.new (create_of_toOption hm₀)) trivial hperform (by simp [Ended])
  obtain ⟨forest, htext, hcount⟩ := exists_classTree hhosted.wellRooted.older
  exact ⟨m, hhosted, (m.count_registeredClasses _).trans hobject, forest, htext,
    ((hcount _).2 hlabel).trans hways, (m.count_registeredClasses _).trans hexception,
    ((hcount _).2 hlabel').trans hways'⟩

end ObjectMachine
