import ObjectMachine.Proofs.Control
import ObjectMachine.Proofs.Values

/-! Classes and methods keep the books. Their bytes are granted when they are made, a class is
never given back, and a method is given back by the last of its holders. -/

namespace ObjectMachine.Machine

variable {s : Prop} {l : Nat} {d : List Duty} {H : List Value} {m : Machine} {v : Value}

theorem control_of_skeleton {m' : Machine} (h : m'.skeleton = m.skeleton) :
    m'.control = m.control :=
  show m'.skeleton.control = m.skeleton.control from h ▸ rfl

theorem modify_eq_set {α : Type} {xs : Array α} {i : Nat} (hi : i < xs.size) (f : α → α) :
    xs.modify i f = xs.set i (f xs[i]) := by
  apply Array.ext
  · simp
  · intro j _ _
    simp only [Array.getElem_modify, Array.getElem_set]
    split
    · next h => subst h; rfl
    · rfl

theorem modify_of_ge {α : Type} {xs : Array α} {i : Nat} (hi : xs.size ≤ i) (f : α → α) :
    xs.modify i f = xs := by
  apply Array.ext
  · simp
  · intro j hj _
    rw [Array.getElem_modify, if_neg]
    simp only [Array.size_modify] at hj
    omega

/-! ### Grants and refunds outside the heap -/

theorem toInt_frameBytes : frameBytes.toInt = 40 := rfl

theorem toInt_classBytes : classBytes.toInt = 16 := rfl

theorem charge_memory {o : Int} {n : Int64} (hb : m.memory.Balanced o []) (hn : n.toInt < 2 ^ 62) :
    Leads (Excused s) (charge n) m fun granted m' =>
      if granted then ∃ pool, m' = { m with memory := { m.memory with pool } } ∧
        m'.memory.Balanced (o + n.toInt) []
      else m' = m := by
  simp only [charge, Leads.modifyGet_eq]
  cases hp : m.memory.pool.alloc? n with
  | none => rfl
  | some pool => exact ⟨pool, rfl, hb.alloc hp hn⟩

theorem refund_memory {o k : Int} {n : Int64} (hb : m.memory.Balanced o []) (hn : n = Int64.ofInt k)
    (h0 : 0 ≤ k) (hk : k ≤ o) :
    Leads (Excused s) (refund n) m fun _ m' =>
      ∃ pool, m' = { m with memory := { m.memory with pool } } ∧
        m'.memory.Balanced (o - k) [] := by
  subst hn
  have hsum : k ≤ o + Memory.total HeapObject.charge m.memory.heap + Memory.owed m.memory.heap [] := by
    have := hb.charges_nonneg
    simp only [Memory.owed]
    omega
  simp only [refund, onMemory, Leads.bind_eq, Leads.modifyGet_eq]
  cases hover : (m.memory.pool.refund (Int64.ofInt k)).isOverdrawn with
  | false => exact ⟨_, rfl, hb.refund h0 hk⟩
  | true =>
    refine ⟨fun _ ha => ?_, fun _ h => h, by simp⟩
    have := hb.not_isOverdrawn (⟨ha.1, ha.2⟩ : m.memory.Addressable) h0 hsum
    rw [hover] at this
    cases this

/-- The bytes of a method are granted for a class that exists. -/
theorem chargeMethod_memory {o : Int} {c : ClassId} (hb : m.memory.Balanced o []) :
    Leads (Excused s) (chargeMethod c) m fun granted m' =>
      if granted then c < m.classes.size ∧ ∃ pool, m' = { m with memory := { m.memory with pool } } ∧
        m'.memory.Balanced (o + methodBytes.toInt) []
      else m' = m := by
  simp only [chargeMethod, Leads.bind_eq, Leads.get_eq]
  split
  · next hc =>
    refine (charge_memory hb (by decide)).mono fun granted m' h => ?_
    cases granted with
    | false => exact h
    | true => exact ⟨hc, h⟩
  · rfl

/-! ### References to methods -/

theorem methodAt_modify (id j : MethodId) (f : Method → Method) :
    { m with methods := m.methods.modify id f }.methodAt j =
      if id = j ∧ id < m.methods.size then f (m.methodAt j) else m.methodAt j := by
  simp only [methodAt, Array.getD_eq_getD_getElem?, Array.getElem?_modify]
  by_cases hj : id = j
  · subst hj
    by_cases hi : id < m.methods.size
    · simp [hi]
    · simp [hi]
  · simp [hj]

theorem lt_size_of_refCount {id : MethodId} (h : 0 < (m.methodAt id).refCount) :
    id < m.methods.size := by
  rcases Nat.lt_or_ge id m.methods.size with hlt | hge
  · exact hlt
  · simp [methodAt, Array.getD_eq_getD_getElem?, Array.getElem?_eq_none hge] at h

theorem native?_modify {id j : MethodId} {f : Method → Method} (hf : ∀ k, (f k).body = k.body) :
    ({ m with methods := m.methods.modify id f }.methodAt j).native? = (m.methodAt j).native? := by
  rw [methodAt_modify]
  split
  · simp only [Method.native?, hf]
  · rfl

theorem liveMethods_modify {id : MethodId} (hi : id < m.methods.size) (f : Method → Method) :
    ({ m with methods := m.methods.modify id f }.liveMethods : Int) =
      m.liveMethods - (if 0 < (m.methodAt id).refCount then 1 else 0)
        + (if 0 < (f (m.methodAt id)).refCount then 1 else 0) := by
  have hget : m.methodAt id = m.methods[id] := by
    simp [methodAt, Array.getD_eq_getD_getElem?, hi]
  have hle : (if 0 < m.methods[id].refCount then 1 else 0) ≤
      m.methods.toList.countP fun k => 0 < k.refCount := by
    split
    · next h =>
      exact List.countP_pos_iff.2 ⟨m.methods[id], by simp, by simpa using h⟩
    · exact Nat.zero_le _
  rw [hget]
  simp only [liveMethods, modify_eq_set hi, Array.toList_set]
  rw [List.countP_set (by simpa using hi)]
  simp only [Array.getElem_toList, decide_eq_true_eq]
  by_cases hold : 0 < m.methods[id].refCount <;>
    by_cases hnew : 0 < (f m.methods[id]).refCount <;>
    simp only [hold, hnew, if_true, if_false] at hle ⊢ <;> omega

theorem liveMethods_pos {id : MethodId} (h : 0 < (m.methodAt id).refCount) : 0 < m.liveMethods := by
  have hi := lt_size_of_refCount h
  refine List.countP_pos_iff.2 ⟨m.methods[id], by simp, ?_⟩
  simpa [methodAt, Array.getD_eq_getD_getElem?, hi] using h

theorem liveMethods_acquire {id : MethodId} (h : 0 < (m.methodAt id).refCount) :
    liveMethods { m with
        methods := m.methods.modify id fun k => { k with refCount := k.refCount + 1 } } =
      m.liveMethods := by
  have := liveMethods_modify (lt_size_of_refCount h) fun k => { k with refCount := k.refCount + 1 }
  simp only [h, if_true] at this
  rw [if_pos (by omega)] at this
  omega

theorem outlay_ge (h : 0 < m.liveMethods) : 24 ≤ m.outlay d l := by
  unfold outlay
  omega

/-- A method that loses a reference; the last one gives its bytes back. -/
theorem releaseMethod_memory {o : Int} {id : MethodId} (hb : m.memory.Balanced o [])
    (h1 : 1 ≤ (m.methodAt id).refCount) (ho : 24 ≤ o) :
    Leads (Excused s) (releaseMethod id) m fun _ m' =>
      ∃ pool, m' = { m with
          methods := m.methods.modify id fun k => { k with refCount := k.refCount - 1 }
          memory := { m.memory with pool } } ∧
        m'.memory.Balanced (o - if (m.methodAt id).refCount = 1 then 24 else 0) [] := by
  have hpos : 0 < (m.methodAt id).refCount := by omega
  have hi := lt_size_of_refCount hpos
  simp only [releaseMethod, modifyMethod, Leads.bind_eq, Leads.modify_eq, Leads.get_eq,
    methodAt_modify, hi, and_self, if_true]
  by_cases hone : (m.methodAt id).refCount = 1
  · simp only [hone, Int.sub_self, if_true]
    refine Leads.mono (refund_memory (k := 24) hb rfl (by decide) ho) ?_
    rintro _ _ ⟨pool, rfl, hb'⟩
    exact ⟨pool, rfl, hb'⟩
  · rw [if_neg (by omega), if_neg (by omega)]
    refine ⟨m.memory.pool, rfl, ?_⟩
    rw [if_neg hone, Int.sub_zero]
    exact hb

/-- A method that has a holder has a reference. -/
theorem InForm.refCount_pos {id : MethodId} {n : Nat} (h : m.InForm d)
    (hid : n + (if id = id then 1 else 0) = m.holders d id) : 0 < (m.methodAt id).refCount := by
  have heq := h.held id
  rw [if_pos rfl] at hid
  omega

/-- A holder of a method is gone, so one reference is given back. -/
theorem Books.dismiss {d' : List Duty} {m' : Machine} {id : MethodId} (h : Books s l d H m)
    (hheld : ∀ j, m'.holders d' j + (if id = j then 1 else 0) = m.holders d j)
    (hchange : ∃ frames classes pool, m' = { m with
      frames, classes, memory := { m.memory with pool }
      methods := m.methods.modify id fun k => { k with refCount := k.refCount - 1 } })
    (hb : m'.memory.Balanced (m.outlay d l - if (m.methodAt id).refCount = 1 then 24 else 0) [])
    (hframes : m'.frames.size = m.frames.size) (hclasses : m'.classes.size = m.classes.size)
    (hlinked : (m'.classes.toList.flatMap (·.methods)).Nodup)
    (htag : ∀ f, (m'.frameAt f).isMarker = (m.frameAt f).isMarker)
    (hmarkers : (d' ++ m.duties).flatMap Duty.markers = (d ++ m.duties).flatMap Duty.markers)
    (hmade : (d' ++ m.duties).flatMap Duty.made = (d ++ m.duties).flatMap Duty.made) :
    Books s l d' H m' := by
  obtain ⟨frames, classes, pool, rfl⟩ := hchange
  replace hclasses : classes.size = m.classes.size := hclasses
  have hi := lt_size_of_refCount (h.form.refCount_pos (hheld id))
  refine ⟨hb.congr ?_, ⟨fun f hf => ?_, fun f hf => ?_, fun j => ?_, hlinked⟩, fun hs => ?_⟩
  · have hlive := liveMethods_modify hi fun k => { k with refCount := k.refCount - 1 }
    have hlength := congrArg List.length hmarkers
    simp only [outlay, liveMethods, nodes, savedMarkers, duties, hclasses, List.length_append]
      at hlive hlength ⊢
    split <;> split at hlive <;> split at hlive <;> omega
  · refine hframes ▸ h.form.framed f ?_
    simp only [nodes, savedMarkers, duties] at hf hmarkers ⊢
    rwa [← hmarkers]
  · rw [htag]
    refine h.form.marked f ?_
    simp only [savedMarkers, duties] at hf hmarkers ⊢
    rwa [← hmarkers]
  · have hcount := h.form.held j
    have heq := hheld j
    refine (congrArg Int.ofNat (Nat.eq_sub_of_add_eq heq)).trans ?_
    change Int.ofNat _ = (methodAt { m with
      methods := m.methods.modify id fun k => { k with refCount := k.refCount - 1 } } j).refCount
    rw [methodAt_modify]
    by_cases hj : id = j
    · subst hj
      simp only [hi, and_self, if_true] at heq ⊢
      simp only [Int.ofNat_eq_natCast]
      omega
    · simp only [hj, false_and, if_false] at heq ⊢
      simp only [Int.ofNat_eq_natCast]
      omega
  · obtain ⟨hcounts, hproper⟩ := h.exact hs
    refine ⟨hcounts.of_tally fun r => ?_, hproper.noException, hproper.noPending, fun j p => ?_⟩
    · simp only [tally_append, tally_roots, duties] at hmade ⊢
      rw [hmade]
    · have hsame : (methodAt { m with
          methods := m.methods.modify id fun k => { k with refCount := k.refCount - 1 } } j).native? =
            (m.methodAt j).native? := native?_modify fun _ => rfl
      exact hsame ▸ hproper.noProbe j p

theorem holders_leave (id : MethodId) (w : Window) (b : Int64) (c : Symbol) (j : MethodId) :
    m.holders (.leave id w b c :: d) j = m.holders d j + if id = j then 1 else 0 := by
  simp only [holders, List.cons_append, List.flatMap_cons, Duty.methods, List.nil_append,
    List.count_cons, beq_iff_eq]
  omega

/-- A native call takes a reference to its method, and has to give it back. -/
theorem Ledger.lease {id : MethodId} (w : Window) (b : Int64) (c : Symbol) (h : Ledger s l d H m)
    (hid : 0 < (m.methodAt id).refCount) :
    Ledger s l (.leave id w b c :: d) H { m with
      methods := m.methods.modify id fun k => { k with refCount := k.refCount + 1 } } := by
  have hi := lt_size_of_refCount hid
  refine ⟨⟨h.balanced.congr ?_, ⟨h.form.framed, h.form.marked, fun j => ?_, h.form.linked⟩,
    fun hs => ?_⟩, h.depth, h.manned⟩
  · have := liveMethods_acquire hid
    simp only [outlay, liveMethods, nodes, savedMarkers, duties, List.cons_append,
      List.flatMap_cons, Duty.markers, List.nil_append] at this ⊢
    omega
  · have hcount := h.form.held j
    change (m.holders (.leave id w b c :: d) j : Int) = _
    rw [holders_leave, methodAt_modify]
    by_cases hj : id = j
    · subst hj
      simp only [hi, and_self, if_true]
      omega
    · simp only [hj, false_and, if_false]
      omega
  · obtain ⟨hcounts, hproper⟩ := h.exact hs
    refine ⟨hcounts, hproper.noException, hproper.noPending, fun j p => ?_⟩
    rw [native?_modify (f := fun k => { k with refCount := k.refCount + 1 }) fun _ => rfl]
    exact hproper.noProbe j p

theorem releaseMethod_ledger {id : MethodId} {w : Window} {b : Int64} {c : Symbol}
    (h : Ledger s l (.leave id w b c :: d) H m) :
    Leads (Excused s) (releaseMethod id) m fun _ m' => Ledger s l d H m' := by
  have hheld := fun j => (holders_leave (m := m) (d := d) id w b c j).symm
  have h1 := h.form.refCount_pos (hheld id)
  refine (releaseMethod_memory h.balanced h1 (outlay_ge (liveMethods_pos h1))).mono ?_
  rintro _ _ ⟨pool, rfl, hb⟩
  exact ⟨h.toBooks.dismiss hheld ⟨_, _, _, rfl⟩ hb rfl rfl h.form.linked (fun _ => rfl) rfl rfl,
    h.depth, h.manned⟩

/-! ### Classes -/

theorem count_flatMap_set {α β : Type} [DecidableEq β] (g : α → List β) (xs : List α) (i : Nat)
    (hi : i < xs.length) (x : α) (b : β) :
    ((xs.set i x).flatMap g).count b + (g xs[i]).count b =
      (xs.flatMap g).count b + (g x).count b := by
  induction xs generalizing i with
  | nil => simp at hi
  | cons y ys ih =>
    cases i with
    | zero =>
      simp only [List.set_cons_zero, List.flatMap_cons, List.count_append, List.getElem_cons_zero]
      omega
    | succ i =>
      have := ih i (by simpa using hi)
      simp only [List.set_cons_succ, List.flatMap_cons, List.count_append, List.getElem_cons_succ]
      omega

theorem holders_modifyClass {c : ClassId} (hc : c < m.classes.size) (f : Class → Class)
    (j : MethodId) :
    { m with classes := m.classes.modify c f }.holders d j + (m.classAt c).methods.count j =
      m.holders d j + (f (m.classAt c)).methods.count j := by
  have hget : m.classAt c = m.classes[c] := by
    simp [classAt, Array.getD_eq_getD_getElem?, hc]
  have := count_flatMap_set (fun k : Class => k.methods) m.classes.toList c (by simpa using hc)
    (f m.classes[c]) j
  rw [hget]
  simp only [holders, duties, modify_eq_set hc, Array.toList_set, Array.getElem_toList] at this ⊢
  omega

theorem methodAt_push (k : Method) (j : MethodId) :
    { m with methods := m.methods.push k }.methodAt j =
      if j = m.methods.size then k else m.methodAt j := by
  simp only [methodAt, Array.getD_eq_getD_getElem?, Array.getElem?_push]
  split <;> rfl

theorem holders_addMethod {c : ClassId} (hc : c < m.classes.size) (id j : MethodId) :
    holders d { m with
        classes := m.classes.modify c fun k => { k with methods := id :: k.methods } } j =
      m.holders d j + if j = id then 1 else 0 := by
  have := holders_modifyClass (d := d) hc (fun k => { k with methods := id :: k.methods }) j
  simp only [List.count_cons, beq_iff_eq] at this
  split
  · next hj =>
    subst hj
    simp only [if_true] at this
    omega
  · next hj =>
    rw [if_neg (Ne.symm hj)] at this
    omega

/-- A class that lists its methods anew lists none of them more often, but for a new one. -/
theorem linked_modifyClass {c : ClassId} (hc : c < m.classes.size) (f : Class → Class)
    (hlinked : (m.classes.toList.flatMap (·.methods)).Nodup)
    (hf : ∀ j, (f (m.classAt c)).methods.count j ≤ (m.classAt c).methods.count j ∨
      (f (m.classAt c)).methods.count j ≤ (m.classAt c).methods.count j + 1 ∧ m.holders d j = 0) :
    ((m.classes.modify c f).toList.flatMap (·.methods)).Nodup := by
  refine List.nodup_iff_count_le_one.2 fun j => ?_
  have hget : m.classAt c = m.classes[c] := by
    simp [classAt, Array.getD_eq_getD_getElem?, hc]
  have hcount := count_flatMap_set (fun k : Class => k.methods) m.classes.toList c (by simpa using hc)
    (f m.classes[c]) j
  have hone := List.nodup_iff_count_le_one.1 hlinked j
  have hj := hf j
  rw [hget] at hj
  simp only [modify_eq_set hc, Array.toList_set, Array.getElem_toList] at hcount ⊢
  rcases hj with hj | ⟨hj, hnone⟩
  · omega
  · have hzero : (m.classes.toList.flatMap (·.methods)).count j = 0 := by
      unfold holders at hnone
      omega
    omega

/-- A method that is new is held by nothing yet. -/
theorem InForm.holders_new (h : m.InForm d) : m.holders d m.methods.size = 0 := by
  have hheld := h.held m.methods.size
  have hnone : (m.methodAt m.methods.size).refCount = 0 := by simp [methodAt]
  omega

/-- The books with one more method, whose bytes were granted. -/
theorem addMethod_ledger {c : ClassId} {k : Method} {pool : Pool} (h : Ledger s l d H m)
    (hc : c < m.classes.size) (hk : k.refCount = 1) (hprobe : s → ∀ p, k.native? ≠ some (.probe p))
    (hb : Memory.Balanced (m.outlay d l + 24) [] { m.memory with pool }) :
    Leads (Excused s) (addMethod c k) { m with memory := { m.memory with pool } } fun _ m' =>
      Ledger s l d H m' ∧ m'.control = m.control := by
  simp only [addMethod, modifyClass, Leads.bind_eq, Leads.get_eq, Leads.modify_eq, Leads.pure_eq]
  refine ⟨⟨⟨hb.congr ?_, ⟨h.form.framed, h.form.marked, fun j => ?_, ?_⟩, fun hs => ?_⟩, h.depth,
    h.manned⟩, rfl⟩
  · simp only [outlay, liveMethods, nodes, savedMarkers, duties, Array.size_modify, Array.toList_push,
      List.countP_append, List.countP_cons, List.countP_nil, hk]
    simp
    omega
  · have hheld := h.form.held j
    change (holders d { m with
        classes := m.classes.modify c fun k => { k with methods := m.methods.size :: k.methods } } j
        : Int) = ({ m with methods := m.methods.push k }.methodAt j).refCount
    rw [methodAt_push, holders_addMethod hc]
    split
    · next hj =>
      subst hj
      rw [h.form.holders_new, hk]
      rfl
    · exact hheld
  · refine linked_modifyClass (d := d) hc _ h.form.linked fun j => ?_
    by_cases hj : j = m.methods.size
    · subst hj
      exact .inr ⟨Nat.le_of_eq List.count_cons_self, h.form.holders_new⟩
    · exact .inl (Nat.le_of_eq (List.count_cons_of_ne (Ne.symm hj)))
  · obtain ⟨hcounts, hproper⟩ := h.exact hs
    refine ⟨hcounts, hproper.noException, hproper.noPending, fun j p => ?_⟩
    change ({ m with methods := m.methods.push k }.methodAt j).native? ≠ _
    rw [methodAt_push]
    split
    · exact hprobe hs p
    · exact hproper.noProbe j p

theorem defineNative?_ledger (c : ClassId) (name : Text) {native : Native} (h : Ledger s l d H m)
    (hprobe : s → ∀ p, native ≠ .probe p) :
    Leads (Excused s) (defineNative? c name native) m fun _ m' =>
      Ledger s l d H m' ∧ m'.control = m.control := by
  simp only [defineNative?, Leads.bind_eq]
  refine (chargeMethod_memory h.balanced).mono fun granted m₁ hm₁ => ?_
  cases granted with
  | false =>
    cases hm₁
    exact ⟨h, rfl⟩
  | true =>
    obtain ⟨hc, pool, rfl, hb⟩ := hm₁
    simp only [if_true, Leads.bind_eq, intern, Leads.modifyGet_eq, Leads.pure_eq]
    have h₁ : Ledger s l d H { m with symbols := (m.symbols.intern name).1 } :=
      h.keep rfl h.balanced fun hs => (h.exact hs).counts
    refine addMethod_ledger h₁ hc rfl (fun hs p hp => hprobe hs p ?_) hb
    simpa [Method.native?] using hp

theorem mem_of_ownMethod? {c : ClassId} {name : Symbol} {id : MethodId}
    (h : m.ownMethod? c name = some id) : c < m.classes.size ∧ id ∈ (m.classAt c).methods := by
  have hmem := List.mem_of_find?_eq_some h
  refine ⟨?_, hmem⟩
  rcases Nat.lt_or_ge c m.classes.size with hlt | hge
  · exact hlt
  · simp [classAt, Array.getD_eq_getD_getElem?, Array.getElem?_eq_none hge] at hmem

/-- A method that is found is held by its class. -/
theorem Books.refCount_of_findMethod? {c owner : ClassId} {name : Symbol} {id : MethodId}
    (h : Books s l d H m) (hf : m.findMethod? c name = some (id, owner)) :
    0 < (m.methodAt id).refCount := by
  obtain ⟨k, -, hk⟩ := List.exists_of_findSome?_eq_some hf
  obtain ⟨j, hj, heq⟩ := Option.map_eq_some_iff.1 hk
  cases heq
  obtain ⟨howner, hmem⟩ := mem_of_ownMethod? hj
  have hlist : id ∈ m.classes.toList.flatMap (·.methods) := by
    refine List.mem_flatMap.2 ⟨m.classes[owner], by simp, ?_⟩
    simpa [classAt, Array.getD_eq_getD_getElem?, howner] using hmem
  have hcount := List.count_pos_iff.2 hlist
  have hheld := h.form.held id
  unfold holders at hheld
  omega

/-- A class gives up one of its methods. -/
theorem unlinkMethod_ledger {c : ClassId} {id : MethodId} (hc : c < m.classes.size)
    (hmem : id ∈ (m.classAt c).methods) (h : Ledger s l d H m) :
    Leads (Excused s) (releaseMethod id)
      { m with classes := m.classes.modify c fun k => { k with methods := k.methods.erase id } }
      fun _ m' => Ledger s l d H m' ∧ m'.control = m.control := by
  have hheld : ∀ j, holders d { m with
      classes := m.classes.modify c fun k => { k with methods := k.methods.erase id } } j
        + (if id = j then 1 else 0) = m.holders d j := by
    intro j
    have heq := holders_modifyClass (d := d) hc (fun k => { k with methods := k.methods.erase id }) j
    have hcount := List.count_erase (a := j) (b := id) (l := (m.classAt c).methods)
    have hpos := List.count_pos_iff.2 hmem
    dsimp only at heq
    by_cases hj : id = j
    · subst hj
      simp only [beq_self_eq_true, if_true] at hcount ⊢
      omega
    · rw [if_neg (by simpa using hj)] at hcount
      rw [if_neg hj]
      omega
  have h1 := h.form.refCount_pos (hheld id)
  refine Leads.mono (releaseMethod_memory (o := m.outlay d l) h.balanced h1
    (outlay_ge (liveMethods_pos h1))) ?_
  rintro _ _ ⟨pool, rfl, hb⟩
  have hlinked := linked_modifyClass (d := d) hc (fun k => { k with methods := k.methods.erase id })
    h.form.linked fun j => .inl (List.erase_sublist.count_le j)
  exact ⟨⟨h.toBooks.dismiss hheld ⟨_, _, _, rfl⟩ hb rfl (by simp) hlinked (fun _ => rfl) rfl rfl,
    h.depth, h.manned⟩, rfl⟩

theorem installCode?_ledger (c : ClassId) (name : Symbol) (code : Code) (h : Ledger s l d H m) :
    Leads (Excused s) (installCode? c name code) m fun _ m' =>
      Ledger s l d H m' ∧ m'.control = m.control := by
  have hadd : ∀ m₁, Ledger s l d H m₁ → m₁.control = m.control →
      Leads (Excused s) (chargeMethod c) m₁ fun granted m₂ =>
        Leads (Excused s) (if granted = true then do
            return some (← addMethod c { symbol := name, body := .code code }) else return none) m₂
          fun _ m' => Ledger s l d H m' ∧ m'.control = m.control := by
    intro m₁ h₁ hc₁
    refine (chargeMethod_memory h₁.balanced).mono fun granted m₂ hm₂ => ?_
    cases granted with
    | false =>
      cases hm₂
      exact ⟨h₁, hc₁⟩
    | true =>
      obtain ⟨hc, pool, rfl, hb⟩ := hm₂
      simp only [if_true, Leads.bind_eq, Leads.pure_eq]
      refine (addMethod_ledger h₁ hc rfl (fun _ _ hp => by cases hp) hb).mono ?_
      exact fun _ m₃ ⟨h₃, hc₃⟩ => ⟨h₃, hc₃.trans hc₁⟩
  simp only [installCode?, modifyClass, Leads.bind_eq, Leads.get_eq]
  split
  · next old hold =>
    obtain ⟨hc, hmem⟩ := mem_of_ownMethod? hold
    simp only [Leads.bind_eq, Leads.modify_eq]
    exact (unlinkMethod_ledger hc hmem h).mono fun _ m₁ ⟨h₁, hc₁⟩ => hadd m₁ h₁ hc₁
  · rw [Leads.bind_eq]
    exact hadd m h rfl

theorem Ledger.addClass {k : Class} {pool : Pool} {pinned : Int64} (h : Ledger s l d H m)
    (hgrant : m.memory.pool.alloc? classBytes = some pool) (hk : k.methods = []) :
    Ledger s l d H { m with
      memory := { m.memory with pool := { pool with pinned } }
      classes := m.classes.push k } := by
  have hb := h.balanced.alloc hgrant (by decide)
  refine ⟨⟨?_, ⟨h.form.framed, h.form.marked, fun j => ?_, ?_⟩, fun hs => ?_⟩, h.depth, h.manned⟩
  · refine Memory.Balanced.congr
      ⟨hb.nonneg, hb.used, hb.live, hb.sound, hb.room, hb.tidy⟩ ?_
    simp only [outlay, liveMethods, nodes, savedMarkers, duties, Array.size_push, toInt_classBytes]
    omega
  · refine Eq.trans (congrArg Int.ofNat ?_) (h.form.held j)
    simp [holders, duties, hk]
  · simpa [hk] using h.form.linked
  · obtain ⟨hcounts, hproper⟩ := h.exact hs
    exact ⟨hcounts, hproper.noException, hproper.noPending, hproper.noProbe⟩

theorem defineClass_ledger (name : Text) (super : Option ClassId) (h : Ledger s l d H m) :
    Leads (Excused s) (defineClass name super) m fun _ m' =>
      Ledger s l d H m' ∧ m'.control = m.control := by
  simp only [defineClass, Leads.bind_eq]
  refine (intern_ledger h name).mono fun k m₁ ⟨h₁, hq₁, _⟩ => ?_
  simp only [Leads.get_eq]
  split
  · exact ⟨h₁, control_of_skeleton hq₁.1⟩
  · exact ⟨nofun, fun _ h => h, nofun⟩
  · simp only [Leads.bind_eq, Leads.get_eq]
    split
    · next pool hpin =>
      obtain ⟨granted, hgrant, rfl⟩ := Option.map_eq_some_iff.1 hpin
      simp only [Leads.bind_eq, Leads.set_eq, Leads.pure_eq]
      refine Leads.mono (setConstant_ledger (h₁.addClass hgrant rfl) k
        fun _ => Memory.live_of_immediate rfl) fun _ m₂ ⟨h₂, hq₂⟩ => ⟨h₂, ?_⟩
      have hc₁ : m₁.control = m.control := control_of_skeleton hq₁.1
      rw [control_of_skeleton hq₂.1]
      exact hc₁
    · exact ⟨nofun, fun _ h => h, nofun⟩

end ObjectMachine.Machine
