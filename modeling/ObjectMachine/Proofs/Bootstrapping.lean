import ObjectMachine.Proofs.Resolution

/-! What a new machine has, by the size of its pool. The classes are charged first, the methods
next and the main object last. A class or a main object that does not fit is a fault; a method that
does not fit is left out. Methods cost the same each, so those that were granted are the first ones
of the list. The main object is smaller than a method: it may still fit where a method did not. -/

namespace ObjectMachine

/-! ### Symbols -/

namespace SymbolTable

variable {t : SymbolTable} {name other : Text} {s : Symbol}

/-- The number of a name leads back to the name. -/
def Inverse (t : SymbolTable) : Prop := ∀ name s, t.lookup? name = some s → t.names[s]? = some name

theorem lookup?_intern_self (t : SymbolTable) (name : Text) :
    (t.intern name).1.lookup? name = some (t.intern name).2 := by
  rw [intern]
  split
  · next h => exact h
  · simp [lookup?]

theorem lookup?_intern_of_some (h : t.lookup? other = some s) :
    (t.intern name).1.lookup? other = some s := by
  by_cases hname : name = other
  · subst hname
    rw [intern, h]
    exact h
  · rw [Machine.lookup?_intern hname, h]

theorem Inverse.intern (h : t.Inverse) (name : Text) : (t.intern name).1.Inverse := by
  intro other s hs
  cases hold : t.lookup? name with
  | some id =>
    rw [SymbolTable.intern, hold] at hs ⊢
    exact h other s hs
  | none =>
    by_cases hname : name = other
    · subst hname
      rw [lookup?_intern_self, Machine.intern_of_lookup? hold] at hs
      cases hs
      rw [Machine.intern_of_lookup? hold]
      exact Array.getElem?_push_size
    · rw [Machine.lookup?_intern hname] at hs
      rw [Machine.intern_of_lookup? hold]
      have hlt := (Array.getElem?_eq_some_iff.1 (h other s hs)).1
      rw [Array.getElem?_push_lt hlt, ← Array.getElem?_eq_getElem hlt]
      exact h other s hs

theorem Inverse.inj (h : t.Inverse) (hname : t.lookup? name = some s)
    (hother : t.lookup? other = some s) : name = other :=
  Option.some.inj ((h name s hname).symm.trans (h other s hother))

theorem Inverse.eq_of_intern (h : t.Inverse) (hs : t.lookup? other = some (t.intern name).2) :
    other = name :=
  (h.intern name).inj (lookup?_intern_of_some hs) (lookup?_intern_self t name)

end SymbolTable

/-! ### Pools -/

/-- A pool of `capacity` bytes with `used` of them in use. -/
structure Pool.Holds (p : Pool) (capacity used : Nat) : Prop where
  size : p.size.toInt = capacity
  used : p.used.toInt = used

/-- Bytes are granted just when they fit. -/
theorem Pool.Holds.alloc? {p : Pool} {capacity used k : Nat} {n : Int64} (h : p.Holds capacity used)
    (hn : n.toInt = k) (hlt : used + k < 2 ^ 63) :
    (used + k ≤ capacity ∧ ∃ p', p.alloc? n = some p' ∧ p'.Holds capacity (used + k)) ∨
      (capacity < used + k ∧ p.alloc? n = none) := by
  have hsum : (p.used + n).toInt = used + k := by
    rw [toInt_add (by rw [h.used, hn]; omega) (by rw [h.used, hn]; omega), h.used, hn]
  have hnonneg : ¬n < 0 := by
    rw [Int64.lt_iff_toInt_lt, hn]
    exact Int.not_lt.2 (Int.natCast_nonneg k)
  have hover : p.used + n > p.size ↔ capacity < used + k := by
    rw [gt_iff_lt, Int64.lt_iff_toInt_lt, hsum, h.size]
    omega
  by_cases hfits : used + k ≤ capacity
  · have hgrant : ¬(n < 0 ∨ p.used + n > p.size) :=
      fun hor => hor.elim hnonneg fun hgt => absurd (hover.1 hgt) (Nat.not_lt.2 hfits)
    exact .inl ⟨hfits, _, if_neg hgrant, h.size, hsum⟩
  · have hlt := Nat.not_le.1 hfits
    exact .inr ⟨hlt, if_pos (.inr (hover.2 hlt))⟩

theorem Pool.Holds.pin? {p : Pool} {capacity used k : Nat} {n : Int64} (h : p.Holds capacity used)
    (hn : n.toInt = k) (hlt : used + k < 2 ^ 63) :
    (used + k ≤ capacity ∧ ∃ p', p.pin? n = some p' ∧ p'.Holds capacity (used + k)) ∨
      (capacity < used + k ∧ p.pin? n = none) := by
  rw [Pool.pin?]
  rcases h.alloc? hn hlt with ⟨hfits, p', hp, hholds⟩ | ⟨hover, hp⟩
  · rw [hp]
    exact .inl ⟨hfits, _, rfl, hholds.size, hholds.used⟩
  · rw [hp]
    exact .inr ⟨hover, rfl⟩

/-! ### Methods -/

namespace Config

def methods (c : Config) : List (ClassId × Text × Native) :=
  if c.debugMethods then coreMethods ++ ObjectMachine.debugMethods else coreMethods

def bytes (c : Config) : Nat := (Machine.effective c).poolSize.toInt.toNat

/-- How many of `k` methods fit where `used` bytes are in use. -/
def room (c : Config) (used k : Nat) : Nat := min k ((c.bytes - used) / 24)

def granted (c : Config) : Nat := c.room 256 c.methods.length

end Config

namespace Machine

variable {c : Config} {m m' : Machine} {used total n : Nat} {x : ClassId × Text × Native}
  {xs : List (ClassId × Text × Native)}

/-- A class answers the name of a method of its own with this method. -/
def Resolves (m : Machine) (x : ClassId × Text × Native) : Prop :=
  ∃ id, m.findMethod? x.1 (m.symbols.intern x.2.1).2 = some (id, x.1) ∧
    (m.methodAt id).body = .native x.2.2

/-- The method of a list is the one that was installed. -/
structure Defines (m : Machine) (x : ClassId × Text × Native) (e : Installation) : Prop where
  owner : e.owner = x.1
  name : m.symbols.lookup? x.2.1 = some e.name
  body : e.body = .native x.2.2

/-- A machine at its start: `used` bytes of the pool are in use, `n` classes are defined, and just
the methods `xs`. -/
structure Stage (c : Config) (used n : Nat) (xs : List (ClassId × Text × Native)) (m : Machine) :
    Prop where
  debug : m.config.debugMethods = c.debugMethods
  pool : m.memory.pool.Holds c.bytes used
  classes : m.classes.size = n
  symbols : m.symbols.Inverse
  methods : ∃ log, Faithful log m ∧ (∀ e ∈ log, ∃ x ∈ xs, Defines m x e) ∧
    ∀ x ∈ xs, ∃ e ∈ log, Defines m x e

/-- A class or the main object was refused by a pool of less than `total` bytes. -/
def Refused (c : Config) (total : Nat) (f : Fault) (_ : Machine) : Prop :=
  c.bytes < total ∧ (f = .fatal .noMemoryForMain ∨ ∃ name, f = .fatal (.noMemoryForClass name))

namespace Stage

/-- Of methods with different keys, those of the list are found. -/
theorem resolves_iff (h : Stage c used n xs m)
    (hkey : ∀ y ∈ xs, y.1 = x.1 → y.2.1 = x.2.1 → y = x) : m.Resolves x ↔ x ∈ xs := by
  obtain ⟨log, hf, hsound, hcomplete⟩ := h.methods
  constructor
  · rintro ⟨id, hfound, -⟩
    obtain ⟨-, -, -, e, he, -⟩ := hf.findMethod?_eq_some.1 hfound
    have heq := List.find?_some he
    simp only [Bool.and_eq_true, beq_iff_eq] at heq
    obtain ⟨y, hy, hdefines⟩ := hsound e (List.mem_of_find?_eq_some he)
    have howner : y.1 = x.1 := hdefines.owner.symm.trans heq.1
    have hname : y.2.1 = x.2.1 := h.symbols.eq_of_intern (hdefines.name.trans (congrArg some heq.2))
    exact hkey y hy howner hname ▸ hy
  · intro hx
    obtain ⟨e, he, hdefines⟩ := hcomplete x hx
    have hsymbol : (m.symbols.intern x.2.1).2 = e.name := by
      rw [SymbolTable.intern, hdefines.name]
    obtain ⟨e', he'⟩ : ∃ e', Installation.last? log x.1 e.name = some e' := by
      refine Option.isSome_iff_exists.1 (List.find?_isSome.2 ⟨e, he, ?_⟩)
      simp [hdefines.owner]
    have hmem := List.mem_of_find?_eq_some he'
    have heq := List.find?_some he'
    simp only [Bool.and_eq_true, beq_iff_eq] at heq
    -- the entry that answers is another one only if it has the same key
    obtain ⟨y, hy, hdefines'⟩ := hsound e' hmem
    have hname : y.2.1 = x.2.1 :=
      h.symbols.inj (hdefines'.name.trans (congrArg some heq.2)) hdefines.name
    obtain rfl := hkey y hy (hdefines'.owner.symm.trans heq.1) hname
    refine ⟨e'.method, ?_, (hf.logged e' hmem).2.2.2.trans hdefines'.body⟩
    rw [hsymbol]
    exact hf.findMethod?_eq_some.2 ⟨0, rfl, fun i hi => absurd hi i.not_lt_zero, e', he', rfl⟩

/-- What is defined stays when names are interned and the lists of methods answer as before. -/
theorem keep {used' n' : Nat} (h : Stage c used n xs m) (hconfig : m'.config = m.config)
    (hpool : m'.memory.pool.Holds c.bytes used') (hclasses : m'.classes.size = n')
    (hsymbols : m'.symbols = m.symbols ∨ ∃ name, m'.symbols = (m.symbols.intern name).1)
    (hf : ∀ log, Faithful log m → Faithful log m') : Stage c used' n' xs m' := by
  obtain ⟨log, hlog, hsound, hcomplete⟩ := h.methods
  have hkept : ∀ y e, Defines m y e → Defines m' y e := by
    intro y e hd
    refine ⟨hd.owner, ?_, hd.body⟩
    rcases hsymbols with heq | ⟨name, heq⟩
    · rw [heq, hd.name]
    · rw [heq, SymbolTable.lookup?_intern_of_some hd.name]
  refine ⟨hconfig ▸ h.debug, hpool, hclasses, ?_, log, hf log hlog, fun e he => ?_, fun y hy => ?_⟩
  · rcases hsymbols with heq | ⟨name, heq⟩
    · exact heq ▸ h.symbols
    · exact heq ▸ h.symbols.intern name
  · obtain ⟨y, hy, hd⟩ := hsound e he
    exact ⟨y, hy, hkept y e hd⟩
  · obtain ⟨e, he, hd⟩ := hcomplete y hy
    exact ⟨e, he, hkept y e hd⟩

theorem intern (h : Stage c used n xs m) (name : Text) :
    Stage c used n xs { m with symbols := (m.symbols.intern name).1 } :=
  h.keep rfl h.pool h.classes (.inr ⟨name, rfl⟩) fun _ hf => hf.unaffected (.of_eq rfl rfl)

/-- A method that was added is defined beside the others. -/
theorem add {used' : Nat} {id : MethodId} (h : Stage c used n xs m) (hx : x.1 < n)
    (hconfig : m'.config = m.config) (hpool : m'.memory.pool.Holds c.bytes used')
    (hclasses : m'.classes.size = n) (hsymbols : m'.symbols = (m.symbols.intern x.2.1).1)
    (ha : Adds ⟨x.1, (m.symbols.intern x.2.1).2, id, .native x.2.2⟩ m m') :
    Stage c used' n (xs ++ [x]) m' := by
  obtain ⟨log, hlog, hsound, hcomplete⟩ := h.methods
  have hkept : ∀ y e, Defines m y e → Defines m' y e := fun y e hd =>
    ⟨hd.owner, hsymbols ▸ SymbolTable.lookup?_intern_of_some hd.name, hd.body⟩
  have hnew : Defines m' x ⟨x.1, (m.symbols.intern x.2.1).2, id, .native x.2.2⟩ :=
    ⟨rfl, hsymbols ▸ SymbolTable.lookup?_intern_self _ _, rfl⟩
  refine ⟨hconfig ▸ h.debug, hpool, hclasses, hsymbols ▸ h.symbols.intern _, _,
    hlog.install (h.classes.symm ▸ hx) ha, fun e he => ?_, fun y hy => ?_⟩
  · rcases List.mem_cons.1 he with rfl | he
    · exact ⟨x, List.mem_append_right xs List.mem_cons_self, hnew⟩
    · obtain ⟨y, hy, hd⟩ := hsound e he
      exact ⟨y, List.mem_append_left [x] hy, hkept y e hd⟩
  · rcases List.mem_append.1 hy with hy | hy
    · obtain ⟨e, he, hd⟩ := hcomplete y hy
      exact ⟨e, List.mem_cons_of_mem _ he, hkept y e hd⟩
    · obtain rfl := List.mem_singleton.1 hy
      exact ⟨_, List.mem_cons_self, hnew⟩

/-! ### The start -/

theorem defineClass {name : Text} {names : List Text} (super : Option ClassId)
    (h : Stage c used n xs m) (hu : Unheard (name :: names) m) (hne : name ∉ names)
    (hsuper : ∀ k, super = some k → k < n) (htotal : used + 16 ≤ total) (hlt : total < 2 ^ 63) :
    Leads (Refused c total) (Machine.defineClass name super) m fun _ m' =>
      Stage c (used + 16) (n + 1) xs m' ∧ Unheard names m' := by
  have hbytes : classBytes.toInt = (16 : Nat) := rfl
  have hpool := h.pool.pin? hbytes (by omega)
  have hfaithful : Leads AnyFault (Machine.defineClass name super) m fun _ m' =>
      ∀ log, Faithful log m → Faithful log m' :=
    .intro (fun _ _ hok _ hf => (hf.define name (h.classes.symm ▸ hsuper)).of_ok hok)
      fun _ _ _ => trivial
  refine ((defineClass_new super hu hne).and hfaithful).imp ?_ ?_
  · rintro _ _ ⟨rfl, hnone⟩
    rcases hpool with ⟨-, p, hp, -⟩ | ⟨hover, -⟩
    · cases hnone.symm.trans hp
    · exact ⟨Nat.lt_of_lt_of_le hover htotal, .inr ⟨name, rfl⟩⟩
  · rintro _ m' ⟨⟨hsize, hrest, hconfig, hpin, hsymbols⟩, hf⟩
    rcases hpool with ⟨-, p, hp, hholds⟩ | ⟨-, hnone⟩
    · obtain rfl := Option.some.inj (hp.symm.trans hpin)
      exact ⟨h.keep hconfig hholds (by rw [hsize, h.classes]) (.inr ⟨name, hsymbols⟩) hf, hrest⟩
    · cases hnone.symm.trans hpin

theorem defineClasses (cs : List (Text × ClassId)) (h : Stage c used n xs m)
    (hu : Unheard (cs.map (·.1)) m) (hdistinct : (cs.map (·.1)).Nodup)
    (horder : ∀ x ∈ cs.zipIdx n, x.1.2 < x.2) (htotal : used + 16 * cs.length ≤ total)
    (hlt : total < 2 ^ 63) :
    Leads (Refused c total) (Machine.defineClasses cs) m fun _ m' =>
      Stage c (used + 16 * cs.length) (n + cs.length) xs m' := by
  induction cs generalizing used n m with
  | nil => exact h
  | cons x cs ih =>
    obtain ⟨name, super⟩ := x
    obtain ⟨hne, hdistinct⟩ := List.nodup_cons.1 hdistinct
    rw [List.zipIdx_cons] at horder
    rw [List.length_cons] at htotal
    have hsuper : ∀ k, some super = some k → k < n := by
      rintro k ⟨⟩
      exact horder _ List.mem_cons_self
    simp only [Machine.defineClasses, Leads.bind_eq, Leads.discard_eq]
    refine (h.defineClass (some super) hu hne hsuper (by omega) hlt).mono ?_
    rintro _ m₁ ⟨h₁, hu₁⟩
    have hrest := ih h₁ hu₁ hdistinct (fun y hy => horder y (List.mem_cons_of_mem _ hy)) (by omega)
    refine hrest.mono fun _ m₂ h₂ => ?_
    convert h₂ using 1
    · rw [List.length_cons]
      omega
    · rw [List.length_cons]
      omega

/-- A method is defined when its bytes fit, and else left out. -/
theorem defineNative? (h : Stage c used n xs m) (hx : x.1 < n) (hlt : used + 24 < 2 ^ 63) :
    Leads NoFault (Machine.defineNative? x.1 x.2.1 x.2.2) m fun _ m' =>
      (used + 24 ≤ c.bytes ∧ Stage c (used + 24) n (xs ++ [x]) m') ∨
        (c.bytes < used + 24 ∧ Stage c used n xs m') := by
  have hbytes : methodBytes.toInt = (24 : Nat) := rfl
  simp only [Machine.defineNative?, chargeMethod, charge, Leads.bind_eq, Leads.get_eq,
    if_pos (h.classes.symm ▸ hx), Leads.modifyGet_eq]
  rcases h.pool.alloc? hbytes hlt with ⟨hfits, p, hp, hholds⟩ | ⟨hover, hnone⟩
  · simp only [hp, if_true, Machine.intern, Leads.bind_eq, Leads.modifyGet_eq, Leads.pure_eq]
    refine .of_eq (addMethod_eq _ _) (.inl ⟨hfits, ?_⟩)
    have hadds : Adds ⟨x.1, (m.symbols.intern x.2.1).2, m.methods.size, .native x.2.2⟩ m _ :=
      ⟨rfl, { m with symbols := (m.symbols.intern x.2.1).1, memory := { m.memory with pool := p } },
        Unaffected.unlinks (.of_eq rfl rfl), rfl⟩
    exact h.add hx rfl hholds (Array.size_modify.trans h.classes) rfl hadds
  · simp only [hnone]
    exact .inr ⟨hover, h⟩

/-- Methods are defined as far as they fit. -/
theorem defineNatives (ns : List (ClassId × Text × Native)) (h : Stage c used n xs m)
    (hns : ∀ x ∈ ns, x.1 < n) (hlt : used + 24 * ns.length < 2 ^ 63) :
    Leads NoFault (Machine.defineNatives ns) m fun _ m' =>
      Stage c (used + 24 * c.room used ns.length) n (xs ++ ns.take (c.room used ns.length)) m' := by
  induction ns generalizing used xs m with
  | nil =>
    rw [List.take_nil, List.append_nil, Config.room, List.length_nil, Nat.zero_min]
    exact h
  | cons x ns ih =>
    rw [List.length_cons] at hlt
    simp only [Machine.defineNatives, Leads.bind_eq, Leads.discard_eq]
    refine (h.defineNative? (hns x List.mem_cons_self) (by omega)).mono fun _ m₁ hstage => ?_
    have hrest : ∀ y ∈ ns, y.1 < n := fun y hy => hns y (List.mem_cons_of_mem _ hy)
    rcases hstage with ⟨hfits, h₁⟩ | ⟨hover, h₁⟩
    · have hroom : c.room used (ns.length + 1) = c.room (used + 24) ns.length + 1 := by
        simp only [Config.room]
        omega
      refine (ih h₁ hrest (by omega)).mono fun _ m₂ h₂ => ?_
      rw [List.length_cons, hroom, List.take_succ_cons]
      rw [List.append_assoc, List.singleton_append] at h₂
      convert h₂ using 1
      omega
    · have hroom : ∀ k, c.room used k = 0 := by
        intro k
        simp only [Config.room]
        omega
      refine (ih h₁ hrest (by omega)).mono fun _ m₂ h₂ => ?_
      simpa only [hroom, List.take_zero] using h₂

theorem defineMain (h : Stage c used n xs m) (hlt : used + 16 < 2 ^ 63) :
    Leads (Refused c (used + 16)) (newInstance .object) m fun v m₁ =>
      Leads (Refused c (used + 16)) (do
        if v.isNil then fatal .noMemoryForMain
        modify fun m => { m with topSelf := v }) m₁ fun _ m' =>
          used + 16 ≤ c.bytes ∧ Stage c (used + 16) n xs m' := by
  have hbytes : instanceBytes.toInt = (16 : Nat) := rfl
  simp only [newInstance, Machine.allocate?, Memory.allocate?, Leads.bind_eq, Leads.modifyGet_eq]
  rcases h.pool.alloc? hbytes hlt with ⟨hfits, p, hp, hholds⟩ | ⟨hover, hnone⟩
  · simp only [hp, Option.map_some]
    refine ⟨hfits, h.keep rfl hholds h.classes (.inl rfl) fun _ hf => ?_⟩
    exact hf.unaffected (.of_eq rfl rfl)
  · simp only [hnone, Option.map_none]
    exact ⟨hover, .inl rfl⟩

end Stage

theorem blank_stage (c : Config) : Stage c 0 0 [] (blank (effective c)) := by
  have hpositive : 0 ≤ (effective c).poolSize.toInt := by
    simp only [effective]
    split
    · decide
    · next hpos =>
      have hlt := Int64.not_le.1 hpos
      rw [Int64.lt_iff_toInt_lt] at hlt
      exact Int.le_of_lt hlt
  refine ⟨rfl, ⟨(Int.toNat_of_nonneg hpositive).symm, rfl⟩, rfl, ?_, [], ?_, fun e he => ?_,
    fun x hx => ?_⟩
  · intro name s hs
    cases hs
  · exact (History.blank (effective c)).faithful
  · cases he
  · cases hx

/-- What fits of two lists in a row. -/
theorem room_append (c : Config) (used j k : Nat) :
    c.room used (j + k) = c.room used j + c.room (used + 24 * c.room used j) k := by
  simp only [Config.room]
  omega

theorem take_room_append (c : Config) (used : Nat) (xs ys : List (ClassId × Text × Native)) :
    (xs ++ ys).take (c.room used (xs ++ ys).length) = xs.take (c.room used xs.length) ++
      ys.take (c.room (used + 24 * c.room used xs.length) ys.length) := by
  rw [List.length_append, room_append, List.take_append]
  have hle : c.room used xs.length ≤ xs.length := Nat.min_le_left _ _
  rcases Nat.lt_or_eq_of_le hle with hlt | heq
  · have hnone : c.room (used + 24 * c.room used xs.length) ys.length = 0 := by
      simp only [Config.room] at hlt ⊢
      omega
    rw [hnone, Nat.add_zero, Nat.sub_eq_zero_of_le hle]
  · rw [heq, List.take_of_length_le (Nat.le_add_right _ _), List.take_length, Nat.add_sub_cancel_left]

/-- The methods of a machine are defined as far as they fit. -/
theorem bootstrap_leads (c : Config) :
    Leads (Refused c (272 + 24 * c.granted)) bootstrap (blank (effective c)) fun _ m' =>
      272 + 24 * c.granted ≤ c.bytes ∧
        Stage c (272 + 24 * c.granted) 16 (c.methods.take c.granted) m' := by
  have hcore : ∀ x ∈ coreMethods, x.1 < 16 := by decide
  have hdebug : ∀ x ∈ debugMethods, x.1 < 16 := by decide
  have hfew : c.granted ≤ 36 := by
    refine Nat.le_trans (Nat.min_le_left _ _) ?_
    unfold Config.methods
    split <;> decide
  have hunheard : Unheard ("Object" :: coreClasses.map (·.1)) (blank (effective c)) :=
    ⟨fun _ _ => rfl, fun _ hx => absurd hx List.not_mem_nil⟩
  have hnever : ∀ {α : Type} {a : Action α} {m : Machine} {Q : α → Machine → Prop},
      Leads NoFault a m Q → Leads (Refused c (272 + 24 * c.granted)) a m Q :=
    fun h => h.imp (fun _ _ => False.elim) fun _ _ => id
  simp only [bootstrap, Machine.intern, Leads.bind_eq, Leads.discard_eq, Leads.modifyGet_eq,
    Leads.get_eq]
  refine Leads.mono (((blank_stage c).intern []).defineClass none (hunheard.intern (by decide))
    (by decide) (fun k hk => absurd hk.symm (Option.some_ne_none k)) (by omega) (by omega)) ?_
  rintro _ m₁ ⟨h₁, hu₁⟩
  have hclasses : 0 + 16 + 16 * coreClasses.length ≤ 272 + 24 * c.granted :=
    Nat.le_trans (show _ ≤ 272 by decide) (Nat.le_add_right _ _)
  refine Leads.mono (h₁.defineClasses coreClasses hu₁ (by decide) (by decide) hclasses (by omega))
    fun _ m₂ h₂ => ?_
  refine (hnever (((h₂.intern _).intern _).defineNatives coreMethods hcore (by decide))).mono ?_
  intro _ m₃ h₃
  have hmain : ∀ m₄, Stage c (256 + 24 * c.granted) 16 (c.methods.take c.granted) m₄ →
      Leads (Refused c (272 + 24 * c.granted)) (newInstance .object) m₄ fun v m₅ =>
        Leads (Refused c (272 + 24 * c.granted)) (do
          if v.isNil then fatal .noMemoryForMain
          modify fun m => { m with topSelf := v }) m₅ fun _ m' => 272 + 24 * c.granted ≤ c.bytes ∧
            Stage c (272 + 24 * c.granted) 16 (c.methods.take c.granted) m' := by
    intro m₄ h₄
    rw [show 272 + 24 * c.granted = 256 + 24 * c.granted + 16 by omega]
    exact h₄.defineMain (by omega)
  split
  · next hon =>
    have hmethods : c.methods = coreMethods ++ debugMethods := if_pos (h₃.debug.symm.trans hon)
    simp only [Leads.bind_eq]
    refine (hnever (h₃.defineNatives debugMethods hdebug ?_)).mono fun _ m₄ h₄ => hmain m₄ ?_
    · have hroom : c.room 256 coreMethods.length ≤ 32 := Nat.min_le_left _ _
      show 256 + 24 * c.room 256 coreMethods.length + 24 * 4 < 2 ^ 63
      omega
    · rw [Config.granted, hmethods, take_room_append, List.length_append, room_append, Nat.mul_add,
        ← Nat.add_assoc]
      exact h₄
  · next hoff =>
    have hmethods : c.methods = coreMethods := if_neg fun hon => hoff (h₃.debug.trans hon)
    rw [Leads.bind_eq]
    refine hmain m₃ ?_
    rw [Config.granted, hmethods]
    exact h₃

/-- No class has two methods of one name in the list. -/
theorem methods_keys (c : Config) : (c.methods.map fun x => (x.1, x.2.1)).Nodup := by
  unfold Config.methods
  split <;> decide +kernel

theorem create_equipped (hm : create c = .ok m) : 272 + 24 * c.granted ≤ c.bytes ∧
    ∀ x ∈ c.methods, m.Resolves x ↔ x ∈ c.methods.take c.granted := by
  unfold create at hm
  split at hm
  · next hrun =>
    cases hm
    obtain ⟨hfits, hstage⟩ := (bootstrap_leads c).of_ok hrun
    refine ⟨hfits, fun x hx => hstage.resolves_iff fun y hy howner hname => ?_⟩
    have hmem := List.mem_of_mem_take hy
    exact List.inj_on_of_nodup_map (methods_keys c) hmem hx (Prod.ext howner hname)
  · cases hm

theorem create_refused {f : Fault} (hf : create c = .error f) : c.bytes < 272 + 24 * c.granted ∧
    (f = .fatal .noMemoryForMain ∨ ∃ name, f = .fatal (.noMemoryForClass name)) := by
  unfold create at hf
  split at hf
  · cases hf
  · next hrun =>
    cases hf
    exact (bootstrap_leads c).of_error hrun

theorem exists_create_iff (c : Config) :
    (∃ m, create c = .ok m) ↔ 272 + 24 * c.granted ≤ c.bytes := by
  constructor
  · rintro ⟨m, hm⟩
    exact (create_equipped hm).1
  · intro hfits
    cases hcreate : create c with
    | ok m => exact ⟨m, rfl⟩
    | error f => exact absurd (create_refused hcreate).1 (Nat.not_lt.2 hfits)

end Machine

open Machine

/-- What a new machine has is decided by the bytes of its pool. Its sixteen classes take 256 of
them, each method 24 and the main object 16. A machine is made just when the main object fits
behind the methods that fit; else its start ends with a fault that names what was refused. The
methods that a machine has are the first ones of the list, as many as fit. So every machine of a
size has all its methods unless the size is one where a method does not fit and the main object
still does. -/
theorem bootstrap_exact (c : Config) :
    ((∃ m, create c = .ok m) ↔ 272 + 24 * c.granted ≤ c.bytes) ∧
    (∀ f, create c = .error f →
      f = .fatal .noMemoryForMain ∨ ∃ name, f = .fatal (.noMemoryForClass name)) ∧
    (∀ m, create c = .ok m → ∀ x ∈ c.methods, m.Resolves x ↔ x ∈ c.methods.take c.granted) ∧
    ((∀ m, create c = .ok m → ∀ x ∈ c.methods, m.Resolves x) ↔
      (c.bytes < 256 + 24 * c.methods.length → (c.bytes - 256) % 24 < 16)) := by
  have hgranted : c.granted = min c.methods.length ((c.bytes - 256) / 24) := rfl
  refine ⟨exists_create_iff c, fun f hf => (create_refused hf).2, fun m hm => (create_equipped hm).2,
    fun hall hshort => ?_, fun hsize m hm x hx => ((create_equipped hm).2 x hx).2 ?_⟩
  · by_contra hroom
    obtain ⟨m, hm⟩ := (exists_create_iff c).2 (by omega)
    have hsub : c.methods ⊆ c.methods.take c.granted := fun x hx =>
      ((create_equipped hm).2 x hx).1 (hall m hm x hx)
    have hlength := ((methods_keys c).of_map.subperm hsub).length_le
    rw [List.length_take] at hlength
    omega
  · have hfits := (create_equipped hm).1
    rwa [List.take_of_length_le (by omega)]

/-- A pool of 1023 bytes has no room for the last method, but for the main object. -/
theorem bootstrap_incomplete : ∃ m, create { poolSize := 1023 } = .ok m ∧
    (ClassId.object, ("puts" : Text), Native.put) ∈ Config.methods { poolSize := 1023 } ∧
    m.findMethod? .object (m.symbols.intern "puts").2 = none := by
  have hrun : ∃ m ∈ (create { poolSize := 1023 }).toOption,
      m.findMethod? .object (m.symbols.intern "puts").2 = none := by
    decide +kernel
  obtain ⟨m, hm, hnone⟩ := hrun
  exact ⟨m, create_of_toOption hm, by decide, hnone⟩

end ObjectMachine
