import ObjectMachine.Proofs.Constructors
import ObjectMachine.Proofs.Floors

/-! Windows follow the chain. A pass runs in the window that the newest call on its part of the
chain entered, or where it began; each call saves the window below its own, and a marker the one
in which it was pushed. As long as no pass is stopped above its entry, control never comes to a
window that is not that of the newest call. -/

namespace ObjectMachine

namespace Control

section Windows

variable (k : FrameId → Frame) (w : FrameId → Int64) (entry : Option FrameId) (floor : Int64)

/-- The window that the newest call among some frames entered, or the one at `floor`. -/
def topWindow : List FrameId → Int64
  | [] => floor
  | f :: fs => if (k f).isMarker then topWindow fs else w f

/-- Where a marker leads back to among the frames `fs`, its window is that of the newest call. -/
def Returns (fs : List FrameId) (f : FrameId) : Prop :=
  ∀ gs, gs <:+ fs → gs.head?.or entry = (k f).depth → (k f).base = topWindow k w floor gs

/-- Every frame saves the window of the newest call below it. -/
def Saves : List FrameId → Prop
  | [] => True
  | f :: fs => ((k f).isMarker → Returns k w entry floor fs f) ∧
      ((k f).isMarker = false → (k f).base = topWindow k w floor fs) ∧ Saves fs

/-- A pass in the context `x`, which began at `floor`, saves windows on its part of the chain. -/
structure Windowed (x : Context) (upper : List FrameId) : Prop where
  saves : Saves k w x.entry floor upper
  markers : ∀ f ∈ x.markers, Returns k w x.entry floor upper f

/-- It also runs in the window of its newest call. -/
structure Dwells (x : Context) (upper : List FrameId) : Prop extends Windowed k w floor x upper where
  base : x.base = topWindow k w floor upper

end Windows

variable {k k' : FrameId → Frame} {w w' : FrameId → Int64} {nested : Prop} {x x' : Context}
  {entry : Option FrameId} {floor : Int64} {upper upper' below fs gs : List FrameId}
  {born size : Nat} {c c' : Control} {f g : FrameId} {ph ph' : Phase}

/-! ### Parts of the chain -/

theorem topWindow_congr (hk : ∀ f ∈ fs, k' f = k f) (hw : ∀ f ∈ fs, w' f = w f) :
    topWindow k' w' floor fs = topWindow k w floor fs := by
  induction fs with
  | nil => rfl
  | cons f fs ih =>
    rw [topWindow, topWindow, hk f List.mem_cons_self, hw f List.mem_cons_self]
    rw [ih (fun g hg => hk g (List.mem_cons_of_mem f hg)) fun g hg => hw g (List.mem_cons_of_mem f hg)]

theorem Returns.suffix (h : Returns k w entry floor fs f) (hsuffix : gs <:+ fs) :
    Returns k w entry floor gs f :=
  fun hs hhs => h hs (hhs.trans hsuffix)

theorem Returns.congr (h : Returns k w entry floor fs f) (hf : k' f = k f)
    (hk : ∀ g ∈ fs, k' g = k g) (hw : ∀ g ∈ fs, w' g = w g) : Returns k' w' entry floor fs f := by
  intro gs hgs hhead
  rw [hf] at hhead ⊢
  rw [topWindow_congr (fun g hg => hk g (hgs.subset hg)) fun g hg => hw g (hgs.subset hg)]
  exact h gs hgs hhead

theorem Saves.suffix (h : Saves k w entry floor fs) (hsuffix : gs <:+ fs) :
    Saves k w entry floor gs := by
  induction fs with
  | nil =>
    rw [List.suffix_nil.1 hsuffix]
    trivial
  | cons f fs ih =>
    rcases List.suffix_cons_iff.1 hsuffix with rfl | hsuffix
    · exact h
    · exact ih h.2.2 hsuffix

theorem Saves.congr (h : Saves k w entry floor fs) (hk : ∀ g ∈ fs, k' g = k g)
    (hw : ∀ g ∈ fs, w' g = w g) : Saves k' w' entry floor fs := by
  induction fs with
  | nil => trivial
  | cons f fs ih =>
    have hfs : ∀ g ∈ fs, k' g = k g := fun g hg => hk g (List.mem_cons_of_mem f hg)
    have hws : ∀ g ∈ fs, w' g = w g := fun g hg => hw g (List.mem_cons_of_mem f hg)
    obtain ⟨hmarker, hcall, hrest⟩ := h
    have hf : k' f = k f := hk f List.mem_cons_self
    refine ⟨fun hm => ?_, fun hm => ?_, ih hrest hfs hws⟩
    · exact (hmarker (hf ▸ hm)).congr hf hfs hws
    · rw [hf, topWindow_congr hfs hws]
      exact hcall (hf ▸ hm)

theorem Windowed.congr (h : Windowed k w floor x upper) (hk : ∀ g ∈ upper ++ x.markers, k' g = k g)
    (hw : ∀ g ∈ upper, w' g = w g) : Windowed k' w' floor x upper := by
  have hupper : ∀ g ∈ upper, k' g = k g := fun g hg => hk g (List.mem_append_left _ hg)
  refine ⟨h.saves.congr hupper hw, fun f hf => ?_⟩
  exact (h.markers f hf).congr (hk f (List.mem_append_right _ hf)) hupper hw

theorem Dwells.congr (h : Dwells k w floor x upper) (hk : ∀ g ∈ upper ++ x.markers, k' g = k g)
    (hw : ∀ g ∈ upper, w' g = w g) : Dwells k' w' floor x upper := by
  refine ⟨h.toWindowed.congr hk hw, ?_⟩
  rw [topWindow_congr (fun g hg => hk g (List.mem_append_left _ hg)) hw]
  exact h.base

/-- Frames and markers are dropped. -/
theorem Windowed.shrink (h : Windowed k w floor x upper) (hupper : upper' <:+ upper)
    (hmarkers : x'.markers ⊆ x.markers) (hentry : x'.entry = x.entry) :
    Windowed k w floor x' upper' := by
  refine ⟨?_, fun f hf => ?_⟩
  · rw [hentry]
    exact h.saves.suffix hupper
  · rw [hentry]
    exact (h.markers f (hmarkers hf)).suffix hupper

theorem Dwells.turn (h : Dwells k w floor x upper) (hmarkers : x'.markers ⊆ x.markers)
    (hentry : x'.entry = x.entry) (hbase : x'.base = x.base) : Dwells k w floor x' upper :=
  ⟨h.toWindowed.shrink (List.suffix_refl _) hmarkers hentry, hbase.trans h.base⟩

/-- The next marker moves onto the chain, or a call does. What other markers lead back to is not
this frame. -/
theorem Returns.cons (h : Returns k w entry floor fs g) (hne : (k g).depth ≠ some f) :
    Returns k w entry floor (f :: fs) g := by
  intro gs hgs hhead
  rcases List.suffix_cons_iff.1 hgs with rfl | hgs
  · exact absurd hhead.symm hne
  · exact h gs hgs hhead

theorem Dwells.call (h : Dwells k w floor x upper) (hcall : (k f).isMarker = false)
    (hsaved : (k f).base = x.base) (hmarkers : ∀ g ∈ x'.markers, g ∈ x.markers)
    (hne : ∀ g ∈ x'.markers, (k g).depth ≠ some f) (hentry : x'.entry = x.entry)
    (hw : w f = x'.base) : Dwells k w floor x' (f :: upper) := by
  refine ⟨⟨⟨fun hm => ?_, fun _ => hsaved.trans h.base, hentry ▸ h.saves⟩, fun g hg => ?_⟩, ?_⟩
  · cases hcall.symm.trans hm
  · rw [hentry]
    exact (h.markers g (hmarkers g hg)).cons (hne g hg)
  · rw [topWindow, hcall]
    exact hw.symm

theorem Dwells.splice (h : Dwells k w floor x upper) (hmarker : (k f).isMarker)
    (hm : x.markers = f :: x'.markers) (hne : ∀ g ∈ x'.markers, (k g).depth ≠ some f)
    (hentry : x'.entry = x.entry) (hbase : x'.base = x.base) :
    Dwells k w floor x' (f :: upper) := by
  refine ⟨⟨⟨fun _ => ?_, fun hcall => ?_, hentry ▸ h.saves⟩, fun g hg => ?_⟩, ?_⟩
  · rw [hentry]
    exact h.markers f (hm ▸ List.mem_cons_self)
  · cases hmarker.symm.trans hcall
  · rw [hentry]
    exact (h.markers g (hm ▸ List.mem_cons_of_mem f hg)).cons (hne g hg)
  · rw [topWindow, if_pos hmarker]
    exact hbase.trans h.base

/-- A marker that is pushed saves the running window, and leads back to the top of the chain. -/
theorem Dwells.mark (h : Dwells k w floor x upper) (hsaved : (k f).base = x.base)
    (htop : ∀ gs, gs <:+ upper → gs.head?.or x.entry = (k f).depth → gs = upper)
    (hmarkers : x'.markers = f :: x.markers) (hentry : x'.entry = x.entry)
    (hbase : x'.base = x.base) : Dwells k w floor x' upper := by
  refine ⟨⟨hentry ▸ h.saves, fun g hg => ?_⟩, hbase.trans h.base⟩
  rw [hmarkers] at hg
  rw [hentry]
  rcases List.mem_cons.1 hg with rfl | hg
  · intro gs hgs hhead
    rw [htop gs hgs hhead]
    exact hsaved.trans h.base
  · exact h.markers g hg

/-- A pass that enters windows `w` goes on in that of its newest call. -/
def windows (w : FrameId → Int64) : Upkeep where
  Goes floor k := Dwells k w floor
  Unwinds floor k := Windowed k w floor
  LeadsTo floor k entry := Returns k w entry floor
  Enters f base := w f = base
  Bears _ _ := True

theorem windows_laws (w : FrameId → Int64) : (windows w).Laws where
  congr h hk := Dwells.congr h hk fun _ _ => rfl
  bears h _ := h
  begin hmarkers := ⟨⟨trivial, fun f hf => nomatch hmarkers ▸ hf⟩, rfl⟩
  turn := Dwells.turn
  call h hcall hsaved hne hmarkers hentry hw :=
    h.call hcall hsaved (fun g hg => hmarkers ▸ hg) (fun g hg => hne g (hmarkers ▸ hg)) hentry hw
  mark h _ hsaved htop _ hmarkers hentry hbase := h.mark hsaved htop hmarkers hentry hbase
  back {_ _ _ _ f fs _ _ _ _} hk h _ hcall := by
    refine ⟨h.shrink (List.suffix_cons f fs) pop_markers.subset pop_samePass.entry, ?_⟩
    rw [← h.saves.2.1 hcall, ← hk]
    rfl
  splice := Dwells.splice
  unwinds h := h.toWindowed
  pop {_ _ _ _ f fs _ _ _ _} _ h _ :=
    Windowed.shrink h (List.suffix_cons f fs) pop_markers.subset pop_samePass.entry
  shed {_ _ _ fs f} h hf :=
    ⟨Windowed.shrink h (List.suffix_cons f fs) (List.Subset.refl _) rfl, h.saves.1 hf⟩
  take {_ _ _ _ _ f} h hm hentry :=
    ⟨Windowed.shrink h (List.suffix_refl _) (hm ▸ List.subset_cons_self f _) hentry,
      h.markers f (hm ▸ List.mem_cons_self)⟩
  arrive {_ _ _ _ fs _ _} h hback hsuffix hhead hmarkers hentry hbase :=
    ⟨Windowed.shrink h (List.suffix_refl _) (hmarkers ▸ List.Subset.refl _) hentry,
      hbase.trans (hback fs hsuffix hhead)⟩

/-! ### All passes -/

/-- The running pass goes on in the window of its newest call, and the passes below it will. -/
def Housed (w : FrameId → Int64) : Control → Prop := (windows w).Holds

/-- A pass that is over has left nothing on the chain. -/
def HousedIn (w : FrameId → Int64) : Phase → Control → Prop
  | .ended, c => c.own = [] ∧ (windows w).HoldsBelow c.frameAt c.suspended c.ground
  | _, c => Housed w c

/-- What has been pushed keeps its window. -/
theorem windows_congr (hw : ∀ f, f < born → w' f = w f) (hfs : ∀ g ∈ fs ++ x.markers, g < born)
    (h : (windows w).Goes floor k x fs) : (windows w').Goes floor k x fs :=
  Dwells.congr h (fun _ _ => rfl) fun f hf => hw f (hfs f (List.mem_append_left _ hf))

/-- A suspended pass is taken up where the pass it waited for has left nothing. -/
theorem takeUp_housed (hown : c.own = []) {made : Value}
    {v : Window} {duties : List Duty} {rest : List Suspension}
    (hs : c.suspended = ⟨x.entry, .construct x made v :: duties⟩ :: rest)
    (h : (windows w).HoldsBelow c.frameAt c.suspended c.ground) :
    Housed w { c with suspended := rest, context := x.bare } := by
  have hchain : c.chain = c.ground := by
    rw [← own_append_ground c, hown, List.nil_append]
  rw [hs] at h
  obtain ⟨hruns, hlower⟩ := h
  obtain ⟨floor, hfloor, hruns⟩ := hruns x made v duties rfl
  refine ⟨⟨floor, hfloor, ?_⟩, ?_⟩
  · have heq : own { c with suspended := rest, context := x.bare } =
        c.ground.takeWhile fun f => x.entry != some f := by
      rw [own, ← hchain]
      rfl
    rw [heq]
    exact Dwells.turn hruns (List.Subset.refl _) rfl rfl
  · have heq : ground { c with suspended := rest, context := x.bare } =
        reach c.ground x.entry := by
      rw [ground, ← hchain]
      rfl
    rw [heq]
    exact hlower

theorem HousedIn.windows (h : HousedIn w ph c) (hc : Standing ph c)
    (hw : ∀ f, f < c.frames.size → w' f = w f) : HousedIn w' ph c := by
  obtain ⟨upper, below, born, hstands⟩ := hc.stands
  cases ph with
  | ended =>
    obtain ⟨hown, hlower⟩ := h
    refine ⟨hown, ?_⟩
    rw [hstands.ground_eq] at hlower ⊢
    exact hlower.imp hstands.lower fun _ _ _ hfs =>
      windows_congr hw fun g hg => Nat.lt_of_lt_of_le (hfs g hg) hstands.le_size
  | _ => exact Upkeep.Holds.imp h hstands fun _ _ _ => windows_congr hw

/-- No part of a tick leaves the window of the newest call, unless it stops a pass. -/
theorem Turn.housed (ht : Turn ph c ph' c') (hc : Standing ph c) (h : HousedIn w ph c)
    (hcall : ph = .ready → ph' = .settling → ∀ base code targetClass,
      c' = (c.goto (c.context.pc + 1)).call base code targetClass → w c.frames.size = base)
    (hend : ph = .ready → ph' = .ended → c'.chain.head? = c'.context.entry) : HousedIn w ph' c' := by
  have hgoto : Housed w c → Housed w (c.goto (c.context.pc + 1)) :=
    fun h => (windows_laws w).keep h ⟨rfl, rfl, rfl⟩ rfl (List.Subset.refl _) rfl
  cases ht with
  | same hi hmove =>
    have hsound : Sound (c.goto (c.context.pc + 1)) :=
      hc.1.fetch hi fun hop => nomatch hmove.eq_over_of_abort hop
    exact (windows_laws w).move (hgoto h) hsound hmove (hcall rfl rfl) fun _ => trivial
  | entered hi hmove =>
    obtain ⟨x, made, v, duties, base, argc, hx, -, rfl⟩ := hmove.eq_enter
    exact (windows_laws w).enter (hgoto h) made v duties base argc hx
  | finished hi hmove =>
    obtain ⟨rfl, -⟩ := hmove.of_over
    exact ⟨takeWhile_head? (hend rfl rfl), h.lower⟩
  | settled => exact h
  | unwound hpending hu =>
    have hsame := popUntil_samePass hu
    obtain ⟨hchain, hhead⟩ := chain_of_popUntil hu rfl
    refine ⟨?_, ?_⟩
    · rw [own, hsame.entry]
      exact takeWhile_head? hhead
    · have hground : c'.ground = c.ground := by
        rw [ground, hchain, hsame.entry, reach_reach]
        rfl
      rw [funext (frameAt_of_frames hsame.frames), hsame.suspended, hground]
      exact h.lower
  | resumed hs hr =>
    obtain ⟨upper, below, born, hstands⟩ := hc
    obtain ⟨x, made, v, duties, rfl, hd, hsound⟩ := hstands.takeUp hs
    have htaken := takeUp_housed h.1 hs h.2
    obtain ⟨c₁, h₁, h₂⟩ := Option.bind_eq_some_iff.1 hr
    rw [endDuties_of_plain hd] at h₂
    cases h₂
    simp only [endDuty] at h₁
    split at h₁
    · refine (windows_laws w).raise ?_ ?_ h₁
      · exact (windows_laws w).keep htaken ⟨rfl, rfl, rfl⟩ rfl (List.Subset.refl _) rfl
      · exact hsound.keep ⟨rfl, rfl, rfl⟩ rfl (List.suffix_refl _) hsound.2
    · cases h₁
      exact htaken

/-- A frame on top that is a call has entered the running window. -/
theorem Housed.base_eq (h : Housed w c) {rest : List FrameId} (hchain : c.chain = f :: rest)
    (hentry : c.chain.head? ≠ c.context.entry) (hcall : (c.frameAt f).isMarker = false) :
    c.context.base = w f := by
  obtain ⟨⟨floor, -, hruns⟩, -⟩ := h
  have hne : (c.context.entry != some f) = true := by
    rw [hchain] at hentry
    exact bne_iff_ne.2 (Ne.symm hentry)
  have hown : c.own = f :: rest.takeWhile fun f => c.context.entry != some f := by
    rw [own, hchain]
    exact List.takeWhile_cons_of_pos hne
  rw [hruns.base, hown, topWindow, hcall]
  rfl

theorem Housed.base_of_entry (h : Housed w c) (hentry : c.chain.head? = c.context.entry)
    (hlast : c.suspended = []) : c.context.base = 0 := by
  obtain ⟨⟨floor, hfloor, hruns⟩, -⟩ := h
  rw [hruns.base, own, takeWhile_head? hentry]
  exact hfloor hlast

end Control

namespace Machine

variable {a m m' : Machine} {owned : List Value} {ph ph' : Phase} {f : FrameId}

/-! ### Courses through ticks -/

/-- A machine in the course of a tick of one that is reachable. -/
def InTick (owned : List Value) (m : Machine) : Phase → Prop
  | .ready => Reachable true owned m
  | .settling => ∃ n, Reachable true owned n ∧ tick n = finishStep m.suspended m
  | .ended => ∃ n, Reachable true owned n ∧ ∀ s rest, m.suspended = s :: rest →
      tick n = (resumePass s rest >>= fun _ => finishStep rest) m

theorem bind_of_ok {α β : Type} {x : Action α} {k : α → Action β} {v : α} (h : x m = .ok v m') :
    (x >>= k) m = k v m' := by
  change EStateM.bind x k m = _
  rw [EStateM.bind, h]

theorem tick_of_step {p : Progress} (h : (fetch >>= step) m = .ok p m') :
    tick m = (match p with
      | .finished result => endPass result
      | .entered => pure none
      | .same => get >>= fun m => finishStep m.suspended : Action (Option Value)) m' := by
  cases hf : fetch m with
  | error e m₀ =>
    change EStateM.bind fetch step m = _ at h
    rw [EStateM.bind, hf] at h
    cases h
  | ok i m₀ =>
    rw [bind_of_ok hf] at h
    rw [tick, bind_of_ok hf, bind_of_ok h]
    cases p <;> rfl

theorem Course.inTick {ok : Phase → Machine → Phase → Machine → Prop} (ha : Reachable true owned a)
    (h : Course ok a ph m) : InTick owned m ph := by
  induction h with
  | began => exact ha
  | @next ph ph' m m' hcourse _ hadvance ih =>
    obtain ⟨hturn, -⟩ := hadvance.turn (hcourse.steady ha)
    cases hadvance with
    | same h => exact ⟨m, ih, tick_of_step h⟩
    | entered h => exact Reachable.tick ih (tick_of_step h)
    | finished h =>
      refine ⟨m, ih, fun s rest hs => ?_⟩
      rw [tick_of_step h]
      exact (bind_of_ok (m := m') rfl).trans (by rw [hs])
    | settled h =>
      obtain ⟨n, hn, heq⟩ := ih
      refine Reachable.tick hn ?_
      rw [heq]
      cases m.suspended with
      | nil => exact bind_of_ok h
      | cons s rest => exact bind_of_ok h
    | unwound h =>
      obtain ⟨n, hn, heq⟩ := ih
      refine ⟨n, hn, fun s rest hs => ?_⟩
      have hs' : m.suspended = s :: rest := hturn.suspended.symm.trans hs
      rw [heq, hs']
      exact bind_of_ok h
    | resumed hs h =>
      obtain ⟨n, hn, heq⟩ := ih
      obtain ⟨s', hs'⟩ := hturn.suspended
      have hrest := (List.cons.inj (hs.symm.trans hs')).2
      refine ⟨n, hn, ?_⟩
      rw [heq _ _ hs, bind_of_ok h, hrest]
      rfl

/-- What is ready in the course of a run is reachable. -/
theorem Course.reachable {ok : Phase → Machine → Phase → Machine → Prop}
    (ha : Reachable true owned a) (h : Course ok a .ready m) : Reachable true owned m :=
  h.inTick ha

/-! ### Windows of machines -/

/-- No instruction stops its pass above the entry. -/
def RunsOut (ph : Phase) (m : Machine) (_ : Phase) (_ : Machine) : Prop :=
  ph = .ready → ∀ i, m.control.next? = some i → i.op = .stop ∨ i.op = .abort →
    m.chain.head? = m.context.entry

def windowAt (m : Machine) (f : FrameId) : Int64 := (m.frameAt f).window

theorem Lasting.windowAt {l l' : List FrameId} (h : Lasting l l' m m') (hf : f < m.frames.size) :
    m'.windowAt f = m.windowAt f := by
  unfold Machine.windowAt
  rcases h.old f hf with heq | heq <;> rw [heq]
  rfl

theorem Advance.housed (h : Advance ph m ph' m') (hm : Steady ph owned m) (ho : m.Orderly)
    (hok : RunsOut ph m ph' m') (hh : Control.HousedIn m.windowAt ph m.control) :
    Control.HousedIn m'.windowAt ph' m'.control := by
  have hlasting := h.lasting hm ho
  have hwindows : ∀ f, f < m.control.frames.size → m'.windowAt f = m.windowAt f := fun f hf =>
    hlasting.windowAt (size_control (m := m) ▸ hf)
  have hh := hh.windows hm.standing hwindows
  refine (h.turn hm).1.housed hm.standing hh ?_ ?_
  · rintro rfl rfl base code targetClass hcall
    cases h with
    | same h =>
      obtain ⟨i, hi, hacts⟩ := (fetch_step_acts hm.noProbe).of_ok h
      have hacts : Strides _ _ _ _ := hacts
      have hentered := hacts.entered hcall
      have hbase : m'.context.base = base := congrArg (·.context.base) hcall
      rw [size_control, ← hbase, hentered.base]
      exact hentered.window
  · rintro rfl rfl
    refine (h.head?_eq_entry_iff hm).2 ?_
    rintro ⟨i, -, hi, hop, hne⟩
    exact hne (hok rfl i hi hop)

/-- A unit of code begins in the window at 0. -/
theorem Begins.housed (h : Begins owned a) (hunit : a.suspended = []) :
    Control.Housed a.windowAt a.control := by
  cases h with
  | unit p hm haborted hpending hvalid h =>
    obtain ⟨-, hc⟩ := (enterUnit_ledger p.root hm.sane.ledger).of_ok h
    have hmarkers : a.control.context.markers = [] :=
      (congrArg (·.context.markers) hc).trans (hm.sane.idle nofun).2
    have hown : a.control.own = [] := by
      rw [hc]
      exact Control.takeWhile_head? rfl
    have hbase : a.control.context.base = 0 := by
      rw [hc]
      rfl
    have hsuspended : a.control.suspended = [] := hunit
    refine ⟨⟨0, fun _ => rfl, ?_⟩, ?_⟩
    · rw [hown]
      exact ⟨⟨trivial, fun f hf => nomatch hmarkers ▸ hf⟩, hbase⟩
    · rw [hsuspended]
      trivial
  | construct hm h =>
    obtain ⟨s, hs⟩ := ((Advance.entered h).turn (Reachable.steady hm)).1.suspended
    cases hs.symm.trans hunit

theorem Course.housed (hbegin : Begins owned a) (hunit : a.suspended = [])
    (h : Course RunsOut a ph m) : Control.HousedIn m.windowAt ph m.control := by
  induction h with
  | began => exact hbegin.housed hunit
  | next hcourse hok hadvance ih =>
    have hm := hcourse.steady hbegin.reachable
    exact hadvance.housed hm (hcourse.tidy hbegin.reachable).orderly hok ih

/-- Code that runs above the entry of its pass, or on an empty chain, runs in the window of the
frame on top, unless this is a marker that waits. -/
theorem Course.frameWindow_top (hbegin : Begins owned a) (hunit : a.suspended = [])
    (h : Course RunsOut a .ready m) {i : Inst} (hi : m.control.next? = some i)
    (hop : i.op = .makeBlock) (hbottom : m.chain.head? = m.context.entry → m.chain = [])
    (htop : ∀ f, m.chain.head? = some f → (m.frameAt f).isMarker = false) :
    m.frameWindow m.chain.head? = m.context.base := by
  have hhoused : Control.Housed m.windowAt m.control := h.housed hbegin hunit
  have hm := h.steady hbegin.reachable
  cases hchain : m.chain with
  | nil =>
    have hentry : m.control.chain.head? = m.control.context.entry := by
      obtain ⟨upper, below, born, hstands⟩ := hm.standing.stands
      have hstart : upper ++ below = [] := hstands.chain.symm.trans hchain
      obtain ⟨-, rfl⟩ := List.append_eq_nil_iff.1 hstart
      rw [← hstands.level.entry, hstands.chain, hstart]
    have hlast : m.control.suspended = [] := by
      refine Classical.byContradiction fun hne => ?_
      rcases hm.standing.1.op_of_entry hne hentry hi with hop' | hop' <;> cases hop.symm.trans hop'
    exact (hhoused.base_of_entry hentry hlast).symm
  | cons f rest =>
    have hentry : m.control.chain.head? ≠ m.control.context.entry := by
      intro heq
      rw [hbottom heq] at hchain
      cases hchain
    have hcall : (m.control.frameAt f).isMarker = false :=
      (isMarker_control f).trans (htop f (by rw [hchain]; rfl))
    have hlive : (m.frameAt f).freed = false := by
      refine (h.tidy hbegin.reachable).listed.unfreed f ?_
      simp [nodes, hchain]
    have hbase : m.context.base = m.windowAt f := hhoused.base_eq (show m.control.chain = _ from hchain) hentry hcall
    rw [hbase, List.head?_cons, frameWindow, hlive]
    rfl

end Machine

end ObjectMachine
