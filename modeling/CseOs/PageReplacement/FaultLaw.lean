import CseOs.PageReplacement.Simulators
import Mathlib.Data.Finset.Card
import Mathlib.Data.Fintype.Card
import Mathlib.Data.List.Dedup

/-!
# Hits, loads and evictions

When the simulators count a reference as a hit exactly if its page was loaded and has not been
evicted since.
-/

namespace CseOs.PageReplacement

variable {σ : Type} (S : Simulator σ) (refs : List Int) (frames : Nat)

/-- `page` was the last page stored in `slot` before time `t`. -/
def Holds (t slot : Nat) (page : Int) : Prop :=
  ∃ s < t, refs[s]? = some page ∧ S.event refs frames s = some (.fault slot) ∧
    ∀ u, s < u → u < t → S.event refs frames u ≠ some (.fault slot)

/-- No page was stored in `slot` before time `t`. -/
def Unused (t slot : Nat) : Prop :=
  ∀ s < t, S.event refs frames s ≠ some (.fault slot)

/-- What the counts of a simulator mean. -/
structure FaultLaw : Prop where
  hit_iff : ∀ t page, refs[t]? = some page →
    ((S.run refs frames (t + 1)).res.hits = (S.run refs frames t).res.hits + 1 ↔
      ∃ slot, Holds S refs frames t slot page)
  first : ∀ t page, refs[t]? = some page → page ∉ refs.take t →
    (S.run refs frames (t + 1)).res.faults = (S.run refs frames t).res.faults + 1
  total : (S.simulate refs frames).hits + (S.simulate refs frames).faults = refs.length
  one_frame : ∀ t i j page, Holds S refs frames t i page → Holds S refs frames t j page → i = j
  no_early_eviction : ∀ t slot page, S.event refs frames t = some (.fault slot) →
    Holds S refs frames t slot page → ∀ j < frames, ¬ Unused S refs frames t j

/-- The page `-1` is only referenced when as many distinct pages as there are frames were
referenced before. -/
def EmptyMarkLate : Prop :=
  ∀ t, refs[t]? = some (-1) → frames ≤ (refs.take t).toFinset.card

/-- The page stored last in each frame, if any. -/
def loadedIn : Nat → Nat → Option Int
  | 0 => fun _ => none
  | t + 1 =>
    match S.event refs frames t with
    | some (.fault slot) => Function.update (loadedIn t) slot refs[t]?
    | _ => loadedIn t

variable {S refs frames} {t slot i j : Nat} {page : Int}

private theorem loadedIn_fault (h : S.event refs frames t = some (.fault slot)) :
    loadedIn S refs frames (t + 1) = Function.update (loadedIn S refs frames t) slot refs[t]? := by
  simp only [loadedIn, h]

private theorem loadedIn_kept (h : S.event refs frames t ≠ some (.fault slot)) :
    loadedIn S refs frames (t + 1) slot = loadedIn S refs frames t slot := by
  cases hevent : S.event refs frames t with
  | none => simp only [loadedIn, hevent]
  | some e =>
    cases e with
    | hit pos => simp only [loadedIn, hevent]
    | fault slot' =>
      have hne : slot ≠ slot' := by
        rintro rfl
        exact h hevent
      rw [loadedIn_fault hevent, Function.update_of_ne hne]

theorem holds_succ : Holds S refs frames (t + 1) slot page ↔
    (S.event refs frames t = some (.fault slot) ∧ refs[t]? = some page) ∨
      (S.event refs frames t ≠ some (.fault slot) ∧ Holds S refs frames t slot page) := by
  constructor
  · intro ⟨s, hs, hpage, hfault, hlast⟩
    cases Nat.lt_succ_iff_lt_or_eq.mp hs with
    | inl hlt => exact .inr ⟨hlast t hlt t.lt_succ_self, s, hlt, hpage, hfault,
        fun u hsu hut => hlast u hsu (hut.trans t.lt_succ_self)⟩
    | inr heq =>
      subst heq
      exact .inl ⟨hfault, hpage⟩
  · intro h
    cases h with
    | inl h => exact ⟨t, t.lt_succ_self, h.2, h.1, fun u htu hut => by omega⟩
    | inr h =>
      obtain ⟨hne, s, hs, hpage, hfault, hlast⟩ := h
      refine ⟨s, hs.trans t.lt_succ_self, hpage, hfault, fun u hsu hut => ?_⟩
      cases Nat.lt_succ_iff_lt_or_eq.mp hut with
      | inl hlt => exact hlast u hsu hlt
      | inr heq => exact heq ▸ hne

theorem holds_iff : Holds S refs frames t slot page ↔ loadedIn S refs frames t slot = some page := by
  induction t with
  | zero => simp [Holds, loadedIn]
  | succ t ih =>
    rw [holds_succ]
    by_cases h : S.event refs frames t = some (.fault slot)
    · rw [loadedIn_fault h, Function.update_self]
      simp [h]
    · rw [loadedIn_kept h, ih]
      simp [h]

private theorem unused_iff : Unused S refs frames t slot ↔ loadedIn S refs frames t slot = none := by
  induction t with
  | zero => simp [Unused, loadedIn]
  | succ t ih =>
    have hsucc : Unused S refs frames (t + 1) slot ↔
        Unused S refs frames t slot ∧ S.event refs frames t ≠ some (.fault slot) :=
      ⟨fun h => ⟨fun s hs => h s (hs.trans t.lt_succ_self), h t t.lt_succ_self⟩,
        fun h s hs => (Nat.lt_succ_iff_lt_or_eq.mp hs).elim (h.1 s) fun heq => heq ▸ h.2⟩
    rw [hsucc]
    by_cases h : S.event refs frames t = some (.fault slot)
    · obtain ⟨page, hpage⟩ := event_some h
      rw [loadedIn_fault h, Function.update_self, hpage]
      simp [h]
    · rw [loadedIn_kept h, ih]
      simp [h]

private theorem Unused.earlier {s : Nat} (h : Unused S refs frames t slot) (hs : s ≤ t) :
    Unused S refs frames s slot :=
  fun u hu => h u (hu.trans_le hs)

/-- A loaded page was referenced. -/
theorem Holds.mem_take (h : Holds S refs frames t slot page) : page ∈ refs.take t := by
  obtain ⟨s, hs, hpage, _⟩ := h
  exact List.mem_take_iff_getElem.mpr (by
    obtain ⟨hlt, hget⟩ := List.getElem?_eq_some_iff.mp hpage
    exact ⟨s, lt_min hs hlt, hget⟩)

theorem frame_eq (hi : i < frames) :
    (S.run refs frames t).frame[i]? = some ((loadedIn S refs frames t i).getD (-1)) := by
  induction t with
  | zero => simp [Simulator.run, initFrames, loadedIn, hi]
  | succ t ih =>
    cases h : refs[t]? with
    | none =>
      have hevent : S.event refs frames t ≠ some (.fault i) := by simp [Simulator.event, h]
      rw [loadedIn_kept hevent, ← ih]
      simp only [Simulator.run, h]
    | some page =>
      rcases step_cases (S := S) frames h with
        ⟨pos, _, hevent, heq⟩ | ⟨slot, vars, _, _, hevent, heq⟩
      · rw [heq, loadedIn_kept (by simp [hevent]), ← ih]
      · rw [heq, loadedIn_fault hevent, h]
        by_cases hslot : i = slot
        · subst hslot
          have hlen : i < (S.run refs frames t).frame.length := by rwa [run_frame_length]
          simp [List.getElem?_set_self hlen]
        · rw [List.getElem?_set_ne (Ne.symm hslot), Function.update_of_ne hslot, ih]

theorem Holds.frame_eq (h : Holds S refs frames t i page) (hi : i < frames) :
    (S.run refs frames t).frame[i]? = some page := by
  rw [PageReplacement.frame_eq hi, holds_iff.mp h, Option.getD_some]

private theorem Unused.frame_eq (h : Unused S refs frames t i) (hi : i < frames) :
    (S.run refs frames t).frame[i]? = some (-1) := by
  rw [PageReplacement.frame_eq hi, unused_iff.mp h, Option.getD_none]

private theorem unused_or_holds (t slot : Nat) :
    Unused S refs frames t slot ∨ ∃ page, Holds S refs frames t slot page := by
  cases h : loadedIn S refs frames t slot with
  | none => exact .inl (unused_iff.mpr h)
  | some page => exact .inr ⟨page, holds_iff.mpr h⟩

theorem Holds.not_unused (h : Holds S refs frames t slot page) : ¬ Unused S refs frames t slot := by
  intro hu
  rw [unused_iff, holds_iff.mp h] at hu
  cases hu

/-- A page in the frame array other than the mark was loaded there. -/
theorem holds_of_frame (h : (S.run refs frames t).frame[i]? = some page)
    (hp : page ≠ -1 ∨ ¬ Unused S refs frames t i) : Holds S refs frames t i page := by
  have hi : i < frames := by
    have := (List.getElem?_eq_some_iff.mp h).1
    rwa [run_frame_length] at this
  obtain hu | ⟨q, hq⟩ : Unused S refs frames t i ∨ ∃ q, Holds S refs frames t i q :=
    unused_or_holds t i
  · have hmark := hu.frame_eq hi
    rw [h, Option.some_inj] at hmark
    exact absurd hu (hp.resolve_left fun hne => hne hmark)
  · have := hq.frame_eq hi
    rw [h, Option.some_inj] at this
    exact this ▸ hq

/-- The pages in the frame array at time `t`. -/
def pages (S : Simulator σ) (refs : List Int) (frames t : Nat) : Finset Int :=
  ((S.run refs frames t).frame.filter (· ≠ -1)).toFinset

theorem mem_pages :
    page ∈ pages S refs frames t ↔ page ∈ (S.run refs frames t).frame ∧ page ≠ -1 := by
  simp [pages]

theorem card_pages_le (S : Simulator σ) (refs : List Int) (frames t : Nat) :
    (pages S refs frames t).card ≤ frames := by
  calc (pages S refs frames t).card
      ≤ ((S.run refs frames t).frame.filter (· ≠ -1)).length := List.toFinset_card_le _
    _ ≤ (S.run refs frames t).frame.length := List.length_filter_le _ _
    _ = frames := run_frame_length t

theorem pages_zero : pages S refs frames 0 = ∅ := by
  ext page
  rw [mem_pages]
  simp [Simulator.run, initFrames]

/-- A simulator stores pages in the array, and in an unused frame while there is one and the
unused frames are those that hold `-1`. `inv` is an invariant of its own variables and of the
frames in use. -/
structure FreeFirst (S : Simulator σ) (frames : Nat) (inv : (Nat → Prop) → σ → Prop) : Prop where
  init : inv (fun _ => False) (S.init frames)
  onHit : ∀ used vars pos t, inv used vars → inv used (S.onHit vars pos t)
  replace : ∀ (used : Nat → Prop) frame vars t refs, inv used vars → frame.length = frames →
    (S.replace frame vars t refs).1 < frames ∧
      inv (fun i => used i ∨ i = (S.replace frame vars t refs).1) (S.replace frame vars t refs).2 ∧
      ((∀ i < frames, frame[i]? = some (-1) ↔ ¬ used i) → (∃ i < frames, ¬ used i) →
        ¬ used (S.replace frame vars t refs).1)

section Law

variable {inv : (Nat → Prop) → σ → Prop}

theorem FreeFirst.run_inv (hS : FreeFirst S frames inv) (t : Nat) :
    inv (fun i => ¬ Unused S refs frames t i) (S.run refs frames t).vars := by
  induction t with
  | zero =>
    have : (fun i => ¬ Unused S refs frames 0 i) = fun _ => False := by
      funext i
      simp [Unused]
    rw [this]
    exact hS.init
  | succ t ih =>
    cases h : refs[t]? with
    | none =>
      have : (fun i => ¬ Unused S refs frames (t + 1) i) = fun i => ¬ Unused S refs frames t i := by
        funext i
        rw [unused_iff, unused_iff, loadedIn_kept (by simp [Simulator.event, h])]
      rw [this]
      simpa only [Simulator.run, h] using ih
    | some page =>
      rcases step_cases (S := S) frames h with
        ⟨pos, _, hevent, heq⟩ | ⟨slot, vars, _, hreplace, hevent, heq⟩
      · have : (fun i => ¬ Unused S refs frames (t + 1) i) =
            fun i => ¬ Unused S refs frames t i := by
          funext i
          rw [unused_iff, unused_iff, loadedIn_kept (by simp [hevent])]
        rw [this, heq]
        exact hS.onHit _ _ _ _ ih
      · have : (fun i => ¬ Unused S refs frames (t + 1) i) =
            fun i => ¬ Unused S refs frames t i ∨ i = slot := by
          funext i
          rw [unused_iff, unused_iff, loadedIn_fault hevent, h]
          by_cases hi : i = slot
          · simp [hi]
          · simp [hi]
        rw [this, heq]
        have := (hS.replace _ (S.run refs frames t).frame _ t refs ih (run_frame_length t)).2.1
        rwa [hreplace] at this

private theorem FreeFirst.replace_run (hS : FreeFirst S frames inv) {vars : σ}
    (h : S.replace (S.run refs frames t).frame (S.run refs frames t).vars t refs = (slot, vars)) :
    slot < frames ∧
      ((∀ j < frames, (S.run refs frames t).frame[j]? = some (-1) ↔ ¬ ¬ Unused S refs frames t j) →
        (∃ i < frames, ¬ ¬ Unused S refs frames t i) → ¬ ¬ Unused S refs frames t slot) := by
  have hinv : inv (fun i => ¬ Unused S refs frames t i) _ := hS.run_inv t
  have := hS.replace _ (S.run refs frames t).frame _ t refs hinv (run_frame_length t)
  rw [h] at this
  exact ⟨this.1, this.2.2⟩

theorem FreeFirst.slot_lt (hS : FreeFirst S frames inv)
    (h : S.event refs frames t = some (.fault slot)) : slot < frames := by
  obtain ⟨page, hpage⟩ := event_some h
  rcases step_cases (S := S) frames hpage with
    ⟨pos, _, hevent, _⟩ | ⟨slot', vars, _, hreplace, hevent, _⟩
  · rw [h] at hevent
    cases hevent
  · rw [h] at hevent
    cases hevent
    exact (hS.replace_run hreplace).1

theorem FreeFirst.holds_lt (hS : FreeFirst S frames inv) (h : Holds S refs frames t slot page) :
    slot < frames := by
  obtain ⟨s, _, _, hfault, _⟩ := h
  exact hS.slot_lt hfault

/-- No page is loaded into two frames. -/
theorem FreeFirst.holds_inj (hS : FreeFirst S frames inv) (hi : Holds S refs frames t i page)
    (hj : Holds S refs frames t j page) : i = j := by
  induction t with
  | zero => exact absurd hi.mem_take (by simp)
  | succ t ih =>
    have hnew : ∀ {a b : Nat}, S.event refs frames t = some (.fault a) → refs[t]? = some page →
        ¬ Holds S refs frames t b page := by
      intro a b hevent hpage hb
      rcases step_cases (S := S) frames hpage with
        ⟨pos, _, hevent', _⟩ | ⟨_, _, hnot, _, _, _⟩
      · rw [hevent] at hevent'
        cases hevent'
      · exact hnot (List.mem_of_getElem? (hb.frame_eq (hS.holds_lt hb)))
    rcases holds_succ.mp hi with ⟨hei, hpi⟩ | ⟨_, hi⟩
    · rcases holds_succ.mp hj with ⟨hej, _⟩ | ⟨_, hj⟩
      · rw [hei] at hej
        cases hej
        rfl
      · exact absurd hj (hnew hei hpi)
    · rcases holds_succ.mp hj with ⟨hej, hpj⟩ | ⟨_, hj⟩
      · exact absurd hi (hnew hej hpj)
      · exact ih hi hj

/-- When `-1` is never referenced, the pages in the array are those loaded and still there. -/
theorem FreeFirst.mem_pages_iff (hS : FreeFirst S frames inv) (hrefs : (-1 : Int) ∉ refs) :
    page ∈ pages S refs frames t ↔ ∃ slot, Holds S refs frames t slot page := by
  rw [mem_pages]
  constructor
  · intro ⟨hmem, hne⟩
    obtain ⟨i, _, hget⟩ := List.getElem_of_mem hmem
    exact ⟨i, holds_of_frame (List.getElem?_eq_some_iff.mpr ⟨_, hget⟩) (.inl hne)⟩
  · intro ⟨slot, h⟩
    refine ⟨List.mem_of_getElem? (h.frame_eq (hS.holds_lt h)), ?_⟩
    rintro rfl
    exact hrefs (List.mem_of_mem_take h.mem_take)

/-- No reference to `-1` before time `t` came while a frame was unused. -/
def MarkSafe (S : Simulator σ) (refs : List Int) (frames t : Nat) : Prop :=
  ∀ s < t, refs[s]? = some (-1) → ∀ i < frames, ¬ Unused S refs frames s i

private theorem MarkSafe.not_mem_take (h : MarkSafe S refs frames t) (hi : i < frames)
    (hu : Unused S refs frames t i) : (-1 : Int) ∉ refs.take t := by
  intro hmem
  obtain ⟨s, hs, hget⟩ := List.mem_take_iff_getElem.mp hmem
  have hst : s < t := lt_of_lt_of_le hs (min_le_left _ _)
  exact h s hst (List.getElem?_eq_some_iff.mpr ⟨_, hget⟩) i hi (hu.earlier hst.le)

private theorem MarkSafe.mark_iff (h : MarkSafe S refs frames t) (hi : i < frames)
    (hu : Unused S refs frames t i) (hj : j < frames) :
    (S.run refs frames t).frame[j]? = some (-1) ↔ ¬ ¬ Unused S refs frames t j := by
  rw [not_not]
  refine ⟨fun hmark => ?_, fun hu => hu.frame_eq hj⟩
  by_contra hused
  exact h.not_mem_take hi hu (holds_of_frame hmark (.inr hused)).mem_take

/-- While a frame is unused a fault stores into an unused frame. -/
theorem FreeFirst.slot_unused (hS : FreeFirst S frames inv) (hsafe : MarkSafe S refs frames t)
    (hi : i < frames) (hu : Unused S refs frames t i)
    (h : S.event refs frames t = some (.fault slot)) : Unused S refs frames t slot := by
  obtain ⟨page, hpage⟩ := event_some h
  rcases step_cases (S := S) frames hpage with
    ⟨pos, _, hevent, _⟩ | ⟨slot', vars, _, hreplace, hevent, _⟩
  · rw [h] at hevent
    cases hevent
  · rw [h] at hevent
    cases hevent
    have := (hS.replace_run hreplace).2 (fun j hj => hsafe.mark_iff hi hu hj)
      ⟨i, hi, not_not.mpr hu⟩
    exact not_not.mp this

/-- While a frame is unused no page leaves. -/
theorem FreeFirst.holds_kept (hS : FreeFirst S frames inv) (hsafe : MarkSafe S refs frames t)
    (hi : i < frames) (hu : Unused S refs frames t i) (h : Holds S refs frames t slot page) :
    Holds S refs frames (t + 1) slot page := by
  refine holds_succ.mpr (.inr ⟨fun hevent => ?_, h⟩)
  exact h.not_unused (hS.slot_unused hsafe hi hu hevent)

/-- While a frame is unused every referenced page is loaded. -/
theorem FreeFirst.all_loaded (hS : FreeFirst S frames inv) (hsafe : MarkSafe S refs frames t)
    (hi : i < frames) (hu : Unused S refs frames t i) (hp : page ∈ refs.take t) :
    ∃ slot, Holds S refs frames t slot page := by
  induction t with
  | zero => simp at hp
  | succ t ih =>
    have hu' := hu.earlier t.le_succ
    have hsafe' : MarkSafe S refs frames t := fun s hs => hsafe s (hs.trans t.lt_succ_self)
    rw [List.take_add_one, List.mem_append] at hp
    cases hp with
    | inl hp =>
      obtain ⟨slot, h⟩ := ih hsafe' hu' hp
      exact ⟨slot, hS.holds_kept hsafe' hi hu' h⟩
    | inr hp =>
      have hpage : refs[t]? = some page := by simpa using hp
      rcases step_cases (S := S) frames hpage with
        ⟨pos, hpos, _, _⟩ | ⟨slot, vars, _, _, hevent, _⟩
      · have hne : page ≠ -1 := by
          rintro rfl
          exact hsafe t t.lt_succ_self hpage i hi hu'
        exact ⟨pos, hS.holds_kept hsafe' hi hu' (holds_of_frame hpos (.inl hne))⟩
      · exact ⟨slot, holds_succ.mpr (.inl ⟨hevent, hpage⟩)⟩

theorem markSafe_of_notMem (h : (-1 : Int) ∉ refs) (t : Nat) : MarkSafe S refs frames t :=
  fun _ _ hmark => absurd (List.mem_of_getElem? hmark) h

/-- With all frames in use no empty one is found. -/
theorem freeIndex_eq_none (hrefs : (-1 : Int) ∉ refs)
    (h : ¬ ∃ i < frames, Unused S refs frames t i) :
    freeIndex (S.run refs frames t).frame = none := by
  rw [freeIndex_none]
  intro hmem
  obtain ⟨i, hi, hget⟩ := List.getElem_of_mem hmem
  rw [run_frame_length] at hi
  have hused : ¬ Unused S refs frames t i := fun hu => h ⟨i, hi, hu⟩
  have hheld := holds_of_frame (List.getElem?_eq_some_iff.mpr ⟨_, hget⟩) (.inr hused)
  exact hrefs (List.mem_of_mem_take hheld.mem_take)

theorem FreeFirst.frames_le_of_holds (hS : FreeFirst S frames inv)
    (h : ∀ i < frames, ¬ Unused S refs frames t i) {held : Finset Int}
    (hheld : ∀ i page, Holds S refs frames t i page → page ∈ held) : frames ≤ held.card := by
  have hex : ∀ i ∈ Finset.range frames, ∃ page, Holds S refs frames t i page := fun i hi =>
    (unused_or_holds t i).resolve_left (h i (Finset.mem_range.mp hi))
  choose! g hg using hex
  have hle : (Finset.range frames).card ≤ held.card := by
    apply Finset.card_le_card_of_injOn g
    · intro i hi
      exact hheld i (g i) (hg i hi)
    · intro i hi j hj hij
      exact hS.holds_inj (hg i hi) (hij ▸ hg j hj)
  rwa [Finset.card_range] at hle

private theorem FreeFirst.frames_le_card (hS : FreeFirst S frames inv)
    (h : ∀ i < frames, ¬ Unused S refs frames t i) : frames ≤ (refs.take t).toFinset.card :=
  hS.frames_le_of_holds h fun _ _ hp => List.mem_toFinset.mpr hp.mem_take

theorem FreeFirst.frames_le_card_pages (hS : FreeFirst S frames inv) (hrefs : (-1 : Int) ∉ refs)
    (h : ∀ i < frames, ¬ Unused S refs frames t i) : frames ≤ (pages S refs frames t).card :=
  hS.frames_le_of_holds h fun i _ hp => (hS.mem_pages_iff hrefs).mpr ⟨i, hp⟩

theorem FreeFirst.card_lt_frames (hS : FreeFirst S frames inv) (hsafe : MarkSafe S refs frames t)
    (hi : i < frames) (hu : Unused S refs frames t i) : (refs.take t).toFinset.card < frames := by
  have hex : ∀ page ∈ (refs.take t).toFinset, ∃ slot, Holds S refs frames t slot page :=
    fun page hp => hS.all_loaded hsafe hi hu (List.mem_toFinset.mp hp)
  choose! g hg using hex
  have hsub : (refs.take t).toFinset.image g ⊆ (Finset.range frames).erase i := by
    intro slot hslot
    obtain ⟨page, hp, rfl⟩ := Finset.mem_image.mp hslot
    refine Finset.mem_erase.mpr ⟨fun h => ?_, Finset.mem_range.mpr (hS.holds_lt (hg page hp))⟩
    exact (hg page hp).not_unused (h ▸ hu)
  have hinj : Set.InjOn g (refs.take t).toFinset := by
    intro p hp q hq hpq
    have h₁ := holds_iff.mp (hg p hp)
    have h₂ := holds_iff.mp (hg q hq)
    rw [hpq, h₂] at h₁
    exact (Option.some_inj.mp h₁).symm
  have := Finset.card_le_card hsub
  rw [Finset.card_image_of_injOn hinj, Finset.card_erase_of_mem (Finset.mem_range.mpr hi),
    Finset.card_range] at this
  omega

theorem FreeFirst.emptyMarkLate_iff (hS : FreeFirst S frames inv) :
    EmptyMarkLate refs frames ↔ ∀ t, MarkSafe S refs frames t := by
  constructor
  · intro hlate t
    induction t with
    | zero => exact fun s hs => absurd hs s.not_lt_zero
    | succ t ih =>
      intro s hs hmark i hi hu
      cases Nat.lt_succ_iff_lt_or_eq.mp hs with
      | inl hlt => exact ih s hlt hmark i hi hu
      | inr heq =>
        subst heq
        exact absurd (hlate s hmark) (Nat.not_le.mpr (hS.card_lt_frames ih hi hu))
  · intro hsafe t hmark
    exact hS.frames_le_card (hsafe (t + 1) t t.lt_succ_self hmark)

private theorem FreeFirst.faultLaw (hS : FreeFirst S frames inv) (hsafe : ∀ t, MarkSafe S refs frames t) :
    FaultLaw S refs frames := by
  have hhit : ∀ t page, refs[t]? = some page →
      (page ∈ (S.run refs frames t).frame ↔ ∃ slot, Holds S refs frames t slot page) := by
    intro t page hpage
    constructor
    · intro hmem
      obtain ⟨i, hi, hget⟩ := List.getElem_of_mem hmem
      rw [run_frame_length] at hi
      refine ⟨i, holds_of_frame (List.getElem?_eq_some_iff.mpr ⟨_, hget⟩) ?_⟩
      by_cases hp : page = -1
      · exact .inr (hsafe (t + 1) t t.lt_succ_self (hp ▸ hpage) i hi)
      · exact .inl hp
    · intro ⟨slot, h⟩
      exact List.mem_of_getElem? (h.frame_eq (hS.holds_lt h))
  constructor
  · intro t page hpage
    rw [run_hits_iff hpage, hhit t page hpage]
  · intro t page hpage hfirst
    rcases step_cases (S := S) frames hpage with
      ⟨pos, hpos, _, _⟩ | ⟨slot, vars, _, _, _, heq⟩
    · obtain ⟨slot, h⟩ := (hhit t page hpage).mp (List.mem_of_getElem? hpos)
      exact absurd h.mem_take hfirst
    · rw [heq]
  · exact run_total le_rfl
  · intro t i j page
    exact hS.holds_inj
  · intro t slot page hevent hheld j hj hu
    exact hheld.not_unused (hS.slot_unused (hsafe t) hj hu hevent)

theorem FaultLaw.markSafe (hlaw : FaultLaw S refs frames) (t : Nat) : MarkSafe S refs frames t := by
  intro s _ hmark i hi hu
  have hmem : (-1 : Int) ∈ (S.run refs frames s).frame := List.mem_of_getElem? (hu.frame_eq hi)
  obtain ⟨slot, u, hus, hmark', hevent, _⟩ :=
    (hlaw.hit_iff s (-1) hmark).mp ((run_hits_iff hmark).mpr hmem)
  rcases step_cases (S := S) frames hmark' with
    ⟨pos, _, hevent', _⟩ | ⟨_, _, hnot, _, _, _⟩
  · rw [hevent] at hevent'
    cases hevent'
  · exact hnot (List.mem_of_getElem? ((hu.earlier hus.le).frame_eq hi))

private theorem FreeFirst.faultLaw_iff (hS : FreeFirst S frames inv) :
    FaultLaw S refs frames ↔ EmptyMarkLate refs frames :=
  ⟨fun hlaw => hS.emptyMarkLate_iff.mpr hlaw.markSafe,
    fun hlate => hS.faultLaw (hS.emptyMarkLate_iff.mp hlate)⟩

end Law

section Simulators

variable {used : Nat → Prop} {frame : List Int}

private theorem freeIndex_lt (hlen : frame.length = frames) (h : freeIndex frame = some i) :
    i < frames := by
  have := (List.getElem?_eq_some_iff.mp (freeIndex_some h)).1
  omega

theorem freeIndex_unused (hlen : frame.length = frames) (h : freeIndex frame = some i)
    (hmark : ∀ i < frames, frame[i]? = some (-1) ↔ ¬ used i) : ¬ used i :=
  (hmark i (freeIndex_lt hlen h)).mp (freeIndex_some h)

private theorem freeIndex_full (hmark : ∀ i < frames, frame[i]? = some (-1) ↔ ¬ used i)
    (hex : ∃ i < frames, ¬ used i) : freeIndex frame ≠ none := by
  obtain ⟨i, hi, hu⟩ := hex
  intro h
  exact freeIndex_none.mp h (List.mem_of_getElem? ((hmark i hi).mpr hu))

theorem fifo_freeFirst (hframes : 1 ≤ frames) :
    FreeFirst fifoPolicy frames fun used next =>
      next < frames ∧ ((∀ i < frames, used i) ∨ ∀ i < frames, used i ↔ i < next) := by
  constructor
  · exact ⟨hframes, .inr fun i _ => by simp [fifoPolicy]⟩
  · intro used next pos t h
    exact h
  · intro used frame next t refs ⟨hlt, hused⟩ hlen
    subst hlen
    refine ⟨hlt, ⟨Nat.mod_lt _ hframes, ?_⟩, fun _ hex => ?_⟩
    · cases hused with
      | inl hall => exact .inl fun i hi => .inl (hall i hi)
      | inr hpre =>
        show _ ∨ ∀ i < frame.length, used i ∨ i = next ↔ i < (next + 1) % frame.length
        by_cases hlast : next + 1 = frame.length
        · refine .inl fun i hi => ?_
          by_cases hne : i = next
          · exact .inr hne
          · exact .inl ((hpre i hi).mpr (by omega))
        · refine .inr fun i hi => ?_
          rw [Nat.mod_eq_of_lt (by omega), hpre i hi]
          omega
    · show ¬ used next
      obtain ⟨i, hi, hu⟩ := hex
      cases hused with
      | inl hall => exact absurd (hall i hi) hu
      | inr hpre =>
        rw [hpre next hlt]
        exact lt_irrefl next

theorem random_freeFirst (hframes : 1 ≤ frames) (rand : Nat → Nat) :
    FreeFirst (randomPolicy rand) frames fun _ _ => True := by
  constructor
  · trivial
  · intros
    trivial
  · intro used frame calls t refs _ hlen
    simp only [randomPolicy]
    cases h : freeIndex frame with
    | some i => exact ⟨freeIndex_lt hlen h, trivial,
        fun hmark _ => freeIndex_unused hlen h hmark⟩
    | none => exact ⟨hlen ▸ Nat.mod_lt _ (hlen ▸ hframes), trivial,
        fun hmark hex => absurd h (freeIndex_full hmark hex)⟩

private theorem lruScan_lt {rest : List Int} {i k n : Nat} {time : Int} (hk : k < n)
    (hn : i + rest.length ≤ n) : lruScan i k time rest < n := by
  induction rest generalizing i k time with
  | nil => exact hk
  | cons used rest ih =>
    rw [List.length_cons] at hn
    simp only [lruScan]
    split
    · exact ih (by omega) (by omega)
    · exact ih hk (by omega)

private theorem lruIndex_lt {lastUsed : List Int} (h : 1 ≤ lastUsed.length) :
    lruIndex lastUsed < lastUsed.length := by
  cases lastUsed with
  | nil => simp at h
  | cons used rest => exact lruScan_lt (by simp) (by simp; omega)

theorem lru_freeFirst (hframes : 1 ≤ frames) :
    FreeFirst lruPolicy frames fun _ lastUsed => lastUsed.length = frames := by
  constructor
  · exact List.length_replicate
  · intro used lastUsed pos t h
    exact (List.length_set ..).trans h
  · intro used frame lastUsed t refs hlast hlen
    simp only [lruPolicy]
    cases h : freeIndex frame with
    | some i => exact ⟨freeIndex_lt hlen h, (List.length_set ..).trans hlast,
        fun hmark _ => freeIndex_unused hlen h hmark⟩
    | none => exact ⟨hlast ▸ lruIndex_lt (hlast ▸ hframes), (List.length_set ..).trans hlast,
        fun hmark hex => absurd h (freeIndex_full hmark hex)⟩

private theorem minScan_lt {refs : List Int} {t : Nat} {rest : List Int} {i n : Nat}
    {evictIndex farthest : Int} (he : evictIndex < n) (hn : i + rest.length ≤ n) :
    minScan refs t i evictIndex farthest rest < n := by
  induction rest generalizing i evictIndex farthest with
  | nil => exact he
  | cons page rest ih =>
    rw [List.length_cons] at hn
    simp only [minScan]
    split
    · omega
    · split
      · exact ih (by omega) (by omega)
      · exact ih he (by omega)

theorem min_freeFirst (hframes : 1 ≤ frames) : FreeFirst minPolicy frames fun _ _ => True := by
  constructor
  · trivial
  · intros
    trivial
  · intro used frame vars t refs _ hlen
    simp only [minPolicy]
    cases h : freeIndex frame with
    | some i => exact ⟨freeIndex_lt hlen h, trivial,
        fun hmark _ => freeIndex_unused hlen h hmark⟩
    | none =>
      have hlt : minScan refs t 0 (-1) (-1) frame < (frames : Int) :=
        minScan_lt (by omega) (by omega)
      refine ⟨?_, trivial, fun hmark hex => absurd h (freeIndex_full hmark hex)⟩
      show (minScan refs t 0 (-1) (-1) frame).toNat < frames
      omega

end Simulators

/-- Each simulator counts by the law exactly on the reference strings that leave `-1` alone
until all frames are in use. -/
theorem simulators_faultLaw_iff (refs : List Int) (hframes : 1 ≤ frames) :
    (FaultLaw fifoPolicy refs frames ↔ EmptyMarkLate refs frames) ∧
      (∀ rand, FaultLaw (randomPolicy rand) refs frames ↔ EmptyMarkLate refs frames) ∧
      (FaultLaw lruPolicy refs frames ↔ EmptyMarkLate refs frames) ∧
      (FaultLaw minPolicy refs frames ↔ EmptyMarkLate refs frames) :=
  ⟨(fifo_freeFirst hframes).faultLaw_iff, fun rand => (random_freeFirst hframes rand).faultLaw_iff,
    (lru_freeFirst hframes).faultLaw_iff, (min_freeFirst hframes).faultLaw_iff⟩

theorem simulators_faultLaw_iff_pair :
    (FaultLaw fifoPolicy [3, -1] 1 ↔ EmptyMarkLate [3, -1] 1) ∧
      (∀ rand, FaultLaw (randomPolicy rand) [3, -1] 1 ↔ EmptyMarkLate [3, -1] 1) ∧
      (FaultLaw lruPolicy [3, -1] 1 ↔ EmptyMarkLate [3, -1] 1) ∧
      (FaultLaw minPolicy [3, -1] 1 ↔ EmptyMarkLate [3, -1] 1) :=
  simulators_faultLaw_iff [3, -1] (by decide)

/-- A first reference to `-1` is counted as a hit by every simulator. -/
theorem faultLaw_fails_on_mark :
    ¬ FaultLaw fifoPolicy [-1] 1 ∧ (∀ rand, ¬ FaultLaw (randomPolicy rand) [-1] 1) ∧
      ¬ FaultLaw lruPolicy [-1] 1 ∧ ¬ FaultLaw minPolicy [-1] 1 := by
  refine ⟨fun h => ?_, fun rand h => ?_, fun h => ?_, fun h => ?_⟩ <;>
    exact Nat.zero_ne_one (h.first 0 (-1) rfl (by simp))

end CseOs.PageReplacement
