import CseOs.Framework.DemandPaging
import CseOs.PageReplacement.FaultLaw

/-!
# Optimality of MIN

Every simulator is a demand-paging run, and MIN, which gives up a page whose next use is the
farthest, has the fewest faults of all of them.
-/

namespace CseOs.PageReplacement

open Framework

variable {σ : Type} {S : Simulator σ} {inv : (Nat → Prop) → σ → Prop} {refs : List Int}
  {frames t slot : Nat} {page v : Int}

private theorem pages_hit {pos : Nat} (hpage : refs[t]? = some page)
    (hevent : S.event refs frames t = some (.hit pos)) :
    pages S refs frames (t + 1) = pages S refs frames t := by
  rcases step_cases (S := S) frames hpage with
    ⟨_, _, _, heq⟩ | ⟨_, _, _, _, hfault, _⟩
  · rw [pages, pages, heq]
  · rw [hevent] at hfault
    cases hfault

section Fault

variable (hS : FreeFirst S frames inv) (hrefs : (-1 : Int) ∉ refs) (hpage : refs[t]? = some page)
include hS hrefs hpage

private theorem pages_fault_subset : pages S refs frames (t + 1) ⊆ insert page (pages S refs frames t) := by
  intro p hp
  obtain ⟨i, hi⟩ := (hS.mem_pages_iff hrefs).mp hp
  cases holds_succ.mp hi with
  | inl h =>
    have : p = page := Option.some_inj.mp (h.2.symm.trans hpage)
    exact this ▸ Finset.mem_insert_self _ _
  | inr h => exact Finset.mem_insert_of_mem ((hS.mem_pages_iff hrefs).mpr ⟨i, h.2⟩)

variable (hevent : S.event refs frames t = some (.fault slot))
include hevent

private theorem page_mem_pages : page ∈ pages S refs frames (t + 1) :=
  (hS.mem_pages_iff hrefs).mpr ⟨slot, holds_succ.mpr (.inl ⟨hevent, hpage⟩)⟩

omit hpage in
theorem mem_pages_of_holds {p : Int} {i : Nat} (hi : i ≠ slot)
    (hp : Holds S refs frames t i p) : p ∈ pages S refs frames (t + 1) := by
  refine (hS.mem_pages_iff hrefs).mpr ⟨i, holds_succ.mpr (.inr ⟨fun h => hi ?_, hp⟩)⟩
  rw [hevent] at h
  cases h
  rfl

theorem pages_fault_unused (hu : Unused S refs frames t slot) :
    pages S refs frames (t + 1) = insert page (pages S refs frames t) := by
  apply (pages_fault_subset hS hrefs hpage).antisymm
  apply Finset.insert_subset (page_mem_pages hS hrefs hpage hevent)
  intro p hp
  obtain ⟨i, hi⟩ := (hS.mem_pages_iff hrefs).mp hp
  refine mem_pages_of_holds hS hrefs hevent (fun h => ?_) hi
  subst h
  exact hi.not_unused hu

theorem pages_fault_evict (hpnot : page ∉ pages S refs frames t)
    (hv : Holds S refs frames t slot v) :
    pages S refs frames (t + 1) = insert page ((pages S refs frames t).erase v) := by
  have hvmem : v ∈ pages S refs frames t := (hS.mem_pages_iff hrefs).mpr ⟨slot, hv⟩
  ext p
  rw [Finset.mem_insert, Finset.mem_erase]
  constructor
  · intro hp
    have hsub := Finset.mem_insert.mp (pages_fault_subset hS hrefs hpage hp)
    refine hsub.imp_right fun hmem => ⟨?_, hmem⟩
    rintro rfl
    obtain ⟨i, hi⟩ := (hS.mem_pages_iff hrefs).mp hp
    rcases holds_succ.mp hi with ⟨_, hpi⟩ | ⟨hne, hi⟩
    · rw [hpage, Option.some_inj] at hpi
      exact hpnot (hpi ▸ hvmem)
    · have := hS.holds_inj hi hv
      exact hne (this ▸ hevent)
  · intro hp
    rcases hp with rfl | ⟨hne, hmem⟩
    · exact page_mem_pages hS hrefs hpage hevent
    · obtain ⟨i, hi⟩ := (hS.mem_pages_iff hrefs).mp hmem
      refine mem_pages_of_holds hS hrefs hevent (fun h => hne ?_) hi
      exact Option.some_inj.mp ((holds_iff.mp hi).symm.trans (h ▸ holds_iff.mp hv))

end Fault

private theorem FreeFirst.demandRun (hS : FreeFirst S frames inv) (hrefs : (-1 : Int) ∉ refs) (d : Nat)
    {t : Nat} (ht : t + d = refs.length) :
    ∃ f, (S.simulate refs frames).faults = (S.run refs frames t).res.faults + f ∧
      DemandRun frames (pages S refs frames t) (refs.drop t) f := by
  induction d generalizing t with
  | zero =>
    rw [Nat.add_zero] at ht
    subst ht
    exact ⟨0, rfl, List.drop_length ▸ .done⟩
  | succ d ih =>
    have hlt : t < refs.length := by omega
    have hpage := List.getElem?_eq_getElem hlt
    obtain ⟨f, hf, hrun⟩ := ih (t := t + 1) (by omega)
    rw [List.drop_eq_getElem_cons hlt]
    rcases step_cases (S := S) frames hpage with
      ⟨pos, hpos, hevent, heq⟩ | ⟨slot, vars, hnot, _, hevent, heq⟩
    · have hne : refs[t] ≠ -1 := fun h => hrefs (h ▸ List.getElem_mem hlt)
      rw [pages_hit hpage hevent] at hrun
      rw [heq] at hf
      exact ⟨f, hf, .hit (mem_pages.mpr ⟨List.mem_of_getElem? hpos, hne⟩) hrun⟩
    · rw [heq] at hf
      refine ⟨f + 1, by simp only at hf; omega, .fault ?_ (page_mem_pages hS hrefs hpage hevent)
        (pages_fault_subset hS hrefs hpage) ?_ hrun⟩
      · exact fun h => hnot (mem_pages.mp h).1
      · exact card_pages_le S refs frames (t + 1)

private theorem nextUse_eq_none : nextUse refs t page = none ↔ page ∉ refs.drop (t + 1) := by
  simp [nextUse]

private theorem nextUse_eq_some {next : Nat} (h : nextUse refs t page = some next) :
    next = t + 1 + (refs.drop (t + 1)).idxOf page := by
  rw [nextUse, Option.map_eq_some_iff] at h
  obtain ⟨d, hd, rfl⟩ := h
  have : (refs.drop (t + 1)).idxOf page = d :=
    (List.findIdx?_eq_some_iff_findIdx_eq.mp hd).2
  rw [this]

theorem minScan_spec {all rest : List Int} {i : Nat} {evictIndex farthest : Int}
    (hall : all ≠ []) (hrest : all.drop i = rest)
    (hseen : ∀ j < i, ∀ x, all[j]? = some x →
      ((t + 1 + (refs.drop (t + 1)).idxOf x : Nat) : Int) ≤ farthest)
    (hbest : (i = 0 ∧ farthest = -1) ∨ ∃ v, all[evictIndex.toNat]? = some v ∧
      farthest = ((t + 1 + (refs.drop (t + 1)).idxOf v : Nat) : Int)) :
    ∃ v, all[(minScan refs t i evictIndex farthest rest).toNat]? = some v ∧
      ∀ w ∈ all, (refs.drop (t + 1)).idxOf w ≤ (refs.drop (t + 1)).idxOf v := by
  induction rest generalizing i evictIndex farthest with
  | nil =>
    have hlen := List.drop_eq_nil_iff.mp hrest
    have hpos := List.length_pos_iff.mpr hall
    cases hbest with
    | inl h => omega
    | inr h =>
      obtain ⟨v, hv, hfar⟩ := h
      refine ⟨v, hv, fun w hw => ?_⟩
      obtain ⟨j, hj, hget⟩ := List.getElem_of_mem hw
      have := hseen j (hj.trans_le hlen) w (List.getElem?_eq_some_iff.mpr ⟨hj, hget⟩)
      omega
  | cons pageInFrame rest ih =>
    have hget : all[i]? = some pageInFrame := by
      have := @List.getElem?_drop _ all i 0
      rwa [hrest, List.getElem?_cons_zero, Nat.add_zero, eq_comm] at this
    have hrest' : all.drop (i + 1) = rest := by
      rw [← List.drop_drop, hrest, List.drop_one, List.tail_cons]
    rw [minScan]
    cases hnext : nextUse refs t pageInFrame with
    | none =>
      refine ⟨pageInFrame, hget, fun w _ => ?_⟩
      rw [List.idxOf_eq_length_iff.mpr (nextUse_eq_none.mp hnext)]
      exact List.idxOf_le_length
    | some next =>
      have hnext := nextUse_eq_some hnext
      simp only
      split
      · next hlt =>
        apply ih hrest'
        · intro j hj x hx
          cases Nat.lt_succ_iff_lt_or_eq.mp hj with
          | inl hji => exact (hseen j hji x hx).trans hlt.le
          | inr hji =>
            rw [hji, hget, Option.some_inj] at hx
            rw [← hx, hnext]
        · exact .inr ⟨pageInFrame, hget, by rw [hnext]⟩
      · next hge =>
        apply ih hrest'
        · intro j hj x hx
          cases Nat.lt_succ_iff_lt_or_eq.mp hj with
          | inl hji => exact hseen j hji x hx
          | inr hji =>
            rw [hji, hget, Option.some_inj] at hx
            rw [← hx]
            omega
        · cases hbest with
          | inl h => omega
          | inr h => exact .inr h

private theorem min_slot (frame : List Int) (t : Nat) (refs : List Int) :
    (minPolicy.replace frame () t refs).1 =
      (freeIndex frame).getD (minScan refs t 0 (-1) (-1) frame).toNat := by
  simp only [minPolicy]
  cases freeIndex frame <;> rfl

theorem min_evicts_farthest (hframes : 1 ≤ frames) (hrefs : (-1 : Int) ∉ refs)
    (hfull : ¬ ∃ i < frames, Unused minPolicy refs frames t i)
    (hevent : minPolicy.event refs frames t = some (.fault slot)) :
    ∃ v, Holds minPolicy refs frames t slot v ∧ ∀ w ∈ pages minPolicy refs frames t,
      (refs.drop (t + 1)).idxOf w ≤ (refs.drop (t + 1)).idxOf v := by
  have hS := min_freeFirst hframes
  obtain ⟨page, hpage⟩ := event_some hevent
  rcases step_cases (S := minPolicy) frames hpage with
    ⟨_, _, hhit, _⟩ | ⟨slot', vars, _, hreplace, hfault, _⟩
  · rw [hevent] at hhit
    cases hhit
  · rw [hevent] at hfault
    cases hfault
    have hne : (minPolicy.run refs frames t).frame ≠ [] := by
      rw [← List.length_pos_iff, run_frame_length]
      exact hframes
    obtain ⟨v, hv, hfar⟩ := minScan_spec (t := t) hne rfl
      (by simp) (.inl ⟨rfl, rfl⟩)
    have hlt := hS.slot_lt hevent
    have hfree := freeIndex_eq_none hrefs hfull
    have hslot : (minScan refs t 0 (-1) (-1) (minPolicy.run refs frames t).frame).toNat = slot := by
      have := congrArg Prod.fst hreplace
      rwa [min_slot, hfree, Option.getD_none] at this
    rw [List.drop_zero, hslot] at hv
    refine ⟨v, holds_of_frame hv (.inr fun hu => hfull ⟨slot, hlt, hu⟩), fun w hw => ?_⟩
    exact hfar w (mem_pages.mp hw).1

private theorem min_le_demandRun (hframes : 1 ≤ frames) (hrefs : (-1 : Int) ∉ refs) (d : Nat) {t f : Nat}
    (ht : t + d = refs.length)
    (h : DemandRun frames (pages minPolicy refs frames t) (refs.drop t) f) :
    (simulateMin refs frames).faults ≤ (minPolicy.run refs frames t).res.faults + f := by
  have hS := min_freeFirst hframes
  induction d generalizing t f with
  | zero =>
    rw [Nat.add_zero] at ht
    subst ht
    exact Nat.le_add_right _ _
  | succ d ih =>
    have hlt : t < refs.length := by omega
    have hpage := List.getElem?_eq_getElem hlt
    have ht' : t + 1 + d = refs.length := by omega
    have hne : refs[t] ≠ -1 := fun h => hrefs (h ▸ List.getElem_mem hlt)
    rw [List.drop_eq_getElem_cons hlt] at h
    rcases step_cases (S := minPolicy) frames hpage with
      ⟨pos, hpos, hevent, heq⟩ | ⟨slot, vars, hnot, _, hevent, heq⟩
    · have hmem := mem_pages.mpr ⟨List.mem_of_getElem? hpos, hne⟩
      cases h with
      | hit _ h =>
        have := ih ht' (pages_hit hpage hevent ▸ h)
        rwa [heq] at this
      | fault hp => exact absurd hmem hp
    · have hpnot : refs[t] ∉ pages minPolicy refs frames t := fun h => hnot (mem_pages.mp h).1
      cases h with
      | hit hp => exact absurd hp hpnot
      | @fault _ C' _ _ f _ hload hkeep hcard h =>
        have hbetter : ∃ f' ≤ f,
            DemandRun frames (pages minPolicy refs frames (t + 1)) (refs.drop (t + 1)) f' := by
          by_cases hex : ∃ i < frames, Unused minPolicy refs frames t i
          · obtain ⟨i, hi, hu⟩ := hex
            have hslot := hS.slot_unused (markSafe_of_notMem hrefs t) hi hu hevent
            rw [pages_fault_unused hS hrefs hpage hevent hslot]
            exact h.of_subset hkeep
          · obtain ⟨v, hv, hfar⟩ := min_evicts_farthest hframes hrefs hex hevent
            have hfull : (pages minPolicy refs frames t).card = frames := by
              apply (card_pages_le minPolicy refs frames t).antisymm
              exact hS.frames_le_card_pages hrefs fun i hi hu => hex ⟨i, hi, hu⟩
            rw [pages_fault_evict hS hrefs hpage hevent hpnot hv]
            exact h.of_farthest hpnot hfull hload hkeep hcard
              ((hS.mem_pages_iff hrefs).mpr ⟨slot, hv⟩) hfar
        obtain ⟨f', hle, hrun⟩ := hbetter
        have := ih ht' hrun
        rw [heq] at this
        simp only at this
        omega

/-- MIN is optimal: no demand-paging run on the same references and frames has fewer faults,
hence none of the other simulators has. -/
theorem min_optimal (refs : List Int) (hrefs : ∀ page ∈ refs, 0 ≤ page) (frames : Nat)
    (hframes : 1 ≤ frames) :
    (∀ f, DemandRun frames ∅ refs f → (simulateMin refs frames).faults ≤ f) ∧
      (simulateMin refs frames).faults ≤ (simulateFifo refs frames).faults ∧
      (simulateMin refs frames).faults ≤ (simulateLru refs frames).faults ∧
      ∀ rand, (simulateMin refs frames).faults ≤ (simulateRandom rand refs frames).faults := by
  have hmark : (-1 : Int) ∉ refs := fun h => absurd (hrefs _ h) (by decide)
  have hmin : ∀ f, DemandRun frames ∅ refs f → (simulateMin refs frames).faults ≤ f := by
    intro f h
    have := min_le_demandRun hframes hmark refs.length (Nat.zero_add _) (f := f)
      (by rwa [pages_zero, List.drop_zero])
    rwa [show (minPolicy.run refs frames 0).res.faults = 0 from rfl, Nat.zero_add] at this
  have hother : ∀ {τ : Type} {T : Simulator τ} {inv : (Nat → Prop) → τ → Prop},
      FreeFirst T frames inv → (simulateMin refs frames).faults ≤ (T.simulate refs frames).faults := by
    intro τ T inv hT
    obtain ⟨f, hf, hrun⟩ := hT.demandRun hmark refs.length (Nat.zero_add _)
    rw [pages_zero, List.drop_zero] at hrun
    rw [hf, show (T.run refs frames 0).res.faults = 0 from rfl, Nat.zero_add]
    exact hmin f hrun
  exact ⟨hmin, hother (fifo_freeFirst hframes), hother (lru_freeFirst hframes),
    fun rand => hother (random_freeFirst hframes rand)⟩

theorem min_optimal_example :
    (∀ f, DemandRun 2 (∅ : Finset Int) [1, 2, 3, 1, 2] f → (simulateMin [1, 2, 3, 1, 2] 2).faults ≤ f) ∧
      (simulateMin [1, 2, 3, 1, 2] 2).faults ≤ (simulateFifo [1, 2, 3, 1, 2] 2).faults ∧
      (simulateMin [1, 2, 3, 1, 2] 2).faults ≤ (simulateLru [1, 2, 3, 1, 2] 2).faults ∧
      ∀ rand, (simulateMin [1, 2, 3, 1, 2] 2).faults ≤
        (simulateRandom rand [1, 2, 3, 1, 2] 2).faults :=
  min_optimal [1, 2, 3, 1, 2] (by decide) 2 (by decide)

end CseOs.PageReplacement
