import CseOs.Framework.WhileLoop
import Mathlib.Algebra.Order.Ring.Int

/-!
# Work-conserving schedules

A processor that runs whenever some job has arrived and is not finished. The clock then depends only on
the arrivals and bursts: the last job ends when the demand from some arrival on has been served.
-/

namespace CseOs.Framework

open Finset

/-- What has been served of the jobs that arrive at `a` or later. -/
def servedFrom (n : Nat) (arrival burst left : Nat → Int) (a : Int) : Int :=
  ∑ i ∈ range n, if a ≤ arrival i then burst i - left i else 0

/-- What the jobs that arrive at `a` or later ask for. -/
def demandFrom (n : Nat) (arrival burst : Nat → Int) (a : Int) : Int :=
  ∑ i ∈ range n, if a ≤ arrival i then burst i else 0

/-- Every job would end by `limit`. -/
def FitsIn (n : Nat) (arrival burst : Nat → Int) (limit : Int) : Prop :=
  ∀ j < n, arrival j + demandFrom n arrival burst (arrival j) ≤ limit

/-- The unfinished job that arrives first. -/
theorem exists_first_left (arrival left : Nat → Int) {n k : Nat} (hk : k < n) (hleft : left k ≠ 0) :
    ∃ j < n, left j ≠ 0 ∧ ∀ i < n, arrival i < arrival j → left i = 0 := by
  obtain ⟨j, hj, hmin⟩ := exists_min_image ((range n).filter fun i => left i ≠ 0) arrival
    ⟨k, mem_filter.mpr ⟨mem_range.mpr hk, hleft⟩⟩
  obtain ⟨hjn, hjleft⟩ := mem_filter.mp hj
  refine ⟨j, mem_range.mp hjn, hjleft, fun i hi hlt => ?_⟩
  by_contra hileft
  have := hmin i (mem_filter.mpr ⟨mem_range.mpr hi, hileft⟩)
  omega

/-- The clock is not before the service since any arrival, and not behind the service of the busy period
that it is in. -/
structure Conserving (n : Nat) (arrival burst : Nat → Int) (time : Int) (left : Nat → Int) :
    Prop where
  nonneg : ∀ i < n, 0 ≤ left i
  le : ∀ i < n, left i ≤ burst i
  upper : ∀ a, 0 < servedFrom n arrival burst left a → a + servedFrom n arrival burst left a ≤ time
  lower : ∃ j < n, (∀ i < n, arrival i < arrival j → left i = 0) ∧
    time ≤ arrival j + servedFrom n arrival burst left (arrival j)

namespace Conserving

variable {n i k : Nat} {arrival burst left : Nat → Int} {time time' d limit : Int}

theorem served_nonneg (h : Conserving n arrival burst time left) (a : Int) :
    0 ≤ servedFrom n arrival burst left a := by
  apply sum_nonneg
  intro i hi
  have := h.le i (mem_range.mp hi)
  split <;> omega

theorem start (hburst : ∀ i < n, 0 ≤ burst i) (hk : k < n) (htime : ∀ i < n, time ≤ arrival i) :
    Conserving n arrival burst time burst := by
  have hserved : ∀ a, servedFrom n arrival burst burst a = 0 := by
    intro a
    apply sum_eq_zero
    intro i _
    split <;> omega
  obtain ⟨j, hj, hmin⟩ := exists_min_image (range n) arrival ⟨k, mem_range.mpr hk⟩
  refine ⟨hburst, fun _ _ => Int.le_refl _, fun a hpos => ?_, j, mem_range.mp hj, ?_, ?_⟩
  · rw [hserved] at hpos
    omega
  · intro i hi hlt
    have := hmin i (mem_range.mpr hi)
    omega
  · rw [hserved, Int.add_zero]
    exact htime j (mem_range.mp hj)

/-- The job `i` runs for `d`. -/
theorem run (h : Conserving n arrival burst time left) (hi : i < n) (harrived : arrival i ≤ time)
    (hpos : 0 < d) (hd : d ≤ left i) :
    Conserving n arrival burst (time + d) (Function.update left i (left i - d)) := by
  have hserved : ∀ a, servedFrom n arrival burst (Function.update left i (left i - d)) a =
      servedFrom n arrival burst left a + if a ≤ arrival i then d else 0 := by
    intro a
    rw [servedFrom, sum_update (fun j x => if a ≤ arrival j then burst j - x else 0) left _ hi,
      servedFrom]
    split <;> omega
  have hcell : ∀ j < n, 0 ≤ Function.update left i (left i - d) j ∧
      Function.update left i (left i - d) j ≤ left j := by
    intro j hj
    by_cases hji : j = i
    · rw [hji, Function.update_self]
      omega
    · rw [Function.update_of_ne hji]
      exact ⟨h.nonneg j hj, Int.le_refl _⟩
  refine ⟨fun j hj => (hcell j hj).1, fun j hj => Int.le_trans (hcell j hj).2 (h.le j hj),
    fun a hmore => ?_, ?_⟩
  · rw [hserved] at hmore ⊢
    have hnonneg := h.served_nonneg a
    have hupper := h.upper a
    split at hmore
    · by_cases hold : 0 < servedFrom n arrival burst left a
      · have := hupper hold
        omega
      · omega
    · have := hupper (by omega)
      omega
  · obtain ⟨j, hj, hfirst, hlow⟩ := h.lower
    have hlate : arrival j ≤ arrival i := by
      by_contra hearly
      have := hfirst i hi (by omega)
      omega
    refine ⟨j, hj, fun l hl hlt => ?_, ?_⟩
    · have := hfirst l hl hlt
      have := hcell l hl
      omega
    · rw [hserved, if_pos hlate]
      omega

/-- The clock moves on while no job is there, not beyond the next arrival. -/
theorem idle (h : Conserving n arrival burst time left) (hlater : time ≤ time') (hk : k < n)
    (hnext : time' ≤ arrival k) (hfirst : ∀ i < n, arrival i < arrival k → left i = 0) :
    Conserving n arrival burst time' left := by
  refine ⟨h.nonneg, h.le, fun a hpos => Int.le_trans (h.upper a hpos) hlater, k, hk, hfirst, ?_⟩
  have := h.served_nonneg (arrival k)
  omega

/-- What is left of a job can be run before the limit. -/
theorem fits (h : Conserving n arrival burst time left) (hfits : FitsIn n arrival burst limit)
    (hi : i < n) (hpos : 0 < left i) : time + left i ≤ limit := by
  obtain ⟨j, hj, hfirst, hlow⟩ := h.lower
  have hlate : arrival j ≤ arrival i := by
    by_contra hearly
    have := hfirst i hi (by omega)
    omega
  have hterm : ∀ l ∈ range n, 0 ≤ if arrival j ≤ arrival l then left l else 0 := by
    intro l hl
    have := h.nonneg l (mem_range.mp hl)
    split <;> omega
  have hone := single_le_sum hterm (mem_range.mpr hi)
  rw [if_pos hlate] at hone
  have hsplit : demandFrom n arrival burst (arrival j) =
      servedFrom n arrival burst left (arrival j) +
        ∑ l ∈ range n, if arrival j ≤ arrival l then left l else 0 := by
    rw [demandFrom, servedFrom, ← sum_add_distrib]
    apply sum_congr rfl
    intro l _
    split <;> omega
  have := hfits j hj
  omega

/-- A job has run after it arrived. -/
theorem ran (h : Conserving n arrival burst time left) (hi : i < n) (hran : left i < burst i) :
    arrival i + (burst i - left i) ≤ time := by
  have hterm : ∀ j ∈ range n, 0 ≤ if arrival i ≤ arrival j then burst j - left j else 0 := by
    intro j hj
    have := h.le j (mem_range.mp hj)
    split <;> omega
  have hone := single_le_sum hterm (mem_range.mpr hi)
  rw [if_pos (Int.le_refl _)] at hone
  have hupper := h.upper (arrival i)
  rw [servedFrom] at hupper
  omega

/-- When all is served, the clock has passed the demand since each arrival. -/
theorem fits_of_done (h : Conserving n arrival burst time left) (hdone : ∀ i < n, left i = 0)
    (hburst : ∀ i < n, 0 < burst i) : FitsIn n arrival burst time := by
  intro j hj
  have hall : servedFrom n arrival burst left (arrival j) =
      demandFrom n arrival burst (arrival j) := by
    apply sum_congr rfl
    intro i hi
    rw [hdone i (mem_range.mp hi), Int.sub_zero]
  have hterm : ∀ i ∈ range n, 0 ≤ if arrival j ≤ arrival i then burst i else 0 := by
    intro i hi
    have := hburst i (mem_range.mp hi)
    split <;> omega
  have hone := single_le_sum hterm (mem_range.mpr hj)
  rw [if_pos (Int.le_refl _)] at hone
  have hupper := h.upper (arrival j)
  rw [hall, demandFrom] at hupper
  rw [demandFrom]
  have := hburst j hj
  omega

end Conserving

/-- How far an arrival is behind all that was asked for before it, at most: the gaps that stay. -/
def idleGaps (n : Nat) (arrival burst : Nat → Int) : Int :=
  ((List.range n).map fun j =>
    arrival j - ∑ i ∈ range n, if arrival i < arrival j then burst i else 0).foldr
      (fun a b => if a < b then b else a) 0

theorem foldr_greatest (l : List Int) :
    0 ≤ l.foldr (fun a b => if a < b then b else a) 0 ∧
      (∀ x ∈ l, x ≤ l.foldr (fun a b => if a < b then b else a) 0) ∧
      (l.foldr (fun a b => if a < b then b else a) 0 = 0 ∨ l.foldr (fun a b => if a < b then b else a) 0 ∈ l) := by
  induction l with
  | nil => exact ⟨Int.le_refl 0, fun x hx => absurd hx List.not_mem_nil, .inl rfl⟩
  | cons a l ih =>
    rw [List.foldr_cons]
    generalize l.foldr (fun a b => if a < b then b else a) 0 = m at ih
    obtain ⟨hnonneg, hle, hhit⟩ := ih
    by_cases ha : a < m
    · rw [if_pos ha]
      exact ⟨hnonneg, List.forall_mem_cons.mpr ⟨ha.le, hle⟩, hhit.imp_right (List.mem_cons_of_mem a)⟩
    · rw [if_neg ha]
      refine ⟨by omega, List.forall_mem_cons.mpr ⟨Int.le_refl a, fun x hx => ?_⟩, .inr List.mem_cons_self⟩
      have hxm := hle x hx
      omega

theorem demandFrom_eq (n : Nat) (arrival burst : Nat → Int) (a : Int) : demandFrom n arrival burst a =
    ∑ i ∈ range n, burst i - ∑ i ∈ range n, if arrival i < a then burst i else 0 := by
  rw [demandFrom, ← sum_sub_distrib]
  apply sum_congr rfl
  intro i _
  by_cases hi : a ≤ arrival i
  · rw [if_pos hi, if_neg (by omega), Int.sub_zero]
  · rw [if_neg hi, if_pos (by omega), Int.sub_self]

/-- A work-conserving schedule ends after all bursts and the gaps that stay. -/
theorem Conserving.time_eq {n : Nat} {arrival burst left : Nat → Int} {time : Int}
    (h : Conserving n arrival burst time left) (hdone : ∀ i < n, left i = 0)
    (harrival : ∀ i < n, 0 ≤ arrival i) (hburst : ∀ i < n, 0 < burst i) :
    time = ∑ i ∈ range n, burst i + idleGaps n arrival burst := by
  have hfits := h.fits_of_done hdone hburst
  obtain ⟨j, hj, _, hlow⟩ := h.lower
  have hserved : servedFrom n arrival burst left (arrival j) = demandFrom n arrival burst (arrival j) := by
    apply sum_congr rfl
    intro i hi
    rw [hdone i (mem_range.mp hi), Int.sub_zero]
  rw [hserved, demandFrom_eq] at hlow
  obtain ⟨_, hle, hhit⟩ := foldr_greatest ((List.range n).map fun j =>
    arrival j - ∑ i ∈ range n, if arrival i < arrival j then burst i else 0)
  rw [← idleGaps] at hle hhit
  have hgap := hle _ (List.mem_map_of_mem (List.mem_range.mpr hj))
  apply Int.le_antisymm
  · omega
  · cases hhit with
    | inl hzero =>
      obtain ⟨k, hk, hmin⟩ := exists_min_image (range n) arrival ⟨j, mem_range.mpr hj⟩
      have hfirst := hfits k (mem_range.mp hk)
      have hall : ∑ i ∈ range n, (if arrival i < arrival k then burst i else 0) = 0 := by
        apply sum_eq_zero
        intro i hi
        exact if_neg (Int.not_lt.mpr (hmin i hi))
      rw [demandFrom_eq, hall] at hfirst
      have hpos := harrival k (mem_range.mp hk)
      omega
    | inr hmem =>
      obtain ⟨k, hk, heq⟩ := List.mem_map.mp hmem
      have hlast := hfits k (List.mem_range.mp hk)
      rw [demandFrom_eq] at hlast
      omega

end CseOs.Framework
