import Mathlib.Data.Finset.Card
import Mathlib.Order.Interval.Finset.Nat
import Mathlib.Tactic.IntervalCases

/-!
# Run-length tables

A table over the cells `0, 1, 2, …` whose entry is the length of the run starting at that
cell, or zero. The interior cells of a run hold zero as well, so a cell's own entry does not
tell whether it is covered. The results say when a position can be trusted to be the start of
a run or a free cell, and how marking and clearing runs moves the covered set and its size.
-/

namespace CseOs.Framework

abbrev RunTable := Nat → Nat

namespace RunTable

variable {t : RunTable} {bound i j k n : Nat}

/-- Cell `j` lies in the run that starts at `i`. -/
def Covers (t : RunTable) (i j : Nat) : Prop := i ≤ j ∧ j < i + t i

def Covered (t : RunTable) (j : Nat) : Prop := ∃ i, t.Covers i j

/-- Every run stays below the bound and every interior entry is zero. -/
structure WellFormed (t : RunTable) (bound : Nat) : Prop where
  inside : ∀ i, 0 < t i → i + t i ≤ bound
  interior : ∀ i j, i < j → j < i + t i → t j = 0

/-- Position `i` is not strictly inside a run. -/
def Boundary (t : RunTable) (i : Nat) : Prop := ∀ k, k < i → k + t k ≤ i

/-- The `n` cells from `i` on are covered by no run. -/
def FreeRun (t : RunTable) (i n : Nat) : Prop := ∀ j, i ≤ j → j < i + n → ¬ t.Covered j

instance (t : RunTable) (i j : Nat) : Decidable (t.Covers i j) :=
  inferInstanceAs (Decidable (i ≤ j ∧ j < i + t i))

instance (t : RunTable) (j : Nat) : Decidable (t.Covered j) :=
  decidable_of_iff (∃ i, i < j + 1 ∧ t.Covers i j)
    ⟨fun ⟨i, _, h⟩ => ⟨i, h⟩, fun ⟨i, h⟩ => ⟨i, Nat.lt_succ_of_le h.1, h⟩⟩

theorem Covers.pos (h : t.Covers i j) : 0 < t i := by
  obtain ⟨hlo, hhi⟩ := h
  omega

theorem covered_start (h : 0 < t i) : t.Covered i := ⟨i, le_refl i, by omega⟩

/-- Two runs of a well-formed table that share a cell are the same run. -/
theorem WellFormed.covers_unique (hw : t.WellFormed bound) (hi : t.Covers i j)
    (hk : t.Covers k j) : i = k := by
  obtain ⟨hij, hji⟩ := hi
  obtain ⟨hkj, hjk⟩ := hk
  rcases Nat.lt_trichotomy i k with hlt | heq | hgt
  · have hz := hw.interior i k hlt (by omega)
    omega
  · exact heq
  · have hz := hw.interior k i hgt (by omega)
    omega

theorem WellFormed.lt_bound_of_covered (hw : t.WellFormed bound) (h : t.Covered j) :
    j < bound := by
  obtain ⟨i, hc⟩ := h
  have hb := hw.inside i hc.pos
  obtain ⟨_, hji⟩ := hc
  omega

theorem wellFormed_zero (bound : Nat) : WellFormed (fun _ => 0) bound :=
  ⟨fun _ h => absurd h (lt_irrefl 0), fun _ _ _ _ => rfl⟩

theorem not_covered_zero (j : Nat) : ¬ Covered (fun _ => 0) j := by
  rintro ⟨i, hlo, hhi⟩
  simp only [Nat.add_zero] at hhi
  omega

theorem boundary_zero (t : RunTable) : t.Boundary 0 := fun _ h => absurd h (Nat.not_lt_zero _)

/-- Stepping over a whole run leads from a boundary to a boundary. -/
theorem Boundary.skip (hw : t.WellFormed bound) (hb : t.Boundary i) : t.Boundary (i + t i) := by
  intro k hk
  rcases Nat.lt_trichotomy k i with hlt | heq | hgt
  · have := hb k hlt
    omega
  · subst heq
    exact le_refl _
  · have := hw.interior i k hgt hk
    omega

/-- At a boundary a zero entry means a free cell. -/
theorem Boundary.not_covered (hb : t.Boundary i) (hz : t i = 0) : ¬ t.Covered i := by
  rintro ⟨k, hki, hik⟩
  rcases Nat.lt_or_eq_of_le hki with hlt | heq
  · have := hb k hlt
    omega
  · subst heq
    omega

theorem Boundary.succ (hb : t.Boundary i) (hz : t i = 0) : t.Boundary (i + 1) := by
  intro k hk
  rcases Nat.lt_or_eq_of_le (Nat.le_of_lt_succ hk) with hlt | heq
  · have := hb k hlt
    omega
  · subst heq
    omega

theorem FreeRun.succ (h : t.FreeRun (i - n) n) (hn : n ≤ i) (hi : ¬ t.Covered i) :
    t.FreeRun (i + 1 - (n + 1)) (n + 1) := by
  intro j hlo hhi
  rcases Nat.lt_or_ge j i with hlt | hge
  · exact h j (by omega) (by omega)
  · have : j = i := by omega
    subst this
    exact hi

/-- Set the entry at `i`. -/
def mark (t : RunTable) (i n : Nat) : RunTable := Function.update t i n

@[simp] theorem mark_self (t : RunTable) (i n : Nat) : t.mark i n i = n := by simp [mark]

@[simp] theorem mark_of_ne (h : j ≠ i) : t.mark i n j = t j := by simp [mark, h]

theorem FreeRun.entry_zero (h : t.FreeRun i n) (hlo : i ≤ j) (hhi : j < i + n) : t j = 0 := by
  by_contra hne
  exact h j hlo hhi (covered_start (Nat.pos_of_ne_zero hne))

theorem WellFormed.mark_free (hw : t.WellFormed bound) (hf : t.FreeRun i n)
    (hb : i + n ≤ bound) : (t.mark i n).WellFormed bound := by
  constructor
  · intro k hk
    by_cases he : k = i
    · subst he
      simpa using hb
    · rw [mark_of_ne he] at hk ⊢
      exact hw.inside k hk
  · intro a b hab hba
    by_cases ha : a = i
    · subst ha
      rw [mark_self] at hba
      rw [mark_of_ne (by omega)]
      exact hf.entry_zero (by omega) hba
    · rw [mark_of_ne ha] at hba
      by_cases hbi : b = i
      · subst hbi
        have hn : n = 0 := by
          by_contra hne
          exact hf b (le_refl b) (by omega) ⟨a, by omega, hba⟩
        simpa using hn
      · rw [mark_of_ne hbi]
        exact hw.interior a b hab hba

theorem WellFormed.clear (hw : t.WellFormed bound) (i : Nat) : (t.mark i 0).WellFormed bound := by
  constructor
  · intro k hk
    by_cases he : k = i
    · subst he
      simp at hk
    · rw [mark_of_ne he] at hk ⊢
      exact hw.inside k hk
  · intro a b hab hba
    by_cases ha : a = i
    · subst ha
      rw [mark_self] at hba
      omega
    · rw [mark_of_ne ha] at hba
      by_cases hbi : b = i
      · subst hbi
        simp
      · rw [mark_of_ne hbi]
        exact hw.interior a b hab hba

/-- Marking a free run covers its cells and no others. -/
theorem covered_mark_free (hn : 0 < n) (hf : t.FreeRun i n) :
    (t.mark i n).Covered j ↔ t.Covered j ∨ (i ≤ j ∧ j < i + n) := by
  constructor
  · rintro ⟨k, hlo, hhi⟩
    by_cases hk : k = i
    · subst hk
      rw [mark_self] at hhi
      exact .inr ⟨hlo, hhi⟩
    · rw [mark_of_ne hk] at hhi
      exact .inl ⟨k, hlo, hhi⟩
  · rintro (⟨k, hlo, hhi⟩ | ⟨hlo, hhi⟩)
    · by_cases hk : k = i
      · subst hk
        have := hf.entry_zero (le_refl k) (by omega)
        omega
      · exact ⟨k, hlo, by rwa [mark_of_ne hk]⟩
    · exact ⟨i, hlo, by rwa [mark_self]⟩

theorem covered_clear (hw : t.WellFormed bound) :
    (t.mark i 0).Covered j ↔ t.Covered j ∧ ¬ t.Covers i j := by
  constructor
  · rintro ⟨k, hlo, hhi⟩
    by_cases hk : k = i
    · subst hk
      rw [mark_self] at hhi
      omega
    · rw [mark_of_ne hk] at hhi
      exact ⟨⟨k, hlo, hhi⟩, fun h => hk (hw.covers_unique ⟨hlo, hhi⟩ h)⟩
  · rintro ⟨⟨k, hlo, hhi⟩, hn⟩
    have hk : k ≠ i := by
      rintro rfl
      exact hn ⟨hlo, hhi⟩
    exact ⟨k, hlo, by rwa [mark_of_ne hk]⟩

/-- The number of cells below the bound that no run covers. -/
def freeCells (t : RunTable) (bound : Nat) : Nat :=
  ((Finset.range bound).filter fun j => ¬ t.Covered j).card

theorem freeCells_le (t : RunTable) (bound : Nat) : t.freeCells bound ≤ bound := by
  simpa [freeCells] using Finset.card_filter_le (Finset.range bound) (fun j => ¬ t.Covered j)

theorem freeCells_zero (bound : Nat) : freeCells (fun _ => 0) bound = bound := by
  simp [freeCells, not_covered_zero]

private theorem card_filter_split (s u : Finset Nat) (p q : Nat → Prop) [DecidablePred p]
    [DecidablePred q] (hu : ∀ j, j ∈ u → j ∈ s ∧ q j ∧ ¬ p j)
    (hpq : ∀ j, j ∈ s → j ∉ u → (p j ↔ q j)) :
    (s.filter p).card + u.card = (s.filter q).card := by
  have hd : Disjoint (s.filter p) u := by
    rw [Finset.disjoint_left]
    intro j hj hju
    exact (hu j hju).2.2 (Finset.mem_filter.mp hj).2
  rw [← Finset.card_union_of_disjoint hd]
  congr 1
  ext j
  simp only [Finset.mem_union, Finset.mem_filter]
  constructor
  · rintro (⟨hs, hp⟩ | hj)
    · by_cases hju : j ∈ u
      · exact ⟨hs, (hu j hju).2.1⟩
      · exact ⟨hs, (hpq j hs hju).mp hp⟩
    · exact ⟨(hu j hj).1, (hu j hj).2.1⟩
  · rintro ⟨hs, hq⟩
    by_cases hju : j ∈ u
    · exact .inr hju
    · exact .inl ⟨hs, (hpq j hs hju).mpr hq⟩

/-- Marking a free run of `n` cells takes `n` cells from the free ones. -/
theorem freeCells_mark_free (hn : 0 < n) (hf : t.FreeRun i n) (hb : i + n ≤ bound) :
    (t.mark i n).freeCells bound + n = t.freeCells bound := by
  have hcard : (Finset.Ico i (i + n)).card = n := by simp
  suffices h : (t.mark i n).freeCells bound + (Finset.Ico i (i + n)).card = t.freeCells bound by
    rwa [hcard] at h
  apply card_filter_split
  · intro j hj
    rw [Finset.mem_Ico] at hj
    refine ⟨Finset.mem_range.mpr (by omega), hf j hj.1 hj.2, ?_⟩
    rw [covered_mark_free hn hf]
    exact fun h => h (.inr hj)
  · intro j _ hj
    rw [Finset.mem_Ico] at hj
    rw [covered_mark_free hn hf]
    tauto

/-- Clearing a run gives its cells back. -/
theorem freeCells_clear (hw : t.WellFormed bound) :
    (t.mark i 0).freeCells bound = t.freeCells bound + t i := by
  have hcard : (Finset.Ico i (i + t i)).card = t i := by simp
  rw [← hcard]
  symm
  apply card_filter_split
  · intro j hj
    rw [Finset.mem_Ico] at hj
    have hc : t.Covers i j := hj
    have hb := hw.lt_bound_of_covered ⟨i, hc⟩
    refine ⟨Finset.mem_range.mpr hb, ?_, fun h => h ⟨i, hc⟩⟩
    rw [covered_clear hw]
    exact fun h => h.2 hc
  · intro j _ hj
    rw [Finset.mem_Ico] at hj
    have hc : ¬ t.Covers i j := hj
    rw [covered_clear hw]
    tauto

end RunTable

end CseOs.Framework
