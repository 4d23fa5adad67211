import Mathlib.Data.Finset.Card
import Mathlib.Data.List.Basic

/-!
# Demand paging

Runs that load one page at each fault, and why no such run has fewer faults than one that
gives up the page whose next use is the farthest.
-/

namespace CseOs.Framework

variable {Page : Type*} [DecidableEq Page] {k f : Nat} {C M : Finset Page} {v w : Page}
  {rs : List Page}

/-- `DemandRun k C rs f`: a run over the references `rs` with `k` frames that starts with the
pages `C` and has `f` faults. At a fault the page is loaded and any of the others may go. -/
inductive DemandRun (k : Nat) : Finset Page → List Page → Nat → Prop
  | done {C : Finset Page} : DemandRun k C [] 0
  | hit {C : Finset Page} {p : Page} {rs : List Page} {f : Nat} (hp : p ∈ C)
      (h : DemandRun k C rs f) : DemandRun k C (p :: rs) f
  | fault {C C' : Finset Page} {p : Page} {rs : List Page} {f : Nat} (hp : p ∉ C)
      (hload : p ∈ C') (hkeep : C' ⊆ insert p C) (hcard : C'.card ≤ k)
      (h : DemandRun k C' rs f) : DemandRun k C (p :: rs) (f + 1)

namespace DemandRun

/-- A run from fewer pages can be followed from more of them. -/
theorem of_subset (h : DemandRun k C rs f) (hsub : C ⊆ M) :
    ∃ f' ≤ f, DemandRun k M rs f' := by
  induction h generalizing M with
  | done => exact ⟨0, le_rfl, .done⟩
  | hit hp _ ih =>
    obtain ⟨f', hle, hrun⟩ := ih hsub
    exact ⟨f', hle, .hit (hsub hp) hrun⟩
  | @fault C C' p rs f hp hload hkeep hcard h ih =>
    by_cases hM : p ∈ M
    · have hsub' : C' ⊆ M := hkeep.trans (Finset.insert_subset hM hsub)
      obtain ⟨f', hle, hrun⟩ := ih hsub'
      exact ⟨f', hle.trans f.le_succ, .hit hM hrun⟩
    · have hkeep' : C' ⊆ insert p M := hkeep.trans (Finset.insert_subset_insert p hsub)
      exact ⟨f + 1, le_rfl, .fault hM hload hkeep' hcard h⟩

theorem of_missing (h : DemandRun k C rs f) (hC : C.card ≤ k) (hsub : C ⊆ insert v M) :
    ∃ f' ≤ f + 1, DemandRun k M rs f' := by
  induction h generalizing M with
  | done => exact ⟨0, Nat.zero_le _, .done⟩
  | @hit C p rs f hp h ih =>
    by_cases hM : p ∈ M
    · obtain ⟨f', hle, hrun⟩ := ih hC hsub
      exact ⟨f', hle, .hit hM hrun⟩
    · have hpv : p = v := (Finset.mem_insert.mp (hsub hp)).resolve_right hM
      exact ⟨f + 1, le_rfl, .fault hM hp (hpv ▸ hsub) hC h⟩
  | @fault C C' p rs f hp hload hkeep hcard h ih =>
    have hkeep' : C' ⊆ insert p (insert v M) := hkeep.trans (Finset.insert_subset_insert p hsub)
    by_cases hM : p ∈ M
    · have hsub' : C' ⊆ insert v M := by
        rwa [Finset.insert_eq_self.mpr (Finset.mem_insert_of_mem hM)] at hkeep'
      obtain ⟨f', hle, hrun⟩ := ih hcard hsub'
      exact ⟨f', hle.trans (Nat.le_succ _), .hit hM hrun⟩
    · by_cases hv : v ∈ C' ∧ p ≠ v
      · have hload' : p ∈ C'.erase v := Finset.mem_erase.mpr ⟨hv.2, hload⟩
        have hM' : C'.erase v ⊆ insert p M := by
          intro q hq
          have := hkeep' (Finset.mem_of_mem_erase hq)
          simp only [Finset.mem_insert] at this ⊢
          exact this.imp_right fun h => h.resolve_left (Finset.ne_of_mem_erase hq)
        have hcard' : (C'.erase v).card ≤ k :=
          (Finset.card_le_card (Finset.erase_subset _ _)).trans hcard
        obtain ⟨f', hle, hrun⟩ := ih hcard (Finset.insert_erase hv.1).symm.subset
        exact ⟨f' + 1, Nat.succ_le_succ hle, .fault hM hload' hM' hcard' hrun⟩
      · have hM' : C' ⊆ insert p M := by
          intro q hq
          have := hkeep' hq
          simp only [Finset.mem_insert] at this ⊢
          by_cases hqv : q = v
          · subst hqv
            have hpq : p = q := by
              by_contra hne
              exact hv ⟨hq, hne⟩
            exact .inl hpq.symm
          · exact this.imp_right fun h => h.resolve_left hqv
        exact ⟨f + 1, Nat.le_succ _, .fault hM hload hM' hcard h⟩

theorem exchange (h : DemandRun k C rs f) (hM : M.card ≤ k) (hw : w ∈ M) (hwC : w ∉ C)
    (hsub : C ⊆ insert v (M.erase w)) (huse : rs.idxOf w ≤ rs.idxOf v) :
    ∃ f' ≤ f, DemandRun k M rs f' := by
  by_cases hv : v ∈ M
  · have hCM : C ⊆ M :=
      hsub.trans (Finset.insert_subset hv (Finset.erase_subset _ _))
    exact h.of_subset hCM
  induction h generalizing M with
  | done => exact ⟨0, le_rfl, .done⟩
  | @hit C p rs f hp h ih =>
    have hpw : p ≠ w := fun h => hwC (h ▸ hp)
    have hpv : p ≠ v := by
      intro h
      rw [h, List.idxOf_cons_self, Nat.le_zero, List.idxOf_cons_ne _ (h ▸ hpw)] at huse
      exact Nat.succ_ne_zero _ huse
    have hpM : p ∈ M :=
      Finset.mem_of_mem_erase ((Finset.mem_insert.mp (hsub hp)).resolve_left hpv)
    rw [List.idxOf_cons_ne _ hpw, List.idxOf_cons_ne _ hpv] at huse
    obtain ⟨f', hle, hrun⟩ := ih hM hw hwC hsub (Nat.le_of_succ_le_succ huse) hv
    exact ⟨f', hle, .hit hpM hrun⟩
  | @fault C C' p rs f hp hload hkeep hcard h ih =>
    have hkeep' : C' ⊆ insert p (insert v (M.erase w)) :=
      hkeep.trans (Finset.insert_subset_insert p hsub)
    by_cases hpw : p = w
    · -- the exchange pays here: a fault of the other run is a hit
      subst hpw
      have hsub' : C' ⊆ insert v M := by
        rwa [Finset.insert_comm, Finset.insert_erase hw] at hkeep'
      obtain ⟨f', hle, hrun⟩ := h.of_missing hcard hsub'
      exact ⟨f', hle, .hit hw hrun⟩
    have hwC' : w ∉ C' := by
      intro h
      exact (Finset.mem_insert.mp (hkeep h)).elim (fun h => hpw h.symm) hwC
    by_cases hpM : p ∈ M
    · have hpv : p ≠ v := fun h => hv (h ▸ hpM)
      have hpin : p ∈ insert v (M.erase w) :=
        Finset.mem_insert_of_mem (Finset.mem_erase.mpr ⟨hpw, hpM⟩)
      rw [Finset.insert_eq_self.mpr hpin] at hkeep'
      rw [List.idxOf_cons_ne _ hpw, List.idxOf_cons_ne _ hpv] at huse
      obtain ⟨f', hle, hrun⟩ := ih hM hw hwC' hkeep' (Nat.le_of_succ_le_succ huse) hv
      exact ⟨f', hle.trans (Nat.le_succ _), .hit hpM hrun⟩
    · by_cases hvC : v ∈ C' ∧ p ≠ v
      · have hpv := hvC.2
        rw [List.idxOf_cons_ne _ hpw, List.idxOf_cons_ne _ hpv] at huse
        have hwe : w ∉ C'.erase v := fun h => hwC' (Finset.mem_of_mem_erase h)
        have hload' : p ∈ insert w (C'.erase v) :=
          Finset.mem_insert_of_mem (Finset.mem_erase.mpr ⟨hpv, hload⟩)
        have hM' : insert w (C'.erase v) ⊆ insert p M := by
          intro q hq
          rcases Finset.mem_insert.mp hq with rfl | hq
          · exact Finset.mem_insert_of_mem hw
          · have := hkeep' (Finset.mem_of_mem_erase hq)
            simp only [Finset.mem_insert, Finset.mem_erase] at this ⊢
            exact this.imp_right fun h => (h.resolve_left (Finset.ne_of_mem_erase hq)).2
        have hcard' : (insert w (C'.erase v)).card ≤ k := by
          rw [Finset.card_insert_of_notMem hwe, Finset.card_erase_add_one hvC.1]
          exact hcard
        have hsub' : C' ⊆ insert v ((insert w (C'.erase v)).erase w) := by
          rw [Finset.erase_insert hwe, Finset.insert_erase hvC.1]
        have hv' : v ∉ insert w (C'.erase v) := by
          intro h
          rcases Finset.mem_insert.mp h with h | h
          · exact hv (h ▸ hw)
          · exact Finset.ne_of_mem_erase h rfl
        obtain ⟨f', hle, hrun⟩ :=
          ih hcard' (Finset.mem_insert_self _ _) hwC' hsub' (Nat.le_of_succ_le_succ huse) hv'
        exact ⟨f' + 1, Nat.succ_le_succ hle, .fault hpM hload' hM' hcard' hrun⟩
      · have hM' : C' ⊆ insert p M := by
          intro q hq
          have := hkeep' hq
          simp only [Finset.mem_insert, Finset.mem_erase] at this ⊢
          by_cases hqv : q = v
          · subst hqv
            have hpq : p = q := by
              by_contra hne
              exact hvC ⟨hq, hne⟩
            exact .inl hpq.symm
          · exact this.imp_right fun h => (h.resolve_left hqv).2
        exact ⟨f + 1, le_rfl, .fault hpM hload hM' hcard h⟩

/-- After a fault with all frames in use, giving up the page used last among those held is
as good as any other choice. -/
theorem of_farthest {C' : Finset Page} {p : Page} (h : DemandRun k C' rs f) (hp : p ∉ C)
    (hC : C.card = k) (hload : p ∈ C') (hkeep : C' ⊆ insert p C) (hcard : C'.card ≤ k)
    (hv : v ∈ C) (hfar : ∀ w ∈ C, rs.idxOf w ≤ rs.idxOf v) :
    ∃ f' ≤ f, DemandRun k (insert p (C.erase v)) rs f' := by
  have hpe : p ∉ C.erase v := fun h => hp (Finset.mem_of_mem_erase h)
  have hM : (insert p (C.erase v)).card = k := by
    rw [Finset.card_insert_of_notMem hpe, Finset.card_erase_add_one hv, hC]
  have hpv : v ≠ p := fun h => hp (h ▸ hv)
  by_cases hvC : v ∈ C'
  · -- the other run gave up some page `w` that this one holds
    have hex : ∃ w ∈ insert p (C.erase v), w ∉ C' := by
      by_contra! hall
      have hlt : (insert p (C.erase v)).card < C'.card :=
        Finset.card_lt_card ⟨hall, fun h => by simpa [hpv] using h hvC⟩
      omega
    obtain ⟨w, hw, hwC⟩ := hex
    have hwp : w ≠ p := fun h => hwC (h ▸ hload)
    have hwmem : w ∈ C := by
      simp only [Finset.mem_insert, Finset.mem_erase] at hw
      exact (hw.resolve_left hwp).2
    have hsub : C' ⊆ insert v ((insert p (C.erase v)).erase w) := by
      intro q hq
      have hqw : q ≠ w := fun h => hwC (h ▸ hq)
      have := hkeep hq
      simp only [Finset.mem_insert, Finset.mem_erase] at this ⊢
      by_cases hqv : q = v
      · exact .inl hqv
      · exact .inr ⟨hqw, this.imp_right fun h => ⟨hqv, h⟩⟩
    exact h.exchange hM.le hw hwC hsub (hfar w hwmem)
  · have hsub : C' ⊆ insert p (C.erase v) := by
      intro q hq
      have := hkeep hq
      simp only [Finset.mem_insert, Finset.mem_erase] at this ⊢
      exact this.imp_right fun h => ⟨fun hqv => hvC (hqv ▸ hq), h⟩
    exact h.of_subset hsub

end DemandRun

end CseOs.Framework
