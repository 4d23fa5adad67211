import CseOs.Kernel.Vm.Pmem

/-!
# First fit

`alloc_ppages` tells success from failure by the index at which its scan stopped. A run of free
pages that ends with the last managed page stops the scan at `system_pages` too, so the request
is refused although the run was found.
-/

namespace CseOs.Kernel.Pmem

open Framework

variable {pm : Pmem} {npages j k : Nat}

/-- The lowest run of free pages that is long enough. -/
structure LowestRun (pm : Pmem) (npages j : Nat) : Prop where
  inside : j + npages ≤ pm.systemPages
  free : pm.ipt.FreeRun j npages
  lowest : ∀ k, pm.ipt.FreeRun k npages → j ≤ k

/-- NULL means that there is no such run, and else the lowest one becomes an allocation. -/
structure FirstFit (pm : Pmem) (npages : Nat) : Prop where
  null_iff : (pm.allocPpages npages).1 = 0 ↔
    ¬ ∃ j, j + npages ≤ pm.systemPages ∧ pm.ipt.FreeRun j npages
  takes : ∀ j, pm.LowestRun npages j → (pm.allocPpages npages).1 = pm.pageAddr j ∧
    ∀ i k, (pm.allocPpages npages).2.ipt.Covers i k ↔
      pm.ipt.Covers i k ∨ (i = j ∧ j ≤ k ∧ k < j + npages)

private theorem exists_lowestRun (h : ∃ j, j + npages ≤ pm.systemPages ∧ pm.ipt.FreeRun j npages) :
    ∃ j, pm.LowestRun npages j := by
  classical
  have hfree : ∃ j, pm.ipt.FreeRun j npages := h.imp fun _ h => h.2
  obtain ⟨i, hi, hrun⟩ := h
  have hle : Nat.find hfree ≤ i := Nat.find_min' hfree hrun
  exact ⟨Nat.find hfree, by omega, Nat.find_spec hfree, fun k hk => Nat.find_min' hfree hk⟩

private theorem LowestRun.unique (hj : pm.LowestRun npages j) (hk : pm.LowestRun npages k) : j = k :=
  Nat.le_antisymm (hj.lowest k hk.free) (hk.lowest j hj.free)

theorem covers_mark_free {t : RunTable} (hn : 0 < npages) (hf : t.FreeRun j npages) (i k : Nat) :
    (t.mark j npages).Covers i k ↔ t.Covers i k ∨ (i = j ∧ j ≤ k ∧ k < j + npages) := by
  by_cases hi : i = j
  · have hz : t j = 0 := hf.entry_zero (Nat.le_refl j) (by omega)
    simp only [RunTable.Covers, hi, RunTable.mark_self, true_and]
    omega
  · simp [RunTable.Covers, hi, RunTable.mark_of_ne]

/-- A request succeeds as first fit would if and only if the lowest run that is long enough does
not end with the last managed page. -/
theorem allocPpages_firstFit (pm : Pmem) (npages : Nat) (h : pm.Managed) (hn : 1 ≤ npages) :
    pm.FirstFit npages ↔ ∀ j, pm.LowestRun npages j → j + npages ≠ pm.systemPages := by
  cases allocPpages_cases h.wf h.top_lt hn with
  | inl hnone =>
    have hzero : (pm.allocPpages npages).1 = 0 := by rw [hnone.2]
    constructor
    · intro hfit j hj
      exact absurd ⟨j, hj.inside, hj.free⟩ (hfit.null_iff.mp hzero)
    · intro hends
      have hno : ∀ j, ¬ pm.LowestRun npages j := by
        intro j hj
        have hlast := hends j hj
        have hinside := hj.inside
        exact hnone.1 ⟨j, by omega, hj.free⟩
      constructor
      · apply iff_of_true hzero
        intro hrun
        exact (exists_lowestRun hrun).elim hno
      · intro j hj
        exact absurd hj (hno j)
  | inr hsome =>
    obtain ⟨_, j, hroom, hfree, hlowest, heq⟩ := hsome
    have hj : pm.LowestRun npages j := ⟨Nat.le_of_lt hroom, hfree, hlowest⟩
    have hpos : pageSize ≤ pm.pageAddr j := (h.pageAddr_bounds (by omega)).1
    apply iff_of_true
    · constructor
      · apply iff_of_false
        · rw [heq]
          simp only [pageSize] at hpos
          show pm.pageAddr j ≠ 0
          omega
        · exact fun hno => hno ⟨j, hj.inside, hfree⟩
      · intro k hk
        rw [hk.unique hj, heq]
        exact ⟨rfl, covers_mark_free hn hfree⟩
    · intro k hk
      rw [hk.unique hj]
      omega

private theorem twoPages_aligned : (mipsKseg0 + 2 * pageSize) % pageSize = 0 := by decide

private theorem twoPages_fit {pages : Nat} (h : pages ≤ 1000) :
    mipsKseg0 + 2 * pageSize - mipsKseg0 ≤ min ((pages + 2) * pageSize) (508 * 1024 * 1024) := by
  simp only [mipsKseg0, pageSize]
  omega

/-- A machine with the given number of pages above the kernel. -/
def bootOf (pages : Nat) (h : pages ≤ 1000) : BootInfo where
  firstfree := mipsKseg0 + 2 * pageSize
  ramsize := (pages + 2) * pageSize
  firstfree_aligned := twoPages_aligned
  ramsize_aligned := Nat.mul_mod_left _ _
  above_kernel := Nat.le_refl _
  fits := twoPages_fit h

/-- The inverted page table of a small machine takes the first page. -/
theorem vmBootstrap_bootOf (pages : Nat) (h : pages ≤ 1000) (h2 : 2 ≤ pages) :
    (ramBootstrap (bootOf pages h)).vmBootstrap.Managed ∧
      (ramBootstrap (bootOf pages h)).vmBootstrap.systemPages = pages ∧
      (ramBootstrap (bootOf pages h)).vmBootstrap.ipt = RunTable.mark (fun _ => 0) 0 1 := by
  have hpre := preBoot_ramBootstrap (bootOf pages h)
  have hmanaged : (ramBootstrap (bootOf pages h)).managedPages = pages := by
    have htop := hpre.managed_top
    simp only [ramBootstrap, bootOf, mipsKseg0, pageSize] at htop ⊢
    omega
  have htable : tablePages pages = 1 := by
    simp only [tablePages, nPages, roundUp, roundDown, pageSize]
    omega
  have heq := hpre.vmBootstrap_eq (by rw [hmanaged, htable]; omega)
  rw [hmanaged, htable] at heq
  refine ⟨hpre.vmBootstrap, ?_, ?_⟩
  · rw [heq]
  · rw [heq]

theorem freeRun_mark_first {j npages : Nat} :
    RunTable.FreeRun (RunTable.mark (fun _ => 0) 0 1) j npages ↔ npages = 0 ∨ 1 ≤ j := by
  have hcovered (k : Nat) : RunTable.Covered (RunTable.mark (fun _ => 0) 0 1) k ↔ k = 0 := by
    rw [RunTable.covered_mark_free (by decide) (fun k _ _ => RunTable.not_covered_zero k)]
    simp [RunTable.not_covered_zero]
  simp only [RunTable.FreeRun, hcovered]
  constructor
  · intro hfree
    by_contra hno
    exact hfree j (Nat.le_refl j) (by omega) (by omega)
  · intro h k hjk hk
    omega

theorem allocPpages_firstFit_eight :
    (ramBootstrap (bootOf 8 (by decide))).vmBootstrap.FirstFit 1 := by
  have hboot := vmBootstrap_bootOf 8 (by decide) (by decide)
  apply (allocPpages_firstFit _ 1 hboot.1 (Nat.le_refl 1)).2
  intro j hj
  have hlowest := hj.lowest 1
  rw [hboot.2.2, freeRun_mark_first] at hlowest
  have hle := hlowest (Or.inr (Nat.le_refl 1))
  rw [hboot.2.1]
  omega

/-- On a machine of two pages the one that is free is refused. -/
theorem allocPpages_refuses_last :
    ¬ ∀ (pm : Pmem) (npages : Nat), pm.Managed → 1 ≤ npages → pm.FirstFit npages := by
  intro hall
  have hboot := vmBootstrap_bootOf 2 (by decide) (by decide)
  have hfree : (ramBootstrap (bootOf 2 (by decide))).vmBootstrap.ipt.FreeRun 1 1 := by
    rw [hboot.2.2, freeRun_mark_first]
    exact Or.inr (Nat.le_refl 1)
  have hfit := hall _ 1 hboot.1 (Nat.le_refl 1)
  cases allocPpages_cases hboot.1.wf hboot.1.top_lt (Nat.le_refl 1) with
  | inl hnone =>
    exact hfit.null_iff.mp (by rw [hnone.2]) ⟨1, by rw [hboot.2.1], hfree⟩
  | inr hsome =>
    obtain ⟨_, j, hj, hrun, _⟩ := hsome
    rw [hboot.2.1] at hj
    rw [hboot.2.2, freeRun_mark_first] at hrun
    omega

end CseOs.Kernel.Pmem
