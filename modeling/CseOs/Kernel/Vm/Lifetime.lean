import CseOs.Kernel.Vm.PageOwners

/-!
# Giving pages back

The page allocator only understands the address of a run it granted itself. A page of the heap
that was stolen before `vm_bootstrap` has no entry in the inverted page table, and `kfree` gives
it back all the same. An address space gives back what it was given, and sometimes a page more.
-/

namespace CseOs.Kernel

open Framework KernelSt

namespace Vm

variable {s : Vm} {as : Nat}

/-- Every index that `free_ppages` computed was the first page of a run. -/
theorem releases_live_runs (h : Reachable Boots CleanStep s) : s.k.pages.CleanTrace := by
  have hi := inv_of_reachable h
  cases hi.ok with
  | inl hp =>
      intro page len hmem
      rw [hp.quiet] at hmem
      cases hmem
  | inr hr => exact hr.clean

private theorem Inv.heapPage_not_got (hi : Inv s) (has : as ∈ s.spaces) {a : Nat}
    (hl : s.LastBlock as a) : a ∉ s.got as := by
  intro ha
  obtain ⟨p, hp, _, hpa, _⟩ := hl
  obtain ⟨q, hq⟩ := ((hi.given as has).2 a).mp ha
  have := hi.placed.apart (.heapPage p) (.space as q) _ 1 a 1 ⟨hp, rfl, rfl⟩ ⟨has, hq, rfl⟩ (by simp)
  simp only [RangesApart, pageSize, hpa] at this
  omega

/-- `as_destroy` succeeds and releases exactly the pages its address space was given, each of them
once, and besides them at most the page of the heap that its own block was the last to use. All
other entries of the inverted page table stay as they are. -/
theorem as_destroy_returns (h : Reachable Boots CleanStep s) (has : as ∈ s.spaces)
    (hg : s.ReleasesManaged as) :
    ∃ k freed, KernelSt.asDestroy as s.k = some k ∧ ReleasedAll s.k.pages k.pages freed ∧
      freed.Nodup ∧
      (∀ a, a ∈ s.got as ↔ ∃ q, treePage s.k.mem (asPt s.k.mem as) q = some a) ∧
      (freed.Perm (s.got as) ∧ (∀ a, ¬ s.LastBlock as a) ∨
        ∃ a, s.LastBlock as a ∧ freed.Perm (s.got as ++ [a])) := by
  have hi := inv_of_reachable h
  obtain ⟨hnd, hmem⟩ := hi.given as has
  obtain ⟨k, freed, hrun, hrel, _, hcase⟩ := hi.asDestroy has hg
  refine ⟨k, freed, hrun, hrel, ?_, hmem, hcase⟩
  rcases hcase with ⟨hperm, _⟩ | ⟨a, hl, hperm⟩
  · exact hperm.nodup_iff.mpr hnd
  · apply hperm.nodup_iff.mpr
    refine List.nodup_append.mpr ⟨hnd, List.nodup_singleton a, ?_⟩
    intro b hb c hc hbc
    rw [List.mem_singleton] at hc
    exact hi.heapPage_not_got has hl (hc ▸ hbc ▸ hb)

end Vm

namespace SharedTable

open Vm (AnyStep Boots)

/-- A block from before `vm_bootstrap`, given back afterwards. -/
def early : KernelSt := ((HeapSt.kmalloc vmSupply 100 boot).getD (0, boot)).2
def earlyBooted : KernelSt := { early with pages := early.pages.vmBootstrap }
def earlyFreed : KernelSt := (HeapSt.kfree vmSupply 0x80003f80 earlyBooted).getD earlyBooted

/-- A block from after `vm_bootstrap`, given back. -/
def late : KernelSt := ((HeapSt.kmalloc vmSupply 100 booted).getD (0, booted)).2
def lateFreed : KernelSt := (HeapSt.kfree vmSupply 0x80004f80 late).getD late

variable {k k' : KernelSt} {kpages blocks : List (Nat × Nat)} {spaces : List Nat}
  {got : Nat → List Nat} {sz ptr a : Nat}

private theorem step_kmalloc (hsz : sz < largestSubpageSize)
    (hrun : HeapSt.kmalloc vmSupply sz k = some (ptr, k')) (hne : ptr ≠ 0) :
    Vm.Step ⟨k, kpages, [], spaces, got⟩ (.kmalloc sz) ptr
      ⟨k', kpages, [(ptr, sz)], spaces, got⟩ := by
  have hlt : sz < 2 ^ 32 := by
    simp only [largestSubpageSize] at hsz
    omega
  have h := Vm.Step.kmalloc (s := ⟨k, kpages, [], spaces, got⟩) sz ptr k' hlt hrun
  simp only [Vm.recordKmalloc, if_pos hsz, recordBlock, if_neg hne] at h
  exact h

private theorem step_kfree (hrun : HeapSt.kfree vmSupply ptr k = some k') :
    Vm.Step ⟨k, kpages, [(ptr, sz)], spaces, got⟩ (.kfree ptr) 0
      ⟨k', kpages, [], spaces, got⟩ := by
  have h := Vm.Step.kfreeBlock (s := ⟨k, kpages, [(ptr, sz)], spaces, got⟩) ptr k'
    List.mem_cons_self hrun
  simp only [dropBlock_cons_self (show ptr ∉ List.map Prod.fst [] from List.not_mem_nil)] at h
  exact h

private theorem early_values :
    (HeapSt.kmalloc vmSupply 100 boot).map Prod.fst = some 0x80003f80 ∧
    early.pages.bootstrapped = false ∧
    (HeapSt.kfree vmSupply 0x80003f80 earlyBooted).isSome ∧
    PageEvent.free 0xfffff 0 ∈ earlyFreed.pages.trace := by
  decide +kernel

private theorem getD_of_isSome {α : Type} {o : Option α} {d : α} (h : o.isSome) :
    o = some (o.getD d) := by
  obtain ⟨x, rfl⟩ := Option.isSome_iff_exists.mp h
  rfl

/-- The page stolen for a block goes to `free_kpages`, which computes an index far outside the
table. -/
theorem stolen_page_released : ¬ ∀ s, Reachable Boots AnyStep s → s.k.pages.CleanTrace := by
  intro hall
  obtain ⟨hrun, hboot, hsome, hfree⟩ := early_values
  have h0 : Reachable Boots AnyStep ⟨boot, [], [], [], fun _ => []⟩ := Reachable.start ⟨_, _, rfl⟩
  have h1 : Reachable Boots AnyStep ⟨early, [], [(0x80003f80, 100)], [], fun _ => []⟩ :=
    h0.next ⟨_, _, step_kmalloc (by decide) (answer_eq hrun) (by decide)⟩
  have h2 : Reachable Boots AnyStep ⟨earlyBooted, [], [(0x80003f80, 100)], [], fun _ => []⟩ :=
    h1.next ⟨_, _, .vmBootstrap hboot⟩
  have h3 : Reachable Boots AnyStep ⟨earlyFreed, [], [], [], fun _ => []⟩ :=
    h2.next ⟨_, _, step_kfree (getD_of_isSome hsome)⟩
  have hlen := (hall _ h3 0xfffff 0 hfree).2
  omega

private theorem late_values :
    (HeapSt.kmalloc vmSupply 100 booted).map Prod.fst = some 0x80004f80 ∧
    late.releasedPage 0x80004f80 = some 0x80004000 ∧ late.pages.bootstrapped = true ∧
    mipsKseg0 + late.pages.lo ≤ 0x80004000 ∧ (HeapSt.kfree vmSupply 0x80004f80 late).isSome := by
  decide +kernel

private theorem clean_released (hpage : k.releasedPage ptr = some a)
    (hb : k.pages.bootstrapped = true) (hlo : mipsKseg0 + k.pages.lo ≤ a) :
    Vm.ReleasesManaged ⟨k, kpages, blocks, spaces, got⟩ ptr := by
  intro b hpage'
  have hab : a = b := Option.some.inj (hpage.symm.trans hpage')
  exact ⟨hb, hab ▸ hlo⟩

theorem releases_live_runs_late : lateFreed.pages.CleanTrace := by
  obtain ⟨hrun, hpage, hlate, hlo, hsome⟩ := late_values
  have h0 : Reachable Boots Vm.CleanStep ⟨boot, [], [], [], fun _ => []⟩ :=
    Reachable.start ⟨_, _, rfl⟩
  have h1 : Reachable Boots Vm.CleanStep ⟨booted, [], [], [], fun _ => []⟩ :=
    h0.next ⟨.vmBootstrap, _, trivial, .vmBootstrap rfl⟩
  have hfit : booted.pages.Fits 1 := by
    rw [Pmem.Fits, if_pos booted_values.1]
    exact ⟨1, Nat.lt_of_succ_lt booted_values.2.1, free_booted 1 (.inl rfl)⟩
  have h2 : Reachable Boots Vm.CleanStep ⟨late, [], [(0x80004f80, 100)], [], fun _ => []⟩ :=
    h1.next ⟨.kmalloc 100, _, fun _ => hfit,
      step_kmalloc (by decide) (answer_eq hrun) (by decide)⟩
  have hguard : Vm.Clean ⟨late, [], [(0x80004f80, 100)], [], fun _ => []⟩ (.kfree 0x80004f80) :=
    clean_released hpage hlate hlo
  have h3 : Reachable Boots Vm.CleanStep ⟨lateFreed, [], [], [], fun _ => []⟩ :=
    h2.next ⟨.kfree 0x80004f80, _, hguard, step_kfree (getD_of_isSome hsome)⟩
  have hclean := Vm.releases_live_runs h3
  exact hclean

/-- The state with one address space, whose block is the only one of the heap. -/
def single : Vm := ⟨spaced, [], [], [0x80004fe0],
  Function.update (fun _ => []) 0x80004fe0 [asPt spaced.mem 0x80004fe0]⟩

private theorem reachable_single : Reachable Boots Vm.CleanStep single := reachable_spaced

private theorem single_values : spaced.releasedPage 0x80004fe0 = some 0x80004000 ∧
    spaced.pages.bootstrapped = true ∧ mipsKseg0 + spaced.pages.lo ≤ 0x80004000 ∧
    spaced.kheap.InUse 0 ∧ (spaced.kheap.pagerefs 0).IsBlock 0x80004fe0 ∧
    (spaced.kheap.pagerefs 0).pageaddr = 0x80004000 := by
  unfold Kheap.InUse Pageref.IsBlock
  decide +kernel

private theorem clean_single : single.ReleasesManaged 0x80004fe0 :=
  clean_released single_values.1 single_values.2.1 single_values.2.2.1

private theorem lastBlock_only {as p : Nat} (hp : k.kheap.InUse p)
    (hblk : (k.kheap.pagerefs p).IsBlock as) (hpa : (k.kheap.pagerefs p).pageaddr = a) :
    Vm.LastBlock ⟨k, kpages, [], [as], got⟩ as a :=
  ⟨p, hp, hblk, hpa, fun _ hb hne => absurd (List.mem_singleton.mp hb) hne⟩

private theorem last_single : single.LastBlock 0x80004fe0 0x80004000 :=
  have ⟨huse, hblk, hpage⟩ := single_values.2.2.2
  lastBlock_only huse hblk hpage

theorem as_destroy_returns_single :
    ∃ k freed, KernelSt.asDestroy 0x80004fe0 single.k = some k ∧
      ReleasedAll single.k.pages k.pages freed ∧ freed.Nodup ∧
      freed.length = (single.got 0x80004fe0).length + 1 := by
  obtain ⟨k, freed, hrun, hrel, hnd, _, hcase⟩ :=
    Vm.as_destroy_returns (s := single) reachable_single List.mem_cons_self clean_single
  refine ⟨k, freed, hrun, hrel, hnd, ?_⟩
  rcases hcase with ⟨_, hnot⟩ | ⟨a, _, hperm⟩
  · exact absurd last_single (hnot 0x80004000)
  · rw [hperm.length_eq, List.length_append, List.length_singleton]

/-- Destroying the one address space of a fresh machine releases a page more than it was given:
the page of the heap. -/
theorem heap_page_released : ¬ ∀ s as, Reachable Boots Vm.CleanStep s → as ∈ s.spaces →
    s.ReleasesManaged as → ∃ k freed, KernelSt.asDestroy as s.k = some k ∧
      ReleasedAll s.k.pages k.pages freed ∧ freed.Perm (s.got as) := by
  intro hall
  obtain ⟨k, freed, hrun, hrel, hperm⟩ :=
    hall single 0x80004fe0 reachable_single List.mem_cons_self clean_single
  have hi := Vm.inv_of_reachable reachable_single
  obtain ⟨k', freed', hrun', hrel', _, hcase⟩ := hi.asDestroy List.mem_cons_self clean_single
  have hk : k = k' := Option.some.inj (hrun.symm.trans hrun')
  subst hk
  rcases hcase with ⟨_, hnot⟩ | ⟨a, _, hperm'⟩
  · exact hnot 0x80004000 last_single
  · obtain ⟨js, hjs, htrace⟩ := hrel.log
    obtain ⟨js', hjs', htrace'⟩ := hrel'.log
    have hlen := congrArg List.length (htrace.symm.trans htrace')
    have h1 := hperm.length_eq
    have h2 := hperm'.length_eq
    rw [hjs, List.length_map] at h1
    rw [hjs', List.length_map, List.length_append, List.length_singleton] at h2
    rw [List.length_append, List.length_append, List.length_map, List.length_map] at hlen
    omega

end SharedTable

end CseOs.Kernel
