import CseOs.Framework.Transition
import CseOs.Kernel.Vm.Pmem

/-!
# Runs of the page allocator

Clients call `alloc_ppages` and `alloc_kpages` and release what they were handed. The inverted
page table stays sound along every run. The counter `avail_pages` is exact as long as no request
fails: a failing request is subtracted from the counter as well.
-/

namespace CseOs.Kernel

open Framework

/-- The allocator with the physical addresses its clients hold. -/
structure PageClients where
  pm : Pmem
  live : List Nat

inductive PageOp
  | allocPpages (npages : Nat)
  | allocKpages (npages : Nat)
  | freePpages (paddr : Nat)
  | freeKpages (vaddr : Nat)

namespace PageClients

/-- A client keeps the address of a successful allocation; 0 reports failure. -/
def record (paddr : Nat) (live : List Nat) : List Nat := if paddr = 0 then live else paddr :: live

inductive Step (s : PageClients) : PageOp → PageClients → Prop
  | allocPpages (n : Nat) : 1 ≤ n →
      Step s (.allocPpages n)
        ⟨(s.pm.allocPpages n).2, record (s.pm.allocPpages n).1 s.live⟩
  | allocKpages (n : Nat) : 1 ≤ n →
      Step s (.allocKpages n)
        ⟨(s.pm.allocKpages n).2, record (kvaddrToPaddr (s.pm.allocKpages n).1) s.live⟩
  | freePpages (paddr : Nat) : paddr ∈ s.live →
      Step s (.freePpages paddr) ⟨s.pm.freePpages paddr, s.live.erase paddr⟩
  | freeKpages (vaddr : Nat) : kvaddrToPaddr vaddr ∈ s.live →
      Step s (.freeKpages vaddr) ⟨s.pm.freeKpages vaddr, s.live.erase (kvaddrToPaddr vaddr)⟩

def AnyStep (s t : PageClients) : Prop := ∃ op, Step s op t

/-- Just after `vm_bootstrap`, on a machine with more managed pages than the table occupies. -/
def Booted (s : PageClients) : Prop :=
  ∃ pm₀ : Pmem, pm₀.PreBoot ∧ Pmem.tablePages pm₀.managedPages < pm₀.managedPages ∧
    s = ⟨pm₀.vmBootstrap, []⟩

/-- The addresses clients hold are the starts of distinct runs. -/
structure Inv (s : PageClients) : Prop where
  managed : s.pm.Managed
  nodup : s.live.Nodup
  starts : ∀ p ∈ s.live, ∃ i, i < s.pm.systemPages ∧ p = s.pm.pageAddr i ∧ 0 < s.pm.ipt i

variable {s t : PageClients} {n : Nat}

private theorem record_zero (live : List Nat) : record 0 live = live := if_pos rfl

private theorem record_pos {p : Nat} (h : p ≠ 0) (live : List Nat) : record p live = p :: live :=
  if_neg h

theorem step_cases (hi : Inv s) {op : PageOp} (h : Step s op t) :
    ((∃ n, (op = .allocPpages n ∨ op = .allocKpages n) ∧ ¬ s.pm.HasRoom n ∧
        t.live = s.live ∧ t.pm = { s.pm with
          availPages := s.pm.availPages - n
          trace := s.pm.trace ++ [.nospace n] }) ∨
     (∃ n j, (op = .allocPpages n ∨ op = .allocKpages n) ∧ 0 < n ∧ j + n < s.pm.systemPages ∧
        s.pm.ipt.FreeRun j n ∧ t.live = s.pm.pageAddr j :: s.live ∧ t.pm = { s.pm with
          ipt := s.pm.ipt.mark j n
          availPages := s.pm.availPages - n
          trace := s.pm.trace ++ [.alloc j n] })) ∨
    (∃ j, j < s.pm.systemPages ∧ 0 < s.pm.ipt j ∧ s.pm.pageAddr j ∈ s.live ∧
        t.live = s.live.erase (s.pm.pageAddr j) ∧ t.pm = { s.pm with
          availPages := s.pm.availPages + s.pm.ipt j
          ipt := s.pm.ipt.mark j 0
          trace := s.pm.trace ++ [.free j (s.pm.ipt j)] }) := by
  have hm := hi.managed
  cases h with
  | allocPpages n hn =>
    left
    rcases Pmem.allocPpages_cases hm.wf hm.top_lt hn with ⟨hno, he⟩ | ⟨_, j, hj, hf, _, he⟩
    · exact .inl ⟨n, .inl rfl, hno, by simp [he, record_zero], by rw [he]⟩
    · have hpos := (hm.pageAddr_bounds (by omega : j < s.pm.systemPages)).1
      have hne : s.pm.pageAddr j ≠ 0 := by
        simp only [pageSize] at hpos
        omega
      exact .inr ⟨n, j, .inl rfl, hn, hj, hf, by simp [he, record_pos hne], by rw [he]⟩
  | allocKpages n hn =>
    left
    rcases Pmem.allocPpages_cases hm.wf hm.top_lt hn with ⟨hno, he⟩ | ⟨_, j, hj, hf, _, he⟩
    · refine .inl ⟨n, .inr rfl, hno, ?_, by rw [hm.allocKpages_eq, he]⟩
      have hz : kvaddrToPaddr (paddrToKvaddr 0) = 0 := by decide
      simp [hm.allocKpages_eq, he, hz, record_zero]
    · have hjs : j < s.pm.systemPages := by omega
      have hpos := (hm.pageAddr_bounds hjs).1
      have hne : s.pm.pageAddr j ≠ 0 := by
        simp only [pageSize] at hpos
        omega
      have hk := hm.kvaddr_roundTrip hjs
      refine .inr ⟨n, j, .inr rfl, hn, hj, hf, ?_, by rw [hm.allocKpages_eq, he]⟩
      simp [hm.allocKpages_eq, he, hk.1, hk.2, record_pos hne]
  | freePpages p hp =>
    right
    obtain ⟨j, hj, rfl, hpos⟩ := hi.starts p hp
    exact ⟨j, hj, hpos, hp, rfl, hm.freePpages_eq hj⟩
  | freeKpages v hv =>
    right
    obtain ⟨j, hj, he, hpos⟩ := hi.starts _ hv
    exact ⟨j, hj, hpos, he ▸ hv, by simp [he], by simp only [Pmem.freeKpages, he, hm.freePpages_eq hj]⟩

private theorem Inv.step (hi : Inv s) {op : PageOp} (h : Step s op t) : Inv t := by
  have hm := hi.managed
  rcases step_cases hi h with (⟨n, _, _, hl, hpm⟩ | ⟨n, j, _, hn, hj, hf, hl, hpm⟩) |
      ⟨j, hj, hpos, hmem, hl, hpm⟩
  · refine ⟨?_, hl ▸ hi.nodup, ?_⟩
    · rw [hpm]
      exact hm.congr rfl rfl rfl hm.wf
    · rw [hl, hpm]
      exact hi.starts
  · have hz : s.pm.ipt j = 0 := hf.entry_zero (le_refl j) (by omega)
    refine ⟨?_, ?_, ?_⟩
    · rw [hpm]
      exact hm.congr rfl rfl rfl (hm.wf.mark_free hf (le_of_lt hj))
    · rw [hl]
      refine List.nodup_cons.mpr ⟨fun hmem => ?_, hi.nodup⟩
      obtain ⟨i, _, he, hpos⟩ := hi.starts _ hmem
      rw [Pmem.pageAddr_injective he] at hz
      omega
    · rw [hl, hpm]
      intro p hp
      rcases List.mem_cons.mp hp with rfl | hp
      · exact ⟨j, by simp only; omega, rfl, by simpa using hn⟩
      · obtain ⟨i, hi', he, hpos⟩ := hi.starts p hp
        refine ⟨i, hi', he, ?_⟩
        have hne : i ≠ j := by
          rintro rfl
          omega
        simpa [RunTable.mark_of_ne hne] using hpos
  · refine ⟨?_, hl ▸ hi.nodup.erase _, ?_⟩
    · rw [hpm]
      exact hm.congr rfl rfl rfl (hm.wf.clear j)
    · rw [hl, hpm]
      intro p hp
      obtain ⟨hne, hp'⟩ := (hi.nodup.mem_erase_iff).mp hp
      obtain ⟨i, hi', he, hpos'⟩ := hi.starts p hp'
      refine ⟨i, hi', he, ?_⟩
      have hij : i ≠ j := by
        rintro rfl
        exact hne he
      simpa [RunTable.mark_of_ne hij] using hpos'

private theorem inv_booted (h : Booted s) : Inv s := by
  obtain ⟨pm₀, hpre, hfit, rfl⟩ := h
  exact ⟨hpre.vmBootstrap, List.nodup_nil, fun p hp => absurd hp List.not_mem_nil⟩

private theorem inv_of_reachable (h : Reachable Booted AnyStep s) : Inv s :=
  h.invariant (fun _ => inv_booted) fun _ _ _ hi ⟨_, hst⟩ => hi.step hst

/-- The run of the table itself starts at page 0 and no client holds its address. -/
structure TableKept (s : PageClients) : Prop where
  entry : s.pm.ipt 0 = Pmem.tablePages s.pm.systemPages
  pos : 0 < Pmem.tablePages s.pm.systemPages
  unheld : s.pm.pageAddr 0 ∉ s.live

private theorem TableKept.step (hi : Inv s) (ht : TableKept s) {op : PageOp} (h : Step s op t) :
    TableKept t := by
  rcases step_cases hi h with (⟨n, _, _, hl, hpm⟩ | ⟨n, j, _, hn, hj, hf, hl, hpm⟩) |
      ⟨j, hj, hpos, hmem, hl, hpm⟩
  · refine ⟨?_, ?_, ?_⟩
    · rw [hpm]
      exact ht.entry
    · rw [hpm]
      exact ht.pos
    · rw [hl, hpm]
      exact ht.unheld
  · have hj0 : (0 : Nat) ≠ j := by
      rintro rfl
      have hz := hf.entry_zero (le_refl 0) (by omega)
      have := ht.pos
      rw [ht.entry] at hz
      omega
    refine ⟨?_, ?_, ?_⟩
    · rw [hpm]
      simpa [RunTable.mark_of_ne hj0] using ht.entry
    · rw [hpm]
      exact ht.pos
    · rw [hl, hpm]
      intro hmem
      rcases List.mem_cons.mp hmem with he | hmem
      · exact hj0 (Pmem.pageAddr_injective he)
      · exact ht.unheld hmem
  · have hj0 : (0 : Nat) ≠ j := by
      rintro rfl
      exact ht.unheld hmem
    refine ⟨?_, ?_, ?_⟩
    · rw [hpm]
      simpa [RunTable.mark_of_ne hj0] using ht.entry
    · rw [hpm]
      exact ht.pos
    · rw [hl, hpm]
      exact fun hmem' => ht.unheld (List.mem_of_mem_erase hmem')

private theorem tableKept_of_reachable (h : Reachable Booted AnyStep s) : TableKept s := by
  refine h.invariant (P := TableKept) ?_ fun _ _ hr ht ⟨_, hst⟩ => ht.step (inv_of_reachable hr) hst
  rintro _ ⟨pm₀, hpre, hfit, rfl⟩
  have hpos := hpre.tablePages_le.2 (by omega)
  rw [hpre.vmBootstrap_eq hfit]
  exact ⟨by simp, hpos, List.not_mem_nil⟩

/-- Soundness of the inverted page table along every run: runs are disjoint and in range, their
interior entries are 0, the scan stands only on the start of a run or on a free page, a run a
step adds is disjoint from all earlier ones, and the table's own pages stay allocated. -/
theorem ipt_sound (h : Reachable Booted AnyStep s) :
    (∀ i k j, s.pm.ipt.Covers i j → s.pm.ipt.Covers k j → i = k) ∧
    (∀ i, 0 < s.pm.ipt i → i + s.pm.ipt i ≤ s.pm.systemPages) ∧
    (∀ i j, i < j → j < i + s.pm.ipt i → s.pm.ipt j = 0) ∧
    (∀ n p, Relation.ReflTransGen
        (fun p q => Pmem.scanStep s.pm.ipt s.pm.systemPages n p = some q) (0, 0) p →
      p.1 ≤ s.pm.systemPages ∧ (0 < s.pm.ipt p.1 ∨ ¬ s.pm.ipt.Covered p.1)) ∧
    (∀ op t, Step s op t → ∀ i, 0 < t.pm.ipt i → t.pm.ipt i = s.pm.ipt i ∨
      ∀ k j, t.pm.ipt.Covers i j → ¬ s.pm.ipt.Covers k j) ∧
    (∀ p ∈ s.live, ∃ i, p = s.pm.pageAddr i ∧ 0 < s.pm.ipt i) ∧
    s.pm.ipt 0 = Pmem.tablePages s.pm.systemPages ∧ 0 < Pmem.tablePages s.pm.systemPages := by
  have hi := inv_of_reachable h
  have ht := tableKept_of_reachable h
  have hw := hi.managed.wf
  refine ⟨fun i k j => hw.covers_unique, hw.inside, hw.interior, ?_, ?_, ?_, ht.entry, ht.pos⟩
  · intro n p hrun
    have hinv := Pmem.ScanInv.of_run hw hrun
    refine ⟨hinv.inside, ?_⟩
    rcases Nat.eq_zero_or_pos (s.pm.ipt p.1) with hz | hpos
    · exact .inr (hinv.boundary.not_covered hz)
    · exact .inl hpos
  · intro op t hst i hpos
    rcases step_cases hi hst with (⟨n, _, _, _, hpm⟩ | ⟨n, j, _, hn, hj, hf, _, hpm⟩) |
        ⟨j, _, _, _, _, hpm⟩
    · exact .inl (by rw [hpm])
    · by_cases hij : i = j
      · subst hij
        right
        intro k c hc hk
        rw [hpm] at hc
        obtain ⟨hlo, hhi⟩ := hc
        simp only [RunTable.mark_self] at hhi
        exact hf c hlo hhi ⟨k, hk⟩
      · exact .inl (by simp [hpm, RunTable.mark_of_ne hij])
    · have hij : i ≠ j := by
        rintro rfl
        simp [hpm] at hpos
      exact .inl (by simp [hpm, RunTable.mark_of_ne hij])
  · intro p hp
    obtain ⟨i, _, he, hpos⟩ := hi.starts p hp
    exact ⟨i, he, hpos⟩

/-- The counter is exact: it is the number of pages that no run covers. -/
def CountExact (s : PageClients) : Prop :=
  s.pm.availPages = s.pm.ipt.freeCells s.pm.systemPages ∧
    0 ≤ s.pm.availPages ∧ s.pm.availPages ≤ s.pm.systemPages

/-- `vm_bootstrap` finds room for its own table, or there is no page to manage. -/
def BootRoom (s : PageClients) : Prop :=
  ∃ pm₀ : Pmem, pm₀.PreBoot ∧ s = ⟨pm₀.vmBootstrap, []⟩ ∧
    (Pmem.tablePages pm₀.managedPages < pm₀.managedPages ∨ pm₀.managedPages = 0)

/-- Just after `vm_bootstrap`, on any machine. -/
def BootedAny (s : PageClients) : Prop :=
  ∃ pm₀ : Pmem, pm₀.PreBoot ∧ s = ⟨pm₀.vmBootstrap, []⟩

/-- The request of the step finds a run of free pages before the last managed page. -/
def Granted (s : PageClients) : PageOp → Prop
  | .allocPpages n => s.pm.HasRoom n
  | .allocKpages n => s.pm.HasRoom n
  | _ => True

private theorem countExact_iff :
    CountExact s ↔ s.pm.availPages = s.pm.ipt.freeCells s.pm.systemPages := by
  have := RunTable.freeCells_le s.pm.ipt s.pm.systemPages
  simp only [CountExact]
  omega

private theorem boot_count (h : BootRoom s) :
    Inv s ∧ s.pm.availPages = s.pm.ipt.freeCells s.pm.systemPages := by
  obtain ⟨pm₀, hpre, rfl, hroom⟩ := h
  refine ⟨⟨hpre.vmBootstrap, List.nodup_nil, fun p hp => absurd hp List.not_mem_nil⟩, ?_⟩
  rcases hroom with hfit | hempty
  · have hfree : RunTable.FreeRun (fun _ => 0) 0 (Pmem.tablePages pm₀.managedPages) :=
      fun j _ _ => RunTable.not_covered_zero j
    have hpos := hpre.tablePages_le.2 (by omega)
    have hcount := RunTable.freeCells_mark_free hpos hfree
      (show 0 + Pmem.tablePages pm₀.managedPages ≤ pm₀.managedPages by omega)
    rw [RunTable.freeCells_zero] at hcount
    rw [hpre.vmBootstrap_eq hfit]
    simp only
    omega
  · have htp : Pmem.tablePages 0 = 0 := by decide
    have hno : ¬ Pmem.tablePages pm₀.managedPages < pm₀.managedPages := by omega
    rw [(hpre.vmBootstrap_unfit hno).2]
    simp only [RunTable.freeCells_zero, hempty, htp]
    rfl

private theorem count_step (hi : Inv s) (hc : s.pm.availPages = s.pm.ipt.freeCells s.pm.systemPages)
    {op : PageOp} (hg : Granted s op) (h : Step s op t) :
    t.pm.availPages = t.pm.ipt.freeCells t.pm.systemPages := by
  rcases step_cases hi h with (⟨n, hop, hno, _, _⟩ | ⟨n, j, _, hn, hj, hf, _, hpm⟩) |
      ⟨j, _, _, _, _, hpm⟩
  · rcases hop with rfl | rfl <;> exact absurd hg hno
  · have := RunTable.freeCells_mark_free hn hf (le_of_lt hj)
    rw [hpm]
    simp only
    omega
  · have := RunTable.freeCells_clear (i := j) hi.managed.wf
    rw [hpm]
    simp only
    omega

/-- In every run whose requests are all granted, `avail_pages` is the number of free pages. -/
theorem avail_exact_of_granted (h : Reachable BootRoom (Guarded Granted Step) s) :
    CountExact s := by
  have hboth : Inv s ∧ s.pm.availPages = s.pm.ipt.freeCells s.pm.systemPages := by
    refine h.invariant (fun _ => boot_count) ?_
    rintro s t _ ⟨hi, hc⟩ ⟨op, hg, hst⟩
    exact ⟨hi.step hst, count_step hi hc hg hst⟩
  exact countExact_iff.mpr hboth.2

/-- Five managed pages, the first of them for the table. -/
def fivePages : BootInfo where
  firstfree := mipsKseg0 + 3 * pageSize
  ramsize := 8 * pageSize
  firstfree_aligned := by decide
  ramsize_aligned := by decide
  above_kernel := by decide
  fits := by decide

def fiveBooted : PageClients := ⟨(ramBootstrap fivePages).vmBootstrap, []⟩

/-- Two of the four free pages go to a client. -/
def fiveGranted : PageClients :=
  ⟨(fiveBooted.pm.allocPpages 2).2, record (fiveBooted.pm.allocPpages 2).1 fiveBooted.live⟩

/-- A request for nine pages fails. -/
def fiveRefused : PageClients :=
  ⟨(fiveGranted.pm.allocKpages 9).2,
    record (kvaddrToPaddr (fiveGranted.pm.allocKpages 9).1) fiveGranted.live⟩

private theorem booted_five : Booted fiveBooted :=
  ⟨_, Pmem.preBoot_ramBootstrap fivePages, by decide +kernel, rfl⟩

private theorem granted_five : Step fiveBooted (.allocPpages 2) fiveGranted :=
  .allocPpages 2 (by decide)

private theorem refused_five : Step fiveGranted (.allocKpages 9) fiveRefused :=
  .allocKpages 9 (by decide)

theorem ipt_sound_five :
    fiveRefused.pm.ipt 0 = Pmem.tablePages fiveRefused.pm.systemPages ∧
      ∀ p ∈ fiveRefused.live, ∃ i, p = fiveRefused.pm.pageAddr i ∧ 0 < fiveRefused.pm.ipt i := by
  have h := ipt_sound (((Reachable.start booted_five).next ⟨_, granted_five⟩).next
    ⟨_, refused_five⟩)
  exact ⟨h.2.2.2.2.2.2.1, h.2.2.2.2.2.1⟩

theorem avail_exact_five : CountExact fiveGranted := by
  have hboot : BootRoom fiveBooted :=
    ⟨_, Pmem.preBoot_ramBootstrap fivePages, rfl, .inl (by decide +kernel)⟩
  have hroom : fiveBooted.pm.HasRoom 2 := by
    refine ⟨1, by decide +kernel, fun j hlo hhi => ?_⟩
    have : j = 1 ∨ j = 2 := by omega
    rcases this with rfl | rfl <;> decide +kernel
  exact avail_exact_of_granted ((Reachable.start hboot).next ⟨.allocPpages 2, hroom, granted_five⟩)

/-- The request for nine pages takes the counter to -7 while two pages are free. -/
theorem avail_counts_failed_request :
    ¬ ∀ s, Reachable BootedAny AnyStep s → CountExact s := by
  intro hall
  have hboot : BootedAny fiveBooted := ⟨_, Pmem.preBoot_ramBootstrap fivePages, rfl⟩
  have hc := hall fiveRefused
    (((Reachable.start hboot).next ⟨_, granted_five⟩).next ⟨_, refused_five⟩)
  have hneg : fiveRefused.pm.availPages = -7 := by decide +kernel
  have := hc.2.1
  omega

end PageClients

end CseOs.Kernel
