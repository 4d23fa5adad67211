import CseOs.Framework.RunTable

/-!
# Physical pages: `ram.c` and the allocator of `vm.c`

Before `vm_bootstrap` pages are stolen from the low end of free memory. Afterwards the
inverted page table `ipt` tracks the length of every contiguous allocation at its first page.
Addresses are 32-bit machine words, so differences and sums carry an explicit modulus wherever
the source can wrap. The field `trace` records the calls of the allocator; no code reads it.
-/

namespace CseOs.Kernel

open Framework

def pageSize : Nat := 4096
def mipsKseg0 : Nat := 0x80000000

/-- `PADDR_TO_KVADDR` -/
def paddrToKvaddr (paddr : Nat) : Nat := (paddr + mipsKseg0) % 2 ^ 32

/-- `KVADDR_TO_PADDR` -/
def kvaddrToPaddr (vaddr : Nat) : Nat := (vaddr + 2 ^ 32 - mipsKseg0) % 2 ^ 32

def roundDown (addr : Nat) : Nat := addr / pageSize * pageSize
def roundUp (addr : Nat) : Nat := roundDown ((addr + pageSize - 1) % 2 ^ 32)
def nPages (bytes : Nat) : Nat := roundUp bytes / pageSize
def pageIdx (addr : Nat) : Nat := roundDown addr / pageSize

/-- What the allocator was asked and did: pages are numbered from `lo`. -/
inductive PageEvent
  | alloc (page npages : Nat)
  | nospace (npages : Nat)
  | free (page len : Nat)
  deriving DecidableEq

structure Pmem where
  firstpaddr : Nat
  lastpaddr : Nat
  ipt : RunTable
  systemPages : Nat
  availPages : Int
  bootstrapped : Bool
  lo : Nat
  trace : List PageEvent

/-- What `start.S` and the machine hand to `ram_bootstrap`: the first free page lies above the
exception vectors, the kernel and its boot stack, and memory ends on a page boundary. -/
structure BootInfo where
  firstfree : Nat
  ramsize : Nat
  firstfree_aligned : firstfree % pageSize = 0
  ramsize_aligned : ramsize % pageSize = 0
  above_kernel : mipsKseg0 + 2 * pageSize ≤ firstfree
  fits : firstfree - mipsKseg0 ≤ min ramsize (508 * 1024 * 1024)

def ramBootstrap (b : BootInfo) : Pmem where
  firstpaddr := b.firstfree - mipsKseg0
  lastpaddr := min b.ramsize (508 * 1024 * 1024)
  ipt := fun _ => 0
  systemPages := 0
  availPages := 0
  bootstrapped := false
  lo := 0
  trace := []

namespace Pmem

/-- Returns 0 when the request does not fit; 0 is a legal but never an allocatable address. -/
def ramStealmem (npages : Nat) (pm : Pmem) : Nat × Pmem :=
  let size := npages * pageSize % 2 ^ 32
  if pm.lastpaddr < (pm.firstpaddr + size) % 2 ^ 32 then
    (0, pm)
  else
    (pm.firstpaddr, { pm with firstpaddr := (pm.firstpaddr + size) % 2 ^ 32 })

/-- One turn of the loop in `alloc_ppages`; `none` when the loop condition fails. -/
def scanStep (ipt : RunTable) (systemPages npages : Nat) (p : Nat × Nat) : Option (Nat × Nat) :=
  if p.2 < npages ∧ p.1 < systemPages then
    if 0 < ipt p.1 then
      -- the start of an allocated region: skip it
      some (p.1 + ipt p.1, 0)
    else
      some (p.1 + 1, p.2 + 1)
  else
    none

def scan (ipt : RunTable) (systemPages npages : Nat) : Nat → Nat × Nat → Nat × Nat
  | 0, p => p
  | fuel + 1, p =>
    match scanStep ipt systemPages npages p with
    | none => p
    | some q => scan ipt systemPages npages fuel q

def allocPpages (npages : Nat) (pm : Pmem) : Nat × Pmem :=
  let i := (scan pm.ipt pm.systemPages npages pm.systemPages (0, 0)).1
  if i = pm.systemPages then
    (0, { pm with
      availPages := pm.availPages - npages
      trace := pm.trace ++ [.nospace npages] })
  else
    (((i - npages) * pageSize + pm.lo) % 2 ^ 32, { pm with
      ipt := pm.ipt.mark (i - npages) npages
      availPages := pm.availPages - npages
      trace := pm.trace ++ [.alloc (i - npages) npages] })

/-- The failure value 0 of either allocator comes back as `PADDR_TO_KVADDR(0)`. -/
def allocKpages (npages : Nat) (pm : Pmem) : Nat × Pmem :=
  let r := if pm.bootstrapped then pm.allocPpages npages else pm.ramStealmem npages
  (paddrToKvaddr r.1, r.2)

def freePpages (addr : Nat) (pm : Pmem) : Pmem :=
  let page := pageIdx ((addr + 2 ^ 32 - pm.lo) % 2 ^ 32)
  { pm with
    availPages := pm.availPages + pm.ipt page
    ipt := pm.ipt.mark page 0
    trace := pm.trace ++ [.free page (pm.ipt page)] }

def freeKpages (addr : Nat) (pm : Pmem) : Pmem := pm.freePpages (kvaddrToPaddr addr)

/-- `system_pages` as `vm_bootstrap` computes it from what `ram_getsize` reports. -/
def managedPages (pm : Pmem) : Nat := nPages ((pm.lastpaddr + 2 ^ 32 - pm.firstpaddr) % 2 ^ 32)

/-- The pages taken by an inverted page table with one four-byte entry for each page. -/
def tablePages (systemPages : Nat) : Nat := nPages (systemPages * 4 % 2 ^ 32)

/-- The globals of `vm_bootstrap` before it reserves the pages of the table. -/
def vmInit (pm : Pmem) : Pmem :=
  { pm with
    firstpaddr := 0
    lastpaddr := 0
    lo := pm.firstpaddr
    systemPages := pm.managedPages
    availPages := pm.managedPages
    ipt := fun i => if i < pm.managedPages then 0 else pm.ipt i
    bootstrapped := true }

/-- The state after a call whose result the source ignores. -/
def ignoreResult (r : Nat × Pmem) : Pmem := r.2

def vmBootstrap (pm : Pmem) : Pmem :=
  ignoreResult (pm.vmInit.allocKpages (tablePages pm.managedPages))

/-- The physical address of page `j`. -/
def pageAddr (pm : Pmem) (j : Nat) : Nat := pm.lo + j * pageSize

/-- Some `n` consecutive free pages end before the last managed page. -/
def HasRoom (pm : Pmem) (n : Nat) : Prop :=
  ∃ j, j + n < pm.systemPages ∧ pm.ipt.FreeRun j n

/-- What holds whenever the loop of `alloc_ppages` tests its condition. -/
structure ScanInv (ipt : RunTable) (systemPages npages : Nat) (p : Nat × Nat) : Prop where
  boundary : ipt.Boundary p.1
  inside : p.1 ≤ systemPages
  short : p.2 ≤ npages
  behind : p.2 ≤ p.1
  free : ipt.FreeRun (p.1 - p.2) p.2
  first : ∀ j, ipt.FreeRun j npages → p.1 - p.2 ≤ j

variable {ipt : RunTable} {systemPages npages fuel : Nat} {p q : Nat × Nat} {pm : Pmem}

private theorem scanInv_start (ipt : RunTable) (systemPages npages : Nat) :
    ScanInv ipt systemPages npages (0, 0) where
  boundary := RunTable.boundary_zero ipt
  inside := Nat.zero_le _
  short := Nat.zero_le _
  behind := le_refl _
  free := fun _ _ h => absurd h (Nat.not_lt_zero _)
  first := fun _ _ => Nat.zero_le _

private theorem ScanInv.step (hw : ipt.WellFormed systemPages) (h : ScanInv ipt systemPages npages p)
    (hs : scanStep ipt systemPages npages p = some q) : ScanInv ipt systemPages npages q := by
  obtain ⟨hb, hin, hshort, hbehind, hfree, hfirst⟩ := h
  simp only [scanStep] at hs
  split at hs
  case isFalse => cases hs
  case isTrue hc =>
    split at hs
    case isTrue hpos =>
      simp only [Option.some.injEq] at hs
      subst hs
      refine ⟨hb.skip hw, hw.inside _ hpos, Nat.zero_le _, Nat.zero_le _,
        fun j _ h => absurd h (by simp only; omega), ?_⟩
      intro j hj
      have hlo := hfirst j hj
      by_contra hlt
      simp only [Nat.sub_zero, Nat.not_le] at hlt
      rcases Nat.lt_or_ge j p.1 with hji | hij
      · exact hj p.1 (by omega) (by omega) (RunTable.covered_start hpos)
      · exact hj j (le_refl j) (by omega) ⟨p.1, hij, hlt⟩
    case isFalse hz =>
      simp only [Option.some.injEq] at hs
      subst hs
      have hz' : ipt p.1 = 0 := by omega
      refine ⟨hb.succ hz', by omega, by omega, by omega,
        hfree.succ hbehind (hb.not_covered hz'), ?_⟩
      intro j hj
      have := hfirst j hj
      omega

/-- Every loop head the scan reaches satisfies the invariant. -/
theorem ScanInv.of_run (hw : ipt.WellFormed systemPages)
    (h : Relation.ReflTransGen (fun p q => scanStep ipt systemPages npages p = some q) (0, 0) p) :
    ScanInv ipt systemPages npages p := by
  induction h with
  | refl => exact scanInv_start ipt systemPages npages
  | tail _ hs ih => exact ih.step hw hs

private theorem scanStep_advances (h : scanStep ipt systemPages npages p = some q) :
    p.1 < systemPages ∧ p.1 < q.1 := by
  simp only [scanStep] at h
  split at h
  case isFalse => cases h
  case isTrue hc =>
    refine ⟨hc.2, ?_⟩
    split at h
    all_goals
      simp only [Option.some.injEq] at h
      subst h
      simp only
      omega

private theorem scan_spec (fuel : Nat) (hw : ipt.WellFormed systemPages)
    (hp : ScanInv ipt systemPages npages p) (hfuel : systemPages ≤ fuel + p.1) :
    ScanInv ipt systemPages npages (scan ipt systemPages npages fuel p) ∧
      scanStep ipt systemPages npages (scan ipt systemPages npages fuel p) = none := by
  induction fuel generalizing p with
  | zero =>
    refine ⟨hp, ?_⟩
    have : ¬ (p.2 < npages ∧ p.1 < systemPages) := by omega
    simp [scan, scanStep, this]
  | succ fuel ih =>
    rw [scan]
    cases hs : scanStep ipt systemPages npages p with
    | none => exact ⟨hp, hs⟩
    | some q =>
      have hadv := scanStep_advances hs
      exact ih (hp.step hw hs) (by omega)

/-- The allocator's own state is sound: `lo` is a page above the first, all managed pages lie in
kernel segment 0, and the table is well formed. -/
structure Managed (pm : Pmem) : Prop where
  booted : pm.bootstrapped = true
  wf : pm.ipt.WellFormed pm.systemPages
  lo_aligned : pm.lo % pageSize = 0
  lo_pos : 0 < pm.lo
  top : pm.pageAddr pm.systemPages ≤ 0x20000000

/-- `alloc_ppages` fails exactly when no run of free pages ends before the last managed page,
and else takes the lowest free run. -/
theorem allocPpages_cases (hw : pm.ipt.WellFormed pm.systemPages)
    (htop : pm.pageAddr pm.systemPages < 2 ^ 32) (hn : 0 < npages) :
    (¬ pm.HasRoom npages ∧
      pm.allocPpages npages = (0, { pm with
        availPages := pm.availPages - npages
        trace := pm.trace ++ [.nospace npages] })) ∨
    (pm.HasRoom npages ∧ ∃ j, j + npages < pm.systemPages ∧ pm.ipt.FreeRun j npages ∧
      (∀ k, pm.ipt.FreeRun k npages → j ≤ k) ∧
      pm.allocPpages npages = (pm.pageAddr j, { pm with
        ipt := pm.ipt.mark j npages
        availPages := pm.availPages - npages
        trace := pm.trace ++ [.alloc j npages] })) := by
  obtain ⟨hinv, hend⟩ := scan_spec pm.systemPages hw
    (scanInv_start pm.ipt pm.systemPages npages) (by simp)
  generalize hr : scan pm.ipt pm.systemPages npages pm.systemPages (0, 0) = r at hinv hend
  have hexit : ¬ (r.2 < npages ∧ r.1 < pm.systemPages) := by
    intro hc
    simp only [scanStep, if_pos hc] at hend
    split at hend <;> cases hend
  have hshort := hinv.short
  have hbehind := hinv.behind
  have hinside := hinv.inside
  by_cases hi : r.1 = pm.systemPages
  · left
    refine ⟨?_, by simp [allocPpages, hr, hi]⟩
    rintro ⟨j, hj, hfree⟩
    have := hinv.first j hfree
    omega
  · right
    have hlen : r.2 = npages := by omega
    have hfree : pm.ipt.FreeRun (r.1 - npages) npages := hlen ▸ hinv.free
    have hfirst : ∀ k, pm.ipt.FreeRun k npages → r.1 - npages ≤ k := hlen ▸ hinv.first
    refine ⟨⟨r.1 - npages, by omega, hfree⟩, r.1 - npages, by omega, hfree, hfirst, ?_⟩
    have haddr : ((r.1 - npages) * pageSize + pm.lo) % 2 ^ 32 = pm.pageAddr (r.1 - npages) := by
      simp only [pageAddr, pageSize] at htop ⊢
      rw [Nat.mod_eq_of_lt (by omega)]
      omega
    simp only [allocPpages, hr, hi, if_false, haddr]

theorem Managed.top_lt (h : pm.Managed) : pm.pageAddr pm.systemPages < 2 ^ 32 :=
  lt_of_le_of_lt h.top (by decide)

theorem Managed.pageAddr_bounds (h : pm.Managed) {j : Nat} (hj : j < pm.systemPages) :
    pageSize ≤ pm.pageAddr j ∧ pm.pageAddr j + pageSize ≤ 0x20000000 ∧
      pm.pageAddr j % pageSize = 0 := by
  have htop := h.top
  have hlo := h.lo_pos
  have hal := h.lo_aligned
  simp only [pageAddr, pageSize] at *
  omega

theorem pageAddr_injective {i j : Nat} (h : pm.pageAddr i = pm.pageAddr j) : i = j := by
  simp only [pageAddr, pageSize] at h
  omega

theorem Managed.pageIdx_pageAddr (h : pm.Managed) {j : Nat} (hj : j < pm.systemPages) :
    pageIdx ((pm.pageAddr j + 2 ^ 32 - pm.lo) % 2 ^ 32) = j := by
  have htop := h.top
  simp only [pageIdx, roundDown, pageAddr, pageSize] at *
  omega

theorem Managed.freePpages_eq (h : pm.Managed) {j : Nat} (hj : j < pm.systemPages) :
    pm.freePpages (pm.pageAddr j) = { pm with
      availPages := pm.availPages + pm.ipt j
      ipt := pm.ipt.mark j 0
      trace := pm.trace ++ [.free j (pm.ipt j)] } := by
  simp only [freePpages, h.pageIdx_pageAddr hj]

theorem Managed.kvaddr_roundTrip (h : pm.Managed) {j : Nat} (hj : j < pm.systemPages) :
    paddrToKvaddr (pm.pageAddr j) = pm.pageAddr j + mipsKseg0 ∧
      kvaddrToPaddr (pm.pageAddr j + mipsKseg0) = pm.pageAddr j := by
  have := (h.pageAddr_bounds hj).2.1
  simp only [paddrToKvaddr, kvaddrToPaddr, mipsKseg0, pageSize] at *
  omega

/-- A bump of the counters and the trace alone. -/
theorem Managed.congr (h : pm.Managed) {pm' : Pmem} (hb : pm'.bootstrapped = pm.bootstrapped)
    (hs : pm'.systemPages = pm.systemPages) (hl : pm'.lo = pm.lo)
    (hw : pm'.ipt.WellFormed pm'.systemPages) : pm'.Managed where
  booted := hb.trans h.booted
  wf := hw
  lo_aligned := hl ▸ h.lo_aligned
  lo_pos := hl ▸ h.lo_pos
  top := by
    have := h.top
    simpa only [pageAddr, hl, hs] using this

theorem Managed.allocPpages (h : pm.Managed) (hn : 0 < npages) :
    (pm.allocPpages npages).2.Managed := by
  rcases allocPpages_cases h.wf h.top_lt hn with ⟨_, he⟩ | ⟨_, j, hj, hfree, _, he⟩
  · rw [he]
    exact h.congr rfl rfl rfl h.wf
  · rw [he]
    exact h.congr rfl rfl rfl (h.wf.mark_free hfree (le_of_lt hj))

theorem Managed.allocKpages_eq (h : pm.Managed) (n : Nat) :
    pm.allocKpages n = (paddrToKvaddr (pm.allocPpages n).1, (pm.allocPpages n).2) := by
  simp [Pmem.allocKpages, h.booted]

/-- Memory before `vm_bootstrap`: pages between `firstpaddr` and `lastpaddr` can be stolen. -/
structure PreBoot (pm : Pmem) : Prop where
  raw : pm.bootstrapped = false
  ipt_zero : pm.ipt = fun _ => 0
  lo_zero : pm.lo = 0
  pages_zero : pm.systemPages = 0
  first_aligned : pm.firstpaddr % pageSize = 0
  last_aligned : pm.lastpaddr % pageSize = 0
  first_pos : 2 * pageSize ≤ pm.firstpaddr
  ordered : pm.firstpaddr ≤ pm.lastpaddr
  last_le : pm.lastpaddr ≤ 508 * 1024 * 1024
  quiet : pm.trace = []

theorem preBoot_ramBootstrap (b : BootInfo) : (ramBootstrap b).PreBoot := by
  have hfa := b.firstfree_aligned
  have hra := b.ramsize_aligned
  have habove := b.above_kernel
  have hfits := b.fits
  simp only [pageSize, mipsKseg0] at hfa hra habove hfits
  refine ⟨rfl, rfl, rfl, rfl, ?_, ?_, ?_, ?_, ?_, rfl⟩ <;>
    simp only [ramBootstrap, pageSize, mipsKseg0] <;> omega

/-- A steal whose size does not wrap 32-bit arithmetic keeps the bounds in order. -/
theorem PreBoot.ramStealmem (h : pm.PreBoot) (hwrap : pm.firstpaddr + npages * pageSize < 2 ^ 32) :
    (pm.ramStealmem npages).2.PreBoot := by
  obtain ⟨h1, h2, h3, h4, h5, h6, h7, h8, h9, h10⟩ := h
  simp only [Pmem.ramStealmem]
  split
  · exact ⟨h1, h2, h3, h4, h5, h6, h7, h8, h9, h10⟩
  · rename_i hle
    simp only [pageSize] at *
    refine ⟨h1, h2, h3, h4, ?_, h6, ?_, ?_, h9, h10⟩
    all_goals
      simp only [pageSize]
      omega

private theorem vmInit_managed (h : pm.PreBoot) : pm.vmInit.Managed ∧
    pm.vmInit.ipt = (fun _ => 0) := by
  obtain ⟨h1, h2, h3, h4, h5, h6, h7, h8, h9, h10⟩ := h
  have hz : pm.vmInit.ipt = fun _ => 0 := by
    funext i
    simp [vmInit, h2]
  have htop : pm.firstpaddr + pm.managedPages * pageSize = pm.lastpaddr := by
    simp only [managedPages, nPages, roundUp, roundDown, pageSize] at *
    omega
  refine ⟨⟨rfl, ?_, h5, ?_, ?_⟩, hz⟩
  · rw [hz]
    exact RunTable.wellFormed_zero _
  · simp only [pageSize] at h7
    change 0 < pm.firstpaddr
    omega
  · change pm.firstpaddr + pm.managedPages * pageSize ≤ _
    rw [htop]
    omega

theorem PreBoot.managed_top (h : pm.PreBoot) :
    pm.firstpaddr + pm.managedPages * pageSize = pm.lastpaddr := by
  obtain ⟨h1, h2, h3, h4, h5, h6, h7, h8, h9, h10⟩ := h
  simp only [managedPages, nPages, roundUp, roundDown, pageSize] at *
  omega

private theorem tablePages_le {n : Nat} (h : n * pageSize ≤ 0x20000000) :
    tablePages n ≤ n ∧ (0 < n → 0 < tablePages n) := by
  simp only [tablePages, nPages, roundUp, roundDown, pageSize] at *
  omega

theorem PreBoot.tablePages_le (h : pm.PreBoot) : tablePages pm.managedPages ≤ pm.managedPages ∧
    (0 < pm.managedPages → 0 < tablePages pm.managedPages) := by
  have htop := h.managed_top
  have hlast := h.last_le
  exact Pmem.tablePages_le (by omega)

/-- Bootstrapping on a machine with more managed pages than the table needs reserves pages
`0, …, tablePages - 1` for the table. -/
theorem PreBoot.vmBootstrap_eq (h : pm.PreBoot)
    (hfit : tablePages pm.managedPages < pm.managedPages) :
    pm.vmBootstrap =
      { firstpaddr := 0
        lastpaddr := 0
        ipt := RunTable.mark (fun _ => 0) 0 (tablePages pm.managedPages)
        systemPages := pm.managedPages
        availPages := pm.managedPages - tablePages pm.managedPages
        bootstrapped := true
        lo := pm.firstpaddr
        trace := [.alloc 0 (tablePages pm.managedPages)] } := by
  obtain ⟨hm, hz⟩ := vmInit_managed h
  have hpos := h.tablePages_le.2 (by omega)
  have hfree (i n : Nat) : pm.vmInit.ipt.FreeRun i n := by
    intro j _ _
    rw [hz]
    exact RunTable.not_covered_zero j
  have hroom : 0 + tablePages pm.managedPages < pm.vmInit.systemPages := by
    change 0 + tablePages pm.managedPages < pm.managedPages
    omega
  rw [vmBootstrap, hm.allocKpages_eq]
  rcases allocPpages_cases hm.wf hm.top_lt hpos with ⟨hno, _⟩ | ⟨_, j, _, _, hfirst, he⟩
  · exact absurd ⟨0, hroom, hfree 0 _⟩ hno
  · have hj : j = 0 := Nat.le_zero.mp (hfirst 0 (hfree 0 _))
    subst hj
    rw [he, hz]
    simp only [ignoreResult, vmInit, h.quiet, List.nil_append]

private theorem tablePages_lt {n : Nat} (h : n * pageSize ≤ 0x20000000) (hn : 1 < n) :
    tablePages n < n := by
  simp only [tablePages, nPages, roundUp, roundDown, pageSize] at *
  omega

private theorem allocPpages_none (hs : pm.systemPages = 0) :
    pm.allocPpages 0 = (0, { pm with
      availPages := pm.availPages - (0 : Nat)
      trace := pm.trace ++ [.nospace 0] }) := by
  simp [allocPpages, hs, scan]

/-- Bootstrapping a machine on which the request for the table itself fails. -/
theorem PreBoot.vmBootstrap_unfit (h : pm.PreBoot)
    (hno : ¬ tablePages pm.managedPages < pm.managedPages) :
    pm.managedPages ≤ 1 ∧ pm.vmBootstrap =
      { firstpaddr := 0
        lastpaddr := 0
        ipt := fun _ => 0
        systemPages := pm.managedPages
        availPages := pm.managedPages - tablePages pm.managedPages
        bootstrapped := true
        lo := pm.firstpaddr
        trace := [.nospace (tablePages pm.managedPages)] } := by
  have htop := h.managed_top
  have hlast := h.last_le
  obtain ⟨hm, hipt⟩ := vmInit_managed h
  have hle : pm.managedPages ≤ 1 := by
    by_contra hgt
    exact hno (tablePages_lt (by omega) (by omega))
  have hs : pm.vmInit.systemPages = pm.managedPages := rfl
  have hfail : pm.vmInit.allocPpages (tablePages pm.managedPages) = (0, { pm.vmInit with
      availPages := pm.vmInit.availPages - tablePages pm.managedPages
      trace := pm.vmInit.trace ++ [.nospace (tablePages pm.managedPages)] }) := by
    rcases Nat.eq_zero_or_pos pm.managedPages with hz | hpos
    · have htp : tablePages 0 = 0 := by decide
      rw [hz, htp]
      exact allocPpages_none (hs.trans hz)
    · have htp := h.tablePages_le.2 hpos
      rcases allocPpages_cases hm.wf hm.top_lt htp with ⟨_, he⟩ | ⟨⟨j, hj, _⟩, _⟩
      · exact he
      · rw [hs] at hj
        omega
  refine ⟨hle, ?_⟩
  rw [vmBootstrap, hm.allocKpages_eq, hfail, ignoreResult]
  simp only [hipt]
  simp only [vmInit, h.quiet, List.nil_append]

theorem PreBoot.vmBootstrap_lo (h : pm.PreBoot) : pm.vmBootstrap.lo = pm.firstpaddr := by
  by_cases hfit : tablePages pm.managedPages < pm.managedPages
  · rw [h.vmBootstrap_eq hfit]
  · rw [(h.vmBootstrap_unfit hfit).2]

/-- The state `vm_bootstrap` leaves is sound. -/
theorem PreBoot.vmBootstrap (h : pm.PreBoot) : pm.vmBootstrap.Managed := by
  have hpos := h.first_pos
  have hal := h.first_aligned
  have htop := h.managed_top
  have hlast := h.last_le
  simp only [pageSize] at hpos hal htop
  by_cases hfit : tablePages pm.managedPages < pm.managedPages
  · rw [h.vmBootstrap_eq hfit]
    refine ⟨rfl, ?_, hal, by simp only; omega, by simp only [pageAddr, pageSize]; omega⟩
    refine (RunTable.wellFormed_zero _).mark_free ?_ (by simp only; omega)
    exact fun j _ _ => RunTable.not_covered_zero j
  · rw [(h.vmBootstrap_unfit hfit).2]
    exact ⟨rfl, RunTable.wellFormed_zero _, hal, by simp only; omega,
      by simp only [pageAddr, pageSize]; omega⟩

attribute [irreducible] managedPages vmInit vmBootstrap

end Pmem

end CseOs.Kernel
