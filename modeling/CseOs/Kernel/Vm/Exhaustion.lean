import CseOs.Kernel.Vm.PageOwners

/-!
# Running out of memory

`vm_fault` sees that a user page was refused, because it looks at the physical address. All other
callers look at a kernel address, which is never null. The results compare what an operation
answers with what the page allocator was asked.
-/

namespace CseOs.Kernel

open Framework KernelSt

namespace Vm

/-- The calls of the page allocator between two states. -/
def newEvents (s t : Vm) : List PageEvent :=
  t.k.pages.trace.drop s.k.pages.trace.length

/-- The step made a request that `alloc_ppages` refused. -/
def Refusal (s t : Vm) : Prop := ∃ n, PageEvent.nospace n ∈ s.newEvents t

/-- The answers by which an operation tells that there is no room. -/
def ReportsFailure : VmOp → Nat → Prop
  | .allocKpages _, r => r = 0
  | .kmalloc _, r => r = 0
  | .asCreate, r => r = 0
  | .vmFault _ _ _, r => r = enomem
  | _, _ => False

/-- The tree of the address space in which a fault happens belongs to the fault. -/
def OwnByte (s : Vm) : VmOp → Nat → Prop
  | .vmFault _ _ as, x => as ∈ s.spaces ∧ TreeByte s.k.mem (asPt s.k.mem as) x
  | _, _ => False

/-- Writes stay in memory of the operation, pages it was granted were free, and mappings and
extents are as before. -/
structure Harmless (s : Vm) (op : VmOp) (t : Vm) : Prop where
  written : ∀ x, t.k.mem x = s.k.mem x ∨ s.OwnByte op x ∨
    ∃ a ∈ s.grantedPages (s.newEvents t), a ≤ x ∧ x < a + pageSize
  fresh : ∀ a ∈ s.grantedPages (s.newEvents t), ∀ o b n, s.Holds o b n → RangesApart a 1 b n
  mappings : ∀ as ∈ s.spaces, ∀ q a, treePage s.k.mem (asPt s.k.mem as) q = some a →
    treePage t.k.mem (asPt t.k.mem as) q = some a
  extents : ∀ b n, s.k.pages.Extent b n → t.k.pages.Extent b n

/-- The step is clean and its request for whole pages finds room. -/
def Roomy (s : Vm) (op : VmOp) : Prop :=
  Clean s op ∧ match op with
    | .allocKpages n => s.k.pages.HasRoom n
    | .vmBootstrap => Pmem.tablePages s.k.pages.managedPages < s.k.pages.managedPages
    | _ => True

def RoomyStep (s t : Vm) : Prop := ∃ op r, Roomy s op ∧ Step s op r t

variable {s t : Vm} {op : VmOp} {r : Nat}

private theorem inv_of_roomy (h : Reachable Boots RoomyStep s) : Inv s :=
  inv_of_reachable (h.mono fun _ _ ⟨op, r, hg, hst⟩ => ⟨op, r, hg.1, hst⟩)

private theorem newEvents_of_log {evs : List PageEvent}
    (h : t.k.pages.trace = s.k.pages.trace ++ evs) : s.newEvents t = evs := by
  rw [newEvents, h, List.drop_left]

private theorem no_refusal (h : Pmem.Quiet s.k.pages t.k.pages) : ¬ Refusal s t := by
  obtain ⟨evs, he, hno⟩ := h
  rintro ⟨n, hn⟩
  rw [newEvents_of_log he] at hn
  exact hno n hn

private theorem quiet_of_released {pm pm' : Pmem} {a n : Nat} (h : Pmem.Released pm pm' a n) :
    Pmem.Quiet pm pm' := by
  obtain ⟨j, _, htrace, _⟩ := h.log
  exact ⟨[.free j n], htrace, fun _ => by simp⟩

private theorem quiet_of_releasedAll {pm pm' : Pmem} {l : List Nat} (h : ReleasedAll pm pm' l) :
    Pmem.Quiet pm pm' := by
  obtain ⟨js, _, htrace⟩ := h.log
  exact ⟨_, htrace, fun _ => by simp⟩

private theorem Inv.quiet_kmalloc (hi : Inv s) {sz ptr : Nat} {k : KernelSt}
    (hc : Clean s (.kmalloc sz)) (hrun : HeapSt.kmalloc vmSupply sz s.k = some (ptr, k)) :
    Pmem.Quiet s.k.pages (s.recordKmalloc sz ptr k).k.pages := by
  simp only [Clean] at hc
  by_cases hsz : sz < largestSubpageSize
  · rw [if_pos hsz] at hc
    obtain ⟨ptr', k', hrun', _, hcase⟩ := hi.kmallocBlock hsz hc
    rw [hrun'] at hrun
    cases hrun
    rw [recordKmalloc, if_pos hsz]
    rcases hcase with ⟨_, _, hk⟩ | ⟨_, _, ⟨_, hk⟩ | ⟨_, a, hg⟩⟩
    · exact .of_eq (by rw [hk])
    · exact .of_eq (by rw [hk])
    · exact hg.quiet
  · rw [if_neg hsz] at hc
    obtain ⟨hpos, hfit⟩ := hc
    have hle : largestSubpageSize ≤ sz := by omega
    rw [HeapSt.kmalloc, if_pos hle] at hrun
    have hg : Pmem.Granted s.k.pages (vmSupply.allocKpages (HeapSt.bigPages sz) s.k.pages).2
        (vmSupply.allocKpages (HeapSt.bigPages sz) s.k.pages).1 (HeapSt.bigPages sz) :=
      hi.ok.allocKpages_granted hpos hfit
    generalize vmSupply.allocKpages (HeapSt.bigPages sz) s.k.pages = r at hrun hg
    cases hrun
    rw [recordKmalloc, if_neg hsz]
    exact hg.quiet

private theorem quiet_bootstrap {pm : Pmem} (hok : pm.Ok) (hb : pm.bootstrapped = false)
    (hfit : Pmem.tablePages pm.managedPages < pm.managedPages) :
    Pmem.Quiet pm pm.vmBootstrap := by
  cases hok with
  | inl hp =>
      rw [hp.vmBootstrap_eq hfit]
      exact ⟨[.alloc 0 _], by rw [hp.quiet, List.nil_append], fun _ => by simp⟩
  | inr hr =>
      rw [hr.booted] at hb
      cases hb

private theorem fault_refused (hi : Inv s) {ft fa as e : Nat} {ins : Option TlbInsert}
    {k : KernelSt} (has : as ∈ s.spaces) (hc : Clean s (.vmFault ft fa as))
    (hrun : KernelSt.vmFault ft fa as s.k = some (e, ins, k))
    (href : Refusal s (s.recordFault as k)) :
    ReportsFailure (.vmFault ft fa as) e ∧ Harmless s (.vmFault ft fa as) (s.recordFault as k) := by
  obtain ⟨evs, heff, hlog, _, hcase⟩ := hi.stepFault has hc hrun
  have hevs : s.newEvents (s.recordFault as k) = evs := newEvents_of_log hlog
  refine ⟨?_, ?_, ?_, ?_, heff.extents⟩
  · obtain ⟨n, hn⟩ := href
    rw [hevs] at hn
    rcases hcase with ⟨_, hno⟩ | ⟨he, _⟩ | ⟨_, _, hnil⟩
    · exact absurd hn (hno n)
    · exact he
    · rw [hnil] at hn
      cases hn
  · intro x
    rw [hevs]
    rcases heff.mem x with hx | hx | hx
    · exact .inl hx
    · exact .inr (.inl ⟨has, hx⟩)
    · exact .inr (.inr hx)
  · intro a ha o b n ho
    rw [hevs] at ha
    exact heff.fresh a ha b n (hi.placed.taken o b n ho)
  · intro as' has' q a hq
    by_cases hne : as' = as
    · rw [hne] at hq ⊢
      exact heff.kept q a hq
    · show treePage k.mem (asPt k.mem as') q = some a
      rw [heff.other hi has has' hne]
      exact hq

private theorem no_refusal_of_pages {k : KernelSt} (h : k.pages = s.k.pages) :
    ¬ Refusal s { s with k := k } := by
  apply no_refusal
  exact .of_eq (congrArg Pmem.trace h)

private theorem asDefineRegion_pages (as vaddr sz : Nat) (k : KernelSt) :
    (KernelSt.asDefineRegion as vaddr sz k).2.pages = k.pages := by
  by_cases h1 : asNpages1 k.mem as = 0
  · rw [KernelSt.asDefineRegion, if_pos h1]
  · by_cases h2 : asNpages2 k.mem as = 0
    · rw [KernelSt.asDefineRegion, if_neg h1, if_pos h2]
    · rw [KernelSt.asDefineRegion, if_neg h1, if_neg h2]

private theorem step_refused (hi : Inv s) (hg : Roomy s op) (hst : Step s op r t)
    (href : Refusal s t) : ReportsFailure op r ∧ Harmless s op t := by
  obtain ⟨hc, hroom⟩ := hg
  cases hst with
  | vmBootstrap hb =>
      have hq := quiet_bootstrap hi.ok hb hroom
      generalize s.k.pages.vmBootstrap = pm at hq href
      refine absurd href (no_refusal ?_)
      exact hq
  | allocKpages n hn hb =>
      have hgr := (hi.ruled_of_booted hb).allocKpages_granted hn hroom
      generalize s.k.pages.allocKpages n = answer at hgr href
      refine absurd href (no_refusal ?_)
      exact hgr.quiet
  | freeKpages a ha =>
      obtain ⟨n, _, hrel⟩ := hi.kernel_entry ha hc.1 hc.2
      generalize s.k.pages.freeKpages a = pm at hrel href
      refine absurd href (no_refusal ?_)
      exact quiet_of_released hrel
  | kmalloc sz ptr k _ hrun =>
      refine absurd href (no_refusal ?_)
      exact hi.quiet_kmalloc hc hrun
  | kfreeBlock ptr k hp hrun =>
      obtain ⟨k', hrun', _, hcase⟩ := hi.kfreeBlock hp hc
      rw [hrun'] at hrun
      cases hrun
      cases hcase with
      | inl hsame =>
          refine absurd href (no_refusal ?_)
          exact .of_eq (by rw [hsame.1])
      | inr hrel =>
          obtain ⟨a, _, hrel⟩ := hrel
          refine absurd href (no_refusal ?_)
          exact quiet_of_released hrel
  | kfreePages ptr k hp hrun =>
      obtain ⟨hrun', n, _, _, hrel⟩ := hi.kfreePages hp hc
      rw [hrun'] at hrun
      cases hrun
      generalize s.k.pages.freeKpages ptr = pm at hrel href
      refine absurd href (no_refusal ?_)
      exact quiet_of_released hrel
  | store m hm =>
      refine absurd href (no_refusal ?_)
      exact .of_eq rfl
  | asCreate as k hb hrun =>
      rcases hi.asCreate hb hc with ⟨_, hrun'⟩ | ⟨as', k', hrun', hne, _, hquiet, _⟩
      · rw [hrun'] at hrun
        cases hrun
        refine absurd href (no_refusal ?_)
        exact .of_eq rfl
      · rw [hrun'] at hrun
        cases hrun
        rw [recordSpace, if_neg hne] at href
        refine absurd href (no_refusal ?_)
        exact hquiet
  | asDefineRegion as vaddr sz has =>
      exact absurd href (no_refusal_of_pages (asDefineRegion_pages as vaddr sz s.k))
  | asDefineStack as has =>
      refine absurd href (no_refusal ?_)
      exact .of_eq rfl
  | vmFault ft fa as e ins k has hrun => exact fault_refused hi has hc hrun href
  | vmFaultKernel ft fa e ins k hrun =>
      exact absurd href (no_refusal_of_pages (by rw [(vmFault_null hrun).1]))
  | asDestroy as k has hrun =>
      obtain ⟨k', freed, hrun', hrel, _⟩ := hi.asDestroy has hc
      rw [hrun'] at hrun
      cases hrun
      refine absurd href (no_refusal ?_)
      exact quiet_of_releasedAll hrel

/-- In every run in which only faults are refused pages, and then only user pages, a refusal is
reported and does no harm. -/
theorem refusal_reported (h : Reachable Boots RoomyStep s) (hg : Roomy s op)
    (hst : Step s op r t) (href : Refusal s t) : ReportsFailure op r ∧ Harmless s op t :=
  step_refused (inv_of_roomy h) hg hst href

end Vm

namespace SharedTable

open Vm (AnyStep Boots)

variable {k k' : KernelSt} {kpages kpages' : List (Nat × Nat)} {spaces spaces' : List Nat}
  {got got' : Nat → List Nat} {n : Nat}

private theorem refusal_of_mem
    (h : PageEvent.nospace n ∈ k'.pages.trace.drop k.pages.trace.length) :
    Vm.Refusal ⟨k, kpages, [], spaces, got⟩ ⟨k', kpages', [], spaces', got'⟩ := ⟨n, h⟩

private theorem refusal_of_fault (s : Vm) (as : Nat)
    (h : PageEvent.nospace n ∈ k'.pages.trace.drop s.k.pages.trace.length) :
    Vm.Refusal s (s.recordFault as k') := ⟨n, h⟩

/-- `as_create` answers with an address space although its page table was refused. -/
theorem create_hides_refusal : ¬ ∀ s op r t, Reachable Boots AnyStep s → Vm.Step s op r t →
    Vm.Refusal s t → Vm.ReportsFailure op r ∧ Vm.Harmless s op t := by
  intro hall
  have hstep : Vm.Step ⟨filled, [(0x80005000, 1), (0x80004000, 1)], [], [], fun _ => []⟩ _ _ _ :=
    filled_values.2.2.2.step
  have href : PageEvent.nospace 1 ∈ first.pages.trace.drop filled.pages.trace.length := by
    decide +kernel
  have hfail := (hall _ _ _ _ reachable_filled hstep (refusal_of_mem href)).1
  cases hfail

/-- The stack of the one address space is defined, and its first fault needs two pages of which
only one is left. -/
def ready : KernelSt := (KernelSt.asDefineStack 0x80004fe0 spaced).2.2
def noded : KernelSt := KernelSt.linkPage (0x80005000 + 4 * 511) ready
def refused : KernelSt := { noded with pages := (noded.pages.allocPpages 1).2 }

def ownPages : Nat → List Nat :=
  Function.update (fun _ => []) 0x80004fe0 [asPt spaced.mem 0x80004fe0]

private theorem ready_values : Pmem.tablePages boot.pages.managedPages < boot.pages.managedPages ∧
    KernelSt.FreshNode ready 0x80004fe0 0x7ffff000 (0x80005000 + 4 * 511) ∧
    (noded.pages.allocPpages 1).1 = 0 ∧
    PageEvent.nospace 1 ∈ refused.pages.trace.drop ready.pages.trace.length ∧
    3 + 1 < ready.pages.systemPages ∧ ¬ ready.pages.ipt.Covered 3 := by
  decide +kernel

private theorem roomy_ready : Reachable Boots Vm.RoomyStep
    ⟨ready, [], [], [0x80004fe0], ownPages⟩ := by
  have hpages : Pmem.tablePages boot.pages.managedPages < boot.pages.managedPages := ready_values.1
  have h0 : Reachable Boots Vm.RoomyStep ⟨boot, [], [], [], fun _ => []⟩ :=
    Reachable.start ⟨_, _, rfl⟩
  have h1 : Reachable Boots Vm.RoomyStep ⟨booted, [], [], [], fun _ => []⟩ :=
    h0.next ⟨.vmBootstrap, _, ⟨trivial, hpages⟩, .vmBootstrap rfl⟩
  have h2 : Reachable Boots Vm.RoomyStep ⟨spaced, [], [], [0x80004fe0], ownPages⟩ :=
    h1.next ⟨.asCreate, _, ⟨clean_spaced, trivial⟩, booted_values.2.2.2.2.step⟩
  exact h2.next ⟨.asDefineStack 0x80004fe0, _, ⟨trivial, trivial⟩,
    .asDefineStack 0x80004fe0 List.mem_cons_self⟩

private theorem room_ready : ready.pages.HasRoom 1 := by
  obtain ⟨_, _, _, _, hroom, hfree⟩ := ready_values
  refine ⟨3, hroom, fun i hlo hhi => ?_⟩
  have hi : i = 3 := by omega
  rwa [hi]

theorem refusal_reported_ready : ∃ t, Vm.Refusal ⟨ready, [], [], [0x80004fe0], ownPages⟩ t ∧
    Vm.ReportsFailure (.vmFault vmFaultRead 0x7ffff000 0x80004fe0) enomem ∧
    Vm.Harmless ⟨ready, [], [], [0x80004fe0], ownPages⟩
      (.vmFault vmFaultRead 0x7ffff000 0x80004fe0) t := by
  obtain ⟨_, hnode, hr, href, _⟩ := ready_values
  have hstep := Vm.Step.vmFault (s := ⟨ready, [], [], [0x80004fe0], ownPages⟩) vmFaultRead
    0x7ffff000 0x80004fe0 enomem none refused List.mem_cons_self
    (hnode.vmFault_refused (.inl rfl) hr)
  have hnew := refusal_of_fault ⟨ready, [], [], [0x80004fe0], ownPages⟩ 0x80004fe0 href
  exact ⟨_, hnew, Vm.refusal_reported roomy_ready ⟨fun _ _ _ => room_ready, trivial⟩ hstep hnew⟩

end SharedTable

end CseOs.Kernel
