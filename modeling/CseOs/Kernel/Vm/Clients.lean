import CseOs.Kernel.Heap.Runs
import CseOs.Kernel.Vm.Spaces

/-!
# Clients of the memory system

The kernel boots, its clients ask for pages and blocks and give them back, address spaces come
and go, and processes fault. A client keeps every answer that is not the failure value it can
see. The guard of a step keeps it off the branches that go wrong.
-/

namespace CseOs.Kernel

open Framework KernelSt

inductive VmOp
  | vmBootstrap
  | allocKpages (npages : Nat)
  | freeKpages (addr : Nat)
  | kmalloc (sz : Nat)
  | kfree (ptr : Nat)
  | store
  | asCreate
  | asDefineRegion (as vaddr sz : Nat)
  | asDefineStack (as : Nat)
  | vmFault (faulttype faultaddress as : Nat)
  | asDestroy (as : Nat)

namespace Vm

/-- Pages a client was granted; the answer for a refused request is the address of page 0. -/
def recordPages (addr npages : Nat) (l : List (Nat × Nat)) : List (Nat × Nat) :=
  if addr = mipsKseg0 then l else (addr, npages) :: l

/-- The client of `kmalloc` keeps what is not null. -/
def recordKmalloc (s : Vm) (sz ptr : Nat) (k : KernelSt) : Vm :=
  if sz < largestSubpageSize then
    { s with k := k, blocks := recordBlock ptr sz s.blocks }
  else
    { s with k := k, kpages := recordBlock ptr (HeapSt.bigPages sz) s.kpages }

def recordSpace (s : Vm) (as : Nat) (k : KernelSt) : Vm :=
  if as = 0 then
    { s with k := k }
  else
    { s with k := k, spaces := as :: s.spaces, got := Function.update s.got as [asPt k.mem as] }

/-- The pages granted to the address space by the calls since the state before. -/
def recordFault (s : Vm) (as : Nat) (k : KernelSt) : Vm :=
  { s with
    k := k
    got := Function.update s.got as
      (s.got as ++ s.grantedPages (k.pages.trace.drop s.k.pages.trace.length)) }

/-- A call with its answer. Pages are asked for only after `vm_bootstrap`, blocks at any time. -/
inductive Step (s : Vm) : VmOp → Nat → Vm → Prop
  | vmBootstrap : s.k.pages.bootstrapped = false →
      Step s .vmBootstrap 0 { s with k := { s.k with pages := s.k.pages.vmBootstrap } }
  | allocKpages (n : Nat) : 1 ≤ n → s.k.pages.bootstrapped = true →
      Step s (.allocKpages n) (s.k.pages.allocKpages n).1 { s with
        k := { s.k with pages := (s.k.pages.allocKpages n).2 }
        kpages := recordPages (s.k.pages.allocKpages n).1 n s.kpages }
  | freeKpages (a : Nat) : a ∈ s.kpages.map Prod.fst →
      Step s (.freeKpages a) 0 { s with
        k := { s.k with pages := s.k.pages.freeKpages a }
        kpages := dropBlock s.kpages a }
  | kmalloc (sz ptr : Nat) (k : KernelSt) : sz < 2 ^ 32 →
      HeapSt.kmalloc vmSupply sz s.k = some (ptr, k) →
      Step s (.kmalloc sz) ptr (s.recordKmalloc sz ptr k)
  | kfreeBlock (ptr : Nat) (k : KernelSt) : ptr ∈ s.blocks.map Prod.fst →
      HeapSt.kfree vmSupply ptr s.k = some k →
      Step s (.kfree ptr) 0 { s with k := k, blocks := dropBlock s.blocks ptr }
  | kfreePages (ptr : Nat) (k : KernelSt) : ptr ∈ s.kpages.map Prod.fst →
      HeapSt.kfree vmSupply ptr s.k = some k →
      Step s (.kfree ptr) 0 { s with k := k, kpages := dropBlock s.kpages ptr }
  | store (m : ByteStore) : (∀ x, ¬ s.Writable x → m x = s.k.mem x) →
      Step s .store 0 (s.writeMem m)
  | asCreate (as : Nat) (k : KernelSt) : s.k.pages.bootstrapped = true →
      KernelSt.asCreate s.k = some (as, k) → Step s .asCreate as (s.recordSpace as k)
  | asDefineRegion (as vaddr sz : Nat) : as ∈ s.spaces →
      Step s (.asDefineRegion as vaddr sz) (KernelSt.asDefineRegion as vaddr sz s.k).1
        { s with k := (KernelSt.asDefineRegion as vaddr sz s.k).2 }
  | asDefineStack (as : Nat) : as ∈ s.spaces →
      Step s (.asDefineStack as) (KernelSt.asDefineStack as s.k).1
        { s with k := (KernelSt.asDefineStack as s.k).2.2 }
  | vmFault (ft fa as e : Nat) (ins : Option TlbInsert) (k : KernelSt) : as ∈ s.spaces →
      KernelSt.vmFault ft fa as s.k = some (e, ins, k) →
      Step s (.vmFault ft fa as) e (s.recordFault as k)
  | vmFaultKernel (ft fa e : Nat) (ins : Option TlbInsert) (k : KernelSt) :
      KernelSt.vmFault ft fa 0 s.k = some (e, ins, k) →
      Step s (.vmFault ft fa 0) e { s with k := k }
  | asDestroy (as : Nat) (k : KernelSt) : as ∈ s.spaces →
      KernelSt.asDestroy as s.k = some k →
      Step s (.asDestroy as) 0 { s with k := k, spaces := s.spaces.erase as }

/-- The kernel as `ram_bootstrap` leaves it: nothing is handed out. -/
def Boots (s : Vm) : Prop :=
  ∃ b m, s = ⟨⟨Kheap.initial, m, ramBootstrap b⟩, [], [], [], fun _ => []⟩

/-- The step meets neither of the two mistakes: no request that the code does not see fail is
refused, and no page that was stolen before `vm_bootstrap` is given back. -/
def Clean (s : Vm) : VmOp → Prop
  | .kmalloc sz =>
    if sz < largestSubpageSize then s.k.wantsPage sz = true → s.k.pages.Fits 1
    else 0 < HeapSt.bigPages sz ∧ s.k.pages.Fits (HeapSt.bigPages sz)
  | .freeKpages a => s.k.pages.bootstrapped = true ∧ mipsKseg0 + s.k.pages.lo ≤ a
  | .kfree ptr => s.ReleasesManaged ptr
  | .asCreate => s.CreateRoom
  | .vmFault ft fa as =>
    as ∈ s.spaces → Accepted s.k.mem ft fa as → s.NodeRoom as (roundDown fa)
  | .asDestroy as => s.ReleasesManaged as
  | _ => True

/-- The step answered by some value. -/
def CleanStep (s t : Vm) : Prop := ∃ op r, Clean s op ∧ Step s op r t

variable {s t : Vm} {op : VmOp} {r : Nat}

private theorem inv_boots (h : Boots s) : Inv s := by
  obtain ⟨b, m, rfl⟩ := h
  have hpre := Pmem.preBoot_ramBootstrap b
  have hno (o : Owner) (a n : Nat) :
      ¬ Holds ⟨⟨Kheap.initial, m, ramBootstrap b⟩, [], [], [], fun _ => []⟩ o a n := by
    intro ho
    cases o with
    | table =>
        have hb : (ramBootstrap b).bootstrapped = true := ho.1
        rw [hpre.raw] at hb
        cases hb
    | kernel c => exact List.not_mem_nil ho.2
    | heapPage p =>
        have hp : Kheap.initial.InUse p := ho.1
        simp [Kheap.InUse, Kheap.initial] at hp
    | space as q => exact List.not_mem_nil ho.1
  exact ⟨.inl hpre, HeapClients.kheapInv_initial m,
    ⟨fun o a n ho => absurd ho (hno o a n), fun o _ a n _ _ ho => absurd ho (hno o a n),
      fun as q a n ho => absurd ho (hno _ a n)⟩,
    List.nodup_nil, fun as has => absurd has List.not_mem_nil⟩

private theorem Inv.stepAllocKpages (hi : Inv s) {n : Nat} (hn : 1 ≤ n)
    (hb : s.k.pages.bootstrapped = true) : Inv { s with
      k := { s.k with pages := (s.k.pages.allocKpages n).2 }
      kpages := recordPages (s.k.pages.allocKpages n).1 n s.kpages } := by
  have hrul := hi.ruled_of_booted hb
  by_cases hroom : s.k.pages.HasRoom n
  · have hg := hrul.allocKpages_granted hn hroom
    generalize s.k.pages.allocKpages n = r at hg
    have hne : r.1 ≠ mipsKseg0 := by
      have := (hg.taken.bounds hg.ok).1
      simp only [pageSize] at this
      omega
    have hi' := hi.grantKernel hg hn
    simp only [recordPages, if_neg hne]
    exact hi'
  · obtain ⟨hz, hr⟩ := hrul.refused hn hroom
    generalize s.k.pages.allocKpages n = r at hz hr
    simp only [recordPages, if_pos hz]
    exact hi.refuse hr hb

/-- Pages that a client holds above `lo` can be released. -/
theorem Inv.kernel_entry (hi : Inv s) {a : Nat} (ha : a ∈ s.kpages.map Prod.fst)
    (hb : s.k.pages.bootstrapped = true) (hlo : mipsKseg0 + s.k.pages.lo ≤ a) :
    ∃ n, (a, n) ∈ s.kpages ∧ Pmem.Released s.k.pages (s.k.pages.freeKpages a) a n := by
  obtain ⟨e, he, rfl⟩ := List.mem_map.mp ha
  obtain ⟨hrul, hext⟩ := hi.extent_of_taken (hi.placed.taken (.kernel e.1) e.1 e.2 ⟨rfl, he⟩) hb hlo
  exact ⟨e.2, he, hext.released hrul⟩

/-- A page of a kernel client lies outside the heap. -/
theorem Inv.kernel_outside (hi : Inv s) {a n p : Nat} (ha : (a, n) ∈ s.kpages)
    (hp : s.k.kheap.InUse p) : a < (s.k.kheap.pagerefs p).pageaddr ∨
      (s.k.kheap.pagerefs p).pageaddr + pageSize ≤ a := by
  have hap := hi.placed.apart (.kernel a) (.heapPage p) a n _ 1 ⟨rfl, ha⟩ ⟨hp, rfl, rfl⟩ (by simp)
  have hpos := ((hi.placed.taken (.kernel a) a n ⟨rfl, ha⟩).bounds hi.ok).2.2.1
  simp only [RangesApart, pageSize] at *
  omega

/-- `kfree` of whole pages hands them to `free_kpages`. -/
theorem Inv.kfreePages (hi : Inv s) {ptr : Nat} (hp : ptr ∈ s.kpages.map Prod.fst)
    (hg : s.ReleasesManaged ptr) :
    HeapSt.kfree vmSupply ptr s.k = some { s.k with pages := s.k.pages.freeKpages ptr } ∧
      ∃ n, (ptr, n) ∈ s.kpages ∧ s.k.pages.bootstrapped = true ∧
        Pmem.Released s.k.pages (s.k.pages.freeKpages ptr) ptr n := by
  obtain ⟨e, he, rfl⟩ := List.mem_map.mp hp
  have hout (p : Nat) (hp : s.k.kheap.InUse p) := hi.kernel_outside he hp
  obtain ⟨hb, hlo⟩ := hg e.1 (hi.heap.releasedPage_outside hout)
  obtain ⟨hpos, hal, _⟩ := (hi.placed.taken (.kernel e.1) e.1 e.2 ⟨rfl, he⟩).bounds hi.ok
  have hne : e.1 ≠ 0 := by
    simp only [pageSize] at hpos
    omega
  obtain ⟨n, hn, hrel⟩ := hi.kernel_entry hp hb hlo
  refine ⟨?_, n, hn, hb, hrel⟩
  simp only [HeapSt.kfree, if_neg hne, hi.heap.subpageKfree_outside vmSupply hout,
    Option.bind_eq_bind, Option.bind_some, assertThat_of_pos hal, Bool.false_eq_true, if_false]
  rfl

private theorem Inv.stepKmalloc (hi : Inv s) {sz ptr : Nat} {k : KernelSt}
    (hc : Clean s (.kmalloc sz)) (hrun : HeapSt.kmalloc vmSupply sz s.k = some (ptr, k)) :
    Inv (s.recordKmalloc sz ptr k) := by
  simp only [Clean] at hc
  by_cases hsz : sz < largestSubpageSize
  · rw [if_pos hsz] at hc
    obtain ⟨ptr', k', hrun', hi', _⟩ := hi.kmallocBlock hsz hc
    rw [hrun'] at hrun
    cases hrun
    rw [recordKmalloc, if_pos hsz]
    exact hi'
  · rw [if_neg hsz] at hc
    obtain ⟨hpos, hfit⟩ := hc
    have hle : largestSubpageSize ≤ sz := by omega
    rw [HeapSt.kmalloc, if_pos hle] at hrun
    have hg : Pmem.Granted s.k.pages (vmSupply.allocKpages (HeapSt.bigPages sz) s.k.pages).2
        (vmSupply.allocKpages (HeapSt.bigPages sz) s.k.pages).1 (HeapSt.bigPages sz) :=
      hi.ok.allocKpages_granted hpos hfit
    generalize vmSupply.allocKpages (HeapSt.bigPages sz) s.k.pages = r at hrun hg
    cases hrun
    have hne : r.1 ≠ 0 := by
      have := (hg.taken.bounds hg.ok).1
      simp only [pageSize] at this
      omega
    rw [recordKmalloc, if_neg hsz, recordBlock, if_neg hne]
    exact hi.grantKernel hg hpos

private theorem Inv.storeFields (hi : Inv s) {as : Nat} (has : as ∈ s.spaces) {m : ByteStore}
    (hm : ∀ x, x < as ∨ as + 20 ≤ x → m x = s.k.mem x) : Inv (s.writeMem m) := by
  apply hi.store
  intro x hx
  apply hm x
  by_contra hno
  exact hx (.inr (.inr (.inl ⟨as, has, by omega, by omega⟩)))

private theorem Inv.stepDefineRegion (hi : Inv s) {as : Nat} (has : as ∈ s.spaces)
    (vaddr sz : Nat) : Inv { s with k := (KernelSt.asDefineRegion as vaddr sz s.k).2 } := by
  have htwo (a b v w : Nat) (ha : as ≤ a ∧ a + 4 ≤ as + 20) (hb : as ≤ b ∧ b + 4 ≤ as + 20) :
      Inv (s.writeMem ((s.k.mem.setWord a v).setWord b w)) := by
    apply hi.storeFields has
    intro x hx
    rw [ByteStore.setWord_of_outside (by omega), ByteStore.setWord_of_outside (by omega)]
  simp only [KernelSt.asDefineRegion]
  split
  · exact htwo _ _ _ _ (by omega) (by omega)
  · split
    · exact htwo _ _ _ _ (by omega) (by omega)
    · exact hi

private theorem Inv.stepDefineStack (hi : Inv s) {as : Nat} (has : as ∈ s.spaces) :
    Inv { s with k := (KernelSt.asDefineStack as s.k).2.2 } := by
  apply hi.storeFields has
  intro x hx
  exact ByteStore.setWord_of_outside (by omega)

/-- What a fault in an address space does. -/
theorem Inv.stepFault (hi : Inv s) {ft fa as e : Nat} {ins : Option TlbInsert} {k : KernelSt}
    (has : as ∈ s.spaces) (hc : Clean s (.vmFault ft fa as))
    (hrun : KernelSt.vmFault ft fa as s.k = some (e, ins, k)) :
    ∃ evs, WalkEffect s as k evs ∧ k.pages.trace = s.k.pages.trace ++ evs ∧
      s.recordFault as k = { s with
        k := k
        got := Function.update s.got as (s.got as ++ s.grantedPages evs) } ∧
      ((e = 0 ∧ ∀ n, PageEvent.nospace n ∉ evs) ∨ e = enomem ∧ ins = none ∨
        (e ≠ 0 ∧ e ≠ enomem ∧ evs = [])) := by
  obtain ⟨evs, heff, hcase⟩ := hi.vmFault has (hc has) hrun
  refine ⟨evs, heff, heff.log, ?_, ?_⟩
  · rw [recordFault, heff.log, List.drop_left]
  · rcases hcase with ⟨he, hno, _, _⟩ | ⟨he, _, hins, _⟩ | ⟨h0, hm, _, _, hnil⟩
    · exact .inl ⟨he, hno⟩
    · exact .inr (.inl ⟨he, hins⟩)
    · exact .inr (.inr ⟨h0, hm, hnil⟩)

/-- Without an address space a fault fails at once. -/
theorem vmFault_null {ft fa e : Nat} {ins : Option TlbInsert} {k k' : KernelSt}
    (hrun : KernelSt.vmFault ft fa 0 k = some (e, ins, k')) :
    k' = k ∧ e ≠ 0 ∧ e ≠ enomem ∧ ins = none := by
  simp only [KernelSt.vmFault] at hrun
  split at hrun
  · cases hrun
  · split at hrun
    · cases hrun
      exact ⟨rfl, by decide, by decide, rfl⟩
    · cases hrun
      exact ⟨rfl, by decide, by decide, rfl⟩

private theorem Inv.stepAsCreate (hi : Inv s) (hb : s.k.pages.bootstrapped = true)
    (hc : s.CreateRoom) {as : Nat} {k : KernelSt} (hrun : KernelSt.asCreate s.k = some (as, k)) :
    Inv (s.recordSpace as k) := by
  rcases hi.asCreate hb hc with ⟨_, hrun'⟩ | ⟨as', k', hrun', hne, _, _, hi'⟩
  · rw [hrun'] at hrun
    cases hrun
    exact hi
  · rw [hrun'] at hrun
    cases hrun
    rw [recordSpace, if_neg hne]
    exact hi'

theorem Inv.step (hi : Inv s) (hc : Clean s op) (h : Step s op r t) : Inv t := by
  cases h with
  | vmBootstrap hb => exact hi.bootstrap hb
  | allocKpages n hn hb => exact hi.stepAllocKpages hn hb
  | freeKpages a ha =>
      obtain ⟨n, hn, hrel⟩ := hi.kernel_entry ha hc.1 hc.2
      exact hi.releaseKernel hn hc.1 hrel
  | kmalloc sz ptr k _ hrun => exact hi.stepKmalloc hc hrun
  | kfreeBlock ptr k hp hrun =>
      obtain ⟨k', hrun', hi', _⟩ := hi.kfreeBlock hp hc
      rw [hrun'] at hrun
      cases hrun
      exact hi'
  | kfreePages ptr k hp hrun =>
      obtain ⟨hrun', n, hn, hb, hrel⟩ := hi.kfreePages hp hc
      rw [hrun'] at hrun
      cases hrun
      exact hi.releaseKernel hn hb hrel
  | store m hm => exact hi.store hm
  | asCreate as k hb hrun => exact hi.stepAsCreate hb hc hrun
  | asDefineRegion as vaddr sz has => exact hi.stepDefineRegion has vaddr sz
  | asDefineStack as has => exact hi.stepDefineStack has
  | vmFault ft fa as e ins k has hrun =>
      obtain ⟨evs, heff, _, hrec, _⟩ := hi.stepFault has hc hrun
      rw [hrec]
      exact heff.inv
  | vmFaultKernel ft fa e ins k hrun =>
      rw [(vmFault_null hrun).1]
      exact hi
  | asDestroy as k has hrun =>
      obtain ⟨k', freed, hrun', _, hi', _⟩ := hi.asDestroy has hc
      rw [hrun'] at hrun
      cases hrun
      exact hi'

theorem inv_of_reachable (h : Reachable Boots CleanStep s) : Inv s := by
  apply h.invariant fun _ => inv_boots
  rintro s t _ hi ⟨op, r, hc, hst⟩
  exact hi.step hc hst

end Vm

end CseOs.Kernel
