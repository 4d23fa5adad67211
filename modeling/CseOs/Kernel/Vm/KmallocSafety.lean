import CseOs.Kernel.Vm.PageOwners

/-!
# Sizes and `kmalloc`

A large size is rounded up to pages in 32 bits, and a small one may need a page of its own. What
comes back is a block for its caller alone when the page allocator has the pages. `kfree` is not
told which allocator a pointer came from and finds out by its page.
-/

namespace CseOs.Kernel

open Framework KernelSt

namespace Vm

/-- Bytes that are in use: a block of the heap, or pages that are held outside the heap. -/
inductive LiveRange (s : Vm) : Nat → Nat → Prop
  | block (a n : Nat) : (a, n) ∈ s.heapLive → LiveRange s a n
  | pages (o : Owner) (a n : Nat) : (∀ p, o ≠ .heapPage p) → s.Holds o a n →
      LiveRange s a (n * pageSize)

/-- What is in use keeps its bytes and its run in the inverted page table. -/
structure Intact (s : Vm) (k : KernelSt) : Prop where
  bytes : ∀ a n, s.LiveRange a n → ∀ x, a ≤ x → x < a + n → k.mem x = s.k.mem x
  extents : ∀ b n, s.k.pages.Extent b n → k.pages.Extent b n

/-- A block lies in pages that were granted and meets nothing that is in use. -/
structure ProperBlock (s : Vm) (k : KernelSt) (ptr sz : Nat) : Prop where
  owned : ∃ b n, k.pages.Taken b n ∧ b ≤ ptr ∧ ptr + sz ≤ b + n * pageSize
  apart : ∀ a n, s.LiveRange a n → ptr + sz ≤ a ∨ a + n ≤ ptr

/-- `kmalloc` answers null or a proper block. -/
def KmallocSafe (s : Vm) (sz : Nat) : Prop :=
  ∃ ptr k, HeapSt.kmalloc vmSupply sz s.k = some (ptr, k) ∧ s.Intact k ∧
    (ptr = 0 ∨ s.ProperBlock k ptr sz)

/-- The subpage allocator released the block, and the page that it left empty. -/
structure FreedBlock (s : Vm) (ptr : Nat) (k : KernelSt) : Prop where
  heap : KheapInv k.kheap k.mem (dropBlock s.heapLive ptr)
  bytes : ∀ a n, s.LiveRange a n → a ≠ ptr → ∀ x, a ≤ x → x < a + n → k.mem x = s.k.mem x
  pages : k.pages = s.k.pages ∧ (∀ a, ¬ s.LastBlock ptr a) ∨
    ∃ a, s.LastBlock ptr a ∧ Pmem.Released s.k.pages k.pages a 1

/-- The page allocator released the run, and nothing else changed. -/
structure FreedPages (s : Vm) (ptr n : Nat) (k : KernelSt) : Prop where
  kheap : k.kheap = s.k.kheap
  mem : k.mem = s.k.mem
  released : Pmem.Released s.k.pages k.pages ptr n

/-- `kfree` releases the allocation through the allocator it came from. -/
def KfreeSafe (s : Vm) (ptr : Nat) : Prop :=
  ∃ k, HeapSt.kfree vmSupply ptr s.k = some k ∧
    (ptr ∈ s.heapLive.map Prod.fst → s.FreedBlock ptr k) ∧
    ∀ n, (ptr, n) ∈ s.kpages → s.FreedPages ptr n k

/-- A pointer that `kmalloc` or `alloc_kpages` handed out. -/
def LivePtr (s : Vm) (ptr : Nat) : Prop :=
  ptr ∈ s.heapLive.map Prod.fst ∨ ptr ∈ s.kpages.map Prod.fst

/-- The pages that a request needs can be granted, and a large one does not round to none. -/
def PagesFit (s : Vm) (sz : Nat) : Prop :=
  if sz < largestSubpageSize then s.k.wantsPage sz = true → s.k.pages.Fits 1
  else 0 < HeapSt.bigPages sz ∧ s.k.pages.Fits (HeapSt.bigPages sz)

variable {s : Vm} {a b n p ptr sz x : Nat} {k : KernelSt}

theorem LiveRange.taken (hi : Inv s) (h : s.LiveRange a n) :
    ∃ b m, s.k.pages.Taken b m ∧ b ≤ a ∧ a + n ≤ b + m * pageSize := by
  cases h with
  | block a n hb =>
    obtain ⟨p, hp, hblk, hbt⟩ := hi.heap.inside (a, n) hb
    have hsz : n ≤ (s.k.kheap.pagerefs p).size := (blocktypeOf_spec hbt).2
    have hend := hblk.end_le (hi.heap.page p hp).sized
    have hlo := hblk.1
    simp only at hend hlo
    exact ⟨_, 1, hi.placed.taken (.heapPage p) _ 1 ⟨hp, rfl, rfl⟩, hlo, by omega⟩
  | pages o a n _ ho => exact ⟨a, n, hi.placed.taken o a n ho, Nat.le_refl _, Nat.le_refl _⟩

theorem LiveRange.fresh (hi : Inv s) (h : s.LiveRange a n) {pm : Pmem} {m : Nat}
    (hg : Pmem.Granted s.k.pages pm b m) : b + m * pageSize ≤ a ∨ a + n ≤ b := by
  obtain ⟨c, l, htaken, hlo, hhi⟩ := h.taken hi
  have hapart := (hg.others c l htaken).2
  simp only [RangesApart] at hapart
  omega

theorem LiveRange.block_apart (hi : Inv s) (h : s.LiveRange a n) (hp : s.k.kheap.InUse p)
    (hblk : (s.k.kheap.pagerefs p).IsBlock ptr) (hne : a ≠ ptr) :
    ptr + (s.k.kheap.pagerefs p).size ≤ a ∨ a + n ≤ ptr := by
  have hend := hblk.end_le (hi.heap.page p hp).sized
  have hlo := hblk.1
  cases h with
  | block a n hb =>
    obtain ⟨q, hq, hqblk, hbt⟩ := hi.heap.inside (a, n) hb
    have hsz : n ≤ (s.k.kheap.pagerefs q).size := (blocktypeOf_spec hbt).2
    have hqend := hqblk.end_le (hi.heap.page q hq).sized
    have hqlo := hqblk.1
    simp only at hqblk hqend hqlo
    by_cases hpq : p = q
    · subst hpq
      have hdisj := hblk.disjoint hqblk hne.symm
      omega
    · have hpage := page_disjoint fun he => hpq (hi.heap.apart p q hp hq he)
      omega
  | pages o a n ho hold =>
    have hapart := hi.placed.apart (.heapPage p) o _ 1 a n ⟨hp, rfl, rfl⟩ hold (ho p).symm
    simp only [RangesApart] at hapart
    omega

private theorem Inv.mem_heapLive_ne (hi : Inv s) (hb : ptr ∈ s.heapLive.map Prod.fst) : ptr ≠ 0 := by
  obtain ⟨b, hmem, rfl⟩ := List.mem_map.mp hb
  have hpos := hi.heap.block_pos hmem
  omega

theorem Inv.block_not_kpage (hi : Inv s) (hb : ptr ∈ s.heapLive.map Prod.fst) :
    (ptr, n) ∉ s.kpages := by
  intro hk
  obtain ⟨b, hmem, rfl⟩ := List.mem_map.mp hb
  obtain ⟨p, hp, hblk, _⟩ := hi.heap.inside b hmem
  have hout := hi.kernel_outside hk hp
  have hlo := hblk.1
  have hhi := hblk.2.1
  omega

theorem kmalloc_small {σ : Type} (S : PageSupply σ) (st : HeapSt σ)
    (hle : ¬ largestSubpageSize ≤ sz) : HeapSt.kmalloc S sz st = st.subpageKmalloc S sz :=
  if_neg hle

theorem Inv.freshPage (hi : Inv s) {pm : Pmem} (hg : Pmem.Granted s.k.pages pm a 1) :
    FreshPage s.k.kheap a := by
  obtain ⟨hlo, hal, _, hhi⟩ := hg.taken.bounds hg.ok
  simp only [mipsKseg0, pageSize] at hlo hhi
  refine ⟨by omega, hal, by simp only [pageSize]; omega, fun q hq he => ?_⟩
  have hapart := (hg.others _ 1 (hi.placed.taken (.heapPage q) _ 1 ⟨hq, rfl, rfl⟩)).2
  simp only [RangesApart, pageSize, he] at hapart
  omega

theorem size_of_head {h : Kheap} {m : ByteStore} {live : List (Nat × Nat)}
    (hinv : KheapInv h m ((ptr, sz) :: live)) (hp : h.InUse p)
    (hblk : (h.pagerefs p).IsBlock ptr) : sz ≤ (h.pagerefs p).size := by
  obtain ⟨q, hq, hqblk, hbt⟩ := hinv.inside (ptr, sz) List.mem_cons_self
  have hpq : q = p := hinv.page_unique hq hp hqblk.1 hqblk.2.1 hblk.1 hblk.2.1
  rw [← hpq]
  exact (blocktypeOf_spec hbt).2

private theorem Inv.kmallocSmall (hi : Inv s) (hsz : sz < largestSubpageSize)
    (hfit : s.k.wantsPage sz = true → s.k.pages.Fits 1) : s.KmallocSafe sz := by
  have hgrant (h : s.k.wantsPage sz = true) : Pmem.Granted s.k.pages
      (vmSupply.allocKpages 1 s.k.pages).2 (vmSupply.allocKpages 1 s.k.pages).1 1 :=
    hi.ok.allocKpages_granted (by decide) (hfit h)
  obtain ⟨ptr, k, hrun, hout⟩ := hi.heap.subpageKmalloc_spec vmSupply hsz
    fun h => Or.inr (hi.freshPage (hgrant h))
  have hno : ¬ largestSubpageSize ≤ sz := by omega
  refine ⟨ptr, k, (kmalloc_small vmSupply s.k hno).trans hrun, ?_⟩
  cases hout with
  | taken p ptr off n hwants hfull hp hblk hinv =>
    have hp' : (s.k.kheap.setCounters p off n).InUse p := hp
    have hblk' := (setCounters_isBlock s.k.kheap p off n p ptr).mpr hblk
    have hsize : sz ≤ (s.k.kheap.pagerefs p).size := by
      simpa only [Pageref.size, setCounters_blocktype] using size_of_head hinv hp' hblk'
    have hend := hblk.end_le (hi.heap.page p hp).sized
    have hnodup := (List.nodup_cons.mp hinv.nodup).1
    refine ⟨⟨fun _ _ _ _ _ _ => rfl, fun _ _ h => h⟩, Or.inr ⟨?_, ?_⟩⟩
    · exact ⟨_, 1, hi.placed.taken (.heapPage p) _ 1 ⟨hp, rfl, rfl⟩, hblk.1, by omega⟩
    · intro a n hlive
      have hne : a ≠ ptr := by
        rintro rfl
        cases hlive with
        | block _ _ hb => exact hnodup (List.mem_map.mpr ⟨_, hb, rfl⟩)
        | pages o _ m ho hold =>
          have hapart := hi.placed.apart (.heapPage p) o _ 1 _ m ⟨hp, rfl, rfl⟩ hold (ho p).symm
          have hpos := ((hi.placed.taken o _ m hold).bounds hi.ok).2.2.1
          have hlo := hblk.1
          have hhi := hblk.2.1
          simp only [RangesApart, pageSize] at *
          omega
      have hapart := hlive.block_apart hi hp hblk hne
      omega
  | made p ptr kh m hwants hpos hp hpin huse hsame haddr hblk hmem hinv =>
    have hg := hgrant hwants
    have hsize := size_of_head hinv hpin hblk
    have hend := hblk.end_le (hinv.page p hpin).sized
    have hlo := hblk.1
    rw [haddr] at hend hlo
    generalize vmSupply.allocKpages 1 s.k.pages = r at *
    refine ⟨⟨?_, hg.extents⟩, Or.inr ⟨⟨r.1, 1, hg.taken, hlo, by omega⟩, ?_⟩⟩
    · intro a n hlive x hax hxa
      have hfresh := hlive.fresh hi hg
      exact hmem x (by omega)
    · intro a n hlive
      have hfresh := hlive.fresh hi hg
      omega
  | refused hwants hz =>
    have hlo := ((hgrant hwants).taken.bounds (hgrant hwants).ok).1
    rw [hz] at hlo
    simp only [mipsKseg0] at hlo
    omega
  | full _ _ => exact ⟨⟨fun _ _ _ _ _ _ => rfl, fun _ _ h => h⟩, Or.inl rfl⟩

private theorem bigPages_covers (h32 : sz < 2 ^ 32) (hpos : 0 < HeapSt.bigPages sz) :
    sz ≤ HeapSt.bigPages sz * pageSize := by
  simp only [HeapSt.bigPages, pageSize] at *
  omega

theorem kmalloc_large {σ : Type} (S : PageSupply σ) (st : HeapSt σ)
    (hle : largestSubpageSize ≤ sz) {r : Nat × σ} (hr : S.allocKpages (HeapSt.bigPages sz) st.pages = r) :
    HeapSt.kmalloc S sz st = some (r.1, { st with pages := r.2 }) := by
  rw [← hr]
  exact if_pos hle

private theorem Inv.kmallocLarge (hi : Inv s) (hsz : ¬ sz < largestSubpageSize) (h32 : sz < 2 ^ 32)
    (hpos : 0 < HeapSt.bigPages sz) (hfit : s.k.pages.Fits (HeapSt.bigPages sz)) :
    s.KmallocSafe sz := by
  have hle : largestSubpageSize ≤ sz := by omega
  have hg : Pmem.Granted s.k.pages (vmSupply.allocKpages (HeapSt.bigPages sz) s.k.pages).2
      (vmSupply.allocKpages (HeapSt.bigPages sz) s.k.pages).1 (HeapSt.bigPages sz) :=
    hi.ok.allocKpages_granted hpos hfit
  have hcovers := bigPages_covers h32 hpos
  have hrun := kmalloc_large vmSupply s.k hle rfl
  generalize vmSupply.allocKpages (HeapSt.bigPages sz) s.k.pages = r at hg hrun
  refine ⟨_, _, hrun, ⟨fun _ _ _ _ _ _ => rfl, hg.extents⟩,
    Or.inr ⟨⟨_, _, hg.taken, Nat.le_refl _, by omega⟩, fun a n hlive => ?_⟩⟩
  have hfresh := hlive.fresh hi hg
  omega

theorem not_properBlock {pm : Pmem} (hi : Inv s) (hk : k.pages = pm)
    (htaken : ∀ b n, pm.Taken b n → s.k.pages.Taken b n) (hptr : ptr < mipsKseg0 + pageSize) :
    ¬ s.ProperBlock k ptr sz := by
  intro h
  obtain ⟨b, n, hb, hlo, _⟩ := h.owned
  rw [hk] at hb
  have hbounds := ((htaken b n hb).bounds hi.ok).1
  simp only [pageSize] at *
  omega

private theorem Inv.kmallocSmall_unsafe (hi : Inv s) (hb : s.k.pages.bootstrapped = true)
    (hsz : sz < largestSubpageSize) (hwants : s.k.wantsPage sz = true)
    (hno : ¬ s.k.pages.Fits 1) : ¬ s.KmallocSafe sz := by
  have hrul := hi.ruled_of_booted hb
  simp only [Pmem.Fits, hb, if_true] at hno
  obtain ⟨hz, hr⟩ := hrul.refused (by decide) hno
  have hfresh : FreshPage s.k.kheap (vmSupply.allocKpages 1 s.k.pages).1 := by
    have hz' : (vmSupply.allocKpages 1 s.k.pages).1 = mipsKseg0 := hz
    rw [hz']
    refine ⟨by decide, by decide, by decide, fun q hq he => ?_⟩
    have hbounds := ((hi.placed.taken (.heapPage q) _ 1 ⟨hq, rfl, rfl⟩).bounds hi.ok).1
    rw [he] at hbounds
    simp only [pageSize] at hbounds
    omega
  obtain ⟨ptr, k, hrun, hout⟩ := hi.heap.subpageKmalloc_spec vmSupply hsz
    fun _ => Or.inr hfresh
  have hle : ¬ largestSubpageSize ≤ sz := by omega
  rintro ⟨ptr', k', hrun', _, hsafe⟩
  have hsame : (ptr, k) = (ptr', k') :=
    Option.some.inj (hrun.symm.trans ((kmalloc_small vmSupply s.k hle).symm.trans hrun'))
  cases hsame
  cases hout with
  | taken p ptr off n hnot => simp [hwants] at hnot
  | made p ptr kh m _ hpos hp hpin huse hsame haddr hblk hmem hinv =>
    have haddr' : (kh.pagerefs p).pageaddr = mipsKseg0 := haddr.trans hz
    have hlo := hblk.1
    have hhi := hblk.2.1
    rw [haddr'] at hlo hhi
    have hseg : 0 < mipsKseg0 := by decide
    cases hsafe with
    | inl hnull => omega
    | inr hproper =>
      have htaken (b n : Nat) (h : (vmSupply.allocKpages 1 s.k.pages).2.Taken b n) :
          s.k.pages.Taken b n := (hr.taken b n).mp h
      generalize vmSupply.allocKpages 1 s.k.pages = r at hproper htaken
      exact not_properBlock hi rfl htaken hhi hproper
  | refused _ hnull =>
    have hz' : (vmSupply.allocKpages 1 s.k.pages).1 = mipsKseg0 := hz
    rw [hz'] at hnull
    cases hnull
  | full hnot => simp [hwants] at hnot

private theorem Inv.kmallocLarge_unsafe (hi : Inv s) (hb : s.k.pages.bootstrapped = true)
    (hsz : ¬ sz < largestSubpageSize) (hpos : 0 < HeapSt.bigPages sz)
    (hno : ¬ s.k.pages.Fits (HeapSt.bigPages sz)) : ¬ s.KmallocSafe sz := by
  have hrul := hi.ruled_of_booted hb
  simp only [Pmem.Fits, hb, if_true] at hno
  obtain ⟨hz, hr⟩ := hrul.refused hpos hno
  have hle : largestSubpageSize ≤ sz := by omega
  have hcall := kmalloc_large vmSupply s.k hle rfl
  have hz' : (vmSupply.allocKpages (HeapSt.bigPages sz) s.k.pages).1 = mipsKseg0 := hz
  have htaken (b n : Nat) (h : (vmSupply.allocKpages (HeapSt.bigPages sz) s.k.pages).2.Taken b n) :
      s.k.pages.Taken b n := (hr.taken b n).mp h
  generalize vmSupply.allocKpages (HeapSt.bigPages sz) s.k.pages = r at hcall hz' htaken
  rintro ⟨ptr, k, hrun, _, hsafe⟩
  rw [hcall] at hrun
  cases hrun
  have hseg : 0 < mipsKseg0 := by decide
  cases hsafe with
  | inl hnull => omega
  | inr hproper =>
    exact not_properBlock hi rfl htaken (by simp only [hz', pageSize]; omega) hproper

theorem allocPpages_none_pages {pm : Pmem} (hm : pm.Managed) :
    (pm.allocPpages 0).1 < 2 ^ 31 ∧
      ∀ b n, (pm.allocPpages 0).2.Taken b n → pm.Taken b n := by
  have hscan : (Pmem.scan pm.ipt pm.systemPages 0 pm.systemPages (0, 0)).1 = 0 := by
    cases pm.systemPages with
    | zero => rfl
    | succ m => simp [Pmem.scan, Pmem.scanStep]
  have htop := hm.top
  simp only [Pmem.pageAddr] at htop
  simp only [Pmem.allocPpages, hscan, Nat.zero_sub, Nat.zero_mul, Nat.zero_add]
  split
  · exact ⟨show 0 < 2 ^ 31 by decide, fun b n h => h⟩
  · refine ⟨by simp only; omega, fun b n h => ?_⟩
    cases h with
    | inl hs => exact Or.inl hs
    | inr he =>
      obtain ⟨hb, hn, j, hj, hjn⟩ := he
      by_cases hj0 : j = 0
      · rw [hj0] at hjn
        simp only [RunTable.mark_self] at hjn
        omega
      · simp only [RunTable.mark_of_ne hj0] at hjn
        exact Or.inr ⟨hb, hn, j, hj, hjn⟩

private theorem Inv.kmallocNone_unsafe (hi : Inv s) (hb : s.k.pages.bootstrapped = true)
    (hsz : ¬ sz < largestSubpageSize) (hzero : HeapSt.bigPages sz = 0) : ¬ s.KmallocSafe sz := by
  have hrul := hi.ruled_of_booted hb
  obtain ⟨haddr, htaken⟩ := allocPpages_none_pages hrul.toManaged
  have hle : largestSubpageSize ≤ sz := by omega
  have hgot : vmSupply.allocKpages (HeapSt.bigPages sz) s.k.pages =
      (paddrToKvaddr (s.k.pages.allocPpages 0).1, (s.k.pages.allocPpages 0).2) := by
    rw [hzero]
    exact hrul.toManaged.allocKpages_eq 0
  have hcall := kmalloc_large vmSupply s.k hle hgot
  generalize s.k.pages.allocPpages 0 = r at haddr htaken hcall
  rintro ⟨ptr, k, hrun, _, hsafe⟩
  obtain ⟨rfl, rfl⟩ := Prod.mk.inj (Option.some.inj (hcall.symm.trans hrun))
  have hptr : paddrToKvaddr r.1 ≠ 0 := by
    simp only [paddrToKvaddr, mipsKseg0]
    omega
  obtain ⟨b, n, hbn, hlo, hhi⟩ := (hsafe.resolve_left hptr).owned
  have hbounds := ((htaken b n hbn).bounds hi.ok).2.2.2
  simp only [HeapSt.bigPages, largestSubpageSize, pageSize] at hzero hle hbounds hhi
  omega

theorem Inv.kmalloc_safe_iff (hi : Inv s) (hb : s.k.pages.bootstrapped = true)
    (h32 : sz < 2 ^ 32) : s.KmallocSafe sz ↔ s.PagesFit sz := by
  constructor
  · intro hsafe
    by_cases hsz : sz < largestSubpageSize
    · rw [PagesFit, if_pos hsz]
      intro hwants
      by_contra hno
      exact hi.kmallocSmall_unsafe hb hsz hwants hno hsafe
    · rw [PagesFit, if_neg hsz]
      by_cases hpos : 0 < HeapSt.bigPages sz
      · refine ⟨hpos, ?_⟩
        by_contra hno
        exact hi.kmallocLarge_unsafe hb hsz hpos hno hsafe
      · exact absurd hsafe (hi.kmallocNone_unsafe hb hsz (by omega))
  · intro hfit
    by_cases hsz : sz < largestSubpageSize
    · rw [PagesFit, if_pos hsz] at hfit
      exact hi.kmallocSmall hsz hfit
    · rw [PagesFit, if_neg hsz] at hfit
      exact hi.kmallocLarge hsz h32 hfit.1 hfit.2

private theorem Inv.kfreeBlock_freed (hi : Inv s) (hp : ptr ∈ s.heapLive.map Prod.fst)
    (hg : s.ReleasesManaged ptr) :
    ∃ k, HeapSt.kfree vmSupply ptr s.k = some k ∧ s.FreedBlock ptr k := by
  obtain ⟨k, hrun, hout⟩ := hi.heap.subpageKfree_spec vmSupply hp
  have hres : HeapSt.kfree vmSupply ptr s.k = some k := by
    simp only [HeapSt.kfree, if_neg (hi.mem_heapLive_ne hp), hrun, Option.bind_eq_bind,
      Option.bind_some, if_true]
    rfl
  have hbytes (p : Nat) (hpu : s.k.kheap.InUse p) (hblk : (s.k.kheap.pagerefs p).IsBlock ptr) :
      ∀ a n, s.LiveRange a n → a ≠ ptr → ∀ x, a ≤ x → x < a + n →
        freedMem (s.k.kheap.pagerefs p) s.k.mem ptr x = s.k.mem x := by
    intro a n hlive hne x hlo hhi
    have h16 := (blockSize_cases (hi.heap.page p hpu).sized).1
    have hapart := hlive.block_apart hi hpu hblk hne
    apply freedMem_of_outside
    · exact Nat.le_trans (by decide) h16
    · omega
  refine ⟨k, hres, ?_⟩
  cases hout with
  | kept p off n hpu hblk hsome hinv =>
    refine ⟨hinv, hbytes p hpu hblk, Or.inl ⟨rfl, ?_⟩⟩
    rintro a ⟨q, hq, hqblk, _, hnone⟩
    have hqp : q = p := hi.heap.page_unique hq hpu hqblk.1 hqblk.2.1 hblk.1 hblk.2.1
    obtain ⟨b, hbm, hbb⟩ := hsome
    obtain ⟨hbl, hba⟩ := mem_dropBlock_fst.mp hbm
    exact hnone b hbl hba (hqp ▸ hbb)
  | returned p kh hpu hblk hnone huse hpab hinv =>
    obtain ⟨hrul, he⟩ := hi.released_extent hg hp hpu hblk hnone
    refine ⟨hinv, hbytes p hpu hblk, Or.inr ⟨_, ⟨p, hpu, hblk, rfl, fun b hb hne => ?_⟩, ?_⟩⟩
    · exact hnone b (mem_dropBlock_fst.mpr ⟨hb, hne⟩)
    · exact he.released hrul

theorem released_above {pm pm' : Pmem} (h : Pmem.Released pm pm' a n) : mipsKseg0 + pm.lo ≤ a := by
  obtain ⟨j, haj, _⟩ := h.log
  rw [haj, Pmem.kvPage, Pmem.pageAddr]
  omega

private theorem freeKpages_trace (pm : Pmem) (a : Nat) : (pm.freeKpages a).trace ≠ pm.trace := by
  intro h
  have hlen := congrArg List.length h
  simp [Pmem.freeKpages, Pmem.freePpages] at hlen

theorem Inv.releasesManaged_of_block (hi : Inv s) (hb : s.k.pages.bootstrapped = true)
    (hp : ptr ∈ s.heapLive.map Prod.fst) (hsafe : s.KfreeSafe ptr) : s.ReleasesManaged ptr := by
  obtain ⟨k, hrun, hfreed, _⟩ := hsafe
  have hpages := (hfreed hp).pages
  obtain ⟨k', hrun', hout⟩ := hi.heap.subpageKfree_spec vmSupply hp
  have hk : k = k' := by
    simp only [HeapSt.kfree, if_neg (hi.mem_heapLive_ne hp), hrun', Option.bind_eq_bind,
      Option.bind_some, if_true] at hrun
    exact (Option.some.inj hrun).symm
  subst hk
  intro a ha
  refine ⟨hb, ?_⟩
  obtain ⟨b, hbl, rfl⟩ := List.mem_map.mp hp
  obtain ⟨p, hpu, hblk, _⟩ := hi.heap.inside b hbl
  rw [HeapSt.releasedPage, hi.heap.findPage_inside hpu hblk.1 hblk.2.1] at ha
  simp only at ha
  split at ha
  case isFalse => cases ha
  case isTrue hlast =>
    have hpa := Option.some.inj ha
    have hnone := (hi.heap.last_block_iff hpu hblk hp).2.mp hlast
    have hpages' : k.pages ≠ s.k.pages := by
      cases hout with
      | kept q off n hqu hqblk hsome hinv =>
        have hqp : q = p := hi.heap.page_unique hqu hpu hqblk.1 hqblk.2.1 hblk.1 hblk.2.1
        obtain ⟨c, hcm, hcb⟩ := hsome
        exact absurd (hqp ▸ hcb) (hnone c hcm)
      | returned q kh hqu hqblk hqnone huse hpab hinv =>
        intro heq
        exact freeKpages_trace s.k.pages _ (congrArg Pmem.trace heq)
    cases hpages with
    | inl h => exact absurd h.1 hpages'
    | inr h =>
      obtain ⟨c, ⟨q, hqu, hqblk, hqa, _⟩, hrel⟩ := h
      have hqp : q = p := hi.heap.page_unique hqu hpu hqblk.1 hqblk.2.1 hblk.1 hblk.2.1
      rw [← hpa, ← hqp, hqa]
      exact released_above hrel

theorem Inv.kfree_safe_iff (hi : Inv s) (hb : s.k.pages.bootstrapped = true)
    (hp : s.LivePtr ptr) : s.KfreeSafe ptr ↔ s.ReleasesManaged ptr := by
  cases hp with
  | inl hblock =>
    constructor
    · exact hi.releasesManaged_of_block hb hblock
    · intro hg
      obtain ⟨k, hrun, hfreed⟩ := hi.kfreeBlock_freed hblock hg
      exact ⟨k, hrun, fun _ => hfreed, fun n hn => absurd hn (hi.block_not_kpage hblock)⟩
  | inr hpages =>
    constructor
    · rintro ⟨k, _, _, hfreed⟩ a ha
      obtain ⟨e, he, rfl⟩ := List.mem_map.mp hpages
      rw [hi.heap.releasedPage_outside fun p hpu => hi.kernel_outside he hpu] at ha
      rw [← Option.some.inj ha]
      exact ⟨hb, released_above (hfreed e.2 he).released⟩
    · intro hg
      obtain ⟨hrun, n, hn, _, hrel⟩ := hi.kfreePages hpages hg
      refine ⟨_, hrun, fun hblock => absurd hn (hi.block_not_kpage hblock), fun m hm => ?_⟩
      have hmn : m = n := by
        have hone := hi.keys
        have hm' := List.inj_on_of_nodup_map hone hm hn rfl
        exact (Prod.mk.inj hm').2
      rw [hmn]
      exact ⟨rfl, rfl, hrel⟩

/-- After `vm_bootstrap` a size is served as it should be if and only if its pages fit, and a
pointer is released as it should be if and only if the page it gives back is the allocator's. -/
theorem kmalloc_kfree_safe (s : Vm) (sz : Nat) (hi : Inv s) (hb : s.k.pages.bootstrapped = true)
    (hsz : 1 ≤ sz ∧ sz < 2 ^ 32) : (s.KmallocSafe sz ↔ s.PagesFit sz) ∧
      ∀ ptr, s.LivePtr ptr → (s.KfreeSafe ptr ↔ s.ReleasesManaged ptr) :=
  ⟨hi.kmalloc_safe_iff hb hsz.2, fun _ hp => hi.kfree_safe_iff hb hp⟩

/-- The machine of five pages before anyone asked for memory. -/
def bootedOnly : Vm := ⟨SharedTable.booted, [], [], [], fun _ => []⟩

private theorem inv_bootedOnly : Inv bootedOnly := by
  have h0 : Reachable Boots CleanStep ⟨SharedTable.boot, [], [], [], fun _ => []⟩ :=
    Reachable.start ⟨_, _, rfl⟩
  exact inv_of_reachable (h0.next ⟨.vmBootstrap, _, trivial, .vmBootstrap rfl⟩)

/-- The same machine after `kmalloc(100)` -/
def allocated : KernelSt := ((HeapSt.kmalloc vmSupply 100 SharedTable.booted).getD (0, SharedTable.booted)).2

def oneBlock : Vm := ⟨allocated, [], [(0x80004f80, 100)], [], fun _ => []⟩

private theorem oneBlock_values :
    (HeapSt.kmalloc vmSupply 100 SharedTable.booted).map Prod.fst = some 0x80004f80 ∧
    oneBlock.k.pages.bootstrapped = true ∧ oneBlock.k.wantsPage 100 = false ∧
    2 + 2 < oneBlock.k.pages.systemPages ∧ ¬ oneBlock.k.pages.ipt.Covered 2 ∧
    ¬ oneBlock.k.pages.ipt.Covered 3 ∧ oneBlock.k.releasedPage 0x80004f80 = some 0x80004000 ∧
    mipsKseg0 + oneBlock.k.pages.lo ≤ 0x80004000 := by
  decide +kernel

private theorem inv_oneBlock : Inv oneBlock := by
  have hrun : HeapSt.kmalloc vmSupply 100 SharedTable.booted = some (0x80004f80, allocated) :=
    SharedTable.answer_eq oneBlock_values.1
  have h0 : Reachable Boots CleanStep ⟨SharedTable.boot, [], [], [], fun _ => []⟩ :=
    Reachable.start ⟨_, _, rfl⟩
  have h1 : Reachable Boots CleanStep bootedOnly := h0.next ⟨.vmBootstrap, _, trivial, .vmBootstrap rfl⟩
  have hclean : Clean bootedOnly (.kmalloc 100) := by
    have hfit : SharedTable.booted.pages.Fits 1 := by
      rw [Pmem.Fits, if_pos SharedTable.booted_values.1]
      exact ⟨1, Nat.lt_of_succ_lt SharedTable.booted_values.2.1,
        SharedTable.free_booted 1 (.inl rfl)⟩
    exact fun _ => hfit
  have hstep := Step.kmalloc (s := bootedOnly) 100 _ _ (by decide) hrun
  rw [recordKmalloc, if_pos (by decide), recordBlock, if_neg (by decide)] at hstep
  exact inv_of_reachable (h1.next ⟨_, _, hclean, hstep⟩)

theorem kmalloc_kfree_safe_block : oneBlock.KmallocSafe 100 ∧ oneBlock.KmallocSafe 8192 ∧
    oneBlock.LivePtr 0x80004f80 ∧ oneBlock.KfreeSafe 0x80004f80 := by
  obtain ⟨_, hbooted, hroom, hpages, h2, h3, hpage, hlo⟩ := oneBlock_values
  have hsmall := kmalloc_kfree_safe oneBlock 100 inv_oneBlock hbooted (by decide)
  have hlarge := kmalloc_kfree_safe oneBlock 8192 inv_oneBlock hbooted (by decide)
  have hlive : oneBlock.LivePtr 0x80004f80 := .inl List.mem_cons_self
  refine ⟨hsmall.1.mpr ?_, hlarge.1.mpr ?_, hlive, (hsmall.2 _ hlive).mpr fun a ha => ⟨hbooted, ?_⟩⟩
  · rw [PagesFit, if_pos (by decide), hroom]
    exact fun hno => by cases hno
  · rw [PagesFit, if_neg (by decide), Pmem.Fits, if_pos hbooted]
    refine ⟨by decide, 2, hpages, fun j hlo hhi => ?_⟩
    have hsize : HeapSt.bigPages 8192 = 2 := by decide
    have hj : j = 2 ∨ j = 3 := by omega
    rcases hj with rfl | rfl
    · exact h2
    · exact h3
  · rw [hpage] at ha
    rw [← Option.some.inj ha]
    exact hlo

/-- The largest size is rounded to no pages. The answer is not null and no block of that size. -/
theorem kmalloc_rounds_to_nothing : ¬ ∀ (s : Vm) (sz : Nat), Inv s →
    s.k.pages.bootstrapped = true → 1 ≤ sz ∧ sz < 2 ^ 32 →
    s.KmallocSafe sz ∧ ∀ ptr, s.LivePtr ptr → s.KfreeSafe ptr := by
  intro hall
  have hbooted : bootedOnly.k.pages.bootstrapped = true := SharedTable.booted_values.1
  have hsafe := (hall bootedOnly (2 ^ 32 - 1) inv_bootedOnly hbooted (by decide)).1
  exact inv_bootedOnly.kmallocNone_unsafe hbooted (by decide) (by decide) hsafe

end Vm

end CseOs.Kernel
