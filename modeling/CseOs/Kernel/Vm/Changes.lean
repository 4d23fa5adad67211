import CseOs.Kernel.Vm.Ownership

/-!
# Elementary changes of ownership

Each lemma moves the invariant through one change: a write to memory that is not reserved, a
grant, a refusal or a release of pages, a call of the subpage heap, and pages that pass from a
kernel client to an address space or back.
-/

namespace CseOs.Kernel

open Framework KernelSt

namespace Vm

variable {s t : Vm} {m : ByteStore} {as a n x p : Nat} {o : SpacePage}

def writeMem (s : Vm) (m : ByteStore) : Vm := { s with k := { s.k with mem := m } }

/-- Bytes that belong to a client, to a process or to the plain fields of an address space. -/
def Writable (s : Vm) (x : Nat) : Prop :=
  (∃ b ∈ s.blocks, b.1 ≤ x ∧ x < b.1 + b.2) ∨
  (∃ e ∈ s.kpages, e.1 ≤ x ∧ x < e.1 + e.2 * pageSize) ∨
  (∃ as ∈ s.spaces, as ≤ x ∧ x < as + 20) ∨
  (∃ as hi mid a, s.Holds (.space as (.user hi mid)) a 1 ∧ a ≤ x ∧ x < a + pageSize)

theorem Inv.blocks_spaces (hi : Inv s) {b : Nat} (hb : b ∈ s.blocks.map Prod.fst) :
    b ∉ s.spaces := by
  intro hs
  have hnd := hi.heap.nodup
  rw [heapLive, List.map_append, List.map_map] at hnd
  have hmem : b ∈ s.spaces.map (Prod.fst ∘ fun as => (as, addrspaceSize)) :=
    List.mem_map.mpr ⟨b, hs, rfl⟩
  exact (List.nodup_append.mp hnd).2.2 b hb b hmem rfl

theorem Inv.writable_not_reserved (hi : Inv s) (hx : s.Writable x) :
    ¬ s.TreeMem x ∧ ¬ s.FreeWord x := by
  rcases hx with ⟨b, hb, hlo, hhi⟩ | ⟨e, he, hlo, hhi⟩ | ⟨as, has, hlo, hhi⟩ |
      ⟨as, h, mid, a, ha, hlo, hhi⟩
  · have hbl : b ∈ s.heapLive := List.mem_append_left _ hb
    obtain ⟨p, hp, hblk, hbt⟩ := hi.heap.inside b hbl
    have hsz : b.2 ≤ (s.k.kheap.pagerefs p).size := (blocktypeOf_spec hbt).2
    exact ⟨hi.block_not_treeMem hp hblk (hi.blocks_spaces (List.mem_map_of_mem hb)) hlo (by omega),
      hi.block_not_freeWord hp hblk (List.mem_map_of_mem hbl) hlo (by omega)⟩
  · exact hi.not_reserved (o := .kernel e.1) ⟨rfl, he⟩ (by simp) (by simp) hlo hhi
  · obtain ⟨p, hp, hblk, hsz, _⟩ := hi.space_block has
    exact ⟨hi.fields_not_treeMem has hlo hhi, hi.block_not_freeWord hp hblk
      (List.mem_map_of_mem (mem_heapLive_of_space has)) hlo (by omega)⟩
  · refine hi.not_reserved ha (by simp) ?_ hlo (by omega)
    rintro as' q he
    cases he
    exact ⟨h, mid, rfl⟩

private theorem heap_congr (hi : Inv s) (hm : ∀ x, s.FreeWord x → m x = s.k.mem x) :
    KheapInv s.k.kheap m s.heapLive := by
  refine hi.heap.congr_mem fun p a hp ha hdead => ?_
  apply ByteStore.word_congr
  intro x hlo hhi
  exact hm x ⟨p, a, hp, ha, hdead, hlo, hhi⟩

/-- Memory that is not reserved can be written at will. -/
theorem Inv.store (hi : Inv s) (hm : ∀ x, ¬ s.Writable x → m x = s.k.mem x) :
    Inv (s.writeMem m) := by
  have htree (x : Nat) (hx : s.TreeMem x) : m x = s.k.mem x :=
    hm x fun hw => (hi.writable_not_reserved hw).1 hx
  have hfree (x : Nat) (hx : s.FreeWord x) : m x = s.k.mem x :=
    hm x fun hw => (hi.writable_not_reserved hw).2 hx
  refine ⟨hi.ok, heap_congr (s := s) hi hfree, hi.placed.sub ?_, hi.keys,
    given_congr (s := s) hi rfl rfl htree⟩
  intro o a n ho
  cases o with
  | space as o => exact (holds_space_congr (s := s) (t := writeMem s m) rfl htree).mp ho
  | table => exact ho
  | kernel b => exact ho
  | heapPage p => exact ho

/-- A kernel client is granted pages. -/
theorem Inv.grantKernel (hi : Inv s) {pm : Pmem} (hg : Pmem.Granted s.k.pages pm a n)
    (hn : 0 < n) : Inv { s with k := { s.k with pages := pm }, kpages := (a, n) :: s.kpages } := by
  refine ⟨hg.ok, hi.heap, ?_, ?_, hi.given⟩
  · refine hi.placed.grant hg (.kernel a) (by simp) fun o b k ho => ?_
    cases o with
    | table =>
        obtain ⟨hb, h1, h2, h3⟩ := ho
        simp only [hg.booted, hg.lo, hg.pages] at hb h1 h2 h3
        exact .inr ⟨hb, h1, h2, h3⟩
    | kernel c =>
        obtain ⟨hcb, hmem⟩ := ho
        subst hcb
        cases List.mem_cons.mp hmem with
        | inl he =>
            cases he
            exact .inl ⟨rfl, rfl, rfl⟩
        | inr hold => exact .inr ⟨rfl, hold⟩
    | heapPage p => exact .inr ho
    | space as q => exact .inr ho
  · refine List.nodup_cons.mpr ⟨fun hmem => ?_, hi.keys⟩
    obtain ⟨e, he, rfl⟩ := List.mem_map.mp hmem
    have htaken := hi.placed.taken (.kernel e.1) e.1 e.2 ⟨rfl, he⟩
    have hpos := (htaken.bounds hi.ok).2.2.1
    have := (hg.others e.1 e.2 htaken).2
    simp only [RangesApart, pageSize] at this
    omega

/-- A refused request changes nothing that is held. -/
theorem Inv.refuse (hi : Inv s) {pm : Pmem} (hr : Pmem.Refused s.k.pages pm n)
    (hb : s.k.pages.bootstrapped = true) : Inv { s with k := { s.k with pages := pm } } := by
  refine ⟨.inr hr.ruled, hi.heap, hi.placed.refuse hr fun o b k ho => ?_, hi.keys, hi.given⟩
  cases o with
  | table =>
      obtain ⟨_, h1, h2, h3⟩ := ho
      simp only [hr.lo, hr.pages] at h1 h2 h3
      exact ⟨hb, h1, h2, h3⟩
  | kernel c => exact ho
  | heapPage p => exact ho
  | space as q => exact ho

private theorem holds_table_of_released {pm : Pmem} (hr : Pmem.Released s.k.pages pm a n)
    (hb : s.k.pages.bootstrapped = true) {b k : Nat}
    (ho : pm.bootstrapped = true ∧ 1 < pm.systemPages ∧ b = mipsKseg0 + pm.lo ∧
      k = Pmem.tablePages pm.systemPages) : s.Holds .table b k := by
  obtain ⟨_, h1, h2, h3⟩ := ho
  simp only [hr.lo, hr.pages] at h1 h2 h3
  exact ⟨hb, h1, h2, h3⟩

/-- A kernel client gives pages back. -/
theorem Inv.releaseKernel (hi : Inv s) (ha : (a, n) ∈ s.kpages)
    (hb : s.k.pages.bootstrapped = true) {pm : Pmem} (hrel : Pmem.Released s.k.pages pm a n) :
    Inv { s with k := { s.k with pages := pm }, kpages := dropBlock s.kpages a } := by
  refine ⟨.inr hrel.ruled, hi.heap, ?_, dropBlock_nodup hi.keys, hi.given⟩
  refine hi.placed.release hrel (o := .kernel a) ⟨rfl, ha⟩ fun o b k ho => ?_
  cases o with
  | table => exact ⟨holds_table_of_released hrel hb ho, by simp⟩
  | kernel c =>
      obtain ⟨hcb, hmem⟩ := ho
      obtain ⟨hold, hne⟩ := mem_dropBlock.mp hmem
      exact ⟨⟨hcb, hold⟩, fun heq => hne (by cases heq; exact hcb.symm)⟩
  | heapPage p => exact ⟨ho, by simp⟩
  | space as q => exact ⟨ho, by simp⟩

/-- A kernel client gets a block. -/
theorem Inv.kmallocSub (hi : Inv s) {sz ptr : Nat} {k : KernelSt}
    (ho : KmallocOutcome vmSupply s.k s.heapLive sz ptr k)
    (hfit : s.k.wantsPage sz = true → s.k.pages.Fits 1) :
    Inv { s with k := k, blocks := recordBlock ptr sz s.blocks } := by
  cases ho with
  | taken p ptr off n _ _ hp hblk hinv =>
      rw [hinv.recordBlock_eq]
      refine ⟨hi.ok, hinv, hi.placed.sub fun o b k ho => ?_, hi.keys, hi.given⟩
      cases o with
      | heapPage q =>
          obtain ⟨hq, hqa, hk⟩ := ho
          rw [setCounters_pageaddr] at hqa
          exact ⟨hq, hqa, hk⟩
      | table => exact ho
      | kernel c => exact ho
      | space as q => exact ho
  | made p ptr kh m hwants hpos hp hpin huse hsame haddr hblk hmem hinv =>
      rw [hinv.recordBlock_eq]
      have hg : Pmem.Granted s.k.pages (vmSupply.allocKpages 1 s.k.pages).2
          (vmSupply.allocKpages 1 s.k.pages).1 1 :=
        hi.ok.allocKpages_granted (by decide) (hfit hwants)
      generalize (vmSupply.allocKpages 1 s.k.pages).2 = pm at *
      generalize (vmSupply.allocKpages 1 s.k.pages).1 = a at *
      have htree (x : Nat) (hx : s.TreeMem x) : m x = s.k.mem x := by
        obtain ⟨o, b, hb, hlo, hhi, _⟩ := hi.treeMem_held hx
        have := (hg.others b 1 (hi.placed.taken o b 1 hb)).2
        simp only [RangesApart] at this
        exact hmem x (by omega)
      refine ⟨hg.ok, hinv, ?_, hi.keys, given_congr (s := s) hi rfl rfl htree⟩
      refine hi.placed.grant hg (.heapPage p) (by simp) fun o b k ho => ?_
      cases o with
      | table =>
          obtain ⟨hb, h1, h2, h3⟩ := ho
          simp only [hg.booted, hg.lo, hg.pages] at hb h1 h2 h3
          exact .inr ⟨hb, h1, h2, h3⟩
      | kernel c => exact .inr ho
      | heapPage q =>
          obtain ⟨hq, hqa, hk⟩ := ho
          cases (huse q).mp hq with
          | inl he =>
              subst he
              exact .inl ⟨rfl, hqa.symm.trans haddr, hk⟩
          | inr hold =>
              rw [hsame q hold] at hqa
              exact .inr ⟨hold, hqa, hk⟩
      | space as q =>
          exact .inr ((holds_space_congr (s := s) (t := ⟨⟨kh, m, pm⟩, s.kpages,
            (ptr, sz) :: s.blocks, s.spaces, s.got⟩) rfl htree).mp ho)
  | refused hwants hz =>
      have hg := hi.ok.allocKpages_granted (by decide) (hfit hwants)
      have hpos := (hg.taken.bounds hg.ok).1
      simp only [vmSupply] at hz
      simp only [mipsKseg0, hz] at hpos
      omega
  | full _ _ => exact hi

private theorem Inv.heapLive_drop (hi : Inv s) {ptr : Nat} (hp : ptr ∈ s.blocks.map Prod.fst) :
    dropBlock s.heapLive ptr = heapLive { s with blocks := dropBlock s.blocks ptr } := by
  have hns := hi.blocks_spaces hp
  have hkeep : (s.spaces.map fun as => (as, addrspaceSize)).filter (fun b => b.1 ≠ ptr) =
      s.spaces.map fun as => (as, addrspaceSize) := by
    apply List.filter_eq_self.mpr
    intro b hb
    obtain ⟨as, has, rfl⟩ := List.mem_map.mp hb
    have hne : as ≠ ptr := fun he => hns (he ▸ has)
    simpa using hne
  rw [dropBlock, heapLive, List.filter_append, hkeep]
  rfl

/-- A kernel client gives a block back; a page that goes with it was taken after
`vm_bootstrap`. -/
theorem Inv.kfreeSub (hi : Inv s) {ptr : Nat} {k : KernelSt} (hp : ptr ∈ s.blocks.map Prod.fst)
    (ho : KfreeOutcome vmSupply s.k s.heapLive ptr k)
    (hext : ∀ p, s.k.kheap.InUse p → (s.k.kheap.pagerefs p).IsBlock ptr →
      (∀ a ∈ (dropBlock s.heapLive ptr).map Prod.fst, ¬ (s.k.kheap.pagerefs p).IsBlock a) →
      s.k.pages.Ruled ∧ s.k.pages.Extent (s.k.kheap.pagerefs p).pageaddr 1) :
    Inv { s with k := k, blocks := dropBlock s.blocks ptr } := by
  have htree (p : Nat) (hpu : s.k.kheap.InUse p) (hblk : (s.k.kheap.pagerefs p).IsBlock ptr)
      (x : Nat) (hx : s.TreeMem x) : freedMem (s.k.kheap.pagerefs p) s.k.mem ptr x = s.k.mem x := by
    have h16 : 16 ≤ (s.k.kheap.pagerefs p).size :=
      (blockSize_cases (hi.heap.page p hpu).sized).1
    apply freedMem_of_outside (by omega)
    by_contra hin
    exact hi.block_not_treeMem hpu hblk (hi.blocks_spaces hp) (by omega) (by omega) hx
  cases ho with
  | kept p off n hpu hblk hsome hinv =>
      rw [hi.heapLive_drop hp] at hinv
      refine ⟨hi.ok, hinv, hi.placed.sub fun o b k ho => ?_, hi.keys,
        given_congr (s := s) hi rfl rfl (htree p hpu hblk)⟩
      cases o with
      | heapPage q =>
          obtain ⟨hq, hqa, hk⟩ := ho
          rw [setCounters_pageaddr] at hqa
          exact ⟨hq, hqa, hk⟩
      | table => exact ho
      | kernel c => exact ho
      | space as q =>
          exact (holds_space_congr (s := s) (t := ⟨⟨_, freedMem (s.k.kheap.pagerefs p) s.k.mem ptr,
            _⟩, s.kpages, _, s.spaces, s.got⟩) rfl (htree p hpu hblk)).mp ho
  | returned p kh hpu hblk hnone huse hpab hinv =>
      obtain ⟨hr, he⟩ := hext p hpu hblk hnone
      have hrel : Pmem.Released s.k.pages
          (vmSupply.freeKpages (s.k.kheap.pagerefs p).pageaddr s.k.pages) _ 1 := he.released hr
      generalize vmSupply.freeKpages (s.k.kheap.pagerefs p).pageaddr s.k.pages = pm at *
      rw [hi.heapLive_drop hp] at hinv
      refine ⟨.inr hrel.ruled, hinv, ?_, hi.keys,
        given_congr (s := s) hi rfl rfl (htree p hpu hblk)⟩
      refine hi.placed.release hrel (o := .heapPage p) ⟨hpu, rfl, rfl⟩ fun o b k ho => ?_
      cases o with
      | table => exact ⟨holds_table_of_released hrel he.1 ho, by simp⟩
      | kernel c => exact ⟨ho, by simp⟩
      | heapPage q =>
          obtain ⟨hq, hqa, hk⟩ := ho
          obtain ⟨hne, hq⟩ := (huse q).mp hq
          have haddr : (kh.pagerefs q).pageaddr = (s.k.kheap.pagerefs q).pageaddr := by
            simp only [Pageref.pageaddr, hpab q]
          exact ⟨⟨hq, haddr.symm.trans hqa, hk⟩, by simpa using hne⟩
      | space as q =>
          exact ⟨(holds_space_congr (s := s) (t := ⟨⟨kh, freedMem (s.k.kheap.pagerefs p) s.k.mem ptr,
            pm⟩, s.kpages, _, s.spaces, s.got⟩) rfl (htree p hpu hblk)).mp ho, by simp⟩

private theorem Inv.boot (hi : Inv s) (hpre : s.k.pages.PreBoot) {pm : Pmem} (hruled : pm.Ruled)
    (htaken : ∀ b k, s.k.pages.Taken b k → pm.Taken b k)
    (htable : 1 < pm.systemPages →
      pm.Extent (mipsKseg0 + pm.lo) (Pmem.tablePages pm.systemPages))
    (hlo : pm.lo = s.k.pages.firstpaddr) : Inv { s with k := { s.k with pages := pm } } := by
  have hnone (b k : Nat) : ¬ s.k.pages.Extent b k := by
    intro he
    have hb := he.1
    rw [hpre.raw] at hb
    cases hb
  have hbelow (o : Owner) (b k : Nat) (ho : s.Holds o b k) :
      b + k * pageSize ≤ mipsKseg0 + pm.lo := by
    obtain ⟨_, _, _, hhi⟩ := (hi.placed.taken o b k ho).resolve_right (hnone b k)
    have hfloor : s.k.pages.floor = s.k.pages.firstpaddr := by simp [Pmem.floor, hpre.raw]
    rwa [hfloor, ← hlo] at hhi
  have hold (o : Owner) (b k : Nat) (ho : Holds { s with k := { s.k with pages := pm } } o b k) :
      (o = .table ∧ pm.Extent b k ∧ b = mipsKseg0 + pm.lo) ∨ s.Holds o b k := by
    cases o with
    | table =>
        obtain ⟨_, h1, rfl, rfl⟩ := ho
        exact .inl ⟨rfl, htable h1, rfl⟩
    | kernel c => exact .inr ho
    | heapPage p => exact .inr ho
    | space as q => exact .inr ho
  refine ⟨.inr hruled, hi.heap, ⟨?_, ?_, ?_⟩, hi.keys, hi.given⟩
  · intro o b k ho
    rcases hold o b k ho with ⟨_, hext, _⟩ | ho
    · exact .inr hext
    · exact htaken b k (hi.placed.taken o b k ho)
  · intro o o' b k c l ho ho' hne
    rcases hold o b k ho with ⟨rfl, _, rfl⟩ | ho
    · rcases hold o' c l ho' with ⟨rfl, _, _⟩ | ho'
      · exact absurd rfl hne
      · exact .inr (hbelow o' c l ho')
    · rcases hold o' c l ho' with ⟨rfl, _, rfl⟩ | ho'
      · exact .inl (hbelow o b k ho)
      · exact hi.placed.apart o o' b k c l ho ho' hne
  · intro as q b k ho
    rcases hold _ b k ho with ⟨he, _, _⟩ | ho
    · cases he
    · exact absurd (hi.placed.extent as q b k ho).2 (hnone b 1)

theorem Inv.bootstrap (hi : Inv s) (hb : s.k.pages.bootstrapped = false) :
    Inv { s with k := { s.k with pages := s.k.pages.vmBootstrap } } := by
  have hpre : s.k.pages.PreBoot := by
    cases hi.ok with
    | inl hp => exact hp
    | inr hr =>
        rw [hr.booted] at hb
        cases hb
  obtain ⟨hruled, htaken, htable⟩ := hpre.bootstrapped_ruled
  exact hi.boot hpre hruled htaken htable hpre.vmBootstrap_lo

end Vm

end CseOs.Kernel
