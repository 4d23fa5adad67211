import CseOs.Kernel.Vm.Walk

/-!
# Making and destroying an address space

`as_create` takes a block of the heap and a page for the page table. `as_destroy` walks the tree
of the page table and gives every page back, and then the block. The block may be the last one
in its page of the heap, and then that page goes back as well.
-/

namespace CseOs.Kernel

open Framework KernelSt

def nodeSlots (hi : Nat) : List SpacePage :=
  (List.range ptFanout).map (SpacePage.user hi) ++ [.node hi]

def spaceSlots : List SpacePage := (List.range ptFanout).flatMap nodeSlots ++ [.pageTable]

def spacePages (m : ByteStore) (pt : Nat) : List Nat := spaceSlots.filterMap (treePage m pt)

/-- Release one page after the other. -/
def Pmem.freeAll (l : List Nat) (pm : Pmem) : Pmem := l.foldl (fun pm a => pm.freeKpages a) pm

section

variable {m : ByteStore} {pt a f hi mid : Nat} {q : SpacePage}

private theorem mem_nodeSlots :
    q ∈ nodeSlots hi ↔ q = .node hi ∨ ∃ mid, mid < ptFanout ∧ q = .user hi mid := by
  simp only [nodeSlots, List.mem_append, List.mem_map, List.mem_range, List.mem_singleton]
  constructor
  · intro h
    cases h with
    | inl h =>
        obtain ⟨mid, hmid, rfl⟩ := h
        exact .inr ⟨mid, hmid, rfl⟩
    | inr h => exact .inl h
  · intro h
    cases h with
    | inl h => exact .inr h
    | inr h =>
        obtain ⟨mid, hmid, rfl⟩ := h
        exact .inl ⟨mid, hmid, rfl⟩

private theorem mem_spaceSlots_of_treePage (h : treePage m pt q = some a) : q ∈ spaceSlots := by
  simp only [spaceSlots, List.mem_append, List.mem_flatMap, List.mem_range, List.mem_singleton,
    mem_nodeSlots]
  cases q with
  | pageTable => exact .inr rfl
  | node hi =>
      simp only [treePage] at h
      split at h
      case isTrue hin => exact .inl ⟨hi, hin.1, .inl rfl⟩
      case isFalse => cases h
  | user hi mid =>
      simp only [treePage] at h
      split at h
      case isTrue hin => exact .inl ⟨hi, hin.1, .inr ⟨mid, hin.2.1, rfl⟩⟩
      case isFalse => cases h

private theorem spaceSlots_nodup : spaceSlots.Nodup := by
  have hnode (hi : Nat) : (nodeSlots hi).Nodup := by
    refine List.nodup_append.mpr ⟨?_, List.nodup_singleton _, ?_⟩
    · exact List.nodup_range.map fun i j h => (SpacePage.user.inj h).2
    · intro p hp q hq hpq
      obtain ⟨mid, _, rfl⟩ := List.mem_map.mp hp
      rw [List.mem_singleton.mp hq] at hpq
      cases hpq
  refine List.nodup_append.mpr ⟨?_, List.nodup_singleton _, ?_⟩
  · refine List.nodup_flatMap.mpr ⟨fun hi _ => hnode hi, ?_⟩
    apply List.nodup_range.imp
    intro i j hij q hq hq'
    rcases mem_nodeSlots.mp hq with rfl | ⟨mid, _, rfl⟩
    · rcases mem_nodeSlots.mp hq' with h | ⟨mid, _, h⟩
      · exact hij (SpacePage.node.inj h)
      · cases h
    · rcases mem_nodeSlots.mp hq' with h | ⟨mid', _, h⟩
      · cases h
      · exact hij (SpacePage.user.inj h).1
  · intro p hp q hq hpq
    obtain ⟨hi, _, hp⟩ := List.mem_flatMap.mp hp
    rw [List.mem_singleton.mp hq] at hpq
    subst hpq
    rcases mem_nodeSlots.mp hp with h | ⟨mid, _, h⟩
    · cases h
    · cases h

private theorem mem_spacePages : a ∈ spacePages m pt ↔ ∃ q, treePage m pt q = some a := by
  rw [spacePages, List.mem_filterMap]
  constructor
  · rintro ⟨q, _, hq⟩
    exact ⟨q, hq⟩
  · rintro ⟨q, hq⟩
    exact ⟨q, mem_spaceSlots_of_treePage hq, hq⟩

private theorem freeKpages_frame (hf : f < 2 ^ 31) (pm : Pmem) :
    pm.freeKpages (mipsKseg0 + f) = pm.freePpages f := by
  have hpa : kvaddrToPaddr (mipsKseg0 + f) = f := by
    simp only [kvaddrToPaddr, mipsKseg0]
    omega
  rw [Pmem.freeKpages, hpa]

variable (hframes : ∀ hi mid, hi < ptFanout → mid < ptFanout → ptFrame m pt hi mid < 2 ^ 31)

include hframes

private theorem ptNodeDestroy_eq {k : KernelSt} (hm : k.mem = m) (hhi : hi < ptFanout)
    (hn : ptNode m pt hi ≠ 0) : ptNodeDestroy (ptNode m pt hi) k =
      { k with pages := Pmem.freeAll ((nodeSlots hi).filterMap (treePage m pt)) k.pages } := by
  have hlast : treePage m pt (.node hi) = some (ptNode m pt hi) := if_pos ⟨hhi, hn⟩
  have hloop : (List.range ptFanout).foldl (fun pm i =>
      if k.mem.word (ptNode m pt hi + 4 * i) ≠ 0 then
        pm.freePpages (k.mem.word (ptNode m pt hi + 4 * i)) else pm) k.pages =
      Pmem.freeAll (((List.range ptFanout).map (SpacePage.user hi)).filterMap (treePage m pt))
        k.pages := by
    rw [Pmem.freeAll, List.filterMap_map, List.foldl_filterMap]
    apply List.foldl_ext
    intro pm mid hmem
    have hmid := List.mem_range.mp hmem
    have hword : k.mem.word (ptNode m pt hi + 4 * mid) = ptFrame m pt hi mid := by
      rw [hm, ptFrame, if_neg hn]
    have hlt := hframes hi mid hhi hmid
    rw [hword]
    by_cases h0 : ptFrame m pt hi mid = 0
    · simp [treePage, h0]
    · simp [treePage, h0, hhi, hmid, freeKpages_frame hlt]
  rw [ptNodeDestroy, hloop, nodeSlots, List.filterMap_append, Pmem.freeAll, Pmem.freeAll,
    List.foldl_append]
  simp only [List.filterMap_cons, hlast, List.filterMap_nil, List.foldl_cons, List.foldl_nil]

private theorem ptDestroy_loop (l : List Nat) (hl : ∀ i ∈ l, i < ptFanout) {k : KernelSt}
    (hm : k.mem = m) : l.foldl (fun k i =>
      if k.mem.word (pt + 4 * i) ≠ 0 then ptNodeDestroy (k.mem.word (pt + 4 * i)) k else k) k =
      { k with pages := Pmem.freeAll ((l.flatMap nodeSlots).filterMap (treePage m pt)) k.pages } := by
  induction l generalizing k with
  | nil => rfl
  | cons i l ih =>
      have hi := hl i List.mem_cons_self
      have hword : k.mem.word (pt + 4 * i) = ptNode m pt i := by rw [hm, ptNode]
      simp only [List.foldl_cons, List.flatMap_cons, List.filterMap_append, hword]
      by_cases h0 : ptNode m pt i = 0
      · have hnone : (nodeSlots i).filterMap (treePage m pt) = [] := by
          apply List.filterMap_eq_nil_iff.mpr
          intro q hq
          rcases mem_nodeSlots.mp hq with rfl | ⟨mid, _, rfl⟩
          · simp [treePage, h0]
          · simp [treePage, ptFrame, h0]
        simp only [h0, ne_eq, not_true, if_false, hnone, List.nil_append]
        exact ih (fun j hj => hl j (List.mem_cons_of_mem i hj)) hm
      · rw [if_pos h0, ptNodeDestroy_eq hframes hm hi h0]
        refine (ih (fun j hj => hl j (List.mem_cons_of_mem i hj)) ?_).trans ?_
        · exact hm
        · simp only [Pmem.freeAll, List.foldl_append]

theorem ptDestroy_eq {k : KernelSt} (hm : k.mem = m) :
    ptDestroy pt k = { k with pages := Pmem.freeAll (spacePages m pt) k.pages } := by
  have hroot : treePage m pt .pageTable = some pt := rfl
  simp only [ptDestroy]
  rw [ptDestroy_loop hframes _ (fun i hi => List.mem_range.mp hi) hm]
  simp only [spacePages, spaceSlots, List.filterMap_append, List.filterMap_cons, hroot,
    List.filterMap_nil, Pmem.freeAll, List.foldl_append, List.foldl_cons, List.foldl_nil]

end

/-- What releasing the single pages `l` leaves. -/
structure ReleasedAll (pm pm' : Pmem) (l : List Nat) : Prop where
  ruled : pm'.Ruled
  lo : pm'.lo = pm.lo
  systemPages : pm'.systemPages = pm.systemPages
  log : ∃ js : List Nat, l = js.map pm.kvPage ∧
    pm'.trace = pm.trace ++ js.map fun j => PageEvent.free j 1
  ipt : ∀ i, pm'.ipt i = if pm.kvPage i ∈ l then 0 else pm.ipt i
  extents : ∀ b k, pm.Extent b k → (∀ a ∈ l, RangesApart a 1 b k) → pm'.Extent b k

namespace ReleasedAll

variable {pm pm' pm'' : Pmem} {l l' : List Nat} {a : Nat}

private theorem kvPage_congr (h : pm'.lo = pm.lo) : pm'.kvPage = pm.kvPage := by
  funext j
  simp only [Pmem.kvPage, Pmem.pageAddr, h]

private theorem nil (hr : pm.Ruled) : ReleasedAll pm pm [] where
  ruled := hr
  lo := rfl
  systemPages := rfl
  log := ⟨[], rfl, by simp⟩
  ipt i := by simp
  extents b k h _ := h

private theorem single (h : Pmem.Released pm pm' a 1) : ReleasedAll pm pm' [a] := by
  obtain ⟨j, rfl, htrace, hipt⟩ := h.log
  refine ⟨h.ruled, h.lo, h.pages, ⟨[j], rfl, htrace⟩, fun i => ?_,
    fun b k hb hap => h.extents b k hb (hap _ (List.mem_singleton_self _))⟩
  rw [hipt]
  by_cases hij : i = j
  · simp [hij]
  · have hne : pm.kvPage i ≠ pm.kvPage j := fun he => hij (Pmem.kvPage_injective he)
    simp [RunTable.mark_of_ne hij, hne]

private theorem append (h : ReleasedAll pm pm' l) (h' : ReleasedAll pm' pm'' l') :
    ReleasedAll pm pm'' (l ++ l') := by
  have hkv := kvPage_congr h.lo
  obtain ⟨js, hl, htrace⟩ := h.log
  obtain ⟨js', hl', htrace'⟩ := h'.log
  refine ⟨h'.ruled, h'.lo.trans h.lo, h'.systemPages.trans h.systemPages, ⟨js ++ js', ?_, ?_⟩,
    fun i => ?_, fun b k hb hap => ?_⟩
  · rw [List.map_append, ← hl, ← hkv, ← hl']
  · rw [htrace', htrace, List.map_append, List.append_assoc]
  · rw [h'.ipt, h.ipt, hkv]
    by_cases hin : pm.kvPage i ∈ l
    · simp [hin]
    · simp [hin]
  · apply h'.extents b k
    · exact h.extents b k hb fun a ha => hap a (List.mem_append_left l' ha)
    · exact fun a ha => hap a (List.mem_append_right l ha)

end ReleasedAll

namespace Vm

variable {s : Vm} {as : Nat}

theorem Inv.releaseAll {l : List Nat} {rest : List (Nat × Nat)} (hi : Inv s)
    (hb : s.k.pages.bootstrapped = true) (hk : s.kpages = l.map (fun a => (a, 1)) ++ rest)
    (hext : ∀ a ∈ l, s.k.pages.Extent a 1) :
    ReleasedAll s.k.pages (Pmem.freeAll l s.k.pages) l ∧ Inv { s with
      k := { s.k with pages := Pmem.freeAll l s.k.pages }
      kpages := rest } := by
  induction l generalizing s with
  | nil =>
      simp only [List.map_nil, List.nil_append] at hk
      subst hk
      exact ⟨ReleasedAll.nil (hi.ruled_of_booted hb), hi⟩
  | cons a l ih =>
      have hrul := hi.ruled_of_booted hb
      have hrel := (hext a List.mem_cons_self).released hrul
      have hmem : (a, 1) ∈ s.kpages := by
        rw [hk]
        exact List.mem_cons_self
      have hkeys := hi.keys
      rw [hk, List.map_cons, List.cons_append, List.map_cons] at hkeys
      have hdrop : dropBlock s.kpages a = l.map (fun a => (a, 1)) ++ rest := by
        rw [hk, List.map_cons, List.cons_append]
        exact dropBlock_cons_self (List.nodup_cons.mp hkeys).1
      have hi' := hi.releaseKernel hmem hb hrel
      rw [hdrop] at hi'
      have hrest (b : Nat) (hbl : b ∈ l) : (s.k.pages.freeKpages a).Extent b 1 := by
        apply hrel.extents b 1 (hext b (List.mem_cons_of_mem a hbl))
        have hne : a ≠ b := by
          rintro rfl
          apply (List.nodup_cons.mp hkeys).1
          rw [List.map_append, List.mem_append]
          exact .inl (by simpa using hbl)
        have hbk : (b, 1) ∈ s.kpages := by
          rw [hk]
          exact List.mem_append_left rest (List.mem_map.mpr ⟨b, List.mem_cons_of_mem a hbl, rfl⟩)
        exact hi.placed.apart (.kernel a) (.kernel b) a 1 b 1 ⟨rfl, hmem⟩ ⟨rfl, hbk⟩ (by simp [hne])
      have hih := ih hi' hrel.ruled.booted rfl hrest
      exact ⟨(ReleasedAll.single hrel).append hih.1, hih.2⟩

/-- `kfree` gives back no page that was stolen before `vm_bootstrap`. -/
def ReleasesManaged (s : Vm) (ptr : Nat) : Prop :=
  ∀ a, s.k.releasedPage ptr = some a →
    s.k.pages.bootstrapped = true ∧ mipsKseg0 + s.k.pages.lo ≤ a

/-- A page taken at or above `lo` is a run of the inverted page table. -/
theorem Inv.extent_of_taken (hi : Inv s) {a n : Nat} (ht : s.k.pages.Taken a n)
    (hb : s.k.pages.bootstrapped = true) (hlo : mipsKseg0 + s.k.pages.lo ≤ a) :
    s.k.pages.Ruled ∧ s.k.pages.Extent a n := by
  refine ⟨hi.ruled_of_booted hb, ht.resolve_left fun hs => ?_⟩
  obtain ⟨_, _, hn, hhi⟩ := hs
  simp only [Pmem.floor, hb, if_true, pageSize] at hhi
  omega

/-- The heap page that goes with its last block is a run of the inverted page table. -/
theorem Inv.released_extent (hi : Inv s) {ptr p : Nat} (hg : s.ReleasesManaged ptr)
    (hlive : ptr ∈ s.heapLive.map Prod.fst) (hp : s.k.kheap.InUse p)
    (hblk : (s.k.kheap.pagerefs p).IsBlock ptr)
    (hnone : ∀ a ∈ (dropBlock s.heapLive ptr).map Prod.fst,
      ¬ (s.k.kheap.pagerefs p).IsBlock a) :
    s.k.pages.Ruled ∧ s.k.pages.Extent (s.k.kheap.pagerefs p).pageaddr 1 := by
  obtain ⟨hb, hlo⟩ := hg _ (hi.heap.releasedPage_last hp hblk hlive hnone)
  exact hi.extent_of_taken (hi.placed.taken (.heapPage p) _ 1 ⟨hp, rfl, rfl⟩) hb hlo

/-- The block is the last live one in its page of the heap, which starts at `a`. -/
def LastBlock (s : Vm) (ptr a : Nat) : Prop :=
  ∃ p, s.k.kheap.InUse p ∧ (s.k.kheap.pagerefs p).IsBlock ptr ∧
    (s.k.kheap.pagerefs p).pageaddr = a ∧
    ∀ b ∈ s.heapLive.map Prod.fst, b ≠ ptr → ¬ (s.k.kheap.pagerefs p).IsBlock b

private theorem Inv.frame_lt (hi : Inv s) (has : as ∈ s.spaces) (i j : Nat) (hin : i < ptFanout)
    (hjn : j < ptFanout) : ptFrame s.k.mem (asPt s.k.mem as) i j < 2 ^ 31 := by
  by_cases h0 : ptFrame s.k.mem (asPt s.k.mem as) i j = 0
  · rw [h0]
    exact Nat.two_pow_pos 31
  · have hext := (hi.placed.extent as (.user i j) _ 1 ⟨has, if_pos ⟨hin, hjn, h0⟩, rfl⟩).2
    have := (hext.inside (hi.ruled_of_booted (hi.booted_of_space has))).2.2
    simp only [mipsKseg0, pageSize] at this
    omega

private theorem Inv.spacePages_nodup (hi : Inv s) (has : as ∈ s.spaces) :
    (spacePages s.k.mem (asPt s.k.mem as)).Nodup := by
  refine List.Nodup.filterMap ?_ spaceSlots_nodup
  intro q q' a hq hq'
  by_contra hne
  have := hi.placed.apart (.space as q) (.space as q') a 1 a 1 ⟨has, hq, rfl⟩ ⟨has, hq', rfl⟩
    (by simpa using hne)
  simp only [RangesApart, pageSize] at this
  omega

theorem Inv.got_perm (hi : Inv s) (has : as ∈ s.spaces) :
    (spacePages s.k.mem (asPt s.k.mem as)).Perm (s.got as) := by
  obtain ⟨hnd, hmem⟩ := hi.given as has
  apply (List.perm_ext_iff_of_nodup (hi.spacePages_nodup has) hnd).mpr
  intro a
  rw [mem_spacePages, hmem a]

/-- `kfree` of a block gives back at most the page of the heap that the block leaves empty. -/
theorem Inv.kfreeBlock (hi : Inv s) {ptr : Nat} (hp : ptr ∈ s.blocks.map Prod.fst)
    (hg : s.ReleasesManaged ptr) :
    ∃ k, HeapSt.kfree vmSupply ptr s.k = some k ∧
      Inv { s with k := k, blocks := dropBlock s.blocks ptr } ∧
      (k.pages = s.k.pages ∧ (∀ a, ¬ s.LastBlock ptr a) ∨
        ∃ a, s.LastBlock ptr a ∧ Pmem.Released s.k.pages k.pages a 1) := by
  have hlive : ptr ∈ s.heapLive.map Prod.fst := by
    rw [heapLive, List.map_append]
    exact List.mem_append_left _ hp
  have hne : ptr ≠ 0 := by
    obtain ⟨b, hb, rfl⟩ := List.mem_map.mp hlive
    have := hi.heap.block_pos hb
    omega
  obtain ⟨k, hrun, hout⟩ := hi.heap.subpageKfree_spec vmSupply hlive
  have hext := fun p => hi.released_extent (p := p) hg hlive
  have hres : HeapSt.kfree vmSupply ptr s.k = some k := by
    simp only [HeapSt.kfree, if_neg hne, hrun, Option.bind_eq_bind, Option.bind_some, if_true]
    rfl
  refine ⟨k, hres, hi.kfreeSub hp hout hext, ?_⟩
  cases hout with
  | kept p off n hpu hblk hsome hinv =>
      refine .inl ⟨rfl, ?_⟩
      rintro a ⟨p', hp', hblk', _, hnone⟩
      have hpp : p' = p :=
        hi.heap.page_unique hp' hpu hblk'.1 hblk'.2.1 hblk.1 hblk.2.1
      subst hpp
      obtain ⟨b, hbm, hbb⟩ := hsome
      obtain ⟨hbl, hba⟩ := mem_dropBlock_fst.mp hbm
      exact hnone b hbl hba hbb
  | returned p kh hpu hblk hnone huse hpab hinv =>
      obtain ⟨hrul, he⟩ := hext p hpu hblk hnone
      refine .inr ⟨_, ⟨p, hpu, hblk, rfl, fun b hb hne => ?_⟩, ?_⟩
      · exact hnone b (mem_dropBlock_fst.mpr ⟨hb, hne⟩)
      · simp only [vmSupply]
        exact he.released hrul

private theorem mem_heapLive_dissolved (hi : Inv s) (has : as ∈ s.spaces) {l : List (Nat × Nat)}
    {k : KernelSt} {b : Nat} :
    b ∈ (heapLive ⟨k, l, (as, addrspaceSize) :: s.blocks, s.spaces.erase as, s.got⟩).map Prod.fst ↔
      b ∈ s.heapLive.map Prod.fst := by
  simp only [heapLive, List.map_append, List.map_map, List.map_cons, List.mem_append,
    List.mem_cons, Function.comp_def, List.map_id']
  constructor
  · rintro ((rfl | hb) | hb)
    · exact .inr has
    · exact .inl hb
    · exact .inr (List.mem_of_mem_erase hb)
  · rintro (hb | hb)
    · exact .inl (.inr hb)
    · by_cases hba : b = as
      · exact .inl (.inl hba)
      · exact .inr (hi.spaces_nodup.mem_erase_iff.mpr ⟨hba, hb⟩)

private theorem Inv.destroyTree (hi : Inv s) (has : as ∈ s.spaces) :
    ∃ pm freed, ptDestroy (asPt s.k.mem as) s.k = { s.k with pages := pm } ∧
      ReleasedAll s.k.pages pm freed ∧ freed.Perm (s.got as) ∧
      Inv ⟨{ s.k with pages := pm }, s.kpages, (as, addrspaceSize) :: s.blocks,
        s.spaces.erase as, s.got⟩ := by
  have hb := hi.booted_of_space has
  have hperm := hi.got_perm has
  have hds := ptDestroy_eq (hi.frame_lt has) (k := s.k) rfl
  have hnd := hi.spacePages_nodup has
  have hmem (a : Nat) : a ∈ spacePages s.k.mem (asPt s.k.mem as) ↔ _ := mem_spacePages
  generalize spacePages s.k.mem (asPt s.k.mem as) = l at hperm hds hnd hmem
  obtain ⟨hrel, hi₁⟩ := (hi.dissolve has hnd hmem).releaseAll hb rfl fun a ha => by
    obtain ⟨q, hq⟩ := (hmem a).mp ha
    exact (hi.placed.extent as q a 1 ⟨has, hq, rfl⟩).2
  exact ⟨_, l, hds, hrel, hperm, hi₁⟩

/-- `as_destroy` gives back the pages the address space was given, and the page of the heap that
its block leaves empty. -/
theorem Inv.asDestroy (hi : Inv s) (has : as ∈ s.spaces) (hg : s.ReleasesManaged as) :
    ∃ k freed, KernelSt.asDestroy as s.k = some k ∧ ReleasedAll s.k.pages k.pages freed ∧
      Inv { s with k := k, spaces := s.spaces.erase as } ∧
      (freed.Perm (s.got as) ∧ (∀ a, ¬ s.LastBlock as a) ∨
        ∃ a, s.LastBlock as a ∧ freed.Perm (s.got as ++ [a])) := by
  obtain ⟨pm, freed, hds, hrel, hperm, hi₁⟩ := hi.destroyTree has
  have hdrop : dropBlock ((as, addrspaceSize) :: s.blocks) as = s.blocks :=
    dropBlock_cons_self fun h => hi.blocks_spaces h has
  have hsame : HeapSt.releasedPage as ⟨s.k.kheap, s.k.mem, pm⟩ = _ :=
    HeapSt.releasedPage_congr rfl as
  have hlast (a : Nat) : LastBlock ⟨⟨s.k.kheap, s.k.mem, pm⟩, s.kpages,
      (as, addrspaceSize) :: s.blocks, s.spaces.erase as, s.got⟩ as a ↔ s.LastBlock as a := by
    simp only [LastBlock, mem_heapLive_dissolved hi has]
  obtain ⟨k, hrun, hi₂, hcase⟩ := hi₁.kfreeBlock List.mem_cons_self fun a ha => by
    refine ⟨hrel.ruled.booted, ?_⟩
    show mipsKseg0 + pm.lo ≤ a
    rw [hrel.lo]
    exact (hg a (hsame.symm.trans ha)).2
  simp only [hdrop] at hi₂
  have hres : KernelSt.asDestroy as s.k = some k := by
    rw [KernelSt.asDestroy, hds]
    exact hrun
  cases hcase with
  | inl h =>
      obtain ⟨hpages, hnot⟩ := h
      have hpm : k.pages = pm := hpages
      refine ⟨k, freed, hres, hpm ▸ hrel, hi₂, .inl ⟨hperm, fun a ha => hnot a ?_⟩⟩
      exact (hlast a).mpr ha
  | inr h =>
      obtain ⟨a, ha, hr⟩ := h
      exact ⟨k, freed ++ [a], hres, hrel.append (.single hr), hi₂,
        .inr ⟨a, (hlast a).mp ha, hperm.append_right _⟩⟩

/-- `kmalloc` of a block, when a page that it needs can be granted: null when no page reference is
left, else a block, from a page of the heap or from a new one. -/
theorem Inv.kmallocBlock (hi : Inv s) {sz : Nat} (hsz : sz < largestSubpageSize)
    (hfit : s.k.wantsPage sz = true → s.k.pages.Fits 1) :
    ∃ ptr k, HeapSt.kmalloc vmSupply sz s.k = some (ptr, k) ∧
      Inv { s with k := k, blocks := recordBlock ptr sz s.blocks } ∧
      (s.k.heapFull sz = true ∧ ptr = 0 ∧ k = s.k ∨
        s.k.heapFull sz = false ∧ ptr ≠ 0 ∧
          (s.k.wantsPage sz = false ∧ k.pages = s.k.pages ∨
            s.k.wantsPage sz = true ∧ ∃ a, Pmem.Granted s.k.pages k.pages a 1)) := by
  have hgrant (h : s.k.wantsPage sz = true) : Pmem.Granted s.k.pages
      (vmSupply.allocKpages 1 s.k.pages).2 (vmSupply.allocKpages 1 s.k.pages).1 1 :=
    hi.ok.allocKpages_granted (by decide) (hfit h)
  have hfresh (h : s.k.wantsPage sz = true) : (vmSupply.allocKpages 1 s.k.pages).1 = 0 ∨
      FreshPage s.k.kheap (vmSupply.allocKpages 1 s.k.pages).1 := by
    have hg := hgrant h
    obtain ⟨hlo, hal, _, hhi⟩ := hg.taken.bounds hg.ok
    simp only [mipsKseg0, pageSize] at hlo hhi
    refine .inr ⟨by omega, hal, ?_, fun q hq he => ?_⟩
    · simp only [pageSize]
      omega
    · have := (hg.others _ 1 (hi.placed.taken (.heapPage q) _ 1 ⟨hq, rfl, rfl⟩)).2
      simp only [RangesApart, pageSize, he] at this
      omega
  obtain ⟨ptr, k, hrun, hout⟩ := hi.heap.subpageKmalloc_spec vmSupply hsz hfresh
  have hno : ¬ largestSubpageSize ≤ sz := by omega
  refine ⟨ptr, k, by rw [HeapSt.kmalloc, if_neg hno, hrun], hi.kmallocSub hout hfit, ?_⟩
  cases hout with
  | taken p ptr off n hwants hfull hp hblk hinv =>
      have := hinv.block_pos List.mem_cons_self
      exact .inr ⟨hfull, by omega, .inl ⟨hwants, rfl⟩⟩
  | made p ptr kh m hwants hpos hp hpin huse hsame haddr hblk hmem hinv =>
      have := hinv.block_pos List.mem_cons_self
      have hg := hgrant hwants
      refine .inr ⟨HeapSt.heapFull_of_wantsPage hwants, by omega, .inr ⟨hwants, ?_⟩⟩
      generalize vmSupply.allocKpages 1 s.k.pages = r at hg ⊢
      exact ⟨r.1, hg⟩
  | refused hwants hz =>
      have hg := hgrant hwants
      have hpos := (hg.taken.bounds hg.ok).1
      rw [hz] at hpos
      simp only [mipsKseg0] at hpos
      omega
  | full _ hfull => exact .inl ⟨hfull, rfl, rfl⟩

/-- There is room for the pages `as_create` asks for, unless it gives up before. -/
def CreateRoom (s : Vm) : Prop :=
  s.k.heapFull addrspaceSize = false →
    (s.k.wantsPage addrspaceSize = true → s.k.pages.RoomForTwo) ∧ s.k.pages.HasRoom 1

private theorem Inv.newSpace {s : Vm} (hi : Inv s) (hb : s.k.pages.bootstrapped = true) {as : Nat}
    {blocks : List (Nat × Nat)} (hblocks : s.blocks = (as, addrspaceSize) :: blocks)
    {a : Nat} {pm : Pmem} (hg : Pmem.Granted s.k.pages pm a 1) {m : ByteStore}
    (hm : m = (((s.k.mem.fill as 20 0).fill a pageSize 0).setWord (as + 20) a)) :
    asPt m as = a ∧ Inv ⟨{ s.k with mem := m, pages := pm }, s.kpages, blocks, as :: s.spaces,
      Function.update s.got as [a]⟩ := by
  have hmem : (as, addrspaceSize) ∈ s.blocks := by
    rw [hblocks]
    exact List.mem_cons_self
  have hi₁ := hi.grantKernel hg (by decide)
  have hbounds := hg.taken.bounds hg.ok
  have ha32 : a < 2 ^ 32 := by
    simp only [pageSize] at hbounds
    omega
  have hsize : addrspaceSize = 24 := rfl
  have hinside (x : Nat) : as ≤ x → x < as + 24 → Writable { s with
      k := { s.k with pages := pm }, kpages := (a, 1) :: s.kpages } x := fun hlo hhi =>
    .inl ⟨(as, addrspaceSize), hmem, hlo, by simp only [hsize]; omega⟩
  have hi₂ := hi₁.store (m := m) fun x hx => by
    rw [hm, ByteStore.setWord_of_outside, ByteStore.fill_of_outside, ByteStore.fill_of_outside]
    · by_contra hno
      exact hx (hinside x (by omega) (by omega))
    · by_contra hno
      exact hx (.inr (.inl ⟨(a, 1), List.mem_cons_self, by simp only; omega, by simp only; omega⟩))
    · by_contra hno
      exact hx (hinside x (by omega) (by omega))
  obtain ⟨p, hp, hblk, hbt⟩ := hi.heap.inside (as, addrspaceSize) (List.mem_append_left _ hmem)
  have hsz := (blocktypeOf_spec hbt).2
  have hend := hblk.end_le (hi.heap.page p hp).sized
  have hlo := hblk.1
  have hap := (hg.others _ 1 (hi.placed.taken (.heapPage p) _ 1 ⟨hp, rfl, rfl⟩)).2
  have hsize' : blockSize (s.k.kheap.pagerefs p).blocktype = (s.k.kheap.pagerefs p).size := rfl
  simp only [hsize, RangesApart] at hsz hend hlo hap
  have hpt : asPt m as = a := by
    rw [asPt, hm]
    exact ByteStore.word_setWord_self _ _ ha32
  have hkeys := (List.nodup_cons.mp hi₁.keys).1
  have hbkeys : as ∉ blocks.map Prod.fst := by
    have hnd := hi.heap.nodup
    rw [heapLive, hblocks, List.map_append, List.map_cons] at hnd
    exact (List.nodup_cons.mp (List.nodup_append.mp hnd).1).1
  have hi₃ := hi₂.adopt hmem hpt List.mem_cons_self (hg.extent hb) (by
    intro i hin
    show m.word (a + 4 * i) = 0
    simp only [ptFanout, pageSize] at *
    rw [hm, ByteStore.word_setWord_of_disjoint (by omega)]
    exact ByteStore.word_fill_zero (by omega) (by omega))
  simp only [writeMem, dropBlock_cons_self hkeys, hblocks, dropBlock_cons_self hbkeys] at hi₃
  exact ⟨hpt, hi₃⟩

private theorem asCreate_null {k k' : KernelSt}
    (h : HeapSt.kmalloc vmSupply addrspaceSize k = some (0, k')) :
    KernelSt.asCreate k = some (0, k') := by
  rw [KernelSt.asCreate, h, Option.bind_some]
  exact if_pos rfl

private theorem clear_fields (m : ByteStore) (as : Nat) : clearWords m as 5 = m.fill as 20 0 :=
  clearWords_eq m as 5

/-- `as_create` when it gets its block and its page table. -/
theorem asCreate_of_granted {k k' : KernelSt} {as : Nat}
    (h : HeapSt.kmalloc vmSupply addrspaceSize k = some (as, k')) (has : as ≠ 0)
    (hpt : (k'.pages.allocKpages 1).1 ≠ 0) :
    KernelSt.asCreate k =
      some (as, linkPage (as + 20) { k' with mem := k'.mem.fill as 20 0 }) := by
  have htable := tableCreate_of_granted (k := { k' with mem := k'.mem.fill as 20 0 }) hpt
  simp only [KernelSt.asCreate, h, Option.bind_some, if_neg has, asSetup, clear_fields, ptCreate,
    htable, if_neg hpt]
  rfl

/-- `as_create` makes an address space with an empty page table, or null when no page reference is
left for its block. -/
theorem Inv.asCreate (hi : Inv s) (hb : s.k.pages.bootstrapped = true) (hroom : s.CreateRoom) :
    (s.k.heapFull addrspaceSize = true ∧ KernelSt.asCreate s.k = some (0, s.k)) ∨
    ∃ as k, KernelSt.asCreate s.k = some (as, k) ∧ as ≠ 0 ∧ as ∉ s.spaces ∧
      Pmem.Quiet s.k.pages k.pages ∧ Inv { s with
        k := k
        spaces := as :: s.spaces
        got := Function.update s.got as [asPt k.mem as] } := by
  have hfit (h : s.k.wantsPage addrspaceSize = true) : s.k.pages.Fits 1 := by
    simp only [Pmem.Fits, hb, if_true]
    exact (hroom (HeapSt.heapFull_of_wantsPage h)).2
  obtain ⟨as, k, hrun, hi₁, hcase⟩ := hi.kmallocBlock (by decide) hfit
  rcases hcase with ⟨hfull, rfl, rfl⟩ | ⟨hfull, hne, hpages⟩
  · exact .inl ⟨hfull, asCreate_null hrun⟩
  · right
    have hrec : recordBlock as addrspaceSize s.blocks = (as, addrspaceSize) :: s.blocks :=
      if_neg hne
    rw [hrec] at hi₁
    have hafter : k.pages.bootstrapped = true ∧ k.pages.HasRoom 1 ∧
        Pmem.Quiet s.k.pages k.pages := by
      cases hpages with
      | inl h =>
          rw [h.2]
          exact ⟨hb, (hroom hfull).2, .of_eq rfl⟩
      | inr h =>
          obtain ⟨hwants, a, hg⟩ := h
          exact ⟨hg.booted.trans hb, ((hroom hfull).1 hwants).after_grant hg hb, hg.quiet⟩
    obtain ⟨hbk, hroomk, hquiet⟩ := hafter
    have hg : Pmem.Granted k.pages _ _ 1 :=
      (hi₁.ruled_of_booted hbk).allocKpages_granted (by decide) hroomk
    generalize hr : k.pages.allocKpages 1 = r at hg
    obtain ⟨a, pm⟩ := r
    simp only at hg
    have ha0 : a ≠ 0 := by
      have := (hg.taken.bounds hg.ok).1
      simp only [pageSize] at this
      omega
    obtain ⟨hpt, hi₂⟩ := hi₁.newSpace hbk rfl hg rfl
    generalize hm : ((k.mem.fill as 20 0).fill a pageSize 0).setWord (as + 20) a = m at hpt hi₂
    refine ⟨as, ⟨k.kheap, m, pm⟩, ?_, hne, fun has => ?_, hquiet.trans hg.quiet, ?_⟩
    · rw [asCreate_of_granted hrun hne (by rwa [hr]), ← hm, linkPage, hr]
    · exact hi₁.blocks_spaces List.mem_cons_self has
    · simp only [hpt]
      exact hi₂

end Vm

end CseOs.Kernel
