import CseOs.Kernel.Vm.Transfer

/-!
# Walking a page table

`walk_pt` adds at most a node and a page to the tree of one address space. A failure of the
second allocation leaves the new node behind and comes back as `ENOMEM`. A failure of the first
one is not seen by the code, so there must be room for it.
-/

namespace CseOs.Kernel

open Framework KernelSt

section

variable {m : ByteStore} {pt a f hi mid : Nat}

theorem clearWords_eq (m : ByteStore) (a n : Nat) : clearWords m a n = m.fill a (4 * n) 0 :=
  ByteStore.foldl_setWord_zero m a n

private theorem nPages_table : nPages (4 * ptFanout) = 1 := by decide

theorem zeroPage_eq (hf : f < 0x20000000) :
    zeroPage m f = m.fill (mipsKseg0 + f) pageSize 0 := by
  rw [← ByteStore.foldl_update_zero]
  apply List.foldl_ext
  intro m' i hi
  have hlt : i < pageSize := List.mem_range.mp hi
  have haddr : paddrToKvaddr (f + i) = mipsKseg0 + f + i := by
    simp only [paddrToKvaddr, mipsKseg0, pageSize] at *
    omega
  rw [haddr]

namespace KernelSt

variable {k k' : KernelSt} {as slot node ft fa : Nat}

/-- A page is taken, cleared, and its address stored at `slot`. -/
def linkPage (slot : Nat) (k : KernelSt) : KernelSt :=
  let r := k.pages.allocKpages 1
  ⟨k.kheap, (k.mem.fill r.1 pageSize 0).setWord slot r.1, r.2⟩

theorem tableCreate_of_granted (ha : (k.pages.allocKpages 1).1 ≠ 0) :
    k.tableCreate = ((k.pages.allocKpages 1).1,
      ⟨k.kheap, k.mem.fill (k.pages.allocKpages 1).1 pageSize 0, (k.pages.allocKpages 1).2⟩) := by
  simp only [tableCreate, nPages_table, if_neg ha, clearWords_eq]
  rfl

private theorem walkNode_linkPage (h0 : k.mem.word (pt + 4 * hi) = 0)
    (ha : (k.pages.allocKpages 1).1 ≠ 0) :
    walkNode pt hi k = (true, k.linkPage (pt + 4 * hi)) := by
  simp only [walkNode, if_pos h0, ptNodeCreate, tableCreate_of_granted ha, if_neg ha]
  rfl

/-- A page is taken, cleared through its kernel address, and its frame stored at `slot`. -/
def mapPage (slot : Nat) (k : KernelSt) : KernelSt :=
  let r := k.pages.allocPpages 1
  ⟨k.kheap, (k.mem.fill (mipsKseg0 + r.1) pageSize 0).setWord slot r.1, r.2⟩

theorem walkLeaf_mapPage (h0 : k.mem.word (k.mem.word (pt + 4 * hi) + 4 * mid) = 0)
    (hf0 : (k.pages.allocPpages 1).1 ≠ 0) (hf29 : (k.pages.allocPpages 1).1 < 0x20000000)
    (hnode : (k.mem.fill (mipsKseg0 + (k.pages.allocPpages 1).1) pageSize 0).word (pt + 4 * hi) =
      node)
    (hkeep : (k.mapPage (node + 4 * mid)).mem.word (pt + 4 * hi) = node) :
    walkLeaf pt hi mid k = ((k.pages.allocPpages 1).1, k.mapPage (node + 4 * mid)) := by
  have hf32 : (k.pages.allocPpages 1).1 < 2 ^ 32 := by omega
  simp only [mapPage] at hkeep
  simp only [walkLeaf, if_pos h0, if_neg hf0, zeroPage_eq hf29, hnode, hkeep,
    ByteStore.word_setWord_self _ _ hf32]
  rfl

private theorem walkLeaf_refused (h0 : k.mem.word (k.mem.word (pt + 4 * hi) + 4 * mid) = 0)
    (hr : (k.pages.allocPpages 1).1 = 0) :
    walkLeaf pt hi mid k = (0, { k with pages := (k.pages.allocPpages 1).2 }) := by
  simp only [walkLeaf, if_pos h0, if_pos hr]

theorem vmFault_of_walk (hft : ft = vmFaultRead ∨ ft = vmFaultWrite) (has : as ≠ 0)
    (hacc : asCheckAccess k.mem as (roundDown fa) = 0)
    (hwalk : walkPt (asPt k.mem as) (roundDown fa) k = (f, k')) :
    vmFault ft fa as k = some (if f = 0 then (enomem, none, k')
      else (0, some (roundDown fa, f ||| tlbloDirty ||| tlbloValid), k')) := by
  have hro : ft ≠ vmFaultReadonly := by rcases hft with rfl | rfl <;> decide
  have hkind : ¬ (ft ≠ vmFaultRead ∧ ft ≠ vmFaultWrite) := by rcases hft with rfl | rfl <;> decide
  simp only [vmFault, if_neg hro, if_neg hkind, if_neg has, hacc, ne_eq, not_true, if_false, hwalk]
  split <;> rfl

private theorem walkPt_linkPage (hslot : pt + 4 * hiOf fa = slot) (h0 : k.mem.word slot = 0)
    (ha : (k.pages.allocKpages 1).1 ≠ 0) :
    walkPt pt fa k = walkLeaf pt (hiOf fa) (midOf fa) (k.linkPage slot) := by
  subst hslot
  simp only [walkPt, walkNode_linkPage h0 ha, if_true]

/-- The fault is not turned away, and its address lies below an empty slot of the page table for
which there is a page. -/
abbrev FreshNode (k : KernelSt) (as fa slot : Nat) : Prop :=
  as ≠ 0 ∧ asCheckAccess k.mem as (roundDown fa) = 0 ∧
    asPt k.mem as + 4 * hiOf (roundDown fa) = slot ∧ k.mem.word slot = 0 ∧
    (k.pages.allocKpages 1).1 ≠ 0 ∧
    (k.linkPage slot).mem.word ((k.linkPage slot).mem.word slot + 4 * midOf (roundDown fa)) = 0

/-- There is no page left to map. -/
theorem FreshNode.vmFault_refused (h : FreshNode k as fa slot)
    (hft : ft = vmFaultRead ∨ ft = vmFaultWrite)
    (hr : ((k.linkPage slot).pages.allocPpages 1).1 = 0) :
    vmFault ft fa as k = some (enomem, none,
      { k.linkPage slot with pages := ((k.linkPage slot).pages.allocPpages 1).2 }) := by
  obtain ⟨has, hacc, rfl, h0, ha, hleaf⟩ := h
  have hwalk := walkPt_linkPage rfl h0 ha
  rw [walkLeaf_refused hleaf hr] at hwalk
  rw [vmFault_of_walk hft has hacc hwalk, if_pos rfl]

/-- A page is mapped below the new node. -/
theorem FreshNode.vmFault_mapPage (h : FreshNode k as fa slot)
    (hft : ft = vmFaultRead ∨ ft = vmFaultWrite) (hf0 : f ≠ 0) (hf29 : f < 0x20000000)
    (hr : ((k.linkPage slot).pages.allocPpages 1).1 = f)
    (hnode : ((k.linkPage slot).mem.fill (mipsKseg0 + f) pageSize 0).word slot = node)
    (hkeep : ((k.linkPage slot).mapPage (node + 4 * midOf (roundDown fa))).mem.word slot = node) :
    vmFault ft fa as k = some (0, some (roundDown fa, f ||| tlbloDirty ||| tlbloValid),
      (k.linkPage slot).mapPage (node + 4 * midOf (roundDown fa))) := by
  obtain ⟨has, hacc, rfl, h0, ha, hleaf⟩ := h
  subst hr
  have hwalk := walkPt_linkPage rfl h0 ha
  rw [walkLeaf_mapPage hleaf hf0 hf29 hnode hkeep] at hwalk
  rw [vmFault_of_walk hft has hacc hwalk, if_neg hf0]

end KernelSt

theorem treePage_link_node (hhi : hi < ptFanout) (h0 : ptNode m pt hi = 0) (ha : a ≠ 0)
    (ha32 : a < 2 ^ 32) (hz : ∀ i, i < ptFanout → m.word (a + 4 * i) = 0)
    (hap : RangesApart pt 1 a 1)
    (hnodes : ∀ i, i < ptFanout → ptNode m pt i ≠ 0 → RangesApart pt 1 (ptNode m pt i) 1)
    (q : SpacePage) : treePage (m.setWord (pt + 4 * hi) a) pt q =
      if q = .node hi then some a else treePage m pt q := by
  have hself : ptNode (m.setWord (pt + 4 * hi) a) pt hi = a :=
    ByteStore.word_setWord_self m _ ha32
  have hother (i : Nat) (hi' : i ≠ hi) :
      ptNode (m.setWord (pt + 4 * hi) a) pt i = ptNode m pt i :=
    ByteStore.word_setWord_of_disjoint (by omega)
  simp only [ptFanout] at hhi hz
  cases q with
  | pageTable => rfl
  | node i =>
      by_cases he : i = hi
      · subst he
        simp [treePage, hself, ptFanout, hhi, ha]
      · simp [treePage, hother i he, he]
  | user i mid =>
      simp only [treePage, reduceCtorEq, if_false]
      by_cases hin : i < ptFanout ∧ mid < ptFanout
      · have hfr : ptFrame (m.setWord (pt + 4 * hi) a) pt i mid = ptFrame m pt i mid := by
          simp only [ptFrame]
          simp only [ptFanout, RangesApart, pageSize] at *
          by_cases he : i = hi
          · subst he
            rw [hself, if_neg ha, if_pos h0]
            rw [ByteStore.word_setWord_of_disjoint (by omega)]
            exact hz mid hin.2
          · rw [hother i he]
            by_cases hn : ptNode m pt i = 0
            · rw [if_pos hn, if_pos hn]
            · rw [if_neg hn, if_neg hn]
              have := hnodes i hin.1 hn
              exact ByteStore.word_setWord_of_disjoint (by omega)
        rw [hfr]
      · have hno (P : Prop) : ¬ (i < ptFanout ∧ mid < ptFanout ∧ P) := fun h => hin ⟨h.1, h.2.1⟩
        rw [if_neg (hno _), if_neg (hno _)]

theorem treePage_link_user (hhi : hi < ptFanout) (hmid : mid < ptFanout)
    (hn : ptNode m pt hi ≠ 0) (hf : f ≠ 0) (hf32 : f < 2 ^ 32)
    (hap : RangesApart pt 1 (ptNode m pt hi) 1)
    (hnodes : ∀ i, i < ptFanout → i ≠ hi → ptNode m pt i ≠ 0 →
      RangesApart (ptNode m pt i) 1 (ptNode m pt hi) 1)
    (q : SpacePage) : treePage (m.setWord (ptNode m pt hi + 4 * mid) f) pt q =
      if q = .user hi mid then some (mipsKseg0 + f) else treePage m pt q := by
  have hnode (i : Nat) (hi' : i < ptFanout) :
      ptNode (m.setWord (ptNode m pt hi + 4 * mid) f) pt i = ptNode m pt i := by
    apply ByteStore.word_setWord_of_disjoint
    simp only [ptFanout, RangesApart, pageSize] at *
    omega
  cases q with
  | pageTable => rfl
  | node i =>
      simp only [treePage, reduceCtorEq, if_false]
      by_cases hi' : i < ptFanout
      · rw [hnode i hi']
      · simp [hi']
  | user i j =>
      by_cases hin : i < ptFanout ∧ j < ptFanout
      · by_cases he : i = hi ∧ j = mid
        · obtain ⟨rfl, rfl⟩ := he
          have hfr : ptFrame (m.setWord (ptNode m pt i + 4 * j) f) pt i j = f := by
            rw [ptFrame, hnode i hhi, if_neg hn]
            exact ByteStore.word_setWord_self m _ hf32
          simp [treePage, hfr, hin, hf]
        · have hne : SpacePage.user i j ≠ .user hi mid := fun h => he (by cases h; exact ⟨rfl, rfl⟩)
          have hfr : ptFrame (m.setWord (ptNode m pt hi + 4 * mid) f) pt i j =
              ptFrame m pt i j := by
            rw [ptFrame, ptFrame, hnode i hin.1]
            by_cases hni : ptNode m pt i = 0
            · rw [if_pos hni, if_pos hni]
            · rw [if_neg hni, if_neg hni]
              apply ByteStore.word_setWord_of_disjoint
              by_cases hih : i = hi
              · subst hih
                have hjm : j ≠ mid := fun h => he ⟨rfl, h⟩
                omega
              · have := hnodes i hin.1 hih hni
                simp only [ptFanout, RangesApart, pageSize] at *
                omega
          rw [if_neg hne]
          simp only [treePage, hfr]
      · have hno (P : Prop) : ¬ (i < ptFanout ∧ j < ptFanout ∧ P) := fun h => hin ⟨h.1, h.2.1⟩
        have hne : SpacePage.user i j ≠ .user hi mid := by
          intro h
          cases h
          exact hin ⟨hhi, hmid⟩
        simp only [treePage, if_neg hne]
        rw [if_neg (hno _), if_neg (hno _)]

end

/-- The page a call of the allocator granted. -/
def grantOf (pm : Pmem) : PageEvent → Option Nat
  | .alloc page _ => some (pm.kvPage page)
  | _ => none

private theorem grantOf_congr {pm pm' : Pmem} (h : pm'.lo = pm.lo) : grantOf pm' = grantOf pm := by
  funext e
  cases e <;> simp [grantOf, Pmem.kvPage, Pmem.pageAddr, h]

namespace Vm

variable {s : Vm} {as hi mid : Nat}

/-- The pages a sequence of calls granted. -/
def grantedPages (s : Vm) (evs : List PageEvent) : List Nat := evs.filterMap (grantOf s.k.pages)

/-- What a walk for the address space `as` does that makes the calls `evs`. -/
structure WalkEffect (s : Vm) (as : Nat) (k : KernelSt) (evs : List PageEvent) : Prop where
  inv : Inv { s with
    k := k
    got := Function.update s.got as (s.got as ++ s.grantedPages evs) }
  kheap : k.kheap = s.k.kheap
  log : k.pages.trace = s.k.pages.trace ++ evs
  lo : k.pages.lo = s.k.pages.lo
  systemPages : k.pages.systemPages = s.k.pages.systemPages
  pt : asPt k.mem as = asPt s.k.mem as
  mem : ∀ x, k.mem x = s.k.mem x ∨ TreeByte s.k.mem (asPt s.k.mem as) x ∨
    ∃ a ∈ s.grantedPages evs, a ≤ x ∧ x < a + pageSize
  taken : ∀ b n, s.k.pages.Taken b n → k.pages.Taken b n
  extents : ∀ b n, s.k.pages.Extent b n → k.pages.Extent b n
  fresh : ∀ a ∈ s.grantedPages evs, ∀ b n, s.k.pages.Taken b n → RangesApart a 1 b n
  kept : ∀ q a, treePage s.k.mem (asPt s.k.mem as) q = some a →
    treePage k.mem (asPt k.mem as) q = some a
  grown : ∀ q a, treePage k.mem (asPt k.mem as) q = some a →
    treePage s.k.mem (asPt s.k.mem as) q = some a ∨ a ∈ s.grantedPages evs

private theorem WalkEffect.refl (hi : Inv s) (as : Nat) : WalkEffect s as s.k [] where
  inv := by
    simp only [grantedPages, List.filterMap_nil, List.append_nil, Function.update_eq_self]
    exact hi
  kheap := rfl
  log := (List.append_nil _).symm
  lo := rfl
  systemPages := rfl
  pt := rfl
  mem _ := .inl rfl
  taken _ _ h := h
  extents _ _ h := h
  fresh _ h := absurd h List.not_mem_nil
  kept _ _ h := h
  grown _ _ h := .inl h

private theorem WalkEffect.trans {k k' : KernelSt} {evs evs' : List PageEvent}
    (h : WalkEffect s as k evs)
    (h' : WalkEffect { s with
      k := k
      got := Function.update s.got as (s.got as ++ s.grantedPages evs) } as k' evs') :
    WalkEffect s as k' (evs ++ evs') := by
  have hpages : s.grantedPages (evs ++ evs') = s.grantedPages evs ++ grantedPages { s with
      k := k
      got := Function.update s.got as (s.got as ++ s.grantedPages evs) } evs' := by
    simp only [grantedPages, List.filterMap_append, grantOf_congr h.lo]
  refine ⟨?_, h'.kheap.trans h.kheap, ?_, h'.lo.trans h.lo, h'.systemPages.trans h.systemPages,
    h'.pt.trans h.pt, ?_, fun b n hb => h'.taken b n (h.taken b n hb),
    fun b n hb => h'.extents b n (h.extents b n hb), ?_,
    fun q a hq => h'.kept q a (h.kept q a hq), ?_⟩
  · have hinv := h'.inv
    rw [hpages]
    simp only [Function.update_self, Function.update_idem, List.append_assoc] at hinv
    exact hinv
  · rw [h'.log]
    show k.pages.trace ++ evs' = s.k.pages.trace ++ (evs ++ evs')
    rw [h.log, List.append_assoc]
  · intro x
    rw [hpages]
    rcases h'.mem x with hx | ⟨q, a, hq, hqa, hlo, hhi⟩ | ⟨a, ha, hlo, hhi⟩
    · rcases h.mem x with hx' | htree | ⟨a, ha, hb⟩
      · exact .inl (hx.trans hx')
      · exact .inr (.inl htree)
      · exact .inr (.inr ⟨a, List.mem_append_left _ ha, hb⟩)
    · cases h.grown q a hqa with
      | inl hold => exact .inr (.inl ⟨q, a, hq, hold, hlo, hhi⟩)
      | inr hnew => exact .inr (.inr ⟨a, List.mem_append_left _ hnew, hlo, hhi⟩)
    · exact .inr (.inr ⟨a, List.mem_append_right _ ha, hlo, hhi⟩)
  · intro a ha b n hb
    rw [hpages] at ha
    cases List.mem_append.mp ha with
    | inl hl => exact h.fresh a hl b n hb
    | inr hl => exact h'.fresh a hl b n (h.taken b n hb)
  · intro q a hq
    rw [hpages]
    cases h'.grown q a hq with
    | inl hk =>
        cases h.grown q a hk with
        | inl hs => exact .inl hs
        | inr hl => exact .inr (List.mem_append_left _ hl)
    | inr hl => exact .inr (List.mem_append_right _ hl)

theorem Inv.booted_of_space (hi : Inv s) (has : as ∈ s.spaces) :
    s.k.pages.bootstrapped = true := (hi.placed.extent as .pageTable _ 1 ⟨has, rfl, rfl⟩).2.1

theorem Inv.ruled_of_booted (hi : Inv s) (hb : s.k.pages.bootstrapped = true) :
    s.k.pages.Ruled := by
  cases hi.ok with
  | inl hp =>
      rw [hp.raw] at hb
      cases hb
  | inr hr => exact hr

private theorem Inv.fill_same (hi : Inv s) (has : as ∈ s.spaces) {a x : Nat} {pm : Pmem}
    (hg : Pmem.Granted s.k.pages pm a 1) (hx : TreeByte s.k.mem (asPt s.k.mem as) x) :
    s.k.mem.fill a pageSize 0 x = s.k.mem x := by
  obtain ⟨q, b, _, hq, hlo, hhi⟩ := treeByte_held has hx
  have := (hg.others b 1 (hi.placed.taken _ b 1 hq)).2
  simp only [RangesApart] at this
  exact ByteStore.fill_of_outside (by omega)

private theorem Inv.link (hi : Inv s) (has : as ∈ s.spaces) {a : Nat} {pm : Pmem}
    (hg : Pmem.Granted s.k.pages pm a 1) (q₀ : SpacePage) {m : ByteStore}
    (hold : treePage s.k.mem (asPt s.k.mem as) q₀ = none)
    (hm : ∀ x, ¬ TreeByte s.k.mem (asPt s.k.mem as) x → m x = s.k.mem.fill a pageSize 0 x)
    (hlink : ∀ q, treePage m (asPt s.k.mem as) q = if q = q₀ then some a else
      treePage (s.k.mem.fill a pageSize 0) (asPt s.k.mem as) q) :
    ∃ evs, WalkEffect s as { s.k with mem := m, pages := pm } evs ∧
      (∀ n, PageEvent.nospace n ∉ evs) ∧
      ∀ q, q ≠ q₀ → treePage m (asPt s.k.mem as) q = treePage s.k.mem (asPt s.k.mem as) q := by
  have hb := hi.booted_of_space has
  obtain ⟨j, haj, _, htrace, _⟩ := hg.log hb
  have hpages : s.grantedPages [.alloc j 1] = [a] := by simp [grantedPages, grantOf, haj]
  have hi₁ := hi.grantKernel hg (by decide)
  have hkeys := (List.nodup_cons.mp hi₁.keys).1
  have hi₂ := hi₁.store (m := s.k.mem.fill a pageSize 0) fun x hx => by
    apply ByteStore.fill_of_outside
    by_contra hin
    exact hx (.inr (.inl ⟨(a, 1), List.mem_cons_self, by simp only; omega, by simp only; omega⟩))
  have hpt : asPt (s.k.mem.fill a pageSize 0) as = asPt s.k.mem as := by
    apply ByteStore.word_congr
    intro x hlo hhi
    obtain ⟨p, hp, hblk, _, hend⟩ := hi.space_block has
    have hplo := hblk.1
    have := (hg.others _ 1 (hi.placed.taken (.heapPage p) _ 1 ⟨hp, rfl, rfl⟩)).2
    simp only [RangesApart] at this
    exact ByteStore.fill_of_outside (by omega)
  have htree₂ (q : SpacePage) : treePage (s.k.mem.fill a pageSize 0) (asPt s.k.mem as) q =
      treePage s.k.mem (asPt s.k.mem as) q := treePage_congr (fun _ => hi.fill_same has hg) q
  have htree (q : SpacePage) : treePage m (asPt s.k.mem as) q =
      if q = q₀ then some a else treePage s.k.mem (asPt s.k.mem as) q := by
    rw [hlink q, htree₂ q]
  have hbyte (x : Nat) : TreeByte (s.k.mem.fill a pageSize 0) (asPt s.k.mem as) x ↔
      TreeByte s.k.mem (asPt s.k.mem as) x := by
    simp only [TreeByte, htree₂]
  have hi₃ := Inv.graft (m := m) hi₂ has List.mem_cons_self (hg.extent hb)
    (by
      intro x hx
      refine hm x fun ht => hx ?_
      show TreeByte (s.k.mem.fill a pageSize 0) (asPt (s.k.mem.fill a pageSize 0) as) x
      rw [hpt, hbyte]
      exact ht)
    (by
      show treePage (s.k.mem.fill a pageSize 0) (asPt (s.k.mem.fill a pageSize 0) as) q₀ = none
      rw [hpt, htree₂]
      exact hold)
    (by
      intro q
      show treePage m (asPt (s.k.mem.fill a pageSize 0) as) q = if q = q₀ then some a else
        treePage (s.k.mem.fill a pageSize 0) (asPt (s.k.mem.fill a pageSize 0) as) q
      rw [hpt]
      exact hlink q)
  have hkp : dropBlock ((a, 1) :: s.kpages) a = s.kpages := dropBlock_cons_self hkeys
  simp only [writeMem, hkp] at hi₃
  have hasPt : asPt m as = asPt s.k.mem as := by
    rw [← hpt]
    apply ByteStore.word_congr
    intro x hlo hhi
    exact hm x (hi.struct_not_treeByte has has (by omega) (by omega))
  refine ⟨[.alloc j 1], ⟨?_, rfl, htrace, hg.lo, hg.pages, hasPt, ?_,
    fun b n h => (hg.others b n h).1, hg.extents, ?_, ?_, ?_⟩, fun n => by simp,
    fun q hq => by rw [htree q, if_neg hq]⟩
  · rw [hpages]
    exact hi₃
  · intro x
    by_cases ht : TreeByte s.k.mem (asPt s.k.mem as) x
    · exact .inr (.inl ht)
    · by_cases hin : a ≤ x ∧ x < a + pageSize
      · exact .inr (.inr ⟨a, by rw [hpages]; exact List.mem_singleton_self a, hin⟩)
      · left
        show m x = s.k.mem x
        rw [hm x ht]
        exact ByteStore.fill_of_outside (by omega)
  · intro b hba c n hc
    rw [hpages] at hba
    rw [List.mem_singleton.mp hba]
    exact (hg.others c n hc).2
  · intro q b hq
    have hne : q ≠ q₀ := by
      rintro rfl
      rw [hold] at hq
      cases hq
    rw [hasPt, htree q, if_neg hne]
    exact hq
  · intro q b hq
    rw [hasPt, htree q] at hq
    by_cases hqq : q = q₀
    · rw [if_pos hqq] at hq
      cases hq
      exact .inr (by rw [hpages]; exact List.mem_singleton_self a)
    · rw [if_neg hqq] at hq
      exact .inl hq

private theorem WalkEffect.refused (hi : Inv s) (has : as ∈ s.spaces) {pm : Pmem}
    (hr : Pmem.Refused s.k.pages pm 1) :
    WalkEffect s as { s.k with pages := pm } [.nospace 1] where
  inv := by
    have hnone : s.grantedPages [.nospace 1] = [] := rfl
    simp only [hnone, List.append_nil, Function.update_eq_self]
    exact hi.refuse hr (hi.booted_of_space has)
  kheap := rfl
  log := hr.log
  lo := hr.lo
  systemPages := hr.pages
  pt := rfl
  mem _ := .inl rfl
  taken b n h := (hr.taken b n).mpr h
  extents b n h := (hr.extents b n).mpr h
  fresh _ h := absurd h List.not_mem_nil
  kept _ _ h := h
  grown _ _ h := .inl h

private theorem Inv.nodes_apart (hi : Inv s) (has : as ∈ s.spaces) {i : Nat} (hin : i < ptFanout)
    (hn : ptNode s.k.mem (asPt s.k.mem as) i ≠ 0) :
    RangesApart (asPt s.k.mem as) 1 (ptNode s.k.mem (asPt s.k.mem as) i) 1 ∧
      ∀ j, j < ptFanout → j ≠ i → ptNode s.k.mem (asPt s.k.mem as) j ≠ 0 →
        RangesApart (ptNode s.k.mem (asPt s.k.mem as) j) 1
          (ptNode s.k.mem (asPt s.k.mem as) i) 1 := by
  have hnode (j : Nat) (hj : j < ptFanout) (hnj : ptNode s.k.mem (asPt s.k.mem as) j ≠ 0) :
      s.Holds (.space as (.node j)) (ptNode s.k.mem (asPt s.k.mem as) j) 1 :=
    ⟨has, if_pos ⟨hj, hnj⟩, rfl⟩
  refine ⟨?_, fun j hj hji hnj => ?_⟩
  · exact hi.placed.apart (.space as .pageTable) (.space as (.node i)) _ 1 _ 1 ⟨has, rfl, rfl⟩
      (hnode i hin hn) (by simp)
  · exact hi.placed.apart (.space as (.node j)) (.space as (.node i)) _ 1 _ 1 (hnode j hj hnj)
      (hnode i hin hn) (by simp [hji])

theorem Inv.walkNode (hi : Inv s) (has : as ∈ s.spaces) {i : Nat} (hin : i < ptFanout)
    (hroom : ptNode s.k.mem (asPt s.k.mem as) i = 0 → s.k.pages.HasRoom 1) :
    ∃ k evs, KernelSt.walkNode (asPt s.k.mem as) i s.k = (true, k) ∧ WalkEffect s as k evs ∧
      (∀ n, PageEvent.nospace n ∉ evs) ∧ ptNode k.mem (asPt s.k.mem as) i ≠ 0 ∧
      ∀ q, q ≠ .node i →
        treePage k.mem (asPt s.k.mem as) q = treePage s.k.mem (asPt s.k.mem as) q := by
  by_cases h0 : ptNode s.k.mem (asPt s.k.mem as) i = 0
  · have hb := hi.booted_of_space has
    have hg := (hi.ruled_of_booted hb).allocKpages_granted (by decide) (hroom h0)
    generalize hr : s.k.pages.allocKpages 1 = r at hg
    obtain ⟨a, pm⟩ := r
    have hbounds := hg.taken.bounds hg.ok
    have hbase : 0 < mipsKseg0 := by decide
    have ha0 : a ≠ 0 := by omega
    have ha32 : a < 2 ^ 32 := by
      simp only [pageSize] at hbounds
      omega
    have hword : s.k.mem.word (asPt s.k.mem as + 4 * i) = 0 := h0
    have hsame (x : Nat) (hx : TreeByte s.k.mem (asPt s.k.mem as) x) :=
      hi.fill_same has hg hx
    have hnode (j : Nat) (hj : j < ptFanout) : ptNode (s.k.mem.fill a pageSize 0)
        (asPt s.k.mem as) j = ptNode s.k.mem (asPt s.k.mem as) j := ptNode_congr hsame hj
    have hpta : RangesApart (asPt s.k.mem as) 1 a 1 :=
      (hg.others _ 1 (hi.placed.taken (.space as .pageTable) _ 1 ⟨has, rfl, rfl⟩)).2.symm
    obtain ⟨evs, heff, hquiet, hrest⟩ := hi.link has hg (.node i)
      (m := (s.k.mem.fill a pageSize 0).setWord (asPt s.k.mem as + 4 * i) a) (by
        have hno : ¬ (i < ptFanout ∧ ptNode s.k.mem (asPt s.k.mem as) i ≠ 0) := fun h => h.2 h0
        exact if_neg hno)
      (by
        intro x hx
        apply ByteStore.setWord_of_outside
        by_contra hno
        apply hx
        refine ⟨.pageTable, _, fun _ _ => by simp, rfl, by omega, ?_⟩
        simp only [ptFanout, pageSize] at *
        omega)
      (by
        intro q
        apply treePage_link_node hin _ ha0 ha32 _ hpta
        · intro j hj hnj
          rw [hnode j hj] at hnj ⊢
          exact (hi.nodes_apart has hj hnj).1
        · exact (hnode i hin).trans h0
        · intro j hj
          apply ByteStore.word_fill_zero (by omega)
          simp only [ptFanout, pageSize] at *
          omega)
    refine ⟨_, evs, ?_, heff, hquiet, ?_, hrest⟩
    · rw [walkNode_linkPage hword (by rwa [hr]), linkPage, hr]
    · have hself : ptNode ((s.k.mem.fill a pageSize 0).setWord (asPt s.k.mem as + 4 * i) a)
          (asPt s.k.mem as) i = a := ByteStore.word_setWord_self _ _ ha32
      rw [hself]
      exact ha0
  · have hword : ¬ s.k.mem.word (asPt s.k.mem as + 4 * i) = 0 := h0
    exact ⟨s.k, [], by simp only [KernelSt.walkNode, if_neg hword], WalkEffect.refl hi as,
      fun _ => List.not_mem_nil, h0, fun _ _ => rfl⟩

/-- The byte range of a frame in kernel segment 0 holds zeros only. -/
def ZeroFrame (m : ByteStore) (f : Nat) : Prop :=
  ∀ x, mipsKseg0 + f ≤ x → x < mipsKseg0 + f + pageSize → m x = 0

theorem Inv.walkLeaf (hi : Inv s) (has : as ∈ s.spaces) {i j : Nat} (hin : i < ptFanout)
    (hjn : j < ptFanout) (hn : ptNode s.k.mem (asPt s.k.mem as) i ≠ 0) :
    ∃ f k evs, KernelSt.walkLeaf (asPt s.k.mem as) i j s.k = (f, k) ∧ WalkEffect s as k evs ∧
      ptFrame k.mem (asPt s.k.mem as) i j = f ∧ (f ≠ 0 → ∀ n, PageEvent.nospace n ∉ evs) ∧
      (f = 0 ↔ ptFrame s.k.mem (asPt s.k.mem as) i j = 0 ∧ ¬ s.k.pages.HasRoom 1) ∧
      (∀ q, q ≠ .user i j →
        treePage k.mem (asPt s.k.mem as) q = treePage s.k.mem (asPt s.k.mem as) q) ∧
      (ptFrame s.k.mem (asPt s.k.mem as) i j = 0 → f ≠ 0 → ZeroFrame k.mem f) := by
  have hb := hi.booted_of_space has
  have hrul := hi.ruled_of_booted hb
  have hframe : ptFrame s.k.mem (asPt s.k.mem as) i j =
      s.k.mem.word (s.k.mem.word (asPt s.k.mem as + 4 * i) + 4 * j) := if_neg hn
  by_cases h0 : ptFrame s.k.mem (asPt s.k.mem as) i j = 0
  · have hword : s.k.mem.word (s.k.mem.word (asPt s.k.mem as + 4 * i) + 4 * j) = 0 :=
      hframe.symm.trans h0
    by_cases hroom : s.k.pages.HasRoom 1
    · have hg := hrul.allocKpages_granted (by decide) hroom
      obtain ⟨hf0, hf29, hfa, hpm⟩ := hrul.allocPpages_granted (by decide) hroom
      rw [← hfa, ← hpm] at hg
      generalize hr : s.k.pages.allocPpages 1 = r at hf0 hf29 hg
      obtain ⟨f, pm⟩ := r
      simp only at hf0 hf29 hg
      have hf32 : f < 2 ^ 32 := by omega
      have hsame (x : Nat) (hx : TreeByte s.k.mem (asPt s.k.mem as) x) :=
        hi.fill_same has hg hx
      have hnode (c : Nat) (hc : c < ptFanout) : ptNode (s.k.mem.fill (mipsKseg0 + f) pageSize 0)
          (asPt s.k.mem as) c = ptNode s.k.mem (asPt s.k.mem as) c := ptNode_congr hsame hc
      have hnode' : (s.k.mem.fill (mipsKseg0 + f) pageSize 0).word (asPt s.k.mem as + 4 * i) =
          ptNode s.k.mem (asPt s.k.mem as) i := hnode i hin
      have hap := hi.nodes_apart has hin hn
      have hkeep : ((s.k.mem.fill (mipsKseg0 + f) pageSize 0).setWord
          (ptNode s.k.mem (asPt s.k.mem as) i + 4 * j) f).word (asPt s.k.mem as + 4 * i) =
          ptNode s.k.mem (asPt s.k.mem as) i := by
        rw [ByteStore.word_setWord_of_disjoint, hnode']
        have hsep := hap.1
        simp only [ptFanout, RangesApart, pageSize] at *
        omega
      obtain ⟨evs, heff, hquiet, hrest⟩ := hi.link has hg (.user i j)
        (m := (s.k.mem.fill (mipsKseg0 + f) pageSize 0).setWord
          (ptNode s.k.mem (asPt s.k.mem as) i + 4 * j) f) (by
          have hno : ¬ (i < ptFanout ∧ j < ptFanout ∧
              ptFrame s.k.mem (asPt s.k.mem as) i j ≠ 0) := fun h => h.2.2 h0
          exact if_neg hno)
        (by
          intro x hx
          apply ByteStore.setWord_of_outside
          by_contra hno
          apply hx
          refine ⟨.node i, _, fun _ _ => by simp, if_pos ⟨hin, hn⟩, by omega, ?_⟩
          simp only [ptFanout, pageSize] at *
          omega)
        (by
          intro q
          rw [← hnode i hin]
          apply treePage_link_user hin hjn _ hf0 hf32
          · rw [hnode i hin]
            exact hap.1
          · intro c hc hci hnc
            rw [hnode c hc] at hnc ⊢
            rw [hnode i hin]
            exact hap.2 c hc hci hnc
          · rw [hnode i hin]
            exact hn)
      refine ⟨f, _, evs, ?_, heff, ?_, fun _ => hquiet, ?_, hrest, fun _ _ => ?_⟩
      · have hfirst : (s.k.pages.allocPpages 1).1 = f := congrArg Prod.fst hr
        have hlow : (s.k.pages.allocPpages 1).1 < 0x20000000 := hfirst ▸ hf29
        have hmap : s.k.mapPage (ptNode s.k.mem (asPt s.k.mem as) i + 4 * j) =
            ⟨s.k.kheap, (s.k.mem.fill (mipsKseg0 + f) pageSize 0).setWord
              (ptNode s.k.mem (asPt s.k.mem as) i + 4 * j) f, pm⟩ := by
          rw [mapPage, hr]
        have hcleared : (s.k.mem.fill (mipsKseg0 + (s.k.pages.allocPpages 1).1) pageSize 0).word
            (asPt s.k.mem as + 4 * i) = ptNode s.k.mem (asPt s.k.mem as) i := hfirst ▸ hnode'
        rw [walkLeaf_mapPage hword (hfirst ▸ hf0) hlow hcleared (hmap ▸ hkeep), hfirst, hmap]
      · have hk : ptNode ((s.k.mem.fill (mipsKseg0 + f) pageSize 0).setWord
            (ptNode s.k.mem (asPt s.k.mem as) i + 4 * j) f) (asPt s.k.mem as) i =
            ptNode s.k.mem (asPt s.k.mem as) i := hkeep
        simp only [ptFrame, hk, if_neg hn]
        exact ByteStore.word_setWord_self _ _ hf32
      · exact ⟨fun h => absurd h hf0, fun h => absurd hroom h.2⟩
      · intro x hlo hhi
        have hsep := (hg.others _ 1 (hi.placed.taken (.space as (.node i)) _ 1
          ⟨has, if_pos ⟨hin, hn⟩, rfl⟩)).2
        simp only [RangesApart, ptFanout, pageSize] at hsep hjn hhi
        show (s.k.mem.fill (mipsKseg0 + f) pageSize 0).setWord
          (ptNode s.k.mem (asPt s.k.mem as) i + 4 * j) f x = 0
        rw [ByteStore.setWord_of_outside (by omega)]
        exact ByteStore.fill_of_inside hlo (by simp only [pageSize]; omega)
    · obtain ⟨_, hr⟩ := hrul.refused (by decide : 0 < 1) hroom
      obtain ⟨hz, hpm⟩ := hrul.allocPpages_refused (by decide) hroom
      rw [← hpm] at hr
      generalize hres : s.k.pages.allocPpages 1 = r at hz hr
      obtain ⟨f, pm⟩ := r
      simp only at hz hr
      subst hz
      refine ⟨0, { s.k with pages := pm }, _, ?_, WalkEffect.refused hi has hr, h0,
        fun h => absurd rfl h, ⟨fun _ => ⟨h0, hroom⟩, fun _ => rfl⟩, fun _ _ => rfl,
        fun _ h => absurd rfl h⟩
      simp only [KernelSt.walkLeaf, hword, if_true, hres]
  · have hword : ¬ s.k.mem.word (s.k.mem.word (asPt s.k.mem as + 4 * i) + 4 * j) = 0 :=
      fun h => h0 (hframe.trans h)
    refine ⟨_, s.k, [], ?_, WalkEffect.refl hi as, rfl, fun _ _ => List.not_mem_nil,
      ⟨fun h => absurd h h0, fun h => absurd h.1 h0⟩, fun _ _ => rfl, fun h => absurd h h0⟩
    simp only [KernelSt.walkLeaf, if_neg hword]
    rw [hframe]

/-- The frame the page table of `as` maps for an address, or 0. -/
def frameOf (m : ByteStore) (as fa : Nat) : Nat :=
  ptFrame m (asPt m as) (hiOf fa) (midOf fa)

/-- A walk for `fa` in the space `as` need not build a node for which there is no room. -/
def NodeRoom (s : Vm) (as fa : Nat) : Prop :=
  ptNode s.k.mem (asPt s.k.mem as) (hiOf fa) = 0 → s.k.pages.HasRoom 1

theorem hiOf_lt (fa : Nat) : hiOf fa < ptFanout := by
  simp only [hiOf, ptFanout]
  omega

theorem midOf_lt (fa : Nat) : midOf fa < ptFanout := by
  simp only [midOf, ptFanout]
  omega

/-- A walk for `fa` in the space `as` leaves the other pages of the tree as they were, and a page
that was not there before is cleared. -/
structure Mapped (s : Vm) (as fa : Nat) (k : KernelSt) : Prop where
  others : ∀ q, q ≠ .node (hiOf fa) → q ≠ .user (hiOf fa) (midOf fa) →
    treePage k.mem (asPt s.k.mem as) q = treePage s.k.mem (asPt s.k.mem as) q
  zero : frameOf s.k.mem as fa = 0 → frameOf k.mem as fa ≠ 0 →
    ZeroFrame k.mem (frameOf k.mem as fa)

theorem ptFrame_eq_zero_iff {m : ByteStore} {pt hi mid : Nat} (hhi : hi < ptFanout)
    (hmid : mid < ptFanout) : ptFrame m pt hi mid = 0 ↔ treePage m pt (.user hi mid) = none := by
  simp [treePage, hhi, hmid]

theorem Inv.walkPt (hi : Inv s) (has : as ∈ s.spaces) {fa : Nat} (hroom : s.NodeRoom as fa) :
    ∃ f k evs, KernelSt.walkPt (asPt s.k.mem as) fa s.k = (f, k) ∧ WalkEffect s as k evs ∧
      frameOf k.mem as fa = f ∧ (f ≠ 0 → ∀ n, PageEvent.nospace n ∉ evs) ∧
      Mapped s as fa k := by
  obtain ⟨k, evs, hrun, heff, hquiet, hn, hrest⟩ := hi.walkNode has (hiOf_lt fa) hroom
  have hpt : asPt k.mem as = asPt s.k.mem as := heff.pt
  rw [← hpt] at hn hrest
  obtain ⟨f, k', evs', hrun', heff', hframe, hquiet', _, hrest', hzero⟩ :=
    heff.inv.walkLeaf has (hiOf_lt fa) (midOf_lt fa) hn
  have hpt' : asPt k'.mem as = asPt k.mem as := heff'.pt
  have hframe' : frameOf k'.mem as fa = f := by rwa [frameOf, hpt']
  refine ⟨f, k', evs ++ evs', ?_, heff.trans heff', hframe', fun hf n hmem => ?_, ?_, ?_⟩
  · rw [← hpt]
    simp only [KernelSt.walkPt, hpt, hrun, if_true]
    rw [← hpt]
    exact hrun'
  · cases List.mem_append.mp hmem with
    | inl hl => exact hquiet n hl
    | inr hr => exact hquiet' hf n hr
  · intro q hnode huser
    rw [← hpt]
    exact (hrest' q huser).trans (hrest q hnode)
  · intro h0 hf
    rw [hframe'] at hf ⊢
    apply hzero ?_ hf
    rw [frameOf, ← hpt, ptFrame_eq_zero_iff (hiOf_lt fa) (midOf_lt fa)] at h0
    rw [ptFrame_eq_zero_iff (hiOf_lt fa) (midOf_lt fa)]
    exact (hrest _ (by simp)).trans h0

/-- The call gets as far as `walk_pt`. -/
def Accepted (m : ByteStore) (ft fa as : Nat) : Prop :=
  (ft = vmFaultRead ∨ ft = vmFaultWrite) ∧ asCheckAccess m as (roundDown fa) = 0

/-- `vm_fault` maps the page and hands its frame to the TLB, or it fails without an entry. -/
theorem Inv.vmFault (hi : Inv s) (has : as ∈ s.spaces) {ft fa e : Nat}
    {ins : Option TlbInsert} {k : KernelSt}
    (hroom : Accepted s.k.mem ft fa as → s.NodeRoom as (roundDown fa))
    (hrun : KernelSt.vmFault ft fa as s.k = some (e, ins, k)) :
    ∃ evs, WalkEffect s as k evs ∧
      ((e = 0 ∧ (∀ n, PageEvent.nospace n ∉ evs) ∧ frameOf k.mem as (roundDown fa) ≠ 0 ∧
        ins = some (roundDown fa,
          frameOf k.mem as (roundDown fa) ||| tlbloDirty ||| tlbloValid) ∧
        Mapped s as (roundDown fa) k) ∨
      (e = enomem ∧ Accepted s.k.mem ft fa as ∧ ins = none ∧
        frameOf k.mem as (roundDown fa) = 0) ∨
      (e ≠ 0 ∧ e ≠ enomem ∧ ins = none ∧ k = s.k ∧ evs = [])) := by
  have hne : as ≠ 0 := by
    have := hi.heap.block_pos (mem_heapLive_of_space has)
    omega
  simp only [KernelSt.vmFault] at hrun
  by_cases hro : ft = vmFaultReadonly
  · rw [if_pos hro] at hrun
    cases hrun
  · rw [if_neg hro] at hrun
    by_cases hbad : ft ≠ vmFaultRead ∧ ft ≠ vmFaultWrite
    · rw [if_pos hbad] at hrun
      cases hrun
      exact ⟨[], WalkEffect.refl hi as, .inr (.inr ⟨by decide, by decide, rfl, rfl, rfl⟩)⟩
    · rw [if_neg hbad, if_neg hne] at hrun
      by_cases hchk : asCheckAccess s.k.mem as (roundDown fa) = 0
      · have hft : ft = vmFaultRead ∨ ft = vmFaultWrite := by
          by_contra hno
          exact hbad ⟨fun h => hno (.inl h), fun h => hno (.inr h)⟩
        have hacc : Accepted s.k.mem ft fa as := ⟨hft, hchk⟩
        obtain ⟨f, k', evs, hwalk, heff, hframe, hquiet, hmapped⟩ := hi.walkPt has (hroom hacc)
        rw [hwalk] at hrun
        simp only [ne_eq, hchk, not_true, if_false] at hrun
        by_cases hf : f = 0
        · simp only [hf, if_true] at hrun
          cases hrun
          exact ⟨evs, heff, .inr (.inl ⟨rfl, hacc, rfl, hframe.trans hf⟩)⟩
        · simp only [hf, if_false] at hrun
          cases hrun
          rw [← hframe] at hf hquiet ⊢
          exact ⟨evs, heff, .inl ⟨rfl, hquiet hf, hf, rfl, hmapped⟩⟩
      · rw [if_pos hchk] at hrun
        cases hrun
        exact ⟨[], WalkEffect.refl hi as, .inr (.inr ⟨by decide, by decide, rfl, rfl, rfl⟩)⟩

/-- A walk for one address space leaves the trees of the others as they were. -/
theorem WalkEffect.other {k : KernelSt} {evs : List PageEvent} (h : WalkEffect s as k evs)
    (hi : Inv s) (has : as ∈ s.spaces) {as' : Nat} (has' : as' ∈ s.spaces) (hne : as' ≠ as)
    (q : SpacePage) :
    treePage k.mem (asPt k.mem as') q = treePage s.k.mem (asPt s.k.mem as') q := by
  have hkeep {o : Owner} {b n x : Nat} (ho : s.Holds o b n) (hlo : b ≤ x)
      (hhi : x < b + n * pageSize) (hx : ¬ TreeByte s.k.mem (asPt s.k.mem as) x) :
      k.mem x = s.k.mem x := by
    rcases h.mem x with hsame | htree | ⟨a, ha, halo, hahi⟩
    · exact hsame
    · exact absurd htree hx
    · have := h.fresh a ha b n (hi.placed.taken o b n ho)
      simp only [RangesApart] at this
      omega
  have hpt : asPt k.mem as' = asPt s.k.mem as' := by
    obtain ⟨p, hp, hblk, _, hend⟩ := hi.space_block has'
    have hplo := hblk.1
    apply ByteStore.word_congr
    intro x hlo hhi
    exact hkeep (o := .heapPage p) ⟨hp, rfl, rfl⟩ (by omega) (by omega)
      (hi.struct_not_treeByte has has' (by omega) (by omega))
  rw [hpt]
  apply treePage_congr
  intro x hx
  obtain ⟨q', b, _, hb, hlo, hhi⟩ := treeByte_held has' hx
  refine hkeep hb hlo (by omega) fun hx' => ?_
  have := hi.treeByte_apart has hx' hb (by simp [hne])
  omega

end Vm

end CseOs.Kernel
