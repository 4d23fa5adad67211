import CseOs.Kernel.Heap.Invariant
import CseOs.Kernel.Heap.Kmalloc

/-!
# Release to the kernel heap

`subpage_kfree` puts a live block back on the free list of its page, and gives the page back
when that block was its last live one. Pointers outside the heap's pages are left to `kfree`.
-/

namespace CseOs.Kernel

open Framework

variable {σ : Type} {h : Kheap} {m : ByteStore} {live : List (Nat × Nat)} {p q ptr : Nat}

/-- The live blocks without the one at `ptr`. -/
def dropBlock (live : List (Nat × Nat)) (ptr : Nat) : List (Nat × Nat) :=
  live.filter fun b => b.1 ≠ ptr

theorem mem_dropBlock {b : Nat × Nat} : b ∈ dropBlock live ptr ↔ b ∈ live ∧ b.1 ≠ ptr := by
  simp [dropBlock]

theorem mem_dropBlock_fst {a : Nat} :
    a ∈ (dropBlock live ptr).map Prod.fst ↔ a ∈ live.map Prod.fst ∧ a ≠ ptr := by
  simp only [List.mem_map, mem_dropBlock]
  constructor
  · rintro ⟨b, ⟨hb, hne⟩, rfl⟩
    exact ⟨⟨b, hb, rfl⟩, hne⟩
  · rintro ⟨⟨b, hb, rfl⟩, hne⟩
    exact ⟨b, ⟨hb, hne⟩, rfl⟩

theorem dropBlock_nodup (hnd : (live.map Prod.fst).Nodup) :
    ((dropBlock live ptr).map Prod.fst).Nodup :=
  hnd.sublist (List.filter_sublist.map Prod.fst)

theorem dropBlock_cons_self {sz : Nat} (h : ptr ∉ live.map Prod.fst) :
    dropBlock ((ptr, sz) :: live) ptr = live := by
  have hkeep : dropBlock live ptr = live := by
    apply List.filter_eq_self.mpr
    intro b hb
    have hne : b.1 ≠ ptr := fun he => h (he ▸ List.mem_map_of_mem hb)
    simpa using hne
  rw [dropBlock, List.filter_cons_of_neg (by simp)]
  exact hkeep

theorem KheapCore.findPage_inside {st : HeapSt σ} (hi : KheapCore st.kheap st.mem live)
    (hp : st.kheap.InUse p) (hlo : (st.kheap.pagerefs p).pageaddr ≤ ptr)
    (hhi : ptr < (st.kheap.pagerefs p).pageaddr + pageSize) :
    st.findPage ptr = some (some p) := by
  obtain ⟨l, hc, hnd, hl⟩ := hi.listed
  have hlen := KheapCore.length_le hnd fun q hq => (hl q).mp hq
  have hsized (q : Nat) (hq : q ∈ l) :
      decide ((st.kheap.pagerefs q).blocktype < nSizes) = true :=
    decide_eq_true (hi.page q ((hl q).mp hq)).sized
  have hstop (q : Nat) (hq : st.kheap.InUse q) :
      ((st.kheap.pagerefs q).pageaddr + pageSize) % 2 ^ 32 =
        (st.kheap.pagerefs q).pageaddr + pageSize := Nat.mod_eq_of_lt (hi.page q hq).top
  rw [HeapSt.findPage, hc.walk_eq hlen hsized]
  cases hf : l.find? fun q => (st.kheap.pagerefs q).pageaddr ≤ ptr ∧
      ptr < ((st.kheap.pagerefs q).pageaddr + pageSize) % 2 ^ 32 with
  | none =>
      have := List.find?_eq_none.mp hf p ((hl p).mpr hp)
      rw [decide_eq_true_eq, hstop p hp] at this
      exact absurd ⟨hlo, hhi⟩ this
  | some q =>
      have hq := (hl q).mp (List.mem_of_find?_eq_some hf)
      have hin := List.find?_some hf
      rw [decide_eq_true_eq, hstop q hq] at hin
      rw [hi.page_unique hq hp hin.1 hin.2 hlo hhi]

private theorem KheapCore.findPage_outside {st : HeapSt σ} (hi : KheapCore st.kheap st.mem live)
    (hout : ∀ p, st.kheap.InUse p → ptr < (st.kheap.pagerefs p).pageaddr ∨
      (st.kheap.pagerefs p).pageaddr + pageSize ≤ ptr) :
    st.findPage ptr = some none := by
  obtain ⟨l, hc, hnd, hl⟩ := hi.listed
  have hlen := KheapCore.length_le hnd fun q hq => (hl q).mp hq
  have hsized (q : Nat) (hq : q ∈ l) :
      decide ((st.kheap.pagerefs q).blocktype < nSizes) = true :=
    decide_eq_true (hi.page q ((hl q).mp hq)).sized
  rw [HeapSt.findPage, hc.walk_eq hlen hsized, List.find?_eq_none.mpr]
  intro q hql
  have hq := (hl q).mp hql
  have hmod : ((st.kheap.pagerefs q).pageaddr + pageSize) % 2 ^ 32 =
      (st.kheap.pagerefs q).pageaddr + pageSize := Nat.mod_eq_of_lt (hi.page q hq).top
  have := hout q hq
  rw [decide_eq_true_eq, hmod]
  omega

private theorem fillDeadbeef_of_outside (m : ByteStore) (ptr len : Nat) {x : Nat}
    (hx : x < ptr ∨ ptr + len ≤ x) : fillDeadbeef m ptr len x = m x := by
  have hfold (n : Nat) (hn : 4 * n ≤ len) : (List.range n).foldl
      (fun m i => ByteStore.setWord m (ptr + 4 * i) 0xdeadbeef) m x = m x := by
    induction n with
    | zero => rfl
    | succ n ih =>
        rw [List.range_succ, List.foldl_append]
        simp only [List.foldl_cons, List.foldl_nil]
        rw [ByteStore.setWord_of_outside (by omega)]
        exact ih (by omega)
  exact hfold (len / 4) (by omega)

/-- The memory `subpage_kfree` leaves: the block is filled and linked to the free list. -/
def freedMem (pr : Pageref) (m : ByteStore) (ptr : Nat) : ByteStore :=
  (fillDeadbeef m ptr pr.size).setWord ptr
    (if pr.freelistOffset = invalidOffset then 0 else pr.pageaddr + pr.freelistOffset)

theorem freedMem_of_outside {pr : Pageref} {x : Nat} (hs : 4 ≤ pr.size)
    (hx : x < ptr ∨ ptr + pr.size ≤ x) : freedMem pr m ptr x = m x := by
  rw [freedMem, ByteStore.setWord_of_outside (by omega)]
  exact fillDeadbeef_of_outside m ptr pr.size hx

private theorem freedMem_word {pr : Pageref} {a : Nat} (hs : 4 ≤ pr.size)
    (ha : a + 4 ≤ ptr ∨ ptr + pr.size ≤ a) : (freedMem pr m ptr).word a = m.word a := by
  apply ByteStore.word_congr
  intro x hlo hhi
  exact freedMem_of_outside hs (by omega)

private theorem PageInv.free {pr : Pageref} (hp : PageInv pr m (live.map Prod.fst))
    (hblk : pr.IsBlock ptr) (hlive : ptr ∈ live.map Prod.fst) :
    PageInv { pr with freelistOffset := ptr - pr.pageaddr, nfree := pr.nfree + 1 }
      (freedMem pr m ptr) ((dropBlock live ptr).map Prod.fst) := by
  obtain ⟨l, hc, hnd, hlen, hmem⟩ := hp.list
  have h16 : 16 ≤ pr.size := (blockSize_cases hp.sized).1
  have htop := hp.top
  have hptrl : ptr ∉ l := fun hl => ((hmem ptr).mp hl).2 hlive
  have hoff : ptr - pr.pageaddr ≠ invalidOffset := by
    have := hblk.2.1
    simp only [pageSize, invalidOffset] at *
    omega
  have hsum : pr.pageaddr + (ptr - pr.pageaddr) = ptr := by
    have := hblk.1
    omega
  have hhead : Pageref.freeHead { pr with
      freelistOffset := ptr - pr.pageaddr, nfree := pr.nfree + 1 } = some ptr := by
    have haddr : Pageref.pageaddr { pr with
        freelistOffset := ptr - pr.pageaddr, nfree := pr.nfree + 1 } = pr.pageaddr := rfl
    simp only [Pageref.freeHead, if_neg hoff, haddr, hsum]
  have hnext : freeNext (freedMem pr m ptr) ptr = pr.freeHead := by
    have hpos := hp.pos
    rw [freeNext, freedMem, Pageref.freeHead]
    by_cases hinv : pr.freelistOffset = invalidOffset
    · simp only [if_pos hinv]
      rw [ByteStore.word_setWord_self _ _ (by decide)]
      rfl
    · simp only [if_neg hinv]
      have hb : pr.IsBlock (pr.pageaddr + pr.freelistOffset) :=
        ((hmem _).mp (hc.head_mem (by simp [Pageref.freeHead, hinv]))).1
      have hlt := hb.2.1
      rw [ByteStore.word_setWord_self _ _ (by omega), nullable, if_neg (by omega)]
  refine ⟨hp.pos, htop, hp.sized, ptr :: l, ⟨hhead, ?_⟩, List.nodup_cons.mpr ⟨hptrl, hnd⟩, ?_, ?_⟩
  · rw [hnext]
    refine hc.congr fun b hb => ?_
    have hb' := (hmem b).mp hb
    have hne : ptr ≠ b := fun he => hptrl (he ▸ hb)
    have hdisj := hblk.disjoint hb'.1 hne
    simp only [freeNext]
    rw [freedMem_word (by omega) (by omega)]
  · simp only [List.length_cons, hlen]
  · intro a
    rw [List.mem_cons, hmem a, mem_dropBlock_fst]
    show a = ptr ∨ pr.IsBlock a ∧ a ∉ live.map Prod.fst ↔
      pr.IsBlock a ∧ ¬ (a ∈ live.map Prod.fst ∧ a ≠ ptr)
    by_cases he : a = ptr
    · subst he
      simp [hblk]
    · simp [he]

/-- The test of `subpage_kfree` for an empty page tells whether another block is live. -/
theorem KheapInv.last_block_iff (hi : KheapInv h m live) (hp : h.InUse p)
    (hblk : (h.pagerefs p).IsBlock ptr) (hlive : ptr ∈ live.map Prod.fst) :
    (h.pagerefs p).nfree + 1 ≤ pageSize / (h.pagerefs p).size ∧
      ((h.pagerefs p).nfree + 1 = pageSize / (h.pagerefs p).size ↔
        ∀ a ∈ (dropBlock live ptr).map Prod.fst, ¬ (h.pagerefs p).IsBlock a) :=
  ((hi.page p hp).free hblk hlive).nfree_eq_iff

private theorem PageInv.relink {pr : Pageref} {l : List Nat} (hp : PageInv pr m l)
    (s a : Option Nat) : PageInv { pr with nextSamesize := s, nextAll := a } m l :=
  ⟨hp.pos, hp.top, hp.sized, hp.list⟩

theorem KheapCore.release_spec (hi : KheapCore h m live) (hp : h.InUse p)
    (hnone : ∀ a ∈ live.map Prod.fst, ¬ (h.pagerefs p).IsBlock a) :
    ∃ kh kh', h.removeLists p (h.pagerefs p).blocktype = some kh ∧ kh.freepageref p = some kh' ∧
      KheapCore kh' m live ∧ (∀ q, kh'.InUse q ↔ q ≠ p ∧ h.InUse q) ∧
      ∀ q, ∃ s a, kh'.pagerefs q = { h.pagerefs q with nextSamesize := s, nextAll := a } := by
  have hsized := (hi.page p hp).sized
  generalize hblk : (h.pagerefs p).blocktype = blk at *
  obtain ⟨ls, hcs, hnds, hls⟩ := hi.sorted blk hsized
  obtain ⟨la, hca, hnda, hla⟩ := hi.listed
  have hlens := KheapCore.length_le hnds fun q hq => ((hls q).mp hq).1
  have hlena := KheapCore.length_le hnda fun q hq => (hla q).mp hq
  obtain ⟨ks, hruns, hchains, hsames⟩ := Links.unlink_spec (k := h.sizeLinks blk) (a := p)
    hcs hnds hlens
  have hca' : Chain ((h.setSizeLinks blk ks).allLinks).next (h.setSizeLinks blk ks).allLinks.head
      la := hca
  obtain ⟨ka, hruna, hchaina, _⟩ := Links.unlink_spec (a := p) hca' hnda hlena
  let kh := (h.setSizeLinks blk ks).setAllLinks ka
  have huse : kh.InUse p := hp
  obtain ⟨kh', hfree, hkh', hinuse⟩ := freepageref_spec huse
  have hpr (q : Nat) : kh'.pagerefs q =
      { h.pagerefs q with nextSamesize := ks.next q, nextAll := ka.next q } := by
    rw [hkh']
    rfl
  have hinuse' (q : Nat) : kh'.InUse q ↔ q ≠ p ∧ h.InUse q := hinuse q
  have hblock (q a : Nat) : (kh'.pagerefs q).IsBlock a ↔ (h.pagerefs q).IsBlock a := by
    rw [hpr q]
    rfl
  have hbt (q : Nat) : (kh'.pagerefs q).blocktype = (h.pagerefs q).blocktype := by
    rw [hpr q]
    rfl
  refine ⟨kh, kh', ?_, hfree, ⟨?_, ?_, ?_, ?_, ?_, hi.nodup⟩, hinuse', fun q => ⟨_, _, hpr q⟩⟩
  · rw [Kheap.removeLists, assertThat_of_pos hsized]
    simp only [Option.bind_eq_bind, Option.bind_some, hruns, hruna]
    rfl
  · have hall : kh'.allbase = ka.head := by
      rw [hkh']
      rfl
    refine ⟨la.erase p, ?_, hnda.erase p, fun q => ?_⟩
    · rw [hall]
      exact hchaina.congr fun q _ => by rw [hpr q]
    · rw [hnda.mem_erase_iff, hla, hinuse']
  · intro blk' hb'
    by_cases he : blk' = blk
    · subst he
      have hbase : kh'.sizebases blk' = ks.head := by
        rw [hkh']
        exact Function.update_self _ _ _
      refine ⟨ls.erase p, ?_, hnds.erase p, fun q => ?_⟩
      · rw [hbase]
        exact hchains.congr fun q _ => by rw [hpr q]
      · rw [hnds.mem_erase_iff, hls, hinuse', hbt, and_assoc]
    · obtain ⟨l, hc, hnd, hl⟩ := hi.sorted blk' hb'
      have hbase : kh'.sizebases blk' = h.sizebases blk' := by
        rw [hkh']
        exact Function.update_of_ne he _ _
      refine ⟨l, ?_, hnd, fun q => ?_⟩
      · rw [hbase]
        refine hc.congr fun q hq => ?_
        have hql : q ∉ ls := fun hql => he (((hl q).mp hq).2.symm.trans ((hls q).mp hql).2)
        rw [hpr q]
        exact hsames q hql
      · rw [hl, hinuse', hbt]
        constructor
        · rintro ⟨hq, hqb⟩
          exact ⟨⟨fun hqp => he (by rw [← hqb, hqp, hblk]), hq⟩, hqb⟩
        · rintro ⟨⟨_, hq⟩, hqb⟩
          exact ⟨hq, hqb⟩
  · intro q hq
    rw [hpr q]
    exact (hi.page q ((hinuse' q).mp hq).2).relink _ _
  · intro q r hq hr he
    rw [hpr q, hpr r] at he
    exact hi.apart q r ((hinuse' q).mp hq).2 ((hinuse' r).mp hr).2 he
  · intro b hb
    obtain ⟨q, hq, hbq, hsz⟩ := hi.inside b hb
    have hqp : q ≠ p := by
      rintro rfl
      exact hnone b.1 (List.mem_map_of_mem hb) hbq
    refine ⟨q, (hinuse' q).mpr ⟨hqp, hq⟩, (hblock q b.1).mpr hbq, ?_⟩
    rw [hpr q]
    exact hsz

/-- What `subpage_kfree` can do with a live block. -/
inductive KfreeOutcome (S : PageSupply σ) (st : HeapSt σ) (live : List (Nat × Nat)) (ptr : Nat) :
    HeapSt σ → Prop
  | kept (p off n : Nat) : st.kheap.InUse p → (st.kheap.pagerefs p).IsBlock ptr →
      (∃ a ∈ (dropBlock live ptr).map Prod.fst, (st.kheap.pagerefs p).IsBlock a) →
      KheapInv (st.kheap.setCounters p off n) (freedMem (st.kheap.pagerefs p) st.mem ptr)
        (dropBlock live ptr) →
      KfreeOutcome S st live ptr { st with
        kheap := st.kheap.setCounters p off n
        mem := freedMem (st.kheap.pagerefs p) st.mem ptr }
  | returned (p : Nat) (kh : Kheap) : st.kheap.InUse p → (st.kheap.pagerefs p).IsBlock ptr →
      (∀ a ∈ (dropBlock live ptr).map Prod.fst, ¬ (st.kheap.pagerefs p).IsBlock a) →
      (∀ q, kh.InUse q ↔ q ≠ p ∧ st.kheap.InUse q) →
      (∀ q, (kh.pagerefs q).pageaddrAndBlocktype = (st.kheap.pagerefs q).pageaddrAndBlocktype) →
      KheapInv kh (freedMem (st.kheap.pagerefs p) st.mem ptr) (dropBlock live ptr) →
      KfreeOutcome S st live ptr ⟨kh, freedMem (st.kheap.pagerefs p) st.mem ptr,
        S.freeKpages (st.kheap.pagerefs p).pageaddr st.pages⟩

theorem KheapInv.subpageKfree_spec (S : PageSupply σ) {st : HeapSt σ}
    (hi : KheapInv st.kheap st.mem live) (hlive : ptr ∈ live.map Prod.fst) :
    ∃ st', st.subpageKfree S ptr = some (true, st') ∧ KfreeOutcome S st live ptr st' := by
  obtain ⟨b, hbl, rfl⟩ := List.mem_map.mp hlive
  obtain ⟨p, hp, hblk, _⟩ := hi.inside b hbl
  generalize hptr : b.1 = ptr at *
  have hfind := hi.findPage_inside hp hblk.1 hblk.2.1
  have hpi := hi.page p hp
  have hoff : ptr - (st.kheap.pagerefs p).pageaddr < pageSize ∧
      (ptr - (st.kheap.pagerefs p).pageaddr) %
        blockSize (st.kheap.pagerefs p).blocktype = 0 :=
    ⟨by have := hblk.2.1; have := hblk.1; omega, hblk.2.2⟩
  have hsum : (st.kheap.pagerefs p).pageaddr + (ptr - (st.kheap.pagerefs p).pageaddr) = ptr := by
    have := hblk.1
    omega
  have h16 : 16 ≤ (st.kheap.pagerefs p).size := (blockSize_cases hpi.sized).1
  have hpage := hpi.free hblk hlive
  have hother (q a : Nat) (hq : st.kheap.InUse q) (hne : q ≠ p)
      (ha : (st.kheap.pagerefs q).IsBlock a) : a + 4 ≤ ptr ∨ ptr + (st.kheap.pagerefs p).size ≤ a := by
    have hend := hblk.end_le hpi.sized
    have haend := ha.end_le (hi.page q hq).sized
    have haq : 16 ≤ (st.kheap.pagerefs q).size := (blockSize_cases (hi.page q hq).sized).1
    have hlo := hblk.1
    have halo := ha.1
    have hpages := page_disjoint fun he => hne (hi.apart q p hq hp he)
    omega
  have hcore : KheapCore (st.kheap.setCounters p (ptr - (st.kheap.pagerefs p).pageaddr)
      ((st.kheap.pagerefs p).nfree + 1)) (freedMem (st.kheap.pagerefs p) st.mem ptr)
      (dropBlock live ptr) := by
    apply hi.setCounters hpage
    · intro q a hq hne ha
      exact freedMem_word (by omega) (hother q a hq hne ha)
    · intro q a hq hne ha
      have hsep := hother q a hq hne ha
      rw [mem_dropBlock_fst]
      exact ⟨fun hm => hm.1, fun hm => ⟨hm, by omega⟩⟩
    · exact fun b hb => .inl (mem_dropBlock.mp hb).1
    · exact dropBlock_nodup hi.nodup
  have hused (q : Nat) (hq : st.kheap.InUse q) (hne : q ≠ p) :
      ∃ a ∈ (dropBlock live ptr).map Prod.fst, (st.kheap.pagerefs q).IsBlock a := by
    obtain ⟨a, ha, hqa⟩ := hi.used q hq
    have := hother q a hq hne hqa
    exact ⟨a, mem_dropBlock_fst.mpr ⟨ha, by omega⟩, hqa⟩
  obtain ⟨hle, hfull⟩ := hi.last_block_iff hp hblk hlive
  simp only [Pageref.size] at hle hfull
  by_cases hlast : (st.kheap.pagerefs p).nfree + 1 =
      pageSize / blockSize (st.kheap.pagerefs p).blocktype
  · have hnone := hfull.mp hlast
    obtain ⟨kh, kh', hrem, hfree, hcore', hinuse, hsame⟩ :=
      hcore.release_spec hp fun a ha => by
        rw [setCounters_isBlock]
        exact hnone a ha
    have hpab (q : Nat) : (kh'.pagerefs q).pageaddrAndBlocktype =
        (st.kheap.pagerefs q).pageaddrAndBlocktype := by
      obtain ⟨s, a, he⟩ := hsame q
      rw [he]
      by_cases hq : q = p
      · subst hq
        simp [Kheap.setCounters]
      · simp [Kheap.setCounters, hq]
    have hblock (q a : Nat) : (kh'.pagerefs q).IsBlock a ↔ (st.kheap.pagerefs q).IsBlock a := by
      simp only [Pageref.IsBlock, Pageref.size, Pageref.pageaddr, Pageref.blocktype, hpab q]
    refine ⟨⟨kh', freedMem (st.kheap.pagerefs p) st.mem ptr,
      S.freeKpages (st.kheap.pagerefs p).pageaddr st.pages⟩, ?_,
      .returned p kh' hp hblk hnone hinuse hpab ⟨hcore', fun q hq => ?_⟩⟩
    · rw [setCounters_blocktype] at hrem
      simp only [Kheap.setCounters] at hrem
      simp only [HeapSt.subpageKfree, hfind, Option.bind_eq_bind, Option.bind_some,
        assertThat_of_pos hoff, assertThat_of_pos hle, if_pos hlast, hrem, hfree, hsum]
      rfl
    · obtain ⟨hne, hq⟩ := (hinuse q).mp hq
      obtain ⟨a, ha, hqa⟩ := hused q hq hne
      exact ⟨a, ha, (hblock q a).mpr hqa⟩
  · have hsome : ∃ a ∈ (dropBlock live ptr).map Prod.fst, (st.kheap.pagerefs p).IsBlock a := by
      by_contra hno
      apply hlast
      apply hfull.mpr
      intro a ha hb
      exact hno ⟨a, ha, hb⟩
    refine ⟨_, ?_, .kept p _ _ hp hblk hsome ⟨hcore, fun q hq => ?_⟩⟩
    · simp only [HeapSt.subpageKfree, hfind, Option.bind_eq_bind, Option.bind_some,
        assertThat_of_pos hoff, assertThat_of_pos hle, if_neg hlast, hsum]
      rfl
    · by_cases hqp : q = p
      · subst hqp
        obtain ⟨a, ha, hb⟩ := hsome
        exact ⟨a, ha, (setCounters_isBlock _ _ _ _ _ _).mpr hb⟩
      · obtain ⟨a, ha, hqa⟩ := hused q hq hqp
        exact ⟨a, ha, (setCounters_isBlock _ _ _ _ _ _).mpr hqa⟩

/-- A pointer outside the heap's pages is not a subpage block. -/
theorem KheapCore.subpageKfree_outside (S : PageSupply σ) {st : HeapSt σ}
    (hi : KheapCore st.kheap st.mem live)
    (hout : ∀ p, st.kheap.InUse p → ptr < (st.kheap.pagerefs p).pageaddr ∨
      (st.kheap.pagerefs p).pageaddr + pageSize ≤ ptr) :
    st.subpageKfree S ptr = some (false, st) := by
  simp only [HeapSt.subpageKfree, hi.findPage_outside hout, Option.bind_eq_bind, Option.bind_some]
  rfl

/-- The address that `kfree` would hand to `free_kpages`, if any. -/
def HeapSt.releasedPage (ptr : Nat) (st : HeapSt σ) : Option Nat :=
  match st.findPage ptr with
  | none => none
  | some none => some ptr
  | some (some p) =>
    if (st.kheap.pagerefs p).nfree + 1 =
        pageSize / blockSize (st.kheap.pagerefs p).blocktype then
      some (st.kheap.pagerefs p).pageaddr
    else
      none

/-- Only the heap's own data decides. -/
theorem HeapSt.releasedPage_congr {τ : Type} {st : HeapSt σ} {st' : HeapSt τ}
    (h : st'.kheap = st.kheap) (ptr : Nat) : st'.releasedPage ptr = st.releasedPage ptr := by
  simp only [releasedPage, findPage, h]

theorem KheapInv.releasedPage_last {st : HeapSt σ} (hi : KheapInv st.kheap st.mem live)
    (hp : st.kheap.InUse p) (hblk : (st.kheap.pagerefs p).IsBlock ptr)
    (hlive : ptr ∈ live.map Prod.fst)
    (hnone : ∀ a ∈ (dropBlock live ptr).map Prod.fst, ¬ (st.kheap.pagerefs p).IsBlock a) :
    st.releasedPage ptr = some (st.kheap.pagerefs p).pageaddr := by
  have hlast := (hi.last_block_iff hp hblk hlive).2.mpr hnone
  simp only [Pageref.size] at hlast
  rw [HeapSt.releasedPage, hi.findPage_inside hp hblk.1 hblk.2.1]
  exact if_pos hlast

theorem KheapCore.releasedPage_outside {st : HeapSt σ} (hi : KheapCore st.kheap st.mem live)
    (hout : ∀ p, st.kheap.InUse p → ptr < (st.kheap.pagerefs p).pageaddr ∨
      (st.kheap.pagerefs p).pageaddr + pageSize ≤ ptr) : st.releasedPage ptr = some ptr := by
  rw [HeapSt.releasedPage, hi.findPage_outside hout]

end CseOs.Kernel
