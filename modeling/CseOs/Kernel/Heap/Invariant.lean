import CseOs.Kernel.Heap.Kheap
import Mathlib.Data.List.Perm.Subperm

/-!
# The invariant of the kernel heap

Every page reference in use describes a page whose blocks are either live or on the free list
of the page, and stands on the list of its size and on the list of all pages.
-/

namespace CseOs.Kernel

open Framework

/-- A pointer word read as a pointer. -/
def nullable (w : Nat) : Option Nat := if w = 0 then none else some w

/-- The free list behind a free block. -/
def freeNext (m : ByteStore) (a : Nat) : Option Nat := nullable (m.word a)

def Pageref.freeHead (pr : Pageref) : Option Nat :=
  if pr.freelistOffset = invalidOffset then none else some (pr.pageaddr + pr.freelistOffset)

def Pageref.size (pr : Pageref) : Nat := blockSize pr.blocktype

/-- `a` is the start of a block of the page. -/
def Pageref.IsBlock (pr : Pageref) (a : Nat) : Prop :=
  pr.pageaddr ≤ a ∧ a < pr.pageaddr + pageSize ∧ (a - pr.pageaddr) % pr.size = 0

def Kheap.InUse (h : Kheap) (p : Nat) : Prop :=
  p < nPagerefs ∧ (h.pagerefsInuse (p / 32)).getLsbD (p % 32) = true

/-- A page of the heap: its free list holds exactly the blocks that are not live. -/
structure PageInv (pr : Pageref) (m : ByteStore) (live : List Nat) : Prop where
  pos : 0 < pr.pageaddr
  top : pr.pageaddr + pageSize < 2 ^ 32
  sized : pr.blocktype < nSizes
  list : ∃ l, Chain (freeNext m) pr.freeHead l ∧ l.Nodup ∧ l.length = pr.nfree ∧
    ∀ a, a ∈ l ↔ pr.IsBlock a ∧ a ∉ live

/-- The heap's structures agree. A live block is given by its address and requested size. -/
structure KheapCore (h : Kheap) (m : ByteStore) (live : List (Nat × Nat)) : Prop where
  listed : ∃ l, Chain (fun p => (h.pagerefs p).nextAll) h.allbase l ∧ l.Nodup ∧
    ∀ p, p ∈ l ↔ h.InUse p
  sorted : ∀ blk, blk < nSizes → ∃ l,
    Chain (fun p => (h.pagerefs p).nextSamesize) (h.sizebases blk) l ∧ l.Nodup ∧
      ∀ p, p ∈ l ↔ h.InUse p ∧ (h.pagerefs p).blocktype = blk
  page : ∀ p, h.InUse p → PageInv (h.pagerefs p) m (live.map Prod.fst)
  apart : ∀ p q, h.InUse p → h.InUse q →
    (h.pagerefs p).pageaddr = (h.pagerefs q).pageaddr → p = q
  inside : ∀ b ∈ live, ∃ p, h.InUse p ∧ (h.pagerefs p).IsBlock b.1 ∧
    blocktypeOf b.2 = some (h.pagerefs p).blocktype
  nodup : (live.map Prod.fst).Nodup

/-- Between calls every page of the heap holds a live block. -/
structure KheapInv (h : Kheap) (m : ByteStore) (live : List (Nat × Nat)) : Prop extends
    KheapCore h m live where
  used : ∀ p, h.InUse p → ∃ a ∈ live.map Prod.fst, (h.pagerefs p).IsBlock a

variable {h : Kheap} {m m' : ByteStore} {live : List (Nat × Nat)} {pr : Pageref} {a p q : Nat}

theorem blockSize_cases {blk : Nat} (hb : blk < nSizes) :
    16 ≤ blockSize blk ∧ pageSize / blockSize blk * blockSize blk = pageSize ∧
      2 ≤ pageSize / blockSize blk ∧ blockSize blk ≤ largestSubpageSize ∧
      blockSize blk / 4 * 4 = blockSize blk := by
  have hb' : blk < 8 := hb
  interval_cases blk <;> decide

theorem blocktypeOf_spec {sz blk : Nat} (hb : blocktypeOf sz = some blk) :
    blk < nSizes ∧ sz ≤ blockSize blk := by
  have hmem := List.mem_of_find?_eq_some hb
  have hle := List.find?_some hb
  exact ⟨List.mem_range.mp hmem, by simpa using hle⟩

theorem blocktypeOf_of_lt {sz : Nat} (hsz : sz < largestSubpageSize) :
    ∃ blk, blocktypeOf sz = some blk := by
  cases hb : blocktypeOf sz with
  | none =>
      have h7 := List.find?_eq_none.mp hb 7 (by decide)
      have hs7 : blockSize 7 = 2048 := by decide
      simp only [largestSubpageSize] at hsz
      simp only [hs7, decide_eq_true_eq] at h7
      omega
  | some blk => exact ⟨blk, rfl⟩

theorem pageaddr_mod (pr : Pageref) : pr.pageaddr % pageSize = 0 := by
  simp [Pageref.pageaddr, roundDown]

/-- A block ends inside its page. -/
theorem Pageref.IsBlock.end_le (ha : pr.IsBlock a) (hb : pr.blocktype < nSizes) :
    a + pr.size ≤ pr.pageaddr + pageSize := by
  obtain ⟨hlo, hhi, hmod⟩ := ha
  obtain ⟨h16, hdvd, _, _, _⟩ := blockSize_cases hb
  have hs : pr.size = blockSize pr.blocktype := rfl
  rw [← hs] at h16 hdvd
  obtain ⟨k, hk⟩ := Nat.dvd_of_mod_eq_zero hmod
  have hlt : pr.size * k < pr.size * (pageSize / pr.size) := by
    rw [← hk, Nat.mul_comm pr.size (pageSize / pr.size), hdvd]
    omega
  have hkl : k + 1 ≤ pageSize / pr.size := Nat.lt_of_mul_lt_mul_left hlt
  have hle : pr.size * (k + 1) ≤ pageSize / pr.size * pr.size := by
    rw [Nat.mul_comm]
    exact Nat.mul_le_mul_right _ hkl
  rw [hdvd, Nat.mul_add, Nat.mul_one] at hle
  omega

/-- Two different blocks of one page do not overlap. -/
theorem Pageref.IsBlock.disjoint {b : Nat} (ha : pr.IsBlock a) (hb : pr.IsBlock b)
    (hne : a ≠ b) : a + pr.size ≤ b ∨ b + pr.size ≤ a := by
  obtain ⟨hla, _, hma⟩ := ha
  obtain ⟨hlb, _, hmb⟩ := hb
  obtain ⟨j, hj⟩ := Nat.dvd_of_mod_eq_zero hma
  obtain ⟨k, hk⟩ := Nat.dvd_of_mod_eq_zero hmb
  rcases Nat.lt_trichotomy j k with hlt | heq | hgt
  · have hle := Nat.mul_le_mul_left pr.size (show j + 1 ≤ k from hlt)
    rw [Nat.mul_add, Nat.mul_one] at hle
    omega
  · subst heq
    omega
  · have hle := Nat.mul_le_mul_left pr.size (show k + 1 ≤ j from hgt)
    rw [Nat.mul_add, Nat.mul_one] at hle
    omega

/-- Pages at different addresses share no byte. -/
theorem page_disjoint {pr pr' : Pageref} (hne : pr.pageaddr ≠ pr'.pageaddr) :
    pr.pageaddr + pageSize ≤ pr'.pageaddr ∨ pr'.pageaddr + pageSize ≤ pr.pageaddr := by
  have h1 := pageaddr_mod pr
  have h2 := pageaddr_mod pr'
  simp only [pageSize] at *
  omega

/-- The starts of all blocks of a page. -/
def Pageref.blocks (pr : Pageref) : List Nat :=
  (List.range (pageSize / pr.size)).map fun i => pr.pageaddr + i * pr.size

theorem Pageref.mem_blocks (hb : pr.blocktype < nSizes) : a ∈ pr.blocks ↔ pr.IsBlock a := by
  obtain ⟨h16, hdvd, _, _, _⟩ := blockSize_cases hb
  have hs : pr.size = blockSize pr.blocktype := rfl
  rw [← hs] at h16 hdvd
  simp only [Pageref.blocks, List.mem_map, List.mem_range, Pageref.IsBlock]
  constructor
  · rintro ⟨i, hi, rfl⟩
    have hlt : i * pr.size < pageSize / pr.size * pr.size :=
      Nat.mul_lt_mul_of_pos_right hi (by omega)
    rw [hdvd] at hlt
    exact ⟨by omega, by omega, by simp⟩
  · rintro ⟨hlo, hhi, hmod⟩
    obtain ⟨k, hk⟩ := Nat.dvd_of_mod_eq_zero hmod
    have hlt : k * pr.size < pageSize / pr.size * pr.size := by
      rw [hdvd, Nat.mul_comm, ← hk]
      omega
    exact ⟨k, Nat.lt_of_mul_lt_mul_right hlt, by rw [Nat.mul_comm, ← hk]; omega⟩

private theorem Pageref.blocks_nodup (hb : pr.blocktype < nSizes) : pr.blocks.Nodup := by
  have h16 : 16 ≤ pr.size := (blockSize_cases hb).1
  refine List.Nodup.map ?_ List.nodup_range
  intro i j hij
  have hmul : i * pr.size = j * pr.size := by
    simp only at hij
    omega
  exact Nat.eq_of_mul_eq_mul_right (by omega) hmul

/-- A page's free list is full exactly when none of its blocks is live. -/
theorem PageInv.nfree_eq_iff (hp : PageInv pr m (live.map Prod.fst)) :
    pr.nfree ≤ pageSize / pr.size ∧ (pr.nfree = pageSize / pr.size ↔
      ∀ a ∈ live.map Prod.fst, ¬ pr.IsBlock a) := by
  obtain ⟨l, _, hnd, hlen, hmem⟩ := hp.list
  have hsub : l ⊆ pr.blocks := by
    intro a ha
    exact (Pageref.mem_blocks hp.sized).mpr ((hmem a).mp ha).1
  have hsp : l.Subperm pr.blocks := hnd.subperm hsub
  have hcount : pr.blocks.length = pageSize / pr.size := by simp [Pageref.blocks]
  have hle := hsp.length_le
  refine ⟨by omega, fun hfull a ha hblk => ?_, fun hnone => ?_⟩
  · have hperm := hsp.perm_of_length_le (by omega)
    have hal : a ∈ l := hperm.mem_iff.mpr ((Pageref.mem_blocks hp.sized).mpr hblk)
    exact ((hmem a).mp hal).2 ha
  · have hsup : pr.blocks ⊆ l := by
      intro a ha
      have hblk := (Pageref.mem_blocks hp.sized).mp ha
      exact (hmem a).mpr ⟨hblk, fun hl => hnone a hl hblk⟩
    have := ((Pageref.blocks_nodup hp.sized).subperm hsup).length_le
    omega

/-- A page invariant looks at the memory of free blocks and at the live blocks of the page. -/
theorem PageInv.congr {live' : List Nat} {live : List Nat} (hp : PageInv pr m live)
    (hm : ∀ a, pr.IsBlock a → a ∉ live → m'.word a = m.word a)
    (hl : ∀ a, pr.IsBlock a → (a ∈ live' ↔ a ∈ live)) : PageInv pr m' live' := by
  obtain ⟨l, hc, hnd, hlen, hmem⟩ := hp.list
  refine ⟨hp.pos, hp.top, hp.sized, l, ?_, hnd, hlen, ?_⟩
  · refine hc.congr fun b hb => ?_
    have hb' := (hmem b).mp hb
    simp only [freeNext, hm b hb'.1 hb'.2]
  · intro a
    rw [hmem a]
    constructor
    · rintro ⟨hblk, hn⟩
      exact ⟨hblk, fun h' => hn ((hl a hblk).mp h')⟩
    · rintro ⟨hblk, hn⟩
      exact ⟨hblk, fun h' => hn ((hl a hblk).mpr h')⟩

@[simp] theorem setPageref_self (h : Kheap) (p : Nat) (pr : Pageref) :
    (h.setPageref p pr).pagerefs p = pr := by simp [Kheap.setPageref]

@[simp] theorem setPageref_of_ne (h : Kheap) (pr : Pageref) (hne : q ≠ p) :
    (h.setPageref p pr).pagerefs q = h.pagerefs q := by simp [Kheap.setPageref, hne]

/-- Change the free list head and the free count of a page. -/
def Kheap.setCounters (h : Kheap) (p off n : Nat) : Kheap :=
  h.setPageref p { h.pagerefs p with freelistOffset := off, nfree := n }

private theorem setCounters_field {α : Type*} (f : Pageref → α) (h : Kheap) (p off n : Nat)
    (hf : ∀ pr : Pageref, f { pr with freelistOffset := off, nfree := n } = f pr) (q : Nat) :
    f ((h.setCounters p off n).pagerefs q) = f (h.pagerefs q) := by
  by_cases hq : q = p
  · subst hq
    simpa [Kheap.setCounters] using hf (h.pagerefs q)
  · rw [Kheap.setCounters, setPageref_of_ne h _ hq]

@[simp] theorem setCounters_pageaddr (h : Kheap) (p off n q : Nat) :
    ((h.setCounters p off n).pagerefs q).pageaddr = (h.pagerefs q).pageaddr :=
  setCounters_field Pageref.pageaddr h p off n (fun _ => rfl) q

@[simp] theorem setCounters_blocktype (h : Kheap) (p off n q : Nat) :
    ((h.setCounters p off n).pagerefs q).blocktype = (h.pagerefs q).blocktype :=
  setCounters_field Pageref.blocktype h p off n (fun _ => rfl) q

@[simp] theorem setCounters_nextSamesize (h : Kheap) (p off n q : Nat) :
    ((h.setCounters p off n).pagerefs q).nextSamesize = (h.pagerefs q).nextSamesize :=
  setCounters_field Pageref.nextSamesize h p off n (fun _ => rfl) q

@[simp] theorem setCounters_nextAll (h : Kheap) (p off n q : Nat) :
    ((h.setCounters p off n).pagerefs q).nextAll = (h.pagerefs q).nextAll :=
  setCounters_field Pageref.nextAll h p off n (fun _ => rfl) q

@[simp] theorem setCounters_isBlock (h : Kheap) (p off n q a : Nat) :
    ((h.setCounters p off n).pagerefs q).IsBlock a ↔ (h.pagerefs q).IsBlock a := by
  simp only [Pageref.IsBlock, Pageref.size, setCounters_pageaddr, setCounters_blocktype]

@[simp] theorem inUse_setCounters (h : Kheap) (p off n q : Nat) :
    (h.setCounters p off n).InUse q ↔ h.InUse q := Iff.rfl

/-- The order in which live blocks are listed does not matter. -/
theorem KheapInv.congr_live {live' : List (Nat × Nat)} (hi : KheapInv h m live)
    (hmem : ∀ b, b ∈ live' ↔ b ∈ live) (hnd : (live'.map Prod.fst).Nodup) :
    KheapInv h m live' := by
  have hfst (a : Nat) : a ∈ live'.map Prod.fst ↔ a ∈ live.map Prod.fst := by
    simp only [List.mem_map, hmem]
  refine ⟨⟨hi.listed, hi.sorted, fun p hp => ?_, hi.apart, fun b hb => ?_, hnd⟩, fun p hp => ?_⟩
  · exact (hi.page p hp).congr (fun _ _ _ => rfl) fun a _ => hfst a
  · exact hi.inside b ((hmem b).mp hb)
  · obtain ⟨a, ha, hblk⟩ := hi.used p hp
    exact ⟨a, (hfst a).mpr ha, hblk⟩

/-- The heap reads the first words of its free blocks and no other memory. -/
theorem KheapInv.congr_mem (hi : KheapInv h m live)
    (hm : ∀ p a, h.InUse p → (h.pagerefs p).IsBlock a → a ∉ live.map Prod.fst →
      m'.word a = m.word a) : KheapInv h m' live :=
  ⟨⟨hi.listed, hi.sorted, fun p hp => (hi.page p hp).congr (fun a ha hd => hm p a hp ha hd)
    fun _ _ => Iff.rfl, hi.apart, hi.inside, hi.nodup⟩, hi.used⟩

theorem KheapCore.length_le {l : List Nat} (hnd : l.Nodup) (hl : ∀ p ∈ l, h.InUse p) :
    l.length ≤ nPagerefs := by
  have hsub : l ⊆ List.range nPagerefs := fun p hp => List.mem_range.mpr (hl p hp).1
  simpa using (hnd.subperm hsub).length_le

/-- The pages of two blocks that share a byte are the same. -/
theorem KheapCore.page_unique (hi : KheapCore h m live) (hp : h.InUse p) (hq : h.InUse q)
    {x : Nat} (hpl : (h.pagerefs p).pageaddr ≤ x) (hpr : x < (h.pagerefs p).pageaddr + pageSize)
    (hql : (h.pagerefs q).pageaddr ≤ x) (hqr : x < (h.pagerefs q).pageaddr + pageSize) :
    p = q := by
  apply hi.apart p q hp hq
  by_contra hne
  have := page_disjoint hne
  omega

end CseOs.Kernel
