import CseOs.Framework.Transition
import CseOs.Kernel.Heap.Kfree
import CseOs.Kernel.Vm.Frames
import CseOs.Kernel.Vm.PageTable

/-!
# Who owns a page

The kernel together with what its clients hold: pages from `alloc_kpages`, blocks from
`kmalloc` and address spaces. Every range of pages that somebody holds is taken from the
allocator and apart from all others. The lemmas move this invariant through the elementary
changes from which the kernel's operations are composed.
-/

namespace CseOs.Kernel

open Framework KernelSt

inductive Owner
  | table
  | kernel (a : Nat)
  | heapPage (p : Nat)
  | space (as : Nat) (o : SpacePage)
  deriving DecidableEq

/-- What is held is taken from the allocator and apart; what an address space holds was taken
after `vm_bootstrap`, page by page. -/
structure Placed (pm : Pmem) (H : Owner → Nat → Nat → Prop) : Prop where
  taken : ∀ o a n, H o a n → pm.Taken a n
  apart : ∀ o o' a n b k, H o a n → H o' b k → o ≠ o' → RangesApart a n b k
  extent : ∀ as o a n, H (.space as o) a n → n = 1 ∧ pm.Extent a 1

namespace Placed

variable {pm pm' : Pmem} {H H' : Owner → Nat → Nat → Prop} {a n : Nat}

/-- Pages pass to new owners, from different ones to different ones. -/
theorem transfer (hp : Placed pm H) (R : Owner → Nat → Owner → Prop)
    (hsub : ∀ o a n, H' o a n → ∃ o₁, R o a o₁ ∧ H o₁ a n)
    (hinj : ∀ o o' a n b k o₁, H' o a n → H' o' b k → R o a o₁ → R o' b o₁ → o = o')
    (hext : ∀ as o a n, H' (.space as o) a n → n = 1 ∧ pm.Extent a 1) : Placed pm H' where
  taken o a n h := by
    obtain ⟨o₁, _, h₁⟩ := hsub o a n h
    exact hp.taken o₁ a n h₁
  apart o o' a n b k h h' hne := by
    obtain ⟨o₁, hr, h₁⟩ := hsub o a n h
    obtain ⟨o₂, hr', h₂⟩ := hsub o' b k h'
    refine hp.apart o₁ o₂ a n b k h₁ h₂ fun he => hne ?_
    subst he
    exact hinj o o' a n b k o₁ h h' hr hr'
  extent := hext

theorem sub (hp : Placed pm H) (hsub : ∀ o a n, H' o a n → H o a n) : Placed pm H' where
  taken o a n h := hp.taken o a n (hsub o a n h)
  apart o o' a n b k h h' := hp.apart o o' a n b k (hsub o a n h) (hsub o' b k h')
  extent as o a n h := hp.extent as o a n (hsub _ a n h)

/-- A grant to a kernel client or to the heap. -/
theorem grant (hp : Placed pm H) (hg : Pmem.Granted pm pm' a n) (o : Owner)
    (ho : ∀ as q, o ≠ .space as q)
    (hsub : ∀ o' b k, H' o' b k → (o' = o ∧ b = a ∧ k = n) ∨ H o' b k) : Placed pm' H' where
  taken o' b k h := by
    rcases hsub o' b k h with ⟨_, rfl, rfl⟩ | hold
    · exact hg.taken
    · exact (hg.others b k (hp.taken o' b k hold)).1
  apart o₁ o₂ b k c l h₁ h₂ hne := by
    rcases hsub o₁ b k h₁ with ⟨rfl, rfl, rfl⟩ | hold₁
    · rcases hsub o₂ c l h₂ with ⟨rfl, _, _⟩ | hold₂
      · exact absurd rfl hne
      · exact (hg.others c l (hp.taken o₂ c l hold₂)).2
    · rcases hsub o₂ c l h₂ with ⟨rfl, rfl, rfl⟩ | hold₂
      · exact (hg.others b k (hp.taken o₁ b k hold₁)).2.symm
      · exact hp.apart o₁ o₂ b k c l hold₁ hold₂ hne
  extent as q b k h := by
    rcases hsub _ b k h with ⟨he, _, _⟩ | hold
    · exact absurd he.symm (ho as q)
    · obtain ⟨hk, hb⟩ := hp.extent as q b k hold
      exact ⟨hk, hg.extents b 1 hb⟩

theorem refuse (hp : Placed pm H) (hr : Pmem.Refused pm pm' n)
    (hsub : ∀ o b k, H' o b k → H o b k) : Placed pm' H' where
  taken o b k h := (hr.taken b k).mpr (hp.taken o b k (hsub o b k h))
  apart o₁ o₂ b k c l h₁ h₂ := hp.apart o₁ o₂ b k c l (hsub _ _ _ h₁) (hsub _ _ _ h₂)
  extent as q b k h := by
    obtain ⟨hk, hb⟩ := hp.extent as q b k (hsub _ _ _ h)
    exact ⟨hk, (hr.extents b 1).mpr hb⟩

theorem release (hp : Placed pm H) (hr : Pmem.Released pm pm' a n) {o : Owner} (ho : H o a n)
    (hsub : ∀ o' b k, H' o' b k → H o' b k ∧ o' ≠ o) : Placed pm' H' where
  taken o' b k h := by
    obtain ⟨hold, hne⟩ := hsub o' b k h
    exact hr.others b k (hp.taken o' b k hold) (hp.apart o o' a n b k ho hold hne.symm)
  apart o₁ o₂ b k c l h₁ h₂ := hp.apart o₁ o₂ b k c l (hsub _ _ _ h₁).1 (hsub _ _ _ h₂).1
  extent as q b k h := by
    obtain ⟨hold, hne⟩ := hsub _ b k h
    obtain ⟨rfl, hb⟩ := hp.extent as q b k hold
    exact ⟨rfl, hr.extents b 1 hb (hp.apart o _ a n b 1 ho hold hne.symm)⟩

end Placed

/-- The kernel's state with what its clients hold: pages with their number, blocks with the
size that was asked for, address spaces, and for each address space the pages it was given. -/
structure Vm where
  k : KernelSt
  kpages : List (Nat × Nat)
  blocks : List (Nat × Nat)
  spaces : List Nat
  got : Nat → List Nat

namespace Vm

/-- All live blocks of the heap: those of kernel clients and one for each address space. -/
def heapLive (s : Vm) : List (Nat × Nat) :=
  s.blocks ++ s.spaces.map fun as => (as, addrspaceSize)

def Holds (s : Vm) : Owner → Nat → Nat → Prop
  | .table, a, n => s.k.pages.bootstrapped = true ∧ 1 < s.k.pages.systemPages ∧
      a = mipsKseg0 + s.k.pages.lo ∧ n = Pmem.tablePages s.k.pages.systemPages
  | .kernel x, a, n => x = a ∧ (a, n) ∈ s.kpages
  | .heapPage p, a, n => s.k.kheap.InUse p ∧ (s.k.kheap.pagerefs p).pageaddr = a ∧ n = 1
  | .space as o, a, n => as ∈ s.spaces ∧ treePage s.k.mem (asPt s.k.mem as) o = some a ∧ n = 1

structure Inv (s : Vm) : Prop where
  ok : s.k.pages.Ok
  heap : KheapInv s.k.kheap s.k.mem s.heapLive
  placed : Placed s.k.pages s.Holds
  keys : (s.kpages.map Prod.fst).Nodup
  given : ∀ as ∈ s.spaces, (s.got as).Nodup ∧
    ∀ a, a ∈ s.got as ↔ ∃ o, treePage s.k.mem (asPt s.k.mem as) o = some a

end Vm

/-- The byte belongs to the page table or to one of its nodes. -/
def TreeByte (m : ByteStore) (pt x : Nat) : Prop :=
  ∃ o a, (∀ hi mid, o ≠ .user hi mid) ∧ treePage m pt o = some a ∧ a ≤ x ∧ x < a + pageSize

section

variable {m m' : ByteStore} {pt hi mid : Nat}

theorem ptNode_congr (h : ∀ x, TreeByte m pt x → m' x = m x) (hhi : hi < ptFanout) :
    ptNode m' pt hi = ptNode m pt hi := by
  apply ByteStore.word_congr
  intro x hlo hup
  refine h x ⟨.pageTable, pt, fun _ _ => by simp, rfl, by omega, ?_⟩
  simp only [ptFanout, pageSize] at *
  omega

private theorem ptFrame_congr (h : ∀ x, TreeByte m pt x → m' x = m x) (hhi : hi < ptFanout)
    (hmid : mid < ptFanout) : ptFrame m' pt hi mid = ptFrame m pt hi mid := by
  rw [ptFrame, ptFrame, ptNode_congr h hhi]
  by_cases hz : ptNode m pt hi = 0
  · simp [hz]
  · rw [if_neg hz, if_neg hz]
    apply ByteStore.word_congr
    intro x hlo hup
    refine h x ⟨.node hi, ptNode m pt hi, fun _ _ => by simp, ?_, by omega, ?_⟩
    · exact if_pos ⟨hhi, hz⟩
    · simp only [ptFanout, pageSize] at *
      omega

/-- A tree depends on the bytes of its page table and nodes alone. -/
theorem treePage_congr (h : ∀ x, TreeByte m pt x → m' x = m x) (o : SpacePage) :
    treePage m' pt o = treePage m pt o := by
  cases o with
  | pageTable => rfl
  | node hi =>
      simp only [treePage]
      by_cases hhi : hi < ptFanout
      · rw [ptNode_congr h hhi]
      · simp [hhi]
  | user hi mid =>
      simp only [treePage]
      by_cases hhi : hi < ptFanout
      · by_cases hmid : mid < ptFanout
        · rw [ptFrame_congr h hhi hmid]
        · simp [hmid]
      · simp [hhi]

end

namespace Vm

variable {s t : Vm} {m : ByteStore} {as a n x p : Nat} {o : SpacePage}

/-- The byte holds a page table pointer or belongs to a tree. -/
def TreeMem (s : Vm) (x : Nat) : Prop :=
  ∃ as ∈ s.spaces, (as + 20 ≤ x ∧ x < as + 24) ∨ TreeByte s.k.mem (asPt s.k.mem as) x

/-- The byte holds the link of a free block. -/
def FreeWord (s : Vm) (x : Nat) : Prop :=
  ∃ p a, s.k.kheap.InUse p ∧ (s.k.kheap.pagerefs p).IsBlock a ∧ a ∉ s.heapLive.map Prod.fst ∧
    a ≤ x ∧ x < a + 4

private theorem asPt_congr (h : ∀ x, s.TreeMem x → m x = s.k.mem x) (has : as ∈ s.spaces) :
    asPt m as = asPt s.k.mem as := by
  apply ByteStore.word_congr
  intro x hlo hhi
  exact h x ⟨as, has, .inl ⟨hlo, by omega⟩⟩

theorem space_congr (h : ∀ x, s.TreeMem x → m x = s.k.mem x) (has : as ∈ s.spaces)
    (o : SpacePage) : treePage m (asPt m as) o = treePage s.k.mem (asPt s.k.mem as) o := by
  rw [asPt_congr h has]
  exact treePage_congr (fun x hx => h x ⟨as, has, .inr hx⟩) o

/-- Holdings of address spaces depend on their memory alone. -/
theorem holds_space_congr (hs : t.spaces = s.spaces)
    (h : ∀ x, s.TreeMem x → t.k.mem x = s.k.mem x) :
    t.Holds (.space as o) a n ↔ s.Holds (.space as o) a n := by
  simp only [Holds, hs]
  constructor
  · rintro ⟨has, hp, hn⟩
    exact ⟨has, by rwa [← space_congr h has], hn⟩
  · rintro ⟨has, hp, hn⟩
    exact ⟨has, by rwa [space_congr h has], hn⟩

theorem given_congr (hi : Inv s) (hs : t.spaces = s.spaces) (hg : t.got = s.got)
    (h : ∀ x, s.TreeMem x → t.k.mem x = s.k.mem x) :
    ∀ as ∈ t.spaces, (t.got as).Nodup ∧
      ∀ a, a ∈ t.got as ↔ ∃ o, treePage t.k.mem (asPt t.k.mem as) o = some a := by
  intro as has
  rw [hs] at has
  rw [hg]
  refine ⟨(hi.given as has).1, fun a => ?_⟩
  rw [(hi.given as has).2 a]
  simp only [space_congr h has]

theorem mem_heapLive_of_space (has : as ∈ s.spaces) : (as, addrspaceSize) ∈ s.heapLive :=
  List.mem_append_right _ (List.mem_map_of_mem has)

/-- The block of `struct addrspace` lies in a page of the heap. -/
theorem Inv.space_block (hi : Inv s) (has : as ∈ s.spaces) :
    ∃ p, s.k.kheap.InUse p ∧ (s.k.kheap.pagerefs p).IsBlock as ∧
      (s.k.kheap.pagerefs p).size = 32 ∧ as + 32 ≤ (s.k.kheap.pagerefs p).pageaddr + pageSize := by
  obtain ⟨p, hp, hblk, hbt⟩ := hi.heap.inside _ (mem_heapLive_of_space has)
  have hb1 : blocktypeOf addrspaceSize = some 1 := by decide
  have hsz : (s.k.kheap.pagerefs p).size = 32 := by
    rw [hb1] at hbt
    rw [Pageref.size, ← Option.some.inj hbt]
    rfl
  have hend := hblk.end_le (hi.heap.page p hp).sized
  rw [hsz] at hend
  exact ⟨p, hp, hblk, hsz, hend⟩

/-- Reserved memory lies in pages of the heap or of page tables. -/
theorem Inv.treeMem_held (hi : Inv s) (hx : s.TreeMem x) :
    ∃ o a, s.Holds o a 1 ∧ a ≤ x ∧ x < a + pageSize ∧
      ((∃ p, o = .heapPage p) ∨ ∃ as q, o = .space as q ∧ ∀ hi mid, q ≠ .user hi mid) := by
  obtain ⟨as, has, hstruct | ⟨q, a, hq, hqa, hlo, hhi⟩⟩ := hx
  · obtain ⟨p, hp, hblk, _, hend⟩ := hi.space_block has
    have := hblk.1
    exact ⟨.heapPage p, (s.k.kheap.pagerefs p).pageaddr, ⟨hp, rfl, rfl⟩, by omega, by omega,
      .inl ⟨p, rfl⟩⟩
  · exact ⟨.space as q, a, ⟨has, hqa, rfl⟩, hlo, hhi, .inr ⟨as, q, rfl, hq⟩⟩

theorem Inv.freeWord_held (hi : Inv s) (hx : s.FreeWord x) :
    ∃ p, s.k.kheap.InUse p ∧ (s.k.kheap.pagerefs p).pageaddr ≤ x ∧
      x < (s.k.kheap.pagerefs p).pageaddr + pageSize := by
  obtain ⟨p, a, hp, hblk, _, hlo, hhi⟩ := hx
  have hsized := (hi.heap.page p hp).sized
  have hend := hblk.end_le hsized
  have h16 : 16 ≤ (s.k.kheap.pagerefs p).size := (blockSize_cases hsized).1
  have := hblk.1
  exact ⟨p, hp, by omega, by omega⟩

/-- What is held apart from the heap and the trees contains no reserved byte. -/
theorem Inv.not_reserved (hi : Inv s) {o : Owner} (ho : s.Holds o a n)
    (hh : ∀ p, o ≠ .heapPage p) (hs : ∀ as q, o = .space as q → ∃ hi mid, q = .user hi mid)
    (hlo : a ≤ x) (hhi : x < a + n * pageSize) : ¬ s.TreeMem x ∧ ¬ s.FreeWord x := by
  constructor
  · intro hx
    obtain ⟨o', b, hb, hblo, hbhi, hkind⟩ := hi.treeMem_held hx
    have hne : o ≠ o' := by
      rcases hkind with ⟨p, rfl⟩ | ⟨as, q, rfl, hq⟩
      · exact hh p
      · rintro rfl
        obtain ⟨hi, mid, he⟩ := hs as q rfl
        exact hq hi mid he
    have := hi.placed.apart o o' a n b 1 ho hb hne
    simp only [RangesApart] at this
    omega
  · intro hx
    obtain ⟨p, hp, hplo, hphi⟩ := hi.freeWord_held hx
    have := hi.placed.apart o (.heapPage p) a n _ 1 ho ⟨hp, rfl, rfl⟩ (hh p)
    simp only [RangesApart] at this
    omega

/-- A live block that is not the block of an address space contains no reserved byte. -/
theorem Inv.block_not_treeMem (hi : Inv s) (hp : s.k.kheap.InUse p) {b : Nat}
    (hb : (s.k.kheap.pagerefs p).IsBlock b) (hns : b ∉ s.spaces) (hlo : b ≤ x)
    (hhi : x < b + (s.k.kheap.pagerefs p).size) : ¬ s.TreeMem x := by
  have hend := hb.end_le (hi.heap.page p hp).sized
  have hblo := hb.1
  rintro ⟨as, has, ⟨hxlo, hxhi⟩ | ⟨q, a, hq, hqa, halo, hahi⟩⟩
  · obtain ⟨p', hp', hblk, hsz, hend'⟩ := hi.space_block has
    have halo := hblk.1
    by_cases hpp : p = p'
    · subst hpp
      have hne : b ≠ as := fun he => hns (he ▸ has)
      have := hb.disjoint hblk hne
      omega
    · have := page_disjoint fun he => hpp (hi.heap.apart p p' hp hp' he)
      omega
  · have := hi.placed.apart (.heapPage p) (.space as q) _ 1 a 1 ⟨hp, rfl, rfl⟩ ⟨has, hqa, rfl⟩
      (by simp)
    simp only [RangesApart] at this
    omega

/-- The fields of an address space before its page table pointer are not reserved. -/
theorem Inv.fields_not_treeMem (hi : Inv s) (has : as ∈ s.spaces) (hlo : as ≤ x)
    (hhi : x < as + 20) : ¬ s.TreeMem x := by
  obtain ⟨p, hp, hblk, hsz, hend⟩ := hi.space_block has
  have hplo := hblk.1
  rintro ⟨as', has', ⟨hxlo, hxhi⟩ | ⟨q, a, hq, hqa, halo, hahi⟩⟩
  · by_cases he : as = as'
    · omega
    · obtain ⟨p', hp', hblk', hsz', hend'⟩ := hi.space_block has'
      have halo := hblk'.1
      by_cases hpp : p = p'
      · subst hpp
        have := hblk.disjoint hblk' he
        omega
      · have := page_disjoint fun he => hpp (hi.heap.apart p p' hp hp' he)
        omega
  · have := hi.placed.apart (.heapPage p) (.space as' q) _ 1 a 1 ⟨hp, rfl, rfl⟩ ⟨has', hqa, rfl⟩
      (by simp)
    simp only [RangesApart] at this
    omega

/-- A live block contains no link of a free block. -/
theorem Inv.block_not_freeWord (hi : Inv s) (hp : s.k.kheap.InUse p) {b : Nat}
    (hb : (s.k.kheap.pagerefs p).IsBlock b) (hl : b ∈ s.heapLive.map Prod.fst) (hlo : b ≤ x)
    (hhi : x < b + (s.k.kheap.pagerefs p).size) : ¬ s.FreeWord x := by
  have hend := hb.end_le (hi.heap.page p hp).sized
  have hblo := hb.1
  rintro ⟨q, a, hq, ha, hdead, halo, hahi⟩
  have haend := ha.end_le (hi.heap.page q hq).sized
  have hqlo := ha.1
  have h16 : 16 ≤ (s.k.kheap.pagerefs q).size := (blockSize_cases (hi.heap.page q hq).sized).1
  by_cases hpq : p = q
  · subst hpq
    have hne : b ≠ a := fun he => hdead (he ▸ hl)
    have := hb.disjoint ha hne
    omega
  · have := page_disjoint fun he => hpq (hi.heap.apart p q hp hq he)
    omega

end Vm

end CseOs.Kernel
