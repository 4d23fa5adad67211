import CseOs.Framework.ByteStore
import CseOs.Framework.LinkedList
import CseOs.Kernel.Vm.Pmem

/-!
# The kernel heap: `kheap.c`

Pages of equal blocks are described by page references in a fixed array. Free blocks of a page
form a list through their own first words, so the heap reads and writes the kernel's memory.
The page allocator below the heap is a parameter. A failed assertion and a panic are `none`.
-/

namespace CseOs.Kernel

open Framework

/-- `assert` -/
def assertThat (p : Prop) [Decidable p] : Option Unit := if p then some () else none

@[simp] theorem assertThat_of_pos {p : Prop} [Decidable p] (h : p) : assertThat p = some () :=
  if_pos h

/-- The difference of two 32-bit addresses. -/
def addrSub (a b : Nat) : Nat := (a + 2 ^ 32 - b) % 2 ^ 32

theorem addrSub_of_le {a b : Nat} (hle : b ≤ a) (ha : a < 2 ^ 32) : addrSub a b = a - b := by
  simp only [addrSub]
  omega

/-- The two calls the heap makes to the page allocator. -/
structure PageSupply (σ : Type) where
  allocKpages : Nat → σ → Nat × σ
  freeKpages : Nat → σ → σ

def sizes : List Nat := [16, 32, 64, 128, 256, 512, 1024, 2048]
def nSizes : Nat := 8
def largestSubpageSize : Nat := 2048
def nPagerefs : Nat := 256
def inuseWords : Nat := 8
def invalidOffset : Nat := 0xffff

def blockSize (blktype : Nat) : Nat := sizes.getD blktype 0

structure Pageref where
  nextSamesize : Option Nat
  nextAll : Option Nat
  pageaddrAndBlocktype : Nat
  freelistOffset : Nat
  nfree : Nat

/-- `PR_PAGEADDR` -/
def Pageref.pageaddr (pr : Pageref) : Nat := roundDown pr.pageaddrAndBlocktype

/-- `PR_BLOCKTYPE` -/
def Pageref.blocktype (pr : Pageref) : Nat := pr.pageaddrAndBlocktype % pageSize

/-- `MKPAB` -/
def mkpab (pa blk : Nat) : Nat := roundDown pa + blk % pageSize

/-- The static data of `kheap.c`; page references are named by their index in the array. -/
structure Kheap where
  pagerefs : Nat → Pageref
  pagerefsInuse : Nat → BitVec 32
  sizebases : Nat → Option Nat
  allbase : Option Nat

/-- The heap as the kernel's BSS holds it at startup. -/
def Kheap.initial : Kheap where
  pagerefs := fun _ => ⟨none, none, 0, 0, 0⟩
  pagerefsInuse := fun _ => 0
  sizebases := fun _ => none
  allbase := none

/-- The heap's own data with the memory and the page allocator it works on. -/
structure HeapSt (σ : Type) where
  kheap : Kheap
  mem : ByteStore
  pages : σ

namespace Kheap

def setPageref (h : Kheap) (p : Nat) (pr : Pageref) : Kheap :=
  { h with pagerefs := Function.update h.pagerefs p pr }

def setInuse (h : Kheap) (i : Nat) (w : BitVec 32) : Kheap :=
  { h with pagerefsInuse := Function.update h.pagerefsInuse i w }

/-- Returns no reference when all are in use. -/
def allocpageref (h : Kheap) : Option (Option Nat × Kheap) :=
  match (List.range inuseWords).find? fun i => h.pagerefsInuse i ≠ BitVec.allOnes 32 with
  | none => some (none, h)
  | some i =>
    match (List.range 32).find? fun j => h.pagerefsInuse i &&& BitVec.twoPow 32 j = 0#32 with
    | none => none
    | some j =>
      some (some (i * 32 + j), h.setInuse i (h.pagerefsInuse i ||| BitVec.twoPow 32 j))

def freepageref (h : Kheap) (p : Nat) : Option Kheap := do
  assertThat (p < nPagerefs)
  let i := p / 32
  let k := BitVec.twoPow 32 (p % 32)
  assertThat (h.pagerefsInuse i &&& k ≠ 0#32)
  return h.setInuse i (h.pagerefsInuse i &&& ~~~k)

/-- The list of all pages of one size, threaded through `next_samesize`. -/
def sizeLinks (h : Kheap) (blktype : Nat) : Links Nat where
  head := h.sizebases blktype
  next := fun p => (h.pagerefs p).nextSamesize

def setSizeLinks (h : Kheap) (blktype : Nat) (k : Links Nat) : Kheap :=
  { h with
    sizebases := Function.update h.sizebases blktype k.head
    pagerefs := fun p => { h.pagerefs p with nextSamesize := k.next p } }

/-- The list of all pages, threaded through `next_all`. -/
def allLinks (h : Kheap) : Links Nat where
  head := h.allbase
  next := fun p => (h.pagerefs p).nextAll

def setAllLinks (h : Kheap) (k : Links Nat) : Kheap :=
  { h with
    allbase := k.head
    pagerefs := fun p => { h.pagerefs p with nextAll := k.next p } }

def removeLists (h : Kheap) (pr blktype : Nat) : Option Kheap := do
  assertThat (blktype < nSizes)
  let k ← (h.sizeLinks blktype).unlink pr nPagerefs none
  let h := h.setSizeLinks blktype k
  let k ← h.allLinks.unlink pr nPagerefs none
  return h.setAllLinks k

end Kheap

def fillDeadbeef (m : ByteStore) (ptr len : Nat) : ByteStore :=
  (List.range (len / 4)).foldl (fun m i => m.setWord (ptr + 4 * i) 0xdeadbeef) m

/-- `blocktype`; panics on sizes beyond the largest block. -/
def blocktypeOf (sz : Nat) : Option Nat :=
  (List.range nSizes).find? fun i => sz ≤ blockSize i

/-- The loop that links the blocks of a fresh page, each to the one before it. -/
def threadBlocks (fla size : Nat) : Nat → ByteStore → Option ByteStore
  | 0, m => some (m.setWord fla 0)
  | i + 1, m => do
    let m ← threadBlocks fla size i m
    let fl := fla + (i + 1) * size
    let m := m.setWord fl (fla + i * size)
    assertThat (fl ≠ m.word fl)
    return m

namespace HeapSt

variable {σ : Type}

/-- The code behind the label `doalloc`: take the first free block of a page. -/
def doalloc (p : Nat) (st : HeapSt σ) : Option (Nat × HeapSt σ) := do
  let pr := st.kheap.pagerefs p
  assertThat (pr.freelistOffset < pageSize)
  let prpage := pr.pageaddr
  let retptr := prpage + pr.freelistOffset
  let fl := st.mem.word retptr
  let nfree := pr.nfree - 1
  if fl ≠ 0 then
    assertThat (0 < nfree)
    let offset := addrSub fl prpage
    assertThat (offset < pageSize)
    return (retptr, { st with
      kheap := st.kheap.setPageref p { pr with nfree := nfree, freelistOffset := offset } })
  else
    assertThat (nfree = 0)
    return (retptr, { st with
      kheap := st.kheap.setPageref p { pr with nfree := nfree, freelistOffset := invalidOffset } })

/-- Make a page from the page allocator into a page of free blocks. -/
def carve (p prpage blktype : Nat) (st : HeapSt σ) : Option (HeapSt σ) := do
  let nfree := pageSize / blockSize blktype
  let m ← threadBlocks prpage (blockSize blktype) (nfree - 1) st.mem
  let pr : Pageref :=
    { nextSamesize := st.kheap.sizebases blktype
      nextAll := st.kheap.allbase
      pageaddrAndBlocktype := mkpab prpage blktype
      freelistOffset := (nfree - 1) * blockSize blktype
      nfree := nfree }
  return { st with
    mem := m
    kheap :=
      { st.kheap.setPageref p pr with
        sizebases := Function.update st.kheap.sizebases blktype (some p)
        allbase := some p } }

/-- The first page of a size with a free block. -/
def findFree (blktype : Nat) (st : HeapSt σ) : Option (Option Nat) :=
  walk (fun p => (st.kheap.pagerefs p).nextSamesize)
    (fun p => (st.kheap.pagerefs p).blocktype = blktype)
    (fun p => 0 < (st.kheap.pagerefs p).nfree) nPagerefs (st.kheap.sizebases blktype)

def subpageKmalloc (S : PageSupply σ) (sz : Nat) (st : HeapSt σ) : Option (Nat × HeapSt σ) := do
  let blktype ← blocktypeOf sz
  match ← st.findFree blktype with
  | some p => st.doalloc p
  | none =>
    let (pr, kheap) ← st.kheap.allocpageref
    match pr with
    | none => return (0, st)
    | some p =>
      let (prpage, pages) := S.allocKpages 1 st.pages
      if prpage = 0 then
        let kheap ← kheap.freepageref p
        return (0, { st with kheap := kheap, pages := pages })
      else
        let st ← carve p prpage blktype { st with kheap := kheap, pages := pages }
        st.doalloc p

/-- The page a pointer lies in. -/
def findPage (ptr : Nat) (st : HeapSt σ) : Option (Option Nat) :=
  walk (fun p => (st.kheap.pagerefs p).nextAll)
    (fun p => (st.kheap.pagerefs p).blocktype < nSizes)
    (fun p => (st.kheap.pagerefs p).pageaddr ≤ ptr ∧
      ptr < ((st.kheap.pagerefs p).pageaddr + pageSize) % 2 ^ 32)
    nPagerefs st.kheap.allbase

/-- Tells whether the pointer lies in a page of the heap. -/
def subpageKfree (S : PageSupply σ) (ptr : Nat) (st : HeapSt σ) : Option (Bool × HeapSt σ) := do
  match ← st.findPage ptr with
  | none => return (false, st)
  | some p =>
    let pr := st.kheap.pagerefs p
    let size := blockSize pr.blocktype
    let offset := ptr - pr.pageaddr
    assertThat (offset < pageSize ∧ offset % size = 0)
    let next := if pr.freelistOffset = invalidOffset then 0 else pr.pageaddr + pr.freelistOffset
    let m := (fillDeadbeef st.mem ptr size).setWord (pr.pageaddr + offset) next
    let kheap :=
      st.kheap.setPageref p { pr with freelistOffset := offset, nfree := pr.nfree + 1 }
    assertThat (pr.nfree + 1 ≤ pageSize / size)
    if pr.nfree + 1 = pageSize / size then
      let kheap ← kheap.removeLists p pr.blocktype
      let pages := S.freeKpages pr.pageaddr st.pages
      let kheap ← kheap.freepageref p
      return (true, ⟨kheap, m, pages⟩)
    else
      return (true, { st with kheap := kheap, mem := m })

/-- The number of pages behind a large request; the rounding wraps at 32 bits. -/
def bigPages (sz : Nat) : Nat := (sz + pageSize - 1) % 2 ^ 32 / pageSize

def kmalloc (S : PageSupply σ) (sz : Nat) (st : HeapSt σ) : Option (Nat × HeapSt σ) :=
  if largestSubpageSize ≤ sz then
    let r := S.allocKpages (bigPages sz) st.pages
    some (r.1, { st with pages := r.2 })
  else
    st.subpageKmalloc S sz

def kfree (S : PageSupply σ) (ptr : Nat) (st : HeapSt σ) : Option (HeapSt σ) :=
  if ptr = 0 then
    some st
  else do
    let r ← st.subpageKfree S ptr
    if r.1 then
      return r.2
    else
      assertThat (ptr % pageSize = 0)
      return { r.2 with pages := S.freeKpages ptr r.2.pages }

end HeapSt

end CseOs.Kernel
