import CseOs.Kernel.Heap.Kheap

/-!
# Page tables: the second half of `vm.c`, and `addrspace.c`

Page tables, their nodes and `struct addrspace` live in the kernel's memory, so a pointer is an
address and a field is a word. The kernel is the heap over the page allocator of `vm.c`. The
inverted page table itself is kept in the allocator's state and not in the memory.
-/

namespace CseOs.Kernel

open Framework

abbrev KernelSt := HeapSt Pmem

def vmSupply : PageSupply Pmem := ⟨Pmem.allocKpages, Pmem.freeKpages⟩

def ptFanout : Nat := 1024
def stackpages : Nat := 12
def userstack : Nat := mipsKseg0

def einval : Nat := 1
def efault : Nat := 2
def enomem : Nat := 4
def eunimp : Nat := 13

def vmFaultRead : Nat := 0
def vmFaultWrite : Nat := 1
def vmFaultReadonly : Nat := 2

def tlbloDirty : Nat := 0x400
def tlbloValid : Nat := 0x200

/-- Clear `n` words from `a` on, one after the other. -/
def clearWords (m : ByteStore) (a n : Nat) : ByteStore :=
  (List.range n).foldl (fun m i => m.setWord (a + 4 * i) 0) m

namespace KernelSt

/-- The common body of `pt_node_create` and `pt_create`: a page with all children cleared. -/
def tableCreate (k : KernelSt) : Nat × KernelSt :=
  let r := k.pages.allocKpages (nPages (4 * ptFanout))
  if r.1 = 0 then
    (0, { k with pages := r.2 })
  else
    (r.1, { k with mem := clearWords k.mem r.1 ptFanout, pages := r.2 })

def ptNodeCreate (k : KernelSt) : Nat × KernelSt := k.tableCreate
def ptCreate (k : KernelSt) : Nat × KernelSt := k.tableCreate

/-- Releases the pages a node points to and then the node. -/
def ptNodeDestroy (node : Nat) (k : KernelSt) : KernelSt :=
  let freed := (List.range ptFanout).foldl (fun pm i =>
    if k.mem.word (node + 4 * i) ≠ 0 then pm.freePpages (k.mem.word (node + 4 * i)) else pm) k.pages
  { k with pages := freed.freeKpages node }

def ptDestroy (pt : Nat) (k : KernelSt) : KernelSt :=
  let k := (List.range ptFanout).foldl (fun k i =>
    if k.mem.word (pt + 4 * i) ≠ 0 then ptNodeDestroy (k.mem.word (pt + 4 * i)) k else k) k
  { k with pages := k.pages.freeKpages pt }

/-- The first half of `walk_pt`: make the second-level node unless it exists. -/
def walkNode (pt hi : Nat) (k : KernelSt) : Bool × KernelSt :=
  if k.mem.word (pt + 4 * hi) = 0 then
    let r := k.ptNodeCreate
    if r.1 = 0 then
      (false, r.2)
    else
      (true, { r.2 with mem := r.2.mem.setWord (pt + 4 * hi) r.1 })
  else
    (true, k)

/-- The loop that clears a new page through its kernel address. -/
def zeroPage (m : ByteStore) (paddr : Nat) : ByteStore :=
  (List.range pageSize).foldl (fun m i => Function.update m (paddrToKvaddr (paddr + i)) 0) m

/-- The second half of `walk_pt`: make the page unless it exists. -/
def walkLeaf (pt hi mid : Nat) (k : KernelSt) : Nat × KernelSt :=
  if k.mem.word (k.mem.word (pt + 4 * hi) + 4 * mid) = 0 then
    let r := k.pages.allocPpages 1
    if r.1 = 0 then
      (0, { k with pages := r.2 })
    else
      let m := zeroPage k.mem r.1
      let m := m.setWord (m.word (pt + 4 * hi) + 4 * mid) r.1
      (m.word (m.word (pt + 4 * hi) + 4 * mid), { k with mem := m, pages := r.2 })
  else
    (k.mem.word (k.mem.word (pt + 4 * hi) + 4 * mid), k)

/-- The indices `walk_pt` takes from an address. -/
def midOf (faultaddress : Nat) : Nat := faultaddress / 2 ^ 12 % 1024
def hiOf (faultaddress : Nat) : Nat := faultaddress / 2 ^ 22 % 1024

def walkPt (pt faultaddress : Nat) (k : KernelSt) : Nat × KernelSt :=
  let r := walkNode pt (hiOf faultaddress) k
  if r.1 then
    walkLeaf pt (hiOf faultaddress) (midOf faultaddress) r.2
  else
    (0, r.2)

/-- The six words of `struct addrspace`. -/
def addrspaceSize : Nat := 24

def asVbase1 (m : ByteStore) (as : Nat) : Nat := m.word as
def asNpages1 (m : ByteStore) (as : Nat) : Nat := m.word (as + 4)
def asVbase2 (m : ByteStore) (as : Nat) : Nat := m.word (as + 8)
def asNpages2 (m : ByteStore) (as : Nat) : Nat := m.word (as + 12)
def asNpagesS (m : ByteStore) (as : Nat) : Nat := m.word (as + 16)
def asPt (m : ByteStore) (as : Nat) : Nat := m.word (as + 20)

/-- The part of `as_create` after the block: clear the fields, then make the page table. -/
def asSetup (as : Nat) (k : KernelSt) : Option (Nat × KernelSt) :=
  let r := ptCreate { k with mem := clearWords k.mem as 5 }
  if r.1 = 0 then
    (HeapSt.kfree vmSupply as r.2).map fun k => (0, k)
  else
    some (as, { r.2 with mem := r.2.mem.setWord (as + 20) r.1 })

def asCreate (k : KernelSt) : Option (Nat × KernelSt) :=
  (HeapSt.kmalloc vmSupply addrspaceSize k).bind fun r =>
    if r.1 = 0 then some (0, r.2) else asSetup r.1 r.2

def asDestroy (as : Nat) (k : KernelSt) : Option KernelSt :=
  HeapSt.kfree vmSupply as (ptDestroy (asPt k.mem as) k)

def asDefineRegion (as vaddr sz : Nat) (k : KernelSt) : Nat × KernelSt :=
  let sz := (sz + vaddr % pageSize) % 2 ^ 32
  let vaddr := roundDown vaddr
  let npages := roundDown ((sz + pageSize - 1) % 2 ^ 32) / pageSize
  if asNpages1 k.mem as = 0 then
    (0, { k with mem := (k.mem.setWord as vaddr).setWord (as + 4) npages })
  else if asNpages2 k.mem as = 0 then
    (0, { k with mem := (k.mem.setWord (as + 8) vaddr).setWord (as + 12) npages })
  else
    (eunimp, k)

/-- Returns the initial stack pointer next to the error code. -/
def asDefineStack (as : Nat) (k : KernelSt) : Nat × Nat × KernelSt :=
  (0, userstack, { k with mem := k.mem.setWord (as + 16) stackpages })

/-- Region bounds are 32-bit sums, so a region can wrap. -/
def asCheckAccess (m : ByteStore) (as access : Nat) : Nat :=
  let vtop1 := (asVbase1 m as + asNpages1 m as * pageSize) % 2 ^ 32
  let vtop2 := (asVbase2 m as + asNpages2 m as * pageSize) % 2 ^ 32
  let stackbase := (userstack + 2 ^ 32 - asNpagesS m as * pageSize % 2 ^ 32) % 2 ^ 32
  if asVbase1 m as ≤ access ∧ access < vtop1 then 0
  else if asVbase2 m as ≤ access ∧ access < vtop2 then 0
  else if stackbase ≤ access ∧ access < userstack then 0
  else efault

/-- The TLB entry `vm_fault` inserts, as the two halves it hands to `TLB_Random`. -/
abbrev TlbInsert : Type := Nat × Nat

/-- The error code, the entry for the TLB, and the kernel afterwards, for the current address
space `as` (null when there is none). A fault on a read-only page panics. -/
def vmFault (faulttype faultaddress as : Nat) (k : KernelSt) :
    Option (Nat × Option TlbInsert × KernelSt) :=
  let faultaddress := roundDown faultaddress
  if faulttype = vmFaultReadonly then
    none
  else if faulttype ≠ vmFaultRead ∧ faulttype ≠ vmFaultWrite then
    some (einval, none, k)
  else if as = 0 then
    some (efault, none, k)
  else if asCheckAccess k.mem as faultaddress ≠ 0 then
    some (efault, none, k)
  else
    let r := walkPt (asPt k.mem as) faultaddress k
    if r.1 = 0 then
      some (enomem, none, r.2)
    else
      some (0, some (faultaddress, r.1 ||| tlbloDirty ||| tlbloValid), r.2)

end KernelSt

/-- What an address space owns: its page table, second-level nodes and user pages. -/
inductive SpacePage
  | pageTable
  | node (hi : Nat)
  | user (hi mid : Nat)
  deriving DecidableEq

/-- The second-level node of `pt` for the high index, or null. -/
def ptNode (m : ByteStore) (pt hi : Nat) : Nat := m.word (pt + 4 * hi)

/-- The frame `pt` maps for the two indices, or 0. -/
def ptFrame (m : ByteStore) (pt hi mid : Nat) : Nat :=
  if ptNode m pt hi = 0 then 0 else m.word (ptNode m pt hi + 4 * mid)

/-- The kernel address of a page that the tree below `pt` owns. -/
def treePage (m : ByteStore) (pt : Nat) : SpacePage → Option Nat
  | .pageTable => some pt
  | .node hi => if hi < ptFanout ∧ ptNode m pt hi ≠ 0 then some (ptNode m pt hi) else none
  | .user hi mid =>
    if hi < ptFanout ∧ mid < ptFanout ∧ ptFrame m pt hi mid ≠ 0 then
      some (mipsKseg0 + ptFrame m pt hi mid)
    else
      none

end CseOs.Kernel
