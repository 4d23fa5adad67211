import CseOs.Kernel.Sfs.BlockIo

/-!
# Files as maps to disk blocks: `sfs_vnode.c`

A volume with one open file, over a block layer that either transfers a whole block or reports an
error and changes nothing on the disk. `sfs_bmap` finds the disk block of a file block through the
direct blocks or the indirect block, and allocates it on demand.
-/

namespace CseOs.Kernel.Sfs

open Framework Prog

/-- `SFS_NDIRECT` -/
def nDirect : Nat := 15

/-- `SFS_DBPERIDB` -/
def dbPerIdb : Nat := 128

def maxFileBlocks : Nat := nDirect + dbPerIdb

/-- `struct sfs_inode`, as far as file I/O uses it -/
structure Inode where
  size : Nat
  direct : Nat → Nat
  indirect : Nat

/-- The request in progress, the disk, the pattern of the block layer's errors, of which `ios` were
used up, the free map, and the file's inode in memory. -/
structure SfsSt where
  req : Transfer
  disk : Nat → ByteStore
  ioErrors : Nat → Option Errno
  ios : Nat
  nblocks : Nat
  nbits : Nat
  freemap : Nat → Bool
  freemapDirty : Bool
  inode : Inode
  dirty : Bool

namespace SfsSt

def setReq (w : Transfer) (s : SfsSt) : SfsSt := { s with req := w }

def setBlock (block : Nat) (data : ByteStore) (s : SfsSt) : SfsSt :=
  { s with disk := Function.update s.disk block data }

def countIo (s : SfsSt) : SfsSt := { s with ios := s.ios + 1 }

/-- Sets or clears a bit of the free map. -/
def mark (block : Nat) (used : Bool) (s : SfsSt) : SfsSt :=
  { s with freemap := Function.update s.freemap block used, freemapDirty := true }

def setDirect (i block : Nat) (s : SfsSt) : SfsSt :=
  { s with inode := { s.inode with direct := Function.update s.inode.direct i block }, dirty := true }

def setIndirect (block : Nat) (s : SfsSt) : SfsSt :=
  { s with inode := { s.inode with indirect := block }, dirty := true }

def setSize (size : Nat) (s : SfsSt) : SfsSt :=
  { s with inode := { s.inode with size := size }, dirty := true }

/-- One request to the block layer, which may fail. -/
def blockRequest : Prog SfsSt Errno Unit := do
  let s ← state
  update countIo
  match s.ioErrors s.ios with
  | some e => raise e
  | none => return ()

/-- `sfs_rblock` -/
def rblock (block : Nat) : Prog SfsSt Errno ByteStore := do
  blockRequest
  let s ← state
  return s.disk block

/-- `sfs_wblock` -/
def wblock (data : ByteStore) (block : Nat) : Prog SfsSt Errno Unit := do
  blockRequest
  update (setBlock block data)

/-- `sfs_rwblock` on the request: a write takes the data first, a read delivers it last. -/
def rwblock : Prog SfsSt Errno Unit := do
  let s ← state
  let block := s.req.uio.offset / blockSize
  match s.req.uio.rw with
  | .read => do
    let buf ← rblock block
    let _ ← zoom req setReq (uiomove 0 blockSize buf)
    return ()
  | .write => do
    let buf ← zoom req setReq (uiomove 0 blockSize zeros)
    wblock buf block

/-- `bitmap_alloc` finds the lowest clear bit. -/
def firstFree (s : SfsSt) : Option Nat := (List.range s.nbits).find? fun i => !s.freemap i

/-- `sfs_balloc` -/
def balloc : Prog SfsSt Errno Nat := do
  let s ← state
  match s.firstFree with
  | none => raise .enospc
  | some block => do
    update (mark block true)
    if s.nblocks ≤ block then
      diverge
    else do
      wblock zeros block
      return block

/-- `sfs_bfree`; `bitmap_unmark` asserts that the bit is set. -/
def bfree (block : Nat) : Prog SfsSt Errno Unit := do
  let s ← state
  if block < s.nbits ∧ s.freemap block = true then update (mark block false) else diverge

/-- A data block that is marked free is a panic, and so is one beyond the volume. -/
def checkUsed (block : Nat) : Prog SfsSt Errno Unit := do
  let s ← state
  if block = 0 ∨ block < s.nblocks ∧ s.freemap block = true then return () else diverge

/-- Where there is no block, one is allocated and remembered. -/
def allocMissing (block : Nat) (doalloc : Bool) (remember : Nat → Prog SfsSt Errno Unit) :
    Prog SfsSt Errno Nat :=
  if block = 0 ∧ doalloc = true then do
    let block ← balloc
    remember block
    return block
  else
    return block

/-- `sfs_bmap` for a direct block -/
def bmapDirect (fileblock : Nat) (doalloc : Bool) : Prog SfsSt Errno Nat := do
  let s ← state
  let block ← allocMissing (s.inode.direct fileblock) doalloc fun block =>
    update (setDirect fileblock block)
  checkUsed block
  return block

/-- The indirect block and what is in it; a missing one is allocated. -/
def loadIndirect : Prog SfsSt Errno (Nat × ByteStore) := do
  let s ← state
  let idblock := s.inode.indirect
  if idblock = 0 then do
    let idblock ← balloc
    update (setIndirect idblock)
    return (idblock, zeros)
  else do
    let idbuf ← rblock idblock
    return (idblock, idbuf)

/-- The block in slot `idoff` of the indirect block; a missing one is allocated. -/
def bmapEntry (idblock : Nat) (idbuf : ByteStore) (idoff : Nat) (doalloc : Bool) :
    Prog SfsSt Errno Nat := do
  let block ← allocMissing (idbuf.word (4 * idoff)) doalloc fun block =>
    wblock (idbuf.setWord (4 * idoff) block) idblock
  checkUsed block
  return block

/-- `sfs_bmap` for slot `idoff` of the indirect block. Without `doalloc` a missing indirect block
is taken to be full of zeros. -/
def bmapIndirect (idoff : Nat) (doalloc : Bool) : Prog SfsSt Errno Nat := do
  let s ← state
  if s.inode.indirect = 0 ∧ doalloc = false then
    return 0
  else do
    let loaded ← loadIndirect
    bmapEntry loaded.1 loaded.2 idoff doalloc

/-- `sfs_bmap` -/
def bmap (fileblock : Nat) (doalloc : Bool) : Prog SfsSt Errno Nat :=
  if fileblock < nDirect then
    bmapDirect fileblock doalloc
  else do
    let fileblock := fileblock - nDirect
    let idnum := fileblock / dbPerIdb
    let idoff := fileblock % dbPerIdb
    raiseIf (0 < idnum) .einval
    bmapIndirect idoff doalloc

/-- Slot `j` of the indirect block; there is none if there is no indirect block. -/
def entry (s : SfsSt) (j : Nat) : Nat :=
  if s.inode.indirect = 0 then 0 else (s.disk s.inode.indirect).word (4 * j)

/-- The disk block of a file block, or 0. -/
def fileBlock (s : SfsSt) (b : Nat) : Nat :=
  if b < nDirect then s.inode.direct b
  else if b < maxFileBlocks then s.entry (b - nDirect)
  else 0

/-- The byte of the file at a position. A hole reads as zero. -/
def content (s : SfsSt) (x : Nat) : UInt8 :=
  if s.fileBlock (x / blockSize) = 0 then 0
  else s.disk (s.fileBlock (x / blockSize)) (x % blockSize)

/-- The blocks that a file refers to: its indirect block and its data blocks. -/
def ref (s : SfsSt) : Option Nat → Nat
  | none => s.inode.indirect
  | some b => s.fileBlock b

/-- The blocks of the file are distinct, in the volume and marked in the free map, and the free map
has no free bits but those of the volume. -/
structure Consistent (s : SfsSt) : Prop where
  small : s.nblocks ≤ maxBlocks
  bits : s.nblocks ≤ s.nbits
  tail : ∀ b, s.nblocks ≤ b → b < s.nbits → s.freemap b = true
  superblock : s.freemap 0 = true
  used : ∀ r, s.ref r ≠ 0 → s.ref r < s.nblocks ∧ s.freemap (s.ref r) = true
  distinct : ∀ r r', s.ref r = s.ref r' → s.ref r ≠ 0 → r = r'

variable {s t : SfsSt} {b d j x : Nat} {r : Option Nat}

theorem ref_none : s.ref none = s.inode.indirect := rfl

theorem ref_some (b : Nat) : s.ref (some b) = s.fileBlock b := rfl

theorem fileBlock_eq_ref : t.ref = s.ref → t.fileBlock = s.fileBlock :=
  fun h => funext fun b => congrFun h (some b)

/-- The same inode over the same indirect block refers to the same blocks. -/
theorem ref_congr (hinode : t.inode = s.inode)
    (hdisk : s.inode.indirect ≠ 0 → t.disk s.inode.indirect = s.disk s.inode.indirect) :
    t.ref = s.ref := by
  funext r
  cases r with
  | none => simp only [ref, hinode]
  | some b =>
    simp only [ref, fileBlock, entry, hinode]
    by_cases h0 : s.inode.indirect = 0
    · simp only [h0, if_true]
    · simp only [h0, if_false, hdisk h0]

theorem content_congr (href : t.ref = s.ref)
    (hdisk : ∀ b, s.fileBlock b ≠ 0 → t.disk (s.fileBlock b) = s.disk (s.fileBlock b)) :
    t.content = s.content := by
  funext x
  simp only [content, fileBlock_eq_ref href]
  split
  · rfl
  · rename_i hne
    rw [hdisk _ hne]

/-- More bits in the free map are no harm. -/
theorem Consistent.of_ref (h : s.Consistent) (href : t.ref = s.ref) (hn : t.nblocks = s.nblocks)
    (hb : t.nbits = s.nbits) (hfree : ∀ x, s.freemap x = true → t.freemap x = true) :
    t.Consistent where
  small := hn ▸ h.small
  bits := by rw [hn, hb]; exact h.bits
  tail := by
    rw [hn, hb]
    exact fun b hlo hhi => hfree b (h.tail b hlo hhi)
  superblock := hfree 0 h.superblock
  used := by
    rw [href, hn]
    exact fun r hr => ⟨(h.used r hr).1, hfree _ (h.used r hr).2⟩
  distinct := by
    rw [href]
    exact h.distinct

/-- A block that was just allocated. -/
structure Fresh (s : SfsSt) (d : Nat) : Prop where
  ne_zero : d ≠ 0
  lt : d < s.nblocks
  marked : s.freemap d = true
  unused : ∀ r, s.ref r ≠ d
  clear : s.disk d = zeros

theorem Consistent.attach (h : s.Consistent) (hd : s.Fresh d) (hr : s.ref r = 0)
    (href : t.ref = Function.update s.ref r d) (hn : t.nblocks = s.nblocks)
    (hb : t.nbits = s.nbits) (hfree : t.freemap = s.freemap)
    (hdisk : ∀ b, s.fileBlock b ≠ 0 → t.disk (s.fileBlock b) = s.disk (s.fileBlock b))
    (hnew : t.disk d = zeros) : t.Consistent ∧ t.content = s.content := by
  have hself : t.ref r = d := by rw [href, Function.update_self]
  have hother (r' : Option Nat) (hne : r' ≠ r) : t.ref r' = s.ref r' := by
    rw [href, Function.update_of_ne hne]
  refine ⟨⟨hn ▸ h.small, by rw [hn, hb]; exact h.bits, ?_, hfree ▸ h.superblock, ?_, ?_⟩, ?_⟩
  · rw [hn, hb, hfree]
    exact h.tail
  · intro r' hne
    rw [hn, hfree]
    by_cases hr' : r' = r
    · rw [hr', hself]
      exact ⟨hd.lt, hd.marked⟩
    · rw [hother r' hr'] at hne ⊢
      exact h.used r' hne
  · intro r₁ r₂ heq hne
    by_cases h₁ : r₁ = r
    · by_cases h₂ : r₂ = r
      · rw [h₁, h₂]
      · rw [h₁, hself, hother r₂ h₂] at heq
        exact absurd heq.symm (hd.unused r₂)
    · by_cases h₂ : r₂ = r
      · rw [h₂, hself, hother r₁ h₁] at heq
        exact absurd heq (hd.unused r₁)
      · rw [hother r₁ h₁, hother r₂ h₂] at heq
        rw [hother r₁ h₁] at hne
        exact h.distinct r₁ r₂ heq hne
  · funext x
    simp only [content]
    by_cases hx : some (x / blockSize) = r
    · have hs : s.fileBlock (x / blockSize) = 0 := by
        rw [← ref_some, hx, hr]
      have ht : t.fileBlock (x / blockSize) = d := by
        rw [← ref_some, hx, hself]
      rw [ht, hs, if_neg hd.ne_zero, hnew]
      rfl
    · have ht : t.fileBlock (x / blockSize) = s.fileBlock (x / blockSize) := hother _ hx
      rw [ht]
      split
      · rfl
      · rename_i hne
        rw [hdisk _ hne]

/-- Nothing that a reader of the file can see was changed. -/
structure Kept (s t : SfsSt) : Prop where
  consistent : t.Consistent
  content : t.content = s.content
  size : t.inode.size = s.inode.size
  req : t.req = s.req
  errors : t.ioErrors = s.ioErrors

private theorem Consistent.kept (h : s.Consistent) : s.Kept s := ⟨h, rfl, rfl, rfl, rfl⟩

theorem Kept.trans {u : SfsSt} (h : s.Kept t) (h' : t.Kept u) : s.Kept u :=
  ⟨h'.consistent, h'.content.trans h.content, h'.size.trans h.size, h'.req.trans h.req,
    h'.errors.trans h.errors⟩

theorem Consistent.kept_countIo (h : s.Consistent) : s.Kept s.countIo :=
  ⟨h.of_ref rfl rfl rfl fun _ hx => hx, rfl, rfl, rfl, rfl⟩

private theorem Consistent.kept_mark (h : s.Consistent) : s.Kept (s.mark b true) := by
  refine ⟨h.of_ref rfl rfl rfl fun x hx => ?_, rfl, rfl, rfl, rfl⟩
  by_cases hxb : x = b
  · rw [hxb]
    exact Function.update_self ..
  · exact (Function.update_of_ne hxb ..).trans hx

theorem Consistent.kept_setBlock {data : ByteStore} (h : s.Consistent) (hd : ∀ r, s.ref r ≠ d) :
    s.Kept (s.setBlock d data) ∧ (s.setBlock d data).ref = s.ref := by
  have hother (r : Option Nat) : (s.setBlock d data).disk (s.ref r) = s.disk (s.ref r) :=
    Function.update_of_ne (hd r) ..
  have href : (s.setBlock d data).ref = s.ref := ref_congr rfl fun _ => hother none
  exact ⟨⟨h.of_ref href rfl rfl fun _ hx => hx, content_congr href fun b _ => hother (some b),
    rfl, rfl, rfl⟩, href⟩

section

variable {Q : Unit → SfsSt → Prop} {E : Errno → SfsSt → Prop}

private theorem wp_blockRequest : wp blockRequest Q E s ↔
    match s.ioErrors s.ios with
    | some e => E e s.countIo
    | none => Q () s.countIo := by
  simp only [blockRequest, wp_bind, wp_state, wp_update]
  cases s.ioErrors s.ios <;> rfl

theorem wp_wblock {data : ByteStore} : wp (wblock data d) Q E s ↔
    match s.ioErrors s.ios with
    | some e => E e s.countIo
    | none => Q () (s.countIo.setBlock d data) := by
  simp only [wblock, wp_bind, wp_blockRequest, wp_update]

theorem wp_rblock {Q : ByteStore → SfsSt → Prop} : wp (rblock d) Q E s ↔
    match s.ioErrors s.ios with
    | some e => E e s.countIo
    | none => Q (s.disk d) s.countIo := by
  simp only [rblock, wp_bind, wp_blockRequest]
  cases s.ioErrors s.ios <;> rfl

end

theorem firstFree_spec (h : s.firstFree = some d) : d < s.nbits ∧ s.freemap d = false := by
  have hp := List.find?_some h
  have hm := List.mem_of_find?_eq_some h
  simp only [List.mem_range] at hm
  simp only [Bool.not_eq_true'] at hp
  exact ⟨hm, hp⟩

/-- A block that is free is in the volume and not in the file. -/
theorem Consistent.free_block (h : s.Consistent) (hd : d < s.nbits) (hfree : s.freemap d = false) :
    d ≠ 0 ∧ d < s.nblocks ∧ ∀ r, s.ref r ≠ d := by
  have hne : d ≠ 0 := by
    intro h0
    simp [h0, h.superblock] at hfree
  refine ⟨hne, ?_, fun r hr => ?_⟩
  · by_contra hge
    simp [h.tail d (by omega) hd] at hfree
  · have hused := (h.used r (by rw [hr]; exact hne)).2
    simp [hr, hfree] at hused

/-- A block was allocated, and nothing refers to it yet. -/
structure Allocated (s : SfsSt) (d : Nat) (t : SfsSt) : Prop where
  kept : s.Kept t
  fresh : t.Fresh d
  inode : t.inode = s.inode
  disk : ∀ b ≠ d, t.disk b = s.disk b

/-- `sfs_balloc` returns a fresh block, or fails without harm to the file. -/
theorem Consistent.wp_balloc (h : s.Consistent) :
    wp balloc (fun d t => s.Allocated d t) (fun _ t => s.Kept t) s := by
  simp only [balloc, wp_bind, wp_state]
  cases hf : s.firstFree with
  | none => exact h.kept
  | some d =>
    obtain ⟨hbits, hfree⟩ := firstFree_spec hf
    obtain ⟨hne, hlt, hunused⟩ := h.free_block hbits hfree
    have hmark := h.kept_mark (b := d)
    have hcount := hmark.trans hmark.consistent.kept_countIo
    have hin : ¬ s.nblocks ≤ d := by omega
    simp only [wp_bind, wp_update, wp_ite, wp_wblock, wp_pure]
    rw [if_neg hin]
    cases (s.mark d true).ioErrors (s.mark d true).ios with
    | some e => exact hcount
    | none =>
      have href : (s.mark d true).countIo.ref = s.ref := rfl
      have hfresh : ∀ r, (s.mark d true).countIo.ref r ≠ d := fun r => href ▸ hunused r
      obtain ⟨hset, href'⟩ := @Consistent.kept_setBlock _ _ zeros hcount.consistent hfresh
      refine ⟨hcount.trans hset, ⟨hne, hlt, ?_, fun r => ?_, ?_⟩, rfl, fun b hb => ?_⟩
      · exact Function.update_self ..
      · rw [href', href]
        exact hunused r
      · exact Function.update_self ..
      · exact Function.update_of_ne hb ..

/-- Linking a fresh block into the file keeps everything, and the block is found there. -/
structure Linked (s t : SfsSt) (r : Option Nat) (d : Nat) : Prop where
  kept : s.Kept t
  ref : t.ref = Function.update s.ref r d

private theorem Linked.found (h : s.Linked t r d) : t.ref r = d := by
  rw [h.ref, Function.update_self]

theorem Consistent.link_direct (h : s.Consistent) (hd : s.Fresh d) (hb : b < nDirect)
    (h0 : s.inode.direct b = 0) : s.Linked (s.setDirect b d) (some b) d := by
  have href : (s.setDirect b d).ref = Function.update s.ref (some b) d := by
    funext r
    cases r with
    | none => rw [Function.update_of_ne (by simp)]; rfl
    | some c =>
      by_cases hc : c = b
      · rw [hc, Function.update_self]
        simp [ref, fileBlock, hb, setDirect]
      · have hne : some c ≠ some b := by simpa using hc
        have hdirect : (s.setDirect b d).inode.direct c = s.inode.direct c :=
          Function.update_of_ne hc ..
        rw [Function.update_of_ne hne, ref, ref, fileBlock, fileBlock, hdirect]
        rfl
  have hr : s.ref (some b) = 0 := by simp [ref, fileBlock, hb, h0]
  obtain ⟨hcons, hcontent⟩ := h.attach hd hr href rfl rfl rfl (fun _ _ => rfl) hd.clear
  exact ⟨⟨hcons, hcontent, rfl, rfl, rfl⟩, href⟩

theorem Consistent.link_indirect (h : s.Consistent) (hd : s.Fresh d) (h0 : s.inode.indirect = 0) :
    s.Linked (s.setIndirect d) none d := by
  have href : (s.setIndirect d).ref = Function.update s.ref none d := by
    funext r
    cases r with
    | none => rw [Function.update_self]; rfl
    | some c =>
      rw [Function.update_of_ne (by simp)]
      have hword : (s.setIndirect d).entry (c - nDirect) = 0 := by
        have hdisk : (s.setIndirect d).disk (s.setIndirect d).inode.indirect = zeros := hd.clear
        simp only [entry, hdisk, zeros_word, ite_self]
      have hnone : s.entry (c - nDirect) = 0 := if_pos h0
      simp only [ref, fileBlock, hword, hnone]
      rfl
  have hr : s.ref none = 0 := h0
  obtain ⟨hcons, hcontent⟩ := h.attach hd hr href rfl rfl rfl (fun _ _ => rfl) hd.clear
  exact ⟨⟨hcons, hcontent, rfl, rfl, rfl⟩, href⟩

theorem entry_setWord {i : Nat} (hi : s.inode.indirect = i) (h0 : i ≠ 0) (hd : d < 2 ^ 32) :
    (s.setBlock i ((s.disk i).setWord (4 * j) d)).entry = Function.update s.entry j d := by
  funext k
  have hdisk : (s.setBlock i ((s.disk i).setWord (4 * j) d)).disk i =
      (s.disk i).setWord (4 * j) d := Function.update_self ..
  have hi' : (s.setBlock i ((s.disk i).setWord (4 * j) d)).inode.indirect = i := hi
  by_cases hk : k = j
  · rw [hk, Function.update_self, entry, hi', if_neg h0, hdisk]
    exact ByteStore.word_setWord_self _ _ hd
  · rw [Function.update_of_ne hk, entry, hi', if_neg h0, hdisk, entry, hi, if_neg h0]
    exact ByteStore.word_setWord_of_disjoint (by omega)

theorem Consistent.link_entry (h : s.Consistent) (hd : s.Fresh d) (hj : j < dbPerIdb) {i : Nat}
    (hi : s.inode.indirect = i) (h0 : i ≠ 0) (hempty : (s.disk i).word (4 * j) = 0) :
    s.Linked (s.setBlock i ((s.disk i).setWord (4 * j) d)) (some (nDirect + j)) d := by
  have h32 : d < 2 ^ 32 := by
    have hlt := hd.lt
    have hsmall := h.small
    simp only [maxBlocks, blockSize] at hsmall
    omega
  have hentry := entry_setWord (j := j) hi h0 h32
  generalize ht : s.setBlock i ((s.disk i).setWord (4 * j) d) = t at hentry
  have hdirect : t.inode = s.inode := by rw [← ht]; rfl
  have hother (b : Nat) (hb : b ≠ i) : t.disk b = s.disk b := by
    rw [← ht]
    exact Function.update_of_ne hb ..
  have hr : s.ref (some (nDirect + j)) = 0 := by
    have hlt : ¬ nDirect + j < nDirect := by omega
    have hmax : nDirect + j < maxFileBlocks := by simp only [maxFileBlocks]; omega
    rw [ref, fileBlock, if_neg hlt, if_pos hmax, Nat.add_sub_cancel_left, entry, hi, if_neg h0]
    exact hempty
  have href : t.ref = Function.update s.ref (some (nDirect + j)) d := by
    funext r
    cases r with
    | none =>
      rw [Function.update_of_ne (by simp), ref_none, ref_none, hdirect]
    | some c =>
      by_cases hc : c = nDirect + j
      · have hlt : ¬ nDirect + j < nDirect := by omega
        have hmax : nDirect + j < maxFileBlocks := by simp only [maxFileBlocks]; omega
        rw [hc, Function.update_self, ref, fileBlock, if_neg hlt, if_pos hmax,
          Nat.add_sub_cancel_left, hentry, Function.update_self]
      · have hne : some c ≠ some (nDirect + j) := by simpa using hc
        rw [Function.update_of_ne hne, ref, ref, fileBlock, fileBlock, hdirect]
        by_cases hlt : c < nDirect
        · rw [if_pos hlt, if_pos hlt]
        · have hj' : c - nDirect ≠ j := by omega
          rw [if_neg hlt, if_neg hlt, hentry, Function.update_of_ne hj']
  have hvol : t.nblocks = s.nblocks ∧ t.nbits = s.nbits ∧ t.freemap = s.freemap := by
    rw [← ht]
    exact ⟨rfl, rfl, rfl⟩
  have hdata (b : Nat) (hb : s.fileBlock b ≠ 0) : t.disk (s.fileBlock b) = s.disk (s.fileBlock b) := by
    apply hother
    intro he
    have hsame := h.distinct (some b) none (he.trans hi.symm) hb
    cases hsame
  have hnew : t.disk d = zeros := by
    rw [hother d fun he => hd.unused none (hi.trans he.symm)]
    exact hd.clear
  obtain ⟨hcons, hcontent⟩ := h.attach hd hr href hvol.1 hvol.2.1 hvol.2.2 hdata hnew
  refine ⟨⟨hcons, hcontent, ?_, ?_, ?_⟩, href⟩ <;> rw [← ht] <;> rfl

/-- The blocks of a consistent file pass the check. -/
theorem Consistent.wp_checkUsed {Q : Unit → SfsSt → Prop} {E : Errno → SfsSt → Prop}
    (h : s.Consistent) : wp (checkUsed (s.ref r)) Q E s ↔ Q () s := by
  have hok : s.ref r = 0 ∨ s.ref r < s.nblocks ∧ s.freemap (s.ref r) = true := by
    by_cases h0 : s.ref r = 0
    · exact Or.inl h0
    · exact Or.inr (h.used r h0)
  simp only [checkUsed, wp_bind, wp_state, wp_ite, if_pos hok, wp_pure]

theorem Consistent.wp_allocMissing (h : s.Consistent) {remember : Nat → Prog SfsSt Errno Unit}
    (hremember : ∀ d t, s.Allocated d t → s.ref r = 0 →
      wp (remember d) (fun _ u => t.Linked u r d) (fun _ u => t.Kept u) t) :
    wp (allocMissing (s.ref r) true remember)
      (fun d t => s.Kept t ∧ t.ref r = d ∧ d ≠ 0) (fun _ t => s.Kept t) s := by
  unfold allocMissing
  by_cases h0 : s.ref r = 0
  · simp only [h0, true_and, if_true, wp_bind]
    apply wp_mono h.wp_balloc
    · intro d t ht
      apply wp_mono (hremember d t ht h0)
      · intro _ u hu
        exact ⟨ht.kept.trans hu.kept, hu.found, ht.fresh.ne_zero⟩
      · exact fun _ u hu => ht.kept.trans hu
    · exact fun _ t ht => ht
  · simp only [h0, false_and, if_false, wp_pure]
    exact ⟨h.kept, trivial, h0⟩

theorem ref_direct (hb : b < nDirect) : s.ref (some b) = s.inode.direct b := by
  simp only [ref, fileBlock, if_pos hb]

/-- A file block beyond the direct ones is in the indirect block. -/
theorem ref_entry (hj : j < dbPerIdb) : s.ref (some (nDirect + j)) = s.entry j := by
  have hlt : ¬ nDirect + j < nDirect := by omega
  have hmax : nDirect + j < maxFileBlocks := by simp only [maxFileBlocks]; omega
  simp only [ref, fileBlock, if_neg hlt, if_pos hmax, Nat.add_sub_cancel_left]

/-- What `sfs_bmap` promises with `doalloc`. -/
def Maps (s : SfsSt) (b d : Nat) (t : SfsSt) : Prop := s.Kept t ∧ t.fileBlock b = d ∧ d ≠ 0

private theorem Consistent.wp_bmapDirect (h : s.Consistent) (hb : b < nDirect) :
    wp (bmapDirect b true) (fun d t => s.Maps b d t) (fun _ t => s.Kept t) s := by
  simp only [bmapDirect, wp_bind, wp_state, ← ref_direct hb]
  have halloc := @Consistent.wp_allocMissing _ (some b) h (fun d => update (setDirect b d)) ?_
  · apply wp_mono halloc
    · intro d t ht
      obtain ⟨hkept, rfl, hne⟩ := ht
      rw [hkept.consistent.wp_checkUsed]
      exact ⟨hkept, rfl, hne⟩
    · exact fun _ t ht => ht
  · intro d t ht h0
    rw [ref_direct hb, ← ht.inode] at h0
    exact ht.kept.consistent.link_direct ht.fresh hb h0

/-- The indirect block is found or made, and what is loaded is what it holds. -/
theorem Consistent.wp_loadIndirect (h : s.Consistent) :
    wp loadIndirect (fun p t => s.Kept t ∧ t.inode.indirect = p.1 ∧ p.1 ≠ 0 ∧ t.disk p.1 = p.2)
      (fun _ t => s.Kept t) s := by
  simp only [loadIndirect, wp_bind, wp_state, wp_ite]
  split
  case isTrue h0 =>
    apply wp_mono h.wp_balloc
    · intro d t ht
      rw [← ht.inode] at h0
      have hlink := ht.kept.consistent.link_indirect ht.fresh h0
      exact ⟨ht.kept.trans hlink.kept, rfl, ht.fresh.ne_zero, ht.fresh.clear⟩
    · exact fun _ t ht => ht
  case isFalse h0 =>
    rw [wp_rblock]
    cases s.ioErrors s.ios with
    | some e => exact h.kept_countIo
    | none => exact ⟨h.kept_countIo, rfl, h0, rfl⟩

private theorem Consistent.wp_bmapEntry (h : s.Consistent) (hj : j < dbPerIdb) {i : Nat}
    (hi : s.inode.indirect = i) (h0 : i ≠ 0) :
    wp (bmapEntry i (s.disk i) j true) (fun d t => s.Maps (nDirect + j) d t)
      (fun _ t => s.Kept t) s := by
  have hentry : (s.disk i).word (4 * j) = s.ref (some (nDirect + j)) := by
    rw [ref_entry hj, entry, hi, if_neg h0]
  simp only [bmapEntry, wp_bind, hentry]
  have halloc := @Consistent.wp_allocMissing _ (some (nDirect + j)) h
    (fun d => wblock ((s.disk i).setWord (4 * j) d) i) ?_
  · apply wp_mono halloc
    · intro d t ht
      obtain ⟨hkept, rfl, hne⟩ := ht
      rw [hkept.consistent.wp_checkUsed]
      exact ⟨hkept, rfl, hne⟩
    · exact fun _ t ht => ht
  · intro d t ht hzero
    have hi' : t.inode.indirect = i := by rw [ht.inode, hi]
    have hdisk : t.disk i = s.disk i :=
      ht.disk i fun he => ht.fresh.unused none (hi'.trans he)
    rw [wp_wblock, ← hdisk]
    cases t.ioErrors t.ios with
    | some e => exact ht.kept.consistent.kept_countIo
    | none =>
      have hcount := ht.kept.consistent.kept_countIo
      have hempty : (t.countIo.disk i).word (4 * j) = 0 := by
        show (t.disk i).word (4 * j) = 0
        rw [hdisk, hentry, hzero]
      have hfresh : t.countIo.Fresh d :=
        ⟨ht.fresh.ne_zero, ht.fresh.lt, ht.fresh.marked, ht.fresh.unused, ht.fresh.clear⟩
      have hlink := hcount.consistent.link_entry hfresh hj (i := i) hi' h0 hempty
      exact ⟨hcount.trans hlink.kept, hlink.ref⟩

theorem bmap_indirect {doalloc : Bool} (hj : j < dbPerIdb) :
    bmap (nDirect + j) doalloc = bmapIndirect j doalloc := by
  have hlt : ¬ nDirect + j < nDirect := by omega
  have hdiv : (nDirect + j - nDirect) / dbPerIdb = 0 := by
    rw [Nat.add_sub_cancel_left, Nat.div_eq_of_lt hj]
  have hmod : (nDirect + j - nDirect) % dbPerIdb = j := by
    rw [Nat.add_sub_cancel_left, Nat.mod_eq_of_lt hj]
  have hid : ¬ 0 < (nDirect + j - nDirect) / dbPerIdb := by omega
  rw [bmap, if_neg hlt]
  show Prog.bind (raiseIf (0 < (nDirect + j - nDirect) / dbPerIdb) Errno.einval) _ = _
  rw [raiseIf, if_neg hid, hmod]
  rfl

theorem wp_bmapIndirect {doalloc : Bool} {Q : Nat → SfsSt → Prop} {E : Errno → SfsSt → Prop}
    (h : ¬ (s.inode.indirect = 0 ∧ doalloc = false)) : wp (bmapIndirect j doalloc) Q E s ↔
      wp loadIndirect (fun p t => wp (bmapEntry p.1 p.2 j doalloc) Q E t) E s := by
  rw [bmapIndirect, wp_bind, wp_state, if_neg h, wp_bind]

/-- A block that no file can have is refused. -/
theorem wp_bmap_beyond {doalloc : Bool} {Q : Nat → SfsSt → Prop} {E : Errno → SfsSt → Prop}
    (hb : maxFileBlocks ≤ b) : wp (bmap b doalloc) Q E s ↔ E .einval s := by
  simp only [maxFileBlocks] at hb
  have hpos : 0 < dbPerIdb := by decide
  have hid : 0 < (b - nDirect) / dbPerIdb := Nat.div_pos (by omega) hpos
  have hlt : ¬ b < nDirect := by omega
  rw [bmap, if_neg hlt, wp_bind, wp_raiseIf, if_pos hid]

/-- A file block is direct, in the indirect block, or beyond what a file can have. -/
theorem fileblock_cases (b : Nat) :
    b < nDirect ∨ (∃ j, j < dbPerIdb ∧ b = nDirect + j) ∨ maxFileBlocks ≤ b := by
  simp only [maxFileBlocks]
  by_cases hb : b < nDirect
  · exact Or.inl hb
  · by_cases hmax : nDirect + dbPerIdb ≤ b
    · exact Or.inr (Or.inr hmax)
    · exact Or.inr (Or.inl ⟨b - nDirect, by omega, by omega⟩)

/-- With `doalloc` a block of the file is found or made, or the file is as before. -/
theorem Consistent.wp_bmap_alloc (h : s.Consistent) :
    wp (bmap b true) (fun d t => s.Maps b d t) (fun _ t => s.Kept t) s := by
  obtain hb | ⟨j, hj, rfl⟩ | hb := fileblock_cases b
  · rw [bmap, if_pos hb]
    exact h.wp_bmapDirect hb
  · rw [bmap_indirect hj, wp_bmapIndirect (by simp)]
    apply wp_mono h.wp_loadIndirect
    · intro p t ht
      obtain ⟨hkept, hi, h0, hdisk⟩ := ht
      have hentry := hkept.consistent.wp_bmapEntry hj hi h0
      rw [hdisk] at hentry
      apply wp_mono hentry
      · exact fun d u hu => ⟨hkept.trans hu.1, hu.2⟩
      · exact fun _ u hu => hkept.trans hu
    · exact fun _ t ht => ht
  · rw [wp_bmap_beyond hb]
    exact h.kept

/-- Only the count of the block layer's requests changed. -/
def Quiet (s t : SfsSt) : Prop := ∃ k, t = { s with ios := k }

private theorem wp_allocMissing_find {remember : Nat → Prog SfsSt Errno Unit} {Q : Nat → SfsSt → Prop}
    {E : Errno → SfsSt → Prop} : wp (allocMissing b false remember) Q E s ↔ Q b s := by
  simp [allocMissing]

private theorem wp_bmapEntry_find {idblock : Nat} {idbuf : ByteStore} {Q : Nat → SfsSt → Prop}
    {E : Errno → SfsSt → Prop} (hb : idbuf.word (4 * j) = b) :
    wp (bmapEntry idblock idbuf j false) Q E s ↔ wp (checkUsed b) (fun _ t => Q b t) E s := by
  rw [bmapEntry, wp_bind, wp_allocMissing_find, wp_bind, hb]
  simp only [wp_pure]

theorem wp_loadIndirect_find {Q : Nat × ByteStore → SfsSt → Prop} {E : Errno → SfsSt → Prop}
    (h0 : s.inode.indirect ≠ 0) (hok : s.ioErrors s.ios = none) : wp loadIndirect Q E s ↔
      Q (s.inode.indirect, s.disk s.inode.indirect) s.countIo := by
  simp only [loadIndirect, wp_bind, wp_state, wp_ite, if_neg h0, wp_rblock, hok, wp_pure]

/-- Without `doalloc` and without errors the block of the file is found. -/
theorem Consistent.wp_bmap_find (h : s.Consistent) (hok : ∀ i, s.ioErrors i = none)
    (hb : b < maxFileBlocks) :
    wp (bmap b false) (fun d t => d = s.fileBlock b ∧ s.Quiet t) (fun _ _ => False) s := by
  obtain hlt | ⟨j, hj, rfl⟩ | hge := fileblock_cases b
  · rw [bmap, if_pos hlt]
    simp only [bmapDirect, wp_bind, wp_state, wp_allocMissing_find, wp_pure, ← ref_direct hlt]
    rw [h.wp_checkUsed]
    exact ⟨rfl, s.ios, rfl⟩
  · have hentry := ref_entry (s := s) hj
    rw [bmap_indirect hj]
    by_cases h0 : s.inode.indirect = 0
    · rw [bmapIndirect, wp_bind, wp_state, if_pos ⟨h0, rfl⟩]
      rw [entry, if_pos h0] at hentry
      exact ⟨hentry.symm, s.ios, rfl⟩
    · rw [entry, if_neg h0] at hentry
      rw [wp_bmapIndirect (by simp [h0]), wp_loadIndirect_find h0 (hok s.ios),
        wp_bmapEntry_find hentry.symm]
      apply (h.kept_countIo.consistent.wp_checkUsed (r := some (nDirect + j))).mpr
      exact ⟨rfl, s.ios + 1, rfl⟩
  · omega

end SfsSt

end CseOs.Kernel.Sfs
