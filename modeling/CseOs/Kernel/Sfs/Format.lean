import Mathlib.Data.List.TakeWhile
import CseOs.Kernel.Sfs.Volume

/-!
# The format of a volume: `kern/sfs.h`

The superblock, the inodes and the free map as they are on the disk, and the empty volume that `mksfs`
makes. Numbers are big-endian on the disk.
-/

namespace CseOs.Kernel.Sfs

open Framework

/-- `SFS_MAGIC` -/
def sfsMagic : Nat := 0xabadf001

/-- `SFS_SB_LOCATION` -/
def sbLocation : Nat := 0

/-- `SFS_MAP_LOCATION` -/
def mapLocation : Nat := 2

/-- `SFS_VOLNAME_SIZE` -/
def volnameSize : Nat := 32

/-- `SFS_BLOCKBITS` -/
def blockBits : Nat := blockSize * 8

/-- `SFS_BITBLOCKS` -/
def bitBlocks (nblocks : Nat) : Nat := (nblocks + blockBits - 1) / blockBits

/-- `SFS_BITMAPSIZE` -/
def bitmapSize (nblocks : Nat) : Nat := bitBlocks nblocks * blockBits

def SfsType.code : SfsType → Nat
  | .inval => 0
  | .file => 1
  | .dir => 2

/-- What is no type is no valid type. -/
def SfsType.ofCode : Nat → SfsType
  | 1 => .file
  | 2 => .dir
  | _ => .inval

/-- The words of `struct sfs_inode`; `sfi_waste` is zero. -/
def inodeWord (sv : SfsVnode) (k : Nat) : Nat :=
  if k = 0 then sv.inode.size
  else if k = 1 then sv.type.code * 2 ^ 16 + sv.linkcount % 2 ^ 16
  else if k < 2 + nDirect then sv.inode.direct (k - 2)
  else if k = 2 + nDirect then sv.inode.indirect
  else 0

def inodeBytes (sv : SfsVnode) : ByteStore := ByteStore.ofWords (inodeWord sv)

def inodeOf (data : ByteStore) : SfsVnode where
  inode.size := data.word (4 * 0)
  inode.direct i := if i < nDirect then data.word (4 * (2 + i)) else 0
  inode.indirect := data.word (4 * (2 + nDirect))
  type := .ofCode (data.word (4 * 1) / 2 ^ 16)
  linkcount := data.word (4 * 1) % 2 ^ 16
  dirty := false

/-- The fields have room in `struct sfs_inode`. -/
structure SfsVnode.Fits (sv : SfsVnode) : Prop where
  size : sv.inode.size < 2 ^ 32
  direct : ∀ i < nDirect, sv.inode.direct i < 2 ^ 32
  tail : ∀ i, nDirect ≤ i → sv.inode.direct i = 0
  indirect : sv.inode.indirect < 2 ^ 32
  linkcount : sv.linkcount < 2 ^ 16

/-- Eight bits of the free map, the lowest first -/
def mapByte (freemap : Nat → Bool) (k : Nat) : UInt8 :=
  ⟨(BitVec.ofBoolListLE ((List.range 8).map fun o => freemap (8 * k + o))).setWidth 8⟩

def mapBlock (freemap : Nat → Bool) (j : Nat) : ByteStore := fun i => mapByte freemap (j * blockSize + i)

/-- A bit of the free map on the disk -/
def mapBit (disk : Nat → ByteStore) (b : Nat) : Bool :=
  (disk (mapLocation + b / blockBits) (b % blockBits / 8)).toBitVec.getLsbD (b % 8)

def superBytes (volname : List UInt8) (nblocks : Nat) : ByteStore :=
  (ByteStore.ofWords fun k => if k = 0 then sfsMagic else if k = 1 then nblocks else 0).blit 8
    volname.length (fun i => volname.getD i 0) 0

/-- `doallocbit`, with its assertion -/
def doallocbit (bit : Nat) (bitbuf : Nat → Bool) : Option (Nat → Bool) :=
  if bitbuf bit then none else some (Function.update bitbuf bit true)

def doallocbits (bits : List Nat) (bitbuf : Nat → Bool) : Option (Nat → Bool) :=
  bits.foldlM (fun bitbuf bit => doallocbit bit bitbuf) bitbuf

/-- The bits in the order of `writebitmap` -/
def reservedBits (nblocks : Nat) : List Nat :=
  sbLocation :: rootIno :: ((List.range (bitBlocks nblocks)).map fun i => mapLocation + i) ++
    (List.range (bitmapSize nblocks - nblocks)).map fun i => nblocks + i

/-- The root directory of a new volume -/
def newRoot : SfsVnode := { SfsVnode.blank with type := .dir, linkcount := 1 }

def colon : UInt8 := 58

def slash : UInt8 := 47

/-- The name that `main` makes of its argument: one trailing colon is removed, and slashes are not allowed. -/
def volumeName (arg : List UInt8) : Option (List UInt8) :=
  let s := arg.dropWhile (fun c => c ≠ colon)
  let volname := arg.takeWhile (fun c => c ≠ colon)
  if s ≠ [] ∧ s.length ≠ 1 then none else if slash ∈ volname then none else some volname

/-- `mksfs` on a disk, unless it gives up. On a disk without blocks it cannot write the superblock. -/
def mksfs (arg : List UInt8) (nblocks : Nat) (disk : Nat → ByteStore) : Option (Nat → ByteStore) := do
  let volname ← volumeName arg
  if volnameSize ≤ volname.length ∨ nblocks ≤ sbLocation ∨ 32 < bitBlocks nblocks then none
  else do
    let bitbuf ← doallocbits (reservedBits nblocks) fun _ => false
    return fun b =>
      if b = sbLocation then superBytes volname nblocks
      else if b = rootIno then inodeBytes newRoot
      else if b < mapLocation + bitBlocks nblocks then mapBlock bitbuf (b - mapLocation)
      else disk b

variable {sv : SfsVnode} {data : ByteStore} {freemap bitbuf bitbuf' : Nat → Bool} {disk disk' : Nat → ByteStore}
  {b j k n nblocks : Nat} {arg volname : List UInt8} {bits : List Nat}

/-- A name without colons and slashes is taken, with a colon after it or without. -/
theorem volumeName_eq_some : volumeName arg = some volname ↔
    (arg = volname ∨ arg = volname ++ [colon]) ∧ colon ∉ volname ∧ slash ∉ volname := by
  have hsplit : arg.takeWhile (fun c => c ≠ colon) ++ arg.dropWhile (fun c => c ≠ colon) = arg :=
    List.takeWhile_append_dropWhile
  constructor
  · intro h
    simp only [volumeName, Option.ite_none_left_eq_some, Option.some.injEq] at h
    obtain ⟨hrest, hslash, rfl⟩ := h
    have hcolon : colon ∉ arg.takeWhile (fun c => c ≠ colon) := fun hin => by
      simpa using List.mem_takeWhile_imp hin
    refine ⟨?_, hcolon, hslash⟩
    cases hs : arg.dropWhile (fun c => c ≠ colon) with
    | nil =>
      rw [hs, List.append_nil] at hsplit
      exact .inl hsplit.symm
    | cons c s =>
      rw [hs] at hrest hsplit
      have hnil : s = [] := by simpa using hrest
      have hc : c = colon := by
        have hne : arg.dropWhile (fun c => c ≠ colon) ≠ [] := by
          rw [hs]
          exact List.cons_ne_nil c s
        have hhead := List.head_dropWhile_not (fun c => decide (c ≠ colon)) hne
        simp only [hs, List.head_cons] at hhead
        exact of_decide_eq_false hhead |> not_not.mp
      rw [hnil, hc] at hsplit
      exact .inr hsplit.symm
  · rintro ⟨harg, hcolon, hslash⟩
    have hall : ∀ c ∈ volname, decide (c ≠ colon) = true := fun c hc =>
      decide_eq_true fun he => hcolon (he ▸ hc)
    have hdrop : arg.dropWhile (fun c => c ≠ colon) = [] ∨ arg.dropWhile (fun c => c ≠ colon) = [colon] := by
      rcases harg with rfl | rfl
      · exact .inl (List.dropWhile_eq_nil_iff.mpr hall)
      · exact .inr (List.dropWhile_append_of_pos hall)
    have htake : arg.takeWhile (fun c => c ≠ colon) = volname := by
      rcases harg with rfl | rfl
      · exact List.takeWhile_eq_self_iff.mpr hall
      · rw [List.takeWhile_append_of_pos hall]
        exact List.append_nil _
    have hshort : ¬ (arg.dropWhile (fun c => c ≠ colon) ≠ [] ∧ (arg.dropWhile (fun c => c ≠ colon)).length ≠ 1) := by
      rcases hdrop with hs | hs
      · exact fun hlong => hlong.1 hs
      · exact fun hlong => hlong.2 (congrArg List.length hs)
    simp only [volumeName, if_neg hshort, htake, if_neg hslash]

private theorem SfsType.ofCode_code (type : SfsType) : SfsType.ofCode type.code = type := by
  cases type <;> rfl

private theorem SfsType.code_lt (type : SfsType) : type.code < 2 ^ 16 := by
  cases type <;> decide

private theorem SfsVnode.Fits.word_lt (h : sv.Fits) (k : Nat) : inodeWord sv k < 2 ^ 32 := by
  have hcode := sv.type.code_lt
  unfold inodeWord
  split
  · exact h.size
  · split
    · omega
    · split
      · exact h.direct _ (by omega)
      · split
        · exact h.indirect
        · decide

/-- An inode that is written is read back as it was. -/
theorem inodeOf_inodeBytes (h : sv.Fits) : inodeOf (inodeBytes sv) = { sv with dirty := false } := by
  have hword (k : Nat) : (inodeBytes sv).word (4 * k) = inodeWord sv k := ByteStore.word_ofWords (h.word_lt k)
  have hsecond : inodeWord sv 1 = sv.type.code * 2 ^ 16 + sv.linkcount := by
    simp only [inodeWord, Nat.one_ne_zero, if_true, if_false, Nat.mod_eq_of_lt h.linkcount]
  have htype : inodeWord sv 1 / 2 ^ 16 = sv.type.code := by
    have hlink := h.linkcount
    omega
  have hcount : inodeWord sv 1 % 2 ^ 16 = sv.linkcount := by
    have hlink := h.linkcount
    omega
  have hdirect : (fun i => if i < nDirect then inodeWord sv (2 + i) else 0) = sv.inode.direct := by
    funext i
    split
    case isTrue hi =>
      have h0 : ¬ 2 + i = 0 := by omega
      have h1 : ¬ 2 + i = 1 := by omega
      have hlt : 2 + i < 2 + nDirect := by omega
      rw [inodeWord, if_neg h0, if_neg h1, if_pos hlt, Nat.add_sub_cancel_left]
    case isFalse hi => exact (h.tail i (by omega)).symm
  simp only [inodeOf, hword, htype, hcount, hdirect, SfsType.ofCode_code]
  rfl

/-- A block of zeros is an inode of no type. -/
theorem inodeOf_zeros : inodeOf zeros = SfsVnode.blank := by
  simp [inodeOf, SfsVnode.blank, zeros_word, SfsType.ofCode]

private theorem mapByte_bit {o : Nat} (ho : o < 8) : (mapByte freemap k).toBitVec.getLsbD o = freemap (8 * k + o) := by
  simp only [mapByte, BitVec.getLsbD_setWidth, BitVec.getLsbD_ofBoolListLE, ho, decide_true, Bool.true_and]
  simp [List.getD_eq_getElem?_getD, List.getElem?_range ho]

/-- So is a bit of the free map. -/
theorem mapBit_mapBlock (h : disk (mapLocation + b / blockBits) = mapBlock freemap (b / blockBits)) :
    mapBit disk b = freemap b := by
  have hplace : 8 * (b / blockBits * blockSize + b % blockBits / 8) + b % 8 = b := by
    simp only [blockBits, blockSize]
    omega
  rw [mapBit, h, mapBlock, mapByte_bit (Nat.mod_lt b (by decide)), hplace]

theorem mapBit_congr (h : disk' (mapLocation + b / blockBits) = disk (mapLocation + b / blockBits)) :
    mapBit disk' b = mapBit disk b := by
  rw [mapBit, mapBit, h]

theorem superBytes_magic : (superBytes volname nblocks).word 0 = sfsMagic := by
  have hword : (superBytes volname nblocks).word 0 = (ByteStore.ofWords fun k =>
      if k = 0 then sfsMagic else if k = 1 then nblocks else 0).word (4 * 0) :=
    ByteStore.word_congr fun x _ hx => ByteStore.blit_of_outside (by omega)
  rw [hword, ByteStore.word_ofWords (show sfsMagic < 2 ^ 32 by decide)]
  rfl

theorem superBytes_nblocks (h : nblocks < 2 ^ 32) : (superBytes volname nblocks).word 4 = nblocks := by
  have hword : (superBytes volname nblocks).word 4 = (ByteStore.ofWords fun k =>
      if k = 0 then sfsMagic else if k = 1 then nblocks else 0).word (4 * 1) :=
    ByteStore.word_congr fun x _ hx => ByteStore.blit_of_outside (by omega)
  rw [hword, ByteStore.word_ofWords (show nblocks < 2 ^ 32 from h)]
  rfl

/-- The bits of a list are set, and none of them twice. -/
theorem doallocbits_eq_some (h : doallocbits bits bitbuf = some bitbuf') :
    (∀ b, bitbuf' b = true ↔ b ∈ bits ∨ bitbuf b = true) ∧ bits.Nodup ∧ ∀ b ∈ bits, bitbuf b = false := by
  induction bits generalizing bitbuf with
  | nil =>
    cases h
    simp
  | cons bit bits ih =>
    obtain ⟨buf, hbit, hrest⟩ := Option.bind_eq_some_iff.mp h
    simp only [doallocbit, Option.ite_none_left_eq_some, Option.some.injEq] at hbit
    obtain ⟨hclear, rfl⟩ := hbit
    obtain ⟨hset, hnodup, hfresh⟩ := ih hrest
    have hnew : bit ∉ bits := fun hin => by simpa using hfresh bit hin
    have hother (b : Nat) (hb : b ≠ bit) : Function.update bitbuf bit true b = bitbuf b :=
      Function.update_of_ne hb ..
    refine ⟨fun b => ?_, List.nodup_cons.mpr ⟨hnew, hnodup⟩, fun b hb => ?_⟩
    · rw [hset b, List.mem_cons]
      by_cases hb : b = bit
      · simp [hb]
      · rw [hother b hb]
        simp [hb]
    · cases List.mem_cons.mp hb with
      | inl he =>
        rw [he]
        simpa using hclear
      | inr hin =>
        have hne : b ≠ bit := fun he => hnew (he ▸ hin)
        rw [← hother b hne]
        exact hfresh b hin

/-- The bits of the superblock, the root directory and the free map -/
theorem mem_systemBits : b ∈ sbLocation :: rootIno ::
    ((List.range (bitBlocks nblocks)).map fun i => mapLocation + i) ↔ b < mapLocation + bitBlocks nblocks := by
  simp only [List.mem_cons, List.mem_map, List.mem_range, sbLocation, rootIno, mapLocation]
  constructor
  · rintro (h | h | ⟨i, hi, rfl⟩) <;> omega
  · intro h
    by_cases h2 : b < 2
    · omega
    · exact .inr (.inr ⟨b - 2, by omega, by omega⟩)

/-- The bits past the end of the volume -/
theorem mem_pastBits : b ∈ (List.range (bitmapSize nblocks - nblocks)).map (fun i => nblocks + i) ↔
    nblocks ≤ b ∧ b < bitmapSize nblocks := by
  simp only [List.mem_map, List.mem_range]
  constructor
  · rintro ⟨i, hi, rfl⟩
    omega
  · exact fun h => ⟨b - nblocks, by omega, by omega⟩

theorem le_bitmapSize : nblocks ≤ bitmapSize nblocks := by
  simp only [bitmapSize, bitBlocks, blockBits, blockSize]
  omega

/-- What `mksfs` leaves on the disk, and the bits that it set -/
structure Formatted (volname : List UInt8) (nblocks : Nat) (disk : Nat → ByteStore) (bitbuf : Nat → Bool) :
    Prop where
  small : nblocks ≤ maxBlocks
  room : mapLocation + bitBlocks nblocks ≤ nblocks
  super : disk sbLocation = superBytes volname nblocks
  root : disk rootIno = inodeBytes newRoot
  map : ∀ j < bitBlocks nblocks, disk (mapLocation + j) = mapBlock bitbuf j
  bits : ∀ b, bitbuf b = true ↔
    b < mapLocation + bitBlocks nblocks ∨ nblocks ≤ b ∧ b < bitmapSize nblocks

/-- The blocks of a new volume are in it, for its bits are set once. -/
theorem mksfs_eq_some (h : mksfs arg nblocks disk = some disk') :
    ∃ volname bitbuf, Formatted volname nblocks disk' bitbuf := by
  obtain ⟨volname, _, h⟩ := Option.bind_eq_some_iff.mp h
  refine ⟨volname, ?_⟩
  split at h
  case isTrue => cases h
  case isFalse hok =>
    simp only [not_or, Nat.not_le, Nat.not_lt] at hok
    obtain ⟨bitbuf, hbits, hdisk⟩ := Option.bind_eq_some_iff.mp h
    cases hdisk
    obtain ⟨hset, hnodup, _⟩ := doallocbits_eq_some hbits
    have hset' (b : Nat) : bitbuf b = true ↔
        b < mapLocation + bitBlocks nblocks ∨ nblocks ≤ b ∧ b < bitmapSize nblocks := by
      rw [hset b, reservedBits, List.mem_append, mem_systemBits, mem_pastBits]
      simp
    have hroom : mapLocation + bitBlocks nblocks ≤ nblocks := by
      by_contra hlt
      have hin := mem_systemBits.mpr (Nat.not_le.mp hlt)
      have hout : ¬ (nblocks ≤ nblocks ∧ nblocks < bitmapSize nblocks) := fun hpast =>
        (List.nodup_append.mp hnodup).2.2 _ hin _ (mem_pastBits.mpr hpast) rfl
      have hpos := hok.2.1
      simp only [bitmapSize, bitBlocks, blockBits, blockSize, mapLocation, sbLocation] at *
      omega
    refine ⟨bitbuf, ?_, hroom, rfl, rfl, fun j hj => ?_, hset'⟩
    · have hmax := hok.2.2
      simp only [bitBlocks, blockBits, blockSize, maxBlocks] at *
      omega
    · have h0 : ¬ mapLocation + j = sbLocation := by
        simp only [mapLocation, sbLocation]
        omega
      have h1 : ¬ mapLocation + j = rootIno := by
        simp only [mapLocation, rootIno]
        omega
      have hlt : mapLocation + j < mapLocation + bitBlocks nblocks := by omega
      rw [if_neg h0, if_neg h1, if_pos hlt, Nat.add_sub_cancel_left]

end CseOs.Kernel.Sfs
