import CseOs.Framework.Checked
import CseOs.Framework.PackedBits
import CseOs.Kernel.Lib.Containers
import Mathlib.Algebra.Group.Nat.Defs

/-!
# Bitmaps

Arrays of bits in bytes. The bits of the last byte that are not below `nbits` are set when the bitmap is
made, so that they are never given out.
-/

namespace CseOs.Kernel

open Framework

/-- `DIVROUNDUP` over `u_int32_t`. -/
def divroundup (a b : Nat) : Nat := (a + b - 1) % 2 ^ 32 / b

/-- `v` is the block of bytes. -/
structure Bitmap where
  nbits : Nat
  v : List (BitVec 8)

namespace Bitmap

/-- `b->v[ix]`, within the block. -/
def readWord (v : List (BitVec 8)) (ix : Nat) : Checked (BitVec 8) :=
  match v[ix]? with
  | some x => .ok x
  | none => .error .outside

/-- `v[ix] |= 1 << offset` -/
def orBit (v : List (BitVec 8)) (ix offset : Nat) : Checked (List (BitVec 8)) := do
  let x ← readWord v ix
  return v.set ix (x ||| BitVec.twoPow 8 offset)

/-- `for (j=overbits; j<BITS_PER_WORD; j++)` over the last byte. -/
def markLeftover (overbits ix : Nat) (v : List (BitVec 8)) : Checked (List (BitVec 8)) :=
  (List.range' overbits (8 - overbits)).foldlM (fun v j => orBit v ix j) v

/-- Returns no bitmap if one of the two blocks is not granted. -/
def bitmapCreate (nbits : Nat) (mem : Kmalloc) : Checked (Option Bitmap) := do
  let words := divroundup nbits 8
  if !mem.ok then return none
  if !mem.next.ok then return none
  let v := List.replicate words 0#8
  if nbits / 8 < words then
    let ix := words - 1
    let overbits := nbits - ix * 8
    check (nbits / 8 = words - 1)
    check (overbits > 0 ∧ overbits < 8)
    return some ⟨nbits, ← markLeftover overbits ix v⟩
  else return some ⟨nbits, v⟩

/-- The loop over the `left` bytes from `ix` on. -/
def allocLoop (b : Bitmap) : Nat → Nat → Checked (Except Errno Nat × Bitmap)
  | 0, _ => .ok (.error .enospc, b)
  | left + 1, ix => do
    let x ← readWord b.v ix
    if x ≠ BitVec.allOnes 8 then
      match firstClear x with
      | some offset =>
        let index := (ix * 8 + offset) % 2 ^ 32
        check (index < b.nbits)
        return (.ok index, { b with v := b.v.set ix (x ||| BitVec.twoPow 8 offset) })
      | none => .error .assertion
    else allocLoop b left (ix + 1)

def bitmapAlloc (b : Bitmap) : Checked (Except Errno Nat × Bitmap) :=
  allocLoop b (divroundup b.nbits 8) 0

/-- The byte of a bit, and its mask. -/
def bitmapTranslate (bitno : Nat) : Nat × BitVec 8 := (bitno / 8, BitVec.twoPow 8 (bitno % 8))

def bitmapMark (b : Bitmap) (index : Nat) : Checked Bitmap := do
  check (index < b.nbits)
  let (ix, mask) := bitmapTranslate index
  let x ← readWord b.v ix
  check (x &&& mask = 0#8)
  return { b with v := b.v.set ix (x ||| mask) }

def bitmapUnmark (b : Bitmap) (index : Nat) : Checked Bitmap := do
  check (index < b.nbits)
  let (ix, mask) := bitmapTranslate index
  let x ← readWord b.v ix
  check (x &&& mask ≠ 0#8)
  return { b with v := b.v.set ix (x &&& ~~~mask) }

def bitmapIsset (b : Bitmap) (index : Nat) : Checked (BitVec 8) := do
  let (ix, mask) := bitmapTranslate index
  return (← readWord b.v ix) &&& mask

/-- A bit of the bitmap. There is none behind the block. -/
def bit (b : Bitmap) (i : Nat) : Bool := bitAt b.v i

variable {b b' : Bitmap} {v v' : List (BitVec 8)} {mem : Kmalloc} {nbits ix i j offset left : Nat}

private theorem readWord_eq (h : ix < v.length) : readWord v ix = .ok (wordAt v ix) := by
  rw [readWord, wordAt_of_get (List.getElem?_eq_getElem h), List.getElem?_eq_getElem h]

private theorem orBit_eq (h : ix < v.length) : orBit v ix offset = .ok (setBit v ix offset) := by
  rw [orBit, readWord_eq h]
  rfl

theorem markLeftover_eq {overbits : Nat} (h : ix < v.length) (hover : overbits ≤ 8) :
    ∃ v', markLeftover overbits ix v = .ok v' ∧ v'.length = v.length ∧
      ∀ j, bitAt v' j = (decide (ix * 8 + overbits ≤ j ∧ j < ix * 8 + 8) || bitAt v j) := by
  obtain ⟨n, hn⟩ : ∃ n, n = 8 - overbits := ⟨_, rfl⟩
  rw [markLeftover, ← hn]
  induction n generalizing v overbits with
  | zero =>
    refine ⟨v, rfl, rfl, fun j => ?_⟩
    have hempty : ¬ (ix * 8 + overbits ≤ j ∧ j < ix * 8 + 8) := by omega
    rw [decide_eq_false hempty, Bool.false_or]
  | succ n ih =>
    have hset : ix < (setBit v ix overbits).length := by
      rw [length_setBit]
      exact h
    have hover' : overbits + 1 ≤ 8 := by omega
    obtain ⟨v', hrun, hlen, hbits⟩ := ih hset hover' (by omega)
    refine ⟨v', ?_, hlen.trans length_setBit, fun j => ?_⟩
    · rw [List.range'_succ, List.foldlM_cons, orBit_eq h]
      exact hrun
    · rw [hbits, bitAt_setBit h (by omega), ← Bool.or_assoc]
      congr 1
      rw [← Bool.decide_or]
      exact decide_eq_decide.mpr (by omega)

/-- What every operation keeps: the block has its size, and the leftover bits are set. -/
structure Inv (nbits : Nat) (b : Bitmap) : Prop where
  size : b.nbits = nbits
  length : b.v.length = (nbits + 7) / 8
  leftover : ∀ i, nbits ≤ i → i < 8 * b.v.length → b.bit i = true

private theorem divroundup_eq (h : nbits ≤ 2 ^ 32 - 8) : divroundup nbits 8 = (nbits + 7) / 8 := by
  rw [divroundup]
  omega

theorem divroundup_wraps (h : 2 ^ 32 - 8 < nbits) (h32 : nbits < 2 ^ 32) : divroundup nbits 8 = 0 := by
  rw [divroundup]
  omega

theorem bitmapCreate_spec (hn : nbits ≤ 2 ^ 32 - 8) (mem : Kmalloc) :
    ∃ r, bitmapCreate nbits mem = .ok r ∧
      ∀ b, r = some b → Inv nbits b ∧ ∀ i < nbits, b.bit i = false := by
  rw [bitmapCreate, divroundup_eq hn]
  cases mem.ok with
  | false => exact ⟨none, rfl, fun b hb => by cases hb⟩
  | true =>
    cases mem.next.ok with
    | false => exact ⟨none, rfl, fun b hb => by cases hb⟩
    | true =>
      obtain ⟨words, hwords⟩ : ∃ words, words = (nbits + 7) / 8 := ⟨_, rfl⟩
      have hlen : (List.replicate words 0#8).length = words := List.length_replicate
      rw [← hwords]
      by_cases hover : nbits / 8 < words
      · have hlast : words - 1 < (List.replicate words 0#8).length := by omega
        have hfew : nbits - (words - 1) * 8 ≤ 8 := by omega
        obtain ⟨v, hrun, hv, hbits⟩ := markLeftover_eq hlast hfew
        refine ⟨some ⟨nbits, v⟩, ?_, fun b hb => ?_⟩
        · simp only [if_pos hover, check_bind (show nbits / 8 = words - 1 by omega), hrun,
            check_bind (show nbits - (words - 1) * 8 > 0 ∧ nbits - (words - 1) * 8 < 8 by omega)]
          rfl
        · cases hb
          refine ⟨⟨rfl, hv.trans (hlen.trans hwords), fun i hi hlt => ?_⟩, fun i hi => ?_⟩
          · replace hlt : i < 8 * v.length := hlt
            rw [bit, hbits, decide_eq_true (by omega), Bool.true_or]
          · rw [bit, hbits, decide_eq_false (by omega), bitAt_replicate]
            rfl
      · refine ⟨some ⟨nbits, List.replicate words 0#8⟩, ?_, fun b hb => ?_⟩
        · simp only [if_neg hover]
          rfl
        · cases hb
          refine ⟨⟨rfl, hlen.trans hwords, fun i hi hlt => ?_⟩, fun i hi => bitAt_replicate words i⟩
          rw [hlen] at hlt
          omega

/-- What `bitmap_alloc` is for: the lowest clear bit, if there is one. -/
def Lowest (nbits : Nat) (b : Bitmap) : Except Errno Nat → Bitmap → Prop
  | .ok i, b' => i < nbits ∧ b.bit i = false ∧ (∀ j < i, b.bit j = true) ∧
      ∀ j, b'.bit j = (decide (j = i) || b.bit j)
  | .error e, b' => e = .enospc ∧ b' = b ∧ ∀ j < nbits, b.bit j = true

/-- The file system uses the bitmap as the set of its clear bits. -/
theorem Lowest.find {r : Except Errno Nat} (h : Lowest nbits b r b') :
    ((List.range nbits).find? fun i => !b.bit i) = r.toOption := by
  cases r with
  | ok i =>
    obtain ⟨hi, hclear, hbelow, -⟩ := h
    apply List.find?_range_eq_some.mpr
    exact ⟨by rw [hclear]; rfl, List.mem_range.mpr hi, fun j hj => by rw [hbelow j hj]; rfl⟩
  | error e =>
    apply List.find?_eq_none.mpr
    intro j hj
    rw [h.2.2 j (List.mem_range.mp hj)]
    exact Bool.noConfusion

private theorem Inv.setBit (h : Inv nbits b) (hix : ix < b.v.length) (hw : offset < 8) :
    Inv nbits { b with v := setBit b.v ix offset } where
  size := h.size
  length := length_setBit.trans h.length
  leftover i hi hlt := by
    have hold := h.leftover i hi (by rwa [length_setBit] at hlt)
    rw [bit] at hold ⊢
    rw [bitAt_setBit hix hw, hold, Bool.or_true]

theorem Inv.allocLoop (h : Inv nbits b) (h32 : nbits ≤ 2 ^ 32 - 8) (hend : ix + left = b.v.length)
    (hset : ∀ j < ix * 8, b.bit j = true) :
    ∃ r b', allocLoop b left ix = .ok (r, b') ∧ Inv nbits b' ∧ Lowest nbits b r b' := by
  have hlen := h.length
  induction left generalizing ix with
  | zero => exact ⟨_, b, rfl, h, rfl, rfl, fun j hj => hset j (by omega)⟩
  | succ left ih =>
    have hix : ix < b.v.length := by omega
    have hbit : ∀ o < 8, b.bit (ix * 8 + o) = (wordAt b.v ix).getLsbD o := fun o ho => bitAt_place ho
    rw [Bitmap.allocLoop, readWord_eq hix, checked_bind]
    by_cases hfull : wordAt b.v ix = BitVec.allOnes 8
    · rw [if_neg (not_not_intro hfull)]
      apply ih (by omega)
      intro j hj
      by_cases hlow : j < ix * 8
      · exact hset j hlow
      · obtain ⟨o, ho⟩ : ∃ o, j = ix * 8 + o := ⟨j - ix * 8, by omega⟩
        rw [ho, hbit o (by omega), hfull, BitVec.getLsbD_allOnes]
        exact decide_eq_true (by omega)
    · rw [if_pos hfull]
      cases hclear : firstClear (wordAt b.v ix) with
      | none => exact absurd (firstClear_none hclear) hfull
      | some offset =>
        obtain ⟨hw, hzero, hbelow⟩ := firstClear_some hclear
        rw [← hbit offset hw] at hzero
        have hlt : ix * 8 + offset < nbits := by
          by_contra hge
          have hone := h.leftover (ix * 8 + offset) (by omega) (by omega)
          rw [hone] at hzero
          cases hzero
        have hindex : (ix * 8 + offset) % 2 ^ 32 = ix * 8 + offset := Nat.mod_eq_of_lt (by omega)
        refine ⟨.ok (ix * 8 + offset), _, ?_, h.setBit hix hw, hlt, hzero, fun j hj => ?_, fun j => ?_⟩
        · simp only [hindex]
          rw [check_bind (h.size.symm ▸ hlt)]
          rfl
        · by_cases hlow : j < ix * 8
          · exact hset j hlow
          · obtain ⟨o, ho⟩ : ∃ o, j = ix * 8 + o := ⟨j - ix * 8, by omega⟩
            rw [ho, hbit o (by omega)]
            exact hbelow o (by omega)
        · exact bitAt_setBit hix hw

private theorem Inv.bitmapAlloc (h : Inv nbits b) (h32 : nbits ≤ 2 ^ 32 - 8) :
    ∃ r b', bitmapAlloc b = .ok (r, b') ∧ Inv nbits b' ∧ Lowest nbits b r b' := by
  rw [Bitmap.bitmapAlloc, h.size, divroundup_eq h32]
  apply h.allocLoop h32
  · rw [Nat.zero_add, h.length]
  · intro j hj
    omega

private theorem Inv.byte_lt (h : Inv nbits b) (hi : i < nbits) : i / 8 < b.v.length := by
  rw [h.length]
  omega

private theorem bit_place (i : Nat) : (i / 8) * 8 + i % 8 = i := Nat.div_add_mod' i 8

private theorem Inv.bitmapMark (h : Inv nbits b) (hi : i < nbits) (hclear : b.bit i = false) :
    ∃ b', bitmapMark b i = .ok b' ∧ Inv nbits b' ∧ ∀ j, b'.bit j = (decide (j = i) || b.bit j) := by
  have hix := h.byte_lt hi
  have hw : i % 8 < 8 := Nat.mod_lt i (by decide)
  refine ⟨_, ?_, h.setBit hix hw, fun j => ?_⟩
  · rw [Bitmap.bitmapMark, check_bind (h.size.symm ▸ hi), bitmapTranslate]
    simp only [readWord_eq hix, checked_bind]
    rw [check_bind ((and_twoPow_eq_zero hw).mpr hclear)]
    rfl
  · rw [bit, bitAt_setBit hix hw, bit_place]
    rfl

private theorem Inv.bitmapUnmark (h : Inv nbits b) (hi : i < nbits) (hset : b.bit i = true) :
    ∃ b', bitmapUnmark b i = .ok b' ∧ Inv nbits b' ∧ ∀ j, b'.bit j = (!decide (j = i) && b.bit j) := by
  have hix := h.byte_lt hi
  have hw : i % 8 < 8 := Nat.mod_lt i (by decide)
  have hbits : ∀ j, bitAt (clearBit b.v (i / 8) (i % 8)) j = (!decide (j = i) && b.bit j) := by
    intro j
    rw [bitAt_clearBit hix hw, bit_place]
    rfl
  refine ⟨{ b with v := clearBit b.v (i / 8) (i % 8) }, ?_, ?_, hbits⟩
  · rw [Bitmap.bitmapUnmark, check_bind (h.size.symm ▸ hi), bitmapTranslate]
    simp only [readWord_eq hix, checked_bind]
    rw [check_bind]
    · rfl
    · intro hzero
      have hfalse : b.bit i = false := (and_twoPow_eq_zero hw).mp hzero
      rw [hset] at hfalse
      cases hfalse
  · refine ⟨h.size, length_clearBit.trans h.length, fun j hj hlt => ?_⟩
    rw [length_clearBit] at hlt
    have hne : ¬ j = i := by omega
    rw [bit, hbits, decide_eq_false hne, h.leftover j hj hlt]
    rfl

/-- `bitmap_isset` tells whether the bit is set. -/
theorem Inv.bitmapIsset (h : Inv nbits b) (hi : i < nbits) :
    ∃ x, bitmapIsset b i = .ok x ∧ (x ≠ 0#8 ↔ b.bit i = true) := by
  have hw : i % 8 < 8 := Nat.mod_lt i (by decide)
  refine ⟨wordAt b.v (i / 8) &&& BitVec.twoPow 8 (i % 8), ?_, ?_⟩
  · rw [Bitmap.bitmapIsset, bitmapTranslate]
    simp only [readWord_eq (h.byte_lt hi)]
    rfl
  · rw [ne_eq, and_twoPow_eq_zero hw, Bool.not_eq_false]
    rfl

/-- The bitmaps that come out of `bitmap_create` and of operations that their callers may ask for. -/
inductive Reached (nbits : Nat) : Bitmap → Prop
  | create (mem : Kmalloc) (b : Bitmap) : bitmapCreate nbits mem = .ok (some b) → Reached nbits b
  | alloc (b b' : Bitmap) (r : Except Errno Nat) :
      Reached nbits b → bitmapAlloc b = .ok (r, b') → Reached nbits b'
  | mark (b b' : Bitmap) (i : Nat) :
      Reached nbits b → i < nbits → b.bit i = false → bitmapMark b i = .ok b' → Reached nbits b'
  | unmark (b b' : Bitmap) (i : Nat) :
      Reached nbits b → i < nbits → b.bit i = true → bitmapUnmark b i = .ok b' → Reached nbits b'

private theorem Reached.inv (h32 : nbits ≤ 2 ^ 32 - 8) (h : Reached nbits b) : Inv nbits b := by
  induction h with
  | create mem b hrun =>
    obtain ⟨r, hr, hfresh⟩ := bitmapCreate_spec h32 mem
    exact (hfresh b (Except.ok.inj (hr.symm.trans hrun))).1
  | alloc b b' r _ hrun ih =>
    obtain ⟨r', c, hr, hinv, -⟩ := ih.bitmapAlloc h32
    cases hr.symm.trans hrun
    exact hinv
  | mark b b' i _ hi hclear hrun ih =>
    obtain ⟨c, hr, hinv, -⟩ := ih.bitmapMark hi hclear
    cases hr.symm.trans hrun
    exact hinv
  | unmark b b' i _ hi hset hrun ih =>
    obtain ⟨c, hr, hinv, -⟩ := ih.bitmapUnmark hi hset
    cases hr.symm.trans hrun
    exact hinv

/-- No assertion fails, `bitmap_alloc` gives out the lowest clear bit or finds all bits set, and the two
other operations change their bit only. -/
def AllocatesLowest (nbits : Nat) : Prop :=
  (∀ mem, ∃ r, bitmapCreate nbits mem = .ok r) ∧
  ∀ b, Reached nbits b →
    (∃ r b', bitmapAlloc b = .ok (r, b') ∧ Lowest nbits b r b') ∧
    ∀ i < nbits,
      (b.bit i = false → ∃ b', bitmapMark b i = .ok b' ∧ ∀ j, b'.bit j = (decide (j = i) || b.bit j)) ∧
      (b.bit i = true → ∃ b', bitmapUnmark b i = .ok b' ∧ ∀ j, b'.bit j = (!decide (j = i) && b.bit j))

private theorem allocatesLowest (h32 : nbits ≤ 2 ^ 32 - 8) : AllocatesLowest nbits := by
  constructor
  · intro mem
    obtain ⟨r, hr, -⟩ := bitmapCreate_spec h32 mem
    exact ⟨r, hr⟩
  · intro b hb
    have hinv := hb.inv h32
    obtain ⟨r, b', hrun, -, hlow⟩ := hinv.bitmapAlloc h32
    refine ⟨⟨r, b', hrun, hlow⟩, fun i hi => ⟨fun hclear => ?_, fun hset => ?_⟩⟩
    · obtain ⟨c, hr, -, hbits⟩ := hinv.bitmapMark hi hclear
      exact ⟨c, hr, hbits⟩
    · obtain ⟨c, hr, -, hbits⟩ := hinv.bitmapUnmark hi hset
      exact ⟨c, hr, hbits⟩

theorem not_allocatesLowest (h : 2 ^ 32 - 8 < nbits) (h32 : nbits < 2 ^ 32) : ¬ AllocatesLowest nbits := by
  intro hall
  have hbytes := divroundup_wraps h h32
  have hcreate : bitmapCreate nbits ⟨fun _ => true, 0⟩ = .ok (some ⟨nbits, []⟩) := by
    rw [bitmapCreate, hbytes]
    rfl
  obtain ⟨⟨r, b', hrun, hlow⟩, -⟩ := hall.2 ⟨nbits, []⟩ (.create _ _ hcreate)
  have hnone : bitmapAlloc ⟨nbits, []⟩ = .ok (.error .enospc, ⟨nbits, []⟩) := by
    rw [bitmapAlloc, hbytes]
    rfl
  cases hnone.symm.trans hrun
  have hclear : bit ⟨nbits, []⟩ 0 = false := bitAt_of_length_le (Nat.zero_le _)
  exact Bool.noConfusion (hclear.symm.trans (hlow.2.2 0 (by omega)))

/-- The allocator is exact as long as `nbits + 7` fits into 32 bits. -/
theorem bitmap_allocatesLowest_iff (nbits : Nat) (h32 : nbits < 2 ^ 32) :
    AllocatesLowest nbits ↔ nbits ≤ 2 ^ 32 - 8 := by
  constructor
  · intro hall
    by_contra hlarge
    exact not_allocatesLowest (by omega) h32 hall
  · exact allocatesLowest

theorem bitmap_allocatesLowest_ten : AllocatesLowest 10 :=
  (bitmap_allocatesLowest_iff 10 (by decide)).mpr (by decide)

/-- A bitmap of `0xffffffff` bits has no byte. -/
theorem bitmap_wraps : ¬ AllocatesLowest 4294967295 :=
  not_allocatesLowest (by decide) (by decide)

end Bitmap

end CseOs.Kernel
