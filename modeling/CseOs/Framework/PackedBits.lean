import Mathlib.Data.Nat.Find

/-!
# Bits packed in words

A list of words of `w` bits. The bit `i` is the bit `i % w` of the word `i / w`, and a word that is not
there has no bit set.
-/

namespace CseOs.Framework

variable {w : Nat} {v : List (BitVec w)} {x : BitVec w} {i j ix offset : Nat}

def wordAt (v : List (BitVec w)) (ix : Nat) : BitVec w := v.getD ix 0#w

def bitAt (v : List (BitVec w)) (i : Nat) : Bool := (wordAt v (i / w)).getLsbD (i % w)

/-- The words with the bit `offset` of the word `ix` set. -/
def setBit (v : List (BitVec w)) (ix offset : Nat) : List (BitVec w) :=
  v.set ix (wordAt v ix ||| BitVec.twoPow w offset)

/-- The words with the bit `offset` of the word `ix` clear. -/
def clearBit (v : List (BitVec w)) (ix offset : Nat) : List (BitVec w) :=
  v.set ix (wordAt v ix &&& ~~~BitVec.twoPow w offset)

@[simp] theorem length_setBit : (setBit v ix offset).length = v.length := List.length_set

@[simp] theorem length_clearBit : (clearBit v ix offset).length = v.length := List.length_set

theorem wordAt_of_get (h : v[ix]? = some x) : wordAt v ix = x := by
  rw [wordAt, List.getD_eq_getElem?_getD, h, Option.getD_some]

theorem wordAt_set (hix : ix < v.length) :
    wordAt (v.set ix x) j = if j = ix then x else wordAt v j := by
  rw [wordAt, List.getD_eq_getElem?_getD]
  split
  · next h => rw [h, List.getElem?_set_self hix, Option.getD_some]
  · next h => rw [List.getElem?_set_ne (Ne.symm h), wordAt, List.getD_eq_getElem?_getD]

theorem place_iff (hw : offset < w) : j = ix * w + offset ↔ j / w = ix ∧ offset = j % w := by
  constructor
  · intro h
    rw [h, Nat.mul_comm, Nat.mul_add_div (by omega), Nat.div_eq_of_lt hw, Nat.mul_add_mod,
      Nat.mod_eq_of_lt hw]
    exact ⟨Nat.add_zero ix, rfl⟩
  · intro h
    rw [← h.1, h.2]
    exact (Nat.div_add_mod' j w).symm

theorem bitAt_setBit (hix : ix < v.length) (hw : offset < w) :
    bitAt (setBit v ix offset) j = (decide (j = ix * w + offset) || bitAt v j) := by
  have hplace : j = ix * w + offset ↔ j / w = ix ∧ offset = j % w := place_iff hw
  rw [bitAt, setBit, wordAt_set hix]
  split
  · next h => simp [BitVec.getLsbD_twoPow, bitAt, hplace, h, hw, Bool.or_comm]
  · next h => simp [bitAt, hplace, h]

theorem bitAt_clearBit (hix : ix < v.length) (hw : offset < w) :
    bitAt (clearBit v ix offset) j = (!decide (j = ix * w + offset) && bitAt v j) := by
  have hin : j % w < w := Nat.mod_lt j (by omega)
  have hplace : j = ix * w + offset ↔ j / w = ix ∧ offset = j % w := place_iff hw
  rw [bitAt, clearBit, wordAt_set hix]
  split
  · next h => simp [bitAt, hplace, h, hin, Bool.and_comm, eq_comm]
  · next h => simp [bitAt, hplace, h]

theorem bitAt_of_length_le (h : v.length ≤ i / w) : bitAt v i = false := by
  rw [bitAt, wordAt, List.getD_eq_getElem?_getD, List.getElem?_eq_none h, Option.getD_none]
  exact BitVec.getLsbD_zero

theorem bitAt_replicate (n i : Nat) : bitAt (List.replicate n 0#w) i = false := by
  have hzero : wordAt (List.replicate n 0#w) (i / w) = 0#w := by
    rw [wordAt, List.getD_eq_getElem?_getD, List.getElem?_replicate]
    split
    · exact Option.getD_some
    · exact Option.getD_none
  rw [bitAt, hzero]
  exact BitVec.getLsbD_zero

theorem bitAt_place (hw : offset < w) : bitAt v (ix * w + offset) = (wordAt v ix).getLsbD offset := by
  have h := (place_iff (j := ix * w + offset) hw).mp rfl
  rw [bitAt, h.1, ← h.2]

/-- The loop over the bits of a word, up to the first that is clear. -/
def firstClear (x : BitVec w) : Option Nat := (List.range w).find? fun o => x &&& BitVec.twoPow w o = 0#w

theorem and_twoPow_eq_zero (hw : offset < w) : x &&& BitVec.twoPow w offset = 0#w ↔ x.getLsbD offset = false := by
  rw [BitVec.and_twoPow]
  split
  · next h =>
    rw [h]
    apply iff_of_false
    · intro hzero
      have hbit := congrArg (fun y => y.getLsbD offset) hzero
      simp [hw] at hbit
    · exact Bool.noConfusion
  · next h => exact iff_of_true rfl (Bool.eq_false_iff.mpr h)

theorem firstClear_some (h : firstClear x = some offset) :
    offset < w ∧ x.getLsbD offset = false ∧ ∀ o < offset, x.getLsbD o = true := by
  have hfind := List.find?_range_eq_some.mp h
  have hw := List.mem_range.mp hfind.2.1
  refine ⟨hw, (and_twoPow_eq_zero hw).mp (of_decide_eq_true hfind.1), fun o ho => ?_⟩
  have hset := hfind.2.2 o ho
  by_contra hclear
  have hzero := (and_twoPow_eq_zero (by omega)).mpr (Bool.eq_false_iff.mpr hclear)
  rw [decide_eq_true hzero] at hset
  cases hset

/-- Only a word with all bits set has no clear bit. -/
theorem firstClear_none (h : firstClear x = none) : x = BitVec.allOnes w := by
  apply BitVec.eq_of_getLsbD_eq
  intro o ho
  have hset := List.find?_eq_none.mp h o (List.mem_range.mpr ho)
  rw [BitVec.getLsbD_allOnes, decide_eq_true ho]
  by_contra hclear
  exact hset (decide_eq_true ((and_twoPow_eq_zero ho).mpr (Bool.eq_false_iff.mpr hclear)))

end CseOs.Framework
