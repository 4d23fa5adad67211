import Mathlib.Tactic.Ring
import Mathlib.Tactic.IntervalCases

/-!
# Byte stores with big-endian words

A byte store maps every address to a byte. Words are four consecutive bytes, most
significant first. The lemmas here say which later reads a write can change.
-/

namespace CseOs.Framework

abbrev ByteStore := Nat → UInt8

/-- Byte `i` of a four-byte big-endian word. -/
def wordByte (v i : Nat) : UInt8 := UInt8.ofNat (v / 256 ^ (3 - i))

namespace ByteStore

variable {m m' : ByteStore} {a b n v : Nat}

def word (m : ByteStore) (a : Nat) : Nat :=
  (m a).toNat * 2 ^ 24 + (m (a + 1)).toNat * 2 ^ 16 + (m (a + 2)).toNat * 2 ^ 8 +
    (m (a + 3)).toNat

def setWord (m : ByteStore) (a v : Nat) : ByteStore :=
  fun x => if a ≤ x ∧ x < a + 4 then wordByte v (x - a) else m x

/-- Set the `n` bytes from `a` on to `b`. -/
def fill (m : ByteStore) (a n : Nat) (b : UInt8) : ByteStore :=
  fun x => if a ≤ x ∧ x < a + n then b else m x

/-- Copy the `n` bytes of `src` from `b` on to the addresses from `a` on. -/
def blit (m : ByteStore) (a n : Nat) (src : ByteStore) (b : Nat) : ByteStore :=
  fun x => if a ≤ x ∧ x < a + n then src (b + (x - a)) else m x

/-- Two stores hold the same bytes on a set of addresses. -/
def AgreeOn (P : Nat → Prop) (m m' : ByteStore) : Prop := ∀ x, P x → m' x = m x

theorem word_congr (h : ∀ x, a ≤ x → x < a + 4 → m' x = m x) : m'.word a = m.word a := by
  simp only [word]
  rw [h a (by omega) (by omega), h (a + 1) (by omega) (by omega), h (a + 2) (by omega) (by omega),
    h (a + 3) (by omega) (by omega)]

private theorem wordByte_toNat (v i : Nat) : (wordByte v i).toNat = v / 256 ^ (3 - i) % 256 := by
  simp [wordByte]

/-- A word read back where it was written. -/
theorem word_setWord_self (m : ByteStore) (a : Nat) (hv : v < 2 ^ 32) :
    (m.setWord a v).word a = v := by
  have h0 : (m.setWord a v) a = wordByte v 0 := by simp [setWord]
  have h1 : (m.setWord a v) (a + 1) = wordByte v 1 := by simp [setWord]
  have h2 : (m.setWord a v) (a + 2) = wordByte v 2 := by simp [setWord]
  have h3 : (m.setWord a v) (a + 3) = wordByte v 3 := by simp [setWord]
  simp only [word, h0, h1, h2, h3, wordByte_toNat]
  norm_num
  omega

/-- The store that holds the word `f k` at `4 * k`. -/
def ofWords (f : Nat → Nat) : ByteStore := fun x => wordByte (f (x / 4)) (x % 4)

theorem word_ofWords {f : Nat → Nat} {k : Nat} (hk : f k < 2 ^ 32) : (ofWords f).word (4 * k) = f k := by
  have hbyte (i : Nat) (hi : i < 4) : ofWords f (4 * k + i) = wordByte (f k) i := by
    have hdiv : (4 * k + i) / 4 = k := by omega
    have hmod : (4 * k + i) % 4 = i := by omega
    simp only [ofWords, hdiv, hmod]
  have h0 := hbyte 0 (by decide)
  rw [Nat.add_zero] at h0
  simp only [word, h0, hbyte 1 (by decide), hbyte 2 (by decide), hbyte 3 (by decide), wordByte_toNat]
  norm_num
  omega

@[simp] theorem setWord_of_lt (h : b < a) : m.setWord a v b = m b := by
  have : ¬ (a ≤ b ∧ b < a + 4) := by omega
  simp [setWord, this]

@[simp] theorem setWord_of_ge (h : a + 4 ≤ b) : m.setWord a v b = m b := by
  have : ¬ (a ≤ b ∧ b < a + 4) := by omega
  simp [setWord, this]

theorem setWord_of_outside (h : b < a ∨ a + 4 ≤ b) : m.setWord a v b = m b := by
  rcases h with h | h
  · exact setWord_of_lt h
  · exact setWord_of_ge h

/-- A word that does not overlap the written one is unchanged. -/
theorem word_setWord_of_disjoint (h : a + 4 ≤ b ∨ b + 4 ≤ a) :
    (m.setWord a v).word b = m.word b := by
  apply word_congr
  intro x hlo hhi
  exact setWord_of_outside (by omega)

theorem fill_of_inside {c : UInt8} (hlo : a ≤ b) (hhi : b < a + n) : m.fill a n c b = c := by
  simp [fill, hlo, hhi]

theorem fill_of_outside {c : UInt8} (h : b < a ∨ a + n ≤ b) : m.fill a n c b = m b := by
  have : ¬ (a ≤ b ∧ b < a + n) := by omega
  simp [fill, this]

theorem blit_of_inside {src : ByteStore} {c i : Nat} (hi : i < n) :
    m.blit a n src c (a + i) = src (c + i) := by
  have : a ≤ a + i ∧ a + i < a + n := by omega
  simp [blit, this]

theorem blit_of_outside {src : ByteStore} {c : Nat} (h : b < a ∨ a + n ≤ b) :
    m.blit a n src c b = m b := by
  have : ¬ (a ≤ b ∧ b < a + n) := by omega
  simp [blit, this]

@[simp] theorem fill_none (c : UInt8) : m.fill a 0 c = m := by
  funext x
  exact fill_of_outside (by omega)

@[simp] theorem blit_none (src : ByteStore) (c : Nat) : m.blit a 0 src c = m := by
  funext x
  exact blit_of_outside (by omega)

theorem fill_succ (c : UInt8) :
    Function.update (m.fill a n c) (a + n) c = m.fill a (n + 1) c := by
  funext x
  by_cases hx : x = a + n
  · rw [hx, Function.update_self, fill_of_inside (by omega) (by omega)]
  · rw [Function.update_of_ne hx]
    simp only [fill]
    split <;> split <;> first | rfl | omega

theorem blit_succ (src : ByteStore) (c : Nat) :
    Function.update (m.blit a n src c) (a + n) (src (c + n)) = m.blit a (n + 1) src c := by
  funext x
  by_cases hx : x = a + n
  · rw [hx, Function.update_self, blit_of_inside (by omega)]
  · rw [Function.update_of_ne hx]
    simp only [blit]
    split <;> split <;> first | rfl | omega

/-- Two copies one after the other. -/
theorem blit_blit_append (m src : ByteStore) (a k c n : Nat) :
    (m.blit a k src c).blit (a + k) n src (c + k) = m.blit a (k + n) src c := by
  funext x
  by_cases hk : a ≤ x ∧ x < a + k
  · have hall : a ≤ x ∧ x < a + (k + n) := by omega
    rw [blit_of_outside (by omega), blit, blit, if_pos hk, if_pos hall]
  · by_cases hn : a + k ≤ x ∧ x < a + k + n
    · have hall : a ≤ x ∧ x < a + (k + n) := by omega
      simp only [blit, if_pos hn, if_pos hall]
      congr 1
      omega
    · rw [blit_of_outside (by omega), blit_of_outside (by omega), blit_of_outside (by omega)]

/-- Only the bytes that are copied matter. -/
theorem blit_congr {src src' : ByteStore} {c c' : Nat} (h : ∀ i < n, src (c + i) = src' (c' + i)) :
    m.blit a n src c = m.blit a n src' c' := by
  funext x
  simp only [blit]
  split
  · exact h (x - a) (by omega)
  · rfl

theorem word_fill_zero (hlo : a ≤ b) (hhi : b + 4 ≤ a + n) : (m.fill a n 0).word b = 0 := by
  simp only [word]
  rw [fill_of_inside hlo (by omega), fill_of_inside (by omega) (by omega),
    fill_of_inside (by omega) (by omega), fill_of_inside (by omega) (by omega)]
  rfl

private theorem setWord_zero_eq_fill (m : ByteStore) (a : Nat) : m.setWord a 0 = m.fill a 4 0 := by
  funext x
  simp only [setWord, fill]
  split
  · simp [wordByte]
  · rfl

private theorem fill_fill_append (m : ByteStore) (a n k : Nat) (c : UInt8) :
    (m.fill a n c).fill (a + n) k c = m.fill a (n + k) c := by
  funext x
  simp only [fill]
  split <;> split <;> first | rfl | (split <;> first | rfl | omega) | omega

/-- Clearing `n` consecutive words one after the other clears the `4 * n` bytes they cover. -/
theorem foldl_setWord_zero (m : ByteStore) (a n : Nat) :
    (List.range n).foldl (fun m i => m.setWord (a + 4 * i) 0) m = m.fill a (4 * n) 0 := by
  induction n with
  | zero => exact (fill_none 0).symm
  | succ n ih =>
    rw [List.range_succ, List.foldl_append, ih]
    simp only [List.foldl_cons, List.foldl_nil]
    rw [setWord_zero_eq_fill, fill_fill_append]
    rfl

/-- Clearing `n` consecutive bytes one after the other. -/
theorem foldl_update_zero (m : ByteStore) (a n : Nat) :
    (List.range n).foldl (fun m i => Function.update m (a + i) 0) m = m.fill a n 0 := by
  induction n with
  | zero => exact (fill_none 0).symm
  | succ n ih =>
    rw [List.range_succ, List.foldl_append, ih]
    simp only [List.foldl_cons, List.foldl_nil]
    exact fill_succ 0

end ByteStore

end CseOs.Framework
