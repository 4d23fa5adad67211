import Mathlib.Data.List.Basic
import Mathlib.Logic.Function.Basic
import Mathlib.Algebra.Ring.Int.Defs

/-!
# Queues in arrays

A queue of pointers is kept in the first slots of an array. The results relate the loop that
closes the gap of a removed entry, and the loop that looks for the smallest key, to the list of
entries.
-/

namespace CseOs.Framework

variable {α : Type*}

/-- The first slots of the array hold the list; nothing is said about the others. -/
def Holds (a : Nat → Option α) (l : List α) : Prop := ∀ i < l.length, a i = l[i]?

/-- `for (; k > 0; k--, i++) a[i] = a[i + 1];` -/
def shiftDown : (k i : Nat) → (Nat → Option α) → Nat → Option α
  | 0, _, a => a
  | k + 1, i, a => shiftDown k (i + 1) (Function.update a i (a (i + 1)))

theorem shiftDown_apply (k i : Nat) (a : Nat → Option α) (j : Nat) :
    shiftDown k i a j = if i ≤ j ∧ j < i + k then a (j + 1) else a j := by
  induction k generalizing i a with
  | zero => rw [shiftDown, if_neg (by omega)]
  | succ k ih =>
    rw [shiftDown, ih]
    by_cases hj : j = i
    · subst hj
      rw [if_neg (by omega), if_pos (by omega), Function.update_self]
    · by_cases hin : i ≤ j ∧ j < i + (k + 1)
      · rw [if_pos hin, if_pos (by omega), Function.update_of_ne (by omega)]
      · rw [if_neg hin, if_neg (by omega), Function.update_of_ne hj]

namespace Holds

variable {a b : Nat → Option α} {l : List α} {i : Nat} {x : α}

theorem nil (a : Nat → Option α) : Holds a [] := fun _ hi => absurd hi (Nat.not_lt_zero _)

theorem get (h : Holds a l) (hi : i < l.length) : a i = some l[i] := by
  rw [h i hi, List.getElem?_eq_getElem hi]

theorem congr (h : Holds a l) (hab : ∀ i < l.length, b i = a i) : Holds b l := by
  intro i hi
  rw [hab i hi, h i hi]

theorem push (h : Holds a l) (x : α) : Holds (Function.update a l.length (some x)) (l ++ [x]) := by
  intro i hi
  by_cases hlast : i = l.length
  · subst hlast
    rw [Function.update_self, List.getElem?_concat_length]
  · have hlt : i < l.length := by
      rw [List.length_append, List.length_singleton] at hi
      omega
    rw [Function.update_of_ne hlast, List.getElem?_append_left hlt, h i hlt]

/-- Closing the gap at `i`, however far past the end the loop goes. -/
theorem shift (h : Holds a l) {k : Nat} (hi : i < l.length) (hk : l.length ≤ i + k + 1) :
    Holds (shiftDown k i a) (l.eraseIdx i) := by
  intro j hj
  rw [List.length_eraseIdx_of_lt hi] at hj
  rw [shiftDown_apply, List.getElem?_eraseIdx]
  by_cases hlt : j < i
  · rw [if_neg (by omega), if_pos hlt, h j (by omega)]
  · rw [if_pos (by omega), if_neg hlt, h (j + 1) (by omega)]

end Holds

/-- The loop over `k` slots from `i` on that keeps the best key and its index; `better` compares a
key with the best one so far. A slot without an entry is an invalid access. -/
def scanBest (better : Int → Int → Bool) (key : α → Int) (a : Nat → Option α) :
    (k i : Nat) → Int → Option Nat → Option (Option Nat)
  | 0, _, _, found => some found
  | k + 1, i, best, found =>
    match a i with
    | none => none
    | some x =>
      if better (key x) best then scanBest better key a k (i + 1) (key x) (some i)
      else scanBest better key a k (i + 1) best found

/-- The scan finds an entry that beats the first bound, if there is one. -/
theorem scanBest_spec {better : Int → Int → Bool} {key : α → Int} {a : Nat → Option α} {l : List α}
    (h : Holds a l) {k i : Nat} (hki : i + k = l.length) {best : Int} {found : Option Nat}
    (hfound : ∀ j, found = some j → j < i) :
    ∃ found', scanBest better key a k i best found = some found' ∧
      (∀ j, found' = some j → j < l.length) ∧
      (found ≠ none → found' ≠ none) ∧
      (found' = none ↔ found = none ∧ ∀ j, (hj : j < l.length) → i ≤ j →
        better (key l[j]) best = false) := by
  induction k generalizing i best found with
  | zero =>
    refine ⟨found, rfl, fun j hj => by have := hfound j hj; omega, fun h => h, ?_⟩
    exact ⟨fun hn => ⟨hn, fun j hj hij => by omega⟩, fun hn => hn.1⟩
  | succ k ih =>
    have hi : i < l.length := by omega
    rw [scanBest, h.get hi]
    by_cases hb : better (key l[i]) best = true
    · obtain ⟨found', hrun, hlt, hne, _⟩ := ih (i := i + 1) (by omega)
        fun j (hj : some i = some j) => by cases hj; omega
      refine ⟨found', by simpa [hb] using hrun, hlt, fun _ => hne (Option.some_ne_none i), ?_⟩
      apply iff_of_false (hne (Option.some_ne_none i))
      intro ⟨_, hall⟩
      have := hall i hi (Nat.le_refl i)
      rw [hb] at this
      cases this
    · obtain ⟨found', hrun, hlt, hne, hiff⟩ := ih (i := i + 1) (by omega)
        (fun j hj => by have := hfound j hj; omega)
      refine ⟨found', by simpa [hb] using hrun, hlt, hne, ?_⟩
      rw [hiff]
      apply and_congr_right
      intro _
      constructor
      · intro hall j hj hij
        by_cases hji : j = i
        · subst hji
          simpa using hb
        · exact hall j hj (by omega)
      · exact fun hall j hj hij => hall j hj (by omega)

/-- The scan for the smallest key: what it finds is not above any key, nor above the first bound. -/
theorem scanBest_least {key : α → Int} {a : Nat → Option α} {l : List α} (h : Holds a l) {k i : Nat}
    (hki : i + k = l.length) {best : Int} {found : Option Nat}
    (hfound : ∀ j, found = some j → ∃ hj : j < l.length, key l[j] = best)
    (hleast : ∀ j, (hj : j < l.length) → j < i → best ≤ key l[j]) {m : Nat}
    (hrun : scanBest (fun r b => r ≤ b) key a k i best found = some (some m)) :
    ∃ hm : m < l.length, ∀ j, (hj : j < l.length) → key l[m] ≤ key l[j] := by
  induction k generalizing i best found with
  | zero =>
    obtain ⟨hm, hkey⟩ := hfound m (Option.some.inj hrun)
    exact ⟨hm, fun j hj => hkey ▸ hleast j hj (by omega)⟩
  | succ k ih =>
    have hi : i < l.length := by omega
    rw [scanBest, h.get hi] at hrun
    by_cases hb : key l[i] ≤ best
    · simp only [decide_eq_true hb, if_true] at hrun
      apply ih (by omega) _ _ hrun
      · intro j hj
        cases hj
        exact ⟨hi, rfl⟩
      · intro j hj hlt
        by_cases hji : j = i
        · subst hji
          exact Int.le_refl _
        · exact Int.le_trans hb (hleast j hj (by omega))
    · simp only [decide_eq_false hb, Bool.false_eq_true, if_false] at hrun
      apply ih (by omega) hfound _ hrun
      intro j hj hlt
      by_cases hji : j = i
      · subst hji
        omega
      · exact hleast j hj (by omega)

/-- The slots of `shiftDown`, in the order of the accesses. -/
def shiftSlots : (k i : Nat) → List Int
  | 0, _ => []
  | k + 1, i => (i + 1 : Int) :: (i : Int) :: shiftSlots k (i + 1)

theorem mem_shiftSlots {k i : Nat} {x : Int} (h : x ∈ shiftSlots k i) : (i : Int) ≤ x ∧ x ≤ i + k := by
  induction k generalizing i with
  | zero => cases h
  | succ k ih =>
    rw [shiftSlots, List.mem_cons, List.mem_cons] at h
    cases h with
    | inl h => omega
    | inr h =>
      cases h with
      | inl h => omega
      | inr h =>
        have hrest := ih h
        push_cast at hrest ⊢
        omega

/-- The last turn reads the slot behind the ones it moves to. -/
theorem last_mem_shiftSlots {k i : Nat} (hk : 0 < k) : ((i + k : Nat) : Int) ∈ shiftSlots k i := by
  induction k generalizing i with
  | zero => omega
  | succ k ih =>
    cases k with
    | zero => exact List.mem_cons_self
    | succ k =>
      have hrest := ih (i := i + 1) (Nat.succ_pos k)
      have hsame : i + (k + 1 + 1) = i + 1 + (k + 1) := by omega
      rw [hsame]
      exact List.mem_cons_of_mem _ (List.mem_cons_of_mem _ hrest)

end CseOs.Framework
