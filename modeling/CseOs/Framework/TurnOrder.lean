import Mathlib.Data.List.Rotate
import Mathlib.Data.List.Nodup

/-!
# Turns by a running counter

A queue in which the counter modulo the length says whose turn it is. The list rotated by the counter is
the order in which the entries are due.
-/

namespace CseOs.Framework

variable {α : Type*} {l a : List α} {k c : Nat} {p r x : α}

/-- The entry whose turn it is comes first. -/
theorem rotate_eq_cons (hk : k < l.length) : l.rotate k = l[k] :: (l.drop (k + 1) ++ l.take k) := by
  rw [List.rotate_eq_drop_append_take hk.le, List.drop_eq_getElem_cons hk]
  rfl

theorem rotate_append (hk : k ≤ l.length) : (l ++ a).rotate k = l.drop k ++ a ++ l.take k := by
  have hlen : k ≤ (l ++ a).length := by
    rw [List.length_append]
    omega
  rw [List.rotate_eq_drop_append_take hlen, List.drop_append_of_le_length hk,
    List.take_append_of_le_length hk]

/-- The turn moves on to the next place. -/
theorem rotate_next (hk : k < l.length) :
    (l ++ a).rotate (k + 1) = l.drop (k + 1) ++ a ++ l.take k ++ [l[k]] := by
  rw [rotate_append hk, List.take_succ_eq_append_getElem hk, List.append_assoc _ _ [l[k]]]

/-- The turn stays at the place of an entry that left. -/
theorem rotate_left (hk : k < l.length) :
    (l.eraseIdx k ++ a).rotate k = l.drop (k + 1) ++ a ++ l.take k := by
  have hlen : k ≤ (l.eraseIdx k).length := by
    rw [List.length_eraseIdx_of_lt hk]
    omega
  have htake : (l.take k).length = k := List.length_take_of_le hk.le
  rw [rotate_append hlen, List.eraseIdx_eq_take_drop_succ, List.drop_left' htake, List.take_left' htake]

/-- The counter matters modulo the length only. -/
theorem rotate_congr (h : l ≠ [] → c % l.length = k % l.length) : l.rotate c = l.rotate k := by
  cases l with
  | nil => rw [List.rotate_nil, List.rotate_nil]
  | cons x l => rw [← List.rotate_mod, h (List.cons_ne_nil x l), List.rotate_mod]

/-- `r` is due before `p`. -/
def DueBefore (r p : α) (l : List α) : Prop := [r, p].Sublist l

theorem DueBefore.of_cons (h : DueBefore r p (x :: l)) (hr : r ≠ x) : DueBefore r p l :=
  h.of_cons_of_ne hr

theorem DueBefore.insert {b z : List α} (h : DueBefore r p (l ++ b)) : DueBefore r p (l ++ a ++ b ++ z) := by
  have hsub : (l ++ b).Sublist (l ++ a ++ b ++ z) := by
    apply List.Sublist.trans _ (List.sublist_append_left _ z)
    exact (List.sublist_append_left l a).append (List.Sublist.refl b)
  exact h.trans hsub

theorem dueBefore_concat (hr : r ∈ l) : DueBefore r p (l ++ [p]) := by
  have hone : [r].Sublist l := List.singleton_sublist.mpr hr
  exact hone.append (List.Sublist.refl [p])

theorem not_dueBefore_cons (hnd : (p :: l).Nodup) (hr : r ≠ p) : ¬ DueBefore r p (p :: l) := by
  intro h
  have hmem : p ∈ l := (h.of_cons hr).subset (List.mem_cons_of_mem r List.mem_cons_self)
  exact (List.nodup_cons.mp hnd).1 hmem

end CseOs.Framework
