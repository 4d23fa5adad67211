import Mathlib.Algebra.Order.Floor.Div
import Mathlib.Algebra.Order.Monoid.Canonical.Defs
import Mathlib.Data.Finset.Card
import Mathlib.Data.Finset.Range
import Mathlib.Order.Interval.Finset.Nat

/-!
# Time slices

A queue in front of `m` slots. The holder of a slot has a slice of at most `q` rounds, and the slots
that are free after a round are filled from the front of the queue. A member of the queue gets a slot
after as many slices as it takes to serve those in front of it, `m` at a time.
-/

namespace CseOs.Framework

open Finset

/-- A slot has a holder and the rest of its slice. -/
structure Slots (α : Type*) where
  ready : List α
  slot : Nat → Option (α × Int)

variable {α σ : Type*} {S S' : Slots α} {m q p : Nat} {c : Int} {x : α} {filled : Finset Nat}
  {new pre post : List α}

def Slots.Holds (S : Slots α) (x : α) : Prop := ∃ i r, S.slot i = some (x, r)

/-- The state after a round: no slice is used up, and no slot is free while the queue has members. -/
structure Sliced (m q : Nat) (S : Slots α) : Prop where
  rest : ∀ i x r, S.slot i = some (x, r) → 1 ≤ r ∧ r ≤ q
  busy : S.ready ≠ [] → ∀ i < m, (S.slot i).isSome

/-- A round: the `new` members enter at the end and the slots `filled` are taken by those in front. -/
structure SliceRound (q : Nat) (S S' : Slots α) (filled : Finset Nat) (new : List α) : Prop where
  ready : S'.ready = (S.ready ++ new).drop filled.card
  served : ∀ x ∈ (S.ready ++ new).take filled.card, S'.Holds x
  slots : ∀ i x r, S'.slot i = some (x, r) → (i ∈ filled ∧ r = q) ∨ S.slot i = some (x, r + 1)

/-- The slots with a slice of more than `c` rounds left. -/
def fresh (m : Nat) (c : Int) (S : Slots α) : Finset Nat :=
  (range m).filter fun i => (S.slot i).any fun e => c < e.2

theorem mem_fresh {i : Nat} : i ∈ fresh m c S ↔ i < m ∧ ∃ x r, S.slot i = some (x, r) ∧ c < r := by
  rw [fresh, mem_filter, mem_range, Option.any_eq_true]
  simp

theorem Sliced.fresh_top (h : Sliced m q S) : fresh m q S = ∅ := by
  apply eq_empty_of_forall_notMem
  intro i hi
  obtain ⟨_, x, r, hslot, hlt⟩ := mem_fresh.mp hi
  have := (h.rest i x r hslot).2
  omega

theorem Sliced.fresh_zero (h : Sliced m q S) (hne : S.ready ≠ []) : (fresh m 0 S).card = m := by
  have hall : fresh m 0 S = range m := by
    ext i
    rw [mem_fresh, mem_range]
    constructor
    · exact fun hi => hi.1
    · intro hi
      obtain ⟨e, he⟩ := Option.isSome_iff_exists.mp (h.busy hne i hi)
      exact ⟨hi, e.1, e.2, he, by have := (h.rest i e.1 e.2 he).1; omega⟩
  rw [hall, card_range]

theorem SliceRound.fresh_card (h : SliceRound q S S' filled new) :
    (fresh m (c - 1) S').card ≤ (fresh m c S).card + filled.card := by
  have hsub : fresh m (c - 1) S' ⊆ fresh m c S ∪ filled := by
    intro i hi
    obtain ⟨him, x, r, hslot, hlt⟩ := mem_fresh.mp hi
    rw [mem_union, mem_fresh]
    cases h.slots i x r hslot with
    | inl hfilled => exact .inr hfilled.1
    | inr hold => exact .inl ⟨him, x, r + 1, hold, by omega⟩
  exact (card_le_card hsub).trans (card_union_le _ _)

theorem SliceRound.advance (h : SliceRound q S S' filled new) (hready : S.ready = pre ++ x :: post) :
    S'.Holds x ∨ ∃ pre' post', S'.ready = pre' ++ x :: post' ∧
      pre'.length + filled.card = pre.length := by
  have hsplit : S.ready ++ new = pre ++ x :: (post ++ new) := by
    rw [hready, List.append_assoc, List.cons_append]
  by_cases hlt : pre.length < filled.card
  · left
    apply h.served
    rw [hsplit, List.mem_iff_getElem?]
    refine ⟨pre.length, ?_⟩
    rw [List.getElem?_take_of_lt hlt]
    simp
  · right
    refine ⟨pre.drop filled.card, post ++ new, ?_, ?_⟩
    · rw [h.ready, hsplit, List.drop_append_of_le_length (by omega)]
    · rw [List.length_drop]
      omega

section Rounds

variable {view : σ → Slots α} {time : σ → Nat} (hsliced : ∀ s, Sliced m q (view s))
  (hgoes : ∀ s, (view s).ready ≠ [] → ∃ s' filled new, time s' = time s + 1 ∧
    SliceRound q (view s) (view s') filled new)
include hsliced hgoes

theorem slice_wait (s : σ) (hready : (view s).ready = pre ++ x :: post) (j : Nat) :
    (∃ s', time s < time s' ∧ time s' ≤ time s + j ∧ (view s').Holds x) ∨
      ∃ s' pre' post', time s' = time s + j ∧ (view s').ready = pre' ++ x :: post' ∧
        pre'.length + (fresh m ((q : Int) - j) (view s')).card ≤ pre.length := by
  induction j with
  | zero =>
    right
    refine ⟨s, pre, post, rfl, hready, ?_⟩
    rw [Int.ofNat_zero, Int.sub_zero, (hsliced s).fresh_top, card_empty]
    exact Nat.le_refl _
  | succ j ih =>
    cases ih with
    | inl hbound =>
      obtain ⟨s', hlt, hle, hholds⟩ := hbound
      exact .inl ⟨s', hlt, by omega, hholds⟩
    | inr hwait =>
      obtain ⟨s', pre', post', htime, hready', hcard⟩ := hwait
      obtain ⟨t, filled, new, hnext, hround⟩ := hgoes s' (by rw [hready']; simp)
      cases hround.advance hready' with
      | inl hholds => exact .inl ⟨t, by omega, by omega, hholds⟩
      | inr hless =>
        right
        obtain ⟨pre'', post'', hready'', hlen⟩ := hless
        refine ⟨t, pre'', post'', by omega, hready'', ?_⟩
        have hfresh := hround.fresh_card (m := m) (c := (q : Int) - j)
        have hstep : (q : Int) - j - 1 = (q : Int) - ((j + 1 : Nat) : Int) := by omega
        rw [hstep] at hfresh
        omega

theorem slices_wait (s : σ) (hready : (view s).ready = pre ++ x :: post) (b : Nat) :
    (∃ s', time s < time s' ∧ time s' ≤ time s + q * b ∧ (view s').Holds x) ∨
      ∃ s' pre' post', time s' = time s + q * b ∧ (view s').ready = pre' ++ x :: post' ∧
        pre'.length + m * b ≤ pre.length := by
  induction b with
  | zero => exact .inr ⟨s, pre, post, rfl, hready, Nat.le_refl _⟩
  | succ b ih =>
    cases ih with
    | inl hbound =>
      obtain ⟨s', hlt, hle, hholds⟩ := hbound
      exact .inl ⟨s', hlt, by rw [Nat.mul_succ]; omega, hholds⟩
    | inr hwait =>
      obtain ⟨s', pre', post', htime, hready', hlen⟩ := hwait
      cases slice_wait hsliced hgoes s' hready' q with
      | inl hbound =>
        obtain ⟨t, hlt, hle, hholds⟩ := hbound
        exact .inl ⟨t, by omega, by rw [Nat.mul_succ]; omega, hholds⟩
      | inr hnext =>
        right
        obtain ⟨t, pre'', post'', htime', hready'', hcard⟩ := hnext
        rw [Int.sub_self, (hsliced t).fresh_zero (by rw [hready'']; simp)] at hcard
        exact ⟨t, pre'', post'', by rw [Nat.mul_succ]; omega, hready'', by rw [Nat.mul_succ]; omega⟩

variable (view time) in
/-- The member at the position `p` gets a slot within as many slices as it takes to serve `p + 1`. -/
theorem bounded_wait (hm : 0 < m) (s : σ) (hx : (view s).ready[p]? = some x) :
    ∃ s', time s < time s' ∧ time s' ≤ time s + q * ((p + 1) ⌈/⌉ m) ∧ (view s').Holds x := by
  obtain ⟨hp, hget⟩ := List.getElem?_eq_some_iff.mp hx
  have hready : (view s).ready = (view s).ready.take p ++ x :: (view s).ready.drop (p + 1) := by
    rw [← hget, ← List.drop_eq_getElem_cons hp, List.take_append_drop]
  cases slices_wait hsliced hgoes s hready ((p + 1) ⌈/⌉ m) with
  | inl hbound => exact hbound
  | inr hwait =>
    obtain ⟨t, pre', post', _, _, hlen⟩ := hwait
    have hceil : p + 1 ≤ m * ((p + 1) ⌈/⌉ m) := le_smul_ceilDiv hm
    rw [List.length_take_of_le (Nat.le_of_lt hp)] at hlen
    omega

end Rounds

end CseOs.Framework
