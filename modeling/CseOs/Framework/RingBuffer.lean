import Mathlib.Logic.Function.Basic
import Mathlib.Data.List.Basic

/-!
# Ring buffers

A ring of `size` cells with a read and a write position. It is empty when the two are equal,
so that it never holds more than `size - 1` elements.
-/

namespace CseOs.Framework

structure RingBuffer (α : Type) where
  size : Nat
  nextwrite : Nat
  nextread : Nat
  data : Nat → α

namespace RingBuffer

variable {α : Type} {q : RingBuffer α} {x : α}

structure Valid (q : RingBuffer α) : Prop where
  write_lt : q.nextwrite < q.size
  read_lt : q.nextread < q.size

/-- The elements held. -/
def count (q : RingBuffer α) : Nat := (q.nextwrite + q.size - q.nextread) % q.size

/-- The elements in the order in which they will be read. -/
def contents (q : RingBuffer α) : List α :=
  (List.range q.count).map fun i => q.data ((q.nextread + i) % q.size)

/-- No room for one more: the write position is right behind the read position. -/
def Full (q : RingBuffer α) : Prop := (q.nextwrite + 1) % q.size = q.nextread

instance : Decidable q.Full := inferInstanceAs (Decidable (_ = _))

def push (q : RingBuffer α) (x : α) : RingBuffer α :=
  { q with data := Function.update q.data q.nextwrite x, nextwrite := (q.nextwrite + 1) % q.size }

def pop (q : RingBuffer α) : α × RingBuffer α :=
  (q.data q.nextread, { q with nextread := (q.nextread + 1) % q.size })

private theorem wrap {i n : Nat} (h : i < 2 * n) : i % n = if i < n then i else i - n := by
  split
  · next hlt => exact Nat.mod_eq_of_lt hlt
  · next hge => rw [Nat.mod_eq_sub_mod (by omega), Nat.mod_eq_of_lt (by omega)]

@[simp] theorem length_contents : q.contents.length = q.count := by
  rw [contents, List.length_map, List.length_range]

theorem count_lt (h : q.Valid) : q.count < q.size := Nat.mod_lt _ (Nat.zero_lt_of_lt h.write_lt)

theorem read_add_count (h : q.Valid) : (q.nextread + q.count) % q.size = q.nextwrite := by
  have hw := h.write_lt
  have hr := h.read_lt
  rw [count, wrap (i := q.nextwrite + q.size - q.nextread) (by omega)]
  split
  · rw [wrap (by omega)]
    split <;> omega
  · rw [wrap (by omega)]
    split <;> omega

theorem count_eq_zero (h : q.Valid) : q.count = 0 ↔ q.nextwrite = q.nextread := by
  have hw := h.write_lt
  have hr := h.read_lt
  rw [count, wrap (by omega)]
  split <;> omega

theorem full_iff (h : q.Valid) : q.Full ↔ q.count + 1 = q.size := by
  have hw := h.write_lt
  have hr := h.read_lt
  rw [Full, count, wrap (by omega), wrap (by omega)]
  split <;> split <;> omega

theorem Valid.push (h : q.Valid) : (q.push x).Valid :=
  ⟨Nat.mod_lt _ (Nat.zero_lt_of_lt h.write_lt), h.read_lt⟩

theorem Valid.pop (h : q.Valid) : q.pop.2.Valid :=
  ⟨h.write_lt, Nat.mod_lt _ (Nat.zero_lt_of_lt h.read_lt)⟩

theorem count_push (h : q.Valid) (hroom : ¬ q.Full) : (q.push x).count = q.count + 1 := by
  have hw := h.write_lt
  have hr := h.read_lt
  rw [Full, wrap (by omega)] at hroom
  simp only [count, RingBuffer.push]
  rw [wrap (i := q.nextwrite + 1) (by omega)]
  split at hroom
  · rw [if_pos ‹_›, wrap (by omega), wrap (by omega)]
    split <;> split <;> omega
  · rw [if_neg ‹_›, wrap (by omega), wrap (by omega)]
    split <;> split <;> omega

private theorem position_ne (h : q.Valid) {i : Nat} (hi : i < q.count) :
    (q.nextread + i) % q.size ≠ q.nextwrite := by
  have hc := count_lt h
  have hr := h.read_lt
  rw [← read_add_count h, wrap (by omega), wrap (by omega)]
  split <;> split <;> omega

theorem contents_push (h : q.Valid) (hroom : ¬ q.Full) :
    (q.push x).contents = q.contents ++ [x] := by
  have hlast : (q.push x).data ((q.nextread + q.count) % q.size) = x := by
    rw [read_add_count h]
    exact Function.update_self _ _ _
  have hold : ∀ i ∈ List.range q.count,
      (q.push x).data ((q.nextread + i) % q.size) = q.data ((q.nextread + i) % q.size) :=
    fun i hi => Function.update_of_ne (position_ne h (List.mem_range.mp hi)) _ _
  rw [contents, count_push h hroom, List.range_succ, List.map_append, contents]
  show List.map (fun i => (q.push x).data ((q.nextread + i) % q.size)) _ ++
    [(q.push x).data ((q.nextread + q.count) % q.size)] = _
  rw [List.map_congr_left hold, hlast]

theorem contents_pop (h : q.Valid) (hne : q.nextwrite ≠ q.nextread) :
    q.contents = q.pop.1 :: q.pop.2.contents := by
  have hw := h.write_lt
  have hr := h.read_lt
  have hcount : q.count = q.pop.2.count + 1 := by
    simp only [count, RingBuffer.pop]
    rw [wrap (i := q.nextread + 1) (by omega)]
    split
    · rw [wrap (by omega), wrap (by omega)]
      split <;> split <;> omega
    · rw [wrap (by omega), wrap (by omega)]
      split <;> split <;> omega
  rw [contents, hcount, List.range_succ_eq_map, List.map_cons, List.map_map, Nat.add_zero,
    Nat.mod_eq_of_lt hr]
  congr 1
  apply List.map_congr_left
  intro i _
  show q.data ((q.nextread + (i + 1)) % q.size) = q.data (((q.nextread + 1) % q.size + i) % q.size)
  rw [Nat.mod_add_mod, Nat.add_assoc, Nat.add_comm 1 i]

/-- The ring has received the elements of the list, which may be as many as it has cells. -/
def Carries (q : RingBuffer α) (l : List α) : Prop :=
  (l.length < q.size ∧ q.contents = l) ∨ (l.length = q.size ∧ q.nextwrite = q.nextread)

variable {l : List α}

theorem Carries.contents (h : q.Carries l) (hroom : l.length < q.size) : q.contents = l := by
  cases h with
  | inl hheld => exact hheld.2
  | inr hfull => exact absurd hfull.1 (Nat.ne_of_lt hroom)

theorem Carries.push (hq : q.Valid) (h : q.Carries l) (hroom : l.length < q.size) :
    (q.push x).Carries (l ++ [x]) := by
  have hheld := h.contents hroom
  have hcount : q.count = l.length := by rw [← length_contents, hheld]
  by_cases hlast : q.Full
  · have hsize := (full_iff hq).mp hlast
    refine .inr ⟨?_, hlast⟩
    show (l ++ [x]).length = q.size
    rw [List.length_append, List.length_singleton]
    omega
  · have hsize : ¬ q.count + 1 = q.size := fun hone => hlast ((full_iff hq).mpr hone)
    refine .inl ⟨?_, ?_⟩
    · show (l ++ [x]).length < q.size
      rw [List.length_append, List.length_singleton]
      omega
    · rw [contents_push hq hlast, hheld]

theorem Carries.pop (hq : q.Valid) (h : q.Carries (x :: l)) (hroom : (x :: l).length < q.size) :
    q.pop.1 = x ∧ q.pop.2.Carries l := by
  have hheld := h.contents hroom
  have hne : q.nextwrite ≠ q.nextread := by
    intro heq
    have hzero := (count_eq_zero hq).mpr heq
    rw [← length_contents, hheld] at hzero
    cases hzero
  rw [contents_pop hq hne] at hheld
  have hparts := List.cons.inj hheld
  refine ⟨hparts.1, .inl ⟨?_, hparts.2⟩⟩
  show l.length < q.size
  exact Nat.lt_of_succ_lt hroom

theorem Carries.empty_iff (hq : q.Valid) (h : q.Carries l) (hroom : l.length < q.size) :
    q.nextwrite = q.nextread ↔ l = [] := by
  rw [← count_eq_zero hq, ← length_contents, h.contents hroom, List.length_eq_zero_iff]

end RingBuffer

end CseOs.Framework
