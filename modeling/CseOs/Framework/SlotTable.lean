import Mathlib.Data.List.Basic

/-!
# Tables of slots

A table has slots, some of which hold a value under a key. A key is in one slot at most. New keys are put
into empty slots or at the end of the table, so what is in the table at large does not depend on the slots.
-/

namespace CseOs.Framework

abbrev SlotTable (κ α : Type) := List (Option (κ × α))

namespace SlotTable

variable {κ α : Type} {t : SlotTable κ α} {i j : Nat} {k k' : κ} {a b : α} {e : Option (κ × α)}

/-- Slot `i` holds `a` under `k`. -/
def At (t : SlotTable κ α) (i : Nat) (k : κ) (a : α) : Prop := t[i]? = some (some (k, a))

/-- Each key is in one slot at most. -/
def Distinct (t : SlotTable κ α) : Prop := ∀ i j k a b, At t i k a → At t j k b → i = j

/-- Slot `i` is empty, or the next one at the end. -/
def Vacant (t : SlotTable κ α) (i : Nat) : Prop := i ≤ t.length ∧ ∀ k a, ¬ At t i k a

/-- Sets a slot, or adds one at the end -/
def put (i : Nat) (e : Option (κ × α)) (t : SlotTable κ α) : SlotTable κ α :=
  if i < t.length then t.set i e else t ++ [e]

/-- The value under a key, if the slot has the key -/
def valueOf [DecidableEq κ] (k : κ) : Option (κ × α) → Option α
  | some (k', a) => if k' = k then some a else none
  | none => none

def lookup [DecidableEq κ] (k : κ) (t : SlotTable κ α) : Option α := t.findSome? (valueOf k)

/-- Whether the slot has the value -/
def holds [DecidableEq α] (a : α) : Option (κ × α) → Bool
  | some (_, b) => decide (b = a)
  | none => false

/-- How many keys lead to a value -/
def uses [DecidableEq α] (a : α) (t : SlotTable κ α) : Nat := t.countP (holds a)

theorem getElem?_put (hi : i ≤ t.length) : (put i e t)[j]? = if j = i then some e else t[j]? := by
  unfold put
  split
  case isTrue h =>
    rw [List.getElem?_set]
    by_cases hj : i = j
    · simp [hj, hj ▸ h]
    · simp [hj, Ne.symm hj]
  case isFalse h =>
    have hlen : i = t.length := by omega
    by_cases hj : j < t.length
    · have hne : j ≠ i := by omega
      rw [List.getElem?_append_left hj, if_neg hne]
    · by_cases hji : j = i
      · simp [hji, hlen]
      · have hout : t.length < j := by omega
        have hnone : t[j]? = none := List.getElem?_eq_none (by omega)
        rw [List.getElem?_append_right (by omega), if_neg hji, hnone]
        exact List.getElem?_eq_none (by simp; omega)

theorem length_put (hi : i ≤ t.length) : (put i e t).length = max t.length (i + 1) := by
  unfold put
  split
  case isTrue h =>
    rw [List.length_set]
    omega
  case isFalse h =>
    rw [List.length_append, List.length_singleton]
    omega

theorem At.lt (h : At t i k a) : i < t.length := (List.getElem?_eq_some_iff.mp h).1

/-- A slot that was set holds what it was set to, the others what they held. -/
theorem at_put (hi : i ≤ t.length) : At (put i e t) j k a ↔ j = i ∧ e = some (k, a) ∨ j ≠ i ∧ At t j k a := by
  unfold At
  rw [getElem?_put hi]
  by_cases hj : j = i <;> simp [hj]

section

variable [DecidableEq κ]

theorem valueOf_eq_some : valueOf k e = some a ↔ e = some (k, a) := by
  cases e with
  | none => simp [valueOf]
  | some p =>
    cases p with
    | mk k' b =>
      simp only [valueOf, Option.ite_none_right_eq_some, Option.some.injEq, Prod.mk.injEq]

theorem exists_of_lookup (h : lookup k t = some a) : ∃ i, At t i k a := by
  obtain ⟨e, he, hval⟩ := List.exists_of_findSome?_eq_some h
  obtain ⟨i, hi⟩ := List.mem_iff_getElem?.mp he
  exact ⟨i, by rw [At, hi, valueOf_eq_some.mp hval]⟩

theorem lookup_eq_none : lookup k t = none ↔ ∀ i a, ¬ At t i k a := by
  constructor
  · intro h i a hat
    have hval := List.findSome?_eq_none_iff.mp h _ (List.mem_of_getElem? hat)
    simp [valueOf] at hval
  · intro h
    apply List.findSome?_eq_none_iff.mpr
    intro e he
    obtain ⟨i, hi⟩ := List.mem_iff_getElem?.mp he
    cases hval : valueOf k e with
    | none => rfl
    | some a =>
      apply absurd _ (h i a)
      rw [At, hi, valueOf_eq_some.mp hval]

/-- What is found is what a slot holds. -/
theorem Distinct.lookup_eq_some (h : Distinct t) : lookup k t = some a ↔ ∃ i, At t i k a := by
  constructor
  · exact exists_of_lookup
  · rintro ⟨i, hi⟩
    cases hl : lookup k t with
    | none => exact absurd hi (lookup_eq_none.mp hl i a)
    | some b =>
      obtain ⟨j, hj⟩ := exists_of_lookup hl
      have hsame := h i j k a b hi hj
      subst hsame
      unfold At at hi hj
      rw [hi] at hj
      cases hj
      rfl

/-- A key that is new may be put into a vacant slot. -/
theorem Distinct.put (h : Distinct t) (hv : Vacant t i) (hk : lookup k t = none) :
    Distinct (put i (some (k, a)) t) := by
  have hnew := lookup_eq_none.mp hk
  intro j j' k' b b' hj hj'
  rw [at_put hv.1] at hj hj'
  rcases hj with ⟨hji, he⟩ | ⟨_, hat⟩
  · rcases hj' with ⟨hji', _⟩ | ⟨_, hat'⟩
    · rw [hji, hji']
    · cases he
      exact absurd hat' (hnew j' b')
  · rcases hj' with ⟨_, he'⟩ | ⟨_, hat'⟩
    · cases he'
      exact absurd hat (hnew j b)
    · exact h j j' k' b b' hat hat'

theorem Distinct.lookup_put (h : Distinct t) (hv : Vacant t i) (hk : lookup k t = none) :
    lookup k' (SlotTable.put i (some (k, a)) t) = if k' = k then some a else lookup k' t := by
  have hput := h.put hv hk (a := a)
  apply Option.ext
  intro b
  rw [hput.lookup_eq_some]
  split
  case isTrue hkk =>
    subst hkk
    constructor
    · rintro ⟨j, hj⟩
      rw [at_put hv.1] at hj
      rcases hj with ⟨_, he⟩ | ⟨_, hat⟩
      · cases he
        rfl
      · exact absurd hat (lookup_eq_none.mp hk j b)
    · intro hb
      cases hb
      exact ⟨i, (at_put hv.1).mpr (.inl ⟨rfl, rfl⟩)⟩
  case isFalse hkk =>
    rw [h.lookup_eq_some]
    constructor
    · rintro ⟨j, hj⟩
      rw [at_put hv.1] at hj
      rcases hj with ⟨_, he⟩ | ⟨_, hat⟩
      · cases he
        exact absurd rfl hkk
      · exact ⟨j, hat⟩
    · rintro ⟨j, hj⟩
      have hne : j ≠ i := fun hji => hv.2 k' b (hji ▸ hj)
      exact ⟨j, (at_put hv.1).mpr (.inr ⟨hne, hj⟩)⟩

end

theorem Distinct.clear (h : Distinct t) (hi : i ≤ t.length) : Distinct (SlotTable.put i none t) := by
  intro j j' k' b b' hj hj'
  rw [at_put hi] at hj hj'
  rcases hj with ⟨_, he⟩ | ⟨_, hat⟩
  · cases he
  · rcases hj' with ⟨_, he'⟩ | ⟨_, hat'⟩
    · cases he'
    · exact h j j' k' b b' hat hat'

/-- With its slot cleared the key is gone, and only it. -/
theorem Distinct.lookup_clear [DecidableEq κ] (h : Distinct t) (hat : At t i k a) :
    lookup k' (SlotTable.put i none t) = if k' = k then none else lookup k' t := by
  have hi := Nat.le_of_lt hat.lt
  have hclear := h.clear hi
  apply Option.ext
  intro b
  rw [hclear.lookup_eq_some]
  split
  case isTrue hkk =>
    subst hkk
    constructor
    · rintro ⟨j, hj⟩
      rw [at_put hi] at hj
      rcases hj with ⟨_, he⟩ | ⟨hne, hj⟩
      · cases he
      · exact absurd (h j i k' b a hj hat) hne
    · intro hb
      cases hb
  case isFalse hkk =>
    rw [h.lookup_eq_some]
    constructor
    · rintro ⟨j, hj⟩
      rw [at_put hi] at hj
      rcases hj with ⟨_, he⟩ | ⟨_, hj⟩
      · cases he
      · exact ⟨j, hj⟩
    · rintro ⟨j, hj⟩
      refine ⟨j, (at_put hi).mpr (.inr ⟨fun hji => ?_, hj⟩)⟩
      rw [hji] at hj
      unfold At at hat hj
      rw [hat] at hj
      cases hj
      exact hkk rfl

section

variable [DecidableEq α]

theorem holds_eq_true : holds a e = true ↔ ∃ k, e = some (k, a) := by
  cases e with
  | none => simp [holds]
  | some p =>
    cases p with
    | mk k b => simp [holds]

theorem uses_pos : 0 < uses a t ↔ ∃ i k, At t i k a := by
  rw [uses, List.countP_pos_iff]
  constructor
  · rintro ⟨e, he, hhold⟩
    obtain ⟨i, hi⟩ := List.mem_iff_getElem?.mp he
    obtain ⟨k, rfl⟩ := holds_eq_true.mp hhold
    exact ⟨i, k, hi⟩
  · rintro ⟨i, k, hi⟩
    exact ⟨_, List.mem_of_getElem? hi, holds_eq_true.mpr ⟨k, rfl⟩⟩

theorem uses_le_length : uses a t ≤ t.length := List.countP_le_length

theorem uses_put (hi : i ≤ t.length) :
    uses b (put i e t) + (if holds b (t[i]?.join) = true then 1 else 0) =
      uses b t + if holds b e = true then 1 else 0 := by
  unfold uses put
  split
  case isTrue h =>
    have hget : t[i]? = some t[i] := List.getElem?_eq_getElem h
    rw [List.countP_set h, hget, Option.join_some]
    have hpos : holds b t[i] = true → 0 < t.countP (holds b) := fun hhold =>
      List.countP_pos_iff.mpr ⟨_, List.getElem_mem h, hhold⟩
    split
    case isTrue hhold =>
      have hle := hpos hhold
      omega
    case isFalse => omega
  case isFalse h =>
    have hget : t[i]? = none := List.getElem?_eq_none (by omega)
    rw [hget, List.countP_append]
    simp [holds, List.countP_cons]

theorem uses_put_vacant (hv : Vacant t i) :
    uses b (put i (some (k, a)) t) = uses b t + if a = b then 1 else 0 := by
  have hput := uses_put hv.1 (b := b) (e := some (k, a))
  have hold : ¬ holds b (t[i]?.join) = true := by
    intro hhold
    obtain ⟨k', he⟩ := holds_eq_true.mp hhold
    exact hv.2 k' b (Option.join_eq_some_iff.mp he)
  rw [if_neg hold] at hput
  simpa [holds] using hput

theorem uses_clear (hat : At t i k a) : uses b (put i none t) + (if a = b then 1 else 0) = uses b t := by
  have hput := uses_put (Nat.le_of_lt hat.lt) (b := b) (e := none)
  unfold At at hat
  rw [hat] at hput
  simpa [holds] using hput

end

end SlotTable

end CseOs.Framework
