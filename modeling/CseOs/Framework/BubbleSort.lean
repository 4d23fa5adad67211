import Mathlib.Data.List.Basic
import Mathlib.Order.Lattice

/-!
# Bubble sort

Each pass compares neighbours and exchanges them if they are out of order. Cells with equal keys keep
their order.
-/

namespace CseOs.Framework

variable {α γ β : Type*} [LinearOrder β] {key : α → β} {r : α → α → Prop} {l l' front back : List α}
  {x a b : α} {n m k : Nat}

/-- The first `m` comparisons of a pass. -/
def bubblePass (key : α → β) : Nat → List α → List α
  | m + 1, a :: b :: l =>
    if key b < key a then b :: bubblePass key m (a :: l) else a :: bubblePass key m (b :: l)
  | _, l => l

/-- The first `k` passes over `n` cells. -/
def bubblePasses (key : α → β) (n : Nat) : Nat → List α → List α
  | 0, l => l
  | k + 1, l => bubblePass key (n - k - 1) (bubblePasses key n k l)

def bubbleSort (key : α → β) (l : List α) : List α := bubblePasses key l.length (l.length - 1) l

theorem bubblePass_perm (key : α → β) (m : Nat) (l : List α) : (bubblePass key m l).Perm l := by
  induction m, l using bubblePass.induct key with
  | case1 m a b l hlt ih =>
    rw [bubblePass, if_pos hlt]
    exact (ih.cons b).trans (List.Perm.swap a b l)
  | case2 m a b l hle ih =>
    rw [bubblePass, if_neg hle]
    exact ih.cons a
  | case3 m l hno =>
    rw [bubblePass]
    exact hno

theorem bubblePasses_perm (key : α → β) (n k : Nat) (l : List α) : (bubblePasses key n k l).Perm l := by
  induction k with
  | zero => exact List.Perm.refl l
  | succ k ih => exact (bubblePass_perm key _ _).trans ih

theorem bubbleSort_perm (key : α → β) (l : List α) : (bubbleSort key l).Perm l :=
  bubblePasses_perm key _ _ l

theorem bubblePass_map (key : γ → β) (f : α → γ) (m : Nat) (l : List α) :
    (bubblePass (fun a => key (f a)) m l).map f = bubblePass key m (l.map f) := by
  induction m, l using bubblePass.induct fun a => key (f a) with
  | case1 m a b l hlt ih =>
    rw [bubblePass, if_pos hlt, List.map_cons, ih, List.map_cons, List.map_cons, List.map_cons, bubblePass,
      if_pos hlt]
  | case2 m a b l hle ih =>
    rw [bubblePass, if_neg hle, List.map_cons, ih, List.map_cons, List.map_cons, List.map_cons, bubblePass,
      if_neg hle]
  | case3 m l hno =>
    rw [bubblePass.eq_2 _ _ _ hno, bubblePass.eq_2]
    intro m' x y l' hm hl
    obtain ⟨a, l₁, rfl, rfl, hl₁⟩ := List.map_eq_cons_iff.mp hl
    obtain ⟨b, l₂, rfl, rfl, rfl⟩ := List.map_eq_cons_iff.mp hl₁
    exact hno m' a b l₂ hm rfl

theorem bubbleSort_map (key : γ → β) (f : α → γ) (l : List α) :
    (bubbleSort (fun a => key (f a)) l).map f = bubbleSort key (l.map f) := by
  rw [bubbleSort, bubbleSort, List.length_map]
  generalize l.length - 1 = k
  induction k with
  | zero => rfl
  | succ k ih => rw [bubblePasses, bubblePasses, bubblePass_map, ih]

theorem bubblePass_stable (hl : l.Pairwise fun a b => key a = key b → r a b) :
    (bubblePass key m l).Pairwise fun a b => key a = key b → r a b := by
  induction m, l using bubblePass.induct key with
  | case1 m a b l hlt ih =>
    obtain ⟨ha, hrest⟩ := List.pairwise_cons.mp hl
    obtain ⟨hb, hl'⟩ := List.pairwise_cons.mp hrest
    rw [bubblePass, if_pos hlt]
    apply List.Pairwise.cons
    · intro x hx heq
      cases List.mem_cons.mp ((bubblePass_perm key m (a :: l)).mem_iff.mp hx) with
      | inl hxa => exact absurd (hxa ▸ heq) hlt.ne
      | inr hxl => exact hb x hxl heq
    · exact ih (List.Pairwise.cons (fun x hx => ha x (List.mem_cons_of_mem b hx)) hl')
  | case2 m a b l hle ih =>
    obtain ⟨ha, hrest⟩ := List.pairwise_cons.mp hl
    rw [bubblePass, if_neg hle]
    apply List.Pairwise.cons
    · intro x hx heq
      exact ha x ((bubblePass_perm key m (b :: l)).mem_iff.mp hx) heq
    · exact ih hrest
  | case3 m l hno =>
    rw [bubblePass.eq_2 _ _ _ hno]
    exact hl

theorem bubbleSort_stable (hl : l.Pairwise fun a b => key a = key b → r a b) :
    (bubbleSort key l).Pairwise fun a b => key a = key b → r a b := by
  rw [bubbleSort]
  generalize l.length - 1 = k
  induction k with
  | zero => exact hl
  | succ k ih => exact bubblePass_stable ih

theorem bubblePass_append (hm : m < front.length) (back : List α) :
    bubblePass key m (front ++ back) = bubblePass key m front ++ back := by
  induction m, front using bubblePass.induct key with
  | case1 m a b l hlt ih =>
    rw [List.cons_append, List.cons_append, bubblePass, if_pos hlt, bubblePass, if_pos hlt, List.cons_append,
      ← ih (by simpa using hm), List.cons_append]
  | case2 m a b l hle ih =>
    rw [List.cons_append, List.cons_append, bubblePass, if_neg hle, bubblePass, if_neg hle, List.cons_append,
      ← ih (by simpa using hm), List.cons_append]
  | case3 m l hno =>
    rw [bubblePass.eq_2 _ _ _ hno, bubblePass.eq_2]
    intro m' x y l' hmm hl
    subst hmm
    match l with
    | [] => exact absurd hm (Nat.not_lt_zero _)
    | [a] => simp at hm
    | a :: b :: l₂ => exact hno m' a b l₂ rfl rfl

theorem bubblePass_last (key : α → β) (hm : l.length = m + 1) :
    ∃ init x, bubblePass key m l = init ++ [x] ∧ ∀ a ∈ init, key a ≤ key x := by
  induction m, l using bubblePass.induct key with
  | case1 m a b l hlt ih =>
    obtain ⟨init, x, hpass, hmax⟩ := ih (by simpa using hm)
    refine ⟨b :: init, x, by rw [bubblePass, if_pos hlt, hpass, List.cons_append], ?_⟩
    have hax : key a ≤ key x := by
      have hmem : a ∈ init ++ [x] := hpass ▸ (bubblePass_perm key m (a :: l)).mem_iff.mpr List.mem_cons_self
      cases List.mem_append.mp hmem with
      | inl hinit => exact hmax a hinit
      | inr hlast => rw [List.mem_singleton.mp hlast]
    exact List.forall_mem_cons.mpr ⟨hlt.le.trans hax, hmax⟩
  | case2 m a b l hle ih =>
    obtain ⟨init, x, hpass, hmax⟩ := ih (by simpa using hm)
    refine ⟨a :: init, x, by rw [bubblePass, if_neg hle, hpass, List.cons_append], ?_⟩
    have hbx : key b ≤ key x := by
      have hmem : b ∈ init ++ [x] := hpass ▸ (bubblePass_perm key m (b :: l)).mem_iff.mpr List.mem_cons_self
      cases List.mem_append.mp hmem with
      | inl hinit => exact hmax b hinit
      | inr hlast => rw [List.mem_singleton.mp hlast]
    exact List.forall_mem_cons.mpr ⟨(le_of_not_gt hle).trans hbx, hmax⟩
  | case3 m l hno =>
    rw [bubblePass.eq_2 _ _ _ hno]
    match m, l with
    | 0, [a] => exact ⟨[], a, rfl, fun b hb => absurd hb List.not_mem_nil⟩
    | m + 1, a :: b :: l₂ => exact absurd rfl (hno m a b l₂ rfl)

/-- The last cells are in order, and none of the others is greater. -/
def Settled (key : α → β) (k : Nat) (l : List α) : Prop :=
  ∃ front back, l = front ++ back ∧ back.length = k ∧ (back.Pairwise fun a b => key a ≤ key b) ∧
    ∀ a ∈ front, ∀ b ∈ back, key a ≤ key b

theorem Settled.pass (h : Settled key k l) (hm : l.length = k + m + 1) :
    Settled key (k + 1) (bubblePass key m l) := by
  obtain ⟨front, back, hl, hback, hsorted, hle⟩ := h
  subst hl
  rw [List.length_append, hback] at hm
  have hfront : front.length = m + 1 := by omega
  obtain ⟨init, x, hpass, hmax⟩ := bubblePass_last key hfront
  have hmem : ∀ a ∈ init ++ [x], a ∈ front := fun a ha =>
    (bubblePass_perm key m front).mem_iff.mp (hpass ▸ ha)
  have hx : x ∈ front := hmem x (List.mem_append_right init List.mem_cons_self)
  refine ⟨init, x :: back, ?_, by rw [List.length_cons, hback], ?_, fun a ha => ?_⟩
  · rw [bubblePass_append (by omega), hpass, List.append_assoc, List.singleton_append]
  · exact List.Pairwise.cons (hle x hx) hsorted
  · exact List.forall_mem_cons.mpr ⟨hmax a ha, hle a (hmem a (List.mem_append_left [x] ha))⟩

theorem bubblePasses_settled (hk : k < l.length) : Settled key k (bubblePasses key l.length k l) := by
  induction k with
  | zero => exact ⟨l, [], (List.append_nil l).symm, rfl, List.Pairwise.nil, fun _ _ b hb => by cases hb⟩
  | succ k ih =>
    apply (ih (by omega)).pass
    rw [(bubblePasses_perm key l.length k l).length_eq]
    omega

theorem bubbleSort_sorted (key : α → β) (l : List α) :
    (bubbleSort key l).Pairwise fun a b => key a ≤ key b := by
  cases l with
  | nil => exact List.Pairwise.nil
  | cons a l =>
    have hlen := (bubbleSort_perm key (a :: l)).length_eq
    have hsettled : Settled key l.length (bubblePasses key (l.length + 1) l.length (a :: l)) :=
      bubblePasses_settled (l := a :: l) (Nat.lt_succ_self l.length)
    obtain ⟨front, back, heq, hback, hsorted, hle⟩ := hsettled
    rw [bubbleSort, List.length_cons, Nat.add_sub_cancel] at hlen ⊢
    rw [heq, List.length_append, hback, Nat.add_comm, Nat.add_right_inj] at hlen
    obtain ⟨b, hb⟩ := List.length_eq_one_iff.mp hlen
    subst hb
    rw [heq]
    exact List.Pairwise.cons (hle b List.mem_cons_self) hsorted

/-- A smaller key, or an equal one and an earlier place. -/
def Precedes (key : α → β) (x y : α × Nat) : Prop := key x.1 < key y.1 ∨ key x.1 = key y.1 ∧ x.2 < y.2

instance (x y : α × Nat) : Decidable (Precedes key x y) := inferInstanceAs (Decidable (_ ∨ _))

theorem Precedes.asymm {x y : α × Nat} (h : Precedes key x y) : ¬ Precedes key y x := by
  intro h'
  cases h with
  | inl hlt =>
    cases h' with
    | inl hgt => exact hlt.asymm hgt
    | inr heq => exact hlt.ne heq.1.symm
  | inr heq =>
    cases h' with
    | inl hgt => exact hgt.ne heq.1.symm
    | inr heq' => exact Nat.lt_asymm heq.2 heq'.2

/-- The cells with their places before the sort. -/
theorem bubbleSort_zipIdx (key : α → β) (l : List α) :
    (bubbleSort (fun x : α × Nat => key x.1) l.zipIdx).map Prod.fst = bubbleSort key l ∧
      (bubbleSort (fun x : α × Nat => key x.1) l.zipIdx).Pairwise (Precedes key) := by
  refine ⟨?_, ?_⟩
  · rw [bubbleSort_map key Prod.fst, List.zipIdx_map_fst]
  · have hplaces : l.zipIdx.Pairwise fun x y => x.2 < y.2 := by
      have hrange : (l.zipIdx.map Prod.snd).Pairwise (· < ·) := by
        rw [List.zipIdx_map_snd]
        exact List.pairwise_lt_range'
      exact List.pairwise_map.mp hrange
    have hequal : l.zipIdx.Pairwise fun x y => key x.1 = key y.1 → x.2 < y.2 := by
      apply hplaces.imp
      intro x y h _
      exact h
    apply (bubbleSort_sorted _ _).imp₂ _ (bubbleSort_stable hequal)
    intro x y hle hplace
    exact hle.lt_or_eq.imp_right fun heq => ⟨heq, hplace heq⟩

/-- In a list in such an order the front of a cell are the cells that precede it. -/
theorem front_eq_filter {r : α → α → Prop} [DecidableRel r] (hr : ∀ a b, r a b → ¬ r b a)
    (hl : (front ++ x :: back).Pairwise r) :
    (front ++ x :: back).filter (fun a => r a x) = front := by
  obtain ⟨hfront, hback, hcross⟩ := List.pairwise_append.mp hl
  obtain ⟨hx, _⟩ := List.pairwise_cons.mp hback
  rw [List.filter_append, List.filter_cons_of_neg, List.filter_eq_self.mpr, List.filter_eq_nil_iff.mpr,
    List.append_nil]
  · intro b hb
    simpa using hr x b (hx b hb)
  · intro a ha
    simpa using hcross a ha x List.mem_cons_self
  · simpa using fun h => hr x x h h

end CseOs.Framework
