import Mathlib.Algebra.BigOperators.Group.Finset.Basic
import Mathlib.Algebra.BigOperators.Ring.Finset
import Mathlib.Algebra.Order.BigOperators.Group.Finset
import Mathlib.Logic.Relation

/-!
# While loops

A loop is a test and a body that may fail. It returns what the states in front of its test say: the
results carry invariants along these states and bound their number by a variant.
-/

namespace CseOs.Framework

variable {σ : Type*}

/-- `while (cond) body` with at most `fuel` tests. A body that fails leaves the loop without a result. -/
def runWhile (cond : σ → Bool) (body : σ → Option σ) : Nat → σ → Option σ
  | 0, _ => none
  | fuel + 1, s => if cond s then (body s).bind (runWhile cond body fuel) else some s

/-- The loop returns in the state `t`. -/
def Returns (cond : σ → Bool) (body : σ → Option σ) (s t : σ) : Prop :=
  ∃ fuel, runWhile cond body fuel s = some t

/-- One turn of the loop. -/
def Turn (cond : σ → Bool) (body : σ → Option σ) (s t : σ) : Prop :=
  cond s = true ∧ body s = some t

/-- The loop that starts in `s` comes to its test in the state `t`. -/
def Heads (cond : σ → Bool) (body : σ → Option σ) : σ → σ → Prop :=
  Relation.ReflTransGen (Turn cond body)

/-- The loop that starts in `s` comes to its test in the state `t`, after its turns in the states `us`,
the last one first. -/
inductive Passes (cond : σ → Bool) (body : σ → Option σ) (s : σ) : List σ → σ → Prop
  | start : Passes cond body s [] s
  | turn {us : List σ} {t u : σ} (h : Passes cond body s us t) (hturn : Turn cond body t u) :
      Passes cond body s (t :: us) u

section Rules

variable {cond : σ → Bool} {body : σ → Option σ} {s t u : σ}

theorem returns_iff : Returns cond body s u ↔ Heads cond body s u ∧ cond u = false := by
  constructor
  · intro h
    obtain ⟨fuel, hrun⟩ := h
    induction fuel generalizing s with
    | zero => cases hrun
    | succ fuel ih =>
      rw [runWhile] at hrun
      split at hrun
      · next hc =>
        obtain ⟨t, ht, hrest⟩ := Option.bind_eq_some_iff.mp hrun
        have hlast := ih hrest
        exact ⟨.head ⟨hc, ht⟩ hlast.1, hlast.2⟩
      · next hc =>
        cases hrun
        exact ⟨.refl, by simpa using hc⟩
  · intro h
    obtain ⟨hrun, hstop⟩ := h
    induction hrun using Relation.ReflTransGen.head_induction_on with
    | refl => exact ⟨1, by simp [runWhile, hstop]⟩
    | head hturn _ ih =>
      obtain ⟨fuel, hrest⟩ := ih
      refine ⟨fuel + 1, ?_⟩
      rw [runWhile, if_pos hturn.1, hturn.2]
      exact hrest

theorem turn_rightUnique : Relator.RightUnique (Turn cond body) := by
  intro s t u ht hu
  exact Option.some.inj (ht.2.symm.trans hu.2)

/-- A loop that returns does so from each state in front of its test. -/
theorem Returns.of_heads (h : Returns cond body s u) (ht : Heads cond body s t) :
    Returns cond body t u := by
  rw [returns_iff] at h ⊢
  refine ⟨?_, h.2⟩
  cases Relation.ReflTransGen.total_of_right_unique turn_rightUnique ht h.1 with
  | inl hle => exact hle
  | inr hge =>
    cases hge.cases_head with
    | inl heq =>
      rw [heq]
      exact .refl
    | inr hturn =>
      obtain ⟨v, hv, _⟩ := hturn
      have hstop := h.2
      rw [hv.1] at hstop
      cases hstop

/-- A loop that returns has a turn from each state in front of its test, as long as the test holds. -/
theorem Returns.turn (h : Returns cond body s u) (ht : Heads cond body s t) (hc : cond t = true) :
    ∃ v, body t = some v ∧ Returns cond body v u := by
  have hrest := h.of_heads ht
  obtain ⟨hrun, hstop⟩ := returns_iff.mp hrest
  cases hrun.cases_head with
  | inl heq =>
    rw [← heq, hc] at hstop
    cases hstop
  | inr hturn =>
    obtain ⟨v, hv, _⟩ := hturn
    exact ⟨v, hv.2, hrest.of_heads (.single hv)⟩

theorem Returns.unique (h : Returns cond body s t) (h' : Returns cond body s u) : t = u := by
  have hrest := h'.of_heads (returns_iff.mp h).1
  obtain ⟨hrun, _⟩ := returns_iff.mp hrest
  cases hrun.cases_head with
  | inl heq => exact heq
  | inr hturn =>
    obtain ⟨v, hv, _⟩ := hturn
    have hstop := (returns_iff.mp h).2
    rw [hv.1] at hstop
    cases hstop

/-- What every turn keeps holds at each test. -/
theorem Heads.invariant {I : σ → Prop} (h : Heads cond body s t) (h₀ : I s)
    (hturn : ∀ s t, I s → cond s = true → body s = some t → I t) : I t := by
  induction h with
  | refl => exact h₀
  | tail _ ht ih => exact hturn _ _ ih ht.1 ht.2

theorem Returns.invariant {I : σ → Prop} (h : Returns cond body s t) (h₀ : I s)
    (hturn : ∀ s t, I s → cond s = true → body s = some t → I t) : I t ∧ cond t = false := by
  rw [returns_iff] at h
  exact ⟨h.1.invariant h₀ hturn, h.2⟩

theorem Passes.invariant {us : List σ} {I : List σ → σ → Prop} (h : Passes cond body s us t)
    (h₀ : I [] s)
    (hturn : ∀ us t u, I us t → cond t = true → body t = some u → I (t :: us) u) : I us t := by
  induction h with
  | start => exact h₀
  | turn _ ht ih => exact hturn _ _ _ ih ht.1 ht.2

/-- The rule of total correctness: a turn keeps the invariant and lowers the variant. -/
theorem returns_of_variant {I : σ → Prop} (variant : σ → Nat)
    (hturn : ∀ s, I s → cond s = true → ∃ t, body s = some t ∧ I t ∧ variant t < variant s)
    (h : I s) : ∃ t, Returns cond body s t ∧ I t ∧ cond t = false := by
  induction hv : variant s using Nat.strong_induction_on generalizing s with
  | _ v ih =>
    by_cases hc : cond s = true
    · obtain ⟨t, ht, hI, hlt⟩ := hturn s h hc
      obtain ⟨u, hu, hend⟩ := ih (variant t) (hv ▸ hlt) hI rfl
      rw [returns_iff] at hu
      exact ⟨u, returns_iff.mpr ⟨.head ⟨hc, ht⟩ hu.1, hu.2⟩, hend⟩
    · have hstop : cond s = false := by simpa using hc
      exact ⟨s, returns_iff.mpr ⟨.refl, hstop⟩, h, hstop⟩

/-- A loop whose test never fails does not return. -/
theorem not_returns {I : σ → Prop} (h₀ : I s) (hcond : ∀ s, I s → cond s = true)
    (hturn : ∀ s t, I s → cond s = true → body s = some t → I t) : ¬ Returns cond body s t := by
  intro h
  obtain ⟨hI, hstop⟩ := h.invariant h₀ hturn
  rw [hcond t hI] at hstop
  cases hstop

/-- The states in front of the tests of a loop with at most `fuel` tests all pass `ok`. -/
def headsPass (cond : σ → Bool) (body : σ → Option σ) (ok : σ → Bool) : Nat → σ → Bool
  | 0, _ => false
  | fuel + 1, s => ok s && (!cond s || (body s).all (headsPass cond body ok fuel))

theorem Heads.pass {ok : σ → Bool} {fuel : Nat} (h : Heads cond body s t)
    (hpass : headsPass cond body ok fuel s = true) : ok t = true := by
  induction h using Relation.ReflTransGen.head_induction_on generalizing fuel with
  | refl =>
    cases fuel with
    | zero => cases hpass
    | succ fuel =>
      rw [headsPass, Bool.and_eq_true] at hpass
      exact hpass.1
  | head hturn _ ih =>
    cases fuel with
    | zero => cases hpass
    | succ fuel =>
      rw [headsPass, hturn.1, hturn.2, Bool.not_true, Bool.false_or, Option.all_some,
        Bool.and_eq_true] at hpass
      exact ih hpass.2

end Rules

def INT_MAX : Int := 2147483647

/-- `time += d` of an `int`, which has no result when it overflows. -/
def advance (time d : Int) : Option Int := if time + d ≤ INT_MAX then some (time + d) else none

theorem advance_eq_some {time d time' : Int} :
    advance time d = some time' ↔ time + d ≤ INT_MAX ∧ time' = time + d := by
  rw [advance]
  split
  · next hle => simp [hle, eq_comm]
  · next hno => simp [hno]

section Sums

variable {α : Type*} {n i : Nat}

/-- Two sums that differ in one term. -/
theorem sum_change {f g : Nat → Int} (hi : i < n) (h : ∀ j ≠ i, f j = g j) :
    ∑ j ∈ Finset.range n, f j = ∑ j ∈ Finset.range n, g j + (f i - g i) := by
  have hmem : i ∈ Finset.range n := Finset.mem_range.mpr hi
  rw [← Finset.add_sum_erase _ _ hmem, ← Finset.add_sum_erase _ g hmem]
  have hrest : ∑ j ∈ (Finset.range n).erase i, f j = ∑ j ∈ (Finset.range n).erase i, g j :=
    Finset.sum_congr rfl fun j hj => h j (Finset.ne_of_mem_erase hj)
  rw [hrest]
  omega

theorem sum_update (f : Nat → α → Int) (a : Nat → α) (x : α) (hi : i < n) :
    ∑ j ∈ Finset.range n, f j (Function.update a i x j) =
      ∑ j ∈ Finset.range n, f j (a j) + (f i x - f i (a i)) := by
  have hchange := sum_change (f := fun j => f j (Function.update a i x j))
    (g := fun j => f j (a j)) hi fun j hj => by rw [Function.update_of_ne hj]
  rwa [Function.update_self] at hchange

/-- A counter of the cells that are `ok` reaches the number of cells only if all are. -/
theorem all_of_count {ok : Nat → Prop} [DecidablePred ok]
    (h : (n : Int) ≤ ∑ j ∈ Finset.range n, if ok j then 1 else 0) : ∀ i < n, ok i := by
  intro i hi
  have hterm : ∀ j ∈ Finset.range n, (0 : Int) ≤ 1 - if ok j then 1 else 0 := by
    intro j _
    split <;> decide
  have hle := Finset.single_le_sum hterm (Finset.mem_range.mpr hi)
  rw [Finset.sum_sub_distrib, Finset.sum_const, Finset.card_range, nsmul_eq_mul, mul_one] at hle
  by_contra hno
  rw [if_neg hno] at hle
  omega

theorem exists_of_count {ok : Nat → Prop} [DecidablePred ok]
    (h : (∑ j ∈ Finset.range n, if ok j then (1 : Int) else 0) < n) : ∃ i < n, ¬ ok i := by
  by_contra hno
  push Not at hno
  have hall : ∀ j ∈ Finset.range n, (if ok j then (1 : Int) else 0) = 1 :=
    fun j hj => if_pos (hno j (Finset.mem_range.mp hj))
  rw [Finset.sum_congr rfl hall, Finset.sum_const, Finset.card_range, nsmul_eq_mul, mul_one] at h
  omega

end Sums

section Least

/-- The loop over the first `n` cells that keeps the least key below `limit` among the cells that are
`ok`, and its first index. -/
def leastIndex (ok : Nat → Bool) (key : Nat → Int) (limit : Int) : Nat → Option Nat × Int
  | 0 => (none, limit)
  | n + 1 =>
    let r := leastIndex ok key limit n
    if ok n && decide (key n < r.2) then (some n, key n) else r

variable {ok : Nat → Bool} {key : Nat → Int} {limit : Int} {n i : Nat}

theorem leastIndex_bound : (leastIndex ok key limit n).2 ≤ limit ∧
    ∀ j < n, ok j = true → (leastIndex ok key limit n).2 ≤ key j := by
  induction n with
  | zero => exact ⟨Int.le_refl limit, fun j hj => absurd hj (Nat.not_lt_zero j)⟩
  | succ n ih =>
    rw [leastIndex]
    split
    · next hbetter =>
      rw [Bool.and_eq_true, decide_eq_true_eq] at hbetter
      refine ⟨by omega, fun j hj hok => ?_⟩
      by_cases hlast : j = n
      · rw [hlast]
      · have := ih.2 j (by omega) hok
        omega
    · next hworse =>
      rw [Bool.and_eq_true, decide_eq_true_eq, not_and] at hworse
      refine ⟨ih.1, fun j hj hok => ?_⟩
      by_cases hlast : j = n
      · rw [hlast] at hok ⊢
        exact Int.not_lt.mp (hworse hok)
      · exact ih.2 j (by omega) hok

theorem leastIndex_ge {c : Int} (hlimit : c ≤ limit) (hkey : ∀ j < n, c ≤ key j) :
    c ≤ (leastIndex ok key limit n).2 := by
  induction n with
  | zero => exact hlimit
  | succ n ih =>
    rw [leastIndex]
    split
    · exact hkey n (Nat.lt_succ_self n)
    · exact ih fun j hj => hkey j (Nat.lt_succ_of_lt hj)

theorem leastIndex_some (h : (leastIndex ok key limit n).1 = some i) :
    i < n ∧ ok i = true ∧ key i < limit ∧ key i = (leastIndex ok key limit n).2 := by
  induction n with
  | zero => cases h
  | succ n ih =>
    rw [leastIndex] at h ⊢
    split at h
    · next hbetter =>
      have hle : (leastIndex ok key limit n).2 ≤ limit := leastIndex_bound.1
      rw [if_pos hbetter]
      rw [Bool.and_eq_true, decide_eq_true_eq] at hbetter
      cases h
      exact ⟨Nat.lt_succ_self _, hbetter.1, by omega, rfl⟩
    · next hworse =>
      rw [if_neg hworse]
      have hold := ih h
      exact ⟨Nat.lt_succ_of_lt hold.1, hold.2⟩

/-- The cell that was found has the least key. -/
theorem leastIndex_le (h : (leastIndex ok key limit n).1 = some i) :
    ∀ j < n, ok j = true → key i ≤ key j := by
  intro j hj hok
  rw [(leastIndex_some h).2.2.2]
  exact leastIndex_bound.2 j hj hok

theorem leastIndex_none (h : (leastIndex ok key limit n).1 = none) :
    ∀ j < n, ok j = true → limit ≤ key j := by
  have hlimit : (leastIndex ok key limit n).2 = limit := by
    induction n with
    | zero => rfl
    | succ n ih =>
      rw [leastIndex] at h ⊢
      split at h
      · cases h
      · next hworse =>
        rw [if_neg hworse]
        exact ih h
  intro j hj hok
  rw [← hlimit]
  exact leastIndex_bound.2 j hj hok

end Least

end CseOs.Framework
