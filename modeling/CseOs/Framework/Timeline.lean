import Mathlib.Algebra.Order.Ring.Int
import Mathlib.Data.List.Basic

/-!
# Timelines

What ran in each unit of time, its maximal runs, and a chart of such runs that states only where each
one ends.
-/

namespace CseOs.Framework

variable {α : Type*} {a b : α} {start e : Int} {chart : List (α × Int)}
  {units : List (Option α)}

/-- The maximal runs of one name from the time `start` on, with their ends. -/
def runs [DecidableEq α] (start : Int) : List (Option α) → List (α × Int)
  | [] => []
  | none :: units => runs (start + 1) units
  | some a :: units =>
    if units.head? = some (some a) then runs (start + 1) units
    else (a, start + 1) :: runs (start + 1) units

/-- Where the chart ends, each entry being the end of a segment that begins where the last one ended. -/
def lastEnd (start : Int) : List (α × Int) → Int
  | [] => start
  | e :: chart => lastEnd e.2 chart

/-- The length of all segments of `a`. -/
def shareOf [DecidableEq α] (a : α) (start : Int) : List (α × Int) → Int
  | [] => 0
  | e :: chart => (if e.1 = a then e.2 - start else 0) + shareOf a e.2 chart

/-- The end of the last segment of `a`. -/
def endOf [DecidableEq α] (a : α) (chart : List (α × Int)) : Option Int :=
  (chart.findRev? fun e => e.1 = a).map Prod.snd

def endSum (chart : List (α × Int)) : Int := (chart.map Prod.snd).sum

theorem lastEnd_concat : lastEnd start (chart ++ [(a, e)]) = e := by
  induction chart generalizing start with
  | nil => rfl
  | cons _ _ ih => exact ih

theorem endSum_concat : endSum (chart ++ [(a, e)]) = endSum chart + e := by
  simp [endSum]

section Concat

variable [DecidableEq α]

theorem shareOf_concat : shareOf a start (chart ++ [(b, e)]) =
    shareOf a start chart + if b = a then e - lastEnd start chart else 0 := by
  induction chart generalizing start with
  | nil => simp [shareOf, lastEnd]
  | cons x chart ih =>
    rw [List.cons_append, shareOf, shareOf, ih, lastEnd]
    omega

theorem endOf_concat : endOf a (chart ++ [(b, e)]) = if b = a then some e else endOf a chart := by
  rw [endOf, endOf, List.findRev?_eq_find?_reverse, List.findRev?_eq_find?_reverse,
    List.reverse_append]
  by_cases hab : b = a <;> simp [hab]

theorem runs_concat_none : runs start (units ++ [none]) = runs start units := by
  induction units generalizing start with
  | nil => rfl
  | cons u units ih =>
    cases u with
    | none => exact ih
    | some a =>
      have hhead : (units ++ [none]).head? = some (some a) ↔ units.head? = some (some a) := by
        cases units <;> simp
      rw [List.cons_append, runs, runs, ih]
      simp only [hhead]

theorem runs_concat_new (hlast : units.getLast? ≠ some (some a)) :
    runs start (units ++ [some a]) = runs start units ++ [(a, start + units.length + 1)] := by
  induction units generalizing start with
  | nil => simp [runs]
  | cons u units ih =>
    have hrest : units.getLast? ≠ some (some a) := by
      intro heq
      apply hlast
      rw [List.getLast?_cons, heq]
      rfl
    have hend : start + 1 + (units.length : Int) + 1 = start + ((units.length + 1 : Nat) : Int) + 1 := by
      omega
    cases u with
    | none =>
      rw [List.cons_append, runs, runs, ih hrest, List.length_cons, hend]
    | some b =>
      have hhead : (units ++ [some a]).head? = some (some b) ↔ units.head? = some (some b) := by
        cases units with
        | nil =>
          have hne : a ≠ b := by
            intro heq
            apply hlast
            rw [heq]
            rfl
          simpa using hne
        | cons v units => simp
      rw [List.cons_append, runs, runs, ih hrest, List.length_cons, hend]
      simp only [hhead]
      split <;> rfl

/-- One more unit of the name that ran last moves the end of the last run. -/
theorem endSum_runs_again (hlast : units.getLast? = some (some a)) :
    endSum (runs start (units ++ [some a])) = endSum (runs start units) + 1 := by
  induction units generalizing start with
  | nil => cases hlast
  | cons u units ih =>
    cases units with
    | nil =>
      cases hlast
      simp [runs, endSum]
    | cons v units =>
      have hrest : (v :: units).getLast? = some (some a) := by simpa using hlast
      have hih : endSum (runs (start + 1) (v :: units ++ [some a])) =
          endSum (runs (start + 1) (v :: units)) + 1 := ih hrest
      cases u with
      | none => exact hih
      | some b =>
        have hhead : (v :: units ++ [some a]).head? = some (some b) ↔
            (v :: units).head? = some (some b) := by simp
        rw [List.cons_append, runs, runs]
        simp only [hhead]
        split
        · exact hih
        · simp only [endSum, List.map_cons, List.sum_cons] at hih ⊢
          omega

end Concat

end CseOs.Framework
