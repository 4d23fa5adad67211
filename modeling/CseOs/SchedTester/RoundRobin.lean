import CseOs.Framework.CyclicScan
import CseOs.Framework.WorkConserving

/-!
# `rr.c` of the scheduling methods tester

`rr` scans the array of the processes again and again. In a scan every unfinished process that has not
arrived costs a unit of time, whether others are ready or not.
-/

namespace CseOs.SchedTester

open Framework Finset

structure Process where
  pid : Int
  arrival : Int
  burst : Int
  priority : Int
  deriving DecidableEq, Repr

def QUANTUM : Int := 4

/-- The local variables and the arrays of results. -/
structure RrSt where
  remaining : Nat → Int
  done : Bool
  current_time : Int
  ct : Nat → Int
  tat : Nat → Int
  wt : Nat → Int

/-- The process runs for a quantum. -/
def RrSt.slice (i : Nat) (s : RrSt) : Option RrSt :=
  (advance s.current_time QUANTUM).map fun t =>
    { s with current_time := t, remaining := Function.update s.remaining i (s.remaining i - QUANTUM) }

/-- The process runs to its end. -/
def RrSt.finish (p : Nat → Process) (i : Nat) (s : RrSt) : Option RrSt :=
  (advance s.current_time (s.remaining i)).map fun t =>
    { s with
      current_time := t
      remaining := Function.update s.remaining i 0
      ct := Function.update s.ct i t
      tat := Function.update s.tat i (t - (p i).arrival)
      wt := Function.update s.wt i (t - (p i).arrival - (p i).burst) }

/-- `current_time++;` -/
def RrSt.tick (s : RrSt) : Option RrSt :=
  (advance s.current_time 1).map fun t => { s with current_time := t }

/-- The body of the scan. -/
def visit (p : Nat → Process) (i : Nat) (s : RrSt) : Option RrSt :=
  if 0 < s.remaining i then
    if (p i).arrival ≤ s.current_time then
      if QUANTUM < s.remaining i then { s with done := false }.slice i
      else { s with done := false }.finish p i
    else { s with done := false }.tick
  else some s

/-- The scan of the cells in the list. -/
def scan (p : Nat → Process) : List Nat → RrSt → Option RrSt
  | [], s => some s
  | i :: is, s => (visit p i s).bind (scan p is)

/-- `done = 1;` and the scan of all processes. -/
def pass (n : Nat) (p : Nat → Process) (s : RrSt) : Option RrSt :=
  scan p (List.range n) { s with done := true }

/-- The state in front of the loop, which is tested behind each pass. The array `remaining` has 100 cells. -/
def rrStart (n : Nat) (p : Nat → Process) (ct tat wt : Nat → Int) : Option RrSt :=
  if n ≤ 100 then
    some { remaining := fun i => (p i).burst, done := false, current_time := 0, ct := ct, tat := tat, wt := wt }
  else none

def goesOn (s : RrSt) : Bool := !s.done

variable {n i j : Nat} {p : Nat → Process} {ct tat wt : Nat → Int} {s t u : RrSt} {is : List Nat}

/-- The scan comes to the process `i` in the state `s`. -/
def Visits (n : Nat) (p : Nat → Process) (ct tat wt : Nat → Int) (i : Nat) (s : RrSt) : Prop :=
  ∃ s₀ u, rrStart n p ct tat wt = some s₀ ∧ Heads goesOn (pass n p) s₀ u ∧ goesOn u = true ∧ i < n ∧
    scan p (List.range i) { u with done := true } = some s

/-- The clock goes on without a process. -/
def Idles (p : Nat → Process) (i : Nat) (s : RrSt) : Prop :=
  0 < s.remaining i ∧ s.current_time < (p i).arrival

/-- `rr` returns after all bursts and the gaps that cannot be filled, and is idle only if nobody waits. -/
def RrWorkConserving (n : Nat) (p : Nat → Process) (ct tat wt : Nat → Int) : Prop :=
  (∃ s₀ t, rrStart n p ct tat wt = some s₀ ∧ Returns goesOn (pass n p) s₀ t ∧
    t.current_time = ∑ i ∈ range n, (p i).burst +
      idleGaps n (fun i => (p i).arrival) fun i => (p i).burst) ∧
  ∀ i s, Visits n p ct tat wt i s → Idles p i s → ∀ j < n, (p j).arrival ≤ s.current_time → s.remaining j = 0

/-- The processes as they are in front of the first scan. -/
def jobsOf (n : Nat) (p : Nat → Process) : List ScanJob :=
  (List.range n).map fun i => ⟨(p i).arrival, (p i).burst⟩

/-- The arrivals are seamless, and everything fits into the array and into the clock. -/
structure Serviceable (n : Nat) (p : Nat → Process) : Prop where
  room : n ≤ 100
  fits : FitsIn n (fun i => (p i).arrival) (fun i => (p i).burst) INT_MAX
  seamless : Seamless QUANTUM n 0 (jobsOf n p)

/-- The unfinished processes in the order of the scan, from `i` on. -/
def circle (n i : Nat) (p : Nat → Process) (s : RrSt) : List ScanJob :=
  (((List.range n).rotate i).filter fun j => 0 < s.remaining j).map fun j => ⟨(p j).arrival, s.remaining j⟩

def turnOf (n i : Nat) (p : Nat → Process) (s : RrSt) : ScanSt := (s.current_time, circle n i p s)

/-- What a visit changes. -/
structure Visited (p : Nat → Process) (i : Nat) (s t : RrSt) (d : Int) : Prop where
  time : t.current_time = s.current_time + d
  clock : t.current_time ≤ INT_MAX
  done : t.done = false

/-- What the body of the scan does. -/
theorem visit_cases (hrun : visit p i s = some t) :
    (¬ 0 < s.remaining i ∧ t = s) ∨
    (0 < s.remaining i ∧ (p i).arrival ≤ s.current_time ∧ ∃ d, Visited p i s t d ∧ 0 < d ∧
      d = (if QUANTUM < s.remaining i then QUANTUM else s.remaining i) ∧
      t.remaining = Function.update s.remaining i (s.remaining i - d)) ∨
    (Idles p i s ∧ Visited p i s t 1 ∧ t.remaining = s.remaining) := by
  rw [visit] at hrun
  by_cases hleft : 0 < s.remaining i
  · rw [if_pos hleft] at hrun
    by_cases harrived : (p i).arrival ≤ s.current_time
    · rw [if_pos harrived] at hrun
      refine .inr (.inl ⟨hleft, harrived, ?_⟩)
      by_cases hlong : QUANTUM < s.remaining i
      · rw [if_pos hlong] at hrun ⊢
        obtain ⟨time, hadvance, heq⟩ := Option.map_eq_some_iff.mp hrun
        obtain ⟨hclock, htime⟩ := advance_eq_some.mp hadvance
        subst heq htime
        exact ⟨_, ⟨rfl, hclock, rfl⟩, by decide, rfl, rfl⟩
      · rw [if_neg hlong] at hrun ⊢
        obtain ⟨time, hadvance, heq⟩ := Option.map_eq_some_iff.mp hrun
        obtain ⟨hclock, htime⟩ := advance_eq_some.mp hadvance
        subst heq htime
        refine ⟨_, ⟨rfl, hclock, rfl⟩, hleft, rfl, ?_⟩
        rw [Int.sub_self]
    · rw [if_neg harrived] at hrun
      obtain ⟨time, hadvance, heq⟩ := Option.map_eq_some_iff.mp hrun
      obtain ⟨hclock, htime⟩ := advance_eq_some.mp hadvance
      subst heq htime
      exact .inr (.inr ⟨⟨hleft, Int.lt_of_not_ge harrived⟩, ⟨rfl, hclock, rfl⟩, rfl⟩)
  · rw [if_neg hleft] at hrun
    cases hrun
    exact .inl ⟨hleft, rfl⟩

/-- In the circle from `i` on the process `i` comes first, and from `i + 1` on it comes last. -/
theorem rotate_range (hi : i < n) : ∃ others, (List.range n).rotate i = i :: others ∧
    (List.range n).rotate (i + 1) = others ++ [i] ∧ i ∉ others := by
  have hlen : i < (List.range n).length := by rwa [List.length_range]
  have hrot : (List.range n).rotate i = i :: ((List.range n).drop (i + 1) ++ (List.range n).take i) := by
    rw [List.rotate_eq_drop_append_take hlen.le, List.drop_eq_getElem_cons hlen, List.getElem_range,
      List.cons_append]
  refine ⟨_, hrot, ?_, ?_⟩
  · rw [← List.rotate_rotate, hrot, List.rotate_cons_succ, List.rotate_zero]
  · have hnd : ((List.range n).rotate i).Nodup := List.nodup_rotate.mpr List.nodup_range
    rw [hrot] at hnd
    exact (List.nodup_cons.mp hnd).1

theorem filter_map_congr {others : List Nat} (hi : i ∉ others) (h : ∀ j ≠ i, t.remaining j = s.remaining j) :
    (others.filter fun j => 0 < t.remaining j).map (fun j => (⟨(p j).arrival, t.remaining j⟩ : ScanJob)) =
      (others.filter fun j => 0 < s.remaining j).map fun j => ⟨(p j).arrival, s.remaining j⟩ := by
  have hne : ∀ j ∈ others, j ≠ i := fun j hj heq => hi (heq ▸ hj)
  have hfilter : (others.filter fun j => 0 < t.remaining j) = others.filter fun j => 0 < s.remaining j := by
    apply List.filter_congr
    intro j hj
    rw [h j (hne j hj)]
  rw [hfilter]
  apply List.map_congr_left
  intro j hj
  rw [h j (hne j (List.mem_of_mem_filter hj))]

/-- A visit of an unfinished process is its turn, and one of a finished process is none. -/
theorem turnOf_visit (hi : i < n) (hrun : visit p i s = some t) :
    turnOf n (i + 1) p t = if 0 < s.remaining i then scanTurn QUANTUM (turnOf n i p s) else turnOf n i p s := by
  obtain ⟨others, hrot, hnext, hnot⟩ := rotate_range hi
  obtain ⟨rest, hrest⟩ : ∃ rest, rest = (others.filter fun j => 0 < s.remaining j).map fun j =>
    (⟨(p j).arrival, s.remaining j⟩ : ScanJob) := ⟨_, rfl⟩
  have hcircle : circle n i p s = if 0 < s.remaining i then ⟨(p i).arrival, s.remaining i⟩ :: rest else rest := by
    rw [circle, hrot, List.filter_cons, hrest]
    by_cases hleft : 0 < s.remaining i
    · rw [if_pos hleft, if_pos (decide_eq_true hleft), List.map_cons]
    · rw [if_neg hleft, if_neg (by simpa using hleft)]
  have hafter : (∀ j ≠ i, t.remaining j = s.remaining j) → circle n (i + 1) p t =
      rest ++ if 0 < t.remaining i then [⟨(p i).arrival, t.remaining i⟩] else [] := by
    intro hsame
    rw [circle, hnext, List.filter_append, List.map_append, filter_map_congr hnot hsame, ← hrest]
    by_cases hleft : 0 < t.remaining i
    · rw [if_pos hleft, List.filter_cons, if_pos (decide_eq_true hleft)]
      rfl
    · rw [if_neg hleft, List.filter_cons, if_neg (by simpa using hleft)]
      rfl
  rw [turnOf, turnOf, hcircle]
  cases visit_cases hrun with
  | inl hnone =>
    obtain ⟨hleft, heq⟩ := hnone
    subst heq
    rw [if_neg hleft, if_neg hleft, hafter fun _ _ => rfl, if_neg hleft, List.append_nil]
  | inr hran =>
    cases hran with
    | inl hserved =>
      obtain ⟨hleft, harrived, d, hvisit, hd, hslice, hrem⟩ := hserved
      have hsame : ∀ j ≠ i, t.remaining j = s.remaining j := fun j hj => by
        rw [hrem, Function.update_of_ne hj]
      have hself : t.remaining i = s.remaining i - d := by rw [hrem, Function.update_self]
      rw [if_pos hleft, if_pos hleft, hafter hsame, hself, hvisit.time]
      by_cases hlong : QUANTUM < s.remaining i
      · rw [if_pos hlong] at hslice
        rw [scanTurn_long harrived hlong, hslice, if_pos (by omega)]
      · rw [if_neg hlong] at hslice
        rw [scanTurn_short harrived hlong, hslice, if_neg (by omega), List.append_nil]
    | inr hidle =>
      obtain ⟨⟨hleft, hlate⟩, hvisit, hrem⟩ := hidle
      rw [if_pos hleft, if_pos hleft, hafter fun j _ => by rw [hrem], hrem, if_pos hleft, hvisit.time, scanTurn,
        if_neg (Int.not_le.mpr hlate)]

end CseOs.SchedTester
