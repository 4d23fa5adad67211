import CseOs.Framework.Timeline
import CseOs.Scheduler.RoundRobin
import Mathlib.Algebra.Order.Ring.Int

/-!
# The Gantt chart of `srtf`

The chart receives an entry when another process takes over, with the end of its first unit of time. It
is the list of the runs only where every run is one unit long and the processor is never idle.
-/

namespace CseOs.Scheduler

open Framework Finset

variable {n i j : Nat} {p₀ : Nat → Process} {s t : SrtfSt}

/-- The loop of `srtf` comes to its test in the state `s` and goes on. -/
def SrtfRunning (n : Nat) (p : Nat → Process) (s : SrtfSt) : Prop :=
  Heads (fun s => decide (s.completed < (n : Int))) (srtfTurn n) (srtfStart p) s ∧ s.completed < n

/-- The branch that appends to the chart is taken in every turn. -/
def Alternates (n : Nat) (p : Nat → Process) : Prop :=
  ∀ s, SrtfRunning n p s → ∃ i, srtfShortest n s = some i ∧ (s.p i).pid ≠ s.lastPid

/-- `srtf` returns a chart of the maximal runs, from which the processor time and the end of each
process can be read. -/
def ChartExact (n : Nat) (p : Nat → Process) : Prop :=
  ∃ t, SrtfReturns n p t ∧ t.chart = runs 0 t.units ∧ ∀ i < n,
    shareOf (p i).pid 0 t.chart = (p i).burst ∧ endOf (p i).pid t.chart = some (t.p i).completion

structure Workload (n : Nat) (p : Nat → Process) : Prop where
  unstarted : ∀ i < n, Unstarted (p i)
  distinct : ∀ i < n, ∀ j < n, (p i).pid = (p j).pid → i = j

private theorem srtfShortest_some (h : srtfShortest n s = some i) :
    i < n ∧ (s.p i).arrival ≤ s.time ∧ 0 < (s.p i).remaining := by
  obtain ⟨hi, hok, _⟩ := leastIndex_some h
  have hok := of_decide_eq_true hok
  exact ⟨hi, hok⟩

theorem srtfTurn_cases (hrun : srtfTurn n s = some t) :
    (srtfShortest n s = none ∧ t = { s with time := s.time + 1, units := s.units ++ [none] }) ∨
    (∃ i q, srtfShortest n s = some i ∧ q = (((s.p i).start s.time).run 1).finish (s.time + 1) ∧
      t.p = Function.update s.p i q ∧ t.time = s.time + 1 ∧ t.lastPid = (s.p i).pid ∧
      t.completed = (if (s.p i).remaining - 1 = 0 then s.completed + 1 else s.completed) ∧
      t.units = s.units ++ [some (s.p i).pid] ∧
      (((s.p i).pid = s.lastPid ∧ t.chart = s.chart) ∨
        ((s.p i).pid ≠ s.lastPid ∧ s.chart.length < 200 ∧
          t.chart = s.chart ++ [((s.p i).pid, s.time + 1)]))) := by
  rw [srtfTurn] at hrun
  cases hpick : srtfShortest n s with
  | none =>
    rw [hpick] at hrun
    obtain ⟨time, hadvance, heq⟩ := Option.map_eq_some_iff.mp hrun
    rw [← heq, (advance_eq_some.mp hadvance).2]
    exact .inl ⟨rfl, rfl⟩
  | some i =>
    rw [hpick] at hrun
    obtain ⟨time, hadvance, hentry⟩ := Option.bind_eq_some_iff.mp hrun
    rw [(advance_eq_some.mp hadvance).2] at hentry
    obtain ⟨chart, hchart, heq⟩ := Option.map_eq_some_iff.mp hentry
    right
    refine ⟨i, _, rfl, rfl, ?_⟩
    simp only [Process.run_pid, Process.start_pid, Process.run_remaining,
      Process.start_remaining] at hchart heq
    rw [← heq]
    refine ⟨rfl, rfl, rfl, rfl, rfl, ?_⟩
    split at hchart
    · next hnew =>
      rw [addEntry] at hchart
      split at hchart
      · next hroom =>
        cases hchart
        exact .inr ⟨hnew, hroom, rfl⟩
      · cases hchart
    · next hold =>
      cases hchart
      exact .inl ⟨by simpa using hold, rfl⟩

/-- How far the ends in the chart are behind the ends of the runs. -/
def lag (s : SrtfSt) : Int := endSum (runs 0 s.units) - endSum s.chart

theorem lag_turn (htimed : s.time = s.units.length)
    (hlast : ∀ pid, s.units.getLast? = some (some pid) → pid = s.lastPid)
    (hrun : srtfTurn n s = some t) : lag s ≤ lag t ∧
      ∀ i, srtfShortest n s = some i → (s.p i).pid = s.lastPid → lag s < lag t := by
  cases srtfTurn_cases hrun with
  | inl hidle =>
    constructor
    · rw [hidle.2, lag, lag, runs_concat_none]
    · intro i hpick
      rw [hidle.1] at hpick
      cases hpick
  | inr hran =>
    obtain ⟨i, q, hpick, _, _, _, _, _, hunits, hchart⟩ := hran
    rw [lag, lag, hunits]
    by_cases hagain : s.units.getLast? = some (some (s.p i).pid)
    · have hmore : endSum (runs 0 (s.units ++ [some (s.p i).pid])) =
          endSum (runs 0 s.units) + 1 := endSum_runs_again hagain
      cases hchart with
      | inl hold =>
        rw [hold.2]
        exact ⟨by omega, fun _ _ _ => by omega⟩
      | inr hnew => exact absurd (hlast _ hagain) hnew.1
    · rw [runs_concat_new hagain, endSum_concat]
      cases hchart with
      | inl hold =>
        rw [hold.2]
        exact ⟨by omega, fun _ _ _ => by omega⟩
      | inr hnew =>
        rw [hnew.2.2, endSum_concat]
        refine ⟨by omega, fun j hj hsame => ?_⟩
        rw [hpick] at hj
        cases hj
        exact absurd hsame hnew.1

structure SrtfInv (n : Nat) (p₀ : Nat → Process) (s : SrtfSt) : Prop where
  pid : ∀ i < n, (s.p i).pid = (p₀ i).pid
  nonneg : ∀ i < n, 0 ≤ (s.p i).remaining
  le : ∀ i < n, (s.p i).remaining ≤ (p₀ i).burst
  completed : s.completed = ∑ i ∈ range n, if (s.p i).remaining = 0 then 1 else 0
  time : s.time = s.units.length
  last : ∀ pid, s.units.getLast? = some (some pid) → pid = s.lastPid
  behind : 0 ≤ lag s

private theorem srtfInv_start (h : Workload n p₀) : SrtfInv n p₀ (srtfStart p₀) := by
  have hrem : ∀ i < n, (p₀ i).remaining = (p₀ i).burst ∧ 1 ≤ (p₀ i).burst :=
    fun i hi => ⟨(h.unstarted i hi).remaining, (h.unstarted i hi).burst⟩
  constructor
  · exact fun i _ => rfl
  · intro i hi
    show 0 ≤ (p₀ i).remaining
    have := hrem i hi
    omega
  · intro i hi
    exact Int.le_of_eq (hrem i hi).1
  · apply Eq.symm
    apply sum_eq_zero
    intro i hi
    have := hrem i (mem_range.mp hi)
    apply if_neg
    show (p₀ i).remaining ≠ 0
    omega
  · rfl
  · intro pid hlast
    cases hlast
  · exact Int.le_refl 0

theorem SrtfInv.all_done (h : SrtfInv n p₀ s) (hfull : (n : Int) ≤ s.completed) :
    ∀ i < n, (s.p i).remaining = 0 := by
  rw [h.completed] at hfull
  exact all_of_count hfull

private theorem SrtfInv.turn (h : SrtfInv n p₀ s) (hrun : srtfTurn n s = some t) : SrtfInv n p₀ t := by
  cases srtfTurn_cases hrun with
  | inl hidle =>
    rw [hidle.2]
    refine ⟨h.pid, h.nonneg, h.le, h.completed, ?_, ?_, ?_⟩
    · simp [h.time]
    · intro pid hlast
      rw [List.getLast?_concat] at hlast
      cases hlast
    · rw [← hidle.2]
      exact Int.le_trans h.behind (lag_turn h.time h.last hrun).1
  | inr hran =>
    obtain ⟨i, q, hpick, hq, hp, htime, hlast, hcompleted, hunits, hchart⟩ := hran
    obtain ⟨hi, _, hpos⟩ := srtfShortest_some hpick
    have hqrem : q.remaining = (s.p i).remaining - 1 := by simp [hq]
    have hqpid : q.pid = (s.p i).pid := by simp [hq]
    have hcell : ∀ j < n, (t.p j).pid = (s.p j).pid ∧ 0 ≤ (t.p j).remaining ∧
        (t.p j).remaining ≤ (s.p j).remaining := by
      intro j hj
      rw [hp]
      by_cases hji : j = i
      · rw [hji, Function.update_self]
        exact ⟨hqpid, by omega, by omega⟩
      · rw [Function.update_of_ne hji]
        exact ⟨rfl, h.nonneg j hj, Int.le_refl _⟩
    refine ⟨fun j hj => (hcell j hj).1.trans (h.pid j hj), fun j hj => (hcell j hj).2.1,
      fun j hj => Int.le_trans (hcell j hj).2.2 (h.le j hj), ?_, ?_, ?_, ?_⟩
    · have hsum := sum_update (fun _ (p : Process) => if p.remaining = 0 then (1 : Int) else 0) s.p q hi
      rw [← hp] at hsum
      have hold : (s.p i).remaining ≠ 0 := by omega
      rw [hsum, hcompleted, hqrem, if_neg hold, h.completed]
      split <;> omega
    · rw [htime, hunits, h.time, List.length_append, List.length_singleton]
      omega
    · intro pid hpid
      rw [hunits, List.getLast?_concat] at hpid
      cases hpid
      exact hlast.symm
    · exact Int.le_trans h.behind (lag_turn h.time h.last hrun).1

/-- The time that the process `i` has had. -/
def ran (p₀ : Nat → Process) (s : SrtfSt) (i : Nat) : Int := (p₀ i).burst - (s.p i).remaining

/-- Each unit so far was a run of its own and has an entry. -/
structure Charted (n : Nat) (p₀ : Nat → Process) (s : SrtfSt) : Prop where
  chart : s.chart = runs 0 s.units
  full : s.chart.length = s.time
  room : s.chart.length ≤ 200
  lastEnd : lastEnd 0 s.chart = s.time
  time : s.time = ∑ i ∈ range n, ran p₀ s i
  share : ∀ i < n, shareOf (p₀ i).pid 0 s.chart = ran p₀ s i
  ended : ∀ i < n, (s.p i).remaining = 0 → endOf (p₀ i).pid s.chart = some (s.p i).completion

private theorem charted_start (h : Workload n p₀) : Charted n p₀ (srtfStart p₀) := by
  have hran : ∀ i < n, ran p₀ (srtfStart p₀) i = 0 := by
    intro i hi
    show (p₀ i).burst - (p₀ i).remaining = 0
    have := (h.unstarted i hi).remaining
    omega
  constructor
  · rfl
  · rfl
  · exact Nat.zero_le 200
  · rfl
  · apply Eq.symm
    apply sum_eq_zero
    intro i hi
    exact hran i (mem_range.mp hi)
  · intro i hi
    rw [hran i hi]
    rfl
  · intro i hi hend
    have hrem : (p₀ i).remaining = 0 := hend
    have hu := h.unstarted i hi
    have := hu.remaining
    have := hu.burst
    omega

theorem share_turn (hw : Workload n p₀) (h : SrtfInv n p₀ s) (hi : i < n)
    (hchart : t.chart = s.chart ++ [((s.p i).pid, s.time + 1)]) (hj : j < n) :
    shareOf (p₀ j).pid 0 t.chart = shareOf (p₀ j).pid 0 s.chart +
      if j = i then s.time + 1 - lastEnd 0 s.chart else 0 := by
  rw [hchart, shareOf_concat, h.pid i hi]
  by_cases hji : j = i
  · rw [hji, if_pos rfl, if_pos rfl]
  · have hne : (p₀ i).pid ≠ (p₀ j).pid := fun heq => hji (hw.distinct i hi j hj heq).symm
    rw [if_neg hji, if_neg hne]

private theorem ran_turn {q : Process} (hp : t.p = Function.update s.p i q)
    (hq : q.remaining = (s.p i).remaining - 1) :
    ran p₀ t j = ran p₀ s j + if j = i then 1 else 0 := by
  rw [ran, ran, hp]
  by_cases hji : j = i
  · rw [hji, Function.update_self, if_pos rfl, hq]
    omega
  · rw [Function.update_of_ne hji, if_neg hji, Int.add_zero]

private theorem Charted.turn (hw : Workload n p₀) (hinv : SrtfInv n p₀ s) (h : Charted n p₀ s)
    (hpick : srtfShortest n s = some i) (hnew : (s.p i).pid ≠ s.lastPid)
    (hrun : srtfTurn n s = some t) : Charted n p₀ t := by
  cases srtfTurn_cases hrun with
  | inl hidle =>
    rw [hidle.1] at hpick
    cases hpick
  | inr hran =>
    obtain ⟨k, q, hk, hq, hp, htime, _, _, hunits, hcases⟩ := hran
    rw [hk] at hpick
    cases hpick
    obtain ⟨_, hroom, hchart⟩ := hcases.resolve_left fun hold => hnew hold.1
    obtain ⟨hi, _, hpos⟩ := srtfShortest_some hk
    have hqrem : q.remaining = (s.p i).remaining - 1 := by simp [hq]
    have hran : ∀ j, ran p₀ t j = ran p₀ s j + if j = i then 1 else 0 :=
      fun j => ran_turn hp hqrem
    have hfull := h.full
    refine ⟨?_, ?_, ?_, ?_, ?_, ?_, ?_⟩
    · have hother : s.units.getLast? ≠ some (some (s.p i).pid) :=
        fun heq => hnew (hinv.last _ heq)
      rw [hchart, hunits, runs_concat_new hother, ← h.chart, hinv.time, Int.zero_add]
    · rw [hchart, htime, List.length_append, List.length_singleton]
      omega
    · rw [hchart, List.length_append, List.length_singleton]
      omega
    · rw [hchart, lastEnd_concat, htime]
    · simp only [hran]
      rw [sum_add_distrib, ← h.time, htime, sum_ite_eq' (range n) i, if_pos (mem_range.mpr hi)]
    · intro j hj
      rw [share_turn hw hinv hi hchart hj, h.share j hj, hran, h.lastEnd]
      split <;> omega
    · intro j hj hend
      rw [hchart, endOf_concat, hinv.pid i hi]
      rw [hp] at hend ⊢
      by_cases hji : j = i
      · rw [hji, Function.update_self] at hend ⊢
        have hzero : (((s.p i).start s.time).run 1).remaining = 0 := by
          simpa [hqrem] using hend
        rw [if_pos rfl, hq, Process.finish, if_pos hzero]
      · rw [Function.update_of_ne hji] at hend ⊢
        have hne : (p₀ i).pid ≠ (p₀ j).pid := fun heq => hji (hw.distinct i hi j hj heq).symm
        rw [if_neg hne]
        exact h.ended j hj hend

/-- The chart gives too much time to a process, or will give the idle time to the next one. -/
structure Padded (n : Nat) (p₀ : Nat → Process) (s : SrtfSt) : Prop where
  share : ∀ i < n, ran p₀ s i ≤ shareOf (p₀ i).pid 0 s.chart
  lastEnd : lastEnd 0 s.chart ≤ s.time
  late : (∃ i < n, ran p₀ s i < shareOf (p₀ i).pid 0 s.chart) ∨
    (Framework.lastEnd 0 s.chart < s.time ∧ s.completed < n)

private theorem Padded.turn (hw : Workload n p₀) (hinv : SrtfInv n p₀ s) (h : Padded n p₀ s)
    (hrun : srtfTurn n s = some t) : lag s < lag t ∨ Padded n p₀ t := by
  cases srtfTurn_cases hrun with
  | inl hidle =>
    right
    rw [hidle.2]
    have hle := h.lastEnd
    refine ⟨h.share, ?_, ?_⟩
    · show Framework.lastEnd 0 s.chart ≤ s.time + 1
      omega
    · cases h.late with
      | inl hover => exact .inl hover
      | inr hgap =>
        right
        exact ⟨Int.lt_trans hgap.1 (Int.lt_succ s.time), hgap.2⟩
  | inr hran =>
    obtain ⟨i, q, hpick, hq, hp, htime, _, _, _, hcases⟩ := hran
    obtain ⟨hi, _, _⟩ := srtfShortest_some hpick
    have hqrem : q.remaining = (s.p i).remaining - 1 := by simp [hq]
    cases hcases with
    | inl hold => exact .inl ((lag_turn hinv.time hinv.last hrun).2 i hpick hold.1)
    | inr hnew =>
      right
      have hchart := hnew.2.2
      have hle := h.lastEnd
      refine ⟨fun j hj => ?_, ?_, .inl ?_⟩
      · have := h.share j hj
        rw [share_turn hw hinv hi hchart hj, ran_turn hp hqrem]
        split <;> omega
      · rw [hchart, lastEnd_concat, htime]
      · cases h.late with
        | inl hover =>
          obtain ⟨j, hj, hlt⟩ := hover
          refine ⟨j, hj, ?_⟩
          rw [share_turn hw hinv hi hchart hj, ran_turn hp hqrem]
          split <;> omega
        | inr hgap =>
          refine ⟨i, hi, ?_⟩
          have := h.share i hi
          rw [share_turn hw hinv hi hchart hi, ran_turn hp hqrem, if_pos rfl, if_pos rfl]
          omega

theorem not_exact_of_padded (hw : Workload n p₀) (hinv : SrtfInv n p₀ s)
    (hbad : 0 < lag s ∨ Padded n p₀ s)
    (hreturns : Returns (fun s => decide (s.completed < (n : Int))) (srtfTurn n) s t)
    (hchart : t.chart = runs 0 t.units)
    (hshare : ∀ i < n, shareOf (p₀ i).pid 0 t.chart = (p₀ i).burst) : False := by
  obtain ⟨⟨hend, hbad⟩, hstop⟩ := hreturns.invariant
    (I := fun s => SrtfInv n p₀ s ∧ (0 < lag s ∨ Padded n p₀ s)) ⟨hinv, hbad⟩
    fun s t hs _ hrun => by
      refine ⟨hs.1.turn hrun, ?_⟩
      have hle := (lag_turn hs.1.time hs.1.last hrun).1
      have hnonneg := hs.1.behind
      cases hs.2 with
      | inl hlag => exact .inl (by omega)
      | inr hpadded =>
        cases hpadded.turn hw hs.1 hrun with
        | inl hlag => exact .inl (by omega)
        | inr hmore => exact .inr hmore
  have hfull : (n : Int) ≤ t.completed := by simpa using hstop
  cases hbad with
  | inl hlag =>
    rw [lag, hchart] at hlag
    omega
  | inr hpadded =>
    cases hpadded.late with
    | inl hover =>
      obtain ⟨i, hi, hlt⟩ := hover
      rw [hshare i hi, ran, hend.all_done hfull i hi] at hlt
      omega
    | inr hgap => exact absurd hfull (Int.not_le.mpr hgap.2)

theorem ChartExact.switches (hw : Workload n p₀) (h : ChartExact n p₀) (hrunning : SrtfRunning n p₀ s)
    (hinv : SrtfInv n p₀ s) (hcharted : Charted n p₀ s) :
    ∃ i, srtfShortest n s = some i ∧ (s.p i).pid ≠ s.lastPid := by
  obtain ⟨t, hreturns, hchart, hread⟩ := h
  obtain ⟨hheads, hgoes⟩ := hrunning
  have hrest := hreturns.of_heads hheads
  obtain ⟨u, hu⟩ : ∃ u, srtfTurn n s = some u := by
    obtain ⟨hrun, hstop⟩ := returns_iff.mp hrest
    cases hrun.cases_head with
    | inl heq =>
      rw [← heq] at hstop
      exact absurd hgoes (of_decide_eq_false hstop)
    | inr hturn =>
      obtain ⟨u, hu, _⟩ := hturn
      exact ⟨u, hu.2⟩
  have hnext := hrest.of_heads (.single ⟨decide_eq_true hgoes, hu⟩)
  by_contra hno
  apply not_exact_of_padded hw (hinv.turn hu) _ hnext hchart fun i hi => (hread i hi).1
  cases hpick : srtfShortest n s with
  | none =>
    right
    cases srtfTurn_cases hu with
    | inl hidle =>
      rw [hidle.2]
      have hlast := hcharted.lastEnd
      refine ⟨fun i hi => Int.le_of_eq (hcharted.share i hi).symm, ?_, .inr ⟨?_, hgoes⟩⟩
      · show lastEnd 0 s.chart ≤ s.time + 1
        omega
      · show lastEnd 0 s.chart < s.time + 1
        omega
    | inr hran =>
      obtain ⟨i, _, hi, _⟩ := hran
      rw [hpick] at hi
      cases hi
  | some i =>
    left
    have hsame : (s.p i).pid = s.lastPid := by
      by_contra hne
      exact hno ⟨i, hpick, hne⟩
    have hlt := (lag_turn hinv.time hinv.last hu).2 i hpick hsame
    have := hinv.behind
    omega

theorem ChartExact.charted (hw : Workload n p₀) (h : ChartExact n p₀)
    (hheads : Heads (fun s => decide (s.completed < (n : Int))) (srtfTurn n) (srtfStart p₀) s) :
    SrtfInv n p₀ s ∧ Charted n p₀ s := by
  induction hheads with
  | refl => exact ⟨srtfInv_start hw, charted_start hw⟩
  | tail hrun hturn ih =>
    obtain ⟨i, hpick, hnew⟩ := h.switches hw ⟨hrun, of_decide_eq_true hturn.1⟩ ih.1 ih.2
    exact ⟨ih.1.turn hturn.2, ih.2.turn hw ih.1 hpick hnew hturn.2⟩

private theorem ChartExact.alternates (hw : Workload n p₀) (h : ChartExact n p₀) :
    Alternates n p₀ ∧ ∑ i ∈ range n, (p₀ i).burst ≤ 200 := by
  constructor
  · intro s hrunning
    obtain ⟨hinv, hcharted⟩ := h.charted hw hrunning.1
    exact h.switches hw hrunning hinv hcharted
  · have hexact := h
    obtain ⟨t, hreturns, _⟩ := hexact
    obtain ⟨hheads, hstop⟩ := returns_iff.mp hreturns
    obtain ⟨hinv, hcharted⟩ := h.charted hw hheads
    have hfull : (n : Int) ≤ t.completed := by simpa using hstop
    have htotal : ∑ i ∈ range n, ran p₀ t i = ∑ i ∈ range n, (p₀ i).burst := by
      apply sum_congr rfl
      intro i hi
      rw [ran, hinv.all_done hfull i (mem_range.mp hi), Int.sub_zero]
    have := hcharted.full
    have := hcharted.time
    have := hcharted.room
    omega

private theorem chartExact_of_alternates (hw : Workload n p₀) (halt : Alternates n p₀)
    (hfew : ∑ i ∈ range n, (p₀ i).burst ≤ 200) : ChartExact n p₀ := by
  have hloop : ∃ t, SrtfReturns n p₀ t ∧
      (Heads (fun s => decide (s.completed < (n : Int))) (srtfTurn n) (srtfStart p₀) t ∧
        SrtfInv n p₀ t ∧ Charted n p₀ t) ∧ decide (t.completed < (n : Int)) = false := by
    apply returns_of_variant (fun s => (∑ i ∈ range n, (p₀ i).burst - s.time).toNat) _
      ⟨.refl, srtfInv_start hw, charted_start hw⟩
    intro s hs hgoes
    obtain ⟨hheads, hinv, hcharted⟩ := hs
    obtain ⟨i, hpick, hnew⟩ := halt s ⟨hheads, of_decide_eq_true hgoes⟩
    obtain ⟨hi, _, hpos⟩ := srtfShortest_some hpick
    have hleft : s.time < ∑ i ∈ range n, (p₀ i).burst := by
      rw [hcharted.time]
      apply sum_lt_sum
      · intro j hj
        have := hinv.nonneg j (mem_range.mp hj)
        rw [ran]
        omega
      · refine ⟨i, mem_range.mpr hi, ?_⟩
        rw [ran]
        omega
    have hroom : s.chart.length < 200 := by
      have := hcharted.full
      omega
    have hentry : ∀ time, addEntry s.chart (s.p i).pid time = some (s.chart ++ [((s.p i).pid, time)]) :=
      fun time => if_pos hroom
    obtain ⟨t, ht⟩ : ∃ t, srtfTurn n s = some t := by
      have hadvance : advance s.time 1 = some (s.time + 1) := by
        apply advance_eq_some.mpr ⟨_, rfl⟩
        rw [INT_MAX]
        omega
      rw [srtfTurn, hpick]
      simp only [Process.run_pid, Process.start_pid, hadvance, Option.bind_some, hentry, if_pos hnew]
      exact ⟨_, rfl⟩
    have hnext := hcharted.turn hw hinv hpick hnew ht
    refine ⟨t, ht, ⟨hheads.tail ⟨hgoes, ht⟩, hinv.turn ht, hnext⟩, ?_⟩
    have htime : t.time = s.time + 1 := by
      cases srtfTurn_cases ht with
      | inl hidle => rw [hidle.2]
      | inr hran =>
        obtain ⟨_, _, _, _, _, htime, _⟩ := hran
        exact htime
    omega
  obtain ⟨t, hreturns, ⟨_, hinv, hcharted⟩, hstop⟩ := hloop
  have hfull : (n : Int) ≤ t.completed := by simpa using hstop
  refine ⟨t, hreturns, hcharted.chart, fun i hi => ⟨?_, ?_⟩⟩
  · rw [hcharted.share i hi, ran, hinv.all_done hfull i hi, Int.sub_zero]
  · exact hcharted.ended i hi (hinv.all_done hfull i hi)

/-- The chart of `srtf` is the list of the maximal runs, each to its end, if and only if every turn
switches to another process and none is idle. -/
theorem srtf_chartExact_iff (hw : Workload n p₀) :
    ChartExact n p₀ ↔ Alternates n p₀ ∧ ∑ i ∈ range n, (p₀ i).burst ≤ 200 := by
  constructor
  · intro h
    exact h.alternates hw
  · intro h
    exact chartExact_of_alternates hw h.1 h.2

theorem srtf_chartExact_pair :
    Alternates 2 (fun i => newProcess (i + 1) 0 1) ∧ ∑ _ ∈ range 2, (1 : Int) ≤ 200 := by
  apply (srtf_chartExact_iff ?_).mp
  · have hruns : (runWhile (fun s => decide (s.completed < ((2 : Nat) : Int))) (srtfTurn 2) 3
        (srtfStart fun i => newProcess (i + 1) 0 1)).isSome := by decide
    refine ⟨_, ⟨3, (Option.some_get hruns).symm⟩, by decide +revert, ?_⟩
    decide +revert
  · constructor
    · intro i _
      exact ⟨Int.le_refl 0, Int.le_refl 1, rfl⟩
    · decide

/-- The entry of a process with two units ends after the first. -/
theorem srtf_chart_short : ¬ ChartExact 1 (fun _ => newProcess 1 0 2) := by
  intro h
  obtain ⟨t, hreturns, hchart, _⟩ := h
  have hruns : (runWhile (fun s => decide (s.completed < ((1 : Nat) : Int))) (srtfTurn 1) 3
      (srtfStart fun _ => newProcess 1 0 2)).isSome := by decide
  rw [hreturns.unique ⟨3, (Option.some_get hruns).symm⟩] at hchart
  revert hchart
  decide +revert

end CseOs.Scheduler
