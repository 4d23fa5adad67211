import CseOs.Scheduler.Processes
import Mathlib.Algebra.Order.BigOperators.Group.Finset

/-!
# The round robin of `scheduler.c`

A pass over the processes in which none runs ends the loop, and a process that has not arrived by then
is never run. The clock does not move without a process, so that the arrivals and bursts decide.
-/

namespace CseOs.Scheduler

open Framework Finset

variable {n i : Nat} {p₀ : Nat → Process} {quantum a : Int} {s t : RrSt}

/-- A process that has all its time to run, as `rr` expects it. -/
structure Unstarted (p : Process) : Prop where
  arrival : 0 ≤ p.arrival
  burst : 1 ≤ p.burst
  remaining : p.remaining = p.burst

/-- The slices that are still needed for the time `remaining`. -/
def slices (quantum remaining : Int) : Int := (remaining + quantum - 1) / quantum

/-- What the processes that arrive before `a` run in all. -/
def burstBefore (n : Nat) (p : Nat → Process) (a : Int) : Int :=
  ∑ i ∈ range n, if (p i).arrival < a then (p i).burst else 0

/-- Each process arrives before the earlier ones have run out. -/
def Gapless (n : Nat) (p : Nat → Process) : Prop :=
  ∀ j < n, (p j).arrival ≤ burstBefore n p (p j).arrival

/-- `rr` returns, and every process has run for its whole burst after it arrived. -/
def RunsAll (n : Nat) (p : Nat → Process) (quantum : Int) : Prop :=
  ∃ t, RrReturns n p quantum t ∧ ∀ i < n, (t.p i).remaining = 0 ∧
    (t.p i).turnaround = (t.p i).completion - (p i).arrival ∧ (p i).burst ≤ (t.p i).turnaround

/-- The loop body runs the process. -/
def Runnable (s : RrSt) (i : Nat) : Prop := 0 < (s.p i).remaining ∧ (s.p i).arrival ≤ s.time

private theorem slices_zero (hq : 1 ≤ quantum) : slices quantum 0 = 0 :=
  Int.ediv_eq_zero_of_lt (by omega) (by omega)

private theorem slices_nonneg (hq : 1 ≤ quantum) {r : Int} (hr : 0 ≤ r) : 0 ≤ slices quantum r :=
  Int.ediv_nonneg (by omega) (by omega)

theorem slices_run (hq : 1 ≤ quantum) {r : Int} (hr : 0 < r) :
    slices quantum (r - if r > quantum then quantum else r) = slices quantum r - 1 := by
  split
  · have hstep : r + quantum - 1 = (r - quantum + quantum - 1) + quantum := by omega
    rw [slices, slices, hstep, Int.add_ediv_of_dvd_right (Int.dvd_refl quantum),
      Int.ediv_self (by omega)]
    omega
  · have hone : (r + quantum - 1) / quantum = 1 := by
      have hstep : r + quantum - 1 = (r - 1) + quantum := by omega
      rw [hstep, Int.add_ediv_of_dvd_right (Int.dvd_refl quantum), Int.ediv_self (by omega),
        Int.ediv_eq_zero_of_lt (by omega) (by omega)]
      omega
    rw [Int.sub_self, slices_zero hq, slices, hone]
    rfl

/-- The slices that all processes still need. -/
def slicesLeft (n : Nat) (quantum : Int) (s : RrSt) : Int :=
  ∑ i ∈ range n, slices quantum (s.p i).remaining

/-- How one process stands at the time `time`. -/
structure Progress (time : Int) (p₀ p : Process) : Prop where
  arrival : p.arrival = p₀.arrival
  burst : p.burst = p₀.burst
  nonneg : 0 ≤ p.remaining
  le : p.remaining ≤ p₀.burst
  ran : p.remaining < p₀.burst → p₀.arrival + (p₀.burst - p.remaining) ≤ time
  finished : p.remaining = 0 → p.turnaround = p.completion - p₀.arrival ∧ p₀.burst ≤ p.turnaround

structure RrInv (n : Nat) (p₀ : Nat → Process) (quantum : Int) (s : RrSt) : Prop where
  progress : ∀ i < n, Progress s.time (p₀ i) (s.p i)
  time : s.time = ∑ i ∈ range n, ((p₀ i).burst - (s.p i).remaining)
  entries : s.chart.length + slicesLeft n quantum s = ∑ i ∈ range n, slices quantum (p₀ i).burst
  room : s.chart.length ≤ 200
  clock : s.time ≤ INT_MAX

private theorem Progress.later {time : Int} {p₀ p : Process} (h : Progress time p₀ p) {time' : Int}
    (hle : time ≤ time') : Progress time' p₀ p :=
  ⟨h.arrival, h.burst, h.nonneg, h.le, fun hran => Int.le_trans (h.ran hran) hle, h.finished⟩

theorem Progress.turn {time exec : Int} {p₀ p : Process} (h : Progress time p₀ p)
    (harrived : p.arrival ≤ time) (hpos : 0 < exec) (hle : exec ≤ p.remaining) :
    Progress (time + exec) p₀ (((p.start time).run exec).finish (time + exec)) := by
  have harr := h.arrival
  have hmax := h.le
  have hran := h.ran
  refine ⟨by simpa using harr, by simpa using h.burst, ?_, ?_, ?_, ?_⟩
  · simp only [Process.finish_remaining, Process.run_remaining, Process.start_remaining]
    omega
  · simp only [Process.finish_remaining, Process.run_remaining, Process.start_remaining]
    omega
  · simp only [Process.finish_remaining, Process.run_remaining, Process.start_remaining]
    intro _
    by_cases hfirst : p.remaining < p₀.burst
    · have := hran hfirst
      omega
    · omega
  · simp only [Process.finish_remaining]
    intro hend
    rw [Process.finish, if_pos hend]
    simp only [Process.run_remaining, Process.start_remaining, Process.run_arrival,
      Process.start_arrival] at hend ⊢
    by_cases hfirst : p.remaining < p₀.burst
    · have := hran hfirst
      omega
    · omega

private theorem rrInv_start (h : ∀ i < n, Unstarted (p₀ i)) : RrInv n p₀ quantum (rrStart n p₀) := by
  have hfields : ∀ i, ((rrStart n p₀).p i).arrival = (p₀ i).arrival ∧
      ((rrStart n p₀).p i).burst = (p₀ i).burst ∧
      ((rrStart n p₀).p i).remaining = (p₀ i).remaining := by
    intro i
    simp only [rrStart]
    split <;> exact ⟨rfl, rfl, rfl⟩
  constructor
  · intro i hi
    obtain ⟨harr, hburst, hrem⟩ := hfields i
    have hu := h i hi
    have hrem := hrem.trans hu.remaining
    have hone := hu.burst
    exact ⟨harr, hburst, by omega, by omega, by omega, by omega⟩
  · apply Eq.symm
    apply sum_eq_zero
    intro i hi
    rw [(hfields i).2.2, (h i (mem_range.mp hi)).remaining, Int.sub_self]
  · show ((0 : Nat) : Int) + _ = _
    rw [Int.natCast_zero, Int.zero_add]
    apply sum_congr rfl
    intro i hi
    rw [(hfields i).2.2, (h i (mem_range.mp hi)).remaining]
  · exact Nat.zero_le 200
  · show (0 : Int) ≤ INT_MAX
    decide

theorem rrTurn_cases (hrun : rrTurn quantum s i = some t) :
    (t = s ∧ ¬ Runnable s i) ∨
    (Runnable s i ∧ s.chart.length < 200 ∧ t.done = false ∧ t.chart.length = s.chart.length + 1 ∧
      ∃ exec, exec = (if (s.p i).remaining > quantum then quantum else (s.p i).remaining) ∧
        t.time = s.time + exec ∧ t.time ≤ INT_MAX ∧
        t.p = Function.update s.p i ((((s.p i).start s.time).run exec).finish (s.time + exec))) := by
  rw [rrTurn] at hrun
  split at hrun
  · next hrunnable =>
    right
    simp only [Process.start_remaining, addEntry] at hrun
    obtain ⟨time, hadvance, hentry⟩ := Option.bind_eq_some_iff.mp hrun
    obtain ⟨hclock, htime⟩ := advance_eq_some.mp hadvance
    obtain ⟨chart, hchart, heq⟩ := Option.map_eq_some_iff.mp hentry
    split at hchart
    · next hroom =>
      cases hchart
      rw [← heq, htime]
      exact ⟨hrunnable, hroom, rfl, by simp, _, rfl, rfl, hclock, rfl⟩
    · cases hchart
  · next hno =>
    cases hrun
    exact .inl ⟨rfl, hno⟩

private theorem RrInv.turn (h : RrInv n p₀ quantum s) (hq : 1 ≤ quantum) (hi : i < n)
    (hrun : rrTurn quantum s i = some t) : RrInv n p₀ quantum t ∧
      ((t = s ∧ ¬ Runnable s i) ∨
        (t.done = false ∧ slicesLeft n quantum t = slicesLeft n quantum s - 1)) := by
  cases rrTurn_cases hrun with
  | inl hsame =>
    rw [hsame.1]
    exact ⟨h, .inl ⟨rfl, hsame.2⟩⟩
  | inr hran =>
    obtain ⟨hrunnable, hroom, hdone, hlen, exec, hexec, htime, hclock, hp⟩ := hran
    have hpos : 0 < exec := by
      rw [hexec]
      have := hrunnable.1
      split <;> omega
    have hle : exec ≤ (s.p i).remaining := by
      rw [hexec]
      split <;> omega
    have hleft : slicesLeft n quantum t = slicesLeft n quantum s - 1 := by
      have hsum := sum_update (fun _ (p : Process) => slices quantum p.remaining) s.p
        ((((s.p i).start s.time).run exec).finish (s.time + exec)) hi
      rw [← hp] at hsum
      have hone := slices_run hq hrunnable.1
      rw [← hexec] at hone
      simp only [Process.finish_remaining, Process.run_remaining, Process.start_remaining,
        hone] at hsum
      rw [slicesLeft, hsum, slicesLeft]
      omega
    refine ⟨⟨?_, ?_, ?_, ?_, hclock⟩, .inr ⟨hdone, hleft⟩⟩
    · intro j hj
      rw [htime, hp]
      by_cases hji : j = i
      · rw [hji, Function.update_self]
        exact (h.progress i hi).turn hrunnable.2 hpos hle
      · rw [Function.update_of_ne hji]
        exact (h.progress j hj).later (by omega)
    · have hsum := sum_update (fun j (p : Process) => (p₀ j).burst - p.remaining) s.p
        ((((s.p i).start s.time).run exec).finish (s.time + exec)) hi
      rw [← hp] at hsum
      simp only [Process.finish_remaining, Process.run_remaining, Process.start_remaining] at hsum
      rw [hsum, htime, ← h.time]
      omega
    · rw [hleft, hlen, ← h.entries]
      omega
    · omega

theorem rrTurn_total (hclock : Runnable s i →
      s.time + (if (s.p i).remaining > quantum then quantum else (s.p i).remaining) ≤ INT_MAX)
    (hroom : Runnable s i → s.chart.length < 200) : ∃ t, rrTurn quantum s i = some t := by
  rw [rrTurn]
  split
  · next hrunnable =>
    have hadvance := advance_eq_some.mpr ⟨hclock hrunnable, rfl⟩
    have hentry : ∀ pid time, addEntry s.chart pid time = some (s.chart ++ [(pid, time)]) :=
      fun pid time => if_pos (hroom hrunnable)
    simp only [Process.start_remaining, hadvance, Option.bind_some, hentry]
    exact ⟨_, rfl⟩
  · exact ⟨s, rfl⟩

theorem RrInv.has_room (h : RrInv n p₀ quantum s) (hq : 1 ≤ quantum) (hi : i < n)
    (hfew : ∑ i ∈ range n, slices quantum (p₀ i).burst ≤ 200) (hrunnable : Runnable s i) :
    s.chart.length < 200 := by
  have hnonneg : ∀ j ∈ range n, 0 ≤ slices quantum (s.p j).remaining :=
    fun j hj => slices_nonneg hq (h.progress j (mem_range.mp hj)).nonneg
  have hle : slices quantum (s.p i).remaining ≤ slicesLeft n quantum s :=
    single_le_sum hnonneg (mem_range.mpr hi)
  have hone := slices_run hq hrunnable.1
  have hrest : 0 ≤ slices quantum ((s.p i).remaining -
      if (s.p i).remaining > quantum then quantum else (s.p i).remaining) := by
    apply slices_nonneg hq
    split <;> omega
  have := h.entries
  omega

private theorem RrInv.clock_runs (h : RrInv n p₀ quantum s) (hi : i < n)
    (hshort : ∑ i ∈ range n, (p₀ i).burst ≤ INT_MAX) :
    s.time + (if (s.p i).remaining > quantum then quantum else (s.p i).remaining) ≤ INT_MAX := by
  have hle : (s.p i).remaining ≤ ∑ j ∈ range n, (s.p j).remaining :=
    single_le_sum (fun j hj => (h.progress j (mem_range.mp hj)).nonneg) (mem_range.mpr hi)
  have htime := h.time
  rw [sum_sub_distrib] at htime
  split <;> omega

private theorem RrInv.turns {l : List Nat} (h : RrInv n p₀ quantum s) (hq : 1 ≤ quantum)
    (hl : ∀ i ∈ l, i < n) (hrun : l.foldlM (rrTurn quantum) s = some t) : RrInv n p₀ quantum t ∧
      ((t = s ∧ ∀ i ∈ l, ¬ Runnable s i) ∨
        (t.done = false ∧ slicesLeft n quantum t < slicesLeft n quantum s)) := by
  induction l generalizing s with
  | nil =>
    cases hrun
    exact ⟨h, .inl ⟨rfl, nofun⟩⟩
  | cons i l ih =>
    rw [List.foldlM_cons] at hrun
    obtain ⟨u, hu, hrest⟩ := Option.bind_eq_some_iff.mp hrun
    obtain ⟨hinv, hturn⟩ := h.turn hq (hl i List.mem_cons_self) hu
    obtain ⟨hend, hturns⟩ := ih hinv (fun j hj => hl j (List.mem_cons_of_mem _ hj)) hrest
    refine ⟨hend, ?_⟩
    cases hturn with
    | inl hsame =>
      rw [hsame.1] at hturns
      cases hturns with
      | inl hidle =>
        refine .inl ⟨hidle.1, fun j hj => ?_⟩
        cases List.mem_cons.mp hj with
        | inl hji =>
          rw [hji]
          exact hsame.2
        | inr hin => exact hidle.2 j hin
      | inr hran => exact .inr hran
    | inr hran =>
      right
      cases hturns with
      | inl hidle =>
        rw [hidle.1]
        exact ⟨hran.1, by omega⟩
      | inr hmore => exact ⟨hmore.1, by omega⟩

private theorem RrInv.turns_total {l : List Nat} (h : RrInv n p₀ quantum s) (hq : 1 ≤ quantum)
    (hl : ∀ i ∈ l, i < n) (hfew : ∑ i ∈ range n, slices quantum (p₀ i).burst ≤ 200)
    (hshort : ∑ i ∈ range n, (p₀ i).burst ≤ INT_MAX) : ∃ t, l.foldlM (rrTurn quantum) s = some t := by
  induction l generalizing s with
  | nil => exact ⟨s, rfl⟩
  | cons i l ih =>
    have hi := hl i List.mem_cons_self
    obtain ⟨u, hu⟩ := rrTurn_total (fun _ => h.clock_runs hi hshort) fun hrunnable =>
      h.has_room hq hi hfew hrunnable
    obtain ⟨t, ht⟩ := ih (h.turn hq hi hu).1 fun j hj => hl j (List.mem_cons_of_mem _ hj)
    refine ⟨t, ?_⟩
    rw [List.foldlM_cons, hu]
    exact ht

/-- The invariant of the loop: a pass in which nothing ran found nothing to run. -/
def PassInv (n : Nat) (p₀ : Nat → Process) (quantum : Int) (s : RrSt) : Prop :=
  RrInv n p₀ quantum s ∧ (s.done = true → ∀ i < n, ¬ Runnable s i)

private theorem RrInv.clear (h : RrInv n p₀ quantum s) : RrInv n p₀ quantum { s with done := true } :=
  ⟨h.progress, h.time, h.entries, h.room, h.clock⟩

private theorem PassInv.pass (h : PassInv n p₀ quantum s) (hq : 1 ≤ quantum)
    (hrun : rrPass n quantum s = some t) : PassInv n p₀ quantum t ∧
      (t.done = true ∨ slicesLeft n quantum t < slicesLeft n quantum s) := by
  obtain ⟨hinv, hcases⟩ := h.1.clear.turns hq (fun i hi => List.mem_range.mp hi) hrun
  cases hcases with
  | inl hidle =>
    rw [hidle.1]
    exact ⟨⟨h.1.clear, fun _ i hi => hidle.2 i (List.mem_range.mpr hi)⟩, .inl rfl⟩
  | inr hran =>
    refine ⟨⟨hinv, fun hdone => ?_⟩, .inr hran.2⟩
    rw [hran.1] at hdone
    cases hdone

private theorem passInv_start (h : ∀ i < n, Unstarted (p₀ i)) : PassInv n p₀ quantum (rrStart n p₀) :=
  ⟨rrInv_start h, nofun⟩

theorem PassInv.all_done (h : PassInv n p₀ quantum s) (hdone : s.done = true) (hgap : Gapless n p₀) :
    ∀ i < n, (s.p i).remaining = 0 := by
  by_contra hno
  push Not at hno
  obtain ⟨i, hi, hrem⟩ := hno
  obtain ⟨j, hj, hmin⟩ := exists_min_image ((range n).filter fun i => (s.p i).remaining ≠ 0)
    (fun i => (p₀ i).arrival) ⟨i, mem_filter.mpr ⟨mem_range.mpr hi, hrem⟩⟩
  obtain ⟨hjn, hjrem⟩ := mem_filter.mp hj
  have hjn := mem_range.mp hjn
  have hprog := h.1.progress j hjn
  have hle : burstBefore n p₀ (p₀ j).arrival ≤ s.time := by
    rw [h.1.time]
    apply sum_le_sum
    intro k hk
    have hpk := h.1.progress k (mem_range.mp hk)
    have hmax := hpk.le
    have hpos := hpk.nonneg
    split
    · next hearlier =>
      by_cases hkrem : (s.p k).remaining = 0
      · omega
      · have := hmin k (mem_filter.mpr ⟨hk, hkrem⟩)
        omega
    · omega
  have hpos := hprog.nonneg
  have harr := hprog.arrival
  have hlow := hgap j hjn
  exact h.2 hdone j hjn ⟨by omega, by omega⟩

/-- Behind a gap nothing has run. -/
def Untouched (n : Nat) (p₀ : Nat → Process) (a : Int) (s : RrSt) : Prop :=
  ∀ i < n, a ≤ (p₀ i).arrival → (s.p i).remaining = (p₀ i).burst

private theorem Untouched.time_le (hinv : RrInv n p₀ quantum s) (h : Untouched n p₀ a s) :
    s.time ≤ burstBefore n p₀ a := by
  rw [hinv.time]
  apply sum_le_sum
  intro i hi
  have hi := mem_range.mp hi
  split
  · have := (hinv.progress i hi).nonneg
    omega
  · next hlate =>
    rw [h i hi (by omega)]
    omega

private theorem Untouched.turn (hinv : RrInv n p₀ quantum s) (h : Untouched n p₀ a s)
    (hgap : burstBefore n p₀ a < a) (hi : i < n) (hrun : rrTurn quantum s i = some t) :
    Untouched n p₀ a t := by
  cases rrTurn_cases hrun with
  | inl hsame =>
    rw [hsame.1]
    exact h
  | inr hran =>
    obtain ⟨hrunnable, _, _, _, exec, _, _, _, hp⟩ := hran
    intro j hj hlate
    rw [hp]
    by_cases hji : j = i
    · have htime := h.time_le hinv
      have harr := (hinv.progress i hi).arrival
      have := hrunnable.2
      rw [hji] at hlate
      omega
    · rw [Function.update_of_ne hji]
      exact h j hj hlate

private theorem Untouched.turns {l : List Nat} (hinv : RrInv n p₀ quantum s) (hq : 1 ≤ quantum)
    (h : Untouched n p₀ a s) (hgap : burstBefore n p₀ a < a) (hl : ∀ i ∈ l, i < n)
    (hrun : l.foldlM (rrTurn quantum) s = some t) : Untouched n p₀ a t := by
  induction l generalizing s with
  | nil =>
    cases hrun
    exact h
  | cons i l ih =>
    rw [List.foldlM_cons] at hrun
    obtain ⟨u, hu, hrest⟩ := Option.bind_eq_some_iff.mp hrun
    have hi := hl i List.mem_cons_self
    exact ih (hinv.turn hq hi hu).1 (h.turn hinv hgap hi hu)
      (fun j hj => hl j (List.mem_cons_of_mem _ hj)) hrest

private theorem RunsAll.gapless (h : ∀ i < n, Unstarted (p₀ i)) (hq : 1 ≤ quantum)
    (hall : RunsAll n p₀ quantum) : Gapless n p₀ := by
  by_contra hno
  rw [Gapless] at hno
  push Not at hno
  obtain ⟨j, hj, hgap⟩ := hno
  obtain ⟨t, hreturns, hend⟩ := hall
  have hstart : ∀ i < n, ((rrStart n p₀).p i).remaining = (p₀ i).burst := by
    intro i hi
    rw [← (h i hi).remaining]
    simp only [rrStart, if_pos hi]
  have hinv := (hreturns.invariant
    (I := fun s => PassInv n p₀ quantum s ∧ Untouched n p₀ (p₀ j).arrival s)
    ⟨passInv_start h, fun i hi _ => hstart i hi⟩
    fun s t hs _ hrun => ⟨(hs.1.pass hq hrun).1, Untouched.turns hs.1.1.clear hq hs.2 hgap
      (fun i hi => List.mem_range.mp hi) hrun⟩).1
  have huntouched := hinv.2 j hj (Int.le_refl _)
  have hburst := (h j hj).burst
  rw [(hend j hj).1] at huntouched
  omega

private theorem RunsAll.fits (h : ∀ i < n, Unstarted (p₀ i)) (hq : 1 ≤ quantum)
    (hall : RunsAll n p₀ quantum) : ∑ i ∈ range n, slices quantum (p₀ i).burst ≤ 200 ∧
      ∑ i ∈ range n, (p₀ i).burst ≤ INT_MAX := by
  obtain ⟨t, hreturns, hend⟩ := hall
  have hinv := (hreturns.invariant (I := PassInv n p₀ quantum) (passInv_start h)
    fun s t hs _ hrun => (hs.pass hq hrun).1).1.1
  have hnone : slicesLeft n quantum t = 0 := by
    apply sum_eq_zero
    intro i hi
    rw [(hend i (mem_range.mp hi)).1, slices_zero hq]
  constructor
  · have hentries := hinv.entries
    have hroom := hinv.room
    omega
  · have hle : ∑ i ∈ range n, (p₀ i).burst = t.time := by
      rw [hinv.time]
      apply sum_congr rfl
      intro i hi
      rw [(hend i (mem_range.mp hi)).1, Int.sub_zero]
    rw [hle]
    exact hinv.clock

theorem runsAll_of_gapless (h : ∀ i < n, Unstarted (p₀ i)) (hq : 1 ≤ quantum) (hgap : Gapless n p₀)
    (hfew : ∑ i ∈ range n, slices quantum (p₀ i).burst ≤ 200)
    (hshort : ∑ i ∈ range n, (p₀ i).burst ≤ INT_MAX) : RunsAll n p₀ quantum := by
  have hloop : ∃ t, RrReturns n p₀ quantum t ∧ PassInv n p₀ quantum t ∧ (!t.done) = false := by
    apply returns_of_variant (fun s => if s.done then 0 else (slicesLeft n quantum s).toNat + 1) _
      (passInv_start h)
    intro s hs hc
    obtain ⟨t, ht⟩ := hs.1.clear.turns_total hq (fun i hi => List.mem_range.mp hi) hfew hshort
    obtain ⟨hpass, hless⟩ := hs.pass hq ht
    have hnonneg : 0 ≤ slicesLeft n quantum t := sum_nonneg fun i hi =>
      slices_nonneg hq (hpass.1.progress i (mem_range.mp hi)).nonneg
    have hrunning : s.done = false := by simpa using hc
    refine ⟨t, ht, hpass, ?_⟩
    rw [hrunning]
    cases hdone : t.done with
    | true => simp
    | false =>
      rw [hdone] at hless
      have hless := hless.resolve_left Bool.false_ne_true
      show (slicesLeft n quantum t).toNat + 1 < (slicesLeft n quantum s).toNat + 1
      omega
  obtain ⟨t, hreturns, hinv, hstop⟩ := hloop
  have hdone : t.done = true := by simpa using hstop
  have hzero := hinv.all_done hdone hgap
  exact ⟨t, hreturns, fun i hi => ⟨hzero i hi, (hinv.1.progress i hi).finished (hzero i hi)⟩⟩

/-- `rr` runs every process to its end if and only if no gap separates a process from the earlier ones,
and the chart and the clock have room for all slices. -/
theorem rr_runsAll_iff (h : ∀ i < n, Unstarted (p₀ i)) (hq : 1 ≤ quantum) :
    RunsAll n p₀ quantum ↔
      Gapless n p₀ ∧ ∑ i ∈ range n, slices quantum (p₀ i).burst ≤ 200 ∧
        ∑ i ∈ range n, (p₀ i).burst ≤ INT_MAX := by
  constructor
  · intro hall
    exact ⟨hall.gapless h hq, hall.fits h hq⟩
  · intro hcond
    exact runsAll_of_gapless h hq hcond.1 hcond.2.1 hcond.2.2

theorem rr_runsAll_pair :
    RunsAll 2 (fun i => if i = 0 then newProcess 1 0 5 else newProcess 2 3 4) 2 := by
  apply (rr_runsAll_iff ?_ (by decide)).mpr
  · rw [Gapless]
    decide
  · intro i _
    split <;> exact ⟨by decide, by decide, rfl⟩

/-- A process that arrives at 5 is not run when the only other one ends at 3. -/
theorem rr_leaves_late : ¬ RunsAll 2
    (fun i => if i = 0 then newProcess 1 0 3 else newProcess 2 5 4) 2 := by
  intro hall
  have hgap := hall.gapless (fun i _ => by split <;> exact ⟨by decide, by decide, rfl⟩) (by decide)
    1 (by decide)
  revert hgap
  decide

end CseOs.Scheduler
