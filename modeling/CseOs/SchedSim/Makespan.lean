import CseOs.SchedSim.Slices
import Mathlib.Data.List.Induction

/-!
# The makespan of a run

`run` takes the smallest start time in the order in which the jobs completed. The start of the
simulation stands for a minimum that is not set yet, but it is also the time at which the first job may
start. The times are exact numbers here.
-/

namespace CseOs.SchedSim

variable {τ : Type} [FloatOps τ]

/-- What the loop over the completed jobs adds up. -/
structure Totals (τ : Type) where
  totalWaitingTime : τ
  totalTurnaroundTime : τ
  cpuActiveTime : τ
  earliestStart : τ
  latestFinish : τ

def Totals.add (simulationStart : τ) (r : Totals τ) (j : Job τ) : Totals τ where
  totalWaitingTime := FloatOps.add r.totalWaitingTime j.waitingTime
  totalTurnaroundTime := FloatOps.add r.totalTurnaroundTime j.turnaroundTime
  cpuActiveTime := FloatOps.add r.cpuActiveTime j.burstTime
  earliestStart :=
    if le zero j.startTime &&
        (FloatOps.eq r.earliestStart simulationStart || lt j.startTime r.earliestStart) then j.startTime
    else r.earliestStart
  latestFinish := if lt r.latestFinish j.finishTime then j.finishTime else r.latestFinish

def totals (simulationStart : τ) (completed : List (Job τ)) : Totals τ :=
  completed.foldl (Totals.add simulationStart) ⟨zero, zero, zero, simulationStart, simulationStart⟩

def makespan (simulationStart : τ) (completed : List (Job τ)) : τ :=
  let r := totals simulationStart completed
  let makespan := FloatOps.sub r.latestFinish r.earliestStart
  if lt makespan EPSILON then zero else makespan

variable {start m : Rat} {j : Job Rat} {jobs jobs' : List (Job Rat)}

/-- A job as the workers leave it. A job that changed cores may finish before it started. -/
structure Completed (simulationStart : Rat) (j : Job Rat) : Prop where
  start : simulationStart ≤ j.startTime
  nonneg : 0 ≤ j.startTime
  finish : simulationStart ≤ j.finishTime

/-- From the smallest start time to the largest finish time. -/
def IsSpan (jobs : List (Job Rat)) (m : Rat) : Prop :=
  ∃ s f, (∃ j ∈ jobs, j.startTime = s) ∧ (∀ j ∈ jobs, s ≤ j.startTime) ∧
    (∃ j ∈ jobs, j.finishTime = f) ∧ (∀ j ∈ jobs, j.finishTime ≤ f) ∧ m = f - s

/-- The makespan is the span of the jobs, and so it is in any other order of completion. -/
def MakespanExact (simulationStart : Rat) (jobs : List (Job Rat)) : Prop :=
  IsSpan jobs (makespan simulationStart jobs) ∧
    ∀ jobs', jobs'.Perm jobs → makespan simulationStart jobs' = makespan simulationStart jobs

private theorem totals_append (l : List (Job Rat)) (j : Job Rat) :
    totals start (l ++ [j]) = (totals start l).add start j := by
  rw [totals, totals, List.foldl_append]
  rfl

private theorem earliest_append (h : Completed start j) (l : List (Job Rat)) :
    (totals start (l ++ [j])).earliestStart =
      if (totals start l).earliestStart = start ∨ j.startTime < (totals start l).earliestStart then
        j.startTime
      else (totals start l).earliestStart := by
  have hnonneg : le zero j.startTime = true := by
    show decide ((zero : Rat) ≤ j.startTime) = true
    rw [zero_eq]
    exact decide_eq_true h.nonneg
  rw [totals_append, Totals.add, hnonneg]
  show (if (true && (decide _ || decide _)) = true then _ else _) = _
  simp only [Bool.true_and, Bool.or_eq_true, decide_eq_true_eq]

private theorem latest_append (l : List (Job Rat)) (j : Job Rat) :
    (totals start (l ++ [j])).latestFinish = Max.max (totals start l).latestFinish j.finishTime := by
  rw [totals_append, ← max_eq]
  rfl

theorem earliest_cases (h : ∀ j ∈ jobs, Completed start j) :
    start ≤ (totals start jobs).earliestStart ∧
      ((jobs = [] ∧ (totals start jobs).earliestStart = start) ∨
        ∃ j ∈ jobs, j.startTime = (totals start jobs).earliestStart) := by
  induction jobs using List.reverseRecOn with
  | nil => exact ⟨le_refl start, .inl ⟨rfl, rfl⟩⟩
  | append_singleton l j ih =>
    have hj := h j (by simp)
    have hl := ih fun i hi => h i (by simp [hi])
    rw [earliest_append hj]
    split
    · exact ⟨hj.start, .inr ⟨j, by simp, rfl⟩⟩
    · next hno =>
      refine ⟨hl.1, .inr ?_⟩
      cases hl.2 with
      | inl hnil => exact absurd (.inl hnil.2) hno
      | inr hmem =>
        obtain ⟨i, hi, heq⟩ := hmem
        exact ⟨i, by simp [hi], heq⟩

theorem earliest_least (h : ∀ j ∈ jobs, Completed start j) (hlate : ∀ j ∈ jobs, j.startTime ≠ start) :
    ∀ j ∈ jobs, (totals start jobs).earliestStart ≤ j.startTime := by
  induction jobs using List.reverseRecOn with
  | nil => exact fun i hi => absurd hi List.not_mem_nil
  | append_singleton l j ih =>
    have hl : ∀ i ∈ l, Completed start i := fun i hi => h i (by simp [hi])
    have hleast := ih hl fun i hi => hlate i (by simp [hi])
    intro i hi
    rw [earliest_append (h j (by simp))]
    cases List.mem_append.mp hi with
    | inl hold =>
      split
      · next hset =>
        cases hset with
        | inl hstart =>
          cases (earliest_cases hl).2 with
          | inl hnil =>
            rw [hnil.1] at hold
            cases hold
          | inr hmem =>
            obtain ⟨k, hk, heq⟩ := hmem
            exact absurd (heq.trans hstart) (hlate k (by simp [hk]))
        | inr hlt => exact le_trans (le_of_lt hlt) (hleast i hold)
      · exact hleast i hold
    | inr hlast =>
      rw [List.mem_singleton.mp hlast]
      split
      · exact le_refl _
      · next hno => exact not_lt.mp fun hlt => hno (.inr hlt)

theorem earliest_of_late_last (h : ∀ i ∈ jobs, Completed start i) (hj : Completed start j)
    (hlate : j.startTime ≠ start) : start < (totals start (jobs ++ [j])).earliestStart := by
  have hlt : start < j.startTime := lt_of_le_of_ne hj.start (Ne.symm hlate)
  rw [earliest_append hj]
  split
  · exact hlt
  · next hno => exact lt_of_le_of_ne (earliest_cases h).1 fun heq => hno (.inl heq.symm)

private theorem latest_cases (h : ∀ j ∈ jobs, Completed start j) :
    start ≤ (totals start jobs).latestFinish ∧
      (∀ j ∈ jobs, j.finishTime ≤ (totals start jobs).latestFinish) ∧
      (jobs ≠ [] → ∃ j ∈ jobs, j.finishTime = (totals start jobs).latestFinish) := by
  induction jobs using List.reverseRecOn with
  | nil => exact ⟨le_refl start, fun i hi => absurd hi List.not_mem_nil, fun hne => absurd rfl hne⟩
  | append_singleton l j ih =>
    have hj := h j (by simp)
    obtain ⟨hge, hall, hmem⟩ := ih fun i hi => h i (by simp [hi])
    rw [latest_append]
    refine ⟨le_trans hge (le_max_left _ _), ?_, ?_⟩
    · intro i hi
      cases List.mem_append.mp hi with
      | inl hold => exact le_trans (hall i hold) (le_max_left _ _)
      | inr hlast =>
        rw [List.mem_singleton.mp hlast]
        exact le_max_right _ _
    · intro _
      cases le_total (totals start l).latestFinish j.finishTime with
      | inl hle => exact ⟨j, by simp, (max_eq_right hle).symm⟩
      | inr hle =>
        rw [max_eq_left hle]
        by_cases hnil : l = []
        · have hstart : (totals start l).latestFinish = start := by
            rw [hnil]
            rfl
          refine ⟨j, by simp, le_antisymm hle ?_⟩
          rw [hstart]
          exact hj.finish
        · obtain ⟨i, hi, heq⟩ := hmem hnil
          exact ⟨i, by simp [hi], heq⟩

private theorem makespan_eq : makespan start jobs =
    if (totals start jobs).latestFinish - (totals start jobs).earliestStart < EPSILON then 0
    else (totals start jobs).latestFinish - (totals start jobs).earliestStart := by
  rw [makespan, zero_eq]
  show (if decide (_ < _) = true then _ else _) = _
  simp only [decide_eq_true_eq]
  rfl

private theorem IsSpan.unique {m' : Rat} (h : IsSpan jobs m) (h' : IsSpan jobs m') : m = m' := by
  obtain ⟨s, f, ⟨i, hi, his⟩, hs, ⟨k, hk, hkf⟩, hf, rfl⟩ := h
  obtain ⟨s', f', ⟨i', hi', his'⟩, hs', ⟨k', hk', hkf'⟩, hf', rfl⟩ := h'
  have h₁ := hs i' hi'
  have h₂ := hs' i hi
  have h₃ := hf k' hk'
  have h₄ := hf' k hk
  linarith

private theorem IsSpan.perm (h : IsSpan jobs m) (hp : jobs'.Perm jobs) : IsSpan jobs' m := by
  simpa only [IsSpan, hp.mem_iff] using h

theorem isSpan_of_early (h : ∀ i ∈ jobs, Completed start i) (hj : j ∈ jobs)
    (hstart : j.startTime = start) : IsSpan jobs ((totals start jobs).latestFinish - start) := by
  obtain ⟨_, hall, hmem⟩ := latest_cases h
  exact ⟨start, _, ⟨j, hj, hstart⟩, fun i hi => (h i hi).start, hmem (List.ne_nil_of_mem hj), hall, rfl⟩

theorem span_of_uniform (hne : jobs ≠ []) (h : ∀ i ∈ jobs, Completed start i)
    (huniform : (∀ i ∈ jobs, i.startTime ≠ start) ∨ ∀ i ∈ jobs, i.startTime = start) :
    IsSpan jobs ((totals start jobs).latestFinish - (totals start jobs).earliestStart) := by
  have hearly : ∃ i ∈ jobs, i.startTime = (totals start jobs).earliestStart :=
    (earliest_cases h).2.resolve_left fun hnil => hne hnil.1
  cases huniform with
  | inl hlate =>
    obtain ⟨_, hall, hmem⟩ := latest_cases h
    exact ⟨_, _, hearly, earliest_least h hlate, hmem hne, hall, rfl⟩
  | inr hall =>
    obtain ⟨i, hi, heq⟩ := hearly
    rw [← heq, hall i hi]
    exact isSpan_of_early h hi (hall i hi)

private theorem epsilon_pos : (0 : Rat) < EPSILON := by
  show (0 : Rat) < 1 / 100000
  norm_num

theorem makespan_of_empty (hne : jobs ≠ []) (h : ∀ i ∈ jobs, Completed start i) (hspan : IsSpan jobs 0) :
    makespan start jobs = 0 := by
  obtain ⟨s, f, _, hs, ⟨k, hk, hkf⟩, hf, hzero⟩ := hspan
  obtain ⟨i, hi, heq⟩ := (earliest_cases h).2.resolve_left fun hnil => hne hnil.1
  obtain ⟨_, _, hmem⟩ := latest_cases h
  obtain ⟨l, hl, hlast⟩ := hmem hne
  have hfirst := hs i hi
  have hfinish := hf l hl
  have heps := epsilon_pos
  rw [makespan_eq, if_pos]
  linarith

/-- The makespan is exact in every order of completion if and only if the span is not rounded off, and no job, or
every job, starts with the simulation, or the span is empty. -/
theorem makespan_exact_iff (hne : jobs ≠ []) (h : ∀ j ∈ jobs, Completed start j) :
    MakespanExact start jobs ↔
      (∀ m, IsSpan jobs m → m = 0 ∨ EPSILON ≤ m) ∧
      ((∀ j ∈ jobs, j.startTime ≠ start) ∨ (∀ j ∈ jobs, j.startTime = start) ∨ IsSpan jobs 0) := by
  constructor
  · intro hexact
    obtain ⟨hspan, hfree⟩ := hexact
    constructor
    · intro m hm
      rw [hm.unique hspan, makespan_eq]
      split
      · exact .inl rfl
      · next hlarge => exact .inr (not_lt.mp hlarge)
    · by_contra hmixed
      rw [not_or, not_or] at hmixed
      obtain ⟨hsome, hother, hempty⟩ := hmixed
      push Not at hsome hother
      obtain ⟨i, hi, hstart⟩ := hsome
      obtain ⟨k, hk, hlate⟩ := hother
      have hperm : (jobs.erase k ++ [k]).Perm jobs :=
        (List.perm_append_singleton k _).trans (List.perm_cons_erase hk).symm
      have hrest : ∀ a ∈ jobs.erase k, Completed start a := fun a ha => h a (List.mem_of_mem_erase ha)
      have hall : ∀ a ∈ jobs.erase k ++ [k], Completed start a :=
        fun a ha => h a (hperm.mem_iff.mp ha)
      have hmin := earliest_of_late_last hrest (h k hk) hlate
      have hspan' := isSpan_of_early hall (hperm.mem_iff.mpr hi) hstart
      have hsame := hfree _ hperm
      rw [(hspan'.perm hperm.symm).unique hspan |>.symm, makespan_eq] at hsame
      split at hsame
      · rw [← hsame] at hspan'
        exact hempty (hspan'.perm hperm.symm)
      · linarith
  · intro hcond
    obtain ⟨hround, hstarts⟩ := hcond
    have hvalue : ∀ jobs', jobs'.Perm jobs → IsSpan jobs (makespan start jobs') := by
      intro jobs' hp
      have hall : ∀ a ∈ jobs', Completed start a := fun a ha => h a (hp.mem_iff.mp ha)
      have hne' : jobs' ≠ [] := fun hnil => hne (hnil ▸ hp).nil_eq.symm
      rcases or_assoc.mpr hstarts with huniform | hempty
      · have hspan := (span_of_uniform hne' hall (by simpa only [hp.mem_iff] using huniform)).perm hp.symm
        rw [makespan_eq]
        split
        · next hsmall =>
          cases hround _ hspan with
          | inl hzero =>
            rw [hzero] at hspan
            exact hspan
          | inr hlarge => exact absurd hsmall (not_lt.mpr hlarge)
        · exact hspan
      · rw [makespan_of_empty hne' hall (hempty.perm hp)]
        exact hempty
    exact ⟨hvalue jobs (.refl _), fun jobs' hp => (hvalue jobs' hp).unique (hvalue jobs (.refl _))⟩

/-- A job that ran from `s` to `f`. -/
def ranFrom (id : Int) (s f : Rat) : Job Rat :=
  { (JobSpec.job ⟨id, 0, f - s, 0⟩ : Job Rat) with
    remainingTime := 0, state := .FINISHED, startTime := s, finishTime := f }

@[simp] theorem ranFrom_startTime (id : Int) (s f : Rat) : (ranFrom id s f).startTime = s := rfl

@[simp] theorem ranFrom_finishTime (id : Int) (s f : Rat) : (ranFrom id s f).finishTime = f := rfl

private theorem forall_mem_pair {α : Type} {P : α → Prop} {a b : α} :
    (∀ x ∈ [a, b], P x) ↔ P a ∧ P b := by
  simp

private theorem isSpan_pair {s s' f f' : Rat} (hs : s ≤ s') (hf : f ≤ f') :
    IsSpan [ranFrom 1 s f, ranFrom 2 s' f'] (f' - s) := by
  refine ⟨s, f', ⟨ranFrom 1 s f, by simp, rfl⟩, ?_, ⟨ranFrom 2 s' f', by simp, rfl⟩, ?_, rfl⟩
  · rw [forall_mem_pair, ranFrom_startTime, ranFrom_startTime]
    exact ⟨le_refl s, hs⟩
  · rw [forall_mem_pair, ranFrom_finishTime, ranFrom_finishTime]
    exact ⟨hf, le_refl f'⟩

theorem makespan_exact_pair : MakespanExact 0 [ranFrom 1 1 3, ranFrom 2 2 5] := by
  have hdone : ∀ j ∈ [ranFrom 1 1 3, ranFrom 2 2 5], Completed 0 j := by
    rw [forall_mem_pair]
    exact ⟨⟨by decide +kernel, by decide +kernel, by decide +kernel⟩,
      ⟨by decide +kernel, by decide +kernel, by decide +kernel⟩⟩
  have hspan : IsSpan [ranFrom 1 1 3, ranFrom 2 2 5] (5 - 1) :=
    isSpan_pair (by decide +kernel) (by decide +kernel)
  apply (makespan_exact_iff (by simp) hdone).mpr
  refine ⟨fun m hm => .inr ?_, .inl ?_⟩
  · rw [hm.unique hspan]
    decide +kernel
  · rw [forall_mem_pair]
    exact ⟨by decide +kernel, by decide +kernel⟩

/-- Two jobs run from 0 to 3 and from 2 to 5. If the second one completes last, the makespan is 3. -/
theorem makespan_drops_first : ¬ MakespanExact 0 [ranFrom 1 0 3, ranFrom 2 2 5] := by
  intro hexact
  have hspan : IsSpan [ranFrom 1 0 3, ranFrom 2 2 5] (5 - 0) :=
    isSpan_pair (by decide +kernel) (by decide +kernel)
  have hvalue : makespan 0 [ranFrom 1 0 3, ranFrom 2 2 5] = 3 := by decide +kernel
  have heq := hexact.1.unique hspan
  rw [hvalue] at heq
  exact absurd heq (by decide +kernel)

end CseOs.SchedSim
