import CseOs.SchedSim.Conservation
import Mathlib.Tactic.Linarith

/-!
# Slices of one job

The times are exact numbers here. A core starts a slice at its own time or at the arrival of the
job, whichever is later, and does not look at the end of the job's last slice. Its own time only
goes forward, so the slices of a job follow each other as long as no core takes the job over from
one that is ahead of it.
-/

namespace CseOs.SchedSim

open Framework

variable {σ : Type} {p : Policy Rat σ} {specs : List (JobSpec Rat)} {numCores : Nat}
  {w w' : World Rat σ} {i : Nat} {v : Worker Rat}

/-- The slices of one job are disjoint and in order. -/
def Ordered (w : World Rat σ) : Prop :=
  w.slices.Pairwise fun a b => a.id = b.id → a.finish ≤ b.dispatchTime

instance (w : World Rat σ) : Decidable (Ordered w) :=
  inferInstanceAs (Decidable (List.Pairwise _ _))

/-- A slice of `timeSlice` leaves a remainder that the program drops. -/
def dropsRest (timeSlice remaining : Rat) : Bool :=
  1 / 1000 ≤ timeSlice && timeSlice < remaining && remaining ≤ timeSlice + 1 / 1000

/-- A core takes no job with a negative remaining time, none whose rest it would drop, and none that
was run by a core whose local time is ahead of its own. -/
def timely (p : Policy Rat σ) (w : World Rat σ) : ThreadId → Bool
  | .scheduler => true
  | .core i =>
    match w.workers[i]? with
    | some ⟨.lockQueue, localCoreTime⟩ => (selected p w).all fun job =>
      0 ≤ job.remainingTime && !dropsRest p.timeSlice job.remainingTime &&
        w.slices.all fun s => s.id != job.id ||
          (w.workers[s.core]?).all fun u => u.localCoreTime ≤ localCoreTime
    | _ => true

/-- The states of the interleavings in which every step is `timely`. -/
def TimelyRuns (p : Policy Rat σ) (specs : List (JobSpec Rat)) (numCores : Nat) :
    World Rat σ → Prop :=
  Reachable (Initial p specs numCores)
    (Guarded (fun w t => timely p w t = true) fun w t w' => step p t w = some w')

theorem zero_eq : (zero : Rat) = 0 := Rat.intCast_zero

@[simp] theorem max_eq (a b : Rat) : max a b = Max.max a b := by
  show (if decide (a < b) then b else a) = _
  by_cases h : a < b
  · rw [if_pos (decide_eq_true h), max_eq_right (le_of_lt h)]
  · rw [if_neg (by simpa using h), max_eq_left (not_lt.mp h)]

/-- What a job in a queue has run by its last slices. -/
def Progressed (slices : List (Slice Rat)) (j : Job Rat) : Prop :=
  j.remainingTime = j.burstTime ∨ ∃ s ∈ slices, s.id = j.id ∧
    j.arrivalTime + (j.burstTime - j.remainingTime) ≤ s.finish

/-- A slice has been run by the time of its core, or its core is still at it. -/
def Clocked (workers : List (Worker Rat)) (s : Slice Rat) : Prop :=
  ∃ u, workers[s.core]? = some u ∧
    (s.finish ≤ u.localCoreTime ∨ ∃ j, u.pc = .executing j s.dispatchTime s.execution ∧ j.id = s.id)

/-- What a worker does with the job in its hands. -/
structure Running (slices : List (Slice Rat)) (u : Worker Rat) (j : Job Rat)
    (dispatchTime execution : Rat) : Prop where
  slice : ∃ core, ⟨j.id, core, dispatchTime, execution⟩ ∈ slices
  begun : j.arrivalTime + (j.burstTime - j.remainingTime) ≤ dispatchTime
  clock : u.localCoreTime ≤ dispatchTime
  forward : 0 ≤ execution
  whole : j.remainingTime - execution ≤ 1 / 1000 → j.remainingTime ≤ execution

/-- The times of jobs and slices; `c` says that all steps so far were `timely`. -/
structure Timed (c : Prop) (w : World Rat σ) : Prop where
  ordered : c → Ordered w
  clocked : c → ∀ s ∈ w.slices, Clocked w.workers s
  pending : ∀ j ∈ w.pending, 0 ≤ j.waitingTime ∧ (c → Progressed w.slices j)
  ready : ∀ j ∈ w.readyQueue, 0 ≤ j.waitingTime ∧ (c → Progressed w.slices j)
  held : ∀ u ∈ w.workers, ∀ j dispatchTime execution, u.pc = .executing j dispatchTime execution →
    0 ≤ j.waitingTime ∧ (c → Running w.slices u j dispatchTime execution)
  completed : ∀ j ∈ w.completedJobs, 0 ≤ j.waitingTime ∧
    (c → j.arrivalTime + j.burstTime ≤ j.finishTime)

variable {c : Prop} {slices : List (Slice Rat)} {j : Job Rat} {dispatchTime execution : Rat}

private theorem Progressed.more (h : Progressed slices j) (s : Slice Rat) : Progressed (slices ++ [s]) j := by
  cases h with
  | inl h => exact .inl h
  | inr h =>
    obtain ⟨s', hs', h⟩ := h
    exact .inr ⟨s', List.mem_append_left _ hs', h⟩

private theorem Running.more {u : Worker Rat} (h : Running slices u j dispatchTime execution)
    (s : Slice Rat) : Running (slices ++ [s]) u j dispatchTime execution := by
  obtain ⟨core, hcore⟩ := h.slice
  exact { h with slice := ⟨core, List.mem_append_left _ hcore⟩ }

theorem Clocked.set {workers : List (Worker Rat)} {s : Slice Rat} {v' : Worker Rat}
    (h : Clocked workers s) (hv : workers[i]? = some v)
    (hstep : s.finish ≤ v.localCoreTime ∨
        (∃ j, v.pc = .executing j s.dispatchTime s.execution ∧ j.id = s.id) →
      s.finish ≤ v'.localCoreTime ∨
        ∃ j, v'.pc = .executing j s.dispatchTime s.execution ∧ j.id = s.id) :
    Clocked (workers.set i v') s := by
  obtain ⟨u, hu, hcase⟩ := h
  by_cases hcore : i = s.core
  · subst hcore
    rw [hv] at hu
    cases hu
    refine ⟨v', ?_, hstep hcase⟩
    rw [List.getElem?_set_self (List.getElem?_eq_some_iff.mp hv).1]
  · exact ⟨u, by rw [List.getElem?_set_ne hcore, hu], hcase⟩

theorem Clocked.set_idle {workers : List (Worker Rat)} {s : Slice Rat} {v' : Worker Rat}
    (h : Clocked workers s) (hv : workers[i]? = some v) (hidle : v.job? = none)
    (hclock : v'.localCoreTime = v.localCoreTime) : Clocked (workers.set i v') s := by
  refine h.set hv fun hcase => ?_
  cases hcase with
  | inl hdone => exact .inl (hclock ▸ hdone)
  | inr hrun =>
    obtain ⟨j, hpc, _⟩ := hrun
    rw [Worker.job?, hpc] at hidle
    cases hidle

private theorem timed_initial (h : Initial p specs numCores w) : Timed c w := by
  obtain ⟨first, rest, hsort, rfl⟩ := h
  constructor
  · exact fun _ => List.Pairwise.nil
  · exact fun _ s hs => absurd hs List.not_mem_nil
  · intro j hj
    have hmem : j ∈ specs.map JobSpec.job := by
      rw [← (List.mergeSort_perm (specs.map JobSpec.job) _).mem_iff]
      show j ∈ sortJobs _
      rw [hsort]
      exact hj
    obtain ⟨spec, _, rfl⟩ := List.mem_map.mp hmem
    exact ⟨le_of_eq Rat.intCast_zero.symm, fun _ => .inl rfl⟩
  · exact fun j hj => absurd hj List.not_mem_nil
  · intro u hu j d e hpc
    rw [List.eq_of_mem_replicate hu] at hpc
    cases hpc
  · exact fun j hj => absurd hj List.not_mem_nil

private theorem Timed.scheduler (h : Timed c w) (hs : schedulerStep w = some w') : Timed c w' := by
  rw [schedulerStep] at hs
  cases hat : w.scheduler with
  | arrive =>
    rw [hat] at hs
    cases hs
    refine ⟨h.ordered, h.clocked, fun j hj => ?_, fun j hj => ?_, h.held, h.completed⟩
    · exact h.pending j (List.dropWhile_subset _ hj)
    · rcases List.mem_append.mp hj with hj | hj
      · exact h.ready j hj
      · obtain ⟨j', hj', rfl⟩ := List.mem_map.mp hj
        exact h.pending j' (List.takeWhile_subset _ hj')
  | check =>
    rw [hat] at hs
    simp only at hs
    split at hs
    · cases hs
      exact ⟨h.ordered, h.clocked, h.pending, h.ready, h.held, h.completed⟩
    · cases hs
      exact ⟨h.ordered, h.clocked, h.pending, h.ready, h.held, h.completed⟩
  | advance =>
    rw [hat] at hs
    simp only at hs
    split at hs
    · cases hs
      exact ⟨h.ordered, h.clocked, h.pending, h.ready, h.held, h.completed⟩
    · cases hs
      exact ⟨h.ordered, h.clocked, h.pending, h.ready, h.held, h.completed⟩
  | stopping =>
    rw [hat] at hs
    cases hs
    exact ⟨h.ordered, h.clocked, h.pending, h.ready, h.held, h.completed⟩
  | exited =>
    rw [hat] at hs
    cases hs

theorem Timed.set_idle (h : Timed c w) {v' : Worker Rat} (hidle : v'.job? = none) :
    ∀ u ∈ w.workers.set i v', ∀ j dispatchTime execution,
      u.pc = .executing j dispatchTime execution →
      0 ≤ j.waitingTime ∧ (c → Running w.slices u j dispatchTime execution) := by
  intro u hu j d e hpc
  rcases List.mem_or_eq_of_mem_set hu with hu | rfl
  · exact h.held u hu j d e hpc
  · rw [Worker.job?, hpc] at hidle
    cases hidle

private theorem selected_mem {job : Job Rat} (h : selected p w = some job) : job ∈ w.readyQueue := by
  obtain ⟨k, _, hfind⟩ := Option.bind_eq_some_iff.mp h
  exact List.mem_of_find?_eq_some hfind

private theorem timely_core {job : Job Rat} (h : timely p w (.core i) = true)
    (hv : w.workers[i]? = some v) (hpc : v.pc = .lockQueue) (hsel : selected p w = some job) :
    0 ≤ job.remainingTime ∧ dropsRest p.timeSlice job.remainingTime = false ∧
      ∀ s ∈ w.slices, s.id = job.id → ∀ u, w.workers[s.core]? = some u →
        u.localCoreTime ≤ v.localCoreTime := by
  obtain ⟨pc, t⟩ := v
  cases hpc
  simp only [timely, hv, hsel, Option.all_some, Bool.and_eq_true, decide_eq_true_eq,
    Bool.not_eq_true', List.all_eq_true] at h
  refine ⟨h.1.1, h.1.2, fun s hs hid u hu => ?_⟩
  have hbehind := h.2 s hs
  simpa [hid, hu] using hbehind

theorem Timed.run_before {job : Job Rat} (h : Timed c w) (hcc : c)
    (hdistinct : ((w.readyQueue ++ w.pending ++ inHand w).map fun j => j.id).Nodup)
    (hready : job ∈ w.readyQueue)
    (hbehind : ∀ s ∈ w.slices, s.id = job.id → ∀ u, w.workers[s.core]? = some u →
      u.localCoreTime ≤ v.localCoreTime) :
    ∀ s ∈ w.slices, s.id = job.id → s.finish ≤ v.localCoreTime := by
  intro s hs hid
  obtain ⟨u, hu, hcase⟩ := h.clocked hcc s hs
  cases hcase with
  | inl hdone => exact le_trans hdone (hbehind s hs hid u hu)
  | inr hrun =>
    obtain ⟨j, hpc, hj⟩ := hrun
    have hheld : j ∈ inHand w :=
      List.mem_filterMap.mpr ⟨u, List.mem_of_getElem? hu, by rw [Worker.job?, hpc]⟩
    rw [List.append_assoc, List.map_append, List.nodup_append] at hdistinct
    exact absurd (hid.symm.trans hj.symm) (hdistinct.2.2 _ (List.mem_map_of_mem hready) _
      (List.mem_map_of_mem (List.mem_append_right _ hheld)))

theorem executionTime_cases (timeSlice remaining : Rat) :
    executionTime timeSlice remaining = remaining ∨ executionTime timeSlice remaining = timeSlice ∧
      1 / 1000 ≤ timeSlice ∧ timeSlice < remaining := by
  simp only [executionTime, min, lt, slack, zero_eq, decide_eq_true_eq]
  by_cases hpos : 0 < timeSlice
  · rw [if_pos hpos]
    by_cases hlt : timeSlice < remaining
    · rw [if_pos hlt]
      by_cases hsmall : timeSlice < 1 / 1000
      · exact .inl (if_pos hsmall)
      · exact .inr ⟨if_neg hsmall, not_lt.mp hsmall, hlt⟩
    · rw [if_neg hlt]
      exact .inl (ite_self _)
  · rw [if_neg hpos]
    exact .inl (ite_self _)

private theorem executionTime_whole {timeSlice remaining : Rat} (hpos : 0 ≤ remaining)
    (hkeep : dropsRest timeSlice remaining = false) :
    0 ≤ executionTime timeSlice remaining ∧
      (remaining - executionTime timeSlice remaining ≤ 1 / 1000 →
        remaining ≤ executionTime timeSlice remaining) := by
  cases executionTime_cases timeSlice remaining with
  | inl hall =>
    rw [hall]
    exact ⟨hpos, fun _ => le_refl _⟩
  | inr hslice =>
    obtain ⟨heq, hlarge, hlt⟩ := hslice
    rw [heq]
    refine ⟨by linarith, fun hrest => ?_⟩
    have hdrop : dropsRest timeSlice remaining = true := by
      simp only [dropsRest, Bool.and_eq_true, decide_eq_true_eq]
      exact ⟨⟨hlarge, hlt⟩, by linarith⟩
    rw [hkeep] at hdrop
    cases hdrop

private theorem Timed.take (h : Timed c w) (hv : w.workers[i]? = some v) (hpc : v.pc = .lockQueue)
    (hdistinct : ((w.readyQueue ++ w.pending ++ inHand w).map fun j => j.id).Nodup)
    (hc : c → timely p w (.core i) = true) : Timed c (takeJob p i v w) := by
  have hidle : v.job? = none := by rw [Worker.job?, hpc]
  rw [takeJob]
  cases hsel : selected p w with
  | none =>
    exact ⟨h.ordered, fun hcc s hs => (h.clocked hcc s hs).set_idle hv hidle rfl, h.pending, h.ready,
      h.set_idle rfl, h.completed⟩
  | some job =>
    obtain ⟨hwait, hprog⟩ := h.ready job (selected_mem hsel)
    have hstart : job.arrivalTime ≤ max v.localCoreTime job.arrivalTime := by
      rw [max_eq]
      exact le_max_right _ _
    have hcore : v.localCoreTime ≤ max v.localCoreTime job.arrivalTime := by
      rw [max_eq]
      exact le_max_left _ _
    have htimely := fun hcc : c => timely_core (hc hcc) hv hpc hsel
    have hbefore := fun hcc : c =>
      h.run_before hcc hdistinct (selected_mem hsel) (htimely hcc).2.2
    have hexec := fun hcc : c => executionTime_whole (htimely hcc).1 (htimely hcc).2.1
    constructor
    · intro hcc
      apply List.pairwise_append.mpr
      refine ⟨h.ordered hcc, List.pairwise_singleton _ _, fun a ha b hb hid => ?_⟩
      rw [List.mem_singleton] at hb
      subst hb
      exact le_trans (hbefore hcc a ha hid) hcore
    · intro hcc s hs
      rcases List.mem_append.mp hs with hs | hs
      · exact (h.clocked hcc s hs).set_idle hv hidle rfl
      · rw [List.mem_singleton.mp hs]
        exact ⟨_, List.getElem?_set_self (List.getElem?_eq_some_iff.mp hv).1, .inr ⟨_, rfl, rfl⟩⟩
    · exact fun j hj => ⟨(h.pending j hj).1, fun hcc => ((h.pending j hj).2 hcc).more _⟩
    · intro j hj
      have hj := h.ready j (List.mem_of_mem_eraseP hj)
      exact ⟨hj.1, fun hcc => (hj.2 hcc).more _⟩
    · intro u hu j d' e hpc'
      rcases List.mem_or_eq_of_mem_set hu with hu | rfl
      · have hj := h.held u hu j d' e hpc'
        exact ⟨hj.1, fun hcc => (hj.2 hcc).more _⟩
      · cases hpc'
        refine ⟨hwait, fun hcc => ⟨⟨i, List.mem_append_right _ (List.mem_singleton_self _)⟩, ?_, hcore,
          (hexec hcc).1, (hexec hcc).2⟩⟩
        show job.arrivalTime + (job.burstTime - job.remainingTime) ≤
          max v.localCoreTime job.arrivalTime
        cases hprog hcc with
        | inl hfresh =>
          rw [hfresh, sub_self, add_zero]
          exact hstart
        | inr hslice =>
          obtain ⟨s, hs, hid, hle⟩ := hslice
          exact le_trans hle (le_trans (hbefore hcc s hs hid) hcore)
    · exact h.completed

private theorem finishJob_waiting (t : Rat) (h : 0 ≤ j.waitingTime) : 0 ≤ (finishJob j t).waitingTime := by
  have hwait : (finishJob j t).waitingTime =
      if le zero j.startTime && le zero j.arrivalTime then
        (if lt (j.startTime - j.arrivalTime) zero then zero else j.startTime - j.arrivalTime)
      else j.waitingTime := by
    rw [finishJob, Job.calculateMetrics]
    split
    · split <;> rfl
    · split <;> rfl
  rw [hwait]
  split
  · split
    · exact le_of_eq zero_eq.symm
    · next hnot =>
      have hnot : ¬ j.startTime - j.arrivalTime < (zero : Rat) := by
        simpa [lt] using hnot
      rw [zero_eq] at hnot
      exact not_lt.mp hnot
  · exact h

private theorem finishJob_finishTime (j : Job Rat) (t : Rat) : (finishJob j t).finishTime = t := by
  rw [finishJob, calculateMetrics_eq]

theorem newRemaining_cases (r e : Rat) :
    (newRemaining r e = r - e ∧ ¬ r - e < 1 / 1000) ∨ (newRemaining r e = 0 ∧ r - e < 1 / 1000) := by
  rw [newRemaining]
  by_cases h : r - e < 1 / 1000
  · right
    refine ⟨?_, h⟩
    rw [if_pos (show lt (FloatOps.sub r e) slack = true from decide_eq_true h)]
    exact zero_eq
  · left
    refine ⟨?_, h⟩
    rw [if_neg (show ¬ lt (FloatOps.sub r e) slack = true from fun ht => h (of_decide_eq_true ht))]
    rfl

private theorem Timed.giveBack (h : Timed c w) (hv : w.workers[i]? = some v)
    (hpc : v.pc = .executing j dispatchTime execution) :
    Timed c (giveBack p i j dispatchTime execution w) := by
  obtain ⟨hwait, hrun⟩ := h.held v (List.mem_of_getElem? hv) j dispatchTime execution hpc
  have hclocked : c → ∀ s ∈ w.slices,
      Clocked (w.workers.set i ⟨.loopTest, FloatOps.add dispatchTime execution⟩) s := by
    intro hcc s hs
    refine (h.clocked hcc s hs).set hv fun hcase => .inl ?_
    show s.finish ≤ dispatchTime + execution
    cases hcase with
    | inl hdone =>
      have hclock := (hrun hcc).clock
      have hforward := (hrun hcc).forward
      linarith
    | inr hown =>
      obtain ⟨j', hpc', _⟩ := hown
      rw [hpc] at hpc'
      cases hpc'
      exact le_refl _
  rw [SchedSim.giveBack]
  split
  · next hle =>
    have hle : newRemaining j.remainingTime execution ≤ 1 / 1000 := of_decide_eq_true hle
    refine ⟨h.ordered, hclocked, h.pending, h.ready, h.set_idle rfl, fun k hk => ?_⟩
    rcases List.mem_append.mp hk with hk | hk
    · exact h.completed k hk
    · rw [List.mem_singleton.mp hk]
      refine ⟨finishJob_waiting _ hwait, fun hcc => ?_⟩
      rw [finishJob_finishTime, finishJob_spec]
      have hbegun := (hrun hcc).begun
      have hwhole := (hrun hcc).whole (by
        cases newRemaining_cases j.remainingTime execution with
        | inl hr => rwa [hr.1] at hle
        | inr hr => exact le_of_lt hr.2)
      show j.arrivalTime + j.burstTime ≤ dispatchTime + execution
      linarith
  · next hgt =>
    have hgt : ¬ newRemaining j.remainingTime execution ≤ 1 / 1000 :=
      fun hle => hgt (decide_eq_true hle)
    refine ⟨h.ordered, hclocked, h.pending, fun k hk => ?_, h.set_idle rfl, h.completed⟩
    rcases List.mem_append.mp hk with hk | hk
    · exact h.ready k hk
    · rw [List.mem_singleton.mp hk]
      refine ⟨hwait, fun hcc => ?_⟩
      obtain ⟨core, hslice⟩ := (hrun hcc).slice
      refine .inr ⟨_, hslice, rfl, ?_⟩
      have hbegun := (hrun hcc).begun
      have hrest : newRemaining j.remainingTime execution = j.remainingTime - execution := by
        cases newRemaining_cases j.remainingTime execution with
        | inl hr => exact hr.1
        | inr hr =>
          rw [hr.1] at hgt
          exact absurd (by norm_num) hgt
      show j.arrivalTime + (j.burstTime - newRemaining j.remainingTime execution) ≤
        dispatchTime + execution
      rw [hrest]
      linarith

private theorem Timed.step {t : ThreadId} (h : Timed c w)
    (hdistinct : ((w.readyQueue ++ w.pending ++ inHand w).map fun j => j.id).Nodup)
    (hc : c → timely p w t = true) (hs : step p t w = some w') : Timed c w' := by
  cases t with
  | scheduler => exact h.scheduler hs
  | core i =>
    obtain ⟨v, hv, hcase⟩ := workerStep_cases hs
    cases hcase with
    | idle v' hidle hidle' hclock heq =>
      rw [heq]
      exact ⟨h.ordered, fun hcc s hs => (h.clocked hcc s hs).set_idle hv hidle hclock, h.pending,
        h.ready, h.set_idle hidle', h.completed⟩
    | take hpc hready heq =>
      rw [heq]
      exact h.take hv hpc hdistinct hc
    | giveBack j d e hpc heq =>
      rw [heq]
      exact h.giveBack hv hpc

private theorem TimelyRuns.runs (h : TimelyRuns p specs numCores w) : Runs p specs numCores w := by
  apply Reachable.invariant (fun w hw => Reachable.start hw) _ h
  intro w w' _ hw ⟨t, _, ht⟩
  exact hw.next ⟨t, ht⟩

/-- No job ever waits a negative time. While no core takes a job over from a core that is ahead of it,
the slices of a job are disjoint and in order, and a completed job took its burst time. -/
theorem slices_ordered (p : Policy Rat σ) (specs : List (JobSpec Rat)) (numCores : Nat)
    (hids : (specs.map fun j => j.id).Nodup) :
    (∀ w, Runs p specs numCores w → ∀ j ∈ w.completedJobs, 0 ≤ j.waitingTime) ∧
      ∀ w, TimelyRuns p specs numCores w → Ordered w ∧
        ∀ j ∈ w.completedJobs, j.arrivalTime + j.burstTime ≤ j.finishTime := by
  constructor
  · intro w hw
    have htimed : Timed False w := by
      apply Reachable.invariant (fun _ => timed_initial) _ hw
      intro w w' hreach h ⟨t, ht⟩
      exact h.step ((runs_conserved hreach).distinct hids) False.elim ht
    exact fun j hj => (htimed.completed j hj).1
  · intro w hw
    have htimed : Timed True w := by
      apply Reachable.invariant (fun _ => timed_initial) _ hw
      intro w w' hreach h ⟨t, htimely, ht⟩
      have hruns : Runs p specs numCores w := TimelyRuns.runs hreach
      exact h.step ((runs_conserved hruns).distinct hids) (fun _ => htimely) ht
    exact ⟨htimed.ordered trivial, fun j hj => (htimed.completed j hj).2 trivial⟩

/-- The steps of the threads in the order given, as long as each is `timely`. -/
def timelyThreads (p : Policy Rat σ) : List ThreadId → World Rat σ → Option (World Rat σ)
  | [], w => some w
  | t :: ts, w => if timely p w t then (step p t w).bind (timelyThreads p ts) else none

private theorem TimelyRuns.threads {ts : List ThreadId} (h : TimelyRuns p specs numCores w)
    (hrun : timelyThreads p ts w = some w') : TimelyRuns p specs numCores w' := by
  induction ts generalizing w with
  | nil =>
    cases hrun
    exact h
  | cons t ts ih =>
    rw [timelyThreads] at hrun
    split at hrun
    · next htimely =>
      obtain ⟨w₁, ht, hrest⟩ := Option.bind_eq_some_iff.mp hrun
      exact ih (Reachable.next h ⟨t, htimely, ht⟩) hrest
    · cases hrun

theorem slices_ordered_example :
    ∃ w, TimelyRuns (RoundRobinPolicy 1 Int.one_pos) [⟨1, 0, 2, 0⟩, ⟨2, 0, 3, 0⟩] 2 w ∧
      (w.slices.map fun s => (s.id, s.core)) = [(1, 0), (2, 1), (1, 1), (2, 1), (2, 1)] ∧
      w.completedJobs.length = 2 ∧ Ordered w ∧
      ∀ j ∈ w.completedJobs, j.arrivalTime + j.burstTime ≤ j.finishTime := by
  have hrun : ((timelyThreads (RoundRobinPolicy 1 Int.one_pos)
      (.scheduler :: (serveOnce 0 ++ serveOnce 1 ++ serveOnce 1 ++ serveOnce 1 ++ serveOnce 1))
      (started (RoundRobinPolicy 1 Int.one_pos) (JobSpec.job ⟨1, (0 : Rat), 2, 0⟩)
        [JobSpec.job ⟨2, 0, 3, 0⟩] 2)).any
      fun w => (w.slices.map fun s => (s.id, s.core)) == [(1, 0), (2, 1), (1, 1), (2, 1), (2, 1)] &&
        w.completedJobs.length == 2) = true := by
    decide +kernel
  obtain ⟨w, hw, hlen⟩ := (Option.any_eq_true _ _).mp hrun
  rw [Bool.and_eq_true, beq_iff_eq, beq_iff_eq] at hlen
  have hstart : TimelyRuns (RoundRobinPolicy 1 Int.one_pos) [⟨1, (0 : Rat), 2, 0⟩, ⟨2, 0, 3, 0⟩] 2
      (started (RoundRobinPolicy 1 Int.one_pos) (JobSpec.job ⟨1, (0 : Rat), 2, 0⟩)
        [JobSpec.job ⟨2, 0, 3, 0⟩] 2) := by
    apply Reachable.start
    exact ⟨_, _, List.mergeSort_of_pairwise (by decide +kernel), rfl⟩
  have hruns := hstart.threads hw
  exact ⟨w, hruns, hlen.1, hlen.2, (slices_ordered _ _ _ (by decide)).2 w hruns⟩

/-- Two cores run one job at the same time, and one core finishes a job before its time because the
program drops what is left. -/
theorem slices_overlap :
    (∃ w, Runs (RoundRobinPolicy 1 Int.one_pos) [sampleJob 2] 2 w ∧ ¬ Ordered w) ∧
      ∃ w, Runs (RoundRobinPolicy 1 Int.one_pos) [sampleJob (2001 / 2000)] 1 w ∧
        ∃ j ∈ w.completedJobs, j.finishTime < j.arrivalTime + j.burstTime := by
  constructor
  · have hrun : ((runThreads (RoundRobinPolicy 1 Int.one_pos)
        (.scheduler :: (serveOnce 0 ++ serveOnce 1))
        (started (RoundRobinPolicy 1 Int.one_pos) (sampleJob 2).job [] 2)).any
        fun w => !decide (Ordered w)) = true := by
      decide +kernel
    obtain ⟨w, hw, hnot⟩ := (Option.any_eq_true _ _).mp hrun
    exact ⟨w, (runs_single _ _ 2).threads hw, by simpa using hnot⟩
  · have hrun : ((runThreads (RoundRobinPolicy 1 Int.one_pos) (.scheduler :: serveOnce 0)
        (started (RoundRobinPolicy 1 Int.one_pos) (sampleJob (2001 / 2000)).job [] 1)).any
        fun w => w.completedJobs.any fun j =>
          decide (j.finishTime < j.arrivalTime + j.burstTime)) = true := by
      decide +kernel
    obtain ⟨w, hw, hearly⟩ := (Option.any_eq_true _ _).mp hrun
    refine ⟨w, (runs_single _ _ 1).threads hw, ?_⟩
    simpa using hearly

end CseOs.SchedSim
