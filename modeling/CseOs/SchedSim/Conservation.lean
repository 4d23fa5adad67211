import CseOs.SchedSim.Engine
import Mathlib.Algebra.Order.Group.Multiset
import Mathlib.Tactic.Abel

/-!
# No job is lost

In every interleaving the jobs are those pending, ready, in the hands of a worker and completed,
and the counter of active workers counts the jobs in hand. The scheduler thread stops when no job
is pending, ready or in hand, and then no job can become so again.
-/

namespace CseOs.SchedSim

open Framework

variable {τ σ : Type} {w w' : World τ σ} {i : Nat} {v : Worker τ}

/-- The job in the hands of a worker. -/
def Worker.job? (v : Worker τ) : Option (Job τ) :=
  match v.pc with
  | .executing job _ _ => some job
  | _ => none

def inHand (w : World τ σ) : List (Job τ) := w.workers.filterMap Worker.job?

/-- The jobs of a list by the arguments that they were made from. -/
def specsOf (js : List (Job τ)) : Multiset (JobSpec τ) := ↑(js.map Job.toJobSpec)

@[simp] theorem specsOf_nil : specsOf ([] : List (Job τ)) = 0 := rfl

@[simp] theorem specsOf_append (js js' : List (Job τ)) :
    specsOf (js ++ js') = specsOf js + specsOf js' := by
  rw [specsOf, List.map_append, ← Multiset.coe_add]
  rfl

private theorem specsOf_perm {js js' : List (Job τ)} (h : js.Perm js') : specsOf js = specsOf js' :=
  Multiset.coe_eq_coe.mpr (h.map Job.toJobSpec)

theorem filterMap_set_perm {α β : Type} (f : α → Option β) {l : List α} {a : α} (b : α)
    (h : l[i]? = some a) :
    ((l.set i b).filterMap f ++ (f a).toList).Perm (l.filterMap f ++ (f b).toList) := by
  induction l generalizing i with
  | nil => simp at h
  | cons c l ih =>
    cases i with
    | zero =>
      rw [List.getElem?_cons_zero, Option.some_inj] at h
      subst h
      have happ : ∀ x : α, (x :: l).filterMap f = (f x).toList ++ l.filterMap f := by
        intro x
        rw [List.filterMap_cons]
        cases f x <;> rfl
      rw [List.set_cons_zero, happ, happ]
      apply Multiset.coe_eq_coe.mp
      simp only [← Multiset.coe_add]
      abel
    | succ i =>
      have := ih (by simpa using h)
      rw [List.set_cons_succ, List.filterMap_cons, List.filterMap_cons]
      cases f c with
      | none => exact this
      | some d => exact this.cons d

private theorem find?_eraseP_perm {α : Type} {q : α → Bool} {l : List α} {a : α} (h : l.find? q = some a) :
    l.Perm (a :: l.eraseP q) := by
  induction l with
  | nil => simp at h
  | cons b l ih =>
    rw [List.find?_cons] at h
    by_cases hb : q b = true
    · simp only [hb] at h
      cases h
      rw [List.eraseP_cons_of_pos hb]
    · simp only [hb] at h
      rw [List.eraseP_cons_of_neg hb]
      exact ((ih h).cons b).trans (List.Perm.swap a b _)

theorem inHand_set (hv : w.workers[i]? = some v) (v' : Worker τ) :
    ((w.workers.set i v').filterMap Worker.job? ++ v.job?.toList).Perm
      (inHand w ++ v'.job?.toList) :=
  filterMap_set_perm Worker.job? v' hv

private theorem inHand_set_idle (hv : w.workers[i]? = some v) {v' : Worker τ} (hidle : v.job? = none)
    (hidle' : v'.job? = none) : ((w.workers.set i v').filterMap Worker.job?).Perm (inHand w) := by
  have := inHand_set hv v'
  rwa [hidle, hidle', Option.toList_none, List.append_nil, List.append_nil] at this

section Run

variable [FloatOps τ] {p : Policy τ σ} {specs : List (JobSpec τ)} {numCores : Nat}

/-- The invariant of all interleavings. -/
structure Conserved (specs : List (JobSpec τ)) (w : World τ σ) : Prop where
  jobs : specsOf w.pending + specsOf w.readyQueue + specsOf (inHand w) + specsOf w.completedJobs =
    (specs : Multiset (JobSpec τ))
  active : w.activeWorkers = (inHand w).length
  drained : w.scheduler = .stopping ∨ w.scheduler = .exited →
    w.pending = [] ∧ w.readyQueue = [] ∧ inHand w = []
  done : ∀ j ∈ w.completedJobs, j.remainingTime = zero

theorem Conserved.distinct (h : Conserved specs w) (hids : (specs.map fun j => j.id).Nodup) :
    ((w.readyQueue ++ w.pending ++ inHand w).map fun j => j.id).Nodup := by
  have hall : specsOf (w.readyQueue ++ w.pending ++ inHand w ++ w.completedJobs) =
      (specs : Multiset (JobSpec τ)) := by
    rw [specsOf_append, specsOf_append, specsOf_append, ← h.jobs]
    abel
  have hperm := (Multiset.coe_eq_coe.mp hall).map fun j => j.id
  rw [List.map_map] at hperm
  have hnodup := hperm.nodup_iff.mpr hids
  rw [List.map_append] at hnodup
  exact (List.nodup_append.mp hnodup).1

private theorem conserved_initial (h : Initial p specs numCores w) : Conserved specs w := by
  obtain ⟨first, rest, hsort, rfl⟩ := h
  have hidle : inHand (started p first rest numCores) = [] := by
    rw [inHand, List.filterMap_eq_nil_iff]
    intro v hv
    rw [List.eq_of_mem_replicate hv]
    rfl
  constructor
  · have hperm : (first :: rest).Perm (specs.map JobSpec.job) := by
      rw [← hsort]
      exact List.mergeSort_perm ..
    have hspecs : (specs.map JobSpec.job).map Job.toJobSpec = specs := by
      rw [List.map_map]
      exact List.map_id _
    have hall : specsOf (first :: rest) = (specs : Multiset (JobSpec τ)) := by
      rw [specsOf_perm hperm, specsOf, hspecs]
    rw [hidle]
    show specsOf (first :: rest) + 0 + 0 + 0 = _
    rw [hall]
    abel
  · rw [hidle]
    rfl
  · intro hs
    cases hs <;> contradiction
  · exact fun j hj => absurd hj List.not_mem_nil

/-- What a step of the worker `v` of core `i` is. -/
inductive WorkerStep (p : Policy τ σ) (i : Nat) (v : Worker τ) (w w' : World τ σ) : Prop where
  | idle (v' : Worker τ) (hidle : v.job? = none) (hidle' : v'.job? = none)
      (hclock : v'.localCoreTime = v.localCoreTime)
      (heq : w' = { w with workers := w.workers.set i v' })
  | take (hpc : v.pc = .lockQueue) (hready : w.readyQueue ≠ []) (heq : w' = takeJob p i v w)
  | giveBack (job : Job τ) (dispatchTime execution : τ)
      (hpc : v.pc = .executing job dispatchTime execution)
      (heq : w' = SchedSim.giveBack p i job dispatchTime execution w)

theorem workerStep_cases (hs : workerStep p i w = some w') :
    ∃ v, w.workers[i]? = some v ∧ WorkerStep p i v w w' := by
  rw [workerStep] at hs
  cases hv : w.workers[i]? with
  | none =>
    rw [hv] at hs
    cases hs
  | some v =>
    rw [hv] at hs
    simp only [Option.bind_eq_bind, Option.bind_some] at hs
    refine ⟨v, rfl, ?_⟩
    cases hpc : v.pc with
    | loopTest =>
      simp only [hpc] at hs
      cases hs
      refine .idle { v with pc := if w.simulationRunning || !w.readyQueue.isEmpty then .lockQueue
        else .exited } (by rw [Worker.job?, hpc]) ?_ rfl rfl
      rw [Worker.job?]
      split
      · next heq => split at heq <;> cases heq
      · rfl
    | lockQueue =>
      simp only [hpc] at hs
      split at hs
      · split at hs
        · cases hs
        · cases hs
          exact .idle ⟨.exited, v.localCoreTime⟩ (by rw [Worker.job?, hpc]) rfl rfl rfl
      · next hready =>
        cases hs
        exact .take hpc (fun hnil => hready (by rw [hnil]; rfl)) rfl
    | executing job dispatchTime execution =>
      simp only [hpc] at hs
      cases hs
      exact .giveBack job dispatchTime execution hpc rfl
    | exited =>
      simp only [hpc] at hs
      cases hs

theorem calculateMetrics_eq (j : Job τ) : j.calculateMetrics = { j with
    waitingTime := j.calculateMetrics.waitingTime
    turnaroundTime := j.calculateMetrics.turnaroundTime } := by
  rw [Job.calculateMetrics]
  split
  · split <;> rfl
  · split <;> rfl

theorem finishJob_spec (job : Job τ) (t : τ) : (finishJob job t).toJobSpec = job.toJobSpec := by
  rw [finishJob, calculateMetrics_eq]

theorem finishJob_remaining (job : Job τ) (t : τ) : (finishJob job t).remainingTime = zero := by
  rw [finishJob, calculateMetrics_eq]

private theorem Conserved.scheduler (h : Conserved specs w) (hs : schedulerStep w = some w') :
    Conserved specs w' := by
  rw [schedulerStep] at hs
  cases hat : w.scheduler with
  | arrive =>
    rw [hat] at hs
    cases hs
    refine ⟨?_, h.active, fun hs => by cases hs <;> contradiction, h.done⟩
    have hready : ∀ js : List (Job τ), specsOf (js.map fun j => { j with state := .READY }) =
        specsOf js := by
      intro js
      rw [specsOf, List.map_map]
      rfl
    have hpending : specsOf w.pending = specsOf (w.pending.takeWhile (hasArrived w.currentTime)) +
        specsOf (w.pending.dropWhile (hasArrived w.currentTime)) := by
      rw [← specsOf_append, List.takeWhile_append_dropWhile]
    have := h.jobs
    rw [hpending] at this
    show specsOf (w.pending.dropWhile _) + specsOf (w.readyQueue ++ _) + specsOf (inHand w) +
      specsOf w.completedJobs = _
    rw [specsOf_append, hready, ← this]
    abel
  | check =>
    rw [hat] at hs
    simp only at hs
    split at hs
    · next hempty =>
      cases hs
      simp only [Bool.and_eq_true, List.isEmpty_iff, beq_iff_eq] at hempty
      refine ⟨h.jobs, h.active, fun _ => ⟨hempty.1.1, hempty.1.2, ?_⟩, h.done⟩
      have hlen := h.active
      rw [hempty.2] at hlen
      show inHand w = []
      exact List.length_eq_zero_iff.mp (by omega)
    · cases hs
      exact ⟨h.jobs, h.active, fun hs => by cases hs <;> contradiction, h.done⟩
  | advance =>
    rw [hat] at hs
    simp only at hs
    split at hs
    · cases hs
      exact ⟨h.jobs, h.active, fun hs => by cases hs <;> contradiction, h.done⟩
    · cases hs
      exact ⟨h.jobs, h.active, fun hs => by cases hs <;> contradiction, h.done⟩
  | stopping =>
    rw [hat] at hs
    cases hs
    exact ⟨h.jobs, h.active, fun _ => h.drained (.inl hat), h.done⟩
  | exited =>
    rw [hat] at hs
    cases hs

theorem Conserved.idle (h : Conserved specs w) (hv : w.workers[i]? = some v) {v' : Worker τ}
    (hidle : v.job? = none) (hidle' : v'.job? = none) (pol : σ) :
    Conserved specs { w with policyState := pol, workers := w.workers.set i v' } := by
  have hperm := inHand_set_idle hv hidle hidle'
  constructor
  · show _ + _ + specsOf ((w.workers.set i v').filterMap Worker.job?) + _ = _
    rw [specsOf_perm hperm]
    exact h.jobs
  · show _ = (((w.workers.set i v').filterMap Worker.job?).length : Int)
    rw [hperm.length_eq]
    exact h.active
  · intro hs
    obtain ⟨hp, hr, hh⟩ := h.drained hs
    refine ⟨hp, hr, ?_⟩
    rw [hh] at hperm
    exact hperm.eq_nil
  · exact h.done

private theorem Conserved.take (h : Conserved specs w) (hv : w.workers[i]? = some v)
    (hidle : v.job? = none) (hready : w.readyQueue ≠ []) : Conserved specs (takeJob p i v w) := by
  rw [takeJob]
  cases hsel : selected p w with
  | none => exact h.idle hv hidle rfl _
  | some job =>
    obtain ⟨j, _, hfind⟩ := Option.bind_eq_some_iff.mp hsel
    have hid : job.id = j.id := by simpa using List.find?_some hfind
    have herase : w.readyQueue.Perm (job :: w.readyQueue.eraseP fun k => k.id == job.id) := by
      rw [hid]
      exact find?_eraseP_perm hfind
    have hset := inHand_set hv ⟨.executing (dispatched job (max v.localCoreTime job.arrivalTime))
      (max v.localCoreTime job.arrivalTime) (executionTime p.timeSlice job.remainingTime),
      v.localCoreTime⟩
    rw [hidle, Option.toList_none, List.append_nil] at hset
    constructor
    · have hjobs := h.jobs
      rw [specsOf_perm herase] at hjobs
      show specsOf w.pending + specsOf (w.readyQueue.eraseP _) + specsOf (List.filterMap _ _) +
        specsOf w.completedJobs = _
      rw [specsOf_perm hset, ← hjobs, specsOf_append]
      have hcons : specsOf (job :: w.readyQueue.eraseP fun k => k.id == job.id) =
          specsOf [job] + specsOf (w.readyQueue.eraseP fun k => k.id == job.id) :=
        specsOf_append [job] _
      rw [hcons]
      show _ + _ + (specsOf (inHand w) + specsOf [job]) + _ = _
      abel
    · have hlen := hset.length_eq
      rw [List.length_append] at hlen
      show w.activeWorkers + 1 = ((List.filterMap Worker.job? _).length : Int)
      rw [hlen, h.active]
      rfl
    · exact fun hs => absurd (h.drained hs).2.1 hready
    · exact h.done

private theorem Conserved.giveBack {job : Job τ} {dispatchTime execution : τ} (h : Conserved specs w)
    (hv : w.workers[i]? = some v) (hpc : v.pc = .executing job dispatchTime execution) :
    Conserved specs (giveBack p i job dispatchTime execution w) := by
  have hjob : v.job? = some job := by rw [Worker.job?, hpc]
  have hset := inHand_set hv ⟨.loopTest, FloatOps.add dispatchTime execution⟩
  rw [hjob] at hset
  have hset : ((w.workers.set i ⟨.loopTest, FloatOps.add dispatchTime execution⟩).filterMap
      Worker.job? ++ [job]).Perm (inHand w) := by
    have := hset
    rwa [show (⟨.loopTest, FloatOps.add dispatchTime execution⟩ : Worker τ).job? = none from rfl,
      Option.toList_none, List.append_nil] at this
  have hheld : inHand w ≠ [] := by
    intro hnil
    rw [hnil] at hset
    simpa using hset.eq_nil
  have hactive : w.activeWorkers - 1 = (((w.workers.set i ⟨.loopTest,
      FloatOps.add dispatchTime execution⟩).filterMap Worker.job?).length : Int) := by
    have hlen := hset.length_eq
    rw [List.length_append, List.length_singleton] at hlen
    rw [h.active, ← hlen]
    omega
  have hjobs := h.jobs
  rw [← specsOf_perm hset, specsOf_append] at hjobs
  rw [SchedSim.giveBack]
  split
  · constructor
    · show specsOf w.pending + specsOf w.readyQueue + specsOf (List.filterMap _ _) +
        specsOf (w.completedJobs ++ [_]) = _
      rw [specsOf_append, ← hjobs]
      have hspec : specsOf [finishJob job (FloatOps.add dispatchTime execution)] = specsOf [job] := by
        rw [specsOf, specsOf, List.map_singleton, List.map_singleton, finishJob_spec]
      rw [hspec]
      abel
    · exact hactive
    · exact fun hs => absurd (h.drained hs).2.2 hheld
    · intro j hj
      rcases List.mem_append.mp hj with hj | hj
      · exact h.done j hj
      · rw [List.mem_singleton.mp hj]
        exact finishJob_remaining job _
  · constructor
    · show specsOf w.pending + specsOf (w.readyQueue ++ [_]) + specsOf (List.filterMap _ _) +
        specsOf w.completedJobs = _
      rw [specsOf_append, ← hjobs]
      show _ + (_ + specsOf [job]) + _ + _ = _
      abel
    · exact hactive
    · exact fun hs => absurd (h.drained hs).2.2 hheld
    · exact h.done

private theorem Conserved.worker (h : Conserved specs w) (hs : workerStep p i w = some w') :
    Conserved specs w' := by
  obtain ⟨v, hv, hcase⟩ := workerStep_cases hs
  cases hcase with
  | idle v' hidle hidle' _ heq =>
    rw [heq]
    exact h.idle hv hidle hidle' w.policyState
  | take hpc hready heq =>
    rw [heq]
    exact h.take hv (by rw [Worker.job?, hpc]) hready
  | giveBack job dispatchTime execution hpc heq =>
    rw [heq]
    exact h.giveBack hv hpc

/-- The invariant holds in every state of every interleaving. -/
theorem runs_conserved (h : Runs p specs numCores w) : Conserved specs w := by
  apply Reachable.invariant (fun _ => conserved_initial) _ h
  intro w w' _ hw ⟨t, ht⟩
  cases t with
  | scheduler => exact hw.scheduler ht
  | core i => exact hw.worker ht

/-- Whatever the interleaving, the completed jobs that `run` returns are the jobs it was given,
each with nothing left to run. -/
theorem run_conserves {cores : Int} {completed : List (Job τ)} (hcores : 0 < cores)
    (h : Returns p specs cores completed) :
    (completed.map Job.toJobSpec).Perm specs ∧ ∀ j ∈ completed, j.remainingTime = zero := by
  rw [Returns] at h
  split at h
  · next hearly =>
    have hnil := hearly.resolve_right (by omega)
    rw [h, hnil]
    exact ⟨.nil, fun j hj => absurd hj List.not_mem_nil⟩
  · obtain ⟨w, hrun, ⟨hsched, hexit⟩, rfl⟩ := h
    have hw := runs_conserved hrun
    obtain ⟨hpending, hready, hhand⟩ := hw.drained (.inr hsched)
    have hcollected : collected w = w.completedJobs := by
      rw [collected, hready, List.filter_nil, List.append_nil]
    rw [hcollected]
    refine ⟨?_, hw.done⟩
    apply Multiset.coe_eq_coe.mp
    have := hw.jobs
    rw [hpending, hready, hhand, specsOf_nil, zero_add, zero_add, zero_add] at this
    exact this

end Run

/-- A job of the length `burst` that arrives at once. -/
def sampleJob (burst : Rat) : JobSpec Rat := ⟨1, 0, burst, 0⟩

/-- A core that takes a job and gives it back -/
def serveOnce (i : Nat) : List ThreadId := [.core i, .core i, .core i]

/-- Two cores take turns with two jobs, and all threads exit. -/
def sampleRun : List ThreadId :=
  .scheduler :: (serveOnce 0 ++ serveOnce 1 ++ serveOnce 1 ++ serveOnce 0 ++ serveOnce 1) ++
    [.scheduler, .scheduler, .core 0, .core 1]

theorem run_conserves_example :
    ∃ completed, Returns (RoundRobinPolicy 1 Int.one_pos) [⟨1, (0 : Rat), 2, 0⟩, ⟨2, 0, 3, 0⟩] 2 completed ∧
      (completed.map Job.toJobSpec).Perm [⟨1, 0, 2, 0⟩, ⟨2, 0, 3, 0⟩] ∧
      ∀ j ∈ completed, j.remainingTime = zero := by
  have hrun : ((runThreads (RoundRobinPolicy 1 Int.one_pos) sampleRun
      (started (RoundRobinPolicy 1 Int.one_pos) (JobSpec.job ⟨1, (0 : Rat), 2, 0⟩)
        [JobSpec.job ⟨2, 0, 3, 0⟩] 2)).any joined) = true := by
    decide +kernel
  obtain ⟨w, hw, hjoined⟩ := (Option.any_eq_true _ _).mp hrun
  have hstart : Runs (RoundRobinPolicy 1 Int.one_pos) [⟨1, (0 : Rat), 2, 0⟩, ⟨2, 0, 3, 0⟩] 2
      (started (RoundRobinPolicy 1 Int.one_pos) (JobSpec.job ⟨1, (0 : Rat), 2, 0⟩)
        [JobSpec.job ⟨2, 0, 3, 0⟩] 2) := by
    apply Reachable.start
    exact ⟨_, _, List.mergeSort_of_pairwise (by decide +kernel), rfl⟩
  have hret : Returns (RoundRobinPolicy 1 Int.one_pos) [⟨1, (0 : Rat), 2, 0⟩, ⟨2, 0, 3, 0⟩] 2 (collected w) := by
    rw [Returns, if_neg (by decide)]
    exact ⟨w, hstart.threads hw, joined_iff.mp hjoined, rfl⟩
  exact ⟨collected w, hret, run_conserves (by decide) hret⟩

end CseOs.SchedSim
