import CseOs.Framework.Transition
import Mathlib.Data.List.Basic
import Mathlib.Data.Rat.Defs
import Mathlib.Algebra.Order.Ring.Unbundled.Rat

/-!
# The multithreaded scheduler simulator

`scheduler_engine.cpp`, `worker_pool.cpp`, `job.cpp` and the policies: a scheduler thread and one
worker thread for each core share the ready queue, the completed jobs and the policy. A step is
what one thread does while it holds the queue lock, or one unlocked read or write of shared data.
-/

namespace CseOs.SchedSim

open Framework

/-- The operations that the program uses on its times. -/
class FloatOps (τ : Type) where
  lt : τ → τ → Bool
  le : τ → τ → Bool
  eq : τ → τ → Bool
  add : τ → τ → τ
  sub : τ → τ → τ
  ofInt : Int → τ
  /-- 0.001f -/
  slack : τ
  /-- 1e-5f -/
  EPSILON : τ

export FloatOps (lt le slack EPSILON)

/-- Times as exact numbers. -/
instance : FloatOps Rat where
  lt a b := a < b
  le a b := a ≤ b
  eq a b := a = b
  add a b := a + b
  sub a b := a - b
  ofInt n := n
  slack := 1 / 1000
  EPSILON := 1 / 100000

variable {τ σ : Type} [FloatOps τ]

def zero : τ := FloatOps.ofInt 0

/-- `std::max` -/
def max (a b : τ) : τ := if lt a b then b else a

/-- `std::min` -/
def min (a b : τ) : τ := if lt b a then b else a

inductive JobState where
  | NEW
  | READY
  | RUNNING
  | WAITING
  | FINISHED
  deriving DecidableEq, Repr

/-- The arguments of the constructor of a job. -/
structure JobSpec (τ : Type) where
  id : Int
  arrivalTime : τ
  burstTime : τ
  priority : Int
  deriving DecidableEq, Repr

structure Job (τ : Type) extends JobSpec τ where
  remainingTime : τ
  state : JobState
  startTime : τ
  finishTime : τ
  waitingTime : τ
  turnaroundTime : τ
  deriving DecidableEq, Repr

/-- The constructor. -/
def JobSpec.job (j : JobSpec τ) : Job τ where
  toJobSpec := j
  remainingTime := j.burstTime
  state := .NEW
  startTime := FloatOps.ofInt (-1)
  finishTime := FloatOps.ofInt (-1)
  waitingTime := zero
  turnaroundTime := zero

namespace Job

def calculateMetrics (j : Job τ) : Job τ :=
  let j := if le zero j.startTime && le zero j.arrivalTime then
      let w := FloatOps.sub j.startTime j.arrivalTime
      { j with waitingTime := if lt w zero then zero else w }
    else j
  if le zero j.finishTime && le zero j.arrivalTime then
    let t := FloatOps.sub j.finishTime j.arrivalTime
    { j with turnaroundTime := if lt t zero then zero else t }
  else j

end Job

/-- `ISchedulingPolicy`: the private state, and what the calls do to it. The job returned is a
reference into the ready queue. -/
structure Policy (τ σ : Type) where
  start : σ
  getNextJob : List (Job τ) → σ → Option (Job τ) × σ
  onJobCompletion : Job τ → σ → σ
  timeSlice : τ

/-- `std::min_element` -/
def minElement (less : Job τ → Job τ → Bool) : List (Job τ) → Option (Job τ)
  | [] => none
  | j :: js => some (js.foldl (fun best j => if less j best then j else best) j)

/-- `std::max_element` -/
def maxElement (less : Job τ → Job τ → Bool) : List (Job τ) → Option (Job τ)
  | [] => none
  | j :: js => some (js.foldl (fun best j => if less best j then j else best) j)

/-- Earlier arrival first, and the smaller id among equals. -/
def arrivalLess (a b : Job τ) : Bool :=
  if !FloatOps.eq a.arrivalTime b.arrivalTime then lt a.arrivalTime b.arrivalTime else a.id < b.id

def burstLess (a b : Job τ) : Bool :=
  if !FloatOps.eq a.burstTime b.burstTime then lt a.burstTime b.burstTime else arrivalLess a b

def priorityLess (a b : Job τ) : Bool :=
  if a.priority ≠ b.priority then a.priority < b.priority
  else if !FloatOps.eq a.arrivalTime b.arrivalTime then lt b.arrivalTime a.arrivalTime
  else b.id < a.id

/-- A policy without state that runs each job to its end. -/
def runToCompletion (pick : List (Job τ) → Option (Job τ)) : Policy τ Unit where
  start := ()
  getNextJob ready _ := (pick ready, ())
  onJobCompletion _ _ := ()
  timeSlice := FloatOps.ofInt (-1)

def FCFSPolicy : Policy τ Unit := runToCompletion (minElement arrivalLess)

def SJFPolicy : Policy τ Unit := runToCompletion (minElement burstLess)

def PriorityPolicy : Policy τ Unit := runToCompletion (maxElement priorityLess)

def jobInQueue (ready : List (Job τ)) (id : Int) : Bool := ready.any fun j => j.id == id

def findJob (ready : List (Job τ)) (id : Int) : Option (Job τ) := ready.find? fun j => j.id == id

def syncRotationWithReadyQueue (ready : List (Job τ)) (rotation : List Int) : List Int :=
  ready.foldl (fun r j => if r.contains j.id then r else r ++ [j.id])
    (rotation.filter (jobInQueue ready))

/-- The loop that pops job ids until one of them is in the ready queue. -/
def popRotation (ready : List (Job τ)) : List Int → Option (Job τ) × List Int
  | [] => (none, [])
  | id :: rotation =>
    match findJob ready id with
    | some j => (some j, rotation)
    | none => popRotation ready rotation

/-- The constructor throws for a quantum that is not positive. -/
def RoundRobinPolicy (quantum : Int) (_ : 0 < quantum) : Policy τ (List Int) where
  start := []
  getNextJob ready rotation :=
    if ready.isEmpty then (none, [])
    else popRotation ready (syncRotationWithReadyQueue ready rotation)
  onJobCompletion j rotation :=
    let rotation := rotation.filter fun id => id != j.id
    if lt zero j.remainingTime then rotation ++ [j.id] else rotation
  timeSlice := FloatOps.ofInt quantum

/-- Where a worker is in its loop; `executing` holds its copy of the job and the local values. -/
inductive WorkerAt (τ : Type) where
  | loopTest
  | lockQueue
  | executing (job : Job τ) (dispatchTime execution : τ)
  | exited

structure Worker (τ : Type) where
  pc : WorkerAt τ
  localCoreTime : τ

/-- Where the scheduler thread is in its loop. -/
inductive SchedulerAt where
  | arrive
  | check
  | advance
  | stopping
  | exited
  deriving DecidableEq, Repr

/-- One dispatch of a job to a core, which the program itself does not record. -/
structure Slice (τ : Type) where
  id : Int
  core : Nat
  dispatchTime : τ
  execution : τ

def Slice.finish (s : Slice τ) : τ := FloatOps.add s.dispatchTime s.execution

/-- The shared data and the threads. `slices` lists the dispatches in their order. -/
structure World (τ σ : Type) where
  readyQueue : List (Job τ)
  completedJobs : List (Job τ)
  policyState : σ
  simulationRunning : Bool
  activeWorkers : Int
  contextSwitches : Nat
  pending : List (Job τ)
  currentTime : τ
  scheduler : SchedulerAt
  workers : List (Worker τ)
  slices : List (Slice τ)

def hasArrived (currentTime : τ) (j : Job τ) : Bool :=
  le j.arrivalTime (FloatOps.add currentTime EPSILON)

/-- The loop body of `schedulerThread`, lock by lock, and its end. -/
def schedulerStep (w : World τ σ) : Option (World τ σ) :=
  match w.scheduler with
  | .arrive => some { w with
      readyQueue := w.readyQueue ++ (w.pending.takeWhile (hasArrived w.currentTime)).map
        fun j => { j with state := .READY }
      pending := w.pending.dropWhile (hasArrived w.currentTime)
      scheduler := .check }
  | .check =>
    if w.pending.isEmpty && w.readyQueue.isEmpty && w.activeWorkers == 0 then
      some { w with scheduler := .stopping }
    else some { w with scheduler := .advance }
  | .advance =>
    match w.readyQueue, w.pending with
    | [], next :: _ => some { w with
        currentTime := if lt w.currentTime next.arrivalTime then next.arrivalTime else w.currentTime
        scheduler := .arrive }
    | _, _ => some { w with scheduler := .arrive }
  | .stopping => some { w with simulationRunning := false, scheduler := .exited }
  | .exited => none

/-- The slice that a dispatch runs. -/
def executionTime (timeSlice remaining : τ) : τ :=
  let execution := if lt zero timeSlice then min remaining timeSlice else remaining
  if lt execution slack then remaining else execution

/-- What is left after a slice. -/
def newRemaining (remaining execution : τ) : τ :=
  let r := FloatOps.sub remaining execution
  if lt r slack then zero else r

/-- The job that a worker takes when it holds the lock. -/
def selected (p : Policy τ σ) (w : World τ σ) : Option (Job τ) :=
  (p.getNextJob w.readyQueue w.policyState).1.bind fun j => findJob w.readyQueue j.id

/-- The job that a worker copies, as it dispatches it at `dispatchTime`. -/
def dispatched (job : Job τ) (dispatchTime : τ) : Job τ :=
  { job with
    startTime := if lt job.startTime zero then dispatchTime else job.startTime
    state := .RUNNING }

/-- Take a job under the lock. -/
def takeJob (p : Policy τ σ) (i : Nat) (v : Worker τ) (w : World τ σ) : World τ σ :=
  let w' := { w with policyState := (p.getNextJob w.readyQueue w.policyState).2 }
  match selected p w with
  | none => { w' with workers := w.workers.set i { v with pc := .loopTest } }
  | some job =>
    let dispatchTime := max v.localCoreTime job.arrivalTime
    let execution := executionTime p.timeSlice job.remainingTime
    { w' with
      readyQueue := w.readyQueue.eraseP fun j => j.id == job.id
      workers := w.workers.set i { v with
        pc := .executing (dispatched job dispatchTime) dispatchTime execution }
      activeWorkers := w.activeWorkers + 1
      contextSwitches := w.contextSwitches + 1
      slices := w.slices ++ [⟨job.id, i, dispatchTime, execution⟩] }

/-- The job that is finished at `finishTime`. -/
def finishJob (job : Job τ) (finishTime : τ) : Job τ :=
  Job.calculateMetrics { job with
    remainingTime := zero, finishTime := finishTime, state := .FINISHED }

/-- Give the job back under the lock, completed or to the ready queue. -/
def giveBack (p : Policy τ σ) (i : Nat) (job : Job τ) (dispatchTime execution : τ) (w : World τ σ) :
    World τ σ :=
  let finishTime := FloatOps.add dispatchTime execution
  let remaining := newRemaining job.remainingTime execution
  let w := { w with
    workers := w.workers.set i ⟨.loopTest, finishTime⟩
    activeWorkers := w.activeWorkers - 1 }
  if le remaining slack then
    let job := finishJob job finishTime
    { w with
      policyState := p.onJobCompletion job w.policyState
      completedJobs := w.completedJobs ++ [job] }
  else
    let job := { job with remainingTime := remaining, state := .READY }
    { w with
      readyQueue := w.readyQueue ++ [job]
      policyState := p.onJobCompletion job w.policyState }

/-- One step of the worker of core `i`. A worker whose wait is not over makes no step. -/
def workerStep (p : Policy τ σ) (i : Nat) (w : World τ σ) : Option (World τ σ) := do
  let v ← w.workers[i]?
  match v.pc with
  | .loopTest =>
    let next := if w.simulationRunning || !w.readyQueue.isEmpty then .lockQueue else .exited
    some { w with workers := w.workers.set i { v with pc := next } }
  | .lockQueue =>
    if w.readyQueue.isEmpty then
      if w.simulationRunning then none
      else some { w with workers := w.workers.set i { v with pc := .exited } }
    else some (takeJob p i v w)
  | .executing job dispatchTime execution => some (giveBack p i job dispatchTime execution w)
  | .exited => none

inductive ThreadId where
  | scheduler
  | core (i : Nat)
  deriving DecidableEq, Repr

/-- One step of a thread. -/
def step (p : Policy τ σ) (t : ThreadId) (w : World τ σ) : Option (World τ σ) :=
  match t with
  | .scheduler => schedulerStep w
  | .core i => workerStep p i w

/-- The threads as `run` starts them, for at least one job. -/
def started (p : Policy τ σ) (first : Job τ) (rest : List (Job τ)) (numCores : Nat) : World τ σ where
  readyQueue := []
  completedJobs := []
  policyState := p.start
  simulationRunning := true
  activeWorkers := 0
  contextSwitches := 0
  pending := first :: rest
  currentTime := first.arrivalTime
  scheduler := .arrive
  workers := List.replicate numCores ⟨.loopTest, zero⟩
  slices := []

/-- `std::sort` by arrival. -/
def sortJobs (jobs : List (Job τ)) : List (Job τ) := jobs.mergeSort fun a b => !arrivalLess b a

/-- The states in which the threads start. -/
def Initial (p : Policy τ σ) (specs : List (JobSpec τ)) (numCores : Nat) (w : World τ σ) : Prop :=
  ∃ first rest, sortJobs (specs.map JobSpec.job) = first :: rest ∧ w = started p first rest numCores

def Steps (p : Policy τ σ) (w w' : World τ σ) : Prop := ∃ t, step p t w = some w'

/-- The states of all interleavings. -/
def Runs (p : Policy τ σ) (specs : List (JobSpec τ)) (numCores : Nat) : World τ σ → Prop :=
  Reachable (Initial p specs numCores) (Steps p)

/-- The steps of the threads in the order given. -/
def runThreads (p : Policy τ σ) : List ThreadId → World τ σ → Option (World τ σ)
  | [], w => some w
  | t :: ts, w => (step p t w).bind (runThreads p ts)

theorem Runs.threads {p : Policy τ σ} {specs : List (JobSpec τ)} {numCores : Nat}
    {w w' : World τ σ} {ts : List ThreadId} (h : Runs p specs numCores w)
    (hrun : runThreads p ts w = some w') : Runs p specs numCores w' := by
  induction ts generalizing w with
  | nil =>
    cases hrun
    exact h
  | cons t ts ih =>
    obtain ⟨w₁, ht, hrest⟩ := Option.bind_eq_some_iff.mp hrun
    exact ih (Reachable.next h ⟨t, ht⟩) hrest

theorem runs_single (p : Policy τ σ) (j : JobSpec τ) (numCores : Nat) :
    Runs p [j] numCores (started p j.job [] numCores) := by
  apply Reachable.start
  exact ⟨j.job, [], List.mergeSort_singleton .., rfl⟩

/-- All threads have been joined. -/
def Joined (w : World τ σ) : Prop :=
  w.scheduler = .exited ∧ ∀ v ∈ w.workers, v.pc = .exited

def Worker.isExited (v : Worker τ) : Bool :=
  match v.pc with
  | .exited => true
  | _ => false

/-- `Joined`, as a test. -/
def joined (w : World τ σ) : Bool := w.scheduler == .exited && w.workers.all Worker.isExited

omit [FloatOps τ] in
theorem joined_iff {w : World τ σ} : joined w = true ↔ Joined w := by
  rw [joined, Joined, Bool.and_eq_true, beq_iff_eq, List.all_eq_true]
  apply and_congr_right
  intro _
  apply forall_congr'
  intro v
  rw [Worker.isExited]
  cases v.pc <;> simp

/-- The completed jobs of the result, with those that `collectCompletedJobs` finds. -/
def collected (w : World τ σ) : List (Job τ) :=
  w.completedJobs ++ w.readyQueue.filter fun j => j.state == .FINISHED

/-- `run` returns these completed jobs. -/
def Returns (p : Policy τ σ) (specs : List (JobSpec τ)) (numCores : Int) (completed : List (Job τ)) :
    Prop :=
  if specs = [] ∨ numCores ≤ 0 then completed = []
  else ∃ w, Runs p specs numCores.toNat w ∧ Joined w ∧ completed = collected w

end CseOs.SchedSim
