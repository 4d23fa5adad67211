import CseOs.Framework.RingBuffer
import CseOs.Framework.WorkConserving

/-!
# `cpusim.c`

The loops of `srtf` and `rr` over the jobs that `main` has read, and the ready queue of `rr`.
-/

namespace CseOs.CpuSim

open Framework

def QUEUE_SIZE : Nat := 100

structure Process where
  pid : Int
  arrival : Int
  burst : Int
  completion : Int
  turnaround : Int
  wait : Int
  remaining : Int
  priority : Int
  inQueue : Bool
  complete : Bool
  deriving DecidableEq, Repr

namespace Process

/-- What `main` stores in the cell `i`, of which the other fields are not set. -/
def read (job : Process) (i : Nat) (arrival burst : Int) : Process :=
  { job with
    pid := i + 1
    arrival := arrival
    burst := burst
    priority := 0
    remaining := burst
    complete := false
    inQueue := false }

/-- The values of a job that ends. -/
def finish (job : Process) (time : Int) : Process :=
  { job with
    complete := true
    completion := time
    turnaround := time - job.arrival
    wait := time - job.arrival - job.burst }

end Process

/-- The jobs after `main` has read them. -/
def readJobs (jobs : Nat → Process) (arrival burst : Nat → Int) (i : Nat) : Process :=
  (jobs i).read i (arrival i) (burst i)

/-- Memory that has not been set. -/
def emptyJob : Process := ⟨0, 0, 0, 0, 0, 0, 0, 0, false, false⟩

structure SrtfSt where
  jobs : Nat → Process
  time : Int
  completed : Int

/-- The job with the shortest remaining time among those that have arrived. -/
def srtfShortest (n : Nat) (s : SrtfSt) : Option Nat :=
  (leastIndex (fun i => decide ((s.jobs i).arrival ≤ s.time ∧ (s.jobs i).complete = false ∧
    0 < (s.jobs i).remaining)) (fun i => (s.jobs i).remaining) INT_MAX n).1

def srtfTurn (n : Nat) (s : SrtfSt) : Option SrtfSt :=
  match srtfShortest n s with
  | none => (advance s.time 1).map fun time => { s with time := time }
  | some i =>
    let job := { s.jobs i with remaining := (s.jobs i).remaining - 1 }
    (advance s.time 1).map fun time =>
      { jobs := Function.update s.jobs i (if job.remaining = 0 then job.finish time else job)
        time := time
        completed := if job.remaining = 0 then s.completed + 1 else s.completed }

def srtfStart (jobs : Nat → Process) : SrtfSt := ⟨jobs, 0, 0⟩

/-- The test of the loop of `srtf`. -/
def srtfGoesOn (n : Nat) (s : SrtfSt) : Bool := decide (s.completed < (n : Int))

/-- The loop of `srtf` ends in the state `t`. -/
def SrtfReturns (n : Nat) (jobs : Nat → Process) (t : SrtfSt) : Prop :=
  Returns (srtfGoesOn n) (srtfTurn n) (srtfStart jobs) t

/-- The local variables and the ready queue. `slices` lists the job of each slice with its length, which
the program itself does not record. -/
structure RrSt where
  jobs : Nat → Process
  time : Int
  completed : Int
  queue : RingBuffer Nat
  slices : List (Nat × Int)

def queueEmpty (s : RrSt) : Bool := decide (s.queue.nextread = s.queue.nextwrite)

/-- `enqueue(i); jobs[i].inQueue = true;` for a job that fulfils the test. -/
def enqueueIf (test : Nat → Process → Bool) (s : RrSt) (i : Nat) : RrSt :=
  if test i (s.jobs i) then
    { s with
      queue := s.queue.push i
      jobs := Function.update s.jobs i { s.jobs i with inQueue := true } }
  else s

/-- All jobs that arrive at this point. -/
def enqueueAt (n : Nat) (s : RrSt) : RrSt :=
  (List.range n).foldl
    (enqueueIf fun _ job => decide (job.arrival = s.time ∧ job.inQueue = false)) s

/-- The jobs other than `procIDX` that have arrived since `priorRun`. -/
def enqueueArrived (n procIDX : Nat) (priorRun : Int) (s : RrSt) : RrSt :=
  (List.range n).foldl
    (enqueueIf fun i job => decide (i ≠ procIDX ∧ priorRun < job.arrival ∧ job.arrival ≤ s.time ∧
      job.inQueue = false ∧ job.complete = false)) s

/-- The next arrival, if one is found before the time 100000. -/
def nextArrival (n : Nat) (s : RrSt) : Option Nat × Int :=
  leastIndex (fun i => decide ((s.jobs i).complete = false ∧ (s.jobs i).inQueue = false))
    (fun i => (s.jobs i).arrival) 100000 n

/-- The job `procIDX`, taken from the queue, runs until `time`. -/
def runJob (s : RrSt) (procIDX : Nat) (run time : Int) : RrSt :=
  { s with
    queue := s.queue.pop.2
    jobs := Function.update s.jobs procIDX
      { s.jobs procIDX with remaining := (s.jobs procIDX).remaining - run }
    time := time
    slices := s.slices ++ [(procIDX, run)] }

/-- The running job is done or returns to the queue. -/
def endSlice (s : RrSt) (procIDX : Nat) : RrSt :=
  let job := s.jobs procIDX
  if job.remaining = 0 then
    { s with
      jobs := Function.update s.jobs procIDX { job.finish s.time with inQueue := false }
      completed := s.completed + 1 }
  else { s with queue := s.queue.push procIDX }

def rrSlice (n : Nat) (tq : Int) (s : RrSt) : Option RrSt :=
  let procIDX := s.queue.pop.1
  let remaining := (s.jobs procIDX).remaining
  let run := if remaining > tq then tq else remaining
  (advance s.time run).map fun time =>
    endSlice (enqueueArrived n procIDX s.time (runJob s procIDX run time)) procIDX

def rrTurn (n : Nat) (tq : Int) (s : RrSt) : Option RrSt :=
  if queueEmpty s then
    match nextArrival n s with
    | (none, _) => some s
    | (some _, next) => some (enqueueAt n { s with time := next })
  else rrSlice n tq s

def rrStart (n : Nat) (jobs : Nat → Process) : RrSt :=
  enqueueAt n
    { jobs := jobs
      time := (leastIndex (fun _ => true) (fun i => (jobs i).arrival) 10000 n).2
      completed := 0
      queue := ⟨QUEUE_SIZE, 0, 0, fun _ => 0⟩
      slices := [] }

def rrGoesOn (n : Nat) (s : RrSt) : Bool := decide (s.completed < (n : Int))

/-- The loop of `rr` ends in the state `t`. -/
def RrReturns (n : Nat) (jobs : Nat → Process) (tq : Int) (t : RrSt) : Prop :=
  Returns (rrGoesOn n) (rrTurn n tq) (rrStart n jobs) t

end CseOs.CpuSim
