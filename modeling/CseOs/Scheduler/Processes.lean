import CseOs.Framework.WhileLoop

/-!
# `scheduler.c`

The loops of `srtf` and `rr` over an array of processes. The arrays of the Gantt chart have 200 entries
and the clock is an `int`; what happens when either overflows is not defined.
-/

namespace CseOs.Scheduler

open Framework

structure Process where
  pid : Int
  arrival : Int
  burst : Int
  remaining : Int
  turnaround : Int
  waiting : Int
  response : Int
  started : Bool
  completion : Int
  deriving DecidableEq, Repr

/-- A process before a scheduler is called on it. -/
def newProcess (pid arrival burst : Int) : Process :=
  ⟨pid, arrival, burst, burst, 0, 0, 0, false, 0⟩

namespace Process

/-- The response time is set when the process runs for the first time. -/
def start (p : Process) (time : Int) : Process :=
  if p.started then p else { p with response := time - p.arrival, started := true }

def run (p : Process) (execTime : Int) : Process := { p with remaining := p.remaining - execTime }

/-- The values of a process that has nothing left to run. -/
def finish (p : Process) (time : Int) : Process :=
  if p.remaining = 0 then
    { p with
      completion := time
      turnaround := time - p.arrival
      waiting := time - p.arrival - p.burst }
  else p

variable (p : Process) (time execTime : Int)

@[simp] theorem start_pid : (p.start time).pid = p.pid := by
  rw [start]
  split <;> rfl

@[simp] theorem start_arrival : (p.start time).arrival = p.arrival := by
  rw [start]
  split <;> rfl

@[simp] theorem start_burst : (p.start time).burst = p.burst := by
  rw [start]
  split <;> rfl

@[simp] theorem start_remaining : (p.start time).remaining = p.remaining := by
  rw [start]
  split <;> rfl

@[simp] theorem run_pid : (p.run execTime).pid = p.pid := rfl

@[simp] theorem run_arrival : (p.run execTime).arrival = p.arrival := rfl

@[simp] theorem run_burst : (p.run execTime).burst = p.burst := rfl

@[simp] theorem run_remaining : (p.run execTime).remaining = p.remaining - execTime := rfl

@[simp] theorem finish_pid : (p.finish time).pid = p.pid := by
  rw [finish]
  split <;> rfl

@[simp] theorem finish_arrival : (p.finish time).arrival = p.arrival := by
  rw [finish]
  split <;> rfl

@[simp] theorem finish_burst : (p.finish time).burst = p.burst := by
  rw [finish]
  split <;> rfl

@[simp] theorem finish_remaining : (p.finish time).remaining = p.remaining := by
  rw [finish]
  split <;> rfl

end Process

/-- Appends to `timeline_pids` and `timeline`. -/
def addEntry (chart : List (Int × Int)) (pid time : Int) : Option (List (Int × Int)) :=
  if chart.length < 200 then some (chart ++ [(pid, time)]) else none

/-- The local variables. `units` lists the process that ran in each unit of time, which the program
itself does not record. -/
structure SrtfSt where
  p : Nat → Process
  time : Int
  completed : Int
  lastPid : Int
  chart : List (Int × Int)
  units : List (Option Int)

/-- The process with the shortest time left among those that have arrived. -/
def srtfShortest (n : Nat) (s : SrtfSt) : Option Nat :=
  (leastIndex (fun j => decide ((s.p j).arrival ≤ s.time ∧ 0 < (s.p j).remaining))
    (fun j => (s.p j).remaining) INT_MAX n).1

def srtfTurn (n : Nat) (s : SrtfSt) : Option SrtfSt :=
  match srtfShortest n s with
  | none => (advance s.time 1).map fun time => { s with time := time, units := s.units ++ [none] }
  | some i =>
    let q := ((s.p i).start s.time).run 1
    (advance s.time 1).bind fun time =>
      (if q.pid ≠ s.lastPid then addEntry s.chart q.pid time else some s.chart).map fun chart =>
        { p := Function.update s.p i (q.finish time)
          time := time
          completed := if q.remaining = 0 then s.completed + 1 else s.completed
          lastPid := q.pid
          chart := chart
          units := s.units ++ [some q.pid] }

def srtfStart (p : Nat → Process) : SrtfSt := ⟨p, 0, 0, -1, [], []⟩

/-- The loop of `srtf` ends in the state `t`. -/
def SrtfReturns (n : Nat) (p : Nat → Process) (t : SrtfSt) : Prop :=
  Returns (fun s => decide (s.completed < (n : Int))) (srtfTurn n) (srtfStart p) t

structure RrSt where
  p : Nat → Process
  time : Int
  done : Bool
  chart : List (Int × Int)

def rrTurn (quantum : Int) (s : RrSt) (i : Nat) : Option RrSt :=
  if 0 < (s.p i).remaining ∧ (s.p i).arrival ≤ s.time then
    let q := (s.p i).start s.time
    let execTime := if q.remaining > quantum then quantum else q.remaining
    (advance s.time execTime).bind fun time =>
      let q := q.run execTime
      (addEntry s.chart q.pid time).map fun chart =>
        { p := Function.update s.p i (q.finish time), time := time, done := false, chart := chart }
  else some s

def rrPass (n : Nat) (quantum : Int) (s : RrSt) : Option RrSt :=
  (List.range n).foldlM (rrTurn quantum) { s with done := true }

def rrStart (n : Nat) (p : Nat → Process) : RrSt :=
  ⟨fun i => if i < n then { p i with started := false } else p i, 0, false, []⟩

/-- The loop of `rr` ends in the state `t`. -/
def RrReturns (n : Nat) (p : Nat → Process) (quantum : Int) (t : RrSt) : Prop :=
  Returns (fun s => !s.done) (rrPass n quantum) (rrStart n p) t

end CseOs.Scheduler
