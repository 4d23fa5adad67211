import CseOs.Framework.ArrayQueue

/-!
# The multi-level scheduler

`schedule-main.c` with the policies of its four queues, `rr.c`, `srtrf.c`, `fifo.c` and `sjf.c`.
A process is named by its index in `procArray`. `none` as an outcome is an invalid access or the
exit at a priority that is none of the four.
-/

namespace CseOs.MultiLevel

open Framework

abbrev Ptr := Nat

structure Process where
  remainingTime : Int
  arrivalTime : Int
  finishTime : Int
  priority : Int
  deriving DecidableEq, Repr

inductive QueueTypes where
  | ROUNDROBIN
  | STCF
  | FIFO
  | SJF
  deriving DecidableEq, Repr

namespace QueueTypes

/-- The priority whose processes go to the queue. -/
def priority : QueueTypes → Int
  | ROUNDROBIN => 1
  | STCF => 2
  | FIFO => 3
  | SJF => 4

end QueueTypes

/-- A line of the output. -/
inductive Line where
  | executing (time : Nat) (p : Ptr) (q : QueueTypes)
  | noOp (time : Nat)
  deriving DecidableEq, Repr

/-- The memory of the program: the processes, for each queue its array and its number of
entries, the static variables of `rr.c` and `sjf.c` (no `curr_task` is -1) and the output. -/
structure State where
  proc : Ptr → Process
  queue : QueueTypes → Nat → Option Ptr
  idx : QueueTypes → Nat
  counter : Nat
  tq : Int
  curr_task : Option Nat
  output : List Line

def INT_MAX : Int := 2147483647

def timeQuantum : Int := 1

namespace State

def setProc (p : Ptr) (f : Process → Process) (s : State) : State :=
  { s with proc := Function.update s.proc p (f (s.proc p)) }

def setQueue (q : QueueTypes) (a : Nat → Option Ptr) (n : Nat) (s : State) : State :=
  { s with queue := Function.update s.queue q a, idx := Function.update s.idx q n }

end State

open State

/-- Print the line, take a tick off the process in slot `i` of the queue, and set its finish time
when `done` holds of what remains. -/
def execute (done : Int → Bool) (q : QueueTypes) (i : Nat) (globalTime : Nat) (s : State) :
    Option (Bool × State) := do
  let p ← s.queue q i
  let r := (s.proc p).remainingTime - 1
  let s := { s with output := s.output ++ [Line.executing globalTime p q] }
  let s := s.setProc p fun th => { th with remainingTime := r }
  if done r then
    some (true, s.setProc p fun th => { th with finishTime := (globalTime : Int) + 1 })
  else some (false, s)

/-- Close the gap at slot `i` with `k` moves and count one entry less. -/
def remove (q : QueueTypes) (k i : Nat) (s : State) : State :=
  s.setQueue q (shiftDown k i (s.queue q)) (s.idx q - 1)

def rr (globalTime : Nat) (s : State) : Option State := do
  let turn := s.counter % s.idx .ROUNDROBIN
  let (finished, s) ← execute (fun r => r ≤ 0) .ROUNDROBIN turn globalTime s
  if finished then
    let s := remove .ROUNDROBIN (s.idx .ROUNDROBIN - 1 - turn) turn s
    some { s with tq := timeQuantum }
  else
    let s := { s with tq := s.tq - 1 }
    if s.tq ≤ 0 then some { s with tq := timeQuantum, counter := s.counter + 1 } else some s

def srtrf (globalTime : Nat) (s : State) : Option State := do
  let pid ← scanBest (fun r srt => r ≤ srt) (fun p => (s.proc p).remainingTime) (s.queue .STCF)
    (s.idx .STCF) 0 INT_MAX none
  let pid ← pid
  let (finished, s) ← execute (fun r => r == 0) .STCF pid globalTime s
  -- the loop reads one slot past the entries
  if finished then some (remove .STCF (s.idx .STCF - pid) pid s) else some s

def fifo (globalTime : Nat) (s : State) : Option State := do
  let (finished, s) ← execute (fun r => r == 0) .FIFO 0 globalTime s
  if finished then
    let s := s.setQueue .FIFO (Function.update (s.queue .FIFO) 0 none) (s.idx .FIFO)
    some (remove .FIFO (s.idx .FIFO - 1) 0 s)
  else some s

/-- The part of `sjf` after the choice of `curr_task`; index -1 is no slot. -/
def sjfRun (globalTime : Nat) (s : State) : Option State := do
  let task ← s.curr_task
  let (finished, s) ← execute (fun r => r == 0) .SJF task globalTime s
  if finished then
    let s := remove .SJF (s.idx .SJF - 1 - task) task s
    some { s with curr_task := none }
  else some s

def sjf (globalTime : Nat) (s : State) : Option State :=
  if s.idx .SJF = 0 then some s
  else if s.curr_task ≠ none then sjfRun globalTime s
  else do
    let task ← scanBest (fun r shortest => r < shortest) (fun p => (s.proc p).remainingTime)
      (s.queue .SJF) (s.idx .SJF) 0 INT_MAX none
    sjfRun globalTime { s with curr_task := task }

def enqueue (q : QueueTypes) (p : Ptr) (s : State) : State :=
  s.setQueue q (Function.update (s.queue q) (s.idx q) (some p)) (s.idx q + 1)

/-- Queue the process when it arrives now. -/
def arrive (t : Nat) (p : Ptr) (s : State) : Option State :=
  if (s.proc p).arrivalTime = t then
    if (s.proc p).priority = 1 then some (enqueue .ROUNDROBIN p s)
    else if (s.proc p).priority = 2 then some (enqueue .STCF p s)
    else if (s.proc p).priority = 3 then some (enqueue .FIFO p s)
    else if (s.proc p).priority = 4 then some (enqueue .SJF p s)
    else none
  else some s

/-- `for(int i=0; i<procArraySize; i++)` over the processes. -/
def arriveAll (t : Nat) : List Ptr → State → Option State
  | [], s => some s
  | p :: ps, s => (arrive t p s).bind (arriveAll t ps)

/-- Execute a process of the highest queue that is not empty. -/
def runHighest (t : Nat) (s : State) : Option State :=
  if s.idx .ROUNDROBIN ≠ 0 then rr t s
  else if s.idx .STCF ≠ 0 then srtrf t s
  else if s.idx .FIFO ≠ 0 then fifo t s
  else if s.idx .SJF ≠ 0 then sjf t s
  else some { s with output := s.output ++ [Line.noOp t] }

/-- One round of the loop. -/
def tick (procArraySize t : Nat) (s : State) : Option State :=
  (arriveAll t (List.range procArraySize) s).bind (runHighest t)

/-- The state before the loop; `memory` is what the slots of the arrays hold, which the program
sets to NULL up to the size of the arrays. -/
def initial (procArray : List Process) (memory : QueueTypes → Nat → Option Ptr) : State where
  proc := fun p => procArray.getD p ⟨0, 0, 0, 0⟩
  queue := fun q i => if i < procArray.length then none else memory q i
  idx := fun _ => 0
  counter := 0
  tq := timeQuantum
  curr_task := none
  output := []

/-- The state of `scheduleMain` before tick number `t`, if it gets there. -/
def stateAt (procArray : List Process) (memory : QueueTypes → Nat → Option Ptr) :
    Nat → Option State
  | 0 => some (initial procArray memory)
  | t + 1 => (stateAt procArray memory t).bind (tick procArray.length t)

end CseOs.MultiLevel
