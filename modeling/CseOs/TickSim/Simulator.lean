import Mathlib

/-!
# The tick simulator

`util.c`, `cpu.c`, `dispatch.c` and the loop of `sim.c`: threads move between linked queues and
cores, one clock tick after the other. Threads are numbered as they are made, and a number
stands for the address. `none` as an outcome is a failed assertion, a null dereference or a
walk along a queue that goes past its size.
-/

namespace CseOs.TickSim

inductive ThreadState where
  | new
  | ready
  | running
  | waiting
  | finished
  deriving DecidableEq, Repr

/-- The fields of a thread except its link. -/
structure Thread where
  tid : Int
  arrivalTime : Int
  burstTime : Int
  remaining : Int
  state : ThreadState
  unblockedAt : Int
  startTime : Int
  finishTime : Int
  waitTime : Int
  quantaRem : Int
  priority : Int
  deriving DecidableEq, Repr

abbrev Ptr := Nat

structure Queue where
  front : Option Ptr
  rear : Option Ptr
  size : Int
  deriving DecidableEq, Repr

/-- The queues of the program; `keep` is the local one of the loops that filter a queue. -/
inductive QName where
  | workload
  | ready
  | waiting
  | finished
  | keep
  deriving DecidableEq, Repr

structure InterruptConfig where
  enableRandom : Bool
  pctIo : Nat
  ioMin : Nat
  ioMax : Nat
  deriving DecidableEq, Repr

/-- One line of `log_io_event`. -/
structure IoEvent where
  time : Nat
  core : Nat
  tid : Int
  duration : Nat
  unblockAt : Int
  deriving DecidableEq, Repr

/-- The memory of the program. `next` holds the links of the threads, `runTrace` for each tick
the thread on each core, and `rands` counts the calls of `rand()`. -/
structure Sim where
  made : Nat
  thread : Ptr → Thread
  next : Ptr → Option Ptr
  queue : QName → Queue
  core : List (Option Ptr)
  runTrace : List (List Int)
  traceLen : Nat
  simTime : Nat
  ioLog : List IoEvent
  rands : Nat

namespace Sim

def setThread (p : Ptr) (f : Thread → Thread) (s : Sim) : Sim :=
  { s with thread := Function.update s.thread p (f (s.thread p)) }

def setQueue (q : QName) (v : Queue) (s : Sim) : Sim :=
  { s with queue := Function.update s.queue q v }

def setNext (p : Ptr) (v : Option Ptr) (s : Sim) : Sim :=
  { s with next := Function.update s.next p v }

def setCore (i : Nat) (v : Option Ptr) (s : Sim) : Sim := { s with core := s.core.set i v }

end Sim

open Sim

def qInit : Queue := ⟨none, none, 0⟩

def qEmpty (q : Queue) : Bool := q.size == 0

def qPush (q : QName) (t : Ptr) (s : Sim) : Sim :=
  let s := s.setNext t none
  match (s.queue q).rear with
  | none => s.setQueue q ⟨some t, some t, (s.queue q).size + 1⟩
  | some r => (s.setNext r (some t)).setQueue q ⟨(s.queue q).front, some t, (s.queue q).size + 1⟩

def qPop (q : QName) (s : Sim) : Option Ptr × Sim :=
  match (s.queue q).front with
  | none => (none, s)
  | some t =>
    let front := s.next t
    let rear := if front = none then none else (s.queue q).rear
    (some t, (s.setQueue q ⟨front, rear, (s.queue q).size - 1⟩).setNext t none)

def qRemoveAfter (q : QName) (prev : Option Ptr) (s : Sim) : Option Ptr × Sim :=
  match prev with
  | none => qPop q s
  | some prev =>
    match s.next prev with
    | none => (none, s)
    | some removed =>
      let rear := if some removed = (s.queue q).rear then some prev else (s.queue q).rear
      let s := s.setNext prev (s.next removed)
      (some removed, (s.setQueue q ⟨(s.queue q).front, rear, (s.queue q).size - 1⟩).setNext removed none)

def INT_MAX : Int := 2147483647

theorem zero_le_INT_MAX : 0 ≤ INT_MAX := by decide

theorem one_le_INT_MAX : 1 ≤ INT_MAX := by decide

/-- The loop of the selection pops: the node before the first one with the smallest key. -/
def scanMin (key : Ptr → Int) (next : Ptr → Option Ptr) :
    Nat → (cur prev : Option Ptr) → Int → Option Ptr → Option (Option Ptr)
  | _, none, _, _, bestPrev => some bestPrev
  | 0, some _, _, _, _ => none
  | fuel + 1, some cur, prev, best, bestPrev =>
    if key cur < best then scanMin key next fuel (next cur) (some cur) (key cur) prev
    else scanMin key next fuel (next cur) (some cur) best bestPrev

def qPopMin (key : Thread → Int) (q : QName) (s : Sim) : Option (Option Ptr × Sim) :=
  if (s.queue q).size = 0 then some (none, s)
  else do
    let bestPrev ← scanMin (fun p => key (s.thread p)) s.next (s.queue q).size.toNat
      (s.queue q).front none INT_MAX none
    some (qRemoveAfter q bestPrev s)

def qPopMinBurst : QName → Sim → Option (Option Ptr × Sim) := qPopMin Thread.burstTime

def qPopMinRemaining : QName → Sim → Option (Option Ptr × Sim) := qPopMin Thread.remaining

def qPopHighestPriority : QName → Sim → Option (Option Ptr × Sim) := qPopMin Thread.priority

/-- A loop over the threads of a queue that changes each of them. -/
def forQueue (f : Thread → Thread) : Nat → Option Ptr → Sim → Option Sim
  | _, none, s => some s
  | 0, some _, _ => none
  | fuel + 1, some p, s => forQueue f fuel (s.next p) (s.setThread p f)

def bumpQueueWait (q : QName) (s : Sim) : Option Sim :=
  forQueue (fun t => { t with waitTime := t.waitTime + 1 }) (s.queue q).size.toNat
    (s.queue q).front s

/-- `while (!q_empty(src))`: the threads that pass the test go to the ready queue, the others
to `keep`. -/
def drain (test : Thread → Bool) (src : QName) : Nat → Sim → Option Sim
  | 0, s => if qEmpty (s.queue src) then some s else none
  | fuel + 1, s =>
    if qEmpty (s.queue src) then some s
    else
      match qPop src s with
      | (none, _) => none
      | (some t, s) =>
        if test (s.thread t) then
          drain test src fuel (qPush .ready t (s.setThread t fun t => { t with state := .ready }))
        else drain test src fuel (qPush .keep t s)

/-- `while (!q_empty(&keep)) q_push(src, q_pop(&keep));` -/
def restore (src : QName) : Nat → Sim → Option Sim
  | 0, s => if qEmpty (s.queue .keep) then some s else none
  | fuel + 1, s =>
    if qEmpty (s.queue .keep) then some s
    else
      match qPop .keep s with
      | (none, _) => none
      | (some t, s) => restore src fuel (qPush src t s)

/-- Move the threads that pass the test to the ready queue and keep the order of the others. -/
def sift (test : Thread → Bool) (src : QName) (s : Sim) : Option Sim :=
  if qEmpty (s.queue src) then some s
  else do
    let s ← drain test src (s.queue src).size.toNat (s.setQueue .keep qInit)
    restore src (s.queue .keep).size.toNat s

def waitingResolve (now : Int) : Sim → Option Sim :=
  sift (fun t => t.unblockedAt ≤ now) .waiting

def workloadAdmitTick (now : Int) : Sim → Option Sim :=
  sift (fun t => t.arrivalTime == now) .workload

def decay (t : Thread) : Thread :=
  if t.priority > 0 then { t with priority := t.priority - 1 } else t

def decayPriority (s : Sim) : Option Sim := do
  let s ← forQueue decay (s.queue .ready).size.toNat (s.queue .ready).front s
  forQueue decay (s.queue .waiting).size.toNat (s.queue .waiting).front s

def cpuBindCore (i : Nat) (t : Ptr) (s : Sim) : Option Sim :=
  if s.core[i]? = some none then
    some ((s.setCore i (some t)).setThread t fun th => { th with
      state := .running
      startTime := if th.startTime < 0 then s.simTime else th.startTime })
  else none

def cpuUnbindCore (i : Nat) (s : Sim) : Option (Option Ptr × Sim) :=
  match s.core[i]? with
  | none => none
  | some t => some (t, s.setCore i none)

def preemptToReady (i : Nat) (s : Sim) : Option Sim := do
  let (t, s) ← cpuUnbindCore i s
  match t with
  | none => some s
  | some t => some (qPush .ready t (s.setThread t fun th => { th with state := .ready }))

def blockToWaiting (i : Nat) (unblockAt : Int) (s : Sim) : Option Sim := do
  let (t, s) ← cpuUnbindCore i s
  match t with
  | none => some s
  | some t => some (qPush .waiting t (s.setThread t fun th => { th with
      state := .waiting, unblockedAt := unblockAt, quantaRem := 0 }))

def cpuAnyIdle (s : Sim) : Bool := s.core.contains none

def cpuFirstIdle (s : Sim) : Option Nat := s.core.idxOf? none

def cpuBindFirstIdle (t : Ptr) (s : Sim) : Option Sim :=
  match cpuFirstIdle s with
  | none => some s
  | some i => cpuBindCore i t s

/-- What one tick does to the thread on a core. -/
def runTick (t : Thread) : Thread :=
  { t with
    remaining := if t.remaining > 0 then t.remaining - 1 else t.remaining
    quantaRem := if t.quantaRem > 0 then t.quantaRem - 1 else t.quantaRem }

def cpuStep (s : Sim) : Sim :=
  let s := s.core.reduceOption.foldl (fun s p => s.setThread p runTick) s
  let s :=
    if s.simTime < s.traceLen then
      { s with runTrace := s.runTrace ++
          [s.core.map fun t => t.elim (-1) fun p => (s.thread p).tid] }
    else s
  { s with simTime := s.simTime + 1 }

inductive DispatchAlgo where
  | fifo
  | sjf
  | srtcf
  | rr
  | pr
  deriving DecidableEq, Repr

/-- `while (cpu_any_idle(cpu))`: bind popped threads until none is left. -/
def fillIdle (pop : Sim → Option (Option Ptr × Sim)) : Nat → Sim → Option Sim
  | 0, s => if cpuAnyIdle s then none else some s
  | fuel + 1, s =>
    if cpuAnyIdle s then do
      let (t, s) ← pop s
      match t with
      | none => some s
      | some t => fillIdle pop fuel (← cpuBindFirstIdle t s)
    else some s

def dispatchFifo (s : Sim) : Option Sim := fillIdle (fun s => some (qPop .ready s)) s.core.length s

def dispatchSjf (s : Sim) : Option Sim := fillIdle (qPopMinBurst .ready) s.core.length s

/-- The core whose thread has the largest key above a threshold. -/
def coreAbove (key : Ptr → Int) (threshold : Int) :
    (i : Nat) → (bestCore : Option Nat) → (best : Int) → List (Option Ptr) → Option Nat
  | _, bestCore, _, [] => bestCore
  | i, bestCore, best, none :: rest => coreAbove key threshold (i + 1) bestCore best rest
  | i, bestCore, best, some r :: rest =>
    if key r > threshold ∧ key r > best then coreAbove key threshold (i + 1) (some i) (key r) rest
    else coreAbove key threshold (i + 1) bestCore best rest

def coreWithLargestRemainingAbove (threshold : Int) (s : Sim) : Option Nat :=
  coreAbove (fun p => (s.thread p).remaining) threshold 0 none (-1) s.core

def coreWithWorstPriorityAbove (threshold : Int) (s : Sim) : Option Nat :=
  coreAbove (fun p => (s.thread p).priority) threshold 0 none (-1) s.core

/-- The preempting loop of `dispatch_srtcf`. -/
def srtcfLoop : Nat → Sim → Option Sim
  | 0, _ => none
  | fuel + 1, s => do
    let (best, s) ← qPopMinRemaining .ready s
    match best with
    | none => some s
    | some best =>
      match cpuFirstIdle s with
      | some idle => srtcfLoop fuel (← cpuBindCore idle best s)
      | none =>
        match coreWithLargestRemainingAbove (s.thread best).remaining s with
        | some victim => srtcfLoop fuel (← cpuBindCore victim best (← preemptToReady victim s))
        | none => some (qPush .ready best s)

/-- A bound for the rounds of a preempting loop: each one lowers the key on some core. -/
def roundBound (key : Thread → Int) (s : Sim) : Nat :=
  (s.core.reduceOption.map fun p => (key (s.thread p) + 1).toNat).sum + 2

def dispatchSrtcf (s : Sim) : Option Sim := do
  let s ← fillIdle (qPopMinRemaining .ready) s.core.length s
  srtcfLoop (roundBound Thread.remaining s) s

/-- The preempting loop of `dispatch_priority`. -/
def priorityLoop : Nat → Sim → Option Sim
  | 0, _ => none
  | fuel + 1, s => do
    let (best, s) ← qPopHighestPriority .ready s
    match best with
    | none => some s
    | some best =>
      match coreWithWorstPriorityAbove (s.thread best).priority s with
      | some victim => priorityLoop fuel (← cpuBindCore victim best (← preemptToReady victim s))
      | none => some (qPush .ready best s)

def dispatchPriority (s : Sim) : Option Sim := do
  let s ← fillIdle (qPopHighestPriority .ready) s.core.length s
  priorityLoop (roundBound Thread.priority s) s

/-- The first loop of `dispatch_rr`: preempt the threads whose slice has run out. -/
def rrPreempt : List Nat → Sim → Option Sim
  | [], s => some s
  | i :: is, s =>
    match s.core[i]? with
    | some (some t) =>
      if (s.thread t).quantaRem = 0 then do rrPreempt is (← preemptToReady i s)
      else rrPreempt is s
    | _ => rrPreempt is s

/-- The second loop of `dispatch_rr`: fill the idle cores in order. -/
def rrFill (quantum : Int) : List Nat → Sim → Option Sim
  | [], s => some s
  | i :: is, s =>
    match s.core[i]? with
    | some (some _) => rrFill quantum is s
    | _ =>
      match qPop .ready s with
      | (none, s) => some s
      | (some t, s) => do
        rrFill quantum is (← cpuBindCore i t (s.setThread t fun th => { th with quantaRem := quantum }))

def dispatchRr (quantum : Int) (s : Sim) : Option Sim := do
  let quantum := if quantum < 1 then 1 else quantum
  let s ← rrPreempt (List.range s.core.length) s
  rrFill quantum (List.range s.core.length) s

/-- The choices of the user and the answers of `rand()`. -/
structure Config where
  algo : DispatchAlgo
  rrQuantum : Int
  ncores : Nat
  interrupts : Bool
  rand : Nat → Nat

/-- The interrupt configuration of `main`. -/
def Config.intr (cfg : Config) : InterruptConfig := ⟨cfg.interrupts, 10, 2, 6⟩

/-- An accepted line of `workload_prompt`; the fields are ints. -/
structure Job where
  arrival : Int
  burst : Int
  priority : Int
  arrival_nonneg : 0 ≤ arrival
  burst_pos : 0 < burst
  burst_le : burst ≤ INT_MAX
  priority_le : priority ≤ INT_MAX

def makeThread (tid : Int) (j : Job) : Thread where
  tid := tid
  arrivalTime := j.arrival
  burstTime := j.burst
  remaining := j.burst
  state := .new
  unblockedAt := -1
  startTime := -1
  finishTime := -1
  waitTime := 0
  quantaRem := 0
  priority := j.priority

def workloadAdd (tid : Int) (j : Job) (s : Sim) : Sim :=
  qPush .workload s.made
    { s with made := s.made + 1, thread := Function.update s.thread s.made (makeThread tid j) }

/-- The threads of the workload get the numbers from 1 on, in the order entered. -/
def workloadPrompt (jobs : List Job) (s : Sim) : Sim :=
  jobs.foldl (fun s j => workloadAdd ((s.made : Int) + 1) j s) s

def MAX_TICKS : Nat := 50000

def collectCompletions : List Nat → Sim → Option Sim
  | [], s => some s
  | i :: is, s =>
    match s.core[i]? with
    | some (some t) =>
      if (s.thread t).remaining = 0 then do
        let (_, s) ← cpuUnbindCore i s
        collectCompletions is (qPush .finished t (s.setThread t fun th => { th with
          state := .finished
          finishTime := if th.finishTime < 0 then s.simTime else th.finishTime }))
      else collectCompletions is s
    | _ => collectCompletions is s

def allDone (s : Sim) : Bool :=
  qEmpty (s.queue .ready) && qEmpty (s.queue .waiting) && s.core.all Option.isNone

/-- `rnd(a, b)` from one answer of `rand()`. -/
def rnd (a b r : Nat) : Nat := a + r % (b - a + 1)

/-- The body of `random_interrupts` for the core `c`, whose thread is `t`. -/
def interruptCore (cfg : Config) (c : Nat) (t : Ptr) (s : Sim) : Option Sim :=
  if cfg.rand s.rands % 100 < cfg.intr.pctIo then do
    let dur := rnd cfg.intr.ioMin cfg.intr.ioMax (cfg.rand (s.rands + 1))
    let unblock : Int := s.simTime + dur
    let s ← blockToWaiting c unblock s
    some { s with
      rands := s.rands + 2
      ioLog := s.ioLog ++ [⟨s.simTime, c, (s.thread t).tid, dur, unblock⟩] }
  else some { s with rands := s.rands + 1 }

def interruptCores (cfg : Config) : List Nat → Sim → Option Sim
  | [], s => some s
  | c :: cs, s =>
    match s.core[c]? with
    | some (some t) => do interruptCores cfg cs (← interruptCore cfg c t s)
    | _ => interruptCores cfg cs s

def randomInterrupts (cfg : Config) (s : Sim) : Option Sim :=
  if cfg.intr.enableRandom then interruptCores cfg (List.range s.core.length) s else some s

def dispatch (cfg : Config) (s : Sim) : Option Sim :=
  match cfg.algo with
  | .fifo => dispatchFifo s
  | .sjf => dispatchSjf s
  | .srtcf => dispatchSrtcf s
  | .rr => dispatchRr cfg.rrQuantum s
  | .pr => dispatchPriority s

/-- The calls of one round of the main loop, in order. -/
def phases (cfg : Config) : List (Sim → Option Sim) :=
  [fun s => workloadAdmitTick s.simTime s, fun s => waitingResolve s.simTime s,
    randomInterrupts cfg, dispatch cfg, bumpQueueWait .ready, fun s => some (cpuStep s),
    decayPriority, fun s => collectCompletions (List.range s.core.length) s]

/-- A sequence of calls. -/
def runCalls : List (Sim → Option Sim) → Sim → Option Sim
  | [], s => some s
  | f :: fs, s => (f s).bind (runCalls fs)

/-- One round of the main loop up to the stop test. -/
def tick (cfg : Config) (s : Sim) : Option Sim := runCalls (phases cfg) s

/-- The state with empty queues and idle cores. -/
def initial (cfg : Config) : Sim where
  made := 0
  thread := fun _ => makeThread 0 ⟨0, 1, 0, Int.le_refl 0, Int.one_pos, one_le_INT_MAX, zero_le_INT_MAX⟩
  next := fun _ => none
  queue := fun _ => qInit
  core := List.replicate cfg.ncores none
  runTrace := []
  traceLen := MAX_TICKS
  simTime := 0
  ioLog := []
  rands := 0

/-- The state in which the main loop starts its round number `n`, if it gets there. -/
def loopHead (cfg : Config) (jobs : List Job) : Nat → Option Sim
  | 0 => workloadAdmitTick 0 (workloadPrompt jobs (initial cfg))
  | n + 1 => do
    let s ← loopHead cfg jobs n
    let s ← tick cfg s
    if allDone s then none else some s

/-- The main loop stops in the state `s`. -/
def StopsIn (cfg : Config) (jobs : List Job) (s : Sim) : Prop :=
  ∃ n h, loopHead cfg jobs n = some h ∧ tick cfg h = some s ∧ allDone s = true

end CseOs.TickSim
