import CseOs.Framework.Transition
import CseOs.Kernel.Lib.Containers

/-!
# Threads

The thread system: the current thread, the run queue, and the arrays of sleepers and zombies.
Every function here runs with interrupts off. `mi_switch` is cut in two where the scheduler may
idle: `stash` puts the current thread away, `dispatch` takes up the next one.
-/

namespace CseOs.Kernel

open Framework

/-- The thread system, with sleep addresses in `Addr`. A thread is known by the address of its
structure. -/
structure Threads (Addr : Type) where
  curthread : Option Nat
  sleepers : PtrArray Nat
  zombies : PtrArray Nat
  numthreads : Nat
  runqueue : RingBuffer Nat
  sleepaddr : Nat → Option Addr
  /-- The structures allocated and not yet freed. -/
  created : Nat → Bool
  /-- The threads that went through `mi_threadstart`, or need not. -/
  started : Nat → Bool
  heap : Kmalloc

inductive ThreadState where
  | ready
  | sleep
  | zomb
deriving DecidableEq

namespace Threads

variable {Addr : Type}

/-- After `thread_bootstrap` and `scheduler_bootstrap`. -/
def bootstrap (me : Nat) : Threads Addr where
  curthread := some me
  sleepers := ⟨0, 0, fun _ => 0⟩
  zombies := ⟨0, 0, fun _ => 0⟩
  numthreads := 1
  runqueue := ⟨32, 0, 0, fun _ => 0⟩
  sleepaddr := fun _ => none
  created := fun t => t = me
  started := fun t => t = me
  heap := ⟨fun _ => true, 0⟩

/-- The memory available to one call. -/
def withMemory (answers : Nat → Bool) (m : Threads Addr) : Threads Addr :=
  { m with heap := ⟨answers, 0⟩ }

/-- The error returned, if any, and the state. Around it `none` is a failed assertion. -/
abbrev Returned (Addr : Type) := Option Errno × Threads Addr

def makeRunnable (t : Nat) (m : Threads Addr) : Option (Returned Addr) := do
  let r ← Queue.qAddtail m.runqueue t m.heap
  return (r.error, { m with runqueue := r.val, heap := r.mem })

def addSleeper (t : Nat) (m : Threads Addr) : Returned Addr :=
  let r := m.sleepers.arrayAdd t m.heap
  (r.error, { m with sleepers := r.val, heap := r.mem })

def addZombie (t : Nat) (m : Threads Addr) : Returned Addr :=
  let r := m.zombies.arrayAdd t m.heap
  (r.error, { m with zombies := r.val, heap := r.mem })

/-- `assert(result==0)` -/
def assertOk (r : Returned Addr) : Option (Threads Addr) :=
  if r.1.isSome then none else some r.2

/-- `mi_switch` up to the call of the scheduler. While the scheduler idles there is no current
thread, and nothing is done. -/
def stash (nextstate : ThreadState) (m : Threads Addr) : Option (Threads Addr) :=
  match m.curthread with
  | none => some m
  | some cur =>
    let m := { m with curthread := none }
    match nextstate with
    | .ready => (makeRunnable cur m).bind assertOk
    | .sleep => assertOk (addSleeper cur m)
    | .zomb => assertOk (addZombie cur m)

def exorcise (m : Threads Addr) : Option (Threads Addr) :=
  if ∃ z ∈ m.zombies.contents, m.curthread = some z then none
  else
    let r := m.zombies.arraySetsize 0 m.heap
    let created := fun t => m.created t && !m.zombies.contents.contains t
    assertOk (r.error, { m with zombies := r.val, created := created, heap := r.mem })

/-- The rest of `mi_switch`, in the context of the thread that is switched to. A new thread
starts in `mi_threadstart` instead; a thread that slept clears its sleep address. -/
def dispatch (m : Threads Addr) : Option (Threads Addr) :=
  if m.curthread.isSome then none
  else do
    let (next, q) ← Queue.qRemhead m.runqueue
    let m := { m with curthread := some next, runqueue := q }
    if m.started next then do
      let m ← exorcise m
      return { m with sleepaddr := Function.update m.sleepaddr next none }
    else return { m with started := Function.update m.started next true }

def threadYield (m : Threads Addr) : Option (Threads Addr) := stash .ready m

def threadSleep (addr : Addr) (m : Threads Addr) : Option (Threads Addr) := do
  let cur ← m.curthread
  stash .sleep { m with sleepaddr := Function.update m.sleepaddr cur (some addr) }

/-- The end of `thread_exit`; the address space and the directory are gone by then. -/
def threadExit (m : Threads Addr) : Option (Threads Addr) :=
  if m.curthread.isNone ∨ m.numthreads = 0 then none
  else stash .zomb { m with numthreads := m.numthreads - 1 }

/-- The loop of `thread_wakeup` from index `i`, for at most `fuel` rounds. -/
def wakeupFrom [DecidableEq Addr] (addr : Addr) : Nat → Nat → Threads Addr → Option (Threads Addr)
  | 0, _, m => some m
  | fuel + 1, i, m =>
    if i < m.sleepers.num then
      let t := m.sleepers.v i
      if m.sleepaddr t = some addr then
        ((makeRunnable t { m with sleepers := m.sleepers.arrayRemove i }).bind assertOk).bind
          (wakeupFrom addr fuel i)
      else wakeupFrom addr fuel (i + 1) m
    else some m

def threadWakeup [DecidableEq Addr] (addr : Addr) (m : Threads Addr) : Option (Threads Addr) :=
  wakeupFrom addr m.sleepers.num 0 m

/-- `thread_fork`, from the three allocations for `newguy` (structure, name, stack) on. -/
def threadFork (newguy : Nat) (m : Threads Addr) : Option (Returned Addr) :=
  let g := m.heap.grab 3
  if ¬ g.1 then some (some .enomem, { m with heap := g.2 })
  else
    let s := m.sleepers.arrayPreallocate (m.numthreads + 1) g.2
    if s.error.isSome then some (s.error, { m with heap := s.mem })
    else
      let z := m.zombies.arrayPreallocate (m.numthreads + 1) s.mem
      if z.error.isSome then some (z.error, { m with sleepers := s.val, heap := z.mem })
      else do
        let q ← Queue.qPreallocate m.runqueue (m.numthreads + 1) z.mem
        let m := { m with sleepers := s.val, zombies := z.val, runqueue := q.val, heap := q.mem }
        if q.error.isSome then return (q.error, m)
        else do
          let r ← makeRunnable newguy m
          if r.1.isSome then return r
          else return (none, { r.2 with
            numthreads := r.2.numthreads + 1
            created := Function.update r.2.created newguy true
            started := Function.update r.2.started newguy false
            sleepaddr := Function.update r.2.sleepaddr newguy none })

/-- What happens to the thread system. `wakeup` and `yield` also stand for interrupt handlers
and the timer, which may come while the scheduler idles. -/
inductive Event (Addr : Type) where
  | fork (newguy : Nat)
  | yield
  | sleep (addr : Addr)
  | wakeup (addr : Addr)
  | exit
  | dispatch

variable [DecidableEq Addr]

/-- A new thread structure is not one that is in use, and is made by a thread. -/
def Event.Legal (m : Threads Addr) : Event Addr → Prop
  | .fork newguy => m.created newguy = false ∧ m.curthread.isSome
  | _ => True

def Event.apply (m : Threads Addr) : Event Addr → Option (Threads Addr)
  | .fork newguy => (m.threadFork newguy).map Prod.snd
  | .yield => m.threadYield
  | .sleep addr => m.threadSleep addr
  | .wakeup addr => m.threadWakeup addr
  | .exit => m.threadExit
  | .dispatch => m.dispatch

/-- One event, with any answers of `kmalloc`. -/
def Step (m m' : Threads Addr) : Prop :=
  ∃ (e : Event Addr) (answers : Nat → Bool), e.Legal m ∧ e.apply (m.withMemory answers) = some m'

end Threads

end CseOs.Kernel
