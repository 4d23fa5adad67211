import CseOs.WindowsLinux.Procs

/-!
# `simulate_windows`

Round robin in sixteen queues by priority. The clock follows the events: it goes to the end of the slice
or to an arrival before it, which may lie before the start of the slice.
-/

namespace CseOs.WindowsLinux

open Framework Finset

/-- The local variables and `WinSim`. A queue of nodes is the list of their indices. -/
structure WinSt where
  procs : Nat → Proc
  queues : Nat → List Nat
  readyCount : Int
  now : Int
  gantt : List Slice
  busyTime : Int
  ai : Nat
  running : Option Nat
  sliceStart : Int
  sliceEnd : Int
  done : Bool

def quantumForPrio (lvl : Nat) : Int := 6 + lvl / 2

def winLevel (p : Proc) : Nat := (clamp p.dynPrio 0 15).toNat

def winEnqueue (s : WinSt) (idx : Nat) : WinSt :=
  { s with
    procs := Function.update s.procs idx { s.procs idx with lastEnq := s.now }
    queues := Function.update s.queues (winLevel (s.procs idx))
      (s.queues (winLevel (s.procs idx)) ++ [idx])
    readyCount := s.readyCount + 1 }

/-- The highest of the first `lvl` queues that is not empty, with its first entry. -/
def winTop (queues : Nat → List Nat) : Nat → Option (Nat × Nat)
  | 0 => none
  | lvl + 1 =>
    match queues lvl with
    | idx :: _ => some (lvl, idx)
    | [] => winTop queues lvl

def winPop (s : WinSt) (lvl : Nat) : WinSt :=
  { s with
    queues := Function.update s.queues lvl (s.queues lvl).tail
    readyCount := s.readyCount - 1 }

/-- `while (ai < n && arrivals[ai].t <= now)`, with at most `fuel` turns. -/
def winArrive (n : Nat) (arr : Nat → Arrival) : Nat → WinSt → WinSt
  | 0, s => s
  | fuel + 1, s =>
    if s.ai < n ∧ (arr s.ai).t ≤ s.now then
      winArrive n arr fuel { winEnqueue s (arr s.ai).idx with ai := s.ai + 1 }
    else s

/-- The end of the slice of the process `r`. -/
def winSliceEnd (s : WinSt) (r : Nat) : WinSt :=
  let ran := s.sliceEnd - s.sliceStart
  let p := s.procs r
  let p := if ran > 0 then { p with remaining := p.remaining - ran } else p
  let busyTime := if ran > 0 then s.busyTime + ran else s.busyTime
  if p.remaining ≤ 0 then
    { s with
      procs := Function.update s.procs r { p with completion := s.sliceEnd }
      busyTime := busyTime
      running := none }
  else
    { winEnqueue
        { s with
          procs := Function.update s.procs r { p with dynPrio := clamp (p.dynPrio - 1) 0 15 }
          busyTime := busyTime } r with
      running := none }

/-- A process that waited for long gets a higher priority. -/
def winAge (now : Int) (p : Proc) : Proc :=
  if p.lastEnq ≠ -1 ∧ now - p.lastEnq > 10 then { p with dynPrio := clamp (p.dynPrio + 1) 0 15 } else p

/-- The start of a slice at the time `now`. -/
def startProc (now : Int) (p : Proc) : Proc :=
  { p with
    startTime := if p.startTime = -1 then now else p.startTime
    waiting := if p.lastEnq ≠ -1 then p.waiting + (now - p.lastEnq) else p.waiting }

/-- The slice of the process `idx` from `start` to `stop`. -/
def winSlice (s : WinSt) (idx : Nat) (start stop : Int) : WinSt :=
  let p := startProc start (winAge s.now (s.procs idx))
  { s with
    procs := Function.update s.procs idx p
    now := start
    sliceStart := start
    sliceEnd := stop
    gantt := ganttPush s.gantt start stop p.pid idx
    running := some idx }

/-- The time after the context switch. -/
def switched (csCost now : Int) : Option Int := if csCost > 0 then advance now csCost else some now

/-- The time that a process runs of a slice. -/
def runLen (p : Proc) (slice : Int) : Int := if p.remaining < slice then p.remaining else slice

theorem switched_eq_some {csCost now start : Int} : switched csCost now = some start ↔
    (0 < csCost → now + csCost ≤ INT_MAX) ∧ start = now + max csCost 0 := by
  rw [switched]
  split
  · next hcost =>
    rw [advance_eq_some]
    constructor
    · exact fun h => ⟨fun _ => h.1, by omega⟩
    · exact fun h => ⟨h.1 hcost, by omega⟩
  · next hfree =>
    rw [Option.some_inj]
    constructor
    · exact fun h => ⟨fun hcost => absurd hcost hfree, by omega⟩
    · exact fun h => by omega

theorem runLen_le (p : Proc) (slice : Int) : runLen p slice ≤ p.remaining := by
  rw [runLen]
  split <;> omega

theorem runLen_cases (p : Proc) (slice : Int) : runLen p slice = p.remaining ∨ runLen p slice = slice := by
  rw [runLen]
  split
  · exact .inl rfl
  · exact .inr rfl

def winDispatch (csCost : Int) (s : WinSt) (idx : Nat) (q : Int) : Option WinSt := do
  let start ← switched csCost s.now
  let stop ← advance start (runLen (s.procs idx) q)
  return winSlice s idx start stop

/-- The next event: an arrival or the end of the slice. -/
def winNext (n : Nat) (arr : Nat → Arrival) (s : WinSt) : WinSt :=
  if s.ai < n ∧ (arr s.ai).t < s.sliceEnd then { s with now := (arr s.ai).t }
  else { s with now := s.sliceEnd }

/-- The rest of a turn where no process runs. -/
def winSelect (n : Nat) (arr : Nat → Arrival) (csCost : Int) (s : WinSt) : Option WinSt :=
  if s.readyCount = 0 ∧ s.ai < n then some { s with now := (arr s.ai).t }
  else
    match winTop s.queues 16 with
    | none => some { s with done := true }
    | some (lvl, idx) =>
      (winDispatch csCost (winPop s lvl) idx (quantumForPrio lvl)).map (winNext n arr)

/-- The arrivals of a turn, and the end of a slice. -/
def winReady (n : Nat) (arr : Nat → Arrival) (s : WinSt) : WinSt :=
  let s := winArrive n arr (n - s.ai) s
  match s.running with
  | none => s
  | some r => if s.now ≥ s.sliceEnd then winSliceEnd s r else s

def winTurn (n : Nat) (arr : Nat → Arrival) (csCost : Int) (s : WinSt) : Option WinSt :=
  if (winReady n arr s).running = none then winSelect n arr csCost (winReady n arr s)
  else some (winNext n arr (winReady n arr s))

def winStart (procs : Nat → Proc) : WinSt :=
  { procs := procs
    queues := fun _ => []
    readyCount := 0
    now := 0
    gantt := []
    busyTime := 0
    ai := 0
    running := none
    sliceStart := -1
    sliceEnd := -1
    done := false }

/-- `simulate_windows` comes to the head of its loop in the state `s`. The array of arrivals has `MAXP`
cells. -/
def WinHeads (n : Nat) (procs : Nat → Proc) (csCost : Int) (s : WinSt) : Prop :=
  n ≤ MAXP ∧ Heads (fun s => !s.done) (winTurn n (arrivalsOf n procs) csCost) (winStart procs) s

/-- `simulate_windows` ends its loop in the state `t`. -/
def WinReturns (n : Nat) (procs : Nat → Proc) (csCost : Int) (t : WinSt) : Prop :=
  n ≤ MAXP ∧ Returns (fun s => !s.done) (winTurn n (arrivalsOf n procs) csCost) (winStart procs) t

end CseOs.WindowsLinux
