import CseOs.Framework.BinaryHeap
import CseOs.WindowsLinux.PriorityRr
import Mathlib.Data.Nat.Find

/-!
# `simulate_cfs`

The process with the least virtual run time runs for its share of the period. Arrivals are looked for
between the slices.
-/

namespace CseOs.WindowsLinux

open Framework

/-- `512 * 1.25 ^ (-nice / 5)`, rounded to an integer: the greatest `m` with `m - 1/2` not above it. -/
def roundedWeight (nice : Int) : Int :=
  Nat.findGreatest (fun m => (2 * (m : Int) - 1) ^ 5 * 4 ^ (-nice).toNat * 5 ^ nice.toNat ≤
    1024 ^ 5 * 5 ^ (-nice).toNat * 4 ^ nice.toNat) 2048

/-- The `switch` over the nice values. -/
def weightOf (nice rounded : Int) : Int :=
  if nice = -20 then 2048
  else if nice = -15 then 1247
  else if nice = -10 then 933
  else if nice = -5 then 717
  else if nice = 0 then 512
  else if nice = 1 then 460
  else if nice = 2 then 410
  else if nice = 5 then 335
  else if nice = 10 then 222
  else if nice = 15 then 140
  else if nice = 19 then 110
  else max 50 rounded

def niceWeight (nice : Int) : Int :=
  weightOf (clamp nice (-20) 19) (roundedWeight (clamp nice (-20) 19))

/-- The local variables and `CFSSim`. An entry of the run queue is an index with its key. -/
structure CfsSt where
  procs : Nat → Proc
  runq : Heap (Nat × Rat)
  sumWeights : Int
  now : Int
  gantt : List Slice
  busyTime : Int
  ai : Nat
  done : Bool

def cfsEnqueue (s : CfsSt) (idx : Nat) : CfsSt :=
  { s with
    procs := Function.update s.procs idx { s.procs idx with lastEnq := s.now }
    runq := s.runq.push Prod.snd (idx, (s.procs idx).vruntime)
    sumWeights := s.sumWeights + niceWeight (s.procs idx).nice }

/-- `while (ai < n && arrivals[ai].t <= now)`, with at most `fuel` turns. -/
def cfsArrive (n : Nat) (arr : Nat → Arrival) : Nat → CfsSt → CfsSt
  | 0, s => s
  | fuel + 1, s =>
    if s.ai < n ∧ (arr s.ai).t ≤ s.now then
      cfsArrive n arr fuel { cfsEnqueue s (arr s.ai).idx with ai := s.ai + 1 }
    else s

/-- The slice that `cfs_pick` gives to a process of the weight `w`. The product of doubles, cut off to an
int, is `product schedPeriod w denom`, which stands for
`(int)((double)sched_period * ((double)w / (double)denom))`. -/
def cfsSlice (product : Int → Int → Int → Int) (schedPeriod sumWeights w : Int) : Int :=
  let sl := product schedPeriod w (if sumWeights > 0 then sumWeights else w)
  if sl < 1 then 1 else sl

/-- The product in whole numbers. -/
def wholeSlice (schedPeriod w denom : Int) : Int := schedPeriod * w / denom

/-- The process after a slice of the length `run` that starts at `start`. -/
def cfsRun (start run : Int) (p : Proc) : Proc :=
  { startProc start p with
    remaining := p.remaining - run
    vruntime := p.vruntime + (run : Rat) * (512 / (niceWeight p.nice : Rat)) }

/-- The slice of the first process of the run queue from `start` to `stop`, of the length `run`. -/
def cfsServe (s : CfsSt) (start run stop : Int) : CfsSt :=
  let idx := (s.runq.cell 0).1
  let p := cfsRun start run (s.procs idx)
  let s := { s with
    runq := s.runq.pop Prod.snd
    gantt := ganttPush s.gantt start stop p.pid idx
    busyTime := s.busyTime + run
    now := stop }
  if p.remaining ≤ 0 then
    { s with
      procs := Function.update s.procs idx { p with completion := stop }
      sumWeights := s.sumWeights - niceWeight p.nice }
  else
    { s with
      procs := Function.update s.procs idx { p with lastEnq := stop }
      runq := s.runq.push Prod.snd (idx, p.vruntime) }

section Slices

variable (product : Int → Int → Int → Int) (n : Nat) (procs : Nat → Proc) (arr : Nat → Arrival)
  (csCost schedPeriod : Int)

/-- The time for which the first process of the run queue runs. -/
def cfsRunLen (s : CfsSt) : Int :=
  let p := s.procs (s.runq.cell 0).1
  runLen p (cfsSlice product schedPeriod s.sumWeights (niceWeight p.nice))

def cfsDispatch (s : CfsSt) : Option CfsSt := do
  let start ← switched csCost s.now
  let stop ← advance start (cfsRunLen product schedPeriod s)
  return cfsServe s start (cfsRunLen product schedPeriod s) stop

def cfsSelect (s : CfsSt) : Option CfsSt :=
  if s.runq.n = 0 then
    if s.ai < n then some { s with now := (arr s.ai).t } else some { s with done := true }
  else cfsDispatch product csCost schedPeriod s

def cfsTurn (s : CfsSt) : Option CfsSt :=
  cfsSelect product n arr csCost schedPeriod (cfsArrive n arr (n - s.ai) s)

def cfsStart (procs : Nat → Proc) : CfsSt :=
  { procs := procs
    runq := ⟨0, fun _ => (0, 0)⟩
    sumWeights := 0
    now := 0
    gantt := []
    busyTime := 0
    ai := 0
    done := false }

/-- One turn of the loop of `simulate_cfs`. -/
def cfsBody (s : CfsSt) : Option CfsSt :=
  cfsTurn product n (arrivalsOf n procs) csCost schedPeriod s

/-- `simulate_cfs` comes to the head of its loop in the state `s`. The array of arrivals has `MAXP`
cells. -/
def CfsHeads (s : CfsSt) : Prop :=
  n ≤ MAXP ∧ Heads (fun s => !s.done) (cfsBody product n procs csCost schedPeriod) (cfsStart procs) s

/-- `simulate_cfs` ends its loop in the state `t`. -/
def CfsReturns (t : CfsSt) : Prop :=
  n ≤ MAXP ∧ Returns (fun s => !s.done) (cfsBody product n procs csCost schedPeriod) (cfsStart procs) t

end Slices

private theorem weightOf_pos (nice rounded : Int) : 0 < weightOf nice rounded := by
  have hceil : 0 < max 50 rounded := by omega
  have hite : ∀ (c : Prop) [Decidable c] (a b : Int), 0 < a → 0 < b → 0 < if c then a else b := by
    intro c _ a b ha hb
    split
    · exact ha
    · exact hb
  rw [weightOf]
  repeat refine hite _ _ _ (by decide) ?_
  exact hceil

theorem niceWeight_pos (nice : Int) : 0 < niceWeight nice := weightOf_pos _ _

end CseOs.WindowsLinux
