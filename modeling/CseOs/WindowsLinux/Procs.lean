import CseOs.Framework.ExchangeSort
import CseOs.Framework.WhileLoop
import Mathlib.Algebra.Order.Field.Rat

/-!
# The processes of `cpu_sim.c`

The table that both schedulers work on, the arrivals in the order in which they are handled, and the
Gantt chart. The `double` of the virtual run time is taken as a rational number.
-/

namespace CseOs.WindowsLinux

open Framework Finset

def MAXP : Nat := 64

structure Proc where
  pid : Int
  arrival : Int
  burst : Int
  basePrio : Int
  nice : Int
  remaining : Int
  startTime : Int
  completion : Int
  waiting : Int
  lastEnq : Int
  dynPrio : Int
  vruntime : Rat
  deriving DecidableEq, Repr

def clamp (v lo hi : Int) : Int := if v < lo then lo else if v > hi then hi else v

/-- The copy on which a scheduler works. -/
def Proc.reset (p : Proc) : Proc :=
  { p with
    remaining := p.burst
    startTime := -1
    completion := -1
    waiting := 0
    lastEnq := -1
    dynPrio := clamp p.basePrio 0 15
    vruntime := 0 }

/-- A slice of the chart. The program does not record `idx`, the index of the process. -/
structure Slice where
  start : Int
  stop : Int
  pid : Int
  idx : Nat
  deriving DecidableEq, Repr

/-- `gantt_push`, which ignores a slice without length. -/
def ganttPush (g : List Slice) (s e pid : Int) (idx : Nat) : List Slice :=
  if e ≤ s then g else g ++ [⟨s, e, pid, idx⟩]

structure Arrival where
  t : Int
  idx : Nat
  deriving DecidableEq, Repr

/-- By time, then by pid. -/
def arrivalLess (procs : Nat → Proc) (x y : Arrival) : Bool :=
  decide (x.t < y.t ∨ (x.t = y.t ∧ (procs x.idx).pid < (procs y.idx).pid))

/-- The sorted array of arrivals. -/
def arrivalsOf (n : Nat) (procs : Nat → Proc) : Nat → Arrival :=
  exchangeSort (arrivalLess procs) n fun i => ⟨(procs i).arrival, i⟩

variable {n i j k : Nat} {procs : Nat → Proc}

/-- The array `arr` lists each of `n` processes at its rank, in the order of the times. -/
structure Timetable (n : Nat) (arrival : Nat → Int) (arr : Nat → Arrival) (rank : Nat → Nat) :
    Prop where
  idx_lt : ∀ k < n, (arr k).idx < n
  time : ∀ k < n, (arr k).t = arrival (arr k).idx
  rank_lt : ∀ i < n, rank i < n
  idx_rank : ∀ i < n, (arr (rank i)).idx = i
  rank_idx : ∀ k < n, rank (arr k).idx = k
  mono : ∀ j k, j ≤ k → k < n → (arr j).t ≤ (arr k).t

private theorem arrivalLess_comparison : Comparison (arrivalLess procs) := by
  constructor
  · intro x y h
    have h := of_decide_eq_true h
    apply decide_eq_false
    omega
  · intro x y z h h'
    have h := of_decide_eq_false h
    have h' := of_decide_eq_false h'
    apply decide_eq_false
    omega

theorem arrivalsOf_timetable :
    ∃ rank, Timetable n (fun i => (procs i).arrival) (arrivalsOf n procs) rank := by
  have hsort : Rearranged n 0 (fun i => ⟨(procs i).arrival, i⟩) (arrivalsOf n procs) :=
    exchangeSort_rearranged
  obtain ⟨σ, hσ, heq⟩ := hsort
  have hcell : ∀ k, arrivalsOf n procs k = ⟨(procs (σ k)).arrival, σ k⟩ := by
    intro k
    rw [heq]
    rfl
  have hinv : ∀ k, n ≤ k → σ.symm k = k := by
    intro k hk
    rw [Equiv.symm_apply_eq, hσ k (.inr hk)]
  refine ⟨σ.symm, ?_, ?_, ?_, ?_, ?_, ?_⟩
  · intro k hk
    rw [hcell]
    exact (perm_range hσ ⟨Nat.zero_le k, hk⟩).2
  · intro k _
    rw [hcell]
  · intro i hi
    apply (perm_range (i := 0) _ ⟨Nat.zero_le i, hi⟩).2
    intro k hk
    exact hinv k (by omega)
  · intro i _
    rw [hcell, Equiv.apply_symm_apply]
  · intro k _
    rw [hcell, Equiv.symm_apply_apply]
  · intro j k hjk hk
    by_cases heq : j = k
    · rw [heq]
    · have hord : arrivalLess procs (arrivalsOf n procs k) (arrivalsOf n procs j) = false :=
        exchangeSort_ordered arrivalLess_comparison (by omega) hk
      have hord := of_decide_eq_false hord
      omega

/-- The time of the process `i` in the chart. -/
def share (i : Nat) (g : List Slice) : Int :=
  ((g.filter fun e => e.idx = i).map fun e => e.stop - e.start).sum

/-- The time of all slices with the label `pid`. -/
def pidShare (pid : Int) (g : List Slice) : Int :=
  ((g.filter fun e => e.pid = pid).map fun e => e.stop - e.start).sum

variable {g : List Slice} {s e pid front : Int}

/-- The slices follow each other until `front`, each one of a process that has arrived. -/
structure Chart (n : Nat) (procs : Nat → Proc) (front : Int) (g : List Slice) : Prop where
  ordered : g.Pairwise fun a b => a.stop ≤ b.start
  length : ∀ e ∈ g, e.start < e.stop
  past : ∀ e ∈ g, e.stop ≤ front
  owner : ∀ e ∈ g, e.idx < n ∧ e.pid = (procs e.idx).pid ∧ (procs e.idx).arrival ≤ e.start

theorem Chart.nil : Chart n procs front [] :=
  ⟨.nil, fun _ he => absurd he List.not_mem_nil, fun _ he => absurd he List.not_mem_nil,
    fun _ he => absurd he List.not_mem_nil⟩

theorem Chart.mono {later : Int} (h : Chart n procs front g) (hle : front ≤ later) :
    Chart n procs later g :=
  ⟨h.ordered, h.length, fun e he => Int.le_trans (h.past e he) hle, h.owner⟩

theorem Chart.push (h : Chart n procs front g) (hs : front ≤ s) (he : s ≤ e) (hi : i < n)
    (harrived : (procs i).arrival ≤ s) : Chart n procs e (ganttPush g s e (procs i).pid i) := by
  rw [ganttPush]
  split
  · exact h.mono (Int.le_trans hs he)
  · next hlong =>
    refine ⟨?_, ?_, ?_, ?_⟩
    · rw [List.pairwise_append]
      refine ⟨h.ordered, List.pairwise_singleton _ _, fun a ha b hb => ?_⟩
      rw [List.mem_singleton.mp hb]
      exact Int.le_trans (h.past a ha) hs
    · intro x hx
      cases List.mem_append.mp hx with
      | inl hold => exact h.length x hold
      | inr hnew =>
        rw [List.mem_singleton.mp hnew]
        exact Int.not_le.mp hlong
    · intro x hx
      cases List.mem_append.mp hx with
      | inl hold => exact Int.le_trans (h.past x hold) (Int.le_trans hs he)
      | inr hnew => rw [List.mem_singleton.mp hnew]
    · intro x hx
      cases List.mem_append.mp hx with
      | inl hold => exact h.owner x hold
      | inr hnew =>
        rw [List.mem_singleton.mp hnew]
        exact ⟨hi, rfl, harrived⟩

theorem share_push (he : s ≤ e) :
    share j (ganttPush g s e pid i) = share j g + if j = i then e - s else 0 := by
  rw [ganttPush]
  split
  · next hshort =>
    split <;> omega
  · rw [share, share, List.filter_append, List.map_append, List.sum_append]
    by_cases hji : j = i
    · simp [hji]
    · simp [hji, Ne.symm hji]

/-- Where only the process `i` has the label, its slices are those with the label. -/
theorem Chart.pidShare (h : Chart n procs front g)
    (hunique : ∀ j < n, (procs j).pid = (procs i).pid → j = i) :
    WindowsLinux.pidShare (procs i).pid g = share i g := by
  rw [WindowsLinux.pidShare, share]
  congr 2
  apply List.filter_congr
  intro e he
  obtain ⟨hidx, hpid, _⟩ := h.owner e he
  rw [hpid]
  by_cases heq : e.idx = i
  · simp [heq]
  · have hne : (procs e.idx).pid ≠ (procs i).pid := fun hsame => heq (hunique e.idx hidx hsame)
    simp [heq, hne]

end CseOs.WindowsLinux
