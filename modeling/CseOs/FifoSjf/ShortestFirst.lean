import CseOs.Framework.BubbleSort
import Mathlib.Algebra.Order.BigOperators.Group.List
import Mathlib.Algebra.Order.Ring.Int

/-!
# `SJF.c`

`sjf_scheduler` sorts the jobs by their bursts and runs them one after the other from time 0. It reads the
arrival of a job only for its turnaround time.
-/

namespace CseOs.FifoSjf

open Framework

structure Thread where
  thread_ID : Int
  arrival : Int
  turnaround : Int
  response : Int
  burst : Int
  wait : Int
  completion_time : Int
  first_run : Int
  deriving DecidableEq, Repr

def INT_MAX : Int := 2147483647

/-- The value of an `int` expression. Overflow has no defined result. -/
def int (x : Int) : Option Int := if -INT_MAX - 1 ≤ x ∧ x ≤ INT_MAX then some x else none

/-- `bubble`. -/
def bubble (jobs : List Thread) : List Thread := bubbleSort Thread.burst jobs

/-- The loop of `sjf_scheduler`. -/
def account (current_time : Int) : List Thread → Option (List Thread)
  | [] => some []
  | job :: jobs => do
    let current_time ← int (current_time + job.burst)
    let turnaround ← int (current_time - job.arrival)
    let wait ← int (turnaround - job.burst)
    let rest ← account current_time jobs
    return { job with turnaround := turnaround, wait := wait } :: rest

def sjf_scheduler (jobs : List Thread) : Option (List Thread) := account 0 (bubble jobs)

namespace Thread

/-- The data that a job comes with. -/
def request (th : Thread) : Int × Int × Int := (th.thread_ID, th.arrival, th.burst)

def start (th : Thread) : Int := th.arrival + th.wait

def finish (th : Thread) : Int := th.arrival + th.turnaround

end Thread

/-- A schedule of the jobs without preemption, where a shortest waiting job is taken. -/
structure ShortestJobFirst (jobs out : List Thread) : Prop where
  same : (out.map Thread.request).Perm (jobs.map Thread.request)
  arrived : ∀ th ∈ out, th.arrival ≤ th.start
  apart : out.Pairwise fun a b => a.finish ≤ b.start ∨ b.finish ≤ a.start
  shortest : ∀ a ∈ out, ∀ b ∈ out, b.arrival ≤ a.start → a.start ≤ b.start → a.burst ≤ b.burst

def RespectsArrivals (jobs : List Thread) : Prop :=
  ∃ out, sjf_scheduler jobs = some out ∧ ShortestJobFirst jobs out

def bursts (jobs : List Thread) : Int := (jobs.map Thread.burst).sum

/-- The time that the jobs take that are shorter than `x`, or as long and in front of it. -/
def burstsBefore (jobs : List Thread) (x : Thread × Nat) : Int :=
  bursts ((jobs.zipIdx.filter fun y => Precedes Thread.burst y x).map Prod.fst)

/-- The jobs that go first take until the job has arrived. -/
def ArriveInTime (jobs : List Thread) : Prop := ∀ x ∈ jobs.zipIdx, x.1.arrival ≤ burstsBefore jobs x

variable {jobs out front back : List Thread} {th : Thread} {c : Int} {n : Nat}

/-- The accounts without overflow. -/
def placed (c : Int) : List Thread → List Thread
  | [] => []
  | job :: jobs =>
    { job with turnaround := c + job.burst - job.arrival, wait := c + job.burst - job.arrival - job.burst } ::
      placed (c + job.burst) jobs

private theorem bursts_cons (th : Thread) (jobs : List Thread) : bursts (th :: jobs) = th.burst + bursts jobs := by
  rw [bursts, List.map_cons, List.sum_cons]
  rfl

private theorem bursts_nonneg (h : ∀ th ∈ jobs, 1 ≤ th.burst) : 0 ≤ bursts jobs := by
  apply List.sum_nonneg
  intro b hb
  obtain ⟨th, hth, rfl⟩ := List.mem_map.mp hb
  have hpos := h th hth
  omega

private theorem int_eq_some {x y : Int} : int x = some y ↔ x = y ∧ -INT_MAX - 1 ≤ x ∧ x ≤ INT_MAX := by
  rw [int]
  split
  · next hfits => exact ⟨fun h => ⟨Option.some.inj h, hfits⟩, fun h => congrArg some h.1⟩
  · next hno =>
    apply iff_of_false
    · intro h
      cases h
    · exact fun h => hno h.2

private theorem account_placed (hrun : account c jobs = some out) : out = placed c jobs := by
  induction jobs generalizing c out with
  | nil =>
    cases hrun
    rfl
  | cons job jobs ih =>
    obtain ⟨t, ht, hrun⟩ := Option.bind_eq_some_iff.mp hrun
    obtain ⟨turnaround, hturn, hrun⟩ := Option.bind_eq_some_iff.mp hrun
    obtain ⟨wait, hwait, hrun⟩ := Option.bind_eq_some_iff.mp hrun
    obtain ⟨rest, hrest, hrun⟩ := Option.bind_eq_some_iff.mp hrun
    cases hrun
    rw [placed, ih hrest, ← (int_eq_some.mp hwait).1, ← (int_eq_some.mp hturn).1, ← (int_eq_some.mp ht).1]

theorem account_fits (hc : c ≤ INT_MAX) (hrun : account c jobs = some out) :
    c + bursts jobs ≤ INT_MAX := by
  induction jobs generalizing c out with
  | nil => simpa [bursts] using hc
  | cons job jobs ih =>
    obtain ⟨t, ht, hrun⟩ := Option.bind_eq_some_iff.mp hrun
    obtain ⟨_, _, hrun⟩ := Option.bind_eq_some_iff.mp hrun
    obtain ⟨_, _, hrun⟩ := Option.bind_eq_some_iff.mp hrun
    obtain ⟨rest, hrest, _⟩ := Option.bind_eq_some_iff.mp hrun
    obtain ⟨heq, _, hle⟩ := int_eq_some.mp ht
    have hall := ih (heq ▸ hle) hrest
    rw [bursts_cons]
    omega

/-- Each job arrives until the ones in front of it have run. -/
def OnTime (c : Int) : List Thread → Prop
  | [] => True
  | job :: jobs => job.arrival ≤ c ∧ OnTime (c + job.burst) jobs

private theorem onTime_iff : OnTime c jobs ↔
    ∀ front th back, jobs = front ++ th :: back → th.arrival ≤ c + bursts front := by
  induction jobs generalizing c with
  | nil =>
    apply iff_of_true trivial
    intro front th back heq
    exact absurd heq (by simp)
  | cons job jobs ih =>
    rw [OnTime, ih]
    constructor
    · intro h front th back heq
      obtain ⟨hfirst, hrest⟩ := h
      cases front with
      | nil =>
        cases heq
        simpa [bursts] using hfirst
      | cons a front =>
        cases heq
        have hth := hrest front th back rfl
        rw [bursts_cons]
        omega
    · intro h
      refine ⟨by simpa [bursts] using h [] job jobs rfl, fun front th back heq => ?_⟩
      have hth := h (job :: front) th back (by rw [heq]; rfl)
      rw [bursts_cons] at hth
      omega

private theorem account_eq (hjobs : ∀ th ∈ jobs, 0 ≤ th.arrival ∧ 1 ≤ th.burst) (hc : 0 ≤ c)
    (hfits : c + bursts jobs ≤ INT_MAX) (htime : OnTime c jobs) :
    account c jobs = some (placed c jobs) := by
  induction jobs generalizing c with
  | nil => rfl
  | cons job jobs ih =>
    have hjob := hjobs job List.mem_cons_self
    have hrest : ∀ th ∈ jobs, 0 ≤ th.arrival ∧ 1 ≤ th.burst := fun th hth =>
      hjobs th (List.mem_cons_of_mem job hth)
    have hpos := bursts_nonneg fun th hth => (hrest th hth).2
    have hmax : (0 : Int) ≤ INT_MAX := by decide
    rw [bursts_cons] at hfits
    have hfirst := htime.1
    have ht : int (c + job.burst) = some (c + job.burst) := int_eq_some.mpr ⟨rfl, by omega, by omega⟩
    have hturn : int (c + job.burst - job.arrival) = some (c + job.burst - job.arrival) :=
      int_eq_some.mpr ⟨rfl, by omega, by omega⟩
    have hwait : int (c + job.burst - job.arrival - job.burst) =
        some (c + job.burst - job.arrival - job.burst) := int_eq_some.mpr ⟨rfl, by omega, by omega⟩
    simp only [account, ht, hturn, hwait, ih hrest (by omega) (by omega) htime.2, Option.bind_eq_bind,
      Option.bind_some, Option.pure_def, placed]

private theorem placed_request (c : Int) (jobs : List Thread) :
    (placed c jobs).map Thread.request = jobs.map Thread.request := by
  induction jobs generalizing c with
  | nil => rfl
  | cons job jobs ih => rw [placed, List.map_cons, List.map_cons, ih, Thread.request, Thread.request]

private theorem placed_bursts (c : Int) (jobs : List Thread) :
    (placed c jobs).map Thread.burst = jobs.map Thread.burst := by
  induction jobs generalizing c with
  | nil => rfl
  | cons job jobs ih => rw [placed, List.map_cons, List.map_cons, ih]

private theorem placed_arrived : (∀ th ∈ placed c jobs, th.arrival ≤ th.start) ↔ OnTime c jobs := by
  induction jobs generalizing c with
  | nil => exact iff_of_true (fun th hth => absurd hth List.not_mem_nil) trivial
  | cons job jobs ih =>
    rw [placed, List.forall_mem_cons, OnTime, ih]
    apply and_congr_left'
    show job.arrival ≤ job.arrival + (c + job.burst - job.arrival - job.burst) ↔ job.arrival ≤ c
    omega

private theorem placed_finish (hth : th ∈ placed c jobs) : th.finish = th.start + th.burst := by
  induction jobs generalizing c with
  | nil => cases hth
  | cons job jobs ih =>
    cases List.mem_cons.mp hth with
    | inl heq =>
      subst heq
      show job.arrival + (c + job.burst - job.arrival) =
        job.arrival + (c + job.burst - job.arrival - job.burst) + job.burst
      omega
    | inr hrest => exact ih hrest

private theorem placed_start_le (hjobs : ∀ th ∈ jobs, 1 ≤ th.burst) (hth : th ∈ placed c jobs) : c ≤ th.start := by
  induction jobs generalizing c with
  | nil => cases hth
  | cons job jobs ih =>
    cases List.mem_cons.mp hth with
    | inl heq =>
      subst heq
      show c ≤ job.arrival + (c + job.burst - job.arrival - job.burst)
      omega
    | inr hrest =>
      have hlater := ih (fun x hx => hjobs x (List.mem_cons_of_mem job hx)) hrest
      have hpos := hjobs job List.mem_cons_self
      omega

private theorem placed_in_turn (hjobs : ∀ th ∈ jobs, 1 ≤ th.burst) :
    (placed c jobs).Pairwise fun a b => a.finish ≤ b.start := by
  induction jobs generalizing c with
  | nil => exact List.Pairwise.nil
  | cons job jobs ih =>
    have hrest : ∀ th ∈ jobs, 1 ≤ th.burst := fun th hth => hjobs th (List.mem_cons_of_mem job hth)
    apply List.Pairwise.cons
    · intro b hb
      have hlater := placed_start_le hrest hb
      show job.arrival + (c + job.burst - job.arrival) ≤ b.start
      omega
    · exact ih hrest

theorem placed_shortest (hjobs : ∀ th ∈ jobs, 1 ≤ th.burst)
    (hsorted : jobs.Pairwise fun a b => a.burst ≤ b.burst) :
    ∀ a ∈ placed c jobs, ∀ b ∈ placed c jobs, a.start ≤ b.start → a.burst ≤ b.burst := by
  have horder : (placed c jobs).Pairwise fun a b => a.burst ≤ b.burst := by
    rw [← List.pairwise_map (R := (· ≤ ·)), placed_bursts, List.pairwise_map]
    exact hsorted
  have hpos : ∀ th ∈ placed c jobs, 1 ≤ th.burst := fun th hth => by
    have hmem : th.burst ∈ jobs.map Thread.burst := placed_bursts c jobs ▸ List.mem_map_of_mem hth
    obtain ⟨job, hjob, heq⟩ := List.mem_map.mp hmem
    exact heq ▸ hjobs job hjob
  apply List.Pairwise.forall_of_forall_of_flip
  · exact fun a _ _ => le_refl a.burst
  · apply horder.imp
    intro a b hle _
    exact hle
  · apply (placed_in_turn (c := c) hjobs).imp_of_mem
    intro a b ha _ hturn hstart
    have hfinish := placed_finish ha
    have hburst := hpos a ha
    omega

private theorem bubble_perm (jobs : List Thread) : (bubble jobs).Perm jobs := bubbleSort_perm Thread.burst jobs

theorem onTime_bubble : OnTime 0 (bubble jobs) ↔ ArriveInTime jobs := by
  obtain ⟨hfst, horder⟩ := bubbleSort_zipIdx Thread.burst jobs
  have hperm := bubbleSort_perm (fun x : Thread × Nat => x.1.burst) jobs.zipIdx
  have hfront : ∀ front x back, bubbleSort (fun x : Thread × Nat => x.1.burst) jobs.zipIdx =
      front ++ x :: back → bursts (front.map Prod.fst) = burstsBefore jobs x := by
    intro front x back heq
    rw [heq] at horder hperm
    have hfilter := front_eq_filter (fun _ _ => Precedes.asymm) horder
    have hsame := (hperm.filter fun y => Precedes Thread.burst y x).map fun y => y.1.burst
    rw [hfilter] at hsame
    rw [burstsBefore, bursts, bursts, List.map_map, List.map_map]
    exact hsame.sum_eq
  rw [onTime_iff, bubble, ← hfst]
  constructor
  · intro h x hx
    obtain ⟨front, back, heq⟩ := List.append_of_mem (hperm.mem_iff.mpr hx)
    have hx := h (front.map Prod.fst) x.1 (back.map Prod.fst) (by rw [heq, List.map_append, List.map_cons])
    rw [zero_add, hfront front x back heq] at hx
    exact hx
  · intro h front th back heq
    obtain ⟨front', rest, heq', hf, hr⟩ := List.map_eq_append_iff.mp heq
    obtain ⟨x, back', hrest, hx, hb⟩ := List.map_eq_cons_iff.mp hr
    subst hf hx hrest
    rw [zero_add, hfront front' x back' heq']
    apply h
    rw [← hperm.mem_iff, heq']
    exact List.mem_append_right front' List.mem_cons_self

/-- The reported schedule respects the arrivals exactly if no job is still to come when its turn is. -/
theorem sjf_scheduler_respectsArrivals_iff (hjobs : ∀ th ∈ jobs, 0 ≤ th.arrival ∧ 1 ≤ th.burst) :
    RespectsArrivals jobs ↔ ArriveInTime jobs ∧ bursts jobs ≤ INT_MAX := by
  have hsorted : ∀ th ∈ bubble jobs, 0 ≤ th.arrival ∧ 1 ≤ th.burst := fun th hth =>
    hjobs th ((bubble_perm jobs).mem_iff.mp hth)
  have hpos : ∀ th ∈ bubble jobs, 1 ≤ th.burst := fun th hth => (hsorted th hth).2
  have htotal : bursts (bubble jobs) = bursts jobs := ((bubble_perm jobs).map Thread.burst).sum_eq
  rw [← onTime_bubble, ← htotal]
  constructor
  · intro h
    obtain ⟨out, hrun, hschedule⟩ := h
    have hfits := account_fits (by decide) hrun
    rw [zero_add] at hfits
    have harrived := hschedule.arrived
    rw [account_placed hrun] at harrived
    exact ⟨placed_arrived.mp harrived, hfits⟩
  · intro h
    obtain ⟨htime, hfits⟩ := h
    refine ⟨_, account_eq hsorted (le_refl 0) (by rwa [zero_add]) htime, ?_, placed_arrived.mpr htime, ?_, ?_⟩
    · rw [placed_request]
      exact (bubble_perm jobs).map Thread.request
    · exact (placed_in_turn hpos).imp .inl
    · intro a ha b hb _
      exact placed_shortest hpos (bubbleSort_sorted Thread.burst jobs) a ha b hb

/-- A job before it is scheduled. -/
def job (thread_ID arrival burst : Int) : Thread := ⟨thread_ID, arrival, 0, 0, burst, 0, 0, 0⟩

theorem sjf_scheduler_respectsArrivals_three :
    RespectsArrivals [job 1 0 8, job 2 0 4, job 3 4 4] ↔
      ArriveInTime [job 1 0 8, job 2 0 4, job 3 4 4] ∧
        bursts [job 1 0 8, job 2 0 4, job 3 4 4] ≤ INT_MAX :=
  sjf_scheduler_respectsArrivals_iff (by decide)

/-- The first jobs of the tests: the shortest one arrives at 2 and starts at 0. -/
theorem sjf_scheduler_before_arrival :
    (∀ th ∈ [job 1 0 10, job 2 2 4, job 3 4 6], 0 ≤ th.arrival ∧ 1 ≤ th.burst) ∧
      ¬ RespectsArrivals [job 1 0 10, job 2 2 4, job 3 4 6] := by
  refine ⟨by decide, fun ⟨out, hrun, hschedule⟩ => ?_⟩
  cases hrun
  exact absurd hschedule.arrived (by decide)

end CseOs.FifoSjf
