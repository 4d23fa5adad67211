import CseOs.WindowsLinux.RunQueue
import Mathlib.Tactic.Linarith
import Mathlib.Tactic.Positivity
import Mathlib.Tactic.Ring

/-!
# The fairness of `simulate_cfs`

A process that enters the queue has the virtual run time zero, whatever the others have. The bound on
the difference of two virtual run times therefore needs that the one behind was in the queue when the
other one ran last.
-/

namespace CseOs.WindowsLinux

open Framework

variable {product : Int → Int → Int → Int} {n i j : Nat} {procs : Nat → Proc} {arr : Nat → Arrival} {rank : Nat → Nat}
  {csCost schedPeriod : Int} {s t u : CfsSt} {us : List CfsSt}

/-- The state when the arrivals of a turn have been handled. -/
def noticed (n : Nat) (arr : Nat → Arrival) (s : CfsSt) : CfsSt := cfsArrive n arr (n - s.ai) s

/-- The states of the queue at the dispatches of the turns `us`, the last one first. -/
def dispatches (n : Nat) (arr : Nat → Arrival) (us : List CfsSt) : List CfsSt :=
  (us.map (noticed n arr)).filter fun u => u.runq.n ≠ 0

/-- `512 * slice / weight` of the slice that is given at a dispatch. -/
def increment (product : Int → Int → Int → Int) (schedPeriod : Int) (u : CfsSt) : Rat :=
  512 * (cfsRunLen product schedPeriod u : Rat) / (niceWeight (u.procs (u.runq.cell 0).1).nice : Rat)

/-- The largest increment at the dispatches `ds`. -/
def largest (product : Int → Int → Int → Int) (schedPeriod : Int) (ds : List CfsSt) : Rat :=
  (ds.map (increment product schedPeriod)).foldr max 0

/-- The last dispatch of the process `i`. -/
def lastDispatch (i : Nat) (ds : List CfsSt) : Option CfsSt :=
  ds.find? fun u => (u.runq.cell 0).1 = i

/-- The process `j` was in the queue when the process `i` was dispatched last. -/
def Since (ds : List CfsSt) (i j : Nat) : Prop :=
  ∀ u, lastDispatch i ds = some u → j ∈ waitingOf u

/-- `simulate_cfs` comes to the head of its loop in the state `s`, after the turns `us`. -/
def CfsPasses (product : Int → Int → Int → Int) (n : Nat) (procs : Nat → Proc)
    (csCost schedPeriod : Int) (us : List CfsSt) (s : CfsSt) : Prop :=
  n ≤ MAXP ∧
    Passes (fun s => !s.done) (cfsBody product n procs csCost schedPeriod) (cfsStart procs) us s

/-- At every dispatch the virtual run times of two processes of the queue that are in the relation `R`
differ by at most the largest increment so far. -/
def FairFor (R : List CfsSt → Nat → Nat → Prop) (product : Int → Int → Int → Int) (n : Nat)
    (procs : Nat → Proc) (csCost schedPeriod : Int) : Prop :=
  ∀ us s, CfsPasses product n (fun i => (procs i).reset) csCost schedPeriod us s → s.done = false →
    let arr := arrivalsOf n fun i => (procs i).reset
    let u := noticed n arr s
    let ds := dispatches n arr us
    ∀ i ∈ waitingOf u, ∀ j ∈ waitingOf u, R ds i j →
      (u.procs i).vruntime - (u.procs j).vruntime ≤ largest product schedPeriod ds

section Histories

variable {ds : List CfsSt}

private theorem largest_nonneg : 0 ≤ largest product schedPeriod ds := by
  rw [largest]
  induction ds with
  | nil => exact le_refl 0
  | cons u ds ih => exact ih.trans (le_max_right _ _)

private theorem increment_le_largest : increment product schedPeriod u ≤ largest product schedPeriod (u :: ds) :=
  le_max_left _ _

private theorem largest_le_cons : largest product schedPeriod ds ≤ largest product schedPeriod (u :: ds) :=
  le_max_right _ _

private theorem lastDispatch_self : lastDispatch (u.runq.cell 0).1 (u :: ds) = some u :=
  List.find?_cons_of_pos (by simp)

private theorem lastDispatch_of_ne (h : (u.runq.cell 0).1 ≠ i) :
    lastDispatch i (u :: ds) = lastDispatch i ds :=
  List.find?_cons_of_neg (by simpa using h)

private theorem dispatches_cons : dispatches n arr (s :: us) =
    if (noticed n arr s).runq.n ≠ 0 then noticed n arr s :: dispatches n arr us
    else dispatches n arr us := by
  rw [dispatches, List.map_cons, List.filter_cons]
  simp only [decide_eq_true_eq]
  rfl

/-- The invariant of the loop after the dispatches `ds`. -/
structure FairInv (product : Int → Int → Int → Int) (n : Nat) (rank : Nat → Nat) (schedPeriod : Int)
    (ds : List CfsSt) (s : CfsSt) : Prop
    extends QueueInv n rank s where
  nonneg : ∀ i ∈ waitingOf s, 0 ≤ (s.procs i).vruntime
  seen : ∀ u ∈ ds, ∀ j ∈ waitingOf u, rank j < s.ai
  unserved : ∀ i ∈ waitingOf s, lastDispatch i ds = none → (s.procs i).vruntime = 0
  bound : ∀ i ∈ waitingOf s, ∀ j ∈ waitingOf s, Since ds i j →
    (s.procs i).vruntime - (s.procs j).vruntime ≤ largest product schedPeriod ds

theorem FairInv.bound_of_zero (hj : 0 ≤ (s.procs j).vruntime) (hi : (s.procs i).vruntime = 0) :
    (s.procs i).vruntime - (s.procs j).vruntime ≤ largest product schedPeriod ds := by
  have hpos : 0 ≤ largest product schedPeriod ds := largest_nonneg
  linarith

theorem FairInv.arrive (ht : Timetable n (fun i => (procs i).arrival) arr rank)
    (h : FairInv product n rank schedPeriod ds s) (hai : s.ai < n) (he : Enqueues s t (arr s.ai).idx) :
    FairInv product n rank schedPeriod ds t := by
  have hqueue := h.toQueueInv.arrive ht hai he
  have hrank := ht.rank_idx s.ai hai
  have hzero := h.fresh _ (ht.idx_lt s.ai hai) (by omega)
  generalize (arr s.ai).idx = k at *
  have hvalue : ∀ j, (t.procs j).vruntime = (s.procs j).vruntime := fun j => (he.values j).2.2.2.1
  have hmem : ∀ j, j ∈ waitingOf t → j = k ∨ j ∈ waitingOf s := by
    intro j hj
    rwa [he.waiting.mem_iff, List.mem_cons] at hj
  have hnonneg : ∀ j ∈ waitingOf t, 0 ≤ (t.procs j).vruntime := by
    intro j hj
    rw [hvalue]
    cases hmem j hj with
    | inl heq => rw [heq, hzero]
    | inr hold => exact h.nonneg j hold
  refine ⟨hqueue, hnonneg, fun u hu j hj => ?_, fun j hj hnone => ?_, fun i hi j hj hsince => ?_⟩
  · rw [he.ai]
    exact Nat.lt_succ_of_lt (h.seen u hu j hj)
  · rw [hvalue]
    cases hmem j hj with
    | inl heq => rw [heq, hzero]
    | inr hold => exact h.unserved j hold hnone
  · cases hmem i hi with
    | inl heq =>
      apply FairInv.bound_of_zero (hnonneg j hj)
      rw [heq, hvalue, hzero]
    | inr hiold =>
      cases hmem j hj with
      | inl heq =>
        apply FairInv.bound_of_zero (hnonneg j hj)
        rw [hvalue]
        apply h.unserved i hiold
        cases hlast : lastDispatch i ds with
        | none => rfl
        | some u =>
          have hlt := h.seen u (List.mem_of_find?_eq_some hlast) j (hsince u hlast)
          rw [heq, hrank] at hlt
          exact absurd hlt (Nat.lt_irrefl _)
      | inr hjold =>
        rw [hvalue, hvalue]
        exact h.bound i hiold j hjold hsince

private theorem FairInv.arrivals (ht : Timetable n (fun i => (procs i).arrival) arr rank) (fuel : Nat)
    (h : FairInv product n rank schedPeriod ds s) : FairInv product n rank schedPeriod ds (cfsArrive n arr fuel s) := by
  induction fuel generalizing s with
  | zero => exact h
  | succ fuel ih =>
    rw [cfsArrive]
    split
    · next hdue => exact ih (h.arrive ht hdue.1 (cfsEnqueue_enqueues s _))
    · exact h

theorem FairInv.serve {rest : List (Nat × Rat)} (h : FairInv product n rank schedPeriod ds s)
    (hs : Serves s t (s.runq.cell 0).1 (cfsRunLen product schedPeriod s) rest) :
    FairInv product n rank schedPeriod (s :: ds) t := by
  have hqueue := h.toQueueInv
  obtain ⟨hfirst, _⟩ := hs.served hqueue
  have hw : (0 : Rat) < (niceWeight (s.procs (s.runq.cell 0).1).nice : Rat) :=
    Int.cast_pos.mpr (niceWeight_pos _)
  have hgain : (t.procs (s.runq.cell 0).1).vruntime =
      (s.procs (s.runq.cell 0).1).vruntime + increment product schedPeriod s := by
    rw [hs.vruntime, increment]
    ring
  have hleast : ∀ j ∈ waitingOf s, (s.procs (s.runq.cell 0).1).vruntime ≤ (s.procs j).vruntime := by
    intro j hj
    obtain ⟨e, he, heq⟩ := List.mem_map.mp hj
    have hcell : s.runq.cell 0 ∈ s.runq.entries := hs.before.mem_iff.mpr List.mem_cons_self
    rw [← heq, ← h.keys e he, ← h.keys _ hcell]
    exact h.ordered.first_le e he
  have hlength := hs.length
  have hself := hs.self_waiting hqueue
  have hothers := fun j (hj : j ≠ (s.runq.cell 0).1) => hs.mem_waiting hqueue hj
  have hsame := hs.others
  have hai := hs.ai
  have hpositive : 1 ≤ cfsRunLen product schedPeriod s → 0 < increment product schedPeriod s := by
    intro hrun
    have hrun : (0 : Rat) < (cfsRunLen product schedPeriod s : Rat) := Int.cast_pos.mpr (by omega)
    rw [increment]
    positivity
  generalize hk : (s.runq.cell 0).1 = k at *
  have hold : ∀ j ∈ waitingOf t, j ∈ waitingOf s ∧ (s.procs j).vruntime ≤ (t.procs j).vruntime := by
    intro j hj
    by_cases hjk : j = k
    · rw [hjk] at hj ⊢
      have hmore := hself.mp hj
      have := hpositive (by omega)
      exact ⟨hfirst, by linarith⟩
    · rw [hsame j hjk]
      exact ⟨(hothers j hjk).mp hj, le_refl _⟩
  refine ⟨h.toQueueInv.serve (hk ▸ hs), fun j hj => ?_, fun u hu j hj => ?_, fun j hj hnone => ?_,
    fun i hi j hj hsince => ?_⟩
  · exact (h.nonneg j (hold j hj).1).trans (hold j hj).2
  · rw [hai]
    cases List.mem_cons.mp hu with
    | inl heq =>
      rw [heq] at hj
      exact (h.member j hj).2
    | inr hu => exact h.seen u hu j hj
  · by_cases hjk : j = k
    · rw [hjk, ← hk, lastDispatch_self] at hnone
      cases hnone
    · rw [lastDispatch_of_ne (by omega)] at hnone
      rw [hsame j hjk]
      exact h.unserved j (hold j hj).1 hnone
  · obtain ⟨hjold, hle⟩ := hold j hj
    by_cases hik : i = k
    · have hbehind := hleast j hjold
      have hinc : increment product schedPeriod s ≤ largest product schedPeriod (s :: ds) := increment_le_largest
      rw [hik, hgain]
      linarith
    · have hlast : Since ds i j := by
        intro u hu
        apply hsince u
        rw [lastDispatch_of_ne (by omega)]
        exact hu
      have hwas := h.bound i (hold i hi).1 j hjold hlast
      have hmono : largest product schedPeriod ds ≤ largest product schedPeriod (s :: ds) := largest_le_cons
      rw [hsame i hik]
      linarith

end Histories

private theorem FairInv.turn (ht : Timetable n (fun i => (procs i).arrival) arr rank)
    (h : FairInv product n rank schedPeriod (dispatches n arr us) s)
    (hturn : cfsTurn product n arr csCost schedPeriod s = some t) :
    FairInv product n rank schedPeriod (dispatches n arr (s :: us)) t := by
  have hinv := h.arrivals ht (n - s.ai)
  rw [dispatches_cons]
  change FairInv product n rank schedPeriod _ (noticed n arr s) at hinv
  change cfsSelect product n arr csCost schedPeriod (noticed n arr s) = some t at hturn
  generalize noticed n arr s = u at *
  rw [cfsSelect] at hturn
  by_cases hempty : u.runq.n = 0
  · rw [if_pos hempty] at hturn
    rw [if_neg fun hne => hne hempty]
    split at hturn
    · cases hturn
      exact ⟨⟨hinv.member, hinv.nodup, hinv.ordered, hinv.keys, hinv.fresh⟩, hinv.nonneg, hinv.seen,
        hinv.unserved, hinv.bound⟩
    · cases hturn
      exact ⟨⟨hinv.member, hinv.nodup, hinv.ordered, hinv.keys, hinv.fresh⟩, hinv.nonneg, hinv.seen,
        hinv.unserved, hinv.bound⟩
  · rw [if_neg hempty] at hturn
    rw [if_pos hempty]
    exact hinv.serve (cfsDispatch_serves (Nat.pos_of_ne_zero hempty) hturn)

private theorem fairInv_of_passes
    (ht : Timetable n (fun i => (procs i).arrival) (arrivalsOf n fun i => (procs i).reset) rank)
    (h : CfsPasses product n (fun i => (procs i).reset) csCost schedPeriod us s) :
    FairInv product n rank schedPeriod (dispatches n (arrivalsOf n fun i => (procs i).reset) us) s := by
  apply h.2.invariant
    (I := fun us s => FairInv product n rank schedPeriod
      (dispatches n (arrivalsOf n fun i => (procs i).reset) us) s)
  · exact ⟨queueInv_start, fun _ hi => absurd hi List.not_mem_nil, fun _ hu => absurd hu List.not_mem_nil,
      fun _ hi => absurd hi List.not_mem_nil, fun _ hi => absurd hi List.not_mem_nil⟩
  · intro us s t hinv _ hrun
    exact hinv.turn ht hrun

/-- A process is ahead of another one by at most one increment, if that one was in the queue when it was
dispatched last. -/
theorem simulate_cfs_fair : FairFor Since product n procs csCost schedPeriod := by
  obtain ⟨rank, ht⟩ : ∃ rank, Timetable n (fun i => (procs i).arrival)
      (arrivalsOf n fun i => (procs i).reset) rank := arrivalsOf_timetable
  intro us s h _
  exact ((fairInv_of_passes ht h).arrivals ht (n - s.ai)).bound

/-- Of two processes, the second one enters when the first one has run for two slices. -/
def newcomer (i : Nat) : Proc := ⟨i + 1, 20 * i, 100, 0, 0, 0, 0, 0, 0, 0, 0, 0⟩

/-- The state of the queue at a dispatch after the turns `us`, in which the first process is ahead of
the second one by more than the largest increment. -/
def aheadAt (us : List CfsSt) (s : CfsSt) : Bool :=
  let arr := arrivalsOf 2 fun i => (newcomer i).reset
  let u := noticed 2 arr s
  !s.done && (waitingOf u).contains 0 && (waitingOf u).contains 1 &&
    !decide ((u.procs 0).vruntime - (u.procs 1).vruntime ≤
      largest wholeSlice 10 (dispatches 2 arr us))

/-- The second process enters with the run time zero, when the first one has run for two slices. -/
theorem simulate_cfs_unfair : ¬ FairFor (fun _ _ _ => True) wholeSlice 2 newcomer 0 10 := by
  intro h
  have hrun : ((cfsBody wholeSlice 2 (fun i => (newcomer i).reset) 0 10
      (cfsStart fun i => (newcomer i).reset)).any fun s => !s.done &&
        (cfsBody wholeSlice 2 (fun i => (newcomer i).reset) 0 10 s).any
          (aheadAt [s, cfsStart fun i => (newcomer i).reset])) = true := by
    decide +kernel
  obtain ⟨s, hs, hrest⟩ := (Option.any_eq_true _ _).mp hrun
  rw [Bool.and_eq_true] at hrest
  obtain ⟨t, ht, hahead⟩ := (Option.any_eq_true _ _).mp hrest.2
  simp only [aheadAt, Bool.and_eq_true, Bool.not_eq_true', decide_eq_false_iff_not,
    List.contains_iff_mem] at hahead
  exact hahead.2 (h _ t ⟨by decide, .turn (.turn .start ⟨rfl, hs⟩) ⟨hrest.1, ht⟩⟩ hahead.1.1.1
    0 hahead.1.1.2 1 hahead.1.2 trivial)

end CseOs.WindowsLinux
