import CseOs.Framework.TurnOrder
import CseOs.MultiLevel.Scheduler
import Mathlib.Tactic.IntervalCases

/-!
# Turns in the round-robin queue

`rr` takes the process at `counter` modulo the length of its queue. The length changes with arrivals and
with processes that finish, and the counter is not adapted to it.
-/

namespace CseOs.MultiLevel

open Framework State

variable {procArray : List Process} {memory : QueueTypes → Nat → Option Ptr} {n t i k : Nat}
  {s s' a : State} {q : QueueTypes} {p r : Ptr} {ps l : List Ptr}

/-- The processes that `scheduleMain` puts into `RRQueue` in tick `t`. -/
def newcomers (n t : Nat) (s : State) : List Ptr :=
  (List.range n).filter fun p => (s.proc p).arrivalTime = t ∧ (s.proc p).priority = 1

/-- Modulo the length that the queue has in the next tick, the counter names the place behind the process
that is executed in tick `t`, or its own place if it finishes. -/
def turnKept (n t : Nat) (s : State) : Bool :=
  match arriveAll t (List.range n) s with
  | none => true
  | some a =>
    let turn := a.counter % a.idx .ROUNDROBIN
    let more := (newcomers n (t + 1) s).length
    match a.queue .ROUNDROBIN turn with
    | none => true
    | some p =>
      if a.idx .ROUNDROBIN = 0 then true
      else if (a.proc p).remainingTime ≤ 1 then
        let next := a.idx .ROUNDROBIN - 1 + more
        next = 0 ∨ a.counter % next = turn % next
      else
        let next := a.idx .ROUNDROBIN + more
        (a.counter + 1) % next = (turn + 1) % next

/-- Tick `t` executes the process in its round-robin level. -/
def ExecutesRr (procArray : List Process) (memory : QueueTypes → Nat → Option Ptr) (t : Nat) (p : Ptr) :
    Prop :=
  ∃ s s', stateAt procArray memory t = some s ∧ stateAt procArray memory (t + 1) = some s' ∧
    s'.output = s.output ++ [Line.executing t p .ROUNDROBIN]

def InRr (s : State) (p : Ptr) : Prop := ∃ i < s.idx .ROUNDROBIN, s.queue .ROUNDROBIN i = some p

/-- Between two executions in a row of a process, every other one that is in the queue all the time is
executed. -/
def FairRotation (procArray : List Process) (memory : QueueTypes → Nat → Option Ptr)
    (maxTimesteps : Nat) : Prop :=
  ∀ t₁ t₂ p r, t₁ < t₂ → t₂ < maxTimesteps →
    ExecutesRr procArray memory t₁ p → ExecutesRr procArray memory t₂ p →
    (∀ u, t₁ < u → u < t₂ → ¬ ExecutesRr procArray memory u p) → r ≠ p →
    (∀ u s, t₁ < u → u ≤ t₂ → stateAt procArray memory u = some s → InRr s r) →
    ∃ u, t₁ < u ∧ u < t₂ ∧ ExecutesRr procArray memory u r

/-- The entries of `RRQueue` before the arrivals of tick `t`. -/
structure RrQueue (t : Nat) (s : State) (l : List Ptr) : Prop where
  holds : Holds (s.queue .ROUNDROBIN) l
  idx : s.idx .ROUNDROBIN = l.length
  nodup : l.Nodup
  arrived : ∀ r ∈ l, (s.proc r).arrivalTime < t
  tq : s.tq = timeQuantum

/-- Nothing but the queues differs. -/
structure SameButQueues (s s' : State) : Prop where
  proc : s'.proc = s.proc
  counter : s'.counter = s.counter
  tq : s'.tq = s.tq
  output : s'.output = s.output

private theorem sameButQueues_refl (s : State) : SameButQueues s s := ⟨rfl, rfl, rfl, rfl⟩

private theorem SameButQueues.trans {u : State} (h : SameButQueues s a) (h' : SameButQueues a u) :
    SameButQueues s u :=
  ⟨h'.proc.trans h.proc, h'.counter.trans h.counter, h'.tq.trans h.tq, h'.output.trans h.output⟩

private theorem setQueue_same (q : QueueTypes) (b : Nat → Option Ptr) (m : Nat) (s : State) :
    (s.setQueue q b m).queue q = b ∧ (s.setQueue q b m).idx q = m :=
  ⟨Function.update_self .., Function.update_self ..⟩

private theorem setQueue_other {q' : QueueTypes} (hq : q' ≠ q) (b : Nat → Option Ptr) (m : Nat) (s : State) :
    (s.setQueue q b m).queue q' = s.queue q' ∧ (s.setQueue q b m).idx q' = s.idx q' :=
  ⟨Function.update_of_ne hq .., Function.update_of_ne hq ..⟩

theorem arrive_rr (hholds : Holds (s.queue .ROUNDROBIN) l) (hidx : s.idx .ROUNDROBIN = l.length)
    (hrun : arrive t p s = some s') : SameButQueues s s' ∧
      ∃ l', l' = (if (s.proc p).arrivalTime = t ∧ (s.proc p).priority = 1 then l ++ [p] else l) ∧
        Holds (s'.queue .ROUNDROBIN) l' ∧ s'.idx .ROUNDROBIN = l'.length := by
  have helse : ∀ q, q ≠ .ROUNDROBIN → s' = enqueue q p s →
      Holds (s'.queue .ROUNDROBIN) l ∧ s'.idx .ROUNDROBIN = l.length := by
    intro q hq heq
    have hother := setQueue_other hq.symm (Function.update (s.queue q) (s.idx q) (some p)) (s.idx q + 1) s
    rw [heq, enqueue, hother.1, hother.2]
    exact ⟨hholds, hidx⟩
  rw [arrive] at hrun
  by_cases ht : (s.proc p).arrivalTime = t
  · rw [if_pos ht] at hrun
    by_cases hrr : (s.proc p).priority = 1
    · rw [if_pos hrr] at hrun
      cases hrun
      refine ⟨⟨rfl, rfl, rfl, rfl⟩, l ++ [p], (if_pos ⟨ht, hrr⟩).symm, ?_, ?_⟩
      · rw [enqueue, (setQueue_same ..).1, hidx]
        exact hholds.push p
      · rw [enqueue, (setQueue_same ..).2, hidx, List.length_append, List.length_singleton]
    · rw [if_neg hrr] at hrun
      rw [if_neg fun h => hrr h.2]
      split at hrun
      · cases hrun
        exact ⟨⟨rfl, rfl, rfl, rfl⟩, l, rfl, helse .STCF (by decide) rfl⟩
      · split at hrun
        · cases hrun
          exact ⟨⟨rfl, rfl, rfl, rfl⟩, l, rfl, helse .FIFO (by decide) rfl⟩
        · split at hrun
          · cases hrun
            exact ⟨⟨rfl, rfl, rfl, rfl⟩, l, rfl, helse .SJF (by decide) rfl⟩
          · cases hrun
  · rw [if_neg ht] at hrun
    rw [if_neg fun h => ht h.1]
    cases hrun
    exact ⟨sameButQueues_refl s, l, rfl, hholds, hidx⟩

private theorem arriveAll_rr (hholds : Holds (s.queue .ROUNDROBIN) l) (hidx : s.idx .ROUNDROBIN = l.length)
    (hrun : arriveAll t ps s = some a) : SameButQueues s a ∧
      ∃ l', l' = l ++ ps.filter (fun p => (s.proc p).arrivalTime = t ∧ (s.proc p).priority = 1) ∧
        Holds (a.queue .ROUNDROBIN) l' ∧ a.idx .ROUNDROBIN = l'.length := by
  induction ps generalizing s l with
  | nil =>
    cases hrun
    exact ⟨sameButQueues_refl _, l, (List.append_nil l).symm, hholds, hidx⟩
  | cons p ps ih =>
    obtain ⟨b, hp, hrest⟩ := Option.bind_eq_some_iff.mp hrun
    obtain ⟨hsame, l', hl', hholds', hidx'⟩ := arrive_rr hholds hidx hp
    obtain ⟨hsame', l'', hl'', hholds'', hidx''⟩ := ih hholds' hidx' hrest
    refine ⟨hsame.trans hsame', l'', ?_, hholds'', hidx''⟩
    rw [hl'', hl', hsame.proc, List.filter_cons]
    by_cases hin : (s.proc p).arrivalTime = t ∧ (s.proc p).priority = 1
    · rw [if_pos hin, if_pos (decide_eq_true hin), List.append_assoc]
      rfl
    · rw [if_neg hin, if_neg (by rw [decide_eq_false hin]; exact Bool.false_ne_true)]

private theorem RrQueue.arriveAll (h : RrQueue t s l) (hrun : arriveAll t (List.range n) s = some a) :
    RrQueue (t + 1) a (l ++ newcomers n t s) ∧ SameButQueues s a := by
  obtain ⟨hsame, l', hl', hholds, hidx⟩ := arriveAll_rr h.holds h.idx hrun
  have hl : l' = l ++ newcomers n t s := hl'
  subst hl
  have hnew : ∀ r ∈ newcomers n t s, (s.proc r).arrivalTime = t := fun r hr =>
    (of_decide_eq_true (List.mem_filter.mp hr).2).1
  refine ⟨⟨hholds, hidx, ?_, fun r hr => ?_, hsame.tq.trans h.tq⟩, hsame⟩
  · apply h.nodup.append (List.nodup_range.filter _)
    intro r hold hr
    have hbefore := h.arrived r hold
    rw [hnew r hr] at hbefore
    omega
  · rw [hsame.proc]
    cases List.mem_append.mp hr with
    | inl hold =>
      have hbefore := h.arrived r hold
      omega
    | inr hr =>
      rw [hnew r hr]
      omega

/-- What a tick does not change for a process. -/
def SameFixed (s s' : State) : Prop :=
  ∀ r, (s'.proc r).arrivalTime = (s.proc r).arrivalTime ∧ (s'.proc r).priority = (s.proc r).priority

private theorem newcomers_congr (h : SameFixed s s') : newcomers n t s' = newcomers n t s := by
  apply List.filter_congr
  intro r _
  rw [(h r).1, (h r).2]

private theorem sameFixed_setProc {f : Process → Process} (hf : ∀ th, (f th).arrivalTime = th.arrivalTime ∧
    (f th).priority = th.priority) (p : Ptr) (s : State) : SameFixed s (s.setProc p f) := by
  intro r
  show (Function.update s.proc p (f (s.proc p)) r).arrivalTime = _ ∧
    (Function.update s.proc p (f (s.proc p)) r).priority = _
  by_cases hr : r = p
  · rw [hr, Function.update_self]
    exact hf _
  · rw [Function.update_of_ne hr]
    exact ⟨rfl, rfl⟩

private theorem SameFixed.trans {u : State} (h : SameFixed s a) (h' : SameFixed a u) : SameFixed s u :=
  fun r => ⟨(h' r).1.trans (h r).1, (h' r).2.trans (h r).2⟩

/-- The process of slot `i` has its tick, and the queues stay as they are. -/
structure Executed (t : Nat) (q : QueueTypes) (i : Nat) (p : Ptr) (s s' : State) : Prop where
  slot : s.queue q i = some p
  fixed : SameFixed s s'
  queue : s'.queue = s.queue
  idx : s'.idx = s.idx
  counter : s'.counter = s.counter
  tq : s'.tq = s.tq
  output : s'.output = s.output ++ [Line.executing t p q]

private theorem execute_executed {done : Int → Bool} {fin : Bool} (hrun : execute done q i t s = some (fin, s')) :
    ∃ p, Executed t q i p s s' ∧ fin = done ((s.proc p).remainingTime - 1) := by
  obtain ⟨p, hp, hrest⟩ := Option.bind_eq_some_iff.mp hrun
  have hone := sameFixed_setProc (f := fun th => { th with remainingTime := (s.proc p).remainingTime - 1 })
    (fun _ => ⟨rfl, rfl⟩) p { s with output := s.output ++ [Line.executing t p q] }
  refine ⟨p, ?_⟩
  by_cases hdone : done ((s.proc p).remainingTime - 1) = true
  · simp only [hdone, if_true] at hrest
    cases hrest
    have htwo := sameFixed_setProc (f := fun th => { th with finishTime := (t : Int) + 1 })
      (fun _ => ⟨rfl, rfl⟩) p
    exact ⟨⟨hp, hone.trans (htwo _), rfl, rfl, rfl, rfl, rfl⟩, hdone.symm⟩
  · simp only [hdone, Bool.false_eq_true, if_false] at hrest
    cases hrest
    exact ⟨⟨hp, hone, rfl, rfl, rfl, rfl, rfl⟩, (Bool.eq_false_iff.mpr hdone).symm⟩

/-- A tick of one of the lower levels, or of none. -/
structure Aside (t : Nat) (s s' : State) : Prop where
  fixed : SameFixed s s'
  queue : s'.queue .ROUNDROBIN = s.queue .ROUNDROBIN
  idx : s'.idx .ROUNDROBIN = s.idx .ROUNDROBIN
  counter : s'.counter = s.counter
  tq : s'.tq = s.tq
  output : ∃ line, s'.output = s.output ++ [line] ∧ ∀ p, line ≠ Line.executing t p .ROUNDROBIN

private theorem Executed.aside (h : Executed t q i p s s') (hq : q ≠ .ROUNDROBIN) : Aside t s s' where
  fixed := h.fixed
  queue := by rw [h.queue]
  idx := by rw [h.idx]
  counter := h.counter
  tq := h.tq
  output := ⟨_, h.output, fun r heq => hq (Line.executing.inj heq).2.2⟩

private theorem Executed.aside_setQueue (h : Executed t q i p s s') (hq : q ≠ .ROUNDROBIN) (b : Nat → Option Ptr)
    (m : Nat) : Aside t s (s'.setQueue q b m) where
  fixed := h.fixed
  queue := by rw [(setQueue_other hq.symm b m s').1, h.queue]
  idx := by rw [(setQueue_other hq.symm b m s').2, h.idx]
  counter := h.counter
  tq := h.tq
  output := ⟨_, h.output, fun r heq => hq (Line.executing.inj heq).2.2⟩

private theorem srtrf_aside (hrun : srtrf t s = some s') : Aside t s s' := by
  obtain ⟨found, _, hrest⟩ := Option.bind_eq_some_iff.mp hrun
  obtain ⟨pid, _, hrest⟩ := Option.bind_eq_some_iff.mp hrest
  obtain ⟨⟨fin, u⟩, hexec, hrest⟩ := Option.bind_eq_some_iff.mp hrest
  obtain ⟨p, hran, _⟩ := execute_executed hexec
  cases fin with
  | true =>
    cases hrest
    exact hran.aside_setQueue (by decide) _ _
  | false =>
    cases hrest
    exact hran.aside (by decide)

private theorem fifo_aside (hrun : fifo t s = some s') : Aside t s s' := by
  obtain ⟨⟨fin, u⟩, hexec, hrest⟩ := Option.bind_eq_some_iff.mp hrun
  obtain ⟨p, hran, _⟩ := execute_executed hexec
  cases fin with
  | true =>
    cases hrest
    have hfirst := hran.aside_setQueue (by decide) (Function.update (u.queue .FIFO) 0 none) (u.idx .FIFO)
    have hne : QueueTypes.ROUNDROBIN ≠ .FIFO := by decide
    exact ⟨hfirst.fixed, (setQueue_other hne ..).1.trans hfirst.queue,
      (setQueue_other hne ..).2.trans hfirst.idx, hfirst.counter, hfirst.tq, hfirst.output⟩
  | false =>
    cases hrest
    exact hran.aside (by decide)

private theorem sjfRun_aside (hrun : sjfRun t s = some s') : Aside t s s' := by
  obtain ⟨task, _, hrest⟩ := Option.bind_eq_some_iff.mp hrun
  obtain ⟨⟨fin, u⟩, hexec, hrest⟩ := Option.bind_eq_some_iff.mp hrest
  obtain ⟨p, hran, _⟩ := execute_executed hexec
  cases fin with
  | true =>
    cases hrest
    have hrem := hran.aside_setQueue (by decide) (shiftDown (u.idx .SJF - 1 - task) task (u.queue .SJF))
      (u.idx .SJF - 1)
    exact ⟨hrem.fixed, hrem.queue, hrem.idx, hrem.counter, hrem.tq, hrem.output⟩
  | false =>
    cases hrest
    exact hran.aside (by decide)

private theorem sjf_aside (hidx : s.idx .SJF ≠ 0) (hrun : sjf t s = some s') : Aside t s s' := by
  rw [sjf, if_neg hidx] at hrun
  split at hrun
  · exact sjfRun_aside hrun
  · obtain ⟨task, _, hrest⟩ := Option.bind_eq_some_iff.mp hrun
    have haside := sjfRun_aside hrest
    exact ⟨haside.fixed, haside.queue, haside.idx, haside.counter, haside.tq, haside.output⟩

private theorem runHighest_aside (hidx : s.idx .ROUNDROBIN = 0) (hrun : runHighest t s = some s') :
    Aside t s s' := by
  rw [runHighest, if_neg (fun h => h hidx)] at hrun
  split at hrun
  · exact srtrf_aside hrun
  · split at hrun
    · exact fifo_aside hrun
    · split at hrun
      · next hsjf => exact sjf_aside hsjf hrun
      · cases hrun
        exact ⟨fun _ => ⟨rfl, rfl⟩, rfl, rfl, rfl, rfl, _, rfl, fun p heq => by cases heq⟩

private theorem remove_holds (hholds : Holds (s.queue q) l) (hidx : s.idx q = l.length) (hk : k < l.length) :
    Holds ((remove q (l.length - 1 - k) k s).queue q) (l.eraseIdx k) ∧
      (remove q (l.length - 1 - k) k s).idx q = (l.eraseIdx k).length := by
  rw [remove, (setQueue_same ..).1, (setQueue_same ..).2, List.length_eraseIdx_of_lt hk, hidx]
  exact ⟨hholds.shift hk (by omega), rfl⟩

theorem RrQueue.rr {b : Nat} (h : RrQueue b a l) (hk : a.counter % l.length < l.length)
    (hrun : MultiLevel.rr t a = some s') : SameFixed a s' ∧
      s'.output = a.output ++ [Line.executing t l[a.counter % l.length] .ROUNDROBIN] ∧
      ∃ l', RrQueue b s' l' ∧
        (((a.proc l[a.counter % l.length]).remainingTime ≤ 1 ∧ l' = l.eraseIdx (a.counter % l.length) ∧
            s'.counter = a.counter) ∨
          (¬ (a.proc l[a.counter % l.length]).remainingTime ≤ 1 ∧ l' = l ∧ s'.counter = a.counter + 1)) := by
  simp only [MultiLevel.rr, h.idx] at hrun
  obtain ⟨⟨fin, u⟩, hexec, hrest⟩ := Option.bind_eq_some_iff.mp hrun
  obtain ⟨p, hran, hfin⟩ := execute_executed hexec
  have hp : p = l[a.counter % l.length] := by
    have hslot := hran.slot
    rw [h.holds.get hk] at hslot
    exact (Option.some.inj hslot).symm
  subst hp
  have harrived : ∀ r ∈ l, (u.proc r).arrivalTime < b := fun r hr => by
    rw [(hran.fixed r).1]
    exact h.arrived r hr
  have hidx : u.idx .ROUNDROBIN = l.length := by rw [hran.idx, h.idx]
  have hholds : Holds (u.queue .ROUNDROBIN) l := by
    rw [hran.queue]
    exact h.holds
  cases fin with
  | true =>
    rw [hidx] at hrest
    cases hrest
    have hlast : (a.proc l[a.counter % l.length]).remainingTime ≤ 1 := by
      have hzero := of_decide_eq_true hfin.symm
      omega
    obtain ⟨hgap, hcount⟩ := remove_holds hholds hidx hk
    exact ⟨hran.fixed, hran.output, _, ⟨hgap, hcount, h.nodup.sublist (List.eraseIdx_sublist l _),
      fun r hr => harrived r (List.mem_of_mem_eraseIdx hr), rfl⟩, .inl ⟨hlast, rfl, hran.counter⟩⟩
  | false =>
    have hmore : ¬ (a.proc l[a.counter % l.length]).remainingTime ≤ 1 := by
      have hpos := of_decide_eq_false hfin.symm
      omega
    have htq : u.tq - 1 ≤ 0 := by
      rw [hran.tq, h.tq]
      decide
    simp only [Bool.false_eq_true, if_false, if_pos htq] at hrest
    cases hrest
    have hcounter : u.counter + 1 = a.counter + 1 := by rw [hran.counter]
    exact ⟨hran.fixed, hran.output, l, ⟨hholds, hidx, h.nodup, harrived, rfl⟩, .inr ⟨hmore, rfl, hcounter⟩⟩

/-- The order of the turns in tick `t`. -/
def due (n t : Nat) (s : State) (l : List Ptr) : List Ptr := (l ++ newcomers n t s).rotate s.counter

/-- What a tick does to the order of the turns. -/
inductive Turned (n t : Nat) (s : State) (l : List Ptr) (s' : State) (l' : List Ptr) : Prop
  | idle (none : due n t s l = []) (left : l' = [])
      (output : ∀ p, s'.output ≠ s.output ++ [Line.executing t p .ROUNDROBIN])
  | turn (p : Ptr) (x y z : List Ptr) (first : due n t s l = p :: (x ++ y)) (last : z = [] ∨ z = [p])
      (output : s'.output = s.output ++ [Line.executing t p .ROUNDROBIN])
      (left : ∀ r ∈ l', r ∈ x ++ y ++ z)
      (next : due n (t + 1) s' l' = x ++ newcomers n (t + 1) s ++ y ++ z)

private theorem due_nodup (h : RrQueue t s l) (hrun : arriveAll t (List.range n) s = some a) :
    (due n t s l).Nodup :=
  List.nodup_rotate.mpr (h.arriveAll hrun).1.nodup

theorem RrQueue.tick (h : RrQueue t s l) (hkept : turnKept n t s = true) (hrun : tick n t s = some s') :
    ∃ l', RrQueue (t + 1) s' l' ∧ SameFixed s s' ∧ Turned n t s l s' l' := by
  obtain ⟨a, harrive, hhigh⟩ := Option.bind_eq_some_iff.mp hrun
  obtain ⟨ha, hsame⟩ := h.arriveAll harrive
  obtain ⟨la, hla⟩ : ∃ la, la = l ++ newcomers n t s := ⟨_, rfl⟩
  have hdue : due n t s l = la.rotate a.counter := by rw [due, ← hla, hsame.counter]
  have hproc : SameFixed s a := fun r => by rw [hsame.proc]; exact ⟨rfl, rfl⟩
  rw [← hla] at ha
  by_cases hempty : la = []
  · subst hempty
    have haside := runHighest_aside (ha.idx.trans List.length_nil) hhigh
    obtain ⟨line, hline, hother⟩ := haside.output
    refine ⟨[], ⟨Holds.nil _, haside.idx.trans ha.idx, List.nodup_nil, fun r hr => absurd hr List.not_mem_nil,
      haside.tq.trans ha.tq⟩, hproc.trans haside.fixed, .idle hdue rfl fun p heq => hother p ?_⟩
    rw [hline, hsame.output] at heq
    exact List.singleton_inj.mp (List.append_cancel_left heq)
  · have hpos : 0 < la.length := List.length_pos_iff.mpr hempty
    have hk : a.counter % la.length < la.length := Nat.mod_lt _ hpos
    have hidx : a.idx .ROUNDROBIN ≠ 0 := by
      rw [ha.idx]
      omega
    rw [runHighest, if_pos hidx] at hhigh
    obtain ⟨hfixed, houtput, l', hl', hcases⟩ := ha.rr hk hhigh
    have hall : SameFixed s s' := hproc.trans hfixed
    have hnew : newcomers n (t + 1) s' = newcomers n (t + 1) s := newcomers_congr hall
    have hfirst : due n t s l = la[a.counter % la.length] ::
        (la.drop (a.counter % la.length + 1) ++ la.take (a.counter % la.length)) := by
      rw [hdue, ← rotate_eq_cons hk, List.rotate_mod]
    simp only [turnKept, harrive, ha.idx, ha.holds.get hk, hpos.ne', if_false] at hkept
    rw [hsame.output] at houtput
    refine ⟨l', hl', hall, ?_⟩
    cases hcases with
    | inl hfin =>
      obtain ⟨hlast, heq, hcounter⟩ := hfin
      have hleft := List.length_eraseIdx_of_lt hk
      simp only [hlast, if_true, decide_eq_true_eq] at hkept
      apply Turned.turn _ _ _ [] hfirst (.inl rfl) houtput
      · intro r hr
        have hrot := rotate_left (a := []) hk
        rw [List.append_nil, List.append_nil] at hrot
        rw [List.append_nil, ← hrot, List.mem_rotate, ← heq]
        exact hr
      · rw [due, hnew, hcounter, heq, List.append_nil, ← rotate_left hk]
        apply rotate_congr
        intro hne
        rw [List.length_append, hleft]
        apply hkept.resolve_left
        have hlen := List.length_pos_iff.mpr hne
        rw [List.length_append, hleft] at hlen
        omega
    | inr hgo =>
      obtain ⟨hmore, heq, hcounter⟩ := hgo
      simp only [hmore, if_false, decide_eq_true_eq] at hkept
      apply Turned.turn _ _ _ [la[a.counter % la.length]] hfirst (.inr rfl) houtput
      · intro r hr
        have hrot := rotate_next (a := []) hk
        rw [List.append_nil, List.append_nil] at hrot
        rw [← hrot, List.mem_rotate, ← heq]
        exact hr
      · rw [due, hnew, hcounter, heq, ← rotate_next hk]
        apply rotate_congr
        intro _
        rw [List.length_append]
        exact hkept

private theorem rrQueue_initial (procArray : List Process) (memory : QueueTypes → Nat → Option Ptr) :
    RrQueue 0 (initial procArray memory) [] :=
  ⟨Holds.nil _, rfl, List.nodup_nil, fun _ hr => absurd hr List.not_mem_nil, rfl⟩

/-- The turn is kept in all ticks before `maxTimesteps`. -/
def TurnsKept (procArray : List Process) (memory : QueueTypes → Nat → Option Ptr)
    (maxTimesteps : Nat) : Prop :=
  ∀ t < maxTimesteps, ∀ s, stateAt procArray memory t = some s → turnKept procArray.length t s = true

private theorem rrQueue_stateAt {maxTimesteps : Nat} (hkept : TurnsKept procArray memory maxTimesteps)
    (ht : t ≤ maxTimesteps) (hs : stateAt procArray memory t = some s) : ∃ l, RrQueue t s l := by
  induction t generalizing s with
  | zero =>
    cases hs
    exact ⟨[], rrQueue_initial procArray memory⟩
  | succ t ih =>
    obtain ⟨s₀, hs₀, htick⟩ := Option.bind_eq_some_iff.mp hs
    obtain ⟨l, hl⟩ := ih (by omega) hs₀
    obtain ⟨l', hl', _⟩ := hl.tick (hkept t (by omega) s₀ hs₀) htick
    exact ⟨l', hl'⟩

theorem tick_of_stateAt (hs : stateAt procArray memory t = some s)
    (hs' : stateAt procArray memory (t + 1) = some s') : tick procArray.length t s = some s' := by
  rw [stateAt, hs] at hs'
  exact hs'

private theorem Turned.first_eq {l' : List Ptr} (h : Turned n t s l s' l')
    (hout : s'.output = s.output ++ [Line.executing t p .ROUNDROBIN]) :
    ∃ x y z, due n t s l = p :: (x ++ y) ∧ (z = [] ∨ z = [p]) ∧ (∀ r ∈ l', r ∈ x ++ y ++ z) ∧
      due n (t + 1) s' l' = x ++ newcomers n (t + 1) s ++ y ++ z := by
  cases h with
  | idle _ _ hno => exact absurd hout (hno p)
  | turn p' x y z hfirst hlast houtput hleft hnext =>
    have hline := List.append_cancel_left (houtput.symm.trans hout)
    have hp : p' = p := (Line.executing.inj (List.singleton_inj.mp hline)).2.1
    subst hp
    exact ⟨x, y, z, hfirst, hlast, hleft, hnext⟩

/-- After `p` was executed and before `r` is, `r` is due before `p`, or `p` is gone. -/
structure Waits (procArray : List Process) (memory : QueueTypes → Nat → Option Ptr) (p r : Ptr)
    (u : Nat) (s : State) (l : List Ptr) : Prop where
  reached : stateAt procArray memory u = some s
  queue : RrQueue u s l
  past : (s.proc p).arrivalTime < u
  order : DueBefore r p (due procArray.length u s l) ∨ p ∉ due procArray.length u s l

private theorem not_mem_newcomers (hpast : (s.proc p).arrivalTime < t) : p ∉ newcomers n t s := by
  intro hmem
  have hnow := (of_decide_eq_true (List.mem_filter.mp hmem).2).1
  omega

theorem waits_start {maxTimesteps : Nat} (hkept : TurnsKept procArray memory maxTimesteps)
    (ht : t < maxTimesteps) (hexec : ExecutesRr procArray memory t p) (hne : r ≠ p)
    (hin : ∀ s, stateAt procArray memory (t + 1) = some s → InRr s r) :
    ∃ s l, Waits procArray memory p r (t + 1) s l := by
  obtain ⟨s, s', hs, hs', hout⟩ := hexec
  obtain ⟨l, hl⟩ := rrQueue_stateAt hkept ht.le hs
  have htick := tick_of_stateAt hs hs'
  obtain ⟨a, harrive, _⟩ := Option.bind_eq_some_iff.mp htick
  have hnd := due_nodup hl harrive
  obtain ⟨ha, hsame⟩ := hl.arriveAll harrive
  obtain ⟨l', hl', hfixed, hturned⟩ := hl.tick (hkept t ht s hs) htick
  obtain ⟨x, y, z, hfirst, hlast, hleft, hnext⟩ := hturned.first_eq hout
  have hpin : p ∈ due procArray.length t s l := by
    rw [hfirst]
    exact List.mem_cons_self
  have hpast : (s.proc p).arrivalTime < (t + 1 : Nat) := by
    rw [← hsame.proc]
    exact ha.arrived p (List.mem_rotate.mp hpin)
  refine ⟨s', l', hs', hl', by rwa [(hfixed p).1], ?_⟩
  rw [hnext]
  rw [hfirst] at hnd
  obtain ⟨hnot, _⟩ := List.nodup_cons.mp hnd
  cases hlast with
  | inl hz =>
    right
    rw [hz, List.append_nil, List.mem_append, List.mem_append]
    intro hmem
    cases hmem with
    | inl hmem =>
      cases hmem with
      | inl hx => exact hnot (List.mem_append_left y hx)
      | inr hnew => exact not_mem_newcomers hpast hnew
    | inr hy => exact hnot (List.mem_append_right x hy)
  | inr hz =>
    left
    obtain ⟨i, hi, hslot⟩ := hin s' hs'
    rw [hl'.idx] at hi
    rw [hl'.holds.get hi] at hslot
    have hr := hleft r (Option.some.inj hslot ▸ List.getElem_mem hi)
    rw [hz, List.mem_append, List.mem_singleton, or_iff_left hne] at hr
    rw [hz]
    apply dueBefore_concat
    rw [List.mem_append, List.mem_append]
    cases List.mem_append.mp hr with
    | inl hx => exact .inl (.inl hx)
    | inr hy => exact .inr hy

theorem Waits.next {maxTimesteps u : Nat} (h : Waits procArray memory p r u s l)
    (hkept : TurnsKept procArray memory maxTimesteps) (hu : u < maxTimesteps)
    (hs' : stateAt procArray memory (u + 1) = some s') (hp : ¬ ExecutesRr procArray memory u p)
    (hr : ¬ ExecutesRr procArray memory u r) : ∃ l', Waits procArray memory p r (u + 1) s' l' := by
  obtain ⟨l', hl', hfixed, hturned⟩ := h.queue.tick (hkept u hu s h.reached) (tick_of_stateAt h.reached hs')
  have hpast : (s.proc p).arrivalTime < (u + 1 : Nat) := by
    have hbefore := h.past
    omega
  refine ⟨l', hs', hl', by rwa [(hfixed p).1], ?_⟩
  cases hturned with
  | idle hnone hempty _ =>
    right
    rw [due, hempty, List.nil_append, List.mem_rotate, newcomers_congr hfixed]
    exact not_mem_newcomers hpast
  | turn p' x y z hfirst hlast houtput _ hnext =>
    have hpp : p ≠ p' := fun heq => hp ⟨s, s', h.reached, hs', heq ▸ houtput⟩
    have hrp : r ≠ p' := fun heq => hr ⟨s, s', h.reached, hs', heq ▸ houtput⟩
    have horder := h.order
    rw [hfirst] at horder
    rw [hnext]
    cases horder with
    | inl hbefore => exact .inl (hbefore.of_cons hrp).insert
    | inr hgone =>
      right
      rw [List.mem_cons, not_or, List.mem_append, not_or] at hgone
      rw [List.mem_append, List.mem_append, List.mem_append]
      intro hmem
      cases hmem with
      | inl hmem =>
        cases hmem with
        | inl hmem =>
          cases hmem with
          | inl hx => exact hgone.2.1 hx
          | inr hnew => exact not_mem_newcomers hpast hnew
        | inr hy => exact hgone.2.2 hy
      | inr hz =>
        cases hlast with
        | inl hnil =>
          rw [hnil] at hz
          cases hz
        | inr hone =>
          rw [hone, List.mem_singleton] at hz
          exact hpp hz

theorem Waits.not_executed {maxTimesteps u : Nat} (h : Waits procArray memory p r u s l)
    (hkept : TurnsKept procArray memory maxTimesteps) (hu : u < maxTimesteps) (hne : r ≠ p) :
    ¬ ExecutesRr procArray memory u p := by
  intro hexec
  obtain ⟨s₀, s', hs₀, hs', hout⟩ := hexec
  cases h.reached.symm.trans hs₀
  have htick := tick_of_stateAt hs₀ hs'
  obtain ⟨a, harrive, _⟩ := Option.bind_eq_some_iff.mp htick
  have hnd := due_nodup h.queue harrive
  obtain ⟨_, _, _, hturned⟩ := h.queue.tick (hkept u hu s hs₀) htick
  obtain ⟨x, y, z, hfirst, _⟩ := hturned.first_eq hout
  have horder := h.order
  rw [hfirst] at horder hnd
  cases horder with
  | inl hbefore => exact not_dueBefore_cons hnd hne hbefore
  | inr hgone => exact hgone List.mem_cons_self

private theorem stateAt_of_le {u : Nat} (hs : stateAt procArray memory t = some s) (hu : u ≤ t) :
    ∃ s', stateAt procArray memory u = some s' := by
  induction t generalizing s with
  | zero => exact ⟨s, Nat.le_zero.mp hu ▸ hs⟩
  | succ t ih =>
    by_cases heq : u = t + 1
    · exact ⟨s, heq ▸ hs⟩
    · obtain ⟨s₀, hs₀, _⟩ := Option.bind_eq_some_iff.mp hs
      exact ih hs₀ (by omega)

/-- If no tick moves the turn to another place, the round-robin level is fair. -/
theorem scheduleMain_fairRotation (procArray : List Process) (memory : QueueTypes → Nat → Option Ptr)
    (maxTimesteps : Nat) (hkept : TurnsKept procArray memory maxTimesteps) :
    FairRotation procArray memory maxTimesteps := by
  intro t₁ t₂ p r hlt hmax hfirst hsecond hbetween hne hin
  by_contra hnone
  have hno : ∀ u, t₁ < u → u < t₂ → ¬ ExecutesRr procArray memory u r :=
    fun u h₁ h₂ hexec => hnone ⟨u, h₁, h₂, hexec⟩
  obtain ⟨s₂, _, hs₂, _⟩ := hsecond
  have hwaits : ∀ u, t₁ < u → u ≤ t₂ → ∃ s l, Waits procArray memory p r u s l := by
    intro u
    induction u with
    | zero => exact fun h _ => absurd h (Nat.not_lt_zero t₁)
    | succ u ih =>
      intro h₁ h₂
      by_cases heq : u = t₁
      · subst heq
        exact waits_start hkept (by omega) hfirst hne fun s hs => hin _ s h₁ h₂ hs
      · obtain ⟨s, l, hwait⟩ := ih (by omega) (by omega)
        obtain ⟨s', hs'⟩ := stateAt_of_le hs₂ h₂
        obtain ⟨l', hnext⟩ := hwait.next hkept (by omega) hs' (hbetween u (by omega) (by omega))
          (hno u (by omega) (by omega))
        exact ⟨s', l', hnext⟩
  obtain ⟨s, l, hwait⟩ := hwaits t₂ hlt (Nat.le_refl t₂)
  exact hwait.not_executed hkept hmax hne ⟨s₂, _, hs₂, by assumption⟩

theorem scheduleMain_fairRotation_two :
    FairRotation [⟨3, 0, 0, 1⟩, ⟨3, 0, 0, 1⟩] (fun _ _ => none) 4 := by
  apply scheduleMain_fairRotation
  intro t ht s hs
  interval_cases t <;> cases hs <;> decide

/-- A fourth process arrives when the first one has had its second turn: with the counter at 4 and four
processes the turn is again at the first place, and the other two are passed over. -/
theorem scheduleMain_not_fairRotation :
    ¬ FairRotation [⟨9, 0, 0, 1⟩, ⟨9, 0, 0, 1⟩, ⟨9, 0, 0, 1⟩, ⟨9, 4, 0, 1⟩] (fun _ _ => none) 5 := by
  intro h
  obtain ⟨u, hfirst, hsecond, _⟩ := h 3 4 0 1 (by decide) (by decide) ⟨_, _, rfl, rfl, rfl⟩
    ⟨_, _, rfl, rfl, rfl⟩ (fun u hfirst hsecond => by omega) (by decide) fun u s hfirst hlast hs => by
      have hu : u = 4 := by omega
      subst hu
      cases hs
      exact ⟨1, by decide, rfl⟩
  omega

end CseOs.MultiLevel
