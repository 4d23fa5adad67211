import CseOs.MultiLevel.Queues

/-!
# One process in each tick

Before each tick the queues hold exactly the processes that have arrived and are not finished. A
tick executes one of the highest level unless the choice of `sjf` finds no process shorter than
the largest integer.
-/

namespace CseOs.MultiLevel

open Framework State

variable {procArray : List Process} {memory : QueueTypes → Nat → Option Ptr} {n t b : Nat}
  {s s' : State} {q : QueueTypes} {p r : Ptr}

/-- The policy of a queue. -/
def policy : QueueTypes → Nat → State → Option State
  | .ROUNDROBIN => rr
  | .STCF => srtrf
  | .FIFO => fifo
  | .SJF => sjf

/-- The process has arrived by tick `t` and is not finished. -/
def Waiting (n t : Nat) (s : State) (p : Ptr) : Prop :=
  p < n ∧ (s.proc p).arrivalTime ≤ t ∧ 0 < (s.proc p).remainingTime

/-- Tick `t` from `s` to `s'` executes one waiting process of the highest level, or no process
when none waits. -/
inductive Executes (n t : Nat) (s s' : State) : Prop
  | one (p : Ptr) (q : QueueTypes) (waiting : Waiting n t s p)
      (level : (s.proc p).priority = q.priority)
      (highest : ∀ r, Waiting n t s r → (s.proc p).priority ≤ (s.proc r).priority)
      (proc : s'.proc = Function.update s.proc p ((s.proc p).ticked t))
      (output : s'.output = s.output ++ [Line.executing t p q])
  | noOp (idle : ∀ p, ¬ Waiting n t s p) (proc : s'.proc = s.proc)
      (output : s'.output = s.output ++ [Line.noOp t])

/-- Only `sjf` can serve, it has no current task, and no remaining time is below the largest
integer. -/
def Stuck (n t : Nat) (s : State) : Prop :=
  s.curr_task = none ∧ (∃ p, Waiting n t s p) ∧
    ∀ p, Waiting n t s p →
      (s.proc p).priority = QueueTypes.SJF.priority ∧ (s.proc p).remainingTime = INT_MAX

private theorem runHighest_eq (hq : s.idx q ≠ 0)
    (habove : ∀ q' : QueueTypes, q'.priority < q.priority → s.idx q' = 0) :
    runHighest t s = policy q t s := by
  have hrr := habove .ROUNDROBIN
  have hstcf := habove .STCF
  have hfifo := habove .FIFO
  cases q with
  | ROUNDROBIN => rw [runHighest, if_pos hq]; rfl
  | STCF => rw [runHighest, hrr (by decide), if_neg (fun h => h rfl), if_pos hq]; rfl
  | FIFO =>
    rw [runHighest, hrr (by decide), hstcf (by decide), if_neg (fun h => h rfl),
      if_neg (fun h => h rfl), if_pos hq]
    rfl
  | SJF =>
    rw [runHighest, hrr (by decide), hstcf (by decide), hfifo (by decide), if_neg (fun h => h rfl),
      if_neg (fun h => h rfl), if_neg (fun h => h rfl), if_pos hq]
    rfl

private theorem policy_spec {ps : List Ptr} (h : Loaded q ps s) (hcursor : Cursor s)
    (hshort : q = .SJF → s.curr_task ≠ none ∨ ∃ p ∈ ps, (s.proc p).remainingTime < INT_MAX) :
    ∃ p s', policy q t s = some s' ∧ Served t q ps p s s' ∧ Cursor s' := by
  cases q with
  | ROUNDROBIN =>
    obtain ⟨p, s', hrun, hserved, htask⟩ := rr_spec (t := t) h
    exact ⟨p, s', hrun, hserved, hcursor.served (by decide) hserved htask⟩
  | STCF =>
    obtain ⟨p, s', hrun, hserved, htask⟩ := srtrf_spec (t := t) h
    exact ⟨p, s', hrun, hserved, hcursor.served (by decide) hserved htask⟩
  | FIFO =>
    obtain ⟨p, s', hrun, hserved, htask⟩ := fifo_spec (t := t) h
    exact ⟨p, s', hrun, hserved, hcursor.served (by decide) hserved htask⟩
  | SJF => exact sjf_spec h hcursor (hshort rfl)

/-- The values the program is meant for. -/
structure WellFormed (procArray : List Process) : Prop where
  priority : ∀ th ∈ procArray, 1 ≤ th.priority ∧ th.priority ≤ 4
  arrivalTime : ∀ th ∈ procArray, 0 ≤ th.arrivalTime
  remainingTime : ∀ th ∈ procArray, 1 ≤ th.remainingTime ∧ th.remainingTime ≤ INT_MAX

/-- The ticks in which the process was executed. -/
def executions (output : List Line) (p : Ptr) : List Nat :=
  output.filterMap fun line =>
    match line with
    | .executing t r _ => if r = p then some t else none
    | .noOp _ => none

/-- The process arrives before tick `b` and is not finished. -/
def Live (n b : Nat) (s : State) (p : Ptr) : Prop :=
  p < n ∧ (s.proc p).arrivalTime < b ∧ 0 < (s.proc p).remainingTime

/-- What holds when the arrivals before tick `b` are queued. -/
structure Exact (procArray : List Process) (b : Nat) (s : State) : Prop where
  /-- No process is lost or duplicated. -/
  queued : Queued (Live procArray.length b s) s
  given : ∀ p (hp : p < procArray.length), (s.proc p).arrivalTime = procArray[p].arrivalTime ∧
    (s.proc p).priority = procArray[p].priority
  /-- The executions and the remaining time make up the time the process was given. -/
  executed : ∀ p (hp : p < procArray.length), 0 ≤ (s.proc p).remainingTime ∧
    (s.proc p).remainingTime + (executions s.output p).length = procArray[p].remainingTime
  /-- A process without remaining time finished one tick after its last execution. -/
  finished : ∀ p < procArray.length, (s.proc p).remainingTime = 0 →
    ∃ last, (executions s.output p).getLast? = some last ∧
      (s.proc p).finishTime = (last : Int) + 1
  unborn : ∀ p < procArray.length, (b : Int) ≤ (s.proc p).arrivalTime →
    executions s.output p = []
  cursor : Cursor s

theorem waiting_iff : Waiting n t s p ↔ Live n (t + 1) s p := by
  unfold Waiting Live
  rw [Int.natCast_succ, Int.lt_add_one_iff]

private theorem executions_append (output : List Line) (line : Line) (r : Ptr) :
    executions (output ++ [line]) r = executions output r ++ executions [line] r :=
  List.filterMap_append

namespace Served

variable {ps : List Ptr}

private theorem fixed (h : Served t q ps p s s') (r : Ptr) :
    (s'.proc r).arrivalTime = (s.proc r).arrivalTime ∧
      (s'.proc r).priority = (s.proc r).priority := by
  rw [h.proc]
  by_cases hr : r = p
  · rw [hr, Function.update_self]
    exact ⟨rfl, rfl⟩
  · rw [Function.update_of_ne hr]
    exact ⟨rfl, rfl⟩

private theorem other (h : Served t q ps p s s') (hr : r ≠ p) :
    s'.proc r = s.proc r ∧ executions s'.output r = executions s.output r := by
  constructor
  · rw [h.proc, Function.update_of_ne hr]
  · rw [h.output, executions_append]
    simp [executions, hr.symm]

private theorem self (h : Served t q ps p s s') :
    s'.proc p = (s.proc p).ticked t ∧ executions s'.output p = executions s.output p ++ [t] := by
  constructor
  · rw [h.proc, Function.update_self]
  · rw [h.output, executions_append]
    simp [executions]

private theorem live (h : Served t q ps p s s') :
    Live n b s' r ↔ Live n b s r ∧ ¬ (r = p ∧ (s.proc p).remainingTime = 1) := by
  unfold Live
  rw [(h.fixed r).1]
  by_cases hr : r = p
  · subst hr
    rw [h.self.1]
    show _ ∧ _ ∧ 0 < (s.proc r).remainingTime - 1 ↔ _
    have : 0 < (s.proc r).remainingTime - 1 ↔
        0 < (s.proc r).remainingTime ∧ ¬ (r = r ∧ (s.proc r).remainingTime = 1) := by
      rw [and_iff_right (Eq.refl r)]
      omega
    rw [this, and_assoc, and_assoc]
  · rw [(h.other hr).1, and_iff_left (fun hn => hr hn.1)]

end Served

theorem Exact.served {ps : List Ptr} (h : Exact procArray (t + 1) s) (hnd : ps.Nodup)
    (hmem : ∀ r, r ∈ ps ↔ Live procArray.length (t + 1) s r ∧ (s.proc r).priority = q.priority)
    (hserved : Served t q ps p s s') (hcursor : Cursor s') : Exact procArray (t + 1) s' := by
  obtain ⟨hp, hlevel⟩ := (hmem p).mp hserved.mem
  constructor
  case cursor => exact hcursor
  case given =>
    intro r hr
    obtain ⟨harrival, hpriority⟩ := hserved.fixed r
    rw [harrival, hpriority]
    exact h.given r hr
  case queued =>
    intro q'
    by_cases hq : q' = q
    · subst hq
      obtain ⟨ps', hholds, hlen, hsub, hmem'⟩ := hserved.entries
      refine ⟨ps', hholds, hlen, hnd.sublist hsub, fun r => ?_⟩
      rw [hmem', hmem, hserved.live, (hserved.fixed r).2]
      exact and_right_comm
    · obtain ⟨ps', hholds, hlen, hnd', hmem'⟩ := h.queued q'
      obtain ⟨hqueue, hcount⟩ := hserved.others q' hq
      rw [hqueue, hcount]
      refine ⟨ps', hholds, hlen, hnd', fun r => ?_⟩
      rw [hmem', hserved.live, (hserved.fixed r).2]
      apply and_congr_left
      intro hr
      apply (and_iff_left _).symm
      rintro ⟨rfl, _⟩
      exact hq (QueueTypes.priority_inj (hr.symm.trans hlevel))
  case executed =>
    intro r hr
    obtain ⟨hnonneg, hsum⟩ := h.executed r hr
    by_cases hrp : r = p
    · subst hrp
      obtain ⟨hproc, hlog⟩ := hserved.self
      have hpos := hp.2.2
      rw [hproc, hlog, List.length_append, List.length_singleton]
      show 0 ≤ (s.proc r).remainingTime - 1 ∧ (s.proc r).remainingTime - 1 + _ = _
      push_cast
      omega
    · obtain ⟨hproc, hlog⟩ := hserved.other hrp
      rw [hproc, hlog]
      exact ⟨hnonneg, hsum⟩
  case finished =>
    intro r hr hzero
    by_cases hrp : r = p
    · subst hrp
      obtain ⟨hproc, hlog⟩ := hserved.self
      rw [hproc] at hzero ⊢
      have hone : (s.proc r).remainingTime = 1 := by
        have : (s.proc r).remainingTime - 1 = 0 := hzero
        omega
      refine ⟨t, by rw [hlog, List.getLast?_concat], ?_⟩
      rw [Process.ticked, if_pos hone]
    · obtain ⟨hproc, hlog⟩ := hserved.other hrp
      rw [hproc] at hzero ⊢
      rw [hlog]
      exact h.finished r hr hzero
  case unborn =>
    intro r hr hb
    rw [(hserved.fixed r).1] at hb
    have hrp : r ≠ p := by
      rintro rfl
      have := hp.2.1
      omega
    rw [(hserved.other hrp).2]
    exact h.unborn r hr hb

/-- A process that arrives now is not queued yet. -/
theorem Exact.arrival_new (procArray : List Process) (s : State) :
    ∀ p ∈ List.range procArray.length, (s.proc p).arrivalTime = t → ¬ Live procArray.length t s p := by
  intro p _ ht hlive
  have hbefore := hlive.2.1
  omega

theorem Exact.levels (hwf : WellFormed procArray) (h : Exact procArray b s) :
    ∀ p ∈ List.range procArray.length, ∃ q : QueueTypes, (s.proc p).priority = q.priority := by
  intro p hp
  have hn := List.mem_range.mp hp
  obtain ⟨hlow, hhigh⟩ := hwf.priority _ (List.getElem_mem hn)
  obtain ⟨q, hq⟩ := QueueTypes.exists_priority hlow hhigh
  exact ⟨q, (h.given p hn).2.trans hq.symm⟩

/-- The loop over the arrivals moves the bound by one tick. -/
theorem Exact.admitted (hwf : WellFormed procArray) (h : Exact procArray t s) :
    ∃ s', arriveAll t (List.range procArray.length) s = some s' ∧ Grown s s' ∧
      Exact procArray (t + 1) s' := by
  obtain ⟨s', hrun, hgrown, hqueued⟩ := arriveAll_spec h.queued List.nodup_range
    (Exact.arrival_new procArray s) (h.levels hwf)
  have hproc : s'.proc = s.proc := by rw [hgrown.frame]
  have houtput : s'.output = s.output := by rw [hgrown.frame]
  have htask : s'.curr_task = s.curr_task := by rw [hgrown.frame]
  refine ⟨s', hrun, hgrown, ?_⟩
  constructor
  case queued =>
    have hlive : Live procArray.length (t + 1) s' = fun r => Live procArray.length t s r ∨
        (r ∈ List.range procArray.length ∧ (s.proc r).arrivalTime = t) := by
      funext r
      apply propext
      unfold Live
      rw [hproc, List.mem_range]
      constructor
      · rintro ⟨hr, hb, hpos⟩
        by_cases ht : (s.proc r).arrivalTime = t
        · exact .inr ⟨hr, ht⟩
        · exact .inl ⟨hr, by omega, hpos⟩
      · rintro (⟨hr, hb, hpos⟩ | ⟨hr, ht⟩)
        · exact ⟨hr, by omega, hpos⟩
        · have hsum := (h.executed r hr).2
          rw [h.unborn r hr (by omega)] at hsum
          have := (hwf.remainingTime _ (List.getElem_mem hr)).1
          simp only [List.length_nil] at hsum
          exact ⟨hr, by omega, by omega⟩
    rw [hlive]
    exact hqueued
  case given =>
    rw [hproc]
    exact h.given
  case executed =>
    rw [hproc, houtput]
    exact h.executed
  case finished =>
    rw [hproc, houtput]
    exact h.finished
  case unborn =>
    intro r hr hb
    rw [hproc] at hb
    rw [houtput]
    exact h.unborn r hr (by omega)
  case cursor =>
    intro i hi
    exact Nat.lt_of_lt_of_le (h.cursor i (htask.symm.trans hi)) (hgrown.idx .SJF)

theorem highest_cases (idx : QueueTypes → Nat) : (∀ q, idx q = 0) ∨
    ∃ q, idx q ≠ 0 ∧ ∀ q' : QueueTypes, q'.priority < q.priority → idx q' = 0 := by
  by_cases hrr : idx .ROUNDROBIN = 0
  · by_cases hstcf : idx .STCF = 0
    · by_cases hfifo : idx .FIFO = 0
      · by_cases hsjf : idx .SJF = 0
        · left
          intro q
          cases q <;> assumption
        · right
          refine ⟨.SJF, hsjf, fun q' _ => ?_⟩
          cases q' <;> first | assumption | contradiction
      · right
        refine ⟨.FIFO, hfifo, fun q' _ => ?_⟩
        cases q' <;> first | assumption | contradiction
    · right
      refine ⟨.STCF, hstcf, fun q' _ => ?_⟩
      cases q' <;> first | assumption | contradiction
  · right
    refine ⟨.ROUNDROBIN, hrr, fun q' _ => ?_⟩
    cases q' <;> first | assumption | contradiction

/-- A live process is in the queue of its level. -/
theorem Exact.level (hwf : WellFormed procArray) (h : Exact procArray b s)
    (hp : Live procArray.length b s p) :
    ∃ q : QueueTypes, (s.proc p).priority = q.priority ∧ s.idx q ≠ 0 := by
  obtain ⟨hlow, hhigh⟩ := hwf.priority _ (List.getElem_mem hp.1)
  obtain ⟨q, hq⟩ := QueueTypes.exists_priority hlow hhigh
  have hlevel := (h.given p hp.1).2.trans hq.symm
  obtain ⟨ps, _, hidx, _, hmem⟩ := h.queued q
  refine ⟨q, hlevel, ?_⟩
  rw [hidx]
  exact Nat.pos_iff_ne_zero.mp (List.length_pos_of_mem ((hmem p).mpr ⟨hp, hlevel⟩))

/-- The queue of a level as its policy finds it. -/
theorem Exact.loaded (hwf : WellFormed procArray) (h : Exact procArray b s) (hq : s.idx q ≠ 0) :
    ∃ ps, Loaded q ps s ∧
      ∀ p, p ∈ ps ↔ Live procArray.length b s p ∧ (s.proc p).priority = q.priority := by
  obtain ⟨ps, hholds, hidx, hnd, hmem⟩ := h.queued q
  refine ⟨ps, ⟨hholds, hidx, ?_, hnd, fun p hp => ?_, fun p hp => ?_⟩, hmem⟩
  · rintro rfl
    exact hq hidx
  · exact ((hmem p).mp hp).1.2.2
  · have hn := ((hmem p).mp hp).1.1
    have hsum := (h.executed p hn).2
    have := (hwf.remainingTime _ (List.getElem_mem hn)).2
    omega

theorem Exact.highest (hwf : WellFormed procArray) (h : Exact procArray (t + 1) s)
    (habove : ∀ q' : QueueTypes, q'.priority < q.priority → s.idx q' = 0)
    (hr : Waiting procArray.length t s r) : q.priority ≤ (s.proc r).priority := by
  obtain ⟨q', hlevel, hq'⟩ := h.level hwf (waiting_iff.mp hr)
  rw [hlevel]
  exact Int.not_lt.mp fun hlt => hq' (habove q' hlt)

/-- When it is the turn of `sjf`, it is stuck unless it has a task or a process to choose. -/
theorem Exact.stuck_iff {ps : List Ptr} (hwf : WellFormed procArray) (h : Exact procArray (t + 1) s)
    (habove : ∀ q' : QueueTypes, q'.priority < QueueTypes.SJF.priority → s.idx q' = 0)
    (hloaded : Loaded .SJF ps s) (hmem : ∀ p, p ∈ ps ↔
      Live procArray.length (t + 1) s p ∧ (s.proc p).priority = QueueTypes.SJF.priority) :
    ¬ Stuck procArray.length t s ↔ s.curr_task ≠ none ∨ ∃ p ∈ ps, (s.proc p).remainingTime < INT_MAX := by
  constructor
  · intro hstuck
    by_contra hlong
    rw [not_or, not_not, not_exists] at hlong
    obtain ⟨htask, hlong⟩ := hlong
    apply hstuck
    refine ⟨htask, ?_, fun r hr => ?_⟩
    · obtain ⟨p, hp⟩ := List.exists_mem_of_ne_nil ps hloaded.ne
      exact ⟨p, waiting_iff.mpr ((hmem p).mp hp).1⟩
    · have hlevel : (s.proc r).priority = QueueTypes.SJF.priority := by
        have hr4 := (hwf.priority _ (List.getElem_mem hr.1)).2
        rw [← (h.given r hr.1).2] at hr4
        exact Int.le_antisymm hr4 (h.highest hwf habove hr)
      have hr' := (hmem r).mpr ⟨waiting_iff.mp hr, hlevel⟩
      refine ⟨hlevel, Int.le_antisymm (hloaded.bounded r hr') ?_⟩
      exact Int.not_lt.mp fun hlt => hlong r ⟨hr', hlt⟩
  · intro hcan hstuck
    obtain ⟨htask, _, hall⟩ := hstuck
    cases hcan with
    | inl hne => exact hne htask
    | inr hex =>
      obtain ⟨p, hp, hlt⟩ := hex
      have hlong := (hall p (waiting_iff.mpr ((hmem p).mp hp).1)).2
      omega

private theorem Exact.idle (h : Exact procArray b s) (t : Nat) :
    Exact procArray b { s with output := s.output ++ [Line.noOp t] } := by
  have hlog (r : Ptr) : executions (s.output ++ [Line.noOp t]) r = executions s.output r := by
    rw [executions_append]
    exact List.append_nil _
  constructor
  case queued => exact h.queued
  case given => exact h.given
  case executed =>
    intro r hr
    rw [hlog]
    exact h.executed r hr
  case finished =>
    intro r hr
    rw [hlog]
    exact h.finished r hr
  case unborn =>
    intro r hr
    rw [hlog]
    exact h.unborn r hr
  case cursor => exact h.cursor

private theorem Exact.runHighest_stuck (hwf : WellFormed procArray) (h : Exact procArray (t + 1) s)
    (hstuck : Stuck procArray.length t s) : runHighest t s = none := by
  obtain ⟨htask, ⟨r, hr⟩, hall⟩ := hstuck
  obtain hzero | ⟨q, hq, habove⟩ := highest_cases s.idx
  · obtain ⟨q, _, hq⟩ := h.level hwf (waiting_iff.mp hr)
    exact absurd (hzero q) hq
  · obtain ⟨ps, hloaded, hmem⟩ := h.loaded hwf hq
    obtain ⟨p, hp⟩ := List.exists_mem_of_ne_nil ps hloaded.ne
    obtain ⟨hlive, hlevel⟩ := (hmem p).mp hp
    have hsjf : q = .SJF :=
      QueueTypes.priority_inj (hlevel.symm.trans (hall p (waiting_iff.mpr hlive)).1)
    subst hsjf
    rw [runHighest_eq hq habove]
    apply sjf_stuck hloaded htask
    intro p hp
    exact (hall p (waiting_iff.mpr ((hmem p).mp hp).1)).2

private theorem Exact.runHighest_spec (hwf : WellFormed procArray) (h : Exact procArray (t + 1) s)
    (hstuck : ¬ Stuck procArray.length t s) :
    ∃ s', runHighest t s = some s' ∧ Executes procArray.length t s s' ∧
      Exact procArray (t + 1) s' := by
  obtain hzero | ⟨q, hq, habove⟩ := highest_cases s.idx
  · refine ⟨_, ?_, ?_, h.idle t⟩
    · simp [runHighest, hzero]
    · refine Executes.noOp (fun p hp => ?_) rfl rfl
      obtain ⟨q, _, hq⟩ := h.level hwf (waiting_iff.mp hp)
      exact hq (hzero q)
  · obtain ⟨ps, hloaded, hmem⟩ := h.loaded hwf hq
    have hhighest : ∀ r, Waiting procArray.length t s r → q.priority ≤ (s.proc r).priority :=
      fun _ hr => h.highest hwf habove hr
    have hshort : q = .SJF →
        s.curr_task ≠ none ∨ ∃ p ∈ ps, (s.proc p).remainingTime < INT_MAX := by
      intro hq
      subst hq
      exact (h.stuck_iff hwf habove hloaded hmem).mp hstuck
    obtain ⟨p, s', hrun, hserved, hcursor⟩ := policy_spec (t := t) hloaded h.cursor hshort
    obtain ⟨hlive, hlevel⟩ := (hmem p).mp hserved.mem
    refine ⟨s', (runHighest_eq hq habove).trans hrun, ?_, h.served hloaded.nodup hmem hserved hcursor⟩
    apply Executes.one p q (waiting_iff.mpr hlive) hlevel _ hserved.proc hserved.output
    intro r hr
    rw [hlevel]
    exact hhighest r hr

/-- The tick the state before its arrivals leads to. -/
theorem Exact.tick_spec (hwf : WellFormed procArray) (h : Exact procArray t s) :
    (Stuck procArray.length t s → tick procArray.length t s = none) ∧
      (¬ Stuck procArray.length t s → ∃ s', tick procArray.length t s = some s' ∧
        Executes procArray.length t s s' ∧ Exact procArray (t + 1) s') := by
  obtain ⟨a, harrive, hgrown, ha⟩ := h.admitted hwf
  have hstuck : Stuck procArray.length t a ↔ Stuck procArray.length t s := by
    rw [hgrown.frame]
    exact Iff.rfl
  rw [tick, harrive, Option.bind_some]
  constructor
  · exact fun hs => ha.runHighest_stuck hwf (hstuck.mpr hs)
  · intro hs
    obtain ⟨s', hrun, hexec, hs'⟩ := ha.runHighest_spec hwf (fun hs' => hs (hstuck.mp hs'))
    refine ⟨s', hrun, ?_, hs'⟩
    rw [hgrown.frame] at hexec
    cases hexec with
    | one p q hwaiting hlevel hhighest hproc houtput =>
      exact .one p q hwaiting hlevel hhighest hproc houtput
    | noOp hidle hproc houtput => exact .noOp hidle hproc houtput

theorem exact_initial (hwf : WellFormed procArray) (memory : QueueTypes → Nat → Option Ptr) :
    Exact procArray 0 (initial procArray memory) := by
  have hproc (p : Ptr) (hp : p < procArray.length) :
      (initial procArray memory).proc p = procArray[p] := by
    simp [initial, hp]
  constructor
  case queued =>
    intro q
    refine ⟨[], Holds.nil _, rfl, List.nodup_nil, fun p => ?_⟩
    apply iff_of_false List.not_mem_nil
    rintro ⟨⟨hp, hb, _⟩, _⟩
    rw [hproc p hp] at hb
    have := hwf.arrivalTime _ (List.getElem_mem hp)
    omega
  case given =>
    intro p hp
    rw [hproc p hp]
    exact ⟨rfl, rfl⟩
  case executed =>
    intro p hp
    rw [hproc p hp]
    have := (hwf.remainingTime _ (List.getElem_mem hp)).1
    exact ⟨by omega, Int.add_zero _⟩
  case finished =>
    intro p hp hzero
    rw [hproc p hp] at hzero
    have := (hwf.remainingTime _ (List.getElem_mem hp)).1
    omega
  case unborn => exact fun _ _ _ => rfl
  case cursor => exact nofun

/-- Every tick of the run executes one process of the highest level that waits and leaves the
accounts and the queues exact. -/
def Correct (procArray : List Process) (memory : QueueTypes → Nat → Option Ptr)
    (maxTimesteps : Nat) : Prop :=
  ∀ t < maxTimesteps, ∃ s s', stateAt procArray memory t = some s ∧
    stateAt procArray memory (t + 1) = some s' ∧ Executes procArray.length t s s' ∧
    Exact procArray (t + 1) s'

theorem exact_stateAt (hwf : WellFormed procArray) (maxTimesteps : Nat)
    (h : ∀ t < maxTimesteps, ∀ s, stateAt procArray memory t = some s → Exact procArray t s →
      ¬ Stuck procArray.length t s) :
    ∃ s, stateAt procArray memory maxTimesteps = some s ∧ Exact procArray maxTimesteps s := by
  induction maxTimesteps with
  | zero => exact ⟨_, rfl, exact_initial hwf memory⟩
  | succ t ih =>
    obtain ⟨s, hs, hexact⟩ := ih fun u hu => h u (Nat.lt_succ_of_lt hu)
    obtain ⟨s', hrun, _, hs'⟩ := (hexact.tick_spec hwf).2 (h t (Nat.lt_succ_self t) s hs hexact)
    refine ⟨s', ?_, hs'⟩
    rw [stateAt, hs]
    exact hrun

private theorem correct_of (hwf : WellFormed procArray) {maxTimesteps : Nat}
    (h : ∀ t < maxTimesteps, ∀ s, stateAt procArray memory t = some s → Exact procArray t s →
      ¬ Stuck procArray.length t s) : Correct procArray memory maxTimesteps := by
  intro t ht
  obtain ⟨s, hs, hexact⟩ := exact_stateAt hwf t fun u hu => h u (Nat.lt_trans hu ht)
  obtain ⟨s', hrun, hexec, hs'⟩ := (hexact.tick_spec hwf).2 (h t ht s hs hexact)
  refine ⟨s, s', hs, ?_, hexec, hs'⟩
  rw [stateAt, hs]
  exact hrun

private theorem Correct.not_stuck {maxTimesteps : Nat} (h : Correct procArray memory maxTimesteps)
    (hwf : WellFormed procArray) (ht : t < maxTimesteps)
    (hs : stateAt procArray memory t = some s) (hexact : Exact procArray t s) :
    ¬ Stuck procArray.length t s := by
  intro hstuck
  obtain ⟨_, s', _, hs', _⟩ := h t ht
  rw [stateAt, hs, Option.bind_some, (hexact.tick_spec hwf).1 hstuck] at hs'
  cases hs'

/-- The scheduler is work-conserving and exact in every tick exactly when no tick leaves the
choice to `sjf` with nothing below the largest integer. -/
theorem scheduleMain_correct_iff (hwf : WellFormed procArray)
    (memory : QueueTypes → Nat → Option Ptr) (maxTimesteps : Nat) :
    Correct procArray memory maxTimesteps ↔
      ∀ t < maxTimesteps, ∀ s, stateAt procArray memory t = some s →
        ¬ Stuck procArray.length t s := by
  constructor
  · intro h t ht s hs
    obtain ⟨a, ha, hexact⟩ := exact_stateAt hwf t fun u hu a ha hexact =>
      h.not_stuck hwf (Nat.lt_trans hu ht) ha hexact
    cases hs.symm.trans ha
    exact h.not_stuck hwf ht hs hexact
  · exact fun h => correct_of hwf fun t ht s hs _ => h t ht s hs

theorem scheduleMain_correct_iff_two :
    Correct [⟨2, 0, 0, 4⟩, ⟨1, 1, 0, 1⟩] (fun _ _ => none) 3 ↔
      ∀ t < 3, ∀ s, stateAt [⟨2, 0, 0, 4⟩, ⟨1, 1, 0, 1⟩] (fun _ _ => none) t = some s →
        ¬ Stuck 2 t s :=
  scheduleMain_correct_iff ⟨by decide, by decide, by decide⟩ _ 3

/-- The index of the chosen process is still -1 when a single process of level 4 has the largest
remaining time. -/
theorem scheduleMain_not_correct :
    WellFormed [⟨2147483647, 0, 0, 4⟩] ∧
      ¬ Correct [⟨2147483647, 0, 0, 4⟩] (fun _ _ => none) 1 := by
  refine ⟨⟨by decide, by decide, by decide⟩, fun h => ?_⟩
  obtain ⟨_, s', _, hs', _⟩ := h 0 Nat.zero_lt_one
  have hnone : stateAt [⟨2147483647, 0, 0, 4⟩] (fun _ _ => none) 1 = none := rfl
  cases hnone.symm.trans hs'

/-- Below the largest integer nothing can go wrong. -/
theorem scheduleMain_correct_of_lt (hwf : WellFormed procArray)
    (hlt : ∀ th ∈ procArray, th.remainingTime < INT_MAX) (maxTimesteps : Nat) :
    Correct procArray memory maxTimesteps := by
  apply correct_of hwf
  intro t _ s _ hexact ⟨_, ⟨p, hp⟩, hall⟩
  have hsum := (hexact.executed p hp.1).2
  have := hlt _ (List.getElem_mem hp.1)
  have := (hall p hp).2
  omega

end CseOs.MultiLevel
