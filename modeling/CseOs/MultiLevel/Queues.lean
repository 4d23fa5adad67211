import CseOs.MultiLevel.Scheduler
import Mathlib.Data.List.Nodup

/-!
# Arrivals and policies

What the loop over the arrivals does to the queues, and what each policy does to the process it
chooses and to its queue.
-/

namespace CseOs.MultiLevel

open Framework State

variable {t i : Nat} {s s' : State} {q : QueueTypes} {p : Ptr} {ps : List Ptr}

/-- The queues hold the members, each in the queue of its priority. -/
def Queued (member : Ptr → Prop) (s : State) : Prop :=
  ∀ q, ∃ ps : List Ptr, Holds (s.queue q) ps ∧ s.idx q = ps.length ∧ ps.Nodup ∧
    ∀ p, p ∈ ps ↔ member p ∧ (s.proc p).priority = q.priority

theorem QueueTypes.priority_inj {q q' : QueueTypes} (h : q.priority = q'.priority) : q = q' := by
  cases q <;> cases q' <;> first | rfl | cases h

theorem QueueTypes.exists_priority {k : Int} (h : 1 ≤ k) (h' : k ≤ 4) :
    ∃ q : QueueTypes, q.priority = k := by
  have : k = 1 ∨ k = 2 ∨ k = 3 ∨ k = 4 := by omega
  rcases this with rfl | rfl | rfl | rfl
  · exact ⟨.ROUNDROBIN, rfl⟩
  · exact ⟨.STCF, rfl⟩
  · exact ⟨.FIFO, rfl⟩
  · exact ⟨.SJF, rfl⟩

theorem arrive_eq (hq : (s.proc p).priority = q.priority) :
    arrive t p s = some (if (s.proc p).arrivalTime = t then enqueue q p s else s) := by
  rw [arrive, hq]
  by_cases ht : (s.proc p).arrivalTime = t
  · rw [if_pos ht, if_pos ht]
    cases q <;> rfl
  · rw [if_neg ht, if_neg ht]

theorem Queued.enqueue {member : Ptr → Prop} (h : Queued member s) (hp : ¬ member p)
    (hq : (s.proc p).priority = q.priority) :
    Queued (fun r => member r ∨ r = p) (enqueue q p s) := by
  intro q'
  obtain ⟨ps, hholds, hidx, hnd, hmem⟩ := h q'
  by_cases hqq : q' = q
  · subst hqq
    refine ⟨ps ++ [p], ?_, ?_, ?_, fun r => ?_⟩
    · simp only [MultiLevel.enqueue, setQueue, Function.update_self]
      rw [hidx]
      exact hholds.push p
    · simp [MultiLevel.enqueue, setQueue, hidx]
    · apply List.Nodup.append hnd (List.nodup_singleton p)
      rw [List.disjoint_singleton]
      exact fun hm => hp ((hmem p).mp hm).1
    · show r ∈ ps ++ [p] ↔ (member r ∨ r = p) ∧ (s.proc r).priority = q'.priority
      rw [List.mem_append, List.mem_singleton, hmem, or_and_right]
      apply or_congr_right
      constructor
      · rintro rfl
        exact ⟨rfl, hq⟩
      · exact fun hr => hr.1
  · refine ⟨ps, ?_, ?_, hnd, fun r => ?_⟩
    · simpa only [MultiLevel.enqueue, setQueue, Function.update_of_ne hqq] using hholds
    · simpa only [MultiLevel.enqueue, setQueue, Function.update_of_ne hqq] using hidx
    · show r ∈ ps ↔ (member r ∨ r = p) ∧ (s.proc r).priority = q'.priority
      rw [hmem, or_and_right]
      apply (or_iff_left _).symm
      rintro ⟨rfl, hr⟩
      exact hqq (QueueTypes.priority_inj (hr.symm.trans hq))

/-- Only the queues differ, and they have grown. -/
structure Grown (s s' : State) : Prop where
  frame : s' = { s with queue := s'.queue, idx := s'.idx }
  idx : ∀ q, s.idx q ≤ s'.idx q

theorem arriveAll_spec {member : Ptr → Prop} (h : Queued member s) (hnd : ps.Nodup)
    (hnew : ∀ p ∈ ps, (s.proc p).arrivalTime = t → ¬ member p)
    (hlevel : ∀ p ∈ ps, ∃ q : QueueTypes, (s.proc p).priority = q.priority) :
    ∃ s', arriveAll t ps s = some s' ∧ Grown s s' ∧
      Queued (fun r => member r ∨ (r ∈ ps ∧ (s.proc r).arrivalTime = t)) s' := by
  induction ps generalizing s member with
  | nil =>
    refine ⟨s, rfl, ⟨rfl, fun q => Nat.le_refl _⟩, ?_⟩
    intro q
    obtain ⟨l, hholds, hidx, hnd, hmem⟩ := h q
    exact ⟨l, hholds, hidx, hnd, fun p => by simpa using hmem p⟩
  | cons p ps ih =>
    obtain ⟨hpps, hnd⟩ := List.nodup_cons.mp hnd
    obtain ⟨q, hq⟩ := hlevel p List.mem_cons_self
    rw [arriveAll, arrive_eq hq, Option.bind_some]
    by_cases ht : (s.proc p).arrivalTime = t
    · rw [if_pos ht]
      have hp := hnew p List.mem_cons_self ht
      obtain ⟨s', hrun, hgrown, hqueued⟩ := ih (h.enqueue hp hq) hnd
        (fun r hr hrt hm => hm.elim (hnew r (List.mem_cons_of_mem p hr) hrt)
          fun he => hpps (he ▸ hr))
        (fun r hr => hlevel r (List.mem_cons_of_mem p hr))
      refine ⟨s', hrun, ⟨?_, fun q' => ?_⟩, fun q' => ?_⟩
      · rw [hgrown.frame]
        rfl
      · refine Nat.le_trans ?_ (hgrown.idx q')
        by_cases hqq : q' = q
        · subst hqq
          simp [MultiLevel.enqueue, setQueue]
        · simp [MultiLevel.enqueue, setQueue, Function.update_of_ne hqq]
      · obtain ⟨l, hholds, hidx, hnd, hmem⟩ := hqueued q'
        refine ⟨l, hholds, hidx, hnd, fun r => (hmem r).trans ?_⟩
        apply and_congr_left
        intro _
        show (member r ∨ r = p) ∨ (r ∈ ps ∧ (s.proc r).arrivalTime = t) ↔
          member r ∨ (r ∈ p :: ps ∧ (s.proc r).arrivalTime = t)
        rw [List.mem_cons]
        constructor
        · rintro ((hm | rfl) | hm)
          · exact .inl hm
          · exact .inr ⟨.inl rfl, ht⟩
          · exact .inr ⟨.inr hm.1, hm.2⟩
        · rintro (hm | ⟨rfl | hm, hrt⟩)
          · exact .inl (.inl hm)
          · exact .inl (.inr rfl)
          · exact .inr ⟨hm, hrt⟩
    · rw [if_neg ht]
      obtain ⟨s', hrun, hgrown, hqueued⟩ := ih h hnd
        (fun r hr => hnew r (List.mem_cons_of_mem p hr))
        (fun r hr => hlevel r (List.mem_cons_of_mem p hr))
      refine ⟨s', hrun, hgrown, fun q' => ?_⟩
      obtain ⟨l, hholds, hidx, hnd, hmem⟩ := hqueued q'
      refine ⟨l, hholds, hidx, hnd, fun r => (hmem r).trans ?_⟩
      apply and_congr_left
      intro _
      apply or_congr_right
      rw [List.mem_cons]
      constructor
      · exact fun hm => ⟨.inr hm.1, hm.2⟩
      · rintro ⟨rfl | hm, hrt⟩
        · exact absurd hrt ht
        · exact ⟨hm, hrt⟩

/-- What a tick does to the process it executes. -/
def Process.ticked (t : Nat) (th : Process) : Process :=
  { th with
    remainingTime := th.remainingTime - 1
    finishTime := if th.remainingTime = 1 then (t : Int) + 1 else th.finishTime }

/-- The line is printed and the process has had its tick. -/
def ran (t : Nat) (p : Ptr) (q : QueueTypes) (s : State) : State :=
  { s with
    output := s.output ++ [Line.executing t p q]
    proc := Function.update s.proc p ((s.proc p).ticked t) }

private theorem execute_spec {done : Int → Bool} (h : Holds (s.queue q) ps) (hi : i < ps.length)
    (hdone : done ((s.proc ps[i]).remainingTime - 1) =
      decide ((s.proc ps[i]).remainingTime = 1)) :
    execute done q i t s =
      some (decide ((s.proc ps[i]).remainingTime = 1), ran t ps[i] q s) := by
  simp only [execute, h.get hi, Option.bind_eq_bind, Option.bind_some, hdone]
  by_cases hr : (s.proc ps[i]).remainingTime = 1
  · simp [hr, ran, setProc, Process.ticked]
  · simp [hr, ran, setProc, Process.ticked]

/-- The queue is not empty and its processes have time left. -/
structure Loaded (q : QueueTypes) (ps : List Ptr) (s : State) : Prop where
  holds : Holds (s.queue q) ps
  idx : s.idx q = ps.length
  ne : ps ≠ []
  nodup : ps.Nodup
  remains : ∀ p ∈ ps, 0 < (s.proc p).remainingTime
  bounded : ∀ p ∈ ps, (s.proc p).remainingTime ≤ INT_MAX

/-- The process has had its tick, and has left the queue if that was its last. -/
structure Served (t : Nat) (q : QueueTypes) (ps : List Ptr) (p : Ptr) (s s' : State) : Prop where
  mem : p ∈ ps
  proc : s'.proc = Function.update s.proc p ((s.proc p).ticked t)
  output : s'.output = s.output ++ [Line.executing t p q]
  others : ∀ q' ≠ q, s'.queue q' = s.queue q' ∧ s'.idx q' = s.idx q'
  entries : ∃ ps', Holds (s'.queue q) ps' ∧ s'.idx q = ps'.length ∧ ps'.Sublist ps ∧
    ∀ r, r ∈ ps' ↔ r ∈ ps ∧ ¬ (r = p ∧ (s.proc p).remainingTime = 1)

theorem Loaded.length_pos (h : Loaded q ps s) : 0 < ps.length := List.length_pos_iff.mpr h.ne

theorem Loaded.idx_ne (h : Loaded q ps s) : s.idx q ≠ 0 := by
  rw [h.idx]
  exact Nat.pos_iff_ne_zero.mp h.length_pos

/-- The ways the policies ask for the end of a process agree on the times that occur. -/
theorem Loaded.execute (h : Loaded q ps s) (hi : i < ps.length) (done : Int → Bool)
    (hdone : ∀ r, 0 ≤ r → done r = decide (r = 0)) :
    execute done q i t s =
      some (decide ((s.proc ps[i]).remainingTime = 1), ran t ps[i] q s) := by
  apply execute_spec h.holds hi
  have := h.remains _ (List.getElem_mem hi)
  rw [hdone _ (by omega)]
  apply decide_eq_decide.mpr
  omega

/-- The scan for the shortest process. -/
theorem Loaded.scan (h : Loaded q ps s) (better : Int → Int → Bool) :
    ∃ found, scanBest better (fun p => (s.proc p).remainingTime) (s.queue q) (s.idx q) 0 INT_MAX
        none = some found ∧
      (∀ i, found = some i → i < ps.length) ∧
      (found = none ↔ ∀ p ∈ ps, better (s.proc p).remainingTime INT_MAX = false) := by
  obtain ⟨found, hscan, hlt, _, hnone⟩ := scanBest_spec
    h.holds (k := s.idx q) (i := 0)
    (by rw [h.idx, Nat.zero_add]) 
    (fun j (hj : none = some j) => by cases hj)
  refine ⟨found, hscan, hlt, hnone.trans ?_⟩
  constructor
  · intro hall p hp
    obtain ⟨j, hj, rfl⟩ := List.getElem_of_mem hp
    exact hall.2 j hj (Nat.zero_le j)
  · exact fun hall => ⟨rfl, fun j hj _ => hall _ (List.getElem_mem hj)⟩

theorem Loaded.kept (h : Loaded q ps s) (hi : i < ps.length)
    (hr : (s.proc ps[i]).remainingTime ≠ 1) : Served t q ps ps[i] s (ran t ps[i] q s) where
  mem := List.getElem_mem hi
  proc := rfl
  output := rfl
  others := fun _ _ => ⟨rfl, rfl⟩
  entries := by
    refine ⟨ps, h.holds, h.idx, List.Sublist.refl ps, fun r => ?_⟩
    exact (and_iff_left fun hrp => hr hrp.2).symm

theorem Loaded.removed (h : Loaded q ps s) (hi : i < ps.length)
    (hr : (s.proc ps[i]).remainingTime = 1) {a : Nat → Option Ptr}
    (ha : Holds a (ps.eraseIdx i)) :
    Served t q ps ps[i] s ((ran t ps[i] q s).setQueue q a (s.idx q - 1)) where
  mem := List.getElem_mem hi
  proc := rfl
  output := rfl
  others := fun q' hq => by simp [setQueue, ran, Function.update_of_ne hq]
  entries := by
    refine ⟨ps.eraseIdx i, ?_, ?_, List.eraseIdx_sublist ps i, fun r => ?_⟩
    · simpa [setQueue] using ha
    · simp [setQueue, List.length_eraseIdx_of_lt hi, h.idx]
    · rw [and_iff_left hr, ← h.nodup.erase_getElem i hi, h.nodup.mem_erase_iff]
      exact and_comm

@[simp] theorem remove_setQueue (k i : Nat) (a : Nat → Option Ptr) (n : Nat) :
    remove q k i (s.setQueue q a n) = s.setQueue q (shiftDown k i a) (n - 1) := by
  simp [remove, setQueue]

/-- `curr_task` names a slot of its queue. -/
def Cursor (s : State) : Prop := ∀ i, s.curr_task = some i → i < s.idx .SJF

theorem Cursor.served (h : Cursor s) (hq : q ≠ .SJF) (hserved : Served t q ps p s s')
    (htask : s'.curr_task = s.curr_task) : Cursor s' := by
  intro i hi
  rw [(hserved.others .SJF hq.symm).2]
  exact h i (htask.symm.trans hi)

private theorem Served.cursors (h : Served t q ps p s s') (counter : Nat) (tq : Int)
    (task : Option Nat) :
    Served t q ps p s { s' with counter := counter, tq := tq, curr_task := task } :=
  ⟨h.mem, h.proc, h.output, h.others, h.entries⟩

theorem rr_spec (h : Loaded .ROUNDROBIN ps s) :
    ∃ p s', rr t s = some s' ∧ Served t .ROUNDROBIN ps p s s' ∧ s'.curr_task = s.curr_task := by
  have hi : s.counter % s.idx .ROUNDROBIN < ps.length := by
    rw [h.idx]
    exact Nat.mod_lt _ h.length_pos
  have hrun := h.execute (t := t) hi (fun r => r ≤ 0) fun r hr => by
    apply decide_eq_decide.mpr
    omega
  simp only [rr, hrun, Option.bind_eq_bind, Option.bind_some]
  by_cases hr : (s.proc ps[s.counter % s.idx .ROUNDROBIN]).remainingTime = 1
  · have hholds := h.holds.shift hi (k := s.idx .ROUNDROBIN - 1 - s.counter % s.idx .ROUNDROBIN)
      (by rw [h.idx]; omega)
    simp only [hr, decide_true, if_true]
    exact ⟨_, _, rfl, (h.removed hi hr hholds).cursors _ _ _, rfl⟩
  · simp only [hr, decide_false, Bool.false_eq_true, if_false]
    split
    · exact ⟨_, _, rfl, (h.kept hi hr).cursors _ _ _, rfl⟩
    · exact ⟨_, _, rfl, (h.kept hi hr).cursors _ _ _, rfl⟩

theorem srtrf_spec (h : Loaded .STCF ps s) :
    ∃ p s', srtrf t s = some s' ∧ Served t .STCF ps p s s' ∧ s'.curr_task = s.curr_task := by
  obtain ⟨found, hscan, hlt, hnone⟩ := h.scan fun r srt => r ≤ srt
  cases found with
  | none =>
    have hp := List.getElem_mem h.length_pos
    exact absurd (h.bounded _ hp) (of_decide_eq_false (hnone.mp rfl _ hp))
  | some i =>
    have hi := hlt i rfl
    have hrun := h.execute (t := t) hi (fun r => r == 0) fun _ _ => rfl
    simp only [srtrf, hscan, hrun, Option.bind_eq_bind, Option.bind_some]
    by_cases hr : (s.proc ps[i]).remainingTime = 1
    · have hholds := h.holds.shift hi (k := s.idx .STCF - i) (by rw [h.idx]; omega)
      simp only [hr, decide_true, if_true]
      exact ⟨_, _, rfl, h.removed hi hr hholds, rfl⟩
    · simp only [hr, decide_false, Bool.false_eq_true, if_false]
      exact ⟨_, _, rfl, h.kept hi hr, rfl⟩

theorem fifo_spec (h : Loaded .FIFO ps s) :
    ∃ p s', fifo t s = some s' ∧ Served t .FIFO ps p s s' ∧ s'.curr_task = s.curr_task := by
  have hi := h.length_pos
  have hrun := h.execute (t := t) hi (fun r => r == 0) fun _ _ => rfl
  simp only [fifo, hrun, Option.bind_eq_bind, Option.bind_some]
  by_cases hr : (s.proc ps[0]).remainingTime = 1
  · have hholds : Holds (shiftDown (s.idx .FIFO - 1) 0 (Function.update (s.queue .FIFO) 0 none))
        (ps.eraseIdx 0) := by
      apply (h.holds.shift hi (k := s.idx .FIFO - 1) (by rw [h.idx]; omega)).congr
      intro j hj
      rw [List.length_eraseIdx_of_lt hi] at hj
      rw [shiftDown_apply, shiftDown_apply, h.idx, if_pos (by omega), if_pos (by omega),
        Function.update_of_ne (Nat.succ_ne_zero j)]
    simp only [hr, decide_true, if_true, remove_setQueue]
    exact ⟨_, _, rfl, h.removed hi hr hholds, rfl⟩
  · simp only [hr, decide_false, Bool.false_eq_true, if_false]
    exact ⟨_, _, rfl, h.kept hi hr, rfl⟩

private theorem sjfRun_spec (h : Loaded .SJF ps s) (htask : s.curr_task = some i) (hi : i < ps.length) :
    ∃ p s', sjfRun t s = some s' ∧ Served t .SJF ps p s s' ∧ Cursor s' := by
  have hrun := h.execute (t := t) hi (fun r => r == 0) fun _ _ => rfl
  simp only [sjfRun, htask, hrun, Option.bind_eq_bind, Option.bind_some]
  by_cases hr : (s.proc ps[i]).remainingTime = 1
  · have hholds := h.holds.shift hi (k := s.idx .SJF - 1 - i) (by rw [h.idx]; omega)
    simp only [hr, decide_true, if_true]
    exact ⟨_, _, rfl, (h.removed hi hr hholds).cursors _ _ _, nofun⟩
  · simp only [hr, decide_false, Bool.false_eq_true, if_false]
    refine ⟨_, _, rfl, h.kept hi hr, fun j hj => ?_⟩
    show j < s.idx .SJF
    rw [h.idx]
    cases htask.symm.trans hj
    exact hi

theorem sjf_spec (h : Loaded .SJF ps s) (hcursor : Cursor s)
    (hshort : s.curr_task ≠ none ∨ ∃ p ∈ ps, (s.proc p).remainingTime < INT_MAX) :
    ∃ p s', sjf t s = some s' ∧ Served t .SJF ps p s s' ∧ Cursor s' := by
  rw [sjf, if_neg h.idx_ne]
  cases htask : s.curr_task with
  | some i =>
    rw [if_pos (Option.some_ne_none i)]
    exact sjfRun_spec h htask (h.idx ▸ hcursor i htask)
  | none =>
    rw [if_neg (fun hn => hn rfl)]
    obtain ⟨found, hscan, hlt, hnone⟩ := h.scan fun r shortest => r < shortest
    rw [hscan, Option.bind_eq_bind, Option.bind_some]
    cases found with
    | none =>
      obtain ⟨p, hp, hlt⟩ := hshort.resolve_left (fun hn => hn htask)
      exact absurd hlt (of_decide_eq_false (hnone.mp rfl p hp))
    | some i =>
      have hloaded : Loaded .SJF ps { s with curr_task := some i } :=
        ⟨h.holds, h.idx, h.ne, h.nodup, h.remains, h.bounded⟩
      obtain ⟨p, s', hrun, hserved, hcur⟩ := sjfRun_spec (t := t) hloaded rfl (hlt i rfl)
      exact ⟨p, s', hrun, ⟨hserved.mem, hserved.proc, hserved.output, hserved.others,
        hserved.entries⟩, hcur⟩

/-- With no current task and no process below the largest integer the index stays -1. -/
theorem sjf_stuck (h : Loaded .SJF ps s) (htask : s.curr_task = none)
    (hlong : ∀ p ∈ ps, (s.proc p).remainingTime = INT_MAX) : sjf t s = none := by
  obtain ⟨found, hscan, _, hnone⟩ := h.scan fun r shortest => r < shortest
  have hfound : found = none := by
    apply hnone.mpr
    intro p hp
    rw [hlong p hp]
    rfl
  rw [sjf, if_neg h.idx_ne, if_neg (fun hn => hn htask), hscan, hfound]
  rfl

end CseOs.MultiLevel
