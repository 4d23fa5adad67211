import CseOs.CpuSim.Jobs

/-!
# `rr` of `cpusim.c`

The ready ring looks empty when as many jobs wait as it has cells, and an idle processor looks for
arrivals before 100000 only. Where neither comes up every job is run to its end.
-/

namespace CseOs.CpuSim

open Framework Finset

variable {n i j k : Nat} {tq : Int} {jobs : Nat → Process} {arrival burst : Nat → Int} {s t u : RrSt}
  {q l new : List Nat}

/-- The time that a job has run in all its slices. -/
def timeRun (i : Nat) (slices : List (Nat × Int)) : Int :=
  ((slices.filter fun e => e.1 = i).map Prod.snd).sum

/-- The ring holds each waiting job once. -/
def QueueSound (n : Nat) (s : RrSt) : Prop :=
  s.queue.contents.Nodup ∧ ∀ i, i ∈ s.queue.contents ↔ i < n ∧ (s.jobs i).inQueue = true

/-- The loop comes to its test in the state `s`. -/
def RrHeads (n : Nat) (jobs : Nat → Process) (tq : Int) (s : RrSt) : Prop :=
  Heads (rrGoesOn n) (rrTurn n tq) (rrStart n jobs) s

/-- `rr` returns with every job complete after exactly its burst, and the ring is sound throughout. -/
def RrCompletes (n : Nat) (jobs : Nat → Process) (tq : Int) : Prop :=
  (∃ t, RrReturns n jobs tq t ∧ ∀ i < n, (t.jobs i).complete = true ∧
    timeRun i t.slices = (jobs i).burst ∧
    (t.jobs i).turnaround = (t.jobs i).completion - (jobs i).arrival ∧
    (jobs i).burst ≤ (t.jobs i).turnaround) ∧
  ∀ s, RrHeads n jobs tq s → QueueSound n s

/-- A cell of the ring is free, and an idle processor will find the next arrival. -/
structure Serviceable (n : Nat) (s : RrSt) : Prop where
  room : ((range n).filter fun i => (s.jobs i).inQueue = true).card < QUEUE_SIZE
  next : (∀ i < n, (s.jobs i).inQueue = false) →
    ∃ i < n, (s.jobs i).complete = false ∧ (s.jobs i).arrival < 100000

/-- The state `t` is the state `s` with the jobs `new` in the queue. -/
structure Enqueued (s t : RrSt) (new : List Nat) : Prop where
  time : t.time = s.time
  completed : t.completed = s.completed
  slices : t.slices = s.slices
  valid : s.queue.Valid → t.queue.Valid
  size : t.queue.size = s.queue.size
  jobs : ∀ i, t.jobs i = if i ∈ new then { s.jobs i with inQueue := true } else s.jobs i
  carries : ∀ q, s.queue.Valid → s.queue.Carries q → q.length + new.length ≤ s.queue.size →
    t.queue.Carries (q ++ new)

private theorem Enqueued.refl (s : RrSt) : Enqueued s s [] :=
  ⟨rfl, rfl, rfl, id, rfl, fun _ => (if_neg List.not_mem_nil).symm, fun q _ hq _ => by
    rwa [List.append_nil]⟩

private theorem Enqueued.trans {more : List Nat} (h : Enqueued s u new) (h' : Enqueued u t more) :
    Enqueued s t (new ++ more) := by
  refine ⟨h'.time.trans h.time, h'.completed.trans h.completed, h'.slices.trans h.slices,
    fun hv => h'.valid (h.valid hv), h'.size.trans h.size, fun i => ?_, fun q hv hq hroom => ?_⟩
  · rw [h'.jobs, h.jobs]
    by_cases hnew : i ∈ new <;> by_cases hmore : i ∈ more <;> simp [hnew, hmore]
  · rw [List.length_append] at hroom
    rw [← List.append_assoc]
    apply h'.carries (q ++ new) (h.valid hv) (h.carries q hv hq (by omega))
    rw [List.length_append, h.size]
    omega

private theorem enqueueIf_enqueued {test : Nat → Process → Bool} (htest : test i (s.jobs i) = true) :
    Enqueued s (enqueueIf test s i) [i] := by
  rw [enqueueIf, if_pos htest]
  refine ⟨rfl, rfl, rfl, fun hv => hv.push, rfl, fun j => ?_, fun q hv hq hroom => ?_⟩
  · by_cases hji : j = i
    · rw [hji, if_pos List.mem_cons_self]
      exact Function.update_self _ _ _
    · rw [if_neg (by simpa using hji)]
      exact Function.update_of_ne hji _ _
  · exact hq.push hv (Nat.lt_of_succ_le hroom)

theorem enqueued_foldl {test : Nat → Process → Bool} (hl : l.Nodup) :
    Enqueued s (l.foldl (enqueueIf test) s) (l.filter fun i => test i (s.jobs i)) := by
  induction l generalizing s with
  | nil => exact Enqueued.refl s
  | cons i l ih =>
    obtain ⟨hi, hl⟩ := List.nodup_cons.mp hl
    rw [List.foldl_cons]
    cases htest : test i (s.jobs i) with
    | false =>
      have hsame : enqueueIf test s i = s := by
        rw [enqueueIf, htest]
        rfl
      rw [hsame, List.filter_cons_of_neg (by simp [htest])]
      exact ih hl
    | true =>
      have hone := enqueueIf_enqueued htest
      have hrest : l.filter (fun j => test j ((enqueueIf test s i).jobs j)) =
          l.filter fun j => test j (s.jobs j) := by
        apply List.filter_congr
        intro j hj
        have hji : j ≠ i := fun heq => hi (heq ▸ hj)
        rw [hone.jobs j, if_neg (by simpa using hji)]
      have hmore := ih (s := enqueueIf test s i) hl
      rw [hrest] at hmore
      rw [List.filter_cons_of_pos (by simp [htest])]
      exact hone.trans hmore

/-- The length of the slice of a job. -/
def sliceOf (tq : Int) (job : Process) : Int := if job.remaining > tq then tq else job.remaining

/-- The job that has run for a slice. -/
def ranJob (tq : Int) (job : Process) (time : Int) : Process :=
  if job.remaining - sliceOf tq job = 0 then
    { ({ job with remaining := job.remaining - sliceOf tq job } : Process).finish time with
      inQueue := false }
  else { job with remaining := job.remaining - sliceOf tq job }

/-- What a slice of the job `i` does, behind which the jobs `q` wait. -/
structure Sliced (n : Nat) (tq : Int) (i : Nat) (q new : List Nat) (s t : RrSt) : Prop where
  time : t.time = s.time + sliceOf tq (s.jobs i)
  clock : t.time ≤ INT_MAX
  completed : t.completed =
    s.completed + if (s.jobs i).remaining - sliceOf tq (s.jobs i) = 0 then 1 else 0
  slices : t.slices = s.slices ++ [(i, sliceOf tq (s.jobs i))]
  new_nodup : new.Nodup
  mem_new : ∀ j, j ∈ new ↔ j < n ∧ j ≠ i ∧ s.time < (s.jobs j).arrival ∧
    (s.jobs j).arrival ≤ t.time ∧ (s.jobs j).inQueue = false ∧ (s.jobs j).complete = false
  job : t.jobs i = ranJob tq (s.jobs i) t.time
  others : ∀ j ≠ i, t.jobs j = if j ∈ new then { s.jobs j with inQueue := true } else s.jobs j
  valid : t.queue.Valid
  size : t.queue.size = s.queue.size
  carries : q.length + new.length + 1 ≤ s.queue.size → t.queue.Carries
    (q ++ new ++ if (s.jobs i).remaining - sliceOf tq (s.jobs i) = 0 then [] else [i])

private theorem rrSlice_sliced (hv : s.queue.Valid) (hq : s.queue.Carries (i :: q))
    (hlen : (i :: q).length < s.queue.size) (hrun : rrSlice n tq s = some t) :
    ∃ new, Sliced n tq i q new s t := by
  obtain ⟨hpop, hrest⟩ := hq.pop hv hlen
  rw [rrSlice, hpop] at hrun
  obtain ⟨time, hadvance, heq⟩ := Option.map_eq_some_iff.mp hrun
  obtain ⟨hclock, htime⟩ := advance_eq_some.mp hadvance
  have hother : ∀ j ≠ i, (runJob s i (sliceOf tq (s.jobs i)) time).jobs j = s.jobs j :=
    fun j hji => Function.update_of_ne hji _ _
  have hself : (runJob s i (sliceOf tq (s.jobs i)) time).jobs i =
      { s.jobs i with remaining := (s.jobs i).remaining - sliceOf tq (s.jobs i) } :=
    Function.update_self _ _ _
  change endSlice (enqueueArrived n i s.time (runJob s i (sliceOf tq (s.jobs i)) time)) i = t at heq
  generalize hran : runJob s i (sliceOf tq (s.jobs i)) time = u at heq hother hself
  have henq : Enqueued u (enqueueArrived n i s.time u)
      ((List.range n).filter fun j => decide (j ≠ i ∧ s.time < (u.jobs j).arrival ∧
        (u.jobs j).arrival ≤ u.time ∧ (u.jobs j).inQueue = false ∧ (u.jobs j).complete = false)) :=
    enqueued_foldl List.nodup_range
  generalize hnew : (List.range n).filter (fun j => decide (j ≠ i ∧ s.time < (u.jobs j).arrival ∧
    (u.jobs j).arrival ≤ u.time ∧ (u.jobs j).inQueue = false ∧
      (u.jobs j).complete = false)) = new at henq
  have hutime : u.time = time := by rw [← hran, runJob]
  have hmem : ∀ j, j ∈ new ↔ j < n ∧ j ≠ i ∧ s.time < (s.jobs j).arrival ∧
      (s.jobs j).arrival ≤ time ∧ (s.jobs j).inQueue = false ∧ (s.jobs j).complete = false := by
    intro j
    rw [← hnew, List.mem_filter, List.mem_range, decide_eq_true_eq, hutime]
    by_cases hji : j = i
    · simp [hji]
    · rw [hother j hji]
  have hi : i ∉ new := fun hin => ((hmem i).mp hin).2.1 rfl
  generalize hw : enqueueArrived n i s.time u = w at heq henq
  have hwi : w.jobs i = { s.jobs i with remaining := (s.jobs i).remaining - sliceOf tq (s.jobs i) } := by
    rw [henq.jobs, if_neg hi, hself]
  have hwj : ∀ j ≠ i, w.jobs j = if j ∈ new then { s.jobs j with inQueue := true } else s.jobs j := by
    intro j hji
    rw [henq.jobs, hother j hji]
  have hwtime : w.time = time := by rw [henq.time, hutime]
  have huvalid : u.queue.Valid := by
    rw [← hran]
    exact hv.pop
  have hwvalid : w.queue.Valid := henq.valid huvalid
  have hwsize : w.queue.size = s.queue.size := by
    rw [henq.size, ← hran]
    rfl
  have hwcarries : q.length + new.length + 1 ≤ s.queue.size → w.queue.Carries (q ++ new) := by
    intro hroom
    apply henq.carries q huvalid
    · rw [← hran]
      exact hrest
    · rw [← hran]
      show q.length + new.length ≤ s.queue.size
      omega
  have hnodup : new.Nodup := by
    rw [← hnew]
    exact List.nodup_range.filter _
  have hcompleted : w.completed = s.completed := by
    rw [henq.completed, ← hran]
    rfl
  have hslices : w.slices = s.slices ++ [(i, sliceOf tq (s.jobs i))] := by
    rw [henq.slices, ← hran]
    rfl
  refine ⟨new, ?_⟩
  rw [endSlice, hwi] at heq
  by_cases hend : (s.jobs i).remaining - sliceOf tq (s.jobs i) = 0
  · rw [if_pos hend] at heq
    rw [← heq]
    refine ⟨hwtime.trans htime, ?_, ?_, hslices, hnodup, ?_, ?_, ?_, hwvalid, hwsize, ?_⟩
    · show w.time ≤ INT_MAX
      omega
    · rw [if_pos hend, ← hcompleted]
    · rw [← hwtime] at hmem
      exact hmem
    · rw [ranJob, if_pos hend]
      exact Function.update_self _ _ _
    · intro j hji
      rw [← hwj j hji]
      exact Function.update_of_ne hji _ _
    · rw [if_pos hend, List.append_nil]
      exact hwcarries
  · rw [if_neg hend] at heq
    rw [← heq]
    refine ⟨hwtime.trans htime, ?_, ?_, hslices, hnodup, ?_, ?_, hwj, hwvalid.push, hwsize, ?_⟩
    · show w.time ≤ INT_MAX
      omega
    · rw [if_neg hend, ← hcompleted]
      exact (Int.add_zero _).symm
    · rw [← hwtime] at hmem
      exact hmem
    · rw [ranJob, if_neg hend]
      exact hwi
    · rw [if_neg hend]
      intro hroom
      apply (hwcarries hroom).push hwvalid
      rw [hwsize, List.length_append]
      omega

/-- The values of a job with `ran` units behind it. -/
structure JobBase (arrival burst ran : Int) (job : Process) : Prop where
  arrives : job.arrival = arrival
  asks : job.burst = burst
  complete : job.complete = true ↔ job.remaining = 0
  ended : job.complete = true → job.turnaround = job.completion - arrival ∧ burst ≤ job.turnaround
  share : ran = burst - job.remaining

/-- A job at the test of the loop: it waits from its arrival to its end. -/
structure JobInv (arrival burst time ran : Int) (job : Process) : Prop
    extends JobBase arrival burst ran job where
  noticed : arrival ≤ time ↔ job.inQueue = true ∨ job.complete = true
  apart : job.inQueue = true → job.complete = false

structure RrInv (n : Nat) (arrival burst : Nat → Int) (s : RrSt) : Prop where
  valid : s.queue.Valid
  size : s.queue.size = QUEUE_SIZE
  job : ∀ i < n, JobInv (arrival i) (burst i) s.time (timeRun i s.slices) (s.jobs i)
  conserving : Conserving n arrival burst s.time fun i => (s.jobs i).remaining
  counted : s.completed = ∑ i ∈ range n, if (s.jobs i).complete = true then 1 else 0
  queue : ∃ q : List Nat, q.Nodup ∧ (∀ i, i ∈ q ↔ i < n ∧ (s.jobs i).inQueue = true) ∧
    s.queue.Carries q
  clock : s.time ≤ INT_MAX

theorem length_le_of_nodup {l : List Nat} (hl : l.Nodup) (hmem : ∀ i ∈ l, i < n) : l.length ≤ n := by
  have hsub : l ⊆ List.range n := fun i hi => List.mem_range.mpr (hmem i hi)
  have hle := (List.subperm_of_subset hl hsub).length_le
  rwa [List.length_range] at hle

private theorem RrInv.unfinished (h : RrInv n arrival burst s) (hgoes : rrGoesOn n s = true) :
    ∃ k < n, (s.jobs k).complete = false := by
  have hlt : s.completed < n := of_decide_eq_true hgoes
  rw [h.counted] at hlt
  obtain ⟨k, hk, hno⟩ := exists_of_count hlt
  exact ⟨k, hk, by simpa using hno⟩

theorem RrInv.remaining_pos (h : RrInv n arrival burst s) (hi : i < n)
    (hwaits : (s.jobs i).inQueue = true) : 0 < (s.jobs i).remaining := by
  have hnonneg : 0 ≤ (s.jobs i).remaining := h.conserving.nonneg i hi
  have hne : (s.jobs i).remaining ≠ 0 := by
    intro hzero
    have hcomplete := (h.job i hi).complete.mpr hzero
    rw [(h.job i hi).apart hwaits] at hcomplete
    cases hcomplete
  omega

theorem RrInv.queue_list (h : RrInv n arrival burst s)
    (hroom : ((range n).filter fun i => (s.jobs i).inQueue = true).card < QUEUE_SIZE) :
    ∃ q : List Nat, q.Nodup ∧ (∀ i, i ∈ q ↔ i < n ∧ (s.jobs i).inQueue = true) ∧
      s.queue.Carries q ∧ q.length < s.queue.size := by
  obtain ⟨q, hnodup, hmem, hq⟩ := h.queue
  refine ⟨q, hnodup, hmem, hq, ?_⟩
  have hcard : q.length = ((range n).filter fun i => (s.jobs i).inQueue = true).card := by
    rw [← List.toFinset_card_of_nodup hnodup]
    congr 1
    ext i
    rw [List.mem_toFinset, hmem, mem_filter, mem_range]
  rw [hcard, h.size]
  exact hroom

private theorem RrInv.queueSound (h : RrInv n arrival burst s)
    (hroom : ((range n).filter fun i => (s.jobs i).inQueue = true).card < QUEUE_SIZE) :
    QueueSound n s := by
  obtain ⟨q, hnodup, hmem, hq, hlen⟩ := h.queue_list hroom
  rw [QueueSound, hq.contents hlen]
  exact ⟨hnodup, hmem⟩

theorem RrInv.room (h : RrInv n arrival burst s) (hsound : QueueSound n s) :
    ((range n).filter fun i => (s.jobs i).inQueue = true).card < QUEUE_SIZE := by
  have hcount : s.queue.contents.length < s.queue.size := by
    rw [RingBuffer.length_contents]
    exact RingBuffer.count_lt h.valid
  have hcard : s.queue.contents.length =
      ((range n).filter fun i => (s.jobs i).inQueue = true).card := by
    rw [← List.toFinset_card_of_nodup hsound.1]
    congr 1
    ext i
    rw [List.mem_toFinset, hsound.2, mem_filter, mem_range]
  rw [← hcard, ← h.size]
  exact hcount

private theorem timeRun_concat {slices : List (Nat × Int)} {run : Int} :
    timeRun i (slices ++ [(j, run)]) = timeRun i slices + if j = i then run else 0 := by
  rw [timeRun, timeRun, List.filter_append, List.map_append, List.sum_append]
  by_cases hji : j = i <;> simp [hji]

/-- The clock has come to the next arrival, and no job waits. -/
structure Landed (n : Nat) (arrival burst : Nat → Int) (s : RrSt) : Prop where
  valid : s.queue.Valid
  size : s.queue.size = QUEUE_SIZE
  carries : s.queue.Carries []
  base : ∀ i < n, JobBase (arrival i) (burst i) (timeRun i s.slices) (s.jobs i)
  idle : ∀ i < n, (s.jobs i).inQueue = false
  early : ∀ i < n, arrival i < s.time ↔ (s.jobs i).complete = true
  conserving : Conserving n arrival burst s.time fun i => (s.jobs i).remaining
  counted : s.completed = ∑ i ∈ range n, if (s.jobs i).complete = true then 1 else 0
  clock : s.time ≤ INT_MAX

private theorem Landed.enqueue (hmax : n ≤ QUEUE_SIZE) (h : Landed n arrival burst s) :
    RrInv n arrival burst (enqueueAt n s) := by
  have henq : Enqueued s (enqueueAt n s) ((List.range n).filter fun i =>
      decide ((s.jobs i).arrival = s.time ∧ (s.jobs i).inQueue = false)) :=
    enqueued_foldl List.nodup_range
  generalize hnew : (List.range n).filter (fun i =>
    decide ((s.jobs i).arrival = s.time ∧ (s.jobs i).inQueue = false)) = new at henq
  generalize enqueueAt n s = t at henq
  have hmem : ∀ i, i ∈ new ↔ i < n ∧ arrival i = s.time := by
    intro i
    rw [← hnew, List.mem_filter, List.mem_range, decide_eq_true_eq]
    constructor
    · intro hin
      rw [← (h.base i hin.1).arrives]
      exact ⟨hin.1, hin.2.1⟩
    · intro hin
      exact ⟨hin.1, (h.base i hin.1).arrives.trans hin.2, h.idle i hin.1⟩
  have hnodup : new.Nodup := by
    rw [← hnew]
    exact List.nodup_range.filter _
  have hlen : new.length ≤ n := length_le_of_nodup hnodup fun i hi => ((hmem i).mp hi).1
  have hsame : ∀ i, (t.jobs i).remaining = (s.jobs i).remaining ∧
      (t.jobs i).complete = (s.jobs i).complete := by
    intro i
    rw [henq.jobs]
    split <;> exact ⟨rfl, rfl⟩
  have hwaits : ∀ i < n, (t.jobs i).inQueue = true ↔ i ∈ new := by
    intro i hi
    rw [henq.jobs]
    split
    · next hin => exact ⟨fun _ => hin, fun _ => rfl⟩
    · next hout => simp [h.idle i hi, hout]
  refine ⟨henq.valid h.valid, henq.size.trans h.size, fun i hi => ?_, ?_, ?_, ⟨new, hnodup, ?_, ?_⟩, ?_⟩
  · have hbase : JobBase (arrival i) (burst i) (timeRun i t.slices) (t.jobs i) := by
      rw [henq.slices, henq.jobs]
      split
      · exact ⟨(h.base i hi).arrives, (h.base i hi).asks, (h.base i hi).complete,
          (h.base i hi).ended, (h.base i hi).share⟩
      · exact h.base i hi
    refine ⟨hbase, ?_, ?_⟩
    · rw [hwaits i hi, hmem, (hsame i).2, ← h.early i hi, henq.time]
      constructor
      · intro hle
        by_cases heq : arrival i = s.time
        · exact .inl ⟨hi, heq⟩
        · exact .inr (by omega)
      · intro hor
        omega
    · intro hwait
      have hnow := ((hmem i).mp ((hwaits i hi).mp hwait)).2
      rw [(hsame i).2]
      cases hcomplete : (s.jobs i).complete with
      | false => rfl
      | true =>
        have := (h.early i hi).mpr hcomplete
        omega
  · rw [henq.time]
    have hleft : (fun i => (t.jobs i).remaining) = fun i => (s.jobs i).remaining :=
      funext fun i => (hsame i).1
    rw [hleft]
    exact h.conserving
  · simp only [henq.completed, h.counted, (hsame _).2]
  · intro i
    constructor
    · intro hin
      have hi := ((hmem i).mp hin).1
      exact ⟨hi, (hwaits i hi).mpr hin⟩
    · intro hin
      exact (hwaits i hin.1).mp hin.2
  · have hroom := h.size
    apply henq.carries [] h.valid h.carries
    rw [List.length_nil]
    omega
  · rw [henq.time]
    exact h.clock

private theorem rrInv_start (hn : 0 < n) (hmax : n ≤ QUEUE_SIZE) (hburst : ∀ i < n, 1 ≤ burst i) :
    RrInv n arrival burst (rrStart n (readJobs jobs arrival burst)) := by
  have hfirst : ∀ i < n, (leastIndex (fun _ => true) arrival 10000 n).2 ≤ arrival i :=
    fun i hi => leastIndex_bound.2 i hi rfl
  have hlimit : (leastIndex (fun _ => true) arrival 10000 n).2 ≤ 10000 := leastIndex_bound.1
  have hsize : 0 < QUEUE_SIZE := by decide
  have hempty : (⟨QUEUE_SIZE, 0, 0, fun _ => 0⟩ : RingBuffer Nat).contents = [] := by decide
  apply Landed.enqueue hmax
  constructor
  · exact ⟨hsize, hsize⟩
  · rfl
  · exact .inl ⟨hsize, hempty⟩
  · intro i hi
    have hpos := hburst i hi
    refine ⟨rfl, rfl, ⟨fun hcomplete => ?_, fun hzero => ?_⟩, fun hcomplete => ?_, ?_⟩
    · cases hcomplete
    · have hzero : burst i = 0 := hzero
      omega
    · cases hcomplete
    · exact (Int.sub_self _).symm
  · intro i _
    rfl
  · intro i hi
    constructor
    · intro hlt
      exact absurd hlt (Int.not_lt.mpr (hfirst i hi))
    · intro hcomplete
      cases hcomplete
  · exact Conserving.start (fun i hi => Int.le_of_lt (hburst i hi)) hn hfirst
  · apply Eq.symm
    apply sum_eq_zero
    intro i _
    rfl
  · exact Int.le_trans hlimit (by decide)

theorem RrInv.landed (h : RrInv n arrival burst s) (hidle : ∀ i < n, (s.jobs i).inQueue = false)
    (hq : s.queue.Carries []) (hnext : (nextArrival n s).1 = some k) :
    s.time < (nextArrival n s).2 ∧ (nextArrival n s).2 < 100000 ∧
      Landed n arrival burst { s with time := (nextArrival n s).2 } := by
  obtain ⟨hk, hok, hlt, hkey⟩ := leastIndex_some hnext
  have hleast := leastIndex_le hnext
  have hok := of_decide_eq_true hok
  have hjk := h.job k hk
  change (s.jobs k).arrival < 100000 at hlt
  change (s.jobs k).arrival = (nextArrival n s).2 at hkey
  rw [hjk.arrives] at hkey hlt
  have hlater : s.time < arrival k := by
    by_contra hle
    have hor := hjk.noticed.mp (by omega)
    rw [hok.1, hok.2] at hor
    simp at hor
  have hearly : ∀ i < n, arrival i < arrival k ↔ (s.jobs i).complete = true := by
    intro i hi
    constructor
    · intro hless
      by_contra hno
      have hle := hleast i hi (decide_eq_true ⟨by simpa using hno, hidle i hi⟩)
      rw [hjk.arrives, (h.job i hi).arrives] at hle
      omega
    · intro hcomplete
      have := (h.job i hi).noticed.mpr (.inr hcomplete)
      omega
  rw [← hkey]
  refine ⟨hlater, hlt, h.valid, h.size, hq, fun i hi => (h.job i hi).toJobBase, hidle, hearly, ?_,
    h.counted, ?_⟩
  · apply h.conserving.idle (Int.le_of_lt hlater) hk (Int.le_refl _)
    intro i hi hless
    exact (h.job i hi).complete.mp ((hearly i hi).mp hless)
  · exact Int.le_trans (Int.le_of_lt hlt) (by decide)

theorem JobInv.run {arrival burst time ran : Int} {job : Process} (h : JobInv arrival burst time ran job)
    (hwaits : job.inQueue = true) (htq : 1 ≤ tq) (hnonneg : 0 ≤ job.remaining) {now : Int}
    (hnow : now = time + sliceOf tq job)
    (hend : job.remaining - sliceOf tq job = 0 → arrival + burst ≤ now) :
    JobInv arrival burst now (ran + sliceOf tq job) (ranJob tq job now) := by
  have harrived := h.noticed.mpr (.inl hwaits)
  have hslice : 0 ≤ sliceOf tq job := by
    rw [sliceOf]
    split <;> omega
  have hshare := h.share
  rw [ranJob]
  split
  · next hzero =>
    have hlate := hend hzero
    refine ⟨⟨h.arrives, h.asks, ⟨fun _ => hzero, fun _ => rfl⟩, fun _ => ⟨?_, ?_⟩, ?_⟩, ?_, ?_⟩
    · show now - job.arrival = now - arrival
      rw [h.arrives]
    · show burst ≤ now - job.arrival
      rw [h.arrives]
      omega
    · show ran + sliceOf tq job = burst - (job.remaining - sliceOf tq job)
      omega
    · exact ⟨fun _ => .inr rfl, fun _ => by omega⟩
    · intro hno
      cases hno
  · next hmore =>
    have hrunning := h.apart hwaits
    refine ⟨⟨h.arrives, h.asks, ?_, fun hcomplete => ?_, ?_⟩, ?_, fun _ => hrunning⟩
    · show job.complete = true ↔ job.remaining - sliceOf tq job = 0
      rw [hrunning]
      constructor
      · intro hno
        cases hno
      · intro hzero
        exact absurd hzero hmore
    · change job.complete = true at hcomplete
      rw [hrunning] at hcomplete
      cases hcomplete
    · show ran + sliceOf tq job = burst - (job.remaining - sliceOf tq job)
      omega
    · exact ⟨fun _ => .inl hwaits, fun _ => by omega⟩

theorem JobInv.wait {arrival burst time ran now : Int} {job : Process} {b : Prop} [Decidable b]
    (h : JobInv arrival burst time ran job) (hnow : time ≤ now)
    (hb : b ↔ time < job.arrival ∧ job.arrival ≤ now ∧ job.inQueue = false ∧ job.complete = false) :
    JobInv arrival burst now ran (if b then { job with inQueue := true } else job) := by
  have harr := h.arrives
  split
  · next hin =>
    have hnew := hb.mp hin
    refine ⟨⟨h.arrives, h.asks, h.complete, h.ended, h.share⟩, ?_, fun _ => hnew.2.2.2⟩
    exact ⟨fun _ => .inl rfl, fun _ => by omega⟩
  · next hout =>
    refine ⟨h.toJobBase, ⟨fun hle => ?_, fun hor => ?_⟩, h.apart⟩
    · by_cases hold : arrival ≤ time
      · exact h.noticed.mp hold
      · by_contra hno
        simp only [not_or, Bool.not_eq_true] at hno
        exact hout (hb.mpr ⟨by omega, by omega, hno⟩)
    · have := h.noticed.mpr hor
      omega

/-- The jobs that wait behind a slice. -/
def behindSlice (tq : Int) (s : RrSt) (i : Nat) (q new : List Nat) : List Nat :=
  q ++ new ++ if (s.jobs i).remaining - sliceOf tq (s.jobs i) = 0 then [] else [i]

private theorem Sliced.mem_behind (h : Sliced n tq i q new s t) (hnodup : (i :: q).Nodup)
    (hmem : ∀ j, j ∈ i :: q ↔ j < n ∧ (s.jobs j).inQueue = true) (j : Nat) :
    j ∈ behindSlice tq s i q new ↔ j < n ∧ (t.jobs j).inQueue = true := by
  obtain ⟨hi, hwaits⟩ := (hmem i).mp List.mem_cons_self
  have hiq := (List.nodup_cons.mp hnodup).1
  have hinew : i ∉ new := fun hin => ((h.mem_new i).mp hin).2.1 rfl
  rw [behindSlice, List.mem_append, List.mem_append]
  by_cases hji : j = i
  · rw [hji, h.job, ranJob]
    split
    · simp [hiq, hinew]
    · simp [hi, hwaits]
  · have hold : j ∈ q ↔ j < n ∧ (s.jobs j).inQueue = true := by
      rw [← hmem, List.mem_cons]
      simp [hji]
    have htail : j ∉ if (s.jobs i).remaining - sliceOf tq (s.jobs i) = 0 then [] else [i] := by
      split <;> simp [hji]
    rw [h.others j hji, hold]
    simp only [htail, or_false]
    by_cases hin : j ∈ new
    · rw [if_pos hin]
      exact ⟨fun _ => ⟨((h.mem_new j).mp hin).1, rfl⟩, fun _ => .inr hin⟩
    · rw [if_neg hin]
      simp [hin]

private theorem Sliced.nodup_new (h : Sliced n tq i q new s t) (hnodup : (i :: q).Nodup)
    (hmem : ∀ j, j ∈ i :: q ↔ j < n ∧ (s.jobs j).inQueue = true) : (i :: (q ++ new)).Nodup := by
  rw [← List.cons_append, List.nodup_append]
  refine ⟨hnodup, h.new_nodup, fun a ha b hb heq => ?_⟩
  have hout := ((h.mem_new b).mp hb).2.2.2.2.1
  rw [← heq, ((hmem a).mp ha).2] at hout
  cases hout

private theorem Sliced.counted (h : Sliced n tq i q new s t) (hi : i < n)
    (hcomplete : (s.jobs i).complete = false)
    (hcount : s.completed = ∑ j ∈ range n, if (s.jobs j).complete = true then 1 else 0) :
    t.completed = ∑ j ∈ range n, if (t.jobs j).complete = true then 1 else 0 := by
  have hterm : ∀ j ∈ range n, (if (t.jobs j).complete = true then (1 : Int) else 0) =
      (if (s.jobs j).complete = true then 1 else 0) +
        if j = i then if (s.jobs i).remaining - sliceOf tq (s.jobs i) = 0 then 1 else 0 else 0 := by
    intro j _
    by_cases hji : j = i
    · rw [hji, h.job, ranJob, if_pos rfl, hcomplete]
      split
      · rfl
      · simp
    · rw [h.others j hji, if_neg hji, Int.add_zero]
      split <;> rfl
  rw [sum_congr rfl hterm, sum_add_distrib, ← hcount, sum_ite_eq' (range n) i,
    if_pos (mem_range.mpr hi), h.completed]

private theorem RrInv.slice (hmax : n ≤ QUEUE_SIZE) (htq : 1 ≤ tq) (h : RrInv n arrival burst s)
    (hnodup : (i :: q).Nodup) (hmem : ∀ j, j ∈ i :: q ↔ j < n ∧ (s.jobs j).inQueue = true)
    (hrun : Sliced n tq i q new s t) : RrInv n arrival burst t ∧ s.time < t.time := by
  obtain ⟨hi, hwaits⟩ := (hmem i).mp List.mem_cons_self
  have hji := h.job i hi
  obtain ⟨hiq, hqnodup⟩ := List.nodup_cons.mp hnodup
  have hpos := h.remaining_pos hi hwaits
  have hslice : 0 < sliceOf tq (s.jobs i) ∧ sliceOf tq (s.jobs i) ≤ (s.jobs i).remaining := by
    rw [sliceOf]
    split <;> omega
  have htime := hrun.time
  have hleft : Function.update (fun j => (s.jobs j).remaining) i
      ((s.jobs i).remaining - sliceOf tq (s.jobs i)) = fun j => (t.jobs j).remaining := by
    funext j
    by_cases heq : j = i
    · rw [heq, Function.update_self, hrun.job, ranJob]
      split <;> rfl
    · rw [Function.update_of_ne heq, hrun.others j heq]
      split <;> rfl
  have harrived := hji.noticed.mpr (.inl hwaits)
  have hcons := h.conserving.run hi harrived hslice.1 hslice.2
  rw [hleft, ← htime] at hcons
  have hti : (t.jobs i).remaining = (s.jobs i).remaining - sliceOf tq (s.jobs i) := by
    rw [← congrFun hleft i, Function.update_self]
  have hjobi : JobInv (arrival i) (burst i) t.time (timeRun i t.slices) (t.jobs i) := by
    rw [hrun.slices, timeRun_concat, if_pos rfl, hrun.job]
    apply hji.run hwaits htq (Int.le_of_lt hpos) htime
    intro hzero
    have hle := h.conserving.le i hi
    have hran := hcons.ran hi (by omega)
    omega
  have hothers : ∀ j < n, j ≠ i →
      JobInv (arrival j) (burst j) t.time (timeRun j t.slices) (t.jobs j) := by
    intro j hj hne
    rw [hrun.slices, timeRun_concat, if_neg (Ne.symm hne), Int.add_zero, hrun.others j hne]
    apply (h.job j hj).wait (by omega)
    rw [hrun.mem_new]
    exact ⟨fun hin => hin.2.2, fun hin => ⟨hj, hne, hin⟩⟩
  have hdistinct := hrun.nodup_new hnodup hmem
  have hroom : q.length + new.length + 1 ≤ n := by
    have hle := length_le_of_nodup (n := n) hdistinct fun j hj => by
      cases List.mem_cons.mp hj with
      | inl heq =>
        rw [heq]
        exact hi
      | inr hin =>
        cases List.mem_append.mp hin with
        | inl hold => exact ((hmem j).mp (List.mem_cons_of_mem i hold)).1
        | inr hnew => exact ((hrun.mem_new j).mp hnew).1
    rw [List.length_cons, List.length_append] at hle
    exact hle
  have hsize := h.size
  refine ⟨⟨hrun.valid, hrun.size.trans hsize, ?_, hcons, hrun.counted hi (hji.apart hwaits) h.counted,
    ⟨behindSlice tq s i q new, ?_, hrun.mem_behind hnodup hmem, hrun.carries (by omega)⟩,
    hrun.clock⟩, by omega⟩
  · intro j hj
    by_cases hne : j = i
    · rw [hne]
      exact hjobi
    · exact hothers j hj hne
  · obtain ⟨hout, hboth⟩ := List.nodup_cons.mp hdistinct
    rw [behindSlice, List.nodup_append]
    refine ⟨hboth, by split <;> simp, fun a ha b hb heq => ?_⟩
    split at hb
    · cases hb
    · rw [List.mem_singleton] at hb
      rw [heq, hb] at ha
      exact hout ha

private theorem RrInv.turn (hmax : n ≤ QUEUE_SIZE) (htq : 1 ≤ tq) (h : RrInv n arrival burst s)
    (hserve : Serviceable n s) (hrun : rrTurn n tq s = some t) :
    RrInv n arrival burst t ∧ s.time < t.time := by
  obtain ⟨q, hnodup, hmem, hq, hlen⟩ := h.queue_list hserve.room
  have hempty : queueEmpty s = true ↔ q = [] := by
    rw [← hq.empty_iff h.valid hlen, queueEmpty, decide_eq_true_eq, eq_comm]
  rw [rrTurn] at hrun
  split at hrun
  · next hidle =>
    have hnil := hempty.mp hidle
    rw [hnil] at hq hmem
    have hnone : ∀ i < n, (s.jobs i).inQueue = false := by
      intro i hi
      by_contra hwait
      exact absurd ((hmem i).mpr ⟨hi, by simpa using hwait⟩) List.not_mem_nil
    split at hrun
    · next hnext =>
      obtain ⟨k, hk, hcomplete, hearly⟩ := hserve.next hnone
      have hfound : (nextArrival n s).1 = none := by rw [hnext]
      have hle := leastIndex_none hfound k hk (decide_eq_true ⟨hcomplete, hnone k hk⟩)
      omega
    · next k next hnext =>
      cases hrun
      have hfound : (nextArrival n s).1 = some k := by rw [hnext]
      have hvalue : (nextArrival n s).2 = next := by rw [hnext]
      obtain ⟨hlater, _, hland⟩ := h.landed hnone hq hfound
      rw [hvalue] at hlater hland
      refine ⟨hland.enqueue hmax, ?_⟩
      have henq : Enqueued { s with time := next } (enqueueAt n { s with time := next }) _ :=
        enqueued_foldl List.nodup_range
      rw [henq.time]
      exact hlater
  · next hbusy =>
    cases q with
    | nil => exact absurd (hempty.mpr rfl) hbusy
    | cons i q =>
      obtain ⟨new, hsliced⟩ := rrSlice_sliced h.valid hq hlen hrun
      exact h.slice hmax htq hnodup hmem hsliced

theorem RrInv.turn_total (h : RrInv n arrival burst s) (hserve : Serviceable n s)
    (hfits : FitsIn n arrival burst INT_MAX) : ∃ t, rrTurn n tq s = some t := by
  obtain ⟨q, hnodup, hmem, hq, hlen⟩ := h.queue_list hserve.room
  rw [rrTurn]
  split
  · split <;> exact ⟨_, rfl⟩
  · next hbusy =>
    cases q with
    | nil =>
      apply absurd _ hbusy
      rw [queueEmpty, decide_eq_true_eq, (hq.empty_iff h.valid hlen).mpr rfl]
    | cons i q =>
      obtain ⟨hpop, _⟩ := hq.pop h.valid hlen
      obtain ⟨hi, hwaits⟩ := (hmem i).mp List.mem_cons_self
      have hend := h.conserving.fits hfits hi (h.remaining_pos hi hwaits)
      have hadvance : advance s.time (sliceOf tq (s.jobs i)) =
          some (s.time + sliceOf tq (s.jobs i)) := by
        apply advance_eq_some.mpr ⟨_, rfl⟩
        rw [sliceOf]
        split <;> omega
      rw [sliceOf] at hadvance
      rw [rrSlice, hpop]
      simp only [hadvance]
      exact ⟨_, rfl⟩

/-- The ring has always a free cell, and the next arrival is always found. -/
def AlwaysServiceable (n : Nat) (jobs : Nat → Process) (tq : Int) : Prop :=
  ∀ s, RrHeads n jobs tq s → rrGoesOn n s = true → Serviceable n s

private theorem AlwaysServiceable.inv (hn : 0 < n) (hmax : n ≤ QUEUE_SIZE) (hburst : ∀ i < n, 1 ≤ burst i)
    (htq : 1 ≤ tq) (h : AlwaysServiceable n (readJobs jobs arrival burst) tq)
    (hheads : RrHeads n (readJobs jobs arrival burst) tq s) : RrInv n arrival burst s := by
  induction hheads with
  | refl => exact rrInv_start hn hmax hburst
  | tail hrun hturn ih => exact (ih.turn hmax htq (h _ hrun hturn.1) hturn.2).1

private theorem RrInv.all_complete (h : RrInv n arrival burst s) (hstop : rrGoesOn n s = false) :
    ∀ i < n, (s.jobs i).complete = true := by
  have hfull : (n : Int) ≤ s.completed := Int.not_lt.mp (of_decide_eq_false hstop)
  rw [h.counted] at hfull
  exact all_of_count hfull

theorem RrInv.room_of_complete (h : RrInv n arrival burst s)
    (hall : ∀ i < n, (s.jobs i).complete = true) :
    ((range n).filter fun i => (s.jobs i).inQueue = true).card < QUEUE_SIZE := by
  have hnone : (range n).filter (fun i => (s.jobs i).inQueue = true) = ∅ := by
    apply filter_eq_empty_iff.mpr
    intro i hi hwaits
    have hi := mem_range.mp hi
    have hrunning := (h.job i hi).apart hwaits
    rw [hall i hi] at hrunning
    cases hrunning
  rw [hnone]
  decide

private theorem rrCompletes_of_serviceable (hn : 0 < n) (hmax : n ≤ QUEUE_SIZE) (hburst : ∀ i < n, 1 ≤ burst i)
    (htq : 1 ≤ tq) (h : AlwaysServiceable n (readJobs jobs arrival burst) tq)
    (hfits : FitsIn n arrival burst INT_MAX) : RrCompletes n (readJobs jobs arrival burst) tq := by
  constructor
  · have hloop : ∃ t, RrReturns n (readJobs jobs arrival burst) tq t ∧
        RrHeads n (readJobs jobs arrival burst) tq t ∧ rrGoesOn n t = false := by
      apply returns_of_variant (fun s => (INT_MAX - s.time).toNat) _ .refl
      intro s hheads hgoes
      have hinv := h.inv hn hmax hburst htq hheads
      have hserve := h s hheads hgoes
      obtain ⟨t, ht⟩ := hinv.turn_total hserve hfits
      obtain ⟨hnext, hlater⟩ := hinv.turn hmax htq hserve ht
      have := hnext.clock
      exact ⟨t, ht, hheads.tail ⟨hgoes, ht⟩, by omega⟩
    obtain ⟨t, hreturns, hheads, hstop⟩ := hloop
    have hinv := h.inv hn hmax hburst htq hheads
    refine ⟨t, hreturns, fun i hi => ?_⟩
    have hcomplete := hinv.all_complete hstop i hi
    have hjob := hinv.job i hi
    have hshare := hjob.share
    rw [hjob.complete.mp hcomplete, Int.sub_zero] at hshare
    exact ⟨hcomplete, hshare, hjob.ended hcomplete⟩
  · intro s hheads
    have hinv := h.inv hn hmax hburst htq hheads
    apply hinv.queueSound
    cases hgoes : rrGoesOn n s with
    | true => exact (h s hheads hgoes).room
    | false => exact hinv.room_of_complete (hinv.all_complete hgoes)

theorem RrInv.stuck (h : RrInv n arrival burst s)
    (hroom : ((range n).filter fun i => (s.jobs i).inQueue = true).card < QUEUE_SIZE)
    (hnone : ∀ i < n, (s.jobs i).inQueue = false)
    (hlate : ∀ i < n, (s.jobs i).complete = false → 100000 ≤ (s.jobs i).arrival) :
    rrTurn n tq s = some s := by
  obtain ⟨q, _, hmem, hq, hlen⟩ := h.queue_list hroom
  have hnil : q = [] := by
    apply List.eq_nil_iff_forall_not_mem.mpr
    intro i hin
    obtain ⟨hi, hwaits⟩ := (hmem i).mp hin
    rw [hnone i hi] at hwaits
    cases hwaits
  have hempty : queueEmpty s = true := by
    rw [queueEmpty, decide_eq_true_eq, (hq.empty_iff h.valid hlen).mpr hnil]
  have hno : (nextArrival n s).1 = none := by
    cases hnext : (nextArrival n s).1 with
    | none => rfl
    | some k =>
      obtain ⟨hk, hok, hlt, _⟩ := leastIndex_some hnext
      have := hlate k hk (of_decide_eq_true hok).1
      omega
  rw [rrTurn, if_pos hempty]
  split
  · rfl
  · next k next hnext =>
    rw [hnext] at hno
    cases hno

private theorem RrCompletes.serviceable (h : RrCompletes n (readJobs jobs arrival burst) tq)
    (hinv : RrInv n arrival burst s) (hheads : RrHeads n (readJobs jobs arrival burst) tq s)
    (hgoes : rrGoesOn n s = true) : Serviceable n s := by
  have hroom := hinv.room (h.2 s hheads)
  refine ⟨hroom, fun hnone => ?_⟩
  by_contra hno
  have hlate : ∀ i < n, (s.jobs i).complete = false → 100000 ≤ (s.jobs i).arrival := by
    intro i hi hcomplete
    by_contra hearly
    exact hno ⟨i, hi, hcomplete, by omega⟩
  obtain ⟨t, hreturns, _⟩ := h.1
  have hsame : rrTurn n tq s = some s := hinv.stuck hroom hnone hlate
  refine not_returns (I := fun u => u = s) rfl (fun u hu => ?_) (fun u v hu _ hv => ?_)
    (hreturns.of_heads hheads)
  · rw [hu]
    exact hgoes
  · rw [hu, hsame] at hv
    exact (Option.some.inj hv).symm

private theorem RrCompletes.inv (hn : 0 < n) (hmax : n ≤ QUEUE_SIZE) (hburst : ∀ i < n, 1 ≤ burst i)
    (htq : 1 ≤ tq) (h : RrCompletes n (readJobs jobs arrival burst) tq)
    (hheads : RrHeads n (readJobs jobs arrival burst) tq s) : RrInv n arrival burst s := by
  induction hheads with
  | refl => exact rrInv_start hn hmax hburst
  | tail hrun hturn ih =>
    exact (ih.turn hmax htq (h.serviceable ih hrun hturn.1) hturn.2).1

private theorem RrCompletes.alwaysServiceable (hn : 0 < n) (hmax : n ≤ QUEUE_SIZE)
    (hburst : ∀ i < n, 1 ≤ burst i) (htq : 1 ≤ tq)
    (h : RrCompletes n (readJobs jobs arrival burst) tq) :
    AlwaysServiceable n (readJobs jobs arrival burst) tq :=
  fun _ hheads hgoes => h.serviceable (h.inv hn hmax hburst htq hheads) hheads hgoes

private theorem RrCompletes.fits (hn : 0 < n) (hmax : n ≤ QUEUE_SIZE) (hburst : ∀ i < n, 1 ≤ burst i)
    (htq : 1 ≤ tq) (h : RrCompletes n (readJobs jobs arrival burst) tq) :
    FitsIn n arrival burst INT_MAX := by
  obtain ⟨t, hreturns, hall⟩ := h.1
  have hinv := h.inv hn hmax hburst htq (returns_iff.mp hreturns).1
  have hfits := hinv.conserving.fits_of_done
    (fun i hi => (hinv.job i hi).complete.mp (hall i hi).1) fun i hi => hburst i hi
  intro j hj
  exact Int.le_trans (hfits j hj) hinv.clock

/-- `rr` completes every job if and only if a cell of the ring is free at each test of the loop, the next
arrival is always found, and the clock can hold the end of the schedule. -/
theorem rr_completes_iff (hn : 0 < n) (hmax : n ≤ QUEUE_SIZE) (hburst : ∀ i < n, 1 ≤ burst i)
    (htq : 1 ≤ tq) : RrCompletes n (readJobs jobs arrival burst) tq ↔
      AlwaysServiceable n (readJobs jobs arrival burst) tq ∧ FitsIn n arrival burst INT_MAX := by
  constructor
  · intro h
    exact ⟨h.alwaysServiceable hn hmax hburst htq, h.fits hn hmax hburst htq⟩
  · intro h
    exact rrCompletes_of_serviceable hn hmax hburst htq h.1 h.2

theorem alwaysServiceable_of_few (hn : 0 < n) (hfew : n < QUEUE_SIZE) (hburst : ∀ i < n, 1 ≤ burst i)
    (htq : 1 ≤ tq) (hearly : ∀ i < n, arrival i < 100000) :
    AlwaysServiceable n (readJobs jobs arrival burst) tq := by
  have hserve : ∀ s, RrInv n arrival burst s → rrGoesOn n s = true → Serviceable n s := by
    intro s hinv hgoes
    constructor
    · apply Nat.lt_of_le_of_lt _ hfew
      have hle := card_filter_le (range n) fun i => (s.jobs i).inQueue = true
      rwa [card_range] at hle
    · intro _
      obtain ⟨k, hk, hcomplete⟩ := hinv.unfinished hgoes
      refine ⟨k, hk, hcomplete, ?_⟩
      rw [(hinv.job k hk).arrives]
      exact hearly k hk
  intro s hheads hgoes
  apply hserve s _ hgoes
  induction hheads with
  | refl => exact rrInv_start hn (Nat.le_of_lt hfew) hburst
  | tail hrun hturn ih =>
    have hinv := ih hturn.1
    exact (hinv.turn (Nat.le_of_lt hfew) htq (hserve _ hinv hturn.1) hturn.2).1

theorem rr_completes_pair :
    RrCompletes 2 (readJobs (fun _ => emptyJob) (fun i => 7 * i) fun i => 3 - i) 2 := by
  have hburst : ∀ i : Nat, i < 2 → (1 : Int) ≤ 3 - (i : Int) := fun i hi => by omega
  apply (rr_completes_iff (by decide) (by decide) hburst (by decide)).mpr
  constructor
  · exact alwaysServiceable_of_few (by decide) (by decide) hburst (by decide) fun i hi => by omega
  · rw [FitsIn]
    decide

theorem rrStart_waits {a : Int} (ha : a ≤ 10000) (hall : ∀ i < n, arrival i = a) (hi : i < n) :
    ((rrStart n (readJobs jobs arrival burst)).jobs i).inQueue = true := by
  have henq : Enqueued _ (rrStart n (readJobs jobs arrival burst)) _ :=
    enqueued_foldl List.nodup_range
  have htime : (leastIndex (fun _ => true) arrival 10000 n).2 = arrival i := by
    have hle : (leastIndex (fun _ => true) arrival 10000 n).2 ≤ arrival i :=
      leastIndex_bound.2 i hi rfl
    have hge : a ≤ (leastIndex (fun _ => true) arrival 10000 n).2 :=
      leastIndex_ge ha fun j hj => Int.le_of_eq (hall j hj).symm
    have := hall i hi
    omega
  rw [henq.jobs, if_pos]
  rw [List.mem_filter, List.mem_range, decide_eq_true_eq]
  exact ⟨hi, htime.symm, rfl⟩

/-- When as many jobs as the ring has cells arrive at once the ring looks empty. -/
theorem rr_full_ring :
    ¬ RrCompletes QUEUE_SIZE (readJobs (fun _ => emptyJob) (fun _ => 0) fun _ => 1) 1 := by
  intro h
  have hinv : RrInv QUEUE_SIZE (fun _ => 0) (fun _ => 1)
      (rrStart QUEUE_SIZE (readJobs (fun _ => emptyJob) (fun _ => 0) fun _ => 1)) :=
    rrInv_start (by decide) (Nat.le_refl _) fun _ _ => Int.le_refl 1
  have hroom := hinv.room (h.2 _ .refl)
  have hall : (range QUEUE_SIZE).filter (fun i => ((rrStart QUEUE_SIZE (readJobs (fun _ => emptyJob)
      (fun _ => 0) fun _ => 1)).jobs i).inQueue = true) = range QUEUE_SIZE := by
    apply filter_true_of_mem
    intro i hi
    exact rrStart_waits (a := 0) (by decide) (fun _ _ => rfl) (mem_range.mp hi)
  rw [hall, card_range] at hroom
  exact absurd hroom (Nat.lt_irrefl _)

end CseOs.CpuSim
