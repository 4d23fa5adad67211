import CseOs.TickSim.Rounds
import Mathlib.Data.List.Perm.Subperm

/-!
# The main loop

No thread is lost and every tick is charged once in every round of every run, and the loop stops
with all threads finished unless nothing is left to run before a later arrival.
-/

namespace CseOs.TickSim

open Framework Sim

variable {cfg : Config} {jobs : List Job} {s s' : Sim} {l : QName → List Ptr}
  {place place' : Ptr → Place} {p : Ptr} {T : Int} {n : Nat}

/-- The state while the workload is entered. -/
structure Entered (cfg : Config) (jobs : List Job) (s : Sim) : Prop where
  placed : ∃ l, Placed s l fun _ => .queue .workload
  accounted : Accounted jobs (.during 0 0) s fun _ => .queue .workload
  cores : s.core.length = cfg.ncores
  trace : s.runTrace = []
  log : s.ioLog = []

theorem entered_initial (cfg : Config) : Entered cfg [] (initial cfg) := by
  refine ⟨⟨fun _ => [], ?_⟩, ?_, List.length_replicate .., rfl, rfl⟩
  · constructor
    · exact fun q => rfl
    · exact fun q => rfl
    · exact fun q => rfl
    · exact fun q => List.nodup_nil
    · exact fun q p => iff_of_false List.not_mem_nil fun h => absurd h.1 (Nat.not_lt_zero p)
    · intro i p
      apply iff_of_false _ fun h => absurd h.1 (Nat.not_lt_zero p)
      intro hi
      have := List.mem_of_getElem? hi
      cases List.eq_of_mem_replicate this
  · constructor
    · rfl
    · rfl
    · intro p j hj
      simp at hj
    · exact fun _ p hp => absurd hp (Nat.not_lt_zero p)
    · exact fun row hrow => absurd hrow List.not_mem_nil

private theorem Entered.add (h : Entered cfg jobs s) (j : Job) :
    Entered cfg (jobs ++ [j]) (workloadAdd ((s.made : Int) + 1) j s) := by
  obtain ⟨l, hp⟩ := h.placed
  generalize hnew : { s with
    made := s.made + 1
    thread := Function.update s.thread s.made (makeThread ((s.made : Int) + 1) j) } = s₁
  have hold : ∀ p, p < s.made → p ≠ s.made := fun p hp => Nat.ne_of_lt hp
  have hnot : ∀ q, s.made ∉ l q := fun q hm => Nat.lt_irrefl _ (hp.lt hm)
  have h₁ : Placed s₁ l (Function.update (fun _ => Place.queue .workload) s.made .hand) := by
    subst hnew
    constructor
    · exact hp.chain
    · exact hp.rear
    · exact hp.size
    · exact hp.nodup
    · intro q p
      show p ∈ l q ↔ p < s.made + 1 ∧ _
      by_cases hpm : p = s.made
      · subst hpm
        simp [hnot q]
      · have hlt : p < s.made + 1 ↔ p < s.made := by
          constructor
          · exact fun h => Nat.lt_of_le_of_ne (Nat.le_of_lt_succ h) hpm
          · exact fun h => Nat.lt_succ_of_lt h
        rw [Function.update_of_ne hpm, hlt]
        exact hp.mem q p
    · intro i p
      show s.core[i]? = some (some p) ↔ p < s.made + 1 ∧ _
      rw [hp.core]
      by_cases hpm : p = s.made
      · subst hpm
        simp
      · rw [Function.update_of_ne hpm]
        exact iff_of_false (fun hc => nomatch hc.2) fun hc => nomatch hc.2
  have hmade₁ : s₁.made = s.made + 1 := by rw [← hnew]
  have hpush := h₁.push (show s.made < s₁.made by rw [hmade₁]; exact Nat.lt_succ_self _)
    (Function.update_self ..) .workload
  have hrun : workloadAdd ((s.made : Int) + 1) j s = qPush .workload s.made s₁ := by
    rw [← hnew]
    rfl
  rw [hrun]
  obtain ⟨h₂, hrel⟩ := hpush
  rw [Function.update_idem, Function.update_eq_self] at h₂
  have hthread : (qPush .workload s.made s₁).thread =
      Function.update s.thread s.made (makeThread ((s.made : Int) + 1) j) := by
    rw [hrel.thread, ← hnew]
  have hframe : (qPush .workload s.made s₁).made = s.made + 1 ∧
      (qPush .workload s.made s₁).simTime = s.simTime ∧
      (qPush .workload s.made s₁).traceLen = s.traceLen ∧
      (qPush .workload s.made s₁).runTrace = [] ∧ (qPush .workload s.made s₁).ioLog = [] := by
    rw [hrel, ← hnew]
    exact ⟨rfl, rfl, rfl, h.trace, h.log⟩
  obtain ⟨hmade, htime, htraceLen, htrace, hlog⟩ := hframe
  have hlen : jobs.length = s.made := h.accounted.made.symm
  have hcharged : ∀ p j', (jobs ++ [j])[p]? = some j' →
      Charged (.during 0 0) [] p j' ((qPush .workload s.made s₁).thread p) (.queue .workload) := by
    intro p j' hj'
    rw [hthread]
    by_cases hpm : p = s.made
    · subst hpm
      rw [← hlen, List.getElem?_concat_length, Option.some_inj] at hj'
      subst hj'
      rw [Function.update_self]
      refine ⟨rfl, rfl, rfl, Int.le_refl _, j.priority_le, rfl, fun _ => show (-1 : Int) < 0 by decide, ?_⟩
      refine ⟨j.arrival_nonneg, j.burst_pos, ?_⟩
      simp [charged, makeThread, ioTime]
    · have hlt : p < jobs.length := by
        have := (List.getElem?_eq_some_iff.mp hj').1
        rw [List.length_append, List.length_singleton, hlen] at this
        rw [hlen]
        exact Nat.lt_of_le_of_ne (Nat.le_of_lt_succ this) hpm
      rw [List.getElem?_append_left hlt] at hj'
      rw [Function.update_of_ne hpm, ← h.log]
      exact h.accounted.charged p j' hj'
  refine ⟨⟨_, h₂⟩, ?_, ?_, htrace, hlog⟩
  · constructor
    · rw [hmade, List.length_append, List.length_singleton, hlen]
    · rw [htime]
      exact h.accounted.time
    · rw [hlog]
      exact hcharged
    · intro hle p hp
      rw [hmade] at hp
      rw [htime, htraceLen] at hle
      rw [htrace, hthread]
      by_cases hpm : p = s.made
      · rw [hpm, Function.update_self]
        simp [makeThread]
      · have := h.accounted.traced hle p (Nat.lt_of_le_of_ne (Nat.le_of_lt_succ hp) hpm)
        rw [h.trace] at this
        rw [Function.update_of_ne hpm]
        exact this
    · rw [htrace]
      exact fun row hrow => absurd hrow List.not_mem_nil
  · rw [hrel.core, ← hnew]
    exact h.cores

theorem Entered.prompt (h : Entered cfg jobs s) (js : List Job) :
    Entered cfg (jobs ++ js) (workloadPrompt js s) := by
  induction js generalizing jobs s with
  | nil => rwa [List.append_nil]
  | cons j js ih =>
    have := ih (h.add j)
    rwa [List.append_assoc, List.singleton_append] at this

theorem Accounted.reenter (h : Accounted jobs (.during T 1) s place) :
    Accounted jobs (.during T 0) s place := by
  refine ⟨h.made, h.time, fun p j hj => ?_, h.traced, h.rows⟩
  have hold := h.charged p j hj
  refine ⟨hold.tid, hold.arrival, hold.burst, hold.remaining_le, hold.priority_le, hold.state,
    hold.unfinished, ?_⟩
  have hacc := hold.account
  cases hplace : place p with
  | queue q =>
    rw [hplace] at hacc
    cases q with
    | workload =>
      have hle : T + 1 ≤ (s.thread p).arrivalTime := hacc.1
      exact ⟨by show T ≤ _; omega, hacc.2⟩
    | ready => exact hacc
    | waiting => exact hacc
    | finished => exact hacc
    | keep => exact hacc
  | core i =>
    rw [hplace] at hacc
    exact hacc
  | hand =>
    rw [hplace] at hacc
    exact hacc

/-- The first round starts with threads in the workload and ready queues only. -/
theorem loopHead_zero (cfg : Config) (jobs : List Job) :
    ∃ s l place, loopHead cfg jobs 0 = some s ∧ Placed s l place ∧
      Accounted jobs (.during 0 0) s place ∧ s.core.length = cfg.ncores ∧ s.ioLog = [] ∧
      ∀ p < s.made, place p = .queue .workload ∨ place p = .queue .ready := by
  have hent := (entered_initial cfg).prompt jobs
  rw [List.nil_append] at hent
  obtain ⟨l, hp⟩ := hent.placed
  obtain ⟨s, l', place, hrun, h, ha, hwoken, _⟩ := admit_call hp hent.accounted
  have htime : ((workloadPrompt jobs (initial cfg)).simTime : Int) = 0 := hent.accounted.time
  rw [htime] at hrun
  refine ⟨s, l', place, hrun, h, ha.reenter, ?_, ?_, fun p hp => ?_⟩
  · rw [hwoken.frame.core]
    exact hent.cores
  · rw [hwoken.frame.ioLog]
    exact hent.log
  · rw [hwoken.frame.made] at hp
    by_cases hdue : ((workloadPrompt jobs (initial cfg)).thread p).arrivalTime =
        (workloadPrompt jobs (initial cfg)).simTime
    · exact .inr (hwoken.woken p hp rfl hdue).1
    · exact .inl (hwoken.other p hp fun hc => hdue hc.2).1

/-- The main loop starts each of its rounds with all accounts in order. -/
theorem loopHead_spec (h : loopHead cfg jobs n = some s) :
    ∃ l place, Placed s l place ∧ Accounted jobs (.during n 0) s place ∧
      s.core.length = cfg.ncores := by
  induction n generalizing s with
  | zero =>
    obtain ⟨s', l, place, hrun, hp, ha, hcores, _⟩ := loopHead_zero cfg jobs
    have hs : s' = s := Option.some_inj.mp (hrun.symm.trans h)
    subst hs
    exact ⟨l, place, hp, ha, hcores⟩
  | succ n ih =>
    rw [loopHead] at h
    cases hhead : loopHead cfg jobs n with
    | none =>
      rw [hhead] at h
      cases h
    | some s₀ =>
      obtain ⟨l, place, hp, ha, hcores⟩ := ih hhead
      obtain ⟨s', l', place', io, cores, hrun, h', ha', hround⟩ := tick_spec cfg hp ha
      rw [hhead] at h
      simp only [Option.bind_eq_bind, Option.bind_some, hrun] at h
      split at h
      · cases h
      · cases h
        refine ⟨l', place', h', ?_, hround.ends.trans hcores⟩
        rw [show ((n + 1 : Nat) : Int) = (n : Int) + 1 by omega]
        exact ha'

/-- A thread is in a queue. -/
def InQueue (s : Sim) (q : QName) (p : Ptr) : Prop :=
  ∃ ps, Chain s.next (s.queue q).front ps ∧ p ∈ ps

theorem Placed.inQueue_iff (h : Placed s l place) (q : QName) (p : Ptr) :
    InQueue s q p ↔ p < s.made ∧ place p = .queue q := by
  rw [← h.mem q p]
  constructor
  · intro ⟨ps, hchain, hm⟩
    rwa [(h.chain q).unique hchain]
  · exact fun hm => ⟨l q, h.chain q, hm⟩

/-- One core, first in first out and no interrupts. -/
def singleCore : Config := ⟨.fifo, 1, 1, false, fun _ => 0⟩

/-- A job of one tick. -/
def shortJob (arrival : Nat) : Job where
  arrival := arrival
  burst := 1
  priority := 0
  arrival_nonneg := Int.natCast_nonneg arrival
  burst_pos := Int.one_pos
  burst_le := one_le_INT_MAX
  priority_le := zero_le_INT_MAX

/-- A job of three ticks. -/
def rankedJob (arrival : Nat) (priority : Int) (hle : priority ≤ INT_MAX) : Job where
  arrival := arrival
  burst := 3
  priority := priority
  arrival_nonneg := Int.natCast_nonneg arrival
  burst_pos := by decide
  burst_le := by decide
  priority_le := hle

private theorem call_spec (h : Placed s l place) {k : Nat} (ha : Accounted jobs (.during T k) s place)
    {f : Sim → Option Sim} (hf : (phases cfg)[k]? = some f) :
    ∃ s' l' place', f s = some s' ∧ Placed s' l' place' ∧
      Accounted jobs (.during T (k + 1)) s' place' := by
  match k, hf with
  | 0, rfl =>
    obtain ⟨s', l', place', hrun, h', ha', _⟩ := admit_call h ha
    exact ⟨s', l', place', hrun, h', ha'⟩
  | 1, rfl =>
    obtain ⟨s', l', place', hrun, h', ha', _⟩ := resolve_call h ha
    exact ⟨s', l', place', hrun, h', ha'⟩
  | 2, rfl =>
    obtain ⟨s', l', io, hrun, h', ha', _⟩ := interrupts_call cfg h ha
    exact ⟨s', l', _, hrun, h', ha'⟩
  | 3, rfl =>
    obtain ⟨s', l', place', hrun, h', ha', _⟩ := dispatch_call cfg h ha
    exact ⟨s', l', place', hrun, h', ha'⟩
  | 4, rfl =>
    obtain ⟨s', hrun, h', ha', _⟩ := bump_call h ha
    exact ⟨s', l, place, hrun, h', ha'⟩
  | 5, rfl =>
    obtain ⟨h', ha', _⟩ := step_call h ha
    exact ⟨cpuStep s, l, place, rfl, h', ha'⟩
  | 6, rfl =>
    obtain ⟨s', hrun, h', ha', _⟩ := decay_call h ha
    exact ⟨s', l, place, hrun, h', ha'⟩
  | 7, rfl =>
    obtain ⟨s', l', place', hrun, h', ha', _⟩ := collect_call h ha
    exact ⟨s', l', place', hrun, h', ha'⟩

theorem calls_spec (cfg : Config) (h : Placed s l place) (ha : Accounted jobs (.during T 0) s place)
    {k : Nat} (hk : k ≤ (phases cfg).length) :
    ∃ s' l' place', runCalls ((phases cfg).take k) s = some s' ∧ Placed s' l' place' ∧
      Accounted jobs (.during T k) s' place' := by
  induction k with
  | zero => exact ⟨s, l, place, rfl, h, ha⟩
  | succ k ih =>
    obtain ⟨s₁, l₁, place₁, hrun₁, h₁, ha₁⟩ := ih (Nat.le_of_succ_le hk)
    obtain ⟨s₂, l₂, place₂, hrun₂, h₂, ha₂⟩ := call_spec h₁ ha₁ (List.getElem?_eq_getElem hk)
    refine ⟨s₂, l₂, place₂, ?_, h₂, ha₂⟩
    rw [List.take_add_one, List.getElem?_eq_getElem hk, runCalls_append, hrun₁]
    show (phases cfg)[k] s₁ >>= some = _
    rw [hrun₂]
    rfl

/-- After any number of calls of any round, each thread of the workload is in exactly one place,
its state says which, and the queues are linked as their fields say. -/
theorem thread_conservation (h : loopHead cfg jobs n = some s) (k : Nat) :
    ∃ s' l place, runCalls ((phases cfg).take k) s = some s' ∧ s'.made = jobs.length ∧
      Placed s' l place ∧
      (∀ p < s'.made, (s'.thread p).state = (place p).state ∧ place p ≠ .hand ∧
        place p ≠ .queue .keep) ∧
      ∀ q q', q ≠ q' → (l q).Disjoint (l q') := by
  obtain ⟨l, place, hp, ha, _⟩ := loopHead_spec h
  have hmin : (phases cfg).take (min k (phases cfg).length) = (phases cfg).take k := by
    rw [List.take_eq_take_iff]
    simp
  obtain ⟨s', l', place', hrun, h', ha'⟩ := calls_spec cfg hp ha (Nat.min_le_right k _)
  rw [hmin] at hrun
  refine ⟨s', l', place', hrun, ha'.made, h', fun p hp => ?_, fun q q' hq p => ?_⟩
  · exact ⟨ha'.state_eq hp, ha'.settled p hp⟩
  · exact h'.disjoint hq

theorem thread_conservation_example :
    ∃ s s' l place, loopHead singleCore [shortJob 0, shortJob 1] 0 = some s ∧
      runCalls ((phases singleCore).take 4) s = some s' ∧ s'.made = 2 ∧ Placed s' l place := by
  have hhead : (loopHead singleCore [shortJob 0, shortJob 1] 0).isSome := by decide
  obtain ⟨s, hs⟩ := Option.isSome_iff_exists.mp hhead
  obtain ⟨s', l, place, hrun, hmade, hplaced, _⟩ := thread_conservation hs 4
  exact ⟨s, s', l, place, hs, hrun, hmade, hplaced⟩

/-- At the end of each round the finished threads have been charged for all their time, the trace
counts each of their ticks, and no row of it names a thread twice. -/
theorem time_accounting (h : loopHead cfg jobs n = some s) (ht : tick cfg s = some s') :
    (∀ p, InQueue s' .finished p →
      (s'.thread p).finishTime - (s'.thread p).arrivalTime =
          (s'.thread p).burstTime + (s'.thread p).waitTime +
            ioTime s'.ioLog (s'.thread p).tid ∧
        (s'.simTime ≤ s'.traceLen →
          (s'.runTrace.flatten.count (s'.thread p).tid : Int) = (s'.thread p).burstTime)) ∧
      ∀ row ∈ s'.runTrace, ∀ tid, tid ≠ -1 → row.count tid ≤ 1 := by
  obtain ⟨l, place, hp, ha, _⟩ := loopHead_spec h
  obtain ⟨s₁, l₁, place₁, io, cores, hrun, h₁, ha₁, _⟩ := tick_spec cfg hp ha
  have hs : s₁ = s' := Option.some_inj.mp (hrun.symm.trans ht)
  subst hs
  refine ⟨fun p hin => ?_, ha₁.rows⟩
  obtain ⟨hmade, hplace⟩ := (h₁.inQueue_iff .finished p).mp hin
  obtain ⟨j, _, hj⟩ := ha₁.job hmade
  have hacc := hj.account
  rw [hplace] at hacc
  obtain ⟨hrem, hfin⟩ := hacc
  constructor
  · simp only [charged] at hfin
    omega
  · intro hle
    have := ha₁.traced hle p hmade
    omega

/-- One core with an interrupt of two ticks in the second round -/
def interrupted : Config := ⟨.fifo, 1, 1, true, fun n => if n = 0 then 0 else 50⟩

/-- Two jobs of three ticks -/
def twoJobs : List Job := [rankedJob 0 0 zero_le_INT_MAX, rankedJob 0 0 zero_le_INT_MAX]

theorem time_accounting_example :
    ∃ s s', loopHead interrupted twoJobs 5 = some s ∧ tick interrupted s = some s' ∧
      InQueue s' .finished 0 ∧ (s'.thread 0).waitTime = 1 ∧ ioTime s'.ioLog (s'.thread 0).tid = 2 ∧
      (s'.thread 0).finishTime - (s'.thread 0).arrivalTime =
        (s'.thread 0).burstTime + (s'.thread 0).waitTime + ioTime s'.ioLog (s'.thread 0).tid := by
  have heval : ((loopHead interrupted twoJobs 5).any fun s => (tick interrupted s).any fun s' =>
      decide ((s'.queue .finished).front = some 1 ∧ s'.next 1 = some 0 ∧ s'.next 0 = none ∧
        (s'.thread 0).waitTime = 1 ∧ ioTime s'.ioLog (s'.thread 0).tid = 2)) = true := by decide +kernel
  obtain ⟨s, hs, htick⟩ := (Option.any_eq_true _ _).mp heval
  obtain ⟨s', ht, hout⟩ := (Option.any_eq_true _ _).mp htick
  obtain ⟨hfront, hnext, hlast, hwait, hio⟩ := of_decide_eq_true hout
  have hin : InQueue s' .finished 0 := ⟨[1, 0], ⟨hfront, hnext, hlast⟩, List.mem_cons_of_mem 1 List.mem_cons_self⟩
  exact ⟨s, s', hs, ht, hin, hwait, hio, ((time_accounting hs ht).1 0 hin).1⟩

/-- Every thread is finished and in the queue of the finished threads. -/
structure AllFinished (s : Sim) : Prop where
  workload : qEmpty (s.queue .workload) = true
  ready : qEmpty (s.queue .ready) = true
  waiting : qEmpty (s.queue .waiting) = true
  finished : ∀ p < s.made, InQueue s .finished p ∧ (s.thread p).state = .finished ∧
    (s.thread p).remaining = 0

/-- The round that starts in `s` ends every thread that it can run while a later arrival is still
to come. -/
structure Gap (cfg : Config) (s : Sim) : Prop where
  later : ∃ p < s.made, (s.thread p).state = .new ∧ (s.thread p).arrivalTime ≠ s.simTime
  due : ∀ p < s.made, (s.thread p).state = .waiting → live s p
  undisturbed : Undisturbed cfg s
  last : ∀ p < s.made, live s p → (s.thread p).remaining = 1
  fits : (List.range s.made).countP (live s) ≤ s.core.length

private theorem Placed.qEmpty_iff (h : Placed s l place) (q : QName) :
    qEmpty (s.queue q) = true ↔ ∀ p < s.made, place p ≠ .queue q := by
  rw [h.empty_iff, List.eq_nil_iff_forall_not_mem]
  apply forall_congr'
  intro p
  rw [h.mem, not_and]

theorem allDone_iff (h : Placed s l place) (ha : Accounted jobs (.during T 0) s place) :
    allDone s = true ↔
      ∀ p < s.made, (s.thread p).state = .new ∨ (s.thread p).state = .finished := by
  rw [allDone, Bool.and_eq_true, Bool.and_eq_true, h.qEmpty_iff, h.qEmpty_iff, List.all_eq_true]
  constructor
  · intro ⟨⟨hready, hwaiting⟩, hcores⟩ p hp
    rw [ha.state_eq hp]
    cases hplace : place p with
    | core i =>
      have := hcores _ (List.mem_of_getElem? ((h.core i p).mpr ⟨hp, hplace⟩))
      cases this
    | hand => exact absurd hplace (ha.settled p hp).1
    | queue q =>
      cases q with
      | workload => exact .inl rfl
      | finished => exact .inr rfl
      | ready => exact absurd hplace (hready p hp)
      | waiting => exact absurd hplace (hwaiting p hp)
      | keep => exact absurd hplace (ha.settled p hp).2
  · intro hall
    refine ⟨⟨fun p hp hplace => ?_, fun p hp hplace => ?_⟩, fun c hc => ?_⟩
    · have := hall p hp
      rw [ha.state_eq hp, hplace] at this
      cases this <;> contradiction
    · have := hall p hp
      rw [ha.state_eq hp, hplace] at this
      cases this <;> contradiction
    · cases c with
      | none => rfl
      | some p =>
        obtain ⟨i, hi⟩ := List.mem_iff_getElem?.mp hc
        have := hall p (h.core_lt hi)
        rw [ha.state_eq (h.core_lt hi), h.core_eq hi] at this
        cases this <;> contradiction

private theorem allFinished_iff (h : Placed s l place) (ha : Accounted jobs (.during T 0) s place) :
    AllFinished s ↔ ∀ p < s.made, (s.thread p).state = .finished := by
  constructor
  · exact fun hf p hp => (hf.finished p hp).2.1
  · intro hall
    have hplace : ∀ p < s.made, place p = .queue .finished := by
      intro p hp
      have hstate := hall p hp
      rw [ha.state_eq hp] at hstate
      cases hplace : place p with
      | core i =>
        rw [hplace] at hstate
        cases hstate
      | hand => exact absurd hplace (ha.settled p hp).1
      | queue q =>
        rw [hplace] at hstate
        cases q with
        | finished => rfl
        | keep => exact absurd hplace (ha.settled p hp).2
        | workload => cases hstate
        | ready => cases hstate
        | waiting => cases hstate
    have hempty : ∀ q, q ≠ .finished → qEmpty (s.queue q) = true := by
      intro q hq
      rw [h.qEmpty_iff]
      intro p hp he
      exact hq (Place.queue.inj (he.symm.trans (hplace p hp)))
    refine ⟨hempty _ nofun, hempty _ nofun, hempty _ nofun, fun p hp => ⟨?_, hall p hp, ?_⟩⟩
    · exact (h.inQueue_iff .finished p).mpr ⟨hp, hplace p hp⟩
    · obtain ⟨j, _, hj⟩ := ha.job hp
      have hacc := hj.account
      rw [hplace p hp] at hacc
      exact hacc.1

theorem live_new_iff (h : (s.thread p).state = .new) :
    live s p = true ↔ (s.thread p).arrivalTime = s.simTime := by
  rw [live, h]
  exact decide_eq_true_iff

theorem waiting_of_not_live (h : ¬ live s p = true) (hnew : (s.thread p).state ≠ .new)
    (hfin : (s.thread p).state ≠ .finished) : (s.thread p).state = .waiting := by
  rw [live] at h
  cases hstate : (s.thread p).state with
  | new => exact absurd hstate hnew
  | finished => exact absurd hstate hfin
  | waiting => rfl
  | ready =>
    rw [hstate] at h
    exact absurd rfl h
  | running =>
    rw [hstate] at h
    exact absurd rfl h

section Stop

variable {io : Ptr → Option Nat} {cores : List (Option Ptr)}

theorem Round.new_iff (h : Round cfg s s' io cores) (hp : p < s.made) :
    (s'.thread p).state = .new ↔
      (s.thread p).state = .new ∧ (s.thread p).arrivalTime ≠ s.simTime := by
  rw [h.state p hp, nextState]
  by_cases hlive : live s p = true
  · rw [if_pos hlive]
    have hne : (if (io p).isSome then ThreadState.waiting
        else if some p ∈ cores then (if (s.thread p).remaining = 1 then .finished else .running)
        else .ready) ≠ .new := by
      split
      · intro he
        cases he
      · split
        · split <;> (intro he; cases he)
        · intro he
          cases he
    apply iff_of_false hne
    intro hnew
    exact hnew.2 ((live_new_iff hnew.1).mp hlive)
  · rw [if_neg hlive]
    exact ⟨fun hnew => ⟨hnew, fun harr => hlive ((live_new_iff hnew).mpr harr)⟩, fun h => h.1⟩

theorem Round.finished_iff (h : Round cfg s s' io cores) (hp : p < s.made) (hlive : live s p = true) :
    (s'.thread p).state = .finished ↔
      io p = none ∧ some p ∈ cores ∧ (s.thread p).remaining = 1 := by
  rw [h.state p hp, nextState, if_pos hlive]
  by_cases hio : (io p).isSome
  · rw [if_pos hio]
    exact iff_of_false (fun he => by cases he) fun hc => by simp [hc.1] at hio
  · rw [if_neg hio]
    have hio : io p = none := by simpa using hio
    by_cases hcore : some p ∈ cores
    · rw [if_pos hcore]
      by_cases hlast : (s.thread p).remaining = 1
      · rw [if_pos hlast]
        exact iff_of_true rfl ⟨hio, hcore, hlast⟩
      · rw [if_neg hlast]
        exact iff_of_false (fun he => by cases he) fun hc => hlast hc.2.2
    · rw [if_neg hcore]
      exact iff_of_false (fun he => by cases he) fun hc => hcore hc.2.1

theorem Round.all_run_iff (h : Round cfg s s' io cores) (hio : ∀ p, io p = none) :
    (∀ p < s.made, live s p → some p ∈ cores) ↔
      (List.range s.made).countP (live s) ≤ s.core.length := by
  have hmem : ∀ p, p ∈ (List.range s.made).filter (live s) ↔ p < s.made ∧ live s p = true := by
    intro p
    rw [List.mem_filter, List.mem_range]
  have hnd : ((List.range s.made).filter (live s)).Nodup := List.nodup_range.filter _
  rw [List.countP_eq_length_filter, ← h.length]
  constructor
  · intro hall
    have hsub : (List.range s.made).filter (live s) ⊆ cores.reduceOption := by
      intro p hp
      obtain ⟨hp, hlive⟩ := (hmem p).mp hp
      exact List.reduceOption_mem_iff.mpr (hall p hp hlive)
    exact Nat.le_trans (hnd.subperm hsub).length_le (List.reduceOption_length_le cores)
  · intro hfits p hp hlive
    by_cases hidle : none ∈ cores
    · exact h.busy hidle p hp hlive (hio p)
    · have hsub : cores.reduceOption ⊆ (List.range s.made).filter (live s) := by
        intro r hr
        obtain ⟨hr, hlive, _⟩ := h.running r (List.reduceOption_mem_iff.mp hr)
        exact (hmem r).mpr ⟨hr, hlive⟩
      have hlen : cores.reduceOption.length = cores.length := by
        rw [List.reduceOption_length_eq_iff]
        intro c hc
        cases c with
        | none => exact absurd hc hidle
        | some r => rfl
      have hperm := (h.nodup.subperm hsub).perm_of_length_le (hlen ▸ hfits)
      exact List.reduceOption_mem_iff.mp (hperm.mem_iff.mpr ((hmem p).mpr ⟨hp, hlive⟩))

theorem Round.gap_iff (h : Round cfg s s' io cores) :
    Gap cfg s ↔ (∀ p < s.made, (s'.thread p).state = .new ∨ (s'.thread p).state = .finished) ∧
      ∃ p < s.made, (s'.thread p).state = .new := by
  constructor
  · intro hgap
    have hio := h.undisturbed.mpr hgap.undisturbed
    have hrun := (h.all_run_iff hio).mpr hgap.fits
    constructor
    · intro p hp
      by_cases hlive : live s p = true
      · exact .inr ((h.finished_iff hp hlive).mpr ⟨hio p, hrun p hp hlive, hgap.last p hp hlive⟩)
      · rw [h.state p hp, nextState, if_neg hlive]
        by_cases hnew : (s.thread p).state = .new
        · exact .inl hnew
        · by_cases hfin : (s.thread p).state = .finished
          · exact .inr hfin
          · exact absurd (hgap.due p hp (waiting_of_not_live hlive hnew hfin)) hlive
    · obtain ⟨p, hp, hnew⟩ := hgap.later
      exact ⟨p, hp, (h.new_iff hp).mpr hnew⟩
  · intro hall
    obtain ⟨hdone, hlater⟩ := hall
    have hlast : ∀ p < s.made, live s p = true →
        io p = none ∧ some p ∈ cores ∧ (s.thread p).remaining = 1 := by
      intro p hp hlive
      rw [← h.finished_iff hp hlive]
      apply (hdone p hp).resolve_left
      intro hnew
      obtain ⟨hnew, harr⟩ := (h.new_iff hp).mp hnew
      exact harr ((live_new_iff hnew).mp hlive)
    have hio : ∀ p, io p = none := by
      intro p
      cases hio : io p with
      | none => rfl
      | some d =>
        obtain ⟨hp, hlive⟩ := h.blocked p (by rw [hio]; rfl)
        rw [← hio]
        exact (hlast p hp hlive).1
    constructor
    · obtain ⟨p, hp, hnew⟩ := hlater
      exact ⟨p, hp, (h.new_iff hp).mp hnew⟩
    · intro p hp hwaiting
      by_cases hlive : live s p = true
      · exact hlive
      · have := hdone p hp
        rw [h.state p hp, nextState, if_neg hlive, hwaiting] at this
        cases this <;> contradiction
    · exact h.undisturbed.mp hio
    · exact fun p hp hlive => (hlast p hp hlive).2.2
    · exact (h.all_run_iff hio).mp fun p hp hlive => (hlast p hp hlive).2.1

end Stop

/-- The stop test ignores the workload queue: when it holds, all threads are finished if and only
if the round was no gap before a later arrival. -/
theorem stops_finished_iff (h : loopHead cfg jobs n = some s) (ht : tick cfg s = some s') :
    (allDone s' = true → AllFinished s') ↔ ¬ Gap cfg s := by
  obtain ⟨l, place, hp, ha, _⟩ := loopHead_spec h
  obtain ⟨s₁, l₁, place₁, io, cores, hrun, h₁, ha₁, hround⟩ := tick_spec cfg hp ha
  have hs : s₁ = s' := Option.some_inj.mp (hrun.symm.trans ht)
  subst hs
  rw [hround.gap_iff, allDone_iff h₁ ha₁, allFinished_iff h₁ ha₁, hround.made]
  constructor
  · intro himp ⟨hdone, p, hp, hnew⟩
    have := himp hdone p hp
    rw [hnew] at this
    cases this
  · intro hno hdone p hp
    apply (hdone p hp).resolve_left
    exact fun hnew => hno ⟨hdone, p, hp, hnew⟩

/-- The loop stops before the only thread arrives. -/
theorem stops_before_arrival :
    ∃ s s', loopHead singleCore [shortJob 1] 0 = some s ∧ tick singleCore s = some s' ∧
      allDone s' = true ∧ ¬ AllFinished s' := by
  refine ⟨(loopHead singleCore [shortJob 1] 0).get (by decide),
    (tick singleCore ((loopHead singleCore [shortJob 1] 0).get (by decide))).get (by decide),
    (Option.some_get _).symm, (Option.some_get _).symm, by decide, ?_⟩
  exact fun hf => absurd hf.workload (by decide)

theorem stops_finished_iff_example :
    ∃ s s', loopHead interrupted twoJobs 5 = some s ∧ tick interrupted s = some s' ∧ s'.made = 2 ∧
      allDone s' = true ∧ AllFinished s' ∧ ((allDone s' = true → AllFinished s') ↔ ¬ Gap interrupted s) := by
  have heval : ((loopHead interrupted twoJobs 5).any fun s => (tick interrupted s).any fun s' =>
      decide (s.made = 2 ∧ (s.thread 0).state ≠ .new ∧ (s.thread 1).state ≠ .new ∧ s'.made = 2 ∧
        allDone s' = true)) = true := by decide +kernel
  obtain ⟨s, hs, htick⟩ := (Option.any_eq_true _ _).mp heval
  obtain ⟨s', ht, hout⟩ := (Option.any_eq_true _ _).mp htick
  obtain ⟨hmade, hold, hold', hmade', hdone⟩ := of_decide_eq_true hout
  have hno : ¬ Gap interrupted s := by
    intro hgap
    obtain ⟨p, hp, hnew, _⟩ := hgap.later
    have hcases : p = 0 ∨ p = 1 := by omega
    cases hcases with
    | inl h0 => exact hold (h0 ▸ hnew)
    | inr h1 => exact hold' (h1 ▸ hnew)
  have hiff := stops_finished_iff hs ht
  exact ⟨s, s', hs, ht, hmade', hdone, hiff.mpr hno hdone, hiff⟩

end CseOs.TickSim
