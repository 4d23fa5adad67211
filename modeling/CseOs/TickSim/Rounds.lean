import CseOs.TickSim.Accounts

/-!
# Rounds of the main loop

Each call of a round keeps the accounts, and a round as a whole does one of few things to each
thread.
-/

namespace CseOs.TickSim

open Framework Sim

variable {cfg : Config} {jobs : List Job} {s s' : Sim} {l : QName → List Ptr}
  {place place' : Ptr → Place} {p : Ptr} {T : Int}

/-- The threads of the queue `src` that are due become ready. -/
structure Woken (src : QName) (due : Thread → Prop) (s s' : Sim) (place place' : Ptr → Place) :
    Prop where
  frame : Requeued s s'
  woken : ∀ p < s.made, place p = .queue src → due (s.thread p) →
    place' p = .queue .ready ∧ s'.thread p = madeReady (s.thread p)
  other : ∀ p < s.made, ¬ (place p = .queue src ∧ due (s.thread p)) →
    place' p = place p ∧ s'.thread p = s.thread p

private theorem Woken.of_sift {src : QName} {test : Thread → Bool} {due : Thread → Prop}
    (hdue : ∀ th, test th = true ↔ due th) (hframe : Requeued s s')
    (hplace : ∀ p, place' p = if place p = .queue src ∧ test (s.thread p) then .queue .ready
      else place p)
    (hthread : ∀ p < s.made, s'.thread p = if place p = .queue src ∧ test (s.thread p) then
      madeReady (s.thread p) else s.thread p) : Woken src due s s' place place' := by
  constructor
  · exact hframe
  · intro p hp hsrc ht
    have hc : place p = .queue src ∧ test (s.thread p) = true := ⟨hsrc, (hdue _).mpr ht⟩
    rw [hplace, hthread p hp, if_pos hc, if_pos hc]
    exact ⟨rfl, rfl⟩
  · intro p hp hnot
    have hc : ¬ (place p = .queue src ∧ test (s.thread p) = true) :=
      fun hc => hnot ⟨hc.1, (hdue _).mp hc.2⟩
    rw [hplace, hthread p hp, if_neg hc, if_neg hc]
    exact ⟨rfl, rfl⟩

private theorem Woken.remaining {src : QName} {due : Thread → Prop} (h : Woken src due s s' place place')
    (hp : p < s.made) : (s'.thread p).remaining = (s.thread p).remaining := by
  by_cases hc : place p = .queue src ∧ due (s.thread p)
  · rw [(h.woken p hp hc.1 hc.2).2]
    rfl
  · rw [(h.other p hp hc).2]

private theorem Requeued.clock (h : Requeued s s') : s'.simTime = s.simTime ∧
    s'.traceLen = s.traceLen ∧ s'.runTrace = s.runTrace := by
  rw [h]
  exact ⟨rfl, rfl, rfl⟩

theorem Requeued.ioLog (h : Requeued s s') : s'.ioLog = s.ioLog := by
  rw [h]

theorem admit_call (h : Placed s l place) (ha : Accounted jobs (.during T 0) s place) :
    ∃ s' l' place', workloadAdmitTick s.simTime s = some s' ∧ Placed s' l' place' ∧
      Accounted jobs (.during T 1) s' place' ∧
      Woken .workload (fun th => th.arrivalTime = s.simTime) s s' place place' ∧
      ∃ new, l' .ready = l .ready ++ new := by
  have hT : (s.simTime : Int) = T := ha.time
  obtain ⟨s', l', hrun, hreq, h', hnew, hth⟩ :=
    sift_spec (fun th => th.arrivalTime == (s.simTime : Int)) .workload nofun nofun h ha.settled
  have hwoken : Woken .workload (fun th => th.arrivalTime = s.simTime) s s' place _ :=
    Woken.of_sift (fun th => beq_iff_eq) hreq (fun p => rfl) hth
  refine ⟨s', l', _, hrun, h', ?_, hwoken, hnew⟩
  apply ha.next hreq.made hreq.clock
  · rfl
  · intro p hp j hj
    have := hj.arrive rfl
    rw [hreq.ioLog, hth p hp]
    simp only [beq_iff_eq, hT]
    exact this
  · intro p hp
    exact hwoken.remaining hp

theorem resolve_call (h : Placed s l place) (ha : Accounted jobs (.during T 1) s place) :
    ∃ s' l' place', waitingResolve s.simTime s = some s' ∧ Placed s' l' place' ∧
      Accounted jobs (.during T 2) s' place' ∧
      Woken .waiting (fun th => th.unblockedAt ≤ s.simTime) s s' place place' ∧
      ∃ new, l' .ready = l .ready ++ new := by
  have hT : (s.simTime : Int) = T := ha.time
  obtain ⟨s', l', hrun, hreq, h', hnew, hth⟩ :=
    sift_spec (fun th => th.unblockedAt ≤ (s.simTime : Int)) .waiting nofun nofun h ha.settled
  have hwoken : Woken .waiting (fun th => th.unblockedAt ≤ s.simTime) s s' place _ :=
    Woken.of_sift (fun th => decide_eq_true_iff) hreq (fun p => rfl) hth
  refine ⟨s', l', _, hrun, h', ?_, hwoken, hnew⟩
  apply ha.next hreq.made hreq.clock
  · rfl
  · intro p hp j hj
    have := hj.resolve rfl
    rw [hreq.ioLog, hth p hp]
    simp only [decide_eq_true_eq, hT]
    exact this
  · intro p hp
    exact hwoken.remaining hp

theorem interrupts_call (cfg : Config) (h : Placed s l place)
    (ha : Accounted jobs (.during T 2) s place) :
    ∃ s' l' io, randomInterrupts cfg s = some s' ∧
      Placed s' l' (fun p => if (io p).isSome then .queue .waiting else place p) ∧
      Accounted jobs (.during T 3) s' (fun p => if (io p).isSome then .queue .waiting else place p) ∧
      Interrupted s s' place io ∧ ((∀ p, io p = none) ↔ Undisturbed cfg s) ∧
      l' .ready = l .ready := by
  have hT : (s.simTime : Int) = T := ha.time
  obtain ⟨s', l', io, hrun, h', hsame, hint, hnone⟩ := randomInterrupts_spec cfg h ha.tid_inj
  refine ⟨s', l', io, hrun, h', ?_, hint, hnone, hsame⟩
  have hmade : s'.made = s.made := by rw [hint.frame]
  apply ha.next hmade
  · rw [hint.frame]
    exact ⟨rfl, rfl, rfl⟩
  · rfl
  · intro p hp j hj
    rw [hint.thread p hp, hT]
    exact hj.interrupt (fun d hd => (hint.hit p d hd).2) (hint.log p hp) rfl rfl
  · intro p hp
    rw [hint.thread p hp]
    cases io p <;> rfl

/-- Moves between the ready queue and the cores keep the accounts while no time passes. -/
theorem Accounted.shift (ha : Accounted jobs (.during T 3) s place)
    (hshift : Shift s s' place place') : Accounted jobs (.during T 3) s' place' := by
  have hlog : s'.ioLog = s.ioLog := by rw [hshift.frame]
  apply ha.next hshift.made
  · rw [hshift.frame]
    exact ⟨rfl, rfl, rfl⟩
  · rfl
  · intro p hp j hj
    rw [hlog]
    exact hj.shift (hshift.kept p) (hshift.active p) (hshift.other p)
      (hshift.state p (ha.state_eq hp)) rfl rfl
  · exact fun p _ => (hshift.kept p).remaining

theorem dispatch_call (cfg : Config) (h : Placed s l place)
    (ha : Accounted jobs (.during T 3) s place) :
    ∃ s' l' place', dispatch cfg s = some s' ∧ Placed s' l' place' ∧
      Accounted jobs (.during T 4) s' place' ∧ Shift s s' place place' ∧ WorkConserving s' l' ∧
      (cfg.algo = .srtcf → KeysSorted Thread.remaining s' place') := by
  obtain ⟨s', l', place', hrun, h', hshift, hwork, hsorted⟩ :=
    dispatch_spec cfg h ha.fit_remaining ha.fit_priority
  exact ⟨s', l', place', hrun, h', ha.shift hshift, hshift, hwork, hsorted⟩

def waitOne (th : Thread) : Thread := { th with waitTime := th.waitTime + 1 }

theorem bump_call (h : Placed s l place) (ha : Accounted jobs (.during T 4) s place) :
    ∃ s', bumpQueueWait .ready s = some s' ∧ Placed s' l place ∧
      Accounted jobs (.during T 5) s' place ∧ s' = { s with thread := s'.thread } ∧
      ∀ p < s.made, s'.thread p =
        if place p = .queue .ready then waitOne (s.thread p) else s.thread p := by
  obtain ⟨s', hrun, h', hframe, hth⟩ := h.forQueue waitOne .ready
  refine ⟨s', hrun, h', ?_, hframe, hth⟩
  have hlog : s'.ioLog = s.ioLog := by rw [hframe]
  have hmade : s'.made = s.made := by rw [hframe]
  apply ha.next hmade
  · rw [hframe]
    exact ⟨rfl, rfl, rfl⟩
  · rfl
  · intro p hp j hj
    rw [hlog, hth p hp]
    exact hj.bump
  · intro p hp
    rw [hth p hp]
    split <;> rfl

private theorem traceRow_count_eq (h : Placed s l place) (htid : ∀ p < s.made, (s.thread p).tid = (p : Int) + 1)
    (p : Ptr) : (traceRow s).count ((p : Int) + 1) = s.core.reduceOption.count p := by
  have hcores : ∀ cores : List (Option Ptr), (∀ r, some r ∈ cores → r < s.made) →
      (cores.map fun c => c.elim (-1) fun p => (s.thread p).tid).count ((p : Int) + 1) =
        cores.reduceOption.count p := by
    intro cores
    induction cores with
    | nil => exact fun _ => rfl
    | cons c cores ih =>
      intro hlt
      have hrest := ih fun r hr => hlt r (List.mem_cons_of_mem c hr)
      cases c with
      | none =>
        rw [List.reduceOption_cons_of_none, ← hrest, List.map_cons, List.count_cons_of_ne]
        show (-1 : Int) ≠ p + 1
        omega
      | some r =>
        rw [List.reduceOption_cons_of_some, List.map_cons, List.count_cons, List.count_cons, hrest,
          Option.elim_some, htid r (hlt r List.mem_cons_self)]
        congr 1
        apply if_congr _ rfl rfl
        simp only [beq_iff_eq]
        show (r : Int) + 1 = (p : Int) + 1 ↔ @Eq Nat r p
        omega
  apply hcores
  intro r hr
  obtain ⟨i, hi⟩ := List.mem_iff_getElem?.mp hr
  exact h.core_lt hi

private theorem traceRow_count (h : Placed s l place) (htid : ∀ p < s.made, (s.thread p).tid = (p : Int) + 1)
    (hp : p < s.made) :
    (traceRow s).count (s.thread p).tid = if (place p).OnCore then 1 else 0 := by
  rw [htid p hp, traceRow_count_eq h htid]
  by_cases hcore : (place p).OnCore
  · rw [if_pos hcore, List.count_eq_one_of_mem h.running_nodup ((h.mem_running hp).mpr hcore)]
  · rw [if_neg hcore, List.count_eq_zero_of_not_mem fun hm => hcore ((h.mem_running hp).mp hm)]

private theorem traceRow_count_le (h : Placed s l place)
    (htid : ∀ p < s.made, (s.thread p).tid = (p : Int) + 1) {tid : Int} (hne : tid ≠ -1) :
    (traceRow s).count tid ≤ 1 := by
  by_cases hm : tid ∈ traceRow s
  · obtain ⟨c, hc, rfl⟩ := List.mem_map.mp hm
    cases c with
    | none => exact absurd rfl hne
    | some p =>
      obtain ⟨i, hi⟩ := List.mem_iff_getElem?.mp hc
      have hp := h.core_lt hi
      rw [Option.elim_some, traceRow_count h htid hp]
      split
      · exact Nat.le_refl 1
      · exact Nat.zero_le 1
  · rw [List.count_eq_zero_of_not_mem hm]
    exact Nat.zero_le 1

theorem step_call (h : Placed s l place) (ha : Accounted jobs (.during T 5) s place) :
    Placed (cpuStep s) l place ∧ Accounted jobs (.during T 6) (cpuStep s) place ∧
      ∀ p < s.made, (cpuStep s).thread p =
        if (place p).OnCore then runTick (s.thread p) else s.thread p := by
  obtain ⟨h', hth, hframe⟩ := cpuStep_spec h
  have htid : ∀ p < s.made, ((cpuStep s).thread p).tid = (s.thread p).tid := by
    intro p hp
    rw [hth p hp]
    split <;> rfl
  have hlog : (cpuStep s).ioLog = s.ioLog := by rw [hframe]
  have hmade : (cpuStep s).made = s.made := by rw [hframe]
  have htime : (cpuStep s).simTime = s.simTime + 1 := by rw [hframe]
  have hlen : (cpuStep s).traceLen = s.traceLen := by rw [hframe]
  have htrace : (cpuStep s).runTrace =
      if s.simTime < s.traceLen then s.runTrace ++ [traceRow s] else s.runTrace := by rw [hframe]
  refine ⟨h', ?_, hth⟩
  constructor
  · exact hmade.trans ha.made
  · have : (s.simTime : Int) = T := ha.time
    rw [htime]
    show ((s.simTime + 1 : Nat) : Int) = T + 1
    omega
  · intro p j hj
    rw [hlog, hth p (ha.lt_made hj)]
    exact (ha.charged p j hj).step rfl
  · intro hle p hp
    rw [hmade] at hp
    rw [htime, hlen] at hle
    obtain ⟨j, _, hj⟩ := ha.job hp
    have hold := ha.traced (by omega) p hp
    rw [htrace, if_pos (by omega), htid p hp, List.flatten_append, List.count_append,
      List.flatten_singleton, traceRow_count h (fun p => ha.tid_eq) hp, hth p hp]
    by_cases hcore : (place p).OnCore
    · obtain ⟨i, hi⟩ := onCore_iff.mp hcore
      have hacc := hj.account
      rw [hi] at hacc
      have hpos : 1 ≤ (s.thread p).remaining := hacc.1
      have hrem : (runTick (s.thread p)).remaining = (s.thread p).remaining - 1 :=
        if_pos (by omega)
      rw [if_pos hcore, if_pos hcore, hrem]
      show _ = (s.thread p).burstTime - ((s.thread p).remaining - 1)
      omega
    · rw [if_neg hcore, if_neg hcore]
      exact hold
  · intro row hrow tid htid
    rw [htrace] at hrow
    split at hrow
    · rcases List.mem_append.mp hrow with hrow | hrow
      · exact ha.rows row hrow tid htid
      · rw [List.mem_singleton.mp hrow]
        exact traceRow_count_le h (fun p => ha.tid_eq) htid
    · exact ha.rows row hrow tid htid

theorem decay_call (h : Placed s l place) (ha : Accounted jobs (.during T 6) s place) :
    ∃ s', decayPriority s = some s' ∧ Placed s' l place ∧
      Accounted jobs (.during T 7) s' place ∧ s' = { s with thread := s'.thread } ∧
      ∀ p < s.made, s'.thread p = if place p = .queue .ready ∨ place p = .queue .waiting then
        decay (s.thread p) else s.thread p := by
  obtain ⟨s', hrun, h', hframe, hth⟩ := decayPriority_spec h
  refine ⟨s', hrun, h', ?_, hframe, hth⟩
  have hlog : s'.ioLog = s.ioLog := by rw [hframe]
  have hmade : s'.made = s.made := by rw [hframe]
  apply ha.next hmade
  · rw [hframe]
    exact ⟨rfl, rfl, rfl⟩
  · rfl
  · intro p hp j hj
    rw [hlog, hth p hp]
    exact hj.decay
  · intro p hp
    rw [hth p hp, decay_eq]
    split <;> rfl

theorem collect_call (h : Placed s l place) (ha : Accounted jobs (.during T 7) s place) :
    ∃ s' l' place', collectCompletions (List.range s.core.length) s = some s' ∧
      Placed s' l' place' ∧ Accounted jobs (.during (T + 1) 0) s' place' ∧
      s'.core.length = s.core.length ∧ (s'.made = s.made ∧ s'.simTime = s.simTime ∧
        s'.rands = s.rands ∧ s'.ioLog = s.ioLog) ∧
      (∀ p < s.made, (place p).OnCore → (s.thread p).remaining = 0 →
        place' p = .queue .finished ∧ s'.thread p = finishAt s.simTime (s.thread p)) ∧
      (∀ p < s.made, ¬ ((place p).OnCore ∧ (s.thread p).remaining = 0) →
        place' p = place p ∧ s'.thread p = s.thread p) ∧
      l' .ready = l .ready := by
  have hT : (s.simTime : Int) = T + 1 := ha.time
  obtain ⟨s', l', hrun, h', hsame, hth, hframe, hlen⟩ :=
    collectCompletions_spec (List.range s.core.length) h
  have hmem : ∀ p < s.made, ∀ i, place p = .core i → i ∈ List.range s.core.length := by
    intro p hp i hi
    have := (h.core i p).mpr ⟨hp, hi⟩
    exact List.mem_range.mpr (List.getElem?_eq_some_iff.mp this).1
  have hdone : ∀ p < s.made, (DoneOn (List.range s.core.length) (s.thread p) (place p) ↔
      (place p).OnCore ∧ (s.thread p).remaining = 0) := by
    intro p hp
    cases hplace : place p with
    | core i => exact and_congr_left fun _ => iff_of_true (hmem p hp i hplace) trivial
    | queue q => exact iff_of_false id fun hc => hc.1
    | hand => exact iff_of_false id fun hc => hc.1
  refine ⟨s', l', _, hrun, h', ?_, hlen, ?_, ?_, ?_, hsame⟩
  · apply ha.next
    · rw [hframe]
    · rw [hframe]
      exact ⟨rfl, rfl, rfl⟩
    · rfl
    · intro p hp j hj
      have hlog : s'.ioLog = s.ioLog := by rw [hframe]
      rw [hlog, hth p hp, hT]
      exact hj.collect (hmem p hp) rfl
    · intro p hp
      rw [hth p hp]
      split <;> rfl
  · rw [hframe]
    exact ⟨rfl, rfl, rfl, rfl⟩
  · intro p hp hcore hrem
    have hd := (hdone p hp).mpr ⟨hcore, hrem⟩
    rw [hth p hp, if_pos hd, if_pos hd]
    exact ⟨rfl, rfl⟩
  · intro p hp hnot
    have hd := fun hd => hnot ((hdone p hp).mp hd)
    rw [hth p hp, if_neg hd, if_neg hd]
    exact ⟨rfl, rfl⟩

/-- A thread that can run in the round that starts in `s`. -/
def live (s : Sim) (p : Ptr) : Bool :=
  match (s.thread p).state with
  | .new => (s.thread p).arrivalTime = s.simTime
  | .ready => true
  | .running => true
  | .waiting => (s.thread p).unblockedAt ≤ s.simTime
  | .finished => false

/-- The state of a thread after a round in which the threads with `io` were blocked and those
in `cores` ran. -/
def nextState (s : Sim) (io : Ptr → Option Nat) (cores : List (Option Ptr)) (p : Ptr) :
    ThreadState :=
  if live s p then
    if (io p).isSome then .waiting
    else if some p ∈ cores then (if (s.thread p).remaining = 1 then .finished else .running)
    else .ready
  else (s.thread p).state

/-- What a round does. -/
structure Round (cfg : Config) (s s' : Sim) (io : Ptr → Option Nat) (cores : List (Option Ptr)) :
    Prop where
  made : s'.made = s.made
  time : s'.simTime = s.simTime + 1
  length : cores.length = s.core.length
  ends : s'.core.length = s.core.length
  undisturbed : (∀ p, io p = none) ↔ Undisturbed cfg s
  blocked : ∀ p, (io p).isSome → p < s.made ∧ live s p
  running : ∀ p, some p ∈ cores → p < s.made ∧ live s p ∧ io p = none
  nodup : cores.reduceOption.Nodup
  busy : none ∈ cores → ∀ p < s.made, live s p → io p = none → some p ∈ cores
  shortest : cfg.algo = .srtcf → ∀ r p, some r ∈ cores → p < s.made → live s p → io p = none →
    some p ∉ cores → (s.thread r).remaining ≤ (s.thread p).remaining
  state : ∀ p < s.made, (s'.thread p).state = nextState s io cores p
  remaining : ∀ p < s.made, (s'.thread p).remaining =
    if some p ∈ cores then (s.thread p).remaining - 1 else (s.thread p).remaining
  waitTime : ∀ p < s.made, (s'.thread p).waitTime =
    if live s p ∧ io p = none ∧ some p ∉ cores then (s.thread p).waitTime + 1
    else (s.thread p).waitTime
  ioTime : ∀ p < s.made, ioTime s'.ioLog (s.thread p).tid =
    ioTime s.ioLog (s.thread p).tid + (io p).getD 0

theorem Woken.same {src : QName} {due : Thread → Prop} (h : Woken src due s s' place place')
    (hp : p < s.made) (hne : place p ≠ .queue src) : place' p = place p ∧ s'.thread p = s.thread p :=
  h.other p hp fun hc => hne hc.1

theorem live_iff {s₁ s₂ : Sim} {place₁ place₂ : Ptr → Place} (ha : Accounted jobs (.during T 0) s place)
    (harrive : Woken .workload (fun th => th.arrivalTime = s.simTime) s s₁ place place₁)
    (hresolve : Woken .waiting (fun th => th.unblockedAt ≤ s₁.simTime) s₁ s₂ place₁ place₂)
    (hp : p < s.made) :
    (live s p = true ↔ (place₂ p).Active) ∧ (¬ live s p = true → place₂ p = place p) := by
  have hp₁ : p < s₁.made := by rwa [harrive.frame.made]
  have hstate := ha.state_eq hp
  rw [harrive.frame.simTime] at hresolve
  cases hplace : place p with
  | core i =>
    obtain ⟨h₁, _⟩ := harrive.same hp (by rw [hplace]; nofun)
    obtain ⟨h₂, _⟩ := hresolve.same hp₁ (by rw [h₁, hplace]; nofun)
    rw [hplace] at hstate
    have hlive : live s p = true := by rw [live, hstate]; rfl
    rw [h₂, h₁, hplace]
    exact ⟨iff_of_true hlive trivial, fun hn => absurd hlive hn⟩
  | hand => exact absurd hplace (ha.settled p hp).1
  | queue q =>
    rw [hplace] at hstate
    cases q with
    | keep => exact absurd hplace (ha.settled p hp).2
    | ready =>
      obtain ⟨h₁, _⟩ := harrive.same hp (by rw [hplace]; nofun)
      obtain ⟨h₂, _⟩ := hresolve.same hp₁ (by rw [h₁, hplace]; nofun)
      have hlive : live s p = true := by rw [live, hstate]; rfl
      rw [h₂, h₁, hplace]
      exact ⟨iff_of_true hlive rfl, fun hn => absurd hlive hn⟩
    | finished =>
      obtain ⟨h₁, _⟩ := harrive.same hp (by rw [hplace]; nofun)
      obtain ⟨h₂, _⟩ := hresolve.same hp₁ (by rw [h₁, hplace]; nofun)
      have hdead : ¬ live s p = true := by rw [live, hstate]; exact Bool.false_ne_true
      rw [h₂, h₁, hplace]
      exact ⟨iff_of_false hdead nofun, fun _ => rfl⟩
    | workload =>
      have hlive : live s p = true ↔ (s.thread p).arrivalTime = s.simTime := by
        rw [live, hstate]
        exact decide_eq_true_iff
      by_cases hdue : (s.thread p).arrivalTime = s.simTime
      · obtain ⟨h₁, _⟩ := harrive.woken p hp hplace hdue
        obtain ⟨h₂, _⟩ := hresolve.same hp₁ (by rw [h₁]; nofun)
        rw [h₂, h₁, hlive]
        exact ⟨iff_of_true hdue rfl, fun hn => absurd hdue hn⟩
      · obtain ⟨h₁, _⟩ := harrive.other p hp fun hc => hdue hc.2
        obtain ⟨h₂, _⟩ := hresolve.same hp₁ (by rw [h₁, hplace]; nofun)
        rw [h₂, h₁, hplace, hlive]
        exact ⟨iff_of_false hdue nofun, fun _ => rfl⟩
    | waiting =>
      obtain ⟨h₁, hth⟩ := harrive.same hp (by rw [hplace]; nofun)
      have hlive : live s p = true ↔ (s.thread p).unblockedAt ≤ s.simTime := by
        rw [live, hstate]
        exact decide_eq_true_iff
      by_cases hdue : (s.thread p).unblockedAt ≤ s.simTime
      · obtain ⟨h₂, _⟩ := hresolve.woken p hp₁ (by rw [h₁, hplace]) (by rwa [hth])
        rw [h₂, hlive]
        exact ⟨iff_of_true hdue rfl, fun hn => absurd hdue hn⟩
      · obtain ⟨h₂, _⟩ := hresolve.other p hp₁ fun hc => hdue (hth ▸ hc.2)
        rw [h₂, h₁, hplace, hlive]
        exact ⟨iff_of_false hdue nofun, fun _ => rfl⟩

private theorem Woken.waitTime {src : QName} {due : Thread → Prop} (h : Woken src due s s' place place')
    (hp : p < s.made) : (s'.thread p).waitTime = (s.thread p).waitTime := by
  by_cases hc : place p = .queue src ∧ due (s.thread p)
  · rw [(h.woken p hp hc.1 hc.2).2]
    rfl
  · rw [(h.other p hp hc).2]

/-- The calls up to the dispatcher. -/
structure Arranged (cfg : Config) (s s' : Sim) (place place' : Ptr → Place) (io : Ptr → Option Nat) :
    Prop where
  made : s'.made = s.made
  time : s'.simTime = s.simTime
  cores : s'.core.length = s.core.length
  undisturbed : (∀ p, io p = none) ↔ Undisturbed cfg s
  blocked : ∀ p, (io p).isSome → p < s.made ∧ live s p ∧ place' p = .queue .waiting
  active : ∀ p < s.made, ((place' p).Active ↔ live s p ∧ io p = none)
  other : ∀ p < s.made, ¬ live s p → place' p = place p
  remaining : ∀ p < s.made, (s'.thread p).remaining = (s.thread p).remaining
  waitTime : ∀ p < s.made, (s'.thread p).waitTime = (s.thread p).waitTime
  ioTime : ∀ p < s.made, ioTime s'.ioLog (s.thread p).tid =
    ioTime s.ioLog (s.thread p).tid + (io p).getD 0

private theorem OnCore.active {v : Place} (h : v.OnCore) : v.Active := by
  obtain ⟨i, rfl⟩ := onCore_iff.mp h
  trivial

private theorem arrange_calls (cfg : Config) (h : Placed s l place)
    (ha : Accounted jobs (.during T 0) s place) :
    ∃ s' l' place' io, runCalls ((phases cfg).take 4) s = some s' ∧ Placed s' l' place' ∧
      Accounted jobs (.during T 4) s' place' ∧ Arranged cfg s s' place place' io ∧
      WorkConserving s' l' ∧ (cfg.algo = .srtcf → KeysSorted Thread.remaining s' place') := by
  obtain ⟨s₁, l₁, place₁, hrun₁, h₁, ha₁, harrive, _⟩ := admit_call h ha
  obtain ⟨s₂, l₂, place₂, hrun₂, h₂, ha₂, hresolve, _⟩ := resolve_call h₁ ha₁
  obtain ⟨s₃, l₃, io, hrun₃, h₃, ha₃, hint, hnone, _⟩ := interrupts_call cfg h₂ ha₂
  obtain ⟨s₄, l₄, place₄, hrun₄, h₄, ha₄, hshift, hwork, hsorted⟩ := dispatch_call cfg h₃ ha₃
  have hreq := harrive.frame.trans hresolve.frame
  have hmade₃ : s₃.made = s₂.made := by rw [hint.frame]
  have hframe : s₂.made = s.made ∧ s₂.simTime = s.simTime ∧ s₂.core = s.core ∧
      s₂.rands = s.rands := by
    rw [hreq]
    exact ⟨rfl, rfl, rfl, rfl⟩
  obtain ⟨hmade₂, htime₂, hcore₂, hrands₂⟩ := hframe
  have hlive : ∀ p < s.made, _ := fun p hp => live_iff ha harrive hresolve hp
  refine ⟨s₄, l₄, place₄, io, ?_, h₄, ha₄, ?_, hwork, hsorted⟩
  · simp only [phases, List.take_succ_cons, List.take_zero, runCalls, hrun₁, hrun₂, hrun₃, hrun₄,
      Option.bind_some]
  · constructor
    · rw [hshift.made, hmade₃, hmade₂]
    · rw [hshift.frame, hint.frame]
      exact htime₂
    · rw [hshift.cores, hint.cores, hcore₂]
    · rw [hnone, Undisturbed, Undisturbed]
      have hbusy : busyCore s₂ = busyCore s := by
        funext c
        rw [busyCore, busyCore, hcore₂]
      rw [hbusy, hcore₂, hrands₂]
    · intro p hio
      obtain ⟨d, hd⟩ := Option.isSome_iff_exists.mp hio
      have hp : p < s.made := hmade₂ ▸ (hint.hit p d hd).1
      refine ⟨hp, (hlive p hp).1.mpr (OnCore.active (hint.hit p d hd).2.2), ?_⟩
      rw [hshift.other p (by rw [if_pos hio]; intro he; cases he), if_pos hio]
    · intro p hp
      rw [hshift.active, (hlive p hp).1]
      cases io p with
      | none => exact ⟨fun hact => ⟨hact, rfl⟩, fun hact => hact.1⟩
      | some d => exact iff_of_false (fun he => by cases he) (fun he => by cases he.2)
    · intro p hp hdead
      have hplace := (hlive p hp).2 hdead
      have hinactive := fun hact => hdead ((hlive p hp).1.mpr hact)
      have hio : io p = none := by
        cases hio : io p with
        | none => rfl
        | some d => exact absurd (OnCore.active (hint.hit p d hio).2.2) hinactive
      rw [hshift.other p, hio]
      · exact hplace
      · rw [hio]
        exact hinactive
    · intro p hp
      have hp₁ : p < s₁.made := by rwa [harrive.frame.made]
      have hio : (s₃.thread p).remaining = (s₂.thread p).remaining := by
        rw [hint.thread p (hmade₂ ▸ hp)]
        cases io p <;> rfl
      rw [(hshift.kept p).remaining, hio, hresolve.remaining hp₁, harrive.remaining hp]
    · intro p hp
      have hp₁ : p < s₁.made := by rwa [harrive.frame.made]
      have hio : (s₃.thread p).waitTime = (s₂.thread p).waitTime := by
        rw [hint.thread p (hmade₂ ▸ hp)]
        cases io p <;> rfl
      rw [(hshift.kept p).waitTime, hio, hresolve.waitTime hp₁, harrive.waitTime hp]
    · intro p hp
      have hlog := hint.log p (hmade₂ ▸ hp)
      have hlog₄ : s₄.ioLog = s₃.ioLog := by rw [hshift.frame]
      rwa [ha₂.tid_eq (hmade₂ ▸ hp), ← ha.tid_eq hp, hreq.ioLog, ← hlog₄] at hlog

/-- The calls after the dispatcher. -/
structure Served (s s' : Sim) (place place' : Ptr → Place) : Prop where
  made : s'.made = s.made
  time : s'.simTime = s.simTime + 1
  cores : s'.core.length = s.core.length
  ioLog : s'.ioLog = s.ioLog
  ran : ∀ p < s.made, (place p).OnCore →
    (s'.thread p).remaining = (s.thread p).remaining - 1 ∧
      (s'.thread p).waitTime = (s.thread p).waitTime ∧
      place' p = if (s.thread p).remaining = 1 then .queue .finished else place p
  idle : ∀ p < s.made, ¬ (place p).OnCore →
    (s'.thread p).remaining = (s.thread p).remaining ∧
      (s'.thread p).waitTime =
        (if place p = .queue .ready then (s.thread p).waitTime + 1 else (s.thread p).waitTime) ∧
      place' p = place p

private theorem serve_calls (cfg : Config) (h : Placed s l place)
    (ha : Accounted jobs (.during T 4) s place) :
    ∃ s' l' place', runCalls ((phases cfg).drop 4) s = some s' ∧ Placed s' l' place' ∧
      Accounted jobs (.during (T + 1) 0) s' place' ∧ Served s s' place place' := by
  obtain ⟨s₁, hrun₁, h₁, ha₁, hframe₁, hth₁⟩ := bump_call h ha
  obtain ⟨h₂, ha₂, hth₂⟩ := step_call h₁ ha₁
  obtain ⟨_, _, hframe₂⟩ := cpuStep_spec h₁
  generalize hs₂ : cpuStep s₁ = s₂ at h₂ ha₂ hth₂ hframe₂
  obtain ⟨s₃, hrun₃, h₃, ha₃, hframe₃, hth₃⟩ := decay_call h₂ ha₂
  obtain ⟨s₄, l₄, place₄, hrun₄, h₄, ha₄, hcores, ⟨hmade, htime, _, hlog⟩, hdone, hstay, _⟩ :=
    collect_call h₃ ha₃
  have hmade₁ : s₁.made = s.made := by rw [hframe₁]
  have hmade₂ : s₂.made = s.made := by rw [hframe₂, hframe₁]
  have hmade₃ : s₃.made = s.made := by rw [hframe₃, hmade₂]
  refine ⟨s₄, l₄, place₄, ?_, h₄, ha₄, ?_⟩
  · simp only [phases, List.drop_succ_cons, List.drop_zero, runCalls, hrun₁, hs₂, hrun₃, hrun₄,
      Option.bind_some]
  · constructor
    · rw [hmade, hmade₃]
    · rw [htime, hframe₃, hframe₂, hframe₁]
    · rw [hcores, hframe₃, hframe₂, hframe₁]
    · rw [hlog, hframe₃, hframe₂, hframe₁]
    · intro p hp hcore
      have hready : place p ≠ .queue .ready := by
        intro he
        rw [he] at hcore
        exact hcore
      have hwaiting : place p ≠ .queue .waiting := by
        intro he
        rw [he] at hcore
        exact hcore
      have hth : s₃.thread p = runTick (s.thread p) := by
        rw [hth₃ p (hmade₂ ▸ hp), if_neg (by simp [hready, hwaiting]), hth₂ p (hmade₁ ▸ hp),
          if_pos hcore, hth₁ p hp, if_neg hready]
      obtain ⟨j, _, hj⟩ := ha.job hp
      obtain ⟨i, hi⟩ := onCore_iff.mp hcore
      have hacc := hj.account
      rw [hi] at hacc
      have hpos : 1 ≤ (s.thread p).remaining := hacc.1
      have hrem : (s₃.thread p).remaining = (s.thread p).remaining - 1 := by
        rw [hth]
        exact if_pos (by omega)
      by_cases hlast : (s.thread p).remaining = 1
      · obtain ⟨hplace, hfin⟩ := hdone p (hmade₃ ▸ hp) hcore (by omega)
        rw [if_pos hlast, hplace, hfin]
        refine ⟨hrem, ?_, rfl⟩
        show (s₃.thread p).waitTime = _
        rw [hth]
        rfl
      · obtain ⟨hplace, hsame⟩ := hstay p (hmade₃ ▸ hp) (by omega)
        rw [if_neg hlast, hplace, hsame]
        refine ⟨hrem, ?_, rfl⟩
        rw [hth]
        rfl
    · intro p hp hcore
      obtain ⟨hplace, hsame⟩ := hstay p (hmade₃ ▸ hp) fun hc => hcore hc.1
      have hth : s₃.thread p =
          if place p = .queue .ready ∨ place p = .queue .waiting then decay (s₁.thread p)
          else s₁.thread p := by
        rw [hth₃ p (hmade₂ ▸ hp), hth₂ p (hmade₁ ▸ hp), if_neg hcore]
      have hkept : (s₃.thread p).remaining = (s₁.thread p).remaining ∧
          (s₃.thread p).waitTime = (s₁.thread p).waitTime := by
        rw [hth]
        split
        · rw [decay_eq]
          exact ⟨rfl, rfl⟩
        · exact ⟨rfl, rfl⟩
      rw [hplace, hsame, hkept.1, hkept.2, hth₁ p hp]
      by_cases hready : place p = .queue .ready
      · rw [if_pos hready, if_pos hready]
        exact ⟨rfl, rfl, rfl⟩
      · rw [if_neg hready, if_neg hready]
        exact ⟨rfl, rfl, rfl⟩

theorem runCalls_append (fs gs : List (Sim → Option Sim)) (s : Sim) :
    runCalls (fs ++ gs) s = (runCalls fs s).bind (runCalls gs) := by
  induction fs generalizing s with
  | nil => rfl
  | cons f fs ih =>
    simp only [List.cons_append, runCalls]
    cases f s with
    | none => rfl
    | some s' => exact ih s'

/-- A round never fails, keeps the accounts, and does what `Round` says. -/
theorem tick_spec (cfg : Config) (h : Placed s l place) (ha : Accounted jobs (.during T 0) s place) :
    ∃ s' l' place' io cores, tick cfg s = some s' ∧ Placed s' l' place' ∧
      Accounted jobs (.during (T + 1) 0) s' place' ∧ Round cfg s s' io cores := by
  obtain ⟨s₁, l₁, place₁, io, hrun₁, h₁, ha₁, harr, hwork, hsorted⟩ := arrange_calls cfg h ha
  obtain ⟨s₂, l₂, place₂, hrun₂, h₂, ha₂, hserved⟩ := serve_calls cfg h₁ ha₁
  have hon : ∀ p, some p ∈ s₁.core ↔ p < s.made ∧ (place₁ p).OnCore := by
    intro p
    rw [List.mem_iff_getElem?, onCore_iff, ← harr.made]
    constructor
    · intro ⟨i, hi⟩
      exact ⟨h₁.core_lt hi, i, h₁.core_eq hi⟩
    · intro ⟨hp, i, hi⟩
      exact ⟨i, (h₁.core i p).mpr ⟨hp, hi⟩⟩
  have hcases : ∀ p < s.made, live s p → io p = none →
      place₁ p = .queue .ready ∨ some p ∈ s₁.core := by
    intro p hp hlive hio
    have hact := (harr.active p hp).mpr ⟨hlive, hio⟩
    cases hplace : place₁ p with
    | queue q =>
      rw [hplace] at hact
      exact .inl (congrArg Place.queue hact)
    | core i => exact .inr ((hon p).mpr ⟨hp, by rw [hplace]; trivial⟩)
    | hand =>
      rw [hplace] at hact
      exact hact.elim
  refine ⟨s₂, l₂, place₂, io, s₁.core, ?_, h₂, ha₂, ?_⟩
  · rw [tick, ← List.take_append_drop 4 (phases cfg), runCalls_append, hrun₁]
    exact hrun₂
  · constructor
    · rw [hserved.made, harr.made]
    · rw [hserved.time, harr.time]
    · exact harr.cores
    · rw [hserved.cores, harr.cores]
    · exact harr.undisturbed
    · intro p hio
      obtain ⟨hp, hlive, _⟩ := harr.blocked p hio
      exact ⟨hp, hlive⟩
    · intro p hcore
      obtain ⟨hp, hplace⟩ := (hon p).mp hcore
      obtain ⟨hlive, hio⟩ := (harr.active p hp).mp (OnCore.active hplace)
      exact ⟨hp, hlive, hio⟩
    · exact h₁.running_nodup
    · intro hidle p hp hlive hio
      apply (hcases p hp hlive hio).resolve_left
      intro hready
      have hmem := (h₁.mem .ready p).mpr ⟨harr.made.symm ▸ hp, hready⟩
      rw [hwork.resolve_right fun hbusy => hbusy hidle] at hmem
      exact List.not_mem_nil hmem
    · intro hsrtcf r p hr hp hlive hio hnot
      obtain ⟨hr', hcore⟩ := (hon r).mp hr
      obtain ⟨i, hi⟩ := List.mem_iff_getElem?.mp hr
      have hready := (hcases p hp hlive hio).resolve_right hnot
      have hle := hsorted hsrtcf i p r hi (harr.made.symm ▸ hp) hready
      rw [harr.remaining r hr', harr.remaining p hp] at hle
      obtain ⟨j, _, hj⟩ := ha₁.job (harr.made.symm ▸ hr')
      have hacc := hj.account
      rw [h₁.core_eq hi] at hacc
      have hpos : 1 ≤ (s₁.thread r).remaining := hacc.1
      rw [harr.remaining r hr'] at hpos
      omega
    · intro p hp
      have hp₁ : p < s₁.made := harr.made.symm ▸ hp
      have hp₂ : p < s₂.made := hserved.made.symm ▸ hp₁
      rw [ha₂.state_eq hp₂, nextState]
      by_cases hlive : live s p
      · rw [if_pos hlive]
        by_cases hio : (io p).isSome
        · have hplace := (harr.blocked p hio).2.2
          have hoff : ¬ (place₁ p).OnCore := by
            rw [hplace]
            exact id
          rw [if_pos hio, (hserved.idle p hp₁ hoff).2.2, hplace]
          rfl
        · rw [if_neg hio]
          rcases hcases p hp hlive (by simpa using hio) with hready | hcore
          · have hoff : ¬ (place₁ p).OnCore := by
              rw [hready]
              exact id
            rw [if_neg fun hm => hoff ((hon p).mp hm).2, (hserved.idle p hp₁ hoff).2.2, hready]
            rfl
          · have hon' := ((hon p).mp hcore).2
            rw [if_pos hcore, (hserved.ran p hp₁ hon').2.2, harr.remaining p hp]
            obtain ⟨i, hi⟩ := onCore_iff.mp hon'
            rw [hi]
            split <;> rfl
      · rw [if_neg hlive]
        have hoff : ¬ (place₁ p).OnCore :=
          fun hcore => hlive ((harr.active p hp).mp (OnCore.active hcore)).1
        rw [(hserved.idle p hp₁ hoff).2.2, harr.other p hp hlive, ha.state_eq hp]
    · intro p hp
      have hp₁ : p < s₁.made := harr.made.symm ▸ hp
      rw [← harr.remaining p hp]
      by_cases hcore : some p ∈ s₁.core
      · rw [if_pos hcore]
        exact (hserved.ran p hp₁ ((hon p).mp hcore).2).1
      · rw [if_neg hcore]
        exact (hserved.idle p hp₁ fun hc => hcore ((hon p).mpr ⟨hp, hc⟩)).1
    · intro p hp
      have hp₁ : p < s₁.made := harr.made.symm ▸ hp
      rw [← harr.waitTime p hp]
      by_cases hcore : some p ∈ s₁.core
      · rw [if_neg fun hc => hc.2.2 hcore]
        exact (hserved.ran p hp₁ ((hon p).mp hcore).2).2.1
      · rw [(hserved.idle p hp₁ fun hc => hcore ((hon p).mpr ⟨hp, hc⟩)).2.1]
        by_cases hready : place₁ p = .queue .ready
        · have hact := (harr.active p hp).mp (by rw [hready]; rfl)
          rw [if_pos hready, if_pos ⟨hact.1, hact.2, hcore⟩]
        · rw [if_neg hready, if_neg]
          intro ⟨hlive, hio, _⟩
          exact (hcases p hp hlive hio).elim hready hcore
    · intro p hp
      rw [hserved.ioLog]
      exact harr.ioTime p hp

end CseOs.TickSim
