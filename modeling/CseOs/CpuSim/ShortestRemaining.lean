import CseOs.CpuSim.Jobs

/-!
# `srtf` of `cpusim.c`

A job that asks for no time is never selected, so that it never counts as completed. With bursts in
front of the sentinel `INT_MAX` the loop runs the shortest remaining job in every unit of time.
-/

namespace CseOs.CpuSim

open Framework Finset

variable {n i j k : Nat} {jobs : Nat → Process} {arrival burst : Nat → Int} {s t : SrtfSt}

/-- The job has arrived and is not complete. -/
def Waits (s : SrtfSt) (j : Nat) : Prop := (s.jobs j).arrival ≤ s.time ∧ (s.jobs j).complete = false

/-- A unit of time goes to an unfinished job with the least remaining time, if there is one. -/
structure LeastRuns (n : Nat) (s : SrtfSt) : Prop where
  least : ∀ i, srtfShortest n s = some i → i < n ∧ Waits s i ∧
    ∀ j < n, Waits s j → (s.jobs i).remaining ≤ (s.jobs j).remaining
  idle : srtfShortest n s = none → ∀ j < n, ¬ Waits s j

/-- `srtf` returns with all jobs complete after their bursts, and has run the shortest remaining job in
every unit of time. -/
def SrtfSchedule (n : Nat) (jobs : Nat → Process) : Prop :=
  (∃ t, SrtfReturns n jobs t ∧ ∀ i < n, (t.jobs i).complete = true ∧
    (jobs i).arrival + (jobs i).burst ≤ (t.jobs i).completion) ∧
  ∀ s, Heads (srtfGoesOn n) (srtfTurn n) (srtfStart jobs) s → srtfGoesOn n s = true → LeastRuns n s

private theorem srtfShortest_some (h : srtfShortest n s = some i) :
    i < n ∧ Waits s i ∧ 0 < (s.jobs i).remaining ∧ (s.jobs i).remaining < INT_MAX := by
  obtain ⟨hi, hok, hlt, _⟩ := leastIndex_some h
  have hok := of_decide_eq_true hok
  exact ⟨hi, ⟨hok.1, hok.2.1⟩, hok.2.2, hlt⟩

theorem srtfTurn_cases (hrun : srtfTurn n s = some t) : t.time = s.time + 1 ∧ t.time ≤ INT_MAX ∧
    ((srtfShortest n s = none ∧ t.jobs = s.jobs ∧ t.completed = s.completed) ∨
      ∃ i job, srtfShortest n s = some i ∧ t.jobs = Function.update s.jobs i job ∧
        job.arrival = (s.jobs i).arrival ∧ job.remaining = (s.jobs i).remaining - 1 ∧
        ((job.remaining = 0 ∧ job.complete = true ∧ job.completion = t.time ∧
            t.completed = s.completed + 1) ∨
          (job.remaining ≠ 0 ∧ job.complete = (s.jobs i).complete ∧
            job.completion = (s.jobs i).completion ∧ t.completed = s.completed))) := by
  rw [srtfTurn] at hrun
  split at hrun
  · next hpick =>
    obtain ⟨time, hadvance, heq⟩ := Option.map_eq_some_iff.mp hrun
    obtain ⟨hclock, htime⟩ := advance_eq_some.mp hadvance
    rw [← heq, htime]
    exact ⟨rfl, hclock, .inl ⟨hpick, rfl, rfl⟩⟩
  · next i hpick =>
    obtain ⟨time, hadvance, heq⟩ := Option.map_eq_some_iff.mp hrun
    obtain ⟨hclock, htime⟩ := advance_eq_some.mp hadvance
    rw [← heq, htime]
    refine ⟨rfl, hclock, .inr ⟨i, _, hpick, rfl, ?_⟩⟩
    by_cases hend : (s.jobs i).remaining - 1 = 0
    · rw [if_pos hend]
      exact ⟨rfl, rfl, .inl ⟨hend, rfl, rfl, if_pos hend⟩⟩
    · rw [if_neg hend]
      exact ⟨rfl, rfl, .inr ⟨hend, rfl, rfl, if_neg hend⟩⟩

/-- The counter counts the complete jobs. -/
def Counted (n : Nat) (s : SrtfSt) : Prop :=
  s.completed = ∑ i ∈ range n, if (s.jobs i).complete = true then 1 else 0

private theorem Counted.turn (h : Counted n s) (hrun : srtfTurn n s = some t) : Counted n t := by
  rw [Counted] at h ⊢
  cases (srtfTurn_cases hrun).2.2 with
  | inl hidle => rw [hidle.2.2, hidle.2.1, h]
  | inr hran =>
    obtain ⟨i, job, hpick, hjobs, _, _, hend⟩ := hran
    obtain ⟨hi, hwaits, _⟩ := srtfShortest_some hpick
    have hsum := sum_update (fun _ (p : Process) => if p.complete = true then (1 : Int) else 0)
      s.jobs job hi
    rw [← hjobs, hwaits.2, ← h] at hsum
    rw [hsum]
    cases hend with
    | inl hdone =>
      rw [hdone.2.1, hdone.2.2.2]
      rfl
    | inr hmore =>
      rw [hmore.2.1, hmore.2.2.2, hwaits.2]
      exact (Int.add_zero _).symm

private theorem counted_start : Counted n (srtfStart (readJobs jobs arrival burst)) := by
  apply Eq.symm
  apply sum_eq_zero
  intro i _
  rfl

/-- A job with another burst than the selection looks for is never run. -/
def Stuck (burst : Int) (k : Nat) (s : SrtfSt) : Prop :=
  (s.jobs k).remaining = burst ∧ (s.jobs k).complete = false

private theorem Stuck.turn {b : Int} (h : Stuck b k s) (hb : ¬ (0 < b ∧ b < INT_MAX))
    (hrun : srtfTurn n s = some t) : Stuck b k t := by
  cases (srtfTurn_cases hrun).2.2 with
  | inl hidle =>
    rw [Stuck, hidle.2.1]
    exact h
  | inr hran =>
    obtain ⟨i, job, hpick, hjobs, _⟩ := hran
    obtain ⟨_, _, hpos, hlt⟩ := srtfShortest_some hpick
    have hki : k ≠ i := by
      intro heq
      rw [← heq, h.1] at hpos hlt
      exact hb ⟨hpos, hlt⟩
    rw [Stuck, hjobs, Function.update_of_ne hki]
    exact h

structure SrtfInv (n : Nat) (arrival burst : Nat → Int) (s : SrtfSt) : Prop where
  arrives : ∀ i < n, (s.jobs i).arrival = arrival i
  conserving : Conserving n arrival burst s.time fun i => (s.jobs i).remaining
  counted : Counted n s
  complete : ∀ i < n, (s.jobs i).complete = true ↔ (s.jobs i).remaining = 0
  ended : ∀ i < n, (s.jobs i).complete = true → arrival i + burst i ≤ (s.jobs i).completion
  clock : s.time ≤ INT_MAX

private theorem srtfInv_start (hn : 0 < n) (harrival : ∀ i < n, 0 ≤ arrival i)
    (hburst : ∀ i < n, 0 < burst i) :
    SrtfInv n arrival burst (srtfStart (readJobs jobs arrival burst)) := by
  constructor
  · intro i _
    rfl
  · exact Conserving.start (fun i hi => Int.le_of_lt (hburst i hi)) hn harrival
  · exact counted_start
  · intro i hi
    have hpos := hburst i hi
    constructor
    · intro hcomplete
      cases hcomplete
    · intro hzero
      have hzero : burst i = 0 := hzero
      omega
  · intro i _ hcomplete
    cases hcomplete
  · show (0 : Int) ≤ INT_MAX
    decide

theorem SrtfInv.left (h : SrtfInv n arrival burst s) (hgoes : srtfGoesOn n s = true) :
    ∃ k < n, (s.jobs k).remaining ≠ 0 := by
  have hlt : s.completed < n := of_decide_eq_true hgoes
  rw [h.counted] at hlt
  obtain ⟨k, hk, hno⟩ := exists_of_count hlt
  exact ⟨k, hk, fun hzero => hno ((h.complete k hk).mpr hzero)⟩

theorem SrtfInv.seen (h : SrtfInv n arrival burst s) (hj : j < n) (hwaits : Waits s j) :
    0 < (s.jobs j).remaining := by
  have hne : (s.jobs j).remaining ≠ 0 := by
    intro hzero
    have hcomplete := hwaits.2
    rw [(h.complete j hj).mpr hzero] at hcomplete
    cases hcomplete
  have hnonneg := h.conserving.nonneg j hj
  omega

private theorem SrtfInv.leastRuns (h : SrtfInv n arrival burst s) (hlt : ∀ i < n, burst i < INT_MAX) :
    LeastRuns n s := by
  constructor
  · intro i hpick
    obtain ⟨hi, hwaits, _⟩ := srtfShortest_some hpick
    refine ⟨hi, hwaits, fun j hj hw => ?_⟩
    exact leastIndex_le hpick j hj (decide_eq_true ⟨hw.1, hw.2, h.seen hj hw⟩)
  · intro hpick j hj hw
    have hmax := leastIndex_none hpick j hj (decide_eq_true ⟨hw.1, hw.2, h.seen hj hw⟩)
    have hle : (s.jobs j).remaining ≤ burst j := h.conserving.le j hj
    have := hlt j hj
    omega

theorem SrtfInv.idle (h : SrtfInv n arrival burst s) (hlt : ∀ i < n, burst i < INT_MAX)
    (hgoes : srtfGoesOn n s = true) (hpick : srtfShortest n s = none) :
    Conserving n arrival burst (s.time + 1) fun i => (s.jobs i).remaining := by
  obtain ⟨k, hk, hleft⟩ := h.left hgoes
  obtain ⟨j, hj, hjleft, hfirst⟩ :=
    exists_first_left arrival (fun i => (s.jobs i).remaining) hk hleft
  apply h.conserving.idle (by omega) hj _ hfirst
  by_contra harrived
  apply (h.leastRuns hlt).idle hpick j hj
  refine ⟨?_, ?_⟩
  · rw [h.arrives j hj]
    omega
  · cases hcomplete : (s.jobs j).complete with
    | false => rfl
    | true => exact absurd ((h.complete j hj).mp hcomplete) hjleft

private theorem SrtfInv.turn (h : SrtfInv n arrival burst s) (hlt : ∀ i < n, burst i < INT_MAX)
    (hgoes : srtfGoesOn n s = true) (hrun : srtfTurn n s = some t) : SrtfInv n arrival burst t := by
  obtain ⟨htime, hclock, hcases⟩ := srtfTurn_cases hrun
  cases hcases with
  | inl hidle =>
    have hcons := h.idle hlt hgoes hidle.1
    rw [← htime, ← hidle.2.1] at hcons
    exact ⟨hidle.2.1 ▸ h.arrives, hcons, h.counted.turn hrun, hidle.2.1 ▸ h.complete,
      hidle.2.1 ▸ h.ended, hclock⟩
  | inr hran =>
    obtain ⟨i, job, hpick, hjobs, harr, hrem, hend⟩ := hran
    obtain ⟨hi, hwaits, hpos, _⟩ := srtfShortest_some hpick
    have harrived : arrival i ≤ s.time := by
      rw [← h.arrives i hi]
      exact hwaits.1
    have hcons := h.conserving.run hi harrived Int.zero_lt_one (by omega)
    have hleft : Function.update (fun i => (s.jobs i).remaining) i ((s.jobs i).remaining - 1) =
        fun i => (t.jobs i).remaining := by
      funext j
      rw [hjobs]
      by_cases hji : j = i
      · rw [hji, Function.update_self, Function.update_self, hrem]
      · rw [Function.update_of_ne hji, Function.update_of_ne hji]
    rw [hleft, ← htime] at hcons
    refine ⟨?_, hcons, h.counted.turn hrun, ?_, ?_, hclock⟩
    · intro j hj
      rw [hjobs]
      by_cases hji : j = i
      · rw [hji, Function.update_self, harr, h.arrives i hi]
      · rw [Function.update_of_ne hji, h.arrives j hj]
    · intro j hj
      rw [hjobs]
      by_cases hji : j = i
      · rw [hji, Function.update_self]
        cases hend with
        | inl hdone => simp [hdone.1, hdone.2.1]
        | inr hmore => simp [hmore.1, hmore.2.1, hwaits.2]
      · rw [Function.update_of_ne hji]
        exact h.complete j hj
    · intro j hj hcomplete
      by_cases hji : j = i
      · rw [hji] at hcomplete ⊢
        rw [hjobs, Function.update_self] at hcomplete ⊢
        cases hend with
        | inl hdone =>
          have hran := hcons.ran hi
          have hzero : (t.jobs i).remaining = 0 := by
            rw [hjobs, Function.update_self, hdone.1]
          have hle := h.conserving.le i hi
          rw [hzero] at hran
          rw [hdone.2.2.1]
          omega
        | inr hmore =>
          rw [hmore.2.1, hwaits.2] at hcomplete
          cases hcomplete
      · rw [hjobs, Function.update_of_ne hji] at hcomplete ⊢
        exact h.ended j hj hcomplete

private theorem SrtfSchedule.bursts (h : SrtfSchedule n (readJobs jobs arrival burst)) :
    ∀ k < n, 0 < burst k ∧ burst k < INT_MAX := by
  intro k hk
  by_contra hno
  obtain ⟨⟨t, hreturns, hall⟩, _⟩ := h
  have hstuck := (hreturns.invariant (I := Stuck (burst k) k) ⟨rfl, rfl⟩
    fun s t hs _ hrun => hs.turn hno hrun).1
  have hcomplete := (hall k hk).1
  rw [hstuck.2] at hcomplete
  cases hcomplete

private theorem SrtfSchedule.fits (hn : 0 < n) (harrival : ∀ i < n, 0 ≤ arrival i)
    (h : SrtfSchedule n (readJobs jobs arrival burst)) : FitsIn n arrival burst INT_MAX := by
  have hbursts := h.bursts
  obtain ⟨⟨t, hreturns, hall⟩, _⟩ := h
  have hinv := (hreturns.invariant (I := SrtfInv n arrival burst)
    (srtfInv_start hn harrival fun i hi => (hbursts i hi).1)
    fun s t hs hgoes hrun => hs.turn (fun i hi => (hbursts i hi).2) hgoes hrun).1
  have hfits := hinv.conserving.fits_of_done
    (fun i hi => (hinv.complete i hi).mp (hall i hi).1) fun i hi => (hbursts i hi).1
  intro j hj
  exact Int.le_trans (hfits j hj) hinv.clock

private theorem srtfSchedule_of_bursts (hn : 0 < n) (harrival : ∀ i < n, 0 ≤ arrival i)
    (hbursts : ∀ i < n, 0 < burst i ∧ burst i < INT_MAX) (hfits : FitsIn n arrival burst INT_MAX) :
    SrtfSchedule n (readJobs jobs arrival burst) := by
  have hlt : ∀ i < n, burst i < INT_MAX := fun i hi => (hbursts i hi).2
  have hstart : SrtfInv n arrival burst (srtfStart (readJobs jobs arrival burst)) :=
    srtfInv_start hn harrival fun i hi => (hbursts i hi).1
  constructor
  · have hloop : ∃ t, SrtfReturns n (readJobs jobs arrival burst) t ∧ SrtfInv n arrival burst t ∧
        srtfGoesOn n t = false := by
      apply returns_of_variant (fun s => (INT_MAX - s.time).toNat) _ hstart
      intro s hs hgoes
      have hroom : s.time + 1 ≤ INT_MAX := by
        cases hpick : srtfShortest n s with
        | none =>
          obtain ⟨k, hk, hleft⟩ := hs.left hgoes
          have hnonneg := hs.conserving.nonneg k hk
          have := (hs.idle hlt hgoes hpick).fits hfits hk (by omega)
          omega
        | some i =>
          obtain ⟨hi, _, hpos, _⟩ := srtfShortest_some hpick
          have := hs.conserving.fits hfits hi hpos
          omega
      obtain ⟨t, ht⟩ : ∃ t, srtfTurn n s = some t := by
        have hadvance := advance_eq_some.mpr ⟨hroom, rfl⟩
        rw [srtfTurn]
        split
        · rw [hadvance]
          exact ⟨_, rfl⟩
        · rw [hadvance]
          exact ⟨_, rfl⟩
      have htime := (srtfTurn_cases ht).1
      exact ⟨t, ht, hs.turn hlt hgoes ht, by omega⟩
    obtain ⟨t, hreturns, hinv, hstop⟩ := hloop
    have hfull : (n : Int) ≤ t.completed := Int.not_lt.mp (of_decide_eq_false hstop)
    rw [hinv.counted] at hfull
    refine ⟨t, hreturns, fun i hi => ?_⟩
    have hcomplete := all_of_count hfull i hi
    exact ⟨hcomplete, hinv.ended i hi hcomplete⟩
  · intro s hheads _
    have hinv := hheads.invariant hstart fun s t hs hgoes hrun => hs.turn hlt hgoes hrun
    exact hinv.leastRuns hlt

/-- `srtf` completes a shortest-remaining-time schedule if and only if every burst is positive and below
the sentinel, and the clock can hold the end of the schedule. -/
theorem srtf_schedule_iff (hn : 0 < n) (harrival : ∀ i < n, 0 ≤ arrival i) :
    SrtfSchedule n (readJobs jobs arrival burst) ↔
      (∀ i < n, 0 < burst i ∧ burst i < INT_MAX) ∧ FitsIn n arrival burst INT_MAX := by
  constructor
  · intro h
    exact ⟨h.bursts, h.fits hn harrival⟩
  · intro h
    exact srtfSchedule_of_bursts hn harrival h.1 h.2

theorem srtf_schedule_pair :
    SrtfSchedule 2 (readJobs (fun _ => emptyJob) (fun i => i) fun i => 3 - i) := by
  apply (srtf_schedule_iff (by decide) fun i _ => Int.natCast_nonneg i).mpr
  rw [FitsIn]
  decide

/-- A job without time to run keeps the loop going for ever. -/
theorem srtf_zero_burst : ¬ SrtfSchedule 1 (readJobs (fun _ => emptyJob) (fun _ => 0) fun _ => 0) := by
  intro h
  have hpos := (h.bursts 0 (by decide)).1
  revert hpos
  decide

end CseOs.CpuSim
