import CseOs.Framework.Excess
import CseOs.TickSim.Loop

/-!
# Shortest remaining time on one core

On one core and without interrupts a round serves one thread that is not finished, if there is
one, and every policy does. Two runs of the same workload are compared round by round through
the work that is left.
-/

namespace CseOs.TickSim

open Framework Sim Finset

variable {cfg : Config} {jobs : List Job} {s s' t t' : Sim} {l : QName → List Ptr}
  {place place' : Ptr → Place} {p : Ptr} {T : Int} {n : Nat} {run run' : Option Ptr}

/-- The ticks that a thread still needs. -/
def left (s : Sim) (p : Ptr) : Nat := (s.thread p).remaining.toNat

/-- The threads that have left the workload. -/
def admitted (s : Sim) : Finset Ptr := (range s.made).filter fun p => (s.thread p).state ≠ .new

/-- No thread is blocked or ever was. -/
structure Quiet (s : Sim) : Prop where
  waiting : ∀ p < s.made, (s.thread p).state ≠ .waiting
  ioTime : ∀ p < s.made, ioTime s.ioLog (s.thread p).tid = 0

private theorem mem_admitted : p ∈ admitted s ↔ p < s.made ∧ (s.thread p).state ≠ .new := by
  rw [admitted, mem_filter, mem_range]

theorem left_pos_iff (ha : Accounted jobs (.during T 0) s place) (hp : p < s.made) :
    0 < left s p ↔ (s.thread p).state ≠ .finished := by
  have hpos : 0 < left s p ↔ 0 < (s.thread p).remaining := by
    rw [left]
    omega
  rw [hpos, ha.state_eq hp]
  obtain ⟨j, _, hj⟩ := ha.job hp
  have hacc := hj.account
  cases hplace : place p with
  | hand => exact absurd hplace (ha.settled p hp).1
  | core i =>
    rw [hplace] at hacc
    have : 1 ≤ (s.thread p).remaining := hacc.1
    exact iff_of_true (by omega) nofun
  | queue q =>
    rw [hplace] at hacc
    cases q with
    | keep => exact absurd hplace (ha.settled p hp).2
    | workload => exact iff_of_true hacc.2.1 nofun
    | ready => exact iff_of_true hacc.1 nofun
    | waiting => exact iff_of_true hacc.1 nofun
    | finished => exact iff_of_false (by have := hacc.1; omega) fun hne => hne rfl

private theorem live_iff_left (ha : Accounted jobs (.during T 0) s place) (hq : Quiet s) (hp : p < s.made) :
    live s p = true ↔
      ((s.thread p).state ≠ .new ∨ (s.thread p).arrivalTime = s.simTime) ∧ 0 < left s p := by
  rw [left_pos_iff ha hp]
  cases hstate : (s.thread p).state with
  | new => simp [live_new_iff hstate]
  | ready => simp [live, hstate]
  | running => simp [live, hstate]
  | waiting => exact absurd hstate (hq.waiting p hp)
  | finished => simp [live, hstate]

/-- A round that serves the thread `run`. -/
structure Serves (s s' : Sim) (run : Option Ptr) : Prop where
  made : s'.made = s.made
  mem : ∀ p, p ∈ admitted s' ↔
    p < s.made ∧ ((s.thread p).state ≠ .new ∨ (s.thread p).arrivalTime = s.simTime)
  serves : ∀ r, run = some r → r ∈ admitted s' ∧ 0 < left s r
  idle : run = none → ∀ p ∈ admitted s', left s p = 0
  work : ∀ p < s.made, left s' p = if run = some p then left s p - 1 else left s p
  waits : ∀ p < s.made, (s'.thread p).waitTime = (s.thread p).waitTime +
    if (p ∈ admitted s' ∧ 0 < left s p) ∧ run ≠ some p then 1 else 0

private theorem Round.undisturbed_off {io : Ptr → Option Nat} {cores : List (Option Ptr)}
    (h : Round cfg s s' io cores) (hoff : cfg.interrupts = false) : ∀ p, io p = none :=
  h.undisturbed.mpr (.inl hoff)

private theorem Round.quiet {io : Ptr → Option Nat} {cores : List (Option Ptr)} {place₀ : Ptr → Place}
    {T₀ : Int} (h : Round cfg s s' io cores) (hoff : cfg.interrupts = false)
    (ha : Accounted jobs (.during T 0) s place) (ha' : Accounted jobs (.during T₀ 0) s' place₀)
    (hq : Quiet s) : Quiet s' := by
  have hio := h.undisturbed_off hoff
  constructor
  · intro p hp
    rw [h.made] at hp
    rw [h.state p hp, nextState, hio p]
    split
    · rw [if_neg (by simp)]
      split
      · split <;> (intro he; cases he)
      · intro he
        cases he
    · exact hq.waiting p hp
  · intro p hp
    have hp₀ : p < s.made := h.made ▸ hp
    have hlog := h.ioTime p hp₀
    rw [hio p, hq.ioTime p hp₀, ha.tid_eq hp₀, ← ha'.tid_eq hp] at hlog
    exact hlog

theorem Round.serves {io : Ptr → Option Nat} {cores : List (Option Ptr)}
    (h : Round cfg s s' io cores) (hone : s.core.length = 1) (hoff : cfg.interrupts = false)
    (ha : Accounted jobs (.during T 0) s place) (hq : Quiet s) :
    ∃ run, Serves s s' run ∧ (cfg.algo = .srtcf → ∀ r, run = some r →
      ∀ p ∈ admitted s', 0 < left s p → left s r ≤ left s p) := by
  have hio := h.undisturbed_off hoff
  obtain ⟨run, hrun⟩ := List.length_eq_one_iff.mp (h.length.trans hone)
  subst hrun
  have hmem : ∀ p, p ∈ admitted s' ↔
      p < s.made ∧ ((s.thread p).state ≠ .new ∨ (s.thread p).arrivalTime = s.simTime) := by
    intro p
    rw [mem_admitted, h.made]
    apply and_congr_right
    intro hp
    rw [Ne, h.new_iff hp]
    tauto
  have hlive : ∀ p < s.made, (live s p = true ↔ p ∈ admitted s' ∧ 0 < left s p) := by
    intro p hp
    rw [live_iff_left ha hq hp, hmem, and_iff_right hp]
  have hcore : ∀ p, some p ∈ [run] ↔ run = some p := by
    intro p
    rw [List.mem_singleton]
    exact eq_comm
  refine ⟨run, ⟨h.made, hmem, ?_, ?_, ?_, ?_⟩, ?_⟩
  · intro r hr
    obtain ⟨hp, hl, _⟩ := h.running r ((hcore r).mpr hr)
    exact (hlive r hp).mp hl
  · intro hnone p hp
    by_contra hne
    have hpm := ((hmem p).mp hp).1
    have hl := (hlive p hpm).mpr ⟨hp, Nat.pos_of_ne_zero hne⟩
    have := h.busy (by simp [hnone]) p hpm hl (hio p)
    rw [hcore, hnone] at this
    cases this
  · intro p hp
    rw [left, h.remaining p hp, left]
    by_cases hr : run = some p
    · rw [if_pos ((hcore p).mpr hr), if_pos hr]
      omega
    · rw [if_neg fun hm => hr ((hcore p).mp hm), if_neg hr]
  · intro p hp
    rw [h.waitTime p hp]
    by_cases hw : (p ∈ admitted s' ∧ 0 < left s p) ∧ run ≠ some p
    · rw [if_pos hw, if_pos ⟨(hlive p hp).mpr hw.1, hio p, fun hm => hw.2 ((hcore p).mp hm)⟩]
    · rw [if_neg hw, if_neg, Int.add_zero]
      exact fun hc => hw ⟨(hlive p hp).mp hc.1, fun he => hc.2.2 ((hcore p).mpr he)⟩
  · intro hsrtcf r hr p hp hpos
    by_cases hpr : run = some p
    · rw [hr] at hpr
      cases hpr
      exact Nat.le_refl _
    · have hpm := ((hmem p).mp hp).1
      have := h.shortest hsrtcf r p ((hcore r).mpr hr) hpm ((hlive p hpm).mpr ⟨hp, hpos⟩) (hio p)
        fun hm => hpr ((hcore p).mp hm)
      rw [left, left]
      omega

theorem Serves.wait_sum (h : Serves s s' run) :
    ∑ p ∈ range s.made, (s'.thread p).waitTime = ∑ p ∈ range s.made, (s.thread p).waitTime +
      (((above (admitted s') (left s) 0).card - 1 : Nat) : Int) := by
  have hsum : ∑ p ∈ range s.made, (s'.thread p).waitTime =
      ∑ p ∈ range s.made, ((s.thread p).waitTime +
        if (p ∈ admitted s' ∧ 0 < left s p) ∧ run ≠ some p then (1 : Int) else 0) :=
    sum_congr rfl fun p hp => h.waits p (mem_range.mp hp)
  rw [hsum, sum_add_distrib, sum_boole]
  congr 2
  have hset : ((range s.made).filter fun p => (p ∈ admitted s' ∧ 0 < left s p) ∧ run ≠ some p) =
      (above (admitted s') (left s) 0).filter fun p => run ≠ some p := by
    ext p
    rw [mem_filter, mem_filter, above, mem_filter, mem_range]
    exact ⟨fun hp => hp.2, fun hp => ⟨((h.mem p).mp hp.1.1).1, hp⟩⟩
  rw [hset]
  cases run with
  | none =>
    have hnil : above (admitted s') (left s) 0 = ∅ := by
      apply filter_eq_empty_iff.mpr
      intro p hp
      rw [h.idle rfl p hp]
      exact Nat.lt_irrefl 0
    rw [hnil]
    rfl
  | some r =>
    obtain ⟨hr, hpos⟩ := h.serves r rfl
    have herase : ((above (admitted s') (left s) 0).filter fun p => some r ≠ some p) =
        (above (admitted s') (left s) 0).erase r := by
      ext p
      rw [mem_filter, mem_erase, and_comm]
      apply and_congr_left
      intro _
      rw [Ne, Option.some_inj, eq_comm]
    rw [herase, card_erase_of_mem]
    exact mem_filter.mpr ⟨hr, hpos⟩

/-- Two runs of one workload at the start of the same round; the work left is no less uneven in
`s`, and its threads have waited no longer. -/
structure Coupled (s t : Sim) : Prop where
  made : t.made = s.made
  time : t.simTime = s.simTime
  new : ∀ p < s.made, ((t.thread p).state = .new ↔ (s.thread p).state = .new)
  arrival : ∀ p < s.made, (t.thread p).arrivalTime = (s.thread p).arrivalTime
  same : ∀ p < s.made, (s.thread p).state = .new →
    left t p = left s p ∧ (t.thread p).waitTime = (s.thread p).waitTime
  uneven : Uneven (admitted s) (left s) (left t)
  waits : ∑ p ∈ range s.made, (s.thread p).waitTime ≤ ∑ p ∈ range s.made, (t.thread p).waitTime

private theorem Coupled.refl (s : Sim) : Coupled s s :=
  ⟨rfl, rfl, fun _ _ => Iff.rfl, fun _ _ => rfl, fun _ _ _ => ⟨rfl, rfl⟩, .refl _ _, Int.le_refl _⟩

private theorem Coupled.admitted_eq (h : Coupled s t) : admitted t = admitted s := by
  ext p
  rw [mem_admitted, mem_admitted, h.made]
  apply and_congr_right
  intro hp
  rw [Ne, Ne, h.new p hp]

theorem Coupled.admitted_next (h : Coupled s t) (hs : Serves s s' run) (ht : Serves t t' run') :
    admitted t' = admitted s' := by
  ext p
  rw [hs.mem, ht.mem, h.made, h.time]
  apply and_congr_right
  intro hp
  rw [Ne, Ne, h.new p hp, h.arrival p hp]

theorem Coupled.uneven_next (h : Coupled s t) (hs : Serves s s' run) :
    Uneven (admitted s') (left s) (left t) := by
  have hsub : admitted s ⊆ admitted s' := by
    intro p hp
    obtain ⟨hpm, hnew⟩ := mem_admitted.mp hp
    exact (hs.mem p).mpr ⟨hpm, .inl hnew⟩
  have hnew := h.uneven.add (disjoint_sdiff (s := admitted s) (t := admitted s')) (by
    intro p hp
    obtain ⟨hp', hnot⟩ := mem_sdiff.mp hp
    have hpm := ((hs.mem p).mp hp').1
    have hstate : (s.thread p).state = .new := by
      by_contra hne
      exact hnot (mem_admitted.mpr ⟨hpm, hne⟩)
    exact (h.same p hpm hstate).1.symm)
  rwa [union_sdiff_of_subset hsub] at hnew

theorem Coupled.round (h : Coupled s t) (hs : Serves s s' run) (ht : Serves t t' run')
    (hshort : ∀ r, run = some r → ∀ p ∈ admitted s', 0 < left s p → left s r ≤ left s p) :
    Uneven (admitted s') (left s') (left t') ∧
      ∑ p ∈ range s.made, (s'.thread p).waitTime ≤ ∑ p ∈ range s.made, (t'.thread p).waitTime := by
  have hun := h.uneven_next hs
  have hadm := h.admitted_next hs ht
  constructor
  · have hwork : ∀ p ∈ admitted s', p < s.made := fun p hp => ((hs.mem p).mp hp).1
    cases run with
    | none =>
      have hzero : ∀ p ∈ admitted s', left t p = 0 := hun.done_iff.mp (hs.idle rfl)
      cases run' with
      | none =>
        apply hun.congr
        · intro p hp
          rw [hs.work p (hwork p hp), if_neg nofun]
        · intro p hp
          rw [ht.work p (h.made ▸ hwork p hp), if_neg nofun]
      | some b =>
        obtain ⟨hb, hpos⟩ := ht.serves b rfl
        rw [hzero b (hadm ▸ hb)] at hpos
        exact absurd hpos (Nat.lt_irrefl 0)
    | some a =>
      obtain ⟨ha, hpos⟩ := hs.serves a rfl
      cases run' with
      | none =>
        have hzero := hun.done_iff.mpr fun p hp => ht.idle rfl p (hadm ▸ hp)
        rw [hzero a ha] at hpos
        exact absurd hpos (Nat.lt_irrefl 0)
      | some b =>
        obtain ⟨hb, hposb⟩ := ht.serves b rfl
        rw [hadm] at hb
        apply (hun.serve ha hpos (hshort a rfl) hb hposb).congr
        · intro p hp
          rw [hs.work p (hwork p hp), Function.update_apply]
          by_cases hpa : p = a
          · rw [hpa, if_pos rfl, if_pos rfl]
          · rw [if_neg hpa, if_neg fun he => hpa (Option.some_inj.mp he).symm]
        · intro p hp
          rw [ht.work p (h.made ▸ hwork p hp), Function.update_apply]
          by_cases hpb : p = b
          · rw [hpb, if_pos rfl, if_pos rfl]
          · rw [if_neg hpb, if_neg fun he => hpb (Option.some_inj.mp he).symm]
  · have hleft := hun.left_le
    have hsum := ht.wait_sum
    rw [h.made, hadm] at hsum
    rw [hs.wait_sum, hsum]
    have := h.waits
    omega

private theorem Coupled.tick {placeS placeT : Ptr → Place} {ioS ioT : Ptr → Option Nat}
    {coresS coresT : List (Option Ptr)} {cfgS cfgT : Config} {place₁ place₂ : Ptr → Place}
    {T₁ T₂ : Int} (h : Coupled s t)
    (hs : Round cfgS s s' ioS coresS) (ht : Round cfgT t t' ioT coresT)
    (hoff : cfgS.interrupts = false ∧ cfgT.interrupts = false)
    (hone : s.core.length = 1 ∧ t.core.length = 1) (halgo : cfgS.algo = .srtcf)
    (has : Accounted jobs (.during T 0) s placeS) (hat : Accounted jobs (.during T 0) t placeT)
    (has' : Accounted jobs (.during T₁ 0) s' place₁)
    (hat' : Accounted jobs (.during T₂ 0) t' place₂) (hqs : Quiet s) (hqt : Quiet t) :
    Coupled s' t' := by
  obtain ⟨run, hservs, hshort⟩ := hs.serves hone.1 hoff.1 has hqs
  obtain ⟨run', hservt, _⟩ := ht.serves hone.2 hoff.2 hat hqt
  obtain ⟨huneven, hwaits⟩ := h.round hservs hservt (hshort halgo)
  have hmade : t'.made = s'.made := by rw [hs.made, ht.made, h.made]
  have hnew : ∀ p < s.made, ((t'.thread p).state = .new ↔ (s'.thread p).state = .new) := by
    intro p hp
    rw [hs.new_iff hp, ht.new_iff (h.made ▸ hp), h.new p hp, h.arrival p hp, h.time]
  constructor
  · exact hmade
  · rw [hs.time, ht.time, h.time]
  · exact fun p hp => hnew p (hs.made ▸ hp)
  · intro p hp
    obtain ⟨j, hj, hjs⟩ := has'.job hp
    rw [hjs.arrival, (hat'.charged p j hj).arrival]
  · intro p hp hstate
    have hpm : p < s.made := hs.made ▸ hp
    have hpt : p < t.made := h.made ▸ hpm
    have hout : p ∉ admitted s' := fun hm => (mem_admitted.mp hm).2 hstate
    have hout' : p ∉ admitted t' := by rwa [h.admitted_next hservs hservt]
    have hrun : run ≠ some p := fun hr => hout (hservs.serves p hr).1
    have hrun' : run' ≠ some p := fun hr => hout' (hservt.serves p hr).1
    obtain ⟨hleft, hwait⟩ := h.same p hpm ((hs.new_iff hpm).mp hstate).1
    rw [hservs.work p hpm, hservt.work p hpt, if_neg hrun, if_neg hrun', hservs.waits p hpm,
      hservt.waits p hpt, if_neg fun hc => hout' hc.1.1, if_neg fun hc => hout hc.1.1, hwait]
    exact ⟨hleft, rfl⟩
  · exact huneven
  · rw [hs.made]
    exact hwaits

private theorem allDone_iff_left (hp : Placed s l place) (ha : Accounted jobs (.during T 0) s place) :
    allDone s = true ↔ ∀ p ∈ admitted s, left s p = 0 := by
  rw [allDone_iff hp ha]
  constructor
  · intro hall p hm
    obtain ⟨hpm, hne⟩ := mem_admitted.mp hm
    have hfin := (hall p hpm).resolve_left hne
    by_contra hpos
    exact (left_pos_iff ha hpm).mp (Nat.pos_of_ne_zero hpos) hfin
  · intro hall p hpm
    by_cases hnew : (s.thread p).state = .new
    · exact .inl hnew
    · right
      by_contra hne
      have := (left_pos_iff ha hpm).mpr hne
      rw [hall p (mem_admitted.mpr ⟨hpm, hnew⟩)] at this
      exact Nat.lt_irrefl 0 this

theorem Coupled.allDone_iff (h : Coupled s t) (hps : Placed s l place)
    {l' : QName → List Ptr} (hpt : Placed t l' place')
    (has : Accounted jobs (.during T 0) s place) (hat : Accounted jobs (.during T 0) t place') :
    allDone t = true ↔ allDone s = true := by
  rw [allDone_iff_left hpt hat, allDone_iff_left hps has, h.admitted_eq, h.uneven.done_iff]

/-- The threads that are finished. -/
def finished (s : Sim) : Finset Ptr := (range s.made).filter fun p => (s.thread p).state = .finished

/-- The sum of `finishTime - arrivalTime` over the finished threads. -/
def turnaround (s : Sim) : Int :=
  ∑ p ∈ finished s, ((s.thread p).finishTime - (s.thread p).arrivalTime)

theorem finished_eq_admitted (hp : Placed s l place) (ha : Accounted jobs (.during T 0) s place)
    (hdone : allDone s = true) : finished s = admitted s := by
  have hall := (allDone_iff hp ha).mp hdone
  ext p
  rw [finished, mem_filter, mem_admitted, mem_range]
  apply and_congr_right
  intro hpm
  constructor
  · intro hfin
    rw [hfin]
    nofun
  · exact (hall p hpm).resolve_left

private theorem turnaround_eq (hp : Placed s l place) (ha : Accounted jobs (.during T 0) s place)
    (hq : Quiet s) (hdone : allDone s = true) :
    turnaround s = ∑ p ∈ admitted s, ((s.thread p).burstTime + (s.thread p).waitTime) := by
  rw [turnaround, finished_eq_admitted hp ha hdone]
  apply sum_congr rfl
  intro p hm
  obtain ⟨hpm, hne⟩ := mem_admitted.mp hm
  have hfin := ((allDone_iff hp ha).mp hdone p hpm).resolve_left hne
  obtain ⟨j, _, hj⟩ := ha.job hpm
  have hplace : place p = .queue .finished := by
    rw [ha.state_eq hpm] at hfin
    cases hplace : place p with
    | queue q =>
      rw [hplace] at hfin
      cases q with
      | finished => rfl
      | workload => cases hfin
      | ready => cases hfin
      | waiting => cases hfin
      | keep => cases hfin
    | core i =>
      rw [hplace] at hfin
      cases hfin
    | hand =>
      rw [hplace] at hfin
      cases hfin
  have hacc := hj.account
  rw [hplace] at hacc
  obtain ⟨hrem, htime⟩ := hacc
  have hio := hq.ioTime p hpm
  simp only [charged] at htime
  omega

theorem Coupled.turnaround_le (h : Coupled s t) (hps : Placed s l place)
    {l' : QName → List Ptr} (hpt : Placed t l' place')
    (has : Accounted jobs (.during T 0) s place) (hat : Accounted jobs (.during T 0) t place')
    (hqs : Quiet s) (hqt : Quiet t) (hds : allDone s = true) (hdt : allDone t = true) :
    turnaround s ≤ turnaround t ∧ finished s = finished t := by
  constructor
  · rw [turnaround_eq hps has hqs hds, turnaround_eq hpt hat hqt hdt, h.admitted_eq,
      sum_add_distrib, sum_add_distrib]
    have hburst : ∑ p ∈ admitted s, (t.thread p).burstTime =
        ∑ p ∈ admitted s, (s.thread p).burstTime := by
      apply sum_congr rfl
      intro p hm
      obtain ⟨j, hj, hjs⟩ := has.job (mem_admitted.mp hm).1
      rw [hjs.burst, (hat.charged p j hj).burst]
    have hrest : ∑ p ∈ (range s.made).filter (fun p => ¬ (s.thread p).state ≠ .new),
        (t.thread p).waitTime =
        ∑ p ∈ (range s.made).filter (fun p => ¬ (s.thread p).state ≠ .new),
          (s.thread p).waitTime := by
      apply sum_congr rfl
      intro p hm
      obtain ⟨hpm, hnew⟩ := mem_filter.mp hm
      exact (h.same p (mem_range.mp hpm) (not_not.mp hnew)).2
    have hsplit : ∀ w : Ptr → Int, ∑ p ∈ admitted s, w p +
        ∑ p ∈ (range s.made).filter (fun p => ¬ (s.thread p).state ≠ .new), w p =
        ∑ p ∈ range s.made, w p :=
      fun w => sum_filter_add_sum_filter_not (range s.made) _ w
    have hs := hsplit fun p => (s.thread p).waitTime
    have ht := hsplit fun p => (t.thread p).waitTime
    have hwaits := h.waits
    rw [hburst]
    omega
  · rw [finished_eq_admitted hps has hds, finished_eq_admitted hpt hat hdt, h.admitted_eq]

private theorem quiet_zero (h : loopHead cfg jobs 0 = some s) : Quiet s := by
  obtain ⟨s', l, place, hrun, hp, ha, _, hlog, hplace⟩ := loopHead_zero cfg jobs
  have hs : s' = s := Option.some_inj.mp (hrun.symm.trans h)
  subst hs
  constructor
  · intro p hpm
    rw [ha.state_eq hpm]
    cases hplace p hpm with
    | inl hw =>
      rw [hw]
      nofun
    | inr hr =>
      rw [hr]
      nofun
  · intro p _
    rw [hlog]
    rfl

/-- The same program with the dispatcher that takes the shortest remaining time. -/
def Config.withSrtcf (cfg : Config) : Config := { cfg with algo := .srtcf }

theorem coupled_tick (hone : cfg.ncores = 1) (hoff : cfg.interrupts = false)
    (hs : loopHead cfg.withSrtcf jobs n = some s) (ht : loopHead cfg jobs n = some t)
    (h : Coupled s t) (hqs : Quiet s) (hqt : Quiet t) :
    ∃ s' t', tick cfg.withSrtcf s = some s' ∧ tick cfg t = some t' ∧ Coupled s' t' ∧ Quiet s' ∧
      Quiet t' ∧ (allDone t' = true ↔ allDone s' = true) ∧
      (allDone s' = true → turnaround s' ≤ turnaround t' ∧ finished s' = finished t') := by
  obtain ⟨ls, places, hps, has, hcs⟩ := loopHead_spec hs
  obtain ⟨lt, placet, hpt, hat, hct⟩ := loopHead_spec ht
  obtain ⟨s', ls', places', ios, coress, hruns, hps', has', hrs⟩ := tick_spec cfg.withSrtcf hps has
  obtain ⟨t', lt', placet', iot, corest, hrunt, hpt', hat', hrt⟩ := tick_spec cfg hpt hat
  have hc : Coupled s' t' := h.tick hrs hrt ⟨hoff, hoff⟩ ⟨hcs.trans hone, hct.trans hone⟩ rfl
    has hat has' hat' hqs hqt
  have hqs' := hrs.quiet hoff has has' hqs
  have hqt' := hrt.quiet hoff hat hat' hqt
  have hdone := hc.allDone_iff hps' hpt' has' hat'
  refine ⟨s', t', hruns, hrunt, hc, hqs', hqt', hdone, fun hds => ?_⟩
  exact hc.turnaround_le hps' hpt' has' hat' hqs' hqt' hds (hdone.mpr hds)

private theorem loopHead_succ {h : Sim} (hhead : loopHead cfg jobs n = some h) (htick : tick cfg h = some s)
    (hdone : ¬ allDone s = true) : loopHead cfg jobs (n + 1) = some s := by
  rw [loopHead, hhead]
  simp only [Option.bind_eq_bind, Option.bind_some, htick]
  rw [if_neg hdone]

theorem loopHead_pred (h : loopHead cfg jobs (n + 1) = some s) :
    ∃ s₀, loopHead cfg jobs n = some s₀ ∧ tick cfg s₀ = some s ∧ ¬ allDone s = true := by
  rw [loopHead] at h
  cases hhead : loopHead cfg jobs n with
  | none =>
    rw [hhead] at h
    cases h
  | some s₀ =>
    rw [hhead] at h
    cases htick : tick cfg s₀ with
    | none => simp [htick] at h
    | some s₁ =>
      simp only [Option.bind_eq_bind, Option.bind_some, htick] at h
      by_cases hd : allDone s₁ = true
      · rw [if_pos hd] at h
        cases h
      · rw [if_neg hd] at h
        cases h
        exact ⟨s₀, rfl, htick, hd⟩

private theorem coupled_loopHead (hone : cfg.ncores = 1) (hoff : cfg.interrupts = false)
    (hs : loopHead cfg.withSrtcf jobs n = some s) :
    ∃ t, loopHead cfg jobs n = some t ∧ Coupled s t ∧ Quiet s ∧ Quiet t := by
  induction n generalizing s with
  | zero => exact ⟨s, hs, .refl s, quiet_zero hs, quiet_zero hs⟩
  | succ n ih =>
    obtain ⟨s₀, hhead, htick, hdone⟩ := loopHead_pred hs
    obtain ⟨t₀, ht, hc, hqs, hqt⟩ := ih hhead
    obtain ⟨s', t', hruns, hrunt, hc', hqs', hqt', hiff, _⟩ :=
      coupled_tick hone hoff hhead ht hc hqs hqt
    have hs' : s' = s := Option.some_inj.mp (hruns.symm.trans htick)
    subst hs'
    exact ⟨t', loopHead_succ ht hrunt fun hd => hdone (hiff.mp hd), hc', hqs', hqt'⟩

theorem loopHead_le {m : Nat} (h : loopHead cfg jobs m = some s) (hn : n ≤ m) :
    ∃ s', loopHead cfg jobs n = some s' := by
  induction m generalizing s with
  | zero =>
    rw [Nat.le_zero.mp hn]
    exact ⟨s, h⟩
  | succ m ih =>
    obtain ⟨s₀, hhead, _⟩ := loopHead_pred h
    cases Nat.le_or_eq_of_le_succ hn with
    | inl hle => exact ih hhead hle
    | inr heq =>
      rw [heq]
      exact ⟨s, h⟩

theorem StopsIn.unique (h : StopsIn cfg jobs s) (h' : StopsIn cfg jobs t) : s = t := by
  have hlast : ∀ {n m : Nat} {s₀ s t : Sim}, loopHead cfg jobs n = some s₀ →
      tick cfg s₀ = some s → allDone s = true → loopHead cfg jobs m = some t → m ≤ n := by
    intro n m s₀ s t hhead htick hdone hm
    by_contra hlt
    obtain ⟨s₁, hnext⟩ := loopHead_le hm (Nat.succ_le_of_lt (Nat.lt_of_not_le hlt))
    obtain ⟨s₂, hhead₂, htick₂, hnot⟩ := loopHead_pred hnext
    cases hhead.symm.trans hhead₂
    cases htick.symm.trans htick₂
    exact hnot hdone
  obtain ⟨n, s₀, hn, hticks, hds⟩ := h
  obtain ⟨m, t₀, hm, htickt, hdt⟩ := h'
  have hnm : n = m := Nat.le_antisymm (hlast hm htickt hdt hn) (hlast hn hticks hds hm)
  subst hnm
  cases hn.symm.trans hm
  exact Option.some_inj.mp (hticks.symm.trans htickt)

theorem srtcf_stops (hone : cfg.ncores = 1) (hoff : cfg.interrupts = false) {k : Nat}
    (h : loopHead cfg.withSrtcf jobs n = some s) (hk : ∑ p ∈ range s.made, left s p < k) :
    ∃ s', StopsIn cfg.withSrtcf jobs s' := by
  induction k generalizing n s with
  | zero => exact absurd hk (Nat.not_lt_zero _)
  | succ k ih =>
    obtain ⟨l, place, hp, ha, hcores⟩ := loopHead_spec h
    obtain ⟨_, _, _, hq, _⟩ := coupled_loopHead hone hoff h
    obtain ⟨s', l', place', io, cores, hrun, hp', ha', hround⟩ := tick_spec cfg.withSrtcf hp ha
    obtain ⟨run, hserves, _⟩ := hround.serves (hcores.trans hone) hoff ha hq
    by_cases hdone : allDone s' = true
    · exact ⟨s', n, s, h, hrun, hdone⟩
    · apply ih (loopHead_succ h hrun hdone)
      cases run with
      | none =>
        refine absurd ((allDone_iff_left hp' ha').mpr fun p hm => ?_) hdone
        rw [hserves.work p ((hserves.mem p).mp hm).1, if_neg nofun, hserves.idle rfl p hm]
      | some r =>
        obtain ⟨hr, hpos⟩ := hserves.serves r rfl
        have hrm := ((hserves.mem r).mp hr).1
        have hlt : ∑ p ∈ range s.made, left s' p < ∑ p ∈ range s.made, left s p := by
          apply sum_lt_sum
          · intro p hp
            rw [hserves.work p (mem_range.mp hp)]
            split <;> omega
          · refine ⟨r, mem_range.mpr hrm, ?_⟩
            rw [hserves.work r hrm, if_pos rfl]
            omega
        rw [hround.made]
        omega

/-- On one core without interrupts both programs stop, and the shortest remaining time first has
the same finished threads and the least turnaround. -/
theorem srtcf_optimal (cfg : Config) (jobs : List Job) (hone : cfg.ncores = 1)
    (hoff : cfg.interrupts = false) :
    (∃ s, StopsIn cfg.withSrtcf jobs s) ∧ (∃ t, StopsIn cfg jobs t) ∧
      ∀ s t, StopsIn cfg.withSrtcf jobs s → StopsIn cfg jobs t →
        turnaround s ≤ turnaround t ∧ finished s = finished t := by
  obtain ⟨s₀, _, _, hzero, _⟩ := loopHead_zero cfg.withSrtcf jobs
  obtain ⟨s, hs⟩ := srtcf_stops hone hoff hzero (Nat.lt_succ_self _)
  obtain ⟨n, h, hhead, htick, hdone⟩ := hs
  obtain ⟨h', hhead', hc, hq, hq'⟩ := coupled_loopHead hone hoff hhead
  obtain ⟨s', t', hruns, hrunt, _, _, _, hiff, hle⟩ := coupled_tick hone hoff hhead hhead' hc hq hq'
  cases htick.symm.trans hruns
  have hs : StopsIn cfg.withSrtcf jobs s := ⟨n, h, hhead, htick, hdone⟩
  have ht : StopsIn cfg jobs t' := ⟨n, h', hhead', hrunt, hiff.mpr hdone⟩
  refine ⟨⟨s, hs⟩, ⟨t', ht⟩, fun s₁ t₁ hs₁ ht₁ => ?_⟩
  rw [hs₁.unique hs, ht₁.unique ht]
  exact hle hdone

theorem srtcf_optimal_example :
    ∃ s t, StopsIn singleCore.withSrtcf [shortJob 0, shortJob 0] s ∧
      StopsIn singleCore [shortJob 0, shortJob 0] t ∧ turnaround s ≤ turnaround t := by
  obtain ⟨⟨s, hs⟩, ⟨t, ht⟩, hle⟩ := srtcf_optimal singleCore [shortJob 0, shortJob 0] rfl rfl
  exact ⟨s, t, hs, ht, (hle s t hs ht).1⟩

end CseOs.TickSim
