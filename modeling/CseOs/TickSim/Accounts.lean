import CseOs.TickSim.Phases

/-!
# The accounts of the threads

Each tick of the life of a thread is charged to one of its accounts: the ticks run, `waitTime`
and the logged I/O time. Arrival time and charges together give the time up to which the thread
has been charged, and that time depends on its place.
-/

namespace CseOs.TickSim

open Framework Sim

/-- How far the calls of a round have come: the arrivals and I/O waits before these times are
over, and the threads in the ready queue and on the cores are charged up to these times. `least`
bounds the remaining time on a core. -/
structure Clock where
  admitted : Int
  resolved : Int
  ready : Int
  core : Int
  least : Int

/-- The clock after the first `k` calls of the round that starts at time `T`. -/
def Clock.during (T : Int) (k : Nat) : Clock where
  admitted := if 1 ≤ k then T + 1 else T
  resolved := if 2 ≤ k then T + 1 else T
  ready := if 5 ≤ k then T + 1 else T
  core := if 6 ≤ k then T + 1 else T
  least := if k = 6 ∨ k = 7 then 0 else 1

/-- The time charged to a thread whose I/O took the time `io`. -/
def charged (th : Thread) (io : Nat) : Int := th.burstTime - th.remaining + th.waitTime + io

/-- The account of a thread in its place. -/
def Place.Account (c : Clock) (th : Thread) (io : Nat) : Place → Prop
  | .queue .workload => c.admitted ≤ th.arrivalTime ∧ 0 < th.remaining ∧ charged th io = 0
  | .queue .ready => 0 < th.remaining ∧ th.arrivalTime + charged th io = c.ready
  | .queue .waiting => 0 < th.remaining ∧ c.resolved ≤ th.unblockedAt ∧
      th.arrivalTime + charged th io = th.unblockedAt
  | .queue .finished => th.remaining = 0 ∧ th.arrivalTime + charged th io = th.finishTime
  | .queue .keep => False
  | .core _ => c.least ≤ th.remaining ∧ th.arrivalTime + charged th io = c.core
  | .hand => False

/-- A thread made from the job `j`, in the place `v` and with its accounts in order. -/
structure Charged (c : Clock) (log : List IoEvent) (p : Ptr) (j : Job) (th : Thread) (v : Place) :
    Prop where
  tid : th.tid = (p : Int) + 1
  arrival : th.arrivalTime = j.arrival
  burst : th.burstTime = j.burst
  remaining_le : th.remaining ≤ th.burstTime
  priority_le : th.priority ≤ INT_MAX
  state : th.state = v.state
  unfinished : v ≠ .queue .finished → th.finishTime < 0
  account : v.Account c th (ioTime log th.tid)

private theorem decay_priority_le (th : Thread) : (decay th).priority ≤ th.priority := by
  rw [decay]
  split
  · show th.priority - 1 ≤ th.priority
    omega
  · exact Int.le_refl _

theorem decay_eq (th : Thread) : decay th = { th with priority := (decay th).priority } := by
  rw [decay]
  split <;> rfl

namespace Charged

variable {c : Clock} {log log' : List IoEvent} {p : Ptr} {j : Job} {th th' : Thread} {v v' : Place}
  {T : Int}

theorem arrive (h : Charged c log p j th v) (hc : c.ready = c.admitted) :
    Charged { c with admitted := c.admitted + 1 } log p j
      (if v = .queue .workload ∧ th.arrivalTime = c.admitted then madeReady th else th)
      (if v = .queue .workload ∧ th.arrivalTime = c.admitted then .queue .ready else v) := by
  by_cases hin : v = .queue .workload ∧ th.arrivalTime = c.admitted
  · rw [if_pos hin, if_pos hin]
    obtain ⟨rfl, harr⟩ := hin
    have hacc : c.admitted ≤ th.arrivalTime ∧ 0 < th.remaining ∧
      charged th (ioTime log th.tid) = 0 := h.account
    refine ⟨h.tid, h.arrival, h.burst, h.remaining_le, h.priority_le, rfl, fun _ => ?_, ?_⟩
    · exact h.unfinished (fun he => nomatch he)
    · show 0 < th.remaining ∧ th.arrivalTime + charged th (ioTime log th.tid) = c.ready
      omega
  · rw [if_neg hin, if_neg hin]
    refine ⟨h.tid, h.arrival, h.burst, h.remaining_le, h.priority_le, h.state, h.unfinished, ?_⟩
    have hacc := h.account
    cases v with
    | queue q =>
      cases q with
      | workload =>
        have hne : th.arrivalTime ≠ c.admitted := fun he => hin ⟨rfl, he⟩
        exact ⟨by have := hacc.1; show c.admitted + 1 ≤ _; omega, hacc.2⟩
      | ready => exact hacc
      | waiting => exact hacc
      | finished => exact hacc
      | keep => exact hacc
    | core i => exact hacc
    | hand => exact hacc

theorem resolve (h : Charged c log p j th v) (hc : c.ready = c.resolved) :
    Charged { c with resolved := c.resolved + 1 } log p j
      (if v = .queue .waiting ∧ th.unblockedAt ≤ c.resolved then madeReady th else th)
      (if v = .queue .waiting ∧ th.unblockedAt ≤ c.resolved then .queue .ready else v) := by
  by_cases hin : v = .queue .waiting ∧ th.unblockedAt ≤ c.resolved
  · rw [if_pos hin, if_pos hin]
    obtain ⟨rfl, hdue⟩ := hin
    have hacc : 0 < th.remaining ∧ c.resolved ≤ th.unblockedAt ∧
      th.arrivalTime + charged th _ = th.unblockedAt := h.account
    refine ⟨h.tid, h.arrival, h.burst, h.remaining_le, h.priority_le, rfl, fun _ => ?_, ?_⟩
    · exact h.unfinished (fun he => nomatch he)
    · show 0 < th.remaining ∧ th.arrivalTime + charged th (ioTime log th.tid) = c.ready
      omega
  · rw [if_neg hin, if_neg hin]
    refine ⟨h.tid, h.arrival, h.burst, h.remaining_le, h.priority_le, h.state, h.unfinished, ?_⟩
    have hacc := h.account
    cases v with
    | queue q =>
      cases q with
      | waiting =>
        have hlate : ¬ th.unblockedAt ≤ c.resolved := fun he => hin ⟨rfl, he⟩
        exact ⟨hacc.1, by show c.resolved + 1 ≤ _; omega, hacc.2.2⟩
      | workload => exact hacc
      | ready => exact hacc
      | finished => exact hacc
      | keep => exact hacc
    | core i => exact hacc
    | hand => exact hacc

/-- The log grows by the blocks of this round, and a thread that is hit was on a core. -/
theorem interrupt (h : Charged c log p j th v) {io : Option Nat}
    (hhit : ∀ d, io = some d → 0 < d ∧ v.OnCore)
    (hlog : ioTime log' th.tid = ioTime log th.tid + io.getD 0) (hleast : c.least = 1)
    (hc : c.resolved = c.core + 1) :
    Charged c log' p j (io.elim th fun d => blockUntil (c.core + d) th)
      (if io.isSome then .queue .waiting else v) := by
  cases io with
  | none =>
    have hlog : ioTime log' th.tid = ioTime log th.tid := hlog
    refine ⟨h.tid, h.arrival, h.burst, h.remaining_le, h.priority_le, h.state, h.unfinished, ?_⟩
    show v.Account c th (ioTime log' th.tid)
    rw [hlog]
    exact h.account
  | some d =>
    obtain ⟨hd, hcore⟩ := hhit d rfl
    obtain ⟨i, rfl⟩ := onCore_iff.mp hcore
    have hacc : c.least ≤ th.remaining ∧ th.arrivalTime + charged th _ = c.core := h.account
    refine ⟨h.tid, h.arrival, h.burst, h.remaining_le, h.priority_le, rfl, fun _ => ?_, ?_⟩
    · exact h.unfinished (fun he => nomatch he)
    · show 0 < th.remaining ∧ c.resolved ≤ c.core + d ∧
        th.arrivalTime + charged th (ioTime log' th.tid) = c.core + d
      have hlog : ioTime log' th.tid = ioTime log th.tid + d := hlog
      rw [hlog]
      simp only [charged] at hacc ⊢
      omega

/-- Dispatching changes no account. -/
theorem shift (h : Charged c log p j th v) (hkept : Kept th th') (hactive : v'.Active ↔ v.Active)
    (hother : ¬ v.Active → v' = v) (hstate : th'.state = v'.state) (hleast : c.least = 1)
    (hc : c.ready = c.core) : Charged c log p j th' v' := by
  have hun : v ≠ .queue .finished → th'.finishTime < 0 := by
    rw [hkept]
    exact h.unfinished
  have hacc : ∀ v'' : Place, v''.Account c th (ioTime log th.tid) →
      v''.Account c th' (ioTime log th'.tid) := by
    intro v'' ha
    rw [hkept]
    cases v'' with
    | queue q => cases q <;> exact ha
    | core i => exact ha
    | hand => exact ha
  have hfields : th'.tid = th.tid ∧ th'.arrivalTime = th.arrivalTime ∧
      th'.burstTime = th.burstTime ∧ th'.remaining = th.remaining ∧
      th'.priority = th.priority := by
    rw [hkept]
    exact ⟨rfl, rfl, rfl, rfl, rfl⟩
  obtain ⟨htid, harr, hburst, hrem, hprio⟩ := hfields
  refine ⟨htid.trans h.tid, harr.trans h.arrival, hburst.trans h.burst, ?_, ?_, hstate, ?_, ?_⟩
  · rw [hrem, hburst]
    exact h.remaining_le
  · rw [hprio]
    exact h.priority_le
  · intro hne
    apply hun
    rintro rfl
    exact hne (hother (fun ha => nomatch ha))
  · apply hacc
    by_cases ha : v.Active
    · have hrun : 0 < th.remaining ∧
          th.arrivalTime + charged th (ioTime log th.tid) = c.ready := by
        have hold := h.account
        cases v with
        | queue q =>
          cases ha
          exact hold
        | core i =>
          have hold : c.least ≤ th.remaining ∧ th.arrivalTime + charged th _ = c.core := hold
          omega
        | hand => exact ha.elim
      have ha' := hactive.mpr ha
      cases v' with
      | queue q =>
        cases ha'
        exact hrun
      | core i =>
        show c.least ≤ th.remaining ∧ th.arrivalTime + charged th _ = c.core
        omega
      | hand => exact ha'.elim
    · rw [hother ha]
      exact h.account

theorem bump (h : Charged c log p j th v) :
    Charged { c with ready := c.ready + 1 } log p j
      (if v = .queue .ready then { th with waitTime := th.waitTime + 1 } else th) v := by
  by_cases hv : v = .queue .ready
  · subst hv
    have hacc : 0 < th.remaining ∧ th.arrivalTime + charged th _ = c.ready := h.account
    rw [if_pos rfl]
    refine ⟨h.tid, h.arrival, h.burst, h.remaining_le, h.priority_le, h.state, h.unfinished, ?_⟩
    show 0 < th.remaining ∧
      th.arrivalTime + charged { th with waitTime := th.waitTime + 1 } _ = c.ready + 1
    simp only [charged] at hacc ⊢
    omega
  · rw [if_neg hv]
    refine ⟨h.tid, h.arrival, h.burst, h.remaining_le, h.priority_le, h.state, h.unfinished, ?_⟩
    have hacc := h.account
    cases v with
    | queue q =>
      cases q with
      | ready => exact absurd rfl hv
      | workload => exact hacc
      | waiting => exact hacc
      | finished => exact hacc
      | keep => exact hacc
    | core i => exact hacc
    | hand => exact hacc

theorem step (h : Charged c log p j th v) (hleast : c.least = 1) :
    Charged { c with core := c.core + 1, least := 0 } log p j
      (if v.OnCore then runTick th else th) v := by
  cases v with
  | core i =>
    have hacc : c.least ≤ th.remaining ∧ th.arrivalTime + charged th _ = c.core := h.account
    have hrem : (runTick th).remaining = th.remaining - 1 := if_pos (by omega)
    rw [if_pos (show (Place.core i).OnCore from trivial)]
    refine ⟨h.tid, h.arrival, h.burst, ?_, h.priority_le, h.state, h.unfinished, ?_⟩
    · have := h.remaining_le
      rw [hrem]
      show th.remaining - 1 ≤ th.burstTime
      omega
    · show 0 ≤ (runTick th).remaining ∧
        th.arrivalTime + charged (runTick th) (ioTime log th.tid) = c.core + 1
      simp only [charged, hrem] at hacc ⊢
      show 0 ≤ th.remaining - 1 ∧ th.arrivalTime +
        (th.burstTime - (th.remaining - 1) + th.waitTime + ioTime log th.tid) = c.core + 1
      omega
  | queue q =>
    rw [if_neg (show ¬ (Place.queue q).OnCore from id)]
    refine ⟨h.tid, h.arrival, h.burst, h.remaining_le, h.priority_le, h.state, h.unfinished, ?_⟩
    cases q <;> exact h.account
  | hand => exact h.account.elim

theorem decay (h : Charged c log p j th v) {b : Prop} [Decidable b] :
    Charged c log p j (if b then TickSim.decay th else th) v := by
  by_cases hb : b
  · rw [if_pos hb]
    have hle := Int.le_trans (decay_priority_le th) h.priority_le
    rw [decay_eq]
    refine ⟨h.tid, h.arrival, h.burst, h.remaining_le, hle, h.state, h.unfinished, ?_⟩
    have hacc := h.account
    cases v with
    | queue q => cases q <;> exact hacc
    | core i => exact hacc
    | hand => exact hacc
  · rw [if_neg hb]
    exact h

theorem collect (h : Charged c log p j th v) {is : List Nat} (hcores : ∀ i, v = .core i → i ∈ is)
    (hleast : c.least = 0) :
    Charged { c with least := 1 } log p j (if DoneOn is th v then finishAt c.core th else th)
      (if DoneOn is th v then .queue .finished else v) := by
  by_cases hdone : DoneOn is th v
  · rw [if_pos hdone, if_pos hdone]
    cases v with
    | core i =>
      have hacc : c.least ≤ th.remaining ∧ th.arrivalTime + charged th _ = c.core := h.account
      have hun := h.unfinished (fun he => nomatch he)
      have hfin : (finishAt c.core th).finishTime = c.core := if_pos hun
      refine ⟨h.tid, h.arrival, h.burst, h.remaining_le, h.priority_le, rfl,
        fun hne => absurd rfl hne, ?_⟩
      show th.remaining = 0 ∧ th.arrivalTime + charged th _ = (finishAt c.core th).finishTime
      rw [hfin]
      exact ⟨hdone.2, hacc.2⟩
    | queue q => exact hdone.elim
    | hand => exact hdone.elim
  · rw [if_neg hdone, if_neg hdone]
    refine ⟨h.tid, h.arrival, h.burst, h.remaining_le, h.priority_le, h.state, h.unfinished, ?_⟩
    have hacc := h.account
    cases v with
    | core i =>
      have hacc : c.least ≤ th.remaining ∧ th.arrivalTime + charged th _ = c.core := hacc
      have hne : th.remaining ≠ 0 := fun he => hdone ⟨hcores i rfl, he⟩
      exact ⟨by show 1 ≤ th.remaining; omega, hacc.2⟩
    | queue q => cases q <;> exact hacc
    | hand => exact hacc

end Charged

/-- The accounts of all threads of the workload. -/
structure Accounted (jobs : List Job) (c : Clock) (s : Sim) (place : Ptr → Place) : Prop where
  made : s.made = jobs.length
  time : (s.simTime : Int) = c.core
  charged : ∀ p j, jobs[p]? = some j → Charged c s.ioLog p j (s.thread p) (place p)
  traced : s.simTime ≤ s.traceLen → ∀ p < s.made,
    (s.runTrace.flatten.count (s.thread p).tid : Int) =
      (s.thread p).burstTime - (s.thread p).remaining
  rows : ∀ row ∈ s.runTrace, ∀ tid, tid ≠ -1 → row.count tid ≤ 1

namespace Accounted

variable {jobs : List Job} {c c' : Clock} {s s' : Sim} {l : QName → List Ptr}
  {place place' : Ptr → Place} {p r : Ptr} {T : Int}

theorem job (h : Accounted jobs c s place) (hp : p < s.made) :
    ∃ j, jobs[p]? = some j ∧ Charged c s.ioLog p j (s.thread p) (place p) := by
  have hlt : p < jobs.length := h.made ▸ hp
  exact ⟨jobs[p], List.getElem?_eq_getElem hlt, h.charged p _ (List.getElem?_eq_getElem hlt)⟩

theorem lt_made (h : Accounted jobs c s place) {j : Job} (hj : jobs[p]? = some j) : p < s.made := by
  rw [h.made]
  exact (List.getElem?_eq_some_iff.mp hj).1

theorem tid_eq (h : Accounted jobs c s place) (hp : p < s.made) : (s.thread p).tid = (p : Int) + 1 := by
  obtain ⟨j, _, hj⟩ := h.job hp
  exact hj.tid

theorem tid_inj (h : Accounted jobs c s place) :
    ∀ p < s.made, ∀ r < s.made, (s.thread p).tid = (s.thread r).tid → p = r := by
  intro p hp r hr he
  rw [h.tid_eq hp, h.tid_eq hr] at he
  omega

theorem state_eq (h : Accounted jobs c s place) (hp : p < s.made) :
    (s.thread p).state = (place p).state := by
  obtain ⟨j, _, hj⟩ := h.job hp
  exact hj.state

theorem settled (h : Accounted jobs c s place) : Settled s place := by
  intro p hp
  obtain ⟨j, _, hj⟩ := h.job hp
  have hacc := hj.account
  cases hplace : place p with
  | queue q =>
    rw [hplace] at hacc
    cases q with
    | keep => exact hacc.elim
    | workload => exact ⟨nofun, nofun⟩
    | ready => exact ⟨nofun, nofun⟩
    | waiting => exact ⟨nofun, nofun⟩
    | finished => exact ⟨nofun, nofun⟩
  | core i => exact ⟨nofun, nofun⟩
  | hand =>
    rw [hplace] at hacc
    exact hacc.elim

theorem fit_remaining (h : Accounted jobs c s place) : KeysFit Thread.remaining s := by
  intro p hp
  obtain ⟨j, _, hj⟩ := h.job hp
  have := hj.remaining_le
  have := j.burst_le
  rw [← hj.burst] at this
  omega

theorem fit_priority (h : Accounted jobs c s place) : KeysFit Thread.priority s := by
  intro p hp
  obtain ⟨j, _, hj⟩ := h.job hp
  exact hj.priority_le

/-- A call that runs no thread keeps the trace, and the accounts of each thread are enough. -/
theorem next (h : Accounted jobs c s place) (hmade : s'.made = s.made)
    (hclock : s'.simTime = s.simTime ∧ s'.traceLen = s.traceLen ∧ s'.runTrace = s.runTrace)
    (hcore : c'.core = c.core)
    (hcharged : ∀ p < s.made, ∀ j, Charged c s.ioLog p j (s.thread p) (place p) →
      Charged c' s'.ioLog p j (s'.thread p) (place' p))
    (hrem : ∀ p < s.made, (s'.thread p).remaining = (s.thread p).remaining) :
    Accounted jobs c' s' place' := by
  obtain ⟨htime, hlen, htrace⟩ := hclock
  refine ⟨hmade.trans h.made, ?_, fun p j hj => ?_, fun hle p hp => ?_, ?_⟩
  · rw [htime, hcore]
    exact h.time
  · exact hcharged p (h.lt_made hj) j (h.charged p j hj)
  · rw [hmade] at hp
    obtain ⟨j, _, hj⟩ := h.job hp
    have hj' := hcharged p hp j hj
    rw [htime, hlen] at hle
    rw [htrace, hj'.tid, hj'.burst, ← hj.tid, ← hj.burst, hrem p hp]
    exact h.traced hle p hp
  · rw [htrace]
    exact h.rows

end Accounted

end CseOs.TickSim
