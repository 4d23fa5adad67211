import CseOs.WindowsLinux.RunQueue
import Mathlib.Algebra.Order.Ring.Int

/-!
# The accounts of `simulate_cfs`

The run queue holds each process that has arrived and is not finished, once. The time that a process
waits counts from the turn in which it is noticed, which may be later than its arrival.
-/

namespace CseOs.WindowsLinux

open Framework Finset

variable {product : Int → Int → Int → Int} {n i j k : Nat} {procs : Nat → Proc} {arr : Nat → Arrival} {rank : Nat → Nat}
  {csCost schedPeriod late : Int} {s t : CfsSt}

/-- The process has arrived in the queue and is not finished. -/
def Active (rank : Nat → Nat) (s : CfsSt) (i : Nat) : Prop :=
  rank i < s.ai ∧ 0 < (s.procs i).remaining

instance : Decidable (Active rank s i) := inferInstanceAs (Decidable (_ ∧ _))

structure CfsInv (n : Nat) (procs : Nat → Proc) (arr : Nat → Arrival) (rank : Nat → Nat) (s : CfsSt) : Prop
    extends QueueInv n rank s where
  nice : ∀ i < n, (s.procs i).nice = (procs i).nice
  nonneg : ∀ i < n, 0 ≤ (s.procs i).remaining
  ai_le : s.ai ≤ n
  clock : 0 ≤ s.now
  past : ∀ k < s.ai, (arr k).t ≤ s.now
  future : ∀ i < n, s.ai ≤ rank i → (s.procs i).remaining = (procs i).burst ∧ (s.procs i).waiting = 0
  mem : ∀ i, i ∈ waitingOf s ↔ i < n ∧ Active rank s i
  weights : s.sumWeights = ∑ i ∈ range n, if Active rank s i then niceWeight (procs i).nice else 0
  enqueued : ∀ i ∈ waitingOf s, 0 ≤ (s.procs i).lastEnq

/-- The waiting and running time of a process, with the time `late` for which it was not noticed. -/
structure Account (p₀ : Proc) (late : Int) (s : CfsSt) (i : Nat) : Prop where
  waits : i ∈ waitingOf s → (s.procs i).waiting + (p₀.burst - (s.procs i).remaining) + late =
    (s.procs i).lastEnq - p₀.arrival
  finished : (s.procs i).remaining = 0 →
    (s.procs i).completion - p₀.arrival = p₀.burst + (s.procs i).waiting + late

section Arrivals

variable (ht : Timetable n (fun i => (procs i).arrival) arr rank)
  (hburst : ∀ i < n, 1 ≤ (procs i).burst)
include ht hburst

private theorem CfsInv.arrive (h : CfsInv n procs arr rank s) (hai : s.ai < n) (hdue : (arr s.ai).t ≤ s.now)
    (he : Enqueues s t (arr s.ai).idx) : CfsInv n procs arr rank t := by
  have hqueue := h.toQueueInv.arrive ht hai he
  have hout := h.new ht hai
  have hi := ht.idx_lt s.ai hai
  have hrank := ht.rank_idx s.ai hai
  have hlt := fun j (hj : j < n) => Enqueues.rank_lt ht hai he hj
  generalize (arr s.ai).idx = i at *
  have hrem := (h.future i hi (by omega)).1
  have hactive : ∀ j < n, Active rank t j ↔ j = i ∨ Active rank s j := by
    intro j hj
    have hone := hburst i hi
    rw [Active, Active, (he.values j).2.1, hlt j hj]
    by_cases hji : j = i
    · rw [hji, hrem]
      exact ⟨fun _ => .inl rfl, fun _ => ⟨.inl rfl, by omega⟩⟩
    · simp [hji]
  refine ⟨hqueue, fun j hj => (he.values j).1.trans (h.nice j hj), fun j hj => ?_, ?_, ?_, ?_, ?_, ?_,
    ?_, ?_⟩
  · rw [(he.values j).2.1]
    exact h.nonneg j hj
  · rw [he.ai]
    exact hai
  · rw [he.now]
    exact h.clock
  · intro k hk
    rw [he.ai] at hk
    rw [he.now]
    by_cases hks : k = s.ai
    · rw [hks]
      exact hdue
    · exact h.past k (by omega)
  · intro j hj hr
    rw [he.ai] at hr
    rw [(he.values j).2.1, (he.values j).2.2.1]
    exact h.future j hj (by omega)
  · intro j
    rw [he.waiting.mem_iff, List.mem_cons, h.mem]
    constructor
    · intro hor
      cases hor with
      | inl heq =>
        rw [heq]
        exact ⟨hi, (hactive i hi).mpr (.inl rfl)⟩
      | inr hold => exact ⟨hold.1, (hactive j hold.1).mpr (.inr hold.2)⟩
    · intro hin
      cases (hactive j hin.1).mp hin.2 with
      | inl heq => exact .inl heq
      | inr hold => exact .inr ⟨hin.1, hold⟩
  · have hnew : ¬ Active rank s i := fun hold => hout ((h.mem i).mpr ⟨hi, hold⟩)
    have hterm : ∀ j ∈ range n, (if Active rank t j then niceWeight (procs j).nice else 0) =
        (if Active rank s j then niceWeight (procs j).nice else 0) +
          if j = i then niceWeight (procs i).nice else 0 := by
      intro j hj
      have hj := mem_range.mp hj
      by_cases hji : j = i
      · rw [hji, if_pos ((hactive i hi).mpr (.inl rfl)), if_neg hnew, if_pos rfl, Int.zero_add]
      · rw [if_neg hji, Int.add_zero]
        by_cases hold : Active rank s j
        · rw [if_pos hold, if_pos ((hactive j hj).mpr (.inr hold))]
        · have hno : ¬ Active rank t j := fun ha => hold (((hactive j hj).mp ha).resolve_left hji)
          rw [if_neg hold, if_neg hno]
    rw [sum_congr rfl hterm, sum_add_distrib, ← h.weights, sum_ite_eq' (range n) i,
      if_pos (mem_range.mpr hi), he.weights, h.nice i hi]
  · intro j hj
    rw [he.waiting.mem_iff, List.mem_cons] at hj
    by_cases hji : j = i
    · rw [hji, he.self]
      exact h.clock
    · rw [he.others j hji]
      exact h.enqueued j (hj.resolve_left hji)

omit hburst in
theorem Account.arrive {p₀ : Proc} (h : Account p₀ late s j) (hai : s.ai < n)
    (he : Enqueues s t (arr s.ai).idx) (hj : rank j < s.ai) : Account p₀ late t j := by
  have hne : j ≠ (arr s.ai).idx := by
    intro heq
    have hrank := ht.rank_idx s.ai hai
    rw [← heq] at hrank
    omega
  constructor
  · intro hin
    rw [he.waiting.mem_iff, List.mem_cons] at hin
    rw [he.others j hne]
    exact h.waits (hin.resolve_left hne)
  · rw [he.others j hne]
    exact h.finished

theorem CfsInv.account (h : CfsInv n procs arr rank s) (hai : s.ai < n)
    (he : Enqueues s t (arr s.ai).idx) : Account (procs (arr s.ai).idx)
      (s.now - (procs (arr s.ai).idx).arrival) t (arr s.ai).idx := by
  have hi := ht.idx_lt s.ai hai
  have hrank := ht.rank_idx s.ai hai
  generalize (arr s.ai).idx = i at *
  obtain ⟨hrem, hwaiting⟩ := h.future i hi (by omega)
  constructor
  · intro _
    rw [he.self]
    show (s.procs i).waiting + ((procs i).burst - (s.procs i).remaining) + _ = s.now - _
    omega
  · intro hzero
    have hone := hburst i hi
    rw [(he.values i).2.1] at hzero
    omega

private theorem CfsInv.arrivals (fuel : Nat) (h : CfsInv n procs arr rank s) :
    CfsInv n procs arr rank (cfsArrive n arr fuel s) ∧
      (cfsArrive n arr fuel s).now = s.now ∧ (cfsArrive n arr fuel s).done = s.done ∧
      s.ai ≤ (cfsArrive n arr fuel s).ai ∧
      (∀ j, ((cfsArrive n arr fuel s).procs j).remaining = (s.procs j).remaining) ∧
      (∀ j < n, rank j < s.ai → ∀ late, Account (procs j) late s j →
        Account (procs j) late (cfsArrive n arr fuel s) j) ∧
      ∀ j < n, s.ai ≤ rank j → rank j < (cfsArrive n arr fuel s).ai →
        Account (procs j) (s.now - (procs j).arrival) (cfsArrive n arr fuel s) j := by
  induction fuel generalizing s with
  | zero =>
    exact ⟨h, rfl, rfl, Nat.le_refl _, fun _ => rfl, fun _ _ _ _ ha => ha,
      fun j _ hle hlt => absurd hlt (Nat.not_lt.mpr hle)⟩
  | succ fuel ih =>
    rw [cfsArrive]
    split
    · next hdue =>
      have he := cfsEnqueue_enqueues s (arr s.ai).idx
      generalize ({ cfsEnqueue s (arr s.ai).idx with ai := s.ai + 1 } : CfsSt) = u at *
      obtain ⟨hinv, hnow, hdone, hai, hrem, hold, hnew⟩ := ih (h.arrive ht hburst hdue.1 hdue.2 he)
      have huai := he.ai
      refine ⟨hinv, hnow.trans he.now, hdone.trans he.done, by omega,
        fun j => (hrem j).trans (he.values j).2.1, fun j hj hlt late ha => ?_, fun j hj hle hlt => ?_⟩
      · exact hold j hj (by omega) late (ha.arrive ht hdue.1 he hlt)
      · by_cases heq : rank j = s.ai
        · have hidx : (arr s.ai).idx = j := by rw [← heq, ht.idx_rank j hj]
          have hacc := h.account ht hburst hdue.1 he
          rw [hidx] at hacc
          exact hold j hj (by omega) _ hacc
        · rw [← he.now]
          exact hnew j hj (by omega) hlt
    · exact ⟨h, rfl, rfl, Nat.le_refl _, fun _ => rfl, fun _ _ _ _ ha => ha,
        fun j _ hle hlt => absurd hlt (Nat.not_lt.mpr hle)⟩

end Arrivals

section Slices

variable {run : Int} {rest : List (Nat × Rat)}

private theorem Serves.active (hs : Serves s t i run rest) (hj : j ≠ i) : Active rank t j ↔ Active rank s j := by
  rw [Active, Active, hs.ai, hs.others j hj]

private theorem CfsInv.serve (h : CfsInv n procs arr rank s) (hs : Serves s t i run rest) :
    CfsInv n procs arr rank t := by
  have hqueue := h.toQueueInv.serve hs
  have h' := h.toQueueInv
  obtain ⟨hi, hactive⟩ := (h.mem i).mp (hs.served h').1
  have hlen := hs.length
  have hleft := hactive.2
  have hstart := hs.start
  have hrem := hs.remaining
  have hself : Active rank t i ↔ (s.procs i).remaining - run ≠ 0 := by
    rw [Active, hs.ai, hrem]
    exact ⟨fun ha => by omega, fun hne => ⟨hactive.1, by omega⟩⟩
  refine ⟨hqueue, fun j hj => ?_, fun j hj => ?_, ?_, ?_, fun k hk => ?_, fun j hj hr => ?_,
    fun j => ?_, ?_, fun j hj => ?_⟩
  · by_cases hji : j = i
    · rw [hji, hs.nice]
      exact h.nice i hi
    · rw [hs.others j hji]
      exact h.nice j hj
  · by_cases hji : j = i
    · rw [hji, hrem]
      omega
    · rw [hs.others j hji]
      exact h.nonneg j hj
  · rw [hs.ai]
    exact h.ai_le
  · have := h.clock
    omega
  · rw [hs.ai] at hk
    have := h.past k hk
    omega
  · rw [hs.ai] at hr
    have hji : j ≠ i := by
      intro heq
      have := hactive.1
      rw [heq] at hr
      omega
    rw [hs.others j hji]
    exact h.future j hj hr
  · by_cases hji : j = i
    · rw [hji, hs.self_waiting h', hself]
      exact ⟨fun hne => ⟨hi, hne⟩, fun hin => hin.2⟩
    · rw [hs.mem_waiting h' hji, h.mem, hs.active hji]
  · have hterm : ∀ j ∈ range n, (if Active rank t j then niceWeight (procs j).nice else 0) =
        (if Active rank s j then niceWeight (procs j).nice else 0) -
          if j = i then if (s.procs i).remaining - run = 0 then niceWeight (procs i).nice else 0
            else 0 := by
      intro j _
      by_cases hji : j = i
      · rw [hji, if_pos hactive, if_pos rfl]
        by_cases hend : (s.procs i).remaining - run = 0
        · rw [if_pos hend, if_neg fun ha => hself.mp ha hend, Int.sub_self]
        · rw [if_neg hend, if_pos (hself.mpr hend), Int.sub_zero]
      · rw [if_neg hji, Int.sub_zero]
        by_cases hold : Active rank s j
        · rw [if_pos hold, if_pos ((hs.active hji).mpr hold)]
        · rw [if_neg hold, if_neg fun ha => hold ((hs.active hji).mp ha)]
    rw [sum_congr rfl hterm, sum_sub_distrib, ← h.weights, sum_ite_eq' (range n) i,
      if_pos (mem_range.mpr hi), hs.weights, h.nice i hi]
  · by_cases hji : j = i
    · rw [hji] at hj
      have := h.clock
      rw [hji, hs.again ((hs.self_waiting h').mp hj)]
      omega
    · rw [hs.others j hji]
      exact h.enqueued j ((hs.mem_waiting h' hji).mp hj)

private theorem Account.serve {p₀ : Proc} (ha : Account p₀ late s j) (h : CfsInv n procs arr rank s)
    (hs : Serves s t i run rest) : Account p₀ late t j := by
  have h' := h.toQueueInv
  by_cases hji : j = i
  · rw [hji] at ha ⊢
    have hin := (hs.served h').1
    have hleft := ((h.mem i).mp hin).2.2
    have hold := ha.waits hin
    have henq := h.enqueued i hin
    have hwaiting := hs.waiting (by omega)
    have hrem := hs.remaining
    constructor
    · intro hagain
      have hnew := hs.again ((hs.self_waiting h').mp hagain)
      omega
    · intro hzero
      have hnew := hs.ended (by omega)
      omega
  · constructor
    · intro hin
      rw [hs.others j hji]
      exact ha.waits ((hs.mem_waiting h' hji).mp hin)
    · rw [hs.others j hji]
      exact ha.finished

end Slices

/-- No arrival is due. -/
def Settled (n : Nat) (arr : Nat → Arrival) (s : CfsSt) : Prop := s.ai < n → s.now < (arr s.ai).t

private theorem cfsArrive_settled (arr : Nat → Arrival) (fuel : Nat) (hfuel : n ≤ s.ai + fuel) :
    Settled n arr (cfsArrive n arr fuel s) := by
  induction fuel generalizing s with
  | zero =>
    intro hai
    change s.ai < n at hai
    omega
  | succ fuel ih =>
    rw [cfsArrive]
    split
    · apply ih
      show n ≤ s.ai + 1 + fuel
      omega
    · next hno =>
      intro hai
      by_contra hlt
      exact hno ⟨hai, by omega⟩

/-- The variant of the loop. -/
def cfsLeft (n : Nat) (arr : Nat → Arrival) (s : CfsSt) : Int :=
  2 * (∑ i ∈ range n, (s.procs i).remaining + ((n : Int) - s.ai)) +
    (if s.ai < n ∧ s.now < (arr s.ai).t then 1 else 0) + if s.done then 0 else 1

/-- The invariant of the loop. -/
structure CfsHead (n : Nat) (procs : Nat → Proc) (arr : Nat → Arrival) (rank : Nat → Nat) (s : CfsSt) :
    Prop where
  inv : CfsInv n procs arr rank s
  drained : s.done = true → waitingOf s = [] ∧ s.ai = n

private theorem CfsInv.moved (h : CfsInv n procs arr rank s) {now : Int} (hnow : s.now ≤ now) (done : Bool) :
    CfsInv n procs arr rank { s with now := now, done := done } :=
  ⟨⟨h.member, h.nodup, h.ordered, h.keys, h.fresh⟩, h.nice, h.nonneg, h.ai_le,
    Int.le_trans h.clock hnow, fun k hk => Int.le_trans (h.past k hk) hnow, h.future, h.mem, h.weights,
    h.enqueued⟩

theorem CfsInv.select (h : CfsInv n procs arr rank s) (hdone : s.done = false)
    (hsettled : Settled n arr s) (hsel : cfsSelect product n arr csCost schedPeriod s = some t) :
    CfsHead n procs arr rank t ∧ s.ai = t.ai ∧
      (∀ j p₀ late, Account p₀ late s j → Account p₀ late t j) ∧
      cfsLeft n arr t < cfsLeft n arr s := by
  have hold : cfsLeft n arr s = 2 * (∑ i ∈ range n, (s.procs i).remaining + ((n : Int) - s.ai)) +
      (if s.ai < n ∧ s.now < (arr s.ai).t then 1 else 0) + 1 := by
    rw [cfsLeft, hdone]
    rfl
  rw [cfsSelect] at hsel
  split at hsel
  · next hempty =>
    have hnone : waitingOf s = [] := by
      rw [waitingOf, Heap.entries, hempty]
      rfl
    split at hsel
    · next hai =>
      cases hsel
      have hlater := hsettled hai
      refine ⟨⟨h.moved (Int.le_of_lt hlater) s.done, fun hstop => ?_⟩, rfl,
        fun j p₀ late ha => ⟨ha.waits, ha.finished⟩, ?_⟩
      · rw [hdone] at hstop
        cases hstop
      · rw [hold, if_pos ⟨hai, hlater⟩, cfsLeft, if_neg fun hlt => Int.lt_irrefl _ hlt.2]
        show _ + 0 + (if s.done then 0 else 1) < _
        rw [hdone]
        simp
    · next hall =>
      cases hsel
      have hle := h.ai_le
      refine ⟨⟨h.moved (Int.le_refl _) true, fun _ => ⟨hnone, ?_⟩⟩, rfl,
        fun j p₀ late ha => ⟨ha.waits, ha.finished⟩, ?_⟩
      · show s.ai = n
        omega
      · rw [hold]
        show 2 * (∑ i ∈ range n, (s.procs i).remaining + ((n : Int) - s.ai)) +
          (if s.ai < n ∧ s.now < (arr s.ai).t then 1 else 0) + 0 < _
        omega
  · next hne =>
    have hs := cfsDispatch_serves (Nat.pos_of_ne_zero hne) hsel
    obtain ⟨hi, hactive⟩ := (h.mem _).mp (hs.served h.toQueueInv).1
    generalize (s.runq.cell 0).1 = i at *
    generalize cfsRunLen product schedPeriod s = run at *
    refine ⟨⟨h.serve hs, fun hstop => ?_⟩, hs.ai.symm, fun j p₀ late ha => ha.serve h hs, ?_⟩
    · rw [hs.done, hdone] at hstop
      cases hstop
    · have hsum := sum_change (f := fun j => (t.procs j).remaining)
        (g := fun j => (s.procs j).remaining) hi fun j hj => by rw [hs.others j hj]
      have hrem := hs.remaining
      have hlen := hs.length
      have hleft := hactive.2
      rw [hold, cfsLeft, hsum, hrem, hs.ai, hs.done, hdone]
      split <;> split <;> simp <;> omega

/-- The context switch and the slice that begin in this turn end at a time that is an int. -/
def ServiceFits (product : Int → Int → Int → Int) (csCost schedPeriod : Int) (u : CfsSt) : Prop :=
  u.runq.n ≠ 0 → u.now + max csCost 0 + cfsRunLen product schedPeriod u ≤ INT_MAX

instance (u : CfsSt) : Decidable (ServiceFits product csCost schedPeriod u) :=
  inferInstanceAs (Decidable (_ → _))

private theorem CfsInv.select_isSome (h : CfsInv n procs arr rank s) :
    (∃ t, cfsSelect product n arr csCost schedPeriod s = some t) ↔
      ServiceFits product csCost schedPeriod s := by
  rw [cfsSelect]
  by_cases hempty : s.runq.n = 0
  · rw [if_pos hempty]
    refine iff_of_true ?_ fun hne => absurd hempty hne
    split
    · exact ⟨_, rfl⟩
    · exact ⟨_, rfl⟩
  · have hfirst : (s.runq.cell 0).1 ∈ waitingOf s := by
      have hbefore := Heap.entries_pop Prod.snd s.runq (Nat.pos_of_ne_zero hempty)
      exact List.mem_map_of_mem (hbefore.mem_iff.mpr List.mem_cons_self)
    have hi := ((h.mem _).mp hfirst).1
    rw [if_neg hempty, cfsDispatch_isSome (h.nonneg _ hi)]
    exact ⟨fun hle _ => hle, fun hall => hall hempty⟩

section Turn

variable (ht : Timetable n (fun i => (procs i).arrival) arr rank)
  (hburst : ∀ i < n, 1 ≤ (procs i).burst)
include ht hburst

private theorem CfsHead.turn (h : CfsHead n procs arr rank s) (hdone : s.done = false)
    (hturn : cfsTurn product n arr csCost schedPeriod s = some t) :
    CfsHead n procs arr rank t ∧ s.ai ≤ t.ai ∧
      (∀ k, s.ai ≤ k → k < n → (arr k).t ≤ s.now → k < t.ai) ∧
      (∀ j < n, rank j < s.ai → ∀ late, Account (procs j) late s j → Account (procs j) late t j) ∧
      (∀ j < n, s.ai ≤ rank j → rank j < t.ai →
        (procs j).arrival ≤ s.now ∧ Account (procs j) (s.now - (procs j).arrival) t j) ∧
      cfsLeft n arr t < cfsLeft n arr s := by
  have hai := h.inv.ai_le
  have hsettled := cfsArrive_settled (n := n) (s := s) arr (n - s.ai) (by omega)
  obtain ⟨hinv, hnow, hflag, hle, hrem, hold, hnew⟩ := h.inv.arrivals ht hburst (n - s.ai)
  rw [cfsTurn] at hturn
  generalize cfsArrive n arr (n - s.ai) s = u at *
  obtain ⟨hhead, hsame, haccount, hless⟩ := hinv.select (hflag.trans hdone) hsettled hturn
  rw [← hsame]
  refine ⟨hhead, hle, fun k hk hkn hdue => ?_, fun j hj hlt late ha => ?_, fun j hj hle' hlt => ⟨?_, ?_⟩,
    ?_⟩
  · by_contra hno
    have hlater := hsettled (by omega)
    have hmono := ht.mono u.ai k (by omega) hkn
    omega
  · exact haccount j _ late (hold j hj hlt late ha)
  · have hpast := hinv.past (rank j) hlt
    rw [ht.time (rank j) (ht.rank_lt j hj), ht.idx_rank j hj, hnow] at hpast
    exact hpast
  · exact haccount j _ _ (hnew j hj hle' hlt)
  · have hsum : ∑ i ∈ range n, (u.procs i).remaining = ∑ i ∈ range n, (s.procs i).remaining :=
      sum_congr rfl fun i _ => hrem i
    have hle : cfsLeft n arr u ≤ cfsLeft n arr s := by
      rw [cfsLeft, cfsLeft, hsum, hflag, hnow]
      by_cases heq : u.ai = s.ai
      · rw [heq]
      · split <;> split <;> omega
    omega

end Turn

/-- The queue at a dispatch: each process that has arrived and is not finished is in it once, and
`sum_weights` is the sum of their weights. -/
structure DispatchOk (n : Nat) (procs : Nat → Proc) (s : CfsSt) : Prop where
  once : (waitingOf s).Nodup
  queue : ∀ i, i ∈ waitingOf s ↔ i < n ∧ (procs i).arrival ≤ s.now ∧ 0 < (s.procs i).remaining
  weights : s.sumWeights = ∑ i ∈ range n,
    if (procs i).arrival ≤ s.now ∧ 0 < (s.procs i).remaining then niceWeight (procs i).nice else 0

section Statements

variable (product : Int → Int → Int → Int) (n : Nat) (procs : Nat → Proc) (csCost schedPeriod : Int)

/-- `simulate_cfs` ends with the time of every process accounted for, and its queue is in order at
every dispatch. -/
def CfsAccounts : Prop :=
  (∃ t, CfsReturns product n (fun i => (procs i).reset) csCost schedPeriod t ∧ ∀ i < n,
    (t.procs i).completion - (procs i).arrival = (procs i).burst + (t.procs i).waiting) ∧
  ∀ s, CfsHeads product n (fun i => (procs i).reset) csCost schedPeriod s → s.done = false →
    DispatchOk n procs (cfsArrive n (arrivalsOf n fun i => (procs i).reset) (n - s.ai) s)

/-- In front of every turn no arrival that was not noticed lies in the past. -/
def Prompt : Prop :=
  ∀ s, CfsHeads product n (fun i => (procs i).reset) csCost schedPeriod s → s.done = false →
    ∀ k, s.ai ≤ k → k < n → s.now ≤ (arrivalsOf n (fun i => (procs i).reset) k).t

/-- Every slice of the run ends at a time that is an int. -/
def CfsFits : Prop :=
  ∀ s, CfsHeads product n (fun i => (procs i).reset) csCost schedPeriod s → s.done = false →
    ServiceFits product csCost schedPeriod
      (cfsArrive n (arrivalsOf n fun i => (procs i).reset) (n - s.ai) s)

end Statements

private theorem cfsHead_start (hburst : ∀ i < n, 1 ≤ (procs i).burst) :
    CfsHead n procs arr rank (cfsStart fun i => (procs i).reset) := by
  refine ⟨⟨queueInv_start, fun _ _ => rfl, fun i hi => ?_, Nat.zero_le n, Int.le_refl 0, fun k hk => ?_,
    fun _ _ _ => ⟨rfl, rfl⟩, fun i => ?_, ?_, fun i hi => ?_⟩, fun hstop => ?_⟩
  · show 0 ≤ (procs i).burst
    have := hburst i hi
    omega
  · exact absurd hk (Nat.not_lt_zero k)
  · exact iff_of_false List.not_mem_nil fun hin => absurd hin.2.1 (Nat.not_lt_zero _)
  · apply Eq.symm
    apply sum_eq_zero
    intro i _
    exact if_neg fun hin => absurd hin.1 (Nat.not_lt_zero _)
  · exact absurd hi List.not_mem_nil
  · cases hstop

section Claim

variable (ht : Timetable n (fun i => (procs i).arrival) arr rank)
  (hburst : ∀ i < n, 1 ≤ (procs i).burst)
include ht hburst

theorem CfsHead.dispatchOk (h : CfsHead n procs arr rank s) :
    DispatchOk n procs (cfsArrive n arr (n - s.ai) s) := by
  have hai := h.inv.ai_le
  have hsettled := cfsArrive_settled (n := n) (s := s) arr (n - s.ai) (by omega)
  have hinv := (h.inv.arrivals ht hburst (n - s.ai)).1
  generalize cfsArrive n arr (n - s.ai) s = u at *
  have harrived : ∀ i < n, rank i < u.ai ↔ (procs i).arrival ≤ u.now := by
    intro i hi
    have htime := ht.time (rank i) (ht.rank_lt i hi)
    rw [ht.idx_rank i hi] at htime
    constructor
    · intro hlt
      rw [← htime]
      exact hinv.past (rank i) hlt
    · intro hle
      by_contra hno
      have hlt := ht.rank_lt i hi
      have hlater := hsettled (by omega)
      have hmono := ht.mono u.ai (rank i) (by omega) hlt
      omega
  refine ⟨hinv.nodup, fun i => ?_, ?_⟩
  · rw [hinv.mem]
    constructor
    · intro hin
      exact ⟨hin.1, (harrived i hin.1).mp hin.2.1, hin.2.2⟩
    · intro hin
      exact ⟨hin.1, (harrived i hin.1).mpr hin.2.1, hin.2.2⟩
  · rw [hinv.weights]
    apply sum_congr rfl
    intro i hi
    have hi := mem_range.mp hi
    by_cases hactive : Active rank u i
    · rw [if_pos hactive, if_pos ⟨(harrived i hi).mp hactive.1, hactive.2⟩]
    · rw [if_neg hactive, if_neg fun hin => hactive ⟨(harrived i hi).mpr hin.1, hin.2⟩]

omit ht hburst in
theorem CfsHead.finished (h : CfsHead n procs arr rank s) (hrank : ∀ i < n, rank i < n)
    (hdone : s.done = true) (hi : i < n) : rank i < s.ai ∧ (s.procs i).remaining = 0 := by
  obtain ⟨hnone, hall⟩ := h.drained hdone
  have hlt := hrank i hi
  refine ⟨by omega, ?_⟩
  have hnonneg := h.inv.nonneg i hi
  by_contra hne
  have hin := (h.inv.mem i).mpr ⟨hi, by omega, by omega⟩
  rw [hnone] at hin
  exact absurd hin List.not_mem_nil

end Claim

section Accounts

variable (hburst : ∀ i < n, 1 ≤ (procs i).burst)
include hburst

private theorem cfsHead_of_heads
    (ht : Timetable n (fun i => (procs i).arrival) (arrivalsOf n fun i => (procs i).reset) rank)
    (h : CfsHeads product n (fun i => (procs i).reset) csCost schedPeriod s) :
    CfsHead n procs (arrivalsOf n fun i => (procs i).reset) rank s := by
  apply h.2.invariant (cfsHead_start hburst)
  intro s t hs hgoes hrun
  exact (CfsHead.turn ht hburst hs (by simpa using hgoes) hrun).1

theorem CfsHead.turn_isSome
    (ht : Timetable n (fun i => (procs i).arrival) arr rank) (h : CfsHead n procs arr rank s) :
    (∃ t, cfsTurn product n arr csCost schedPeriod s = some t) ↔
      ServiceFits product csCost schedPeriod (cfsArrive n arr (n - s.ai) s) :=
  (h.inv.arrivals ht hburst (n - s.ai)).1.select_isSome

private theorem CfsAccounts.fits (h : CfsAccounts product n procs csCost schedPeriod) :
    CfsFits product n procs csCost schedPeriod := by
  obtain ⟨rank, ht⟩ : ∃ rank, Timetable n (fun i => (procs i).arrival)
      (arrivalsOf n fun i => (procs i).reset) rank := arrivalsOf_timetable
  obtain ⟨t, hreturns, _⟩ := h.1
  intro s hheads hdone
  rw [← (cfsHead_of_heads hburst ht hheads).turn_isSome hburst ht]
  obtain ⟨u, hu, _⟩ := hreturns.2.turn hheads.2 (by simp [hdone])
  exact ⟨u, hu⟩

private theorem CfsAccounts.prompt (h : CfsAccounts product n procs csCost schedPeriod) :
    Prompt product n procs csCost schedPeriod := by
  obtain ⟨rank, ht⟩ : ∃ rank, Timetable n (fun i => (procs i).arrival)
      (arrivalsOf n fun i => (procs i).reset) rank := arrivalsOf_timetable
  obtain ⟨t, hreturns, hall⟩ := h.1
  intro s hheads hdone k hk hkn
  by_contra hpast
  have hinv := cfsHead_of_heads hburst ht hheads
  obtain ⟨u, hturn, hrest⟩ := hreturns.2.turn hheads.2 (by simp [hdone])
  obtain ⟨hnext, hai, hdue, _, hnew, _⟩ := CfsHead.turn ht hburst hinv hdone hturn
  have hj := ht.idx_lt k hkn
  have hrank := ht.rank_idx k hkn
  have htime := ht.time k hkn
  generalize (arrivalsOf n (fun i => (procs i).reset) k).idx = j at hj hrank htime
  have hlate := hnew j hj (by omega) (by rw [hrank]; exact hdue k hk hkn (by omega))
  have hranked := hdue k hk hkn (by omega)
  obtain ⟨⟨hend, hjai, hacc⟩, hstop⟩ := hrest.invariant
    (I := fun u => CfsHead n procs (arrivalsOf n fun i => (procs i).reset) rank u ∧ rank j < u.ai ∧
      Account (procs j) (s.now - (procs j).arrival) u j) ⟨hnext, by omega, hlate.2⟩
    fun u v hu hgoes hrun => by
      obtain ⟨hv, hle, _, hold, _⟩ := CfsHead.turn ht hburst hu.1 (by simpa using hgoes) hrun
      exact ⟨hv, by omega, hold j hj hu.2.1 _ hu.2.2⟩
  have hfin := (hend.finished ht.rank_lt (by simpa using hstop) hj).2
  have := hacc.finished hfin
  have := hall j hj
  omega

private theorem cfsAccounts_of_prompt (hn : n ≤ MAXP) (h : Prompt product n procs csCost schedPeriod)
    (hfits : CfsFits product n procs csCost schedPeriod) :
    CfsAccounts product n procs csCost schedPeriod := by
  obtain ⟨rank, ht⟩ : ∃ rank, Timetable n (fun i => (procs i).arrival)
      (arrivalsOf n fun i => (procs i).reset) rank := arrivalsOf_timetable
  constructor
  · have hloop : ∃ t, Returns (fun s => !s.done)
        (cfsBody product n (fun i => (procs i).reset) csCost schedPeriod)
        (cfsStart fun i => (procs i).reset) t ∧
          (CfsHeads product n (fun i => (procs i).reset) csCost schedPeriod t ∧
            CfsHead n procs (arrivalsOf n fun i => (procs i).reset) rank t ∧
            ∀ i < n, rank i < t.ai → Account (procs i) 0 t i) ∧ (!t.done) = false := by
      apply returns_of_variant (fun s => (cfsLeft n (arrivalsOf n fun i => (procs i).reset) s).toNat) _
        ⟨⟨hn, .refl⟩, cfsHead_start hburst, fun i _ hlt => absurd hlt (Nat.not_lt_zero _)⟩
      intro s hs hgoes
      obtain ⟨hheads, hinv, hacc⟩ := hs
      have hdone : s.done = false := by simpa using hgoes
      obtain ⟨t, hturn⟩ := (hinv.turn_isSome hburst ht).mpr (hfits s hheads hdone)
      obtain ⟨hnext, _, _, hold, hnew, hless⟩ := CfsHead.turn ht hburst hinv hdone hturn
      refine ⟨t, hturn, ⟨⟨hn, hheads.2.tail ⟨hgoes, hturn⟩⟩, hnext, fun i hi hlt => ?_⟩, ?_⟩
      · by_cases hwas : rank i < s.ai
        · exact hold i hi hwas 0 (hacc i hi hwas)
        · obtain ⟨hle, hlate⟩ := hnew i hi (by omega) hlt
          have hge := h s hheads hdone (rank i) (by omega) (ht.rank_lt i hi)
          rw [ht.time (rank i) (ht.rank_lt i hi), ht.idx_rank i hi] at hge
          have hzero : s.now - (procs i).arrival = 0 := by omega
          rwa [hzero] at hlate
      · have hsum : 0 ≤ ∑ i ∈ range n, (s.procs i).remaining :=
          sum_nonneg fun i hi => hinv.inv.nonneg i (mem_range.mp hi)
        have hle := hinv.inv.ai_le
        have hpos : 0 < cfsLeft n (arrivalsOf n fun i => (procs i).reset) s := by
          rw [cfsLeft, hdone]
          split <;> simp <;> omega
        omega
    obtain ⟨t, hreturns, ⟨_, hinv, hacc⟩, hstop⟩ := hloop
    refine ⟨t, ⟨hn, hreturns⟩, fun i hi => ?_⟩
    obtain ⟨hlt, hzero⟩ := hinv.finished ht.rank_lt (by simpa using hstop) hi
    have := (hacc i hi hlt).finished hzero
    omega
  · intro s hheads _
    exact (cfsHead_of_heads hburst ht hheads).dispatchOk ht hburst

/-- `simulate_cfs` accounts for the time of all processes if and only if it notices each of them at its
arrival and its clock does not overflow. -/
theorem simulate_cfs_accounts_iff (hn : n ≤ MAXP) :
    CfsAccounts product n procs csCost schedPeriod ↔
      Prompt product n procs csCost schedPeriod ∧ CfsFits product n procs csCost schedPeriod := by
  constructor
  · exact fun h => ⟨h.prompt hburst, h.fits hburst⟩
  · exact fun h => cfsAccounts_of_prompt hburst hn h.1 h.2

end Accounts

/-- Two processes of different weights share the processor, and a third one arrives when both are
finished. -/
def sharers : Nat → Proc
  | 0 => ⟨1, 0, 30, 0, 0, 0, 0, 0, 0, 0, 0, 0⟩
  | 1 => ⟨2, 0, 12, 0, 5, 0, 0, 0, 0, 0, 0, 0⟩
  | _ => ⟨3, 100, 7, 0, -5, 0, 0, 0, 0, 0, 0, 0⟩

theorem simulate_cfs_accounts_three : CfsAccounts wholeSlice 3 sharers 1 24 := by
  have hburst : ∀ i < 3, 1 ≤ (sharers i).burst := by decide
  have hpass : headsPass (fun s => !s.done) (cfsBody wholeSlice 3 (fun i => (sharers i).reset) 1 24)
      (fun s => decide ((∀ k < 3, s.ai ≤ k →
          s.now ≤ (arrivalsOf 3 (fun i => (sharers i).reset) k).t) ∧
        ServiceFits wholeSlice 1 24
          (cfsArrive 3 (arrivalsOf 3 fun i => (sharers i).reset) (3 - s.ai) s))) 40
      (cfsStart fun i => (sharers i).reset) = true := by
    decide +kernel
  refine (simulate_cfs_accounts_iff hburst (by decide)).mpr ⟨fun s hheads _ k hk hkn => ?_,
    fun s hheads _ => ?_⟩
  · exact (of_decide_eq_true (hheads.2.pass hpass)).1 k hkn hk
  · exact (of_decide_eq_true (hheads.2.pass hpass)).2

/-- A process that arrives within the slice of the other one. -/
theorem simulate_cfs_late :
    ¬ CfsAccounts wholeSlice 2 (fun i => ⟨i + 1, i, 10, 0, 0, 0, 0, 0, 0, 0, 0, 0⟩) 0 10 := by
  intro h
  have hburst : (1 : Int) ≤ 10 := by decide
  have hprompt := h.prompt fun _ _ => hburst
  have hstep : ((cfsBody wholeSlice 2 (fun i => (Proc.reset
      ⟨i + 1, i, 10, 0, 0, 0, 0, 0, 0, 0, 0, 0⟩)) 0 10 (cfsStart fun i => (Proc.reset
        ⟨i + 1, i, 10, 0, 0, 0, 0, 0, 0, 0, 0, 0⟩))).any fun s => !s.done && s.ai == 1 &&
      !decide (s.now ≤ (arrivalsOf 2 (fun i => (Proc.reset
        ⟨i + 1, i, 10, 0, 0, 0, 0, 0, 0, 0, 0, 0⟩)) 1).t)) = true := by
    decide +kernel
  obtain ⟨s, hs, hend⟩ := (Option.any_eq_true _ _).mp hstep
  simp only [Bool.and_eq_true, Bool.not_eq_true', beq_iff_eq, decide_eq_false_iff_not] at hend
  exact hend.2 (hprompt s ⟨by decide, .single ⟨rfl, hs⟩⟩ hend.1.1 1 (by omega) (by decide))

end CseOs.WindowsLinux
