import CseOs.WindowsLinux.Cfs

/-!
# The run queue of `simulate_cfs`

What an arrival and a slice do to the state. The queue holds indices with their virtual run times, the
least of them first.
-/

namespace CseOs.WindowsLinux

open Framework

variable {n i j : Nat} {procs : Nat → Proc} {arr : Nat → Arrival} {rank : Nat → Nat}
  {csCost schedPeriod : Int} {s t : CfsSt}

/-- The processes in the run queue. -/
def waitingOf (s : CfsSt) : List Nat := s.runq.entries.map Prod.fst

/-- The queue holds some of the processes that were noticed, each of them once and with its virtual run
time as the key. -/
structure QueueInv (n : Nat) (rank : Nat → Nat) (s : CfsSt) : Prop where
  member : ∀ i ∈ waitingOf s, i < n ∧ rank i < s.ai
  nodup : (waitingOf s).Nodup
  ordered : Heap.Ordered Prod.snd s.runq.n s.runq.cell
  keys : ∀ e ∈ s.runq.entries, e.2 = (s.procs e.1).vruntime
  fresh : ∀ i < n, s.ai ≤ rank i → (s.procs i).vruntime = 0

theorem queueInv_start : QueueInv n rank (cfsStart fun i => (procs i).reset) :=
  ⟨fun _ hi => absurd hi List.not_mem_nil, List.nodup_nil, fun i _ hi => absurd hi (Nat.not_lt_zero i),
    fun _ he => absurd he List.not_mem_nil, fun _ _ _ => rfl⟩

/-- What the arrival of the process `i` does. -/
structure Enqueues (s t : CfsSt) (i : Nat) : Prop where
  now : t.now = s.now
  ai : t.ai = s.ai + 1
  done : t.done = s.done
  others : ∀ j ≠ i, t.procs j = s.procs j
  self : t.procs i = { s.procs i with lastEnq := s.now }
  entries : t.runq.entries.Perm ((i, (s.procs i).vruntime) :: s.runq.entries)
  ordered : Heap.Ordered Prod.snd s.runq.n s.runq.cell → Heap.Ordered Prod.snd t.runq.n t.runq.cell
  weights : t.sumWeights = s.sumWeights + niceWeight (s.procs i).nice

theorem cfsEnqueue_enqueues (s : CfsSt) (i : Nat) :
    Enqueues s { cfsEnqueue s i with ai := s.ai + 1 } i :=
  ⟨rfl, rfl, rfl, fun _ hj => Function.update_of_ne hj _ _, Function.update_self _ _ _,
    Heap.entries_push s.runq _, fun ho => ho.push, rfl⟩

theorem Enqueues.waiting (he : Enqueues s t i) : (waitingOf t).Perm (i :: waitingOf s) :=
  he.entries.map Prod.fst

theorem Enqueues.values (he : Enqueues s t i) (j : Nat) : (t.procs j).nice = (s.procs j).nice ∧
    (t.procs j).remaining = (s.procs j).remaining ∧ (t.procs j).waiting = (s.procs j).waiting ∧
    (t.procs j).vruntime = (s.procs j).vruntime ∧ (t.procs j).completion = (s.procs j).completion := by
  by_cases hji : j = i
  · rw [hji, he.self]
    exact ⟨rfl, rfl, rfl, rfl, rfl⟩
  · rw [he.others j hji]
    exact ⟨rfl, rfl, rfl, rfl, rfl⟩

section Arrivals

variable (ht : Timetable n (fun i => (procs i).arrival) arr rank)
include ht

/-- The next arrival is the only process that becomes active. -/
theorem Enqueues.rank_lt (hai : s.ai < n) (he : Enqueues s t (arr s.ai).idx) (hj : j < n) :
    rank j < t.ai ↔ j = (arr s.ai).idx ∨ rank j < s.ai := by
  rw [he.ai]
  constructor
  · intro hlt
    by_cases heq : rank j = s.ai
    · left
      rw [← ht.idx_rank j hj, heq]
    · right
      omega
  · intro hor
    cases hor with
    | inl heq =>
      rw [heq, ht.rank_idx s.ai hai]
      exact Nat.lt_succ_self _
    | inr hlt => exact Nat.lt_succ_of_lt hlt

theorem QueueInv.new (h : QueueInv n rank s) (hai : s.ai < n) : (arr s.ai).idx ∉ waitingOf s := by
  intro hold
  have hlt := (h.member _ hold).2
  rw [ht.rank_idx s.ai hai] at hlt
  exact Nat.lt_irrefl _ hlt

theorem QueueInv.arrive (h : QueueInv n rank s) (hai : s.ai < n) (he : Enqueues s t (arr s.ai).idx) :
    QueueInv n rank t := by
  have hlt := fun j (hj : j < n) => Enqueues.rank_lt ht hai he hj
  have hout := h.new ht hai
  have hi := ht.idx_lt s.ai hai
  generalize (arr s.ai).idx = i at *
  refine ⟨fun j hj => ?_, ?_, he.ordered h.ordered, fun e hin => ?_, fun j hj hr => ?_⟩
  · rw [he.waiting.mem_iff, List.mem_cons] at hj
    cases hj with
    | inl heq =>
      rw [heq]
      exact ⟨hi, (hlt i hi).mpr (.inl rfl)⟩
    | inr hold =>
      have hj := h.member j hold
      exact ⟨hj.1, (hlt j hj.1).mpr (.inr hj.2)⟩
  · rw [he.waiting.nodup_iff, List.nodup_cons]
    exact ⟨hout, h.nodup⟩
  · rw [(he.values e.1).2.2.2.1]
    cases List.mem_cons.mp (he.entries.mem_iff.mp hin) with
    | inl heq => rw [heq]
    | inr hold => exact h.keys e hold
  · rw [he.ai] at hr
    rw [(he.values j).2.2.2.1]
    exact h.fresh j hj (by omega)

end Arrivals

/-- What the slice of the process `i` does, of the length `run`. The entries `rest` stay in the queue. -/
structure Serves (s t : CfsSt) (i : Nat) (run : Int) (rest : List (Nat × Rat)) : Prop where
  first : (s.runq.cell 0).1 = i
  length : run ≤ (s.procs i).remaining ∧ (1 ≤ run ∨ run = (s.procs i).remaining)
  start : s.now ≤ t.now - run
  ai : t.ai = s.ai
  done : t.done = s.done
  others : ∀ j ≠ i, t.procs j = s.procs j
  nice : (t.procs i).nice = (s.procs i).nice
  remaining : (t.procs i).remaining = (s.procs i).remaining - run
  waiting : (s.procs i).lastEnq ≠ -1 →
    (t.procs i).waiting = (s.procs i).waiting + (t.now - run - (s.procs i).lastEnq)
  vruntime : (t.procs i).vruntime =
    (s.procs i).vruntime + (run : Rat) * (512 / (niceWeight (s.procs i).nice : Rat))
  ended : (s.procs i).remaining - run = 0 → (t.procs i).completion = t.now
  again : (s.procs i).remaining - run ≠ 0 → (t.procs i).lastEnq = t.now
  before : s.runq.entries.Perm (s.runq.cell 0 :: rest)
  entries : t.runq.entries.Perm
    (if (s.procs i).remaining - run = 0 then rest else (i, (t.procs i).vruntime) :: rest)
  ordered : Heap.Ordered Prod.snd s.runq.n s.runq.cell → Heap.Ordered Prod.snd t.runq.n t.runq.cell
  weights : t.sumWeights = s.sumWeights -
    if (s.procs i).remaining - run = 0 then niceWeight (s.procs i).nice else 0

private theorem cfsSlice_pos (product : Int → Int → Int → Int) (schedPeriod sumWeights w : Int) :
    1 ≤ cfsSlice product schedPeriod sumWeights w := by
  rw [cfsSlice]
  split <;> omega

private theorem cfsRunLen_length (product : Int → Int → Int → Int) (schedPeriod : Int) (s : CfsSt) :
    cfsRunLen product schedPeriod s ≤ (s.procs (s.runq.cell 0).1).remaining ∧
      (1 ≤ cfsRunLen product schedPeriod s ∨
        cfsRunLen product schedPeriod s = (s.procs (s.runq.cell 0).1).remaining) := by
  have hslice := cfsSlice_pos product schedPeriod s.sumWeights
    (niceWeight (s.procs (s.runq.cell 0).1).nice)
  refine ⟨runLen_le _ _, ?_⟩
  rw [cfsRunLen]
  cases runLen_cases (s.procs (s.runq.cell 0).1) (cfsSlice product schedPeriod s.sumWeights
    (niceWeight (s.procs (s.runq.cell 0).1).nice)) with
  | inl hall => exact .inr hall
  | inr hpart =>
    left
    rw [hpart]
    exact hslice

private theorem cfsServe_serves {start run : Int} (hn : 0 < s.runq.n) (hlater : s.now ≤ start)
    (hlength : run ≤ (s.procs (s.runq.cell 0).1).remaining ∧
      (1 ≤ run ∨ run = (s.procs (s.runq.cell 0).1).remaining)) :
    Serves s (cfsServe s start run (start + run)) (s.runq.cell 0).1 run
      (s.runq.pop Prod.snd).entries := by
  have hbefore := Heap.entries_pop Prod.snd s.runq hn
  rw [cfsServe]
  generalize hi : (s.runq.cell 0).1 = i at *
  have hwaiting : (s.procs i).lastEnq ≠ -1 →
      (cfsRun start run (s.procs i)).waiting = (s.procs i).waiting + (start - (s.procs i).lastEnq) := by
    intro hne
    exact if_pos hne
  by_cases hend : (s.procs i).remaining - run = 0
  · have hle : (cfsRun start run (s.procs i)).remaining ≤ 0 := Int.le_of_eq hend
    simp only [if_pos hle]
    refine ⟨hi, hlength, ?_, rfl, rfl, fun j hj => Function.update_of_ne hj _ _, ?_, ?_, ?_, ?_, ?_,
      fun hno => absurd hend hno, hbefore, ?_, fun ho => ho.pop, ?_⟩
    · show s.now ≤ start + run - run
      omega
    · simp only [Function.update_self]
      rfl
    · simp only [Function.update_self]
      rfl
    · intro hne
      simp only [Function.update_self]
      rw [hwaiting hne]
      omega
    · simp only [Function.update_self]
      rfl
    · intro _
      simp only [Function.update_self]
    · rw [if_pos hend]
    · rw [if_pos hend]
      rfl
  · have hgt : ¬ (cfsRun start run (s.procs i)).remaining ≤ 0 := by
      show ¬ (s.procs i).remaining - run ≤ 0
      omega
    simp only [if_neg hgt]
    refine ⟨hi, hlength, ?_, rfl, rfl, fun j hj => Function.update_of_ne hj _ _, ?_, ?_, ?_, ?_,
      fun hzero => absurd hzero hend, fun _ => ?_, hbefore, ?_, fun ho => ho.pop.push, ?_⟩
    · show s.now ≤ start + run - run
      omega
    · simp only [Function.update_self]
      rfl
    · simp only [Function.update_self]
      rfl
    · intro hne
      simp only [Function.update_self]
      rw [hwaiting hne]
      omega
    · simp only [Function.update_self]
      rfl
    · simp only [Function.update_self]
    · rw [if_neg hend]
      simp only [Function.update_self]
      exact Heap.entries_push _ _
    · rw [if_neg hend, Int.sub_zero]

theorem cfsDispatch_serves {product : Int → Int → Int → Int} (hn : 0 < s.runq.n)
    (ht : cfsDispatch product csCost schedPeriod s = some t) :
    Serves s t (s.runq.cell 0).1 (cfsRunLen product schedPeriod s)
      (s.runq.pop Prod.snd).entries := by
  obtain ⟨start, hstart, hrest⟩ := Option.bind_eq_some_iff.mp ht
  obtain ⟨stop, hstop, hserve⟩ := Option.bind_eq_some_iff.mp hrest
  have hswitch := (switched_eq_some.mp hstart).2
  cases (advance_eq_some.mp hstop).2
  cases hserve
  exact cfsServe_serves hn (by omega) (cfsRunLen_length product schedPeriod s)

/-- The clock fits an int up to the end of the slice that begins. -/
theorem cfsDispatch_isSome {product : Int → Int → Int → Int}
    (hnonneg : 0 ≤ (s.procs (s.runq.cell 0).1).remaining) :
    (∃ t, cfsDispatch product csCost schedPeriod s = some t) ↔
      s.now + max csCost 0 + cfsRunLen product schedPeriod s ≤ INT_MAX := by
  have hrun := cfsRunLen_length product schedPeriod s
  constructor
  · intro h
    obtain ⟨t, ht⟩ := h
    obtain ⟨start, hstart, hrest⟩ := Option.bind_eq_some_iff.mp ht
    obtain ⟨stop, hstop, _⟩ := Option.bind_eq_some_iff.mp hrest
    rw [← (switched_eq_some.mp hstart).2]
    exact (advance_eq_some.mp hstop).1
  · intro h
    have hstart : switched csCost s.now = some (s.now + max csCost 0) :=
      switched_eq_some.mpr ⟨fun _ => by omega, rfl⟩
    rw [cfsDispatch, hstart, Option.bind_eq_bind, Option.bind_some, advance_eq_some.mpr ⟨h, rfl⟩]
    exact ⟨_, rfl⟩

section Slices

variable {run : Int} {rest : List (Nat × Rat)}

/-- The process that is served is in the queue, and the others stay in the queue. -/
theorem Serves.served (hs : Serves s t i run rest) (h : QueueInv n rank s) :
    i ∈ waitingOf s ∧ i ∉ rest.map Prod.fst ∧ (rest.map Prod.fst).Nodup ∧
      ∀ j ≠ i, j ∈ rest.map Prod.fst ↔ j ∈ waitingOf s := by
  have hwaiting : (waitingOf s).Perm (i :: rest.map Prod.fst) := by
    have := hs.before.map Prod.fst
    rwa [List.map_cons, hs.first] at this
  have hnodup := hwaiting.nodup_iff.mp h.nodup
  obtain ⟨hout, hrest⟩ := List.nodup_cons.mp hnodup
  refine ⟨hwaiting.mem_iff.mpr List.mem_cons_self, hout, hrest, fun j hj => ?_⟩
  rw [hwaiting.mem_iff, List.mem_cons]
  simp [hj]

theorem Serves.mem_waiting (hs : Serves s t i run rest) (h : QueueInv n rank s) (hj : j ≠ i) :
    j ∈ waitingOf t ↔ j ∈ waitingOf s := by
  rw [← (hs.served h).2.2.2 j hj, waitingOf, (hs.entries.map Prod.fst).mem_iff]
  split
  · exact Iff.rfl
  · rw [List.map_cons, List.mem_cons]
    simp [hj]

theorem Serves.self_waiting (hs : Serves s t i run rest) (h : QueueInv n rank s) :
    i ∈ waitingOf t ↔ (s.procs i).remaining - run ≠ 0 := by
  rw [waitingOf, (hs.entries.map Prod.fst).mem_iff]
  split
  · next hend => exact iff_of_false (hs.served h).2.1 (fun hno => hno hend)
  · next hmore => exact iff_of_true List.mem_cons_self hmore

theorem QueueInv.serve (h : QueueInv n rank s) (hs : Serves s t i run rest) : QueueInv n rank t := by
  obtain ⟨hin, hout, hrest, hothers⟩ := hs.served h
  have hi := h.member i hin
  refine ⟨fun j hj => ?_, ?_, hs.ordered h.ordered, fun e hin => ?_, fun j hj hr => ?_⟩
  · rw [hs.ai]
    by_cases hji : j = i
    · rw [hji]
      exact hi
    · exact h.member j ((hs.mem_waiting h hji).mp hj)
  · rw [waitingOf, (hs.entries.map Prod.fst).nodup_iff]
    split
    · exact hrest
    · exact List.nodup_cons.mpr ⟨hout, hrest⟩
  · have hold : e ∈ rest → e.2 = (t.procs e.1).vruntime := by
      intro hin
      have hne : e.1 ≠ i := fun heq => hout (heq ▸ List.mem_map_of_mem hin)
      rw [hs.others e.1 hne]
      exact h.keys e (hs.before.mem_iff.mpr (List.mem_cons_of_mem _ hin))
    have hin := hs.entries.mem_iff.mp hin
    split at hin
    · exact hold hin
    · cases List.mem_cons.mp hin with
      | inl heq => rw [heq]
      | inr hin => exact hold hin
  · rw [hs.ai] at hr
    have hji : j ≠ i := by
      intro heq
      rw [heq] at hr
      omega
    rw [hs.others j hji]
    exact h.fresh j hj hr

end Slices

end CseOs.WindowsLinux
