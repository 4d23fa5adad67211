import CseOs.WindowsLinux.PriorityRr
import Mathlib.Algebra.Order.Ring.Int

/-!
# The schedule of `simulate_windows`

Every process is noticed at its arrival, although the clock goes back for it, and from then on its time
is either waited or run.
-/

namespace CseOs.WindowsLinux

open Framework Finset

variable {n i j k lvl idx : Nat} {procs : Nat → Proc} {arr : Nat → Arrival} {rank : Nat → Nat}
  {csCost q : Int} {s t : WinSt}

/-- The number of entries of the process `i` in the queues. -/
def queued (s : WinSt) (i : Nat) : Int := ∑ l ∈ range 16, ((s.queues l).count i : Int)

/-- The number of all entries. -/
def entries (s : WinSt) : Int := ∑ l ∈ range 16, ((s.queues l).length : Int)

private theorem queued_pos (hlvl : lvl < 16) (hin : i ∈ s.queues lvl) : 0 < queued s i := by
  have hterm : ∀ l ∈ range 16, (0 : Int) ≤ ((s.queues l).count i : Int) :=
    fun _ _ => Int.natCast_nonneg _
  have hle := single_le_sum hterm (mem_range.mpr hlvl)
  have hone := List.count_pos_iff.mpr hin
  rw [queued]
  omega

private theorem winLevel_lt (p : Proc) : winLevel p < 16 := by
  rw [winLevel, clamp]
  split
  · decide
  · split <;> omega

private theorem queued_enqueue (s : WinSt) (idx j : Nat) :
    queued (winEnqueue s idx) j = queued s j + if j = idx then 1 else 0 := by
  have hsum := sum_update (fun _ (q : List Nat) => (q.count j : Int)) s.queues
    (s.queues (winLevel (s.procs idx)) ++ [idx]) (winLevel_lt (s.procs idx))
  refine hsum.trans ?_
  rw [queued, List.count_append, List.count_singleton]
  by_cases hji : j = idx
  · simp [hji]
  · simp [hji, Ne.symm hji]

private theorem entries_enqueue (s : WinSt) (idx : Nat) : entries (winEnqueue s idx) = entries s + 1 := by
  have hsum := sum_update (fun _ (q : List Nat) => (q.length : Int)) s.queues
    (s.queues (winLevel (s.procs idx)) ++ [idx]) (winLevel_lt (s.procs idx))
  refine hsum.trans ?_
  rw [entries, List.length_append, List.length_singleton]
  omega

private theorem mem_enqueue {l : Nat} (h : j ∈ (winEnqueue s idx).queues l) : j = idx ∨ j ∈ s.queues l := by
  change j ∈ Function.update s.queues (winLevel (s.procs idx))
    (s.queues (winLevel (s.procs idx)) ++ [idx]) l at h
  by_cases hlvl : l = winLevel (s.procs idx)
  · rw [hlvl, Function.update_self] at h
    rw [hlvl]
    cases List.mem_append.mp h with
    | inl hold => exact .inr hold
    | inr hnew => exact .inl (List.mem_singleton.mp hnew)
  · rw [Function.update_of_ne hlvl] at h
    exact .inr h

private theorem queued_pop {rest : List Nat} (hlvl : lvl < 16) (hq : s.queues lvl = idx :: rest) (j : Nat) :
    queued (winPop s lvl) j = queued s j - if j = idx then 1 else 0 := by
  have hsum := sum_update (fun _ (q : List Nat) => (q.count j : Int)) s.queues
    (s.queues lvl).tail hlvl
  refine hsum.trans ?_
  rw [queued, hq, List.tail_cons, List.count_cons]
  by_cases hji : j = idx
  · simp [hji, Int.sub_eq_add_neg]
  · simp [hji, Ne.symm hji]

private theorem entries_pop {rest : List Nat} (hlvl : lvl < 16) (hq : s.queues lvl = idx :: rest) :
    entries (winPop s lvl) = entries s - 1 := by
  have hsum := sum_update (fun _ (q : List Nat) => (q.length : Int)) s.queues
    (s.queues lvl).tail hlvl
  refine hsum.trans ?_
  rw [entries, hq, List.tail_cons, List.length_cons]
  omega

private theorem entries_nonneg (s : WinSt) : 0 ≤ entries s :=
  sum_nonneg fun _ _ => Int.natCast_nonneg _

private theorem winTop_some {queues : Nat → List Nat} {m : Nat} (h : winTop queues m = some (lvl, idx)) :
    lvl < m ∧ queues lvl = idx :: (queues lvl).tail := by
  induction m with
  | zero => cases h
  | succ m ih =>
    rw [winTop] at h
    split at h
    · next idx' rest hq =>
      cases h
      refine ⟨Nat.lt_succ_self _, ?_⟩
      rw [hq, List.tail_cons]
    · have hrest := ih h
      exact ⟨Nat.lt_succ_of_lt hrest.1, hrest.2⟩

private theorem winTop_none {queues : Nat → List Nat} {m : Nat} (h : winTop queues m = none) :
    ∀ l < m, queues l = [] := by
  induction m with
  | zero => exact fun l hl => absurd hl (Nat.not_lt_zero l)
  | succ m ih =>
    rw [winTop] at h
    split at h
    · cases h
    · next hq =>
      intro l hl
      by_cases hlm : l = m
      · rw [hlm]
        exact hq
      · exact ih h l (by omega)

/-- Until when the processor is taken. -/
def front (s : WinSt) : Int := if s.running = none then s.now else s.sliceEnd

/-- All the time from the arrival to `until` was waited or run. -/
def Accounted (p₀ p : Proc) (time : Int) : Prop :=
  p.waiting + (p₀.burst - p.remaining) = time - p₀.arrival

/-- Where a process is, and what holds of its values there. -/
inductive ProcAt (p₀ : Proc) (rank : Nat) (s : WinSt) (i : Nat) : Prop
  | future (hrank : s.ai ≤ rank) (hqueued : queued s i = 0) (hidle : s.running ≠ some i)
      (hwaiting : (s.procs i).waiting = 0) (hrem : (s.procs i).remaining = p₀.burst)
  | ready (hrank : rank < s.ai) (hqueued : queued s i = 1) (hidle : s.running ≠ some i)
      (hsince : p₀.arrival ≤ (s.procs i).lastEnq) (hfront : (s.procs i).lastEnq ≤ front s)
      (haccount : Accounted p₀ (s.procs i) (s.procs i).lastEnq)
  | running (hrank : rank < s.ai) (hqueued : queued s i = 0) (hruns : s.running = some i)
      (hsince : p₀.arrival ≤ s.sliceStart) (haccount : Accounted p₀ (s.procs i) s.sliceStart)
  | finished (hrank : rank < s.ai) (hqueued : queued s i = 0) (hidle : s.running ≠ some i)
      (hrem : (s.procs i).remaining = 0)
      (haccount : (s.procs i).completion - p₀.arrival = p₀.burst + (s.procs i).waiting)

/-- The slice of the running process. -/
structure SliceOk (s : WinSt) (r : Nat) : Prop where
  now : s.now ≤ s.sliceEnd
  length : s.sliceStart ≤ s.sliceEnd
  le : s.sliceEnd - s.sliceStart ≤ (s.procs r).remaining
  runs : s.sliceEnd - s.sliceStart = (s.procs r).remaining ∨ s.sliceStart < s.sliceEnd

structure WinInv (n : Nat) (procs : Nat → Proc) (arr : Nat → Arrival) (rank : Nat → Nat) (s : WinSt) :
    Prop where
  pid : ∀ i < n, (s.procs i).pid = (procs i).pid
  nonneg : ∀ i < n, 0 ≤ (s.procs i).remaining
  ai_le : s.ai ≤ n
  place : ∀ i < n, ProcAt (procs i) (rank i) s i
  count : s.readyCount = entries s
  members : ∀ l < 16, ∀ i ∈ s.queues l, i < n
  slice : ∀ r, s.running = some r → r < n ∧ SliceOk s r
  chart : Chart n procs (front s) s.gantt
  shares : ∀ i < n, share i s.gantt = (procs i).burst - (s.procs i).remaining +
    if s.running = some i then s.sliceEnd - s.sliceStart else 0

/-- No arrival has been passed over. -/
def Punctual (n : Nat) (arr : Nat → Arrival) (now : Int) (ai : Nat) : Prop :=
  ∀ k, ai ≤ k → k < n → now ≤ (arr k).t

theorem ProcAt.other {p₀ : Proc} {r : Nat} (h : ProcAt p₀ r s j) (hproc : t.procs j = s.procs j)
    (hrank : r < t.ai ↔ r < s.ai) (hqueued : queued t j = queued s j)
    (hruns : t.running = some j ↔ s.running = some j)
    (hslice : s.running = some j → t.sliceStart = s.sliceStart) (hfront : front s ≤ front t) :
    ProcAt p₀ r t j := by
  cases h with
  | future hr hq hi hw hrem =>
    exact .future (by omega) (hqueued.trans hq) (fun h => hi (hruns.mp h)) (by rw [hproc, hw])
      (by rw [hproc, hrem])
  | ready hr hq hi hs hf ha =>
    exact .ready (hrank.mpr hr) (hqueued.trans hq) (fun h => hi (hruns.mp h)) (by rw [hproc]; exact hs)
      (by rw [hproc]; exact Int.le_trans hf hfront) (by rw [hproc]; exact ha)
  | running hr hq hi hs ha =>
    have hstart := hslice hi
    exact .running (hrank.mpr hr) (hqueued.trans hq) (hruns.mpr hi) (by rw [hstart]; exact hs)
      (by rw [hproc, hstart]; exact ha)
  | finished hr hq hi hrem ha =>
    exact .finished (hrank.mpr hr) (hqueued.trans hq) (fun h => hi (hruns.mp h)) (by rw [hproc, hrem])
      (by rw [hproc]; exact ha)

section Steps

variable (ht : Timetable n (fun i => (procs i).arrival) arr rank)
include ht

theorem WinInv.arrive (h : WinInv n procs arr rank s) (hlater : Punctual n arr s.now s.ai)
    (hai : s.ai < n) (hnow : (arr s.ai).t ≤ s.now) :
    WinInv n procs arr rank { winEnqueue s (arr s.ai).idx with ai := s.ai + 1 } := by
  have hi := ht.idx_lt s.ai hai
  have hexact : (procs (arr s.ai).idx).arrival = s.now := by
    rw [← ht.time s.ai hai]
    have := hlater s.ai (Nat.le_refl _) hai
    omega
  have hrank := ht.rank_idx s.ai hai
  generalize (arr s.ai).idx = i at *
  generalize hst : ({ winEnqueue s i with ai := s.ai + 1 } : WinSt) = t
  have hprocs : t.procs = Function.update s.procs i { s.procs i with lastEnq := s.now } := by
    rw [← hst]
    rfl
  have hqueued : ∀ j, queued t j = queued s j + if j = i then 1 else 0 := by
    rw [← hst]
    exact queued_enqueue s i
  have hsame : t.now = s.now ∧ t.running = s.running ∧ t.sliceStart = s.sliceStart ∧
      t.sliceEnd = s.sliceEnd ∧ t.gantt = s.gantt ∧ t.ai = s.ai + 1 := by
    rw [← hst]
    exact ⟨rfl, rfl, rfl, rfl, rfl, rfl⟩
  obtain ⟨htnow, htrun, htstart, htend, htgantt, htai⟩ := hsame
  have hfront : front t = front s := by rw [front, front, htnow, htrun, htend]
  have hrem : ∀ j, (t.procs j).remaining = (s.procs j).remaining := by
    intro j
    rw [hprocs]
    by_cases hji : j = i
    · rw [hji, Function.update_self]
    · rw [Function.update_of_ne hji]
  refine ⟨?_, ?_, ?_, ?_, ?_, ?_, ?_, ?_, ?_⟩
  · intro j hj
    rw [hprocs]
    by_cases hji : j = i
    · rw [hji, Function.update_self]
      exact h.pid i hi
    · rw [Function.update_of_ne hji]
      exact h.pid j hj
  · intro j hj
    rw [hrem]
    exact h.nonneg j hj
  · omega
  · intro j hj
    by_cases hji : j = i
    · rw [hji]
      cases h.place i hi with
      | future hr hq hidle hw hrem₀ =>
        have hti : t.procs i = { s.procs i with lastEnq := s.now } := by
          rw [hprocs, Function.update_self]
        refine .ready (by omega) (by rw [hqueued, if_pos rfl, hq]; rfl) (by rw [htrun]; exact hidle)
          ?_ ?_ ?_
        · rw [hti]
          exact Int.le_of_eq hexact
        · rw [hti, hfront, front]
          split
          · exact Int.le_refl _
          · next hbusy =>
            obtain ⟨r, hrun⟩ := Option.ne_none_iff_exists'.mp hbusy
            exact (h.slice r hrun).2.now
        · rw [hti, Accounted]
          show (s.procs i).waiting + ((procs i).burst - (s.procs i).remaining) =
            s.now - (procs i).arrival
          omega
      | ready hr _ _ _ _ _ => omega
      | running hr _ _ _ _ => omega
      | finished hr _ _ _ _ => omega
    · have hne : rank j ≠ s.ai := by
        intro heq
        apply hji
        rw [← ht.idx_rank j hj, heq, ← hrank]
        have hback := ht.idx_rank i hi
        rw [hrank] at hback ⊢
        exact hback
      apply (h.place j hj).other _ (by omega) _ (by rw [htrun]) (fun _ => htstart)
        (Int.le_of_eq hfront.symm)
      · rw [hprocs, Function.update_of_ne hji]
      · rw [hqueued, if_neg hji, Int.add_zero]
  · rw [← hst]
    show s.readyCount + 1 = entries (winEnqueue s i)
    rw [entries_enqueue, h.count]
  · intro l hl j hj
    rw [← hst] at hj
    cases mem_enqueue hj with
    | inl heq =>
      rw [heq]
      exact hi
    | inr hold => exact h.members l hl j hold
  · intro r hr
    rw [htrun] at hr
    obtain ⟨hrn, hslice⟩ := h.slice r hr
    refine ⟨hrn, ?_, ?_, ?_, ?_⟩
    · rw [htnow, htend]
      exact hslice.now
    · rw [htstart, htend]
      exact hslice.length
    · rw [htstart, htend, hrem]
      exact hslice.le
    · rw [htstart, htend, hrem]
      exact hslice.runs
  · rw [hfront, htgantt]
    exact h.chart
  · intro j hj
    rw [htgantt, hrem, htrun, htstart, htend]
    exact h.shares j hj

private theorem WinInv.arrivals (fuel : Nat) (h : WinInv n procs arr rank s)
    (hlater : Punctual n arr s.now s.ai) : WinInv n procs arr rank (winArrive n arr fuel s) := by
  induction fuel generalizing s with
  | zero => exact h
  | succ fuel ih =>
    rw [winArrive]
    split
    · next hnext =>
      exact ih (h.arrive ht hlater hnext.1 hnext.2) fun k hk hkn => hlater k (Nat.le_of_succ_le hk) hkn
    · exact h

end Steps

/-- The slice of the process `r` has ended. -/
structure Ended (s t : WinSt) (r : Nat) : Prop where
  now : t.now = s.now
  ai : t.ai = s.ai
  gantt : t.gantt = s.gantt
  done : t.done = s.done
  running : t.running = none
  others : ∀ j ≠ r, t.procs j = s.procs j
  pid : (t.procs r).pid = (s.procs r).pid
  waiting : (t.procs r).waiting = (s.procs r).waiting
  remaining : (t.procs r).remaining = (s.procs r).remaining - (s.sliceEnd - s.sliceStart)
  place : ((t.procs r).remaining = 0 ∧ (t.procs r).completion = s.sliceEnd ∧
      t.queues = s.queues ∧ t.readyCount = s.readyCount) ∨
    (0 < s.sliceEnd - s.sliceStart ∧ (t.procs r).lastEnq = s.now ∧ entries t = entries s + 1 ∧
      t.readyCount = s.readyCount + 1 ∧ (∀ j, queued t j = queued s j + if j = r then 1 else 0) ∧
      ∀ l j, j ∈ t.queues l → j = r ∨ j ∈ s.queues l)

private theorem winSliceEnd_ended {r : Nat} (h : SliceOk s r) : Ended s (winSliceEnd s r) r := by
  have hlen := h.length
  have hle := h.le
  have hruns := h.runs
  have hran : (if s.sliceEnd - s.sliceStart > 0 then
        { s.procs r with remaining := (s.procs r).remaining - (s.sliceEnd - s.sliceStart) }
      else s.procs r) =
      { s.procs r with remaining := (s.procs r).remaining - (s.sliceEnd - s.sliceStart) } := by
    split
    · rfl
    · have hzero : s.sliceEnd - s.sliceStart = 0 := by omega
      rw [hzero, Int.sub_zero]
  rw [winSliceEnd]
  simp only [hran]
  split
  · next hdone =>
    refine ⟨rfl, rfl, rfl, rfl, rfl, fun j hj => Function.update_of_ne hj _ _, ?_, ?_, ?_, .inl ⟨?_, ?_, rfl, rfl⟩⟩
    all_goals simp only [Function.update_self]
    omega
  · next hmore =>
    refine ⟨rfl, rfl, rfl, rfl, rfl, fun j hj => ?_, ?_, ?_, ?_, .inr ⟨by omega, ?_, ?_, rfl, ?_, ?_⟩⟩
    · simp only [winEnqueue]
      rw [Function.update_of_ne hj, Function.update_of_ne hj]
    · simp only [winEnqueue, Function.update_self]
    · simp only [winEnqueue, Function.update_self]
    · simp only [winEnqueue, Function.update_self]
    · simp only [winEnqueue, Function.update_self]
    · exact entries_enqueue _ r
    · intro j
      exact queued_enqueue _ r j
    · intro l j hj
      have hentry : j ∈ (winEnqueue _ r).queues l := hj
      have hcases := mem_enqueue hentry
      exact hcases

private theorem WinInv.sliceEnd {r : Nat} (h : WinInv n procs arr rank s) (hrun : s.running = some r)
    (hend : s.sliceEnd ≤ s.now) : WinInv n procs arr rank (winSliceEnd s r) := by
  obtain ⟨hr, hslice⟩ := h.slice r hrun
  have hstop : s.now = s.sliceEnd := Int.le_antisymm hslice.now hend
  have hended := winSliceEnd_ended hslice
  generalize winSliceEnd s r = t at hended
  have hbusy : s.running ≠ none := by
    rw [hrun]
    exact Option.some_ne_none r
  have hfront : front t = front s := by
    rw [front, front, if_pos hended.running, if_neg hbusy, hended.now, hstop]
  have hidle : ∀ j, t.running ≠ some j := by
    intro j
    rw [hended.running]
    exact (Option.some_ne_none j).symm
  have hother : ∀ j, s.running = some j → j = r := by
    intro j hj
    rw [hrun] at hj
    exact (Option.some.inj hj).symm
  refine ⟨?_, ?_, ?_, ?_, ?_, ?_, ?_, ?_, ?_⟩
  · intro j hj
    by_cases hjr : j = r
    · rw [hjr, hended.pid]
      exact h.pid r hr
    · rw [hended.others j hjr]
      exact h.pid j hj
  · intro j hj
    by_cases hjr : j = r
    · have := hslice.le
      rw [hjr, hended.remaining]
      omega
    · rw [hended.others j hjr]
      exact h.nonneg j hj
  · rw [hended.ai]
    exact h.ai_le
  · intro j hj
    by_cases hjr : j = r
    · rw [hjr]
      cases h.place r hr with
      | future hrank _ hidle' _ _ => exact absurd hrun hidle'
      | ready _ _ hidle' _ _ _ => exact absurd hrun hidle'
      | finished _ _ hidle' _ _ => exact absurd hrun hidle'
      | running hrank hqueued _ hsince haccount =>
        have hrem := hended.remaining
        rw [Accounted] at haccount
        cases hended.place with
        | inl hdone =>
          have hqueued' : queued t r = queued s r := by
            rw [queued, queued, hdone.2.2.1]
          refine .finished (by rw [hended.ai]; exact hrank) (hqueued'.trans hqueued) (hidle r)
            hdone.1 ?_
          rw [hdone.2.1, hended.waiting]
          omega
        | inr hmore =>
          obtain ⟨_, henq, _, _, hcount, _⟩ := hmore
          refine .ready (by rw [hended.ai]; exact hrank) ?_ (hidle r) ?_ ?_ ?_
          · rw [hcount, if_pos rfl, hqueued]
            rfl
          · have := hslice.length
            rw [henq]
            omega
          · rw [henq, hfront, front, if_neg hbusy]
            exact hslice.now
          · rw [Accounted, henq, hended.waiting, hrem]
            omega
    · have hne : s.running ≠ some j := fun hj => hjr (hother j hj)
      apply (h.place j hj).other (hended.others j hjr) (by rw [hended.ai]) _
        (iff_of_false (hidle j) hne) (fun hj => absurd hj hne) (Int.le_of_eq hfront.symm)
      cases hended.place with
      | inl hdone => rw [queued, queued, hdone.2.2.1]
      | inr hmore => rw [hmore.2.2.2.2.1, if_neg hjr, Int.add_zero]
  · cases hended.place with
    | inl hdone => rw [hdone.2.2.2, h.count, entries, entries, hdone.2.2.1]
    | inr hmore => rw [hmore.2.2.2.1, h.count, hmore.2.2.1]
  · intro l hl j hj
    cases hended.place with
    | inl hdone =>
      rw [hdone.2.2.1] at hj
      exact h.members l hl j hj
    | inr hmore =>
      cases hmore.2.2.2.2.2 l j hj with
      | inl heq =>
        rw [heq]
        exact hr
      | inr hold => exact h.members l hl j hold
  · intro j hj
    exact absurd hj (hidle j)
  · rw [hfront, hended.gantt]
    exact h.chart
  · intro j hj
    rw [hended.gantt, h.shares j hj, if_neg (hidle j)]
    by_cases hjr : j = r
    · rw [hjr, hended.remaining, if_pos hrun]
      omega
    · rw [hended.others j hjr, if_neg fun hj => hjr (hother j hj)]

/-- The process `i` has been taken from a queue and runs from `sliceStart` on. -/
structure Dispatched (csCost : Int) (s t : WinSt) (i : Nat) : Prop where
  ai : t.ai = s.ai
  running : t.running = some i
  start : t.sliceStart = s.now + max csCost 0
  now : t.now = t.sliceStart
  length : t.sliceEnd - t.sliceStart ≤ (s.procs i).remaining ∧
    (t.sliceEnd - t.sliceStart = (s.procs i).remaining ∨ 0 < t.sliceEnd - t.sliceStart)
  others : ∀ j ≠ i, t.procs j = s.procs j
  pid : (t.procs i).pid = (s.procs i).pid
  remaining : (t.procs i).remaining = (s.procs i).remaining
  waiting : (s.procs i).lastEnq ≠ -1 →
    (t.procs i).waiting = (s.procs i).waiting + (t.sliceStart - (s.procs i).lastEnq)
  gantt : t.gantt = ganttPush s.gantt t.sliceStart t.sliceEnd (s.procs i).pid i
  queued : ∀ j, queued t j = WindowsLinux.queued s j - if j = i then 1 else 0
  entries : entries t = WindowsLinux.entries s - 1
  count : t.readyCount = s.readyCount - 1
  members : ∀ l j, j ∈ t.queues l → j ∈ s.queues l
  done : t.done = s.done

private theorem winSlice_dispatched {start stop : Int} (hlvl : lvl < 16)
    (hq : s.queues lvl = idx :: (s.queues lvl).tail) (hstart : start = s.now + max csCost 0)
    (hstop : stop = start + runLen (s.procs idx) (quantumForPrio lvl)) :
    Dispatched csCost s (winSlice (winPop s lvl) idx start stop) idx := by
  have haged : ∀ now p, (winAge now p).pid = p.pid ∧ (winAge now p).remaining = p.remaining ∧
      (winAge now p).waiting = p.waiting ∧ (winAge now p).lastEnq = p.lastEnq := by
    intro now p
    rw [winAge]
    split <;> exact ⟨rfl, rfl, rfl, rfl⟩
  obtain ⟨hpid, hrem, hwaiting, henq⟩ := haged s.now (s.procs idx)
  have hself : (winSlice (winPop s lvl) idx start stop).procs idx =
      startProc start (winAge s.now (s.procs idx)) := Function.update_self _ _ _
  have hlength : stop - start = runLen (s.procs idx) (quantumForPrio lvl) := by omega
  have hpos : 0 < quantumForPrio lvl := by
    rw [quantumForPrio]
    omega
  refine ⟨rfl, rfl, hstart, rfl, ⟨?_, ?_⟩, fun j hj => Function.update_of_ne hj _ _, ?_, ?_, ?_, ?_,
    queued_pop hlvl hq, entries_pop hlvl hq, rfl, ?_, rfl⟩
  · show stop - start ≤ _
    rw [hlength]
    exact runLen_le _ _
  · show stop - start = _ ∨ 0 < stop - start
    rw [hlength]
    cases runLen_cases (s.procs idx) (quantumForPrio lvl) with
    | inl hall => exact .inl hall
    | inr hslice => exact .inr (by omega)
  · rw [hself]
    exact hpid
  · rw [hself]
    exact hrem
  · intro hne
    have hold : (winAge s.now (s.procs idx)).lastEnq ≠ -1 := by
      rw [henq]
      exact hne
    rw [hself]
    show (if (winAge s.now (s.procs idx)).lastEnq ≠ -1 then _ else _) = _
    rw [if_pos hold, hwaiting, henq]
    rfl
  · show ganttPush s.gantt start stop (winAge s.now (s.procs idx)).pid idx = _
    rw [hpid]
    rfl
  · intro l j hj
    change j ∈ Function.update s.queues lvl (s.queues lvl).tail l at hj
    by_cases hl : l = lvl
    · rw [hl, Function.update_self] at hj
      rw [hl]
      exact List.mem_of_mem_tail hj
    · rw [Function.update_of_ne hl] at hj
      exact hj

private theorem winDispatch_dispatched (hlvl : lvl < 16) (hq : s.queues lvl = idx :: (s.queues lvl).tail)
    (ht : winDispatch csCost (winPop s lvl) idx (quantumForPrio lvl) = some t) :
    Dispatched csCost s t idx := by
  obtain ⟨start, hstart, hrest⟩ := Option.bind_eq_some_iff.mp ht
  obtain ⟨stop, hstop, hslice⟩ := Option.bind_eq_some_iff.mp hrest
  cases hslice
  exact winSlice_dispatched hlvl hq (switched_eq_some.mp hstart).2 (advance_eq_some.mp hstop).2

theorem winDispatch_isSome {q : Int} (hnonneg : 0 ≤ (s.procs idx).remaining) (hq : 0 ≤ q) :
    (∃ t, winDispatch csCost s idx q = some t) ↔
      s.now + max csCost 0 + runLen (s.procs idx) q ≤ INT_MAX := by
  have hrun : 0 ≤ runLen (s.procs idx) q := by
    cases runLen_cases (s.procs idx) q <;> omega
  constructor
  · intro h
    obtain ⟨t, ht⟩ := h
    obtain ⟨start, hstart, hrest⟩ := Option.bind_eq_some_iff.mp ht
    obtain ⟨stop, hstop, _⟩ := Option.bind_eq_some_iff.mp hrest
    rw [← (switched_eq_some.mp hstart).2]
    exact (advance_eq_some.mp hstop).1
  · intro h
    have hstart : switched csCost s.now = some (s.now + max csCost 0) :=
      switched_eq_some.mpr ⟨fun _ => by omega, rfl⟩
    refine ⟨winSlice s idx (s.now + max csCost 0)
      (s.now + max csCost 0 + runLen (s.procs idx) q), ?_⟩
    rw [winDispatch, hstart, Option.bind_eq_bind, Option.bind_some, advance_eq_some.mpr ⟨h, rfl⟩]
    rfl

private theorem WinInv.dispatch (h : WinInv n procs arr rank s) (harrival : ∀ i < n, 0 ≤ (procs i).arrival)
    (hidle : s.running = none) (hlvl : lvl < 16) (hin : i ∈ s.queues lvl)
    (hd : Dispatched csCost s t i) : WinInv n procs arr rank t := by
  have hi := h.members lvl hlvl i hin
  have hstart : s.now ≤ t.sliceStart := by
    rw [hd.start]
    omega
  have hlen := hd.length
  have hnonneg := h.nonneg i hi
  have hfront : front s ≤ front t := by
    have hbusy : t.running ≠ none := by
      rw [hd.running]
      exact Option.some_ne_none i
    rw [front, front, if_pos hidle, if_neg hbusy]
    omega
  have hnone : ∀ j, s.running ≠ some j := by
    intro j
    rw [hidle]
    exact (Option.some_ne_none j).symm
  have hruns : ∀ j, t.running = some j ↔ j = i := by
    intro j
    rw [hd.running, Option.some_inj, eq_comm]
  have hplace : ProcAt (procs i) (rank i) t i ∧ (procs i).arrival ≤ s.now := by
    cases h.place i hi with
    | future hrank hqueued _ _ _ =>
      have := queued_pos hlvl hin
      omega
    | ready hrank hqueued _ hsince hfront' haccount =>
      rw [front, if_pos hidle] at hfront'
      refine ⟨.running (by rw [hd.ai]; exact hrank) ?_ hd.running (by omega) ?_, by omega⟩
      · rw [hd.queued, if_pos rfl, hqueued]
        rfl
      · have := harrival i hi
        rw [Accounted] at haccount
        rw [Accounted, hd.waiting (by omega), hd.remaining]
        omega
    | running _ _ hrun _ _ => exact absurd hrun (hnone i)
    | finished _ hqueued _ _ _ =>
      have := queued_pos hlvl hin
      omega
  refine ⟨?_, ?_, ?_, ?_, ?_, ?_, ?_, ?_, ?_⟩
  · intro j hj
    by_cases hji : j = i
    · rw [hji, hd.pid]
      exact h.pid i hi
    · rw [hd.others j hji]
      exact h.pid j hj
  · intro j hj
    by_cases hji : j = i
    · rw [hji, hd.remaining]
      exact hnonneg
    · rw [hd.others j hji]
      exact h.nonneg j hj
  · rw [hd.ai]
    exact h.ai_le
  · intro j hj
    by_cases hji : j = i
    · rw [hji]
      exact hplace.1
    · apply (h.place j hj).other (hd.others j hji) (by rw [hd.ai]) _ _
        (fun hj => absurd hj (hnone j)) hfront
      · rw [hd.queued, if_neg hji, Int.sub_zero]
      · exact iff_of_false (fun hj => hji ((hruns j).mp hj)) (hnone j)
  · rw [hd.count, h.count, hd.entries]
  · intro l hl j hj
    exact h.members l hl j (hd.members l j hj)
  · intro r hr
    rw [(hruns r).mp hr]
    refine ⟨hi, ?_, by omega, ?_, ?_⟩
    · rw [hd.now]
      omega
    · rw [hd.remaining]
      exact hlen.1
    · rw [hd.remaining]
      omega
  · have hbusy : t.running ≠ none := by
      rw [hd.running]
      exact Option.some_ne_none i
    have hchart := h.chart
    rw [front, if_pos hidle] at hchart
    rw [hd.gantt, h.pid i hi, front, if_neg hbusy]
    exact hchart.push hstart (by omega) hi (Int.le_trans hplace.2 hstart)
  · intro j hj
    rw [hd.gantt, share_push (by omega), h.shares j hj, if_neg (hnone j)]
    by_cases hji : j = i
    · rw [if_pos hji, if_pos ((hruns j).mpr hji), hji, hd.remaining]
      omega
    · rw [if_neg hji, if_neg fun hj => hji ((hruns j).mp hj), hd.others j hji, Int.add_zero]

theorem WinInv.idle (h : WinInv n procs arr rank s) (hidle : s.running = none) {now : Int}
    (hnow : s.now ≤ now) : WinInv n procs arr rank { s with now := now } := by
  have hfront : front s ≤ front { s with now := now } := by
    rw [front, front, if_pos hidle, if_pos hidle]
    exact hnow
  refine ⟨h.pid, h.nonneg, h.ai_le, fun j hj => ?_, h.count, h.members, fun r hr => ?_, ?_, h.shares⟩
  · exact (h.place j hj).other rfl Iff.rfl rfl Iff.rfl (fun _ => rfl) hfront
  · rw [hidle] at hr
    cases hr
  · exact h.chart.mono hfront

/-- What the head of the loop needs besides the invariant. -/
structure AtHead (n : Nat) (arr : Nat → Arrival) (s : WinSt) : Prop where
  punctual : Punctual n arr s.now s.ai
  event : s.running ≠ none → s.now < s.sliceEnd → s.ai < n ∧ (arr s.ai).t ≤ s.now

private theorem WinInv.next {r : Nat} (ht : Timetable n (fun i => (procs i).arrival) arr rank)
    (h : WinInv n procs arr rank s) (hrun : s.running = some r) :
    WinInv n procs arr rank (winNext n arr s) ∧ AtHead n arr (winNext n arr s) := by
  have hclock : ∀ now ≤ s.sliceEnd, WinInv n procs arr rank { s with now := now } := by
    intro now hnow
    have hfront : front { s with now := now } = front s := by
      have hbusy : s.running ≠ none := by
        rw [hrun]
        exact Option.some_ne_none r
      rw [front, front, if_neg hbusy, if_neg hbusy]
    refine ⟨h.pid, h.nonneg, h.ai_le, fun j hj => ?_, h.count, h.members, fun r hr => ?_, ?_, h.shares⟩
    · exact (h.place j hj).other rfl Iff.rfl rfl Iff.rfl (fun _ => rfl) (Int.le_of_eq hfront.symm)
    · have hslice := h.slice r hr
      exact ⟨hslice.1, hnow, hslice.2.length, hslice.2.le, hslice.2.runs⟩
    · rw [hfront]
      exact h.chart
  rw [winNext]
  split
  · next hnext =>
    refine ⟨hclock _ (Int.le_of_lt hnext.2), ?_, fun _ _ => ⟨hnext.1, Int.le_refl _⟩⟩
    intro k hk hkn
    exact ht.mono s.ai k hk hkn
  · next hno =>
    refine ⟨hclock _ (Int.le_refl _), ?_, fun _ hlt => absurd hlt (Int.lt_irrefl _)⟩
    intro k hk hkn
    have hai : s.ai < n := Nat.lt_of_le_of_lt hk hkn
    have hmono := ht.mono s.ai k hk hkn
    show s.sliceEnd ≤ (arr k).t
    have : ¬ (arr s.ai).t < s.sliceEnd := fun hlt => hno ⟨hai, hlt⟩
    omega

/-- What arrivals, dispatches and slices are still to come. -/
def effort (n : Nat) (s : WinSt) : Int :=
  2 * ∑ i ∈ range n, (s.procs i).remaining + 2 * s.readyCount +
    (if s.running = none then 0 else 1) + 3 * ((n : Int) - s.ai)

/-- An arrival that is handled in this turn. -/
def Due (n : Nat) (arr : Nat → Arrival) (s : WinSt) : Prop := s.ai < n ∧ (arr s.ai).t ≤ s.now

instance : Decidable (Due n arr s) := inferInstanceAs (Decidable (_ ∧ _))

/-- The variant of the loop. -/
def winLeft (n : Nat) (arr : Nat → Arrival) (s : WinSt) : Int :=
  2 * effort n s + (if s.ai < n ∧ s.now < (arr s.ai).t then 1 else 0) + if s.done then 0 else 1

private theorem WinInv.effort_nonneg (h : WinInv n procs arr rank s) : 0 ≤ effort n s := by
  have hsum : 0 ≤ ∑ i ∈ range n, (s.procs i).remaining :=
    sum_nonneg fun i hi => h.nonneg i (mem_range.mp hi)
  have hready : 0 ≤ s.readyCount := by
    rw [h.count]
    exact entries_nonneg s
  have hai := h.ai_le
  rw [effort]
  split <;> omega

private theorem effort_arrive (s : WinSt) (idx : Nat) :
    effort n { winEnqueue s idx with ai := s.ai + 1 } = effort n s - 1 := by
  have hrem : ∀ j, ((winEnqueue s idx).procs j).remaining = (s.procs j).remaining := by
    intro j
    by_cases hj : j = idx
    · rw [hj]
      simp [winEnqueue]
    · simp [winEnqueue, hj]
  show 2 * ∑ i ∈ range n, ((winEnqueue s idx).procs i).remaining + 2 * (s.readyCount + 1) +
    (if s.running = none then 0 else 1) + 3 * ((n : Int) - ((s.ai + 1 : Nat) : Int)) = _
  rw [effort, sum_congr rfl fun j _ => hrem j]
  omega

theorem winArrive_spec (arr : Nat → Arrival) (fuel : Nat) (hfuel : n ≤ s.ai + fuel) :
    ¬ Due n arr (winArrive n arr fuel s) ∧ (winArrive n arr fuel s).now = s.now ∧
      (winArrive n arr fuel s).running = s.running ∧
      (winArrive n arr fuel s).sliceEnd = s.sliceEnd ∧ (winArrive n arr fuel s).done = s.done ∧
      ((¬ Due n arr s ∧ winArrive n arr fuel s = s) ∨
        (Due n arr s ∧ effort n (winArrive n arr fuel s) < effort n s)) := by
  induction fuel generalizing s with
  | zero =>
    have hno : ¬ Due n arr s := fun hdue => by
      have := hdue.1
      omega
    exact ⟨hno, rfl, rfl, rfl, rfl, .inl ⟨hno, rfl⟩⟩
  | succ fuel ih =>
    rw [winArrive]
    split
    · next hdue =>
      have hless := effort_arrive (n := n) s (arr s.ai).idx
      have hrest := ih (s := { winEnqueue s (arr s.ai).idx with ai := s.ai + 1 })
        (by show n ≤ s.ai + 1 + fuel; omega)
      refine ⟨hrest.1, hrest.2.1, hrest.2.2.1, hrest.2.2.2.1, hrest.2.2.2.2.1, .inr ⟨hdue, ?_⟩⟩
      cases hrest.2.2.2.2.2 with
      | inl hsame =>
        rw [hsame.2]
        omega
      | inr hmore =>
        have := hmore.2
        omega
    · next hno => exact ⟨hno, rfl, rfl, rfl, rfl, .inl ⟨hno, rfl⟩⟩

private theorem punctual_arrive (fuel : Nat) (h : Punctual n arr s.now s.ai) :
    Punctual n arr (winArrive n arr fuel s).now (winArrive n arr fuel s).ai := by
  induction fuel generalizing s with
  | zero => exact h
  | succ fuel ih =>
    rw [winArrive]
    split
    · exact ih fun k hk hkn => h k (Nat.le_of_succ_le hk) hkn
    · exact h

private theorem Ended.effort {r : Nat} (h : Ended s t r) (hr : r < n) (hrun : s.running = some r)
    (hlen : s.sliceStart ≤ s.sliceEnd) : effort n t < effort n s := by
  have hsum := sum_change (f := fun j => (t.procs j).remaining) (g := fun j => (s.procs j).remaining) hr
    fun j hj => by rw [h.others j hj]
  have hrem := h.remaining
  have hbusy : s.running ≠ none := by
    rw [hrun]
    exact Option.some_ne_none r
  rw [WindowsLinux.effort, WindowsLinux.effort, if_pos h.running, if_neg hbusy, hsum, hrem, h.ai]
  cases h.place with
  | inl hdone =>
    rw [hdone.2.2.2]
    omega
  | inr hmore =>
    rw [hmore.2.2.2.1]
    have := hmore.1
    omega

private theorem Dispatched.effort (h : Dispatched csCost s t i) (hidle : s.running = none) :
    effort n t = effort n s - 1 := by
  have hrem : ∀ j, (t.procs j).remaining = (s.procs j).remaining := by
    intro j
    by_cases hj : j = i
    · rw [hj, h.remaining]
    · rw [h.others j hj]
  have hbusy : t.running ≠ none := by
    rw [h.running]
    exact Option.some_ne_none i
  rw [WindowsLinux.effort, WindowsLinux.effort, if_pos hidle, if_neg hbusy, h.ai, h.count]
  simp only [hrem]
  omega

/-- The loop was left: all processes have arrived, and none runs or waits. -/
structure Drained (n : Nat) (s : WinSt) : Prop where
  idle : s.running = none
  arrived : s.ai = n
  empty : ∀ l < 16, s.queues l = []

/-- The invariant of the loop. -/
structure WinHead (n : Nat) (procs : Nat → Proc) (arr : Nat → Arrival) (rank : Nat → Nat) (s : WinSt) :
    Prop where
  inv : WinInv n procs arr rank s
  head : AtHead n arr s
  drained : s.done = true → Drained n s

section Turn

variable (ht : Timetable n (fun i => (procs i).arrival) arr rank)
  (harrival : ∀ i < n, 0 ≤ (procs i).arrival)
include ht harrival

private theorem WinInv.select (h : WinInv n procs arr rank s) (hlater : Punctual n arr s.now s.ai)
    (hidle : s.running = none) (hdone : s.done = false) (hdue : ¬ Due n arr s)
    (hsel : winSelect n arr csCost s = some t) :
    WinHead n procs arr rank t ∧ winLeft n arr t < winLeft n arr s := by
  have hold : winLeft n arr s = 2 * effort n s +
      (if s.ai < n ∧ s.now < (arr s.ai).t then 1 else 0) + 1 := by
    rw [winLeft, hdone]
    rfl
  rw [winSelect] at hsel
  split at hsel
  · next hwait =>
    cases hsel
    have hgap : s.now < (arr s.ai).t := by
      by_contra hno
      exact hdue ⟨hwait.2, by omega⟩
    refine ⟨⟨h.idle hidle (Int.le_of_lt hgap), ⟨?_, fun hbusy => absurd hidle hbusy⟩, ?_⟩, ?_⟩
    · intro k hk hkn
      exact ht.mono s.ai k hk hkn
    · intro hstop
      rw [hdone] at hstop
      cases hstop
    · rw [hold, if_pos ⟨hwait.2, hgap⟩, winLeft, if_neg fun hlt => Int.lt_irrefl _ hlt.2]
      show 2 * effort n s + 0 + (if s.done then 0 else 1) < _
      rw [hdone]
      simp
  · next hready =>
    split at hsel
    · next htop =>
      cases hsel
      have hempty := winTop_none htop
      have hnone : s.readyCount = 0 := by
        rw [h.count]
        apply sum_eq_zero
        intro l hl
        rw [hempty l (mem_range.mp hl)]
        rfl
      have hall : s.ai = n := by
        have hle := h.ai_le
        by_contra hne
        exact hready ⟨hnone, by omega⟩
      refine ⟨⟨⟨h.pid, h.nonneg, h.ai_le, fun j hj => ?_, h.count, h.members, fun r hr => ?_, h.chart,
        h.shares⟩, ⟨hlater, fun hbusy => absurd hidle hbusy⟩, fun _ => ⟨hidle, hall, hempty⟩⟩, ?_⟩
      · exact (h.place j hj).other rfl Iff.rfl rfl Iff.rfl (fun _ => rfl) (Int.le_refl _)
      · rw [hidle] at hr
        cases hr
      · rw [hold, winLeft]
        show 2 * effort n s + (if s.ai < n ∧ s.now < (arr s.ai).t then 1 else 0) + 0 < _
        omega
    · next lvl idx htop =>
      obtain ⟨hlvl, hq⟩ := winTop_some htop
      have hin : idx ∈ s.queues lvl := by
        rw [hq]
        exact List.mem_cons_self
      obtain ⟨u, hu, heq⟩ := Option.map_eq_some_iff.mp hsel
      have hd := winDispatch_dispatched hlvl hq hu
      have hinv := h.dispatch harrival hidle hlvl hin hd
      obtain ⟨hnext, hhead⟩ := hinv.next ht hd.running
      have hsame : effort n (winNext n arr u) = effort n u ∧ (winNext n arr u).done = u.done := by
        rw [winNext]
        split <;> exact ⟨rfl, rfl⟩
      rw [heq] at hnext hhead hsame
      refine ⟨⟨hnext, hhead, fun hstop => ?_⟩, ?_⟩
      · rw [hsame.2, hd.done, hdone] at hstop
        cases hstop
      · have heffort := hd.effort (n := n) hidle
        rw [hold, winLeft, hsame.1, hsame.2, hd.done, hdone]
        split <;> split <;> simp <;> omega

/-- The state `u` of a turn when the arrivals and the end of a slice have been handled. -/
structure Ready (n : Nat) (procs : Nat → Proc) (arr : Nat → Arrival) (rank : Nat → Nat)
    (s u : WinSt) : Prop where
  inv : WinInv n procs arr rank u
  punctual : Punctual n arr u.now u.ai
  done : u.done = false
  settled : ¬ Due n arr u
  left : winLeft n arr u ≤ winLeft n arr s
  goes : u.running ≠ none → 2 * effort n u + 2 < winLeft n arr s

omit harrival in
private theorem WinHead.ready (h : WinHead n procs arr rank s) (hdone : s.done = false) :
    Ready n procs arr rank s (winReady n arr s) := by
  have hai := h.inv.ai_le
  obtain ⟨hdue, hnow, hrun, hend, hflag, hcases⟩ :=
    winArrive_spec (n := n) (s := s) arr (n - s.ai) (by omega)
  have hinv := h.inv.arrivals ht (n - s.ai) h.head.punctual
  have hlater := punctual_arrive (n - s.ai) h.head.punctual
  rw [winReady]
  generalize winArrive n arr (n - s.ai) s = u at *
  have hdone' : u.done = false := hflag.trans hdone
  have hleft : winLeft n arr u ≤ winLeft n arr s ∧
      (Due n arr s → 2 * effort n u + 2 < winLeft n arr s) := by
    cases hcases with
    | inl hsame =>
      rw [hsame.2]
      exact ⟨Int.le_refl _, fun hd => absurd hd hsame.1⟩
    | inr hmore =>
      have hgap : ¬ (s.ai < n ∧ s.now < (arr s.ai).t) := by
        intro hgap
        have := hmore.1.2
        omega
      have hless := hmore.2
      rw [winLeft, winLeft, hdone, hdone', if_neg hgap]
      constructor
      · split <;> simp <;> omega
      · intro _
        simp
        omega
  cases hr : u.running with
  | none =>
    simp only
    exact ⟨hinv, hlater, hdone', hdue, hleft.1, fun hbusy => absurd hr hbusy⟩
  | some r =>
    obtain ⟨hrn, hslice⟩ := hinv.slice r hr
    simp only
    split
    · next hstop =>
      have hended := winSliceEnd_ended hslice
      have hinv' := hinv.sliceEnd hr hstop
      have heffort := hended.effort hrn hr hslice.length
      generalize winSliceEnd u r = v at *
      have hflag' : v.done = false := hended.done.trans hdone'
      refine ⟨hinv', ?_, hflag', fun hd => ?_, ?_, fun hbusy => absurd hended.running hbusy⟩
      · rw [hended.now, hended.ai]
        exact hlater
      · apply hdue
        rw [Due, hended.ai, hended.now] at hd
        exact hd
      · refine Int.le_trans (Int.le_of_lt ?_) hleft.1
        rw [winLeft, winLeft, hended.ai, hended.now, hflag', hdone']
        omega
    · next hgoes =>
      have hevent := h.head.event (by rw [← hrun, hr]; exact Option.some_ne_none r) (by omega)
      exact ⟨hinv, hlater, hdone', hdue, hleft.1, fun _ => hleft.2 hevent⟩

private theorem WinHead.turn (h : WinHead n procs arr rank s) (hdone : s.done = false)
    (hturn : winTurn n arr csCost s = some t) :
    WinHead n procs arr rank t ∧ winLeft n arr t < winLeft n arr s := by
  have hready := h.ready ht hdone
  rw [winTurn] at hturn
  generalize winReady n arr s = u at *
  split at hturn
  · next hidle =>
    obtain ⟨hhead, hless⟩ :=
      hready.inv.select ht harrival hready.punctual hidle hready.done hready.settled hturn
    exact ⟨hhead, Int.lt_of_lt_of_le hless hready.left⟩
  · next hbusy =>
    obtain ⟨r, hr⟩ := Option.ne_none_iff_exists'.mp hbusy
    obtain ⟨hnext, hhead⟩ := hready.inv.next ht hr
    have hsame : effort n (winNext n arr u) = effort n u ∧ (winNext n arr u).done = u.done := by
      rw [winNext]
      split <;> exact ⟨rfl, rfl⟩
    cases hturn
    refine ⟨⟨hnext, hhead, fun hstop => ?_⟩, ?_⟩
    · rw [hsame.2, hready.done] at hstop
      cases hstop
    · have hless := hready.goes hbusy
      have hnew : winLeft n arr (winNext n arr u) ≤ 2 * effort n u + 2 := by
        rw [winLeft, hsame.1, hsame.2, hready.done, if_neg Bool.false_ne_true]
        split <;> omega
      omega

end Turn

/-- The context switch and the slice that begin in this turn end at a time that is an int. -/
def SliceFits (n : Nat) (csCost : Int) (u : WinSt) : Prop :=
  u.running = none → ¬ (u.readyCount = 0 ∧ u.ai < n) → ∀ e ∈ winTop u.queues 16,
    u.now + max csCost 0 + runLen (u.procs e.2) (quantumForPrio e.1) ≤ INT_MAX

instance (u : WinSt) : Decidable (SliceFits n csCost u) := inferInstanceAs (Decidable (_ → _))

theorem WinHead.turn_isSome (ht : Timetable n (fun i => (procs i).arrival) arr rank)
    (h : WinHead n procs arr rank s) (hdone : s.done = false) :
    (∃ t, winTurn n arr csCost s = some t) ↔ SliceFits n csCost (winReady n arr s) := by
  have hinv := (h.ready ht hdone).inv
  rw [winTurn]
  generalize winReady n arr s = u at *
  by_cases hidle : u.running = none
  · rw [if_pos hidle, winSelect]
    by_cases hwait : u.readyCount = 0 ∧ u.ai < n
    · rw [if_pos hwait]
      exact iff_of_true ⟨_, rfl⟩ fun _ hmore => absurd hwait hmore
    · rw [if_neg hwait]
      cases htop : winTop u.queues 16 with
      | none =>
        refine iff_of_true ⟨_, rfl⟩ fun _ _ e he => ?_
        rw [htop] at he
        cases he
      | some next =>
        obtain ⟨lvl, idx⟩ := next
        obtain ⟨hlvl, hq⟩ := winTop_some htop
        have hi := hinv.members lvl hlvl idx (by rw [hq]; exact List.mem_cons_self)
        have hquantum : 0 ≤ quantumForPrio lvl := by
          rw [quantumForPrio]
          omega
        have hfits : (∃ t, winDispatch csCost (winPop u lvl) idx (quantumForPrio lvl) = some t) ↔
            u.now + max csCost 0 + runLen (u.procs idx) (quantumForPrio lvl) ≤ INT_MAX :=
          winDispatch_isSome (hinv.nonneg idx hi) hquantum
        have hpicks : SliceFits n csCost u ↔
            u.now + max csCost 0 + runLen (u.procs idx) (quantumForPrio lvl) ≤ INT_MAX := by
          constructor
          · exact fun hall => hall hidle hwait (lvl, idx) htop
          · intro hle _ _ e he
            rw [htop] at he
            cases he
            exact hle
        rw [hpicks, ← hfits]
        constructor
        · intro hsome
          obtain ⟨t, hnext⟩ := hsome
          obtain ⟨v, hv, _⟩ := Option.map_eq_some_iff.mp hnext
          exact ⟨v, hv⟩
        · intro hsome
          obtain ⟨v, hv⟩ := hsome
          exact ⟨_, Option.map_eq_some_iff.mpr ⟨v, hv, rfl⟩⟩
  · rw [if_neg hidle]
    exact iff_of_true ⟨_, rfl⟩ fun hno => absurd hno hidle

/-- The chart and the values of the processes at the end. -/
structure ValidSchedule (n : Nat) (procs : Nat → Proc) (t : WinSt) : Prop where
  ordered : t.gantt.Pairwise fun a b => a.stop ≤ b.start
  slices : ∀ e ∈ t.gantt, e.start < e.stop ∧ e.idx < n ∧ e.pid = (procs e.idx).pid ∧
    (procs e.idx).arrival ≤ e.start
  shares : ∀ i < n, share i t.gantt = (procs i).burst
  pids : ∀ i < n, (∀ j < n, (procs j).pid = (procs i).pid → j = i) →
    pidShare (procs i).pid t.gantt = (procs i).burst
  account : ∀ i < n,
    (t.procs i).completion - (procs i).arrival = (procs i).burst + (t.procs i).waiting

private theorem winHead_start (harrival : ∀ i < n, 0 ≤ (procs i).arrival)
    (hburst : ∀ i < n, 0 ≤ (procs i).burst)
    (ht : Timetable n (fun i => (procs i).arrival) arr rank) :
    WinHead n procs arr rank (winStart fun i => (procs i).reset) := by
  have hidle : (winStart fun i => (procs i).reset).running = none := rfl
  refine ⟨⟨fun _ _ => rfl, hburst, Nat.zero_le n, fun i hi => ?_, ?_, ?_, ?_, ?_, ?_⟩,
    ⟨fun k _ hk => ?_, fun hbusy => absurd hidle hbusy⟩, fun hstop => ?_⟩
  · have hzero : queued (winStart fun i => (procs i).reset) i = 0 := by
      apply sum_eq_zero
      intro l _
      rfl
    apply ProcAt.future (Nat.zero_le _) hzero _ rfl rfl
    rw [hidle]
    exact (Option.some_ne_none i).symm
  · apply Eq.symm
    apply sum_eq_zero
    intro l _
    rfl
  · intro l _ i hi
    cases hi
  · intro r hr
    cases hr
  · exact Chart.nil
  · intro i hi
    show (0 : Int) = (procs i).burst - (procs i).burst + 0
    omega
  · rw [ht.time k hk]
    exact harrival _ (ht.idx_lt k hk)
  · cases hstop

private theorem WinHead.valid (ht : Timetable n (fun i => (procs i).arrival) arr rank)
    (h : WinHead n procs arr rank s) (hdone : s.done = true) : ValidSchedule n procs s := by
  obtain ⟨hidle, hall, hempty⟩ := h.drained hdone
  have hfinished : ∀ i < n, (s.procs i).remaining = 0 ∧
      (s.procs i).completion - (procs i).arrival = (procs i).burst + (s.procs i).waiting := by
    intro i hi
    cases h.inv.place i hi with
    | future hrank _ _ _ _ =>
      have := ht.rank_lt i hi
      omega
    | ready _ hqueued _ _ _ _ =>
      have hzero : queued s i = 0 := by
        apply sum_eq_zero
        intro l hl
        rw [hempty l (mem_range.mp hl)]
        rfl
      omega
    | running _ _ hruns _ _ =>
      rw [hidle] at hruns
      cases hruns
    | finished _ _ _ hrem haccount => exact ⟨hrem, haccount⟩
  have hshares : ∀ i < n, share i s.gantt = (procs i).burst := by
    intro i hi
    rw [h.inv.shares i hi, (hfinished i hi).1, hidle, if_neg (Option.some_ne_none i).symm]
    omega
  refine ⟨h.inv.chart.ordered, fun e he => ?_, hshares, fun i hi hunique => ?_, fun i hi => ?_⟩
  · exact ⟨h.inv.chart.length e he, h.inv.chart.owner e he⟩
  · rw [h.inv.chart.pidShare hunique]
    exact hshares i hi
  · exact (hfinished i hi).2

/-- `simulate_windows` ends with a valid schedule in which all time is accounted for. -/
def WinValid (n : Nat) (procs : Nat → Proc) (csCost : Int) : Prop :=
  ∃ t, WinReturns n (fun i => (procs i).reset) csCost t ∧ ValidSchedule n procs t

/-- Every slice of the run ends at a time that is an int. -/
def WinFits (n : Nat) (procs : Nat → Proc) (csCost : Int) : Prop :=
  ∀ s, WinHeads n (fun i => (procs i).reset) csCost s → s.done = false →
    SliceFits n csCost (winReady n (arrivalsOf n fun i => (procs i).reset) s)

section Claim

variable (harrival : ∀ i < n, 0 ≤ (procs i).arrival) (hburst : ∀ i < n, 0 ≤ (procs i).burst)
include harrival hburst

private theorem winHead_of_heads
    (ht : Timetable n (fun i => (procs i).arrival) (arrivalsOf n fun i => (procs i).reset) rank)
    (h : WinHeads n (fun i => (procs i).reset) csCost s) :
    WinHead n procs (arrivalsOf n fun i => (procs i).reset) rank s := by
  apply h.2.invariant (winHead_start harrival hburst ht)
  intro s t hs hgoes hrun
  exact (hs.turn ht harrival (by simpa using hgoes) hrun).1

private theorem WinValid.fits (h : WinValid n procs csCost) : WinFits n procs csCost := by
  obtain ⟨rank, ht⟩ : ∃ rank, Timetable n (fun i => (procs i).arrival)
      (arrivalsOf n fun i => (procs i).reset) rank := arrivalsOf_timetable
  obtain ⟨t, hreturns, _⟩ := h
  intro s hheads hdone
  rw [← (winHead_of_heads harrival hburst ht hheads).turn_isSome ht hdone]
  obtain ⟨u, hu, _⟩ := hreturns.2.turn hheads.2 (by simp [hdone])
  exact ⟨u, hu⟩

private theorem winValid_of_fits (hn : n ≤ MAXP) (h : WinFits n procs csCost) : WinValid n procs csCost := by
  obtain ⟨rank, ht⟩ : ∃ rank, Timetable n (fun i => (procs i).arrival)
      (arrivalsOf n fun i => (procs i).reset) rank := arrivalsOf_timetable
  have hloop : ∃ t, Returns (fun s => !s.done)
      (winTurn n (arrivalsOf n fun i => (procs i).reset) csCost) (winStart fun i => (procs i).reset) t ∧
        (WinHeads n (fun i => (procs i).reset) csCost t ∧
          WinHead n procs (arrivalsOf n fun i => (procs i).reset) rank t) ∧ (!t.done) = false := by
    apply returns_of_variant (fun s => (winLeft n (arrivalsOf n fun i => (procs i).reset) s).toNat) _
      ⟨⟨hn, .refl⟩, winHead_start harrival hburst ht⟩
    intro s hs hgoes
    obtain ⟨hheads, hhead⟩ := hs
    have hdone : s.done = false := by simpa using hgoes
    obtain ⟨t, hturn⟩ := (hhead.turn_isSome ht hdone).mpr (h s hheads hdone)
    obtain ⟨hnext, hless⟩ := hhead.turn ht harrival hdone hturn
    refine ⟨t, hturn, ⟨⟨hn, hheads.2.tail ⟨hgoes, hturn⟩⟩, hnext⟩, ?_⟩
    have hnonneg := hhead.inv.effort_nonneg
    have hpos : 0 < winLeft n (arrivalsOf n fun i => (procs i).reset) s := by
      rw [winLeft, hdone]
      split <;> simp <;> omega
    omega
  obtain ⟨t, hreturns, hhead, hstop⟩ := hloop
  exact ⟨t, ⟨hn, hreturns⟩, hhead.2.valid ht (by simpa using hstop)⟩

/-- `simulate_windows` ends with a valid schedule if and only if its clock does not overflow. -/
theorem simulate_windows_valid_iff (hn : n ≤ MAXP) : WinValid n procs csCost ↔ WinFits n procs csCost :=
  ⟨WinValid.fits harrival hburst, winValid_of_fits harrival hburst hn⟩

end Claim

/-- The first process is put back when its slice has ended, the second one arrives in the slice, and the
third one in the context switch behind it. -/
def threeProcs : Nat → Proc
  | 0 => ⟨1, 0, 16, 10, 0, 0, 0, 0, 0, 0, 0, 0⟩
  | 1 => ⟨2, 5, 3, 8, 0, 0, 0, 0, 0, 0, 0, 0⟩
  | _ => ⟨3, 14, 6, 12, 0, 0, 0, 0, 0, 0, 0, 0⟩

theorem simulate_windows_valid_three : WinValid 3 threeProcs 2 := by
  have harrival : ∀ i < 3, 0 ≤ (threeProcs i).arrival := by decide
  have hburst : ∀ i < 3, 0 ≤ (threeProcs i).burst := by decide
  refine (simulate_windows_valid_iff harrival hburst (by decide)).mpr fun s hheads _ => ?_
  have hpass : headsPass (fun s => !s.done) (winTurn 3 (arrivalsOf 3 fun i => (threeProcs i).reset) 2)
      (fun s => decide (SliceFits 3 2 (winReady 3 (arrivalsOf 3 fun i => (threeProcs i).reset) s))) 40
      (winStart fun i => (threeProcs i).reset) = true := by
    decide +kernel
  exact of_decide_eq_true (hheads.2.pass hpass)

/-- A process that arrives at the last int, and whose slice ends behind it. -/
theorem simulate_windows_overflows :
    ¬ WinValid 1 (fun _ => ⟨1, INT_MAX, 1, 7, 0, 0, 0, 0, 0, 0, 0, 0⟩) 0 := by
  intro h
  have hfits := h.fits (fun _ _ => by decide) fun _ _ => by decide
  have hstep : ((winTurn 1 (arrivalsOf 1 fun _ => Proc.reset
      ⟨1, INT_MAX, 1, 7, 0, 0, 0, 0, 0, 0, 0, 0⟩) 0 (winStart fun _ => Proc.reset
        ⟨1, INT_MAX, 1, 7, 0, 0, 0, 0, 0, 0, 0, 0⟩)).any fun s => !s.done &&
      !decide (SliceFits 1 0 (winReady 1 (arrivalsOf 1 fun _ => Proc.reset
        ⟨1, INT_MAX, 1, 7, 0, 0, 0, 0, 0, 0, 0, 0⟩) s))) = true := by
    decide +kernel
  obtain ⟨s, hs, hend⟩ := (Option.any_eq_true _ _).mp hstep
  rw [Bool.and_eq_true, Bool.not_eq_true', Bool.not_eq_true', decide_eq_false_iff_not] at hend
  exact hend.2 (hfits s ⟨by decide, .single ⟨rfl, hs⟩⟩ hend.1)

end CseOs.WindowsLinux
