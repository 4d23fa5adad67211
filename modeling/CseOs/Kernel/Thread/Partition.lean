import CseOs.Kernel.Thread.Threads
import Mathlib.Data.List.Perm.Basic
import Mathlib.Data.List.Perm.Lattice

/-!
# Where the threads are

Every thread that exists is the current one, in the run queue, among the sleepers or among the
zombies, and in one of these places only. What each function moves from one place to another is
said once here.
-/

namespace CseOs.Kernel.Threads

open Framework

variable {Addr : Type} {m m' : Threads Addr} {t cur : Nat}

/-- The threads that are not zombies. -/
def active (m : Threads Addr) : List Nat :=
  m.curthread.toList ++ m.runqueue.contents ++ m.sleepers.contents

def places (m : Threads Addr) : List Nat := m.active ++ m.zombies.contents

theorem makeRunnable_cases (h : m.runqueue.Valid) (t : Nat) : ∃ e q mem,
    makeRunnable t m = some (e, { m with runqueue := q, heap := mem }) ∧ q.Valid ∧
    m.runqueue.size ≤ q.size ∧ (e = none → q.contents = m.runqueue.contents ++ [t]) ∧
    (e ≠ none → q = m.runqueue ∧ m.heap.ok = false) ∧
    (¬ m.runqueue.Full → e = none ∧ mem = m.heap) := by
  obtain ⟨r, hr, hvalid, hsize, hok, hfail⟩ : ∃ r, Queue.qAddtail m.runqueue t m.heap = some r ∧ _ :=
    Queue.qAddtail_spec h
  refine ⟨r.error, r.val, r.mem, ?_, hvalid, hsize, hok, hfail, fun hroom => ?_⟩
  · rw [makeRunnable, hr]
    rfl
  · rw [Queue.qAddtail_room hroom] at hr
    cases hr
    exact ⟨rfl, rfl⟩

theorem assertOk_eq_some {r : Returned Addr} : assertOk r = some m' ↔ r.1 = none ∧ r.2 = m' := by
  rw [assertOk]
  cases h : r.1 with
  | none => simp
  | some e => simp

private theorem makeRunnable_assertOk (h : m.runqueue.Valid)
    (hm : (makeRunnable t m).bind assertOk = some m') : ∃ q mem,
    m' = { m with runqueue := q, heap := mem } ∧ q.Valid ∧
      q.contents = m.runqueue.contents ++ [t] := by
  obtain ⟨e, q, mem, hr, hvalid, _, hok, _⟩ := makeRunnable_cases h t
  rw [hr, Option.bind_some, assertOk_eq_some] at hm
  exact ⟨q, mem, hm.2.symm, hvalid, hok hm.1⟩

private theorem addSleeper_assertOk (hm : assertOk (addSleeper t m) = some m') : ∃ a mem,
    m' = { m with sleepers := a, heap := mem } ∧ a.contents = m.sleepers.contents ++ [t] ∧
      a.num = m.sleepers.num + 1 := by
  obtain ⟨herr, rfl⟩ := assertOk_eq_some.mp hm
  exact ⟨_, _, rfl, PtrArray.contents_arrayAdd herr⟩

private theorem addZombie_assertOk (hm : assertOk (addZombie t m) = some m') : ∃ a mem,
    m' = { m with zombies := a, heap := mem } ∧ a.contents = m.zombies.contents ++ [t] ∧
      a.num = m.zombies.num + 1 := by
  obtain ⟨herr, rfl⟩ := assertOk_eq_some.mp hm
  exact ⟨_, _, rfl, PtrArray.contents_arrayAdd herr⟩

/-- Yielding moves the current thread to the tail of the run queue. -/
theorem stash_ready (h : m.runqueue.Valid) (hcur : m.curthread = some cur)
    (hm : stash .ready m = some m') : ∃ q mem,
    m' = { m with curthread := none, runqueue := q, heap := mem } ∧ q.Valid ∧
      q.contents = m.runqueue.contents ++ [cur] := by
  rw [stash, hcur] at hm
  exact makeRunnable_assertOk (m := { m with curthread := none }) h hm

/-- Sleeping moves the current thread to the end of the sleepers. -/
theorem stash_sleep (hcur : m.curthread = some cur) (hm : stash .sleep m = some m') : ∃ a mem,
    m' = { m with curthread := none, sleepers := a, heap := mem } ∧
      a.contents = m.sleepers.contents ++ [cur] ∧ a.num = m.sleepers.num + 1 := by
  rw [stash, hcur] at hm
  exact addSleeper_assertOk (m := { m with curthread := none }) hm

/-- Exiting moves the current thread to the end of the zombies. -/
theorem stash_zomb (hcur : m.curthread = some cur) (hm : stash .zomb m = some m') : ∃ a mem,
    m' = { m with curthread := none, zombies := a, heap := mem } ∧
      a.contents = m.zombies.contents ++ [cur] ∧ a.num = m.zombies.num + 1 := by
  rw [stash, hcur] at hm
  exact addZombie_assertOk (m := { m with curthread := none }) hm

theorem stash_idle (s : ThreadState) (hcur : m.curthread = none) : stash s m = some m := by
  rw [stash, hcur]

private theorem zombies_emptied (a : PtrArray Nat) (mem : Kmalloc) : ∃ b, a.arraySetsize 0 mem = ⟨none, b, mem⟩ ∧
    b.contents = [] ∧ b.num = 0 ∧ (b.max = a.max ∨ b.max = 0) := by
  rw [PtrArray.arraySetsize, if_neg (Nat.not_lt_zero _)]
  split
  · exact ⟨_, rfl, rfl, rfl, .inr rfl⟩
  · exact ⟨_, rfl, rfl, rfl, .inl rfl⟩

theorem exorcise_cases (h : m.curthread = some cur) (hz : cur ∉ m.zombies.contents) : ∃ a,
    exorcise m = some { m with
      zombies := a
      created := fun t => m.created t && !m.zombies.contents.contains t } ∧
    a.contents = [] ∧ a.num = 0 ∧ (a.max = m.zombies.max ∨ a.max = 0) := by
  obtain ⟨a, ha, hnil, hnum, hmax⟩ := zombies_emptied m.zombies m.heap
  refine ⟨a, ?_, hnil, hnum, hmax⟩
  have hnot : ¬ ∃ z ∈ m.zombies.contents, m.curthread = some z := by
    rintro ⟨z, hz', hcur⟩
    rw [h] at hcur
    cases hcur
    exact hz hz'
  rw [exorcise, if_neg hnot, ha]
  rfl

/-- The head of the run queue becomes the current thread; the zombies go unless it is new. -/
theorem dispatch_cases (h : m.runqueue.Valid) (hnew : m.places.Nodup) (hm : dispatch m = some m') :
    ∃ next q, m.curthread = none ∧ m.runqueue.contents = next :: q.contents ∧ q.Valid ∧
      q.size = m.runqueue.size ∧
      ((m.started next = true ∧ ∃ a, a.contents = [] ∧ a.num = 0 ∧
          (a.max = m.zombies.max ∨ a.max = 0) ∧
          m' = { m with
            curthread := some next
            runqueue := q
            zombies := a
            created := fun t => m.created t && !m.zombies.contents.contains t
            sleepaddr := Function.update m.sleepaddr next none }) ∨
        (m.started next = false ∧ m' = { m with
            curthread := some next
            runqueue := q
            started := Function.update m.started next true })) := by
  rw [dispatch] at hm
  split at hm
  · cases hm
  · next hcur =>
    have hcur : m.curthread = none := by simpa using hcur
    cases Queue.qRemhead_spec h with
    | inl hnone =>
      rw [hnone.1] at hm
      cases hm
    | inr hsome =>
      obtain ⟨next, q, hq, hvalid, hsize, hcontents⟩ := hsome
      rw [hq] at hm
      refine ⟨next, q, hcur, hcontents, hvalid, hsize, ?_⟩
      have hz : next ∉ m.zombies.contents := by
        have hdisj := (List.nodup_append.mp hnew).2.2
        intro hmem
        refine hdisj next ?_ next hmem rfl
        rw [active, hcontents]
        simp
      simp only [Option.bind_eq_bind, Option.bind_some] at hm
      cases hstart : m.started next with
      | true =>
        left
        rw [hstart, if_pos rfl] at hm
        obtain ⟨a, ha, hnil, hnum, hmax⟩ := exorcise_cases
          (m := { m with curthread := some next, runqueue := q }) rfl hz
        rw [ha] at hm
        cases hm
        exact ⟨rfl, a, hnil, hnum, hmax, rfl⟩
      | false =>
        right
        rw [hstart, if_neg Bool.false_ne_true] at hm
        cases hm
        exact ⟨rfl, rfl⟩

section Wakeup

variable [DecidableEq Addr] {addr : Addr}

theorem sleeper_at {a : PtrArray Nat} {keep rest : List Nat} (h : a.contents = keep ++ t :: rest) :
    keep.length < a.num ∧ a.v keep.length = t ∧
      (a.arrayRemove keep.length).contents = keep ++ rest := by
  have hlen := congrArg List.length h
  rw [PtrArray.length_contents, List.length_append, List.length_cons] at hlen
  have hlt : keep.length < a.num := by omega
  refine ⟨hlt, ?_, ?_⟩
  · have hget : a.contents[keep.length]? = some t := by
      rw [h, List.getElem?_append_right (Nat.le_refl _), Nat.sub_self]
      rfl
    rw [PtrArray.contents, List.getElem?_map, List.getElem?_range hlt] at hget
    exact Option.some.inj hget
  · rw [PtrArray.contents_arrayRemove hlt, h, List.eraseIdx_append_of_length_le (Nat.le_refl _),
      Nat.sub_self]
    rfl

theorem wakeupFrom_cases {m m' : Threads Addr} {keep rest : List Nat} (h : m.runqueue.Valid)
    (hs : m.sleepers.contents = keep ++ rest) (hm : wakeupFrom addr rest.length keep.length m = some m') :
    ∃ a q mem, m' = { m with sleepers := a, runqueue := q, heap := mem } ∧ q.Valid ∧
      a.max = m.sleepers.max ∧
      a.contents = keep ++ rest.filter (fun t => m.sleepaddr t ≠ some addr) ∧
      q.contents = m.runqueue.contents ++ rest.filter (fun t => m.sleepaddr t = some addr) := by
  induction rest generalizing m keep with
  | nil =>
    cases hm
    exact ⟨_, _, _, rfl, h, rfl, hs, (List.append_nil _).symm⟩
  | cons t rest ih =>
    obtain ⟨hlt, hv, hremove⟩ := sleeper_at hs
    rw [List.length_cons, wakeupFrom, if_pos hlt] at hm
    simp only [hv] at hm
    split at hm
    · next haddr =>
      obtain ⟨m₁, hm₁, hrest⟩ := Option.bind_eq_some_iff.mp hm
      obtain ⟨q, mem, rfl, hvalid, hcontents⟩ := makeRunnable_assertOk
        (m := { m with sleepers := m.sleepers.arrayRemove keep.length }) h hm₁
      obtain ⟨a, q', mem', rfl, hvalid', hmax, ha, hq'⟩ := ih hvalid hremove hrest
      refine ⟨a, q', mem', rfl, hvalid', hmax, ?_, ?_⟩
      · rw [ha, List.filter_cons_of_neg (by simpa using haddr)]
      · rw [hq', hcontents, List.filter_cons_of_pos (by simpa using haddr), List.append_assoc]
        rfl
    · next haddr =>
      have hkeep : m.sleepers.contents = (keep ++ [t]) ++ rest := by
        rw [hs, List.append_assoc]
        rfl
      have hlen : (keep ++ [t]).length = keep.length + 1 := by
        rw [List.length_append, List.length_singleton]
      rw [← hlen] at hm
      obtain ⟨a, q, mem, rfl, hvalid, hmax, ha, hq⟩ := ih h hkeep hm
      refine ⟨a, q, mem, rfl, hvalid, hmax, ?_, ?_⟩
      · rw [ha, List.filter_cons_of_pos (by simpa using haddr), List.append_assoc]
        rfl
      · rw [hq, List.filter_cons_of_neg (by simpa using haddr)]

/-- All and only the sleepers on the address move to the tail of the run queue, in order. -/
theorem threadWakeup_cases (h : m.runqueue.Valid) (hm : threadWakeup addr m = some m') :
    ∃ a q mem, m' = { m with sleepers := a, runqueue := q, heap := mem } ∧ q.Valid ∧
      a.max = m.sleepers.max ∧
      a.contents = m.sleepers.contents.filter (fun t => m.sleepaddr t ≠ some addr) ∧
      q.contents = m.runqueue.contents ++
        m.sleepers.contents.filter (fun t => m.sleepaddr t = some addr) := by
  rw [threadWakeup, ← PtrArray.length_contents] at hm
  exact wakeupFrom_cases h (show m.sleepers.contents = [] ++ m.sleepers.contents from rfl) hm

/-- The loop ends without a failed assertion as long as every thread it wakes can be made
runnable; `P n` says that `n` more can. -/
theorem wakeupFrom_total (addr : Addr) {P : Nat → Threads Addr → Prop} (hskip : ∀ n m, P (n + 1) m → P n m)
    (hrun : ∀ n m a t, P (n + 1) m →
      ∃ m', (makeRunnable t { m with sleepers := a }).bind assertOk = some m' ∧ P n m')
    (fuel i : Nat) (h : P fuel m) : ∃ m' n, wakeupFrom addr fuel i m = some m' ∧ P n m' := by
  induction fuel generalizing m i with
  | zero => exact ⟨m, 0, rfl, h⟩
  | succ fuel ih =>
    rw [wakeupFrom]
    split
    · simp only
      split
      · obtain ⟨m₁, hm₁, hP⟩ := hrun fuel m (m.sleepers.arrayRemove i) (m.sleepers.v i) h
        rw [hm₁, Option.bind_some]
        exact ih i hP
      · exact ih (i + 1) (hskip fuel m h)
    · exact ⟨m, fuel + 1, rfl, h⟩

end Wakeup

/-- What the preallocations of `thread_fork` leave of an array: the same elements, and perhaps
a larger block. -/
structure SameElements (n : Nat) (a b : PtrArray Nat) : Prop where
  contents : b.contents = a.contents
  num : b.num = a.num
  max : b.max = a.max ∨ b.max = a.newmax n

private theorem SameElements.refl (n : Nat) (a : PtrArray Nat) : SameElements n a a := ⟨rfl, rfl, Or.inl rfl⟩

private theorem arrayPreallocate_cases (a : PtrArray Nat) (n : Nat) (mem : Kmalloc) :
    SameElements n a (a.arrayPreallocate n mem).val ∧
      ((a.arrayPreallocate n mem).error = none → (a.arrayPreallocate n mem).val.max = a.newmax n) := by
  rw [PtrArray.arrayPreallocate]
  split
  · exact ⟨⟨rfl, rfl, Or.inr rfl⟩, fun _ => rfl⟩
  · refine ⟨SameElements.refl n a, fun h => ?_⟩
    cases h

/-- The state after `thread_fork` made room: no thread has moved. -/
structure MadeRoom (m m' : Threads Addr) : Prop where
  sleepers : SameElements (m.numthreads + 1) m.sleepers m'.sleepers
  zombies : SameElements (m.numthreads + 1) m.zombies m'.zombies
  valid : m'.runqueue.Valid
  contents : m'.runqueue.contents = m.runqueue.contents
  size : m.runqueue.size ≤ m'.runqueue.size
  rest : m' = { m with
    sleepers := m'.sleepers, zombies := m'.zombies, runqueue := m'.runqueue, heap := m'.heap }

/-- A fork returns. One that succeeds puts the new thread at the tail of the run queue and counts
it; one that fails moves no thread. -/
theorem threadFork_spec (h : m.runqueue.Valid) (newguy : Nat) :
    ∃ e m', threadFork newguy m = some (e, m') ∧ ((e ≠ none ∧ MadeRoom m m') ∨
      (e = none ∧ ∃ m₁ q mem, MadeRoom m m₁ ∧ m₁.sleepers.max = m.sleepers.newmax (m.numthreads + 1) ∧
        m₁.zombies.max = m.zombies.newmax (m.numthreads + 1) ∧ q.Valid ∧
        q.contents = m₁.runqueue.contents ++ [newguy] ∧ m.numthreads + 1 ≤ q.size ∧
        m' = { m₁ with
          runqueue := q
          heap := mem
          numthreads := m₁.numthreads + 1
          created := Function.update m₁.created newguy true
          started := Function.update m₁.started newguy false
          sleepaddr := Function.update m₁.sleepaddr newguy none })) := by
  rw [threadFork]
  generalize m.heap.grab 3 = g
  simp only
  split
  · exact ⟨_, _, rfl, Or.inl ⟨by simp, .refl _ _, .refl _ _, h, rfl, Nat.le_refl _, rfl⟩⟩
  · have hs := arrayPreallocate_cases m.sleepers (m.numthreads + 1) g.2
    generalize m.sleepers.arrayPreallocate (m.numthreads + 1) g.2 = s at hs ⊢
    cases hse : s.error with
    | some e' =>
      simp only [Option.isSome_some, if_true]
      exact ⟨_, _, rfl, Or.inl ⟨by simp, .refl _ _, .refl _ _, h, rfl, Nat.le_refl _, rfl⟩⟩
    | none =>
      simp only [Option.isSome_none, Bool.false_eq_true, if_false]
      have hz := arrayPreallocate_cases m.zombies (m.numthreads + 1) s.mem
      generalize m.zombies.arrayPreallocate (m.numthreads + 1) s.mem = z at hz ⊢
      cases hze : z.error with
      | some e' =>
        simp only [Option.isSome_some, if_true]
        exact ⟨_, _, rfl, Or.inl ⟨by simp, hs.1, .refl _ _, h, rfl, Nat.le_refl _, rfl⟩⟩
      | none =>
        simp only [Option.isSome_none, Bool.false_eq_true, if_false]
        obtain ⟨q, hq, hvalid, hcontents, hge, henough, _⟩ : ∃ q,
            Queue.qPreallocate m.runqueue (m.numthreads + 1) z.mem = some q ∧ _ :=
          Queue.qPreallocate_spec h
        simp only [hq, Option.bind_eq_bind, Option.bind_some]
        have hroom : MadeRoom m { m with
            sleepers := s.val, zombies := z.val, runqueue := q.val, heap := q.mem } :=
          ⟨hs.1, hz.1, hvalid, hcontents, hge, rfl⟩
        cases hqe : q.error with
        | some e' =>
          simp only [Option.isSome_some, if_true]
          exact ⟨_, _, rfl, Or.inl ⟨by simp, hroom⟩⟩
        | none =>
          simp only [Option.isSome_none, Bool.false_eq_true, if_false]
          obtain ⟨e', q', mem, hr, hvalid', hsize, hok, hfail, _⟩ := makeRunnable_cases
            (m := { m with sleepers := s.val, zombies := z.val, runqueue := q.val, heap := q.mem })
            hvalid newguy
          rw [hr, Option.bind_some]
          cases e' with
          | some e' =>
            have hsame : q' = q.val := (hfail (by simp)).1
            refine ⟨_, _, rfl, Or.inl ⟨by simp, hs.1, hz.1, hvalid', ?_, Nat.le_trans hge hsize, rfl⟩⟩
            exact (congrArg RingBuffer.contents hsame).trans hcontents
          | none =>
            exact ⟨_, _, rfl, Or.inr ⟨rfl, _, q', mem, hroom, hs.2 hse, hz.2 hze, hvalid', hok rfl,
              Nat.le_trans (henough hqe) hsize, rfl⟩⟩

structure Partition (m : Threads Addr) : Prop where
  valid : m.runqueue.Valid
  nodup : m.places.Nodup
  created : ∀ t, t ∈ m.places ↔ m.created t = true
  count : m.numthreads = m.active.length

private theorem places_bootstrap (me : Nat) : (bootstrap me : Threads Addr).places = [me] := by
  simp [places, active, bootstrap, RingBuffer.contents, RingBuffer.count, PtrArray.contents]

theorem partition_bootstrap (me : Nat) : (bootstrap me : Threads Addr).Partition := by
  have hactive : (bootstrap me : Threads Addr).active = [me] := by
    simp [active, bootstrap, RingBuffer.contents, RingBuffer.count, PtrArray.contents]
  constructor
  · exact ⟨by show 0 < 32; decide, by show 0 < 32; decide⟩
  · rw [places_bootstrap]
    exact List.nodup_singleton me
  · intro t
    rw [places_bootstrap, List.mem_singleton]
    show t = me ↔ decide (t = me) = true
    rw [decide_eq_true_iff]
  · rw [hactive]
    rfl

namespace Partition

theorem move (h : m.Partition) (hvalid : m'.runqueue.Valid) (hp : m'.places.Perm m.places)
    (hcreated : m'.created = m.created) (hcount : m'.numthreads = m'.active.length) :
    m'.Partition where
  valid := hvalid
  nodup := hp.nodup_iff.mpr h.nodup
  created := fun t => by rw [hp.mem_iff, hcreated, h.created]
  count := hcount

theorem moveActive (h : m.Partition) (hvalid : m'.runqueue.Valid)
    (hactive : m'.active.Perm m.active) (hzombies : m'.zombies.contents = m.zombies.contents)
    (hcreated : m'.created = m.created) (hcount : m'.numthreads = m.numthreads) :
    m'.Partition := by
  apply h.move hvalid _ hcreated
  · rw [hcount, hactive.length_eq]
    exact h.count
  · rw [places, places, hzombies]
    exact hactive.append_right _

theorem withMemory (h : m.Partition) (answers : Nat → Bool) : (m.withMemory answers).Partition :=
  ⟨h.valid, h.nodup, h.created, h.count⟩

theorem threadYield (h : m.Partition) (hm : m.threadYield = some m') : m'.Partition := by
  cases hcur : m.curthread with
  | none =>
    rw [Threads.threadYield, stash_idle _ hcur] at hm
    cases hm
    exact h
  | some cur =>
    obtain ⟨q, mem, rfl, hvalid, hq⟩ := stash_ready h.valid hcur hm
    refine h.moveActive hvalid ?_ rfl rfl rfl
    simp only [active, hcur, hq, Option.toList_none, Option.toList_some, List.nil_append]
    exact (List.perm_append_singleton cur _).append_right _

theorem threadSleep {addr : Addr} (h : m.Partition) (hm : m.threadSleep addr = some m') :
    m'.Partition := by
  obtain ⟨cur, hcur, hm⟩ := Option.bind_eq_some_iff.mp hm
  obtain ⟨a, mem, rfl, ha, -⟩ := stash_sleep (m := { m with
    sleepaddr := Function.update m.sleepaddr cur (some addr) }) hcur hm
  refine h.moveActive h.valid ?_ rfl rfl rfl
  simp only [active, hcur, ha, Option.toList_none, Option.toList_some, List.nil_append]
  rw [← List.append_assoc, List.append_assoc [cur]]
  exact List.perm_append_comm

theorem threadExit (h : m.Partition) (hm : m.threadExit = some m') : m'.Partition := by
  rw [Threads.threadExit] at hm
  split at hm
  · cases hm
  · next hnot =>
    obtain ⟨cur, hcur⟩ : ∃ cur, m.curthread = some cur := by
      apply Option.ne_none_iff_exists'.mp
      simpa using (not_or.mp hnot).1
    obtain ⟨a, mem, rfl, ha, -⟩ := stash_zomb (m := { m with numthreads := m.numthreads - 1 }) hcur hm
    have hactive : m.active = cur :: (m.runqueue.contents ++ m.sleepers.contents) := by
      rw [active, hcur]
      rfl
    refine h.move h.valid ?_ rfl ?_
    · rw [places, places, hactive]
      simp only [active, ha, Option.toList_none, List.nil_append]
      rw [← List.append_assoc, List.cons_append]
      exact List.perm_append_singleton cur _
    · have hlen := h.count
      rw [hactive, List.length_cons] at hlen
      show m.numthreads - 1 = (m.runqueue.contents ++ m.sleepers.contents).length
      omega

theorem threadWakeup [DecidableEq Addr] {addr : Addr} (h : m.Partition)
    (hm : m.threadWakeup addr = some m') : m'.Partition := by
  obtain ⟨a, q, mem, rfl, hvalid, -, ha, hq⟩ := threadWakeup_cases h.valid hm
  have hsplit : (m.sleepers.contents.filter (fun t => m.sleepaddr t = some addr) ++
      m.sleepers.contents.filter (fun t => m.sleepaddr t ≠ some addr)).Perm m.sleepers.contents := by
    have := List.filter_append_perm (fun t => decide (m.sleepaddr t = some addr)) m.sleepers.contents
    simpa using this
  refine h.moveActive hvalid ?_ rfl rfl rfl
  simp only [active, ha, hq]
  rw [List.append_assoc, List.append_assoc, List.append_assoc]
  exact (hsplit.append_left _).append_left _

theorem dispatch (h : m.Partition) (hm : m.dispatch = some m') : m'.Partition := by
  obtain ⟨next, q, hcur, hq, hvalid, -, hcases⟩ := dispatch_cases h.valid h.nodup hm
  have hactive : m.active = next :: q.contents ++ m.sleepers.contents := by
    rw [active, hcur, hq]
    rfl
  cases hcases with
  | inl hold =>
    obtain ⟨-, a, ha, -, -, rfl⟩ := hold
    have hplaces : places { m with
        curthread := some next, runqueue := q, zombies := a
        created := fun t => m.created t && !m.zombies.contents.contains t
        sleepaddr := Function.update m.sleepaddr next none } = m.active := by
      rw [places, ha, List.append_nil, hactive]
      rfl
    have hdisj := List.nodup_append.mp h.nodup
    constructor
    · exact hvalid
    · rw [hplaces]
      exact hdisj.1
    · intro t
      rw [hplaces]
      show t ∈ m.active ↔ (m.created t && !m.zombies.contents.contains t) = true
      rw [Bool.and_eq_true, ← h.created t, places, List.mem_append, Bool.not_eq_true',
        ← Bool.not_eq_true, List.contains_iff_mem]
      constructor
      · exact fun ht => ⟨.inl ht, fun hz => hdisj.2.2 t ht t hz rfl⟩
      · exact fun ht => ht.1.resolve_right ht.2
    · have hlen := h.count
      rw [hactive] at hlen
      exact hlen
  | inr hnew =>
    obtain ⟨-, rfl⟩ := hnew
    refine h.moveActive hvalid ?_ rfl rfl rfl
    rw [hactive]
    exact .refl _

/-- Making room moves no thread. -/
theorem madeRoom (h : m.Partition) (hroom : MadeRoom m m') : m'.Partition := by
  have hrest := hroom.rest
  refine h.moveActive hroom.valid ?_ hroom.zombies.contents ?_ ?_
  · rw [active, active, hroom.contents, hroom.sleepers.contents, hrest]
  · rw [hrest]
  · rw [hrest]

theorem threadFork {newguy : Nat} {e : Option Errno} (h : m.Partition)
    (hnew : m.created newguy = false) (hm : m.threadFork newguy = some (e, m')) : m'.Partition := by
  obtain ⟨e', a, hrun, hcases⟩ := threadFork_spec h.valid newguy
  rw [hrun] at hm
  cases hm
  cases hcases with
  | inl hfail => exact h.madeRoom hfail.2
  | inr hok =>
    obtain ⟨-, m₁, q, mem, hroom, -, -, hvalid, hq, -, rfl⟩ := hok
    have h₁ := h.madeRoom hroom
    have hcreated : m₁.created = m.created := by rw [hroom.rest]
    have hnot : newguy ∉ m₁.places := by
      rw [h₁.created, hcreated, hnew]
      exact Bool.false_ne_true
    have hactive : (active { m₁ with
        runqueue := q, heap := mem, numthreads := m₁.numthreads + 1
        created := Function.update m₁.created newguy true
        started := Function.update m₁.started newguy false
        sleepaddr := Function.update m₁.sleepaddr newguy none }).Perm (newguy :: m₁.active) := by
      simp only [active, hq]
      rw [← List.append_assoc, List.append_assoc _ [newguy], ← List.singleton_append]
      refine (List.perm_append_comm_assoc _ _ _).trans ?_
      exact .refl _
    have hplaces := hactive.append_right m₁.zombies.contents
    constructor
    · exact hvalid
    · apply hplaces.nodup_iff.mpr
      exact List.nodup_cons.mpr ⟨hnot, h₁.nodup⟩
    · intro t
      refine hplaces.mem_iff.trans ?_
      show t ∈ newguy :: m₁.places ↔ Function.update m₁.created newguy true t = true
      rw [List.mem_cons, h₁.created]
      by_cases ht : t = newguy
      · subst ht
        simp
      · rw [Function.update_of_ne ht]
        exact or_iff_right ht
    · rw [hactive.length_eq, List.length_cons, ← h₁.count]

theorem step [DecidableEq Addr] (h : m.Partition) (hstep : Step m m') : m'.Partition := by
  obtain ⟨e, answers, hlegal, hm⟩ := hstep
  have h' := h.withMemory answers
  cases e with
  | fork newguy =>
    obtain ⟨⟨err, _⟩, hfork, rfl⟩ := Option.map_eq_some_iff.mp hm
    exact h'.threadFork hlegal.1 hfork
  | yield => exact h'.threadYield hm
  | sleep addr => exact h'.threadSleep hm
  | wakeup addr => exact h'.threadWakeup hm
  | exit => exact h'.threadExit hm
  | dispatch => exact h'.dispatch hm

end Partition

end CseOs.Kernel.Threads
