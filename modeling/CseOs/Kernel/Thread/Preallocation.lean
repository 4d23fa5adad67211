import CseOs.Kernel.Thread.Conservation

/-!
# Room made by `thread_fork`

When `mi_switch` and `thread_wakeup` find the room they need without asking for memory. The run
queue holds one thread less than its size, the zombies are not counted when room is made for
them, and `exorcise` gives a large block back.
-/

namespace CseOs.Kernel.Threads

open Framework

variable {Addr : Type} {m m' : Threads Addr} {t cur : Nat}

section Condition

variable [DecidableEq Addr]

/-- One event, with any answers of `kmalloc`. -/
def StepBy (m : Threads Addr) (e : Event Addr) (m' : Threads Addr) : Prop :=
  ∃ answers : Nat → Bool, e.Legal m ∧ e.apply (m.withMemory answers) = some m'

/-- The events that put threads away in `mi_switch` or `thread_wakeup`. -/
def Event.PutsAway (m : Threads Addr) : Event Addr → Prop
  | .yield => True
  | .wakeup _ => True
  | .sleep _ => m.curthread ≠ none
  | .exit => m.curthread ≠ none
  | .fork _ => False
  | .dispatch => False

/-- The event does not depend on what the preallocations leave out: as many threads as the ring
has cells, all of them to be ready at once; arrays without a block; zombies that are there when
a thread is forked. -/
def Event.Covered (m : Threads Addr) : Event Addr → Prop
  | .fork _ =>
    m.zombies.num + (m.numthreads + 1) ≤ m.zombies.newmax (m.numthreads + 1)
  | .yield => ¬ (m.numthreads = m.runqueue.size ∧ m.curthread ≠ none ∧ m.sleepers.num = 0)
  | .sleep _ => m.sleepers.max ≠ 0
  | .wakeup addr => ¬ (m.numthreads = m.runqueue.size ∧ m.curthread = none ∧
      ∀ t ∈ m.sleepers.contents, m.sleepaddr t = some addr)
  | .exit => m.zombies.max ≠ 0
  | .dispatch => True

end Condition

/-- Room for every thread in each of the three places, where there is a block at all. -/
structure Roomy (m : Threads Addr) : Prop where
  partition : m.Partition
  runqueue : m.numthreads ≤ m.runqueue.size
  sleepers : m.sleepers.max = 0 ∨ m.numthreads ≤ m.sleepers.max
  zombies : (m.zombies.max = 0 ∧ m.zombies.num = 0) ∨
    m.zombies.num + m.numthreads ≤ m.zombies.max

private theorem roomy_bootstrap (me : Nat) : (bootstrap me : Threads Addr).Roomy where
  partition := partition_bootstrap me
  runqueue := by show 1 ≤ 32; decide
  sleepers := .inl rfl
  zombies := .inl ⟨rfl, rfl⟩

private theorem Roomy.withMemory (h : m.Roomy) (answers : Nat → Bool) : (m.withMemory answers).Roomy :=
  ⟨h.partition.withMemory answers, h.runqueue, h.sleepers, h.zombies⟩

private theorem Partition.count_eq (h : m.Partition) : m.numthreads =
    m.curthread.toList.length + m.runqueue.contents.length + m.sleepers.num := by
  rw [h.count, active, List.length_append, List.length_append, PtrArray.length_contents]

private theorem not_full (h : m.runqueue.Valid)
    (hlt : m.runqueue.contents.length + 1 < m.runqueue.size) : ¬ m.runqueue.Full := by
  rw [RingBuffer.full_iff h]
  rw [RingBuffer.length_contents] at hlt
  omega

theorem makeRunnable_room (h : m.runqueue.Valid)
    (hlt : m.runqueue.contents.length + 1 < m.runqueue.size) (t : Nat) : ∃ q,
    (makeRunnable t m).bind assertOk = some { m with runqueue := q } ∧ q.Valid ∧
      q.contents = m.runqueue.contents ++ [t] ∧ q.size = m.runqueue.size := by
  have hroom := not_full h hlt
  refine ⟨m.runqueue.push t, ?_, h.push, RingBuffer.contents_push h hroom, rfl⟩
  rw [makeRunnable, Queue.qAddtail_room hroom]
  rfl

/-- The step succeeds without memory and keeps the invariant. -/
def Settles (m : Threads Addr) (r : Option (Threads Addr)) : Prop :=
  ∃ m', r = some m' ∧ m'.heap = m.heap ∧ m'.Roomy

private theorem Roomy.threadYield (h : m.Roomy)
    (hc : ¬ (m.numthreads = m.runqueue.size ∧ m.curthread ≠ none ∧ m.sleepers.num = 0)) :
    Settles m m.threadYield := by
  cases hcur : m.curthread with
  | none => exact ⟨m, stash_idle .ready hcur, rfl, h⟩
  | some cur =>
    have hcount := h.partition.count_eq
    have hsize := h.runqueue
    rw [hcur] at hcount
    rw [Option.toList_some, List.length_singleton] at hcount
    have hlt : m.runqueue.contents.length + 1 < m.runqueue.size := by
      by_contra hge
      apply hc
      rw [hcur]
      exact ⟨by omega, Option.some_ne_none cur, by omega⟩
    obtain ⟨q, hq, _, _, hqsize⟩ :=
      makeRunnable_room (m := { m with curthread := none }) h.partition.valid hlt cur
    have hrun : m.threadYield = some { m with curthread := none, runqueue := q } := by
      rw [Threads.threadYield, stash, hcur]
      exact hq
    refine ⟨_, hrun, rfl, h.partition.threadYield hrun, ?_, h.sleepers, h.zombies⟩
    show m.numthreads ≤ q.size
    rw [hqsize]
    exact h.runqueue

private theorem Roomy.threadSleep (h : m.Roomy) (hcur : m.curthread ≠ none) (hc : m.sleepers.max ≠ 0)
    (addr : Addr) : Settles m (m.threadSleep addr) := by
  obtain ⟨cur, hcur⟩ := Option.ne_none_iff_exists'.mp hcur
  have hcount := h.partition.count_eq
  rw [hcur, Option.toList_some, List.length_singleton] at hcount
  have hmax := h.sleepers.resolve_left hc
  have hrun : m.threadSleep addr = some { m with
      curthread := none
      sleepers := { m.sleepers with
        num := m.sleepers.num + 1, v := Function.update m.sleepers.v m.sleepers.num cur }
      sleepaddr := Function.update m.sleepaddr cur (some addr) } := by
    rw [Threads.threadSleep, hcur, Option.bind_eq_bind, Option.bind_some]
    simp only [stash, addSleeper]
    rw [PtrArray.arrayAdd_room (by omega)]
    rfl
  exact ⟨_, hrun, rfl, h.partition.threadSleep hrun, h.runqueue, .inr hmax, h.zombies⟩

private theorem Roomy.threadExit (h : m.Roomy) (hcur : m.curthread ≠ none) (hc : m.zombies.max ≠ 0) :
    Settles m m.threadExit := by
  obtain ⟨cur, hcur⟩ := Option.ne_none_iff_exists'.mp hcur
  have hcount := h.partition.count_eq
  rw [hcur, Option.toList_some, List.length_singleton] at hcount
  have hmax := h.zombies.resolve_left fun hz => hc hz.1
  have hrun : m.threadExit = some { m with
      curthread := none
      numthreads := m.numthreads - 1
      zombies := { m.zombies with
        num := m.zombies.num + 1, v := Function.update m.zombies.v m.zombies.num cur } } := by
    rw [Threads.threadExit, if_neg (by simp [hcur]; omega)]
    simp only [stash, hcur, addZombie]
    rw [PtrArray.arrayAdd_room (by omega)]
    rfl
  have hrunqueue := h.runqueue
  refine ⟨_, hrun, rfl, h.partition.threadExit hrun, ?_, ?_, .inr ?_⟩
  · show m.numthreads - 1 ≤ m.runqueue.size
    omega
  · exact h.sleepers.imp_right fun hs => Nat.le_trans (Nat.sub_le _ _) hs
  · show m.zombies.num + 1 + (m.numthreads - 1) ≤ m.zombies.max
    omega

section Wakeup

variable [DecidableEq Addr] {addr : Addr}

theorem wakeupFrom_room {m : Threads Addr} {keep rest : List Nat} (h : m.runqueue.Valid)
    (hs : m.sleepers.contents = keep ++ rest)
    (hroom : m.runqueue.contents.length +
      (rest.filter fun t => m.sleepaddr t = some addr).length < m.runqueue.size) :
    ∃ m', wakeupFrom addr rest.length keep.length m = some m' ∧ m'.heap = m.heap ∧
      m'.runqueue.size = m.runqueue.size := by
  induction rest generalizing m keep with
  | nil => exact ⟨m, rfl, rfl, rfl⟩
  | cons t rest ih =>
    obtain ⟨hlt, hv, hremove⟩ := sleeper_at hs
    rw [List.length_cons, wakeupFrom, if_pos hlt]
    simp only [hv]
    split
    · next haddr =>
      rw [List.filter_cons_of_pos (by simpa using haddr), List.length_cons] at hroom
      have hone : m.runqueue.contents.length + 1 < m.runqueue.size := by omega
      obtain ⟨q, hq, hvalid, hcontents, hsize⟩ := makeRunnable_room
        (m := { m with sleepers := m.sleepers.arrayRemove keep.length }) h hone t
      have hlen : q.contents.length = m.runqueue.contents.length + 1 := by
        rw [hcontents, List.length_append, List.length_singleton]
      have hrest : q.contents.length +
          (rest.filter fun t => m.sleepaddr t = some addr).length < q.size := by
        rw [hlen, hsize]
        show _ < m.runqueue.size
        omega
      rw [hq, Option.bind_some]
      obtain ⟨m', hrun, hheap, hsize'⟩ := ih (m := { m with
        sleepers := m.sleepers.arrayRemove keep.length, runqueue := q }) hvalid hremove hrest
      exact ⟨m', hrun, hheap, hsize'.trans hsize⟩
    · next haddr =>
      rw [List.filter_cons_of_neg (by simpa using haddr)] at hroom
      have hkeep : m.sleepers.contents = (keep ++ [t]) ++ rest := by
        rw [hs, List.append_assoc]
        rfl
      have hlen : (keep ++ [t]).length = keep.length + 1 := by
        rw [List.length_append, List.length_singleton]
      rw [← hlen]
      exact ih h hkeep hroom

private theorem Roomy.threadWakeup (h : m.Roomy) (hc : ¬ (m.numthreads = m.runqueue.size ∧
    m.curthread = none ∧ ∀ t ∈ m.sleepers.contents, m.sleepaddr t = some addr)) :
    Settles m (m.threadWakeup addr) := by
  have hcount := h.partition.count_eq
  have hsize := h.runqueue
  have hle := List.length_filter_le (fun t => decide (m.sleepaddr t = some addr)) m.sleepers.contents
  rw [PtrArray.length_contents] at hle
  have hroom : m.runqueue.contents.length +
      (m.sleepers.contents.filter fun t => m.sleepaddr t = some addr).length < m.runqueue.size := by
    by_contra hge
    have hnone : m.curthread = none := by
      cases hcur : m.curthread with
      | none => rfl
      | some cur =>
        rw [hcur, Option.toList_some, List.length_singleton] at hcount
        omega
    apply hc
    rw [hnone, Option.toList_none, List.length_nil] at hcount
    refine ⟨by omega, hnone, ?_⟩
    have hall := List.length_filter_eq_length_iff.mp
      (show (m.sleepers.contents.filter fun t => decide (m.sleepaddr t = some addr)).length =
        m.sleepers.contents.length by rw [PtrArray.length_contents]; omega)
    exact fun t ht => of_decide_eq_true (hall t ht)
  obtain ⟨m', hrun, hheap, hsize'⟩ := wakeupFrom_room h.partition.valid
    (show m.sleepers.contents = [] ++ m.sleepers.contents from rfl) hroom
  rw [PtrArray.length_contents] at hrun
  have hp := h.partition.threadWakeup hrun
  obtain ⟨a, q, mem, rfl, _, hmax, _, _⟩ := threadWakeup_cases h.partition.valid hrun
  refine ⟨_, hrun, hheap, hp, ?_, ?_, h.zombies⟩
  · show m.numthreads ≤ q.size
    rw [show q.size = m.runqueue.size from hsize']
    exact h.runqueue
  · show a.max = 0 ∨ m.numthreads ≤ a.max
    rw [hmax]
    exact h.sleepers

end Wakeup

theorem Roomy.dispatch (h : m.Roomy) (hm : m.dispatch = some m') : m'.Roomy := by
  have hp := h.partition.dispatch hm
  obtain ⟨next, q, _, _, _, hsize, hcases⟩ := dispatch_cases h.partition.valid h.partition.nodup hm
  have hrun := h.runqueue
  rw [← hsize] at hrun
  cases hcases with
  | inl hold =>
    obtain ⟨_, a, _, hnum, hmax, rfl⟩ := hold
    refine ⟨hp, hrun, h.sleepers, ?_⟩
    show (a.max = 0 ∧ a.num = 0) ∨ a.num + m.numthreads ≤ a.max
    have hzombies := h.zombies
    omega
  | inr hnew =>
    obtain ⟨_, rfl⟩ := hnew
    exact ⟨hp, hrun, h.sleepers, h.zombies⟩

private theorem SameElements.max_le {n : Nat} {a b : PtrArray Nat} (h : SameElements n a b) :
    (b.max = a.max ∨ n ≤ b.max) ∧ a.max ≤ b.max := by
  cases h.max with
  | inl hsame => exact ⟨.inl hsame, Nat.le_of_eq hsame.symm⟩
  | inr hnew =>
    rw [hnew]
    exact ⟨.inr (PtrArray.le_newmax a n), PtrArray.max_le_newmax a n⟩

private theorem Roomy.madeRoom (h : m.Roomy) (hroom : MadeRoom m m') : m'.Roomy := by
  have hn : m'.numthreads = m.numthreads := by rw [hroom.rest]
  have hs := hroom.sleepers.max_le
  have hz := hroom.zombies.max_le
  have hznum := hroom.zombies.num
  have hsize := hroom.size
  have hrun := h.runqueue
  have hsleepers := h.sleepers
  have hzombies := h.zombies
  refine ⟨h.partition.madeRoom hroom, ?_, ?_, ?_⟩
  · omega
  · omega
  · omega

private theorem Roomy.threadFork {newguy : Nat} {e : Option Errno} (h : m.Roomy)
    (hnew : m.created newguy = false)
    (hc : m.zombies.num + (m.numthreads + 1) ≤ m.zombies.newmax (m.numthreads + 1))
    (hm : m.threadFork newguy = some (e, m')) : m'.Roomy := by
  have hp := h.partition.threadFork hnew hm
  obtain ⟨e', a, hrun, hcases⟩ := threadFork_spec h.partition.valid newguy
  rw [hrun] at hm
  cases hm
  cases hcases with
  | inl hfail => exact h.madeRoom hfail.2
  | inr hok =>
    obtain ⟨_, m₁, q, mem, hroom, hs, hz, _, _, hsize, rfl⟩ := hok
    have hn : m₁.numthreads = m.numthreads := by rw [hroom.rest]
    have hsmax := PtrArray.le_newmax m.sleepers (m.numthreads + 1)
    refine ⟨hp, ?_, .inr ?_, .inr ?_⟩
    · show m₁.numthreads + 1 ≤ q.size
      omega
    · show m₁.numthreads + 1 ≤ m₁.sleepers.max
      omega
    · show m₁.zombies.num + (m₁.numthreads + 1) ≤ m₁.zombies.max
      rw [hroom.zombies.num]
      omega

section Runs

variable [DecidableEq Addr]

private theorem Roomy.putsAway (h : m.Roomy) {e : Event Addr} (he : e.PutsAway m) (hc : e.Covered m) :
    Settles m (e.apply m) := by
  cases e with
  | fork newguy => exact he.elim
  | dispatch => exact he.elim
  | yield => exact h.threadYield hc
  | sleep addr => exact h.threadSleep he hc addr
  | wakeup addr => exact h.threadWakeup hc
  | exit => exact h.threadExit he hc

private theorem Roomy.stepBy (h : m.Roomy) {e : Event Addr} (hc : e.Covered m) (hstep : StepBy m e m') :
    m'.Roomy := by
  obtain ⟨answers, hlegal, hm⟩ := hstep
  have hw := h.withMemory answers
  by_cases he : e.PutsAway (m.withMemory answers)
  · obtain ⟨m₁, hrun, _, hroomy⟩ := hw.putsAway he hc
    rw [hrun] at hm
    cases hm
    exact hroomy
  · cases e with
    | fork newguy =>
      obtain ⟨⟨err, _⟩, hfork, rfl⟩ := Option.map_eq_some_iff.mp hm
      exact hw.threadFork hlegal.1 hc hfork
    | dispatch => exact hw.dispatch hm
    | yield => exact absurd trivial he
    | wakeup addr => exact absurd trivial he
    | sleep addr =>
      have hnone : m.curthread = none := of_not_not he
      obtain ⟨cur, hcur, _⟩ := Option.bind_eq_some_iff.mp hm
      exact absurd (hnone.symm.trans hcur) (Option.some_ne_none cur).symm
    | exit =>
      have hnone : m.curthread = none := of_not_not he
      rw [Event.apply, Threads.threadExit,
        if_pos (.inl (Option.isNone_iff_eq_none.mpr hnone))] at hm
      cases hm

/-- In a run all of whose steps are covered, `mi_switch` and `thread_wakeup` put every thread away
without asking for memory. -/
theorem preallocation_suffices (h : Reachable Boots (Guarded Event.Covered StepBy) m)
    (e : Event Addr) (he : e.PutsAway m) (hc : e.Covered m) (answers : Nat → Bool) :
    ∃ m', e.apply (m.withMemory answers) = some m' ∧
      m'.heap = (m.withMemory answers).heap := by
  have hroomy : m.Roomy := by
    apply h.invariant
    · intro s ⟨me, hs⟩
      rw [hs]
      exact roomy_bootstrap me
    · exact fun s s' _ hs ⟨_, hc, hstep⟩ => hs.stepBy hc hstep
  obtain ⟨m', hrun, hheap, _⟩ := (hroomy.withMemory answers).putsAway he hc
  exact ⟨m', hrun, hheap⟩

end Runs

theorem preallocation_suffices_sleep : ∃ m m' : Threads Nat,
    Reachable Boots (Guarded Event.Covered StepBy) m ∧
      threadSleep 7 (m.withMemory fun _ => false) = some m' ∧ m'.heap.calls = 0 := by
  have hfork := (Reachable.start (show Boots (bootstrap 0 : Threads Nat) from ⟨0, rfl⟩)).next
    (show Guarded Event.Covered StepBy (bootstrap 0) _ from
      ⟨.fork 1, Nat.le_refl 2, fun _ => true, ⟨by decide, by decide⟩, rfl⟩)
  obtain ⟨m', hrun, hheap⟩ := preallocation_suffices hfork (.sleep 7)
    (Option.some_ne_none 0) (Nat.succ_ne_zero 1) fun _ => false
  exact ⟨_, m', hfork, hrun, by rw [hheap]; rfl⟩

/-- Two threads that forked their successors and exited are zombies when the third exits: room
was made for two. -/
theorem zombies_not_counted : ¬ ∀ (m : Threads Nat), Reachable Boots Step m →
    ∀ e : Event Nat, e.PutsAway m → ∀ answers, ∃ m', e.apply (m.withMemory answers) = some m' ∧
      m'.heap = (m.withMemory answers).heap := by
  intro hall
  have h₀ : Reachable Boots Step (bootstrap 0 : Threads Nat) := .start ⟨0, rfl⟩
  have h₁ := h₀.next ⟨.fork 1, fun _ => true, ⟨by decide, by decide⟩, rfl⟩
  have h₂ := h₁.next ⟨.exit, fun _ => true, trivial, rfl⟩
  have h₃ := h₂.next ⟨.dispatch, fun _ => true, trivial, rfl⟩
  have h₄ := h₃.next ⟨.fork 2, fun _ => true, ⟨by decide, by decide⟩, rfl⟩
  have h₅ := h₄.next ⟨.exit, fun _ => true, trivial, rfl⟩
  have h₆ := h₅.next ⟨.dispatch, fun _ => true, trivial, rfl⟩
  have h₇ := h₆.next ⟨.fork 3, fun _ => true, ⟨by decide, by decide⟩, rfl⟩
  obtain ⟨m', hrun, _⟩ := hall _ h₇ .exit (Option.some_ne_none 2) fun _ => false
  cases hrun

end CseOs.Kernel.Threads
