import CseOs.Kernel.Thread.Partition
import Mathlib.Data.Set.Card

/-!
# No thread is lost or duplicated

In every reachable state each thread that exists is in one place, a fork that fails moves no
thread, and a wakeup moves the sleepers on its address.
-/

namespace CseOs.Kernel.Threads

open Framework

variable {Addr : Type} {m m' : Threads Addr} {t : Nat}

/-- Where a thread can be. -/
inductive Place where
  | current
  | runqueue
  | sleepers
  | zombies
deriving DecidableEq

def threadsAt (m : Threads Addr) : Place → List Nat
  | .current => m.curthread.toList
  | .runqueue => m.runqueue.contents
  | .sleepers => m.sleepers.contents
  | .zombies => m.zombies.contents

/-- Every thread is where it was, and counted as it was. -/
structure Unmoved (m m' : Threads Addr) : Prop where
  threadsAt : m'.threadsAt = m.threadsAt
  numthreads : m'.numthreads = m.numthreads
  created : m'.created = m.created

/-- The sleepers on the address, and no others, have moved to the tail of the run queue. -/
structure Woken [DecidableEq Addr] (addr : Addr) (m m' : Threads Addr) : Prop where
  runqueue : m'.runqueue.contents = m.runqueue.contents ++
    m.sleepers.contents.filter fun t => m.sleepaddr t = some addr
  sleepers : m'.sleepers.contents =
    m.sleepers.contents.filter fun t => m.sleepaddr t ≠ some addr
  rest : m' = { m with runqueue := m'.runqueue, sleepers := m'.sleepers, heap := m'.heap }

/-- The system starts with one thread. -/
def Boots (m : Threads Addr) : Prop := ∃ me, m = bootstrap me

private theorem MadeRoom.unmoved (h : MadeRoom m m') : Unmoved m m' := by
  have hrest := h.rest
  constructor
  · funext place
    cases place with
    | current => rw [threadsAt, threadsAt, hrest]
    | runqueue => exact h.contents
    | sleepers => exact h.sleepers.contents
    | zombies => exact h.zombies.contents
  · rw [hrest]
  · rw [hrest]

namespace Partition

theorem mem_places (m : Threads Addr) (t : Nat) :
    t ∈ m.places ↔ ∃ place, t ∈ m.threadsAt place := by
  rw [places, active, List.mem_append, List.mem_append, List.mem_append]
  constructor
  · intro ht
    rcases ht with ((ht | ht) | ht) | ht
    · exact ⟨.current, ht⟩
    · exact ⟨.runqueue, ht⟩
    · exact ⟨.sleepers, ht⟩
    · exact ⟨.zombies, ht⟩
  · intro h
    obtain ⟨place, ht⟩ := h
    cases place with
    | current => exact .inl (.inl (.inl ht))
    | runqueue => exact .inl (.inl (.inr ht))
    | sleepers => exact .inl (.inr ht)
    | zombies => exact .inr ht

private theorem nodup_at (h : m.Partition) (place : Place) : (m.threadsAt place).Nodup := by
  have hall := List.nodup_append.mp h.nodup
  have hactive := List.nodup_append.mp hall.1
  have hrun := List.nodup_append.mp hactive.1
  cases place with
  | current => exact hrun.1
  | runqueue => exact hrun.2.1
  | sleepers => exact hactive.2.1
  | zombies => exact hall.2.1

theorem one_place (h : m.Partition) {place place' : Place} (ht : t ∈ m.threadsAt place)
    (ht' : t ∈ m.threadsAt place') : place = place' := by
  have hnodup : ((m.threadsAt .current ++ m.threadsAt .runqueue ++ m.threadsAt .sleepers) ++
      m.threadsAt .zombies).Nodup := h.nodup
  simp only [List.nodup_append, List.mem_append] at hnodup
  obtain ⟨⟨⟨_, _, hcr⟩, _, hs⟩, _, hz⟩ := hnodup
  cases place <;> cases place' <;> first
    | rfl
    | exact absurd rfl (hz _ (by tauto) _ (by assumption))
    | exact absurd rfl (hs _ (by tauto) _ (by assumption))
    | exact absurd rfl (hcr _ (by assumption) _ (by assumption))

theorem count_live (h : m.Partition) :
    {t | m.created t = true ∧ t ∉ m.threadsAt .zombies}.ncard = m.numthreads := by
  have hall := List.nodup_append.mp h.nodup
  have hset : {t | m.created t = true ∧ t ∉ m.threadsAt .zombies} = ↑m.active.toFinset := by
    ext t
    rw [List.coe_toFinset, Set.mem_ofPred_eq, Set.mem_ofPred_eq, ← h.created, places, List.mem_append]
    constructor
    · exact fun ht => ht.1.resolve_right ht.2
    · exact fun ht => ⟨.inl ht, fun hz => hall.2.2 t ht t hz rfl⟩
  rw [hset, Set.ncard_coe_finset, List.toFinset_card_of_nodup hall.1, h.count]

end Partition

/-- `kmalloc` gives every block asked for. -/
def Ample (m : Threads Addr) : Prop := ∀ i, m.heap.answers i = true

private theorem makeRunnable_ample (h : m.runqueue.Valid) (hmem : m.Ample) (t : Nat) : ∃ m',
    (makeRunnable t m).bind assertOk = some m' ∧ m'.runqueue.Valid ∧ m'.Ample := by
  by_cases hfull : m.runqueue.Full
  · have hlt := RingBuffer.count_lt h
    obtain ⟨q, hq, hvalid, _⟩ := Queue.qGrow_ok h (hmem _) (show m.runqueue.count < m.runqueue.size + 1 by omega)
    refine ⟨{ m with runqueue := q.push t, heap := m.heap.next }, ?_, hvalid.push, hmem⟩
    simp [makeRunnable, Queue.qAddtail, hfull, hq, assertOk]
  · refine ⟨{ m with runqueue := m.runqueue.push t }, ?_, h.push, hmem⟩
    rw [makeRunnable, Queue.qAddtail_room hfull]
    rfl

theorem threadWakeup_ample [DecidableEq Addr] (h : m.runqueue.Valid) (hmem : m.Ample)
    (addr : Addr) : ∃ m', threadWakeup addr m = some m' := by
  obtain ⟨m', _, hrun, _⟩ := wakeupFrom_total addr
    (P := fun _ m => m.runqueue.Valid ∧ m.Ample) (fun _ _ hP => hP)
    (fun _ m a t hP => makeRunnable_ample (m := { m with sleepers := a }) hP.1 hP.2 t)
    m.sleepers.num 0 ⟨h, hmem⟩
  exact ⟨m', hrun⟩

/-- Each thread that exists is in one place and no other, and is counted unless it is a zombie. A
fork that fails moves none, and a wakeup moves the sleepers on its address. -/
theorem threads_conserved [DecidableEq Addr] (h : Reachable Boots Step m) :
    (∀ t, m.created t = true ↔ ∃ place, t ∈ m.threadsAt place) ∧
    (∀ t place place', t ∈ m.threadsAt place → t ∈ m.threadsAt place' → place = place') ∧
    (∀ place, (m.threadsAt place).Nodup) ∧
    m.numthreads = {t | m.created t = true ∧ t ∉ m.threadsAt .zombies}.ncard ∧
    (∀ answers newguy, ∃ e m', threadFork newguy (m.withMemory answers) = some (e, m') ∧
      (e ≠ none → Unmoved m m')) ∧
    (∀ answers addr m', threadWakeup addr (m.withMemory answers) = some m' → Woken addr m m') ∧
    ∀ addr, ∃ m', threadWakeup addr (m.withMemory fun _ => true) = some m' := by
  have hp : m.Partition := by
    apply h.invariant
    · intro s ⟨me, hs⟩
      rw [hs]
      exact partition_bootstrap me
    · exact fun _ _ _ hs hstep => hs.step hstep
  refine ⟨fun t => ?_, fun t place place' => hp.one_place, hp.nodup_at, hp.count_live.symm, ?_, ?_, ?_⟩
  · rw [← hp.created, Partition.mem_places]
  · intro answers newguy
    obtain ⟨e, m', hrun, hcases⟩ := threadFork_spec (hp.withMemory answers).valid newguy
    refine ⟨e, m', hrun, fun he => ?_⟩
    cases hcases with
    | inl hfail =>
      have hunmoved := hfail.2.unmoved
      exact ⟨hunmoved.threadsAt, hunmoved.numthreads, hunmoved.created⟩
    | inr hok => exact absurd hok.1 he
  · intro answers addr m' hrun
    obtain ⟨a, q, mem, rfl, _, _, ha, hq⟩ := threadWakeup_cases (hp.withMemory answers).valid hrun
    exact ⟨hq, ha, rfl⟩
  · exact fun addr => threadWakeup_ample (hp.withMemory _).valid (fun _ => rfl) addr

theorem threads_conserved_yield : ∃ m : Threads Nat, Reachable Boots Step m ∧
    m.curthread = some 1 ∧ m.numthreads = 2 ∧ (∀ t, m.created t = true ↔ ∃ place, t ∈ m.threadsAt place) := by
  have hstart : Reachable Boots Step (bootstrap 0 : Threads Nat) := .start ⟨0, rfl⟩
  have hfork := hstart.next ⟨.fork 1, fun _ => true, ⟨by decide, by decide⟩, rfl⟩
  have hyield := hfork.next ⟨.yield, fun _ => true, trivial, rfl⟩
  have hdispatch := hyield.next ⟨.dispatch, fun _ => true, trivial, rfl⟩
  exact ⟨_, hdispatch, rfl, rfl, (threads_conserved hdispatch).1⟩

end CseOs.Kernel.Threads
