import CseOs.Kernel.Thread.Conservation

/-!
# Who sleeps and who lives

What the functions of the thread system do to a thread that waits: it is runnable or sleeps on its address
until somebody wakes it, and it lives until it exits.
-/

namespace CseOs.Kernel.Threads

open Framework

variable {Addr : Type} {th th' : Threads Addr} {addr : Addr} {t cur : Nat}

/-- The thread is among the sleepers, on the address. -/
def Asleep (th : Threads Addr) (t : Nat) (addr : Addr) : Prop :=
  t ∈ th.sleepers.contents ∧ th.sleepaddr t = some addr

/-- A runnable thread stays runnable, a sleeper goes on sleeping or is made runnable, and nobody falls
asleep. -/
structure Follows (th th' : Threads Addr) : Prop where
  runs : ∀ t ∈ th.runqueue.contents, t ∈ th'.runqueue.contents
  wakes : ∀ t addr, Asleep th t addr → t ∈ th'.runqueue.contents ∨ Asleep th' t addr
  sleeps : ∀ t addr, Asleep th' t addr → Asleep th t addr

theorem follows_yield (h : th.Partition) (hm : th.threadYield = some th') : Follows th th' := by
  cases hcur : th.curthread with
  | none =>
    rw [threadYield, stash_idle _ hcur] at hm
    cases hm
    exact ⟨fun _ => id, fun _ _ => .inr, fun _ _ => id⟩
  | some cur =>
    obtain ⟨q, mem, rfl, _, hq⟩ := stash_ready h.valid hcur hm
    refine ⟨fun t ht => ?_, fun _ _ => .inr, fun _ _ => id⟩
    rw [hq]
    exact List.mem_append_left _ ht

theorem follows_exit (hm : th.threadExit = some th') : Follows th th' := by
  rw [threadExit] at hm
  split at hm
  case isTrue => cases hm
  case isFalse hnot =>
    cases hcur : th.curthread with
    | none => simp [hcur] at hnot
    | some cur =>
      obtain ⟨a, mem, rfl, _, _⟩ :=
        stash_zomb (m := { th with numthreads := th.numthreads - 1 }) hcur hm
      exact ⟨fun _ => id, fun _ _ => .inr, fun _ _ => id⟩

/-- After a wakeup nobody sleeps on the address. -/
theorem follows_wakeup [DecidableEq Addr] (h : th.Partition) (hm : th.threadWakeup addr = some th') :
    Follows th th' ∧ ∀ t, ¬ Asleep th' t addr := by
  obtain ⟨a, q, mem, rfl, _, _, ha, hq⟩ := threadWakeup_cases h.valid hm
  refine ⟨⟨fun t ht => ?_, fun t addr' ht => ?_, fun t addr' ht => ?_⟩, fun t ht => ?_⟩
  · rw [hq]
    exact List.mem_append_left _ ht
  · by_cases haddr : addr' = addr
    · left
      rw [hq]
      apply List.mem_append_right
      rw [List.mem_filter, ht.2, haddr]
      exact ⟨ht.1, decide_eq_true rfl⟩
    · right
      refine ⟨?_, ht.2⟩
      rw [ha, List.mem_filter, ht.2]
      exact ⟨ht.1, by simpa using haddr⟩
  · have hmem := ht.1
    rw [ha, List.mem_filter] at hmem
    exact ⟨hmem.1, ht.2⟩
  · have hmem := ht.1
    rw [ha, List.mem_filter] at hmem
    simp [show th.sleepaddr t = some addr from ht.2] at hmem

theorem follows_fork {newguy : Nat} {e : Option Errno} (h : th.Partition)
    (hnew : th.created newguy = false) (hm : th.threadFork newguy = some (e, th')) :
    Follows th th' := by
  have hnot : newguy ∉ th.sleepers.contents := by
    intro hmem
    have hin : newguy ∈ th.places :=
      List.mem_append_left _ (List.mem_append_right _ hmem)
    rw [h.created, hnew] at hin
    cases hin
  obtain ⟨e', a, hrun, hcases⟩ := threadFork_spec h.valid newguy
  rw [hrun] at hm
  cases hm
  cases hcases with
  | inl hfail =>
    obtain ⟨_, hroom⟩ := hfail
    have haddr : th'.sleepaddr = th.sleepaddr := by rw [hroom.rest]
    refine ⟨fun t ht => ?_, fun t addr ht => .inr ?_, fun t addr ht => ?_⟩
    · rw [hroom.contents]
      exact ht
    · exact ⟨hroom.sleepers.contents ▸ ht.1, haddr ▸ ht.2⟩
    · exact ⟨hroom.sleepers.contents ▸ ht.1, haddr ▸ ht.2⟩
  | inr hok =>
    obtain ⟨_, th₁, q, mem, hroom, _, _, _, hq, _, rfl⟩ := hok
    have haddr : th₁.sleepaddr = th.sleepaddr := by rw [hroom.rest]
    refine ⟨fun t ht => ?_, fun t addr ht => .inr ?_, fun t addr ht => ?_⟩
    · show t ∈ q.contents
      rw [hq, hroom.contents]
      exact List.mem_append_left _ ht
    · have hne : t ≠ newguy := fun he => hnot (he ▸ ht.1)
      refine ⟨hroom.sleepers.contents ▸ ht.1, ?_⟩
      show Function.update th₁.sleepaddr newguy none t = some addr
      rw [Function.update_of_ne hne, haddr]
      exact ht.2
    · have hmem : t ∈ th.sleepers.contents := hroom.sleepers.contents ▸ ht.1
      have hne : t ≠ newguy := fun he => hnot (he ▸ hmem)
      have hsleep : Function.update th₁.sleepaddr newguy none t = some addr := ht.2
      rw [Function.update_of_ne hne, haddr] at hsleep
      exact ⟨hmem, hsleep⟩

/-- The current thread, and nobody else, falls asleep. -/
theorem sleep_cases (h : th.Partition) (hcur : th.curthread = some cur)
    (hm : th.threadSleep addr = some th') : th'.runqueue = th.runqueue ∧
      ∀ t addr', Asleep th' t addr' ↔ Asleep th t addr' ∨ (t = cur ∧ addr' = addr) := by
  obtain ⟨cur', hcur', hm⟩ := Option.bind_eq_some_iff.mp hm
  rw [hcur] at hcur'
  cases hcur'
  obtain ⟨a, mem, rfl, ha, _⟩ := stash_sleep (m := { th with
    sleepaddr := Function.update th.sleepaddr cur (some addr) }) hcur hm
  refine ⟨rfl, fun t addr' => ?_⟩
  have hawake : cur ∉ th.sleepers.contents := by
    intro hmem
    have hin : cur ∈ th.threadsAt .current := by simp [threadsAt, hcur]
    have hmem : cur ∈ th.threadsAt .sleepers := hmem
    have hone := h.one_place hin hmem
    cases hone
  simp only [Asleep, ha, List.mem_append, List.mem_singleton]
  by_cases ht : t = cur
  · subst ht
    simp [hawake, eq_comm]
  · simp [ht]

/-- The head of the run queue is taken up. -/
theorem dispatch_asleep (h : th.Partition) (hm : th.dispatch = some th') :
    ∃ next, th'.curthread = some next ∧
      (∀ t ∈ th.runqueue.contents, t = next ∨ t ∈ th'.runqueue.contents) ∧
      ∀ t addr, Asleep th' t addr ↔ Asleep th t addr := by
  obtain ⟨next, q, hcur, hq, _, _, hcases⟩ := dispatch_cases h.valid h.nodup hm
  have hrun : ∀ t ∈ th.runqueue.contents, t = next ∨ t ∈ q.contents := by
    intro t ht
    rw [hq] at ht
    exact List.mem_cons.mp ht
  have hawake : next ∉ th.sleepers.contents := by
    intro hmem
    have hin : next ∈ th.threadsAt .runqueue := by simp [threadsAt, hq]
    have hmem : next ∈ th.threadsAt .sleepers := hmem
    have hone := h.one_place hin hmem
    cases hone
  cases hcases with
  | inl hold =>
    obtain ⟨_, a, _, _, _, rfl⟩ := hold
    refine ⟨next, rfl, hrun, fun t addr => ?_⟩
    by_cases ht : t = next
    · subst ht
      simp [Asleep, hawake]
    · simp [Asleep, ht]
  | inr hnew =>
    obtain ⟨_, rfl⟩ := hnew
    exact ⟨next, rfl, hrun, fun _ _ => .rfl⟩

/-- The thread exists and has not exited. -/
def Live (th : Threads Addr) (t : Nat) : Prop := th.created t = true ∧ t ∉ th.zombies.contents

/-- A thread lives until it exits. -/
theorem Live.apply [DecidableEq Addr] (h : th.Live t) (hp : th.Partition) {e : Event Addr}
    (hexit : e = .exit → th.curthread ≠ some t) (hm : e.apply th = some th') : th'.Live t := by
  cases e with
  | fork newguy =>
    obtain ⟨⟨err, _⟩, hfork, rfl⟩ := Option.map_eq_some_iff.mp hm
    obtain ⟨err', a, hrun, hcases⟩ := threadFork_spec hp.valid newguy
    rw [hrun] at hfork
    cases hfork
    cases hcases with
    | inl hfail =>
      have hcreated := congrArg Threads.created hfail.2.rest
      exact ⟨(congrFun hcreated t).trans h.1, hfail.2.zombies.contents ▸ h.2⟩
    | inr hok =>
      obtain ⟨_, th₁, q, mem, hroom, _, _, _, _, _, rfl⟩ := hok
      have hcreated : th₁.created = th.created := by rw [hroom.rest]
      refine ⟨?_, hroom.zombies.contents ▸ h.2⟩
      show Function.update th₁.created newguy true t = true
      by_cases ht : t = newguy
      · rw [ht, Function.update_self]
      · rw [Function.update_of_ne ht, hcreated]
        exact h.1
  | yield =>
    cases hcur : th.curthread with
    | none =>
      cases (stash_idle .ready hcur).symm.trans hm
      exact h
    | some cur =>
      obtain ⟨q, mem, rfl, _⟩ := stash_ready hp.valid hcur hm
      exact h
  | sleep addr =>
    obtain ⟨cur, hcur, hm⟩ := Option.bind_eq_some_iff.mp hm
    obtain ⟨a, mem, rfl, _⟩ := stash_sleep (m := { th with
      sleepaddr := Function.update th.sleepaddr cur (some addr) }) hcur hm
    exact h
  | wakeup addr =>
    obtain ⟨a, q, mem, rfl, _⟩ := threadWakeup_cases hp.valid hm
    exact h
  | exit =>
    have hm : th.threadExit = some th' := hm
    rw [threadExit] at hm
    split at hm
    case isTrue => cases hm
    case isFalse hnot =>
      cases hcur : th.curthread with
      | none => simp [hcur] at hnot
      | some cur =>
        obtain ⟨a, mem, rfl, ha, _⟩ :=
          stash_zomb (m := { th with numthreads := th.numthreads - 1 }) hcur hm
        refine ⟨h.1, ?_⟩
        show t ∉ a.contents
        rw [ha, List.mem_append, List.mem_singleton]
        refine not_or.mpr ⟨h.2, fun ht => hexit rfl ?_⟩
        rw [hcur, ht]
  | dispatch =>
    obtain ⟨next, q, _, _, _, _, hcases⟩ := dispatch_cases hp.valid hp.nodup hm
    cases hcases with
    | inl hold =>
      obtain ⟨_, a, ha, _, _, rfl⟩ := hold
      refine ⟨?_, ?_⟩
      · show (th.created t && !th.zombies.contents.contains t) = true
        simp [h.1, h.2]
      · show t ∉ a.contents
        rw [ha]
        exact List.not_mem_nil
    | inr hnew =>
      obtain ⟨_, rfl⟩ := hnew
      exact h

/-- A thread that was forked lives. -/
theorem live_fork {newguy : Nat} (hp : th.Partition) (hnew : th.created newguy = false)
    (hm : th.threadFork newguy = some (none, th')) : th'.Live newguy := by
  obtain ⟨e, a, hrun, hcases⟩ := threadFork_spec hp.valid newguy
  rw [hrun] at hm
  cases hm
  cases hcases with
  | inl hfail => exact absurd rfl hfail.1
  | inr hok =>
    obtain ⟨_, th₁, q, mem, hroom, _, _, _, _, _, rfl⟩ := hok
    refine ⟨Function.update_self .., fun hmem => ?_⟩
    have hmem : newguy ∈ th₁.zombies.contents := hmem
    rw [hroom.zombies.contents] at hmem
    have hin := (hp.created newguy).mp (List.mem_append_right _ hmem)
    rw [hnew] at hin
    cases hin

end CseOs.Kernel.Threads
