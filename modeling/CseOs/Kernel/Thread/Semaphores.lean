import CseOs.Kernel.Thread.Sleepers

/-!
# Semaphores: `synch.c`

`P` and `V` over the thread system. Both run with interrupts off, so that each is one step up to the
`thread_sleep` in it; the thread that comes back from that is still in the loop of `P`.
-/

namespace CseOs.Kernel

open Framework

/-- `struct semaphore`. What it was created with, and how often `V` and `P` went through since then, is
kept for the statements only. -/
structure Semaphore where
  count : Int
  initial : Int
  given : Nat
  taken : Nat

/-- The thread system with its semaphores, by address, and the semaphore in whose `P` a thread is. -/
structure Synch (Addr : Type) where
  threads : Threads Addr
  sems : Addr → Option Semaphore
  pending : Nat → Option Addr

namespace Synch

variable {Addr : Type} [DecidableEq Addr]

def bootstrap (me : Nat) : Synch Addr := ⟨Threads.bootstrap me, fun _ => none, fun _ => none⟩

def withMemory (answers : Nat → Bool) (m : Synch Addr) : Synch Addr :=
  { m with threads := m.threads.withMemory answers }

def setSem (sem : Addr) (s : Option Semaphore) (m : Synch Addr) : Synch Addr :=
  { m with sems := Function.update m.sems sem s }

def setPending (t : Nat) (sem : Option Addr) (m : Synch Addr) : Synch Addr :=
  { m with pending := Function.update m.pending t sem }

/-- `thread_hassleepers` -/
def hassleepers (addr : Addr) (m : Threads Addr) : Bool :=
  m.sleepers.contents.any fun t => m.sleepaddr t = some addr

/-- `sem_create`, at the address that `kmalloc` gave -/
def semCreate (sem : Addr) (initialCount : Int) (m : Synch Addr) :
    Option (Option Addr × Synch Addr) :=
  if initialCount < 0 then none
  else
    let g := m.threads.heap.grab 2
    let m := { m with threads := { m.threads with heap := g.2 } }
    if g.1 then some (some sem, m.setSem sem (some ⟨initialCount, initialCount, 0, 0⟩))
    else some (none, m)

/-- `sem_destroy` -/
def semDestroy (sem : Addr) (m : Synch Addr) : Option (Synch Addr) :=
  if hassleepers sem m.threads then none else some (m.setSem sem none)

/-- `P`, from the test of its loop to the next `thread_sleep` or to the end. -/
def P (sem : Addr) (m : Synch Addr) : Option (Synch Addr) := do
  let cur ← m.threads.curthread
  let s ← m.sems sem
  if s.count = 0 then do
    let threads ← m.threads.threadSleep sem
    return setPending cur (some sem) { m with threads := threads }
  else if 0 < s.count then
    return setPending cur none
      (m.setSem sem (some { s with count := s.count - 1, taken := s.taken + 1 }))
  else none

/-- `V`. The assertion after the increment fails when the count overflows. -/
def V (sem : Addr) (m : Synch Addr) : Option (Synch Addr) := do
  let s ← m.sems sem
  if s.count + 1 < 2 ^ 31 ∧ 0 < s.count + 1 then do
    let threads ← m.threads.threadWakeup sem
    return setSem sem (some { s with count := s.count + 1, given := s.given + 1 })
      { m with threads := threads }
  else none

/-- The scheduler takes up a thread; one that is in `P` tests the count again. -/
def resume (m : Synch Addr) : Option (Synch Addr) := do
  let threads ← m.threads.dispatch
  let m := { m with threads := threads }
  match threads.curthread.bind m.pending with
  | none => return m
  | some sem => m.P sem

/-- `V` may come from an interrupt handler, also while the scheduler idles. -/
inductive Event (Addr : Type) where
  | thread (e : Threads.Event Addr)
  | create (sem : Addr) (initialCount : Int)
  | destroy (sem : Addr)
  | P (sem : Addr)
  | V (sem : Addr)

/-- Nobody else sleeps on the address of a semaphore, and a semaphore is not destroyed while a thread
is in its `P`. -/
def Event.Legal (m : Synch Addr) : Event Addr → Prop
  | .thread (.sleep addr) => m.sems addr = none
  | .thread e => e.Legal m.threads
  | .create sem initialCount =>
    m.sems sem = none ∧ initialCount < 2 ^ 31 ∧ hassleepers sem m.threads = false
  | .destroy sem => ∀ t, m.pending t ≠ some sem
  | .P _ => True
  | .V _ => True

def Event.apply (m : Synch Addr) : Event Addr → Option (Synch Addr)
  | .thread .dispatch => m.resume
  | .thread e => (e.apply m.threads).map fun threads => { m with threads := threads }
  | .create sem initialCount => (m.semCreate sem initialCount).map Prod.snd
  | .destroy sem => m.semDestroy sem
  | .P sem => m.P sem
  | .V sem => m.V sem

def Boots (m : Synch Addr) : Prop := ∃ me, m = bootstrap me

/-- One event, with any answers of `kmalloc`. -/
def Step (m m' : Synch Addr) : Prop :=
  ∃ (e : Event Addr) (answers : Nat → Bool), e.Legal m ∧ e.apply (m.withMemory answers) = some m'

variable {m m' : Synch Addr} {th : Threads Addr} {sem addr : Addr} {t cur : Nat} {s : Semaphore}

theorem P_cases (hm : m.P sem = some m') : ∃ cur s, m.threads.curthread = some cur ∧
    m.sems sem = some s ∧
    ((s.count = 0 ∧ ∃ th, m.threads.threadSleep sem = some th ∧
        m' = setPending cur (some sem) { m with threads := th }) ∨
      (0 < s.count ∧ m' = setPending cur none
        (m.setSem sem (some { s with count := s.count - 1, taken := s.taken + 1 })))) := by
  obtain ⟨cur, hcur, hm⟩ := Option.bind_eq_some_iff.mp hm
  obtain ⟨s, hs, hm⟩ := Option.bind_eq_some_iff.mp hm
  refine ⟨cur, s, hcur, hs, ?_⟩
  split at hm
  case isTrue h0 =>
    obtain ⟨th, hth, hm⟩ := Option.bind_eq_some_iff.mp hm
    exact .inl ⟨h0, th, hth, (Option.some.inj hm).symm⟩
  case isFalse h0 =>
    split at hm
    case isTrue hpos => exact .inr ⟨hpos, (Option.some.inj hm).symm⟩
    case isFalse => cases hm

theorem V_cases (hm : m.V sem = some m') : ∃ s th, m.sems sem = some s ∧ s.count + 1 < 2 ^ 31 ∧
    m.threads.threadWakeup sem = some th ∧
    m' = setSem sem (some { s with count := s.count + 1, given := s.given + 1 })
      { m with threads := th } := by
  obtain ⟨s, hs, hm⟩ := Option.bind_eq_some_iff.mp hm
  split at hm
  case isTrue h =>
    obtain ⟨th, hth, hm⟩ := Option.bind_eq_some_iff.mp hm
    exact ⟨s, th, hs, h.1, hth, (Option.some.inj hm).symm⟩
  case isFalse => cases hm

private theorem resume_cases (hm : m.resume = some m') : ∃ th, m.threads.dispatch = some th ∧
    ((th.curthread.bind m.pending = none ∧ m' = { m with threads := th }) ∨
      ∃ sem, th.curthread.bind m.pending = some sem ∧ P sem { m with threads := th } = some m') := by
  obtain ⟨th, hth, hm⟩ := Option.bind_eq_some_iff.mp hm
  refine ⟨th, hth, ?_⟩
  cases hp : th.curthread.bind m.pending with
  | none =>
    simp only [hp] at hm
    exact .inl ⟨rfl, (Option.some.inj hm).symm⟩
  | some sem =>
    simp only [hp] at hm
    exact .inr ⟨sem, rfl, hm⟩

/-- A semaphore that was created has its initial count, and one that was not has changed nothing. -/
theorem semCreate_cases {initialCount : Int} {r : Option Addr}
    (hm : m.semCreate sem initialCount = some (r, m')) : m'.pending = m.pending ∧
      m'.threads.curthread = m.threads.curthread ∧
      ((r = none ∧ m'.sems = m.sems) ∨ (r = some sem ∧ m'.sems =
        Function.update m.sems sem (some ⟨initialCount, initialCount, 0, 0⟩))) := by
  rw [semCreate] at hm
  split at hm
  case isTrue => cases hm
  case isFalse =>
    simp only at hm
    split at hm
    case isTrue =>
      cases hm
      exact ⟨rfl, rfl, .inr ⟨rfl, rfl⟩⟩
    case isFalse =>
      cases hm
      exact ⟨rfl, rfl, .inl ⟨rfl, rfl⟩⟩

theorem hassleepers_eq_false : hassleepers addr th = false ↔
    ∀ t ∈ th.sleepers.contents, th.sleepaddr t ≠ some addr := by
  simp [hassleepers]

/-- The count is what was put in and not taken out, and an `int` that is not negative. -/
structure Exact (s : Semaphore) : Prop where
  ledger : s.count = s.initial + s.given - s.taken
  nonneg : 0 ≤ s.count
  lt : s.count < 2 ^ 31

/-- A thread in `P` is runnable or sleeps on the semaphore; only such threads sleep on it, and only
while the count is zero. -/
structure Sound (m : Synch Addr) : Prop where
  partition : m.threads.Partition
  exact : ∀ sem s, m.sems sem = some s → Exact s
  exists_sem : ∀ t sem, m.pending t = some sem → ∃ s, m.sems sem = some s
  placed : ∀ t sem, m.pending t = some sem →
    t ∈ m.threads.runqueue.contents ∨ m.threads.Asleep t sem
  asleep : ∀ t sem s, m.sems sem = some s → m.threads.Asleep t sem →
    m.pending t = some sem ∧ s.count = 0

namespace Sound

omit [DecidableEq Addr] in
private theorem bootstrap (me : Nat) : (bootstrap me : Synch Addr).Sound where
  partition := Threads.partition_bootstrap me
  exact _ _ hs := nomatch hs
  exists_sem _ _ ht := nomatch ht
  placed _ _ ht := nomatch ht
  asleep _ _ _ hs := nomatch hs

omit [DecidableEq Addr] in
theorem withMemory (h : m.Sound) (answers : Nat → Bool) : (m.withMemory answers).Sound :=
  ⟨h.partition.withMemory answers, h.exact, h.exists_sem, h.placed, h.asleep⟩

omit [DecidableEq Addr] in
/-- The current thread is not in a `P`. -/
theorem not_pending (h : m.Sound) (hcur : m.threads.curthread = some cur) :
    m.pending cur = none := by
  cases hp : m.pending cur with
  | none => rfl
  | some sem =>
    have hin : cur ∈ m.threads.threadsAt .current := by simp [Threads.threadsAt, hcur]
    cases h.placed cur sem hp with
    | inl hrun =>
      have hrun : cur ∈ m.threads.threadsAt .runqueue := hrun
      have hone := h.partition.one_place hin hrun
      cases hone
    | inr hsleep =>
      have hsleep : cur ∈ m.threads.threadsAt .sleepers := hsleep.1
      have hone := h.partition.one_place hin hsleep
      cases hone

omit [DecidableEq Addr] in
theorem follows (h : m.Sound) (hp : th.Partition) (hf : m.threads.Follows th) :
    Sound { m with threads := th } where
  partition := hp
  exact := h.exact
  exists_sem := h.exists_sem
  placed t sem ht := by
    cases h.placed t sem ht with
    | inl hrun => exact .inl (hf.runs t hrun)
    | inr hsleep => exact hf.wakes t sem hsleep
  asleep t sem s hs ht := h.asleep t sem s hs (hf.sleeps t sem ht)

omit [DecidableEq Addr] in
theorem threadSleep (h : m.Sound) (hno : m.sems addr = none)
    (hm : m.threads.threadSleep addr = some th) : Sound { m with threads := th } := by
  obtain ⟨cur, hcur, _⟩ := Option.bind_eq_some_iff.mp hm
  obtain ⟨hrun, hsleep⟩ := Threads.sleep_cases h.partition hcur hm
  refine ⟨h.partition.threadSleep hm, h.exact, h.exists_sem, fun t sem ht => ?_, fun t sem s hs ht => ?_⟩
  · rw [hrun, hsleep]
    exact (h.placed t sem ht).imp_right .inl
  · cases (hsleep t sem).mp ht with
    | inl hold => exact h.asleep t sem s hs hold
    | inr hnew =>
      rw [hnew.2, hno] at hs
      cases hs

private theorem create (h : m.Sound) {initialCount : Int} (hlegal : (Event.create sem initialCount).Legal m)
    {r : Option Addr} (hm : m.semCreate sem initialCount = some (r, m')) : m'.Sound := by
  obtain ⟨hnew, hlt, hsleepers⟩ := hlegal
  rw [semCreate] at hm
  split at hm
  case isTrue => cases hm
  case isFalse hnonneg =>
    have hheap : Sound { m with threads := { m.threads with heap := (m.threads.heap.grab 2).2 } } :=
      ⟨⟨h.partition.valid, h.partition.nodup, h.partition.created, h.partition.count⟩, h.exact,
        h.exists_sem, h.placed, h.asleep⟩
    simp only at hm
    split at hm
    case isFalse =>
      cases hm
      exact hheap
    case isTrue =>
      cases hm
      refine ⟨hheap.partition, fun sem' s hs => ?_, fun t sem' ht => ?_, h.placed,
        fun t sem' s hs ht => ?_⟩
      · by_cases he : sem' = sem
        · subst he
          simp only [setSem, Function.update_self, Option.some.injEq] at hs
          subst hs
          exact ⟨by simp, Int.not_lt.mp hnonneg, hlt⟩
        · simp only [setSem, Function.update_of_ne he] at hs
          exact h.exact sem' s hs
      · by_cases he : sem' = sem
        · subst he
          exact ⟨_, Function.update_self ..⟩
        · obtain ⟨s, hs⟩ := h.exists_sem t sem' ht
          exact ⟨s, (Function.update_of_ne he ..).trans hs⟩
      · by_cases he : sem' = sem
        · subst he
          exact absurd ht.2 (hassleepers_eq_false.mp hsleepers t ht.1)
        · simp only [setSem, Function.update_of_ne he] at hs
          exact h.asleep t sem' s hs ht

private theorem destroy (h : m.Sound) (hlegal : ∀ t, m.pending t ≠ some sem)
    (hm : m.semDestroy sem = some m') : m'.Sound := by
  rw [semDestroy] at hm
  split at hm
  case isTrue => cases hm
  case isFalse =>
    cases hm
    refine ⟨h.partition, fun sem' s hs => ?_, fun t sem' ht => ?_, h.placed,
      fun t sem' s hs ht => ?_⟩
    · by_cases he : sem' = sem
      · subst he
        simp [setSem] at hs
      · simp only [setSem, Function.update_of_ne he] at hs
        exact h.exact sem' s hs
    · have he : sem' ≠ sem := fun he => hlegal t (he ▸ ht)
      obtain ⟨s, hs⟩ := h.exists_sem t sem' ht
      exact ⟨s, (Function.update_of_ne he ..).trans hs⟩
    · by_cases he : sem' = sem
      · subst he
        simp [setSem] at hs
      · simp only [setSem, Function.update_of_ne he] at hs
        exact h.asleep t sem' s hs ht

theorem setSem (h : m.Sound) {s' : Semaphore} (hs : m.sems sem = some s) (hexact : Exact s')
    (hzero : ∀ t, m.threads.Asleep t sem → s'.count = 0) : (m.setSem sem (some s')).Sound := by
  refine ⟨h.partition, fun sem' r hr => ?_, fun t sem' ht => ?_, h.placed, fun t sem' r hr ht => ?_⟩
  · by_cases he : sem' = sem
    · subst he
      simp only [Synch.setSem, Function.update_self, Option.some.injEq] at hr
      exact hr ▸ hexact
    · simp only [Synch.setSem, Function.update_of_ne he] at hr
      exact h.exact sem' r hr
  · by_cases he : sem' = sem
    · subst he
      exact ⟨s', Function.update_self ..⟩
    · obtain ⟨r, hr⟩ := h.exists_sem t sem' ht
      exact ⟨r, (Function.update_of_ne he ..).trans hr⟩
  · by_cases he : sem' = sem
    · subst he
      simp only [Synch.setSem, Function.update_self, Option.some.injEq] at hr
      exact ⟨(h.asleep t sem' s hs ht).1, hr ▸ hzero t ht⟩
    · simp only [Synch.setSem, Function.update_of_ne he] at hr
      exact h.asleep t sem' r hr ht

private theorem P (h : m.Sound) (hm : m.P sem = some m') : m'.Sound := by
  obtain ⟨cur, s, hcur, hs, hcases⟩ := P_cases hm
  have hcount := h.exact sem s hs
  cases hcases with
  | inl hsleep =>
    obtain ⟨h0, th, hth, rfl⟩ := hsleep
    obtain ⟨hrun, hasleep⟩ := Threads.sleep_cases h.partition hcur hth
    refine ⟨h.partition.threadSleep hth, h.exact, fun t sem' ht => ?_, fun t sem' ht => ?_,
      fun t sem' r hr ht => ?_⟩
    · by_cases hne : t = cur
      · subst hne
        simp only [setPending, Function.update_self, Option.some.injEq] at ht
        exact ⟨s, ht ▸ hs⟩
      · simp only [setPending, Function.update_of_ne hne] at ht
        exact h.exists_sem t sem' ht
    · show t ∈ th.runqueue.contents ∨ th.Asleep t sem'
      rw [hrun, hasleep]
      by_cases hne : t = cur
      · subst hne
        simp only [setPending, Function.update_self, Option.some.injEq] at ht
        exact .inr (.inr ⟨rfl, ht.symm⟩)
      · simp only [setPending, Function.update_of_ne hne] at ht
        exact (h.placed t sem' ht).imp_right .inl
    · show Function.update m.pending cur (some sem) t = some sem' ∧ r.count = 0
      cases (hasleep t sem').mp ht with
      | inl hold =>
        have hne : t ≠ cur := by
          intro he
          have hpending := (h.asleep t sem' r hr hold).1
          rw [he, h.not_pending hcur] at hpending
          cases hpending
        rw [Function.update_of_ne hne]
        exact h.asleep t sem' r hr hold
      | inr hnew =>
        obtain ⟨rfl, rfl⟩ := hnew
        have hsame : s = r := Option.some.inj (hs.symm.trans hr)
        exact ⟨Function.update_self .., hsame ▸ h0⟩
  | inr htake =>
    obtain ⟨hpos, rfl⟩ := htake
    have hset : setPending cur none m = m := by
      rw [setPending, ← h.not_pending hcur, Function.update_eq_self]
    have hexact : Exact { s with count := s.count - 1, taken := s.taken + 1 } := by
      refine ⟨?_, ?_, ?_⟩
      · have hledger := hcount.ledger
        simp only [Nat.cast_add, Nat.cast_one]
        omega
      · exact Int.sub_nonneg_of_le hpos
      · exact Int.lt_trans (Int.sub_lt_self _ (by decide)) hcount.lt
    have hsound := h.setSem hs hexact fun t ht => by
      have h0 := (h.asleep t sem s hs ht).2
      omega
    rw [← hset] at hsound
    exact hsound

private theorem V (h : m.Sound) (hm : m.V sem = some m') :
    m'.Sound ∧ ∀ t, ¬ m'.threads.Asleep t sem := by
  obtain ⟨s, th, hs, hlt, hth, rfl⟩ := V_cases hm
  obtain ⟨hfollows, hnone⟩ := Threads.follows_wakeup h.partition hth
  have hwoken := h.follows (h.partition.threadWakeup hth) hfollows
  have hcount := h.exact sem s hs
  have hexact : Exact { s with count := s.count + 1, given := s.given + 1 } := by
    have hledger := hcount.ledger
    have hnonneg := hcount.nonneg
    refine ⟨?_, ?_, hlt⟩
    · simp only [Nat.cast_add, Nat.cast_one]
      omega
    · show 0 ≤ s.count + 1
      omega
  exact ⟨hwoken.setSem hs hexact fun t ht => absurd ht (hnone t), hnone⟩

private theorem P_setPending {r : Option Addr} (hcur : m.threads.curthread = some cur) :
    (setPending cur r m).P sem = m.P sem := by
  simp only [Synch.P, setPending, hcur, Option.bind_eq_bind, Option.bind_some, Synch.setSem,
    Function.update_idem]

omit [DecidableEq Addr] in
theorem dispatched (h : m.Sound) {next : Nat} (hth : m.threads.dispatch = some th)
    (hcur : th.curthread = some next) : Sound (setPending next none { m with threads := th }) := by
  obtain ⟨next', hnext, hrun, hasleep⟩ := Threads.dispatch_asleep h.partition hth
  rw [hcur] at hnext
  cases hnext
  refine ⟨h.partition.dispatch hth, h.exact, fun t sem ht => ?_, fun t sem ht => ?_,
    fun t sem s hs ht => ?_⟩
  · by_cases hne : t = next
    · subst hne
      simp [setPending] at ht
    · simp only [setPending, Function.update_of_ne hne] at ht
      exact h.exists_sem t sem ht
  · show t ∈ th.runqueue.contents ∨ th.Asleep t sem
    by_cases hne : t = next
    · subst hne
      simp [setPending] at ht
    · simp only [setPending, Function.update_of_ne hne] at ht
      rw [hasleep]
      exact (h.placed t sem ht).imp_left fun hin => (hrun t hin).resolve_left hne
  · have hp := h.partition.dispatch hth
    have hne : t ≠ next := by
      intro he
      subst he
      have hin : t ∈ th.threadsAt .current := by simp [Threads.threadsAt, hcur]
      have hsleep : t ∈ th.threadsAt .sleepers := ht.1
      have hone := hp.one_place hin hsleep
      cases hone
    show Function.update m.pending next none t = some sem ∧ s.count = 0
    rw [Function.update_of_ne hne]
    exact h.asleep t sem s hs ((hasleep t sem).mp ht)

private theorem resume (h : m.Sound) (hm : m.resume = some m') : m'.Sound := by
  obtain ⟨th, hth, hcases⟩ := resume_cases hm
  obtain ⟨next, hcur, _, _⟩ := Threads.dispatch_asleep h.partition hth
  have hsound := h.dispatched hth hcur
  rw [hcur, Option.bind_some] at hcases
  cases hcases with
  | inl hidle =>
    obtain ⟨hnone, rfl⟩ := hidle
    have hset : setPending next none { m with threads := th } = { m with threads := th } := by
      rw [setPending, ← hnone, Function.update_eq_self]
    rw [← hset]
    exact hsound
  | inr hloop =>
    obtain ⟨sem, _, hP⟩ := hloop
    rw [← P_setPending (r := none) (m := { m with threads := th }) hcur] at hP
    exact hsound.P hP

theorem thread (h : m.Sound) {e : Threads.Event Addr} (hlegal : (Event.thread e).Legal m)
    (hd : e ≠ .dispatch) (hm : e.apply m.threads = some th) : Sound { m with threads := th } := by
  cases e with
  | fork newguy =>
    obtain ⟨⟨err, _⟩, hfork, rfl⟩ := Option.map_eq_some_iff.mp hm
    exact h.follows (h.partition.threadFork hlegal.1 hfork)
      (Threads.follows_fork h.partition hlegal.1 hfork)
  | yield => exact h.follows (h.partition.threadYield hm) (Threads.follows_yield h.partition hm)
  | sleep addr => exact h.threadSleep hlegal hm
  | wakeup addr =>
    exact h.follows (h.partition.threadWakeup hm) (Threads.follows_wakeup h.partition hm).1
  | exit => exact h.follows (h.partition.threadExit hm) (Threads.follows_exit hm)
  | dispatch => exact absurd rfl hd

private theorem apply (h : m.Sound) {e : Event Addr} (hlegal : e.Legal m) (hm : e.apply m = some m') :
    m'.Sound := by
  cases e with
  | thread e =>
    cases e with
    | dispatch => exact h.resume hm
    | fork newguy =>
      obtain ⟨th, hth, rfl⟩ := Option.map_eq_some_iff.mp hm
      exact h.thread hlegal (by simp) hth
    | yield =>
      obtain ⟨th, hth, rfl⟩ := Option.map_eq_some_iff.mp hm
      exact h.thread hlegal (by simp) hth
    | sleep addr =>
      obtain ⟨th, hth, rfl⟩ := Option.map_eq_some_iff.mp hm
      exact h.thread hlegal (by simp) hth
    | wakeup addr =>
      obtain ⟨th, hth, rfl⟩ := Option.map_eq_some_iff.mp hm
      exact h.thread hlegal (by simp) hth
    | exit =>
      obtain ⟨th, hth, rfl⟩ := Option.map_eq_some_iff.mp hm
      exact h.thread hlegal (by simp) hth
  | create sem initialCount =>
    obtain ⟨⟨r, _⟩, hcreate, rfl⟩ := Option.map_eq_some_iff.mp hm
    exact h.create hlegal hcreate
  | destroy sem => exact h.destroy hlegal hm
  | P sem => exact h.P hm
  | V sem => exact (h.V hm).1

private theorem legal_withMemory {e : Event Addr} {answers : Nat → Bool} (h : e.Legal m) :
    e.Legal (m.withMemory answers) := by
  cases e with
  | thread e => cases e <;> exact h
  | create => exact h
  | destroy => exact h
  | P => exact h
  | V => exact h

theorem of_reachable (h : Reachable Boots Step m) : m.Sound := by
  apply h.invariant
  · intro s hs
    obtain ⟨me, rfl⟩ := hs
    exact bootstrap me
  · intro s t _ hs hstep
    obtain ⟨e, answers, hlegal, hm⟩ := hstep
    exact (hs.withMemory answers).apply (legal_withMemory hlegal) hm

end Sound

/-- The semaphore has the count it had, and the same threads are in its `P`. -/
structure Untouched (sem : Addr) (m m' : Synch Addr) : Prop where
  sems : m'.sems sem = m.sems sem
  pending : ∀ t, m'.pending t = some sem ↔ m.pending t = some sem

/-- The `P` in which `t` was has come to its end. -/
structure Took (sem : Addr) (t : Nat) (m m' : Synch Addr) : Prop where
  waited : m.pending t = some sem
  sems : ∃ s, m.sems sem = some s ∧ 0 < s.count ∧
    m'.sems sem = some { s with count := s.count - 1, taken := s.taken + 1 }
  pending : ∀ u, m'.pending u = some sem ↔ m.pending u = some sem ∧ u ≠ t

/-- The event is none of the semaphore's own. -/
def Event.Apart (sem : Addr) : Event Addr → Prop
  | .thread _ => True
  | .create sem' _ => sem' ≠ sem
  | .destroy sem' => sem' ≠ sem
  | .P sem' => sem' ≠ sem
  | .V sem' => sem' ≠ sem

private theorem untouched_setSem {sem' : Addr} {r : Option Semaphore} (h : sem' ≠ sem) :
    Untouched sem m (m.setSem sem' r) :=
  ⟨Function.update_of_ne h.symm .., fun _ => .rfl⟩

private theorem resume_effect (hm : m.resume = some m') :
    Untouched sem m m' ∨ ∃ t, Took sem t m m' := by
  obtain ⟨th, hth, hcases⟩ := resume_cases hm
  cases hcases with
  | inl hidle =>
    obtain ⟨_, rfl⟩ := hidle
    exact .inl ⟨rfl, fun _ => .rfl⟩
  | inr hloop =>
    obtain ⟨sem', hp, hP⟩ := hloop
    obtain ⟨cur, s, hcur, hs, hcases⟩ := P_cases hP
    have hcur : th.curthread = some cur := hcur
    have hs : m.sems sem' = some s := hs
    rw [hcur, Option.bind_some] at hp
    cases hcases with
    | inl hsleep =>
      obtain ⟨_, th', _, rfl⟩ := hsleep
      refine .inl ⟨rfl, fun t => ?_⟩
      show Function.update m.pending cur (some sem') t = some sem ↔ _
      rw [← hp, Function.update_eq_self]
    | inr htake =>
      obtain ⟨hpos, rfl⟩ := htake
      by_cases he : sem' = sem
      · subst he
        refine .inr ⟨cur, hp, ⟨s, hs, hpos, Function.update_self ..⟩, fun u => ?_⟩
        show Function.update m.pending cur none u = some sem' ↔ _
        by_cases hu : u = cur
        · simp [hu]
        · simp [hu]
      · refine .inl ⟨Function.update_of_ne (Ne.symm he) .., fun u => ?_⟩
        show Function.update m.pending cur none u = some sem ↔ _
        by_cases hu : u = cur
        · simp [hu, hp, he]
        · simp [hu]

/-- What any other event does to a semaphore. -/
theorem Sound.effect (h : m.Sound) {e : Event Addr} (hapart : e.Apart sem)
    (hm : e.apply m = some m') : Untouched sem m m' ∨ ∃ t, Took sem t m m' := by
  cases e with
  | thread e =>
    by_cases hd : e = .dispatch
    · subst hd
      exact resume_effect hm
    · have hmap : (e.apply m.threads).map (fun threads => { m with threads := threads }) = some m' := by
        cases e <;> first | exact hm | exact absurd rfl hd
      obtain ⟨th, _, rfl⟩ := Option.map_eq_some_iff.mp hmap
      exact .inl ⟨rfl, fun _ => .rfl⟩
  | create sem' initialCount =>
    left
    obtain ⟨⟨r, _⟩, hcreate, rfl⟩ := Option.map_eq_some_iff.mp hm
    obtain ⟨hpending, _, hcases⟩ := semCreate_cases hcreate
    refine ⟨?_, fun t => by rw [hpending]⟩
    cases hcases with
    | inl hnone => rw [hnone.2]
    | inr hsome =>
      rw [hsome.2]
      exact Function.update_of_ne (Ne.symm hapart) ..
  | destroy sem' =>
    left
    have hm : m.semDestroy sem' = some m' := hm
    rw [semDestroy] at hm
    split at hm
    case isTrue => cases hm
    case isFalse =>
      cases hm
      exact untouched_setSem hapart
  | P sem' =>
    left
    obtain ⟨cur, s, hcur, _, hcases⟩ := P_cases hm
    have hnone := h.not_pending hcur
    cases hcases with
    | inl hsleep =>
      obtain ⟨_, th, _, rfl⟩ := hsleep
      refine ⟨rfl, fun t => ?_⟩
      show Function.update m.pending cur (some sem') t = some sem ↔ _
      by_cases ht : t = cur
      · simp [ht, hnone, show sem' ≠ sem from hapart]
      · simp [ht]
    | inr htake =>
      obtain ⟨_, rfl⟩ := htake
      refine ⟨Function.update_of_ne (Ne.symm hapart) .., fun t => ?_⟩
      show Function.update m.pending cur none t = some sem ↔ _
      rw [← hnone, Function.update_eq_self]
  | V sem' =>
    left
    obtain ⟨s, th, _, _, _, rfl⟩ := V_cases hm
    exact ⟨Function.update_of_ne (Ne.symm hapart) .., fun _ => .rfl⟩

private theorem P_live (hp : m.threads.Partition) (h : m.threads.Live t) (hm : m.P sem = some m') :
    m'.threads.Live t := by
  obtain ⟨cur, s, _, _, hcases⟩ := P_cases hm
  cases hcases with
  | inl hsleep =>
    obtain ⟨_, th, hth, rfl⟩ := hsleep
    exact h.apply hp (e := .sleep sem) (by simp) hth
  | inr htake =>
    obtain ⟨_, rfl⟩ := htake
    exact h

/-- A thread lives until it exits. -/
theorem Sound.live (h : m.Sound) (hlive : m.threads.Live t) {e : Event Addr}
    (hexit : e = .thread .exit → m.threads.curthread ≠ some t) (hm : e.apply m = some m') :
    m'.threads.Live t := by
  cases e with
  | thread e =>
    by_cases hd : e = .dispatch
    · subst hd
      obtain ⟨th, hth, hcases⟩ := resume_cases hm
      have hlive' := hlive.apply h.partition (e := .dispatch) (by simp) hth
      cases hcases with
      | inl hidle =>
        obtain ⟨_, rfl⟩ := hidle
        exact hlive'
      | inr hloop =>
        obtain ⟨sem, _, hP⟩ := hloop
        exact P_live (m := { m with threads := th }) (h.partition.dispatch hth) hlive' hP
    · have hmap : (e.apply m.threads).map (fun threads => { m with threads := threads }) = some m' := by
        cases e <;> first | exact hm | exact absurd rfl hd
      obtain ⟨th, hth, rfl⟩ := Option.map_eq_some_iff.mp hmap
      exact hlive.apply h.partition (fun he => hexit (congrArg Event.thread he)) hth
  | create sem initialCount =>
    obtain ⟨⟨r, _⟩, hcreate, rfl⟩ := Option.map_eq_some_iff.mp hm
    rw [semCreate] at hcreate
    split at hcreate
    case isTrue => cases hcreate
    case isFalse =>
      simp only at hcreate
      split at hcreate
      case isTrue =>
        cases hcreate
        exact hlive
      case isFalse =>
        cases hcreate
        exact hlive
  | destroy sem =>
    have hm : m.semDestroy sem = some m' := hm
    rw [semDestroy] at hm
    split at hm
    case isTrue => cases hm
    case isFalse =>
      cases hm
      exact hlive
  | P sem => exact P_live h.partition hlive hm
  | V sem =>
    obtain ⟨s, th, _, _, hth, rfl⟩ := V_cases hm
    exact hlive.apply h.partition (e := .wakeup sem) (by simp) hth

private theorem arrayAdd_ample {a : PtrArray Nat} {mem : Kmalloc} (hmem : mem.ok = true) (t : Nat) :
    (a.arrayAdd t mem).error = none := by
  have hsize : (a.arraySetsize (a.num + 1) mem).error = none := by
    rw [PtrArray.arraySetsize]
    split
    · simp [PtrArray.arrayPreallocate, hmem]
    · simp
  rw [PtrArray.arrayAdd]
  simp [hsize]

omit [DecidableEq Addr] in
private theorem threadSleep_ample (hmem : th.Ample) (hcur : th.curthread = some cur) (addr : Addr) :
    ∃ th', th.threadSleep addr = some th' := by
  simp only [Threads.threadSleep, Threads.stash, hcur, Option.bind_eq_bind, Option.bind_some]
  exact ⟨_, Threads.assertOk_eq_some.mpr ⟨arrayAdd_ample (hmem _) cur, rfl⟩⟩

/-- `P` returns or sleeps, and none of its assertions fails. -/
theorem Sound.P_total (h : m.Sound) (hmem : m.threads.Ample) (hcur : m.threads.curthread = some cur)
    (hs : m.sems sem = some s) : ∃ m', m.P sem = some m' := by
  simp only [Synch.P, hcur, hs, Option.bind_eq_bind, Option.bind_some]
  split
  case isTrue =>
    obtain ⟨th, hth⟩ := threadSleep_ample hmem hcur sem
    rw [hth]
    exact ⟨_, rfl⟩
  case isFalse h0 =>
    have hpos : 0 < s.count := lt_of_le_of_ne (h.exact sem s hs).nonneg (Ne.symm h0)
    rw [if_pos hpos]
    exact ⟨_, rfl⟩

/-- `V` returns as long as one more unit can be counted. -/
theorem Sound.V_total (h : m.Sound) (hmem : m.threads.Ample) (hs : m.sems sem = some s)
    (hlt : s.count + 1 < 2 ^ 31) : ∃ m', m.V sem = some m' := by
  have hnonneg := (h.exact sem s hs).nonneg
  obtain ⟨th, hth⟩ := Threads.threadWakeup_ample h.partition.valid hmem sem
  simp only [Synch.V, hs, Option.bind_eq_bind, Option.bind_some]
  rw [if_pos ⟨hlt, by omega⟩, hth]
  exact ⟨_, rfl⟩

/-- In every run the count of a semaphore is what was put in and not taken out, and never negative.
A thread in `P` is runnable or asleep on the semaphore, where nobody sleeps while there is a unit to be
had; a `V` leaves no sleeper. With memory `P` and `V` fail no assertion, but for a count that
overflows. -/
theorem semaphores_sound (h : Reachable Boots Step m) :
    (∀ sem s, m.sems sem = some s → Exact s) ∧
    (∀ t sem, m.pending t = some sem →
      t ∈ m.threads.runqueue.contents ∨ m.threads.Asleep t sem) ∧
    (∀ t sem s, m.sems sem = some s → m.threads.Asleep t sem → m.pending t = some sem ∧ s.count = 0) ∧
    (∀ answers sem m', (m.withMemory answers).V sem = some m' →
      ∀ t, m'.pending t = some sem → t ∈ m'.threads.runqueue.contents) ∧
    (∀ sem s, m.sems sem = some s →
      (m.threads.curthread.isSome → ∃ m', (m.withMemory fun _ => true).P sem = some m') ∧
      (s.count + 1 < 2 ^ 31 → ∃ m', (m.withMemory fun _ => true).V sem = some m')) := by
  have hsound := Sound.of_reachable h
  refine ⟨hsound.exact, hsound.placed, hsound.asleep, fun answers sem m' hm t ht => ?_,
    fun sem s hs => ⟨fun hcur => ?_, fun hlt => ?_⟩⟩
  · obtain ⟨hsound', hnone⟩ := (hsound.withMemory answers).V hm
    exact (hsound'.placed t sem ht).resolve_right (hnone t)
  · obtain ⟨cur, hcur⟩ := Option.isSome_iff_exists.mp hcur
    exact (hsound.withMemory _).P_total (fun _ => rfl) hcur hs
  · exact (hsound.withMemory _).V_total (fun _ => rfl) hs hlt

theorem semaphores_sound_waiting : ∃ m : Synch Nat, Reachable Boots Step m ∧
    m.pending 0 = some 7 ∧ m.threads.Asleep 0 7 := by
  have hstart : Reachable Boots Step (bootstrap 0 : Synch Nat) := .start ⟨0, rfl⟩
  have hcreate := hstart.next ⟨.create 7 0, fun _ => true, ⟨rfl, by decide, by decide⟩, rfl⟩
  have hwait := hcreate.next ⟨.P 7, fun _ => true, trivial, rfl⟩
  refine ⟨_, hwait, rfl, ?_⟩
  have hplaced := (semaphores_sound hwait).2.1 0 7 rfl
  cases hplaced with
  | inl hrun => exact absurd hrun (by decide)
  | inr hsleep => exact hsleep

end Synch

end CseOs.Kernel
