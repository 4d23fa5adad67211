import CseOs.TickSim.Preemption

/-!
# Overtaking

The main loop in small steps: one call at a time, and one round at a time of the two loops of a
preempting dispatcher. A thread that finds no place is put back at the end of the ready queue, behind
threads with the same key that entered after it; nothing else changes the order of waiting threads.
-/

namespace CseOs.TickSim

open Framework Sim

variable {cfg : Config} {jobs : List Job} {s s' : Sim} {l l' : QName → List Ptr}
  {place place' : Ptr → Place} {k : Ptr → Int} {A B b r : Ptr} {T : Int} {a a' : Alloc}

/-- The policies whose dispatchers preempt by a key. -/
inductive Preemptive where
  | srtcf
  | pr
  deriving DecidableEq, Repr

namespace Preemptive

def algo : Preemptive → DispatchAlgo
  | srtcf => .srtcf
  | pr => .pr

def key : Preemptive → Thread → Int
  | srtcf => Thread.remaining
  | pr => Thread.priority

def round : Preemptive → Sim → Option (Bool × Sim)
  | srtcf => srtcfRound
  | pr => priorityRound

def loop : Preemptive → Nat → Sim → Option Sim
  | srtcf => srtcfLoop
  | pr => priorityLoop

variable (policy : Preemptive)

private theorem preempts : PreemptsBy policy.key policy.round := by
  cases policy with
  | srtcf => exact preemptsBy_srtcfRound
  | pr => exact preemptsBy_priorityRound

private theorem repeats : Repeats policy.round policy.loop := by
  cases policy with
  | srtcf => exact repeats_srtcfLoop
  | pr => exact repeats_priorityLoop

private theorem dispatch_eq (h : cfg.algo = policy.algo) (s : Sim) : dispatch cfg s =
    (fillIdle (qPopMin policy.key .ready) s.core.length s).bind
      fun s => policy.loop (roundBound policy.key s) s := by
  rw [dispatch, h]
  cases policy <;> rfl

end Preemptive

/-- Where the program stands; `enter` is the admission before the main loop. -/
inductive Point where
  | enter
  | admission
  | resolve
  | interrupts
  | fill
  | preempt
  | bump
  | step
  | decay
  | collect
  | stopTest
  deriving DecidableEq, Repr

structure Moment where
  point : Point
  sim : Sim

variable {policy : Preemptive} {μ ν : Moment}

/-- One call of the program, or one round of a loop of the dispatcher. -/
def next (policy : Preemptive) (cfg : Config) : Moment → Option Moment
  | ⟨.enter, s⟩ => (workloadAdmitTick s.simTime s).map (⟨.admission, ·⟩)
  | ⟨.admission, s⟩ => (workloadAdmitTick s.simTime s).map (⟨.resolve, ·⟩)
  | ⟨.resolve, s⟩ => (waitingResolve s.simTime s).map (⟨.interrupts, ·⟩)
  | ⟨.interrupts, s⟩ => (randomInterrupts cfg s).map (⟨.fill, ·⟩)
  | ⟨.fill, s⟩ => (fillRound (qPopMin policy.key .ready) s).map fun r =>
      ⟨if r.1 then .fill else .preempt, r.2⟩
  | ⟨.preempt, s⟩ => (policy.round s).map fun r => ⟨if r.1 then .preempt else .bump, r.2⟩
  | ⟨.bump, s⟩ => (bumpQueueWait .ready s).map (⟨.step, ·⟩)
  | ⟨.step, s⟩ => some ⟨.decay, cpuStep s⟩
  | ⟨.decay, s⟩ => (decayPriority s).map (⟨.collect, ·⟩)
  | ⟨.collect, s⟩ => (collectCompletions (List.range s.core.length) s).map (⟨.stopTest, ·⟩)
  | ⟨.stopTest, s⟩ => if allDone s then none else some ⟨.admission, s⟩

/-- Where the program stands after `n` steps, if it gets there. -/
def moment (policy : Preemptive) (cfg : Config) (jobs : List Job) : Nat → Option Moment
  | 0 => some ⟨.enter, workloadPrompt jobs (initial cfg)⟩
  | n + 1 => (moment policy cfg jobs n).bind (next policy cfg)

def Steps (policy : Preemptive) (cfg : Config) : Moment → Moment → Prop :=
  Relation.ReflTransGen fun μ ν => next policy cfg μ = some ν

private theorem steps_fill {fuel : Nat} (h : fillIdle (qPopMin policy.key .ready) fuel s = some s') :
    Steps policy cfg ⟨.fill, s⟩ ⟨.preempt, s'⟩ := by
  induction fuel generalizing s with
  | zero =>
    rw [fillIdle] at h
    split at h
    · cases h
    · case isFalse hany =>
      have hbusy : none ∉ s.core := by simpa [cpuAnyIdle] using hany
      apply Relation.ReflTransGen.single
      rw [next, fillRound_busy hbusy, ← Option.some.inj h]
      rfl
  | succ fuel ih =>
    rw [fillIdle_succ] at h
    cases hround : fillRound (qPopMin policy.key .ready) s with
    | none => simp [hround] at h
    | some r =>
      obtain ⟨more, s₁⟩ := r
      have hnext : next policy cfg ⟨.fill, s⟩ =
          some ⟨if more then .fill else .preempt, s₁⟩ := by
        rw [next, hround]
        rfl
      rw [hround] at h
      cases more with
      | false =>
        cases h
        exact .single hnext
      | true => exact .head hnext (ih h)

private theorem steps_preempt {fuel : Nat} (h : policy.loop fuel s = some s') :
    Steps policy cfg ⟨.preempt, s⟩ ⟨.bump, s'⟩ := by
  induction fuel generalizing s with
  | zero => cases policy <;> cases h
  | succ fuel ih =>
    rw [policy.repeats] at h
    cases hround : policy.round s with
    | none => simp [hround] at h
    | some r =>
      obtain ⟨more, s₁⟩ := r
      have hnext : next policy cfg ⟨.preempt, s⟩ =
          some ⟨if more then .preempt else .bump, s₁⟩ := by
        rw [next, hround]
        rfl
      rw [hround] at h
      cases more with
      | false =>
        cases h
        exact .single hnext
      | true => exact .head hnext (ih h)

private theorem steps_dispatch (hpolicy : cfg.algo = policy.algo) (h : dispatch cfg s = some s') :
    Steps policy cfg ⟨.fill, s⟩ ⟨.bump, s'⟩ := by
  rw [policy.dispatch_eq hpolicy] at h
  obtain ⟨s₁, hfill, hloop⟩ := Option.bind_eq_some_iff.mp h
  exact (steps_fill hfill).trans (steps_preempt hloop)

theorem steps_tick (hpolicy : cfg.algo = policy.algo) (h : tick cfg s = some s') :
    Steps policy cfg ⟨.admission, s⟩ ⟨.stopTest, s'⟩ := by
  simp only [tick, phases, runCalls, Option.bind_eq_some_iff] at h
  obtain ⟨s₁, hadmit, s₂, hresolve, s₃, hint, s₄, hdispatch, s₅, hbump, s₆, hstep, s₇, hdecay, s₈,
    hcollect, hlast⟩ := h
  cases hlast
  have hsteps : Steps policy cfg ⟨.admission, s⟩ ⟨.fill, s₃⟩ :=
    .head (b := ⟨.resolve, s₁⟩) (by rw [next, hadmit]; rfl)
      (.head (b := ⟨.interrupts, s₂⟩) (by rw [next, hresolve]; rfl)
        (.single (by rw [next, hint]; rfl)))
  apply (hsteps.trans (steps_dispatch hpolicy hdispatch)).trans
  cases hstep
  exact .head (b := ⟨.step, s₅⟩) (by rw [next, hbump]; rfl)
    (.head (b := ⟨.decay, cpuStep s₅⟩) rfl
      (.head (b := ⟨.collect, s₇⟩) (by rw [next, hdecay]; rfl)
        (.single (by rw [next, hcollect]; rfl))))

private theorem moment_of_steps {n : Nat} (h : moment policy cfg jobs n = some μ)
    (hsteps : Steps policy cfg μ ν) : ∃ m, moment policy cfg jobs m = some ν := by
  induction hsteps with
  | refl => exact ⟨n, h⟩
  | tail _ hnext ih =>
    obtain ⟨m, hm⟩ := ih
    exact ⟨m + 1, by rw [moment, hm]; exact hnext⟩

/-- Every round of the main loop starts at a step. -/
theorem loopHead_moment (hpolicy : cfg.algo = policy.algo) {n : Nat}
    (h : loopHead cfg jobs n = some s) :
    ∃ m, moment policy cfg jobs m = some ⟨.admission, s⟩ := by
  induction n generalizing s with
  | zero =>
    have htime : (workloadPrompt jobs (initial cfg)).simTime = 0 := by
      have hent := (entered_initial cfg).prompt jobs
      rw [List.nil_append] at hent
      exact Int.ofNat_eq_zero.mp hent.accounted.time
    refine ⟨1, ?_⟩
    rw [moment, moment, Option.bind_some, next, htime]
    rw [loopHead] at h
    rw [Int.ofNat_zero, h]
    rfl
  | succ n ih =>
    rw [loopHead] at h
    obtain ⟨s₀, hhead, h⟩ := Option.bind_eq_some_iff.mp h
    obtain ⟨s₁, htick, h⟩ := Option.bind_eq_some_iff.mp h
    obtain ⟨m, hm⟩ := ih hhead
    split at h
    · cases h
    · case isFalse hgo =>
      cases h
      apply moment_of_steps hm
      refine (steps_tick hpolicy htick).tail ?_
      rw [next, if_neg hgo]

/-- The calls of the round that are over. -/
def Point.done : Point → Nat
  | .enter => 0
  | .admission => 0
  | .resolve => 1
  | .interrupts => 2
  | .fill => 3
  | .preempt => 3
  | .bump => 4
  | .step => 5
  | .decay => 6
  | .collect => 7
  | .stopTest => 0

/-- The dispatcher is about to pop a thread. -/
def Point.Dispatching : Point → Prop
  | .fill => True
  | .preempt => True
  | _ => False

/-- The accounts are in order where the program stands. -/
structure Sound (jobs : List Job) (μ : Moment) (l : QName → List Ptr) (place : Ptr → Place) (T : Int) :
    Prop where
  placed : Placed μ.sim l place
  accounted : Accounted jobs (.during T μ.point.done) μ.sim place
  working : μ.point = .preempt → WorkConserving μ.sim l

/-- Threads enter the ready queue at its end, or the dispatcher takes a turn. -/
def Advances (policy : Preemptive) (μ ν : Moment) (l l' : QName → List Ptr) : Prop :=
  (∃ new, l' .ready = l .ready ++ new) ∨
    (μ.point.Dispatching ∧
      Turn (fun p => policy.key (μ.sim.thread p)) (alloc μ.sim l) (alloc ν.sim l')) ∨
    (μ.point = .preempt ∧
      Settles (fun p => policy.key (μ.sim.thread p)) (alloc μ.sim l) (alloc ν.sim l'))

private theorem advances_same (h : l' .ready = l .ready) : Advances policy μ ν l l' :=
  .inl ⟨[], by rw [h, List.append_nil]⟩

private theorem Accounted.fit (ha : Accounted jobs (.during T 3) s place) (policy : Preemptive) :
    KeysFit policy.key s := by
  cases policy with
  | srtcf => exact ha.fit_remaining
  | pr => exact ha.fit_priority

private theorem Sound.next (h : Sound jobs μ l place T) (hnext : next policy cfg μ = some ν) :
    ∃ l' place' T', Sound jobs ν l' place' T' ∧ Advances policy μ ν l l' := by
  obtain ⟨point, s⟩ := μ
  obtain ⟨hp, ha, hwork⟩ := h
  cases point with
  | enter =>
    obtain ⟨s', l', place', hrun, h', ha', _, hnew⟩ := admit_call hp ha
    rw [TickSim.next, hrun] at hnext
    cases hnext
    exact ⟨l', place', T, ⟨h', ha'.reenter, nofun⟩, .inl hnew⟩
  | admission =>
    obtain ⟨s', l', place', hrun, h', ha', _, hnew⟩ := admit_call hp ha
    rw [TickSim.next, hrun] at hnext
    cases hnext
    exact ⟨l', place', T, ⟨h', ha', nofun⟩, .inl hnew⟩
  | resolve =>
    obtain ⟨s', l', place', hrun, h', ha', _, hnew⟩ := resolve_call hp ha
    rw [TickSim.next, hrun] at hnext
    cases hnext
    exact ⟨l', place', T, ⟨h', ha', nofun⟩, .inl hnew⟩
  | interrupts =>
    obtain ⟨s', l', io, hrun, h', ha', _, _, hsame⟩ := interrupts_call cfg hp ha
    rw [TickSim.next, hrun] at hnext
    cases hnext
    exact ⟨l', _, T, ⟨h', ha', nofun⟩, advances_same hsame⟩
  | fill =>
    cases fillRound_spec hp (fun _ => rfl) (fun p hlt _ => ha.fit policy p hlt) with
    | inl hdone =>
      rw [TickSim.next, hdone.1] at hnext
      cases hnext
      exact ⟨l, place, T, ⟨hp, ha, fun _ => hdone.2⟩, advances_same rfl⟩
    | inr hstep =>
      obtain ⟨s', l', place', hrun, h', hshift, hturn, _⟩ := hstep
      rw [TickSim.next, hrun] at hnext
      cases hnext
      exact ⟨l', place', T, ⟨h', ha.shift hshift, nofun⟩, .inr (.inl ⟨trivial, hturn⟩)⟩
  | preempt =>
    cases policy.preempts.spec hp (hwork rfl) (fun _ => rfl) (fun p hlt _ => ha.fit policy p hlt) with
    | inl hlast =>
      obtain ⟨s', l', hrun, h', hshift, hsettles⟩ := hlast
      rw [TickSim.next, hrun] at hnext
      cases hnext
      exact ⟨l', place, T, ⟨h', ha.shift hshift, nofun⟩, .inr (.inr ⟨rfl, hsettles⟩)⟩
    | inr hstep =>
      obtain ⟨s', l', place', hrun, h', hshift, hturn, hwork', _⟩ := hstep
      rw [TickSim.next, hrun] at hnext
      cases hnext
      exact ⟨l', place', T, ⟨h', ha.shift hshift, fun _ => hwork'⟩, .inr (.inl ⟨trivial, hturn⟩)⟩
  | bump =>
    obtain ⟨s', hrun, h', ha', _⟩ := bump_call hp ha
    rw [TickSim.next, hrun] at hnext
    cases hnext
    exact ⟨l, place, T, ⟨h', ha', nofun⟩, advances_same rfl⟩
  | step =>
    obtain ⟨h', ha', _⟩ := step_call hp ha
    cases hnext
    exact ⟨l, place, T, ⟨h', ha', nofun⟩, advances_same rfl⟩
  | decay =>
    obtain ⟨s', hrun, h', ha', _⟩ := decay_call hp ha
    rw [TickSim.next, hrun] at hnext
    cases hnext
    exact ⟨l, place, T, ⟨h', ha', nofun⟩, advances_same rfl⟩
  | collect =>
    obtain ⟨s', l', place', hrun, h', ha', _, _, _, _, hsame⟩ := collect_call hp ha
    rw [TickSim.next, hrun] at hnext
    cases hnext
    exact ⟨l', place', T + 1, ⟨h', ha', nofun⟩, advances_same hsame⟩
  | stopTest =>
    rw [TickSim.next] at hnext
    split at hnext
    · cases hnext
    · cases hnext
      exact ⟨l, place, T, ⟨hp, ha, nofun⟩, advances_same rfl⟩

private theorem moment_sound {n : Nat} (h : moment policy cfg jobs n = some μ) :
    ∃ l place T, Sound jobs μ l place T := by
  induction n generalizing μ with
  | zero =>
    have hent := (entered_initial cfg).prompt jobs
    rw [List.nil_append] at hent
    obtain ⟨l, hp⟩ := hent.placed
    cases h
    exact ⟨l, _, 0, hp, hent.accounted, nofun⟩
  | succ n ih =>
    obtain ⟨ν, hν, hnext⟩ := Option.bind_eq_some_iff.mp h
    obtain ⟨l, place, T, hsound⟩ := ih hν
    obtain ⟨l', place', T', hsound', _⟩ := hsound.next hnext
    exact ⟨l', place', T', hsound'⟩

section Order

variable {ready pre post : List Ptr}

theorem FirstMin.not_behind (h : FirstMin k ready pre B post) (hnd : ready.Nodup)
    (horder : [A, B].Sublist ready) : k A ≠ k B := by
  intro hkey
  rw [h.eq] at horder hnd
  have hB : B ∉ post := (List.nodup_cons.mp (List.nodup_append.mp hnd).2.1).1
  obtain ⟨front, rest, hsplit, hfront, hrest⟩ := List.sublist_append_iff.mp horder
  cases front with
  | nil =>
    rw [List.nil_append] at hsplit
    rw [← hsplit] at hrest
    cases hrest with
    | cons _ hpost => exact hB (hpost.subset (by simp))
    | cons_cons _ hpost => exact hB (hpost.subset (by simp))
  | cons c front =>
    have hc : A = c := (List.cons.inj hsplit).1
    have := h.before A (hfront.subset (by simp [hc]))
    omega

private theorem FirstMin.order_rest (h : FirstMin k ready pre b post) (horder : [A, B].Sublist ready)
    (hA : b ≠ A) (hB : b ≠ B) : [A, B].Sublist (pre ++ post) := by
  have herase := horder.erase b
  rwa [h.erase_eq, List.erase_of_not_mem (by simp [hA, hB])] at herase

private theorem FirstMin.mem_rest (h : FirstMin k ready pre b post) (hA : A ∈ ready) (hb : b ≠ A) :
    A ∈ pre ++ post := by
  cases List.mem_cons.mp (h.perm.mem_iff.mp hA) with
  | inl heq => exact absurd heq.symm hb
  | inr hrest => exact hrest

theorem Turn.cases (h : Turn k a a') : ∃ pre b post new, FirstMin k a.ready pre b post ∧
    some b ∈ a'.cores ∧ a'.ready = pre ++ post ++ new := by
  cases h with
  | @bind cores ready pre post b i hidle hmin =>
    have hlt : i < cores.length := (List.getElem?_eq_some_iff.mp hidle).1
    exact ⟨pre, b, post, [], hmin, List.mem_set hlt _, (List.append_nil _).symm⟩
  | @swap cores ready pre post b r v hr _ _ hmin =>
    have hlt : v < cores.length := (List.getElem?_eq_some_iff.mp hr).1
    exact ⟨pre, b, post, [r], hmin, List.mem_set hlt _, rfl⟩

private theorem Settles.mem_iff (h : Settles k a a') : A ∈ a'.ready ↔ A ∈ a.ready := by
  cases h with
  | empty => exact Iff.rfl
  | putBack _ hmin => exact ((List.perm_append_singleton _ _).trans hmin.perm.symm).mem_iff

end Order

/-- `A` stands before `B` in the ready queue. -/
def Ahead (A B : Ptr) (s : Sim) : Prop :=
  ∃ ps, Chain s.next (s.queue .ready).front ps ∧ [A, B].Sublist ps

/-- The thread enters the ready queue between two moments. -/
def Enters (p : Ptr) (μ ν : Moment) : Prop := ¬ InQueue μ.sim .ready p ∧ InQueue ν.sim .ready p

/-- The preempting loop is about to pop `A` and to put it back behind `B`: `A` is the first of the
smallest, no core is idle, and none runs a thread that `A` can displace. -/
def FallsBehind (policy : Preemptive) (A B : Ptr) (μ : Moment) : Prop :=
  μ.point = .preempt ∧ none ∉ μ.sim.core ∧ InQueue μ.sim .ready B ∧
    (∃ ps pre post, Chain μ.sim.next (μ.sim.queue .ready).front ps ∧
      FirstMin (fun p => policy.key (μ.sim.thread p)) ps pre A post) ∧
    coreAbove (fun p => policy.key (μ.sim.thread p)) (policy.key (μ.sim.thread A)) 0 none (-1)
      μ.sim.core = none

private theorem Placed.ahead_iff (h : Placed s l place) : Ahead A B s ↔ [A, B].Sublist (l .ready) := by
  constructor
  · intro ⟨ps, hchain, horder⟩
    rwa [(h.chain .ready).unique hchain]
  · exact fun horder => ⟨l .ready, h.chain .ready, horder⟩

private theorem Placed.inReady_iff (h : Placed s l place) (p : Ptr) : InQueue s .ready p ↔ p ∈ l .ready := by
  rw [h.inQueue_iff, h.mem]

private theorem coreAbove_eq_none {threshold : Int} {cores : List (Option Ptr)}
    (h : ∀ r, some r ∈ cores → k r ≤ threshold ∨ k r ≤ -1) :
    coreAbove k threshold 0 none (-1) cores = none := by
  cases habove : coreAbove k threshold 0 none (-1) cores with
  | none => rfl
  | some v =>
    obtain ⟨r, hr, hlt, hpos⟩ := coreAbove_some habove
    have := h r (List.mem_of_getElem? hr)
    omega

section Advances

variable (h : Advances policy μ ν l l')
include h

theorem Advances.waits (hA : A ∈ l .ready) (hcore : some A ∉ ν.sim.core) : A ∈ l' .ready := by
  cases h with
  | inl henter =>
    obtain ⟨new, hnew⟩ := henter
    rw [hnew]
    exact List.mem_append_left new hA
  | inr hserve =>
    cases hserve with
    | inl hturn =>
      obtain ⟨pre, b, post, new, hmin, hb, hready⟩ := hturn.2.cases
      have hbA : b ≠ A := fun heq => hcore (heq ▸ hb)
      show A ∈ (alloc ν.sim l').ready
      rw [hready]
      exact List.mem_append_left new (hmin.mem_rest hA hbA)
    | inr hlast => exact hlast.2.mem_iff.mpr hA

theorem Advances.behind (hA : A ∈ l .ready) (hcore : some A ∉ ν.sim.core) (hB : B ∉ l .ready)
    (hB' : B ∈ l' .ready) : [A, B].Sublist (l' .ready) := by
  have hpair : ∀ {old new : List Ptr}, A ∈ old → B ∈ new → [A, B].Sublist (old ++ new) :=
    fun ha hb => (List.singleton_sublist.mpr ha).append (List.singleton_sublist.mpr hb)
  cases h with
  | inl henter =>
    obtain ⟨new, hnew⟩ := henter
    rw [hnew] at hB' ⊢
    exact hpair hA ((List.mem_append.mp hB').resolve_left hB)
  | inr hserve =>
    cases hserve with
    | inl hturn =>
      obtain ⟨pre, b, post, new, hmin, hb, hready⟩ := hturn.2.cases
      have hbA : b ≠ A := fun heq => hcore (heq ▸ hb)
      change l' .ready = _ at hready
      have hrest : B ∉ pre ++ post := fun hm =>
        hB (hmin.perm.mem_iff.mpr (List.mem_cons_of_mem b hm))
      rw [hready] at hB' ⊢
      exact hpair (hmin.mem_rest hA hbA) ((List.mem_append.mp hB').resolve_left hrest)
    | inr hlast => exact absurd (hlast.2.mem_iff.mp hB') hB

theorem Advances.ahead (hp : Placed μ.sim l place) (horder : [A, B].Sublist (l .ready))
    (hkeys : μ.point.Dispatching → policy.key (μ.sim.thread A) = policy.key (μ.sim.thread B))
    (hback : ¬ FallsBehind policy A B μ) (hcore : some A ∉ ν.sim.core) :
    [A, B].Sublist (l' .ready) := by
  have hnd := hp.nodup .ready
  cases h with
  | inl henter =>
    obtain ⟨new, hnew⟩ := henter
    rw [hnew]
    exact horder.trans (List.sublist_append_left _ new)
  | inr hserve =>
    cases hserve with
    | inl hturn =>
      obtain ⟨pre, b, post, new, hmin, hb, hready⟩ := hturn.2.cases
      have hbA : b ≠ A := fun heq => hcore (heq ▸ hb)
      have hbB : b ≠ B := by
        intro heq
        subst heq
        exact hmin.not_behind hnd horder (hkeys hturn.1)
      show [A, B].Sublist (alloc ν.sim l').ready
      rw [hready]
      exact (hmin.order_rest horder hbA hbB).trans (List.sublist_append_left _ new)
    | inr hlast =>
      obtain ⟨hpoint, hsettles⟩ := hlast
      generalize hold : alloc μ.sim l = old at hsettles
      generalize hnew : alloc ν.sim l' = fresh at hsettles
      cases hsettles with
      | empty =>
        rw [show l .ready = [] from congrArg Alloc.ready hold] at horder
        cases horder
      | @putBack cores ready pre post b hbusy hmin hnone =>
        have hready : l .ready = ready := congrArg Alloc.ready hold
        have hcores : μ.sim.core = cores := congrArg Alloc.cores hold
        rw [show l' .ready = pre ++ post ++ [b] from congrArg Alloc.ready hnew]
        subst hready hcores
        have hbA : b ≠ A := by
          intro heq
          subst heq
          have hB : B ∈ l .ready := horder.subset (by simp)
          exact hback ⟨hpoint, hbusy, (hp.inReady_iff B).mpr hB,
            ⟨l .ready, pre, post, hp.chain .ready, hmin⟩, coreAbove_eq_none hnone⟩
        have hbB : b ≠ B := by
          intro heq
          subst heq
          exact hmin.not_behind hnd horder (hkeys (by rw [hpoint]; trivial))
        exact (hmin.order_rest horder hbA hbB).trans (List.sublist_append_left _ [b])

end Advances

section Run

variable {run : Nat → Moment} {i j m n : Nat}
  (hrun : ∀ n ≤ m, moment policy cfg jobs n = some (run n))
include hrun

private theorem next_of_run (hn : n < m) : next policy cfg (run n) = some (run (n + 1)) := by
  have hlast := hrun (n + 1) hn
  rw [moment, hrun n (Nat.le_of_lt hn)] at hlast
  exact hlast

private theorem sound_of_run (hn : n ≤ m) : ∃ l place T, Sound jobs (run n) l place T :=
  moment_sound (hrun n hn)

theorem waits_of_run (hin : i < n) (hn : n ≤ m) (hA : InQueue (run (i + 1)).sim .ready A)
    (hwait : ∀ n, i < n → n ≤ m → some A ∉ (run n).sim.core) : InQueue (run n).sim .ready A := by
  induction n, hin using Nat.le_induction with
  | base => exact hA
  | succ n hin ih =>
    obtain ⟨l, place, T, hsound⟩ := sound_of_run hrun (Nat.le_of_succ_le hn)
    obtain ⟨l', place', T', hsound', hadvances⟩ := hsound.next (next_of_run hrun hn)
    have hA := (hsound.placed.inReady_iff A).mp (ih (Nat.le_of_succ_le hn))
    exact (hsound'.placed.inReady_iff A).mpr (hadvances.waits hA (hwait (n + 1) (by omega) hn))

theorem ahead_of_run (hjm : j < m) (hA : Enters A (run i) (run (i + 1)))
    (hB : Enters B (run j) (run (j + 1)))
    (hij : i < j ∨ i = j ∧ Ahead A B (run (j + 1)).sim)
    (hwait : ∀ n, i < n → n ≤ m → some A ∉ (run n).sim.core) : Ahead A B (run (j + 1)).sim := by
  cases hij with
  | inr hsame => exact hsame.2
  | inl hlt =>
    obtain ⟨l, place, T, hsound⟩ := sound_of_run hrun (Nat.le_of_lt hjm)
    obtain ⟨l', place', T', hsound', hadvances⟩ := hsound.next (next_of_run hrun hjm)
    have hwaits := waits_of_run hrun hlt (Nat.le_of_lt hjm) hA.2 hwait
    rw [hsound'.placed.ahead_iff]
    exact hadvances.behind ((hsound.placed.inReady_iff A).mp hwaits)
      (hwait (j + 1) (by omega) hjm) (fun hm => hB.1 ((hsound.placed.inReady_iff B).mpr hm))
      ((hsound'.placed.inReady_iff B).mp hB.2)

/-- In a run in which `A` is never put back behind `B`, `B` is on no core before `A`: where `A` entered
first, the keys are equal whenever the dispatcher pops, and `A` is still waiting. -/
theorem equals_in_order (hA : Enters A (run i) (run (i + 1))) (hB : Enters B (run j) (run (j + 1)))
    (hij : i < j ∨ i = j ∧ Ahead A B (run (j + 1)).sim) (hjm : j < m)
    (hkeys : ∀ n, j < n → n < m → (run n).point.Dispatching →
      policy.key ((run n).sim.thread A) = policy.key ((run n).sim.thread B))
    (hback : ∀ n, j < n → n < m → ¬ FallsBehind policy A B (run n))
    (hwait : ∀ n, i < n → n ≤ m → some A ∉ (run n).sim.core) : some B ∉ (run m).sim.core := by
  have hle : i ≤ j := hij.elim Nat.le_of_lt fun h => Nat.le_of_eq h.1
  have hahead : ∀ n, j + 1 ≤ n → n ≤ m → Ahead A B (run n).sim := by
    intro n hjn hn
    induction n, hjn using Nat.le_induction with
    | base => exact ahead_of_run hrun hjm hA hB hij hwait
    | succ n hjn ih =>
      obtain ⟨l, place, T, hsound⟩ := sound_of_run hrun (Nat.le_of_succ_le hn)
      obtain ⟨l', place', T', hsound', hadvances⟩ := hsound.next (next_of_run hrun hn)
      rw [hsound'.placed.ahead_iff]
      exact hadvances.ahead hsound.placed
        (hsound.placed.ahead_iff.mp (ih (Nat.le_of_succ_le hn))) (hkeys n hjn hn)
        (hback n hjn hn) (hwait (n + 1) (by omega) hn)
  obtain ⟨l, place, T, hsound⟩ := sound_of_run hrun (Nat.le_refl m)
  have horder := hsound.placed.ahead_iff.mp (hahead m hjm (Nat.le_refl m))
  have hready := hsound.placed.place_eq (horder.subset (show B ∈ [A, B] by simp))
  intro hcore
  obtain ⟨c, hc⟩ := List.mem_iff_getElem?.mp hcore
  rw [hsound.placed.core_eq hc] at hready
  cases hready

end Run

/-- A job for `dispatch_srtcf`. -/
def timedJob (arrival burst : Nat) (hpos : 0 < burst) (hle : (burst : Int) ≤ INT_MAX) : Job where
  arrival := arrival
  burst := burst
  priority := 0
  arrival_nonneg := Int.natCast_nonneg arrival
  burst_pos := Int.natCast_pos.mpr hpos
  burst_le := hle
  priority_le := zero_le_INT_MAX

/-- Two ticks for the core, then two jobs of the same length, one tick apart. -/
def overtakenJobs : List Job :=
  [timedJob 0 2 (by decide) (by decide), timedJob 0 3 (by decide) (by decide),
    timedJob 1 3 (by decide) (by decide)]

def oneCore : Config := ⟨.srtcf, 1, 1, false, fun _ => 0⟩

def overtakenRun (n : Nat) : Moment :=
  (moment .srtcf oneCore overtakenJobs n).getD ⟨.enter, initial oneCore⟩

private theorem overtakenRun_moment {n : Nat} (hn : n ≤ 26) :
    moment .srtcf oneCore overtakenJobs n = some (overtakenRun n) := by
  have hall : ∀ n < 27, (moment .srtcf oneCore overtakenJobs n).isSome := by decide +kernel
  obtain ⟨μ, hμ⟩ := Option.isSome_iff_exists.mp (hall n (by omega))
  rw [overtakenRun, hμ]
  rfl

private theorem overtakenRun_enters_first : Enters 1 (overtakenRun 0) (overtakenRun 1) := by
  have hempty : ((overtakenRun 0).sim.queue .ready).front = none := by decide +kernel
  have hfull : ((overtakenRun 1).sim.queue .ready).front = some 0 ∧
      (overtakenRun 1).sim.next 0 = some 1 ∧ (overtakenRun 1).sim.next 1 = none := by decide +kernel
  constructor
  · intro ⟨ps, hchain, hm⟩
    have hps : ps = [] := hchain.unique hempty
    rw [hps] at hm
    cases hm
  · exact ⟨[0, 1], hfull, by decide⟩

private theorem overtakenRun_enters_second : Enters 2 (overtakenRun 12) (overtakenRun 13) := by
  have hone : ((overtakenRun 12).sim.queue .ready).front = some 1 ∧
      (overtakenRun 12).sim.next 1 = none := by decide +kernel
  have htwo : ((overtakenRun 13).sim.queue .ready).front = some 1 ∧
      (overtakenRun 13).sim.next 1 = some 2 ∧ (overtakenRun 13).sim.next 2 = none := by
    decide +kernel
  constructor
  · intro ⟨ps, hchain, hm⟩
    have hps : ps = [1] := hchain.unique hone
    rw [hps] at hm
    exact absurd hm (by decide)
  · exact ⟨[1, 2], htwo, by decide⟩

private theorem overtakenRun_waits : ∀ n < 27,
    ((overtakenRun n).sim.thread 1).remaining = ((overtakenRun n).sim.thread 2).remaining ∧
      some 1 ∉ (overtakenRun n).sim.core := by decide +kernel

/-- The second of two equal jobs runs in tick 2, while the first one waits behind it. -/
theorem overtaken : ¬ ∀ (policy : Preemptive) (cfg : Config) (jobs : List Job) (run : Nat → Moment)
    (A B : Ptr) (i j m : Nat), cfg.algo = policy.algo →
    (∀ n ≤ m, moment policy cfg jobs n = some (run n)) →
    Enters A (run i) (run (i + 1)) → Enters B (run j) (run (j + 1)) →
    (i < j ∨ i = j ∧ Ahead A B (run (j + 1)).sim) → j < m →
    (∀ n, j < n → n < m →
      policy.key ((run n).sim.thread A) = policy.key ((run n).sim.thread B)) →
    (∀ n, i < n → n ≤ m → some A ∉ (run n).sim.core) → some B ∉ (run m).sim.core := by
  intro hall
  have hcore : some 2 ∈ (overtakenRun 26).sim.core := by decide +kernel
  apply hall .srtcf oneCore overtakenJobs overtakenRun 1 2 0 12 26 rfl
    (fun n hn => overtakenRun_moment hn) overtakenRun_enters_first overtakenRun_enters_second
    (.inl (by decide)) (by decide) _ _ hcore
  · exact fun n _ hn => (overtakenRun_waits n (Nat.lt_succ_of_lt hn)).1
  · exact fun n _ hn => (overtakenRun_waits n (Nat.lt_succ_of_le hn)).2

theorem equals_in_order_start : some 2 ∉ (overtakenRun 16).sim.core := by
  have hpoint : ∀ n < 16, 12 < n → (overtakenRun n).point ≠ .preempt := by decide +kernel
  apply equals_in_order (fun n hn => overtakenRun_moment (n := n) (by omega))
    overtakenRun_enters_first overtakenRun_enters_second (.inl (by decide)) (by decide)
  · exact fun n _ hn _ => (overtakenRun_waits n (by omega)).1
  · exact fun n hlt hn hback => hpoint n hn hlt hback.1
  · exact fun n _ hn => (overtakenRun_waits n (by omega)).2

end CseOs.TickSim
