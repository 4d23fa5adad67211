import CseOs.TickSim.Places
import Mathlib.Data.List.ReduceOption

/-!
# Dispatching

Every dispatcher only moves threads between the ready queue and the cores, keeps their
accounts, and leaves no core idle while a thread is ready.
-/

namespace CseOs.TickSim

open Framework Sim

/-- The state that goes with a place. -/
def Place.state : Place → ThreadState
  | .queue .workload => .new
  | .queue .ready => .ready
  | .queue .waiting => .waiting
  | .queue .finished => .finished
  | .queue .keep => .new
  | .core _ => .running
  | .hand => .new

/-- In the ready queue or on a core. -/
def Place.Active : Place → Prop
  | .queue q => q = .ready
  | .core _ => True
  | .hand => False

/-- Only the fields that dispatching uses differ. -/
def Kept (t t' : Thread) : Prop :=
  t' = { t with state := t'.state, startTime := t'.startTime, quantaRem := t'.quantaRem }

private theorem Kept.refl (t : Thread) : Kept t t := rfl

private theorem Kept.trans {t t' t'' : Thread} (h : Kept t t') (h' : Kept t' t'') : Kept t t'' := by
  rw [h', h]
  rfl

theorem Kept.remaining {t t' : Thread} (h : Kept t t') : t'.remaining = t.remaining := by
  rw [h]

theorem Kept.waitTime {t t' : Thread} (h : Kept t t') : t'.waitTime = t.waitTime := by
  rw [h]

theorem Kept.priority {t t' : Thread} (h : Kept t t') : t'.priority = t.priority := by
  rw [h]

/-- Threads moved between the ready queue and the cores. -/
structure Shift (s s' : Sim) (place place' : Ptr → Place) : Prop where
  frame : s' = { s with
    next := s'.next, queue := s'.queue, thread := s'.thread, core := s'.core }
  cores : s'.core.length = s.core.length
  active : ∀ p, (place' p).Active ↔ (place p).Active
  other : ∀ p, ¬ (place p).Active → place' p = place p
  kept : ∀ p, Kept (s.thread p) (s'.thread p)
  state : ∀ p, (s.thread p).state = (place p).state → (s'.thread p).state = (place' p).state

variable {s s' s'' : Sim} {l : QName → List Ptr} {place place' place'' : Ptr → Place}
  {p t b : Ptr} {i : Nat}

namespace Shift

private theorem refl (s : Sim) (place : Ptr → Place) : Shift s s place place :=
  ⟨rfl, rfl, fun _ => Iff.rfl, fun _ _ => rfl, fun _ => Kept.refl _, fun _ h => h⟩

private theorem trans (h : Shift s s' place place') (h' : Shift s' s'' place' place'') :
    Shift s s'' place place'' := by
  constructor
  · rw [h'.frame, h.frame]
  · exact h'.cores.trans h.cores
  · exact fun p => (h'.active p).trans (h.active p)
  · intro p hp
    rw [h'.other p (fun ha => hp ((h.active p).mp ha)), h.other p hp]
  · exact fun p => (h.kept p).trans (h'.kept p)
  · exact fun p hp => h'.state p (h.state p hp)

theorem made (h : Shift s s' place place') : s'.made = s.made := by
  rw [h.frame]

end Shift

/-- What a move does to the thread moved and to the others. -/
structure Retagged (s s' : Sim) (t : Ptr) (v : Place) : Prop where
  kept : Kept (s.thread t) (s'.thread t)
  state : (s'.thread t).state = v.state
  other : ∀ p, p ≠ t → s'.thread p = s.thread p

theorem Placed.core_lt (h : Placed s l place) (hcore : s.core[i]? = some (some t)) : t < s.made :=
  ((h.core i t).mp hcore).1

theorem Placed.core_eq (h : Placed s l place) (hcore : s.core[i]? = some (some t)) :
    place t = .core i :=
  ((h.core i t).mp hcore).2

theorem Placed.bind (h : Placed s l place) (ht : t < s.made) (hhand : place t = .hand)
    (hidle : s.core[i]? = some none) :
    ∃ s', cpuBindCore i t s = some s' ∧ Placed s' l (Function.update place t (.core i)) ∧
      s'.core = s.core.set i (some t) ∧
      s' = { s with core := s'.core, thread := s'.thread } ∧ Retagged s s' t (.core i) := by
  have hlen : i < s.core.length := (List.getElem?_eq_some_iff.mp hidle).1
  refine ⟨_, if_pos hidle, ?_, rfl, rfl, ?_⟩
  · apply Placed.setThread
    constructor
    · exact h.chain
    · exact h.rear
    · exact h.size
    · exact h.nodup
    · intro q p
      show p ∈ l q ↔ p < s.made ∧ _
      rw [h.mem]
      by_cases hp : p = t
      · subst hp
        simp [hhand]
      · rw [Function.update_of_ne hp]
    · intro j p
      show (s.core.set i (some t))[j]? = some (some p) ↔ p < s.made ∧ _
      by_cases hj : j = i
      · subst hj
        rw [List.getElem?_set_self hlen]
        by_cases hp : p = t
        · subst hp
          simp [ht]
        · have hne : ¬ (p < s.made ∧ place p = .core j) := by
            rw [← h.core, hidle]
            simp
          rw [Function.update_of_ne hp]
          simp [Ne.symm hp, hne]
      · rw [List.getElem?_set_ne (Ne.symm hj), h.core]
        by_cases hp : p = t
        · subst hp
          simp [hhand, Ne.symm hj]
        · rw [Function.update_of_ne hp]
  · constructor
    · rw [setThread_same]
      rfl
    · rw [setThread_same]
      rfl
    · intro p hp
      rw [setThread_other _ hp]
      rfl

/-- Take the thread of a core in hand. -/
theorem Placed.unbind (h : Placed s l place) (hcore : s.core[i]? = some (some t)) :
    cpuUnbindCore i s = some (some t, s.setCore i none) ∧
      Placed (s.setCore i none) l (Function.update place t .hand) := by
  have hlen : i < s.core.length := (List.getElem?_eq_some_iff.mp hcore).1
  have hplace := h.core_eq hcore
  refine ⟨by simp only [cpuUnbindCore, hcore], ?_⟩
  constructor
  · exact h.chain
  · exact h.rear
  · exact h.size
  · exact h.nodup
  · intro q p
    show p ∈ l q ↔ p < s.made ∧ _
    rw [h.mem]
    by_cases hp : p = t
    · subst hp
      simp [hplace]
    · rw [Function.update_of_ne hp]
  · intro j p
    show (s.core.set i none)[j]? = some (some p) ↔ p < s.made ∧ _
    by_cases hj : j = i
    · subst hj
      rw [List.getElem?_set_self hlen]
      by_cases hp : p = t
      · subst hp
        simp
      · have hne : ¬ (p < s.made ∧ place p = .core j) := by
          rw [← h.core, hcore]
          simp [Ne.symm hp]
        rw [Function.update_of_ne hp]
        simp [hne]
    · rw [List.getElem?_set_ne (Ne.symm hj), h.core]
      by_cases hp : p = t
      · subst hp
        simp [hplace, Ne.symm hj]
      · rw [Function.update_of_ne hp]

theorem Shift.of_moved (hframe : s' = { s with
      next := s'.next, queue := s'.queue, thread := s'.thread, core := s'.core })
    (hcores : s'.core.length = s.core.length)
    (h : ∀ p, (place' p = place p ∧ s'.thread p = s.thread p) ∨
      ((place p).Active ∧ (place' p).Active ∧ Kept (s.thread p) (s'.thread p) ∧
        (s'.thread p).state = (place' p).state)) : Shift s s' place place' := by
  refine ⟨hframe, hcores, fun p => ?_, fun p hp => ?_, fun p => ?_, fun p hp => ?_⟩
  · rcases h p with ⟨hplace, _⟩ | ⟨ha, ha', _⟩
    · rw [hplace]
    · exact iff_of_true ha' ha
  · rcases h p with ⟨hplace, _⟩ | ⟨ha, _⟩
    · exact hplace
    · exact absurd ha hp
  · rcases h p with ⟨_, hthread⟩ | ⟨_, _, hkept, _⟩
    · rw [hthread]
      exact Kept.refl _
    · exact hkept
  · rcases h p with ⟨hplace, hthread⟩ | ⟨_, _, _, hstate⟩
    · rw [hthread, hplace, hp]
    · exact hstate

private theorem Shift.move {v : Place} (hframe : s' = { s with
      next := s'.next, queue := s'.queue, thread := s'.thread, core := s'.core })
    (hcores : s'.core.length = s.core.length) (ht : (place t).Active) (hv : v.Active)
    (h : Retagged s s' t v) : Shift s s' place (Function.update place t v) := by
  apply Shift.of_moved hframe hcores
  intro p
  by_cases hp : p = t
  · subst hp
    rw [Function.update_self]
    exact .inr ⟨ht, hv, h.kept, h.state⟩
  · exact .inl ⟨Function.update_of_ne hp .., h.other p hp⟩

/-- Preemption moves the thread of a core to the ready queue. -/
theorem Placed.preempt (h : Placed s l place) (hcore : s.core[i]? = some (some t)) :
    ∃ s', preemptToReady i s = some s' ∧
      Placed s' (Function.update l .ready (l .ready ++ [t]))
        (Function.update place t (.queue .ready)) ∧
      s' = { s with next := s'.next, queue := s'.queue, thread := s'.thread, core := s'.core } ∧
      s'.core = s.core.set i none ∧ Retagged s s' t (.queue .ready) := by
  obtain ⟨hrun, hunbound⟩ := h.unbind hcore
  have hset := hunbound.setThread t fun th => { th with state := .ready }
  obtain ⟨hplaced, hrel⟩ := hset.push (h.core_lt hcore) (Function.update_self ..) .ready
  rw [Function.update_idem] at hplaced
  have hthread := hrel.thread
  refine ⟨_, by rw [preemptToReady, hrun]; rfl, hplaced, by rw [hrel]; rfl, hrel.core, ?_⟩
  constructor
  · rw [hthread, setThread_same]
    rfl
  · rw [hthread, setThread_same]
    rfl
  · intro p hp
    rw [hthread, setThread_other _ hp]
    rfl

/-- What every way of popping the ready queue does. -/
def PopsReady (pop : Sim → Option (Option Ptr × Sim)) : Prop :=
  ∀ s l place, Placed s l place →
    (l .ready = [] → pop s = some (none, s)) ∧
      (l .ready ≠ [] → ∃ t s', pop s = some (some t, s') ∧ t ∈ l .ready ∧ Relinked s s' ∧
        Placed s' (Function.update l .ready ((l .ready).erase t)) (Function.update place t .hand))

private theorem popsReady_qPop : PopsReady fun s => some (qPop .ready s) := by
  intro s l place h
  refine ⟨fun hnil => congrArg some (h.pop_nil hnil), fun hne => ?_⟩
  obtain ⟨t, ts, hcons⟩ := List.exists_cons_of_ne_nil hne
  obtain ⟨s', hrun, hrel, hplaced⟩ := h.pop_cons hcons
  refine ⟨t, s', congrArg some hrun, by simp [hcons], hrel, ?_⟩
  rwa [hcons, List.erase_cons_head]

private theorem popsReady_qPopMin (key : Thread → Int) : PopsReady (qPopMin key .ready) := by
  intro s l place h
  refine ⟨fun hnil => h.popMin_nil hnil key, fun hne => ?_⟩
  obtain ⟨b, s', hrun, hb, hrel, hplaced, _⟩ := h.popMin hne key
  exact ⟨b, s', hrun, hb, hrel, hplaced⟩

/-- A popped thread goes to an idle core. -/
theorem Placed.popBind (h : Placed s l place) (ht : t ∈ l .ready) (hrel : Relinked s s')
    {l' : QName → List Ptr} (h' : Placed s' l' (Function.update place t .hand))
    (hidle : s.core[i]? = some none) (f : Thread → Thread) (hf : ∀ th, Kept th (f th)) :
    ∃ s'', cpuBindCore i t (s'.setThread t f) = some s'' ∧
      Placed s'' l' (Function.update place t (.core i)) ∧
      Shift s s'' place (Function.update place t (.core i)) ∧
      s''.core = s.core.set i (some t) := by
  have hplace := h.place_eq ht
  have hset := h'.setThread t f
  have hidle' : (s'.setThread t f).core[i]? = some none := by
    rw [← hidle]
    exact congrArg (·[i]?) hrel.core
  have hlt : t < (s'.setThread t f).made := by
    show t < s'.made
    rw [hrel.made]
    exact h.lt ht
  obtain ⟨s'', hrun, hplaced, hcore, hframe, htag⟩ :=
    hset.bind hlt (Function.update_self ..) hidle'
  rw [Function.update_idem] at hplaced
  have hcore' : s''.core = s.core.set i (some t) := by
    rw [hcore]
    exact congrArg (·.set i (some t)) hrel.core
  refine ⟨s'', hrun, hplaced, ?_, hcore'⟩
  apply Shift.move
  · rw [hframe, hrel]
    rfl
  · rw [hcore', List.length_set]
  · rw [hplace]
    rfl
  · trivial
  · constructor
    · apply Kept.trans _ htag.kept
      rw [setThread_same, hrel.thread]
      exact hf _
    · exact htag.state
    · intro p hp
      rw [htag.other p hp, setThread_other _ hp, hrel.thread]

/-- No core is idle while a thread is ready. -/
def WorkConserving (s : Sim) (l : QName → List Ptr) : Prop := l .ready = [] ∨ none ∉ s.core

theorem Placed.bindFirstIdle (h : Placed s l place) {s₁ : Sim} {l' : QName → List Ptr}
    (ht : t ∈ l .ready) (hrel : Relinked s s₁) (h₁ : Placed s₁ l' (Function.update place t .hand))
    (hany : none ∈ s.core) :
    ∃ s₂ i, s.core[i]? = some none ∧ cpuBindFirstIdle t s₁ = some s₂ ∧
      Placed s₂ l' (Function.update place t (.core i)) ∧
      Shift s s₂ place (Function.update place t (.core i)) ∧ s₂.core = s.core.set i (some t) ∧
      s₂.core.count none < s.core.count none := by
  obtain ⟨i, hfirst⟩ : ∃ i, s.core.idxOf? none = some i := by
    cases hidx : s.core.idxOf? none with
    | none => exact absurd hany (List.idxOf?_eq_none_iff.mp hidx)
    | some i => exact ⟨i, rfl⟩
  have hidle : s.core[i]? = some none := by
    obtain ⟨hlt, hget, _⟩ := List.idxOf?_eq_some_iff.mp hfirst
    exact List.getElem?_eq_some_iff.mpr ⟨hlt, hget⟩
  obtain ⟨s₂, hbind, h₂, hshift, hcore⟩ := h.popBind ht hrel h₁ hidle id fun _ => Kept.refl _
  have hset : s₁.setThread t id = s₁ := by simp [Sim.setThread]
  refine ⟨s₂, i, hidle, ?_, h₂, hshift, hcore, ?_⟩
  · have hfirst' : cpuFirstIdle s₁ = some i := by
      rw [cpuFirstIdle, hrel.core, hfirst]
    rw [cpuBindFirstIdle, hfirst', ← hset]
    exact hbind
  · obtain ⟨hlt, hget⟩ := List.getElem?_eq_some_iff.mp hidle
    rw [hcore, List.count_set hlt]
    have := List.count_pos_iff.mpr hany
    simp [hget]
    omega

/-- One round of `while (cpu_any_idle(cpu))`, and whether there is another. -/
def fillRound (pop : Sim → Option (Option Ptr × Sim)) (s : Sim) : Option (Bool × Sim) :=
  if cpuAnyIdle s then do
    let (t, s) ← pop s
    match t with
    | none => some (false, s)
    | some t => do some (true, ← cpuBindFirstIdle t s)
  else some (false, s)

section FillRound

variable {pop : Sim → Option (Option Ptr × Sim)}

theorem fillRound_busy (hbusy : none ∉ s.core) : fillRound pop s = some (false, s) := by
  have hany : ¬ cpuAnyIdle s = true := by simpa [cpuAnyIdle] using hbusy
  rw [fillRound, if_neg hany]

private theorem fillRound_nil (hpop : pop s = some (none, s)) : fillRound pop s = some (false, s) := by
  rw [fillRound, hpop]
  split <;> rfl

private theorem fillRound_bind {s₁ s₂ : Sim} (hany : none ∈ s.core) (hpop : pop s = some (some t, s₁))
    (hbind : cpuBindFirstIdle t s₁ = some s₂) : fillRound pop s = some (true, s₂) := by
  have hany' : cpuAnyIdle s = true := by simpa [cpuAnyIdle] using hany
  rw [fillRound, if_pos hany', hpop]
  show (do some (true, ← cpuBindFirstIdle t s₁)) = _
  rw [hbind]
  rfl

theorem fillIdle_succ (fuel : Nat) (s : Sim) : fillIdle pop (fuel + 1) s =
    (fillRound pop s).bind fun r => if r.1 then fillIdle pop fuel r.2 else some r.2 := by
  rw [fillIdle, fillRound]
  split
  · cases pop s with
    | none => rfl
    | some r =>
      obtain ⟨t, s₁⟩ := r
      cases t with
      | none => rfl
      | some t =>
        show (cpuBindFirstIdle t s₁).bind (fillIdle pop fuel) = _
        cases hbind : cpuBindFirstIdle t s₁ with
        | none => simp [hbind]
        | some s₂ => simp [hbind]
  · rfl

private theorem fillIdle_done {fuel : Nat} (h : fillRound pop s = some (false, s)) :
    fillIdle pop (fuel + 1) s = some s := by
  rw [fillIdle_succ, h]
  rfl

private theorem fillIdle_busy (hbusy : none ∉ s.core) (fuel : Nat) : fillIdle pop fuel s = some s := by
  cases fuel with
  | zero =>
    have hany : ¬ cpuAnyIdle s = true := by simpa [cpuAnyIdle] using hbusy
    rw [fillIdle, if_neg hany]
  | succ fuel => exact fillIdle_done (fillRound_busy hbusy)

end FillRound

private theorem fillIdle_spec {pop : Sim → Option (Option Ptr × Sim)} (hpop : PopsReady pop) {fuel : Nat}
    (h : Placed s l place) (hfuel : s.core.count none ≤ fuel) :
    ∃ s' l' place', fillIdle pop fuel s = some s' ∧ Placed s' l' place' ∧
      Shift s s' place place' ∧ WorkConserving s' l' := by
  induction fuel generalizing s l place with
  | zero =>
    have hbusy : none ∉ s.core := List.count_eq_zero.mp (Nat.le_zero.mp hfuel)
    exact ⟨s, l, place, fillIdle_busy hbusy 0, h, Shift.refl s place, .inr hbusy⟩
  | succ fuel ih =>
    by_cases hany : none ∈ s.core
    · by_cases hnil : l .ready = []
      · exact ⟨s, l, place, fillIdle_done (fillRound_nil ((hpop s l place h).1 hnil)), h,
          Shift.refl s place, .inl hnil⟩
      · obtain ⟨t, s₁, hrun, ht, hrel, h₁⟩ := (hpop s l place h).2 hnil
        obtain ⟨s₂, i, _, hbind, h₂, hshift, _, hcount⟩ := h.bindFirstIdle ht hrel h₁ hany
        obtain ⟨s', l', place', hfill, h', hshift', hwork⟩ := ih h₂ (by omega)
        refine ⟨s', l', place', ?_, h', hshift.trans hshift', hwork⟩
        rw [fillIdle_succ, fillRound_bind hany hrun hbind]
        exact hfill
    · exact ⟨s, l, place, fillIdle_busy hany _, h, Shift.refl s place, .inr hany⟩

private theorem coreAbove_spec {key : Ptr → Int} {threshold : Int} {cores : List (Option Ptr)} {n : Nat}
    {bestCore : Option Nat} {best : Int} (hbest : -1 ≤ best) (hnone : bestCore = none → best = -1) :
    (∀ v, coreAbove key threshold n bestCore best cores = some v → bestCore = some v ∨
        ∃ j r, cores[j]? = some (some r) ∧ v = n + j ∧ threshold < key r ∧ -1 < key r) ∧
      (coreAbove key threshold n bestCore best cores = none →
        bestCore = none ∧ ∀ r, some r ∈ cores → key r ≤ threshold ∨ key r ≤ -1) := by
  induction cores generalizing n bestCore best with
  | nil => exact ⟨fun v hv => .inl hv, fun h => ⟨h, fun r hr => absurd hr List.not_mem_nil⟩⟩
  | cons c cores ih =>
    have hshift : ∀ {v : Nat}, (∃ j r, cores[j]? = some (some r) ∧ v = n + 1 + j ∧
        threshold < key r ∧ -1 < key r) → ∃ j r, (c :: cores)[j]? = some (some r) ∧ v = n + j ∧
        threshold < key r ∧ -1 < key r := by
      intro v ⟨j, r, hr, hv, hkey⟩
      exact ⟨j + 1, r, by simpa using hr, by omega, hkey⟩
    cases c with
    | none =>
      have := ih (n := n + 1) hbest hnone
      refine ⟨fun v hv => (this.1 v hv).imp_right hshift, fun h => ⟨(this.2 h).1, fun r hr => ?_⟩⟩
      exact (this.2 h).2 r (by simpa using hr)
    | some c =>
      rw [coreAbove]
      split
      · next hgt =>
        have := ih (n := n + 1) (show -1 ≤ key c by omega)
          (show some n = none → key c = -1 from nofun)
        refine ⟨fun v hv => ?_, fun h => absurd (this.2 h).1 (by simp)⟩
        rcases this.1 v hv with hv | hv
        · exact .inr ⟨0, c, rfl, (Option.some_inj.mp hv).symm, hgt.1, by omega⟩
        · exact .inr (hshift hv)
      · next hle =>
        have := ih (n := n + 1) hbest hnone
        refine ⟨fun v hv => (this.1 v hv).imp_right hshift, fun h => ⟨(this.2 h).1, fun r hr => ?_⟩⟩
        rcases List.mem_cons.mp hr with hr | hr
        · cases hr
          have hb := hnone (this.2 h).1
          omega
        · exact (this.2 h).2 r hr

theorem coreAbove_some {key : Ptr → Int} {threshold : Int} {cores : List (Option Ptr)} {v : Nat}
    (h : coreAbove key threshold 0 none (-1) cores = some v) :
    ∃ r, cores[v]? = some (some r) ∧ threshold < key r ∧ -1 < key r := by
  rcases (coreAbove_spec (by decide) fun _ => rfl).1 v h with h | ⟨j, r, hr, hv, hkey⟩
  · cases h
  · exact ⟨r, by rwa [hv, Nat.zero_add], hkey⟩

private theorem coreAbove_none {key : Ptr → Int} {threshold : Int} {cores : List (Option Ptr)} {r : Ptr}
    (h : coreAbove key threshold 0 none (-1) cores = none) (hr : some r ∈ cores) :
    key r ≤ threshold ∨ key r ≤ -1 :=
  ((coreAbove_spec (by decide) fun _ => rfl).2 h).2 r hr

/-- The keys on the cores, each counted from -1 on. -/
def coreWeight (key : Ptr → Int) (cores : List (Option Ptr)) : Nat :=
  (cores.map fun c => c.elim 0 fun p => (key p + 1).toNat).sum

private theorem roundBound_eq (key : Thread → Int) (s : Sim) :
    roundBound key s = coreWeight (fun p => key (s.thread p)) s.core + 2 := by
  have : ∀ cores : List (Option Ptr),
      (cores.reduceOption.map fun p => (key (s.thread p) + 1).toNat).sum =
        coreWeight (fun p => key (s.thread p)) cores := by
    intro cores
    induction cores with
    | nil => rfl
    | cons c cores ih =>
      cases c with
      | none =>
        rw [List.reduceOption_cons_of_none, ih]
        simp [coreWeight]
      | some c =>
        rw [List.reduceOption_cons_of_some, List.map_cons, List.sum_cons, ih]
        rfl
  rw [roundBound, this]

private theorem coreWeight_set (key : Ptr → Int) {cores : List (Option Ptr)} {v : Nat} {r b : Ptr}
    (hr : cores[v]? = some (some r)) (hlt : key b < key r) (hpos : -1 < key r) :
    coreWeight key (cores.set v (some b)) < coreWeight key cores := by
  induction cores generalizing v with
  | nil => simp at hr
  | cons c cores ih =>
    cases v with
    | zero =>
      rw [List.getElem?_cons_zero, Option.some_inj] at hr
      subst hr
      simp only [coreWeight, List.set_cons_zero, List.map_cons, List.sum_cons, Option.elim_some]
      omega
    | succ v =>
      have := ih (by simpa using hr)
      simp only [coreWeight, List.set_cons_succ, List.map_cons, List.sum_cons] at this ⊢
      omega

theorem Placed.swap (h : Placed s l place) (hb : b ∈ l .ready) (hrel : Relinked s s')
    {ts : List Ptr}
    (h' : Placed s' (Function.update l .ready ts) (Function.update place b .hand))
    {v : Nat} {r : Ptr} (hr : s.core[v]? = some (some r)) :
    ∃ s'' place', (preemptToReady v s').bind (cpuBindCore v b) = some s'' ∧
      Placed s'' (Function.update l .ready (ts ++ [r])) place' ∧ Shift s s'' place place' ∧
      s''.core = s.core.set v (some b) := by
  have hlen : v < s.core.length := (List.getElem?_eq_some_iff.mp hr).1
  have hrb : r ≠ b := by
    rintro rfl
    have := (h.core_eq hr).symm.trans (h.place_eq hb)
    cases this
  obtain ⟨s₁, hpre, h₁, hframe₁, hcore₁, htag₁⟩ := h'.preempt (hrel.core ▸ hr)
  rw [Function.update_self, Function.update_idem] at h₁
  have hmade : s₁.made = s.made := by
    rw [hframe₁]
    exact hrel.made
  have hidle : s₁.core[v]? = some none := by
    rw [hcore₁, hrel.core, List.getElem?_set_self hlen]
  have hhand : Function.update (Function.update place b .hand) r (.queue .ready) b = .hand := by
    rw [Function.update_of_ne hrb.symm, Function.update_self]
  obtain ⟨s₂, hbind, h₂, hcore₂, hframe₂, htag₂⟩ := h₁.bind (hmade ▸ h.lt hb) hhand hidle
  have hcore : s₂.core = s.core.set v (some b) := by
    rw [hcore₂, hcore₁, hrel.core, List.set_set]
  refine ⟨s₂, _, by rw [hpre]; exact hbind, h₂, ?_, hcore⟩
  apply Shift.of_moved
  · rw [hframe₂, hframe₁, hrel]
  · rw [hcore, List.length_set]
  · intro p
    by_cases hpb : p = b
    · subst hpb
      rw [Function.update_self, h.place_eq hb]
      refine .inr ⟨rfl, trivial, ?_, htag₂.state⟩
      have := htag₂.kept
      rwa [htag₁.other p hrb.symm, hrel.thread] at this
    · rw [Function.update_of_ne hpb]
      by_cases hpr : p = r
      · subst hpr
        rw [Function.update_self, h.core_eq hr, htag₂.other p hpb]
        refine .inr ⟨trivial, rfl, ?_, htag₁.state⟩
        have := htag₁.kept
        rwa [hrel.thread] at this
      · rw [Function.update_of_ne hpr, Function.update_of_ne hpb, htag₂.other p hpb,
          htag₁.other p hpr, hrel.thread]
        exact .inl ⟨rfl, rfl⟩

theorem Placed.putBack (h : Placed s l place) (hb : b ∈ l .ready) (hrel : Relinked s s')
    {ts : List Ptr}
    (h' : Placed s' (Function.update l .ready ts) (Function.update place b .hand)) :
    Placed (qPush .ready b s') (Function.update l .ready (ts ++ [b])) place ∧
      Relinked s (qPush .ready b s') := by
  have hmade : b < s'.made := by
    rw [hrel.made]
    exact h.lt hb
  obtain ⟨hplaced, hrel'⟩ := h'.push hmade (Function.update_self ..) .ready
  have hplace : Function.update (Function.update place b .hand) b (.queue .ready) = place := by
    rw [Function.update_idem, ← h.place_eq hb, Function.update_eq_self]
  rw [hplace, Function.update_self, Function.update_idem] at hplaced
  refine ⟨hplaced, ?_⟩
  rw [hrel', hrel]
  rfl

private theorem Relinked.shift (h : Relinked s s') : Shift s s' place place := by
  apply Shift.of_moved
  · rw [h]
  · rw [h.core]
  · exact fun p => .inl ⟨rfl, by rw [h.thread]⟩

/-- The cores and the ready queue. -/
structure Alloc where
  cores : List (Option Ptr)
  ready : List Ptr

def alloc (s : Sim) (l : QName → List Ptr) : Alloc := ⟨s.core, l .ready⟩

/-- One turn of a dispatcher that selects by `key`: the first of the smallest goes to an idle core,
or takes the place of a thread with a larger key that is not negative. -/
inductive Turn (key : Ptr → Int) : Alloc → Alloc → Prop
  | bind {cores : List (Option Ptr)} {ready pre post : List Ptr} {b : Ptr} {i : Nat} :
      cores[i]? = some none → FirstMin key ready pre b post →
      Turn key ⟨cores, ready⟩ ⟨cores.set i (some b), pre ++ post⟩
  | swap {cores : List (Option Ptr)} {ready pre post : List Ptr} {b r : Ptr} {v : Nat} :
      cores[v]? = some (some r) → key b < key r → -1 < key r → FirstMin key ready pre b post →
      Turn key ⟨cores, ready⟩ ⟨cores.set v (some b), pre ++ post ++ [r]⟩

/-- The last turn: nothing is ready, or the first of the smallest finds no place and is put back. -/
inductive Settles (key : Ptr → Int) : Alloc → Alloc → Prop
  | empty {cores : List (Option Ptr)} : Settles key ⟨cores, []⟩ ⟨cores, []⟩
  | putBack {cores : List (Option Ptr)} {ready pre post : List Ptr} {b : Ptr} :
      none ∉ cores → FirstMin key ready pre b post →
      (∀ r, some r ∈ cores → key r ≤ key b ∨ key r ≤ -1) →
      Settles key ⟨cores, ready⟩ ⟨cores, pre ++ post ++ [b]⟩

/-- What a preempting loop leaves: the smallest keys are on the cores. -/
def KeysSorted (key : Thread → Int) (s : Sim) (place : Ptr → Place) : Prop :=
  ∀ (i : Nat) (p r : Ptr), s.core[i]? = some (some r) → p < s.made → place p = .queue .ready →
    key (s.thread r) ≤ key (s.thread p) ∨ key (s.thread r) ≤ -1

/-- The fields of an active thread that the program compares are ints. -/
def KeysFit (key : Thread → Int) (s : Sim) : Prop := ∀ p < s.made, key (s.thread p) ≤ INT_MAX

section Settled

variable {key : Ptr → Int} {a a' : Alloc}

theorem Settles.workConserving (h : Settles key a a') : a'.ready = [] ∨ none ∉ a'.cores := by
  cases h with
  | empty => exact .inl rfl
  | putBack hbusy => exact .inr hbusy

private theorem Settles.sorted (h : Settles key a a') {p r : Ptr} (hr : some r ∈ a'.cores)
    (hp : p ∈ a'.ready) : key r ≤ key p ∨ key r ≤ -1 := by
  cases h with
  | empty => exact absurd hp List.not_mem_nil
  | putBack hbusy hmin hnone =>
    have hle := hmin.le p (by
      rw [hmin.eq]
      simp only [List.mem_append, List.mem_cons, List.not_mem_nil, or_false] at hp ⊢
      tauto)
    have := hnone r hr
    omega

end Settled

theorem Placed.popReady {key : Thread → Int} {k : Ptr → Int} (h : Placed s l place)
    (hnil : l .ready ≠ []) (hk : ∀ p, key (s.thread p) = k p)
    (hmax : ∀ p < s.made, (place p).Active → k p ≤ INT_MAX) :
    ∃ pre b post s', FirstMin k (l .ready) pre b post ∧
      qPopMin key .ready s = some (some b, s') ∧ Relinked s s' ∧
      Placed s' (Function.update l .ready (pre ++ post)) (Function.update place b .hand) := by
  have hkeys : (fun p => key (s.thread p)) = k := funext hk
  obtain ⟨pre, b, post, hmin⟩ := exists_firstMin k hnil
  have hfit : ∀ x ∈ l .ready, key (s.thread x) ≤ INT_MAX := by
    intro x hx
    rw [hk]
    exact hmax x (h.lt hx) (by rw [h.place_eq hx]; rfl)
  obtain ⟨s', hpop⟩ := h.popFirst hfit (hkeys ▸ hmin)
  exact ⟨pre, b, post, s', hmin, hpop⟩

/-- One round of the preempting loop of `dispatch_srtcf`, and whether there is another. -/
def srtcfRound (s : Sim) : Option (Bool × Sim) := do
  let (best, s) ← qPopMinRemaining .ready s
  match best with
  | none => some (false, s)
  | some best =>
    match cpuFirstIdle s with
    | some idle => do some (true, ← cpuBindCore idle best s)
    | none =>
      match coreWithLargestRemainingAbove (s.thread best).remaining s with
      | some victim => do some (true, ← cpuBindCore victim best (← preemptToReady victim s))
      | none => some (false, qPush .ready best s)

/-- One round of the preempting loop of `dispatch_priority`, and whether there is another. -/
def priorityRound (s : Sim) : Option (Bool × Sim) := do
  let (best, s) ← qPopHighestPriority .ready s
  match best with
  | none => some (false, s)
  | some best =>
    match coreWithWorstPriorityAbove (s.thread best).priority s with
    | some victim => do some (true, ← cpuBindCore victim best (← preemptToReady victim s))
    | none => some (false, qPush .ready best s)

/-- What a round of a preempting loop that selects by `key` does when no core is idle. -/
structure PreemptsBy (key : Thread → Int) (round : Sim → Option (Bool × Sim)) : Prop where
  popped : ∀ s s' b, qPopMin key .ready s = some (some b, s') → none ∉ s'.core → round s =
    match coreAbove (fun p => key (s'.thread p)) (key (s'.thread b)) 0 none (-1) s'.core with
    | some v => ((preemptToReady v s').bind (cpuBindCore v b)).map (true, ·)
    | none => some (false, qPush .ready b s')
  empty : ∀ s s', qPopMin key .ready s = some (none, s') → round s = some (false, s')

theorem preemptsBy_srtcfRound : PreemptsBy Thread.remaining srtcfRound := by
  constructor
  · intro s s' b hpop hbusy
    have hidle : cpuFirstIdle s' = none := List.idxOf?_eq_none_iff.mpr hbusy
    rw [srtcfRound, qPopMinRemaining, hpop]
    simp only [Option.bind_eq_bind, Option.bind_some, hidle, coreWithLargestRemainingAbove]
    generalize coreAbove _ _ _ _ _ _ = victim
    cases victim with
    | none => rfl
    | some v =>
      simp only
      cases preemptToReady v s' with
      | none => rfl
      | some s₁ => cases hbind : cpuBindCore v b s₁ <;> simp [hbind]
  · intro s s' hpop
    rw [srtcfRound, qPopMinRemaining, hpop]
    rfl

theorem preemptsBy_priorityRound : PreemptsBy Thread.priority priorityRound := by
  constructor
  · intro s s' b hpop _
    rw [priorityRound, qPopHighestPriority, hpop]
    simp only [Option.bind_eq_bind, Option.bind_some, coreWithWorstPriorityAbove]
    generalize coreAbove _ _ _ _ _ _ = victim
    cases victim with
    | none => rfl
    | some v =>
      simp only
      cases preemptToReady v s' with
      | none => rfl
      | some s₁ => cases hbind : cpuBindCore v b s₁ <;> simp [hbind]
  · intro s s' hpop
    rw [priorityRound, qPopHighestPriority, hpop]
    rfl

/-- A loop that calls `round` until it says that there is no other. -/
def Repeats (round : Sim → Option (Bool × Sim)) (loop : Nat → Sim → Option Sim) : Prop :=
  ∀ fuel s, loop (fuel + 1) s =
    (round s).bind fun r => if r.1 then loop fuel r.2 else some r.2

theorem repeats_srtcfLoop : Repeats srtcfRound srtcfLoop := by
  intro fuel s
  rw [srtcfLoop, srtcfRound]
  cases qPopMinRemaining .ready s with
  | none => rfl
  | some r =>
    obtain ⟨best, s₁⟩ := r
    cases best with
    | none => rfl
    | some best =>
      simp only [Option.bind_eq_bind, Option.bind_some]
      cases cpuFirstIdle s₁ with
      | some idle => cases hbind : cpuBindCore idle best s₁ <;> simp [hbind]
      | none =>
        cases coreWithLargestRemainingAbove (s₁.thread best).remaining s₁ with
        | none => rfl
        | some v =>
          simp only
          cases preemptToReady v s₁ with
          | none => rfl
          | some s₂ => cases hbind : cpuBindCore v best s₂ <;> simp [hbind]

theorem repeats_priorityLoop : Repeats priorityRound priorityLoop := by
  intro fuel s
  rw [priorityLoop, priorityRound]
  cases qPopHighestPriority .ready s with
  | none => rfl
  | some r =>
    obtain ⟨best, s₁⟩ := r
    cases best with
    | none => rfl
    | some best =>
      simp only [Option.bind_eq_bind, Option.bind_some]
      cases coreWithWorstPriorityAbove (s₁.thread best).priority s₁ with
      | none => rfl
      | some v =>
        simp only
        cases preemptToReady v s₁ with
        | none => rfl
        | some s₂ => cases hbind : cpuBindCore v best s₂ <;> simp [hbind]

section Loops

variable {key : Thread → Int} {k : Ptr → Int}

/-- A round over the idle cores is a turn, or no core is idle while a thread is ready. -/
theorem fillRound_spec (h : Placed s l place) (hk : ∀ p, key (s.thread p) = k p)
    (hmax : ∀ p < s.made, (place p).Active → k p ≤ INT_MAX) :
    (fillRound (qPopMin key .ready) s = some (false, s) ∧ WorkConserving s l) ∨
      ∃ s' l' place', fillRound (qPopMin key .ready) s = some (true, s') ∧ Placed s' l' place' ∧
        Shift s s' place place' ∧ Turn k (alloc s l) (alloc s' l') ∧
        s'.core.count none < s.core.count none := by
  by_cases hany : none ∈ s.core
  · by_cases hnil : l .ready = []
    · exact .inl ⟨fillRound_nil (h.popMin_nil hnil key), .inl hnil⟩
    · obtain ⟨pre, b, post, s₁, hmin, hpop, hrel, h₁⟩ := h.popReady hnil hk hmax
      obtain ⟨s₂, i, hidle, hbind, h₂, hshift, hcore, hcount⟩ :=
        h.bindFirstIdle hmin.mem hrel h₁ hany
      refine .inr ⟨s₂, _, _, fillRound_bind hany hpop hbind, h₂, hshift, ?_, hcount⟩
      rw [alloc, alloc, hcore, Function.update_self]
      exact .bind hidle hmin
  · exact .inl ⟨fillRound_busy hany, .inr hany⟩

/-- A round of a preempting loop is a turn or the last one. -/
theorem PreemptsBy.spec {round : Sim → Option (Bool × Sim)} (hround : PreemptsBy key round)
    (h : Placed s l place) (hwork : WorkConserving s l) (hk : ∀ p, key (s.thread p) = k p)
    (hmax : ∀ p < s.made, (place p).Active → k p ≤ INT_MAX) :
    (∃ s' l', round s = some (false, s') ∧ Placed s' l' place ∧ Shift s s' place place ∧
        Settles k (alloc s l) (alloc s' l')) ∨
      ∃ s' l' place', round s = some (true, s') ∧ Placed s' l' place' ∧ Shift s s' place place' ∧
        Turn k (alloc s l) (alloc s' l') ∧ WorkConserving s' l' ∧
        coreWeight k s'.core < coreWeight k s.core := by
  have hkeys : (fun p => key (s.thread p)) = k := funext hk
  by_cases hnil : l .ready = []
  · refine .inl ⟨s, l, hround.empty s s (h.popMin_nil hnil key), h, Shift.refl s place, ?_⟩
    rw [alloc, hnil]
    exact .empty
  · have hbusy : none ∉ s.core := hwork.resolve_left hnil
    obtain ⟨pre, b, post, s₁, hmin, hpop, hrel, h₁⟩ := h.popReady hnil hk hmax
    have hb := hmin.mem
    have hrun := hround.popped s s₁ b hpop (hrel.core ▸ hbusy)
    rw [hrel.core, hrel.thread, hkeys, hk] at hrun
    cases habove : coreAbove k (k b) 0 none (-1) s.core with
    | none =>
      rw [habove] at hrun
      obtain ⟨hplaced, hrel'⟩ := h.putBack hb hrel h₁
      refine .inl ⟨_, _, hrun, hplaced, hrel'.shift, ?_⟩
      rw [alloc, alloc, hrel'.core, Function.update_self]
      exact .putBack hbusy hmin fun r hr => coreAbove_none habove hr
    | some v =>
      rw [habove] at hrun
      obtain ⟨r, hr, hlt, hpos⟩ := coreAbove_some habove
      obtain ⟨s₂, place₂, hswap, h₂, hshift, hcore⟩ := h.swap hb hrel h₁ hr
      simp only [hswap, Option.map_some] at hrun
      refine .inr ⟨s₂, _, place₂, hrun, h₂, hshift, ?_, .inr ?_, ?_⟩
      · rw [alloc, alloc, hcore, Function.update_self]
        exact .swap hr hlt hpos hmin
      · rw [hcore]
        intro hm
        cases List.mem_or_eq_of_mem_set hm with
        | inl hm => exact hbusy hm
        | inr heq => cases heq
      · rw [hcore]
        exact coreWeight_set k hr hlt hpos

variable (hkey : ∀ t t', Kept t t' → key t' = key t)
include hkey

theorem fillIdle_turns {fuel : Nat} (h : Placed s l place)
    (hk : ∀ p, key (s.thread p) = k p) (hmax : ∀ p < s.made, (place p).Active → k p ≤ INT_MAX)
    (hfuel : s.core.count none ≤ fuel) :
    ∃ s' l' place', fillIdle (qPopMin key .ready) fuel s = some s' ∧ Placed s' l' place' ∧
      Shift s s' place place' ∧ WorkConserving s' l' ∧
      Relation.ReflTransGen (Turn k) (alloc s l) (alloc s' l') := by
  induction fuel generalizing s l place with
  | zero =>
    have hbusy : none ∉ s.core := List.count_eq_zero.mp (Nat.le_zero.mp hfuel)
    exact ⟨s, l, place, fillIdle_busy hbusy 0, h, Shift.refl s place, .inr hbusy, .refl⟩
  | succ fuel ih =>
    cases fillRound_spec h hk hmax with
    | inl hdone =>
      exact ⟨s, l, place, fillIdle_done hdone.1, h, Shift.refl s place, hdone.2, .refl⟩
    | inr hstep =>
      obtain ⟨s₁, l₁, place₁, hround, h₁, hshift, hturn, hcount⟩ := hstep
      obtain ⟨s', l', place', hfill, h', hshift', hwork, hturns⟩ :=
        ih h₁ (fun p => (hkey _ _ (hshift.kept p)).trans (hk p))
          (fun p hp hact => hmax p (hshift.made ▸ hp) ((hshift.active p).mp hact)) (by omega)
      refine ⟨s', l', place', ?_, h', hshift.trans hshift', hwork, .head hturn hturns⟩
      rw [fillIdle_succ, hround]
      exact hfill

variable {round : Sim → Option (Bool × Sim)} {loop : Nat → Sim → Option Sim}
  (hround : PreemptsBy key round) (hloop : Repeats round loop)
include hround hloop

theorem preemptLoop_turns {fuel : Nat} (h : Placed s l place) (hwork : WorkConserving s l)
    (hk : ∀ p, key (s.thread p) = k p)
    (hmax : ∀ p < s.made, (place p).Active → k p ≤ INT_MAX)
    (hfuel : coreWeight k s.core < fuel) :
    ∃ s' l' place' a, loop fuel s = some s' ∧ Placed s' l' place' ∧ Shift s s' place place' ∧
      Relation.ReflTransGen (Turn k) (alloc s l) a ∧ Settles k a (alloc s' l') := by
  induction fuel generalizing s l place with
  | zero => omega
  | succ fuel ih =>
    rw [hloop]
    cases hround.spec h hwork hk hmax with
    | inl hlast =>
      obtain ⟨s', l', hrun, h', hshift, hsettles⟩ := hlast
      rw [hrun]
      exact ⟨s', l', place, _, rfl, h', hshift, .refl, hsettles⟩
    | inr hstep =>
      obtain ⟨s₁, l₁, place₁, hrun, h₁, hshift, hturn, hwork₁, hweight⟩ := hstep
      obtain ⟨s', l', place', a, hrest, h', hshift', hturns, hsettles⟩ :=
        ih h₁ hwork₁ (fun p => (hkey _ _ (hshift.kept p)).trans (hk p))
          (fun p hp hact => hmax p (hshift.made ▸ hp) ((hshift.active p).mp hact)) (by omega)
      rw [hrun]
      exact ⟨s', l', place', a, hrest, h', hshift.trans hshift', .head hturn hturns, hsettles⟩

theorem dispatch_turns (h : Placed s l place) (hfit : KeysFit key s) :
    ∃ s' l' place' a, (fillIdle (qPopMin key .ready) s.core.length s).bind
        (fun s => loop (roundBound key s) s) = some s' ∧
      Placed s' l' place' ∧ Shift s s' place place' ∧
      Relation.ReflTransGen (Turn fun p => key (s.thread p)) (alloc s l) a ∧
      Settles (fun p => key (s.thread p)) a (alloc s' l') := by
  obtain ⟨s₁, l₁, place₁, hfill, h₁, hshift, hwork, hturns⟩ :=
    fillIdle_turns hkey h (fun _ => rfl) (fun p hp _ => hfit p hp) List.count_le_length
  have hk : ∀ p, key (s₁.thread p) = key (s.thread p) := fun p => hkey _ _ (hshift.kept p)
  obtain ⟨s', l', place', a, hrun, h', hshift', hturns', hsettles⟩ :=
    preemptLoop_turns hkey hround hloop h₁ hwork hk (fun p hp _ => hfit p (hshift.made ▸ hp))
      (show _ < roundBound key s₁ by rw [roundBound_eq, funext hk]; omega)
  refine ⟨s', l', place', a, ?_, h', hshift.trans hshift', hturns.trans hturns', hsettles⟩
  rw [hfill]
  exact hrun

end Loops

theorem dispatchSrtcf_turns (h : Placed s l place) (hfit : KeysFit Thread.remaining s) :
    ∃ s' l' place' a, dispatchSrtcf s = some s' ∧ Placed s' l' place' ∧ Shift s s' place place' ∧
      Relation.ReflTransGen (Turn fun p => (s.thread p).remaining) (alloc s l) a ∧
      Settles (fun p => (s.thread p).remaining) a (alloc s' l') :=
  dispatch_turns (fun _ _ hk => hk.remaining) preemptsBy_srtcfRound repeats_srtcfLoop h hfit

theorem dispatchPriority_turns (h : Placed s l place) (hfit : KeysFit Thread.priority s) :
    ∃ s' l' place' a, dispatchPriority s = some s' ∧ Placed s' l' place' ∧
      Shift s s' place place' ∧
      Relation.ReflTransGen (Turn fun p => (s.thread p).priority) (alloc s l) a ∧
      Settles (fun p => (s.thread p).priority) a (alloc s' l') :=
  dispatch_turns (fun _ _ hk => hk.priority) preemptsBy_priorityRound repeats_priorityLoop h hfit

private theorem dispatchSrtcf_spec (h : Placed s l place) (hfit : KeysFit Thread.remaining s) :
    ∃ s' l' place', dispatchSrtcf s = some s' ∧ Placed s' l' place' ∧ Shift s s' place place' ∧
      WorkConserving s' l' ∧ KeysSorted Thread.remaining s' place' := by
  obtain ⟨s', l', place', a, hrun, h', hshift, _, hsettles⟩ := dispatchSrtcf_turns h hfit
  refine ⟨s', l', place', hrun, h', hshift, hsettles.workConserving, fun i p r hr hp hready => ?_⟩
  have hsorted := hsettles.sorted (List.mem_of_getElem? hr) ((h'.mem .ready p).mpr ⟨hp, hready⟩)
  rwa [(hshift.kept r).remaining, (hshift.kept p).remaining]

private theorem dispatchPriority_spec (h : Placed s l place) (hfit : KeysFit Thread.priority s) :
    ∃ s' l' place', dispatchPriority s = some s' ∧ Placed s' l' place' ∧
      Shift s s' place place' ∧ WorkConserving s' l' := by
  obtain ⟨s', l', place', a, hrun, h', hshift, _, hsettles⟩ := dispatchPriority_turns h hfit
  exact ⟨s', l', place', hrun, h', hshift, hsettles.workConserving⟩

private theorem rrPreempt_spec (is : List Nat) (h : Placed s l place) :
    ∃ s' l' place', rrPreempt is s = some s' ∧ Placed s' l' place' ∧ Shift s s' place place' := by
  induction is generalizing s l place with
  | nil => exact ⟨s, l, place, rfl, h, Shift.refl s place⟩
  | cons i is ih =>
    rw [rrPreempt]
    split
    · next t hcore =>
      split
      · obtain ⟨s₁, hrun, h₁, hframe, hcore₁, htag⟩ := h.preempt hcore
        have hshift : Shift s s₁ place (Function.update place t (.queue .ready)) := by
          apply Shift.move hframe
          · rw [hcore₁, List.length_set]
          · rw [h.core_eq hcore]
            trivial
          · rfl
          · exact htag
        obtain ⟨s', l', place', hrest, h', hshift'⟩ := ih h₁
        refine ⟨s', l', place', ?_, h', hshift.trans hshift'⟩
        rw [hrun]
        exact hrest
      · exact ih h
    · exact ih h

private theorem rrFill_spec (quantum : Int) (is : List Nat) (h : Placed s l place)
    (his : ∀ i ∈ is, i < s.core.length)
    (hbusy : ∀ i < s.core.length, i ∉ is → s.core[i]? ≠ some none) :
    ∃ s' l' place', rrFill quantum is s = some s' ∧ Placed s' l' place' ∧
      Shift s s' place place' ∧ WorkConserving s' l' := by
  induction is generalizing s l place with
  | nil =>
    refine ⟨s, l, place, rfl, h, Shift.refl s place, .inr fun hm => ?_⟩
    obtain ⟨i, hi⟩ := List.mem_iff_getElem?.mp hm
    exact hbusy i (List.getElem?_eq_some_iff.mp hi).1 List.not_mem_nil hi
  | cons i is ih =>
    have hi := his i List.mem_cons_self
    have hrest : ∀ j ∈ is, j < s.core.length := fun j hj => his j (List.mem_cons_of_mem i hj)
    rw [rrFill]
    cases hcore : s.core[i]? with
    | none => exact absurd (List.getElem?_eq_none_iff.mp hcore) (by omega)
    | some c =>
      cases c with
      | some t =>
        apply ih h hrest
        intro j hj hjs
        by_cases hji : j = i
        · rw [hji, hcore]
          simp
        · exact hbusy j hj (by simp [hji, hjs])
      | none =>
        by_cases hnil : l .ready = []
        · rw [h.pop_nil hnil]
          exact ⟨s, l, place, rfl, h, Shift.refl s place, .inl hnil⟩
        · obtain ⟨t, s₁, hpop, ht, hrel, h₁⟩ := (popsReady_qPop s l place h).2 hnil
          obtain ⟨s₂, hbind, h₂, hshift, hcore₂⟩ :=
            h.popBind ht hrel h₁ hcore (fun th => { th with quantaRem := quantum }) fun _ => rfl
          have hlen : s₂.core.length = s.core.length := hshift.cores
          obtain ⟨s', l', place', hfill, h', hshift', hwork⟩ := ih h₂ (hlen ▸ hrest) (by
            intro j hj hjs
            rw [hlen] at hj
            rw [hcore₂]
            by_cases hji : j = i
            · rw [hji, List.getElem?_set_self hi]
              simp
            · rw [List.getElem?_set_ne (Ne.symm hji)]
              exact hbusy j hj (by simp [hji, hjs]))
          refine ⟨s', l', place', ?_, h', hshift.trans hshift', hwork⟩
          rw [Option.some_inj.mp hpop]
          show (cpuBindCore i t _).bind (rrFill quantum is) = _
          rw [hbind]
          exact hfill

/-- Every policy moves threads between the ready queue and the cores only, and wastes no core. -/
theorem dispatch_spec (cfg : Config) (h : Placed s l place) (hfit : KeysFit Thread.remaining s)
    (hfit' : KeysFit Thread.priority s) :
    ∃ s' l' place', dispatch cfg s = some s' ∧ Placed s' l' place' ∧ Shift s s' place place' ∧
      WorkConserving s' l' ∧ (cfg.algo = .srtcf → KeysSorted Thread.remaining s' place') := by
  rw [dispatch]
  cases cfg.algo with
  | fifo =>
    obtain ⟨s', l', place', hrun, h'⟩ := fillIdle_spec popsReady_qPop h List.count_le_length
    exact ⟨s', l', place', hrun, h'.1, h'.2.1, h'.2.2, fun he => nomatch he⟩
  | sjf =>
    obtain ⟨s', l', place', hrun, h'⟩ :=
      fillIdle_spec (popsReady_qPopMin Thread.burstTime) h List.count_le_length
    exact ⟨s', l', place', hrun, h'.1, h'.2.1, h'.2.2, fun he => nomatch he⟩
  | srtcf =>
    obtain ⟨s', l', place', hrun, h', hshift, hwork, hsorted⟩ := dispatchSrtcf_spec h hfit
    exact ⟨s', l', place', hrun, h', hshift, hwork, fun _ => hsorted⟩
  | rr =>
    simp only [dispatchRr]
    obtain ⟨s₁, l₁, place₁, hpre, h₁, hshift⟩ := rrPreempt_spec (List.range s.core.length) h
    rw [hpre]
    obtain ⟨s', l', place', hfill, h', hshift', hwork⟩ :=
      rrFill_spec (if cfg.rrQuantum < 1 then 1 else cfg.rrQuantum) (List.range s₁.core.length) h₁
        (fun i hi => List.mem_range.mp hi)
        (fun i hi hnot => absurd (List.mem_range.mpr hi) hnot)
    exact ⟨s', l', place', hfill, h', hshift.trans hshift', hwork, fun he => nomatch he⟩
  | pr =>
    obtain ⟨s', l', place', hrun, h', hshift, hwork⟩ := dispatchPriority_spec h hfit'
    exact ⟨s', l', place', hrun, h', hshift, hwork, fun he => nomatch he⟩

end CseOs.TickSim
