import CseOs.TickSim.Dispatching

/-!
# The calls of one round

What each call of the main loop does to the place and the fields of every thread.
-/

namespace CseOs.TickSim

open Framework Sim

variable {s s' : Sim} {l : QName → List Ptr} {place : Ptr → Place} {p t : Ptr} {q : QName}

private theorem Placed.length_le (h : Placed s l place) (q : QName) :
    (l q).length ≤ (s.queue q).size.toNat := by
  have := h.size q
  omega

private theorem ready_update (hq : q ≠ .ready) (l : QName → List Ptr) (ts : List Ptr) :
    Function.update l q ts .ready = l .ready := Function.update_of_ne hq.symm ..

section Sift

variable {test : Thread → Bool} {src : QName} {ts : List Ptr}

/-- The thread that becomes ready. -/
def madeReady (th : Thread) : Thread := { th with state := .ready }

private theorem drain_spec (hready : src ≠ .ready) (hkeep : src ≠ .keep) {fuel : Nat}
    (h : Placed s l place) (hsrc : l src = ts) (hfuel : ts.length ≤ fuel) :
    ∃ s' l', drain test src fuel s = some s' ∧ Requeued s s' ∧
      Placed s' l' (fun p => if place p = .queue src then
        (if test (s.thread p) then .queue .ready else .queue .keep) else place p) ∧
      (∃ new, l' .ready = l .ready ++ new) ∧
      ∀ p < s.made, s'.thread p = if place p = .queue src ∧ test (s.thread p) then
        madeReady (s.thread p) else s.thread p := by
  induction ts generalizing s l place fuel with
  | nil =>
    have hnot : ∀ p < s.made, place p ≠ .queue src := by
      intro p hp heq
      have := (h.mem src p).mpr ⟨hp, heq⟩
      simp [hsrc] at this
    refine ⟨s, l, ?_, .refl s, h.congr fun p hp => if_neg (hnot p hp),
      ⟨[], (List.append_nil _).symm⟩, fun p hp => ?_⟩
    · have hempty := (h.empty_iff src).mpr hsrc
      cases fuel with
      | zero => rw [drain, if_pos hempty]
      | succ fuel => rw [drain, if_pos hempty]
    · rw [if_neg fun hc => hnot p hp hc.1]
  | cons t ts ih =>
    cases fuel with
    | zero => simp at hfuel
    | succ fuel =>
      have hlen : ts.length ≤ fuel := by simpa using hfuel
      have hne : ¬ qEmpty (s.queue src) = true := by
        rw [h.empty_iff src, hsrc]
        exact List.cons_ne_nil t ts
      have hmem : t ∈ l src := by simp [hsrc]
      have hplace := h.place_eq hmem
      obtain ⟨s₁, hpop, hrel, h₁⟩ := h.pop_cons hsrc
      have hthread := hrel.thread
      have htmade : t < s₁.made := by
        rw [hrel.made]
        exact h.lt hmem
      rw [drain, if_neg hne, hpop]
      simp only
      by_cases htest : test (s.thread t) = true
      · have htest₁ : test (s₁.thread t) = true := by rwa [hthread]
        rw [if_pos htest₁]
        obtain ⟨h₂, hrel₂⟩ :=
          (h₁.setThread t madeReady).push htmade (Function.update_self ..) .ready
        rw [Function.update_idem] at h₂
        have hsrc₂ : Function.update (Function.update l src ts) .ready
            (Function.update l src ts .ready ++ [t]) src = ts := by
          rw [Function.update_of_ne hready, Function.update_self]
        obtain ⟨s', l', hrun, hreq, h', ⟨new, hnew⟩, hth⟩ := ih h₂ hsrc₂ hlen
        rw [Function.update_self, ready_update hready, List.append_assoc] at hnew
        have hthread₂ : ∀ p, p ≠ t →
            (qPush .ready t (s₁.setThread t madeReady)).thread p = s.thread p := by
          intro p hp
          rw [hrel₂.thread, setThread_other _ hp, hthread]
        have hthread₂t : (qPush .ready t (s₁.setThread t madeReady)).thread t =
            madeReady (s.thread t) := by
          rw [hrel₂.thread, setThread_same, hthread]
        have hmade₂ : (qPush .ready t (s₁.setThread t madeReady)).made = s.made :=
          hrel₂.made.trans hrel.made
        refine ⟨s', l', hrun, ?_, h'.congr fun p hp => ?_, ⟨_, hnew⟩, fun p hp => ?_⟩
        · exact (hrel.requeued.trans (requeued_setThread t madeReady s₁)).trans
            (hrel₂.requeued.trans hreq)
        · by_cases hpt : p = t
          · subst hpt
            simp [hplace, htest, hready.symm]
          · rw [Function.update_of_ne hpt, hthread₂ p hpt]
        · rw [hth p (hmade₂ ▸ hp)]
          by_cases hpt : p = t
          · subst hpt
            simp [hplace, htest, hthread₂t, hready.symm]
          · rw [Function.update_of_ne hpt, hthread₂ p hpt]
      · have htest₁ : ¬ test (s₁.thread t) = true := by rwa [hthread]
        rw [if_neg htest₁]
        obtain ⟨h₂, hrel₂⟩ := h₁.push htmade (Function.update_self ..) .keep
        rw [Function.update_idem] at h₂
        have hsrc₂ : Function.update (Function.update l src ts) .keep
            (Function.update l src ts .keep ++ [t]) src = ts := by
          rw [Function.update_of_ne hkeep, Function.update_self]
        obtain ⟨s', l', hrun, hreq, h', hnew, hth⟩ := ih h₂ hsrc₂ hlen
        rw [ready_update (q := .keep) nofun, ready_update hready] at hnew
        have hthread₂ : (qPush .keep t s₁).thread = s.thread := by rw [hrel₂.thread, hthread]
        have hmade₂ : (qPush .keep t s₁).made = s.made := hrel₂.made.trans hrel.made
        refine ⟨s', l', hrun, hrel.requeued.trans (hrel₂.requeued.trans hreq),
          h'.congr fun p hp => ?_, hnew, fun p hp => ?_⟩
        · by_cases hpt : p = t
          · subst hpt
            simp [hplace, htest, hkeep.symm]
          · rw [Function.update_of_ne hpt, hthread₂]
        · rw [hth p (hmade₂ ▸ hp), hthread₂]
          by_cases hpt : p = t
          · subst hpt
            simp [hplace, htest, hkeep.symm]
          · rw [Function.update_of_ne hpt]

private theorem restore_spec (hready : src ≠ .ready) (hkeep : src ≠ .keep) {fuel : Nat} (h : Placed s l place)
    (hts : l .keep = ts) (hfuel : ts.length ≤ fuel) :
    ∃ s' l', restore src fuel s = some s' ∧ Relinked s s' ∧
      Placed s' l' (fun p => if place p = .queue .keep then .queue src else place p) ∧
      l' .ready = l .ready := by
  induction ts generalizing s l place fuel with
  | nil =>
    have hnot : ∀ p < s.made, place p ≠ .queue .keep := by
      intro p hp heq
      have := (h.mem .keep p).mpr ⟨hp, heq⟩
      simp [hts] at this
    refine ⟨s, l, ?_, rfl, h.congr fun p hp => if_neg (hnot p hp), rfl⟩
    have hempty := (h.empty_iff .keep).mpr hts
    cases fuel with
    | zero => rw [restore, if_pos hempty]
    | succ fuel => rw [restore, if_pos hempty]
  | cons t ts ih =>
    cases fuel with
    | zero => simp at hfuel
    | succ fuel =>
      have hne : ¬ qEmpty (s.queue .keep) = true := by
        rw [h.empty_iff .keep, hts]
        exact List.cons_ne_nil t ts
      have hmem : t ∈ l .keep := by simp [hts]
      obtain ⟨s₁, hpop, hrel, h₁⟩ := h.pop_cons hts
      have htmade : t < s₁.made := by
        rw [hrel.made]
        exact h.lt hmem
      obtain ⟨h₂, hrel₂⟩ := h₁.push htmade (Function.update_self ..) src
      rw [Function.update_idem] at h₂
      have hts₂ : Function.update (Function.update l .keep ts) src
          (Function.update l .keep ts src ++ [t]) .keep = ts := by
        rw [Function.update_of_ne hkeep.symm, Function.update_self]
      obtain ⟨s', l', hrun, hrel', h', hsame⟩ := ih h₂ hts₂ (by simpa using hfuel)
      rw [ready_update hready, ready_update (q := .keep) nofun] at hsame
      refine ⟨s', l', ?_, ?_, h'.congr fun p _ => ?_, hsame⟩
      · rw [restore, if_neg hne, hpop]
        exact hrun
      · rw [hrel', hrel₂, hrel]
        rfl
      · by_cases hpt : p = t
        · subst hpt
          simp [h.place_eq hmem, hkeep]
        · rw [Function.update_of_ne hpt]

/-- No thread is in transit. -/
def Settled (s : Sim) (place : Ptr → Place) : Prop :=
  ∀ p < s.made, place p ≠ .hand ∧ place p ≠ .queue .keep

/-- The threads of a queue that pass the test become ready, and nothing else happens. -/
theorem sift_spec (test : Thread → Bool) (src : QName) (hready : src ≠ .ready) (hkeep : src ≠ .keep) (h : Placed s l place)
    (hset : Settled s place) :
    ∃ s' l', sift test src s = some s' ∧ Requeued s s' ∧
      Placed s' l' (fun p => if place p = .queue src ∧ test (s.thread p) then .queue .ready
        else place p) ∧
      (∃ new, l' .ready = l .ready ++ new) ∧
      ∀ p < s.made, s'.thread p = if place p = .queue src ∧ test (s.thread p) then
        madeReady (s.thread p) else s.thread p := by
  rw [sift]
  by_cases hempty : l src = []
  · have hnot : ∀ p < s.made, place p ≠ .queue src := by
      intro p hp heq
      have := (h.mem src p).mpr ⟨hp, heq⟩
      simp [hempty] at this
    rw [if_pos ((h.empty_iff src).mpr hempty)]
    refine ⟨s, l, rfl, .refl s, h.congr fun p hp => ?_, ⟨[], (List.append_nil _).symm⟩,
      fun p hp => ?_⟩
    · rw [if_neg fun hc => hnot p hp hc.1]
    · rw [if_neg fun hc => hnot p hp hc.1]
  · rw [if_neg (by rwa [h.empty_iff src])]
    have hnil : l .keep = [] := by
      apply List.eq_nil_iff_forall_not_mem.mpr
      intro p hp
      exact (hset p (h.lt hp)).2 (h.place_eq hp)
    have hkeepq : s.queue .keep = qInit := by
      have hfront := h.front_eq_none hnil
      have hrear := h.rear .keep
      have hsize := h.size .keep
      rw [hnil] at hrear hsize
      cases hq : s.queue .keep with
      | mk front rear size =>
        rw [hq] at hfront hrear hsize
        simp only at hfront hrear hsize
        rw [hfront, hrear, hsize]
        rfl
    have hkeeps : s.setQueue .keep qInit = s := by
      rw [setQueue, ← hkeepq, Function.update_eq_self]
    obtain ⟨s₁, l₁, hdrain, hreq, h₁, hnew, hth⟩ :=
      drain_spec hready hkeep h rfl (h.length_le src)
    obtain ⟨s₂, l₂, hrestore, hrel, h₂, hsame⟩ :=
      restore_spec hready hkeep h₁ rfl (h₁.length_le .keep)
    refine ⟨s₂, l₂, ?_, hreq.trans hrel.requeued, h₂.congr fun p hp => ?_, hsame ▸ hnew,
      fun p hp => ?_⟩
    · rw [hkeeps, hdrain]
      exact hrestore
    · have hp' : p < s.made := by
        rw [← hreq.made, ← hrel.made]
        exact hp
      have hpk := (hset p hp').2
      by_cases hps : place p = .queue src
      · by_cases ht : test (s.thread p) = true
        · simp [hps, ht]
        · simp [hps, ht]
      · simp [hps, hpk]
    · rw [hrel.thread, hth p hp]

end Sift

private theorem forQueue_spec {f : Thread → Thread} {ts : List Ptr} {fuel : Nat} {cur : Option Ptr}
    (hchain : Chain s.next cur ts) (hnd : ts.Nodup) (hfuel : ts.length ≤ fuel) :
    ∃ s', forQueue f fuel cur s = some s' ∧ s' = { s with thread := s'.thread } ∧
      ∀ p, s'.thread p = if p ∈ ts then f (s.thread p) else s.thread p := by
  induction ts generalizing s fuel cur with
  | nil =>
    rw [show cur = none from hchain]
    refine ⟨s, ?_, rfl, fun p => rfl⟩
    cases fuel <;> rfl
  | cons t ts ih =>
    obtain ⟨hcur, hrest⟩ := hchain
    obtain ⟨htts, hnd⟩ := List.nodup_cons.mp hnd
    subst hcur
    cases fuel with
    | zero => simp at hfuel
    | succ fuel =>
      obtain ⟨s', hrun, hframe, hth⟩ :=
        ih (s := s.setThread t f) hrest hnd (by simpa using hfuel)
      refine ⟨s', hrun, ?_, fun p => ?_⟩
      · rw [hframe]
        rfl
      · rw [hth]
        by_cases hpt : p = t
        · subst hpt
          rw [if_neg htts, setThread_same, if_pos List.mem_cons_self]
        · rw [setThread_other _ hpt]
          simp [hpt]

private theorem Placed.congr_thread (h : Placed s l place) (hframe : s' = { s with thread := s'.thread }) :
    Placed s' l place := by
  rw [hframe]
  exact ⟨h.chain, h.rear, h.size, h.nodup, h.mem, h.core⟩

/-- A loop over a queue changes exactly its threads. -/
theorem Placed.forQueue (h : Placed s l place) (f : Thread → Thread) (q : QName) :
    ∃ s', TickSim.forQueue f (s.queue q).size.toNat (s.queue q).front s = some s' ∧
      Placed s' l place ∧ s' = { s with thread := s'.thread } ∧
      ∀ p < s.made, s'.thread p = if place p = .queue q then f (s.thread p) else s.thread p := by
  obtain ⟨s', hrun, hframe, hth⟩ :=
    forQueue_spec (f := f) (h.chain q) (h.nodup q) (h.length_le q)
  refine ⟨s', hrun, h.congr_thread hframe, hframe, fun p hp => ?_⟩
  rw [hth]
  have hiff : p ∈ l q ↔ place p = .queue q := by
    rw [h.mem]
    exact and_iff_right hp
  by_cases hpq : place p = .queue q
  · rw [if_pos (hiff.mpr hpq), if_pos hpq]
  · rw [if_neg fun hm => hpq (hiff.mp hm), if_neg hpq]

theorem decayPriority_spec (h : Placed s l place) :
    ∃ s', decayPriority s = some s' ∧ Placed s' l place ∧ s' = { s with thread := s'.thread } ∧
      ∀ p < s.made, s'.thread p =
        if place p = .queue .ready ∨ place p = .queue .waiting then decay (s.thread p)
        else s.thread p := by
  obtain ⟨s₁, hrun₁, h₁, hframe₁, hth₁⟩ := h.forQueue decay .ready
  obtain ⟨s₂, hrun₂, h₂, hframe₂, hth₂⟩ := h₁.forQueue decay .waiting
  refine ⟨s₂, ?_, h₂, ?_, fun p hp => ?_⟩
  · rw [decayPriority, hrun₁]
    exact hrun₂
  · rw [hframe₂, hframe₁]
  · have hp₁ : p < s₁.made := by
      rw [hframe₁]
      exact hp
    rw [hth₂ p hp₁, hth₁ p hp]
    by_cases hr : place p = .queue .ready
    · simp [hr]
    · simp [hr]

def Place.OnCore : Place → Prop
  | .core _ => True
  | _ => False

instance : DecidablePred Place.OnCore
  | .core _ => .isTrue trivial
  | .queue _ => .isFalse id
  | .hand => .isFalse id

theorem onCore_iff {v : Place} : v.OnCore ↔ ∃ i, v = .core i := by
  cases v with
  | core i => exact iff_of_true trivial ⟨i, rfl⟩
  | queue q => exact iff_of_false id fun ⟨_, h⟩ => nomatch h
  | hand => exact iff_of_false id fun ⟨_, h⟩ => nomatch h

private theorem foldl_setThread {f : Thread → Thread} {ts : List Ptr} (hnd : ts.Nodup) (s : Sim) :
    ts.foldl (fun s p => s.setThread p f) s =
      { s with thread := fun p => if p ∈ ts then f (s.thread p) else s.thread p } := by
  induction ts generalizing s with
  | nil => rfl
  | cons t ts ih =>
    obtain ⟨htts, hnd⟩ := List.nodup_cons.mp hnd
    rw [List.foldl_cons, ih hnd]
    simp only [setThread, Sim.mk.injEq, true_and, and_true]
    funext p
    by_cases hpt : p = t
    · subst hpt
      simp [htts]
    · simp [hpt]

theorem Placed.mem_running (h : Placed s l place) (hp : p < s.made) :
    p ∈ s.core.reduceOption ↔ (place p).OnCore := by
  rw [List.reduceOption_mem_iff, List.mem_iff_getElem?, onCore_iff]
  exact exists_congr fun i => (h.core i p).trans (and_iff_right hp)

theorem Placed.running_nodup (h : Placed s l place) : s.core.reduceOption.Nodup := by
  have hpair : ∀ cores : List (Option Ptr), (∀ (i j : Nat) (p : Ptr), cores[i]? = some (some p) →
      cores[j]? = some (some p) → i = j) → cores.reduceOption.Nodup := by
    intro cores
    induction cores with
    | nil => exact fun _ => List.nodup_nil
    | cons c cores ih =>
      intro hinj
      have hrest := ih fun i j p hi hj =>
        Nat.succ.inj (hinj (i + 1) (j + 1) p (by simpa using hi) (by simpa using hj))
      cases c with
      | none => rwa [List.reduceOption_cons_of_none]
      | some p =>
        rw [List.reduceOption_cons_of_some, List.nodup_cons]
        refine ⟨fun hm => ?_, hrest⟩
        obtain ⟨i, hi⟩ := List.mem_iff_getElem?.mp (List.reduceOption_mem_iff.mp hm)
        have := hinj 0 (i + 1) p rfl (by simpa using hi)
        omega
  apply hpair
  intro i j p hi hj
  have := (h.core_eq hi).symm.trans (h.core_eq hj)
  exact Place.core.inj this

/-- The row that one tick adds to the trace. -/
def traceRow (s : Sim) : List Int := s.core.map fun c => c.elim (-1) fun p => (s.thread p).tid

theorem cpuStep_spec (h : Placed s l place) :
    Placed (cpuStep s) l place ∧
      (∀ p < s.made, (cpuStep s).thread p =
        if (place p).OnCore then runTick (s.thread p) else s.thread p) ∧
      cpuStep s = { s with
        thread := (cpuStep s).thread
        simTime := s.simTime + 1
        runTrace := if s.simTime < s.traceLen then s.runTrace ++ [traceRow s] else s.runTrace } := by
  have hfold := foldl_setThread (f := runTick) h.running_nodup s
  have hrow : (s.core.map fun c => c.elim (-1) fun p =>
      ((if p ∈ s.core.reduceOption then runTick (s.thread p) else s.thread p)).tid) = traceRow s := by
    apply List.map_congr_left
    intro c _
    cases c with
    | none => rfl
    | some p =>
      simp only [Option.elim_some]
      split <;> rfl
  have hstep : cpuStep s = { s with
      thread := fun p => if p ∈ s.core.reduceOption then runTick (s.thread p) else s.thread p
      simTime := s.simTime + 1
      runTrace := if s.simTime < s.traceLen then s.runTrace ++ [traceRow s] else s.runTrace } := by
    rw [cpuStep, hfold]
    by_cases ht : s.simTime < s.traceLen
    · simp only [if_pos ht, hrow]
    · simp only [if_neg ht]
  rw [hstep]
  refine ⟨⟨h.chain, h.rear, h.size, h.nodup, h.mem, h.core⟩, fun p hp => ?_, rfl⟩
  exact if_congr (h.mem_running hp) rfl rfl

theorem Placed.leaveCore {i : Nat} (h : Placed s l place) (hcore : s.core[i]? = some (some t))
    (f : Thread → Thread) (q : QName) :
    Placed (qPush q t ((s.setCore i none).setThread t f))
        (Function.update l q (l q ++ [t])) (Function.update place t (.queue q)) ∧
      qPush q t ((s.setCore i none).setThread t f) = { s with
        next := (qPush q t ((s.setCore i none).setThread t f)).next
        queue := (qPush q t ((s.setCore i none).setThread t f)).queue
        thread := Function.update s.thread t (f (s.thread t))
        core := s.core.set i none } := by
  obtain ⟨_, hunbound⟩ := h.unbind hcore
  obtain ⟨hplaced, hrel⟩ :=
    (hunbound.setThread t f).push (h.core_lt hcore) (Function.update_self ..) q
  rw [Function.update_idem] at hplaced
  exact ⟨hplaced, hrel⟩

/-- The thread that is finished at time `now`. -/
def finishAt (now : Int) (th : Thread) : Thread :=
  { th with state := .finished, finishTime := if th.finishTime < 0 then now else th.finishTime }

/-- Finished on one of the cores `is`. -/
def DoneOn (is : List Nat) (th : Thread) : Place → Prop
  | .core i => i ∈ is ∧ th.remaining = 0
  | _ => False

instance (is : List Nat) (th : Thread) : DecidablePred (DoneOn is th)
  | .core i => inferInstanceAs (Decidable (i ∈ is ∧ th.remaining = 0))
  | .queue _ => .isFalse id
  | .hand => .isFalse id

private theorem collectCompletions_cons {i : Nat} {is : List Nat} :
    collectCompletions (i :: is) s =
      match s.core[i]? with
      | some (some t) =>
        if (s.thread t).remaining = 0 then
          collectCompletions is (qPush .finished t ((s.setCore i none).setThread t
            (finishAt s.simTime)))
        else collectCompletions is s
      | _ => collectCompletions is s := by
  rw [collectCompletions]
  cases hcore : s.core[i]? with
  | none => rfl
  | some c =>
    cases c with
    | none => rfl
    | some t =>
      simp only [cpuUnbindCore, hcore]
      split <;> rfl

theorem collectCompletions_spec (is : List Nat) (h : Placed s l place) :
    ∃ s' l', collectCompletions is s = some s' ∧
      Placed s' l' (fun p => if DoneOn is (s.thread p) (place p) then .queue .finished
        else place p) ∧ l' .ready = l .ready ∧
      (∀ p < s.made, s'.thread p = if DoneOn is (s.thread p) (place p) then
        finishAt s.simTime (s.thread p) else s.thread p) ∧
      s' = { s with next := s'.next, queue := s'.queue, thread := s'.thread, core := s'.core } ∧
      s'.core.length = s.core.length := by
  induction is generalizing s l place with
  | nil =>
    have hnot : ∀ p, ¬ DoneOn [] (s.thread p) (place p) := by
      intro p
      cases place p <;> simp [DoneOn]
    refine ⟨s, l, rfl, h.congr fun p _ => if_neg (hnot p), rfl, fun p _ => ?_, rfl, rfl⟩
    rw [if_neg (hnot p)]
  | cons i is ih =>
    have hskip : (∀ p < s.made, place p = .core i → (s.thread p).remaining ≠ 0) →
        ∀ p < s.made, (DoneOn (i :: is) (s.thread p) (place p) ↔ DoneOn is (s.thread p) (place p)) := by
      intro hne p hp
      cases hplace : place p with
      | core j =>
        by_cases hji : j = i
        · subst hji
          simp [DoneOn, hne p hp hplace]
        · simp [DoneOn, hji]
      | queue q => exact Iff.rfl
      | hand => exact Iff.rfl
    have hrest : (∀ p < s.made, place p = .core i → (s.thread p).remaining ≠ 0) →
        ∃ s' l', collectCompletions is s = some s' ∧
          Placed s' l' (fun p => if DoneOn (i :: is) (s.thread p) (place p) then
            .queue .finished else place p) ∧ l' .ready = l .ready ∧
          (∀ p < s.made, s'.thread p = if DoneOn (i :: is) (s.thread p) (place p) then
            finishAt s.simTime (s.thread p) else s.thread p) ∧
          s' = { s with
            next := s'.next, queue := s'.queue, thread := s'.thread, core := s'.core } ∧
          s'.core.length = s.core.length := by
      intro hne
      obtain ⟨s', l', hrun, h', hsame, hth, hframe, hlen⟩ := ih h
      have hmade : s'.made = s.made := by rw [hframe]
      refine ⟨s', l', hrun, h'.congr fun p hp => ?_, hsame, fun p hp => ?_, hframe, hlen⟩
      · exact if_congr (hskip hne p (hmade ▸ hp)) rfl rfl
      · rw [hth p hp]
        exact (if_congr (hskip hne p hp) rfl rfl).symm
    rw [collectCompletions_cons]
    cases hcore : s.core[i]? with
    | none =>
      apply hrest
      intro p hp hplace
      have := (h.core i p).mpr ⟨hp, hplace⟩
      rw [hcore] at this
      cases this
    | some c =>
      cases c with
      | none =>
        apply hrest
        intro p hp hplace
        have := (h.core i p).mpr ⟨hp, hplace⟩
        rw [hcore] at this
        cases this
      | some t =>
        simp only
        by_cases hrem : (s.thread t).remaining = 0
        · rw [if_pos hrem]
          have htplace := h.core_eq hcore
          obtain ⟨h₁, hframe₁⟩ := h.leaveCore hcore (finishAt s.simTime) .finished
          generalize hs₁ : qPush .finished t ((s.setCore i none).setThread t (finishAt s.simTime)) = s₁
            at h₁ hframe₁ ⊢
          obtain ⟨s', l', hrun, h', hsame, hth, hframe, hlen⟩ := ih h₁
          rw [ready_update (q := .finished) nofun] at hsame
          have hmade₁ : s₁.made = s.made := by rw [hframe₁]
          have htime₁ : s₁.simTime = s.simTime := by rw [hframe₁]
          have hthread₁ : s₁.thread = Function.update s.thread t (finishAt s.simTime (s.thread t)) := by
            rw [hframe₁]
          have hmade : s'.made = s.made := by rw [hframe, hmade₁]
          have hdone : ∀ p < s.made, p ≠ t →
              (DoneOn is (s₁.thread p) (Function.update place t (.queue .finished) p) ↔
                DoneOn (i :: is) (s.thread p) (place p)) := by
            intro p hp hpt
            rw [hthread₁, Function.update_of_ne hpt, Function.update_of_ne hpt]
            cases hplace : place p with
            | core j =>
              have hji : j ≠ i := by
                rintro rfl
                have := (h.core j p).mpr ⟨hp, hplace⟩
                rw [hcore] at this
                cases this
                exact hpt rfl
              simp [DoneOn, hji]
            | queue q => exact Iff.rfl
            | hand => exact Iff.rfl
          have htdone : DoneOn (i :: is) (s.thread t) (place t) := by
            rw [htplace]
            exact ⟨List.mem_cons_self, hrem⟩
          refine ⟨s', l', hrun, h'.congr fun p hp => ?_, hsame, fun p hp => ?_, ?_, ?_⟩
          · by_cases hpt : p = t
            · subst hpt
              rw [if_pos htdone, Function.update_self, if_neg]
              exact id
            · rw [Function.update_of_ne hpt] at *
              have := hdone p (hmade ▸ hp) hpt
              rw [Function.update_of_ne hpt] at this
              exact (if_congr this rfl rfl).symm
          · rw [hth p (hmade₁ ▸ hp)]
            by_cases hpt : p = t
            · subst hpt
              rw [if_pos htdone, Function.update_self, if_neg, hthread₁, Function.update_self]
              exact id
            · rw [if_congr (hdone p hp hpt) rfl rfl, hthread₁, Function.update_of_ne hpt, htime₁]
          · rw [hframe, hframe₁]
          · rw [hlen, hframe₁, List.length_set]
        · rw [if_neg hrem]
          apply hrest
          intro p hp hplace
          have := (h.core i p).mpr ⟨hp, hplace⟩
          rw [hcore] at this
          cases this
          exact hrem

/-- The I/O time logged for a thread. -/
def ioTime (log : List IoEvent) (tid : Int) : Nat :=
  ((log.filter fun e => e.tid = tid).map IoEvent.duration).sum

private theorem ioTime_snoc (log : List IoEvent) (e : IoEvent) (tid : Int) :
    ioTime (log ++ [e]) tid = ioTime log tid + if e.tid = tid then e.duration else 0 := by
  rw [ioTime, ioTime, List.filter_append, List.map_append, List.sum_append]
  congr 1
  by_cases h : e.tid = tid
  · simp [h]
  · simp [h]

/-- The thread that is blocked until the time `until`. -/
def blockUntil (unblockAt : Int) (th : Thread) : Thread :=
  { th with state := .waiting, unblockedAt := unblockAt, quantaRem := 0 }

/-- A core with a thread on it. -/
def busyCore (s : Sim) (c : Nat) : Bool :=
  match s.core[c]? with
  | some (some _) => true
  | _ => false

/-- What the interrupts of one round do: `io p` is the duration of the block of thread `p`. -/
structure Interrupted (s s' : Sim) (place : Ptr → Place) (io : Ptr → Option Nat) : Prop where
  thread : ∀ p < s.made, s'.thread p =
    (io p).elim (s.thread p) fun d => blockUntil (s.simTime + d) (s.thread p)
  frame : s' = { s with
    next := s'.next, queue := s'.queue, thread := s'.thread, core := s'.core
    rands := s'.rands, ioLog := s'.ioLog }
  cores : s'.core.length = s.core.length
  hit : ∀ p d, io p = some d → p < s.made ∧ 0 < d ∧ (place p).OnCore
  log : ∀ p < s.made, ioTime s'.ioLog (s.thread p).tid =
    ioTime s.ioLog (s.thread p).tid + (io p).getD 0

private theorem Interrupted.refl (s : Sim) (place : Ptr → Place) :
    Interrupted s s place fun _ => none :=
  ⟨fun _ _ => rfl, rfl, rfl, fun _ _ hd => (nomatch hd), fun _ _ => rfl⟩

private theorem rnd_pos {a b r : Nat} (h : 0 < a) : 0 < rnd a b r := Nat.add_pos_left h _

private theorem interruptCores_skip {cfg : Config} {c : Nat} {cs : List Nat} (h : busyCore s c = false) :
    interruptCores cfg (c :: cs) s = interruptCores cfg cs s := by
  rw [interruptCores]
  cases hcore : s.core[c]? with
  | none => rfl
  | some t =>
    cases t with
    | none => rfl
    | some t => simp [busyCore, hcore] at h

private theorem interruptCore_miss {cfg : Config} {c : Nat} (h : ¬ cfg.rand s.rands % 100 < 10) :
    interruptCore cfg c t s = some { s with rands := s.rands + 1 } :=
  if_neg h

private theorem interruptCore_hit {cfg : Config} {c : Nat} (h : cfg.rand s.rands % 100 < 10)
    (hcore : s.core[c]? = some (some t)) :
    ∃ d : Nat, 0 < d ∧ interruptCore cfg c t s =
      some { qPush .waiting t ((s.setCore c none).setThread t (blockUntil (s.simTime + d))) with
        rands := s.rands + 2
        ioLog := s.ioLog ++ [⟨s.simTime, c, (s.thread t).tid, d, s.simTime + d⟩] } := by
  refine ⟨rnd 2 6 (cfg.rand (s.rands + 1)), rnd_pos (by decide), ?_⟩
  have hrel : ∀ s₀ : Sim, (qPush .waiting t s₀).rands = s₀.rands ∧
      (qPush .waiting t s₀).simTime = s₀.simTime ∧ (qPush .waiting t s₀).ioLog = s₀.ioLog ∧
      (qPush .waiting t s₀).thread = s₀.thread := by
    intro s₀
    rw [qPush]
    split <;> exact ⟨rfl, rfl, rfl, rfl⟩
  have hpct : cfg.rand s.rands % 100 < cfg.intr.pctIo := h
  rw [interruptCore, if_pos hpct]
  simp only [blockToWaiting, cpuUnbindCore, hcore, Option.bind_eq_bind, Option.bind_some, hrel]
  simp [setThread, setCore, blockUntil, Config.intr]

private theorem interruptCores_spec (cfg : Config) {cs : List Nat} (hnd : cs.Nodup) (h : Placed s l place)
    (htid : ∀ p < s.made, ∀ r < s.made, (s.thread p).tid = (s.thread r).tid → p = r) :
    ∃ s' l' io, interruptCores cfg cs s = some s' ∧
      Placed s' l' (fun p => if (io p).isSome then .queue .waiting else place p) ∧
      l' .ready = l .ready ∧ Interrupted s s' place io ∧
      ((∀ p, io p = none) ↔
        ∀ k < cs.countP (busyCore s), 10 ≤ cfg.rand (s.rands + k) % 100) := by
  induction cs generalizing s l place with
  | nil =>
    exact ⟨s, l, fun _ => none, rfl, h, rfl, .refl s place,
      iff_of_true (fun _ => rfl) fun k hk => absurd hk (by simp)⟩
  | cons c cs ih =>
    obtain ⟨hccs, hnd⟩ := List.nodup_cons.mp hnd
    by_cases hbusy : busyCore s c = true
    · obtain ⟨t, hcore⟩ : ∃ t, s.core[c]? = some (some t) := by
        rw [busyCore] at hbusy
        split at hbusy
        · next t hcore => exact ⟨t, hcore⟩
        · cases hbusy
      have htplace := h.core_eq hcore
      have htmade := h.core_lt hcore
      by_cases hhit : cfg.rand s.rands % 100 < 10
      · obtain ⟨d, hd, hrun₁⟩ := interruptCore_hit hhit hcore
        obtain ⟨h₁, hframe₁⟩ := h.leaveCore hcore (blockUntil (s.simTime + d)) .waiting
        generalize qPush .waiting t ((s.setCore c none).setThread t
          (blockUntil (s.simTime + d))) = s₁ at hrun₁ h₁ hframe₁
        have h₂ : Placed { s₁ with
            rands := s.rands + 2
            ioLog := s.ioLog ++ [⟨s.simTime, c, (s.thread t).tid, d, s.simTime + d⟩] } _ _ :=
          ⟨h₁.chain, h₁.rear, h₁.size, h₁.nodup, h₁.mem, h₁.core⟩
        have hthread₁ : s₁.thread =
            Function.update s.thread t (blockUntil (s.simTime + d) (s.thread t)) := by
          rw [hframe₁]
        have hmade₁ : s₁.made = s.made := by rw [hframe₁]
        have htid₁ : ∀ p, (s₁.thread p).tid = (s.thread p).tid := by
          intro p
          rw [hthread₁]
          by_cases hpt : p = t
          · subst hpt
            rw [Function.update_self]
            rfl
          · rw [Function.update_of_ne hpt]
        obtain ⟨s', l', io, hrun, h', hsame, hint, _⟩ := ih hnd h₂ (by
          intro p hp r hr
          rw [htid₁, htid₁]
          exact htid p (hmade₁ ▸ hp) r (hmade₁ ▸ hr))
        rw [ready_update (q := .waiting) nofun] at hsame
        have hiot : io t = none := by
          cases hiot : io t with
          | none => rfl
          | some d' =>
            have := (hint.hit t d' hiot).2.2
            rw [Function.update_self] at this
            exact this.elim
        have hmade : s'.made = s.made := by
          rw [hint.frame]
          exact hmade₁
        refine ⟨s', l', Function.update io t (some d), ?_, h'.congr fun p hp => ?_, hsame, ?_, ?_⟩
        · rw [interruptCores, hcore]
          simp only
          rw [hrun₁]
          exact hrun
        · by_cases hpt : p = t
          · subst hpt
            simp [hiot]
          · simp [Function.update_of_ne hpt]
        · constructor
          · intro p hp
            have := hint.thread p (hmade₁ ▸ hp)
            rw [this]
            have htime₁ : s₁.simTime = s.simTime := by rw [hframe₁]
            by_cases hpt : p = t
            · subst hpt
              rw [hiot, Function.update_self, Option.elim_none, Option.elim_some]
              exact congrFun hthread₁ p |>.trans (Function.update_self ..)
            · have hsame : s₁.thread p = s.thread p := by
                rw [hthread₁, Function.update_of_ne hpt]
              rw [Function.update_of_ne hpt, htime₁, hsame]
          · rw [hint.frame, hframe₁]
          · rw [hint.cores, hframe₁, List.length_set]
          · intro p d' hd'
            by_cases hpt : p = t
            · subst hpt
              rw [Function.update_self] at hd'
              cases hd'
              rw [htplace]
              exact ⟨htmade, hd, trivial⟩
            · rw [Function.update_of_ne hpt] at hd'
              have := hint.hit p d' hd'
              rw [Function.update_of_ne hpt] at this
              exact ⟨hmade₁ ▸ this.1, this.2⟩
          · intro p hp
            have := hint.log p (hmade₁ ▸ hp)
            rw [show ({ s₁ with
              rands := s.rands + 2
              ioLog := s.ioLog ++ [⟨s.simTime, c, (s.thread t).tid, d, s.simTime + d⟩] } :
                Sim).thread p = s₁.thread p from rfl, htid₁, ioTime_snoc] at this
            rw [this]
            by_cases hpt : p = t
            · subst hpt
              simp [hiot]
            · have hne : (s.thread t).tid ≠ (s.thread p).tid :=
                fun he => hpt (htid t htmade p hp he).symm
              rw [if_neg hne, Function.update_of_ne hpt, Nat.add_zero]
        · refine iff_of_false (fun hall => ?_) fun hall => ?_
          · have := hall t
            rw [Function.update_self] at this
            cases this
          · have := hall 0 (List.countP_pos_iff.mpr ⟨c, List.mem_cons_self, hbusy⟩)
            rw [Nat.add_zero] at this
            omega
      · have h₁ : Placed { s with rands := s.rands + 1 } l place :=
          ⟨h.chain, h.rear, h.size, h.nodup, h.mem, h.core⟩
        obtain ⟨s', l', io, hrun, h', hsame, hint, hnone⟩ := ih hnd h₁ htid
        refine ⟨s', l', io, ?_, h', hsame, ?_, ?_⟩
        · rw [interruptCores, hcore]
          simp only
          rw [interruptCore_miss hhit]
          exact hrun
        · refine ⟨hint.thread, ?_, hint.cores, hint.hit, hint.log⟩
          rw [hint.frame]
        · rw [hnone, List.countP_cons_of_pos hbusy]
          constructor
          · intro hall k hk
            cases k with
            | zero =>
              rw [Nat.add_zero]
              omega
            | succ k =>
              have := hall k (Nat.lt_of_succ_lt_succ hk)
              rwa [show s.rands + (k + 1) = s.rands + 1 + k by omega]
          · intro hall k hk
            have := hall (k + 1) (Nat.succ_lt_succ hk)
            rwa [show s.rands + (k + 1) = s.rands + 1 + k by omega] at this
    · have hbusy' : busyCore s c = false := by simpa using hbusy
      obtain ⟨s', l', io, hrun, h', hsame, hint, hnone⟩ := ih hnd h htid
      refine ⟨s', l', io, (interruptCores_skip hbusy').trans hrun, h', hsame, hint, ?_⟩
      rw [hnone, List.countP_cons_of_neg hbusy]

/-- No interrupt hits in the round that starts in `s`. -/
def Undisturbed (cfg : Config) (s : Sim) : Prop :=
  cfg.interrupts = false ∨
    ∀ k < (List.range s.core.length).countP (busyCore s), 10 ≤ cfg.rand (s.rands + k) % 100

theorem randomInterrupts_spec (cfg : Config) (h : Placed s l place)
    (htid : ∀ p < s.made, ∀ r < s.made, (s.thread p).tid = (s.thread r).tid → p = r) :
    ∃ s' l' io, randomInterrupts cfg s = some s' ∧
      Placed s' l' (fun p => if (io p).isSome then .queue .waiting else place p) ∧
      l' .ready = l .ready ∧ Interrupted s s' place io ∧
      ((∀ p, io p = none) ↔ Undisturbed cfg s) := by
  rw [randomInterrupts, Undisturbed]
  cases hon : cfg.interrupts with
  | false =>
    have hoff : ¬ cfg.intr.enableRandom = true := by simp [Config.intr, hon]
    rw [if_neg hoff]
    exact ⟨s, l, fun _ => none, rfl, h, rfl, .refl s place,
      iff_of_true (fun _ => rfl) (.inl rfl)⟩
  | true =>
    have hon : cfg.intr.enableRandom = true := by simp [Config.intr, hon]
    rw [if_pos hon]
    obtain ⟨s', l', io, hrun, h', hsame, hint, hnone⟩ :=
      interruptCores_spec cfg List.nodup_range h htid
    exact ⟨s', l', io, hrun, h', hsame, hint, by simpa using hnone⟩

end CseOs.TickSim
