import CseOs.SchedSim.Conservation
import Mathlib.Data.List.Nodup
import Mathlib.Tactic.IntervalCases
import Mathlib.Tactic.Linarith

/-!
# The rotation of the round robin policy

The policy keeps the job ids in an order of its own and adds those of new jobs only when it is asked for
the next job. A job that is given back before that overtakes them.
-/

namespace CseOs.SchedSim

open Framework

variable {τ : Type} [FloatOps τ] {quantum : Int} {hq : 0 < quantum}

/-- The ready queue and the private state of the policy. -/
structure Turns (τ : Type) where
  ready : List (Job τ)
  rotation : List Int

/-- What happens to the ready queue while its lock is held. -/
inductive Event (τ : Type) where
  /-- A new job. -/
  | arrive (j : Job τ)
  /-- `getNextJob`, after which its job is erased. -/
  | next
  /-- `onJobCompletion`, before which a job that is not finished is added. -/
  | giveBack (j : Job τ)

def Turns.next (p : Policy τ (List Int)) (s : Turns τ) : Turns τ :=
  match p.getNextJob s.ready s.rotation with
  | (some j, rotation) => ⟨s.ready.eraseP fun x => x.id == j.id, rotation⟩
  | (none, rotation) => ⟨s.ready, rotation⟩

def Turns.giveBack (p : Policy τ (List Int)) (j : Job τ) (s : Turns τ) : Turns τ :=
  ⟨if lt zero j.remainingTime then s.ready ++ [j] else s.ready, p.onJobCompletion j s.rotation⟩

/-- A job that arrives or comes back is not in the queue already. -/
def happen (p : Policy τ (List Int)) (s : Turns τ) : Event τ → Option (Turns τ)
  | .arrive j => if jobInQueue s.ready j.id then none else some { s with ready := s.ready ++ [j] }
  | .next => some (s.next p)
  | .giveBack j => if jobInQueue s.ready j.id then none else some (s.giveBack p j)

/-- The events in the order given. -/
def runEvents (p : Policy τ (List Int)) (s : Turns τ) : List (Event τ) → Option (Turns τ)
  | [] => some s
  | e :: es => (happen p s e).bind fun t => runEvents p t es

/-- `getNextJob` returns the front of the queue, and no job only if the queue is empty. -/
def InTurn (p : Policy τ (List Int)) (s : Turns τ) : Prop :=
  (p.getNextJob s.ready s.rotation).1 = s.ready.head?

instance [DecidableEq τ] {p : Policy τ (List Int)} {s : Turns τ} : Decidable (InTurn p s) :=
  inferInstanceAs (Decidable (_ = _))

/-- After any number of the events, `getNextJob` returns the front in all calls that follow. -/
def FirstCome (p : Policy τ (List Int)) (es : List (Event τ)) : Prop :=
  ∀ m k s, runEvents p ⟨[], p.start⟩ (es.take m ++ List.replicate k .next) = some s → InTurn p s

/-- A job that is not finished is given back only when the policy knows all jobs of the queue. -/
def Synced (p : Policy τ (List Int)) (es : List (Event τ)) : Prop :=
  ∀ m j s, es[m]? = some (.giveBack j) → runEvents p ⟨[], p.start⟩ (es.take m) = some s →
    lt zero j.remainingTime = true → ∀ x ∈ s.ready, x.id ∈ s.rotation

section Order

variable {s t : Turns τ} {j : Job τ} {id : Int} {rest : List Int}

def ids (s : Turns τ) : List Int := s.ready.map fun j => j.id

/-- The order in which the policy will return the jobs: those that it knows come first. -/
def order (s : Turns τ) : List Int :=
  s.rotation ++ (ids s).filter fun id => !s.rotation.contains id

/-- The policy knows only jobs of the queue. -/
structure Rotates (s : Turns τ) : Prop where
  nodup : (ids s).Nodup
  once : s.rotation.Nodup
  known : ∀ id ∈ s.rotation, id ∈ ids s

omit [FloatOps τ] in
private theorem rotates_start : Rotates (⟨[], []⟩ : Turns τ) :=
  ⟨List.nodup_nil, List.nodup_nil, fun _ hid => absurd hid List.not_mem_nil⟩

omit [FloatOps τ] in
private theorem jobInQueue_iff : jobInQueue s.ready id = true ↔ id ∈ ids s := by
  simp [jobInQueue, ids]

omit [FloatOps τ] in
private theorem mem_order (h : Rotates s) : id ∈ order s ↔ id ∈ ids s := by
  rw [order, List.mem_append, List.mem_filter]
  constructor
  · intro hor
    cases hor with
    | inl hrot => exact h.known id hrot
    | inr hnew => exact hnew.1
  · intro hin
    by_cases hrot : id ∈ s.rotation
    · exact .inl hrot
    · exact .inr ⟨hin, by simpa using hrot⟩

omit [FloatOps τ] in
private theorem Rotates.order_nodup (h : Rotates s) : (order s).Nodup := by
  rw [order, List.nodup_append]
  refine ⟨h.once, h.nodup.filter _, fun a ha b hb heq => ?_⟩
  have hnew := (List.mem_filter.mp hb).2
  rw [← heq] at hnew
  simp [ha] at hnew

omit [FloatOps τ] in
theorem foldl_rotation (ready : List (Job τ)) (h : (ready.map fun j => j.id).Nodup) (r : List Int) :
    ready.foldl (fun r j => if r.contains j.id then r else r ++ [j.id]) r =
      r ++ (ready.map fun j => j.id).filter fun id => !r.contains id := by
  induction ready generalizing r with
  | nil => simp
  | cons j ready ih =>
    rw [List.map_cons, List.nodup_cons] at h
    rw [List.foldl_cons, ih h.2, List.map_cons, List.filter_cons]
    by_cases hin : j.id ∈ r
    · simp [hin]
    · have hrest : (ready.map fun j => j.id).filter (fun id => !(r ++ [j.id]).contains id) =
          (ready.map fun j => j.id).filter fun id => !r.contains id := by
        apply List.filter_congr
        intro id hid
        have hne : id ≠ j.id := fun heq => h.1 (heq ▸ hid)
        simp [hne]
      rw [if_neg (by simpa using hin), hrest]
      simp [hin]

omit [FloatOps τ] in
private theorem Rotates.sync (h : Rotates s) : syncRotationWithReadyQueue s.ready s.rotation = order s := by
  have hknown : s.rotation.filter (jobInQueue s.ready) = s.rotation := by
    rw [List.filter_eq_self]
    intro id hid
    exact jobInQueue_iff.mpr (h.known id hid)
  rw [syncRotationWithReadyQueue, hknown]
  exact foldl_rotation s.ready h.nodup s.rotation

omit [FloatOps τ] in
private theorem Rotates.findJob (h : Rotates s) (hj : j ∈ s.ready) :
    SchedSim.findJob s.ready j.id = some j := by
  cases hfind : SchedSim.findJob s.ready j.id with
  | none =>
    have hno := List.find?_eq_none.mp hfind j hj
    simp at hno
  | some x =>
    have hx : x.id = j.id := by simpa using List.find?_some hfind
    rw [List.inj_on_of_nodup_map h.nodup (List.mem_of_find?_eq_some hfind) hj hx]

theorem Rotates.getNextJob (h : Rotates s) (hj : j ∈ s.ready) (horder : order s = j.id :: rest) :
    (RoundRobinPolicy quantum hq).getNextJob s.ready s.rotation = (some j, rest) := by
  have hne : s.ready.isEmpty = false := by
    cases hready : s.ready with
    | nil =>
      rw [hready] at hj
      exact absurd hj List.not_mem_nil
    | cons x xs => rfl
  show (if s.ready.isEmpty then _ else popRotation s.ready (syncRotationWithReadyQueue s.ready s.rotation)) = _
  rw [hne, h.sync, horder, popRotation, h.findJob hj]
  rfl

theorem Rotates.next (h : Rotates s) (hq : 0 < quantum) (horder : order s = id :: rest) :
    Rotates (s.next (RoundRobinPolicy quantum hq)) ∧
      ids (s.next (RoundRobinPolicy quantum hq)) = (ids s).erase id ∧
      order (s.next (RoundRobinPolicy quantum hq)) = rest := by
  have hin : id ∈ ids s := by
    rw [← mem_order h, horder]
    exact List.mem_cons_self
  obtain ⟨j, hj, hid⟩ := List.mem_map.mp hin
  have hnext : s.next (RoundRobinPolicy quantum hq) = ⟨s.ready.eraseP fun x => x.id == id, rest⟩ := by
    rw [Turns.next, h.getNextJob hj (hid ▸ horder), ← hid]
  have hids : ids (s.next (RoundRobinPolicy quantum hq)) = (ids s).erase id := by
    rw [hnext, ids, ids, List.erase_eq_eraseP', List.eraseP_map]
    rfl
  have hnodup := h.order_nodup
  rw [horder, List.nodup_cons] at hnodup
  have hmem : ∀ x, x ∈ (ids s).erase id ↔ x ∈ rest := by
    intro x
    rw [h.nodup.mem_erase_iff, ← mem_order h, horder, List.mem_cons]
    constructor
    · intro hx
      exact hx.2.resolve_left hx.1
    · intro hx
      exact ⟨fun heq => hnodup.1 (heq ▸ hx), .inr hx⟩
  refine ⟨⟨?_, ?_, ?_⟩, hids, ?_⟩
  · rw [hids]
    exact h.nodup.erase id
  · rw [hnext]
    exact hnodup.2
  · rw [hids, hnext]
    exact fun x hx => (hmem x).mpr hx
  · rw [order, hids, hnext]
    have hnone : ((ids s).erase id).filter (fun x => !rest.contains x) = [] := by
      rw [List.filter_eq_nil_iff]
      intro x hx
      simp [(hmem x).mp hx]
    show rest ++ ((ids s).erase id).filter (fun x => !rest.contains x) = rest
    rw [hnone, List.append_nil]

omit [FloatOps τ] in
private theorem Rotates.arrive (h : Rotates s) (hnew : ¬ jobInQueue s.ready j.id = true) :
    Rotates { s with ready := s.ready ++ [j] } ∧ ids { s with ready := s.ready ++ [j] } = ids s ++ [j.id] ∧
      order { s with ready := s.ready ++ [j] } = order s ++ [j.id] := by
  rw [jobInQueue_iff] at hnew
  have hids : ids { s with ready := s.ready ++ [j] } = ids s ++ [j.id] := by
    rw [ids, ids, List.map_append]
    rfl
  refine ⟨⟨?_, h.once, fun id hid => ?_⟩, hids, ?_⟩
  · rw [hids, List.nodup_append]
    refine ⟨h.nodup, List.nodup_singleton _, fun a ha b hb heq => ?_⟩
    rw [heq, List.mem_singleton.mp hb] at ha
    exact hnew ha
  · rw [hids]
    exact List.mem_append_left _ (h.known id hid)
  · have hrot : j.id ∉ s.rotation := fun hin => hnew (h.known _ hin)
    rw [order, order, hids, List.filter_append, ← List.append_assoc]
    simp [hrot]

theorem Rotates.giveBack (h : Rotates s) (hq : 0 < quantum)
    (hnew : ¬ jobInQueue s.ready j.id = true) :
    Rotates (s.giveBack (RoundRobinPolicy quantum hq) j) ∧
      if lt zero j.remainingTime then
        ids (s.giveBack (RoundRobinPolicy quantum hq) j) = ids s ++ [j.id] ∧
          order (s.giveBack (RoundRobinPolicy quantum hq) j) =
            s.rotation ++ j.id :: (ids s).filter fun id => !s.rotation.contains id
      else s.giveBack (RoundRobinPolicy quantum hq) j = s := by
  rw [jobInQueue_iff] at hnew
  have hrot : j.id ∉ s.rotation := fun hin => hnew (h.known _ hin)
  have hkeep : s.rotation.filter (fun id => id != j.id) = s.rotation := by
    rw [List.filter_eq_self]
    intro id hid
    have hne : id ≠ j.id := fun heq => hrot (heq ▸ hid)
    simpa using hne
  have hback : s.giveBack (RoundRobinPolicy quantum hq) j =
      if lt zero j.remainingTime then ⟨s.ready ++ [j], s.rotation ++ [j.id]⟩ else s := by
    show (⟨_, if lt zero j.remainingTime then s.rotation.filter (fun id => id != j.id) ++ [j.id]
      else s.rotation.filter fun id => id != j.id⟩ : Turns τ) = _
    rw [hkeep]
    split <;> rfl
  rw [hback]
  split
  · have hids : ids (⟨s.ready ++ [j], s.rotation ++ [j.id]⟩ : Turns τ) = ids s ++ [j.id] := by
      rw [ids, ids, List.map_append]
      rfl
    refine ⟨⟨?_, ?_, fun id hid => ?_⟩, hids, ?_⟩
    · rw [hids, List.nodup_append]
      refine ⟨h.nodup, List.nodup_singleton _, fun a ha b hb heq => ?_⟩
      rw [heq, List.mem_singleton.mp hb] at ha
      exact hnew ha
    · rw [List.nodup_append]
      refine ⟨h.once, List.nodup_singleton _, fun a ha b hb heq => ?_⟩
      rw [heq, List.mem_singleton.mp hb] at ha
      exact hrot ha
    · rw [hids]
      cases List.mem_append.mp hid with
      | inl hold => exact List.mem_append_left _ (h.known id hold)
      | inr hlast => exact List.mem_append_right _ hlast
    · rw [order, hids, List.filter_append, List.append_assoc]
      congr 1
      have hrest : (ids s).filter (fun id => !(s.rotation ++ [j.id]).contains id) =
          (ids s).filter fun id => !s.rotation.contains id := by
        apply List.filter_congr
        intro id hid
        have hne : id ≠ j.id := fun heq => hnew (heq ▸ hid)
        simp [hne]
      rw [hrest]
      simp
  · exact ⟨h, rfl⟩

omit [FloatOps τ] in
theorem Rotates.order_nil (h : Rotates s) (horder : order s = []) : s.ready = [] := by
  cases hready : s.ready with
  | nil => rfl
  | cons j ready =>
    have hin : j.id ∈ order s := by
      rw [mem_order h, ids, hready]
      exact List.mem_cons_self
    rw [horder] at hin
    exact absurd hin List.not_mem_nil

private theorem Rotates.inTurn (h : Rotates s) :
    InTurn (RoundRobinPolicy quantum hq) s ↔ (order s).head? = (ids s).head? := by
  cases horder : order s with
  | nil =>
    rw [InTurn, ids, h.order_nil horder]
    exact iff_of_true rfl rfl
  | cons id rest =>
    have hin : id ∈ ids s := by
      rw [← mem_order h, horder]
      exact List.mem_cons_self
    obtain ⟨j, hj, hid⟩ := List.mem_map.mp hin
    rw [InTurn, h.getNextJob hj (hid ▸ horder), List.head?_cons, ids, List.head?_map]
    cases hready : s.ready with
    | nil =>
      rw [hready] at hj
      exact absurd hj List.not_mem_nil
    | cons x ready =>
      have hx : x ∈ s.ready := hready ▸ List.mem_cons_self
      rw [List.head?_cons, Option.map_some, Option.some_inj, Option.some_inj, ← hid]
      exact ⟨fun heq => by rw [heq], fun heq => List.inj_on_of_nodup_map h.nodup hj hx heq⟩

private theorem Rotates.next_nil (h : Rotates s) (hq : 0 < quantum) (horder : order s = []) :
    s.next (RoundRobinPolicy quantum hq) = ⟨[], []⟩ := by
  rw [Turns.next, h.order_nil horder]
  rfl

theorem Rotates.inTurn_forever (h : Rotates s) :
    (∀ k t, runEvents (RoundRobinPolicy quantum hq) s (List.replicate k .next) = some t →
      InTurn (RoundRobinPolicy quantum hq) t) ↔ order s = ids s := by
  constructor
  · intro hall
    induction horder : order s generalizing s with
    | nil =>
      rw [ids, h.order_nil horder]
      rfl
    | cons id rest ih =>
      have hfirst := hall 0 s rfl
      rw [h.inTurn, horder, List.head?_cons] at hfirst
      obtain ⟨hnext, hids, hrest⟩ := h.next hq horder
      have htail := ih hnext (fun k t hrun => hall (k + 1) t hrun) hrest
      cases hq' : ids s with
      | nil =>
        rw [hq'] at hfirst
        cases hfirst
      | cons a as =>
        rw [hq', List.head?_cons, Option.some_inj] at hfirst
        rw [hids, hq', hfirst, List.erase_cons_head] at htail
        rw [htail, hfirst]
  · intro heq k
    induction k generalizing s with
    | zero =>
      intro t hrun
      cases hrun
      rw [h.inTurn, heq]
    | succ k ih =>
      intro t hrun
      cases horder : order s with
      | nil =>
        apply ih rotates_start rfl t
        rw [← h.next_nil hq horder]
        exact hrun
      | cons id rest =>
        obtain ⟨hnext, hids, hrest⟩ := h.next hq horder
        apply ih hnext _ t hrun
        rw [hrest, hids, ← heq, horder, List.erase_cons_head]

theorem Rotates.happen {e : Event τ} (h : Rotates s)
    (hstep : SchedSim.happen (RoundRobinPolicy quantum hq) s e = some t) : Rotates t ∧
      (order s = ids s → (order t = ids t ↔
        ∀ j, e = .giveBack j → lt zero j.remainingTime = true → ∀ x ∈ s.ready, x.id ∈ s.rotation)) := by
  cases e with
  | arrive j =>
    rw [SchedSim.happen] at hstep
    split at hstep
    · cases hstep
    · next hnew =>
      cases hstep
      obtain ⟨hinv, hids, horder⟩ := h.arrive hnew
      refine ⟨hinv, fun heq => iff_of_true ?_ fun _ hno => by cases hno⟩
      rw [horder, hids, heq]
  | next =>
    cases hstep
    cases horder : order s with
    | nil =>
      rw [h.next_nil hq horder]
      exact ⟨rotates_start, fun _ => iff_of_true rfl fun _ hno => by cases hno⟩
    | cons id rest =>
      obtain ⟨hinv, hids, hrest⟩ := h.next hq horder
      refine ⟨hinv, fun heq => iff_of_true ?_ fun _ hno => by cases hno⟩
      rw [hrest, hids, ← heq, List.erase_cons_head]
  | giveBack j =>
    rw [SchedSim.happen] at hstep
    split at hstep
    · cases hstep
    · next hnew =>
      cases hstep
      obtain ⟨hinv, hback⟩ := h.giveBack hq hnew
      refine ⟨hinv, fun heq => ?_⟩
      split at hback
      · next hmore =>
        obtain ⟨late, hlate⟩ : ∃ late, late = (ids s).filter fun id => !s.rotation.contains id := ⟨_, rfl⟩
        rw [order, ← hlate] at heq
        rw [hback.1, hback.2, ← hlate, ← heq, List.append_assoc, List.append_right_inj]
        constructor
        · intro hsame j' hj' _ x hx
          by_contra hrot
          have hin : x.id ∈ late := by
            rw [hlate, List.mem_filter]
            exact ⟨List.mem_map_of_mem hx, by simpa using hrot⟩
          cases late with
          | nil => exact absurd hin List.not_mem_nil
          | cons a as =>
            rw [List.cons_append, List.cons.injEq] at hsame
            have ha : a ∈ ids s := (List.mem_filter.mp (hlate ▸ List.mem_cons_self)).1
            rw [← hsame.1] at ha
            exact hnew (jobInQueue_iff.mpr ha)
        · intro hall
          have hnone : late = [] := by
            rw [hlate, List.filter_eq_nil_iff]
            intro id hid
            obtain ⟨x, hx, heq⟩ := List.mem_map.mp hid
            have hrot := hall j rfl hmore x hx
            rw [heq] at hrot
            simp [hrot]
          rw [hnone]
          rfl
      · next hdone =>
        rw [hback]
        refine iff_of_true heq fun j' hj' hmore => ?_
        cases hj'
        exact absurd hmore hdone

end Order

section Events

variable {p : Policy τ (List Int)} {s t u : Turns τ} {es es' pre : List (Event τ)}

private theorem runEvents_append : runEvents p s (es ++ es') = (runEvents p s es).bind fun t =>
    runEvents p t es' := by
  induction es generalizing s with
  | nil => rfl
  | cons e es ih =>
    rw [List.cons_append, runEvents, runEvents, Option.bind_assoc]
    congr 1
    funext t
    exact ih

theorem runEvents_take (h : runEvents p s es = some t) (m : Nat) :
    ∃ u, runEvents p s (es.take m) = some u := by
  rw [← List.take_append_drop m es, runEvents_append] at h
  obtain ⟨u, hu, _⟩ := Option.bind_eq_some_iff.mp h
  exact ⟨u, hu⟩

private theorem runEvents_snoc {e : Event τ} : runEvents p s (es ++ [e]) = some u ↔
    ∃ t, runEvents p s es = some t ∧ happen p t e = some u := by
  rw [runEvents_append, Option.bind_eq_some_iff]
  simp [runEvents]

private theorem Rotates.run (h : Rotates s) (hrun : runEvents (RoundRobinPolicy quantum hq) s es = some t) :
    Rotates t := by
  induction es generalizing s with
  | nil =>
    cases hrun
    exact h
  | cons e es ih =>
    obtain ⟨u, hu, hrest⟩ := Option.bind_eq_some_iff.mp hrun
    exact ih (h.happen hu).1 hrest

theorem firstCome_iff : FirstCome (RoundRobinPolicy quantum hq) es ↔ ∀ m s,
    runEvents (RoundRobinPolicy quantum hq) ⟨[], []⟩ (es.take m) = some s → order s = ids s := by
  constructor
  · intro h m s hrun
    apply (Rotates.inTurn_forever (rotates_start.run hrun)).mp
    intro k t hcalls
    apply h m k t
    rw [runEvents_append]
    exact Option.bind_eq_some_iff.mpr ⟨s, hrun, hcalls⟩
  · intro h m k t hrun
    rw [runEvents_append] at hrun
    obtain ⟨s, hs, hcalls⟩ := Option.bind_eq_some_iff.mp hrun
    exact (Rotates.inTurn_forever (rotates_start.run hs)).mpr (h m s hs) k t hcalls

end Events

section Threads

variable {p : Policy Rat (List Int)} {specs : List (JobSpec Rat)} {numCores : Nat}
  {w w' : World Rat (List Int)} {js ready : List (Job Rat)} {rotation : List Int}

/-- The ready queue and the policy of a state of the program. -/
def turnsOf (w : World Rat (List Int)) : Turns Rat := ⟨w.readyQueue, w.policyState⟩

private theorem runEvents_arrive (h : ((ready ++ js).map fun j => j.id).Nodup) :
    runEvents p ⟨ready, rotation⟩ (js.map .arrive) = some ⟨ready ++ js, rotation⟩ := by
  induction js generalizing ready with
  | nil => simp [runEvents]
  | cons j js ih =>
    have hnew : ¬ jobInQueue ready j.id = true := by
      intro hin
      have hj : j.id ∈ ready.map fun j => j.id := by simpa [jobInQueue] using hin
      rw [List.map_append, List.nodup_append] at h
      exact h.2.2 _ hj j.id List.mem_cons_self rfl
    rw [List.append_cons] at h
    rw [List.map_cons, runEvents, happen, if_neg hnew, Option.bind_some, ih h, ← List.append_cons]

theorem takeJob_turns (i : Nat) (v : Worker Rat) : turnsOf (takeJob p i v w) = (turnsOf w).next p := by
  have hfound : selected p w = (p.getNextJob w.readyQueue w.policyState).1.bind fun j =>
      findJob w.readyQueue j.id := rfl
  rw [takeJob, Turns.next, turnsOf, turnsOf]
  cases hget : p.getNextJob w.readyQueue w.policyState with
  | mk job rotation =>
    rw [hget] at hfound
    cases job with
    | none =>
      rw [hfound]
      rfl
    | some j =>
      rw [Option.bind_some] at hfound
      rw [hfound]
      cases hfind : findJob w.readyQueue j.id with
      | none =>
        have hkeep : w.readyQueue.eraseP (fun x => x.id == j.id) = w.readyQueue := by
          apply List.eraseP_of_forall_not
          intro x hx
          exact List.find?_eq_none.mp hfind x hx
        simp only [hkeep]
      | some x =>
        have hx : x.id = j.id := by simpa using List.find?_some hfind
        simp only [hx]

theorem giveBack_turns (i : Nat) (job : Job Rat) (dispatchTime execution : Rat) : ∃ j, j.id = job.id ∧
    turnsOf (giveBack p i job dispatchTime execution w) = (turnsOf w).giveBack p j := by
  rw [giveBack]
  split
  · refine ⟨finishJob job (FloatOps.add dispatchTime execution),
      congrArg JobSpec.id (finishJob_spec job _), ?_⟩
    have hdone : lt (zero : Rat) (finishJob job (FloatOps.add dispatchTime execution)).remainingTime =
        false := by
      rw [finishJob_remaining]
      decide
    rw [Turns.giveBack, hdone]
    rfl
  · next hmore =>
    refine ⟨{ job with remainingTime := newRemaining job.remainingTime execution, state := .READY }, rfl,
      ?_⟩
    have hpos : lt (zero : Rat) (newRemaining job.remainingTime execution) = true := by
      have hgt : ¬ newRemaining job.remainingTime execution ≤ (1 / 1000 : Rat) := by
        intro hle
        exact hmore (decide_eq_true hle)
      apply decide_eq_true
      show (0 : Rat) < _
      linarith
    rw [Turns.giveBack, hpos]
    rfl

theorem step_events {t : ThreadId} (h : Conserved specs w) (hids : (specs.map fun j => j.id).Nodup)
    (hs : step p t w = some w') : ∃ es, runEvents p (turnsOf w) es = some (turnsOf w') := by
  have hdistinct := h.distinct hids
  cases t with
  | scheduler =>
    replace hs : schedulerStep w = some w' := hs
    rw [schedulerStep] at hs
    cases hat : w.scheduler with
    | arrive =>
      rw [hat] at hs
      cases hs
      refine ⟨((w.pending.takeWhile (hasArrived w.currentTime)).map
        fun j => { j with state := .READY }).map .arrive, ?_⟩
      apply runEvents_arrive
      have hsub : (w.readyQueue ++ w.pending.takeWhile (hasArrived w.currentTime)).Sublist
          (w.readyQueue ++ w.pending ++ inHand w) :=
        ((List.Sublist.refl _).append (List.takeWhile_sublist _)).trans (List.sublist_append_left _ _)
      have hnodup := hdistinct.sublist (hsub.map fun j => j.id)
      rw [List.map_append] at hnodup ⊢
      rwa [List.map_map]
    | check =>
      rw [hat] at hs
      simp only at hs
      split at hs <;> cases hs <;> exact ⟨[], rfl⟩
    | advance =>
      rw [hat] at hs
      simp only at hs
      split at hs <;> cases hs <;> exact ⟨[], rfl⟩
    | stopping =>
      rw [hat] at hs
      cases hs
      exact ⟨[], rfl⟩
    | exited =>
      rw [hat] at hs
      cases hs
  | core i =>
    obtain ⟨v, hv, hcase⟩ := workerStep_cases hs
    cases hcase with
    | idle v' _ _ _ heq =>
      rw [heq]
      exact ⟨[], rfl⟩
    | take _ _ heq =>
      rw [heq]
      refine ⟨[.next], ?_⟩
      rw [takeJob_turns]
      rfl
    | giveBack job dispatchTime execution hpc heq =>
      obtain ⟨j, hid, hturns⟩ := giveBack_turns (p := p) (w := w) i job dispatchTime execution
      have hheld : job ∈ inHand w := by
        apply List.mem_filterMap.mpr
        exact ⟨v, List.mem_of_getElem? hv, by rw [Worker.job?, hpc]⟩
      have hnew : ¬ jobInQueue (turnsOf w).ready j.id = true := by
        intro hin
        have hready : job.id ∈ w.readyQueue.map fun j => j.id := by
          rw [← hid]
          exact jobInQueue_iff.mp hin
        rw [List.append_assoc, List.map_append, List.nodup_append] at hdistinct
        apply hdistinct.2.2 _ hready job.id _ rfl
        exact List.mem_map_of_mem (List.mem_append_right _ hheld)
      refine ⟨[.giveBack j], ?_⟩
      rw [heq, runEvents, happen, if_neg hnew, hturns]
      rfl

/-- The program only lets such events happen. -/
theorem runs_events (hids : (specs.map fun j => j.id).Nodup) (h : Runs p specs numCores w) :
    ∃ es, runEvents p ⟨[], p.start⟩ es = some (turnsOf w) := by
  apply Reachable.invariant (P := fun w => ∃ es, runEvents p ⟨[], p.start⟩ es = some (turnsOf w)) _ _ h
  · intro w hw
    obtain ⟨first, rest, _, heq⟩ := hw
    rw [heq]
    exact ⟨[], rfl⟩
  · intro w w' hreach hw hs
    obtain ⟨es, hes⟩ := hw
    obtain ⟨t, ht⟩ := hs
    obtain ⟨es', hes'⟩ := step_events (runs_conserved hreach) hids ht
    refine ⟨es ++ es', ?_⟩
    rw [runEvents_append, hes]
    exact hes'

end Threads

section Claim

variable {s : Turns τ} {es : List (Event τ)}

/-- The round robin policy serves the jobs in the order of the queue if and only if no job is given back
while the policy has not noticed all jobs of the queue. -/
theorem rr_firstCome_iff (h : runEvents (RoundRobinPolicy quantum hq) ⟨[], []⟩ es = some s) :
    FirstCome (RoundRobinPolicy quantum hq) es ↔ Synced (RoundRobinPolicy quantum hq) es := by
  rw [firstCome_iff]
  constructor
  · intro hall m j s hget hs hmore x hx
    obtain ⟨t, ht⟩ := runEvents_take h (m + 1)
    have hbefore := hall m s hs
    have hafter := hall (m + 1) t ht
    rw [List.take_add_one, hget] at ht
    obtain ⟨s', hs', hstep⟩ := runEvents_snoc.mp ht
    cases Option.some.inj (hs'.symm.trans hs)
    exact (((rotates_start.run hs).happen hstep).2 hbefore).mp hafter j rfl hmore x hx
  · intro hsync m
    induction m with
    | zero =>
      intro s hrun
      cases hrun
      rfl
    | succ m ih =>
      intro t hrun
      rw [List.take_add_one] at hrun
      cases hget : es[m]? with
      | none =>
        rw [hget, Option.toList_none, List.append_nil] at hrun
        exact ih t hrun
      | some e =>
        rw [hget] at hrun
        obtain ⟨s, hs, hstep⟩ := runEvents_snoc.mp hrun
        apply (((rotates_start.run hs).happen hstep).2 (ih s hs)).mpr
        intro j hj hmore
        rw [hj] at hget
        exact hsync m j s hget hs hmore

theorem rr_firstCome_pair : FirstCome (RoundRobinPolicy 1 Int.one_pos)
    [.arrive (JobSpec.job ⟨1, 0, 2, 0⟩ : Job Rat), .arrive (JobSpec.job ⟨2, 0, 2, 0⟩), .next,
      .giveBack (JobSpec.job ⟨1, 0, 2, 0⟩)] := by
  apply (rr_firstCome_iff rfl).mpr
  intro m j s hget hrun _
  have hm : m < 4 := (List.getElem?_eq_some_iff.mp hget).1
  interval_cases m <;> cases hget
  cases hrun
  decide

/-- A job that is given back before the policy has noticed a new one. The program comes to this with one
core. -/
theorem rr_overtakes : ¬ FirstCome (RoundRobinPolicy 1 Int.one_pos)
    [.arrive (JobSpec.job ⟨1, 0, 2, 0⟩ : Job Rat), .next, .arrive (JobSpec.job ⟨2, 1, 2, 0⟩),
      .giveBack (JobSpec.job ⟨1, 0, 2, 0⟩)] ∧
      ∃ w, Runs (RoundRobinPolicy 1 Int.one_pos) [⟨1, (0 : Rat), 2, 0⟩, ⟨2, 1, 2, 0⟩] 1 w ∧
        ¬ InTurn (RoundRobinPolicy 1 Int.one_pos) (turnsOf w) := by
  constructor
  · intro h
    have hturn := h 4 0 _ rfl
    revert hturn
    decide +kernel
  · have hrun : ((runThreads (RoundRobinPolicy 1 Int.one_pos)
        [.scheduler, .core 0, .core 0, .scheduler, .scheduler, .scheduler, .core 0]
        (started (RoundRobinPolicy 1 Int.one_pos) (JobSpec.job ⟨1, (0 : Rat), 2, 0⟩)
          [JobSpec.job ⟨2, 1, 2, 0⟩] 1)).any
        fun w => !decide (InTurn (RoundRobinPolicy 1 Int.one_pos) (turnsOf w))) = true := by
      decide +kernel
    have hstart : Runs (RoundRobinPolicy 1 Int.one_pos) [⟨1, (0 : Rat), 2, 0⟩, ⟨2, 1, 2, 0⟩] 1
        (started (RoundRobinPolicy 1 Int.one_pos) (JobSpec.job ⟨1, (0 : Rat), 2, 0⟩)
          [JobSpec.job ⟨2, 1, 2, 0⟩] 1) := by
      apply Reachable.start
      exact ⟨_, _, List.mergeSort_of_pairwise (by decide +kernel), rfl⟩
    obtain ⟨w, hw, hnot⟩ := (Option.any_eq_true _ _).mp hrun
    exact ⟨w, hstart.threads hw, by simpa using hnot⟩

end Claim

end CseOs.SchedSim
