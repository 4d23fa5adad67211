import Mathlib.Data.List.Rotate
import Mathlib.Logic.Function.Iterate

/-!
# Turns in a circle

The unfinished jobs have their turns in a circle. A job that has arrived runs for a quantum at most. A turn
of a job that has not arrived takes a unit of time, which is wasted if another job could have run.
-/

namespace CseOs.Framework

/-- The arrival of a job, and what is left of it. -/
structure ScanJob where
  arrival : Int
  left : Int
  deriving DecidableEq, Repr

/-- The clock and the jobs, from the one that has its turn. -/
abbrev ScanSt := Int × List ScanJob

/-- A turn of the first job. -/
def scanTurn (quantum : Int) : ScanSt → ScanSt
  | (t, []) => (t, [])
  | (t, q :: qs) =>
    if q.arrival ≤ t then
      if quantum < q.left then (t + quantum, qs ++ [{ q with left := q.left - quantum }])
      else (t + q.left, qs)
    else (t + 1, qs ++ [q])

/-- The first job has not arrived, but another one has. -/
def Wasted : ScanSt → Prop
  | (_, []) => False
  | (t, q :: qs) => t < q.arrival ∧ ∃ r ∈ qs, r.arrival ≤ t

def NeverWasted (quantum : Int) (s : ScanSt) : Prop := ∀ k, ¬ Wasted ((scanTurn quantum)^[k] s)

/-- How long a turn of the job is. -/
def turnLength (quantum : Int) (q : ScanJob) : Int := if quantum < q.left then quantum else q.left

/-- Each job arrives until the ones in front of it have had one turn. -/
def TimelyTurns (quantum t : Int) : List ScanJob → Prop
  | [] => True
  | q :: qs => q.arrival ≤ t ∧ TimelyTurns quantum (t + turnLength quantum q) qs

/-- The least of `a` and the arrivals. -/
def firstArrival (a : Int) : List ScanJob → Int
  | [] => a
  | q :: qs => firstArrival (if q.arrival < a then q.arrival else a) qs

/-- The first time from `t` on at which a job is there. -/
def firstReady (t : Int) : List ScanJob → Int
  | [] => t
  | q :: qs => if firstArrival q.arrival qs < t then t else firstArrival q.arrival qs

/-- The job whose turn it is at the first arrival has arrived. If it needs more than a quantum, the others
arrive until their first turns, else the same holds of them when it has finished. -/
def Seamless (quantum : Int) : Nat → Int → List ScanJob → Prop
  | 0, _, _ => True
  | k + 1, t, l =>
    match l.rotate (firstReady t l - t).toNat with
    | [] => True
    | q :: qs => q.arrival ≤ firstReady t l ∧
      if quantum < q.left then TimelyTurns quantum (firstReady t l) (q :: qs)
      else Seamless quantum k (firstReady t l + q.left) qs

instance (quantum t : Int) (l : List ScanJob) : Decidable (TimelyTurns quantum t l) := by
  induction l generalizing t with
  | nil => exact instDecidableTrue
  | cons q qs ih => exact instDecidableAnd

variable {quantum t : Int} {l front back qs : List ScanJob} {q r : ScanJob} {s : ScanSt} {d k : Nat}

theorem neverWasted_turn (h : ¬ Wasted s) : NeverWasted quantum s ↔ NeverWasted quantum (scanTurn quantum s) := by
  constructor
  · exact fun hnever k => hnever (k + 1)
  · intro hnever k
    cases k with
    | zero => exact h
    | succ k => exact hnever k

theorem scanTurn_long (hq : q.arrival ≤ t) (hlong : quantum < q.left) :
    scanTurn quantum (t, q :: qs) = (t + quantum, qs ++ [{ q with left := q.left - quantum }]) := by
  rw [scanTurn, if_pos hq, if_pos hlong]

theorem scanTurn_short (hq : q.arrival ≤ t) (hshort : ¬ quantum < q.left) :
    scanTurn quantum (t, q :: qs) = (t + q.left, qs) := by
  rw [scanTurn, if_pos hq, if_neg hshort]

theorem not_wasted_of_arrived (hq : q.arrival ≤ t) : ¬ Wasted (t, q :: qs) := fun h => by
  have hlate := h.1
  omega

theorem scanTurn_wait (quantum : Int) (h : ∀ r ∈ l, t < r.arrival) :
    scanTurn quantum (t, l) = (t + 1, l.rotate 1) ∨ l = [] := by
  cases l with
  | nil => exact .inr rfl
  | cons q qs =>
    left
    have hq := h q List.mem_cons_self
    rw [scanTurn, if_neg (by omega), List.rotate_cons_succ, List.rotate_zero]

theorem scanTurn_iterate_wait (hl : l ≠ []) (h : ∀ k < d, ∀ r ∈ l, t + k < r.arrival) :
    (scanTurn quantum)^[d] (t, l) = (t + d, l.rotate d) := by
  induction d with
  | zero => simp
  | succ d ih =>
    have hwait : ∀ r ∈ l.rotate d, t + d < r.arrival := fun r hr =>
      h d (Nat.lt_succ_self d) r (List.mem_rotate.mp hr)
    have hne : l.rotate d ≠ [] := fun heq => hl (List.rotate_eq_nil_iff.mp heq)
    have hturn := (scanTurn_wait quantum hwait).resolve_right hne
    rw [Function.iterate_succ_apply', ih fun k hk => h k (by omega), hturn, List.rotate_rotate]
    push_cast
    rw [Int.add_assoc]

theorem neverWasted_wait (hl : l ≠ []) (h : ∀ k < d, ∀ r ∈ l, t + k < r.arrival) :
    NeverWasted quantum (t, l) ↔ NeverWasted quantum (t + d, l.rotate d) := by
  rw [← scanTurn_iterate_wait hl h]
  constructor
  · intro hnever k
    rw [← Function.iterate_add_apply]
    exact hnever (k + d)
  · intro hnever k hwasted
    by_cases hk : k < d
    · rw [scanTurn_iterate_wait hl fun j hj => h j (by omega)] at hwasted
      have hmem : ∀ r ∈ l.rotate k, t + k < r.arrival := fun r hr => h k hk r (List.mem_rotate.mp hr)
      cases hrot : l.rotate k with
      | nil =>
        rw [hrot] at hwasted
        exact hwasted
      | cons q qs =>
        rw [hrot] at hwasted hmem
        obtain ⟨_, r, hr, harrived⟩ := hwasted
        have hlate := hmem r (List.mem_cons_of_mem q hr)
        omega
    · obtain ⟨j, hj⟩ := Nat.exists_eq_add_of_le (Nat.le_of_not_lt hk)
      apply hnever j
      rwa [← Function.iterate_add_apply, Nat.add_comm j d, ← hj]

theorem firstArrival_spec (a : Int) (l : List ScanJob) : firstArrival a l ≤ a ∧
    (∀ r ∈ l, firstArrival a l ≤ r.arrival) ∧ (firstArrival a l = a ∨ ∃ r ∈ l, firstArrival a l = r.arrival) := by
  induction l generalizing a with
  | nil => exact ⟨Int.le_refl a, fun r hr => absurd hr List.not_mem_nil, .inl rfl⟩
  | cons q qs ih =>
    obtain ⟨hle, hall, hhit⟩ := ih (if q.arrival < a then q.arrival else a)
    have hlest : (if q.arrival < a then q.arrival else a) ≤ a ∧
        (if q.arrival < a then q.arrival else a) ≤ q.arrival := by
      split <;> omega
    refine ⟨Int.le_trans hle hlest.1, ?_, ?_⟩
    · exact List.forall_mem_cons.mpr ⟨Int.le_trans hle hlest.2, hall⟩
    · rw [firstArrival]
      cases hhit with
      | inl heq =>
        by_cases hlt : q.arrival < a
        · rw [if_pos hlt] at heq ⊢
          exact .inr ⟨q, List.mem_cons_self, heq⟩
        · rw [if_neg hlt] at heq ⊢
          exact .inl heq
      | inr hmem =>
        obtain ⟨r, hr, heq⟩ := hmem
        exact .inr ⟨r, List.mem_cons_of_mem q hr, heq⟩

theorem firstReady_spec (t : Int) (hl : l ≠ []) : t ≤ firstReady t l ∧
    (∃ r ∈ l, r.arrival ≤ firstReady t l) ∧ ∀ x, t ≤ x → x < firstReady t l → ∀ r ∈ l, x < r.arrival := by
  cases l with
  | nil => exact absurd rfl hl
  | cons q qs =>
    obtain ⟨hle, hall, hhit⟩ := firstArrival_spec q.arrival qs
    have hmem : ∃ r ∈ q :: qs, r.arrival = firstArrival q.arrival qs := by
      cases hhit with
      | inl heq => exact ⟨q, List.mem_cons_self, heq.symm⟩
      | inr hlater =>
        obtain ⟨r, hr, heq⟩ := hlater
        exact ⟨r, List.mem_cons_of_mem q hr, heq.symm⟩
    have hleast : ∀ r ∈ q :: qs, firstArrival q.arrival qs ≤ r.arrival := List.forall_mem_cons.mpr ⟨hle, hall⟩
    obtain ⟨r, hr, heq⟩ := hmem
    rw [firstReady]
    generalize firstArrival q.arrival qs = a at heq hleast
    by_cases ha : a < t
    · rw [if_pos ha]
      exact ⟨Int.le_refl t, ⟨r, hr, by omega⟩, fun x hx hlt => by omega⟩
    · rw [if_neg ha]
      refine ⟨by omega, ⟨r, hr, by omega⟩, fun x _ hlt r' hr' => ?_⟩
      have hlate := hleast r' hr'
      omega

/-- The jobs that have not had a turn arrive in time, all others have arrived. -/
def Caught (quantum t : Int) (l : List ScanJob) : Prop :=
  ∃ front back, l = front ++ back ∧ TimelyTurns quantum t front ∧ (∀ r ∈ back, r.arrival ≤ t) ∧ ∀ r ∈ l, 0 < r.left

theorem Caught.turn (hpos : 0 < quantum) (h : Caught quantum t l) :
    ¬ Wasted (t, l) ∧ Caught quantum (scanTurn quantum (t, l)).1 (scanTurn quantum (t, l)).2 := by
  obtain ⟨front, back, heq, htime, harrived, hleft⟩ := h
  subst heq
  cases hl : front ++ back with
  | nil => exact ⟨id, [], [], rfl, trivial, fun r hr => absurd hr List.not_mem_nil, fun r hr => by cases hr⟩
  | cons q qs =>
    rw [hl] at hleft
    have hqleft := hleft q List.mem_cons_self
    have hsplit : q.arrival ≤ t ∧ ∃ front' back', qs = front' ++ back' ∧
        TimelyTurns quantum (t + turnLength quantum q) front' ∧ ∀ r ∈ back', r.arrival ≤ t := by
      cases front with
      | nil =>
        cases hl
        exact ⟨harrived q List.mem_cons_self, [], qs, rfl, trivial, fun r hr =>
          harrived r (List.mem_cons_of_mem q hr)⟩
      | cons p front =>
        cases hl
        exact ⟨htime.1, front, back, rfl, htime.2, harrived⟩
    obtain ⟨hq, front', back', heq, htime', harrived'⟩ := hsplit
    subst heq
    refine ⟨not_wasted_of_arrived hq, ?_⟩
    by_cases hlong : quantum < q.left
    · rw [scanTurn_long hq hlong]
      rw [turnLength, if_pos hlong] at htime'
      refine ⟨front', back' ++ [{ q with left := q.left - quantum }], List.append_assoc .., htime', ?_, ?_⟩
      · intro r hr
        cases List.mem_append.mp hr with
        | inl hold =>
          have hbefore := harrived' r hold
          omega
        | inr hlast =>
          rw [List.mem_singleton.mp hlast]
          show q.arrival ≤ t + quantum
          omega
      · intro r hr
        cases List.mem_append.mp hr with
        | inl hold => exact hleft r (List.mem_cons_of_mem q hold)
        | inr hlast =>
          rw [List.mem_singleton.mp hlast]
          show 0 < q.left - quantum
          omega
    · rw [scanTurn_short hq hlong]
      rw [turnLength, if_neg hlong] at htime'
      refine ⟨front', back', rfl, htime', fun r hr => ?_, fun r hr => hleft r (List.mem_cons_of_mem q hr)⟩
      have hbefore := harrived' r hr
      show r.arrival ≤ t + q.left
      omega

theorem Caught.neverWasted (hpos : 0 < quantum) (h : Caught quantum t l) : NeverWasted quantum (t, l) := by
  have hall : ∀ k, Caught quantum ((scanTurn quantum)^[k] (t, l)).1 ((scanTurn quantum)^[k] (t, l)).2 := by
    intro k
    induction k with
    | zero => exact h
    | succ k ih =>
      rw [Function.iterate_succ_apply']
      exact (ih.turn hpos).2
  exact fun k => ((hall k).turn hpos).1

theorem timelyTurns_of_neverWasted (hpos : 0 < quantum) (hleft : ∀ r ∈ front, 0 < r.left)
    (hback : ∃ r ∈ back, r.arrival ≤ t) (h : NeverWasted quantum (t, front ++ back)) : TimelyTurns quantum t front := by
  induction front generalizing t back with
  | nil => trivial
  | cons q front ih =>
    obtain ⟨r, hr, harrived⟩ := hback
    have hnow : ¬ Wasted (t, q :: front ++ back) := h 0
    have hq : q.arrival ≤ t := by
      by_contra hlate
      exact hnow ⟨Int.lt_of_not_ge hlate, r, List.mem_append_right front hr, harrived⟩
    have hqleft := hleft q List.mem_cons_self
    have hrest : ∀ r ∈ front, 0 < r.left := fun r hr => hleft r (List.mem_cons_of_mem q hr)
    refine ⟨hq, ?_⟩
    rw [neverWasted_turn hnow] at h
    by_cases hlong : quantum < q.left
    · rw [List.cons_append, scanTurn_long hq hlong, List.append_assoc] at h
      rw [turnLength, if_pos hlong]
      exact ih hrest ⟨r, List.mem_append_left _ hr, by omega⟩ h
    · rw [List.cons_append, scanTurn_short hq hlong] at h
      rw [turnLength, if_neg hlong]
      exact ih hrest ⟨r, hr, by omega⟩ h

theorem neverWasted_long (hpos : 0 < quantum) (hleft : ∀ r ∈ q :: qs, 0 < r.left) (hq : q.arrival ≤ t)
    (hlong : quantum < q.left) : NeverWasted quantum (t, q :: qs) ↔ TimelyTurns quantum t (q :: qs) := by
  constructor
  · intro h
    rw [neverWasted_turn (not_wasted_of_arrived hq), scanTurn_long hq hlong] at h
    refine ⟨hq, ?_⟩
    rw [turnLength, if_pos hlong]
    refine timelyTurns_of_neverWasted hpos (fun r hr => hleft r (List.mem_cons_of_mem q hr))
      ⟨_, List.mem_singleton_self _, ?_⟩ h
    show q.arrival ≤ t + quantum
    omega
  · intro h
    exact Caught.neverWasted hpos ⟨q :: qs, [], (List.append_nil _).symm, h,
      fun r hr => absurd hr List.not_mem_nil, hleft⟩

/-- No turn is wasted exactly if the arrivals are seamless. -/
theorem neverWasted_iff (hpos : 0 < quantum) (hleft : ∀ r ∈ l, 0 < r.left) :
    NeverWasted quantum (t, l) ↔ Seamless quantum l.length t l := by
  induction hk : l.length generalizing t l with
  | zero =>
    rw [List.length_eq_zero_iff] at hk
    subst hk
    apply iff_of_true _ trivial
    intro k
    have hstay : (scanTurn quantum)^[k] (t, []) = (t, []) := Function.iterate_fixed rfl k
    rw [hstay]
    exact id
  | succ k ih =>
    have hl : l ≠ [] := fun heq => by
      rw [heq] at hk
      cases hk
    obtain ⟨hle, ⟨r, hr, hready⟩, hwait⟩ := firstReady_spec t hl
    rw [Seamless]
    generalize firstReady t l = a at hle hready hwait
    obtain ⟨d, hd⟩ : ∃ d, d = (a - t).toNat := ⟨_, rfl⟩
    have ha : t + d = a := by omega
    have hnone : ∀ j < d, ∀ r ∈ l, t + j < r.arrival := fun j hj => hwait (t + j) (by omega) (by omega)
    rw [neverWasted_wait hl hnone, ha, ← hd]
    cases hrot : l.rotate d with
    | nil => exact absurd (List.rotate_eq_nil_iff.mp hrot) hl
    | cons q qs =>
      have hmem : ∀ x, x ∈ q :: qs ↔ x ∈ l := fun x => by rw [← hrot, List.mem_rotate]
      have hleft' : ∀ x ∈ q :: qs, 0 < x.left := fun x hx => hleft x ((hmem x).mp hx)
      have hlen : qs.length = k := by
        have heq := congrArg List.length hrot
        rw [List.length_rotate, hk, List.length_cons] at heq
        omega
      by_cases hq : q.arrival ≤ a
      · simp only [and_iff_right hq]
        split
        · next hlong => exact neverWasted_long hpos hleft' hq hlong
        · next hshort =>
          rw [neverWasted_turn (not_wasted_of_arrived hq), scanTurn_short hq hshort]
          exact ih (fun x hx => hleft' x (List.mem_cons_of_mem q hx)) hlen
      · apply iff_of_false
        · intro h
          apply h 0
          refine ⟨Int.lt_of_not_ge hq, r, ?_, hready⟩
          cases List.mem_cons.mp ((hmem r).mpr hr) with
          | inl heq => exact absurd (heq ▸ hready) hq
          | inr hrest => exact hrest
        · exact fun h => hq h.1

end CseOs.Framework
