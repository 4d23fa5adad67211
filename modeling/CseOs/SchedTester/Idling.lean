import CseOs.SchedTester.RoundRobin

/-!
# When `rr` idles

The visits of the scan are the turns of a circle of jobs. The clock is that of a work-conserving schedule
as long as no turn is wasted.
-/

namespace CseOs.SchedTester

open Framework Finset

variable {n i j : Nat} {p : Nat → Process} {ct tat wt : Nat → Int} {s t u s₀ : RrSt} {is is' : List Nat}

/-- If the visit of `i` takes a unit of time, nobody waits. -/
def Useful (n i : Nat) (p : Nat → Process) (s : RrSt) : Prop :=
  Idles p i s → ∀ j < n, (p j).arrival ≤ s.current_time → s.remaining j = 0

private theorem mem_circle {r : ScanJob} : r ∈ circle n i p s ↔
    ∃ j < n, 0 < s.remaining j ∧ r = ⟨(p j).arrival, s.remaining j⟩ := by
  rw [circle, List.mem_map]
  constructor
  · intro h
    obtain ⟨j, hj, heq⟩ := h
    obtain ⟨hmem, hleft⟩ := List.mem_filter.mp hj
    rw [List.mem_rotate, List.mem_range] at hmem
    exact ⟨j, hmem, of_decide_eq_true hleft, heq.symm⟩
  · intro h
    obtain ⟨j, hj, hleft, heq⟩ := h
    refine ⟨j, List.mem_filter.mpr ⟨?_, decide_eq_true hleft⟩, heq.symm⟩
    rwa [List.mem_rotate, List.mem_range]

private theorem circle_head (hi : i < n) (hleft : 0 < s.remaining i) :
    ∃ rest, circle n i p s = ⟨(p i).arrival, s.remaining i⟩ :: rest := by
  obtain ⟨others, hrot, _⟩ := rotate_range hi
  rw [circle, hrot, List.filter_cons, if_pos (decide_eq_true hleft), List.map_cons]
  exact ⟨_, rfl⟩

private theorem not_wasted_iff (hi : i < n) (hleft : 0 < s.remaining i) (hnonneg : ∀ j < n, 0 ≤ s.remaining j) :
    ¬ Wasted (turnOf n i p s) ↔ Useful n i p s := by
  obtain ⟨rest, hcircle⟩ := circle_head (p := p) hi hleft
  rw [turnOf, hcircle]
  constructor
  · intro h hidle j hj harrived
    by_contra hmore
    have hpos := hnonneg j hj
    have hmem : (⟨(p j).arrival, s.remaining j⟩ : ScanJob) ∈ circle n i p s :=
      mem_circle.mpr ⟨j, hj, by omega, rfl⟩
    rw [hcircle] at hmem
    cases List.mem_cons.mp hmem with
    | inl heq =>
      have hsame : (p j).arrival = (p i).arrival := congrArg ScanJob.arrival heq
      have hlate := hidle.2
      omega
    | inr hrest => exact h ⟨hidle.2, _, hrest, harrived⟩
  · intro h hwasted
    obtain ⟨hlate, r, hr, harrived⟩ := hwasted
    obtain ⟨j, hj, hpos, heq⟩ := mem_circle.mp (hcircle ▸ List.mem_cons_of_mem _ hr)
    rw [heq] at harrived
    have hzero := h ⟨hleft, hlate⟩ j hj harrived
    omega

/-- In front of the visit of `i`: the clock is right, and no turn has been wasted. -/
structure Sound (n : Nat) (p : Nat → Process) (i : Nat) (s : RrSt) : Prop where
  conserving : Conserving n (fun j => (p j).arrival) (fun j => (p j).burst) s.current_time s.remaining
  clock : s.current_time ≤ INT_MAX
  turns : ∃ k, turnOf n i p s = (scanTurn QUANTUM)^[k] (0, jobsOf n p) ∧
    ∀ m < k, ¬ Wasted ((scanTurn QUANTUM)^[m] (0, jobsOf n p))

theorem Sound.next_turn (h : Sound n p i s) (hi : i < n) (hleft : 0 < s.remaining i) (huseful : Useful n i p s)
    (hrun : visit p i s = some t) : ∃ k, turnOf n (i + 1) p t = (scanTurn QUANTUM)^[k] (0, jobsOf n p) ∧
      ∀ m < k, ¬ Wasted ((scanTurn QUANTUM)^[m] (0, jobsOf n p)) := by
  obtain ⟨k, hturn, hgood⟩ := h.turns
  refine ⟨k + 1, ?_, fun m hm => ?_⟩
  · rw [turnOf_visit hi hrun, if_pos hleft, hturn, Function.iterate_succ_apply']
  · by_cases hlast : m = k
    · rw [hlast, ← hturn]
      exact (not_wasted_iff hi hleft h.conserving.nonneg).mpr huseful
    · exact hgood m (by omega)

theorem Sound.visit (h : Sound n p i s) (hi : i < n) (huseful : Useful n i p s)
    (hrun : SchedTester.visit p i s = some t) : Sound n p (i + 1) t := by
  cases visit_cases hrun with
  | inl hnone =>
    obtain ⟨hleft, heq⟩ := hnone
    have hturn := turnOf_visit hi hrun
    rw [if_neg hleft] at hturn
    obtain ⟨k, hk, hgood⟩ := h.turns
    subst heq
    exact ⟨h.conserving, h.clock, k, hturn.trans hk, hgood⟩
  | inr hran =>
    cases hran with
    | inl hserved =>
      obtain ⟨hleft, harrived, d, hvisit, hd, hslice, hrem⟩ := hserved
      have hle : d ≤ s.remaining i := by
        rw [hslice]
        split <;> omega
      refine ⟨?_, hvisit.clock, h.next_turn hi hleft huseful hrun⟩
      rw [hvisit.time, hrem]
      exact h.conserving.run hi harrived hd hle
    | inr hidle =>
      obtain ⟨hidles, hvisit, hrem⟩ := hidle
      refine ⟨?_, hvisit.clock, h.next_turn hi hidles.1 huseful hrun⟩
      rw [hvisit.time, hrem]
      obtain ⟨k, hk, hmore, hfirst⟩ := exists_first_left (fun i => (p i).arrival) s.remaining hi hidles.1.ne'
      have hlate : s.current_time < (p k).arrival := by
        by_contra hearly
        exact hmore (huseful hidles k hk (Int.not_lt.mp hearly))
      exact h.conserving.idle (by omega) hk (by omega) hfirst

theorem Sound.visit_some (h : Sound n p i s)
    (hfits : FitsIn n (fun j => (p j).arrival) (fun j => (p j).burst) INT_MAX) (hi : i < n) :
    ∃ t, SchedTester.visit p i s = some t := by
  rw [SchedTester.visit]
  by_cases hleft : 0 < s.remaining i
  · have hroom := h.conserving.fits hfits hi hleft
    have hadvance : ∀ d, d ≤ s.remaining i → advance s.current_time d = some (s.current_time + d) :=
      fun d hd => advance_eq_some.mpr ⟨by omega, rfl⟩
    rw [if_pos hleft]
    split
    · split
      · next hlong => exact ⟨_, congrArg (Option.map _) (hadvance QUANTUM hlong.le)⟩
      · exact ⟨_, congrArg (Option.map _) (hadvance _ (Int.le_refl _))⟩
    · exact ⟨_, congrArg (Option.map _) (hadvance 1 (by omega))⟩
  · exact ⟨s, if_neg hleft⟩

private theorem scan_append (is is' : List Nat) (s : RrSt) :
    scan p (is ++ is') s = (scan p is s).bind (scan p is') := by
  induction is generalizing s with
  | nil => rfl
  | cons i is ih =>
    rw [List.cons_append, scan, scan]
    cases visit p i s with
    | none => rfl
    | some t => exact ih t

private theorem scan_range_succ (hrun : scan p (List.range (i + 1)) s = some t) :
    ∃ u, scan p (List.range i) s = some u ∧ visit p i u = some t := by
  rw [List.range_succ, scan_append] at hrun
  obtain ⟨u, hu, hlast⟩ := Option.bind_eq_some_iff.mp hrun
  refine ⟨u, hu, ?_⟩
  rw [scan] at hlast
  obtain ⟨t', ht, heq⟩ := Option.bind_eq_some_iff.mp hlast
  cases heq
  exact ht

theorem scan_cases (hrun : scan p is s = some t) :
    (t = s ∧ ∀ i ∈ is, ¬ 0 < s.remaining i) ∨ (t.done = false ∧ s.current_time < t.current_time) := by
  induction is generalizing s with
  | nil =>
    cases hrun
    exact .inl ⟨rfl, fun i hi => absurd hi List.not_mem_nil⟩
  | cons i is ih =>
    obtain ⟨u, hu, hrest⟩ := Option.bind_eq_some_iff.mp hrun
    have hmoved : ∀ d, 0 < d → Visited p i s u d → t.done = false ∧ s.current_time < t.current_time := by
      intro d hd hvisit
      have htime := hvisit.time
      cases ih hrest with
      | inl hsame =>
        rw [hsame.1]
        exact ⟨hvisit.done, by omega⟩
      | inr hlater => exact ⟨hlater.1, by omega⟩
    cases visit_cases hu with
    | inl hnone =>
      obtain ⟨hleft, heq⟩ := hnone
      subst heq
      exact (ih hrest).imp_left fun hsame => ⟨hsame.1, List.forall_mem_cons.mpr ⟨hleft, hsame.2⟩⟩
    | inr hran =>
      cases hran with
      | inl hserved =>
        obtain ⟨_, _, d, hvisit, hd, _⟩ := hserved
        exact .inr (hmoved d hd hvisit)
      | inr hidle => exact .inr (hmoved 1 Int.one_pos hidle.2.1)

theorem Sound.scan (h : Sound n p 0 s)
    (huseful : ∀ i < n, ∀ u, SchedTester.scan p (List.range i) s = some u → Sound n p i u → Useful n i p u)
    (hi : i ≤ n) (hrun : SchedTester.scan p (List.range i) s = some t) : Sound n p i t := by
  induction i generalizing t with
  | zero =>
    cases hrun
    exact h
  | succ i ih =>
    obtain ⟨u, hu, hvisit⟩ := scan_range_succ hrun
    have hsound := ih (by omega) hu
    exact hsound.visit (by omega) (huseful i (by omega) u hu hsound) hvisit

private theorem Sound.scan_some (h : Sound n p 0 s)
    (hfits : FitsIn n (fun j => (p j).arrival) (fun j => (p j).burst) INT_MAX)
    (huseful : ∀ i < n, ∀ u, SchedTester.scan p (List.range i) s = some u → Sound n p i u → Useful n i p u)
    (hi : i ≤ n) : ∃ t, SchedTester.scan p (List.range i) s = some t := by
  induction i with
  | zero => exact ⟨s, rfl⟩
  | succ i ih =>
    obtain ⟨u, hu⟩ := ih (by omega)
    obtain ⟨t, ht⟩ := (h.scan huseful (by omega) hu).visit_some hfits (by omega)
    refine ⟨t, ?_⟩
    rw [List.range_succ, scan_append, hu]
    show (SchedTester.visit p i u).bind (SchedTester.scan p []) = some t
    rw [ht]
    rfl

/-- In front of a pass: behind the last one nothing is left. -/
structure Head (n : Nat) (p : Nat → Process) (s : RrSt) : Prop where
  sound : Sound n p 0 s
  nothing : s.done = true → ∀ j < n, s.remaining j = 0

theorem Head.reset (h : Head n p s) : Sound n p 0 { s with done := true } :=
  ⟨h.sound.conserving, h.sound.clock, h.sound.turns⟩

private theorem Head.pass (h : Head n p s) (hrun : SchedTester.pass n p s = some t)
    (huseful : ∀ i < n, ∀ u, scan p (List.range i) { s with done := true } = some u → Sound n p i u →
      Useful n i p u) : Head n p t := by
  have hlast := h.reset.scan huseful (Nat.le_refl n) hrun
  constructor
  · have hround : circle n n p t = circle n 0 p t := by
      have hrot : (List.range n).rotate n = List.range n := by
        have hfull := List.rotate_length (List.range n)
        rwa [List.length_range] at hfull
      rw [circle, circle, hrot, List.rotate_zero]
    refine ⟨hlast.conserving, hlast.clock, ?_⟩
    rw [turnOf, ← hround]
    exact hlast.turns
  · intro hdone j hj
    cases scan_cases hrun with
    | inl hsame =>
      have hpos := hlast.conserving.nonneg j hj
      have hnone := hsame.2 j (List.mem_range.mpr hj)
      rw [hsame.1] at hpos ⊢
      exact Int.le_antisymm (Int.not_lt.mp hnone) hpos
    | inr hmoved => exact absurd hdone (by rw [hmoved.1]; exact Bool.false_ne_true)

private theorem head_start (hn : 0 < n) (hp : ∀ j < n, 0 ≤ (p j).arrival ∧ 1 ≤ (p j).burst)
    (hstart : rrStart n p ct tat wt = some s₀) : Head n p s₀ := by
  rw [rrStart] at hstart
  split at hstart
  · cases hstart
    constructor
    · refine ⟨Conserving.start (fun j hj => ?_) hn fun j hj => (hp j hj).1, ?_, 0, ?_, ?_⟩
      · have hpos := (hp j hj).2
        omega
      · show (0 : Int) ≤ INT_MAX
        decide
      · rw [turnOf, circle, List.rotate_zero, List.filter_eq_self.mpr]
        · rfl
        · intro j hj
          have hpos := (hp j (List.mem_range.mp hj)).2
          exact decide_eq_true (by show 0 < (p j).burst; omega)
      · exact fun m hm => absurd hm (Nat.not_lt_zero m)
    · exact fun hdone => by cases hdone
  · cases hstart

theorem Head.neverWasted (h : Head n p t) (hdone : t.done = true) :
    NeverWasted QUANTUM (0, jobsOf n p) := by
  obtain ⟨k, hturn, hgood⟩ := h.sound.turns
  have hempty : circle n 0 p t = [] := by
    apply List.eq_nil_iff_forall_not_mem.mpr
    intro r hr
    obtain ⟨j, hj, hleft, _⟩ := mem_circle.mp hr
    have hzero := h.nothing hdone j hj
    omega
  rw [turnOf, hempty] at hturn
  intro m
  by_cases hm : m < k
  · exact hgood m hm
  · obtain ⟨d, hd⟩ := Nat.exists_eq_add_of_le (Nat.le_of_not_lt hm)
    have hstay : (scanTurn QUANTUM)^[d] (t.current_time, []) = (t.current_time, []) :=
      Function.iterate_fixed rfl d
    rw [hd, Nat.add_comm, Function.iterate_add_apply, ← hturn, hstay]
    exact id

private theorem useful_of_neverWasted (hnever : NeverWasted QUANTUM (0, jobsOf n p)) (hi : i < n)
    (h : Sound n p i u) : Useful n i p u := by
  obtain ⟨k, hturn, _⟩ := h.turns
  intro hidle
  have hgood := hnever k
  rw [← hturn] at hgood
  exact (not_wasted_iff hi hidle.1 h.conserving.nonneg).mp hgood hidle

theorem head_of_heads (h₀ : Head n p s₀) (hheads : Heads goesOn (pass n p) s₀ s)
    (huseful : ∀ u, Heads goesOn (pass n p) s₀ u → goesOn u = true → ∀ i < n, ∀ v,
      scan p (List.range i) { u with done := true } = some v → Sound n p i v → Useful n i p v) : Head n p s := by
  induction hheads with
  | refl => exact h₀
  | tail hbefore hturn ih => exact ih.pass hturn.2 (huseful _ hbefore hturn.1)

private theorem jobsOf_length (n : Nat) (p : Nat → Process) : (jobsOf n p).length = n := by
  rw [jobsOf, List.length_map, List.length_range]

private theorem seamless_iff (hp : ∀ j < n, 0 ≤ (p j).arrival ∧ 1 ≤ (p j).burst) :
    NeverWasted QUANTUM (0, jobsOf n p) ↔ Seamless QUANTUM n 0 (jobsOf n p) := by
  have hleft : ∀ r ∈ jobsOf n p, 0 < r.left := by
    intro r hr
    obtain ⟨j, hj, heq⟩ := List.mem_map.mp hr
    rw [← heq]
    have hpos := (hp j (List.mem_range.mp hj)).2
    show 0 < (p j).burst
    omega
  rw [neverWasted_iff (by decide) hleft, jobsOf_length]

theorem rr_none : RrWorkConserving 0 p ct tat wt := by
  refine ⟨⟨_, _, rfl, ⟨2, rfl⟩, rfl⟩, fun i s hvisits => ?_⟩
  obtain ⟨_, _, _, _, _, hi, _⟩ := hvisits
  exact absurd hi (Nat.not_lt_zero i)

private theorem Head.time_eq (h : Head n p t) (hp : ∀ j < n, 0 ≤ (p j).arrival ∧ 1 ≤ (p j).burst)
    (hdone : t.done = true) : t.current_time = ∑ i ∈ range n, (p i).burst +
      idleGaps n (fun i => (p i).arrival) fun i => (p i).burst :=
  h.sound.conserving.time_eq (h.nothing hdone) (fun j hj => (hp j hj).1) fun j hj => (hp j hj).2

theorem rr_returns (hn : 0 < n) (hp : ∀ j < n, 0 ≤ (p j).arrival ∧ 1 ≤ (p j).burst)
    (hfits : FitsIn n (fun j => (p j).arrival) (fun j => (p j).burst) INT_MAX)
    (hnever : NeverWasted QUANTUM (0, jobsOf n p)) (hstart : rrStart n p ct tat wt = some s₀) :
    ∃ t, Returns goesOn (pass n p) s₀ t ∧ Head n p t ∧ goesOn t = false := by
  apply returns_of_variant (fun s => (INT_MAX - s.current_time).toNat + if s.done then 0 else 1)
  · intro s hs hgo
    have hopen : s.done = false := by simpa [goesOn] using hgo
    have huseful : ∀ i < n, ∀ u, scan p (List.range i) { s with done := true } = some u → Sound n p i u →
        Useful n i p u := fun i hi u _ hu => useful_of_neverWasted hnever hi hu
    obtain ⟨t, ht⟩ := hs.reset.scan_some hfits huseful (Nat.le_refl n)
    have hhead := hs.pass ht huseful
    refine ⟨t, ht, hhead, ?_⟩
    have hclock := hhead.sound.clock
    cases scan_cases ht with
    | inl hsame =>
      rw [hsame.1, hopen]
      exact Nat.lt_succ_self _
    | inr hmoved =>
      obtain ⟨hdone, hlt⟩ := hmoved
      rw [hdone, hopen]
      replace hlt : s.current_time < t.current_time := hlt
      omega
  · exact head_start hn hp hstart

/-- `rr` is work-conserving exactly if the arrivals are seamless, within the bounds of its `int`s. -/
theorem rr_workConserving_iff (hp : ∀ j < n, 0 ≤ (p j).arrival ∧ 1 ≤ (p j).burst) (ct tat wt : Nat → Int) :
    RrWorkConserving n p ct tat wt ↔ Serviceable n p := by
  cases Nat.eq_zero_or_pos n with
  | inl hzero =>
    subst hzero
    exact iff_of_true rr_none ⟨Nat.zero_le 100, fun j hj => absurd hj (Nat.not_lt_zero j), trivial⟩
  | inr hn =>
    constructor
    · intro h
      obtain ⟨⟨s₀, t, hstart, hreturns, _⟩, hgood⟩ := h
      obtain ⟨hheads, hstop⟩ := returns_iff.mp hreturns
      have hdone : t.done = true := by simpa [goesOn] using hstop
      have hhead := head_of_heads (head_start hn hp hstart) hheads fun u hu hgo i hi v hv _ =>
        hgood i v ⟨s₀, u, hstart, hu, hgo, hi, hv⟩
      have hfits := hhead.sound.conserving.fits_of_done (hhead.nothing hdone) fun j hj =>
        (hp j hj).2
      refine ⟨?_, fun j hj => Int.le_trans (hfits j hj) hhead.sound.clock, ?_⟩
      · rw [rrStart] at hstart
        split at hstart
        · assumption
        · cases hstart
      · exact (seamless_iff hp).mp (hhead.neverWasted hdone)
    · intro h
      have hnever := (seamless_iff hp).mpr h.seamless
      obtain ⟨s₀, hstart⟩ : ∃ s₀, rrStart n p ct tat wt = some s₀ := ⟨_, if_pos h.room⟩
      obtain ⟨t, hreturns, hhead, hstop⟩ := rr_returns hn hp h.fits hnever hstart
      refine ⟨⟨s₀, t, hstart, hreturns, hhead.time_eq hp (by simpa [goesOn] using hstop)⟩, ?_⟩
      intro i s hvisits
      obtain ⟨s₁, u, hstart', hheads, _, hi, hscan⟩ := hvisits
      cases hstart.symm.trans hstart'
      have huseful : ∀ u : RrSt, ∀ i < n, ∀ v, scan p (List.range i) { u with done := true } = some v →
          Sound n p i v → Useful n i p v := fun u i hi v _ hv => useful_of_neverWasted hnever hi hv
      have hu := head_of_heads (head_start hn hp hstart) hheads fun u _ _ => huseful u
      exact useful_of_neverWasted hnever hi (hu.reset.scan (huseful u) hi.le hscan)

/-- Two processes. -/
def twoProcesses (a b : Process) (i : Nat) : Process := if i = 0 then a else b

theorem rr_workConserving_two :
    RrWorkConserving 2 (twoProcesses ⟨1, 0, 6, 0⟩ ⟨2, 3, 2, 0⟩) (fun _ => 0) (fun _ => 0) (fun _ => 0) ↔
      Serviceable 2 (twoProcesses ⟨1, 0, 6, 0⟩ ⟨2, 3, 2, 0⟩) :=
  rr_workConserving_iff (by decide) _ _ _

/-- With six units of the first process left, the clock goes from 4 to 5 for the second one, which comes
at 100. -/
theorem rr_idles :
    (∀ j < 2, 0 ≤ (twoProcesses ⟨1, 0, 10, 0⟩ ⟨2, 100, 1, 0⟩ j).arrival ∧
        1 ≤ (twoProcesses ⟨1, 0, 10, 0⟩ ⟨2, 100, 1, 0⟩ j).burst) ∧
      ¬ RrWorkConserving 2 (twoProcesses ⟨1, 0, 10, 0⟩ ⟨2, 100, 1, 0⟩) (fun _ => 0) (fun _ => 0)
        fun _ => 0 := by
  refine ⟨by decide, fun h => ?_⟩
  obtain ⟨_, hgood⟩ := h
  have hvisits : Visits 2 (twoProcesses ⟨1, 0, 10, 0⟩ ⟨2, 100, 1, 0⟩) (fun _ => 0) (fun _ => 0) (fun _ => 0) 1 _ :=
    ⟨_, _, rfl, .refl, rfl, by decide, rfl⟩
  exact absurd (hgood 1 _ hvisits ⟨by decide, by decide⟩ 0 (by decide) (by decide)) (by decide)

end CseOs.SchedTester
