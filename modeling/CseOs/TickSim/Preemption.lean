import CseOs.TickSim.Loop

/-!
# What the preempting dispatchers leave

Every turn of a dispatcher keeps the threads of the cores and the ready queue together. The search
for a victim starts from -1 as the largest key seen, so that a thread with a negative key is never
one; whether the smallest keys end on the cores is decided before the first turn, by a count.
-/

namespace CseOs.TickSim

open Framework Sim

variable {key : Ptr → Int} {a a' : Alloc} {s s' : Sim} {l l' : QName → List Ptr}
  {place place' : Ptr → Place} {p b r : Ptr} {i : Nat} {cores : List (Option Ptr)}
  {ready pre post : List Ptr} {c : Option Ptr}

def Alloc.threads (a : Alloc) : List Ptr := a.cores.reduceOption ++ a.ready

private theorem reduceOption_cons (c : Option Ptr) (cores : List (Option Ptr)) :
    (c :: cores).reduceOption = c.toList ++ cores.reduceOption := by
  cases c with
  | none => exact List.reduceOption_cons_of_none cores
  | some p => exact List.reduceOption_cons_of_some p cores

private theorem reduceOption_set (h : cores[i]? = some c) (b : Ptr) :
    (c.toList ++ (cores.set i (some b)).reduceOption).Perm (b :: cores.reduceOption) := by
  induction cores generalizing i with
  | nil => simp at h
  | cons d cores ih =>
    cases i with
    | zero =>
      have hd : d = c := by simpa using h
      rw [hd, List.set_cons_zero, reduceOption_cons, reduceOption_cons]
      exact List.perm_middle
    | succ i =>
      have hrest := ih (i := i) (by simpa using h)
      rw [List.set_cons_succ, reduceOption_cons, reduceOption_cons, List.perm_iff_count]
      intro x
      have := hrest.count_eq x
      simp only [List.count_append, List.count_cons] at this ⊢
      omega

theorem FirstMin.perm (h : FirstMin key ready pre b post) : ready.Perm (b :: (pre ++ post)) := by
  rw [h.eq]
  exact List.perm_middle

theorem threads_exchange (hcore : cores[i]? = some c) (hmin : FirstMin key ready pre b post) :
    ((cores.set i (some b)).reduceOption ++ (pre ++ post ++ c.toList)).Perm
      (cores.reduceOption ++ ready) := by
  rw [List.perm_iff_count]
  intro x
  have hcores := (reduceOption_set hcore b).count_eq x
  have hready := hmin.perm.count_eq x
  simp only [List.count_append, List.count_cons] at hcores hready ⊢
  omega

private theorem Turn.perm (h : Turn key a a') : a'.threads.Perm a.threads := by
  cases h with
  | bind hidle hmin =>
    have hperm := threads_exchange hidle hmin
    rwa [Option.toList_none, List.append_nil] at hperm
  | swap hr _ _ hmin => exact threads_exchange hr hmin

private theorem Settles.perm (h : Settles key a a') : a'.threads.Perm a.threads := by
  cases h with
  | empty => exact .refl _
  | putBack _ hmin =>
    apply List.Perm.append_left
    exact (List.perm_append_singleton _ _).trans hmin.perm.symm

private theorem turns_perm (h : Relation.ReflTransGen (Turn key) a a') : a'.threads.Perm a.threads := by
  induction h with
  | refl => exact .refl _
  | tail _ hturn ih => exact hturn.perm.trans ih

/-- No ready thread has a smaller key than a running one. -/
def Alloc.Sorted (key : Ptr → Int) (a : Alloc) : Prop :=
  ∀ r p, some r ∈ a.cores → p ∈ a.ready → key r ≤ key p

/-- The cores that a ready thread can get: idle, or with a key that is not negative. -/
def Alloc.openCores (key : Ptr → Int) (a : Alloc) : Nat :=
  a.cores.countP fun c => c.all fun p => 0 ≤ key p

/-- The ready threads with a key below `k`. -/
def Alloc.below (key : Ptr → Int) (a : Alloc) (k : Int) : Nat := a.ready.countP fun p => key p < k

/-- The threads that would have to displace a running thread with a negative key all find
another core. -/
def Alloc.Roomy (key : Ptr → Int) (a : Alloc) : Prop :=
  ∀ r, some r ∈ a.cores → key r < 0 → a.below key (key r) ≤ a.openCores key

private theorem below_eq_zero {k : Int} (h : ∀ p ∈ a.ready, k ≤ key p) : a.below key k = 0 := by
  rw [Alloc.below, List.countP_eq_zero]
  intro p hp
  have := h p hp
  simp only [decide_eq_true_eq]
  omega

private theorem FirstMin.below_eq_zero (h : FirstMin key ready pre b post) {k : Int} (hk : k ≤ key b)
    (cores : List (Option Ptr)) : (⟨cores, ready⟩ : Alloc).below key k = 0 :=
  TickSim.below_eq_zero fun p hp => Int.le_trans hk (h.le p hp)

private theorem roomy_of_nonneg (h : ∀ p ∈ a.ready, 0 ≤ key p) : a.Roomy key := by
  intro r _ hneg
  rw [below_eq_zero fun p hp => Int.le_trans (Int.le_of_lt hneg) (h p hp)]
  exact Nat.zero_le _

section Exchange

variable (hcore : cores[i]? = some c) (hc : ∀ r, c = some r → 0 ≤ key r)
include hcore hc

private theorem openCores_exchange (hb : key b < 0) (ready ready' : List Ptr) :
    (⟨cores.set i (some b), ready'⟩ : Alloc).openCores key + 1 =
      (⟨cores, ready⟩ : Alloc).openCores key := by
  have hlt : i < cores.length := (List.getElem?_eq_some_iff.mp hcore).1
  have hget : cores[i] = c := (List.getElem?_eq_some_iff.mp hcore).2
  have hopen : c.all (fun p => decide (0 ≤ key p)) = true := by
    cases c with
    | none => rfl
    | some r => simpa using hc r rfl
  have hpos : 0 < cores.countP fun c => c.all fun p => 0 ≤ key p :=
    List.countP_pos_iff.mpr ⟨c, List.mem_of_getElem? hcore, hopen⟩
  simp only [Alloc.openCores]
  rw [List.countP_set hlt, hget, hopen]
  simp [Int.not_le.mpr hb]
  omega

private theorem below_exchange (hmin : FirstMin key ready pre b post) {k : Int} (hk : k ≤ 0) :
    (⟨cores.set i (some b), pre ++ post ++ c.toList⟩ : Alloc).below key k +
        (if key b < k then 1 else 0) = (⟨cores, ready⟩ : Alloc).below key k := by
  have hnone : c.toList.countP (fun p => decide (key p < k)) = 0 := by
    cases c with
    | none => rfl
    | some r =>
      have := hc r rfl
      simp
      omega
  simp only [Alloc.below, List.countP_append, hnone]
  rw [hmin.eq, List.countP_append, List.countP_cons]
  simp
  omega

theorem mem_exchange_iff (hr : key r < 0) :
    some r ∈ cores.set i (some b) ↔ some r ∈ cores ∨ r = b := by
  have hlt : i < cores.length := (List.getElem?_eq_some_iff.mp hcore).1
  constructor
  · intro hm
    cases List.mem_or_eq_of_mem_set hm with
    | inl hm => exact .inl hm
    | inr heq => exact .inr (Option.some.inj heq)
  · intro hm
    cases hm with
    | inl hm =>
      obtain ⟨j, hj⟩ := List.mem_iff_getElem?.mp hm
      have hji : i ≠ j := by
        intro hij
        have hcr : c = some r := Option.some.inj (hcore.symm.trans (hij ▸ hj))
        have := hc r hcr
        omega
      exact List.mem_iff_getElem?.mpr ⟨j, by rw [List.getElem?_set_ne hji, hj]⟩
    | inr heq =>
      exact List.mem_iff_getElem?.mpr ⟨i, by rw [heq, List.getElem?_set_self hlt]⟩

private theorem roomy_exchange (hmin : FirstMin key ready pre b post) :
    (⟨cores.set i (some b), pre ++ post ++ c.toList⟩ : Alloc).Roomy key ↔
      (⟨cores, ready⟩ : Alloc).Roomy key := by
  by_cases hb : 0 ≤ key b
  · apply iff_of_true
    · apply roomy_of_nonneg
      intro p hp
      cases List.mem_append.mp hp with
      | inl hp => exact Int.le_trans hb (hmin.le p (hmin.perm.mem_iff.mpr (List.mem_cons_of_mem b hp)))
      | inr hp => exact hc p (by simpa using hp)
    · exact roomy_of_nonneg fun p hp => Int.le_trans hb (hmin.le p hp)
  · have hopen := openCores_exchange hcore hc (Int.not_le.mp hb) ready (pre ++ post ++ c.toList)
    constructor
    · intro hroomy r hr hneg
      have hroom := hroomy r ((mem_exchange_iff hcore hc hneg).mpr (.inl hr)) hneg
      have hbelow := below_exchange hcore hc hmin (Int.le_of_lt hneg)
      split at hbelow
      · omega
      · have hzero := hmin.below_eq_zero (k := key r) (by omega) cores
        omega
    · intro hroomy r hr hneg
      have hbelow := below_exchange hcore hc hmin (Int.le_of_lt hneg)
      cases (mem_exchange_iff hcore hc hneg).mp hr with
      | inl hr =>
        have hroom := hroomy r hr hneg
        split at hbelow
        · omega
        · have hzero := hmin.below_eq_zero (k := key r) (by omega) cores
          omega
      | inr heq =>
        subst heq
        have hzero := hmin.below_eq_zero (Int.le_refl _) cores
        omega

end Exchange

private theorem Turn.roomy_iff (h : Turn key a a') : a'.Roomy key ↔ a.Roomy key := by
  cases h with
  | bind hidle hmin =>
    have hiff := roomy_exchange hidle (fun _ he => nomatch he) hmin
    rwa [Option.toList_none, List.append_nil] at hiff
  | swap hr _ hpos hmin =>
    apply roomy_exchange hr _ hmin
    intro r he
    cases he
    omega

private theorem turns_roomy_iff (h : Relation.ReflTransGen (Turn key) a a') :
    a'.Roomy key ↔ a.Roomy key := by
  induction h with
  | refl => exact Iff.rfl
  | tail _ hturn ih => exact hturn.roomy_iff.trans ih

theorem Settles.sorted_iff (h : Settles key a a') : a'.Sorted key ↔ a.Roomy key := by
  cases h with
  | empty =>
    apply iff_of_true
    · exact fun _ _ _ hp => absurd hp List.not_mem_nil
    · exact roomy_of_nonneg fun _ hp => absurd hp List.not_mem_nil
  | @putBack cores ready pre post b hbusy hmin hnone =>
    have hready : (pre ++ post ++ [b]).Perm ready :=
      (List.perm_append_singleton _ _).trans hmin.perm.symm
    constructor
    · intro hsorted r hr _
      have hle := hsorted r b hr (hready.mem_iff.mpr hmin.mem)
      rw [hmin.below_eq_zero hle]
      exact Nat.zero_le _
    · intro hroomy r p hr hp
      have hbp := hmin.le p (hready.mem_iff.mp hp)
      by_contra hlt
      have hneg : key r ≤ -1 := (hnone r hr).resolve_left (by omega)
      have hroom := hroomy r hr (by omega)
      have hbelow : 0 < (⟨cores, ready⟩ : Alloc).below key (key r) :=
        List.countP_pos_iff.mpr ⟨b, hmin.mem, by simp; omega⟩
      obtain ⟨c, hc, hopen⟩ := List.countP_pos_iff.mp (Nat.lt_of_lt_of_le hbelow hroom)
      cases c with
      | none => exact hbusy hc
      | some q =>
        have hq : 0 ≤ key q := by simpa using hopen
        have := hnone q hc
        omega

/-- What a dispatcher owes: no thread is lost or doubled, no core is idle while a thread is ready, and
no ready thread has a smaller key than a running one. -/
structure Dispatched (key : Thread → Int) (s : Sim) (l : QName → List Ptr) (s' : Sim)
    (l' : QName → List Ptr) : Prop where
  threads : (s'.core.reduceOption ++ l' .ready).Perm (s.core.reduceOption ++ l .ready)
  working : l' .ready = [] ∨ none ∉ s'.core
  smallest : ∀ r p, some r ∈ s'.core → p ∈ l' .ready →
    key (s'.thread r) ≤ key (s'.thread p)

section Dispatchers

variable {key : Thread → Int} (hkey : ∀ t t', Kept t t' → key t' = key t)
include hkey

theorem dispatched_iff (hshift : Shift s s' place place')
    (hturns : Relation.ReflTransGen (Turn fun p => key (s.thread p)) (alloc s l) a)
    (hsettles : Settles (fun p => key (s.thread p)) a (alloc s' l')) :
    Dispatched key s l s' l' ↔ (alloc s l).Roomy fun p => key (s.thread p) := by
  have hkeys : ∀ p, key (s'.thread p) = key (s.thread p) := fun p => hkey _ _ (hshift.kept p)
  rw [← turns_roomy_iff hturns, ← hsettles.sorted_iff]
  constructor
  · intro h r p hr hp
    have hle := h.smallest r p hr hp
    rwa [hkeys, hkeys] at hle
  · intro h
    refine ⟨hsettles.perm.trans (turns_perm hturns), hsettles.workConserving, fun r p hr hp => ?_⟩
    rw [hkeys, hkeys]
    exact h r p hr hp

end Dispatchers

theorem Accounted.running_nonneg {jobs : List Job} {T : Int} {k : Nat}
    (ha : Accounted jobs (.during T k) s place) (h : Placed s l place) (hr : some r ∈ s.core) :
    0 ≤ (s.thread r).remaining := by
  obtain ⟨i, hi⟩ := List.mem_iff_getElem?.mp hr
  obtain ⟨j, _, hj⟩ := ha.job (h.core_lt hi)
  have hacc := hj.account
  rw [h.core_eq hi] at hacc
  have hleast : (Clock.during T k).least ≤ (s.thread r).remaining := hacc.1
  simp only [Clock.during] at hleast
  split at hleast
  · exact hleast
  · omega

/-- Whatever is ready, and whatever runs with time left or none, `dispatch_srtcf` stops, keeps every
thread once and leaves the threads with the least remaining time on the cores. -/
theorem dispatchSrtcf_dispatches (h : Placed s l place) (hint : KeysFit Thread.remaining s)
    (hrun : ∀ r, some r ∈ s.core → 0 ≤ (s.thread r).remaining) :
    ∃ s' l' place', dispatchSrtcf s = some s' ∧ Placed s' l' place' ∧
      Dispatched Thread.remaining s l s' l' := by
  obtain ⟨s', l', place', a, hstop, h', hshift, hturns, hsettles⟩ := dispatchSrtcf_turns h hint
  refine ⟨s', l', place', hstop, h', ?_⟩
  rw [dispatched_iff (fun _ _ hk => hk.remaining) hshift hturns hsettles]
  exact fun r hr hneg => absurd (hrun r hr) (Int.not_le.mpr hneg)

theorem dispatchSrtcf_dispatches_shorter : ∃ s l place, Placed s l place ∧ s.core = [some 0] ∧ l .ready = [1] ∧
    ∃ s' l' place', dispatchSrtcf s = some s' ∧ Placed s' l' place' ∧ s'.core = [some 1] ∧
      Dispatched Thread.remaining s l s' l' := by
  let cfg : Config := ⟨.srtcf, 1, 1, false, fun _ => 0⟩
  let jobs := [rankedJob 0 0 zero_le_INT_MAX, shortJob 1]
  have heval : ((loopHead cfg jobs 1).bind fun s => (runCalls ((phases cfg).take 3) s).bind fun s =>
      (dispatchSrtcf s).map fun s' => (s.core, (s.queue .ready).front, s.next 1, s'.core)) =
        some ([some 0], some 1, none, [some 1]) := by decide +kernel
  cases hhead : loopHead cfg jobs 1 with
  | none => simp [hhead] at heval
  | some s₀ =>
    obtain ⟨l₀, place₀, h₀, ha₀, _⟩ := loopHead_spec hhead
    obtain ⟨s, l, place, hcalls, h, ha⟩ :=
      calls_spec cfg h₀ ha₀ (show 3 ≤ (phases cfg).length by decide)
    obtain ⟨s', l', place', hrun, h', hdisp⟩ :=
      dispatchSrtcf_dispatches h ha.fit_remaining fun _ hr => ha.running_nonneg h hr
    rw [hhead] at heval
    simp only [Option.bind_some, hcalls, hrun, Option.map_some, Option.some.injEq, Prod.mk.injEq] at heval
    obtain ⟨hcore, hfront, hnext, hcore'⟩ := heval
    have hready : l .ready = [1] := (h.chain .ready).unique ⟨hfront, hnext⟩
    exact ⟨s, l, place, h, hcore, hready, s', l', place', hrun, h', hcore', hdisp⟩

/-- `dispatch_priority` does what it owes exactly when, for every running thread with a negative
priority value, there are no more ready threads that beat it than cores that are idle or run a thread
whose value is not negative. -/
theorem dispatchPriority_dispatches_iff (h : Placed s l place) (hint : KeysFit Thread.priority s) :
    (∃ s' l' place', dispatchPriority s = some s' ∧ Placed s' l' place' ∧
      Dispatched Thread.priority s l s' l') ↔
      ∀ r, some r ∈ s.core → (s.thread r).priority < 0 →
        (l .ready).countP (fun p => (s.thread p).priority < (s.thread r).priority) ≤
          s.core.countP fun c => c.all fun p => 0 ≤ (s.thread p).priority := by
  obtain ⟨s', l', place', a, hstop, h', hshift, hturns, hsettles⟩ := dispatchPriority_turns h hint
  have hiff := dispatched_iff (fun _ _ hk => hk.priority) hshift hturns hsettles
  constructor
  · intro ⟨t, m, place'', hstop', hm, hdisp⟩
    have hts : t = s' := Option.some.inj (hstop'.symm.trans hstop)
    subst hts
    have hready : m .ready = l' .ready := (hm.chain .ready).unique (h'.chain .ready)
    apply hiff.mp
    exact ⟨hready ▸ hdisp.threads, hready ▸ hdisp.working, hready ▸ hdisp.smallest⟩
  · exact fun hroomy => ⟨s', l', place', hstop, h', hiff.mpr hroomy⟩

/-- With a priority of -1 on the only core and one of -5 ready, `dispatch_priority` changes nothing. -/
theorem negative_priority_not_preempted :
    ¬ ∀ s l place, Placed s l place → KeysFit Thread.priority s →
      ∃ s' l' place', dispatchPriority s = some s' ∧ Placed s' l' place' ∧
        Dispatched Thread.priority s l s' l' := by
  intro hall
  let cfg : Config := ⟨.pr, 1, 1, false, fun _ => 0⟩
  let jobs := [rankedJob 0 (-1) (by decide), rankedJob 1 (-5) (by decide)]
  have heval : ((loopHead cfg jobs 1).bind fun s => (runCalls ((phases cfg).take 3) s).bind
      dispatchPriority).map (fun t => (t.core, (t.queue .ready).front, (t.thread 0).priority,
        (t.thread 1).priority)) = some ([some 0], some 1, -1, -5) := by decide +kernel
  cases hhead : loopHead cfg jobs 1 with
  | none => simp [hhead] at heval
  | some s₀ =>
    obtain ⟨l₀, place₀, h₀, ha₀, _⟩ := loopHead_spec hhead
    obtain ⟨s, l, place, hcalls, h, ha⟩ :=
      calls_spec cfg h₀ ha₀ (show 3 ≤ (phases cfg).length by decide)
    obtain ⟨s', l', place', hrun, h', hdisp⟩ := hall s l place h ha.fit_priority
    rw [hhead] at heval
    simp only [Option.bind_some, hcalls, hrun, Option.map_some, Option.some.injEq,
      Prod.mk.injEq] at heval
    have hcore : some 0 ∈ s'.core := by
      rw [heval.1]
      exact List.mem_singleton_self _
    have hready : 1 ∈ l' .ready := (h'.chain .ready).head_mem heval.2.1
    have hle := hdisp.smallest 0 1 hcore hready
    rw [heval.2.2.1, heval.2.2.2] at hle
    exact absurd hle (by decide)

theorem dispatchPriority_dispatches_second : ∃ s l place, Placed s l place ∧
    s.core = [some 0, none] ∧ l .ready = [1] ∧ (s.thread 0).priority = -1 ∧
      ∃ s' l' place', dispatchPriority s = some s' ∧ Placed s' l' place' ∧
        Dispatched Thread.priority s l s' l' := by
  let cfg : Config := ⟨.pr, 1, 2, false, fun _ => 0⟩
  let jobs := [rankedJob 0 (-1) (by decide), rankedJob 1 (-5) (by decide)]
  have heval : ((loopHead cfg jobs 1).bind (runCalls ((phases cfg).take 3))).map
      (fun t => (t.core, (t.queue .ready).front, t.next 1, (t.thread 0).priority)) =
        some ([some 0, none], some 1, none, -1) := by decide +kernel
  cases hhead : loopHead cfg jobs 1 with
  | none => simp [hhead] at heval
  | some s₀ =>
    obtain ⟨l₀, place₀, h₀, ha₀, _⟩ := loopHead_spec hhead
    obtain ⟨s, l, place, hcalls, h, ha⟩ :=
      calls_spec cfg h₀ ha₀ (show 3 ≤ (phases cfg).length by decide)
    rw [hhead] at heval
    simp only [Option.bind_some, hcalls, Option.map_some, Option.some.injEq, Prod.mk.injEq] at heval
    obtain ⟨hcore, hfront, hnext, hpri⟩ := heval
    have hready : l .ready = [1] := (h.chain .ready).unique ⟨hfront, hnext⟩
    refine ⟨s, l, place, h, hcore, hready, hpri,
      (dispatchPriority_dispatches_iff h ha.fit_priority).mpr fun r hr _ => ?_⟩
    calc (l .ready).countP (fun p => (s.thread p).priority < (s.thread r).priority)
      _ ≤ (l .ready).length := List.countP_le_length
      _ = 1 := by rw [hready]; rfl
      _ ≤ s.core.countP fun c => c.all fun p => 0 ≤ (s.thread p).priority := by
        rw [hcore]
        simp

end CseOs.TickSim
