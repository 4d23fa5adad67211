import CseOs.Framework.LinkedList
import CseOs.TickSim.Simulator

/-!
# Where the threads are

Each thread is in one place: a queue, a core, or the hand of the code that moves it. The
queues are linked as their fields say, and each operation moves one thread.
-/

namespace CseOs.TickSim

open Framework Sim

inductive Place where
  | queue (q : QName)
  | core (i : Nat)
  | hand
  deriving DecidableEq

/-- The queues of `s` are the lists `l` and every thread is where `place` says. -/
structure Placed (s : Sim) (l : QName → List Ptr) (place : Ptr → Place) : Prop where
  chain : ∀ q, Chain s.next (s.queue q).front (l q)
  rear : ∀ q, (s.queue q).rear = (l q).getLast?
  size : ∀ q, (s.queue q).size = (l q).length
  nodup : ∀ q, (l q).Nodup
  mem : ∀ q p, p ∈ l q ↔ p < s.made ∧ place p = .queue q
  core : ∀ i p, s.core[i]? = some (some p) ↔ p < s.made ∧ place p = .core i

/-- Only links and queues differ. -/
def Relinked (s s' : Sim) : Prop := s' = { s with next := s'.next, queue := s'.queue }

/-- Only links, queues and the fields of threads differ. -/
def Requeued (s s' : Sim) : Prop :=
  s' = { s with next := s'.next, queue := s'.queue, thread := s'.thread }

variable {s s' s'' : Sim} {l : QName → List Ptr} {place : Ptr → Place} {q : QName} {p t : Ptr}

theorem Relinked.thread (h : Relinked s s') : s'.thread = s.thread := by
  rw [h]

theorem Relinked.core (h : Relinked s s') : s'.core = s.core := by
  rw [h]

theorem Relinked.made (h : Relinked s s') : s'.made = s.made := by
  rw [h]

theorem Relinked.requeued (h : Relinked s s') : Requeued s s' := by
  rw [h]
  rfl

theorem Requeued.core (h : Requeued s s') : s'.core = s.core := by
  rw [h]

theorem Requeued.made (h : Requeued s s') : s'.made = s.made := by
  rw [h]

theorem Requeued.simTime (h : Requeued s s') : s'.simTime = s.simTime := by
  rw [h]

theorem Requeued.refl (s : Sim) : Requeued s s := rfl

theorem Requeued.trans (h : Requeued s s') (h' : Requeued s' s'') : Requeued s s'' := by
  rw [h', h]
  rfl

theorem requeued_setThread (p : Ptr) (f : Thread → Thread) (s : Sim) :
    Requeued s (s.setThread p f) := rfl

@[simp] theorem setThread_same (p : Ptr) (f : Thread → Thread) (s : Sim) :
    (s.setThread p f).thread p = f (s.thread p) := Function.update_self ..

theorem setThread_other (f : Thread → Thread) (h : t ≠ p) :
    (s.setThread p f).thread t = s.thread t := Function.update_of_ne h ..

theorem Placed.setThread (h : Placed s l place) (p : Ptr) (f : Thread → Thread) :
    Placed (s.setThread p f) l place :=
  ⟨h.chain, h.rear, h.size, h.nodup, h.mem, h.core⟩

theorem Placed.congr {place' : Ptr → Place} (h : Placed s l place)
    (hp : ∀ p < s.made, place' p = place p) : Placed s l place' := by
  constructor
  · exact h.chain
  · exact h.rear
  · exact h.size
  · exact h.nodup
  · intro q p
    rw [h.mem]
    exact and_congr_right fun hlt => by rw [hp p hlt]
  · intro i p
    rw [h.core]
    exact and_congr_right fun hlt => by rw [hp p hlt]

theorem Placed.lt (h : Placed s l place) (hp : p ∈ l q) : p < s.made := ((h.mem q p).mp hp).1

theorem Placed.place_eq (h : Placed s l place) (hp : p ∈ l q) : place p = .queue q :=
  ((h.mem q p).mp hp).2

/-- No thread is in two queues. -/
theorem Placed.disjoint (h : Placed s l place) {q' : QName} (hq : q ≠ q') (hp : p ∈ l q) :
    p ∉ l q' := by
  intro hp'
  have := (h.place_eq hp).symm.trans (h.place_eq hp')
  exact hq (Place.queue.inj this)

theorem Placed.empty_iff (h : Placed s l place) (q : QName) : qEmpty (s.queue q) = true ↔ l q = [] := by
  rw [qEmpty, h.size q, beq_iff_eq]
  simp

theorem Placed.front_eq_none (h : Placed s l place) (hq : l q = []) :
    (s.queue q).front = none := by
  have := h.chain q
  rwa [hq] at this

section Update

variable {ts : List Ptr}

private theorem Placed.enter (h : Placed s l place) (hp : p < s.made) (hhand : place p = .hand)
    (next' : Ptr → Option Ptr) (v : Queue) (hchain : Chain next' v.front (l q ++ [p]))
    (hrear : v.rear = some p) (hsize : v.size = (s.queue q).size + 1)
    (hnext : ∀ b, b ∉ l q → b ≠ p → next' b = s.next b) :
    Placed { s with next := next', queue := Function.update s.queue q v }
      (Function.update l q (l q ++ [p])) (Function.update place p (.queue q)) := by
  have hfresh : ∀ q', p ∉ l q' := by
    intro q' hm
    rw [h.place_eq hm] at hhand
    cases hhand
  constructor
  · intro q'
    by_cases hq : q' = q
    · subst hq
      simpa using hchain
    · simp only [Function.update_of_ne hq]
      apply (h.chain q').congr
      intro b hb
      exact hnext b (h.disjoint hq hb) fun he => hfresh q' (he ▸ hb)
  · intro q'
    by_cases hq : q' = q
    · subst hq
      simpa using hrear
    · simpa [Function.update_of_ne hq] using h.rear q'
  · intro q'
    by_cases hq : q' = q
    · subst hq
      simp [hsize, h.size]
    · simpa [Function.update_of_ne hq] using h.size q'
  · intro q'
    by_cases hq : q' = q
    · subst hq
      rw [Function.update_self]
      exact List.Nodup.append (h.nodup q') (List.nodup_singleton p)
        (List.disjoint_singleton.mpr (hfresh q'))
    · simpa [Function.update_of_ne hq] using h.nodup q'
  · intro q' r
    by_cases hrp : r = p
    · subst hrp
      by_cases hq : q' = q
      · subst hq
        simp [hp]
      · have hq' : Place.queue q ≠ .queue q' := fun he => hq (Place.queue.inj he).symm
        simp [Function.update_of_ne hq, hfresh q', hq']
    · rw [Function.update_of_ne hrp]
      by_cases hq : q' = q
      · subst hq
        rw [Function.update_self, List.mem_append, List.mem_singleton, or_iff_left hrp]
        exact h.mem q' r
      · rw [Function.update_of_ne hq]
        exact h.mem q' r
  · intro i r
    show s.core[i]? = some (some r) ↔ _
    rw [h.core]
    by_cases hrp : r = p
    · subst hrp
      simp [hhand]
    · rw [Function.update_of_ne hrp]

theorem Placed.push (h : Placed s l place) (hp : p < s.made) (hhand : place p = .hand)
    (q : QName) :
    Placed (qPush q p s) (Function.update l q (l q ++ [p])) (Function.update place p (.queue q)) ∧
      Relinked s (qPush q p s) := by
  have hfresh : p ∉ l q := by
    intro hm
    rw [h.place_eq hm] at hhand
    cases hhand
  cases hrear : (s.queue q).rear with
  | none =>
    have hnil : l q = [] := by
      rw [h.rear q, List.getLast?_eq_none_iff] at hrear
      exact hrear
    have hrun : qPush q p s = { s with
        next := Function.update s.next p none
        queue := Function.update s.queue q ⟨some p, some p, (s.queue q).size + 1⟩ } := by
      simp [qPush, setNext, setQueue, hrear]
    rw [hrun]
    refine ⟨h.enter hp hhand _ _ ?_ rfl rfl fun b _ hb => Function.update_of_ne hb .., rfl⟩
    rw [hnil]
    exact ⟨rfl, Function.update_self ..⟩
  | some r =>
    have hlast : (l q).getLast? = some r := (h.rear q).symm.trans hrear
    have hrun : qPush q p s = { s with
        next := Function.update (Function.update s.next p none) r (some p)
        queue := Function.update s.queue q ⟨(s.queue q).front, some p, (s.queue q).size + 1⟩ } := by
      simp [qPush, setNext, setQueue, hrear]
    rw [hrun]
    refine ⟨h.enter hp hhand _ _ ?_ rfl rfl fun b hb hbp => ?_, rfl⟩
    · exact (h.chain q).snoc (h.nodup q) hfresh hlast
    · have hbr : b ≠ r := fun he => hb (he ▸ List.mem_of_getLast? hlast)
      rw [Function.update_of_ne hbr, Function.update_of_ne hbp]

private theorem Placed.leave (h : Placed s l place) (hp : p ∈ l q) (next' : Ptr → Option Ptr)
    (v : Queue) (hchain : Chain next' v.front ((l q).erase p))
    (hrear : v.rear = ((l q).erase p).getLast?) (hsize : v.size = (s.queue q).size - 1)
    (hnext : ∀ b, b ∉ l q → next' b = s.next b) :
    Placed { s with next := next', queue := Function.update s.queue q v }
      (Function.update l q ((l q).erase p)) (Function.update place p .hand) := by
  have hplace := h.place_eq hp
  constructor
  · intro q'
    by_cases hq : q' = q
    · subst hq
      simpa using hchain
    · simp only [Function.update_of_ne hq]
      exact (h.chain q').congr fun b hb => hnext b (h.disjoint hq hb)
  · intro q'
    by_cases hq : q' = q
    · subst hq
      simpa using hrear
    · simpa [Function.update_of_ne hq] using h.rear q'
  · intro q'
    by_cases hq : q' = q
    · subst hq
      have := List.length_erase_of_mem hp
      have := List.length_pos_of_mem hp
      simp only [Function.update_self]
      rw [hsize, h.size]
      omega
    · simpa [Function.update_of_ne hq] using h.size q'
  · intro q'
    by_cases hq : q' = q
    · subst hq
      simpa using (h.nodup q').erase p
    · simpa [Function.update_of_ne hq] using h.nodup q'
  · intro q' r
    by_cases hrp : r = p
    · subst hrp
      by_cases hq : q' = q
      · subst hq
        simp [(h.nodup q').not_mem_erase]
      · rw [Function.update_of_ne hq]
        simp [h.disjoint (Ne.symm hq) hp]
    · rw [Function.update_of_ne hrp]
      by_cases hq : q' = q
      · subst hq
        rw [Function.update_self, List.mem_erase_of_ne hrp]
        exact h.mem q' r
      · rw [Function.update_of_ne hq]
        exact h.mem q' r
  · intro i r
    show s.core[i]? = some (some r) ↔ _
    rw [h.core]
    by_cases hrp : r = p
    · subst hrp
      simp [hplace]
    · rw [Function.update_of_ne hrp]

theorem Placed.pop_nil (h : Placed s l place) (hq : l q = []) : qPop q s = (none, s) := by
  rw [qPop, h.front_eq_none hq]

theorem Placed.pop_cons (h : Placed s l place) (hq : l q = t :: ts) :
    ∃ s', qPop q s = (some t, s') ∧ Relinked s s' ∧
      Placed s' (Function.update l q ts) (Function.update place t .hand) := by
  have hchain := h.chain q
  have hnd := h.nodup q
  rw [hq] at hchain hnd
  have htts : t ∉ ts := (List.nodup_cons.mp hnd).1
  have hrun : qPop q s = (some t, { s with
      next := Function.update s.next t none
      queue := Function.update s.queue q
        ⟨s.next t, if s.next t = none then none else (s.queue q).rear, (s.queue q).size - 1⟩ }) := by
    rw [qPop, hchain.1]
    rfl
  refine ⟨_, hrun, rfl, ?_⟩
  have hlist : (l q).erase t = ts := by
    rw [hq, List.erase_cons_head]
  rw [← hlist]
  apply h.leave (hq ▸ List.mem_cons_self) _ _ _ _ rfl
  · intro b hb
    have hbt : b ≠ t := by
      intro he
      rw [hq, he] at hb
      exact hb List.mem_cons_self
    exact Function.update_of_ne hbt ..
  · rw [hlist]
    apply hchain.2.congr
    intro b hb
    have hbt : b ≠ t := fun he => htts (he ▸ hb)
    exact Function.update_of_ne hbt ..
  · rw [hlist, h.rear q, hq]
    cases ts with
    | nil =>
      have hnone : s.next t = none := hchain.2
      rw [hnone, if_pos rfl]
      rfl
    | cons u us =>
      have hsome : s.next t = some u := hchain.2.1
      rw [hsome, if_neg (Option.some_ne_none u), List.getLast?_cons_cons]

end Update

section Selection

variable {key : Ptr → Int} {ts pre post rest : List Ptr} {b : Ptr} {next : Ptr → Option Ptr}

/-- Between `pre` and `post` stands the first thread with the smallest key. -/
structure FirstMin (key : Ptr → Int) (ts pre : List Ptr) (b : Ptr) (post : List Ptr) : Prop where
  eq : ts = pre ++ b :: post
  before : ∀ x ∈ pre, key b < key x
  after : ∀ x ∈ post, key b ≤ key x

theorem FirstMin.mem (h : FirstMin key ts pre b post) : b ∈ ts := by
  rw [h.eq]
  exact List.mem_append_right pre List.mem_cons_self

theorem FirstMin.le (h : FirstMin key ts pre b post) : ∀ x ∈ ts, key b ≤ key x := by
  intro x hx
  rw [h.eq] at hx
  cases List.mem_append.mp hx with
  | inl hpre => exact Int.le_of_lt (h.before x hpre)
  | inr hrest =>
    cases List.mem_cons.mp hrest with
    | inl heq => rw [heq]
    | inr hpost => exact h.after x hpost

theorem FirstMin.erase_eq (h : FirstMin key ts pre b post) : ts.erase b = pre ++ post := by
  have hnot : b ∉ pre := fun hb => Int.lt_irrefl _ (h.before b hb)
  rw [h.eq, List.erase_append_right _ hnot, List.erase_cons_head]

theorem FirstMin.cons (h : FirstMin key ts pre b post) (hp : key b < key p) :
    FirstMin key (p :: ts) (p :: pre) b post := by
  refine ⟨by rw [h.eq]; rfl, ?_, h.after⟩
  intro x hx
  cases List.mem_cons.mp hx with
  | inl heq => exact heq ▸ hp
  | inr hpre => exact h.before x hpre

theorem exists_firstMin (key : Ptr → Int) (hne : ts ≠ []) :
    ∃ pre b post, FirstMin key ts pre b post := by
  induction ts with
  | nil => exact absurd rfl hne
  | cons p ts ih =>
    by_cases hmin : ∀ x ∈ ts, key p ≤ key x
    · exact ⟨[], p, ts, rfl, fun _ hx => absurd hx List.not_mem_nil, hmin⟩
    · have hne' : ts ≠ [] := fun hnil => hmin fun x hx => by simp [hnil] at hx
      obtain ⟨pre, b, post, h⟩ := ih hne'
      have hlt : key b < key p := by
        by_contra hge
        exact hmin fun x hx => Int.le_trans (Int.not_lt.mp hge) (h.le x hx)
      exact ⟨p :: pre, b, post, h.cons hlt⟩

private theorem scanMin_run {fuel : Nat} {cur prev : Option Ptr} {best : Int} {bestPrev : Option Ptr}
    (hchain : Chain next cur rest) (hfuel : rest.length ≤ fuel) :
    ((∀ x ∈ rest, best ≤ key x) →
        scanMin key next fuel cur prev best bestPrev = some bestPrev) ∧
      ∀ pre b post, FirstMin key rest pre b post → key b < best →
        scanMin key next fuel cur prev best bestPrev = some (pre.getLast?.or prev) := by
  induction rest generalizing fuel cur prev best bestPrev with
  | nil =>
    rw [show cur = none from hchain]
    refine ⟨fun _ => by cases fuel <;> rfl, fun pre b post h => ?_⟩
    exact absurd h.mem List.not_mem_nil
  | cons p rest ih =>
    obtain ⟨hcur, hrest⟩ := hchain
    subst hcur
    cases fuel with
    | zero => simp at hfuel
    | succ fuel =>
      have hlen : rest.length ≤ fuel := by simpa using hfuel
      rw [scanMin]
      constructor
      · intro hall
        rw [if_neg (Int.not_lt.mpr (hall p List.mem_cons_self))]
        exact (ih hrest hlen).1 fun x hx => hall x (List.mem_cons_of_mem p hx)
      · intro pre b post h hb
        cases pre with
        | nil =>
          obtain ⟨rfl, rfl⟩ := List.cons.inj h.eq
          rw [if_pos hb]
          exact (ih hrest hlen).1 h.after
        | cons c pre =>
          obtain ⟨rfl, hrest'⟩ := List.cons.inj h.eq
          have h' : FirstMin key rest pre b post :=
            ⟨hrest', fun x hx => h.before x (List.mem_cons_of_mem p hx), h.after⟩
          have hlast : ((p :: pre).getLast?.or prev) = pre.getLast?.or (some p) := by
            rw [List.getLast?_cons]
            cases pre.getLast? <;> rfl
          rw [hlast]
          split
          · exact (ih hrest hlen).2 pre b post h' (h.before p List.mem_cons_self)
          · exact (ih hrest hlen).2 pre b post h' hb

theorem scanMin_first {front : Option Ptr} (hchain : Chain next front ts)
    (hfit : ∀ x ∈ ts, key x ≤ INT_MAX) (h : FirstMin key ts pre b post) :
    scanMin key next ts.length front none INT_MAX none = some pre.getLast? := by
  by_cases hb : key b < INT_MAX
  · rw [(scanMin_run hchain (Nat.le_refl _)).2 pre b post h hb, Option.or_none]
  · have hall : ∀ x ∈ ts, INT_MAX ≤ key x := fun x hx =>
      Int.le_trans (Int.not_lt.mp hb) (h.le x hx)
    rw [(scanMin_run hchain (Nat.le_refl _)).1 hall]
    cases pre with
    | nil => rfl
    | cons c pre =>
      have hc := hfit c (by rw [h.eq]; exact List.mem_cons_self)
      have := h.before c List.mem_cons_self
      omega

theorem scanMin_spec {ts : List Ptr} {front : Option Ptr} (hchain : Chain next front ts)
    (hne : ts ≠ []) :
    ∃ bpre b bpost, ts = bpre ++ b :: bpost ∧
      scanMin key next ts.length front none INT_MAX none = some bpre.getLast? ∧
      ((∀ x ∈ ts, key x ≤ INT_MAX) → ∀ x ∈ ts, key b ≤ key x) := by
  obtain ⟨pre, b, post, h⟩ := exists_firstMin key hne
  by_cases hb : key b < INT_MAX
  · refine ⟨pre, b, post, h.eq, ?_, fun _ => h.le⟩
    rw [(scanMin_run hchain (Nat.le_refl _)).2 pre b post h hb, Option.or_none]
  · have hall : ∀ x ∈ ts, INT_MAX ≤ key x := fun x hx =>
      Int.le_trans (Int.not_lt.mp hb) (h.le x hx)
    cases ts with
    | nil => exact absurd rfl hne
    | cons c rest =>
      refine ⟨[], c, rest, rfl, (scanMin_run hchain (Nat.le_refl _)).1 hall, fun hle x hx => ?_⟩
      exact Int.le_trans (hle c List.mem_cons_self) (hall x hx)

end Selection

section Remove

variable {pre post : List Ptr}

private theorem Placed.removeAfter (h : Placed s l place) (hq : l q = pre ++ t :: post) :
    ∃ s', qRemoveAfter q pre.getLast? s = (some t, s') ∧ Relinked s s' ∧
      Placed s' (Function.update l q ((l q).erase t)) (Function.update place t .hand) := by
  cases hlast : pre.getLast? with
  | none =>
    rw [List.getLast?_eq_none_iff] at hlast
    subst hlast
    have hq' : l q = t :: post := hq
    rw [qRemoveAfter, hq', List.erase_cons_head]
    exact h.pop_cons hq'
  | some r =>
    obtain ⟨pre, rfl⟩ := List.getLast?_eq_some_iff.mp hlast
    rw [List.append_assoc, List.singleton_append] at hq
    have hchain := h.chain q
    have hnd := h.nodup q
    rw [hq] at hchain hnd
    have hnext : s.next r = some t := hchain.after.1
    have herase : (l q).erase t = pre ++ r :: post := by
      have hnot : t ∉ pre ++ [r] := by
        rw [← List.singleton_append, ← List.append_assoc] at hnd
        exact fun hm => List.disjoint_of_nodup_append hnd hm List.mem_cons_self
      rw [hq, ← List.singleton_append, ← List.append_assoc, List.erase_append_right _ hnot,
        List.erase_cons_head, List.append_assoc, List.singleton_append]
    have hrun : qRemoveAfter q (some r) s = (some t, { s with
        next := Function.update (Function.update s.next r (s.next t)) t none
        queue := Function.update s.queue q ⟨(s.queue q).front,
          if some t = (s.queue q).rear then some r else (s.queue q).rear,
          (s.queue q).size - 1⟩ }) := by
      simp only [qRemoveAfter, hnext]
      rfl
    refine ⟨_, hrun, rfl, ?_⟩
    have htmem : t ∈ l q := by
      rw [hq]
      simp
    apply h.leave htmem _ _ _ _ rfl
    · intro b hb
      rw [hq] at hb
      have hbt : b ≠ t := fun he => hb (by simp [he])
      have hbr : b ≠ r := fun he => hb (by simp [he])
      rw [Function.update_of_ne hbt, Function.update_of_ne hbr]
    · rw [herase]
      exact hchain.removeAfter hnd
    · rw [herase, h.rear q, hq]
      cases post with
      | nil =>
        have hlast : (pre ++ [r, t]).getLast? = some t := by simp
        rw [hlast, if_pos rfl]
        simp
      | cons c post =>
        have htc : some t ≠ (pre ++ r :: t :: c :: post).getLast? := by
          rw [List.getLast?_append_cons, List.getLast?_cons_cons, List.getLast?_cons_cons]
          intro heq
          have hmem : t ∈ c :: post := List.mem_of_getLast? heq.symm
          have htail := (List.nodup_append.mp hnd).2.1
          exact (List.nodup_cons.mp (List.nodup_cons.mp htail).2).1 hmem
        rw [if_neg htc]
        simp only [List.getLast?_append_cons, List.getLast?_cons_cons]

/-- A selection pop takes a thread with the smallest key. -/
theorem Placed.popMin (h : Placed s l place) (hq : l q ≠ []) (key : Thread → Int) :
    ∃ b s', qPopMin key q s = some (some b, s') ∧ b ∈ l q ∧ Relinked s s' ∧
      Placed s' (Function.update l q ((l q).erase b)) (Function.update place b .hand) ∧
      ((∀ x ∈ l q, key (s.thread x) ≤ INT_MAX) →
        ∀ x ∈ l q, key (s.thread b) ≤ key (s.thread x)) := by
  have hsize : (s.queue q).size ≠ 0 := by
    rw [h.size q]
    simpa using hq
  have htoNat : (s.queue q).size.toNat = (l q).length := by
    rw [h.size q, Int.toNat_natCast]
  obtain ⟨pre, b, post, hlist, hscan, hmin⟩ :=
    scanMin_spec (h.chain q) hq
  obtain ⟨s', hrun, hrel, hplaced⟩ := h.removeAfter hlist
  have hb : b ∈ l q := by
    rw [hlist]
    simp
  refine ⟨b, s', ?_, hb, hrel, hplaced, hmin⟩
  rw [qPopMin, if_neg hsize, htoNat, hscan]
  show some (qRemoveAfter q pre.getLast? s) = _
  rw [hrun]

/-- Where the keys are ints, it is the first of them. -/
theorem Placed.popFirst (h : Placed s l place) {key : Thread → Int} {b : Ptr}
    (hfit : ∀ x ∈ l q, key (s.thread x) ≤ INT_MAX)
    (hmin : FirstMin (fun p => key (s.thread p)) (l q) pre b post) :
    ∃ s', qPopMin key q s = some (some b, s') ∧ Relinked s s' ∧
      Placed s' (Function.update l q (pre ++ post)) (Function.update place b .hand) := by
  have hsize : (s.queue q).size ≠ 0 := by
    rw [h.size q, hmin.eq]
    simp
    omega
  have htoNat : (s.queue q).size.toNat = (l q).length := by
    rw [h.size q, Int.toNat_natCast]
  obtain ⟨s', hrun, hrel, hplaced⟩ := h.removeAfter hmin.eq
  rw [hmin.erase_eq] at hplaced
  refine ⟨s', ?_, hrel, hplaced⟩
  rw [qPopMin, if_neg hsize, htoNat, scanMin_first (h.chain q) hfit hmin]
  show some (qRemoveAfter q pre.getLast? s) = _
  rw [hrun]

theorem Placed.popMin_nil (h : Placed s l place) (hq : l q = []) (key : Thread → Int) :
    qPopMin key q s = some (none, s) := by
  have hsize : (s.queue q).size = 0 := by
    rw [h.size q, hq]
    rfl
  rw [qPopMin, if_pos hsize]

end Remove

end CseOs.TickSim
