import CseOs.MultiLevel.Exact
import Mathlib.Data.List.Perm.Subperm

/-!
# The slots of the queues

Every index that `scheduleMain` and the policies use on the arrays of the queues, against the size the
arrays are allocated with.
-/

namespace CseOs.MultiLevel

open Framework State

variable {procArray : List Process} {memory : QueueTypes → Nat → Option Ptr} {n t i k : Nat}
  {s : State} {q : QueueTypes} {p : Ptr} {ps : List Ptr}

/-- The policy uses slot `i`, and closes its gap with `k` moves if the process finishes. -/
def executeSlots (done : Int → Bool) (q : QueueTypes) (i k : Nat) (s : State) : List Int :=
  (i : Int) :: match execute done q i 0 s with
    | some (true, _) => shiftSlots k i
    | _ => []

/-- A scan of the entries of a queue. -/
def scanSlots (q : QueueTypes) (s : State) : List Int := (List.range (s.idx q)).map fun i : Nat => (i : Int)

def rrSlots (s : State) : List Int :=
  let turn := s.counter % s.idx .ROUNDROBIN
  executeSlots (fun r => r ≤ 0) .ROUNDROBIN turn (s.idx .ROUNDROBIN - 1 - turn) s

/-- An index that was never set stands as -1. -/
def srtrfSlots (s : State) : List Int :=
  scanSlots .STCF s ++
    match scanBest (fun r srt => r ≤ srt) (fun p => (s.proc p).remainingTime) (s.queue .STCF)
        (s.idx .STCF) 0 INT_MAX none with
    | some (some pid) => executeSlots (fun r => r == 0) .STCF pid (s.idx .STCF - pid) s
    | _ => [-1]

/-- Slot 0 is set to NULL before the gap is closed. -/
def fifoSlots (s : State) : List Int := executeSlots (fun r => r == 0) .FIFO 0 (s.idx .FIFO - 1) s

def sjfRunSlots (task : Nat) (s : State) : List Int :=
  executeSlots (fun r => r == 0) .SJF task (s.idx .SJF - 1 - task) s

/-- `curr_task` is -1 as long as it names no slot. -/
def sjfSlots (s : State) : List Int :=
  if s.idx .SJF = 0 then []
  else match s.curr_task with
    | some task => sjfRunSlots task s
    | none =>
      scanSlots .SJF s ++
        match scanBest (fun r shortest => r < shortest) (fun p => (s.proc p).remainingTime) (s.queue .SJF)
            (s.idx .SJF) 0 INT_MAX none with
        | some (some task) => sjfRunSlots task s
        | _ => [-1]

/-- The slot that a process which arrives now is put in. -/
def arriveSlots (t : Nat) (p : Ptr) (s : State) : List Int :=
  if (s.proc p).arrivalTime = t then
    if (s.proc p).priority = 1 then [(s.idx .ROUNDROBIN : Int)]
    else if (s.proc p).priority = 2 then [(s.idx .STCF : Int)]
    else if (s.proc p).priority = 3 then [(s.idx .FIFO : Int)]
    else if (s.proc p).priority = 4 then [(s.idx .SJF : Int)]
    else []
  else []

def arriveAllSlots (t : Nat) : List Ptr → State → List Int
  | [], _ => []
  | p :: ps, s => arriveSlots t p s ++ ((arrive t p s).map (arriveAllSlots t ps)).getD []

def runHighestSlots (s : State) : List Int :=
  if s.idx .ROUNDROBIN ≠ 0 then rrSlots s
  else if s.idx .STCF ≠ 0 then srtrfSlots s
  else if s.idx .FIFO ≠ 0 then fifoSlots s
  else if s.idx .SJF ≠ 0 then sjfSlots s
  else []

/-- All slots that a round of the loop uses. -/
def tickSlots (procArraySize t : Nat) (s : State) : List Int :=
  arriveAllSlots t (List.range procArraySize) s ++
    ((arriveAll t (List.range procArraySize) s).map runHighestSlots).getD []

/-- The slots are within arrays of `n` entries. -/
def InBounds (n : Nat) (slots : List Int) : Prop := ∀ i ∈ slots, 0 ≤ i ∧ i < n

private theorem inBounds_append {a b : List Int} : InBounds n (a ++ b) ↔ InBounds n a ∧ InBounds n b :=
  List.forall_mem_append

/-- All processes wait in the queue of `srtrf`, and one of them is about to finish. -/
def Overruns (n t : Nat) (s : State) : Prop :=
  (∀ p < n, Waiting n t s p ∧ (s.proc p).priority = QueueTypes.STCF.priority) ∧
    ∃ p < n, (s.proc p).remainingTime = 1

private theorem scanSlots_inBounds (h : s.idx q ≤ n) : InBounds n (scanSlots q s) := by
  intro x hx
  obtain ⟨i, hi, heq⟩ := List.mem_map.mp hx
  have hlt := List.mem_range.mp hi
  omega

private theorem Loaded.executeSlots (h : Loaded q ps s) (hi : i < ps.length) (done : Int → Bool)
    (hdone : ∀ r, 0 ≤ r → done r = decide (r = 0)) :
    executeSlots done q i k s =
      (i : Int) :: if (s.proc ps[i]).remainingTime = 1 then shiftSlots k i else [] := by
  have hrun := h.execute (t := 0) hi done hdone
  rw [MultiLevel.executeSlots, hrun]
  by_cases hr : (s.proc ps[i]).remainingTime = 1
  · rw [decide_eq_true hr, if_pos hr]
  · rw [decide_eq_false hr, if_neg hr]

theorem Loaded.executeSlots_inBounds (h : Loaded q ps s) (hi : i < ps.length) (hn : ps.length ≤ n)
    (hk : i + k + 1 ≤ ps.length) (done : Int → Bool) (hdone : ∀ r, 0 ≤ r → done r = decide (r = 0)) :
    InBounds n (MultiLevel.executeSlots done q i k s) := by
  rw [h.executeSlots hi done hdone]
  intro x hx
  rw [List.mem_cons] at hx
  cases hx with
  | inl hx => omega
  | inr hx =>
    split at hx
    · have hrange := mem_shiftSlots hx
      omega
    · cases hx

private theorem rrSlots_inBounds (h : Loaded .ROUNDROBIN ps s) (hn : ps.length ≤ n) : InBounds n (rrSlots s) := by
  have hi : s.counter % s.idx .ROUNDROBIN < ps.length := by
    rw [h.idx]
    exact Nat.mod_lt _ h.length_pos
  apply h.executeSlots_inBounds hi hn
  · rw [h.idx] at hi ⊢
    omega
  · intro r hr
    apply decide_eq_decide.mpr
    omega

private theorem fifoSlots_inBounds (h : Loaded .FIFO ps s) (hn : ps.length ≤ n) : InBounds n (fifoSlots s) := by
  have hpos := h.length_pos
  apply h.executeSlots_inBounds hpos hn
  · rw [h.idx]
    omega
  · exact fun _ _ => rfl

private theorem sjfRunSlots_inBounds (h : Loaded .SJF ps s) (hi : i < ps.length) (hn : ps.length ≤ n) :
    InBounds n (sjfRunSlots i s) := by
  apply h.executeSlots_inBounds hi hn
  · rw [h.idx]
    omega
  · exact fun _ _ => rfl

theorem sjfSlots_inBounds (h : Loaded .SJF ps s) (hcursor : Cursor s) (hn : ps.length ≤ n) :
    InBounds n (sjfSlots s) ↔ s.curr_task ≠ none ∨ ∃ p ∈ ps, (s.proc p).remainingTime < INT_MAX := by
  have hscan : InBounds n (scanSlots .SJF s) := scanSlots_inBounds (h.idx ▸ hn)
  rw [sjfSlots, if_neg h.idx_ne]
  cases htask : s.curr_task with
  | some task =>
    have hlt : task < ps.length := h.idx ▸ hcursor task htask
    exact iff_of_true (sjfRunSlots_inBounds h hlt hn) (.inl (Option.some_ne_none task))
  | none =>
    obtain ⟨found, hrun, hlt, hnone⟩ := h.scan fun r shortest => r < shortest
    rw [or_iff_right (fun hne => hne rfl)]
    show InBounds n (scanSlots .SJF s ++ match scanBest _ _ _ _ _ _ _ with
      | some (some task) => sjfRunSlots task s
      | _ => [-1]) ↔ _
    rw [hrun, inBounds_append]
    cases found with
    | some task =>
      apply iff_of_true ⟨hscan, sjfRunSlots_inBounds h (hlt task rfl) hn⟩
      by_contra hlong
      have hempty := hnone.mpr fun p hp => decide_eq_false fun hshort => hlong ⟨p, hp, hshort⟩
      cases hempty
    | none =>
      apply iff_of_false
      · intro hin
        have hbad := hin.2 (-1) List.mem_cons_self
        omega
      · intro hshort
        obtain ⟨p, hp, hlt⟩ := hshort
        exact of_decide_eq_false (hnone.mp rfl p hp) hlt

theorem srtrfSlots_inBounds (h : Loaded .STCF ps s) (hn : ps.length ≤ n) :
    InBounds n (srtrfSlots s) ↔ ¬ (ps.length = n ∧ ∃ p ∈ ps, (s.proc p).remainingTime = 1) := by
  have hscan : InBounds n (scanSlots .STCF s) := scanSlots_inBounds (h.idx ▸ hn)
  obtain ⟨found, hrun, hlt, hnone⟩ := h.scan fun r srt => r ≤ srt
  rw [srtrfSlots, hrun, inBounds_append]
  cases found with
  | none =>
    have hp := List.getElem_mem h.length_pos
    exact absurd (h.bounded _ hp) (of_decide_eq_false (hnone.mp rfl _ hp))
  | some pid =>
    have hpid := hlt pid rfl
    have hidx : 0 + s.idx .STCF = ps.length := by rw [h.idx, Nat.zero_add]
    obtain ⟨_, hleast⟩ := scanBest_least h.holds hidx (fun j hj => by cases hj)
      (fun j _ hj => absurd hj (Nat.not_lt_zero j)) hrun
    have hone : (∃ p ∈ ps, (s.proc p).remainingTime = 1) ↔ (s.proc ps[pid]).remainingTime = 1 := by
      constructor
      · intro hex
        obtain ⟨p, hp, hr⟩ := hex
        obtain ⟨j, hj, heq⟩ := List.getElem_of_mem hp
        have hle := hleast j hj
        have hpos := h.remains _ (List.getElem_mem hpid)
        rw [heq] at hle
        omega
      · exact fun hr => ⟨_, List.getElem_mem hpid, hr⟩
    rw [and_iff_right hscan, hone]
    show InBounds n (MultiLevel.executeSlots (fun r => r == 0) .STCF pid (s.idx .STCF - pid) s) ↔ _
    rw [h.executeSlots hpid (fun r => r == 0) fun _ _ => rfl]
    by_cases hr : (s.proc ps[pid]).remainingTime = 1
    · rw [if_pos hr, and_iff_left hr]
      constructor
      · intro hin hfull
        have hk : 0 < s.idx .STCF - pid := by
          rw [h.idx]
          omega
        have hlast := hin _ (List.mem_cons_of_mem _ (last_mem_shiftSlots hk))
        rw [h.idx] at hlast
        omega
      · intro hroom x hx
        rw [List.mem_cons] at hx
        cases hx with
        | inl hx => omega
        | inr hx =>
          have hrange := mem_shiftSlots hx
          rw [h.idx] at hrange
          omega
    · rw [if_neg hr]
      apply iff_of_true _ fun hfin => hr hfin.2
      intro x hx
      rw [List.mem_singleton.mp hx]
      omega

private theorem length_le_of_lt {l : List Ptr} (hnd : l.Nodup) (h : ∀ p ∈ l, p < n) : l.length ≤ n := by
  have hsub : l ⊆ List.range n := fun p hp => List.mem_range.mpr (h p hp)
  have hlen := (hnd.subperm hsub).length_le
  rwa [List.length_range] at hlen

private theorem Queued.idx_lt {member : Ptr → Prop} (h : Queued member s) (hmem : ∀ r, member r → r < n)
    (hp : ¬ member p) (hn : p < n) (q : QueueTypes) : s.idx q < n := by
  obtain ⟨ps, _, hidx, hnd, hps⟩ := h q
  have hcons : (p :: ps).Nodup := List.nodup_cons.mpr ⟨fun hin => hp ((hps p).mp hin).1, hnd⟩
  have hlen := length_le_of_lt hcons (n := n) fun r hr => by
    cases List.mem_cons.mp hr with
    | inl heq => exact heq ▸ hn
    | inr hr => exact hmem r ((hps r).mp hr).1
  rw [hidx]
  exact hlen

private theorem arriveSlots_eq (hq : (s.proc p).priority = q.priority) :
    arriveSlots t p s = if (s.proc p).arrivalTime = t then [(s.idx q : Int)] else [] := by
  rw [arriveSlots, hq]
  by_cases ht : (s.proc p).arrivalTime = t
  · rw [if_pos ht, if_pos ht]
    cases q <;> rfl
  · rw [if_neg ht, if_neg ht]

theorem arriveAllSlots_inBounds {member : Ptr → Prop} (h : Queued member s) (hnd : ps.Nodup)
    (hmem : ∀ r, member r → r < n) (hps : ∀ p ∈ ps, p < n)
    (hnew : ∀ p ∈ ps, (s.proc p).arrivalTime = t → ¬ member p)
    (hlevel : ∀ p ∈ ps, ∃ q : QueueTypes, (s.proc p).priority = q.priority) :
    InBounds n (arriveAllSlots t ps s) := by
  induction ps generalizing s member with
  | nil => exact fun x hx => absurd hx List.not_mem_nil
  | cons p ps ih =>
    obtain ⟨hpps, hnd⟩ := List.nodup_cons.mp hnd
    obtain ⟨q, hq⟩ := hlevel p List.mem_cons_self
    have hpn := hps p List.mem_cons_self
    rw [arriveAllSlots, inBounds_append, arriveSlots_eq hq, arrive_eq hq, Option.map_some, Option.getD_some]
    by_cases ht : (s.proc p).arrivalTime = t
    · rw [if_pos ht, if_pos ht]
      have hp := hnew p List.mem_cons_self ht
      have hlt := h.idx_lt hmem hp hpn q
      constructor
      · intro x hx
        rw [List.mem_singleton.mp hx]
        omega
      · apply ih (h.enqueue hp hq) hnd
        · intro r hr
          cases hr with
          | inl hr => exact hmem r hr
          | inr hr => exact hr ▸ hpn
        · exact fun r hr => hps r (List.mem_cons_of_mem p hr)
        · intro r hr hrt hm
          cases hm with
          | inl hm => exact hnew r (List.mem_cons_of_mem p hr) hrt hm
          | inr heq => exact hpps (heq ▸ hr)
        · exact fun r hr => hlevel r (List.mem_cons_of_mem p hr)
    · rw [if_neg ht, if_neg ht]
      constructor
      · exact fun x hx => absurd hx List.not_mem_nil
      · exact ih h hnd hmem (fun r hr => hps r (List.mem_cons_of_mem p hr))
          (fun r hr => hnew r (List.mem_cons_of_mem p hr)) fun r hr => hlevel r (List.mem_cons_of_mem p hr)

def policySlots : QueueTypes → State → List Int
  | .ROUNDROBIN => rrSlots
  | .STCF => srtrfSlots
  | .FIFO => fifoSlots
  | .SJF => sjfSlots

private theorem runHighestSlots_eq (hq : s.idx q ≠ 0)
    (habove : ∀ q' : QueueTypes, q'.priority < q.priority → s.idx q' = 0) :
    runHighestSlots s = policySlots q s := by
  have hrr := habove .ROUNDROBIN
  have hstcf := habove .STCF
  have hfifo := habove .FIFO
  cases q with
  | ROUNDROBIN => rw [runHighestSlots, if_pos hq]; rfl
  | STCF => rw [runHighestSlots, hrr (by decide), if_neg (fun h => h rfl), if_pos hq]; rfl
  | FIFO =>
    rw [runHighestSlots, hrr (by decide), hstcf (by decide), if_neg (fun h => h rfl),
      if_neg (fun h => h rfl), if_pos hq]
    rfl
  | SJF =>
    rw [runHighestSlots, hrr (by decide), hstcf (by decide), hfifo (by decide), if_neg (fun h => h rfl),
      if_neg (fun h => h rfl), if_neg (fun h => h rfl), if_pos hq]
    rfl

theorem overruns_iff (hmem : ∀ p, p ∈ ps ↔ Live n (t + 1) s p ∧ (s.proc p).priority = QueueTypes.STCF.priority)
    (hnd : ps.Nodup) :
    Overruns n t s ↔ ps.length = n ∧ ∃ p ∈ ps, (s.proc p).remainingTime = 1 := by
  have hlt : ∀ p ∈ ps, p < n := fun p hp => ((hmem p).mp hp).1.1
  have hsub : ps ⊆ List.range n := fun p hp => List.mem_range.mpr (hlt p hp)
  constructor
  · intro hover
    obtain ⟨hall, p, hp, hr⟩ := hover
    have hin : ∀ p < n, p ∈ ps := fun p hp =>
      (hmem p).mpr ⟨waiting_iff.mp (hall p hp).1, (hall p hp).2⟩
    have hge := (List.nodup_range.subperm fun p hp => hin p (List.mem_range.mp hp)).length_le
    rw [List.length_range] at hge
    exact ⟨Nat.le_antisymm (length_le_of_lt hnd hlt) hge, p, hin p hp, hr⟩
  · intro hfull
    obtain ⟨hlen, p, hp, hr⟩ := hfull
    have hperm := (hnd.subperm hsub).perm_of_length_le (by rw [List.length_range, hlen])
    refine ⟨fun r hr => ?_, p, hlt p hp, hr⟩
    have hin := (hmem r).mp (hperm.mem_iff.mpr (List.mem_range.mpr hr))
    exact ⟨waiting_iff.mpr hin.1, hin.2⟩

theorem Exact.tickSlots_inBounds (hwf : WellFormed procArray) (h : Exact procArray t s) :
    InBounds procArray.length (tickSlots procArray.length t s) ↔
      ¬ Overruns procArray.length t s ∧ ¬ Stuck procArray.length t s := by
  obtain ⟨a, harrive, hgrown, ha⟩ := h.admitted hwf
  have hslots := arriveAllSlots_inBounds h.queued List.nodup_range (fun r hr => hr.1)
    (fun p hp => List.mem_range.mp hp) (Exact.arrival_new procArray s) (h.levels hwf)
  have hover : Overruns procArray.length t s ↔ Overruns procArray.length t a := by
    rw [hgrown.frame]
    exact Iff.rfl
  have hstuck : Stuck procArray.length t s ↔ Stuck procArray.length t a := by
    rw [hgrown.frame]
    exact Iff.rfl
  rw [tickSlots, inBounds_append, and_iff_right hslots, harrive, Option.map_some, Option.getD_some, hover,
    hstuck]
  cases highest_cases a.idx with
  | inl hzero =>
    have hnone : ∀ p, ¬ Waiting procArray.length t a p := by
      intro p hp
      obtain ⟨q, _, hq⟩ := ha.level hwf (waiting_iff.mp hp)
      exact hq (hzero q)
    apply iff_of_true
    · simp [runHighestSlots, hzero, InBounds]
    · constructor
      · intro hover
        obtain ⟨hall, p, hp, _⟩ := hover
        exact hnone p (hall p hp).1
      · intro hstuck
        obtain ⟨_, ⟨p, hp⟩, _⟩ := hstuck
        exact hnone p hp
  | inr hsome =>
    obtain ⟨q, hq, habove⟩ := hsome
    obtain ⟨ps, hloaded, hmem⟩ := ha.loaded hwf hq
    have hlen : ps.length ≤ procArray.length :=
      length_le_of_lt hloaded.nodup fun p hp => ((hmem p).mp hp).1.1
    obtain ⟨r, hr⟩ := List.exists_mem_of_ne_nil ps hloaded.ne
    obtain ⟨hlive, hlevel⟩ := (hmem r).mp hr
    have hstcf : Overruns procArray.length t a → q = .STCF := fun hover =>
      QueueTypes.priority_inj (hlevel.symm.trans (hover.1 r hlive.1).2)
    have hsjf : Stuck procArray.length t a → q = .SJF := fun hstuck =>
      QueueTypes.priority_inj (hlevel.symm.trans (hstuck.2.2 r (waiting_iff.mpr hlive)).1)
    rw [runHighestSlots_eq hq habove]
    cases q with
    | ROUNDROBIN =>
      exact iff_of_true (rrSlots_inBounds hloaded hlen)
        ⟨fun hover => absurd (hstcf hover) (by decide), fun hstuck => absurd (hsjf hstuck) (by decide)⟩
    | STCF =>
      rw [and_iff_left fun hstuck => absurd (hsjf hstuck) (by decide), overruns_iff hmem hloaded.nodup]
      exact srtrfSlots_inBounds hloaded hlen
    | FIFO =>
      exact iff_of_true (fifoSlots_inBounds hloaded hlen)
        ⟨fun hover => absurd (hstcf hover) (by decide), fun hstuck => absurd (hsjf hstuck) (by decide)⟩
    | SJF =>
      rw [and_iff_right fun hover => absurd (hstcf hover) (by decide), ha.stuck_iff hwf habove hloaded hmem]
      exact sjfSlots_inBounds hloaded ha.cursor hlen

theorem exact_of_stateAt (hwf : WellFormed procArray) (hs : stateAt procArray memory t = some s) :
    Exact procArray t s := by
  induction t generalizing s with
  | zero =>
    cases hs
    exact exact_initial hwf memory
  | succ t ih =>
    obtain ⟨s₀, hs₀, htick⟩ := Option.bind_eq_some_iff.mp hs
    have h₀ := ih hs₀
    by_cases hstuck : Stuck procArray.length t s₀
    · rw [(h₀.tick_spec hwf).1 hstuck] at htick
      cases htick
    · obtain ⟨s', hrun, _, hexact⟩ := (h₀.tick_spec hwf).2 hstuck
      cases hrun.symm.trans htick
      exact hexact

/-- In every tick of the run the slots are within the arrays. -/
def QueuesInBounds (procArray : List Process) (memory : QueueTypes → Nat → Option Ptr)
    (maxTimesteps : Nat) : Prop :=
  ∀ t < maxTimesteps, ∀ s, stateAt procArray memory t = some s →
    InBounds procArray.length (tickSlots procArray.length t s)

/-- The queues are left exactly if `srtrf` closes a gap in a full array, or `sjf` finds no process. -/
theorem scheduleMain_inBounds_iff (hwf : WellFormed procArray)
    (memory : QueueTypes → Nat → Option Ptr) (maxTimesteps : Nat) :
    QueuesInBounds procArray memory maxTimesteps ↔
      ∀ t < maxTimesteps, ∀ s, stateAt procArray memory t = some s →
        ¬ Overruns procArray.length t s ∧ ¬ Stuck procArray.length t s := by
  apply forall₂_congr
  intro t _
  apply forall₂_congr
  intro s hs
  exact (exact_of_stateAt hwf hs).tickSlots_inBounds hwf

theorem scheduleMain_inBounds_iff_two :
    QueuesInBounds [⟨2, 0, 0, 2⟩, ⟨1, 1, 0, 1⟩] (fun _ _ => none) 3 ↔
      ∀ t < 3, ∀ s, stateAt [⟨2, 0, 0, 2⟩, ⟨1, 1, 0, 1⟩] (fun _ _ => none) t = some s →
        ¬ Overruns 2 t s ∧ ¬ Stuck 2 t s :=
  scheduleMain_inBounds_iff ⟨by decide, by decide, by decide⟩ _ 3

/-- A single process of level 2 finishes: the slot behind the only one is read. -/
theorem scheduleMain_out_of_bounds :
    WellFormed [⟨1, 0, 0, 2⟩] ∧ ¬ QueuesInBounds [⟨1, 0, 0, 2⟩] (fun _ _ => none) 1 := by
  refine ⟨⟨by decide, by decide, by decide⟩, fun h => ?_⟩
  have hslots := h 0 Nat.zero_lt_one _ rfl
  have hread : (1 : Int) ∈ tickSlots 1 0 (initial [⟨1, 0, 0, 2⟩] fun _ _ => none) := by decide
  exact absurd (hslots 1 hread).2 (by decide)

end CseOs.MultiLevel
