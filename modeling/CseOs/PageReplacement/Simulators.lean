import Mathlib.Data.List.Basic

/-!
# Page replacement simulators

`page_replacement.c`: four simulators that go over a reference string with an array of frames
and count hits and faults. An empty frame holds `-1`. Their arrays are taken to be allocated.
-/

namespace CseOs.PageReplacement

structure SimResult where
  hits : Nat
  faults : Nat
  deriving DecidableEq, Repr

/-- Fill frame array with -1, when its empty. -/
def initFrames (frames : Nat) : List Int := List.replicate frames (-1)

/-- Search for a page in the frame array. -/
def findPage (frame : List Int) (page : Int) : Option Nat := frame.idxOf? page

/-- The search for an empty frame, the same in three of the simulators. -/
def freeIndex (frame : List Int) : Option Nat := frame.idxOf? (-1)

/-- What one reference did: a hit, or a fault whose page was stored in a frame. -/
inductive Event where
  | hit (pos : Nat)
  | fault (slot : Nat)
  deriving DecidableEq, Repr

/-- The variables of a loop over the references; `vars` are those of one simulator alone. -/
structure State (σ : Type) where
  frame : List Int
  vars : σ
  res : SimResult
  deriving DecidableEq, Repr

/-- What the simulators do not share: their own variables, what a hit at `pos` does to them at
time `t`, and the frame that a page gets at a fault. -/
structure Simulator (σ : Type) where
  init : Nat → σ
  onHit : σ → (pos t : Nat) → σ
  replace : (frame : List Int) → σ → (t : Nat) → (refs : List Int) → Nat × σ

namespace Simulator

variable {σ : Type} (S : Simulator σ)

/-- The loop body for the reference `page` at time `t`. -/
def step (refs : List Int) (t : Nat) (page : Int) (s : State σ) : State σ × Event :=
  match findPage s.frame page with
  | some pos =>
    ({ s with vars := S.onHit s.vars pos t, res := { s.res with hits := s.res.hits + 1 } },
      .hit pos)
  | none =>
    let r := S.replace s.frame s.vars t refs
    ({ frame := s.frame.set r.1 page, vars := r.2,
       res := { s.res with faults := s.res.faults + 1 } }, .fault r.1)

/-- The state before the reference of time `t`. -/
def run (refs : List Int) (frames : Nat) : Nat → State σ
  | 0 => ⟨initFrames frames, S.init frames, ⟨0, 0⟩⟩
  | t + 1 =>
    match refs[t]? with
    | some page => (S.step refs t page (run refs frames t)).1
    | none => run refs frames t

/-- What the reference of time `t` did. -/
def event (refs : List Int) (frames t : Nat) : Option Event :=
  refs[t]?.map fun page => (S.step refs t page (S.run refs frames t)).2

/-- The whole simulation. -/
def simulate (refs : List Int) (frames : Nat) : SimResult :=
  (S.run refs frames refs.length).res

end Simulator

/-- FIFO replacement: `next` goes round the frames. -/
def fifoPolicy : Simulator Nat where
  init _ := 0
  onHit next _ _ := next
  replace frame next _ _ := (next, (next + 1) % frame.length)

/-- Random replacement. The variable counts the calls of `rand()`, whose answers are `rand`. -/
def randomPolicy (rand : Nat → Nat) : Simulator Nat where
  init _ := 0
  onHit calls _ _ := calls
  replace frame calls _ _ :=
    match freeIndex frame with
    | some i => (i, calls)
    | none => (rand calls % frame.length, calls + 1)

/-- The search for the smallest `last_used`, the first of them on a tie. -/
def lruScan (i lruIndex : Nat) (lruTime : Int) : List Int → Nat
  | [] => lruIndex
  | used :: rest =>
    if used < lruTime then lruScan (i + 1) i used rest else lruScan (i + 1) lruIndex lruTime rest

def lruIndex : List Int → Nat
  | [] => 0
  | used :: rest => lruScan 1 0 used rest

/-- LRU replacement, with the array `last_used`. -/
def lruPolicy : Simulator (List Int) where
  init frames := List.replicate frames (-1)
  onHit lastUsed pos t := lastUsed.set pos t
  replace frame lastUsed t _ :=
    match freeIndex frame with
    | some i => (i, lastUsed.set i t)
    | none => (lruIndex lastUsed, lastUsed.set (lruIndex lastUsed) t)

/-- The first time after `t` at which `page` is referenced. -/
def nextUse (refs : List Int) (t : Nat) (page : Int) : Option Nat :=
  ((refs.drop (t + 1)).idxOf? page).map (t + 1 + ·)

/-- The search for the frame to evict: the first never used again, else the farthest. -/
def minScan (refs : List Int) (t i : Nat) (evictIndex farthest : Int) : List Int → Int
  | [] => evictIndex
  | pageInFrame :: rest =>
    match nextUse refs t pageInFrame with
    | none => i
    | some next =>
      if farthest < next then minScan refs t (i + 1) i next rest
      else minScan refs t (i + 1) evictIndex farthest rest

/-- MIN (Optimal) replacement. -/
def minPolicy : Simulator Unit where
  init _ := ()
  onHit _ _ _ := ()
  replace frame _ t refs :=
    match freeIndex frame with
    | some i => (i, ())
    | none => ((minScan refs t 0 (-1) (-1) frame).toNat, ())

def simulateFifo (refs : List Int) (frames : Nat) : SimResult := fifoPolicy.simulate refs frames

def simulateRandom (rand : Nat → Nat) (refs : List Int) (frames : Nat) : SimResult :=
  (randomPolicy rand).simulate refs frames

def simulateLru (refs : List Int) (frames : Nat) : SimResult := lruPolicy.simulate refs frames

def simulateMin (refs : List Int) (frames : Nat) : SimResult := minPolicy.simulate refs frames

example : simulateMin [7, 0, 1, 2, 0, 3, 0, 4, 2, 3] 3 = ⟨4, 6⟩ := by decide

section Steps

variable {σ : Type} {S : Simulator σ} {refs : List Int} {frames t : Nat} {page : Int}

private theorem run_succ (h : refs[t]? = some page) :
    S.run refs frames (t + 1) = (S.step refs t page (S.run refs frames t)).1 := by
  simp only [Simulator.run, h]

private theorem event_eq (h : refs[t]? = some page) :
    S.event refs frames t = some (S.step refs t page (S.run refs frames t)).2 := by
  simp only [Simulator.event, h, Option.map_some]

theorem event_some {e : Event} (h : S.event refs frames t = some e) :
    ∃ page, refs[t]? = some page := by
  cases hpage : refs[t]? with
  | none => simp [Simulator.event, hpage] at h
  | some page => exact ⟨page, rfl⟩

private theorem step_hit {s : State σ} {pos : Nat} (h : findPage s.frame page = some pos) :
    S.step refs t page s = ({ s with
      vars := S.onHit s.vars pos t, res := { s.res with hits := s.res.hits + 1 } }, .hit pos) := by
  simp only [Simulator.step, h]

private theorem step_fault {s : State σ} (h : findPage s.frame page = none) :
    S.step refs t page s =
      ({ frame := s.frame.set (S.replace s.frame s.vars t refs).1 page,
         vars := (S.replace s.frame s.vars t refs).2,
         res := { s.res with faults := s.res.faults + 1 } },
       .fault (S.replace s.frame s.vars t refs).1) := by
  simp only [Simulator.step, h]

private theorem findPage_some {frame : List Int} {pos : Nat} (h : findPage frame page = some pos) :
    frame[pos]? = some page := by
  obtain ⟨hlt, hget, _⟩ := List.idxOf?_eq_some_iff.mp h
  exact List.getElem?_eq_some_iff.mpr ⟨hlt, hget⟩

private theorem findPage_none {frame : List Int} : findPage frame page = none ↔ page ∉ frame :=
  List.idxOf?_eq_none_iff

theorem freeIndex_none {frame : List Int} : freeIndex frame = none ↔ (-1 : Int) ∉ frame :=
  List.idxOf?_eq_none_iff

theorem freeIndex_some {frame : List Int} {i : Nat} (h : freeIndex frame = some i) :
    frame[i]? = some (-1) :=
  findPage_some h

/-- A reference finds its page and changes no frame, or stores it in the frame of `replace`. -/
theorem step_cases (frames : Nat) (h : refs[t]? = some page) :
    (∃ pos, (S.run refs frames t).frame[pos]? = some page ∧
        S.event refs frames t = some (.hit pos) ∧
        S.run refs frames (t + 1) = { S.run refs frames t with
          vars := S.onHit (S.run refs frames t).vars pos t
          res := { (S.run refs frames t).res with hits := (S.run refs frames t).res.hits + 1 } }) ∨
      ∃ slot vars, page ∉ (S.run refs frames t).frame ∧
        S.replace (S.run refs frames t).frame (S.run refs frames t).vars t refs = (slot, vars) ∧
        S.event refs frames t = some (.fault slot) ∧
        S.run refs frames (t + 1) =
          { frame := (S.run refs frames t).frame.set slot page
            vars := vars
            res := { (S.run refs frames t).res with
              faults := (S.run refs frames t).res.faults + 1 } } := by
  rw [run_succ h, event_eq h]
  cases hfind : findPage (S.run refs frames t).frame page with
  | some pos =>
    rw [step_hit hfind]
    exact .inl ⟨pos, findPage_some hfind, rfl, rfl⟩
  | none =>
    rw [step_fault hfind]
    exact .inr ⟨_, _, findPage_none.mp hfind, rfl, rfl, rfl⟩

@[simp] theorem initFrames_length : (initFrames frames).length = frames :=
  List.length_replicate

theorem run_frame_length (t : Nat) : (S.run refs frames t).frame.length = frames := by
  induction t with
  | zero => exact initFrames_length
  | succ t ih =>
    cases h : refs[t]? with
    | none =>
      simp only [Simulator.run, h]
      exact ih
    | some page =>
      rcases step_cases (S := S) frames h with ⟨pos, _, _, heq⟩ | ⟨slot, vars, _, _, _, heq⟩
      · rw [heq]
        exact ih
      · rw [heq, List.length_set]
        exact ih

/-- Hits and faults together count the references. -/
theorem run_total {t : Nat} (ht : t ≤ refs.length) :
    (S.run refs frames t).res.hits + (S.run refs frames t).res.faults = t := by
  induction t with
  | zero => rfl
  | succ t ih =>
    have hpage := List.getElem?_eq_getElem (Nat.lt_of_succ_le ht)
    have := ih (Nat.le_of_succ_le ht)
    rcases step_cases (S := S) frames hpage with
      ⟨pos, _, _, heq⟩ | ⟨slot, vars, _, _, _, heq⟩
    · rw [heq]
      simp only
      omega
    · rw [heq]
      simp only
      omega

theorem run_hits_iff (h : refs[t]? = some page) :
    (S.run refs frames (t + 1)).res.hits = (S.run refs frames t).res.hits + 1 ↔
      page ∈ (S.run refs frames t).frame := by
  rcases step_cases (S := S) frames h with
    ⟨pos, hpos, _, heq⟩ | ⟨slot, vars, hpage, _, _, heq⟩
  · simp only [heq, true_iff]
    exact List.mem_of_getElem? hpos
  · simp [heq, hpage]

end Steps

end CseOs.PageReplacement
