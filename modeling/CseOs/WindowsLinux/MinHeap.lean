import CseOs.WindowsLinux.Cfs

/-!
# The run queue of `simulate_cfs` as its arrays

`MinHeap` keeps the indices and the keys in two arrays that are moved together. Over the pairs it is the
binary heap that the model of `simulate_cfs` works on.
-/

namespace CseOs.WindowsLinux

open Framework

variable {ι κ : Type*}

/-- Both arrays have `MAXP` cells. -/
structure MinHeap (ι κ : Type*) where
  idx : Nat → ι
  key : Nat → κ
  n : Nat

namespace MinHeap

/-- The arrays keep what they hold. -/
def hinit (h : MinHeap ι κ) : MinHeap ι κ := { h with n := 0 }

def hswap (h : MinHeap ι κ) (i j : Nat) : MinHeap ι κ :=
  { h with
    idx := Function.update (Function.update h.idx i (h.idx j)) j (h.idx i)
    key := Function.update (Function.update h.key i (h.key j)) j (h.key i) }

variable [LinearOrder κ]

/-- The loop of `hpush`, with at most `fuel` turns. -/
def bubbleUp : Nat → Nat → MinHeap ι κ → MinHeap ι κ
  | 0, _, h => h
  | fuel + 1, i, h =>
    if i > 0 then
      let p := (i - 1) / 2
      if h.key p ≤ h.key i then h else bubbleUp fuel p (h.hswap i p)
    else h

/-- There is no cell for one more element than `MAXP`. -/
def hpush (h : MinHeap ι κ) (idx : ι) (key : κ) : Option (MinHeap ι κ) :=
  if h.n < MAXP then
    some (bubbleUp h.n h.n
      { idx := Function.update h.idx h.n idx, key := Function.update h.key h.n key, n := h.n + 1 })
  else none

/-- The loop of `hpop`, with at most `fuel` turns. -/
def bubbleDown : Nat → Nat → MinHeap ι κ → MinHeap ι κ
  | 0, _, h => h
  | fuel + 1, i, h =>
    let l := 2 * i + 1
    let r := 2 * i + 2
    let m := i
    let m := if l < h.n ∧ h.key l < h.key m then l else m
    let m := if r < h.n ∧ h.key r < h.key m then r else m
    if m = i then h else bubbleDown fuel m (h.hswap i m)

/-- The heap without its first element, for `n > 0`. -/
def dropFirst (h : MinHeap ι κ) : MinHeap ι κ :=
  let h := { h with n := h.n - 1 }
  let h := if h.n > 0 then
      { h with idx := Function.update h.idx 0 (h.idx h.n), key := Function.update h.key 0 (h.key h.n) }
    else h
  bubbleDown h.n 0 h

/-- Returns no element if there is none. -/
def hpop (h : MinHeap ι κ) : Option (ι × κ) × MinHeap ι κ :=
  if h.n = 0 then (none, h) else (some (h.idx 0, h.key 0), h.dropFirst)

/-- The pairs that are present. -/
def pairs (h : MinHeap ι κ) : List (ι × κ) := (List.range h.n).map fun i => (h.idx i, h.key i)

/-- No key is below the one of its parent. -/
def Ordered (h : MinHeap ι κ) : Prop := ∀ i, 0 < i → i < h.n → h.key ((i - 1) / 2) ≤ h.key i

/-- The heap of the pairs. -/
def toHeap (h : MinHeap ι κ) : Heap (ι × κ) := ⟨h.n, fun i => (h.idx i, h.key i)⟩

variable {h h' : MinHeap ι κ} {idx : ι} {key : κ} {e : ι × κ} {i fuel : Nat}

theorem bubbleUp_ends (hi : i ≤ fuel) : bubbleUp (fuel + 1) i h = bubbleUp fuel i h := by
  induction fuel generalizing i h with
  | zero =>
    rw [Nat.le_zero.mp hi]
    rfl
  | succ fuel ih =>
    rw [bubbleUp, bubbleUp]
    split
    · next hpos =>
      show (if h.key ((i - 1) / 2) ≤ h.key i then h else bubbleUp (fuel + 1) _ _) =
        if h.key ((i - 1) / 2) ≤ h.key i then h else bubbleUp fuel _ _
      rw [ih (by omega)]
    · rfl

private theorem bubbleDown_succ (fuel i : Nat) (h : MinHeap ι κ) : bubbleDown (fuel + 1) i h =
    if leastChild Prod.snd h.n i h.toHeap.cell = i then h
    else bubbleDown fuel (leastChild Prod.snd h.n i h.toHeap.cell)
      (h.hswap i (leastChild Prod.snd h.n i h.toHeap.cell)) := rfl

theorem bubbleDown_ends (hn : h.n ≤ i + fuel) : bubbleDown (fuel + 1) i h = bubbleDown fuel i h := by
  induction fuel generalizing i h with
  | zero =>
    have hcases := leastChild_cases Prod.snd h.n i h.toHeap.cell
    rw [bubbleDown_succ]
    split
    · rfl
    · next hne =>
      have hchild := hcases.resolve_left hne
      have hlt := parent_lt hchild.2.1
      omega
  | succ fuel ih =>
    have hcases := leastChild_cases Prod.snd h.n i h.toHeap.cell
    rw [bubbleDown_succ (fuel + 1) i, bubbleDown_succ fuel i h]
    split
    · rfl
    · next hne =>
      have hchild := hcases.resolve_left hne
      have hlt := parent_lt hchild.2.1
      apply ih
      show h.n ≤ leastChild Prod.snd h.n i h.toHeap.cell + fuel
      omega

omit [LinearOrder κ] in
private theorem update_pair (f : Nat → ι) (g : Nat → κ) (i : Nat) (x : ι) (y : κ) :
    (fun k => (Function.update f i x k, Function.update g i y k)) =
      Function.update (fun k => (f k, g k)) i (x, y) := by
  funext k
  by_cases hk : k = i
  · rw [hk, Function.update_self, Function.update_self, Function.update_self]
  · rw [Function.update_of_ne hk, Function.update_of_ne hk, Function.update_of_ne hk]

private theorem update_update_swap {α : Type*} (a : Nat → α) (i j : Nat) :
    Function.update (Function.update a i (a j)) j (a i) = a ∘ Equiv.swap i j := by
  funext k
  rw [Function.comp_apply]
  by_cases hj : k = j
  · rw [hj, Function.update_self, Equiv.swap_apply_right]
  · rw [Function.update_of_ne hj]
    by_cases hi : k = i
    · rw [hi, Function.update_self, Equiv.swap_apply_left]
    · rw [Function.update_of_ne hi, Equiv.swap_apply_of_ne_of_ne hi hj]

omit [LinearOrder κ] in
private theorem toHeap_hswap (h : MinHeap ι κ) (i j : Nat) :
    (h.hswap i j).toHeap = ⟨h.n, h.toHeap.cell ∘ Equiv.swap i j⟩ := by
  rw [← update_update_swap, toHeap, hswap, update_pair, update_pair]
  rfl

private theorem toHeap_bubbleUp (fuel i : Nat) (h : MinHeap ι κ) :
    (bubbleUp fuel i h).toHeap = ⟨h.n, siftUp Prod.snd fuel i h.toHeap.cell⟩ := by
  induction fuel generalizing i h with
  | zero => rfl
  | succ fuel ih =>
    rw [bubbleUp, siftUp]
    by_cases hi : i = 0
    · rw [if_neg (by omega), if_pos hi]
      rfl
    · rw [if_pos (Nat.pos_of_ne_zero hi), if_neg hi]
      by_cases hle : h.key ((i - 1) / 2) ≤ h.key i
      · rw [if_pos hle]
        exact congrArg (Heap.mk h.n) (if_pos hle).symm
      · rw [if_neg hle, ih, toHeap_hswap]
        exact congrArg (Heap.mk h.n) (if_neg hle).symm

private theorem hpush_toHeap (idx : ι) (key : κ) (hn : h.n < MAXP) :
    ∃ h', h.hpush idx key = some h' ∧ h'.toHeap = h.toHeap.push Prod.snd (idx, key) := by
  refine ⟨_, if_pos hn, ?_⟩
  rw [toHeap_bubbleUp]
  simp only [toHeap, Heap.push, update_pair]

private theorem toHeap_bubbleDown (fuel i : Nat) (h : MinHeap ι κ) :
    (bubbleDown fuel i h).toHeap = ⟨h.n, siftDown Prod.snd h.n fuel i h.toHeap.cell⟩ := by
  induction fuel generalizing i h with
  | zero => rfl
  | succ fuel ih =>
    rw [bubbleDown_succ, siftDown]
    by_cases hm : leastChild Prod.snd h.n i h.toHeap.cell = i
    · rw [if_pos hm, if_pos hm]
      rfl
    · rw [if_neg hm, if_neg hm, ih, toHeap_hswap]
      rfl

private theorem toHeap_dropFirst (h : MinHeap ι κ) : h.dropFirst.toHeap = h.toHeap.pop Prod.snd := by
  have hlast : ∀ g : MinHeap ι κ, (bubbleDown g.n 0 g).toHeap =
      ⟨g.n, siftDown Prod.snd g.n g.n 0 g.toHeap.cell⟩ := fun g => toHeap_bubbleDown g.n 0 g
  rw [dropFirst]
  split
  · next hn =>
    have hpos : 0 < h.toHeap.n - 1 := hn
    rw [hlast, Heap.pop, if_pos hpos, toHeap, update_pair]
    rfl
  · next hn =>
    have hpos : ¬ 0 < h.toHeap.n - 1 := hn
    rw [hlast, Heap.pop, if_neg hpos]
    rfl

private theorem ordered_iff : h.Ordered ↔ Heap.Ordered Prod.snd h.toHeap.n h.toHeap.cell := Iff.rfl

omit [LinearOrder κ] in
private theorem pairs_eq (h : MinHeap ι κ) : h.pairs = h.toHeap.entries := rfl

theorem Ordered.hpush (ho : h.Ordered) (hpush : h.hpush idx key = some h') :
    h'.Ordered ∧ h'.pairs.Perm ((idx, key) :: h.pairs) ∧ h'.n ≤ MAXP := by
  by_cases hn : h.n < MAXP
  · obtain ⟨g, hg, hheap⟩ := hpush_toHeap idx key hn
    have hsame : h' = g := Option.some.inj (hpush.symm.trans hg)
    have hsize : h'.n = h.n + 1 := congrArg Heap.n (hsame ▸ hheap)
    rw [ordered_iff] at ho ⊢
    rw [pairs_eq, pairs_eq, hsame, hheap]
    exact ⟨ho.push, Heap.entries_push h.toHeap (idx, key), hsame ▸ hsize ▸ hn⟩
  · rw [MinHeap.hpush, if_neg hn] at hpush
    cases hpush

theorem Ordered.hpop (ho : h.Ordered) :
    h.hpop.2.Ordered ∧ (h.hpop.1.toList ++ h.hpop.2.pairs).Perm h.pairs ∧ h.hpop.2.n ≤ h.n := by
  rw [MinHeap.hpop]
  split
  · exact ⟨ho, .refl _, Nat.le_refl _⟩
  · next hn =>
    have hpos : 0 < h.toHeap.n := Nat.pos_of_ne_zero hn
    have hsize : h.dropFirst.n = h.n - 1 := congrArg Heap.n h.toHeap_dropFirst
    refine ⟨?_, ?_, ?_⟩
    · rw [ordered_iff, toHeap_dropFirst]
      exact (ordered_iff.mp ho).pop
    · rw [pairs_eq, toHeap_dropFirst]
      exact (Heap.entries_pop Prod.snd h.toHeap hpos).symm
    · exact hsize ▸ Nat.sub_le h.n 1

private theorem hpop_none : h.hpop.1 = none ↔ h.pairs = [] := by
  rw [hpop, pairs, List.map_eq_nil_iff, List.range_eq_nil]
  split
  · next hn => exact iff_of_true rfl hn
  · next hn => exact iff_of_false (Option.some_ne_none _) hn

theorem Ordered.hpop_least (ho : h.Ordered) (hpop : h.hpop.1 = some e) :
    e ∈ h.pairs ∧ ∀ x ∈ h.pairs, e.2 ≤ x.2 := by
  rw [MinHeap.hpop] at hpop
  split at hpop
  · cases hpop
  · next hn =>
    cases hpop
    constructor
    · exact List.mem_map.mpr ⟨0, List.mem_range.mpr (Nat.pos_of_ne_zero hn), rfl⟩
    · exact (ordered_iff.mp ho).first_le

inductive HeapOp (ι κ : Type*) where
  | hpush (idx : ι) (key : κ)
  | hpop

/-- What the pops return, and the heap at the end. -/
def runOps : List (HeapOp ι κ) → MinHeap ι κ → Option (List (ι × κ) × MinHeap ι κ)
  | [], h => some ([], h)
  | .hpush idx key :: ops, h => (h.hpush idx key).bind (runOps ops)
  | .hpop :: ops, h => (runOps ops h.hpop.2).map fun r => (h.hpop.1.toList ++ r.1, r.2)

def pushed : List (HeapOp ι κ) → List (ι × κ)
  | [] => []
  | .hpush idx key :: ops => (idx, key) :: pushed ops
  | .hpop :: ops => pushed ops

private theorem Ordered.runOps {ops : List (HeapOp ι κ)} {popped : List (ι × κ)} (ho : h.Ordered)
    (hsize : h.n ≤ MAXP) (hrun : runOps ops h = some (popped, h')) :
    h'.Ordered ∧ (popped ++ h'.pairs).Perm (pushed ops ++ h.pairs) ∧ h'.n ≤ MAXP := by
  induction ops generalizing h popped with
  | nil =>
    cases hrun
    exact ⟨ho, .refl _, hsize⟩
  | cons op ops ih =>
    cases op with
    | hpush idx key =>
      obtain ⟨g, hpush, hrest⟩ := Option.bind_eq_some_iff.mp hrun
      obtain ⟨hg, hpairs, hfits⟩ := ho.hpush hpush
      obtain ⟨hend, hperm, hn⟩ := ih hg hfits hrest
      refine ⟨hend, ?_, hn⟩
      exact (hperm.trans (hpairs.append_left _)).trans List.perm_middle
    | hpop =>
      obtain ⟨r, hrest, heq⟩ := Option.map_eq_some_iff.mp hrun
      cases heq
      obtain ⟨hg, hpairs, hless⟩ := ho.hpop
      obtain ⟨hend, hperm, hn⟩ := ih hg (hless.trans hsize) hrest
      refine ⟨hend, ?_, hn⟩
      rw [List.append_assoc]
      refine (hperm.append_left _).trans ?_
      rw [← List.append_assoc]
      refine (List.perm_append_comm.append_right _).trans ?_
      rw [List.append_assoc]
      exact hpairs.append_left _

/-- After any operations the heap holds what was pushed and not popped, in order, and a pop returns a
present pair with the least key. Only a push on a full heap has no result. -/
theorem minHeap_priorityQueue (h₀ : MinHeap ι κ) (ops : List (HeapOp ι κ)) (popped : List (ι × κ))
    (h : MinHeap ι κ) (hrun : runOps ops h₀.hinit = some (popped, h)) :
    h.Ordered ∧ (popped ++ h.pairs).Perm (pushed ops) ∧
      (h.hpop.1 = none ↔ h.pairs = []) ∧
      (∀ e, h.hpop.1 = some e → e ∈ h.pairs ∧ ∀ x ∈ h.pairs, e.2 ≤ x.2) ∧
      ∀ idx key, (h.hpush idx key).isSome ↔ h.pairs.length < MAXP := by
  have hstart : h₀.hinit.Ordered := fun i _ hi => absurd hi (Nat.not_lt_zero i)
  obtain ⟨ho, hperm, -⟩ := hstart.runOps (Nat.zero_le _) hrun
  rw [show h₀.hinit.pairs = [] from rfl, List.append_nil] at hperm
  refine ⟨ho, hperm, hpop_none, fun e he => ho.hpop_least he, fun idx key => ?_⟩
  rw [hpush, pairs, List.length_map, List.length_range]
  split
  · next hn => exact iff_of_true rfl hn
  · next hn => exact iff_of_false Bool.false_ne_true hn

theorem minHeap_priorityQueue_three :
    let h₀ : MinHeap Nat Nat := ⟨fun _ => 0, fun _ => 0, 0⟩
    ∃ h, runOps [.hpush 0 7, .hpush 1 3, .hpush 2 5, .hpop, .hpop] h₀.hinit = some ([(1, 3), (2, 5)], h) ∧
      h.Ordered ∧ ([(1, 3), (2, 5)] ++ h.pairs).Perm [(0, 7), (1, 3), (2, 5)] := by
  have hrun := minHeap_priorityQueue (⟨fun _ => 0, fun _ => 0, 0⟩ : MinHeap Nat Nat)
    [.hpush 0 7, .hpush 1 3, .hpush 2 5, .hpop, .hpop] [(1, 3), (2, 5)] _ rfl
  exact ⟨_, rfl, hrun.1, hrun.2.1⟩

end MinHeap

end CseOs.WindowsLinux
