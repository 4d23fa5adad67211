import CseOs.Framework.RingBuffer
import CseOs.Kernel.Errno

/-!
# Growing arrays and queues

The pointer arrays and the ring queues of the kernel library. Both ask `kmalloc` for a larger
block when they run out of room, and an array gives its block back when it is emptied while it
is large.
-/

namespace CseOs.Kernel

open Framework

/-- The answers `kmalloc` is going to give, and how many of them were asked for. -/
structure Kmalloc where
  answers : Nat → Bool
  calls : Nat := 0

namespace Kmalloc

def ok (mem : Kmalloc) : Bool := mem.answers mem.calls

def next (mem : Kmalloc) : Kmalloc := { mem with calls := mem.calls + 1 }

/-- `n` calls in a row, up to the first that fails. -/
def grab : Nat → Kmalloc → Bool × Kmalloc
  | 0, mem => (true, mem)
  | n + 1, mem => if mem.ok then grab n mem.next else (false, mem.next)

end Kmalloc

/-- What an operation that may allocate leaves: the error it returns, the object, the memory. -/
structure Outcome (β : Type) where
  error : Option Errno
  val : β
  mem : Kmalloc

variable {α : Type}

structure PtrArray (α : Type) where
  num : Nat
  max : Nat
  v : Nat → α

namespace PtrArray

def contents (a : PtrArray α) : List α := (List.range a.num).map a.v

/-- `while (nguys > newmax) newmax = (newmax+1)*2`, for at most `fuel` rounds. -/
def growMax (nguys : Nat) : Nat → Nat → Nat
  | 0, newmax => newmax
  | fuel + 1, newmax => if nguys > newmax then growMax nguys fuel ((newmax + 1) * 2) else newmax

def newmax (a : PtrArray α) (nguys : Nat) : Nat := growMax nguys nguys a.max

def arrayPreallocate (a : PtrArray α) (nguys : Nat) (mem : Kmalloc) : Outcome (PtrArray α) :=
  if mem.ok then ⟨none, { a with max := a.newmax nguys }, mem.next⟩ else ⟨some .enomem, a, mem.next⟩

def arraySetsize (a : PtrArray α) (nguys : Nat) (mem : Kmalloc) : Outcome (PtrArray α) :=
  if nguys > a.max then
    let r := arrayPreallocate a nguys mem
    if r.error.isSome then r else ⟨none, { r.val with num := nguys }, r.mem⟩
  else if nguys = 0 ∧ a.max > 16 then ⟨none, { a with max := 0, num := nguys }, mem⟩
  else ⟨none, { a with num := nguys }, mem⟩

def arrayAdd (a : PtrArray α) (guy : α) (mem : Kmalloc) : Outcome (PtrArray α) :=
  let r := arraySetsize a (a.num + 1) mem
  if r.error.isSome then r
  else ⟨none, { r.val with v := Function.update r.val.v a.num guy }, r.mem⟩

def arrayRemove (a : PtrArray α) (index : Nat) : PtrArray α :=
  { a with num := a.num - 1, v := fun i => if index ≤ i then a.v (i + 1) else a.v i }

variable {a : PtrArray α} {mem : Kmalloc} {guy : α}

@[simp] theorem length_contents : a.contents.length = a.num := by
  rw [contents, List.length_map, List.length_range]

private theorem le_growMax (nguys fuel newmax : Nat) : newmax ≤ growMax nguys fuel newmax := by
  induction fuel generalizing newmax with
  | zero => exact Nat.le_refl _
  | succ fuel ih =>
    rw [growMax]
    split
    · have := ih ((newmax + 1) * 2)
      omega
    · exact Nat.le_refl _

private theorem growMax_enough {nguys fuel newmax : Nat} (h : nguys ≤ fuel + newmax) :
    nguys ≤ growMax nguys fuel newmax := by
  induction fuel generalizing newmax with
  | zero =>
    rw [growMax]
    omega
  | succ fuel ih =>
    rw [growMax]
    split
    · exact ih (by omega)
    · omega

theorem max_le_newmax (a : PtrArray α) (nguys : Nat) : a.max ≤ a.newmax nguys := le_growMax _ _ _

theorem le_newmax (a : PtrArray α) (nguys : Nat) : nguys ≤ a.newmax nguys :=
  growMax_enough (Nat.le_add_right _ _)

/-- An array with room takes one more without asking for memory. -/
theorem arrayAdd_room (h : a.num < a.max) : arrayAdd a guy mem =
    ⟨none, { a with num := a.num + 1, v := Function.update a.v a.num guy }, mem⟩ := by
  have hsize : arraySetsize a (a.num + 1) mem = ⟨none, { a with num := a.num + 1 }, mem⟩ := by
    rw [arraySetsize, if_neg (by omega), if_neg (by omega)]
  rw [arrayAdd, hsize]
  rfl

theorem arrayAdd_full (h : ¬ a.num < a.max) : (arrayAdd a guy mem).mem = mem.next ∧
    (mem.ok = true → (arrayAdd a guy mem).error = none ∧ (arrayAdd a guy mem).val =
      { num := a.num + 1, max := a.newmax (a.num + 1), v := Function.update a.v a.num guy }) ∧
    (mem.ok = false → (arrayAdd a guy mem).error = some .enomem) := by
  have hgt : a.num + 1 > a.max := by omega
  cases hok : mem.ok with
  | true => simp [arrayAdd, arraySetsize, hgt, arrayPreallocate, hok]
  | false => simp [arrayAdd, arraySetsize, hgt, arrayPreallocate, hok]

private theorem contents_add {max : Nat} :
    contents { num := a.num + 1, max := max, v := Function.update a.v a.num guy } =
      a.contents ++ [guy] := by
  have hold : ∀ i ∈ List.range a.num, Function.update a.v a.num guy i = a.v i :=
    fun i hi => Function.update_of_ne (Nat.ne_of_lt (List.mem_range.mp hi)) _ _
  rw [contents, List.range_succ, List.map_append, List.map_congr_left hold]
  simp [contents]

theorem contents_arrayAdd (h : (arrayAdd a guy mem).error = none) :
    (arrayAdd a guy mem).val.contents = a.contents ++ [guy] ∧
      (arrayAdd a guy mem).val.num = a.num + 1 := by
  by_cases hroom : a.num < a.max
  · rw [arrayAdd_room hroom]
    exact ⟨contents_add, rfl⟩
  · cases hok : mem.ok with
    | true =>
      rw [((arrayAdd_full hroom).2.1 hok).2]
      exact ⟨contents_add, rfl⟩
    | false =>
      rw [(arrayAdd_full hroom).2.2 hok] at h
      cases h

theorem contents_arrayRemove {i : Nat} (hi : i < a.num) :
    (a.arrayRemove i).contents = a.contents.eraseIdx i := by
  have hlen : a.contents.length = a.num := length_contents
  apply List.ext_getElem
  · rw [length_contents, List.length_eraseIdx_of_lt (hlen ▸ hi), hlen]
    rfl
  · intro j hj hj'
    rw [List.getElem_eraseIdx]
    simp only [contents, arrayRemove, List.getElem_map, List.getElem_range]
    split <;> split <;> first | rfl | omega

end PtrArray

namespace Queue

/-- `while (nsize < targetsize) nsize *= 2`, for at most `fuel` rounds. -/
def growSize (targetsize : Nat) : Nat → Nat → Nat
  | 0, nsize => nsize
  | fuel + 1, nsize => if nsize < targetsize then growSize targetsize fuel (nsize * 2) else nsize

/-- The loop of `q_grow` from read position `i` of the old queue. `none`: the new one is full. -/
def copyFrom (old : RingBuffer α) : Nat → Nat → RingBuffer α → Option (RingBuffer α)
  | 0, _, _ => none
  | fuel + 1, i, q =>
    if i = old.nextwrite then some q
    else if q.Full then none
    else copyFrom old fuel ((i + 1) % old.size) (q.push (old.data i))

/-- `none` is a failed assertion. The cells of the new block are not read before they are
written. -/
def qGrow (q : RingBuffer α) (targetsize : Nat) (mem : Kmalloc) : Option (Outcome (RingBuffer α)) :=
  if mem.ok then do
    let fresh : RingBuffer α :=
      { size := growSize targetsize targetsize q.size, nextwrite := 0, nextread := 0, data := q.data }
    let new ← copyFrom q q.size q.nextread fresh
    return ⟨none, new, mem.next⟩
  else some ⟨some .enomem, q, mem.next⟩

def qPreallocate (q : RingBuffer α) (size : Nat) (mem : Kmalloc) : Option (Outcome (RingBuffer α)) :=
  if size > q.size then qGrow q size mem else some ⟨none, q, mem⟩

def qEmpty (q : RingBuffer α) : Bool := q.nextwrite = q.nextread

def qAddtail (q : RingBuffer α) (ptr : α) (mem : Kmalloc) : Option (Outcome (RingBuffer α)) :=
  if q.Full then do
    let r ← qGrow q (q.size + 1) mem
    if r.error.isSome then return r else return ⟨none, r.val.push ptr, r.mem⟩
  else some ⟨none, q.push ptr, mem⟩

def qRemhead (q : RingBuffer α) : Option (α × RingBuffer α) := if qEmpty q then none else some q.pop

variable {q q' : RingBuffer α} {mem : Kmalloc} {ptr : α}

theorem le_growSize (targetsize fuel nsize : Nat) : nsize ≤ growSize targetsize fuel nsize := by
  induction fuel generalizing nsize with
  | zero => exact Nat.le_refl _
  | succ fuel ih =>
    rw [growSize]
    split
    · have := ih (nsize * 2)
      omega
    · exact Nat.le_refl _

private theorem growSize_enough {targetsize fuel nsize : Nat} (hpos : 0 < nsize)
    (h : targetsize ≤ fuel + nsize) : targetsize ≤ growSize targetsize fuel nsize := by
  induction fuel generalizing nsize with
  | zero =>
    rw [growSize]
    omega
  | succ fuel ih =>
    rw [growSize]
    split
    · exact ih (by omega) (by omega)
    · omega

private theorem copyFrom_pop (old : RingBuffer α) (fuel i : Nat) (q : RingBuffer α) :
    copyFrom old.pop.2 fuel i q = copyFrom old fuel i q := by
  induction fuel generalizing i q with
  | zero => rfl
  | succ fuel ih =>
    rw [copyFrom, copyFrom, ih]
    rfl

private theorem copyFrom_spec {old : RingBuffer α} {fuel : Nat} (h : old.Valid) (hq : q.Valid)
    (hfuel : old.count < fuel) (hroom : q.count + old.count < q.size) :
    ∃ q', copyFrom old fuel old.nextread q = some q' ∧ q'.Valid ∧ q'.size = q.size ∧
      q'.contents = q.contents ++ old.contents := by
  induction fuel generalizing old q with
  | zero => omega
  | succ fuel ih =>
    rw [copyFrom]
    split
    · next hdone =>
      have hzero : old.count = 0 := (RingBuffer.count_eq_zero h).mpr hdone.symm
      have hnil : old.contents = [] := by
        rw [RingBuffer.contents, hzero]
        rfl
      exact ⟨q, rfl, hq, rfl, by rw [hnil, List.append_nil]⟩
    · next hmore =>
      have hpop := RingBuffer.contents_pop h fun he => hmore he.symm
      have hcount : old.count = old.pop.2.count + 1 := by
        have := congrArg List.length hpop
        rwa [List.length_cons, RingBuffer.length_contents, RingBuffer.length_contents] at this
      have hnot : ¬ q.Full := by
        rw [RingBuffer.full_iff hq]
        omega
      rw [if_neg hnot]
      have hpush := RingBuffer.count_push (x := old.data old.nextread) hq hnot
      have hsize : (q.push (old.data old.nextread)).size = q.size := rfl
      obtain ⟨q', hq', hvalid, hsame, hcontents⟩ := ih h.pop (hq.push (x := old.data old.nextread))
        (by omega) (by omega)
      rw [copyFrom_pop] at hq'
      refine ⟨q', hq', hvalid, hsame, ?_⟩
      rw [hcontents, RingBuffer.contents_push hq hnot, hpop, List.append_assoc]
      rfl

theorem qGrow_ok {targetsize : Nat} (h : q.Valid) (hok : mem.ok = true)
    (htarget : q.count < targetsize) : ∃ q', qGrow q targetsize mem = some ⟨none, q', mem.next⟩ ∧
      q'.Valid ∧ q'.contents = q.contents ∧ targetsize ≤ q'.size ∧ q.size ≤ q'.size := by
  have hpos := Nat.zero_lt_of_lt h.read_lt
  have hbig := growSize_enough hpos (Nat.le_add_right targetsize q.size)
  have hge := le_growSize targetsize targetsize q.size
  let fresh : RingBuffer α :=
    { size := growSize targetsize targetsize q.size, nextwrite := 0, nextread := 0, data := q.data }
  have hfresh : fresh.Valid := ⟨by show 0 < growSize _ _ _; omega, by show 0 < growSize _ _ _; omega⟩
  have hempty : fresh.count = 0 := (RingBuffer.count_eq_zero hfresh).mpr rfl
  have hlt := RingBuffer.count_lt h
  obtain ⟨q', hq', hvalid, hsize, hcontents⟩ := copyFrom_spec h hfresh hlt
    (by rw [hempty]; show 0 + q.count < growSize _ _ _; omega)
  refine ⟨q', ?_, hvalid, ?_, ?_, ?_⟩
  · rw [qGrow, if_pos hok]
    show (copyFrom q q.size q.nextread fresh).bind _ = _
    rw [hq']
    rfl
  · rw [hcontents, RingBuffer.contents, hempty]
    rfl
  · rw [hsize]
    exact hbig
  · rw [hsize]
    exact hge

private theorem qGrow_failed {targetsize : Nat} (hok : mem.ok = false) :
    qGrow q targetsize mem = some ⟨some .enomem, q, mem.next⟩ := by
  rw [qGrow, if_neg (by rw [hok]; exact Bool.false_ne_true)]

/-- A queue with room takes one more without asking for memory. -/
theorem qAddtail_room (h : ¬ q.Full) : qAddtail q ptr mem = some ⟨none, q.push ptr, mem⟩ := by
  rw [qAddtail, if_neg h]

/-- What `q_addtail` leaves: the queue with one more element, or as it was. -/
theorem qAddtail_spec (h : q.Valid) : ∃ r, qAddtail q ptr mem = some r ∧ r.val.Valid ∧
    q.size ≤ r.val.size ∧ (r.error = none → r.val.contents = q.contents ++ [ptr]) ∧
    (r.error ≠ none → r.val = q ∧ mem.ok = false) := by
  by_cases hfull : q.Full
  · rw [qAddtail, if_pos hfull]
    cases hok : mem.ok with
    | false =>
      rw [qGrow_failed hok]
      refine ⟨_, rfl, h, Nat.le_refl _, fun he => ?_, fun _ => ⟨rfl, rfl⟩⟩
      cases he
    | true =>
      have hlt := RingBuffer.count_lt h
      obtain ⟨q', hq', hvalid, hcontents, hsize, hge⟩ := qGrow_ok h hok
        (show q.count < q.size + 1 by omega)
      have hcount : q'.count = q.count := by
        rw [← RingBuffer.length_contents, ← RingBuffer.length_contents, hcontents]
      have hnot : ¬ q'.Full := by
        rw [RingBuffer.full_iff hvalid]
        omega
      rw [hq']
      refine ⟨_, rfl, hvalid.push, hge, fun _ => ?_, fun he => absurd rfl he⟩
      show (q'.push ptr).contents = _
      rw [RingBuffer.contents_push hvalid hnot, hcontents]
  · rw [qAddtail_room hfull]
    exact ⟨_, rfl, h.push, Nat.le_refl _, fun _ => RingBuffer.contents_push h hfull,
      fun he => absurd rfl he⟩

/-- What `q_preallocate` leaves: the same elements, and on success the room asked for. -/
theorem qPreallocate_spec {size : Nat} (h : q.Valid) : ∃ r, qPreallocate q size mem = some r ∧
    r.val.Valid ∧ r.val.contents = q.contents ∧ q.size ≤ r.val.size ∧
    (r.error = none → size ≤ r.val.size) ∧ (size ≤ q.size → r = ⟨none, q, mem⟩) := by
  by_cases hgt : size > q.size
  · rw [qPreallocate, if_pos hgt]
    cases hok : mem.ok with
    | false =>
      rw [qGrow_failed hok]
      refine ⟨_, rfl, h, rfl, Nat.le_refl _, fun he => ?_, fun hle => by omega⟩
      cases he
    | true =>
      have hlt := RingBuffer.count_lt h
      obtain ⟨q', hq', hvalid, hcontents, hsize, hge⟩ := qGrow_ok h hok
        (show q.count < size by omega)
      rw [hq']
      exact ⟨_, rfl, hvalid, hcontents, hge, fun _ => hsize, fun hle => by omega⟩
  · rw [qPreallocate, if_neg hgt]
    exact ⟨_, rfl, h, rfl, Nat.le_refl _, fun _ => Nat.le_of_not_gt hgt, fun _ => rfl⟩

theorem qRemhead_spec (h : q.Valid) : (qRemhead q = none ∧ q.contents = []) ∨
    ∃ x q', qRemhead q = some (x, q') ∧ q'.Valid ∧ q'.size = q.size ∧
      q.contents = x :: q'.contents := by
  by_cases hempty : q.nextwrite = q.nextread
  · left
    have hcount := (RingBuffer.count_eq_zero h).mpr hempty
    refine ⟨?_, ?_⟩
    · rw [qRemhead, qEmpty, if_pos (by simpa using hempty)]
    · rw [RingBuffer.contents, hcount]
      rfl
  · right
    refine ⟨q.pop.1, q.pop.2, ?_, h.pop, rfl, RingBuffer.contents_pop h hempty⟩
    rw [qRemhead, qEmpty, if_neg (by simpa using hempty)]

end Queue

end CseOs.Kernel
