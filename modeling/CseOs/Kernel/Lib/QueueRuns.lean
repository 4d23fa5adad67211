import CseOs.Framework.Checked
import CseOs.Kernel.Lib.Containers

/-!
# Queues of ints

`queue.c` with its int sizes and the blocks that `kmalloc` gives. A block of `n` pointers is asked for
as `n * sizeof(void *)` bytes, a 32-bit product; where it wraps, the block is smaller than the size that
the queue goes on to use. Below that, every run of the queue is a run of a list.
-/

namespace CseOs.Kernel

open Framework

/-- `cells` counts the pointers that fit in the block `data`. -/
structure KQueue (α : Type) where
  size : Int
  nextwrite : Nat
  nextread : Nat
  data : Nat → α
  cells : Nat

namespace KQueue

variable {α : Type}

/-- The pointers that fit in a block of `n * sizeof(void *)` bytes. -/
def cellsOf (n : Int) : Nat := (n * 4 % 4294967296).toNat / 4

def load (q : KQueue α) (i : Nat) : Checked α :=
  if i < q.cells then .ok (q.data i) else .error .outside

def store (q : KQueue α) (i : Nat) (x : α) : Checked (KQueue α) :=
  if i < q.cells then .ok { q with data := Function.update q.data i x } else .error .outside

/-- The index after `i`. -/
def following (q : KQueue α) (i : Nat) : Nat := (i + 1) % q.size.toNat

def Full (q : KQueue α) : Prop := q.following q.nextwrite = q.nextread

instance (q : KQueue α) : Decidable q.Full := inferInstanceAs (Decidable (_ = _))

/-- The end of `q_addtail`, with room for one more. -/
def put (q : KQueue α) (ptr : α) : Checked (KQueue α) := do
  let q' ← q.store q.nextwrite ptr
  return { q' with nextwrite := q.following q.nextwrite }

/-- `while (nsize < targetsize)`: the size doubles while it stays positive. -/
def growTo (targetsize : Int) : Nat → Int → Checked Int
  | 0, nsize => .ok nsize
  | fuel + 1, nsize =>
    if nsize < targetsize then do
      check (int32 (nsize * 2) > 0)
      growTo targetsize fuel (int32 (nsize * 2))
    else .ok nsize

/-- The loop of `q_grow` from index `i` of the old queue. The new one is never full, so that the calls
of `q_addtail` do not grow it. -/
def copyFrom (old : KQueue α) : Nat → Nat → KQueue α → Checked (KQueue α)
  | 0, _, _ => .error .assertion
  | fuel + 1, i, q =>
    if i = old.nextwrite then .ok q
    else do
      let ptr ← old.load i
      check (¬ q.Full)
      let q ← q.put ptr
      copyFrom old fuel (old.following i) q

def qGrow (q : KQueue α) (targetsize : Int) (mem : Kmalloc) : Checked (Outcome (KQueue α)) := do
  let nsize ← growTo targetsize targetsize.toNat q.size
  if mem.ok then do
    let new ← copyFrom q q.size.toNat q.nextread
      { size := nsize, nextwrite := 0, nextread := 0, data := q.data, cells := cellsOf nsize }
    return ⟨none, new, mem.next⟩
  else return ⟨some .enomem, q, mem.next⟩

/-- `junk` is what the block holds before it is written. -/
def qCreate (junk : Nat → α) (size : Int) (mem : Kmalloc) : Option (KQueue α) × Kmalloc :=
  if mem.ok then
    if mem.next.ok then (some ⟨size, 0, 0, junk, cellsOf size⟩, mem.next.next)
    else (none, mem.next.next)
  else (none, mem.next)

def qPreallocate (q : KQueue α) (size : Int) (mem : Kmalloc) : Checked (Outcome (KQueue α)) := do
  check (q.size > 0)
  if size > q.size then qGrow q size mem else return ⟨none, q, mem⟩

def qEmpty (q : KQueue α) : Bool := q.nextwrite == q.nextread

def qAddtail (q : KQueue α) (ptr : α) (mem : Kmalloc) : Checked (Outcome (KQueue α)) := do
  check (q.size > 0)
  if q.Full then do
    let r ← qGrow q (q.size + 1) mem
    if r.error.isSome then return r else return ⟨none, ← r.val.put ptr, r.mem⟩
  else return ⟨none, ← q.put ptr, mem⟩

def qRemhead (q : KQueue α) : Checked (α × KQueue α) := do
  check (q.size > 0)
  check (¬ qEmpty q)
  let ret ← q.load q.nextread
  return (ret, { q with nextread := q.following q.nextread })

def qGetstart (q : KQueue α) : Nat := q.nextread

def qGetend (q : KQueue α) : Nat := q.nextwrite

def qGetguy (q : KQueue α) (index : Nat) : Checked α := do
  check ((index : Int) < q.size)
  q.load index

/-- `for (i=q_getstart(q); i!=q_getend(q); i=(i+1)%q_getsize(q))` from the index `i` on: the pointers
that `q_getguy` returns. -/
def guysFrom (q : KQueue α) : Nat → Nat → Checked (List α)
  | 0, _ => .error .assertion
  | fuel + 1, i =>
    if i = qGetend q then .ok []
    else do
      let ptr ← qGetguy q i
      let rest ← guysFrom q fuel (q.following i)
      return ptr :: rest

def guys (q : KQueue α) : Checked (List α) := guysFrom q (q.size.toNat + 1) (qGetstart q)

/-- The queue without its block. -/
def ring (q : KQueue α) : RingBuffer α := ⟨q.size.toNat, q.nextwrite, q.nextread, q.data⟩

def contents (q : KQueue α) : List α := q.ring.contents

/-- Below this size the number of bytes does not wrap. -/
def sizeLimit : Int := 1073741824

structure Sound (q : KQueue α) : Prop where
  pos : 0 < q.size
  small : q.size < sizeLimit
  cells : q.cells = q.size.toNat
  valid : q.ring.Valid

variable {q q' old : KQueue α} {r : RingBuffer α} {ptr : α} {mem mem' : Kmalloc} {n size : Int}

private theorem cellsOf_eq (h0 : 0 < n) (h : n < sizeLimit) : cellsOf n = n.toNat := by
  rw [sizeLimit] at h
  rw [cellsOf, Int.emod_eq_of_lt (by omega) (by omega)]
  omega

theorem Sound.write_lt (h : q.Sound) : q.nextwrite < q.cells := h.cells ▸ h.valid.write_lt

private theorem Sound.read_lt (h : q.Sound) : q.nextread < q.cells := h.cells ▸ h.valid.read_lt

private theorem Sound.put (h : q.Sound) (ptr : α) : ∃ q', q.put ptr = .ok q' ∧ q'.Sound ∧ q'.size = q.size ∧
    q'.cells = q.cells ∧ q'.ring = q.ring.push ptr := by
  have hstore : q.store q.nextwrite ptr =
      .ok { q with data := Function.update q.data q.nextwrite ptr } := if_pos h.write_lt
  refine ⟨{ q with
    data := Function.update q.data q.nextwrite ptr, nextwrite := q.following q.nextwrite },
    ?_, ⟨h.pos, h.small, h.cells, h.valid.push⟩, rfl, rfl, rfl⟩
  rw [KQueue.put, hstore]
  rfl

theorem Sound.copyFrom {fuel i : Nat} (hold : old.Sound) (h : q.Sound) (hi : i < old.cells)
    {new : RingBuffer α} (hcopy : Queue.copyFrom old.ring fuel i q.ring = some new) :
    ∃ q', KQueue.copyFrom old fuel i q = .ok q' ∧ q'.Sound ∧ q'.size = q.size ∧ q'.ring = new := by
  induction fuel generalizing i q with
  | zero => cases hcopy
  | succ fuel ih =>
    rw [Queue.copyFrom] at hcopy
    rw [KQueue.copyFrom]
    by_cases hdone : i = old.nextwrite
    · rw [if_pos (show i = old.ring.nextwrite from hdone)] at hcopy
      rw [if_pos hdone]
      exact ⟨q, rfl, h, rfl, Option.some.inj hcopy⟩
    · rw [if_neg (show ¬ i = old.ring.nextwrite from hdone)] at hcopy
      rw [if_neg hdone]
      by_cases hfull : q.ring.Full
      · rw [if_pos hfull] at hcopy
        cases hcopy
      · rw [if_neg hfull] at hcopy
        obtain ⟨q₁, hput, h₁, hsize₁, _, hring₁⟩ := h.put (old.data i)
        have hnext : old.following i < old.cells := by
          rw [hold.cells]
          exact Nat.mod_lt _ (Nat.zero_lt_of_lt hold.valid.write_lt)
        obtain ⟨q', hrun, h', hsize, hring⟩ := ih h₁ hnext (hring₁ ▸ hcopy)
        have hload : old.load i = .ok (old.data i) := if_pos hi
        refine ⟨q', ?_, h', hsize.trans hsize₁, hring⟩
        rw [hload, check_eq (show ¬ q.Full from hfull)]
        show (q.put (old.data i) >>= KQueue.copyFrom old fuel (old.following i)) = _
        rw [hput]
        exact hrun

theorem growTo_eq {target : Int} {fuel nsize : Nat} (hpos : 0 < nsize)
    (h : (Queue.growSize target.toNat fuel nsize : Int) < sizeLimit) :
    growTo target fuel nsize = .ok (Queue.growSize target.toNat fuel nsize : Int) := by
  induction fuel generalizing nsize with
  | zero => rfl
  | succ fuel ih =>
    rw [Queue.growSize] at h ⊢
    rw [growTo]
    by_cases hmore : nsize < target.toNat
    · rw [if_pos hmore] at h ⊢
      have hge := Queue.le_growSize target.toNat fuel (nsize * 2)
      have hint : int32 ((nsize : Int) * 2) = ((nsize * 2 : Nat) : Int) := by
        rw [sizeLimit] at h
        rw [int32_of_small (by omega) (by omega)]
        omega
      have hnext : int32 ((nsize : Int) * 2) > 0 := by omega
      rw [if_pos (show (nsize : Int) < target by omega), check_eq hnext, hint]
      exact ih (by omega) h
    · rw [if_neg hmore]
      rw [if_neg (show ¬ (nsize : Int) < target by omega)]

/-- The size that the queue has after it grew to hold `target`. -/
def grown (q : KQueue α) (target : Int) : Nat :=
  Queue.growSize target.toNat target.toNat q.size.toNat

private theorem growTo_grown (h : q.Sound) (hfits : (q.grown size : Int) < sizeLimit) :
    growTo size size.toNat q.size = .ok (q.grown size : Int) := by
  have hpos := h.pos
  have hsize : q.size = (q.size.toNat : Int) := by omega
  rw [hsize]
  exact growTo_eq (by omega) hfits

private theorem sound_fresh (h : q.Sound) (hfits : (q.grown size : Int) < sizeLimit) :
    Sound ⟨q.grown size, 0, 0, q.data, cellsOf (q.grown size)⟩ := by
  have hpos := h.pos
  have hge : q.size.toNat ≤ q.grown size := Queue.le_growSize _ _ _
  have hnew : (0 : Int) < q.grown size := by omega
  refine ⟨hnew, hfits, cellsOf_eq hnew hfits, ?_, ?_⟩
  · show 0 < (q.grown size : Int).toNat
    omega
  · show 0 < (q.grown size : Int).toNat
    omega

private theorem qGrow_failed (h : q.Sound) (hfits : (q.grown size : Int) < sizeLimit)
    (hok : mem.ok = false) : q.qGrow size mem = .ok ⟨some .enomem, q, mem.next⟩ := by
  rw [KQueue.qGrow, growTo_grown h hfits]
  show (if mem.ok = true then _ else _) = _
  rw [if_neg (by rw [hok]; exact Bool.false_ne_true)]
  rfl

private theorem qGrow_ok (h : q.Sound) (hfits : (q.grown size : Int) < sizeLimit) (hok : mem.ok = true)
    (htarget : q.ring.count < size.toNat) : ∃ q', q.qGrow size mem = .ok ⟨none, q', mem.next⟩ ∧
      q'.Sound ∧ q'.contents = q.contents ∧ size ≤ q'.size := by
  obtain ⟨new, hnew, hvalid, hcontents, hbig, _⟩ := Queue.qGrow_ok h.valid hok htarget
  rw [Queue.qGrow, if_pos hok] at hnew
  have hcopy : Queue.copyFrom q.ring q.size.toNat q.nextread
      ⟨q.grown size, 0, 0, q.data⟩ = some new := by
    change (Queue.copyFrom q.ring q.size.toNat q.nextread ⟨q.grown size, 0, 0, q.data⟩).bind
      (fun new => some (⟨none, new, mem.next⟩ : Outcome (RingBuffer α))) = _ at hnew
    obtain ⟨r, hr, he⟩ := Option.bind_eq_some_iff.mp hnew
    cases he
    exact hr
  obtain ⟨q', hq', hsound, _, hring⟩ := h.copyFrom (sound_fresh h hfits) h.read_lt hcopy
  refine ⟨q', ?_, hsound, ?_, ?_⟩
  · rw [KQueue.qGrow, growTo_grown h hfits]
    show (if mem.ok = true then _ else _) = _
    rw [if_pos hok, hq']
    rfl
  · rw [contents, hring, hcontents]
    rfl
  · rw [← hring] at hbig
    have hsize : q'.ring.size = q'.size.toNat := rfl
    have hpos := hsound.pos
    omega

private theorem count_of_contents (h : q'.contents = q.contents) : q'.ring.count = q.ring.count := by
  rw [← RingBuffer.length_contents, ← RingBuffer.length_contents]
  exact congrArg List.length h

private theorem Sound.put_contents (h : q.Sound) (ptr : α) (hroom : ¬ q.Full) :
    ∃ q', q.put ptr = .ok q' ∧ q'.Sound ∧ q'.contents = q.contents ++ [ptr] := by
  obtain ⟨q', hput, h', _, _, hring⟩ := h.put ptr
  exact ⟨q', hput, h', by rw [contents, hring]; exact RingBuffer.contents_push h.valid hroom⟩

theorem qAddtail_spec (ptr : α) (mem : Kmalloc) (h : q.Sound)
    (hfits : q.Full → (q.grown (q.size + 1) : Int) < sizeLimit) :
    ∃ r, q.qAddtail ptr mem = .ok r ∧
      (r.error = none ∧ r.val.Sound ∧ r.val.contents = q.contents ++ [ptr] ∨
        q.Full ∧ mem.ok = false ∧ r = ⟨some .enomem, q, mem.next⟩) := by
  rw [KQueue.qAddtail, check_bind h.pos]
  by_cases hfull : q.Full
  · rw [if_pos hfull]
    cases hok : mem.ok with
    | false =>
      rw [qGrow_failed h (hfits hfull) hok]
      exact ⟨_, rfl, .inr ⟨hfull, rfl, rfl⟩⟩
    | true =>
      have hpos := h.pos
      have hlt : q.ring.count < q.size.toNat := RingBuffer.count_lt h.valid
      obtain ⟨q₁, hgrow, h₁, hcontents, hsize⟩ := qGrow_ok h (hfits hfull) hok (by omega)
      have hroom : ¬ q₁.Full := by
        have hcount := count_of_contents hcontents
        rw [show q₁.Full ↔ _ from RingBuffer.full_iff h₁.valid, hcount]
        show ¬ q.ring.count + 1 = q₁.size.toNat
        omega
      obtain ⟨q', hput, h', hlast⟩ := h₁.put_contents ptr hroom
      rw [hgrow]
      refine ⟨⟨none, q', mem.next⟩, ?_, .inl ⟨rfl, h', by rw [hlast, hcontents]⟩⟩
      show (q₁.put ptr >>= fun q => _) = _
      rw [hput]
      rfl
  · rw [if_neg hfull]
    obtain ⟨q', hput, h', hlast⟩ := h.put_contents ptr hfull
    rw [hput]
    exact ⟨⟨none, q', mem⟩, rfl, .inl ⟨rfl, h', hlast⟩⟩

theorem qPreallocate_spec (mem : Kmalloc) (h : q.Sound)
    (hfits : size > q.size → (q.grown size : Int) < sizeLimit) :
    ∃ r, q.qPreallocate size mem = .ok r ∧
      (r.error = none ∧ r.val.Sound ∧ r.val.contents = q.contents ∧ size ≤ r.val.size ∨
        size > q.size ∧ mem.ok = false ∧ r = ⟨some .enomem, q, mem.next⟩) := by
  rw [KQueue.qPreallocate, check_bind h.pos]
  by_cases hgt : size > q.size
  · rw [if_pos hgt]
    cases hok : mem.ok with
    | false =>
      rw [qGrow_failed h (hfits hgt) hok]
      exact ⟨_, rfl, .inr ⟨hgt, rfl, rfl⟩⟩
    | true =>
      have hlt : q.ring.count < q.size.toNat := RingBuffer.count_lt h.valid
      obtain ⟨q', hgrow, h', hcontents, hsize⟩ := qGrow_ok h (hfits hgt) hok (by omega)
      exact ⟨_, hgrow, .inl ⟨rfl, h', hcontents, hsize⟩⟩
  · rw [if_neg hgt]
    exact ⟨_, rfl, .inl ⟨rfl, h, rfl, Int.not_lt.mp hgt⟩⟩

private theorem contents_eq_nil (h : q.Sound) : q.contents = [] ↔ q.nextwrite = q.nextread := by
  rw [← List.length_eq_zero_iff, contents, RingBuffer.length_contents]
  exact RingBuffer.count_eq_zero h.valid

private theorem qEmpty_iff (h : q.Sound) : qEmpty q = true ↔ q.contents = [] := by
  rw [contents_eq_nil h, qEmpty, beq_iff_eq]

/-- The reading position one further. -/
def advance (q : KQueue α) : KQueue α := { q with nextread := q.following q.nextread }

private theorem Sound.advance (h : q.Sound) : q.advance.Sound := ⟨h.pos, h.small, h.cells, h.valid.pop⟩

private theorem contents_cons (h : q.Sound) (hne : q.nextwrite ≠ q.nextread) :
    q.contents = q.data q.nextread :: q.advance.contents := RingBuffer.contents_pop h.valid hne

theorem qRemhead_spec (h : q.Sound) : (q.contents = [] ∧ q.qRemhead = .error .assertion) ∨
    ∃ x q', q.qRemhead = .ok (x, q') ∧ q'.Sound ∧ q.contents = x :: q'.contents := by
  rw [KQueue.qRemhead, check_bind h.pos]
  by_cases hempty : q.nextwrite = q.nextread
  · refine .inl ⟨(contents_eq_nil h).mpr hempty, ?_⟩
    have hnot : ¬ ¬ qEmpty q := not_not.mpr (beq_iff_eq.mpr hempty)
    rw [check, if_neg hnot]
    rfl
  · refine .inr ⟨q.data q.nextread, q.advance, ?_, h.advance, contents_cons h hempty⟩
    have hnot : ¬ qEmpty q := fun he => hempty (beq_iff_eq.mp he)
    rw [check_bind hnot, show q.load q.nextread = .ok (q.data q.nextread) from if_pos h.read_lt]
    rfl

private theorem guysFrom_advance (q : KQueue α) (fuel i : Nat) :
    q.advance.guysFrom fuel i = q.guysFrom fuel i := by
  induction fuel generalizing i with
  | zero => rfl
  | succ fuel ih =>
    have hnext : q.advance.following i = q.following i := rfl
    rw [guysFrom, guysFrom, hnext, ih]
    rfl

private theorem guysFrom_eq {fuel : Nat} (h : q.Sound) (hfuel : q.ring.count < fuel) :
    q.guysFrom fuel q.nextread = .ok q.contents := by
  induction fuel generalizing q with
  | zero => omega
  | succ fuel ih =>
    rw [guysFrom]
    by_cases hend : q.nextread = qGetend q
    · rw [if_pos hend, (contents_eq_nil h).mpr hend.symm]
    · have hne : q.nextwrite ≠ q.nextread := fun he => hend he.symm
      have hcons := contents_cons h hne
      have hcount : q.ring.count = q.advance.ring.count + 1 := by
        have hlen := congrArg List.length hcons
        rwa [contents, contents, List.length_cons, RingBuffer.length_contents,
          RingBuffer.length_contents] at hlen
      have hrest : q.guysFrom fuel (q.following q.nextread) = .ok q.advance.contents := by
        rw [← guysFrom_advance]
        exact ih h.advance (by omega)
      have hindex : ((q.nextread : Nat) : Int) < q.size := by
        have hpos := h.pos
        have hlt : q.nextread < q.size.toNat := h.valid.read_lt
        omega
      have hguy : qGetguy q q.nextread = .ok (q.data q.nextread) := by
        rw [qGetguy, check_eq hindex]
        exact if_pos h.read_lt
      rw [if_neg hend, hguy, hcons]
      show (q.guysFrom fuel (q.following q.nextread) >>= fun rest => _) = _
      rw [hrest]
      rfl

theorem guys_eq (h : q.Sound) : q.guys = .ok q.contents :=
  guysFrom_eq h (Nat.lt_succ_of_lt (RingBuffer.count_lt h.valid))

inductive Op (α : Type) where
  | preallocate (size : Int)
  | addtail (ptr : α)
  | remhead
  | empty
  | iterate

/-- What the caller of an operation gets. -/
inductive Res (α : Type) where
  | code (error : Option Errno)
  | guy (ptr : α)
  | flag (b : Bool)
  | all (l : List α)

def step (q : KQueue α) (mem : Kmalloc) : Op α → Checked (Res α × KQueue α × Kmalloc)
  | .preallocate size => do
    let r ← q.qPreallocate size mem
    return (.code r.error, r.val, r.mem)
  | .addtail ptr => do
    let r ← q.qAddtail ptr mem
    return (.code r.error, r.val, r.mem)
  | .remhead => do
    let (ptr, q') ← q.qRemhead
    return (.guy ptr, q', mem)
  | .empty => return (.flag q.qEmpty, q, mem)
  | .iterate => do
    let l ← q.guys
    return (.all l, q, mem)

/-- The answer of a list to an operation, and the list after it. -/
def Op.OnList (l : List α) : Op α → Res α → List α → Prop
  | .preallocate _, res, l' => res = .code none ∧ l' = l
  | .addtail ptr, res, l' => res = .code none ∧ l' = l ++ [ptr]
  | .remhead, res, l' => ∃ ptr, res = .guy ptr ∧ l = ptr :: l'
  | .empty, res, l' => res = .flag l.isEmpty ∧ l' = l
  | .iterate, res, l' => res = .all l ∧ l' = l

/-- The operation asks for a larger block. -/
def Grows (q : KQueue α) : Op α → Prop
  | .preallocate size => size > q.size
  | .addtail _ => q.Full
  | _ => False

/-- A run of the queue beside a run of the list `l`: in every state the contents are the list, and every
answer is the list's, except that the removal from an empty list panics, and that an operation that has
to grow the queue returns an error, and leaves the queue as it was, where `kmalloc` fails. -/
def Agrees : List (Op α) → KQueue α → Kmalloc → List α → Prop
  | [], q, _, l => q.contents = l
  | op :: ops, q, mem, l => q.contents = l ∧
    match step q mem op with
    | .error fault => fault = .assertion ∧ op = .remhead ∧ l = []
    | .ok (res, q', mem') => ∃ l', Agrees ops q' mem' l' ∧
      (op.OnList l res l' ∨ Grows q op ∧ mem.ok = false ∧ res = .code (some .enomem) ∧ q' = q ∧ l' = l)

/-- The number of pointers for which an operation wants room. -/
def demand (q : KQueue α) : Op α → Int
  | .preallocate size => size
  | .addtail _ => q.size + 1
  | _ => 0

/-- No operation of the run grows the queue to `sizeLimit` pointers. -/
def Fits : List (Op α) → KQueue α → Kmalloc → Prop
  | [], _, _ => True
  | op :: ops, q, mem => (Grows q op → (q.grown (q.demand op) : Int) < sizeLimit) ∧
    ∀ res q' mem', step q mem op = .ok (res, q', mem') → Fits ops q' mem'

/-- Every run on a new queue is the run on the empty list. -/
def Refines (α : Type) (junk : Nat → α) (size : Int) (mem : Kmalloc) (ops : List (Op α)) : Prop :=
  ∀ q mem', qCreate junk size mem = (some q, mem') → Agrees ops q mem' []

variable {op : Op α} {ops : List (Op α)} {l : List α} {res : Res α}

theorem Sound.step (mem : Kmalloc) (h : q.Sound)
    (hfits : Grows q op → (q.grown (q.demand op) : Int) < sizeLimit) :
    (q.step mem op = .error .assertion ∧ op = .remhead ∧ q.contents = []) ∨
      ∃ res q' mem', q.step mem op = .ok (res, q', mem') ∧ q'.Sound ∧
        (op.OnList q.contents res q'.contents ∨
          Grows q op ∧ mem.ok = false ∧ res = .code (some .enomem) ∧ q' = q) := by
  cases op with
  | preallocate size =>
    right
    obtain ⟨r, hr, hcase⟩ := qPreallocate_spec mem h hfits
    refine ⟨.code r.error, r.val, r.mem, by rw [KQueue.step, hr]; rfl, ?_⟩
    cases hcase with
    | inl hok =>
      obtain ⟨herror, hsound, hcontents, _⟩ := hok
      exact ⟨hsound, .inl ⟨by rw [herror], hcontents⟩⟩
    | inr hfail =>
      obtain ⟨hgrow, hmem, rfl⟩ := hfail
      exact ⟨h, .inr ⟨hgrow, hmem, rfl, rfl⟩⟩
  | addtail ptr =>
    right
    obtain ⟨r, hr, hcase⟩ := qAddtail_spec ptr mem h hfits
    refine ⟨.code r.error, r.val, r.mem, by rw [KQueue.step, hr]; rfl, ?_⟩
    cases hcase with
    | inl hok =>
      obtain ⟨herror, hsound, hcontents⟩ := hok
      exact ⟨hsound, .inl ⟨by rw [herror], hcontents⟩⟩
    | inr hfail =>
      obtain ⟨hgrow, hmem, rfl⟩ := hfail
      exact ⟨h, .inr ⟨hgrow, hmem, rfl, rfl⟩⟩
  | remhead =>
    cases qRemhead_spec h with
    | inl hempty => exact .inl ⟨by rw [KQueue.step, hempty.2]; rfl, rfl, hempty.1⟩
    | inr htake =>
      obtain ⟨ptr, q', hq', hsound, hcontents⟩ := htake
      exact .inr ⟨.guy ptr, q', mem, by rw [KQueue.step, hq']; rfl, hsound, .inl ⟨ptr, rfl, hcontents⟩⟩
  | empty =>
    have hflag : qEmpty q = q.contents.isEmpty := by
      rw [Bool.eq_iff_iff, qEmpty_iff h, List.isEmpty_iff]
    exact .inr ⟨_, q, mem, rfl, h, .inl ⟨by rw [hflag], rfl⟩⟩
  | iterate =>
    exact .inr ⟨_, q, mem, by rw [KQueue.step, guys_eq h]; rfl, h, .inl ⟨rfl, rfl⟩⟩

private theorem Sound.agrees (h : q.Sound) (hfits : Fits ops q mem) : Agrees ops q mem q.contents := by
  induction ops generalizing q mem with
  | nil => rfl
  | cons op ops ih =>
    refine ⟨rfl, ?_⟩
    cases h.step mem hfits.1 with
    | inl hpanic =>
      rw [hpanic.1]
      exact ⟨rfl, hpanic.2⟩
    | inr hstep =>
      obtain ⟨res, q', mem', hrun, hsound, hcase⟩ := hstep
      rw [hrun]
      refine ⟨q'.contents, ih hsound (hfits.2 res q' mem' hrun), ?_⟩
      cases hcase with
      | inl hlist => exact .inl hlist
      | inr hfail =>
        obtain ⟨hgrow, hmem, hres, rfl⟩ := hfail
        exact .inr ⟨hgrow, hmem, hres, rfl, rfl⟩

private theorem qCreate_eq {junk : Nat → α} (hq : qCreate junk size mem = (some q, mem')) :
    q = ⟨size, 0, 0, junk, cellsOf size⟩ := by
  rw [qCreate] at hq
  split at hq
  · split at hq
    · cases hq
      rfl
    · cases hq
  · cases hq

theorem qCreate_sound {junk : Nat → α} (hpos : 0 < size) (hsmall : size < sizeLimit)
    (hq : qCreate junk size mem = (some q, mem')) : q.Sound ∧ q.contents = [] := by
  have hnew := qCreate_eq hq
  have hsound : q.Sound := by
    rw [hnew]
    refine ⟨hpos, hsmall, cellsOf_eq hpos hsmall, ?_, ?_⟩
    · show 0 < size.toNat
      omega
    · show 0 < size.toNat
      omega
  refine ⟨hsound, (contents_eq_nil hsound).mpr ?_⟩
  rw [hnew]

/-- `assert(q->size > 0)` stops every operation that the run could change the contents with. -/
def Refused (α : Type) (junk : Nat → α) (size : Int) (mem : Kmalloc) : Prop :=
  ∀ q mem', qCreate junk size mem = (some q, mem') → ∀ target ptr mem'',
    q.step mem'' (.preallocate target) = .error .assertion ∧
    q.step mem'' (.addtail ptr) = .error .assertion ∧
    q.step mem'' .remhead = .error .assertion

private theorem refused_of_size {junk : Nat → α} (hsize : size ≤ 0) : Refused α junk size mem := by
  intro q mem' hq target ptr mem''
  have hstop : check (q.size > 0) = .error .assertion := by
    rw [qCreate_eq hq]
    exact if_neg (by show ¬ size > 0; omega)
  refine ⟨?_, ?_, ?_⟩
  · rw [step, qPreallocate, hstop]
    rfl
  · rw [step, qAddtail, hstop]
    rfl
  · rw [step, qRemhead, hstop]
    rfl

/-- A queue with a positive size whose blocks stay below 2^32 bytes is a list: in every run, whatever
`kmalloc` answers, its contents and its answers are those of the list. A queue with any other size
stops at the assertions of its operations. -/
theorem queue_refines_list {junk : Nat → α} (hsmall : size < sizeLimit)
    (hfits : ∀ q mem', 0 < size → qCreate junk size mem = (some q, mem') → Fits ops q mem') :
    (0 < size → Refines α junk size mem ops) ∧ (size ≤ 0 → Refused α junk size mem) := by
  refine ⟨fun hpos q mem' hq => ?_, refused_of_size⟩
  have hnew := qCreate_sound hpos hsmall hq
  have hrun := hnew.1.agrees (hfits q mem' hpos hq)
  rwa [hnew.2] at hrun

/-- `kmalloc` with memory for everything. -/
private def ample : Kmalloc := ⟨fun _ => true, 0⟩

/-- `kmalloc` that fails once, at the third block. -/
private def thirdFails : Kmalloc := ⟨fun i => i ≠ 2, 0⟩

private def fitsDecidable : (ops : List (Op α)) → (q : KQueue α) → (mem : Kmalloc) →
    Decidable (Fits ops q mem)
  | [], _, _ => .isTrue trivial
  | op :: ops, q, mem =>
    have hgrow : Decidable (Grows q op → (q.grown (q.demand op) : Int) < sizeLimit) :=
      match op with
      | .preallocate size => inferInstanceAs (Decidable (size > q.size → _))
      | .addtail _ => inferInstanceAs (Decidable (q.Full → _))
      | .remhead => .isTrue False.elim
      | .empty => .isTrue False.elim
      | .iterate => .isTrue False.elim
    match hstep : q.step mem op with
    | .error _ => decidable_of_iff (Grows q op → (q.grown (q.demand op) : Int) < sizeLimit)
      ⟨fun h => ⟨h, fun _ _ _ he => by rw [hstep] at he; cases he⟩, And.left⟩
    | .ok (_, q', mem') =>
      have := fitsDecidable ops q' mem'
      decidable_of_iff ((Grows q op → (q.grown (q.demand op) : Int) < sizeLimit) ∧ Fits ops q' mem')
        ⟨fun h => ⟨h.1, fun _ _ _ he => by rw [hstep] at he; cases he; exact h.2⟩,
          fun h => ⟨h.1, h.2 _ _ _ hstep⟩⟩

/-- A queue of size four that has to grow when its contents wrap around: the first attempt fails, the
second moves four elements. -/
private def wrapped : List (Op Nat) :=
  [.addtail 1, .addtail 2, .addtail 3, .remhead, .remhead, .addtail 4, .addtail 5, .addtail 6, .iterate,
    .addtail 6, .iterate, .remhead, .preallocate 20, .iterate, .empty]

theorem queue_refines_list_wrapped :
    ((4 : Int) < sizeLimit ∧ Refines Nat (fun _ => 0) 4 thirdFails wrapped) ∧
      Refused Nat (fun _ => 0) 0 ample := by
  have hzero : (0 < (0 : Int) → Refines Nat (fun _ => 0) 0 ample []) ∧
      ((0 : Int) ≤ 0 → Refused Nat (fun _ => 0) 0 ample) :=
    queue_refines_list (by decide) fun q mem' hpos _ => absurd hpos (by decide)
  refine ⟨⟨by decide, (queue_refines_list (by decide) ?_).1 (by decide)⟩, hzero.2 (by decide)⟩
  intro q mem' _ hq
  cases hq
  exact @of_decide_eq_true _ (fitsDecidable ..) (by decide +kernel)

/-- The fault, if any, of the second of two operations. -/
private def secondFault (q : KQueue α) (mem : Kmalloc) (op op' : Op α) : Option Fault :=
  match q.step mem op with
  | .error _ => none
  | .ok (_, q', mem') =>
    match q'.step mem' op' with
    | .error fault => some fault
    | .ok _ => none

private theorem not_agrees_of_outside {op' : Op α} (h : secondFault q mem op op' = some .outside) :
    ¬ Agrees (op :: op' :: ops) q mem l := by
  intro hagree
  have hfirst := hagree.2
  rw [secondFault] at h
  cases hstep : q.step mem op with
  | error fault =>
    rw [hstep] at h
    cases h
  | ok out =>
    rw [hstep] at h hfirst
    obtain ⟨l', hnext, _⟩ := hfirst
    have hsecond := hnext.2
    dsimp only at h
    cases hstep' : out.2.1.step out.2.2 op' with
    | ok out' =>
      rw [hstep'] at h
      cases h
    | error fault =>
      rw [hstep'] at h hsecond
      cases h
      cases hsecond.1

/-- With size 0 the first `q_addtail` stops at its assertion. For 2^30 pointers `q_grow` asks for 2^32
bytes, which is 0: `kmalloc` gives its smallest block, of 16 bytes, and the elements leave the block. -/
theorem not_refines_list : ¬ Refines Nat (fun _ => 0) 0 ample [.addtail 5] ∧
    ¬ Refines Nat (fun _ => 0) 8 ample [.preallocate 1073741824, .addtail 0, .addtail 1, .addtail 2,
      .addtail 3, .addtail 4] := by
  refine ⟨fun h => ?_, fun h => ?_⟩
  · have hrun := h _ _ rfl
    cases hrun.2.2.1
  · exact not_agrees_of_outside (by decide +kernel) (h _ _ rfl)

end KQueue

end CseOs.Kernel
