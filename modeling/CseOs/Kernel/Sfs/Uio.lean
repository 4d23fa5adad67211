import CseOs.Framework.ByteStore
import CseOs.Framework.Program
import CseOs.Kernel.Errno

/-!
# Moving data through a uio: `uio.c`

A uio says where the caller's memory is and how much of it is still to be moved. User memory can
fault in the middle of a copy, kernel memory cannot. Offsets into an object are not negative here.
-/

namespace CseOs.Kernel.Sfs

open Framework Prog

inductive UioRw where
  | read
  | write
deriving DecidableEq, Repr

inductive UioSeg where
  | userspace
  | sysspace
  | userispace
deriving DecidableEq, Repr

structure Uio where
  iovBase : Nat
  iovLen : Nat
  offset : Nat
  resid : Nat
  segflg : UioSeg
  rw : UioRw

/-- A uio with the memory it points into. User copy `i` stops after `faults i` bytes if that is
a number, and `copies` counts the copies. -/
structure Transfer where
  uio : Uio
  mem : ByteStore
  faults : Nat → Option Nat
  copies : Nat

/-- Subtraction of `size_t` values. -/
def sub32 (a b : Nat) : Nat := (a + 2 ^ 32 - b) % 2 ^ 32

theorem sub32_of_le {a b : Nat} (ha : a < 2 ^ 32) (hb : b ≤ a) : sub32 a b = a - b := by
  simp only [sub32]
  omega

/-- `mk_kuio` -/
def mkKuio (kbuf len pos : Nat) (rw : UioRw) : Uio := ⟨kbuf, len, pos, len, .sysspace, rw⟩

namespace Uio

/-- What `uiomove` does to the uio when it moved `n` bytes. -/
def advance (u : Uio) (n : Nat) : Uio :=
  { u with
    iovBase := u.iovBase + n
    iovLen := u.iovLen - n
    offset := u.offset + n
    resid := sub32 u.resid n }

variable (u : Uio) (n : Nat)

@[simp] theorem advance_iovBase : (u.advance n).iovBase = u.iovBase + n := rfl

@[simp] theorem advance_offset : (u.advance n).offset = u.offset + n := rfl

@[simp] theorem advance_rw : (u.advance n).rw = u.rw := rfl

variable {u n} {m : Nat}

theorem advance_none (h32 : u.resid < 2 ^ 32) : u.advance 0 = u := by
  simp only [advance, sub32_of_le h32 (Nat.zero_le _), Nat.add_zero, Nat.sub_zero]

theorem advance_advance (h32 : u.resid < 2 ^ 32) (hm : n + m ≤ u.resid) :
    (u.advance n).advance m = u.advance (n + m) := by
  have hn := sub32_of_le h32 (show n ≤ u.resid by omega)
  have hres : sub32 (sub32 u.resid n) m = sub32 u.resid (n + m) := by
    rw [hn, sub32_of_le (by omega) (by omega), sub32_of_le h32 hm]
    omega
  simp only [advance, hres, Nat.add_assoc, Nat.sub_sub]

theorem advance_resid (h32 : u.resid < 2 ^ 32) (hn : n ≤ u.resid) :
    (u.advance n).resid = u.resid - n :=
  sub32_of_le h32 hn

end Uio

namespace Transfer

/-- The fault that the next copy meets. -/
def fault (w : Transfer) : Option Nat :=
  if w.uio.segflg = .sysspace then none else w.faults w.copies

/-- The caller's memory after `size` bytes of the buffer were copied to it, or from it. -/
def copied (w : Transfer) (ptr size : Nat) (buf : ByteStore) : Transfer :=
  { w with
    mem := if w.uio.rw = .read then w.mem.blit w.uio.iovBase size buf ptr else w.mem
    copies := w.copies + 1 }

/-- The buffer after the same copy. -/
def buffered (w : Transfer) (ptr size : Nat) (buf : ByteStore) : ByteStore :=
  if w.uio.rw = .read then buf else buf.blit ptr size w.mem w.uio.iovBase

def advance (w : Transfer) (n : Nat) : Transfer := { w with uio := w.uio.advance n }

variable (w : Transfer) (ptr size n : Nat) (buf : ByteStore)

variable {w ptr size n buf}

theorem copied_mem_of_read (h : w.uio.rw = .read) :
    (w.copied ptr size buf).mem = w.mem.blit w.uio.iovBase size buf ptr :=
  if_pos h

theorem copied_mem_of_write (h : w.uio.rw = .write) : (w.copied ptr size buf).mem = w.mem :=
  if_neg (by rw [h]; decide)

theorem buffered_of_write (h : w.uio.rw = .write) :
    w.buffered ptr size buf = buf.blit ptr size w.mem w.uio.iovBase :=
  if_neg (by rw [h]; decide)

end Transfer

/-- `copyin`, `copyout` or `memmove`, by the uio's direction and segment. -/
def copyRange (ptr size : Nat) (buf : ByteStore) : Prog Transfer Errno ByteStore := do
  let w ← state
  match w.fault with
  | some k =>
    update fun w => w.copied ptr (min k size) buf
    raise .efault
  | none =>
    update fun w => w.copied ptr size buf
    return w.buffered ptr size buf

/-- The loop of `uiomove`. Every round moves a byte at least, so `n` rounds are enough. -/
def uiomoveLoop : Nat → Nat → Nat → ByteStore → Prog Transfer Errno ByteStore
  | 0, _, _, buf => return buf
  | rounds + 1, ptr, n, buf => do
    let w ← state
    if n = 0 ∨ w.uio.resid = 0 then
      return buf
    else
      let size := min w.uio.iovLen n
      if size = 0 then
        diverge
      else
        let buf ← copyRange ptr size buf
        update fun w => w.advance size
        uiomoveLoop rounds (ptr + size) (n - size) buf

/-- Moves `n` bytes between the buffer from `ptr` on and the caller's memory, and returns the
buffer. -/
def uiomove (ptr n : Nat) (buf : ByteStore) : Prog Transfer Errno ByteStore :=
  uiomoveLoop n ptr n buf

def zeros : ByteStore := fun _ => 0

theorem zeros_word (a : Nat) : zeros.word a = 0 := by
  simp [ByteStore.word, zeros]

/-- The loop of `uiomovezeros` over an array of 16 zeros. -/
def uiomovezerosLoop : Nat → Nat → Prog Transfer Errno Unit
  | 0, _ => return ()
  | rounds + 1, n =>
    if n = 0 then
      return ()
    else do
      let _ ← uiomove 0 (min 16 n) zeros
      uiomovezerosLoop rounds (n - min 16 n)

def uiomovezeros (n : Nat) : Prog Transfer Errno Unit := uiomovezerosLoop n n

section

variable {w : Transfer} {ptr n : Nat} {buf : ByteStore} {Q : ByteStore → Transfer → Prop}
  {E : Errno → Transfer → Prop}

private theorem uiomoveLoop_done {rounds : Nat} (h : n = 0 ∨ w.uio.resid = 0) :
    wp (uiomoveLoop rounds ptr n buf) Q E w ↔ Q buf w := by
  cases rounds with
  | zero => simp [uiomoveLoop]
  | succ rounds => simp [uiomoveLoop, h]

/-- What fits the uio is moved in one copy, which may fault. -/
theorem wp_uiomove (hpos : 0 < n) (hlen : n ≤ w.uio.iovLen) (hres : n ≤ w.uio.resid) :
    wp (uiomove ptr n buf) Q E w ↔
      match w.fault with
      | some k => E .efault (w.copied ptr (min k n) buf)
      | none => Q (w.buffered ptr n buf) ((w.copied ptr n buf).advance n) := by
  obtain ⟨m, rfl⟩ : ∃ m, n = m + 1 := ⟨n - 1, by omega⟩
  have hgo : ¬ (m + 1 = 0 ∨ w.uio.resid = 0) := by omega
  have hsize : min w.uio.iovLen (m + 1) = m + 1 := Nat.min_eq_right hlen
  have hne : ¬ (m + 1 = 0) := by omega
  rw [uiomove, uiomoveLoop]
  simp only [wp_bind, wp_state, wp_ite, if_neg hgo, hsize, if_neg hne, copyRange]
  cases w.fault with
  | some k => simp
  | none => simp [uiomoveLoop_done]

/-- Without faults the bytes that fit the uio are moved. -/
theorem wp_uiomove_of_no_fault (hf : w.fault = none) (hpos : 0 < n) (hlen : n ≤ w.uio.iovLen)
    (hres : n ≤ w.uio.resid) : wp (uiomove ptr n buf) Q E w ↔
      Q (w.buffered ptr n buf) ((w.copied ptr n buf).advance n) := by
  rw [wp_uiomove hpos hlen hres, hf]

/-- The uio still has as much room as it has bytes to move. -/
structure Transfer.Room (w : Transfer) : Prop where
  lt : w.uio.resid < 2 ^ 32
  le : w.uio.resid ≤ w.uio.iovLen

theorem Transfer.Room.advance (h : w.Room) (hn : n ≤ w.uio.resid) : (w.advance n).Room := by
  have hres := Uio.advance_resid h.lt hn
  have hlt := h.lt
  have hle := h.le
  constructor
  · show (w.uio.advance n).resid < 2 ^ 32
    omega
  · show (w.uio.advance n).resid ≤ w.uio.iovLen - n
    omega

/-- No copy faults. -/
def Transfer.NoFaults (w : Transfer) : Prop := ∀ i, w.faults i = none

theorem Transfer.NoFaults.fault (h : w.NoFaults) : w.fault = none := by
  simp only [Transfer.fault, h w.copies, ite_self]

/-- `n` bytes of the buffer were delivered to the caller. -/
structure Delivered (w : Transfer) (n : Nat) (buf : ByteStore) (ptr : Nat) (w' : Transfer) :
    Prop where
  uio : w'.uio = w.uio.advance n
  mem : w'.mem = w.mem.blit w.uio.iovBase n buf ptr
  faults : w'.faults = w.faults

theorem Delivered.room {c : Nat} {w' : Transfer} (h : Delivered w n buf c w') (hw : w.Room)
    (hn : n ≤ w.uio.resid) : w'.Room := by
  have hroom := hw.advance hn
  exact ⟨h.uio ▸ hroom.lt, h.uio ▸ hroom.le⟩

theorem Delivered.noFaults {c : Nat} {w' : Transfer} (h : Delivered w n buf c w')
    (hf : w.NoFaults) : w'.NoFaults := by
  intro i
  rw [h.faults]
  exact hf i

theorem Delivered.append {m : Nat} {w₁ w₂ : Transfer} {src : ByteStore} {c : Nat}
    (hw : w.Room) (hn : n + m ≤ w.uio.resid) (h₁ : Delivered w n src c w₁)
    (h₂ : Delivered w₁ m src (c + n) w₂) : Delivered w (n + m) src c w₂ := by
  refine ⟨?_, ?_, h₂.faults.trans h₁.faults⟩
  · rw [h₂.uio, h₁.uio, Uio.advance_advance hw.lt hn]
  · rw [h₂.mem, h₁.mem, h₁.uio, Uio.advance_iovBase, ByteStore.blit_blit_append]

theorem wp_uiomove_none : wp (uiomove ptr 0 buf) Q E w ↔ Q buf w := Iff.rfl

private theorem Delivered.none (hw : w.Room) : Delivered w 0 buf ptr w :=
  ⟨(Uio.advance_none hw.lt).symm, (ByteStore.blit_none ..).symm, rfl⟩

theorem wp_uiomove_read (hw : w.Room) (hf : w.NoFaults) (hrw : w.uio.rw = .read)
    (hn : n ≤ w.uio.resid) :
    wp (uiomove ptr n buf) (fun _ w' => Delivered w n buf ptr w') E w := by
  cases n with
  | zero => exact wp_uiomove_none.mpr (.none hw)
  | succ n =>
    rw [wp_uiomove_of_no_fault hf.fault (Nat.succ_pos n) (Nat.le_trans hn hw.le) hn]
    exact ⟨rfl, Transfer.copied_mem_of_read hrw, rfl⟩

private theorem wp_uiomovezerosLoop (hw : w.Room) (hf : w.NoFaults) (hrw : w.uio.rw = .read)
    (hn : n ≤ w.uio.resid) {rounds : Nat} (hrounds : n ≤ rounds) :
    wp (uiomovezerosLoop rounds n) (fun _ w' => Delivered w n zeros 0 w') E w := by
  induction rounds generalizing w n with
  | zero =>
    have h0 : n = 0 := by omega
    subst h0
    exact .none hw
  | succ rounds ih =>
    rw [uiomovezerosLoop, wp_ite]
    split
    case isTrue h0 =>
      subst h0
      exact .none hw
    case isFalse h0 =>
      rw [wp_bind]
      have hamt : 0 < min 16 n ∧ min 16 n ≤ n := by omega
      generalize min 16 n = amt at hamt
      apply wp_mono_post (wp_uiomove_read hw hf hrw (by omega))
      intro _ w₁ h₁
      have hres₁ : w₁.uio.resid = w.uio.resid - amt := by
        rw [h₁.uio, Uio.advance_resid hw.lt (by omega)]
      have hroom₁ := h₁.room hw (by omega)
      have hrw₁ : w₁.uio.rw = .read := by rw [h₁.uio, Uio.advance_rw, hrw]
      apply wp_mono_post (ih (n := n - amt) hroom₁ (h₁.noFaults hf) hrw₁ (by omega) (by omega))
      intro _ w₂ h₂
      have hsame : Delivered w₁ (n - amt) zeros (0 + amt) w₂ :=
        ⟨h₂.uio, h₂.mem.trans (ByteStore.blit_congr fun _ _ => rfl), h₂.faults⟩
      have hall := h₁.append hw (by omega) hsame
      rw [show amt + (n - amt) = n by omega] at hall
      exact hall

/-- `uiomovezeros` delivers zeros. -/
theorem wp_uiomovezeros (hw : w.Room) (hf : w.NoFaults) (hrw : w.uio.rw = .read)
    (hn : n ≤ w.uio.resid) :
    wp (uiomovezeros n) (fun _ w' => Delivered w n zeros 0 w') E w :=
  wp_uiomovezerosLoop hw hf hrw hn (Nat.le_refl n)

end

end CseOs.Kernel.Sfs
