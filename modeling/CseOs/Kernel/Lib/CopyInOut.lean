import CseOs.Framework.ByteStore
import CseOs.Framework.Program
import CseOs.Kernel.Errno
import CseOs.Kernel.Vm.Segments

/-!
# Copies between the kernel and user space: `copyinout.c`

`copycheck` is the only barrier between a user pointer and kernel memory. A fault on a user address is
caught by `copyfail` while a copy is under way.
-/

namespace CseOs.Kernel

open Framework Prog

/-- Memory as a user pointer and as a kernel pointer reaches it. A touch of a user address in `bad` is a
fatal fault; `badfaultfunc` says whether `pcb_badfaultfunc` is set. -/
structure CopySt where
  user : ByteStore
  kernel : ByteStore
  bad : Nat → Bool
  touched : List Nat
  badfaultfunc : Bool

inductive Ptr where
  | user (a : Nat)
  | kernel (a : Nat)
  deriving DecidableEq

namespace CopySt

def touch (s : CopySt) (a : Nat) : CopySt := { s with touched := a :: s.touched }

def arm (s : CopySt) : CopySt := { s with badfaultfunc := true }

def disarm (s : CopySt) : CopySt := { s with badfaultfunc := false }

def byte (s : CopySt) : Ptr → UInt8
  | .user a => s.user a
  | .kernel a => s.kernel a

def setByte (s : CopySt) (c : UInt8) : Ptr → CopySt
  | .user a => { s with user := Function.update s.user a c }
  | .kernel a => { s with kernel := Function.update s.kernel a c }

end CopySt

namespace CopyInOut

/-- Pointer arithmetic on user addresses wraps. -/
def Ptr.add : Ptr → Nat → Ptr
  | .user a, i => .user ((a + i) % 2 ^ 32)
  | .kernel a, i => .kernel (a + i)

/-- A fatal fault resumes in `copyfail`, or is a panic. -/
def touch : Ptr → Prog CopySt Errno Unit
  | .kernel _ => return ()
  | .user a => do
    update fun s => s.touch a
    let s ← state
    if s.bad a then
      if s.badfaultfunc then raise .efault else diverge
    else return ()

def load (p : Ptr) : Prog CopySt Errno UInt8 := do
  touch p
  let s ← state
  return s.byte p

def store (p : Ptr) (c : UInt8) : Prog CopySt Errno Unit := do
  touch p
  update fun s => s.setByte c p

def memcpy (dest src : Ptr) (len : Nat) : Prog CopySt Errno Unit :=
  loop len fun i => do
    let c ← load (Ptr.add src i)
    store (Ptr.add dest i) c

/-- `bot+len-1` -/
def top (bot len : Nat) : Nat := (bot + len + 4294967295) % 4294967296

/-- Returns `stoplen`. -/
def copycheck {σ : Type} (userptr len : Nat) : Prog σ Errno Nat := do
  raiseIf (top userptr len < userptr) .efault
  raiseIf (userptr ≥ userTop) .efault
  if top userptr len ≥ userTop then return userTop - userptr else return len

/-- `setjmp` and `copyfail` around a copy. -/
def guarded {β : Type} (x : Prog CopySt Errno β) : Prog CopySt Errno β := do
  update CopySt.arm
  ensuring x CopySt.disarm

/-- A single block that cannot be truncated; `userptr` is the user's end of the copy. -/
def copyBlock (dest src : Ptr) (userptr len : Nat) : Prog CopySt Errno Unit := do
  let stoplen ← copycheck userptr len
  raiseIf (stoplen ≠ len) .efault
  guarded (memcpy dest src len)

def copyin (usersrc dest len : Nat) : Prog CopySt Errno Unit :=
  copyBlock (.kernel dest) (.user usersrc) usersrc len

def copyout (src userdest len : Nat) : Prog CopySt Errno Unit :=
  copyBlock (.user userdest) (.kernel src) userdest len

/-- The loop of `copystr` from index `i` with `rounds` rounds left. -/
def copystrFrom (dest src : Ptr) (maxlen stoplen : Nat) : Nat → Nat → Prog CopySt Errno Nat
  | 0, _ => raise (if stoplen < maxlen then .efault else .enametoolong)
  | rounds + 1, i => do
    let c ← load (Ptr.add src i)
    store (Ptr.add dest i) c
    let c' ← load (Ptr.add src i)
    if c' = 0 then return i + 1 else copystrFrom dest src maxlen stoplen rounds (i + 1)

/-- Returns `gotlen`. -/
def copystr (dest src : Ptr) (maxlen stoplen : Nat) : Prog CopySt Errno Nat :=
  copystrFrom dest src maxlen stoplen (min maxlen stoplen) 0

def copyString (dest src : Ptr) (userptr len : Nat) : Prog CopySt Errno Nat := do
  let stoplen ← copycheck userptr len
  guarded (copystr dest src len stoplen)

def copyinstr (usersrc dest len : Nat) : Prog CopySt Errno Nat :=
  copyString (.kernel dest) (.user usersrc) usersrc len

def copyoutstr (src userdest len : Nat) : Prog CopySt Errno Nat :=
  copyString (.user userdest) (.kernel src) userdest len

/-- No address at or above `USERTOP` was reached through a user pointer. -/
def Confined (s : CopySt) : Prop := ∀ a ∈ s.touched, a < userTop

def UserSafe : Ptr → Prop
  | .user a => a < userTop
  | .kernel _ => True

/-- The first `n` bytes behind the pointer are below `USERTOP`. -/
def Reaches (p : Ptr) (n : Nat) : Prop := ∀ i < n, UserSafe (Ptr.add p i)

variable {s t : CopySt} {p dest src : Ptr} {addr len n a : Nat} {c : UInt8}

private theorem Confined.touch (h : Confined s) (ha : a < userTop) : Confined (s.touch a) := by
  intro b hb
  cases List.mem_cons.mp hb with
  | inl heq => exact heq ▸ ha
  | inr hold => exact h b hold

/-- A state in the middle of a copy. -/
def Underway (s : CopySt) : Prop := Confined s ∧ s.badfaultfunc = true

private theorem wp_touch_underway (h : Underway s) (hp : UserSafe p) :
    wp (touch p) (fun _ => Underway) (fun _ => Confined) s := by
  cases p with
  | kernel a => exact h
  | user a =>
    have hnext : Underway (s.touch a) := ⟨h.1.touch hp, h.2⟩
    have harmed : (s.touch a).badfaultfunc = true := h.2
    simp only [touch, wp_bind, wp_update, wp_state, wp_ite, wp_raise, wp_pure, harmed, if_pos]
    split
    · exact hnext.1
    · exact hnext

private theorem wp_load_underway (h : Underway s) (hp : UserSafe p) :
    wp (load p) (fun _ => Underway) (fun _ => Confined) s := by
  rw [load, wp_bind]
  exact wp_mono_post (wp_touch_underway h hp) fun _ _ ht => ht

private theorem wp_store_underway (h : Underway s) (hp : UserSafe p) :
    wp (store p c) (fun _ => Underway) (fun _ => Confined) s := by
  rw [store, wp_bind]
  apply wp_mono_post (wp_touch_underway h hp)
  intro _ t ht
  cases p with
  | kernel a => exact ht
  | user a => exact ht

private theorem wp_memcpy_underway (h : Underway s) (hdest : Reaches dest len) (hsrc : Reaches src len) :
    wp (memcpy dest src len) (fun _ => Underway) (fun _ => Confined) s := by
  apply wp_loop (fun _ => Underway) h
  · intro i t hi ht
    rw [wp_bind]
    apply wp_mono_post (wp_load_underway ht (hsrc i hi))
    intro c t' ht'
    exact wp_store_underway ht' (hdest i hi)
  · intro t ht
    exact ht

private theorem wp_copystrFrom_underway {maxlen stoplen rounds i : Nat} (h : Underway s)
    (hdest : Reaches dest (i + rounds)) (hsrc : Reaches src (i + rounds)) :
    wp (copystrFrom dest src maxlen stoplen rounds i) (fun _ => Underway) (fun _ => Confined) s := by
  induction rounds generalizing i s with
  | zero => exact h.1
  | succ rounds ih =>
    have hi : i < i + (rounds + 1) := by omega
    rw [copystrFrom, wp_bind]
    apply wp_mono_post (wp_load_underway h (hsrc i hi))
    intro c t ht
    rw [wp_bind]
    apply wp_mono_post (wp_store_underway ht (hdest i hi))
    intro _ t ht
    rw [wp_bind]
    apply wp_mono_post (wp_load_underway ht (hsrc i hi))
    intro c' t ht
    rw [wp_ite]
    split
    · exact ht
    · apply ih ht
      · rwa [Nat.add_assoc, Nat.add_comm 1]
      · rwa [Nat.add_assoc, Nat.add_comm 1]

private theorem wp_guarded_confined {β : Type} {x : Prog CopySt Errno β} (h : Confined s)
    (hx : ∀ s, Underway s → wp x (fun _ => Underway) (fun _ => Confined) s) :
    wp (guarded x) (fun _ => Confined) (fun _ => Confined) s := by
  rw [guarded, wp_bind, wp_update, wp_ensuring]
  exact wp_mono_post (hx s.arm ⟨h, rfl⟩) fun _ _ ht => ht.1

private theorem wp_checks {σ : Type} {s : σ} {Q : Nat → σ → Prop} {E : Errno → σ → Prop}
    (last bound : Nat) :
    wp (do
      raiseIf (last < addr) .efault
      raiseIf (addr ≥ bound) .efault
      if last ≥ bound then return bound - addr else return len : Prog σ Errno Nat) Q E s ↔
    if last < addr then E .efault s else if addr ≥ bound then E .efault s
      else if last ≥ bound then Q (bound - addr) s else Q len s := by
  simp only [wp_bind, wp_raiseIf, wp_ite, wp_pure]

theorem wp_copycheck {σ : Type} {s : σ} {Q : Nat → σ → Prop} {E : Errno → σ → Prop}
    (haddr : addr < 2 ^ 32) (hlen : len < 2 ^ 32) : wp (copycheck addr len) Q E s ↔
      if userTop ≤ addr ∨ 2 ^ 32 < addr + len ∨ (len = 0 ∧ addr ≠ 0) then E .efault s
      else Q (if len = 0 then userTop else min len (userTop - addr)) s := by
  have hlast : top addr len = (addr + len + 4294967295) % 4294967296 := by
    rw [top]
  have htop : userTop = 2147483648 := by rw [userTop, mipsKseg0]
  rw [copycheck, wp_checks]
  by_cases hwrap : top addr len < addr
  · have hstop : userTop ≤ addr ∨ 2 ^ 32 < addr + len ∨ (len = 0 ∧ addr ≠ 0) := by omega
    rw [if_pos hwrap, if_pos hstop]
  · rw [if_neg hwrap]
    by_cases hkernel : addr ≥ userTop
    · rw [if_pos hkernel, if_pos (.inl hkernel)]
    · have hgo : ¬ (userTop ≤ addr ∨ 2 ^ 32 < addr + len ∨ (len = 0 ∧ addr ≠ 0)) := by omega
      rw [if_neg hkernel, if_neg hgo]
      by_cases hzero : len = 0
      · have hover : top addr len ≥ userTop := by omega
        rw [if_pos hover, if_pos hzero, show userTop - addr = userTop by omega]
      · rw [if_neg hzero]
        by_cases hover : top addr len ≥ userTop
        · rw [if_pos hover, Nat.min_eq_right (by omega)]
        · rw [if_neg hover, Nat.min_eq_left (by omega)]

private theorem reaches_user (hn : addr + n ≤ userTop) : Reaches (.user addr) n := by
  intro i hi
  show (addr + i) % 2 ^ 32 < userTop
  rw [userTop, mipsKseg0] at hn ⊢
  omega

private theorem reaches_kernel : Reaches (.kernel a) n := fun _ _ => trivial

/-- The user's end of a copy begins at `addr`. -/
def EndsAt (dest src : Ptr) (addr : Nat) : Prop :=
  (∃ a, dest = .kernel a ∧ src = .user addr) ∨ ∃ a, dest = .user addr ∧ src = .kernel a

private theorem EndsAt.reaches (h : EndsAt dest src addr) (hn : addr + n ≤ userTop) :
    Reaches dest n ∧ Reaches src n := by
  cases h with
  | inl hin =>
    obtain ⟨a, rfl, rfl⟩ := hin
    exact ⟨reaches_kernel, reaches_user hn⟩
  | inr hout =>
    obtain ⟨a, rfl, rfl⟩ := hout
    exact ⟨reaches_user hn, reaches_kernel⟩

private theorem Reaches.mono {m : Nat} (h : Reaches p n) (hm : m ≤ n) : Reaches p m :=
  fun i hi => h i (Nat.lt_of_lt_of_le hi hm)

private theorem wp_copyBlock_confined (h : Confined s) (haddr : addr < 2 ^ 32) (hlen : len < 2 ^ 32)
    (hends : EndsAt dest src addr) :
    wp (copyBlock dest src addr len) (fun _ => Confined) (fun _ => Confined) s := by
  rw [copyBlock, wp_bind, wp_copycheck haddr hlen]
  split
  · exact h
  · next hgo =>
    generalize hstop : (if len = 0 then userTop else min len (userTop - addr)) = stoplen
    rw [wp_bind, wp_raiseIf]
    split
    · exact h
    · next hsame =>
      have hreach := hends.reaches (n := len) (by
        split at hstop <;> omega)
      exact wp_guarded_confined h fun s hs => wp_memcpy_underway hs hreach.1 hreach.2

private theorem wp_copyString_confined (h : Confined s) (haddr : addr < 2 ^ 32) (hlen : len < 2 ^ 32)
    (hends : EndsAt dest src addr) :
    wp (copyString dest src addr len) (fun _ => Confined) (fun _ => Confined) s := by
  rw [copyString, wp_bind, wp_copycheck haddr hlen]
  split
  · exact h
  · next hgo =>
    apply wp_guarded_confined h
    intro s hs
    have hreach := hends.reaches (n := userTop - addr) (by omega)
    apply wp_copystrFrom_underway hs
    · apply hreach.1.mono
      split <;> omega
    · apply hreach.2.mono
      split <;> omega

def Calm (s : CopySt) : Prop := ∀ a, s.bad a = false

/-- `t` is `s` after `n` bytes were copied. -/
structure Copied (s : CopySt) (dest src : Ptr) (n : Nat) (t : CopySt) : Prop where
  calm : Calm t
  bytes : ∀ i < n, t.byte (Ptr.add dest i) = s.byte (Ptr.add src i)
  frame : ∀ p, (∀ i < n, p ≠ Ptr.add dest i) → t.byte p = s.byte p

/-- The bytes written are distinct, and none of them is a byte that is read. -/
structure Apart (dest src : Ptr) (n : Nat) : Prop where
  apart : ∀ i j, Ptr.add src i ≠ Ptr.add dest j
  inj : ∀ i < n, ∀ j < i, Ptr.add dest j ≠ Ptr.add dest i

private theorem byte_setByte (s : CopySt) (c : UInt8) (p q : Ptr) :
    (s.setByte c p).byte q = if q = p then c else s.byte q := by
  cases p <;> cases q <;> simp [CopySt.setByte, CopySt.byte, Function.update]

private theorem EndsAt.apart (h : EndsAt dest src addr) (hn : addr + n ≤ userTop) : Apart dest src n := by
  cases h with
  | inl hin =>
    obtain ⟨a, rfl, rfl⟩ := hin
    refine ⟨fun i j => nofun, fun i hi j hj heq => ?_⟩
    have := Ptr.kernel.inj heq
    omega
  | inr hout =>
    obtain ⟨a, rfl, rfl⟩ := hout
    refine ⟨fun i j => nofun, fun i hi j hj heq => ?_⟩
    have := Ptr.user.inj heq
    rw [userTop, mipsKseg0] at hn
    omega

private theorem wp_touch_calm {E : Errno → CopySt → Prop} (h : Calm s) :
    wp (touch p) (fun _ t => Calm t ∧ t.byte = s.byte) E s := by
  cases p with
  | kernel a => exact ⟨h, rfl⟩
  | user a =>
    have hgood : (s.touch a).bad a = false := h a
    have hbyte : (s.touch a).byte = s.byte := by
      funext q
      cases q <;> rfl
    simp only [touch, wp_bind, wp_update, wp_state, hgood]
    exact ⟨h, hbyte⟩

private theorem wp_load_calm {E : Errno → CopySt → Prop} (h : Calm s) :
    wp (load p) (fun c t => c = s.byte p ∧ Calm t ∧ t.byte = s.byte) E s := by
  rw [load, wp_bind]
  apply wp_mono_post (wp_touch_calm h)
  intro _ t ht
  exact ⟨by rw [ht.2], ht⟩

private theorem wp_store_calm {E : Errno → CopySt → Prop} (h : Calm s) :
    wp (store p c) (fun _ t => Calm t ∧ ∀ q, t.byte q = if q = p then c else s.byte q) E s := by
  rw [store, wp_bind]
  apply wp_mono_post (wp_touch_calm h)
  intro _ t ht
  refine ⟨?_, fun q => ?_⟩
  · cases p with
    | kernel a => exact ht.1
    | user a => exact ht.1
  · rw [byte_setByte, ht.2]

private theorem Copied.start (h : Calm s) : Copied s dest src 0 s := ⟨h, nofun, fun _ _ => rfl⟩

theorem wp_copyByte {E : Errno → CopySt → Prop} {i : Nat} (hapart : Apart dest src n)
    (hi : i < n) (h : Copied s dest src i t) :
    wp (do
      let c ← load (Ptr.add src i)
      store (Ptr.add dest i) c) (fun _ t' => Copied s dest src (i + 1) t') E t := by
  have hsrc : t.byte (Ptr.add src i) = s.byte (Ptr.add src i) :=
    h.frame _ fun j _ => hapart.apart i j
  rw [wp_bind]
  apply wp_mono_post (wp_load_calm h.calm)
  intro c t₁ h₁
  apply wp_mono_post (wp_store_calm h₁.2.1)
  intro _ t₂ h₂
  refine ⟨h₂.1, fun j hj => ?_, fun p hp => ?_⟩
  · rw [h₂.2]
    by_cases hlast : j = i
    · rw [hlast, if_pos rfl, h₁.1, hsrc]
    · have hlt : j < i := by omega
      rw [if_neg (hapart.inj i hi j hlt), h₁.2.2]
      exact h.bytes j hlt
  · rw [h₂.2, if_neg (hp i (Nat.lt_succ_self i)), h₁.2.2]
    exact h.frame p fun j hj => hp j (Nat.lt_succ_of_lt hj)

private theorem wp_memcpy {E : Errno → CopySt → Prop} (hapart : Apart dest src len)
    (h : Calm s) : wp (memcpy dest src len) (fun _ t => Copied s dest src len t) E s :=
  wp_loop (fun i t => Copied s dest src i t) (.start h)
    (fun _ _ hi ht => wp_copyByte hapart hi ht) fun _ ht => ht

/-- The string at `p` is `n` bytes long. -/
def Terminates (s : CopySt) (p : Ptr) (n : Nat) : Prop :=
  s.byte (Ptr.add p n) = 0 ∧ ∀ i < n, s.byte (Ptr.add p i) ≠ 0

private theorem wp_copystrFrom {maxlen stoplen rounds i : Nat} (hapart : Apart dest src (i + rounds))
    (h : Copied s dest src i t) (hnone : ∀ j < i, s.byte (Ptr.add src j) ≠ 0) :
    wp (copystrFrom dest src maxlen stoplen rounds i)
      (fun got t' => ∃ m, got = m + 1 ∧ m < i + rounds ∧ Terminates s src m ∧
        Copied s dest src (m + 1) t')
      (fun e _ => (∀ m < i + rounds, s.byte (Ptr.add src m) ≠ 0) ∧
        e = if stoplen < maxlen then .efault else .enametoolong) t := by
  induction rounds generalizing i t with
  | zero => exact ⟨hnone, rfl⟩
  | succ rounds ih =>
    have hi : i < i + (rounds + 1) := by omega
    have hbyte := wp_copyByte (E := fun _ _ => False) hapart hi h
    rw [wp_bind] at hbyte
    rw [copystrFrom, wp_bind]
    apply wp_mono hbyte
    · intro c t₁ h₁
      rw [wp_bind]
      apply wp_mono h₁
      · intro _ t₂ h₂
        rw [wp_bind]
        apply wp_mono_post (wp_load_calm h₂.calm)
        intro c' t₃ h₃
        have hsrc : c' = s.byte (Ptr.add src i) := by
          rw [h₃.1]
          exact h₂.frame _ fun j _ => hapart.apart i j
        have hcopied : Copied s dest src (i + 1) t₃ :=
          ⟨h₃.2.1, fun j hj => by rw [h₃.2.2]; exact h₂.bytes j hj,
            fun p hp => by rw [h₃.2.2]; exact h₂.frame p hp⟩
        rw [wp_ite, hsrc]
        split
        · next hzero => exact ⟨i, rfl, hi, ⟨hzero, hnone⟩, hcopied⟩
        · next hmore =>
          have hrounds : i + 1 + rounds = i + (rounds + 1) := by omega
          have hrest := ih (i := i + 1) (by rwa [hrounds]) hcopied (by
            intro j hj
            cases Nat.lt_succ_iff_lt_or_eq.mp hj with
            | inl hlt => exact hnone j hlt
            | inr heq => exact heq ▸ hmore)
          rwa [hrounds] at hrest
      · intro _ _ hno
        exact hno.elim
    · intro _ _ hno
      exact hno.elim

private theorem Copied.disarm (h : Copied s dest src n t) : Copied s dest src n t.disarm := by
  have hbyte : t.disarm.byte = t.byte := by
    funext q
    cases q <;> rfl
  refine ⟨h.calm, fun i hi => ?_, fun p hp => ?_⟩
  · rw [hbyte]
    exact h.bytes i hi
  · rw [hbyte]
    exact h.frame p hp

private theorem byte_arm (s : CopySt) : s.arm.byte = s.byte := by
  funext q
  cases q <;> rfl

private theorem Copied.of_arm (h : Copied s.arm dest src n t) : Copied s dest src n t :=
  ⟨h.calm, fun i hi => by rw [h.bytes i hi, byte_arm], fun p hp => by rw [h.frame p hp, byte_arm]⟩

/-- The range `[addr, addr+len)` does not wrap, and all its bytes are below `USERTOP`. -/
def InUser (addr len : Nat) : Prop := addr + len ≤ 2 ^ 32 ∧ ∀ i < len, addr + i < userTop

/-- A block copy succeeds exactly if its range is in user space, and otherwise returns `EFAULT`. -/
def BlockSpec (x : Prog CopySt Errno Unit) (dest src : Ptr) (addr len : Nat) (s : CopySt) : Prop :=
  wp x (fun _ t => InUser addr len ∧ Copied s dest src len t)
    (fun e _ => ¬ InUser addr len ∧ e = .efault) s

/-- A string copy takes the terminator with it where it is within both limits, and otherwise names the
limit that it hit. -/
def StringSpec (x : Prog CopySt Errno Nat) (dest src : Ptr) (addr len : Nat) (s : CopySt) : Prop :=
  wp x (fun got t => ∃ n, got = n + 1 ∧ n < len ∧ n < userTop - addr ∧ Terminates s src n ∧
      Copied s dest src (n + 1) t)
    (fun e _ => (∀ n < len, n < userTop - addr → s.byte (Ptr.add src n) ≠ 0) ∧
      e = if userTop - addr < len then .efault else .enametoolong) s

/-- When `copycheck` does not spoil a string copy. -/
def StringFits (src : Ptr) (addr len : Nat) (s : CopySt) : Prop :=
  (len ≠ 0 ∨ addr = 0) ∧
    (addr + len ≤ 2 ^ 32 ∨ ∀ n < userTop - addr, s.byte (Ptr.add src n) ≠ 0)

private theorem copyBlock_iff (h : Calm s) (haddr : addr < 2 ^ 32) (hlen : len < 2 ^ 32)
    (hends : EndsAt dest src addr) :
    BlockSpec (copyBlock dest src addr len) dest src addr len s ↔ len ≠ 0 := by
  have htop : userTop = 2147483648 := by rw [userTop, mipsKseg0]
  have hin : InUser addr len ↔ len = 0 ∨ addr + len ≤ userTop := by
    constructor
    · intro hin
      by_cases hzero : len = 0
      · exact .inl hzero
      · have hlast := hin.2 (len - 1) (by omega)
        exact .inr (by omega)
    · intro hle
      exact ⟨by omega, fun i hi => by omega⟩
  rw [BlockSpec, copyBlock, wp_bind, wp_copycheck haddr hlen, hin]
  split
  · next hstop =>
    constructor
    · intro hfail hzero
      exact hfail.1 (.inl hzero)
    · intro hzero
      exact ⟨by omega, rfl⟩
  · next hgo =>
    generalize hstop : (if len = 0 then userTop else min len (userTop - addr)) = stoplen
    rw [wp_bind, wp_raiseIf]
    split
    · next hcut =>
      constructor
      · intro hfail hzero
        exact hfail.1 (.inl hzero)
      · intro hzero
        rw [if_neg hzero] at hstop
        exact ⟨by omega, rfl⟩
    · next hsame =>
      have hfits : len ≠ 0 ∧ addr + len ≤ userTop := by
        split at hstop <;> omega
      refine iff_of_true ?_ hfits.1
      rw [guarded, wp_bind, wp_update, wp_ensuring]
      apply wp_mono_post (wp_memcpy (hends.apart hfits.2) (show Calm s.arm from h))
      intro _ t ht
      exact ⟨.inr hfits.2, ht.of_arm.disarm⟩

private theorem copyString_iff (h : Calm s) (haddr : addr < 2 ^ 32) (hlen : len < 2 ^ 32)
    (hends : EndsAt dest src addr) :
    StringSpec (copyString dest src addr len) dest src addr len s ↔ StringFits src addr len s := by
  have htop : userTop = 2147483648 := by rw [userTop, mipsKseg0]
  rw [StringSpec, copyString, wp_bind, wp_copycheck haddr hlen, StringFits]
  split
  · next hstop =>
    constructor
    · intro hfail
      have hlt : userTop - addr < len := by
        by_contra hge
        rw [if_neg hge] at hfail
        cases hfail.2
      refine ⟨.inl (by omega), .inr fun n hn => hfail.1 n (by omega) hn⟩
    · intro hfits
      have hlt : userTop - addr < len := by omega
      rw [if_pos hlt]
      refine ⟨fun n hn hn' => ?_, rfl⟩
      cases hfits.2 with
      | inl hle => omega
      | inr hnone => exact hnone n hn'
  · next hgo =>
    refine iff_of_true ?_ ⟨by omega, .inl (by omega)⟩
    generalize hstop : (if len = 0 then userTop else min len (userTop - addr)) = stoplen
    have hrounds : min len stoplen = min len (userTop - addr) := by
      split at hstop <;> omega
    have hlimit : stoplen < len ↔ userTop - addr < len := by
      split at hstop <;> omega
    have hapart : Apart dest src (0 + min len (userTop - addr)) := hends.apart (by omega)
    rw [guarded, wp_bind, wp_update, wp_ensuring, copystr, hrounds]
    have hnone : ∀ j < 0, s.arm.byte (Ptr.add src j) ≠ 0 := fun j hj => absurd hj (Nat.not_lt_zero j)
    apply wp_mono (wp_copystrFrom hapart (.start (show Calm s.arm from h)) hnone)
    · intro got t hgot
      obtain ⟨n, hn, hlt, hterm, hcopied⟩ := hgot
      rw [Terminates, byte_arm] at hterm
      exact ⟨n, hn, by omega, by omega, hterm, hcopied.of_arm.disarm⟩
    · intro e t hfail
      rw [byte_arm] at hfail
      refine ⟨fun n hn hn' => hfail.1 n (by omega), ?_⟩
      rw [hfail.2]
      simp only [hlimit]

/-- The boundary of user space. Nothing above it is ever touched, whatever faults. Without faults, blocks
are copied exactly if they lie below it unless they are empty, and string copies respect both limits
unless the buffer is empty, or runs around the end of the address space with the terminator in front of
`USERTOP`. -/
theorem copy_boundary (haddr : addr < 2 ^ 32) (hlen : len < 2 ^ 32) (hs : Confined s) (kptr : Nat) :
    (wp (copyin addr kptr len) (fun _ => Confined) (fun _ => Confined) s ∧
      wp (copyout kptr addr len) (fun _ => Confined) (fun _ => Confined) s ∧
      wp (copyinstr addr kptr len) (fun _ => Confined) (fun _ => Confined) s ∧
      wp (copyoutstr kptr addr len) (fun _ => Confined) (fun _ => Confined) s) ∧
    (Calm s →
      (BlockSpec (copyin addr kptr len) (.kernel kptr) (.user addr) addr len s ↔ len ≠ 0) ∧
      (BlockSpec (copyout kptr addr len) (.user addr) (.kernel kptr) addr len s ↔ len ≠ 0) ∧
      (StringSpec (copyinstr addr kptr len) (.kernel kptr) (.user addr) addr len s ↔
        StringFits (.user addr) addr len s) ∧
      (StringSpec (copyoutstr kptr addr len) (.user addr) (.kernel kptr) addr len s ↔
        StringFits (.kernel kptr) addr len s)) := by
  have hin : EndsAt (.kernel kptr) (.user addr) addr := .inl ⟨kptr, rfl, rfl⟩
  have hout : EndsAt (.user addr) (.kernel kptr) addr := .inr ⟨kptr, rfl, rfl⟩
  refine ⟨⟨?_, ?_, ?_, ?_⟩, fun hcalm => ⟨?_, ?_, ?_, ?_⟩⟩
  · exact wp_copyBlock_confined hs haddr hlen hin
  · exact wp_copyBlock_confined hs haddr hlen hout
  · exact wp_copyString_confined hs haddr hlen hin
  · exact wp_copyString_confined hs haddr hlen hout
  · exact copyBlock_iff hcalm haddr hlen hin
  · exact copyBlock_iff hcalm haddr hlen hout
  · exact copyString_iff hcalm haddr hlen hin
  · exact copyString_iff hcalm haddr hlen hout

/-- A thread that is not copying, with zeros everywhere. -/
private def idle : CopySt := ⟨fun _ => 0, fun _ => 0, fun _ => false, [], false⟩

theorem copy_boundary_last :
    BlockSpec (copyin 0x7ffffffc 0 4) (.kernel 0) (.user 0x7ffffffc) 0x7ffffffc 4 idle :=
  ((copy_boundary (by decide) (by decide) (show Confined idle from nofun) 0).2 fun _ => rfl).1.mpr
    (by decide)

/-- `copyin` of no bytes from 0x400000 returns `EFAULT`. So does `copyinstr` for the empty string at
0x7ffffff0 and a buffer of 2^32 - 1 bytes. -/
theorem empty_block_faults :
    ¬ BlockSpec (copyin 0x400000 0 0) (.kernel 0) (.user 0x400000) 0x400000 0 idle ∧
      ¬ StringSpec (copyinstr 0x7ffffff0 0 0xffffffff) (.kernel 0) (.user 0x7ffffff0) 0x7ffffff0
        0xffffffff idle := by
  have hcalm : Calm idle := fun _ => rfl
  refine ⟨fun h => ?_, fun h => ?_⟩
  · exact (copyBlock_iff hcalm (by decide) (by decide) (.inl ⟨0, rfl, rfl⟩)).mp h rfl
  · have hfits := (copyString_iff hcalm (by decide) (by decide) (.inl ⟨0, rfl, rfl⟩)).mp h
    cases hfits.2 with
    | inl hle => exact absurd hle (by decide)
    | inr hnone => exact hnone 0 (by decide) rfl

end CopyInOut

end CseOs.Kernel
