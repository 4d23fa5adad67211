import CseOs.Kernel.Sfs.Vnodes

/-!
# What a volume is for

Seen from outside a volume is a map from names to files, with the bytes of the files and the references to
them. What the calls of the vnode layer do is stated here in these terms, without blocks, inodes or slots.
-/

namespace CseOs.Kernel.Sfs

open Framework

/-- The names of a volume, the bytes of its files, and the references to them -/
structure Files where
  names : List UInt8 → Option Nat
  data : Nat → List UInt8
  refs : Nat → Nat

/-- The calls of the vnode layer on a volume. Those on names are for its one directory. -/
inductive Call where
  | getroot
  | lookup (path : List UInt8)
  | lookparent (path : List UInt8) (buflen : Nat)
  | creat (name : List UInt8) (excl : Bool)
  | link (name : List UInt8) (file : Nat)
  | remove (name : List UInt8)
  | rename (n1 n2 : List UInt8)
  | read (file : Nat) (w : Transfer)
  | write (file : Nat) (w : Transfer)
  | truncate (file : Nat)
  | stat (file : Nat)
  | fsync (file : Nat)
  | incref (file : Nat)
  | decref (file : Nat)
  | sync
  | remount
  | reboot

inductive Reply where
  | done
  | vnode (file : Nat)
  | parent (dir : Nat) (name : List UInt8)
  | moved (w : Transfer)
  | stat (st : SfsFs.Stat)

/-- The call changes bytes of the file from `lo` up to `hi`. -/
def Call.Changes (f lo hi : Nat) : Call → Prop
  | .write g w => g = f ∧ w.uio.offset < hi ∧ lo < w.uio.offset + w.uio.resid
  | .truncate g => g = f
  | _ => False

/-- The calls that take space and do not give it back when they fail -/
def Call.Fills : Call → Prop
  | .link _ _ | .write _ _ => True
  | _ => False

namespace Files

section

variable (a : Files) (f : Nat) (name : List UInt8)

/-- A volume without files -/
def empty : Files := ⟨fun _ => none, fun _ => [], fun _ => 0⟩

def Named : Prop := ∃ name, a.names name = some f

/-- A file that has a name, or is held -/
def Known : Prop := a.Named f ∨ 0 < a.refs f

def hold : Files := { a with refs := Function.update a.refs f (a.refs f + 1) }

def addName : Files := { a with names := Function.update a.names name (some f) }

def dropName : Files := { a with names := Function.update a.names name none }

def setData (bytes : List UInt8) : Files := { a with data := Function.update a.data f bytes }

def dropRefs : Files := { a with refs := fun _ => 0 }

open Classical in
/-- A file that has no name and no reference is gone. -/
noncomputable def reap : Files := if a.refs f = 0 ∧ ¬ a.Named f then a.setData f [] else a

noncomputable def release : Files :=
  reap { a with refs := Function.update a.refs f (a.refs f - 1) } f

/-- `n` bytes of memory are put at an offset, with zeros up to there. -/
def overwrite (old : List UInt8) (offset n : Nat) (mem : ByteStore) (base : Nat) : List UInt8 :=
  (List.range (max old.length (offset + n))).map fun i =>
    if offset ≤ i ∧ i < offset + n then mem (base + (i - offset)) else old.getD i 0

/-- The first `n` bytes of the request are written. -/
def written (w : Transfer) (n : Nat) : Files :=
  a.setData f (overwrite (a.data f) w.uio.offset n w.mem w.uio.iovBase)

/-- The bytes of a request that a file of `size` bytes has -/
def within (size : Nat) (w : Transfer) : Nat := min w.uio.resid (size - w.uio.offset)

/-- The bytes of a file are delivered to the request, as far as there are any. -/
structure Reads (old : List UInt8) (w w' : Transfer) : Prop where
  offset : w'.uio.offset = w.uio.offset + within old.length w
  resid : w'.uio.resid = w.uio.resid - within old.length w
  bytes : ∀ i < within old.length w, old[w.uio.offset + i]? = some (w'.mem (w.uio.iovBase + i))
  outside : ∀ x, x < w.uio.iovBase ∨ w.uio.iovBase + within old.length w ≤ x → w'.mem x = w.mem x

/-- What the callers see to. They hold the vnodes that they hand over, names end at their null, and a buffer
has room for its request. Only requests that end within an `off_t` are read, and nothing is written from
beyond the largest file on. A directory is not renamed. The system does not go down while a file is open
that has no name. -/
def Allowed : Call → Prop
  | .getroot | .sync | .remount => True
  | .lookup _ | .lookparent _ _ | .remove _ => 0 < a.refs rootIno
  | .creat name _ => 0 < a.refs rootIno ∧ 0 ∉ name
  | .link name f => 0 < a.refs rootIno ∧ 0 ∉ name ∧ 0 < a.refs f
  | .rename n1 n2 => 0 < a.refs rootIno ∧ 0 ∉ n2 ∧ a.names n1 ≠ some rootIno
  | .read f w => 0 < a.refs f ∧ w.Room ∧ w.NoFaults ∧ w.uio.rw = .read ∧ w.uio.offset + w.uio.resid < 2 ^ 31
  | .write f w => 0 < a.refs f ∧ w.Room ∧ w.uio.rw = .write ∧ w.uio.offset ≤ maxFileSize
  | .truncate f | .stat f | .fsync f | .incref f | .decref f => 0 < a.refs f
  | .reboot => ∀ f, 0 < a.refs f → f = rootIno ∨ a.Named f

/-- A file that nobody knows of -/
structure Unknown : Prop where
  root : f ≠ rootIno
  refs : a.refs f = 0
  named : ¬ a.Named f
  empty : a.data f = []

/-- Why a name cannot be given: it is taken, or too long, or there is no room. -/
def NameFails (e : Errno) : Prop :=
  if (a.names name).isSome then e = .eexist
  else if nameLen ≤ name.length then e = .enametoolong
  else e = .enospc ∨ e = .einval

/-- A write breaks off before its first byte, or between two blocks. There is no space for the next block, or
no place for it in a file, or the caller's memory faults. -/
structure WriteFails (w : Transfer) (n : Nat) (e : Errno) : Prop where
  place : n = 0 ∨ n < w.uio.resid ∧ (w.uio.offset + n) % blockSize = 0
  cause : e = .enospc ∨ e = .einval ∧ maxFileSize ≤ w.uio.offset + n ∨ e = .efault ∧ ¬ w.NoFaults

end

/-- What a call answers, and what it leaves -/
inductive Step (a : Files) : Call → Except Errno Reply → Files → Prop
  | getroot : Step a .getroot (.ok (.vnode rootIno)) (a.hold rootIno)
  | lookup {name : List UInt8} {f : Nat} (h : a.names name = some f) :
      Step a (.lookup name) (.ok (.vnode f)) (a.hold f)
  | lookup_none {name : List UInt8} (h : a.names name = none) : Step a (.lookup name) (.error .enoent) a
  | lookparent {name : List UInt8} {buflen : Nat} (h : name.length < buflen) :
      Step a (.lookparent name buflen) (.ok (.parent rootIno name)) (a.hold rootIno)
  | lookparent_long {name : List UInt8} {buflen : Nat} (h : buflen ≤ name.length) :
      Step a (.lookparent name buflen) (.error .enametoolong) a
  | creat_there {name : List UInt8} {f : Nat} (h : a.names name = some f) :
      Step a (.creat name false) (.ok (.vnode f)) (a.hold f)
  | creat_new {name : List UInt8} {f : Nat} {excl : Bool} (hname : a.names name = none)
      (hlen : name.length < nameLen) (hf : a.Unknown f) :
      Step a (.creat name excl) (.ok (.vnode f)) ((a.addName f name).hold f)
  | creat_taken {name : List UInt8} {f : Nat} (h : a.names name = some f) :
      Step a (.creat name true) (.error .eexist) a
  | creat_fails {name : List UInt8} {excl : Bool} {e : Errno} (h : a.names name = none)
      (he : e = .enospc ∨ a.NameFails name e) : Step a (.creat name excl) (.error e) a
  | link {name : List UInt8} {f : Nat} (hname : a.names name = none) (hlen : name.length < nameLen) :
      Step a (.link name f) (.ok .done) (a.addName f name)
  | link_fails {name : List UInt8} {f : Nat} {e : Errno} (h : a.NameFails name e) :
      Step a (.link name f) (.error e) a
  | remove {name : List UInt8} {f : Nat} (h : a.names name = some f) :
      Step a (.remove name) (.ok .done) ((a.dropName name).reap f)
  | remove_none {name : List UInt8} (h : a.names name = none) : Step a (.remove name) (.error .enoent) a
  | rename {n1 n2 : List UInt8} {f : Nat} (h1 : a.names n1 = some f) (h2 : a.names n2 = none)
      (hlen : n2.length < nameLen) : Step a (.rename n1 n2) (.ok .done) ((a.addName f n2).dropName n1)
  | rename_none {n1 n2 : List UInt8} (h : a.names n1 = none) : Step a (.rename n1 n2) (.error .enoent) a
  | rename_fails {n1 n2 : List UInt8} {f : Nat} {e : Errno} (h1 : a.names n1 = some f)
      (h2 : a.NameFails n2 e) : Step a (.rename n1 n2) (.error e) a
  | read {f : Nat} {w w' : Transfer} (hf : f ≠ rootIno) (h : Reads (a.data f) w w') :
      Step a (.read f w) (.ok (.moved w')) a
  | read_dir {w : Transfer} : Step a (.read rootIno w) (.error .eisdir) a
  | write {f : Nat} {w w' : Transfer} (hf : f ≠ rootIno) (huio : w'.uio = w.uio.advance w.uio.resid)
      (hmem : w'.mem = w.mem) : Step a (.write f w) (.ok (.moved w')) (a.written f w w.uio.resid)
  | write_fails {f : Nat} {w : Transfer} {e : Errno} {n : Nat} (hf : f ≠ rootIno) (h : WriteFails w n e) :
      Step a (.write f w) (.error e) (a.written f w n)
  | write_dir {w : Transfer} : Step a (.write rootIno w) (.error .eisdir) a
  | truncate {f : Nat} (hf : f ≠ rootIno) : Step a (.truncate f) (.ok .done) (a.setData f [])
  | truncate_dir : Step a (.truncate rootIno) (.error .eisdir) a
  | stat {f : Nat} (hf : f ≠ rootIno) : Step a (.stat f) (.ok (.stat ⟨.file, (a.data f).length, 0, 0⟩)) a
  | stat_dir {n : Nat} : Step a (.stat rootIno) (.ok (.stat ⟨.dir, n * direntSize, 0, 0⟩)) a
  | fsync {f : Nat} : Step a (.fsync f) (.ok .done) a
  | incref {f : Nat} : Step a (.incref f) (.ok .done) (a.hold f)
  | decref {f : Nat} : Step a (.decref f) (.ok .done) (a.release f)
  | sync : Step a .sync (.ok .done) a
  | remount (h : ∀ f, a.refs f = 0) : Step a .remount (.ok .done) a
  | remount_busy {f : Nat} (h : 0 < a.refs f) : Step a .remount (.error .ebusy) a
  | reboot : Step a .reboot (.ok .done) a.dropRefs

/-- Calls one after the other, with what they answer -/
inductive Run : Files → List (Call × Except Errno Reply) → Files → Prop
  | nil (a : Files) : Run a [] a
  | cons {a b c : Files} {call : Call} {r : Except Errno Reply} {calls : List (Call × Except Errno Reply)}
      (h : a.Step call r b) (hrun : Run b calls c) : Run a ((call, r) :: calls) c

section

variable {a b : Files} {f g i lo hi offset n base : Nat} {x : UInt8} {old : List UInt8} {mem : ByteStore}
  {w w' : Transfer} {call : Call} {r : Except Errno Reply}

theorem overwrite_inside (h : offset ≤ i) (h' : i < offset + n) :
    (overwrite old offset n mem base)[i]? = some (mem (base + (i - offset))) := by
  have hin : i < max old.length (offset + n) := lt_max_of_lt_right h'
  rw [overwrite, List.getElem?_map, List.getElem?_range hin, Option.map_some, if_pos ⟨h, h'⟩]

private theorem overwrite_outside (h : i < offset ∨ offset + n ≤ i) (hx : old[i]? = some x) :
    (overwrite old offset n mem base)[i]? = some x := by
  obtain ⟨hlt, _⟩ := List.getElem?_eq_some_iff.mp hx
  have hin : i < max old.length (offset + n) := lt_max_of_lt_left hlt
  have hout : ¬ (offset ≤ i ∧ i < offset + n) := by omega
  rw [overwrite, List.getElem?_map, List.getElem?_range hin, Option.map_some, if_neg hout,
    List.getD_eq_getElem?_getD, hx, Option.getD_some]

theorem setData_self (bytes : List UInt8) : (a.setData f bytes).data f = bytes := Function.update_self ..

private theorem setData_of_ne (bytes : List UInt8) (h : f ≠ g) : (a.setData g bytes).data f = a.data f :=
  Function.update_of_ne h ..

private theorem reap_data (h : (a.reap g).Known f) : (a.reap g).data f = a.data f := by
  rw [reap] at h ⊢
  split
  case isFalse => rfl
  case isTrue hgone =>
    rw [if_pos hgone] at h
    apply setData_of_ne
    rintro rfl
    cases h with
    | inl hnamed => exact hgone.2 hnamed
    | inr hheld => exact hheld.ne' hgone.1

theorem written_keeps (hquiet : ¬ (g = f ∧ w.uio.offset < hi ∧ lo < w.uio.offset + w.uio.resid))
    (hn : n ≤ w.uio.resid) (hlo : lo ≤ i) (hhi : i < hi) (hx : (a.data f)[i]? = some x) :
    ((a.written g w n).data f)[i]? = some x := by
  by_cases hgf : g = f
  · subst hgf
    rw [written, setData_self]
    apply overwrite_outside _ hx
    omega
  · rw [written, setData_of_ne _ fun he => hgf he.symm]
    exact hx

/-- A byte stays as it is while the file is known, and nobody changes it. -/
theorem Step.keeps (h : a.Step call r b) (hquiet : ¬ call.Changes f lo hi) (hknown : b.Known f) (hlo : lo ≤ i)
    (hhi : i < hi) (hx : (a.data f)[i]? = some x) : (b.data f)[i]? = some x := by
  cases h with
  | write => exact written_keeps hquiet le_rfl hlo hhi hx
  | write_fails _ h =>
    have hn := h.place
    exact written_keeps hquiet (by omega) hlo hhi hx
  | truncate =>
    rw [setData_of_ne _ fun he => hquiet he.symm]
    exact hx
  | remove =>
    rw [reap_data hknown]
    exact hx
  | decref =>
    rw [release] at hknown ⊢
    rw [reap_data hknown]
    exact hx
  | _ => exact hx

theorem Reads.whole (h : Reads old w w') (hin : ∀ i < w.uio.resid, old[w.uio.offset + i]? = some (mem (base + i))) :
    w'.uio.resid = 0 ∧ ∀ i < w.uio.resid, w'.mem (w.uio.iovBase + i) = mem (base + i) := by
  have hall : within old.length w = w.uio.resid := by
    apply Nat.min_eq_left
    by_cases h0 : w.uio.resid = 0
    · omega
    · obtain ⟨hlt, _⟩ := List.getElem?_eq_some_iff.mp (hin (w.uio.resid - 1) (by omega))
      omega
  have hresid := h.resid
  have hbytes := h.bytes
  rw [hall] at hresid hbytes
  refine ⟨by omega, fun i hi => ?_⟩
  have hread := hbytes i hi
  rw [hin i hi] at hread
  exact (Option.some.inj hread).symm

end

end Files

end CseOs.Kernel.Sfs
