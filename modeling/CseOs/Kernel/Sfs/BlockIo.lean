import CseOs.Kernel.Sfs.Uio

/-!
# Block I/O with retries: `lhd.c` and `sfs_io.c`

The driver moves data between the uio and the on-card buffer, and the disk reports a result for
every operation. `sfs_rwblock` issues a request again when the device fails, with the uio as the
failed attempt left it.
-/

namespace CseOs.Kernel.Sfs

open Framework Prog

/-- `SFS_BLOCKSIZE`, which is also `LHD_SECTSIZE`. -/
def blockSize : Nat := 512

/-- The blocks of the largest volume that `mksfs` makes. -/
def maxBlocks : Nat := 32 * (blockSize * 8)

/-- How an operation of the disk ends. A write that fails leaves something in its sector. -/
inductive LhdResult where
  | ok
  | invsect
  | media (left : ByteStore)

/-- The driver's view: the request, `d_blocks`, the sectors, the on-card buffer, and the results of
the disk's operations, of which `ops` were started. -/
structure Lhd where
  req : Transfer
  blocks : Nat
  disk : Nat → ByteStore
  buf : ByteStore
  results : Nat → LhdResult
  ops : Nat

namespace Lhd

def setReq (w : Transfer) (l : Lhd) : Lhd := { l with req := w }

def setBuf (buf : ByteStore) (l : Lhd) : Lhd := { l with buf := buf }

def setSector (sector : Nat) (bytes : ByteStore) (l : Lhd) : Lhd :=
  { l with disk := Function.update l.disk sector bytes }

def countOp (l : Lhd) : Lhd := { l with ops := l.ops + 1 }

/-- `uiomove` between the on-card buffer and the request. -/
def moveBuf : Prog Lhd Errno Unit := do
  let l ← state
  let buf ← zoom req setReq (uiomove 0 blockSize l.buf)
  update (setBuf buf)

/-- One operation of the disk, with its result as an error number. -/
def operate (sector : Nat) : Prog Lhd Errno Unit := do
  let l ← state
  update countOp
  match l.results l.ops with
  | .ok =>
    if l.req.uio.rw = .write then update (setSector sector l.buf) else update (setBuf (l.disk sector))
  | .invsect => raise .einval
  | .media left => do
    doIf (l.req.uio.rw = .write) (update (setSector sector left))
    raise .eio

/-- The body of the loop in `lhd_io`. -/
def ioSector (sector : Nat) : Prog Lhd Errno Unit := do
  let l ← state
  doIf (l.req.uio.rw = .write) moveBuf
  operate sector
  doIf (l.req.uio.rw = .read) moveBuf

/-- `lhd_io` -/
def io : Prog Lhd Errno Unit := do
  let l ← state
  let u := l.req.uio
  let sector := u.offset / blockSize
  let len := u.resid / blockSize
  raiseIf (u.offset % blockSize ≠ 0 ∨ u.resid % blockSize ≠ 0) .einval
  raiseIf (l.blocks < (sector + len) % 2 ^ 32) .einval
  loop len fun i => ioSector (sector + i)

/-- `sfs_rwblock` with `tries` retries left. -/
def rwblockRetry : Nat → Prog Lhd Errno Unit
  | 0, l =>
    match io l with
    | some (.error .einval, _) => none
    | r => r
  | tries + 1, l =>
    match io l with
    | some (.error .einval, _) => none
    | some (.error .eio, l) => rwblockRetry tries l
    | r => r

/-- `sfs_rwblock` -/
def rwblock : Prog Lhd Errno Unit := rwblockRetry 10

/-- `sfs_rblock` -/
def rblock (data block : Nat) : Prog Lhd Errno Unit := do
  update fun l => setReq { l.req with uio := mkKuio data blockSize (block * blockSize) .read } l
  rwblock

/-- `sfs_wblock` -/
def wblock (data block : Nat) : Prog Lhd Errno Unit := do
  update fun l => setReq { l.req with uio := mkKuio data blockSize (block * blockSize) .write } l
  rwblock

/-- The uio asks for one block, and its buffer has the room. -/
structure AtBlock (l : Lhd) (block : Nat) : Prop where
  offset : l.req.uio.offset = block * blockSize
  resid : l.req.uio.resid = blockSize
  room : blockSize ≤ l.req.uio.iovLen

/-- The first `SFS_BLOCKSIZE` bytes are the same. -/
def SameBlock (bytes data : ByteStore) : Prop := ∀ i < blockSize, bytes i = data i

/-- The caller's buffer at the start of the request `l`, in the memory of `t`. -/
def caller (l t : Lhd) : ByteStore := fun i => t.req.mem (l.req.uio.iovBase + i)

/-- What is promised of a block transfer from `l` that ends in `t`. -/
structure AllOrError (l : Lhd) (block : Nat) (r : Except Errno Unit) (t : Lhd) : Prop where
  ok : r = .ok () → SameBlock (t.disk block) (l.caller t) ∧
    t.req.uio.offset = l.req.uio.offset + blockSize ∧
    t.req.uio.resid + blockSize = l.req.uio.resid
  failed : ∀ e, r = .error e → l.req.uio.rw = .write →
    t.req.uio.offset = l.req.uio.offset ∨ SameBlock (t.disk block) (l.caller t)

/-- Every outcome of `sfs_rwblock` is all or error. -/
def TransfersBlock (l : Lhd) (block : Nat) : Prop :=
  ∀ r t, rwblock l = some (r, t) → l.AllOrError block r t

/-- The first attempt to write does not fail on the medium, or leaves the data there all the
same. A request that is out of range or cannot be copied in does not come to that. -/
def FirstWriteLands (l : Lhd) (block : Nat) : Prop :=
  l.req.uio.rw = .write → block < l.blocks → l.req.fault = none →
    ∀ left, l.results l.ops = .media left → SameBlock left (l.caller l)

section

variable {l t : Lhd} {block n : Nat} {r : Except Errno Unit} {Q : Unit → Lhd → Prop}
  {E : Errno → Lhd → Prop}

/-- The request once the buffer's block was moved. -/
def moved (l : Lhd) : Lhd :=
  setBuf (l.req.buffered 0 blockSize l.buf)
    (setReq ((l.req.copied 0 blockSize l.buf).advance blockSize) l)

private theorem AtBlock.pos (h : l.AtBlock block) : 0 < blockSize ∧ blockSize ≤ l.req.uio.resid := by
  rw [h.resid]
  exact ⟨by decide, Nat.le_refl _⟩

private theorem AtBlock.fields (h : l.AtBlock block) : l.req.uio.offset % blockSize = 0 ∧
    l.req.uio.resid % blockSize = 0 ∧ l.req.uio.offset / blockSize = block ∧
    l.req.uio.resid / blockSize = 1 := by
  rw [h.offset, h.resid]
  simp [blockSize]

private theorem AtBlock.advance_resid (h : l.AtBlock block) :
    (l.req.uio.advance blockSize).resid = 0 := by
  rw [Uio.advance_resid (by rw [h.resid]; decide) h.pos.2, h.resid, Nat.sub_self]

private theorem wp_moveBuf (h : blockSize ≤ l.req.uio.iovLen) (hres : blockSize ≤ l.req.uio.resid) :
    wp moveBuf Q E l ↔
      match l.req.fault with
      | some k => E .efault (setReq (l.req.copied 0 (min k blockSize) l.buf) l)
      | none => Q () l.moved := by
  simp only [moveBuf, wp_bind, wp_state, wp_zoom, wp_uiomove (by decide) h hres, wp_update]
  cases l.req.fault <;> rfl

theorem AtBlock.wp_io (h : l.AtBlock block) (hmax : block < maxBlocks) :
    wp io Q E l ↔ if l.blocks < block + 1 then E .einval l else wp (ioSector block) Q E l := by
  have hwrap : (block + 1) % 2 ^ 32 = block + 1 := by
    simp only [maxBlocks, blockSize] at hmax
    omega
  obtain ⟨hoff, hres, hsector, hlen⟩ := h.fields
  simp only [io, wp_bind, wp_state, wp_raiseIf, hoff, hres, hsector, hlen, ne_eq, hwrap]
  simp [loop]

/-- What an attempt to write leaves when the medium failed. -/
structure Spent (l : Lhd) (block : Nat) (left : ByteStore) (t : Lhd) : Prop where
  uio : t.req.uio = l.req.uio.advance blockSize
  mem : t.req.mem = l.req.mem
  disk : t.disk block = left
  blocks : t.blocks = l.blocks

/-- How one attempt to write ends. -/
inductive WriteAttempt (l : Lhd) (block : Nat) : Except Errno Unit → Lhd → Prop
  | outOfRange (t : Lhd) : ¬ block < l.blocks → WriteAttempt l block (.error .einval) t
  | faulted (k : Nat) (t : Lhd) : l.req.fault = some k → t.req.uio = l.req.uio →
      WriteAttempt l block (.error .efault) t
  | stored (t : Lhd) : l.results l.ops = .ok → SameBlock (t.disk block) (l.caller t) →
      t.req.uio = l.req.uio.advance blockSize → WriteAttempt l block (.ok ()) t
  | invsect (t : Lhd) : l.results l.ops = .invsect → WriteAttempt l block (.error .einval) t
  | media (left : ByteStore) (t : Lhd) : block < l.blocks → l.req.fault = none →
      l.results l.ops = .media left → l.Spent block left t → WriteAttempt l block (.error .eio) t

private theorem AtBlock.write_attempt (h : l.AtBlock block) (hmax : block < maxBlocks)
    (hrw : l.req.uio.rw = .write) :
    wp io (fun a => l.WriteAttempt block (.ok a)) (fun e => l.WriteAttempt block (.error e)) l := by
  rw [h.wp_io hmax]
  split
  case isTrue hout => exact .outOfRange l (by omega)
  case isFalse hin =>
    have hno : ¬ l.req.uio.rw = .read := by rw [hrw]; decide
    have hmem : (l.req.copied 0 blockSize l.buf).mem = l.req.mem :=
      Transfer.copied_mem_of_write hrw
    simp only [ioSector, wp_bind, wp_state, wp_doIf, if_pos hrw, if_neg hno,
      wp_moveBuf h.room h.pos.2]
    cases hf : l.req.fault with
    | some k => exact .faulted k _ hf rfl
    | none =>
      have hrw' : l.moved.req.uio.rw = .write := hrw
      have hres : l.moved.results l.moved.ops = l.results l.ops := rfl
      simp only [operate, wp_bind, wp_state, wp_update, hres]
      cases hd : l.results l.ops with
      | ok =>
        simp only [if_pos hrw', wp_update]
        refine .stored _ hd (fun i hi => ?_) rfl
        have hbuf : l.moved.buf = l.buf.blit 0 blockSize l.req.mem l.req.uio.iovBase :=
          Transfer.buffered_of_write hrw
        have hbyte : l.buf.blit 0 blockSize l.req.mem l.req.uio.iovBase (0 + i) =
            l.req.mem (l.req.uio.iovBase + i) := ByteStore.blit_of_inside hi
        rw [Nat.zero_add] at hbyte
        simp only [setSector, countOp, Function.update_self, caller, hbuf, hbyte]
        exact congrFun hmem.symm _
      | invsect => exact .invsect _ hd
      | media left =>
        simp only [wp_bind, wp_doIf, if_pos hrw', wp_update, wp_raise]
        refine .media left _ (by omega) hf hd ⟨rfl, hmem, ?_, rfl⟩
        exact Function.update_self ..

private theorem AtBlock.read_attempt (h : l.AtBlock block) (hmax : block < maxBlocks)
    (hrw : l.req.uio.rw = .read) :
    wp io
      (fun _ t => SameBlock (t.disk block) (l.caller t) ∧
        t.req.uio = l.req.uio.advance blockSize)
      (fun e t => e = .einval ∨ e = .efault ∨ e = .eio ∧ t = l.countOp) l := by
  rw [h.wp_io hmax]
  split
  case isTrue => exact Or.inl rfl
  case isFalse hin =>
    have hno : ¬ l.req.uio.rw = .write := by rw [hrw]; decide
    simp only [ioSector, wp_bind, wp_state, wp_doIf, if_pos hrw, if_neg hno, operate, wp_update]
    have hrw' : l.countOp.req.uio.rw = .read := hrw
    cases hd : l.results l.ops with
    | ok =>
      simp only [wp_update]
      have hroom : blockSize ≤ (setBuf (l.disk block) l.countOp).req.uio.iovLen := h.room
      rw [wp_moveBuf hroom h.pos.2]
      cases hf : (setBuf (l.disk block) l.countOp).req.fault with
      | some k => exact Or.inr (Or.inl rfl)
      | none =>
        refine ⟨fun i hi => ?_, rfl⟩
        have hmem : (l.req.copied 0 blockSize (l.disk block)).mem =
            l.req.mem.blit l.req.uio.iovBase blockSize (l.disk block) 0 :=
          Transfer.copied_mem_of_read hrw
        have hbyte : l.req.mem.blit l.req.uio.iovBase blockSize (l.disk block) 0
            (l.req.uio.iovBase + i) = l.disk block (0 + i) := ByteStore.blit_of_inside hi
        rw [Nat.zero_add, ← hmem] at hbyte
        exact hbyte.symm
    | invsect => exact Or.inl rfl
    | media left =>
      have hno' : ¬ l.countOp.req.uio.rw = .write := hno
      simp only [wp_bind, wp_doIf]
      rw [if_neg hno]
      exact Or.inr (Or.inr ⟨rfl, rfl⟩)

theorem io_spent (hres : t.req.uio.resid = 0) (hoff : t.req.uio.offset = (block + 1) * blockSize)
    (hin : block < t.blocks) (hmax : block < maxBlocks) : io t = some (.ok (), t) := by
  have hwrap : (block + 1) % 2 ^ 32 = block + 1 := by
    simp only [maxBlocks, blockSize] at hmax
    omega
  have hdiv : (block + 1) * blockSize / blockSize = block + 1 := Nat.mul_div_cancel _ (by decide)
  have hmod : (block + 1) * blockSize % blockSize = 0 := Nat.mul_mod_left _ _
  have h : wp io (fun _ t' => t' = t) (fun _ _ => False) t := by
    have hno : ¬ t.blocks < block + 1 := by omega
    simp only [io, wp_bind, wp_state, wp_raiseIf, hres, hoff, hdiv, hmod, Nat.zero_mod, Nat.zero_div,
      Nat.add_zero, hwrap, if_neg hno]
    simp [loop]
  obtain ⟨r, t', hrun, hout⟩ := wp_elim h
  cases r with
  | ok a => rw [hrun, hout]
  | error e => exact hout.elim

theorem rwblockRetry_cases (h : rwblockRetry n l = some (r, t)) :
    io l = some (r, t) ∧ r ≠ .error .einval ∨
      ∃ m l', n = m + 1 ∧ io l = some (.error .eio, l') ∧ rwblockRetry m l' = some (r, t) := by
  cases n with
  | zero =>
    rw [rwblockRetry] at h
    split at h
    · cases h
    · rename_i hne
      refine Or.inl ⟨h, fun he => ?_⟩
      rw [he] at h
      exact hne _ h
  | succ n =>
    rw [rwblockRetry] at h
    split at h
    · cases h
    · rename_i l' hio
      exact Or.inr ⟨n, l', rfl, hio, h⟩
    · rename_i hne _
      refine Or.inl ⟨h, fun he => ?_⟩
      rw [he] at h
      exact hne _ h

private theorem rwblock_of_ok (h : io l = some (.ok (), t)) : rwblockRetry n l = some (.ok (), t) := by
  cases n <;> simp [rwblockRetry, h]

private theorem rwblock_of_einval (h : io l = some (.error .einval, t)) : rwblock l = none := by
  simp [rwblock, rwblockRetry, h]

private theorem rwblock_of_efault (h : io l = some (.error .efault, t)) :
    rwblock l = some (.error .efault, t) := by
  simp [rwblock, rwblockRetry, h]

private theorem rwblock_of_eio (h : io l = some (.error .eio, t)) : rwblock l = rwblockRetry 9 t := by
  simp [rwblock, rwblockRetry, h]

private theorem allOrError_ok (h : l.AtBlock block) (hsame : SameBlock (t.disk block) (l.caller t))
    (huio : t.req.uio = l.req.uio.advance blockSize) : l.AllOrError block (.ok ()) t := by
  refine ⟨fun _ => ⟨hsame, by rw [huio, Uio.advance_offset], ?_⟩, fun e he => nomatch he⟩
  rw [huio, h.advance_resid, h.resid, Nat.zero_add]

theorem AllOrError.of_req {l' : Lhd} (h : l'.AllOrError block r t) (hreq : l'.req = l.req) :
    l.AllOrError block r t := by
  have hcaller : l'.caller t = l.caller t := by
    funext i
    simp only [caller, hreq]
  obtain ⟨hok, hfailed⟩ := h
  rw [hreq, hcaller] at hok hfailed
  exact ⟨hok, hfailed⟩

theorem allOrError_error {e : Errno} (h : l.req.uio.rw = .write → t.req.uio = l.req.uio) :
    l.AllOrError block (.error e) t := by
  refine ⟨(nomatch ·), fun _ _ hrw => Or.inl ?_⟩
  rw [h hrw]

theorem AtBlock.read_retry (h : l.AtBlock block) (hmax : block < maxBlocks)
    (hrw : l.req.uio.rw = .read) (hrun : rwblockRetry n l = some (r, t)) :
    l.AllOrError block r t := by
  have herror (e : Errno) : l.AllOrError block (.error e) t :=
    allOrError_error fun hw => by simp [hrw] at hw
  obtain ⟨r', t', hio, hout⟩ := wp_elim (h.read_attempt hmax hrw)
  induction n generalizing l r' t' with
  | zero =>
    cases rwblockRetry_cases hrun with
    | inl hone =>
      obtain ⟨rfl, rfl⟩ := Prod.mk.inj (Option.some.inj (hio.symm.trans hone.1))
      cases r' with
      | ok a => exact allOrError_ok h hout.1 hout.2
      | error e => exact herror e
    | inr hmore =>
      obtain ⟨m, _, hm, _⟩ := hmore
      cases hm
  | succ n ih =>
    cases rwblockRetry_cases hrun with
    | inl hone =>
      obtain ⟨rfl, rfl⟩ := Prod.mk.inj (Option.some.inj (hio.symm.trans hone.1))
      cases r' with
      | ok a => exact allOrError_ok h hout.1 hout.2
      | error e => exact herror e
    | inr hmore =>
      obtain ⟨m, l', hm, hio', hrest⟩ := hmore
      obtain ⟨rfl, rfl⟩ := Prod.mk.inj (Option.some.inj (hio.symm.trans hio'))
      cases hm
      have hl' : t' = l.countOp := by simpa using hout
      subst hl'
      have hagain : l.countOp.AtBlock block := ⟨h.offset, h.resid, h.room⟩
      obtain ⟨r'', t'', hio'', hout''⟩ := wp_elim (hagain.read_attempt hmax hrw)
      have hdone := ih hagain hrw hrest (herror · |>.of_req rfl) r'' t'' hio'' hout''
      exact hdone.of_req rfl

theorem AtBlock.write_retry (h : l.AtBlock block) (hmax : block < maxBlocks)
    (hrw : l.req.uio.rw = .write) : l.TransfersBlock block ↔ l.FirstWriteLands block := by
  obtain ⟨r', t', hio, hout⟩ := wp_elim (h.write_attempt hmax hrw)
  have hattempt : l.WriteAttempt block r' t' := by cases r' <;> exact hout
  cases hattempt with
  | outOfRange _ hrange =>
    have hnone := rwblock_of_einval hio
    constructor
    · intro _ _ hin
      exact absurd hin hrange
    · intro _ r t hrun
      simp [hnone] at hrun
  | faulted k _ hf huio =>
    have hrw := rwblock_of_efault hio
    constructor
    · intro _ _ _ hnone
      simp [hf] at hnone
    · intro _ r t hrun
      obtain ⟨rfl, rfl⟩ := Prod.mk.inj (Option.some.inj (hrw.symm.trans hrun))
      exact allOrError_error fun _ => huio
  | stored _ hd hsame huio =>
    have hok : rwblock l = some (.ok (), t') := rwblock_of_ok hio
    constructor
    · intro _ _ _ _ left hleft
      simp [hd] at hleft
    · intro _ r t hrun
      obtain ⟨rfl, rfl⟩ := Prod.mk.inj (Option.some.inj (hok.symm.trans hrun))
      exact allOrError_ok h hsame huio
  | invsect _ hd =>
    have hnone := rwblock_of_einval hio
    constructor
    · intro _ _ _ _ left hleft
      simp [hd] at hleft
    · intro _ r t hrun
      simp [hnone] at hrun
  | media left _ hin hf hd hspent =>
    have hres : t'.req.uio.resid = 0 := by rw [hspent.uio, h.advance_resid]
    have hoff : t'.req.uio.offset = (block + 1) * blockSize := by
      rw [hspent.uio, Uio.advance_offset, h.offset, Nat.succ_mul]
    have hagain := io_spent hres hoff (by rw [hspent.blocks]; exact hin) hmax
    have hok : rwblock l = some (.ok (), t') := (rwblock_of_eio hio).trans (rwblock_of_ok hagain)
    have hcaller : l.caller t' = l.caller l := by
      funext i
      simp only [caller, hspent.mem]
    constructor
    · intro hall _ _ _ left' hleft
      obtain ⟨hsame, _⟩ := (hall _ _ hok).ok rfl
      have hl : left = left' := by simpa [hd] using hleft
      rw [hspent.disk, hcaller, hl] at hsame
      exact hsame
    · intro hlands r t hrun
      obtain ⟨rfl, rfl⟩ := Prod.mk.inj (Option.some.inj (hok.symm.trans hrun))
      have hsame := hlands hrw hin hf left hd
      rw [← hspent.disk, ← hcaller] at hsame
      exact allOrError_ok h hsame hspent.uio

theorem AtBlock.transfersBlock_iff (h : l.AtBlock block) (hmax : block < maxBlocks) :
    l.TransfersBlock block ↔ l.FirstWriteLands block := by
  cases hrw : l.req.uio.rw with
  | read =>
    constructor
    · intro _ hw
      simp [hrw] at hw
    · intro _ r t hrun
      exact h.read_retry hmax hrw hrun
  | write => exact h.write_retry hmax hrw

end

/-- The request that `sfs_rblock` and `sfs_wblock` make for themselves. -/
def requesting (data block : Nat) (rw : UioRw) (l : Lhd) : Lhd :=
  setReq { l.req with uio := mkKuio data blockSize (block * blockSize) rw } l

private theorem requesting_atBlock (data block : Nat) (rw : UioRw) (l : Lhd) :
    (l.requesting data block rw).AtBlock block :=
  ⟨rfl, rfl, Nat.le_refl _⟩

private theorem rblock_eq (data block : Nat) (l : Lhd) :
    rblock data block l = rwblock (l.requesting data block .read) := rfl

/-- Block transfers are all or error: a read always, and a write if and only if its first attempt
does not fail on the medium. -/
theorem block_io_allOrError (l : Lhd) (data block : Nat) (hblock : block < maxBlocks) :
    (l.AtBlock block → (l.TransfersBlock block ↔ l.FirstWriteLands block)) ∧
      (∀ r t, rblock data block l = some (r, t) →
        (l.requesting data block .read).AllOrError block r t) ∧
      ((∀ r t, wblock data block l = some (r, t) →
          (l.requesting data block .write).AllOrError block r t) ↔
        (block < l.blocks → ∀ left, l.results l.ops = .media left →
          SameBlock left fun i => l.req.mem (data + i))) := by
  have hread := requesting_atBlock data block .read l
  have hwrite := requesting_atBlock data block .write l
  refine ⟨fun h => h.transfersBlock_iff hblock, fun r t hrun => ?_, ?_⟩
  · exact hread.read_retry hblock rfl (rblock_eq data block l ▸ hrun)
  · have hiff := hwrite.transfersBlock_iff hblock
    constructor
    · intro hall hin
      exact hiff.mp hall rfl hin rfl
    · intro hlands
      exact hiff.mpr fun _ hin _ => hlands hin

/-- A disk of four blocks that fails the first write and would do all others. -/
def failingOnce : Lhd :=
  { req := ⟨mkKuio 0 blockSize 0 .write, fun _ => 1, fun _ => none, 0⟩
    blocks := 4
    disk := fun _ => zeros
    buf := zeros
    results := fun i => if i = 0 then .media zeros else .ok
    ops := 0 }

theorem block_io_allOrError_working :
    ({ failingOnce with results := fun _ => .ok } : Lhd).TransfersBlock 0 :=
  ((block_io_allOrError { failingOnce with results := fun _ => .ok } 0 0 (by decide)).1
    ⟨rfl, rfl, Nat.le_refl _⟩).mpr fun _ _ _ left hleft => nomatch hleft

/-- A block that never reached the disk is reported as written. -/
theorem failed_write_succeeds : ¬ ∀ (l : Lhd) (block : Nat), block < maxBlocks →
    l.AtBlock block → l.TransfersBlock block := by
  intro hall
  have h0 := hall failingOnce 0 (by decide) ⟨rfl, rfl, Nat.le_refl _⟩
  have hlands : ∀ i < blockSize, zeros i = 1 :=
    (AtBlock.transfersBlock_iff ⟨rfl, rfl, Nat.le_refl _⟩ (by decide)).mp h0 rfl (by decide) rfl
      zeros rfl
  exact absurd (hlands 0 (by decide)) (by decide)

end Lhd

end CseOs.Kernel.Sfs
