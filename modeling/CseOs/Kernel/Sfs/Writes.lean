import CseOs.Framework.Transition
import CseOs.Kernel.Sfs.Reads

/-!
# Writing a file

A write takes each block's data from the uio before the block layer has stored them. The chunks of
a request are followed one by one, with all the ways in which a chunk can end.
-/

namespace CseOs.Kernel.Sfs

open Framework Prog

/-- The part of a request that is done in one step -/
inductive Chunk where
  | part (skip len : Nat)
  | whole

namespace Chunk

def size : Chunk → Nat
  | part _ len => len
  | whole => blockSize

def skip : Chunk → Nat
  | part skip _ => skip
  | whole => 0

/-- The chunk that a request comes to next -/
def next (u : Uio) : Option Chunk :=
  if u.resid = 0 then none
  else if u.offset % blockSize ≠ 0 then
    some (part (u.offset % blockSize) (min (blockSize - u.offset % blockSize) u.resid))
  else if blockSize ≤ u.resid then some whole
  else some (part 0 u.resid)

/-- A chunk at the request's offset, within a block -/
structure At (c : Chunk) (u : Uio) : Prop where
  skip : u.offset % blockSize = c.skip
  fits : c.skip + c.size ≤ blockSize
  resid : c.size ≤ u.resid

theorem next_at {c : Chunk} {u : Uio} (h : next u = some c) : c.At u ∧ 0 < c.size := by
  have hmod := Nat.mod_lt u.offset (show 0 < blockSize by decide)
  unfold next at h
  split at h
  · cases h
  · rename_i h0
    split at h
    · cases h
      exact ⟨⟨rfl, by simp only [skip, size]; omega, Nat.min_le_right ..⟩,
        by simp only [size]; omega⟩
    · rename_i halign
      have h0' : u.offset % blockSize = 0 := by omega
      split at h
      · rename_i hfull
        cases h
        exact ⟨⟨h0', Nat.le_of_eq (Nat.zero_add _), hfull⟩, by decide⟩
      · cases h
        exact ⟨⟨h0', by simp only [skip, size]; omega, Nat.le_refl _⟩, by simp only [size]; omega⟩

end Chunk

namespace SfsSt

/-- A whole block's data, taken from the request, and the disk block they go to -/
def wholeBuffer : Prog SfsSt Errno (ByteStore × Nat) := do
  let s ← state
  let diskblock ← bmap (s.req.uio.offset / blockSize) true
  let buf ← zoom req setReq (uiomove 0 blockSize zeros)
  return (buf, diskblock)

/-- A chunk's part before the block layer is asked to store it -/
def take : Chunk → Prog SfsSt Errno (ByteStore × Nat)
  | .part skip len => partialBuffer skip len
  | .whole => wholeBuffer

/-- A chunk as `sfs_io` does it -/
def chunkIo : Chunk → Prog SfsSt Errno Unit
  | .part skip len => partialio skip len
  | .whole => blockio

variable {s t u : SfsSt} {c : Chunk} {b d i m n x : Nat} {E : Errno → SfsSt → Prop}

/-- A write under way -/
structure CanWrite (s : SfsSt) : Prop where
  consistent : s.Consistent
  room : s.req.Room
  rw : s.req.uio.rw = .write

/-- `n` bytes were taken from the request, and the file's bytes are as before. -/
structure Spilled (s : SfsSt) (n : Nat) (t : SfsSt) : Prop where
  consistent : t.Consistent
  uio : t.req.uio = s.req.uio.advance n
  mem : t.req.mem = s.req.mem
  size : t.inode.size = s.inode.size
  errors : t.ioErrors = s.ioErrors
  content : t.content = s.content

/-- `n` bytes were taken from the request and are in the file. -/
structure Stored (s : SfsSt) (n : Nat) (t : SfsSt) : Prop where
  consistent : t.Consistent
  uio : t.req.uio = s.req.uio.advance n
  mem : t.req.mem = s.req.mem
  size : t.inode.size = s.inode.size
  errors : t.ioErrors = s.ioErrors
  content : t.content =
    ByteStore.blit s.content s.req.uio.offset n s.req.mem s.req.uio.iovBase

private theorem Spilled.stored_none (h : s.Spilled 0 t) : s.Stored 0 t :=
  ⟨h.consistent, h.uio, h.mem, h.size, h.errors, by rw [h.content, ByteStore.blit_none]⟩

theorem CanWrite.start (h : s.CanWrite) : s.Stored 0 s :=
  ⟨h.consistent, (Uio.advance_none h.room.lt).symm, rfl, rfl, rfl, (ByteStore.blit_none ..).symm⟩

theorem Stored.canWrite (h : s.Stored n t) (hs : s.CanWrite) (hn : n ≤ s.req.uio.resid) :
    t.CanWrite := by
  have hroom := hs.room.advance hn
  exact ⟨h.consistent, ⟨h.uio ▸ hroom.lt, h.uio ▸ hroom.le⟩, by rw [h.uio, Uio.advance_rw, hs.rw]⟩

theorem Stored.trans (h : s.Stored m t) (h' : t.Stored n u) (hs : s.CanWrite)
    (hn : m + n ≤ s.req.uio.resid) : s.Stored (m + n) u := by
  refine ⟨h'.consistent, ?_, h'.mem.trans h.mem, h'.size.trans h.size, h'.errors.trans h.errors, ?_⟩
  · rw [h'.uio, h.uio, Uio.advance_advance hs.room.lt hn]
  · rw [h'.content, h.content, h.mem, h.uio, Uio.advance_offset, Uio.advance_iovBase,
      ByteStore.blit_blit_append]

/-- A chunk's data were taken, for a block of the file. -/
structure Took (s : SfsSt) (c : Chunk) (p : ByteStore × Nat) (t : SfsSt) : Prop where
  spilled : s.Spilled c.size t
  block : t.fileBlock (s.req.uio.offset / blockSize) = p.2
  ne_zero : p.2 ≠ 0
  bytes : ∀ i < blockSize, p.1 i =
    if c.skip ≤ i ∧ i < c.skip + c.size then s.req.mem (s.req.uio.iovBase + (i - c.skip))
    else s.content (s.req.uio.offset / blockSize * blockSize + i)

theorem Consistent.set_data {buf : ByteStore} (h : s.Consistent) (hb : s.fileBlock b = d)
    (h0 : d ≠ 0) : (s.setBlock d buf).Consistent ∧ (s.setBlock d buf).content =
      fun x => if x / blockSize = b then buf (x % blockSize) else s.content x := by
  have hid : s.inode.indirect ≠ d := by
    intro he
    have hsame := h.distinct none (some b) (he.trans hb.symm) (by rw [ref_none, he]; exact h0)
    cases hsame
  have href : (s.setBlock d buf).ref = s.ref :=
    ref_congr rfl fun _ => Function.update_of_ne hid ..
  refine ⟨h.of_ref href rfl rfl fun _ hx => hx, ?_⟩
  funext x
  simp only [SfsSt.content, fileBlock_eq_ref href]
  by_cases hx : x / blockSize = b
  · rw [if_pos hx, hx, hb, if_neg h0]
    exact congrFun (Function.update_self ..) _
  · rw [if_neg hx]
    by_cases hz : s.fileBlock (x / blockSize) = 0
    · rw [if_pos hz, if_pos hz]
    · have hne : s.fileBlock (x / blockSize) ≠ d := by
        intro he
        have hsame := h.distinct (some (x / blockSize)) (some b) (he.trans hb.symm) hz
        exact hx (Option.some.inj hsame)
      rw [if_neg hz, if_neg hz]
      exact congrFun (Function.update_of_ne hne ..) _

theorem Took.stored {p : ByteStore × Nat} (h : s.Took c p t) (hc : c.At s.req.uio) :
    s.Stored c.size (t.countIo.setBlock p.2 p.1) := by
  have hcount : t.countIo.Consistent := h.spilled.consistent.of_ref rfl rfl rfl fun _ hx => hx
  obtain ⟨hcons, hcontent⟩ := @Consistent.set_data _ _ _ p.1 hcount h.block h.ne_zero
  refine ⟨hcons, h.spilled.uio, h.spilled.mem, h.spilled.size, h.spilled.errors, ?_⟩
  have hcount' : t.countIo.content = s.content := h.spilled.content
  have hoff := Nat.div_add_mod s.req.uio.offset blockSize
  have hfits := hc.fits
  rw [hc.skip, Nat.mul_comm] at hoff
  rw [hcontent, hcount']
  funext x
  have hx := Nat.div_add_mod x blockSize
  have hmod := Nat.mod_lt x (show 0 < blockSize by decide)
  rw [Nat.mul_comm] at hx
  by_cases hb : x / blockSize = s.req.uio.offset / blockSize
  · rw [if_pos hb, h.bytes _ hmod]
    rw [hb] at hx
    by_cases hin : c.skip ≤ x % blockSize ∧ x % blockSize < c.skip + c.size
    · have hin' : s.req.uio.offset ≤ x ∧ x < s.req.uio.offset + c.size := by omega
      rw [if_pos hin, ByteStore.blit, if_pos hin']
      congr 2
      omega
    · rw [if_neg hin, hx, ByteStore.blit_of_outside (by omega)]
  · rw [if_neg hb, ByteStore.blit_of_outside]
    by_contra hin
    have hlo : s.req.uio.offset ≤ x := by omega
    have hhi : x < s.req.uio.offset / blockSize * blockSize + blockSize := by omega
    apply hb
    apply Nat.le_antisymm
    · exact Nat.le_of_lt_succ ((Nat.div_lt_iff_lt_mul (by decide)).mpr
        (by rw [Nat.succ_mul]; exact hhi))
    · exact Nat.div_le_div_right hlo

private theorem wp_uiomove_write {w : Transfer} {buf : ByteStore} {ptr : Nat} (hw : w.Room)
    (hrw : w.uio.rw = .write) (hn : n ≤ w.uio.resid) :
    wp (uiomove ptr n buf)
      (fun buf' w' => buf' = buf.blit ptr n w.mem w.uio.iovBase ∧ w'.uio = w.uio.advance n ∧
        w'.mem = w.mem)
      (fun _ w' => w'.uio = w.uio ∧ w'.mem = w.mem) w := by
  cases n with
  | zero =>
    rw [wp_uiomove_none]
    exact ⟨(ByteStore.blit_none ..).symm, (Uio.advance_none hw.lt).symm, rfl⟩
  | succ n =>
    rw [wp_uiomove (Nat.succ_pos n) (Nat.le_trans hn hw.le) hn]
    cases w.fault with
    | some k => exact ⟨rfl, Transfer.copied_mem_of_write hrw⟩
    | none =>
      exact ⟨Transfer.buffered_of_write hrw, rfl, Transfer.copied_mem_of_write hrw⟩

private theorem Kept.canWrite (h : s.Kept t) (hs : s.CanWrite) : t.CanWrite :=
  ⟨h.consistent, h.req ▸ hs.room, h.req ▸ hs.rw⟩

theorem Kept.stored_none (h : s.Kept t) (hs : s.CanWrite) : s.Stored 0 t :=
  ⟨h.consistent, by rw [h.req, Uio.advance_none hs.room.lt], by rw [h.req], h.size,
    h.errors, by rw [h.content, ByteStore.blit_none]⟩

theorem Kept.stored_none_setReq {w : Transfer} (h : s.Kept t) (hs : s.CanWrite)
    (huio : w.uio = t.req.uio) (hmem : w.mem = t.req.mem) : s.Stored 0 (t.setReq w) := by
  have hcons : (t.setReq w).Consistent := h.consistent.of_ref rfl rfl rfl fun _ hx => hx
  refine ⟨hcons, ?_, ?_, h.size, h.errors, ?_⟩
  · show w.uio = _
    rw [huio, h.req, Uio.advance_none hs.room.lt]
  · show w.mem = _
    rw [hmem, h.req]
  · rw [ByteStore.blit_none]
    exact h.content

theorem CanWrite.wp_loadBuffer (h : s.CanWrite) (hd : d ≠ 0) (hb : s.fileBlock b = d) :
    wp (loadBuffer d) (fun buf t => s.Kept t ∧ t.fileBlock = s.fileBlock ∧
      ∀ i < blockSize, buf i = s.content (b * blockSize + i)) (fun _ t => s.Kept t) s := by
  simp only [loadBuffer, wp_bind, wp_state, if_neg hd, wp_rblock]
  cases s.ioErrors s.ios with
  | some e => exact h.consistent.kept_countIo
  | none =>
    refine ⟨h.consistent.kept_countIo, rfl, fun i hi => ?_⟩
    rw [content_at b hi, hb, if_neg hd]

theorem Kept.took {buf : ByteStore} {w : Transfer} (h : s.Kept t)
    (hblock : t.fileBlock (s.req.uio.offset / blockSize) = d) (h0 : d ≠ 0)
    (hbuf : ∀ i < blockSize, c.skip ≤ i ∧ i < c.skip + c.size ∨
      buf i = s.content (s.req.uio.offset / blockSize * blockSize + i))
    (huio : w.uio = s.req.uio.advance c.size) (hmem : w.mem = s.req.mem) :
    s.Took c (buf.blit c.skip c.size s.req.mem s.req.uio.iovBase, d) (t.setReq w) := by
  have hcons : (t.setReq w).Consistent := h.consistent.of_ref rfl rfl rfl fun _ hx => hx
  refine ⟨⟨hcons, huio, hmem, h.size, h.errors, h.content⟩, hblock, h0, fun i hi => ?_⟩
  simp only [ByteStore.blit]
  split
  case isTrue => rfl
  case isFalse hout => exact (hbuf i hi).resolve_left hout

theorem CanWrite.doalloc (h : s.CanWrite) : decide (s.req.uio.rw = .write) = true := by
  rw [h.rw]
  rfl

/-- The data of a chunk are taken, or nothing is. -/
theorem CanWrite.wp_take (h : s.CanWrite) (hc : c.At s.req.uio) :
    wp (take c) (fun p t => s.Took c p t) (fun _ t => s.Stored 0 t) s := by
  cases c with
  | part skip len =>
    simp only [take, partialBuffer, wp_bind, wp_state, wp_check, wp_zoom, wp_pure, h.doalloc]
    refine ⟨hc.fits, wp_mono h.consistent.wp_bmap_alloc ?_ fun _ t ht => ht.stored_none h⟩
    intro d t ht
    obtain ⟨hkept, hblock, h0⟩ := ht
    have hcan := hkept.canWrite h
    refine wp_mono (hcan.wp_loadBuffer h0 hblock) ?_ fun _ u hu => (hkept.trans hu).stored_none h
    intro buf t' ht'
    have hkept' := hkept.trans ht'.1
    have hcan' := hkept'.canWrite h
    refine wp_mono (wp_uiomove_write hcan'.room hcan'.rw (hkept'.req ▸ hc.resid)) ?_
      fun _ w hw => hkept'.stored_none_setReq h hw.1 hw.2
    intro buf' w hw
    obtain ⟨rfl, huio, hmem⟩ := hw
    rw [hkept'.req] at huio hmem ⊢
    refine hkept'.took (ht'.2.1 ▸ hblock) h0 (fun i hi => Or.inr ?_) huio hmem
    rw [ht'.2.2 i hi, hkept.content]
  | whole =>
    simp only [take, wholeBuffer, wp_bind, wp_state, wp_zoom, wp_pure]
    refine wp_mono h.consistent.wp_bmap_alloc ?_ fun _ t ht => ht.stored_none h
    intro d t ht
    obtain ⟨hkept, hblock, h0⟩ := ht
    have hcan := hkept.canWrite h
    refine wp_mono (wp_uiomove_write hcan.room hcan.rw (hkept.req ▸ hc.resid)) ?_
      fun _ w hw => hkept.stored_none_setReq h hw.1 hw.2
    intro buf' w hw
    obtain ⟨rfl, huio, hmem⟩ := hw
    rw [hkept.req] at huio hmem ⊢
    exact hkept.took hblock h0 (fun i hi => Or.inl ⟨Nat.zero_le i, by
      simpa only [Chunk.skip, Chunk.size, Nat.zero_add] using hi⟩) huio hmem

private theorem Took.rw {p : ByteStore × Nat} (h : s.Took c p t) (hs : s.CanWrite) :
    t.req.uio.rw = .write := by
  rw [h.spilled.uio, Uio.advance_rw, hs.rw]

private theorem restoreUio_deviceUio {u : Uio} (h32 : u.resid < 2 ^ 32) :
    restoreUio u d (deviceUio d u) = u := by
  have hzero : sub32 blockSize blockSize = 0 := by decide
  have hoff : d * blockSize - d * blockSize + u.offset = u.offset := by omega
  have hres : (0 + u.resid) % 2 ^ 32 = u.resid := by
    rw [Nat.zero_add, Nat.mod_eq_of_lt h32]
  simp only [restoreUio, deviceUio, hzero, hoff, hres]

theorem CanWrite.wp_device (h : s.CanWrite) (hres : blockSize ≤ s.req.uio.resid)
    {Q : Unit → SfsSt → Prop} :
    wp rwblock (fun a t => Q a (t.mapUio (restoreUio s.req.uio d)))
        (fun e t => E e (t.mapUio (restoreUio s.req.uio d))) (s.mapUio (deviceUio d)) ↔
      wp (uiomove 0 blockSize zeros) (fun buf w => wp (wblock buf d) Q E (s.setReq w))
        (fun e w => E e (s.setReq w)) s.req := by
  have hpos : 0 < blockSize := by decide
  have hlen := Nat.le_trans hres h.room.le
  have hblock : (s.mapUio (deviceUio d)).req.uio.offset / blockSize = d := Nat.mul_div_cancel d hpos
  have hrw : (s.mapUio (deviceUio d)).req.uio.rw = .write := h.rw
  have hfault : (s.mapUio (deviceUio d)).req.fault = s.req.fault := rfl
  have hstart := restoreUio_deviceUio (d := d) h.room.lt
  have hend := restoreUio_advance (d := d) h.room.lt hres
  simp only [rwblock, wp_bind, wp_state, hrw, hblock, wp_zoom]
  rw [wp_uiomove (w := s.req) hpos hlen hres,
    wp_uiomove (w := (s.mapUio (deviceUio d)).req) hpos hlen (Nat.le_refl _), hfault]
  cases s.req.fault with
  | some k =>
    show E _ (s.setReq { s.req.copied 0 (min k blockSize) zeros with
      uio := restoreUio s.req.uio d (deviceUio d s.req.uio) }) ↔ _
    rw [hstart]
    rfl
  | none =>
    show wp (wblock (s.req.buffered 0 blockSize zeros) d) _ _ _ ↔ _
    rw [wp_wblock, wp_wblock]
    cases he : s.ioErrors s.ios with
    | some e =>
      erw [he]
      show E e (s.countIo.setReq { s.req.copied 0 blockSize zeros with
        uio := restoreUio s.req.uio d ((deviceUio d s.req.uio).advance blockSize) }) ↔ _
      rw [hend]
      rfl
    | none =>
      erw [he]
      show Q () ((s.countIo.setBlock d (s.req.buffered 0 blockSize zeros)).setReq
        { s.req.copied 0 blockSize zeros with
          uio := restoreUio s.req.uio d ((deviceUio d s.req.uio).advance blockSize) }) ↔ _
      rw [hend]
      rfl

/-- A chunk is taken, and then its block is written. -/
theorem CanWrite.chunkIo_eq (h : s.CanWrite) (hc : c.At s.req.uio) :
    chunkIo c s = (take c >>= fun p => wblock p.1 p.2) s := by
  apply run_congr
  intro Q E
  rw [wp_bind]
  cases c with
  | part skip len =>
    simp only [chunkIo, partialio, take, wp_bind, wp_state, wp_doIf]
    apply wp_congr_post (h.wp_take hc)
    intro p t ht
    rw [if_pos (ht.rw h)]
  | whole =>
    simp only [chunkIo, blockio, take, wholeBuffer, wp_bind, wp_state, wp_ite, wp_check, wp_update,
      wp_ensuring, wp_zoom, wp_pure, h.doalloc]
    apply wp_congr_post h.consistent.wp_bmap_alloc
    intro d t ht
    obtain ⟨hkept, _, h0⟩ := ht
    have hres : blockSize ≤ t.req.uio.resid := hkept.req ▸ hc.resid
    rw [if_neg h0, ← hkept.req, (hkept.canWrite h).wp_device hres]
    exact ⟨And.right, fun hq => ⟨hres, hq⟩⟩

/-- The data of the chunk are taken, and the block layer refuses them. -/
def Refused (c : Chunk) (s : SfsSt) : Prop :=
  ∃ p t, take c s = some (.ok p, t) ∧ t.ioErrors t.ios ≠ none

/-- The chunk ends before any of its data are taken. -/
def Stops (c : Chunk) (s : SfsSt) : Prop := ∃ e t, take c s = some (.error e, t)

/-- The ways in which a chunk ends. -/
inductive Ends (s : SfsSt) (c : Chunk) : Except Errno Unit → SfsSt → Prop
  | stored {t : SfsSt} : ¬ Stops c s → ¬ Refused c s → s.Stored c.size t → Ends s c (.ok ()) t
  | stopped {e : Errno} {t : SfsSt} :
      Stops c s → ¬ Refused c s → s.Stored 0 t → Ends s c (.error e) t
  | refused {e : Errno} {t : SfsSt} :
      ¬ Stops c s → Refused c s → s.Spilled c.size t → Ends s c (.error e) t

theorem CanWrite.wp_chunkIo (h : s.CanWrite) (hc : c.At s.req.uio) :
    wp (chunkIo c) (fun a t => s.Ends c (.ok a) t) (fun e t => s.Ends c (.error e) t) s := by
  obtain ⟨r, t, hrun, hr⟩ := wp_elim (h.wp_take hc)
  rw [wp_of_run_eq (h.chunkIo_eq hc), wp_bind]
  cases r with
  | error e =>
    rw [wp_of_error hrun]
    refine .stopped ⟨e, t, hrun⟩ (fun href => ?_) hr
    obtain ⟨p, t', hrun', _⟩ := href
    rw [hrun] at hrun'
    cases hrun'
  | ok p =>
    have hgo : ¬ Stops c s := by
      intro hstop
      obtain ⟨e, t', hrun'⟩ := hstop
      rw [hrun] at hrun'
      cases hrun'
    rw [wp_of_ok hrun, wp_wblock]
    cases he : t.ioErrors t.ios with
    | none =>
      refine .stored hgo (fun href => ?_) (hr.stored hc)
      obtain ⟨p', t', hrun', he'⟩ := href
      rw [hrun] at hrun'
      cases hrun'
      exact he' he
    | some e =>
      have hcount : t.countIo.Consistent := hr.spilled.consistent.of_ref rfl rfl rfl fun _ hx => hx
      have hspilled := hr.spilled
      exact .refused hgo ⟨p, t, hrun, by rw [he]; exact Option.some_ne_none e⟩
        ⟨hcount, hspilled.uio, hspilled.mem, hspilled.size, hspilled.errors, hspilled.content⟩

/-- The request's next chunk is stored. -/
def Step (s t : SfsSt) : Prop :=
  ∃ c, Chunk.next s.req.uio = some c ∧ chunkIo c s = some (.ok (), t)

private theorem step_rightUnique : Relator.RightUnique Step := by
  intro s t u ht hu
  obtain ⟨c, hc, hrun⟩ := ht
  obtain ⟨c', hc', hrun'⟩ := hu
  rw [hc] at hc'
  cases hc'
  rw [hrun] at hrun'
  cases hrun'
  rfl

/-- The file holds the next `n` bytes of the request. -/
def Holds (s : SfsSt) (n : Nat) : Prop :=
  ∀ i < n, s.content (s.req.uio.offset + i) = s.req.mem (s.req.uio.iovBase + i)

/-- The next chunk is taken and refused, and the file does not hold its bytes anyway. -/
def Lost (s : SfsSt) : Prop :=
  ∃ c, Chunk.next s.req.uio = some c ∧ Refused c s ∧ ¬ s.Holds c.size

/-- The write comes to a chunk that is lost. -/
def Loses (s : SfsSt) : Prop := ∃ t, Relation.ReflTransGen Step s t ∧ t.Lost

/-- The write ends before any data are taken. -/
def Stalls (s : SfsSt) : Prop := ∀ c, Chunk.next s.req.uio = some c → Stops c s

/-- Chunks of `n` bytes in all were stored. -/
structure Came (s : SfsSt) (n : Nat) (t : SfsSt) : Prop where
  steps : Relation.ReflTransGen Step s t
  stored : s.Stored n t
  le : n ≤ s.req.uio.resid
  moves : n = 0 → t = s

private theorem CanWrite.came (h : s.CanWrite) : s.Came 0 s :=
  ⟨.refl, h.start, Nat.zero_le _, fun _ => rfl⟩

theorem Came.resid (h : s.Came n t) (hs : s.CanWrite) :
    t.req.uio.resid = s.req.uio.resid - n := by
  rw [h.stored.uio, Uio.advance_resid hs.room.lt h.le]

theorem Came.offset (h : s.Came n t) : t.req.uio.offset = s.req.uio.offset + n := by
  rw [h.stored.uio, Uio.advance_offset]

/-- How the chunks of a write can end -/
inductive Outcome (s : SfsSt) : SfsSt → Prop
  | empty {u : SfsSt} : s.req.uio.resid = 0 → s.Stored 0 u → Outcome s u
  | done {n : Nat} {u : SfsSt} : s.Came n u → Chunk.next u.req.uio = none → Outcome s u
  | failed {n : Nat} {t u : SfsSt} {c : Chunk} {e : Errno} :
      s.Came n t → Chunk.next t.req.uio = some c → t.Ends c (.error e) u → Outcome s u

/-- One chunk more. -/
theorem Came.wp_chunkIo (h : s.Came n t) (hs : s.CanWrite)
    (hc : Chunk.next t.req.uio = some c) :
    wp (chunkIo c) (fun _ u => s.Came (n + c.size) u) (fun _ u => s.Outcome u) t := by
  obtain ⟨hat, hpos⟩ := Chunk.next_at hc
  have hle : n + c.size ≤ s.req.uio.resid := by
    have hres := h.resid hs
    have hfit := hat.resid
    have hn := h.le
    omega
  have hcan := h.stored.canWrite hs h.le
  obtain ⟨r, u, hrun, hend⟩ := wp_elim (hcan.wp_chunkIo hat)
  cases r with
  | ok a =>
    rw [wp_of_ok hrun]
    cases hend with
    | stored _ _ hu =>
      refine ⟨h.steps.tail ⟨c, hc, hrun⟩, h.stored.trans hu hs hle, hle, fun h0 => ?_⟩
      omega
  | error e =>
    rw [wp_of_error hrun]
    exact .failed h hc hend

/-- Chunks were stored until nothing was left of the request. -/
def Finished (s t : SfsSt) : Prop := ∃ n, s.Came n t ∧ Chunk.next t.req.uio = none

private theorem Finished.outcome (h : s.Finished t) : s.Outcome t := by
  obtain ⟨n, hcame, hnone⟩ := h
  exact .done hcame hnone

/-- A chunk that fails after others of the write ends in `E`. -/
def FailsIn (s : SfsSt) (E : Errno → SfsSt → Prop) : Prop :=
  ∀ n t c, s.Came n t → Chunk.next t.req.uio = some c →
    wp (chunkIo c) (fun _ u => s.Came (n + c.size) u) E t

theorem Came.wp_ioBlocks (h : s.Came m t) (hs : s.CanWrite) (hE : s.FailsIn E)
    (halign : t.req.uio.resid ≠ 0 → t.req.uio.offset % blockSize = 0) :
    wp ioBlocks (fun _ u => s.Finished u) E t := by
  simp only [ioBlocks, wp_bind, wp_state, wp_ite, wp_check, wp_doIf, wp_pure]
  split
  case isTrue h0 => exact ⟨m, h, if_pos h0⟩
  case isFalse h0 =>
    have hres := h.resid hs
    have hoff := h.offset
    have hle := h.le
    have hdiv := Nat.div_add_mod t.req.uio.resid blockSize
    have hmod := Nat.mod_lt t.req.uio.resid (show 0 < blockSize by decide)
    rw [Nat.mul_comm] at hdiv
    generalize hn : t.req.uio.resid / blockSize = n at hdiv
    have halign' (i : Nat) : (s.req.uio.offset + (m + i * blockSize)) % blockSize = 0 := by
      rw [← Nat.add_assoc, ← hoff, Nat.add_mul_mod_self_right]
      exact halign h0
    refine ⟨halign h0, wp_loop (fun i u => s.Came (m + i * blockSize) u) ?_ ?_ ?_⟩
    · rw [Nat.zero_mul]
      exact h
    · intro i u hi hu
      have hmul : (i + 1) * blockSize ≤ n * blockSize := Nat.mul_le_mul_right _ hi
      rw [Nat.succ_mul] at hmul
      have hres' := hu.resid hs
      have hfull : blockSize ≤ u.req.uio.resid := by omega
      have hnext : Chunk.next u.req.uio = some .whole := by
        have hpos : ¬ u.req.uio.resid = 0 := by
          intro hz
          rw [hz] at hfull
          exact absurd hfull (by decide)
        have hzero : ¬ u.req.uio.offset % blockSize ≠ 0 := by
          rw [hu.offset, halign' i]
          exact fun hne => hne rfl
        rw [Chunk.next, if_neg hpos, if_neg hzero, if_pos hfull]
      rw [Nat.succ_mul, ← Nat.add_assoc]
      exact hE _ _ _ hu hnext
    · intro u hu
      have hres' := hu.resid hs
      have hlast : u.req.uio.resid < blockSize := by omega
      refine ⟨hlast, ?_⟩
      split
      case isTrue hpos =>
        have hnext : Chunk.next u.req.uio = some (.part 0 u.req.uio.resid) := by
          have hzero : ¬ u.req.uio.offset % blockSize ≠ 0 := by
            rw [hu.offset, halign' n]
            exact fun hne => hne rfl
          rw [Chunk.next, if_neg (Nat.ne_of_gt hpos), if_neg hzero, if_neg (Nat.not_le.mpr hlast)]
        apply wp_mono_post (hE _ _ _ hu hnext)
        intro _ v hv
        refine ⟨_, hv, if_pos ?_⟩
        rw [hv.resid hs]
        simp only [Chunk.size]
        omega
      case isFalse hpos => exact ⟨_, hu, if_pos (by omega)⟩

/-- However a chunk without data ends, nothing of the file was changed. -/
theorem Ends.empty {r : Except Errno Unit} (h : s.Ends c r t) (h0 : c.size = 0) : s.Stored 0 t := by
  cases h with
  | stored _ _ ht => exact h0 ▸ ht
  | stopped _ _ ht => exact ht
  | refused _ _ ht =>
    rw [h0] at ht
    exact ht.stored_none

theorem CanWrite.wp_empty_head (h : s.CanWrite) (h0 : s.req.uio.resid = 0) :
    wp (partialio (s.req.uio.offset % blockSize)
        (min (blockSize - s.req.uio.offset % blockSize) s.req.uio.resid))
      (fun _ t => s.Stored 0 t) (fun _ t => s.Stored 0 t) s := by
  have hmod := Nat.mod_lt s.req.uio.offset (show 0 < blockSize by decide)
  have hlen : min (blockSize - s.req.uio.offset % blockSize) s.req.uio.resid = 0 := by omega
  rw [hlen]
  have hat : (Chunk.part (s.req.uio.offset % blockSize) 0).At s.req.uio :=
    ⟨rfl, Nat.le_of_lt hmod, Nat.zero_le _⟩
  apply wp_mono (h.wp_chunkIo hat)
  · exact fun _ _ ht => ht.empty rfl
  · exact fun _ _ ht => ht.empty rfl

theorem CanWrite.wp_ioBody_of (h : s.CanWrite) (h0 : s.req.uio.resid ≠ 0) (hE : s.FailsIn E) :
    wp ioBody (fun _ t => s.Finished t) E s := by
  simp only [ioBody, wp_bind, wp_state, wp_doIf]
  split
  case isTrue hblk =>
    generalize hlen : min (blockSize - s.req.uio.offset % blockSize) s.req.uio.resid = len
    have hnext : Chunk.next s.req.uio = some (.part (s.req.uio.offset % blockSize) len) := by
      rw [Chunk.next, if_neg h0, if_pos hblk, hlen]
    apply wp_mono_post (hE _ _ _ h.came hnext)
    intro _ t ht
    rw [Nat.zero_add] at ht
    apply ht.wp_ioBlocks h hE
    rw [ht.resid h, ht.offset]
    exact head_aligned hlen
  case isFalse hblk => exact h.came.wp_ioBlocks h hE fun _ => by omega

theorem CanWrite.wp_ioBody_finished (h : s.CanWrite) (h0 : s.req.uio.resid ≠ 0) :
    wp ioBody (fun _ t => s.Finished t) (fun _ t => s.Outcome t) s :=
  h.wp_ioBody_of h0 fun _ _ _ hcame hc => hcame.wp_chunkIo h hc

private theorem CanWrite.wp_ioBody (h : s.CanWrite) :
    wp ioBody (fun _ t => s.Outcome t) (fun _ t => s.Outcome t) s := by
  by_cases h0 : s.req.uio.resid = 0
  · simp only [ioBody, wp_bind, wp_state, wp_doIf]
    split
    case isTrue hblk =>
      apply wp_mono (h.wp_empty_head h0)
      · intro _ t ht
        have hres : t.req.uio.resid = 0 := by
          rw [ht.uio, Uio.advance_resid h.room.lt (Nat.zero_le _), h0]
        simp only [ioBlocks, wp_bind, wp_state, hres, if_true, wp_pure]
        exact .empty h0 ht
      · exact fun _ t ht => .empty h0 ht
    case isFalse hblk =>
      simp only [ioBlocks, wp_bind, wp_state, h0, if_true, wp_pure]
      exact .empty h0 h.start
  · exact wp_mono_post (h.wp_ioBody_finished h0) fun _ t ht => ht.outcome

theorem CanWrite.passes (h : s.CanWrite) (hstep : Step s t) (hc : Chunk.next s.req.uio = some c) :
    ¬ Stops c s ∧ ¬ Refused c s := by
  obtain ⟨c', hc', hrun⟩ := hstep
  rw [hc] at hc'
  cases hc'
  have hend := h.wp_chunkIo (Chunk.next_at hc).1
  rw [wp_of_ok hrun] at hend
  cases hend with
  | stored hgo href _ => exact ⟨hgo, href⟩

theorem CanWrite.steps_came (h : s.CanWrite) (hsteps : Relation.ReflTransGen Step s t) :
    ∃ n, s.Came n t := by
  induction hsteps with
  | refl => exact ⟨0, h.came⟩
  | tail _ hstep ih =>
    obtain ⟨n, hcame⟩ := ih
    obtain ⟨c, hc, hrun⟩ := hstep
    have hnext := hcame.wp_chunkIo h hc
    rw [wp_of_ok hrun] at hnext
    exact ⟨n + c.size, hnext⟩

theorem Came.loses_iff (h : s.Came n t) (hs : s.CanWrite) (hhalt : ∀ u, ¬ Step t u) :
    s.Loses ↔ t.Lost := by
  constructor
  · intro hloses
    obtain ⟨u, hsteps, hlost⟩ := hloses
    obtain ⟨m, hcame⟩ := hs.steps_came hsteps
    have hcan := hcame.stored.canWrite hs hcame.le
    have huHalt (v : SfsSt) : ¬ Step u v := by
      intro hstep
      obtain ⟨c, hc, href, _⟩ := hlost
      exact (hcan.passes hstep hc).2 href
    rw [halts_unique step_rightUnique h.steps hsteps hhalt huHalt]
    exact hlost
  · exact fun hlost => ⟨t, h.steps, hlost⟩

theorem Came.not_stalls (h : s.Came n t) (hs : s.CanWrite) (hn : 0 < n) : ¬ s.Stalls := by
  intro hstall
  cases h.steps.cases_head with
  | inl heq =>
    have hoff := h.offset
    rw [← heq] at hoff
    omega
  | inr hstep =>
    obtain ⟨u, hu, _⟩ := hstep
    obtain ⟨c, hc, hrun⟩ := hu
    exact (hs.passes ⟨c, hc, hrun⟩ hc).1 (hstall c hc)

/-- The first `n` bytes of a request are in the file. -/
def Keeps (s : SfsSt) (n : Nat) (u : SfsSt) : Prop :=
  ∀ i < n, u.content (s.req.uio.offset + i) = s.req.mem (s.req.uio.iovBase + i)

/-- `n` bytes were taken from the request, wherever they are now. -/
structure Passed (s : SfsSt) (n : Nat) (u : SfsSt) : Prop where
  uio : u.req.uio = s.req.uio.advance n
  size : u.inode.size = s.inode.size
  le : n ≤ s.req.uio.resid
  outside : ∀ x, x < s.req.uio.offset ∨ s.req.uio.offset + s.req.uio.resid ≤ x →
    u.content x = s.content x

private theorem Stored.passed (h : s.Stored n u) (hn : n ≤ s.req.uio.resid) : s.Passed n u := by
  refine ⟨h.uio, h.size, hn, fun x hx => ?_⟩
  rw [h.content, ByteStore.blit_of_outside]
  omega

private theorem Stored.keeps (h : s.Stored n u) : s.Keeps n u := by
  intro i hi
  rw [h.content, ByteStore.blit_of_inside hi]

theorem Came.spilled_keeps (h : s.Came m t) (hu : t.Spilled n u) :
    s.Keeps (m + n) u ↔ t.Holds n := by
  constructor
  · intro hkeeps i hi
    have hsame := hkeeps (m + i) (by omega)
    rw [hu.content] at hsame
    rw [h.offset, h.stored.mem, h.stored.uio, Uio.advance_iovBase, Nat.add_assoc, Nat.add_assoc]
    exact hsame
  · intro hholds i hi
    by_cases him : i < m
    · rw [hu.content]
      exact h.stored.keeps i him
    · obtain ⟨j, rfl⟩ := Nat.exists_eq_add_of_le (Nat.not_lt.mp him)
      have hsame := hholds j (by omega)
      rw [h.offset, h.stored.mem, h.stored.uio, Uio.advance_iovBase, Nat.add_assoc,
        Nat.add_assoc] at hsame
      rw [hu.content]
      exact hsame

/-- What a write has done when it leaves its chunks. -/
structure Settled (s : SfsSt) (n : Nat) (u : SfsSt) : Prop where
  passed : s.Passed n u
  stalls : n = 0 ↔ s.Stalls
  loses : s.Keeps n u ↔ ¬ s.Loses

private theorem Came.settled_of_none (h : s.Came n t) (hs : s.CanWrite)
    (hnone : Chunk.next t.req.uio = none) (hu : s.Stored n u) : s.Settled n u := by
  refine ⟨hu.passed h.le, ⟨fun h0 c hc => ?_, fun hstall => ?_⟩, fun _ hloses => ?_,
    fun _ => hu.keeps⟩
  · rw [h.moves h0, hc] at hnone
    cases hnone
  · by_contra hn
    exact h.not_stalls hs (Nat.pos_of_ne_zero hn) hstall
  · have hhalt (v : SfsSt) : ¬ Step t v := by
      intro hstep
      obtain ⟨c, hc, _⟩ := hstep
      rw [hnone] at hc
      cases hc
    obtain ⟨c, hc, _⟩ := (h.loses_iff hs hhalt).mp hloses
    rw [hnone] at hc
    cases hc

private theorem Came.settled_of_stopped (h : s.Came n t) (hs : s.CanWrite)
    (hc : Chunk.next t.req.uio = some c) (hstop : Stops c t) (href : ¬ Refused c t)
    (hu : t.Stored 0 u) : s.Settled n u := by
  have hcan := h.stored.canWrite hs h.le
  have hall : s.Stored n u := h.stored.trans hu hs h.le
  refine ⟨hall.passed h.le, ⟨fun h0 c' hc' => ?_, fun hstall => ?_⟩, fun _ hloses => ?_,
    fun _ => hall.keeps⟩
  · rw [← h.moves h0, hc] at hc'
    cases hc'
    rw [← h.moves h0]
    exact hstop
  · by_contra hn
    exact h.not_stalls hs (Nat.pos_of_ne_zero hn) hstall
  · have hhalt (v : SfsSt) : ¬ Step t v := fun hstep => (hcan.passes hstep hc).1 hstop
    obtain ⟨c', hc', href', _⟩ := (h.loses_iff hs hhalt).mp hloses
    rw [hc] at hc'
    cases hc'
    exact href href'

private theorem Came.settled_of_refused (h : s.Came n t) (hs : s.CanWrite)
    (hc : Chunk.next t.req.uio = some c) (hgo : ¬ Stops c t) (href : Refused c t)
    (hu : t.Spilled c.size u) : s.Settled (n + c.size) u := by
  obtain ⟨hat, hpos⟩ := Chunk.next_at hc
  have hcan := h.stored.canWrite hs h.le
  have hle : n + c.size ≤ s.req.uio.resid := by
    have hres := h.resid hs
    have hfit := hat.resid
    have hn := h.le
    omega
  have hpassed : s.Passed (n + c.size) u := by
    refine ⟨?_, hu.size.trans h.stored.size, hle, fun x hx => ?_⟩
    · rw [hu.uio, h.stored.uio, Uio.advance_advance hs.room.lt hle]
    · rw [hu.content]
      exact (h.stored.passed h.le).outside x hx
  have hhalt (v : SfsSt) : ¬ Step t v := fun hstep => (hcan.passes hstep hc).2 href
  have hlost : t.Lost ↔ ¬ t.Holds c.size := by
    constructor
    · intro hlost
      obtain ⟨c', hc', _, hno⟩ := hlost
      rw [hc] at hc'
      cases hc'
      exact hno
    · exact fun hno => ⟨c, hc, href, hno⟩
  refine ⟨hpassed, ⟨fun h0 => by omega, fun hstall => ?_⟩, ?_⟩
  · by_cases hn : n = 0
    · rw [← h.moves hn] at hstall
      exact absurd (hstall c hc) hgo
    · exact absurd hstall (h.not_stalls hs (Nat.pos_of_ne_zero hn))
  · rw [h.spilled_keeps hu, h.loses_iff hs hhalt, hlost, not_not]

private theorem Outcome.settled (h : s.Outcome u) (hs : s.CanWrite) : ∃ n, s.Settled n u := by
  cases h with
  | empty h0 hu => exact ⟨0, hs.came.settled_of_none hs (if_pos h0) hu⟩
  | done hcame hnone => exact ⟨_, hcame.settled_of_none hs hnone hcame.stored⟩
  | failed hcame hc hend =>
    cases hend with
    | stopped hstop href hu => exact ⟨_, hcame.settled_of_stopped hs hc hstop href hu⟩
    | refused hgo href hu => exact ⟨_, hcame.settled_of_refused hs hc hgo href hu⟩

/-- The bytes that the uio reports as transferred -/
def moved (s t : SfsSt) : Nat := t.req.uio.offset - s.req.uio.offset

/-- The bytes reported as transferred are in the file, nothing else of it was changed, and it only
grew up to the last of them. -/
structure Accounted (s t : SfsSt) : Prop where
  offset : t.req.uio.offset = s.req.uio.offset + s.moved t
  resid : t.req.uio.resid + s.moved t = s.req.uio.resid
  stored : s.Keeps (s.moved t) t
  outside : ∀ x, x < s.req.uio.offset ∨ s.req.uio.offset + s.req.uio.resid ≤ x →
    t.content x = s.content x
  size : t.inode.size = s.inode.size ∨ 0 < s.moved t ∧
    s.inode.size < s.req.uio.offset + s.moved t ∧
    t.inode.size = s.req.uio.offset + s.moved t

/-- `sfs_write` returns, and what it did is accounted for. -/
def WriteAccounts (s : SfsSt) : Prop := ∃ r t, sfsWrite s = some (r, t) ∧ s.Accounted t

theorem adjustSize_req : s.adjustSize.req = s.req := by
  unfold adjustSize
  split <;> rfl

theorem adjustSize_content : s.adjustSize.content = s.content := by
  unfold adjustSize
  split <;> rfl

theorem adjustSize_size (h : s.inode.size < 2 ^ 31) :
    s.adjustSize.inode.size = max s.inode.size s.req.uio.offset := by
  rw [adjustSize, toOff_of_lt h]
  split
  case isTrue hlt =>
    show s.req.uio.offset = _
    omega
  case isFalse hge => omega

theorem Settled.accounted_iff (h : s.Settled n u) (hs : s.CanWrite)
    (hsize : s.inode.size < 2 ^ 31) : s.Accounted u.adjustSize ↔
      ¬ s.Loses ∧ (s.inode.size < s.req.uio.offset → ¬ s.Stalls) := by
  have hpassed := h.passed
  have hoff : u.req.uio.offset = s.req.uio.offset + n := by
    rw [hpassed.uio, Uio.advance_offset]
  have hmoved : s.moved u.adjustSize = n := by
    rw [moved, adjustSize_req, hoff, Nat.add_sub_cancel_left]
  have hsize' := adjustSize_size (s := u) (hpassed.size ▸ hsize)
  rw [hpassed.size, hoff] at hsize'
  have hkeeps : s.Keeps n u.adjustSize ↔ s.Keeps n u := by
    simp only [Keeps, adjustSize_content]
  rw [← h.loses, ← h.stalls]
  constructor
  · intro hacc
    have hstored := hacc.stored
    have hgrown := hacc.size
    rw [hmoved, hkeeps] at hstored
    rw [hmoved] at hgrown
    exact ⟨hstored, fun hbeyond => by omega⟩
  · intro hok
    obtain ⟨hstored, hbeyond⟩ := hok
    refine ⟨?_, ?_, ?_, fun x hx => ?_, ?_⟩
    · rw [hmoved, adjustSize_req, hoff]
    · rw [hmoved, adjustSize_req, hpassed.uio, Uio.advance_resid hs.room.lt hpassed.le]
      exact Nat.sub_add_cancel hpassed.le
    · rw [hmoved, hkeeps]
      exact hstored
    · rw [adjustSize_content]
      exact hpassed.outside x hx
    · rw [hmoved]
      omega

private theorem CanWrite.wp_sfsWrite (h : s.CanWrite) :
    wp sfsWrite (fun _ t => ∃ n u, s.Settled n u ∧ t = u.adjustSize)
      (fun _ t => ∃ n u, s.Settled n u ∧ t = u.adjustSize) s := by
  have hno : ¬ s.req.uio.rw = .read := by
    rw [h.rw]
    decide
  have hend (u : SfsSt) (hu : s.Outcome u) : ∃ n v, s.Settled n v ∧ u.adjustSize = v.adjustSize := by
    obtain ⟨n, hn⟩ := hu.settled h
    exact ⟨n, u, hn, rfl⟩
  simp only [sfsWrite, sfsIo, wp_bind, wp_state, wp_check, if_neg hno, wp_ensuring]
  refine ⟨h.rw, ?_⟩
  apply wp_mono h.wp_ioBody
  · exact fun _ u hu => hend u hu
  · exact fun _ u hu => hend u hu

private theorem CanWrite.accounts_iff (h : s.CanWrite) (hsize : s.inode.size < 2 ^ 31) :
    s.WriteAccounts ↔ ¬ s.Loses ∧ (s.inode.size < s.req.uio.offset → ¬ s.Stalls) := by
  obtain ⟨r, t, hrun, hr⟩ := wp_elim h.wp_sfsWrite
  have hsettled : ∃ n u, s.Settled n u ∧ t = u.adjustSize := by
    cases r <;> exact hr
  obtain ⟨n, u, hu, rfl⟩ := hsettled
  rw [← hu.accounted_iff h hsize]
  constructor
  · intro hacc
    obtain ⟨r', t', hrun', hacc'⟩ := hacc
    rw [hrun] at hrun'
    cases hrun'
    exact hacc'
  · exact fun hacc => ⟨r, _, hrun, hacc⟩

/-- A write to a consistent file, under any device errors and any faults of the caller's memory, is
accounted for if and only if no chunk is taken from the uio and then lost, and data were taken at
all where it starts beyond the end of the file. -/
theorem write_accounts_iff (s : SfsSt) (h : s.CanWrite) (hsize : s.inode.size < 2 ^ 31) :
    s.WriteAccounts ↔ ¬ s.Loses ∧ (s.inode.size < s.req.uio.offset → ¬ s.Stalls) :=
  h.accounts_iff hsize

theorem CanWrite.not_loses (h : s.CanWrite) (hok : ∀ i, s.ioErrors i = none) : ¬ s.Loses := by
  intro hloses
  obtain ⟨t, hsteps, c, hc, ⟨p, u, hrun, he⟩, _⟩ := hloses
  obtain ⟨n, hcame⟩ := h.steps_came hsteps
  have htook := (hcame.stored.canWrite h hcame.le).wp_take (Chunk.next_at hc).1
  rw [wp_of_ok hrun] at htook
  rw [htook.spilled.errors, hcame.stored.errors] at he
  exact he (hok _)

/-- A file of 100 bytes without any block, one free block, and a write of a block of ones to its
start. -/
def onesWrite (ioErrors : Nat → Option Errno) : SfsSt :=
  { req := ⟨mkKuio 0 blockSize 0 .write, fun _ => 1, fun _ => none, 0⟩
    disk := fun _ => zeros
    ioErrors := ioErrors
    ios := 0
    nblocks := 8
    nbits := 8
    freemap := fun b => decide (b ≠ 3)
    freemapDirty := false
    inode := ⟨100, fun _ => 0, 0⟩
    dirty := false }

private theorem onesWrite_canWrite (ioErrors : Nat → Option Errno) : (onesWrite ioErrors).CanWrite := by
  have href (r : Option Nat) : (onesWrite ioErrors).ref r = 0 := by
    cases r with
    | none => rfl
    | some b => simp [ref, fileBlock, entry, onesWrite]
  refine ⟨⟨?_, Nat.le_refl _, fun b hlo hhi => ?_, rfl, fun r hr => absurd (href r) hr,
    fun r _ _ hr => absurd (href r) hr⟩, ⟨?_, Nat.le_refl _⟩, rfl⟩
  · show 8 ≤ maxBlocks
    decide
  · exact absurd hhi (Nat.not_lt.mpr hlo)
  · show blockSize < 2 ^ 32
    decide

private theorem onesWrite_size (ioErrors : Nat → Option Errno) :
    (onesWrite ioErrors).inode.size < 2 ^ 31 := by
  show 100 < 2 ^ 31
  decide

theorem write_accounts_ones : (onesWrite fun _ => none).WriteAccounts :=
  (write_accounts_iff _ (onesWrite_canWrite _) (onesWrite_size _)).mpr
    ⟨(onesWrite_canWrite _).not_loses fun _ => rfl, fun h => absurd h (by decide)⟩

/-- The second request to the block layer is the one for the data. When it fails, the uio reports
512 bytes that the file does not have. -/
theorem write_loses_block : ¬ ∀ s : SfsSt, s.CanWrite → s.inode.size < 2 ^ 31 →
    s.WriteAccounts := by
  intro hall
  have hcan := onesWrite_canWrite fun i => if i = 1 then some .eio else none
  have hacc := hall _ hcan (onesWrite_size _)
  apply ((hcan.accounts_iff (onesWrite_size _)).mp hacc).1
  refine ⟨_, .refl, .whole, rfl, ⟨_, _, rfl, by decide⟩, fun hholds => ?_⟩
  have hbyte := hholds 0 (by decide)
  revert hbyte
  decide

end SfsSt

end CseOs.Kernel.Sfs
