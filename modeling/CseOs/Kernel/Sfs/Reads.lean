import CseOs.Kernel.Sfs.FileIo

/-!
# Reading a file

Without errors a read delivers the file's bytes. How many of them depends on the check for the end
of the file, which adds an unsigned residue to a signed offset in 32 bits.
-/

namespace CseOs.Kernel.Sfs

open Framework Prog

namespace SfsSt

variable {s t u : SfsSt} {b d i len m n skip x : Nat} {E : Errno → SfsSt → Prop}

theorem content_at (b : Nat) (hi : i < blockSize) : s.content (b * blockSize + i) =
    if s.fileBlock b = 0 then 0 else s.disk (s.fileBlock b) i := by
  have hdiv : (b * blockSize + i) / blockSize = b := by
    rw [Nat.mul_comm, Nat.mul_add_div (by decide), Nat.div_eq_of_lt hi, Nat.add_zero]
  have hmod : (b * blockSize + i) % blockSize = i := by
    rw [Nat.mul_comm, Nat.mul_add_mod, Nat.mod_eq_of_lt hi]
  simp only [content, hdiv, hmod]

/-- The bytes of the file from the request's offset on. -/
def ahead (s : SfsSt) : ByteStore := fun i => s.content (s.req.uio.offset + i)

/-- A read under way that nothing will disturb. -/
structure CanRead (s : SfsSt) : Prop where
  consistent : s.Consistent
  errors : ∀ i, s.ioErrors i = none
  room : s.req.Room
  noFaults : s.req.NoFaults
  rw : s.req.uio.rw = .read

/-- `n` bytes of the file were delivered, and the file is as before. -/
structure ReadTo (s : SfsSt) (n : Nat) (t : SfsSt) : Prop where
  file : ∃ k, t = { s with req := t.req, ios := k }
  moved : Delivered s.req n s.ahead 0 t.req

private theorem ReadTo.content (h : s.ReadTo n t) : t.content = s.content := by
  obtain ⟨k, hk⟩ := h.file
  rw [hk]
  rfl

private theorem ReadTo.canRead (h : s.ReadTo n t) (hs : s.CanRead) (hn : n ≤ s.req.uio.resid) :
    t.CanRead := by
  have hroom := h.moved.room hs.room hn
  have hfaults := h.moved.noFaults hs.noFaults
  have hrw : t.req.uio.rw = .read := by rw [h.moved.uio, Uio.advance_rw, hs.rw]
  obtain ⟨k, hk⟩ := h.file
  generalize t.req = w at *
  subst hk
  exact ⟨hs.consistent.of_ref rfl rfl rfl fun _ hx => hx, hs.errors, hroom, hfaults, hrw⟩

private theorem ReadTo.offset (h : s.ReadTo n t) : t.req.uio.offset = s.req.uio.offset + n := by
  rw [h.moved.uio, Uio.advance_offset]

private theorem ReadTo.resid (h : s.ReadTo n t) (hs : s.CanRead) (hn : n ≤ s.req.uio.resid) :
    t.req.uio.resid = s.req.uio.resid - n := by
  rw [h.moved.uio, Uio.advance_resid hs.room.lt hn]

private theorem ReadTo.trans (h : s.ReadTo m t) (h' : t.ReadTo n u) (hs : s.CanRead)
    (hn : m + n ≤ s.req.uio.resid) : s.ReadTo (m + n) u := by
  constructor
  · obtain ⟨k, hk⟩ := h.file
    obtain ⟨k', hk'⟩ := h'.file
    refine ⟨k', ?_⟩
    rw [hk'] at *
    rw [hk]
  · have hsame : Delivered t.req n s.ahead (0 + m) u.req := by
      refine ⟨h'.moved.uio, h'.moved.mem.trans (ByteStore.blit_congr fun i _ => ?_), h'.moved.faults⟩
      simp only [ahead, h.content, h.offset]
      congr 1
      omega
    exact h.moved.append hs.room hn hsame

private theorem CanRead.start (h : s.CanRead) : s.ReadTo 0 s :=
  ⟨⟨s.ios, rfl⟩, (Uio.advance_none h.room.lt).symm, (ByteStore.blit_none ..).symm, rfl⟩

theorem CanRead.wp_loadBuffer (h : s.CanRead) :
    wp (loadBuffer (s.fileBlock b)) (fun buf t => s.Quiet t ∧
      ∀ i < blockSize, buf i = s.content (b * blockSize + i)) E s := by
  simp only [loadBuffer, wp_bind, wp_state, wp_ite, wp_check, wp_pure, wp_rblock, h.errors]
  split
  case isTrue h0 =>
    refine ⟨h.rw, ⟨s.ios, rfl⟩, fun i hi => ?_⟩
    rw [content_at b hi, if_pos h0]
    rfl
  case isFalse h0 =>
    refine ⟨⟨s.ios + 1, rfl⟩, fun i hi => ?_⟩
    rw [content_at b hi, if_neg h0]

/-- Requests to the block layer alone leave a read as it is. -/
structure Waited (s t : SfsSt) : Prop where
  canRead : t.CanRead
  fileBlock : t.fileBlock = s.fileBlock
  content : t.content = s.content
  req : t.req = s.req
  file : ∃ k, t = { s with ios := k }

private theorem CanRead.waited (h : s.CanRead) (hq : s.Quiet t) : s.Waited t := by
  obtain ⟨k, rfl⟩ := hq
  have hcons : ({ s with ios := k } : SfsSt).Consistent :=
    h.consistent.of_ref rfl rfl rfl fun _ hx => hx
  exact ⟨⟨hcons, h.errors, h.room, h.noFaults, h.rw⟩, rfl, rfl, rfl, k, rfl⟩

private theorem Waited.trans (h : s.Waited t) (h' : t.Waited u) : s.Waited u := by
  obtain ⟨k, hk⟩ := h.file
  obtain ⟨k', hk'⟩ := h'.file
  refine ⟨h'.canRead, h'.fileBlock.trans h.fileBlock, h'.content.trans h.content,
    h'.req.trans h.req, k', ?_⟩
  rw [hk', hk]

theorem Waited.delivered {w : Transfer} {buf : ByteStore} {ptr : Nat} (h : s.Waited t)
    (hw : Delivered s.req n buf ptr w) (hbuf : ∀ i < n, buf (ptr + i) = s.ahead i) :
    s.ReadTo n (t.setReq w) := by
  obtain ⟨k, hk⟩ := h.file
  refine ⟨⟨k, by rw [hk]; rfl⟩, hw.uio, hw.mem.trans (ByteStore.blit_congr fun i hi => ?_),
    hw.faults⟩
  rw [hbuf i hi, Nat.zero_add]

private theorem CanRead.wp_find (h : s.CanRead) (hb : b < maxFileBlocks) :
    wp (bmap b (decide (s.req.uio.rw = .write)))
      (fun d t => d = t.fileBlock b ∧ s.Waited t) E s := by
  have hno : decide (s.req.uio.rw = .write) = false := by rw [h.rw]; rfl
  rw [hno]
  apply wp_mono (h.consistent.wp_bmap_find h.errors hb)
  · intro d t ht
    have hwait := h.waited ht.2
    exact ⟨by rw [ht.1, hwait.fileBlock], hwait⟩
  · exact fun _ _ hf => hf.elim

private theorem CanRead.wp_partialio (h : s.CanRead) (hskip : s.req.uio.offset % blockSize = skip)
    (hlen : skip + len ≤ blockSize) (hres : len ≤ s.req.uio.resid)
    (hb : s.req.uio.offset / blockSize < maxFileBlocks) :
    wp (partialio skip len) (fun _ t => s.ReadTo len t) E s := by
  have hoff : s.req.uio.offset / blockSize * blockSize + skip = s.req.uio.offset := by
    rw [← hskip, Nat.mul_comm, Nat.div_add_mod]
  simp only [partialio, partialBuffer, wp_bind, wp_state, wp_check, wp_zoom, wp_pure, wp_doIf]
  refine ⟨hlen, wp_mono_post (h.wp_find hb) fun d t ht => ?_⟩
  obtain ⟨rfl, hwait⟩ := ht
  apply wp_mono_post hwait.canRead.wp_loadBuffer
  intro buf t' hload
  have hwait' := hwait.trans (hwait.canRead.waited hload.1)
  rw [hwait'.req]
  apply wp_mono_post (wp_uiomove_read h.room h.noFaults h.rw hres)
  intro _ w hw
  have hrw : ¬ (t'.setReq w).req.uio.rw = .write := by
    show ¬ w.uio.rw = .write
    rw [hw.uio, Uio.advance_rw, h.rw]
    decide
  rw [if_neg hrw]
  apply hwait'.delivered hw
  intro i hi
  rw [hload.2 (skip + i) (by omega), hwait.content, ahead, ← Nat.add_assoc, hoff]

theorem restoreUio_advance {saved : Uio} (h32 : saved.resid < 2 ^ 32)
    (hres : blockSize ≤ saved.resid) :
    restoreUio saved d ((deviceUio d saved).advance blockSize) = saved.advance blockSize := by
  have hzero : sub32 blockSize blockSize = 0 := by decide
  have hsub : (sub32 0 blockSize + saved.resid) % 2 ^ 32 = sub32 saved.resid blockSize := by
    rw [sub32_of_le h32 hres]
    simp only [sub32, blockSize] at *
    omega
  have hoff : d * blockSize + blockSize - d * blockSize + saved.offset =
      saved.offset + blockSize := by omega
  simp only [restoreUio, deviceUio, Uio.advance, hzero, hsub, hoff]

theorem CanRead.wp_rwblock (h : s.CanRead) (hres : blockSize ≤ s.req.uio.resid)
    (hd : s.req.uio.offset / blockSize = d) :
    wp rwblock (fun _ t => ∃ k w, Delivered s.req blockSize (s.disk d) 0 w ∧
      t = { s with req := w, ios := k }) E s := by
  simp only [rwblock, wp_bind, wp_state, h.rw, wp_rblock, h.errors, hd, wp_zoom, wp_pure]
  apply wp_mono_post (wp_uiomove_read h.room h.noFaults h.rw hres)
  intro _ w hw
  exact ⟨s.ios + 1, w, hw, rfl⟩

theorem CanRead.device (h : s.CanRead) (hres : blockSize ≤ s.req.uio.resid) :
    (s.mapUio (deviceUio d)).CanRead := by
  refine ⟨h.consistent.of_ref rfl rfl rfl fun _ hx => hx, h.errors, ⟨?_, ?_⟩, h.noFaults, h.rw⟩
  · show blockSize < 2 ^ 32
    decide
  · exact Nat.le_trans hres h.room.le

private theorem CanRead.wp_blockio (h : s.CanRead) (halign : s.req.uio.offset % blockSize = 0)
    (hres : blockSize ≤ s.req.uio.resid) (hb : s.req.uio.offset / blockSize < maxFileBlocks) :
    wp blockio (fun _ t => s.ReadTo blockSize t) E s := by
  have hoff : s.req.uio.offset / blockSize * blockSize = s.req.uio.offset := by
    have hdiv := Nat.div_add_mod s.req.uio.offset blockSize
    rw [halign, Nat.add_zero, Nat.mul_comm] at hdiv
    exact hdiv
  have hahead (i : Nat) (hi : i < blockSize) : s.ahead i =
      if s.fileBlock (s.req.uio.offset / blockSize) = 0 then 0
      else s.disk (s.fileBlock (s.req.uio.offset / blockSize)) i := by
    rw [ahead, ← content_at _ hi, hoff]
  simp only [blockio, wp_bind, wp_state, wp_ite, wp_check, wp_zoom, wp_update, wp_ensuring]
  apply wp_mono_post (h.wp_find hb)
  intro d t ht
  obtain ⟨rfl, hwait⟩ := ht
  rw [hwait.fileBlock]
  split
  case isTrue h0 =>
    rw [hwait.req]
    refine ⟨h.rw, ?_⟩
    apply wp_mono_post (wp_uiomovezeros h.room h.noFaults h.rw hres)
    intro _ w hw
    apply hwait.delivered hw
    intro i hi
    rw [hahead i hi, if_pos h0]
    rfl
  case isFalse h0 =>
    refine ⟨hres, ?_⟩
    generalize hd : s.fileBlock (s.req.uio.offset / blockSize) = d at h0 hahead
    have hdev := hwait.canRead.device (d := d) (by rw [hwait.req]; exact hres)
    apply wp_mono_post (hdev.wp_rwblock (Nat.le_refl _) (Nat.mul_div_cancel d (by decide)))
    intro _ u hu
    obtain ⟨k', w, hw, rfl⟩ := hu
    obtain ⟨k, rfl⟩ := hwait.file
    refine ⟨⟨k', rfl⟩, ?_, hw.mem.trans (ByteStore.blit_congr fun i hi => ?_), hw.faults⟩
    · show restoreUio s.req.uio d w.uio = _
      rw [hw.uio]
      exact restoreUio_advance h.room.lt hres
    · rw [Nat.zero_add, hahead i hi, if_neg h0]
      rfl

private theorem block_lt (hx : x < maxFileSize) : x / blockSize < maxFileBlocks := by
  apply Nat.div_lt_of_lt_mul
  rw [Nat.mul_comm]
  exact hx

theorem CanRead.wp_block_step (h : s.CanRead) (halign : s.req.uio.offset % blockSize = 0)
    (hres : (i + 1) * blockSize ≤ s.req.uio.resid)
    (hend : s.req.uio.offset + i * blockSize < maxFileSize) (ht : s.ReadTo (i * blockSize) t) :
    wp blockio (fun _ u => s.ReadTo ((i + 1) * blockSize) u) E t := by
  rw [Nat.succ_mul] at hres ⊢
  have hcan := ht.canRead h (by omega)
  have hoff := ht.offset
  have hres' := ht.resid h (by omega)
  have halign' : t.req.uio.offset % blockSize = 0 := by rw [hoff, Nat.add_mul_mod_self_right, halign]
  have hb := block_lt (hoff ▸ hend)
  apply wp_mono_post (hcan.wp_blockio halign' (by omega) hb)
  intro _ u hu
  exact ht.trans hu h hres

private theorem CanRead.wp_ioBlocks (h : s.CanRead)
    (halign : s.req.uio.resid ≠ 0 → s.req.uio.offset % blockSize = 0)
    (hend : s.req.uio.offset + s.req.uio.resid ≤ maxFileSize) :
    wp ioBlocks (fun _ t => s.ReadTo s.req.uio.resid t) E s := by
  simp only [ioBlocks, wp_bind, wp_state, wp_ite, wp_check, wp_doIf, wp_pure]
  split
  case isTrue h0 =>
    rw [h0]
    exact h.start
  case isFalse h0 =>
    have hdiv := Nat.div_add_mod s.req.uio.resid blockSize
    have hmod := Nat.mod_lt s.req.uio.resid (show 0 < blockSize by decide)
    rw [Nat.mul_comm] at hdiv
    generalize hn : s.req.uio.resid / blockSize = n at hdiv
    refine ⟨halign h0, wp_loop (fun i t => s.ReadTo (i * blockSize) t) ?_ ?_ ?_⟩
    · rw [Nat.zero_mul]
      exact h.start
    · intro i t hi ht
      have hle : (i + 1) * blockSize ≤ n * blockSize := Nat.mul_le_mul_right _ hi
      have hlt : i * blockSize < (i + 1) * blockSize := by
        rw [Nat.succ_mul]
        exact Nat.lt_add_of_pos_right (by decide)
      exact h.wp_block_step (halign h0) (by omega) (by omega) ht
    · intro t ht
      have hres := ht.resid h (by omega)
      have hrest : t.req.uio.resid = s.req.uio.resid % blockSize := by omega
      refine ⟨by omega, ?_⟩
      split
      case isTrue hpos =>
        have hoff := ht.offset
        have hcan := ht.canRead h (by omega)
        have halign' : t.req.uio.offset % blockSize = 0 := by
          rw [hoff, Nat.add_mul_mod_self_right, halign h0]
        have hb := block_lt (x := t.req.uio.offset) (by omega)
        apply wp_mono_post (hcan.wp_partialio halign' (by omega) (Nat.le_refl _) hb)
        intro _ u hu
        have hall := ht.trans hu h (by omega)
        rw [show n * blockSize + t.req.uio.resid = s.req.uio.resid by omega] at hall
        exact hall
      case isFalse hpos =>
        rw [show s.req.uio.resid = n * blockSize by omega]
        exact ht

theorem CanRead.wp_head (h : s.CanRead) (hend : s.req.uio.offset < maxFileSize)
    (hlen : min (blockSize - s.req.uio.offset % blockSize) s.req.uio.resid = len) :
    wp (partialio (s.req.uio.offset % blockSize) len) (fun _ t => s.ReadTo len t) E s := by
  have hmod := Nat.mod_lt s.req.uio.offset (show 0 < blockSize by decide)
  exact h.wp_partialio rfl (by omega) (by omega) (block_lt hend)

/-- After the leading partial block the request is aligned, or done. -/
theorem head_aligned (hlen : min (blockSize - m % blockSize) n = len) (hn : n - len ≠ 0) :
    (m + len) % blockSize = 0 := by
  simp only [blockSize] at *
  omega

theorem CanRead.wp_ioBody (h : s.CanRead) (hend : s.req.uio.offset + s.req.uio.resid ≤ maxFileSize) :
    wp ioBody (fun _ t => s.ReadTo s.req.uio.resid t) E s := by
  simp only [ioBody, wp_bind, wp_state, wp_doIf]
  split
  case isTrue hblk =>
    have hoff : s.req.uio.offset < maxFileSize := by
      simp only [maxFileSize, maxFileBlocks, nDirect, dbPerIdb, blockSize] at *
      omega
    generalize hlen : min (blockSize - s.req.uio.offset % blockSize) s.req.uio.resid = len
    apply wp_mono_post (h.wp_head hoff hlen)
    intro _ t ht
    have hle : len ≤ s.req.uio.resid := by omega
    have hres := ht.resid h hle
    have hoff := ht.offset
    have hcan := ht.canRead h hle
    have halign : t.req.uio.resid ≠ 0 → t.req.uio.offset % blockSize = 0 := by
      rw [hoff, hres]
      exact head_aligned hlen
    apply wp_mono_post (hcan.wp_ioBlocks halign (by omega))
    intro _ u hu
    have hall := ht.trans hu h (by omega)
    rw [show len + t.req.uio.resid = s.req.uio.resid by omega] at hall
    exact hall
  case isFalse hblk => exact h.wp_ioBlocks (fun _ => by omega) hend

private theorem blockio_beyond {Q : Unit → SfsSt → Prop} (hb : maxFileBlocks ≤ s.req.uio.offset / blockSize) :
    wp blockio Q E s ↔ E .einval s := by
  rw [blockio, wp_bind, wp_state, wp_bind, wp_bmap_beyond hb]

private theorem partialio_beyond {Q : Unit → SfsSt → Prop} (hb : maxFileBlocks ≤ s.req.uio.offset / blockSize) :
    wp (partialio skip len) Q E s ↔ skip + len ≤ blockSize ∧ E .einval s := by
  rw [partialio, wp_bind, partialBuffer, wp_bind, wp_state, wp_bind, wp_check, wp_bind, wp_bmap_beyond hb]

theorem CanRead.ioBlocks_raises (h : s.CanRead) (halign : s.req.uio.offset % blockSize = 0)
    (hres : 0 < s.req.uio.resid) (hend : maxFileSize < s.req.uio.offset + s.req.uio.resid) :
    wp ioBlocks (fun _ _ => False) (fun e _ => e = .einval) s := by
  have hbs : 0 < blockSize := by decide
  obtain ⟨k, hk⟩ := Nat.dvd_of_mod_eq_zero halign
  rw [Nat.mul_comm] at hk
  obtain ⟨m, hm⟩ : ∃ m, m = maxFileBlocks - k := ⟨_, rfl⟩
  have hbeyond : maxFileBlocks ≤ k + m := by omega
  have hbefore : m * blockSize ≤ s.req.uio.resid := by
    by_cases hkm : k ≤ maxFileBlocks
    · have hmax : maxFileSize = k * blockSize + m * blockSize := by
        rw [maxFileSize, ← Nat.add_mul, hm, Nat.add_sub_cancel' hkm]
      omega
    · have h0 : m = 0 := by omega
      rw [h0, Nat.zero_mul]
      exact Nat.zero_le _
  have hin (i : Nat) (hi : i < m) : s.req.uio.offset + i * blockSize < maxFileSize := by
    rw [hk, ← Nat.add_mul]
    exact Nat.mul_lt_mul_of_pos_right (by omega) hbs
  have hlast (t : SfsSt) (ht : s.ReadTo (m * blockSize) t) : maxFileBlocks ≤ t.req.uio.offset / blockSize := by
    rw [ht.offset, hk, ← Nat.add_mul, Nat.mul_div_cancel _ hbs]
    exact hbeyond
  have hstart : s.ReadTo (0 * blockSize) s := by
    rw [Nat.zero_mul]
    exact h.start
  have hround (i : Nat) (t : SfsSt) (hi : i < m) (ht : s.ReadTo (i * blockSize) t) :
      wp blockio (fun _ u => s.ReadTo ((i + 1) * blockSize) u) (fun e _ => e = .einval) t := by
    have hle : (i + 1) * blockSize ≤ m * blockSize := Nat.mul_le_mul_right _ hi
    exact h.wp_block_step halign (by omega) (hin i hi) ht
  simp only [ioBlocks, wp_bind, wp_state, wp_ite, wp_check, wp_doIf, wp_pure, if_neg hres.ne']
  refine ⟨halign, ?_⟩
  have hdiv := Nat.div_add_mod s.req.uio.resid blockSize
  rw [Nat.mul_comm] at hdiv
  have hmod := Nat.mod_lt s.req.uio.resid hbs
  by_cases hrounds : m < s.req.uio.resid / blockSize
  · apply wp_loop_raises (fun i t => s.ReadTo (i * blockSize) t) hrounds hstart hround
    intro t ht
    rw [blockio_beyond (hlast t ht)]
  · have hsame : s.req.uio.resid / blockSize = m :=
      Nat.le_antisymm (Nat.not_lt.mp hrounds) ((Nat.le_div_iff_mul_le hbs).mpr hbefore)
    rw [hsame] at hdiv ⊢
    apply wp_loop (fun i t => s.ReadTo (i * blockSize) t) hstart hround
    intro t ht
    have hrest : t.req.uio.resid = s.req.uio.resid % blockSize := by
      rw [ht.resid h hbefore]
      omega
    have hpos : 0 < s.req.uio.resid % blockSize := by
      by_cases hkm : k ≤ maxFileBlocks
      · have hmax : maxFileSize = k * blockSize + m * blockSize := by
          rw [maxFileSize, ← Nat.add_mul, hm, Nat.add_sub_cancel' hkm]
        omega
      · have h0 : m = 0 := by omega
        rw [h0, Nat.zero_mul] at hdiv
        omega
    rw [hrest, if_pos hpos, partialio_beyond (hlast t ht)]
    exact ⟨hmod, by omega, rfl⟩

private theorem maxFileSize_aligned : maxFileSize % blockSize = 0 := Nat.mul_mod_left ..

private theorem CanRead.ioBody_raises (h : s.CanRead) (hres : s.req.uio.resid ≠ 0 ∨ s.req.uio.offset % blockSize ≠ 0)
    (hend : maxFileSize < s.req.uio.offset + s.req.uio.resid) :
    wp ioBody (fun _ _ => False) (fun e _ => e = .einval) s := by
  have halign := maxFileSize_aligned
  simp only [ioBody, wp_bind, wp_state, wp_doIf]
  split
  case isTrue hblk =>
    have hmod := Nat.mod_lt s.req.uio.offset (show 0 < blockSize by decide)
    generalize hlen : min (blockSize - s.req.uio.offset % blockSize) s.req.uio.resid = len
    by_cases hoff : s.req.uio.offset < maxFileSize
    · have hfit : s.req.uio.offset + len ≤ maxFileSize := by
        simp only [maxFileSize, maxFileBlocks, nDirect, dbPerIdb, blockSize] at *
        omega
      apply wp_mono_post (h.wp_head hoff hlen)
      intro _ t ht
      have hres := ht.resid h (by omega)
      have hoff' := ht.offset
      have hcan := ht.canRead h (by omega)
      have halign : t.req.uio.offset % blockSize = 0 := by
        rw [hoff']
        exact head_aligned hlen (by omega)
      exact hcan.ioBlocks_raises halign (by omega) (by omega)
    · have hb : maxFileBlocks ≤ s.req.uio.offset / blockSize := by
        rw [Nat.le_div_iff_mul_le (by decide)]
        exact Nat.not_lt.mp hoff
      rw [partialio_beyond hb]
      exact ⟨by omega, rfl⟩
  case isFalse hblk => exact h.ioBlocks_raises (by omega) (by omega) hend

/-- The bytes of the request that the file has. -/
def readable (s : SfsSt) : Nat := min s.req.uio.resid (s.inode.size - s.req.uio.offset)

/-- What the caller of `sfs_read` is promised. -/
structure ReadsExactly (s t : SfsSt) : Prop where
  offset : t.req.uio.offset = s.req.uio.offset + s.readable
  resid : t.req.uio.resid = s.req.uio.resid - s.readable
  bytes : ∀ i < s.readable, t.req.mem (s.req.uio.iovBase + i) = s.content (s.req.uio.offset + i)
  outside : ∀ x, x < s.req.uio.iovBase ∨ s.req.uio.iovBase + s.readable ≤ x →
    t.req.mem x = s.req.mem x
  file : ∃ k, t = { s with req := t.req, ios := k }

/-- `sfs_read` returns 0 after it did what it promises. -/
def ReadClamps (s : SfsSt) : Prop := ∃ t, sfsRead s = some (.ok (), t) ∧ s.ReadsExactly t

private theorem readClamps_of_wp (h : wp sfsRead (fun _ t => s.ReadsExactly t) (fun _ _ => False) s) :
    s.ReadClamps := by
  obtain ⟨r, t, hrun, hout⟩ := wp_elim h
  cases r with
  | ok a => exact ⟨t, hrun, hout⟩
  | error e => exact hout.elim

private theorem CanRead.wp_sfsRead (h : s.CanRead) {Q : Unit → SfsSt → Prop} : wp sfsRead Q E s ↔
    if toOff s.inode.size ≤ s.req.uio.offset then Q () s
    else (0 < s.extraResid → s.extraResid < s.req.uio.resid) ∧
      wp ioBody
        (fun a t => Q a (t.mapUio (setResid fun resid => (resid + s.extraResid) % 2 ^ 32)))
        (fun e t => E e (t.mapUio (setResid fun resid => (resid + s.extraResid) % 2 ^ 32)))
        (s.mapUio (setResid (sub32 · s.extraResid))) := by
  simp only [sfsRead, sfsIo, wp_bind, wp_state, wp_check, wp_ite, h.rw, if_true, true_and, wp_pure,
    wp_update, wp_ensuring]

private theorem mapUio_setResid_id (h32 : s.req.uio.resid < 2 ^ 32) :
    s.mapUio (setResid (sub32 · 0)) = s := by
  have hres : sub32 s.req.uio.resid 0 = s.req.uio.resid := sub32_of_le h32 (Nat.zero_le _)
  show { s with req := { s.req with uio := { s.req.uio with resid := sub32 s.req.uio.resid 0 } } } = s
  rw [hres]

theorem size_lt (hsize : s.inode.size ≤ maxFileSize) : s.inode.size < 2 ^ 31 := by
  simp only [maxFileSize, maxFileBlocks, nDirect, dbPerIdb, blockSize] at hsize
  omega

theorem extraResid_overflow (hsize : s.inode.size < 2 ^ 31) (h32 : s.req.uio.resid < 2 ^ 32)
    (hoff : s.req.uio.offset < s.inode.size)
    (hend : 2 ^ 31 ≤ s.req.uio.offset + s.req.uio.resid) : s.extraResid = 0 := by
  have hle : toOff (s.req.uio.offset + s.req.uio.resid) ≤ s.inode.size := by
    simp only [toOff]
    split <;> omega
  rw [extraResid, toOff_of_lt hsize]
  omega

private theorem extraResid_eq (hsize : s.inode.size < 2 ^ 31)
    (hend : s.req.uio.offset + s.req.uio.resid < 2 ^ 31) :
    s.extraResid = s.req.uio.offset + s.req.uio.resid - s.inode.size := by
  rw [extraResid, toOff_of_lt hsize, toOff_of_lt hend]
  omega

private theorem CanRead.not_clamped (h : s.CanRead) (hsize : s.inode.size < 2 ^ 31)
    (hoff : s.req.uio.offset < s.inode.size)
    (hend : 2 ^ 31 ≤ s.req.uio.offset + s.req.uio.resid) :
    wp sfsRead (fun _ _ => False) (fun e _ => e = .einval) s := by
  have hno : ¬ toOff s.inode.size ≤ s.req.uio.offset := by
    rw [toOff_of_lt hsize]
    omega
  rw [h.wp_sfsRead, if_neg hno, extraResid_overflow hsize h.room.lt hoff hend,
    mapUio_setResid_id h.room.lt]
  refine ⟨fun h0 => absurd h0 (Nat.lt_irrefl 0), ?_⟩
  apply wp_mono (h.ioBody_raises (.inl (by omega)) ?_)
  · exact fun _ _ hf => hf
  · exact fun _ _ he => he
  · simp only [maxFileSize, maxFileBlocks, nDirect, dbPerIdb, blockSize] at *
    omega

theorem CanRead.stops (h : s.CanRead) (hend : toOff s.inode.size ≤ s.req.uio.offset) (h0 : s.readable = 0) :
    wp sfsRead (fun _ t => s.ReadsExactly t) (fun _ _ => False) s := by
  rw [h.wp_sfsRead, if_pos hend]
  refine ⟨by rw [h0]; rfl, by rw [h0]; rfl, fun i hi => ?_, fun _ _ => rfl, s.ios, rfl⟩
  omega

theorem CanRead.at_end (h : s.CanRead) (hsize : s.inode.size < 2 ^ 31)
    (hoff : s.inode.size ≤ s.req.uio.offset) :
    wp sfsRead (fun _ t => s.ReadsExactly t) (fun _ _ => False) s := by
  apply h.stops
  · rw [toOff_of_lt hsize]
    omega
  · rw [readable, Nat.sub_eq_zero_of_le hoff, Nat.min_zero]

/-- The request with another residue -/
def withResid (n : Nat) (s : SfsSt) : SfsSt := s.mapUio fun u => { u with resid := n }

private theorem mapUio_setResid (f : Nat → Nat) :
    s.mapUio (setResid f) = s.withResid (f s.req.uio.resid) := by
  cases s
  rfl

private theorem CanRead.withResid (h : s.CanRead) (hn : n ≤ s.req.uio.resid) : (s.withResid n).CanRead :=
  ⟨h.consistent.of_ref rfl rfl rfl fun _ hx => hx, h.errors,
    ⟨Nat.lt_of_le_of_lt hn h.room.lt, Nat.le_trans hn h.room.le⟩, h.noFaults, h.rw⟩

theorem ReadTo.readsExactly (h : (s.withResid s.readable).ReadTo s.readable t) :
    s.ReadsExactly (t.withResid (s.req.uio.resid - s.readable)) := by
  have hmem := h.moved.mem
  obtain ⟨k, hk⟩ := h.file
  refine ⟨h.offset, rfl, fun i hi => ?_, fun x hx => ?_, k, ?_⟩
  · show t.req.mem _ = _
    rw [hmem]
    refine (ByteStore.blit_of_inside hi).trans ?_
    rw [Nat.zero_add]
    rfl
  · show t.req.mem _ = _
    rw [hmem]
    exact ByteStore.blit_of_outside hx
  · rw [hk]
    rfl

/-- The bytes to be read are bytes that files can have. -/
def EndsInside (s : SfsSt) : Prop :=
  s.req.uio.offset + s.readable ≤ maxFileSize ∨ s.req.uio.resid = 0 ∧ s.req.uio.offset % blockSize = 0

theorem endsInside_of_size (hsize : s.inode.size ≤ maxFileSize) (hoff : s.req.uio.offset < s.inode.size) :
    s.EndsInside := by
  have hmax : s.readable ≤ s.inode.size - s.req.uio.offset := Nat.min_le_right ..
  exact .inl (by omega)

theorem CanRead.wp_clamped (h : s.CanRead) {Q : Unit → SfsSt → Prop} (hsize : s.inode.size < 2 ^ 31)
    (hoff : s.req.uio.offset < s.inode.size) (hend : s.req.uio.offset + s.req.uio.resid < 2 ^ 31) :
    wp sfsRead Q E s ↔ wp ioBody
      (fun a t => Q a (t.mapUio (setResid fun resid => (resid + s.extraResid) % 2 ^ 32)))
      (fun e t => E e (t.mapUio (setResid fun resid => (resid + s.extraResid) % 2 ^ 32)))
      (s.withResid s.readable) := by
  have hno : ¬ toOff s.inode.size ≤ s.req.uio.offset := by
    rw [toOff_of_lt hsize]
    omega
  have hextra := extraResid_eq hsize hend
  have hn : s.req.uio.resid - s.extraResid = s.readable := by
    rw [readable]
    omega
  have hcheck : 0 < s.extraResid → s.extraResid < s.req.uio.resid := fun _ => by omega
  have hsub := sub32_of_le h.room.lt (show s.extraResid ≤ s.req.uio.resid by omega)
  rw [h.wp_sfsRead, if_neg hno, and_iff_right hcheck, mapUio_setResid (sub32 · s.extraResid), hsub, hn]

theorem CanRead.clamped (h : s.CanRead) (hsize : s.inode.size < 2 ^ 31) (hoff : s.req.uio.offset < s.inode.size)
    (hend : s.req.uio.offset + s.req.uio.resid < 2 ^ 31) (hin : s.EndsInside) :
    wp sfsRead (fun _ t => s.ReadsExactly t) (fun _ _ => False) s := by
  have hle : s.readable ≤ s.req.uio.resid := Nat.min_le_left ..
  have hcan := h.withResid hle
  have hbody : wp ioBody (fun _ t => (s.withResid s.readable).ReadTo s.readable t) (fun _ _ => False)
      (s.withResid s.readable) := by
    cases hin with
    | inl hin => exact hcan.wp_ioBody hin
    | inr hnone =>
      have h0 : s.readable = 0 := by
        rw [readable, hnone.1, Nat.zero_min]
      have hstart := hcan.start
      have halign : ¬ (s.withResid s.readable).req.uio.offset % blockSize ≠ 0 := not_not.mpr hnone.2
      have hres : (s.withResid s.readable).req.uio.resid = 0 := h0
      simp only [ioBody, ioBlocks, wp_bind, wp_state, wp_doIf, wp_ite, wp_pure, if_neg halign, if_pos hres]
      rw [h0] at hstart ⊢
      exact hstart
  have hextra := extraResid_eq hsize hend
  have hn : s.readable + s.extraResid = s.req.uio.resid := by
    rw [readable]
    omega
  have hlt := h.room.lt
  rw [h.wp_clamped hsize hoff hend]
  apply wp_mono hbody
  · intro _ t ht
    have hres : t.req.uio.resid = s.readable - s.readable := ht.resid hcan (Nat.le_refl _)
    have hback : (t.req.uio.resid + s.extraResid) % 2 ^ 32 = s.req.uio.resid - s.readable := by
      rw [hres]
      omega
    rw [mapUio_setResid fun resid => (resid + s.extraResid) % 2 ^ 32, hback]
    exact ReadTo.readsExactly ht
  · exact fun _ _ hf => hf

private theorem CanRead.not_inside (h : s.CanRead) (hsize : s.inode.size < 2 ^ 31) (hoff : s.req.uio.offset < s.inode.size)
    (hend : s.req.uio.offset + s.req.uio.resid < 2 ^ 31) (hout : ¬ s.EndsInside) :
    wp sfsRead (fun _ _ => False) (fun e _ => e = .einval) s := by
  have hle : s.readable ≤ s.req.uio.resid := Nat.min_le_left ..
  have hout' := not_or.mp hout
  rw [h.wp_clamped hsize hoff hend]
  have hnone : s.readable ≠ 0 ∨ s.req.uio.offset % blockSize ≠ 0 := by
    by_contra hno
    rw [not_or, not_not, not_not] at hno
    have h0 : s.req.uio.resid = 0 := by
      have hr := hno.1
      rw [readable] at hr
      omega
    exact hout'.2 ⟨h0, hno.2⟩
  apply wp_mono ((h.withResid hle).ioBody_raises hnone (Nat.not_le.mp hout'.1))
  · exact fun _ _ hf => hf
  · exact fun _ _ he => he

private theorem not_readClamps_of_wp (h : wp sfsRead (fun _ _ => False) (fun e _ => e = .einval) s) : ¬ s.ReadClamps := by
  rintro ⟨t, hrun, _⟩
  obtain ⟨r, t', hrun', hout⟩ := wp_elim h
  rw [hrun] at hrun'
  cases hrun'
  exact hout

theorem CanRead.far_end (h : s.CanRead) (hoff : s.req.uio.offset < 2 ^ 31) (hsize : 2 ^ 31 ≤ s.inode.size)
    (h32 : s.inode.size < 2 ^ 32) : s.ReadClamps ↔ s.req.uio.resid = 0 := by
  have hneg : toOff s.inode.size ≤ s.req.uio.offset := by
    simp only [toOff]
    split <;> omega
  constructor
  · rintro ⟨t, hrun, ht⟩
    have hstop : wp sfsRead (fun _ t => t = s) (fun _ _ => False) s := by
      rw [h.wp_sfsRead, if_pos hneg]
    obtain ⟨r, t', hrun', hout⟩ := wp_elim hstop
    rw [hrun] at hrun'
    cases hrun'
    have hsame : t = s := hout
    have hoffset := ht.offset
    rw [hsame, readable] at hoffset
    omega
  · intro h0
    apply readClamps_of_wp (h.stops hneg _)
    rw [readable, h0, Nat.zero_min]

private theorem CanRead.clamps_iff (h : s.CanRead) (hoff : s.req.uio.offset < 2 ^ 31) (h32 : s.inode.size < 2 ^ 32) :
    s.ReadClamps ↔ s.inode.size ≤ s.req.uio.offset ∨ 2 ^ 31 ≤ s.inode.size ∧ s.req.uio.resid = 0 ∨
      s.inode.size < 2 ^ 31 ∧ s.req.uio.offset + s.req.uio.resid < 2 ^ 31 ∧ s.EndsInside := by
  by_cases hfar : 2 ^ 31 ≤ s.inode.size
  · rw [h.far_end hoff hfar h32]
    omega
  · have hsize := Nat.not_le.mp hfar
    by_cases hend : s.inode.size ≤ s.req.uio.offset
    · exact iff_of_true (readClamps_of_wp (h.at_end hsize hend)) (.inl hend)
    · have hlt := Nat.not_le.mp hend
      rw [or_iff_right hend, or_iff_right fun hno => hfar hno.1, and_iff_right hsize]
      by_cases hover : s.req.uio.offset + s.req.uio.resid < 2 ^ 31
      · rw [and_iff_right hover]
        by_cases hin : s.EndsInside
        · exact iff_of_true (readClamps_of_wp (h.clamped hsize hlt hover hin)) hin
        · exact iff_of_false (not_readClamps_of_wp (h.not_inside hsize hlt hover hin)) hin
      · apply iff_of_false
        · exact not_readClamps_of_wp (h.not_clamped hsize hlt (Nat.not_lt.mp hover))
        · exact fun hno => hover hno.1

/-- A read from a consistent file is cut off exactly at its end if and only if it starts there or later, or
its own end and the file's are `off_t`s and it is of bytes that files can have, or nothing is asked for. -/
theorem read_clamps_iff (s : SfsSt) (h : s.CanRead) (hoff : s.req.uio.offset < 2 ^ 31)
    (h32 : s.inode.size < 2 ^ 32) :
    s.ReadClamps ↔ s.inode.size ≤ s.req.uio.offset ∨ 2 ^ 31 ≤ s.inode.size ∧ s.req.uio.resid = 0 ∨
      s.inode.size < 2 ^ 31 ∧ s.req.uio.offset + s.req.uio.resid < 2 ^ 31 ∧ s.EndsInside :=
  h.clamps_iff hoff h32

/-- A file of 100 bytes without any block, and a read of `resid` bytes from its start. -/
def sparseFile (resid : Nat) : SfsSt :=
  { req := ⟨mkKuio 0 resid 0 .read, zeros, fun _ => none, 0⟩
    disk := fun _ => zeros
    ioErrors := fun _ => none
    ios := 0
    nblocks := 8
    nbits := 8
    freemap := fun _ => true
    freemapDirty := false
    inode := ⟨100, fun _ => 0, 0⟩
    dirty := false }

private theorem sparseFile_ref (r : Option Nat) : (sparseFile m).ref r = 0 := by
  cases r with
  | none => rfl
  | some b => simp [ref, fileBlock, entry, sparseFile]

private theorem sparseFile_canRead (h : m < 2 ^ 32) : (sparseFile m).CanRead where
  consistent :=
    { small := by show 8 ≤ maxBlocks; decide
      bits := Nat.le_refl _
      tail := fun _ _ _ => rfl
      superblock := rfl
      used := fun r hr => absurd (sparseFile_ref r) hr
      distinct := fun r _ _ hr => absurd (sparseFile_ref r) hr }
  errors := fun _ => rfl
  room := ⟨h, Nat.le_refl _⟩
  noFaults := fun _ => rfl
  rw := rfl

theorem read_clamps_sparse : (sparseFile 200).ReadClamps :=
  (read_clamps_iff (sparseFile 200) (sparseFile_canRead (by decide)) (by decide) (by decide)).mpr
    (.inr (.inr ⟨by decide, by decide, .inl (by decide)⟩))

/-- A read of 2^31 bytes is not cut off, and fails. -/
theorem read_not_clamped : ¬ ∀ s : SfsSt, s.CanRead → s.inode.size < 2 ^ 32 →
    s.req.uio.offset < 2 ^ 31 → s.ReadClamps := by
  intro hall
  have hcan := sparseFile_canRead (m := 2 ^ 31) (by decide)
  have hoff : (sparseFile (2 ^ 31)).req.uio.offset < 2 ^ 31 := by decide
  have h32 : (sparseFile (2 ^ 31)).inode.size < 2 ^ 32 := by decide
  rcases (hcan.clamps_iff hoff h32).mp (hall _ hcan h32 hoff) with hno | hno | hno
  · revert hno
    decide
  · revert hno
    decide
  · have hend := hno.2.1
    revert hend
    decide

end SfsSt

end CseOs.Kernel.Sfs
