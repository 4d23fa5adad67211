import CseOs.Framework.Outcomes
import CseOs.Kernel.Sfs.Sharing

/-!
# What an operation on a file leaves behind, however it ends

On a disk that works an operation on a file takes free blocks into the file and gives up blocks of the
file, also when it fails on the way. The blocks in use that are not the file's are the same before and
after it. What it changes in memory it marks as dirty.
-/

namespace CseOs.Kernel.Sfs

open Framework Prog

namespace SfsSt

variable {s t u : SfsSt} {c : Chunk} {b blocklen d i j len m n x : Nat} {r : Option Nat}

/-- No request to the block layer fails. -/
def Working (s : SfsSt) : Prop := ∀ i, s.ioErrors i = none

/-- The volume is the same, and what was changed of the inode or the free map is marked as dirty. -/
structure Steady (s t : SfsSt) : Prop where
  nblocks : t.nblocks = s.nblocks
  nbits : t.nbits = s.nbits
  errors : t.ioErrors = s.ioErrors
  beyond : ∀ b, s.nbits ≤ b → t.freemap b = s.freemap b
  tail : ∀ i, nDirect ≤ i → t.inode.direct i = s.inode.direct i
  inode : t.dirty = false → s.dirty = false ∧ t.inode = s.inode
  map : t.freemapDirty = false → s.freemapDirty = false ∧ t.freemap = s.freemap

namespace Steady

private theorem refl (s : SfsSt) : s.Steady s :=
  ⟨rfl, rfl, rfl, fun _ _ => rfl, fun _ _ => rfl, fun h => ⟨h, rfl⟩, fun h => ⟨h, rfl⟩⟩

theorem trans (s t u : SfsSt) (h : s.Steady t) (h' : t.Steady u) : s.Steady u where
  nblocks := h'.nblocks.trans h.nblocks
  nbits := h'.nbits.trans h.nbits
  errors := h'.errors.trans h.errors
  beyond b hb := (h'.beyond b (h.nbits.symm ▸ hb)).trans (h.beyond b hb)
  tail i hi := (h'.tail i hi).trans (h.tail i hi)
  inode hu := by
    have ht := h'.inode hu
    have hs := h.inode ht.1
    exact ⟨hs.1, ht.2.trans hs.2⟩
  map hu := by
    have ht := h'.map hu
    have hs := h.map ht.1
    exact ⟨hs.1, ht.2.trans hs.2⟩

/-- What concerns neither the inode nor the free map. -/
theorem of_eq (hn : t.nblocks = s.nblocks) (hb : t.nbits = s.nbits) (he : t.ioErrors = s.ioErrors)
    (hmap : t.freemap = s.freemap) (hi : t.inode = s.inode) (hfd : t.freemapDirty = s.freemapDirty)
    (hd : t.dirty = s.dirty) : s.Steady t :=
  ⟨hn, hb, he, fun _ _ => by rw [hmap], fun _ _ => by rw [hi], fun h => ⟨hd ▸ h, hi⟩,
    fun h => ⟨hfd ▸ h, hmap⟩⟩

private theorem countIo : s.Steady s.countIo := of_eq rfl rfl rfl rfl rfl rfl rfl

private theorem setBlock {data : ByteStore} : s.Steady (s.setBlock d data) :=
  of_eq rfl rfl rfl rfl rfl rfl rfl

theorem setReq {w : Transfer} : s.Steady (s.setReq w) := of_eq rfl rfl rfl rfl rfl rfl rfl

private theorem mapUio {f : Uio → Uio} : s.Steady (s.mapUio f) := of_eq rfl rfl rfl rfl rfl rfl rfl

private theorem mark {used : Bool} (hd : d < s.nbits) : s.Steady (s.mark d used) where
  nblocks := rfl
  nbits := rfl
  errors := rfl
  beyond b hb := Function.update_of_ne (by omega) ..
  tail _ _ := rfl
  inode h := ⟨h, rfl⟩
  map h := by cases h

private theorem setDirect (hi : i < nDirect) : s.Steady (s.setDirect i d) where
  nblocks := rfl
  nbits := rfl
  errors := rfl
  beyond _ _ := rfl
  tail k hk := Function.update_of_ne (by omega) ..
  inode h := by cases h
  map h := ⟨h, rfl⟩

private theorem setIndirect : s.Steady (s.setIndirect d) where
  nblocks := rfl
  nbits := rfl
  errors := rfl
  beyond _ _ := rfl
  tail _ _ := rfl
  inode h := by cases h
  map h := ⟨h, rfl⟩

private theorem setSize : s.Steady (s.setSize n) where
  nblocks := rfl
  nbits := rfl
  errors := rfl
  beyond _ _ := rfl
  tail _ _ := rfl
  inode h := by cases h
  map h := ⟨h, rfl⟩

private theorem adjustSize : s.Steady s.adjustSize := by
  unfold SfsSt.adjustSize
  split
  · exact setSize
  · exact refl s

end Steady

variable {α β : Type}

/-- The program changes nothing that it does not mark as dirty. -/
def Marks (p : Prog SfsSt Errno α) : Prop := Along Steady p

private theorem Marks.bind {p : Prog SfsSt Errno α} {f : α → Prog SfsSt Errno β} (hp : Marks p)
    (hf : ∀ a, Marks (f a)) : Marks (p >>= f) :=
  Along.bind Steady.trans hp hf

private theorem marks_pure (a : α) : Marks (pure a : Prog SfsSt Errno α) := along_pure Steady.refl a

private theorem marks_state : Marks (state : Prog SfsSt Errno SfsSt) := along_state Steady.refl

private theorem marks_request {p : Prog Transfer Errno α} : Marks (zoom req setReq p) := by
  have hany : Along (fun _ _ => True) p := by
    intro w
    unfold wlpe
    split <;> trivial
  exact along_zoom hany fun _ _ _ => Steady.setReq

private theorem marks_blockRequest : Marks blockRequest := by
  intro s
  simp only [blockRequest, wlpe_bind, wlpe_state, wlpe_update]
  cases s.ioErrors s.ios with
  | some e => exact Steady.countIo
  | none => exact Steady.countIo

private theorem marks_rblock (block : Nat) : Marks (rblock block) :=
  marks_blockRequest.bind fun _ => marks_state.bind fun _ => marks_pure _

private theorem marks_wblock (data : ByteStore) (block : Nat) : Marks (wblock data block) :=
  marks_blockRequest.bind fun _ => along_update fun _ => Steady.setBlock

private theorem marks_rwblock : Marks rwblock := by
  apply marks_state.bind
  intro s
  cases s.req.uio.rw with
  | read => exact (marks_rblock _).bind fun _ => marks_request.bind fun _ => marks_pure _
  | write => exact marks_request.bind fun _ => marks_wblock _ _

private theorem marks_balloc : Marks balloc := by
  intro s
  simp only [balloc, wlpe_bind, wlpe_state]
  cases hf : s.firstFree with
  | none => exact Steady.refl s
  | some d =>
    have hmark : s.Steady (s.mark d true) := Steady.mark (firstFree_spec hf).1
    simp only [wlpe_bind, wlpe_update, wlpe_ite, wlpe_diverge, wlpe_pure]
    split
    case isTrue => trivial
    case isFalse =>
      apply wlpe_mono (marks_wblock zeros d (s.mark d true))
      · exact fun _ t ht => hmark.trans _ _ _ ht
      · exact fun _ t ht => hmark.trans _ _ _ ht

private theorem marks_bfree (block : Nat) : Marks (bfree block) := by
  intro s
  simp only [bfree, wlpe_bind, wlpe_state, wlpe_ite, wlpe_update, wlpe_diverge]
  split
  case isTrue h => exact Steady.mark h.1
  case isFalse => trivial

private theorem marks_allocMissing (block : Nat) (doalloc : Bool) {remember : Nat → Prog SfsSt Errno Unit}
    (h : ∀ d, Marks (remember d)) : Marks (allocMissing block doalloc remember) :=
  along_ite _ (marks_balloc.bind fun d => (h d).bind fun _ => marks_pure d) (marks_pure block)

private theorem marks_checkUsed (block : Nat) : Marks (checkUsed block) :=
  marks_state.bind fun _ => along_ite _ (marks_pure ()) along_diverge

private theorem marks_loadIndirect : Marks loadIndirect := by
  apply marks_state.bind
  intro s
  apply along_ite
  · exact marks_balloc.bind fun d => (along_update fun _ => Steady.setIndirect).bind Steady.trans
      fun _ => marks_pure _
  · exact (marks_rblock _).bind fun _ => marks_pure _

private theorem marks_bmap (fileblock : Nat) (doalloc : Bool) : Marks (bmap fileblock doalloc) := by
  unfold bmap
  split
  case isTrue hb =>
    apply marks_state.bind
    intro s
    apply Marks.bind
    · exact marks_allocMissing _ _ fun d => along_update fun _ => Steady.setDirect hb
    · exact fun d => (marks_checkUsed d).bind fun _ => marks_pure d
  case isFalse =>
    apply Marks.bind (along_raiseIf Steady.refl _ _)
    intro _
    apply marks_state.bind
    intro s
    apply along_ite
    · exact marks_pure 0
    · apply marks_loadIndirect.bind
      intro loaded
      apply Marks.bind
      · exact marks_allocMissing _ _ fun d => marks_wblock _ _
      · exact fun d => (marks_checkUsed d).bind fun _ => marks_pure d

private theorem marks_partialio (skip len : Nat) : Marks (partialio skip len) := by
  apply Marks.bind
  · apply marks_state.bind
    intro s
    apply Marks.bind (along_check Steady.refl _)
    intro _
    apply (marks_bmap _ _).bind
    intro d
    apply Marks.bind
    · exact marks_state.bind fun _ => along_ite _
        (Marks.bind (along_check Steady.refl _) fun _ => marks_pure _) (marks_rblock d)
    · exact fun _ => marks_request.bind fun _ => marks_pure _
  · exact fun _ => marks_state.bind fun _ => along_doIf Steady.refl _ (marks_wblock _ _)

private theorem marks_blockio : Marks blockio := by
  apply marks_state.bind
  intro s
  apply (marks_bmap _ _).bind
  intro d
  apply along_ite
  · exact Marks.bind (along_check Steady.refl _) fun _ => marks_request
  · apply Marks.bind (along_check Steady.refl _)
    intro _
    apply Marks.bind (along_update fun _ => Steady.mapUio)
    exact fun _ => along_ensuring Steady.trans marks_rwblock fun _ => Steady.mapUio

private theorem marks_ioBody : Marks ioBody := by
  apply marks_state.bind
  intro s
  apply Marks.bind (along_doIf Steady.refl _ (marks_partialio _ _))
  intro _
  apply marks_state.bind
  intro s
  apply along_ite
  · exact marks_pure ()
  · apply Marks.bind (along_check Steady.refl _)
    intro _
    apply Marks.bind (along_loop Steady.refl Steady.trans fun _ _ => marks_blockio)
    intro _
    apply marks_state.bind
    intro s
    apply Marks.bind (along_check Steady.refl _)
    exact fun _ => along_doIf Steady.refl _ (marks_partialio _ _)

theorem marks_sfsIo : Marks sfsIo := by
  apply marks_state.bind
  intro s
  apply along_ite
  · apply along_ite
    · exact marks_pure ()
    · apply Marks.bind (along_check Steady.refl _)
      intro _
      apply Marks.bind (along_update fun _ => Steady.mapUio)
      exact fun _ => along_ensuring Steady.trans marks_ioBody fun _ => Steady.mapUio
  · exact along_ensuring Steady.trans marks_ioBody fun _ => Steady.adjustSize

private theorem marks_dropDirect (hi : i < nDirect) : Marks (dropDirect blocklen i) := by
  apply marks_state.bind
  intro s
  apply along_doIf Steady.refl
  exact (marks_bfree _).bind fun _ => along_update fun _ => Steady.setDirect hi

private theorem marks_scanEntries (n : Nat) (scan : IdScan) : Marks (scanEntries blocklen n scan) := by
  induction n with
  | zero => exact marks_pure scan
  | succ n ih =>
    apply ih.bind
    intro scan
    apply Marks.bind
    · exact along_ite _ ((marks_bfree _).bind fun _ => marks_pure _) (marks_pure scan)
    · exact fun _ => marks_pure _

private theorem marks_dropIndirect (blocklen idblock : Nat) : Marks (dropIndirect blocklen idblock) := by
  unfold dropIndirect
  generalize dbPerIdb = n
  refine (marks_rblock _).bind fun idbuf => ?_
  refine (marks_scanEntries _ _).bind fun scan => ?_
  apply along_ite
  · exact (marks_bfree _).bind fun _ => along_update fun _ => Steady.setIndirect
  · exact along_doIf Steady.refl _ (marks_wblock _ _)

private theorem marks_sfsTruncate (len : Nat) : Marks (sfsTruncate len) := by
  have hdirects : Marks (loop nDirect (dropDirect ((len + blockSize - 1) / blockSize))) :=
    along_loop Steady.refl Steady.trans fun i hi => marks_dropDirect hi
  refine hdirects.bind fun _ => marks_state.bind fun s => ?_
  refine Marks.bind (along_doIf Steady.refl _ (marks_dropIndirect _ _)) fun _ => ?_
  exact along_update fun _ => Steady.setSize

/-- Blocks in use that the file does not refer to were such blocks before. -/
def Frugal (s t : SfsSt) : Prop := ∀ x, t.Foreign x → s.Foreign x

/-- The blocks in use that are not the file's are the same, and keep their contents. So does the
superblock, whose number stands for no block in a file. -/
structure Fair (s t : SfsSt) : Prop where
  spares : s.Spares t
  frugal : s.Frugal t
  super : t.disk 0 = s.disk 0

private theorem Fair.refl (s : SfsSt) : s.Fair s := ⟨.refl s, fun _ hx => hx, rfl⟩

theorem Fair.trans (h : s.Fair t) (h' : t.Fair u) : s.Fair u :=
  ⟨h.spares.trans h'.spares, fun x hx => h.frugal x (h'.frugal x hx), h'.super.trans h.super⟩

/-- What a step does that only takes notice of the disk, or changes blocks of the file. -/
theorem fair_of_ref (hdisk : ∀ x, s.Foreign x ∨ x = 0 → t.disk x = s.disk x) (hn : t.nblocks = s.nblocks)
    (hfree : t.freemap = s.freemap) (href : t.ref = s.ref) : s.Fair t := by
  refine ⟨?_, ?_, hdisk 0 (.inr rfl)⟩
  · intro x hx
    exact ⟨⟨hx.ne_zero, hn ▸ hx.lt, by rw [hfree, hx.marked], by rw [href]; exact hx.unused⟩, hdisk x (.inl hx)⟩
  · intro x hx
    exact ⟨hx.ne_zero, hn ▸ hx.lt, by rw [← hfree, hx.marked], by rw [← href]; exact hx.unused⟩

private theorem fair_countIo : s.Fair s.countIo := fair_of_ref (fun _ _ => rfl) rfl rfl rfl

theorem fair_setReq {w : Transfer} : s.Fair (s.setReq w) := fair_of_ref (fun _ _ => rfl) rfl rfl rfl

/-- A block that was allocated and is not yet in the file -/
structure Extra (s : SfsSt) (d : Nat) (t : SfsSt) : Prop where
  spares : s.Spares t
  frugal : ∀ x ≠ d, t.Foreign x → s.Foreign x
  free : s.freemap d = false
  allocated : s.Allocated d t
  super : t.disk 0 = s.disk 0

theorem Extra.fair (h : s.Extra d t) (hspares : SparesBut d t u) (hn : u.nblocks = t.nblocks)
    (hfree : u.freemap = t.freemap) (href : u.ref = Function.update t.ref r d) (h0 : t.ref r = 0)
    (hsuper : u.disk 0 = t.disk 0) : s.Fair u := by
  refine ⟨h.spares.trans_but hspares (not_foreign h.free), fun x hx => ?_, hsuper.trans h.super⟩
  have hne : x ≠ d := by
    intro he
    apply hx.unused r
    rw [href, Function.update_self, he]
  apply h.frugal x hne
  refine ⟨hx.ne_zero, hn ▸ hx.lt, by rw [← hfree, hx.marked], fun r' hr' => ?_⟩
  by_cases hr : r' = r
  · rw [hr, h0] at hr'
    exact hx.ne_zero hr'.symm
  · apply hx.unused r'
    rw [href, Function.update_of_ne hr, hr']

private theorem wlpe_wblock (hok : s.Working) {data : ByteStore} {Q : Unit → SfsSt → Prop}
    {E : Errno → SfsSt → Prop} : wlpe (wblock data d) Q E s ↔ Q () (s.countIo.setBlock d data) := by
  simp only [wblock, blockRequest, wlpe_bind, wlpe_state, wlpe_update, hok s.ios, wlpe_pure]

private theorem wlpe_rblock (hok : s.Working) {Q : ByteStore → SfsSt → Prop} {E : Errno → SfsSt → Prop} :
    wlpe (rblock d) Q E s ↔ Q (s.disk d) s.countIo := by
  simp only [rblock, blockRequest, wlpe_bind, wlpe_state, wlpe_update, hok s.ios, wlpe_pure]
  rfl

private theorem Consistent.wlpe_balloc (h : s.Consistent) (hok : s.Working) :
    wlpe balloc (fun d t => s.Extra d t) (fun _ t => t = s) s := by
  have hblock : wlpe balloc (fun d t => t = (s.mark d true).countIo.setBlock d zeros)
      (fun _ t => t = s) s := by
    simp only [balloc, wlpe_bind, wlpe_state]
    cases s.firstFree with
    | none => rfl
    | some d =>
      have hok' : (s.mark d true).Working := hok
      simp only [wlpe_bind, wlpe_update, wlpe_ite, wlpe_diverge, wlpe_wblock hok', wlpe_pure]
      split <;> trivial
  apply wlpe_mono (wlpe_and hblock (wlpe_of_wlp h.wlp_balloc))
  · intro d t ht
    obtain ⟨ht, hspares, hfree, halloc⟩ := ht
    refine ⟨hspares, fun x hne hx => ?_, hfree, halloc, halloc.disk 0 halloc.fresh.ne_zero.symm⟩
    have hid : t.disk s.inode.indirect = s.disk s.inode.indirect := by
      apply halloc.disk
      intro he
      have hunused := halloc.fresh.unused none
      rw [ref_none, halloc.inode] at hunused
      exact hunused he
    have href : t.ref = s.ref := ref_congr halloc.inode fun _ => hid
    have hmarked : s.freemap x = true := by
      have hm := hx.marked
      rw [ht] at hm
      rwa [← Function.update_of_ne hne true s.freemap]
    have hlt := hx.lt
    rw [ht] at hlt
    exact ⟨hx.ne_zero, hlt, hmarked, by rw [← href]; exact hx.unused⟩
  · exact fun _ _ ht => ht.1

private theorem wlpe_checkUsed {E : Errno → SfsSt → Prop} : wlpe (checkUsed b) (fun _ t => t = s) E s := by
  simp only [checkUsed, wlpe_bind, wlpe_state, wlpe_ite, wlpe_pure, wlpe_diverge, ite_self]

theorem Consistent.wlpe_allocMissing (h : s.Consistent) (hok : s.Working)
    {remember : Nat → Prog SfsSt Errno Unit} {doalloc : Bool}
    (hremember : ∀ d t, s.Extra d t → s.ref r = 0 →
      wlpe (remember d) (fun _ u => s.Fair u) (fun _ u => s.Fair u) t) :
    wlpe (allocMissing (s.ref r) doalloc remember) (fun _ t => s.Fair t) (fun _ t => s.Fair t) s := by
  unfold allocMissing
  rw [wlpe_ite]
  split
  case isTrue h0 =>
    simp only [wlpe_bind, wlpe_pure]
    apply wlpe_mono (h.wlpe_balloc hok)
    · exact fun d t ht => hremember d t ht h0.1
    · exact fun _ t ht => ht ▸ .refl s
  case isFalse => exact (wlpe_pure _).mpr (.refl s)

private theorem Consistent.wlpe_bmapDirect (h : s.Consistent) (hok : s.Working) (hb : b < nDirect)
    {doalloc : Bool} :
    wlpe (bmapDirect b doalloc) (fun _ t => s.Fair t) (fun _ t => s.Fair t) s := by
  have halloc := @Consistent.wlpe_allocMissing s (some b) h hok (fun d => update (setDirect b d)) doalloc ?_
  · simp only [bmapDirect, wlpe_bind, wlpe_state, wlpe_pure, ← ref_direct hb]
    apply wlpe_mono_post halloc
    intro d t ht
    apply wlpe_mono_post wlpe_checkUsed
    exact fun _ u hu => hu ▸ ht
  · intro d t hextra h0
    have halloc := hextra.allocated
    have h0' : t.ref (some b) = 0 := by rw [ref_direct hb, halloc.inode, ← ref_direct hb, h0]
    have hlink := halloc.kept.consistent.link_direct halloc.fresh hb (by rwa [← ref_direct hb])
    have hspares : SparesBut d t (t.setDirect b d) := sparesBut_of_ref (fun _ _ => rfl) rfl rfl hlink.ref
    exact (wlpe_update _).mpr (hextra.fair hspares rfl rfl hlink.ref h0' rfl)

private theorem Consistent.wlpe_loadIndirect (h : s.Consistent) (hok : s.Working) :
    wlpe loadIndirect (fun _ t => s.Fair t) (fun _ t => s.Fair t) s := by
  simp only [loadIndirect, wlpe_bind, wlpe_state, wlpe_ite, wlpe_update, wlpe_pure]
  split
  case isTrue h0 =>
    apply wlpe_mono (h.wlpe_balloc hok)
    · intro d t hextra
      have halloc := hextra.allocated
      rw [← halloc.inode] at h0
      have hlink := halloc.kept.consistent.link_indirect halloc.fresh h0
      have hspares : SparesBut d t (t.setIndirect d) := sparesBut_of_ref (fun _ _ => rfl) rfl rfl hlink.ref
      exact hextra.fair hspares rfl rfl hlink.ref h0 rfl
    · exact fun _ t ht => ht ▸ .refl s
  case isFalse =>
    rw [wlpe_rblock hok]
    exact fair_countIo

private theorem Consistent.wlpe_bmapEntry (h : s.Consistent) (hok : s.Working) (hj : j < dbPerIdb)
    {doalloc : Bool} (hi : s.inode.indirect = i) (h0 : i ≠ 0) :
    wlpe (bmapEntry i (s.disk i) j doalloc) (fun _ t => s.Fair t) (fun _ t => s.Fair t) s := by
  have hentry : (s.disk i).word (4 * j) = s.ref (some (nDirect + j)) := by
    rw [ref_entry hj, entry, hi, if_neg h0]
  have halloc := @Consistent.wlpe_allocMissing s (some (nDirect + j)) h hok
    (fun d => wblock ((s.disk i).setWord (4 * j) d) i) doalloc ?_
  · simp only [bmapEntry, wlpe_bind, wlpe_pure, hentry]
    apply wlpe_mono_post halloc
    intro d t ht
    apply wlpe_mono_post wlpe_checkUsed
    exact fun _ u hu => hu ▸ ht
  · intro d t hextra hzero
    have halloc := hextra.allocated
    have hok' : t.Working := by
      intro k
      rw [halloc.kept.errors, hok k]
    have hi' : t.inode.indirect = i := by rw [halloc.inode, hi]
    have hdisk : t.disk i = s.disk i :=
      halloc.disk i fun he => halloc.fresh.unused none (hi'.trans he)
    have hempty : (t.countIo.disk i).word (4 * j) = 0 := by
      show (t.disk i).word (4 * j) = 0
      rw [hdisk, hentry, hzero]
    have hfresh : t.countIo.Fresh d :=
      ⟨halloc.fresh.ne_zero, halloc.fresh.lt, halloc.fresh.marked, halloc.fresh.unused, halloc.fresh.clear⟩
    have hlink := halloc.kept.consistent.kept_countIo.consistent.link_entry hfresh hj (i := i) hi' h0 hempty
    have hcount : t.countIo.disk i = s.disk i := hdisk
    rw [wlpe_wblock hok', ← hcount]
    have href : (t.countIo.setBlock i ((t.countIo.disk i).setWord (4 * j) d)).ref =
        Function.update t.ref (some (nDirect + j)) d := hlink.ref
    have hspares : SparesBut d t (t.countIo.setBlock i ((t.countIo.disk i).setWord (4 * j) d)) := by
      refine sparesBut_of_ref (fun x hx => ?_) rfl rfl href
      have hne : x ≠ i := fun he => hx none (hi'.trans he.symm)
      exact Function.update_of_ne hne ..
    have hzero' : t.ref (some (nDirect + j)) = 0 := by
      rw [ref_entry hj, entry, hi', if_neg h0]
      exact hempty
    exact hextra.fair hspares rfl rfl href hzero' (Function.update_of_ne h0.symm ..)

theorem Consistent.wlpe_bmap (h : s.Consistent) (hok : s.Working) {doalloc : Bool} :
    wlpe (bmap b doalloc) (fun _ t => s.Fair t) (fun _ t => s.Fair t) s := by
  obtain hb | ⟨j, hj, rfl⟩ | hb := fileblock_cases b
  · rw [bmap, if_pos hb]
    exact h.wlpe_bmapDirect hok hb
  · rw [bmap_indirect hj]
    by_cases hnone : s.inode.indirect = 0 ∧ doalloc = false
    · simp only [bmapIndirect, wlpe_bind, wlpe_state, if_pos hnone, wlpe_pure]
      exact .refl s
    · simp only [bmapIndirect, wlpe_bind, wlpe_state, if_neg hnone]
      apply wlpe_mono (wlpe_and (h.wlpe_loadIndirect hok) (wlpe_of_wp h.wp_loadIndirect))
      · intro p t ht
        obtain ⟨hfair, hkept, hi, h0, hdisk⟩ := ht
        have hok' : t.Working := by
          intro k
          rw [hkept.errors, hok k]
        have hentry := @Consistent.wlpe_bmapEntry t p.1 j hkept.consistent hok' hj doalloc hi h0
        rw [hdisk] at hentry
        exact wlpe_mono hentry (fun _ u hu => hfair.trans hu) fun _ u hu => hfair.trans hu
      · exact fun _ t ht => ht.1
  · apply wlpe_of_wp
    rw [wp_bmap_beyond hb]
    exact .refl s

private theorem wlpe_loadBuffer (hok : s.Working) :
    wlpe (loadBuffer d) (fun _ t => s.Fair t) (fun _ t => s.Fair t) s := by
  simp only [loadBuffer, wlpe_bind, wlpe_state, wlpe_ite, wlpe_check, wlpe_pure]
  split
  case isTrue => exact fun _ => .refl s
  case isFalse =>
    rw [wlpe_rblock hok]
    exact fair_countIo

theorem wlpe_request {p : Prog Transfer Errno α} :
    wlpe (zoom req setReq p) (fun _ t => s.Fair t) (fun _ t => s.Fair t) s := by
  rw [wlpe_zoom]
  unfold wlpe
  cases p s.req with
  | none => trivial
  | some q =>
    cases q with
    | mk q w => cases q <;> exact fair_setReq

private theorem Consistent.wlpe_take (h : s.Consistent) (hok : s.Working) :
    wlpe (take c) (fun _ t => s.Fair t) (fun _ t => s.Fair t) s := by
  have hworking {t : SfsSt} (ht : s.Steady t) : t.Working := by
    intro i
    rw [ht.errors, hok i]
  have hbmap {b : Nat} {doalloc : Bool} : wlpe (bmap b doalloc) (fun _ t => s.Fair t ∧ t.Working)
      (fun _ t => s.Fair t) s :=
    wlpe_mono (wlpe_and (h.wlpe_bmap hok) (marks_bmap b doalloc s))
      (fun _ t ht => ⟨ht.1, hworking ht.2⟩) fun _ t ht => ht.1
  cases c with
  | part skip len =>
    simp only [take, partialBuffer, wlpe_bind, wlpe_state, wlpe_check, wlpe_pure]
    intro _
    apply wlpe_mono_post hbmap
    intro d t ht
    apply wlpe_mono (wlpe_loadBuffer ht.2)
    · intro buf u hu
      apply wlpe_mono wlpe_request
      · exact fun _ v hv => (ht.1.trans hu).trans hv
      · exact fun _ v hv => (ht.1.trans hu).trans hv
    · exact fun _ u hu => ht.1.trans hu
  | whole =>
    simp only [take, wholeBuffer, wlpe_bind, wlpe_state, wlpe_pure]
    apply wlpe_mono_post hbmap
    intro d t ht
    apply wlpe_mono wlpe_request
    · exact fun _ u hu => ht.1.trans hu
    · exact fun _ u hu => ht.1.trans hu

theorem Consistent.fair_setBlock {buf : ByteStore} (h : s.Consistent) (hb : s.fileBlock b = d)
    (h0 : d ≠ 0) : s.Fair (s.countIo.setBlock d buf) := by
  have hid : s.inode.indirect ≠ d := by
    intro he
    have hsame := h.distinct none (some b) (he.trans hb.symm) (by rw [ref_none, he]; exact h0)
    cases hsame
  have href : (s.countIo.setBlock d buf).ref = s.ref :=
    ref_congr rfl fun _ => Function.update_of_ne hid ..
  refine fair_of_ref (fun x hx => ?_) rfl rfl href
  have hne : x ≠ d := by
    cases hx with
    | inl hx => exact fun he => hx.unused (some b) (hb.trans he.symm)
    | inr hx => exact fun he => h0 (he.symm.trans hx)
  exact Function.update_of_ne hne ..

theorem CanWrite.wlpe_chunkIo (h : s.CanWrite) (hok : s.Working) (hc : c.At s.req.uio) :
    wlpe (chunkIo c) (fun _ t => s.Fair t) (fun _ t => s.Fair t) s := by
  rw [wlpe_of_run_eq (h.chunkIo_eq hc), wlpe_bind]
  apply wlpe_mono (wlpe_and (h.consistent.wlpe_take hok) (wlpe_of_wp (h.wp_take hc)))
  · intro p t ht
    obtain ⟨hfair, htook⟩ := ht
    have hok' : t.Working := by
      intro i
      rw [htook.spilled.errors, hok i]
    rw [wlpe_wblock hok']
    exact hfair.trans (htook.spilled.consistent.fair_setBlock htook.block htook.ne_zero)
  · exact fun _ t ht => ht.1

private theorem Stored.working (h : s.Stored n t) (hok : s.Working) : t.Working := by
  intro i
  rw [h.errors, hok i]

theorem CanWrite.steps_fair (h : s.CanWrite) (hok : s.Working)
    (hsteps : Relation.ReflTransGen Step s t) : s.Fair t := by
  induction hsteps with
  | refl => exact .refl s
  | @tail t u hsteps hstep ih =>
    obtain ⟨n, hcame⟩ := h.steps_came hsteps
    obtain ⟨c, hc, hrun⟩ := hstep
    have hcan := hcame.stored.canWrite h hcame.le
    have hchunk := hcan.wlpe_chunkIo (hcame.stored.working hok) (Chunk.next_at hc).1
    unfold wlpe at hchunk
    rw [hrun] at hchunk
    exact ih.trans hchunk

theorem CanWrite.steps_fit (h : s.CanWrite) (hoff : s.req.uio.offset ≤ maxFileSize)
    (hsteps : Relation.ReflTransGen Step s t) : t.req.uio.offset ≤ maxFileSize := by
  induction hsteps with
  | refl => exact hoff
  | @tail t u hsteps hstep ih =>
    obtain ⟨n, hcame⟩ := h.steps_came hsteps
    obtain ⟨c, hc, hrun⟩ := hstep
    have hcan := hcame.stored.canWrite h hcame.le
    have hat := (Chunk.next_at hc).1
    have hrun' := (hcan.chunkIo_eq hat).symm.trans hrun
    have hchunk : wlpe (take c >>= fun p => wblock p.1 p.2)
        (fun _ v => v.req.uio.offset = t.req.uio.offset + c.size ∧
          t.req.uio.offset / blockSize < maxFileBlocks) (fun _ _ => True) t := by
      rw [wlpe_bind]
      apply wlpe_mono (wlpe_of_wp (hcan.wp_take hat))
      · intro p v hv
        have hne := hv.block.trans_ne hv.ne_zero
        apply wlpe_mono (wlpe_of_wlp wlp_wblock)
        · intro _ w hw
          rw [hw]
          refine ⟨?_, lt_maxFileBlocks hne⟩
          show v.req.uio.offset = _
          rw [hv.spilled.uio, Uio.advance_offset]
        · exact fun _ _ hw => hw
      · exact fun _ _ _ => trivial
    unfold wlpe at hchunk
    rw [hrun'] at hchunk
    have hfits := hat.fits
    have hskip := hat.skip
    rw [hchunk.1]
    simp only [maxFileSize, blockSize] at *
    omega

/-- A write on a disk that works, whether it came to its end or not: the first `n` bytes of the request
are in the file, and the balance is even. -/
structure WroteTo (s : SfsSt) (n : Nat) (u : SfsSt) : Prop where
  stored : s.Stored n u
  le : n ≤ s.req.uio.resid
  fits : s.req.uio.offset ≤ maxFileSize → s.req.uio.offset + n ≤ maxFileSize
  fair : s.Fair u

private theorem Came.wroteTo (h : s.Came n t) (hs : s.CanWrite) (hok : s.Working) : s.WroteTo n t :=
  ⟨h.stored, h.le, fun hoff => h.offset ▸ hs.steps_fit hoff h.steps, hs.steps_fair hok h.steps⟩

/-- A write that fails stops before its first byte, or between two blocks. -/
def Breaks (s : SfsSt) (n : Nat) : Prop :=
  n = 0 ∨ n < s.req.uio.resid ∧ (s.req.uio.offset + n) % blockSize = 0

theorem next_ends {w : Uio} (hc : Chunk.next w = some c) :
    c.size = w.resid ∨ (w.offset + c.size) % blockSize = 0 := by
  unfold Chunk.next at hc
  split at hc
  · cases hc
  · split at hc
    · cases hc
      simp only [Chunk.size, blockSize] at *
      omega
    · split at hc
      · cases hc
        simp only [Chunk.size, blockSize] at *
        omega
      · cases hc
        exact .inl rfl

private theorem Came.breaks (h : s.Came n t) (hs : s.CanWrite) (hc : Chunk.next t.req.uio = some c) : s.Breaks n := by
  have hleft : n < s.req.uio.resid := by
    obtain ⟨hat, hpos⟩ := Chunk.next_at hc
    have hres := h.resid hs
    have hfit := hat.resid
    omega
  cases h.steps.cases_tail with
  | inl heq =>
    have hoff := h.offset
    rw [heq] at hoff
    exact .inl (by omega)
  | inr hlast =>
    obtain ⟨u, hsteps, c', hc', hrun⟩ := hlast
    obtain ⟨m, hcame⟩ := hs.steps_came hsteps
    have hnext := hcame.wp_chunkIo hs hc'
    rw [wp_of_ok hrun] at hnext
    have hn : n = m + c'.size := by
      have hoff := h.offset
      have hoff' := hnext.offset
      omega
    cases next_ends hc' with
    | inl hrest =>
      have hres := hcame.resid hs
      omega
    | inr hblock =>
      rw [hcame.offset, Nat.add_assoc, ← hn] at hblock
      exact .inr ⟨hleft, hblock⟩

theorem CanWrite.failsIn (h : s.CanWrite) (hok : s.Working) :
    s.FailsIn fun _ u => ∃ n, s.Breaks n ∧ s.WroteTo n u := by
  intro n t c hcame hc
  have hcan := hcame.stored.canWrite h hcame.le
  have hok' := hcame.stored.working hok
  have hat := (Chunk.next_at hc).1
  have hends := wp_and (hcame.wp_chunkIo h hc) (hcan.wp_chunkIo hat)
  apply wp_mono (wp_and_wlpe hends (hcan.wlpe_chunkIo hok' hat))
  · exact fun _ u hu => hu.1.1
  · intro e u hu
    obtain ⟨⟨_, hend⟩, hfair⟩ := hu
    cases hend with
    | stopped _ _ hstored =>
      have hwrote := hcame.wroteTo h hok
      have hstored' := hcame.stored.trans hstored h hcame.le
      exact ⟨n, hcame.breaks h hc, hstored', hcame.le, hwrote.fits, hwrote.fair.trans hfair⟩
    | refused _ href _ =>
      obtain ⟨p, v, hrun, herror⟩ := href
      have htake := hcan.wp_take hat
      rw [wp_of_ok hrun] at htake
      rw [htake.spilled.errors] at herror
      exact absurd (hok' _) herror

/-- What a write on a disk that works has done, with `n` bytes of the request. -/
structure Written (s : SfsSt) (n : Nat) (t : SfsSt) : Prop where
  consistent : t.Consistent
  content : t.content = ByteStore.blit s.content s.req.uio.offset n s.req.mem s.req.uio.iovBase
  size : t.inode.size = max s.inode.size (s.req.uio.offset + n)
  uio : t.req.uio = s.req.uio.advance n
  mem : t.req.mem = s.req.mem
  le : n ≤ s.req.uio.resid
  fits : s.req.uio.offset + n ≤ maxFileSize
  fair : s.Fair t

private theorem WroteTo.written (h : s.WroteTo n u) (hsize : s.inode.size ≤ maxFileSize)
    (hoff : s.req.uio.offset ≤ maxFileSize) : s.Written n u.adjustSize := by
  have hstored := h.stored
  have hu : u.adjustSize.Consistent := by
    unfold SfsSt.adjustSize
    split
    · exact hstored.consistent.of_ref rfl rfl rfl fun _ hx => hx
    · exact hstored.consistent
  have hfair : u.Fair u.adjustSize := by
    unfold SfsSt.adjustSize
    split
    · exact fair_of_ref (fun _ _ => rfl) rfl rfl rfl
    · exact .refl u
  have hsize' := adjustSize_size (s := u) (hstored.size ▸ size_lt hsize)
  rw [hstored.size, hstored.uio, Uio.advance_offset] at hsize'
  refine ⟨hu, ?_, hsize', ?_, ?_, h.le, h.fits hoff, h.fair.trans hfair⟩
  · rw [adjustSize_content, hstored.content]
  · rw [adjustSize_req, hstored.uio]
  · rw [adjustSize_req, hstored.mem]

theorem CanWrite.wp_nothing (h : s.CanWrite) (hok : s.Working) (h0 : s.req.uio.resid = 0) :
    wp ioBody (fun _ t => s.WroteTo 0 t) (fun _ t => s.WroteTo 0 t) s := by
  simp only [ioBody, wp_bind, wp_state, wp_doIf]
  split
  case isTrue hblk =>
    have hmod := Nat.mod_lt s.req.uio.offset (show 0 < blockSize by decide)
    have hlen : min (blockSize - s.req.uio.offset % blockSize) s.req.uio.resid = 0 := by omega
    have hat : (Chunk.part (s.req.uio.offset % blockSize) 0).At s.req.uio :=
      ⟨rfl, Nat.le_of_lt hmod, Nat.zero_le _⟩
    rw [hlen]
    apply wp_mono (wp_and_wlpe (h.wp_chunkIo hat) (h.wlpe_chunkIo hok hat))
    · intro _ t ht
      have hstored := ht.1.empty rfl
      have hres : t.req.uio.resid = 0 := by
        rw [hstored.uio, Uio.advance_resid h.room.lt (Nat.zero_le _), h0]
      simp only [ioBlocks, wp_bind, wp_state, hres, if_true, wp_pure]
      exact ⟨hstored, Nat.zero_le _, id, ht.2⟩
    · exact fun _ t ht => ⟨ht.1.empty rfl, Nat.zero_le _, id, ht.2⟩
  case isFalse hblk =>
    simp only [ioBlocks, wp_bind, wp_state, h0, if_true, wp_pure]
    exact ⟨h.start, Nat.zero_le _, id, .refl s⟩

private theorem sfsIo_write (h : s.CanWrite) {Q : Unit → SfsSt → Prop} {E : Errno → SfsSt → Prop} :
    wp sfsIo Q E s ↔ wp ioBody (fun _ t => Q () t.adjustSize) (fun e t => E e t.adjustSize) s := by
  have hno : ¬ s.req.uio.rw = .read := by
    rw [h.rw]
    decide
  simp only [sfsIo, wp_bind, wp_state, if_neg hno, wp_ensuring]

/-- A write whose chunks fail in `E` alone -/
theorem CanWrite.wp_sfsIo_of (h : s.CanWrite) (hok : s.Working) (hsize : s.inode.size ≤ maxFileSize)
    (hoff : s.req.uio.offset ≤ maxFileSize) (h0 : s.req.uio.resid ≠ 0) {E : Errno → SfsSt → Prop}
    (hE : s.FailsIn E) : wp sfsIo (fun _ t => s.Written s.req.uio.resid t)
      (fun e t => ∃ u, E e u ∧ t = u.adjustSize) s := by
  rw [sfsIo_write h]
  apply wp_mono (h.wp_ioBody_of h0 hE)
  · intro _ u hu
    have hall := (hu.wrote h).stored
    obtain ⟨n, hcame, _⟩ := hu
    have hwrote := (hcame.wroteTo h hok).written hsize hoff
    have hn : s.req.uio.resid = n := by
      have hoff := hcame.offset
      rw [hall.uio, Uio.advance_offset] at hoff
      omega
    exact hn ▸ hwrote
  · exact fun _ u hu => ⟨u, hu, rfl⟩

/-- On a disk that works a write puts its bytes into the file, or some of the first of them. -/
theorem CanWrite.wp_sfsIo (h : s.CanWrite) (hok : s.Working) (hsize : s.inode.size ≤ maxFileSize)
    (hoff : s.req.uio.offset ≤ maxFileSize) :
    wp sfsIo (fun _ t => s.Written s.req.uio.resid t) (fun _ t => ∃ n, s.Breaks n ∧ s.Written n t) s := by
  by_cases h0 : s.req.uio.resid = 0
  · rw [sfsIo_write h]
    apply wp_mono (h.wp_nothing hok h0)
    · exact fun _ u hu => h0 ▸ hu.written hsize hoff
    · exact fun _ u hu => ⟨0, .inl rfl, hu.written hsize hoff⟩
  · apply wp_mono (h.wp_sfsIo_of hok hsize hoff h0 (h.failsIn hok))
    · exact fun _ _ ht => ht
    · intro _ t ht
      obtain ⟨u, ⟨n, hbreaks, hwrote⟩, rfl⟩ := ht
      exact ⟨n, hbreaks, hwrote.written hsize hoff⟩

private theorem wp_allocMissing_held {doalloc : Bool} {remember : Nat → Prog SfsSt Errno Unit} {Q : Nat → SfsSt → Prop}
    {E : Errno → SfsSt → Prop} (h0 : b ≠ 0) : wp (allocMissing b doalloc remember) Q E s ↔ Q b s := by
  simp [allocMissing, h0]

theorem Consistent.wp_bmap_held (h : s.Consistent) (hok : s.Working) (hb : s.fileBlock b ≠ 0) :
    wp (bmap b true) (fun d t => d = s.fileBlock b ∧ s.Quiet t) (fun _ _ => False) s := by
  obtain hlt | ⟨j, hj, rfl⟩ | hge := fileblock_cases b
  · have hdirect : s.inode.direct b = s.ref (some b) := (ref_direct hlt).symm
    rw [bmap, if_pos hlt]
    simp only [bmapDirect, wp_bind, wp_state, wp_pure, hdirect]
    rw [wp_allocMissing_held (by exact hb), h.wp_checkUsed]
    exact ⟨rfl, s.ios, rfl⟩
  · have hentry : s.fileBlock (nDirect + j) = s.entry j := ref_entry hj
    rw [hentry] at hb ⊢
    have hid : s.inode.indirect ≠ 0 := by
      intro h0
      rw [entry, if_pos h0] at hb
      exact hb rfl
    have hword : (s.disk s.inode.indirect).word (4 * j) = s.ref (some (nDirect + j)) := by
      rw [ref_entry hj, entry, if_neg hid]
    rw [bmap_indirect hj, wp_bmapIndirect (by simp), wp_loadIndirect_find hid (hok s.ios), bmapEntry, wp_bind, hword,
      ref_entry hj, wp_allocMissing_held hb, wp_bind, ← ref_entry hj]
    apply (h.kept_countIo.consistent.wp_checkUsed (r := some (nDirect + j))).mpr
    exact ⟨rfl, s.ios + 1, rfl⟩
  · have hlt := lt_maxFileBlocks hb
    omega

theorem CanWrite.wp_take_held (h : s.CanWrite) (hok : s.Working) (hf : s.req.NoFaults) {skip : Nat}
    (hc : (Chunk.part skip len).At s.req.uio) (hpos : 0 < len)
    (hb : s.fileBlock (s.req.uio.offset / blockSize) ≠ 0) :
    wp (take (.part skip len)) (fun _ _ => True) (fun _ _ => False) s := by
  simp only [take, partialBuffer, wp_bind, wp_state, wp_check, wp_pure, h.doalloc]
  refine ⟨hc.fits, ?_⟩
  apply wp_mono_post (h.consistent.wp_bmap_held hok hb)
  intro d t ht
  obtain ⟨rfl, k, rfl⟩ := ht
  have herror : s.ioErrors k = none := hok k
  simp only [loadBuffer, wp_bind, wp_state, if_neg hb, wp_rblock, herror, wp_zoom]
  have hfault : s.req.fault = none := hf.fault
  have hres : len ≤ s.req.uio.resid := hc.resid
  exact (wp_uiomove_of_no_fault hfault hpos (Nat.le_trans hres h.room.le) hres).mpr trivial

/-- A chunk that is the whole request, for a block that the file has, does not fail. -/
theorem CanWrite.failsIn_held (h : s.CanWrite) (hok : s.Working) (hf : s.req.NoFaults)
    (hone : s.req.uio.offset % blockSize + s.req.uio.resid ≤ blockSize) (hlt : s.req.uio.resid < blockSize)
    (hb : s.fileBlock (s.req.uio.offset / blockSize) ≠ 0) : s.FailsIn fun _ _ => False := by
  intro n t c hcame hc
  have hn : n = 0 := by
    cases hcame.breaks h hc with
    | inl h0 => exact h0
    | inr hbreak =>
      simp only [blockSize] at *
      omega
  have hts := hcame.moves hn
  subst hts
  obtain ⟨hat, hpos⟩ := Chunk.next_at hc
  have htaken : wp (take c) (fun _ _ => True) (fun _ _ => False) t := by
    cases c with
    | part skip len => exact h.wp_take_held hok hf hat hpos hb
    | whole =>
      have hres : blockSize ≤ t.req.uio.resid := hat.resid
      omega
  have hstored : wp (chunkIo c) (fun _ _ => True) (fun _ _ => False) t := by
    rw [wp_of_run_eq (h.chunkIo_eq hat), wp_bind]
    apply wp_mono (wp_and htaken (h.wp_take hat))
    · intro p u hu
      have herror : u.ioErrors u.ios = none := by
        rw [hu.2.spilled.errors, hok]
      simp only [wp_wblock, herror]
    · exact fun _ _ hu => hu.1
  apply wp_mono (wp_and (hcame.wp_chunkIo h hc) hstored)
  · exact fun _ u hu => hu.1
  · exact fun _ _ hu => hu.2

theorem Cut.fair (h : s.Cut blocklen t) (hs : s.Consistent) (hsuper : t.disk 0 = s.disk 0) : s.Fair t := by
  refine ⟨h.spares hs, fun x hx => ?_, hsuper⟩
  obtain ⟨hmarked, hkept⟩ := (h.freed x).mp hx.marked
  refine ⟨hx.ne_zero, h.volume.1 ▸ hx.lt, hmarked, fun r hr => ?_⟩
  apply hx.unused r
  cases r with
  | none =>
    by_cases hf : s.FreesIndirect blocklen
    · exact absurd (Or.inr ⟨hf, hr⟩) hkept
    · exact (h.kept hf).trans hr
  | some b =>
    have hne : s.fileBlock b ≠ 0 := fun h0 => hx.ne_zero (hr.symm.trans h0)
    by_cases hdrop : Drops blocklen b
    · exact absurd (Or.inl ⟨b, hdrop, hne, hr⟩) hkept
    · rw [ref_some, h.fileBlock b, if_neg hdrop]
      exact hr

theorem Consistent.wlpe_sfsTruncate (h : s.Consistent) (hnone : s.inode.indirect = 0) :
    wlpe (sfsTruncate len) (fun _ t => t.disk = s.disk) (fun _ _ => True) s := by
  simp only [sfsTruncate, wlpe_bind, wlpe_state, wlpe_doIf, wlpe_update]
  apply wlpe_mono (wlpe_of_wp (h.wp_dropDirects (E := fun _ _ => True)))
  · intro _ t ht
    obtain ⟨fd, dd, hrest⟩ := ht.rest
    have hid : t.inode.indirect = 0 := by
      rw [hrest]
      exact hnone
    rw [if_neg fun hc => hc.2 hid]
    show t.disk = s.disk
    rw [hrest]
  · exact fun _ _ _ => trivial

/-- On a disk that works a file is cut off, and the balance is even. -/
theorem Consistent.wp_truncates (h : s.Consistent) (hok : s.Working) {E : Errno → SfsSt → Prop} :
    wp (sfsTruncate len) (fun _ t => (s.Cut (blocksOf len) t ∧ t.inode.size = len ∧ s.Fair t) ∧ s.Steady t)
      E s := by
  obtain ⟨t, hrun, hcut, hsize⟩ := h.truncates hok len
  have hsteady := marks_sfsTruncate len s
  have hsuper : t.disk 0 = s.disk 0 := by
    by_cases hnone : s.inode.indirect = 0
    · have hdisk : wlpe (sfsTruncate len) (fun _ t => t.disk = s.disk) (fun _ _ => True) s :=
        h.wlpe_sfsTruncate hnone
      unfold wlpe at hdisk
      rw [hrun] at hdisk
      rw [hdisk]
    · exact hcut.disk 0 fun he => hnone he.symm
  unfold wlpe at hsteady
  rw [hrun] at hsteady
  rw [wp_of_ok hrun]
  exact ⟨⟨hcut, hsize, hcut.fair h hsuper⟩, hsteady⟩

end SfsSt

end CseOs.Kernel.Sfs
