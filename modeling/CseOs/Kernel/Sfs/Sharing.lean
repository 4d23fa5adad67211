import CseOs.Kernel.Sfs.Truncate
import CseOs.Kernel.Sfs.Writes

/-!
# Files that share a disk

An operation on one file writes to blocks of that file and to blocks that were free. The blocks that
other files hold are marked and not in the file, and stay what they are.
-/

namespace CseOs.Kernel.Sfs

open Framework Prog

namespace SfsSt

variable {s t u : SfsSt} {c : Chunk} {b blocklen d j n x : Nat} {r : Option Nat}

/-- A block in use that the file does not refer to -/
structure Foreign (s : SfsSt) (x : Nat) : Prop where
  ne_zero : x ≠ 0
  lt : x < s.nblocks
  marked : s.freemap x = true
  unused : ∀ r, s.ref r ≠ x

theorem not_foreign (h : s.freemap d = false) : ¬ s.Foreign d := fun hd => by simp [hd.marked] at h

/-- Foreign blocks but `d` keep their contents and stay foreign. -/
def SparesBut (d : Nat) (s t : SfsSt) : Prop :=
  ∀ x ≠ d, s.Foreign x → t.Foreign x ∧ t.disk x = s.disk x

/-- Foreign blocks keep their contents and stay foreign. -/
def Spares (s t : SfsSt) : Prop := ∀ x, s.Foreign x → t.Foreign x ∧ t.disk x = s.disk x

theorem Spares.refl (s : SfsSt) : s.Spares s := fun _ hx => ⟨hx, rfl⟩

theorem Spares.trans (h : s.Spares t) (h' : t.Spares u) : s.Spares u := by
  intro x hx
  obtain ⟨ht, hdisk⟩ := h x hx
  obtain ⟨hu, hdisk'⟩ := h' x ht
  exact ⟨hu, hdisk'.trans hdisk⟩

/-- A block that was not foreign may become one of the file. -/
theorem Spares.trans_but (h : s.Spares t) (h' : SparesBut d t u) (hd : ¬ s.Foreign d) :
    s.Spares u := by
  intro x hx
  obtain ⟨ht, hdisk⟩ := h x hx
  obtain ⟨hu, hdisk'⟩ := h' x (fun he => hd (he ▸ hx)) ht
  exact ⟨hu, hdisk'.trans hdisk⟩

private theorem spares_of_eq (hdisk : t.disk = s.disk) (hn : t.nblocks = s.nblocks)
    (hfree : t.freemap = s.freemap) (href : t.ref = s.ref) : s.Spares t := by
  intro x hx
  refine ⟨⟨hx.ne_zero, hn ▸ hx.lt, ?_, ?_⟩, by rw [hdisk]⟩
  · rw [hfree]
    exact hx.marked
  · rw [href]
    exact hx.unused

/-- Only blocks of the file were written to, and only `d` is new in it. -/
theorem sparesBut_of_ref (hdisk : ∀ x, (∀ r, s.ref r ≠ x) → t.disk x = s.disk x)
    (hn : t.nblocks = s.nblocks) (hfree : t.freemap = s.freemap)
    (href : t.ref = Function.update s.ref r d) :
    SparesBut d s t := by
  intro x hne hx
  refine ⟨⟨hx.ne_zero, hn ▸ hx.lt, by rw [hfree, hx.marked], fun r' hr' => ?_⟩, hdisk x hx.unused⟩
  by_cases hr : r' = r
  · rw [href, hr, Function.update_self] at hr'
    exact hne hr'.symm
  · rw [href, Function.update_of_ne hr] at hr'
    exact hx.unused r' hr'

theorem Consistent.wlp_balloc (h : s.Consistent) :
    wlp balloc (fun d t => s.Spares t ∧ s.freemap d = false ∧ s.Allocated d t) s := by
  have hmark : wlp balloc (fun d t => s.freemap d = false ∧
      t.freemap = Function.update s.freemap d true ∧ t.nblocks = s.nblocks) s := by
    refine @wlp_of_wp _ _ _ _ (fun _ _ => True) _ _ ?_
    simp only [balloc, wp_bind, wp_state]
    cases hf : s.firstFree with
    | none => exact trivial
    | some d =>
      obtain ⟨hbits, hfree⟩ := firstFree_spec hf
      have hin : ¬ s.nblocks ≤ d := Nat.not_le.mpr (h.free_block hbits hfree).2.1
      simp only [wp_bind, wp_update, wp_ite, wp_wblock, wp_pure]
      rw [if_neg hin]
      cases (s.mark d true).ioErrors (s.mark d true).ios with
      | some e => exact trivial
      | none => exact ⟨hfree, rfl, rfl⟩
  refine wlp_mono (wlp_and hmark (wlp_of_wp h.wp_balloc)) fun d t ht => ?_
  obtain ⟨⟨hfree, hmarked, hn⟩, halloc⟩ := ht
  have hid : t.disk s.inode.indirect = s.disk s.inode.indirect := by
    apply halloc.disk
    intro he
    have hunused := halloc.fresh.unused none
    rw [ref_none, halloc.inode] at hunused
    exact hunused he
  have href : t.ref = s.ref := ref_congr halloc.inode fun _ => hid
  refine ⟨fun x hx => ?_, hfree, halloc⟩
  have hne : x ≠ d := fun he => not_foreign hfree (he ▸ hx)
  refine ⟨⟨hx.ne_zero, hn ▸ hx.lt, ?_, by rw [href]; exact hx.unused⟩, halloc.disk x hne⟩
  rw [hmarked, Function.update_of_ne hne]
  exact hx.marked

theorem Consistent.wlp_allocMissing (h : s.Consistent) {remember : Nat → Prog SfsSt Errno Unit}
    {doalloc : Bool} (hremember : ∀ d t, s.Allocated d t → s.ref r = 0 →
      wlp (remember d) (fun _ u => SparesBut d t u) t) :
    wlp (allocMissing (s.ref r) doalloc remember) (fun _ t => s.Spares t) s := by
  unfold allocMissing
  rw [wlp_ite]
  split
  case isTrue h0 =>
    simp only [wlp_bind, wlp_pure]
    refine wlp_mono h.wlp_balloc fun d t ht => ?_
    obtain ⟨hspares, hfree, halloc⟩ := ht
    exact wlp_mono (hremember d t halloc h0.1) fun _ u hu => hspares.trans_but hu (not_foreign hfree)
  case isFalse => exact (wlp_pure _).mpr (.refl s)

private theorem wlp_checkUsed : wlp (checkUsed b) (fun _ t => t = s) s := by
  simp only [checkUsed, wlp_bind, wlp_state, wlp_ite, wlp_pure, wlp_diverge, ite_self]

private theorem Consistent.wlp_bmapDirect (h : s.Consistent) (hb : b < nDirect) {doalloc : Bool} :
    wlp (bmapDirect b doalloc) (fun _ t => s.Spares t) s := by
  simp only [bmapDirect, wlp_bind, wlp_state, wlp_pure, ← ref_direct hb]
  have halloc := @Consistent.wlp_allocMissing _ (some b) h (fun d => update (setDirect b d)) doalloc ?_
  · refine wlp_mono halloc fun d t ht => ?_
    refine wlp_mono wlp_checkUsed fun _ u hu => ?_
    rw [hu]
    exact ht
  · intro d t ht h0
    rw [ref_direct hb, ← ht.inode] at h0
    have hlink := ht.kept.consistent.link_direct ht.fresh hb h0
    exact (wlp_update _).mpr (sparesBut_of_ref (fun _ _ => rfl) rfl rfl hlink.ref)

private theorem wlp_blockRequest : wlp blockRequest (fun _ t => t = s.countIo) s := by
  simp only [blockRequest, wlp_bind, wlp_state, wlp_update]
  cases s.ioErrors s.ios with
  | some e => exact (wlp_raise e).mpr trivial
  | none => exact (wlp_pure ()).mpr rfl

private theorem wlp_rblock : wlp (rblock d) (fun buf t => t = s.countIo ∧ buf = s.disk d) s := by
  simp only [rblock, wlp_bind, wlp_state, wlp_pure]
  refine wlp_mono wlp_blockRequest fun _ t ht => ?_
  subst ht
  exact ⟨rfl, rfl⟩

theorem wlp_wblock {data : ByteStore} :
    wlp (wblock data d) (fun _ t => t = s.countIo.setBlock d data) s := by
  simp only [wblock, wlp_bind, wlp_update]
  refine wlp_mono wlp_blockRequest fun _ t ht => ?_
  rw [ht]

private theorem Consistent.wlp_loadIndirect (h : s.Consistent) :
    wlp loadIndirect (fun _ t => s.Spares t) s := by
  simp only [loadIndirect, wlp_bind, wlp_state, wlp_ite, wlp_update, wlp_pure]
  split
  case isTrue h0 =>
    refine wlp_mono h.wlp_balloc fun d t ht => ?_
    obtain ⟨hspares, hfree, halloc⟩ := ht
    rw [← halloc.inode] at h0
    have hlink := halloc.kept.consistent.link_indirect halloc.fresh h0
    exact hspares.trans_but (sparesBut_of_ref (fun _ _ => rfl) rfl rfl hlink.ref) (not_foreign hfree)
  case isFalse h0 =>
    refine wlp_mono wlp_rblock fun _ t ht => ?_
    rw [ht.1]
    exact spares_of_eq rfl rfl rfl rfl

private theorem Consistent.wlp_bmapEntry (h : s.Consistent) (hj : j < dbPerIdb) {i : Nat} {doalloc : Bool}
    (hi : s.inode.indirect = i) (h0 : i ≠ 0) :
    wlp (bmapEntry i (s.disk i) j doalloc) (fun _ t => s.Spares t) s := by
  have hentry : (s.disk i).word (4 * j) = s.ref (some (nDirect + j)) := by
    rw [ref_entry hj, entry, hi, if_neg h0]
  simp only [bmapEntry, wlp_bind, wlp_pure, hentry]
  have halloc := @Consistent.wlp_allocMissing _ (some (nDirect + j)) h
    (fun d => wblock ((s.disk i).setWord (4 * j) d) i) doalloc ?_
  · refine wlp_mono halloc fun d t ht => ?_
    refine wlp_mono wlp_checkUsed fun _ u hu => ?_
    rw [hu]
    exact ht
  · intro d t ht hzero
    have hi' : t.inode.indirect = i := by rw [ht.inode, hi]
    have hdisk : t.disk i = s.disk i :=
      ht.disk i fun he => ht.fresh.unused none (hi'.trans he)
    refine wlp_mono wlp_wblock fun _ u hu => ?_
    rw [hu, ← hdisk]
    have hempty : (t.countIo.disk i).word (4 * j) = 0 := by
      show (t.disk i).word (4 * j) = 0
      rw [hdisk, hentry, hzero]
    have hfresh : t.countIo.Fresh d :=
      ⟨ht.fresh.ne_zero, ht.fresh.lt, ht.fresh.marked, ht.fresh.unused, ht.fresh.clear⟩
    have hlink := ht.kept.consistent.kept_countIo.consistent.link_entry hfresh hj (i := i) hi' h0 hempty
    refine sparesBut_of_ref (fun x hx => ?_) rfl rfl hlink.ref
    have hne : x ≠ i := fun he => hx none (hi'.trans he.symm)
    exact Function.update_of_ne hne ..

theorem Consistent.wlp_bmap (h : s.Consistent) {doalloc : Bool} :
    wlp (bmap b doalloc) (fun _ t => s.Spares t) s := by
  obtain hb | ⟨j, hj, rfl⟩ | hb := fileblock_cases b
  · rw [bmap, if_pos hb]
    exact h.wlp_bmapDirect hb
  · rw [bmap_indirect hj]
    by_cases hnone : s.inode.indirect = 0 ∧ doalloc = false
    · simp only [bmapIndirect, wlp_bind, wlp_state, if_pos hnone, wlp_pure]
      exact .refl s
    · simp only [bmapIndirect, wlp_bind, wlp_state, if_neg hnone]
      refine wlp_mono (wlp_and h.wlp_loadIndirect (wlp_of_wp h.wp_loadIndirect)) fun p t ht => ?_
      obtain ⟨hspares, hkept, hi, h0, hdisk⟩ := ht
      have hentry := @Consistent.wlp_bmapEntry _ _ hkept.consistent hj _ doalloc hi h0
      rw [hdisk] at hentry
      exact wlp_mono hentry fun _ u hu => hspares.trans hu
  · refine @wlp_of_wp _ _ _ _ (fun _ _ => True) _ _ ?_
    rw [wp_bmap_beyond hb]
    exact trivial

private theorem wlp_loadBuffer : wlp (loadBuffer d) (fun _ t => s.Spares t) s := by
  simp only [loadBuffer, wlp_bind, wlp_state, wlp_ite, wlp_check, wlp_pure]
  split
  case isTrue => exact fun _ => .refl s
  case isFalse =>
    refine wlp_mono wlp_rblock fun _ t ht => ?_
    rw [ht.1]
    exact spares_of_eq rfl rfl rfl rfl

theorem wlp_request {α : Type} {p : Prog Transfer Errno α} :
    wlp (zoom req setReq p) (fun _ t => s.Spares t) s := by
  rw [wlp_zoom]
  exact fun _ w _ => spares_of_eq rfl rfl rfl rfl

private theorem Consistent.wlp_take (h : s.Consistent) : wlp (take c) (fun _ t => s.Spares t) s := by
  cases c with
  | part skip len =>
    simp only [take, partialBuffer, wlp_bind, wlp_state, wlp_check, wlp_pure]
    intro _
    refine wlp_mono h.wlp_bmap fun d t ht => ?_
    refine wlp_mono wlp_loadBuffer fun buf u hu => ?_
    exact wlp_mono wlp_request fun _ v hv => (ht.trans hu).trans hv
  | whole =>
    simp only [take, wholeBuffer, wlp_bind, wlp_state, wlp_pure]
    refine wlp_mono h.wlp_bmap fun d t ht => ?_
    exact wlp_mono wlp_request fun _ v hv => ht.trans hv

theorem Consistent.spares_setBlock {buf : ByteStore} (h : s.Consistent) (hb : s.fileBlock b = d)
    (h0 : d ≠ 0) : s.Spares (s.countIo.setBlock d buf) := by
  have hid : s.inode.indirect ≠ d := by
    intro he
    have hsame := h.distinct none (some b) (he.trans hb.symm) (by rw [ref_none, he]; exact h0)
    cases hsame
  have href : (s.countIo.setBlock d buf).ref = s.ref :=
    ref_congr rfl fun _ => Function.update_of_ne hid ..
  intro x hx
  have hne : x ≠ d := fun he => hx.unused (some b) (hb.trans he.symm)
  exact ⟨⟨hx.ne_zero, hx.lt, hx.marked, by rw [href]; exact hx.unused⟩, Function.update_of_ne hne ..⟩

private theorem CanWrite.wlp_chunkIo (h : s.CanWrite) (hc : c.At s.req.uio) :
    wlp (chunkIo c) (fun _ t => s.Spares t) s := by
  have hboth : wlp (take c >>= fun p => wblock p.1 p.2) (fun _ t => s.Spares t) s := by
    rw [wlp_bind]
    refine wlp_mono (wlp_and h.consistent.wlp_take (wlp_of_wp (h.wp_take hc))) fun p t ht => ?_
    obtain ⟨hspares, htook⟩ := ht
    refine wlp_mono wlp_wblock fun _ u hu => ?_
    rw [hu]
    exact hspares.trans (htook.spilled.consistent.spares_setBlock htook.block htook.ne_zero)
  intro a t hrun
  exact hboth a t ((h.chunkIo_eq hc).symm.trans hrun)

theorem CanWrite.steps_spare (h : s.CanWrite) (hsteps : Relation.ReflTransGen Step s t) :
    s.Spares t := by
  induction hsteps with
  | refl => exact .refl s
  | tail hsteps hstep ih =>
    obtain ⟨n, hcame⟩ := h.steps_came hsteps
    obtain ⟨c, hc, hrun⟩ := hstep
    have hcan := hcame.stored.canWrite h hcame.le
    exact ih.trans (hcan.wlp_chunkIo (Chunk.next_at hc).1 () _ hrun)

/-- What a write that succeeds has done: all bytes of the request are in the file, and no other file
has lost any. -/
structure Wrote (s t : SfsSt) : Prop where
  stored : s.Stored s.req.uio.resid t
  spares : s.Spares t

theorem Finished.wrote (h : s.Finished t) (hs : s.CanWrite) : s.Wrote t := by
  obtain ⟨n, hcame, hnone⟩ := h
  have hres : t.req.uio.resid = 0 := by
    unfold Chunk.next at hnone
    split at hnone
    case isTrue h0 => exact h0
    case isFalse =>
      split at hnone
      · cases hnone
      · split at hnone <;> cases hnone
  have hleft := hcame.resid hs
  have hle := hcame.le
  have hn : s.req.uio.resid = n := by omega
  exact ⟨hn ▸ hcame.stored, hs.steps_spare hcame.steps⟩

theorem CanWrite.wlp_sfsIo (h : s.CanWrite) (h0 : s.req.uio.resid ≠ 0) :
    wlp sfsIo (fun _ t => ∃ u, s.Wrote u ∧ t = u.adjustSize) s := by
  have hno : ¬ s.req.uio.rw = .read := by
    rw [h.rw]
    decide
  simp only [sfsIo, wlp_bind, wlp_state, if_neg hno, wlp_ensuring]
  exact wlp_mono (wlp_of_wp (h.wp_ioBody_finished h0)) fun _ u hu => ⟨u, hu.wrote h, rfl⟩

/-- Only blocks of the file are freed. -/
theorem Cut.spares (h : s.Cut blocklen t) (hs : s.Consistent) : s.Spares t := by
  intro x hx
  have hkept : ¬ s.FreedBlocks blocklen x := by
    intro hf
    obtain ⟨r, hr, _⟩ := hf.ref
    exact hx.unused r hr
  have hmarked := (h.freed x).mpr ⟨hx.marked, hkept⟩
  refine ⟨⟨hx.ne_zero, h.volume.1 ▸ hx.lt, hmarked, fun r hr => ?_⟩, ?_⟩
  · have hsame := (h.ref_kept hs (by rw [hr]; exact hx.ne_zero)).1
    exact hx.unused r (hsame.symm.trans hr)
  · exact h.disk x fun he => hx.unused none he.symm

theorem spares_adjustSize : s.Spares s.adjustSize := by
  unfold adjustSize
  split
  · exact spares_of_eq rfl rfl rfl rfl
  · exact .refl s

end SfsSt

end CseOs.Kernel.Sfs
