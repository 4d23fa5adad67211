import CseOs.Kernel.Sfs.Balance

/-!
# Why a write fails

On a disk that works a write fails when no block is free, when it comes to the end of the largest file, or
when the caller's memory faults. Nothing else is reported.
-/

namespace CseOs.Kernel.Sfs

open Framework Prog

section

variable {w : Transfer} {ptr n rounds : Nat} {buf : ByteStore} {faulty : Prop}

/-- Copies do not fault, unless they may. -/
def Transfer.Calm (faulty : Prop) (w : Transfer) : Prop := ¬ faulty → w.NoFaults

/-- A copy that faults -/
def Faults (faulty : Prop) (e : Errno) (_ : Transfer) : Prop := e = .efault ∧ faulty

private theorem throws_copyRange : Throws (Transfer.Calm faulty) (Faults faulty) (copyRange ptr n buf) := by
  intro w hw
  simp only [copyRange, wlpe_bind, wlpe_state]
  cases hf : w.fault with
  | none => exact hw
  | some k =>
    refine ⟨hw, rfl, ?_⟩
    by_contra hno
    have hcalm : w.fault = none := (hw hno).fault
    rw [hf] at hcalm
    cases hcalm

private theorem throws_uiomove : Throws (Transfer.Calm faulty) (Faults faulty) (uiomove ptr n buf) := by
  suffices ∀ rounds ptr n buf, Throws (Transfer.Calm faulty) (Faults faulty) (uiomoveLoop rounds ptr n buf) from
    this n ptr n buf
  intro rounds
  induction rounds with
  | zero => exact fun _ _ buf => throws_pure buf
  | succ rounds ih =>
    intro ptr n buf
    apply throws_state.bind
    intro w
    apply throws_ite
    · exact throws_pure buf
    · apply throws_ite
      · exact throws_diverge
      · apply throws_copyRange.bind
        intro buf
        apply Throws.bind
        · exact throws_update fun _ hw => hw
        · exact fun _ => ih _ _ _

private theorem throws_uiomovezeros : Throws (Transfer.Calm faulty) (Faults faulty) (uiomovezeros n) := by
  suffices ∀ rounds n, Throws (Transfer.Calm faulty) (Faults faulty) (uiomovezerosLoop rounds n) from this n n
  intro rounds
  induction rounds with
  | zero => exact fun _ => throws_pure ()
  | succ rounds ih =>
    intro n
    apply throws_ite
    · exact throws_pure ()
    · exact throws_uiomove.bind fun _ => ih _

end

namespace SfsSt

variable {s t : SfsSt} {faulty : Prop} {b d n : Nat} {P : Errno → SfsSt → Prop}

/-- The disk works, and copies do not fault, unless they may. -/
def Calm (faulty : Prop) (s : SfsSt) : Prop := s.Working ∧ s.req.Calm faulty

/-- What a program without allocations ends with -/
def Spoils (faulty : Prop) (e : Errno) (_ : SfsSt) : Prop := e = .efault ∧ faulty

/-- What a write ends with -/
inductive Lacks (faulty : Prop) (t : SfsSt) : Errno → Prop
  | space (h : t.firstFree = none) : Lacks faulty t .enospc
  | size (h : maxFileSize ≤ t.req.uio.offset) : Lacks faulty t .einval
  | memory (h : faulty) : Lacks faulty t .efault

private theorem throws_request {α : Type} {p : Prog Transfer Errno α} (h : Throws (Transfer.Calm faulty) (Faults faulty) p) :
    Throws (Calm faulty) (Spoils faulty) (zoom req setReq p) :=
  throws_zoom h (fun _ hs => hs.2) (fun _ _ hs hw => ⟨hs.1, hw⟩) fun _ _ _ he => he

private theorem throws_blockRequest : Throws (Calm faulty) P blockRequest := by
  intro s hs
  have herror : s.ioErrors s.ios = none := hs.1 _
  simp only [blockRequest, wlpe_bind, wlpe_state, wlpe_update, herror]
  exact hs

private theorem throws_rblock : Throws (Calm faulty) P (rblock b) :=
  throws_blockRequest.bind fun _ => throws_state.bind fun _ => throws_pure _

private theorem throws_wblock {data : ByteStore} : Throws (Calm faulty) P (wblock data b) :=
  throws_blockRequest.bind fun _ => throws_update fun _ hs => hs

private theorem throws_rwblock : Throws (Calm faulty) (Spoils faulty) rwblock := by
  apply throws_state.bind
  intro s
  cases s.req.uio.rw with
  | read => exact throws_rblock.bind fun _ => (throws_request throws_uiomove).bind fun _ => throws_pure _
  | write => exact (throws_request throws_uiomove).bind fun _ => throws_wblock

theorem throws_balloc : Throws (Calm faulty) (fun e t => Lacks faulty t e) balloc := by
  intro s hs
  simp only [balloc, wlpe_bind, wlpe_state]
  cases hf : s.firstFree with
  | none => exact ⟨hs, .space hf⟩
  | some d =>
    have hmark : (s.mark d true).Calm faulty := hs
    simp only [wlpe_bind, wlpe_update, wlpe_ite, wlpe_diverge, wlpe_pure]
    split
    case isTrue => trivial
    case isFalse => exact throws_wblock _ hmark

private theorem throws_allocMissing {doalloc : Bool} {remember : Nat → Prog SfsSt Errno Unit}
    (h : ∀ d, Throws (Calm faulty) (fun e t => Lacks faulty t e) (remember d)) :
    Throws (Calm faulty) (fun e t => Lacks faulty t e) (allocMissing b doalloc remember) :=
  throws_ite _ (throws_balloc.bind fun d => (h d).bind fun _ => throws_pure d) (throws_pure b)

private theorem throws_checkUsed : Throws (Calm faulty) P (checkUsed b) :=
  throws_state.bind fun _ => throws_ite _ (throws_pure ()) throws_diverge

private theorem throws_bmapDirect {doalloc : Bool} :
    Throws (Calm faulty) (fun e t => Lacks faulty t e) (bmapDirect b doalloc) := by
  apply throws_state.bind
  intro s
  apply Throws.bind
  · exact throws_allocMissing fun d => throws_update fun _ hs => hs
  · exact fun d => throws_checkUsed.bind fun _ => throws_pure d

private theorem throws_bmapIndirect {doalloc : Bool} :
    Throws (Calm faulty) (fun e t => Lacks faulty t e) (bmapIndirect b doalloc) := by
  apply throws_state.bind
  intro s
  apply throws_ite
  · exact throws_pure 0
  · apply Throws.bind
    · apply throws_state.bind
      intro s
      apply throws_ite
      · apply throws_balloc.bind
        intro d
        apply Throws.bind
        · exact throws_update fun _ hs => hs
        · exact fun _ => throws_pure _
      · exact throws_rblock.bind fun _ => throws_pure _
    · intro loaded
      apply Throws.bind
      · exact throws_allocMissing fun d => throws_wblock
      · exact fun d => throws_checkUsed.bind fun _ => throws_pure d

theorem Calm.wlpe_bmap (hs : s.Calm faulty) {doalloc : Bool} :
    wlpe (bmap (s.req.uio.offset / blockSize) doalloc) (fun _ t => t.Calm faulty)
      (fun e t => t.Calm faulty ∧ Lacks faulty t e) s := by
  unfold bmap
  split
  case isTrue => exact throws_bmapDirect s hs
  case isFalse hdirect =>
    rw [wlpe_bind, wlpe_raiseIf]
    split
    case isTrue hbeyond =>
      refine ⟨hs, .size ?_⟩
      have hpos := Nat.div_pos_iff.mp hbeyond
      simp only [maxFileSize, maxFileBlocks, nDirect, dbPerIdb, blockSize] at *
      omega
    case isFalse => exact throws_bmapIndirect s hs

private theorem spoils_lacks {e : Errno} (h : Spoils faulty e t) : Lacks faulty t e := by
  obtain ⟨rfl, hf⟩ := h
  exact .memory hf

private theorem throws_copy {α : Type} {p : Prog Transfer Errno α} (h : Throws (Transfer.Calm faulty) (Faults faulty) p) :
    Throws (Calm faulty) (fun e t => Lacks faulty t e) (zoom req setReq p) :=
  (throws_request h).mono fun _ _ _ he => spoils_lacks he

private theorem throws_partialio {skip len : Nat} :
    Throws (Calm faulty) (fun e t => Lacks faulty t e) (partialio skip len) := by
  apply Throws.bind
  · intro s hs
    simp only [partialBuffer, wlpe_bind, wlpe_state, wlpe_check]
    intro _
    apply wlpe_mono_post hs.wlpe_bmap
    intro d t ht
    have hload : Throws (Calm faulty) (fun e t => Lacks faulty t e) (loadBuffer d) :=
      throws_state.bind fun _ => throws_ite _ ((throws_check _).bind fun _ => throws_pure _) throws_rblock
    apply wlpe_mono_post (hload t ht)
    intro iobuf u hu
    apply wlpe_mono_post (throws_copy throws_uiomove u hu)
    exact fun _ _ hv => hv
  · exact fun _ => throws_state.bind fun _ => throws_doIf _ throws_wblock

private theorem throws_blockio : Throws (Calm faulty) (fun e t => Lacks faulty t e) blockio := by
  intro s hs
  simp only [blockio]
  rw [wlpe_bind, wlpe_state, wlpe_bind]
  apply wlpe_mono_post hs.wlpe_bmap
  intro d t ht
  have hrest : Throws (Calm faulty) (fun e t => Lacks faulty t e)
      (if d = 0 then do
        check (s.req.uio.rw = .read)
        zoom req setReq (uiomovezeros blockSize)
      else do
        check (blockSize ≤ s.req.uio.resid)
        update (mapUio (deviceUio d))
        ensuring rwblock (mapUio (restoreUio s.req.uio d))) := by
    apply throws_ite
    · exact (throws_check _).bind fun _ => throws_copy throws_uiomovezeros
    · apply (throws_check _).bind
      intro _
      apply Throws.bind
      · exact throws_update fun _ hs => hs
      · intro _
        have hrw : Throws (Calm faulty) (Spoils faulty) (ensuring rwblock (mapUio (restoreUio s.req.uio d))) :=
          throws_ensuring throws_rwblock (fun _ hs => hs) fun _ _ he => he
        exact hrw.mono fun _ _ _ he => spoils_lacks he
  exact hrest t ht

private theorem throws_ioBody : Throws (Calm faulty) (fun e t => Lacks faulty t e) ioBody := by
  apply throws_state.bind
  intro s
  apply Throws.bind (throws_doIf _ throws_partialio)
  intro _
  apply throws_state.bind
  intro s
  apply throws_ite
  · exact throws_pure ()
  · apply (throws_check _).bind
    intro _
    apply Throws.bind (throws_loop fun _ => throws_blockio)
    intro _
    apply throws_state.bind
    intro s
    exact (throws_check _).bind fun _ => throws_doIf _ throws_partialio

private theorem adjustSize_lacks {e : Errno} (h : Lacks faulty t e) : Lacks faulty t.adjustSize e := by
  have hreq := adjustSize_req (s := t)
  cases h with
  | space h =>
    apply Lacks.space
    unfold adjustSize
    split
    · exact h
    · exact h
  | size h => exact .size (by rw [hreq]; exact h)
  | memory h => exact .memory h

/-- A write ends well, or with what it lacks. -/
theorem Calm.wlpe_write (hs : s.Calm faulty) (hrw : s.req.uio.rw = .write) :
    wlpe sfsIo (fun _ _ => True) (fun e t => Lacks faulty t e) s := by
  have hno : ¬ s.req.uio.rw = .read := by
    rw [hrw]
    decide
  rw [sfsIo, wlpe_bind, wlpe_state, wlpe_ite, if_neg hno, wlpe_ensuring]
  apply wlpe_mono (throws_ioBody s hs)
  · exact fun _ _ _ => trivial
  · exact fun _ _ ht => adjustSize_lacks ht.2

end SfsSt

end CseOs.Kernel.Sfs
