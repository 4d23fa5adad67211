import CseOs.Kernel.Sfs.Reads

/-!
# Cutting a file off: `sfs_truncate`

Blocks past the new length are freed, and the size is set. The direct blocks and the slots of the
indirect block are compared with the new length in two different ways.
-/

namespace CseOs.Kernel.Sfs

open Framework Prog

namespace SfsSt

/-- The loop body for the direct blocks -/
def dropDirect (blocklen i : Nat) : Prog SfsSt Errno Unit := do
  let s ← state
  let block := s.inode.direct i
  doIf (blocklen ≤ i ∧ block ≠ 0) do
    bfree block
    update (setDirect i 0)

/-- `idbuf` with the two flags of the scan -/
structure IdScan where
  idbuf : ByteStore
  hasnonzero : Bool
  iddirty : Bool

/-- A block past the new end of the file is discarded. -/
def discardEntry (blocklen j : Nat) (scan : IdScan) : Prog SfsSt Errno IdScan :=
  if blocklen < nDirect + j ∧ scan.idbuf.word (4 * j) ≠ 0 then do
    bfree (scan.idbuf.word (4 * j))
    return { scan with idbuf := scan.idbuf.setWord (4 * j) 0, iddirty := true }
  else
    return scan

/-- The flag remembers a block that is left. -/
def noteNonzero (j : Nat) (scan : IdScan) : IdScan :=
  if scan.idbuf.word (4 * j) ≠ 0 then { scan with hasnonzero := true } else scan

/-- The loop over the slots of the indirect block -/
def scanEntries (blocklen : Nat) : Nat → IdScan → Prog SfsSt Errno IdScan
  | 0, scan => return scan
  | j + 1, scan => do
    let scan ← scanEntries blocklen j scan
    let scan ← discardEntry blocklen j scan
    return noteNonzero j scan

/-- The part for the indirect block -/
def dropIndirect (blocklen idblock : Nat) : Prog SfsSt Errno Unit := do
  let idbuf ← rblock idblock
  let scan ← scanEntries blocklen dbPerIdb ⟨idbuf, false, false⟩
  if scan.hasnonzero = false then do
    bfree idblock
    update (setIndirect 0)
  else
    doIf (scan.iddirty = true) (wblock scan.idbuf idblock)

/-- `sfs_truncate` -/
def sfsTruncate (len : Nat) : Prog SfsSt Errno Unit := do
  let blocklen := (len + blockSize - 1) / blockSize
  loop nDirect (dropDirect blocklen)
  let s ← state
  let idblock := s.inode.indirect
  let highblock := nDirect + dbPerIdb - 1
  doIf (blocklen < highblock ∧ idblock ≠ 0) (dropIndirect blocklen idblock)
  update (setSize len)

variable {s t u : SfsSt} {b blocklen d i j k len : Nat} {E : Errno → SfsSt → Prop}

theorem wp_bfree {Q : Unit → SfsSt → Prop} (hd : d < s.nbits) (hused : s.freemap d = true) :
    wp (bfree d) Q E s ↔ Q () (s.mark d false) := by
  simp only [bfree, wp_bind, wp_state, wp_ite, if_pos (And.intro hd hused), wp_update]

/-- The bits of `F` were cleared, and no others. -/
def Clears (s : SfsSt) (F : Nat → Prop) (t : SfsSt) : Prop :=
  ∀ x, t.freemap x = true ↔ s.freemap x = true ∧ ¬ F x

variable {F F' : Nat → Prop}

private theorem Clears.congr (h : s.Clears F t) (hF : ∀ x, F' x ↔ F x) : s.Clears F' t := by
  intro x
  rw [h x, hF x]

private theorem clears_none (h : ∀ x, ¬ F x) : s.Clears F s := fun x => by simp [h x]

private theorem Clears.trans {G : Nat → Prop} (h : s.Clears F t) (h' : t.Clears F' u)
    (hG : ∀ x, G x ↔ F x ∨ F' x) : s.Clears G u := by
  intro x
  rw [h' x, h x, hG x, not_or, and_assoc]

theorem Clears.mark (h : s.Clears F t) (hF : ∀ x, F' x ↔ F x ∨ x = d) :
    s.Clears F' (t.mark d false) := by
  intro x
  rw [hF x]
  by_cases hx : x = d
  · simp [SfsSt.mark, hx]
  · have hother : (t.mark d false).freemap x = t.freemap x := Function.update_of_ne hx ..
    rw [hother, h x]
    simp [hx]

/-- After `i` rounds over the direct blocks -/
structure DirectPhase (s : SfsSt) (blocklen i : Nat) (t : SfsSt) : Prop where
  direct : ∀ k, t.inode.direct k = if k < i ∧ blocklen ≤ k then 0 else s.inode.direct k
  freed : s.Clears (fun x => ∃ k < i, blocklen ≤ k ∧ s.inode.direct k ≠ 0 ∧ s.inode.direct k = x) t
  rest : ∃ fd dd, t = { s with
    inode := { s.inode with direct := t.inode.direct }, freemap := t.freemap,
    freemapDirty := fd, dirty := dd }

theorem Consistent.direct_inj (h : s.Consistent) (hi : i < nDirect) (hk : k < nDirect)
    (h0 : s.inode.direct i ≠ 0) (he : s.inode.direct k = s.inode.direct i) : k = i := by
  have hsame := h.distinct (some i) (some k) (by rw [ref_direct hi, ref_direct hk, he])
    (by rw [ref_direct hi]; exact h0)
  exact (Option.some.inj hsame).symm

private theorem Consistent.wp_dropDirect (h : s.Consistent) (hi : i < nDirect)
    (ht : s.DirectPhase blocklen i t) :
    wp (dropDirect blocklen i) (fun _ => s.DirectPhase blocklen (i + 1)) E t := by
  have hdi : t.inode.direct i = s.inode.direct i := by
    rw [ht.direct i, if_neg (by omega)]
  obtain ⟨fd, dd, hrest⟩ := ht.rest
  simp only [dropDirect, wp_bind, wp_state, wp_doIf, hdi]
  split
  case isTrue hdrop =>
    have hused := h.used (some i) (by rw [ref_direct hi]; exact hdrop.2)
    rw [ref_direct hi] at hused
    have hbits : s.inode.direct i < t.nbits := by
      rw [hrest]
      exact Nat.lt_of_lt_of_le hused.1 h.bits
    have hmarked : t.freemap (s.inode.direct i) = true := by
      apply (ht.freed _).mpr
      refine ⟨hused.2, ?_⟩
      rintro ⟨k, hk, _, _, he⟩
      have hki := h.direct_inj hi (by omega) hdrop.2 he
      omega
    simp only [wp_bfree hbits hmarked, wp_update]
    refine ⟨fun k => ?_, ht.freed.mark fun x => ?_, true, true, ?_⟩
    · by_cases hk : k = i
      · rw [hk, if_pos ⟨Nat.lt_succ_self i, hdrop.1⟩]
        exact Function.update_self ..
      · have hother : ((t.mark (s.inode.direct i) false).setDirect i 0).inode.direct k =
            t.inode.direct k := Function.update_of_ne hk ..
        rw [hother, ht.direct k]
        congr 1
        apply propext
        omega
    · constructor
      · rintro ⟨k, hk, hlen, h0, he⟩
        by_cases hki : k = i
        · exact Or.inr (hki ▸ he.symm)
        · exact Or.inl ⟨k, by omega, hlen, h0, he⟩
      · rintro (⟨k, hk, hlen, h0, he⟩ | he)
        · exact ⟨k, by omega, hlen, h0, he⟩
        · exact ⟨i, Nat.lt_succ_self i, hdrop.1, hdrop.2, he.symm⟩
    · rw [hrest]
      rfl
  case isFalse hkeep =>
    refine ⟨fun k => ?_, ht.freed.congr fun x => ?_, fd, dd, hrest⟩
    · rw [ht.direct k]
      by_cases hk : k = i
      · subst hk
        by_cases hlen : blocklen ≤ k
        · have h0 : s.inode.direct k = 0 := by
            by_contra hne
            exact hkeep ⟨hlen, hne⟩
          simp [h0]
        · simp [hlen]
      · congr 1
        apply propext
        omega
    · constructor
      · rintro ⟨k, hk, hlen, h0, he⟩
        by_cases hki : k = i
        · subst hki
          exact absurd ⟨hlen, h0⟩ hkeep
        · exact ⟨k, by omega, hlen, h0, he⟩
      · rintro ⟨k, hk, hlen, h0, he⟩
        exact ⟨k, by omega, hlen, h0, he⟩

/-- The direct blocks past the new end are freed. -/
theorem Consistent.wp_dropDirects (h : s.Consistent) :
    wp (loop nDirect (dropDirect blocklen)) (fun _ => s.DirectPhase blocklen nDirect) E s := by
  apply wp_loop (fun i => s.DirectPhase blocklen i)
  · refine ⟨fun k => by simp, clears_none ?_, s.freemapDirty, s.dirty, rfl⟩
    rintro x ⟨k, hk, _⟩
    omega
  · exact fun i t hi ht => h.wp_dropDirect hi ht
  · exact fun t ht => ht

/-- After the scan of `j` slots of an indirect block that held `idbuf` -/
structure ScanPhase (s : SfsSt) (idbuf : ByteStore) (blocklen j : Nat) (scan : IdScan)
    (t : SfsSt) : Prop where
  words : ∀ k, scan.idbuf.word (4 * k) =
    if k < j ∧ blocklen < nDirect + k then 0 else idbuf.word (4 * k)
  nonzero : scan.hasnonzero = true ↔
    ∃ k < j, ¬ blocklen < nDirect + k ∧ idbuf.word (4 * k) ≠ 0
  dirty : scan.iddirty = true ↔ ∃ k < j, blocklen < nDirect + k ∧ idbuf.word (4 * k) ≠ 0
  freed : s.Clears
    (fun x => ∃ k < j, blocklen < nDirect + k ∧ idbuf.word (4 * k) ≠ 0 ∧ idbuf.word (4 * k) = x) t
  rest : ∃ fd, t = { s with freemap := t.freemap, freemapDirty := fd }

/-- The slots of an indirect block are distinct blocks that are marked. -/
structure Slots (s : SfsSt) (idbuf : ByteStore) : Prop where
  used : ∀ k < dbPerIdb, idbuf.word (4 * k) ≠ 0 →
    idbuf.word (4 * k) < s.nbits ∧ s.freemap (idbuf.word (4 * k)) = true
  inj : ∀ k < dbPerIdb, ∀ k' < dbPerIdb, idbuf.word (4 * k) ≠ 0 →
    idbuf.word (4 * k') = idbuf.word (4 * k) → k' = k

private theorem Slots.wp_discardEntry {idbuf : ByteStore} {scan : IdScan} (h : s.Slots idbuf)
    (hj : j < dbPerIdb) (ht : s.ScanPhase idbuf blocklen j scan t) :
    wp (discardEntry blocklen j scan)
      (fun scan' u => s.ScanPhase idbuf blocklen (j + 1) (noteNonzero j scan') u) E t := by
  have hword : scan.idbuf.word (4 * j) = idbuf.word (4 * j) := by
    rw [ht.words j, if_neg (by omega)]
  obtain ⟨fd, hrest⟩ := ht.rest
  simp only [discardEntry, wp_ite, hword]
  split
  case isTrue hdrop =>
    have hused := h.used j hj hdrop.2
    have hbits : idbuf.word (4 * j) < t.nbits := by
      rw [hrest]
      exact hused.1
    have hmarked : t.freemap (idbuf.word (4 * j)) = true := by
      apply (ht.freed _).mpr
      refine ⟨hused.2, ?_⟩
      rintro ⟨k, hk, _, _, he⟩
      have hkj := h.inj j hj k (by omega) hdrop.2 he
      omega
    have hzero : (scan.idbuf.setWord (4 * j) 0).word (4 * j) = 0 :=
      ByteStore.word_setWord_self _ _ (by decide)
    have hnote : noteNonzero j
        { scan with idbuf := scan.idbuf.setWord (4 * j) 0, iddirty := true } =
        { scan with idbuf := scan.idbuf.setWord (4 * j) 0, iddirty := true } :=
      if_neg (by simp only [hzero, ne_eq, not_true_eq_false, not_false_eq_true])
    simp only [wp_bind, wp_bfree hbits hmarked, wp_pure, hnote]
    refine ⟨fun k => ?_, ?_, ?_, ht.freed.mark fun x => ?_, true, ?_⟩
    · by_cases hk : k = j
      · rw [hk, if_pos ⟨Nat.lt_succ_self j, hdrop.1⟩]
        exact hzero
      · show (scan.idbuf.setWord (4 * j) 0).word (4 * k) = _
        rw [ByteStore.word_setWord_of_disjoint (by omega), ht.words k]
        congr 1
        apply propext
        omega
    · rw [Nat.exists_lt_succ_right]
      simp only [hdrop.1, not_true_eq_false, false_and, or_false]
      exact ht.nonzero
    · rw [Nat.exists_lt_succ_right]
      simp [hdrop.1, hdrop.2]
    · rw [Nat.exists_lt_succ_right]
      simp only [hdrop.1, hdrop.2, true_and, ne_eq, not_false_eq_true]
      rw [eq_comm (a := x)]
    · rw [hrest]
      rfl
  case isFalse hkeep =>
    have hwords (k : Nat) : scan.idbuf.word (4 * k) =
        if k < j + 1 ∧ blocklen < nDirect + k then 0 else idbuf.word (4 * k) := by
      rw [ht.words k]
      by_cases hk : k = j
      · subst hk
        rw [if_neg (by omega)]
        split
        case isTrue hpast =>
          by_contra h0
          exact hkeep ⟨hpast.2, h0⟩
        case isFalse => rfl
      · congr 1
        apply propext
        omega
    have hdirty : scan.iddirty = true ↔
        ∃ k < j + 1, blocklen < nDirect + k ∧ idbuf.word (4 * k) ≠ 0 := by
      rw [Nat.exists_lt_succ_right, ht.dirty, or_iff_left hkeep]
    have hsame : ∀ x, (∃ k < j + 1, blocklen < nDirect + k ∧ idbuf.word (4 * k) ≠ 0 ∧
        idbuf.word (4 * k) = x) ↔ _ := fun x => by
      rw [Nat.exists_lt_succ_right, or_iff_left fun hx => hkeep ⟨hx.1, hx.2.1⟩]
    have hfreed := ht.freed.congr hsame
    rw [wp_pure, noteNonzero, hword]
    split
    case isTrue h0 =>
      refine ⟨hwords, ?_, hdirty, hfreed, fd, hrest⟩
      rw [Nat.exists_lt_succ_right]
      have hin : ¬ blocklen < nDirect + j := fun hpast => hkeep ⟨hpast, h0⟩
      exact ⟨fun _ => Or.inr ⟨hin, h0⟩, fun _ => rfl⟩
    case isFalse h0 =>
      refine ⟨hwords, ?_, hdirty, hfreed, fd, hrest⟩
      rw [Nat.exists_lt_succ_right, or_iff_left fun hx => h0 hx.2]
      exact ht.nonzero

theorem Slots.wp_scanEntries {idbuf : ByteStore} (h : s.Slots idbuf) (blocklen j : Nat)
    (hj : j ≤ dbPerIdb) : wp (scanEntries blocklen j ⟨idbuf, false, false⟩)
      (fun scan t => s.ScanPhase idbuf blocklen j scan t) E s := by
  induction j with
  | zero =>
    refine ⟨fun k => by simp, by simp, by simp, clears_none ?_, s.freemapDirty, rfl⟩
    rintro x ⟨k, hk, _⟩
    omega
  | succ j ih =>
    rw [scanEntries, wp_bind]
    apply wp_mono_post (ih (by omega))
    intro scan t ht
    rw [wp_bind]
    apply wp_mono_post (h.wp_discardEntry (by omega) ht)
    intro scan' u hu
    exact hu

/-- The blocks that `sfs_truncate` drops -/
def Drops (blocklen b : Nat) : Prop := b < nDirect ∧ blocklen ≤ b ∨ nDirect ≤ b ∧ blocklen < b

instance : Decidable (Drops blocklen b) := inferInstanceAs (Decidable (_ ∨ _))

private theorem drops_direct (hb : b < nDirect) : Drops blocklen b ↔ blocklen ≤ b := by
  simp only [Drops]
  omega

private theorem drops_entry (hb : nDirect ≤ b) : Drops blocklen b ↔ blocklen < b := by
  simp only [Drops]
  omega

/-- The indirect block is freed: it is looked at, and no block stays in it. -/
def FreesIndirect (s : SfsSt) (blocklen : Nat) : Prop :=
  s.inode.indirect ≠ 0 ∧ blocklen < nDirect + dbPerIdb - 1 ∧
    ∀ k < dbPerIdb, ¬ blocklen < nDirect + k → s.entry k = 0

/-- The blocks that are freed -/
def FreedBlocks (s : SfsSt) (blocklen x : Nat) : Prop :=
  (∃ b, Drops blocklen b ∧ s.fileBlock b ≠ 0 ∧ s.fileBlock b = x) ∨
    s.FreesIndirect blocklen ∧ s.inode.indirect = x

/-- The effect of `sfs_truncate`, up to the new size -/
structure Cut (s : SfsSt) (blocklen : Nat) (t : SfsSt) : Prop where
  direct : ∀ k < nDirect, t.inode.direct k = if blocklen ≤ k then 0 else s.inode.direct k
  entry : ∀ k < dbPerIdb, t.entry k = if blocklen < nDirect + k then 0 else s.entry k
  freed : s.Clears (s.FreedBlocks blocklen) t
  emptied : s.FreesIndirect blocklen → t.inode.indirect = 0
  kept : ¬ s.FreesIndirect blocklen → t.inode.indirect = s.inode.indirect
  disk : ∀ d, d ≠ s.inode.indirect → t.disk d = s.disk d
  volume : t.nblocks = s.nblocks ∧ t.nbits = s.nbits ∧ t.ioErrors = s.ioErrors ∧ t.req = s.req

/-- A file block is dropped or stays. -/
theorem Cut.fileBlock (h : s.Cut blocklen t) (b : Nat) :
    t.fileBlock b = if Drops blocklen b then 0 else s.fileBlock b := by
  simp only [SfsSt.fileBlock]
  by_cases hb : b < nDirect
  · simp only [if_pos hb, h.direct b hb, drops_direct hb]
  · by_cases hmax : b < maxFileBlocks
    · have hk : b - nDirect < dbPerIdb := by
        simp only [maxFileBlocks] at hmax
        omega
      have hb' : nDirect + (b - nDirect) = b := by omega
      simp only [if_neg hb, if_pos hmax, h.entry _ hk, hb', drops_entry (Nat.le_of_not_lt hb)]
    · simp only [if_neg hb, if_neg hmax, ite_self]

theorem dropped_iff :
    (∃ b, Drops blocklen b ∧ s.fileBlock b ≠ 0 ∧ s.fileBlock b = x) ↔
      (∃ k < nDirect, blocklen ≤ k ∧ s.inode.direct k ≠ 0 ∧ s.inode.direct k = x) ∨
      ∃ k < dbPerIdb, blocklen < nDirect + k ∧ s.entry k ≠ 0 ∧ s.entry k = x := by
  constructor
  · rintro ⟨b, hdrop, h0, he⟩
    obtain hb | ⟨j, hj, rfl⟩ | hb := fileblock_cases b
    · rw [drops_direct hb] at hdrop
      rw [← ref_some, ref_direct hb] at h0 he
      exact Or.inl ⟨b, hb, hdrop, h0, he⟩
    · rw [drops_entry (Nat.le_add_right ..)] at hdrop
      rw [← ref_some, ref_entry hj] at h0 he
      exact Or.inr ⟨j, hj, hdrop, h0, he⟩
    · have hmax : ¬ b < maxFileBlocks := by omega
      have hlt : ¬ b < nDirect := by
        simp only [maxFileBlocks] at hb
        omega
      simp only [SfsSt.fileBlock, if_neg hlt, if_neg hmax] at h0
      exact absurd rfl h0
  · rintro (⟨k, hk, hdrop, h0, he⟩ | ⟨k, hk, hdrop, h0, he⟩)
    · rw [← ref_direct hk, ref_some] at h0 he
      exact ⟨k, (drops_direct hk).mpr hdrop, h0, he⟩
    · rw [← ref_entry hk, ref_some] at h0 he
      exact ⟨nDirect + k, (drops_entry (Nat.le_add_right ..)).mpr hdrop, h0, he⟩

theorem Consistent.slots (h : s.Consistent) (h0 : s.inode.indirect ≠ 0)
    (ht : s.DirectPhase blocklen nDirect t) :
    t.Slots (t.disk t.inode.indirect) ∧
      ∀ k, (t.disk t.inode.indirect).word (4 * k) = s.entry k := by
  obtain ⟨fd, dd, hrest⟩ := ht.rest
  have hdisk : t.disk t.inode.indirect = s.disk s.inode.indirect := by rw [hrest]
  have hword (k : Nat) : (t.disk t.inode.indirect).word (4 * k) = s.entry k := by
    rw [hdisk, SfsSt.entry, if_neg h0]
  refine ⟨⟨fun k hk hne => ?_, fun k hk k' hk' hne he => ?_⟩, hword⟩
  · rw [hword, ← ref_entry hk] at hne ⊢
    have hused := h.used _ hne
    refine ⟨?_, (ht.freed _).mpr ⟨hused.2, ?_⟩⟩
    · rw [hrest]
      exact Nat.lt_of_lt_of_le hused.1 h.bits
    · rintro ⟨i, hi, _, _, he⟩
      rw [← ref_direct hi] at he
      have hsame := h.distinct _ _ he.symm hne
      have hik : nDirect + k = i := Option.some.inj hsame
      omega
  · rw [hword, ← ref_entry hk] at hne
    rw [hword, hword, ← ref_entry hk', ← ref_entry hk] at he
    have hsame := h.distinct _ _ he.symm hne
    have hkk : nDirect + k = nDirect + k' := Option.some.inj hsame
    omega

theorem DirectPhase.cut (h : s.DirectPhase blocklen nDirect t)
    (hskip : ¬ (blocklen < nDirect + dbPerIdb - 1 ∧ s.inode.indirect ≠ 0)) : s.Cut blocklen t := by
  obtain ⟨fd, dd, hrest⟩ := h.rest
  have hindirect : t.inode.indirect = s.inode.indirect := by rw [hrest]
  have hdisk : t.disk = s.disk := by rw [hrest]
  have hentry (k : Nat) : t.entry k = s.entry k := by
    simp only [SfsSt.entry, hindirect, hdisk]
  have hnone (k : Nat) (hk : k < dbPerIdb) (hpast : blocklen < nDirect + k) : s.entry k = 0 := by
    by_cases h0 : s.inode.indirect = 0
    · exact if_pos h0
    · exact absurd ⟨by omega, h0⟩ hskip
  have hfrees : ¬ s.FreesIndirect blocklen := fun hf => hskip ⟨hf.2.1, hf.1⟩
  refine ⟨fun k hk => ?_, fun k hk => ?_, h.freed.congr fun x => ?_, fun hf => absurd hf hfrees,
    fun _ => hindirect, fun d _ => congrFun hdisk d, ?_⟩
  · rw [h.direct k]
    simp only [hk, true_and]
  · rw [hentry k]
    split
    case isTrue hpast => exact hnone k hk hpast
    case isFalse => rfl
  · rw [FreedBlocks, or_iff_left fun hf => hfrees hf.1, dropped_iff, or_iff_left]
    rintro ⟨k, hk, hpast, h0, _⟩
    exact h0 (hnone k hk hpast)
  · rw [hrest]
    exact ⟨rfl, rfl, rfl, rfl⟩

/-- What is known after the scan of the indirect block -/
structure Scanned (s : SfsSt) (blocklen : Nat) (scan : IdScan) (u : SfsSt) : Prop where
  words : ∀ k < dbPerIdb, scan.idbuf.word (4 * k) =
    if blocklen < nDirect + k then 0 else s.entry k
  empty : scan.hasnonzero = false ↔ ∀ k < dbPerIdb, ¬ blocklen < nDirect + k → s.entry k = 0
  clean : scan.iddirty = false → ∀ k < dbPerIdb, blocklen < nDirect + k → s.entry k = 0
  direct : ∀ k < nDirect, u.inode.direct k = if blocklen ≤ k then 0 else s.inode.direct k
  freed : s.Clears
    (fun x => ∃ b, Drops blocklen b ∧ s.fileBlock b ≠ 0 ∧ s.fileBlock b = x) u
  indirect : u.inode.indirect = s.inode.indirect
  disk : u.disk = s.disk
  volume : u.nblocks = s.nblocks ∧ u.nbits = s.nbits ∧ u.ioErrors = s.ioErrors ∧ u.req = s.req

private theorem DirectPhase.scanned {scan : IdScan} (h : s.DirectPhase blocklen nDirect t)
    {idbuf : ByteStore} (hword : ∀ k, idbuf.word (4 * k) = s.entry k)
    (hu : t.countIo.ScanPhase idbuf blocklen dbPerIdb scan u) : s.Scanned blocklen scan u := by
  obtain ⟨fd, dd, hrest⟩ := h.rest
  obtain ⟨fd', hrest'⟩ := hu.rest
  refine ⟨fun k hk => ?_, ?_, fun hclean k hk hpast => ?_, fun k hk => ?_, ?_, ?_, ?_, ?_⟩
  · rw [hu.words k, hword]
    simp only [hk, true_and]
  · rw [← Bool.not_eq_true, hu.nonzero]
    simp only [hword, not_exists, not_and, not_not]
  · by_contra h0
    have hdirty := hu.dirty.mpr ⟨k, hk, hpast, by rw [hword]; exact h0⟩
    simp [hclean] at hdirty
  · have hdirect : u.inode.direct k = t.inode.direct k := by rw [hrest']; rfl
    rw [hdirect, h.direct k]
    simp only [hk, true_and]
  · have hfreed : s.Clears _ t.countIo := h.freed
    apply hfreed.trans hu.freed
    intro x
    rw [dropped_iff]
    simp only [hword]
  · rw [hrest']
    show t.inode.indirect = _
    rw [hrest]
  · rw [hrest']
    show t.disk = _
    rw [hrest]
  · rw [hrest']
    show t.nblocks = _ ∧ t.nbits = _ ∧ t.ioErrors = _ ∧ t.req = _
    rw [hrest]
    exact ⟨rfl, rfl, rfl, rfl⟩

theorem Consistent.wp_dropIndirect (h : s.Consistent) (hok : ∀ i, s.ioErrors i = none)
    (h0 : s.inode.indirect ≠ 0) (hlow : blocklen < nDirect + dbPerIdb - 1)
    (ht : s.DirectPhase blocklen nDirect t) :
    wp (dropIndirect blocklen t.inode.indirect) (fun _ u => s.Cut blocklen u) E t := by
  obtain ⟨hslots, hword⟩ := h.slots h0 ht
  have herr (i : Nat) : t.ioErrors i = none := by
    obtain ⟨fd, dd, hrest⟩ := ht.rest
    rw [hrest]
    exact hok i
  have hslots' : t.countIo.Slots (t.disk t.inode.indirect) := ⟨hslots.used, hslots.inj⟩
  have hid : t.inode.indirect = s.inode.indirect := by
    obtain ⟨fd, dd, hrest⟩ := ht.rest
    rw [hrest]
  rw [dropIndirect, wp_bind, wp_rblock, herr]
  show wp (scanEntries blocklen dbPerIdb _ >>= _) _ _ _
  rw [wp_bind]
  generalize hn : dbPerIdb = n
  apply wp_mono_post (hslots'.wp_scanEntries blocklen n (Nat.le_of_eq hn.symm))
  intro scan u hu
  rw [← hn] at hu
  have hscan := ht.scanned hword hu
  rw [hid]
  simp only [wp_ite, wp_doIf]
  split
  case isTrue hempty =>
    have hfrees : s.FreesIndirect blocklen := ⟨h0, hlow, hscan.empty.mp hempty⟩
    have hused := h.used none h0
    have hbits : s.inode.indirect < u.nbits := by
      rw [hscan.volume.2.1]
      exact Nat.lt_of_lt_of_le hused.1 h.bits
    have hmarked : u.freemap s.inode.indirect = true := by
      apply (hscan.freed _).mpr
      refine ⟨hused.2, ?_⟩
      rintro ⟨b, _, hb, he⟩
      have hsame := h.distinct (some b) none he hb
      cases hsame
    rw [wp_bind, wp_bfree hbits hmarked, wp_update]
    refine ⟨hscan.direct, fun k hk => ?_, hscan.freed.mark fun x => ?_, fun _ => rfl,
      fun hno => absurd hfrees hno, fun d _ => congrFun hscan.disk d, hscan.volume⟩
    · have hgone : ((u.mark s.inode.indirect false).setIndirect 0).inode.indirect = 0 := rfl
      rw [SfsSt.entry, if_pos hgone]
      split
      case isTrue => rfl
      case isFalse hin => exact (hscan.empty.mp hempty k hk hin).symm
    · rw [FreedBlocks, eq_comm (a := x)]
      simp only [hfrees, true_and]
  case isFalse hsome =>
    have hfrees : ¬ s.FreesIndirect blocklen := fun hf => hsome (hscan.empty.mpr hf.2.2)
    have hfreed : s.Clears (s.FreedBlocks blocklen) u :=
      hscan.freed.congr fun x => or_iff_left fun hf => hfrees hf.1
    have hu0 : u.inode.indirect ≠ 0 := by rw [hscan.indirect]; exact h0
    split
    case isTrue hdirty =>
      rw [wp_wblock, hscan.volume.2.2.1, hok]
      refine ⟨hscan.direct, fun k hk => ?_, hfreed, fun hf => absurd hf hfrees,
        fun _ => hscan.indirect, fun d hd => ?_, hscan.volume⟩
      · have hblock : (u.countIo.setBlock s.inode.indirect scan.idbuf).disk s.inode.indirect =
            scan.idbuf := Function.update_self ..
        have hid' : (u.countIo.setBlock s.inode.indirect scan.idbuf).inode.indirect =
            s.inode.indirect := hscan.indirect
        rw [SfsSt.entry, hid', if_neg h0, hblock, hscan.words k hk]
      · have hother : (u.countIo.setBlock s.inode.indirect scan.idbuf).disk d = u.disk d :=
          Function.update_of_ne hd ..
        rw [hother, hscan.disk]
    case isFalse hclean =>
      refine ⟨hscan.direct, fun k hk => ?_, hfreed, fun hf => absurd hf hfrees,
        fun _ => hscan.indirect, fun d _ => congrFun hscan.disk d, hscan.volume⟩
      have hsame : u.entry k = s.entry k := by
        simp only [SfsSt.entry, hscan.indirect, hscan.disk]
      rw [hsame]
      split
      case isTrue hpast =>
        exact hscan.clean (Bool.eq_false_iff.mpr hclean) k hk hpast
      case isFalse => rfl

/-- The length in blocks, rounded up -/
def blocksOf (len : Nat) : Nat := (len + blockSize - 1) / blockSize

theorem Consistent.wp_sfsTruncate (h : s.Consistent) (hok : ∀ i, s.ioErrors i = none) :
    wp (sfsTruncate len) (fun _ u => ∃ t, s.Cut (blocksOf len) t ∧ u = t.setSize len) E s := by
  simp only [sfsTruncate, wp_bind, wp_state, wp_doIf, wp_update]
  apply wp_mono_post h.wp_dropDirects
  intro _ t ht
  have hid : t.inode.indirect = s.inode.indirect := by
    obtain ⟨fd, dd, hrest⟩ := ht.rest
    rw [hrest]
  split
  case isTrue hlow =>
    rw [hid] at hlow
    apply wp_mono_post (h.wp_dropIndirect hok hlow.2 hlow.1 ht)
    exact fun _ u hu => ⟨u, hu, rfl⟩
  case isFalse hskip =>
    rw [hid] at hskip
    exact ⟨t, ht.cut hskip, rfl⟩

private theorem Cut.setSize (h : s.Cut blocklen t) (size : Nat) : s.Cut blocklen (t.setSize size) :=
  ⟨h.direct, h.entry, h.freed, h.emptied, h.kept, h.disk, h.volume⟩

theorem Consistent.truncates (h : s.Consistent) (hok : ∀ i, s.ioErrors i = none) (len : Nat) :
    ∃ t, sfsTruncate len s = some (.ok (), t) ∧ s.Cut (blocksOf len) t ∧ t.inode.size = len := by
  obtain ⟨r, u, hrun, hout⟩ := wp_elim (@Consistent.wp_sfsTruncate _ len (fun _ _ => False) h hok)
  cases r with
  | error e => exact hout.elim
  | ok a =>
    obtain ⟨t, hcut, rfl⟩ := hout
    exact ⟨_, hrun, hcut.setSize len, rfl⟩

theorem Cut.content (h : s.Cut blocklen t) (hs : s.Consistent) (x : Nat) :
    t.content x = if Drops blocklen (x / blockSize) then 0 else s.content x := by
  simp only [SfsSt.content, h.fileBlock]
  by_cases hdrop : Drops blocklen (x / blockSize)
  · simp only [if_pos hdrop, if_true]
  · simp only [if_neg hdrop]
    by_cases h0 : s.fileBlock (x / blockSize) = 0
    · simp only [if_pos h0]
    · have hne : s.fileBlock (x / blockSize) ≠ s.inode.indirect := by
        intro he
        have hsame := hs.distinct (some (x / blockSize)) none he h0
        cases hsame
      rw [if_neg h0, if_neg h0, h.disk _ hne]

/-- What stays in the file is what it was, and is not freed. -/
theorem Cut.ref_kept (h : s.Cut blocklen t) (hs : s.Consistent) {r : Option Nat}
    (h0 : t.ref r ≠ 0) : t.ref r = s.ref r ∧ ¬ s.FreedBlocks blocklen (s.ref r) := by
  cases r with
  | none =>
    have hno : ¬ s.FreesIndirect blocklen := fun hf => h0 (h.emptied hf)
    refine ⟨h.kept hno, ?_⟩
    rintro (⟨b, _, hb, he⟩ | ⟨hf, _⟩)
    · have hsame := hs.distinct (some b) none he hb
      cases hsame
    · exact hno hf
  | some b =>
    rw [ref_some, h.fileBlock b] at h0 ⊢
    have hdrop : ¬ Drops blocklen b := fun hd => h0 (if_pos hd)
    rw [if_neg hdrop] at h0 ⊢
    refine ⟨rfl, ?_⟩
    rintro (⟨b', hdrop', hb', he⟩ | ⟨hf, he⟩)
    · have hsame := hs.distinct (some b') (some b) he hb'
      exact hdrop (Option.some.inj hsame ▸ hdrop')
    · have hsame := hs.distinct none (some b) he hf.1
      cases hsame

/-- A freed block was a block of the file. -/
theorem FreedBlocks.ref (h : s.FreedBlocks blocklen x) : ∃ r, s.ref r = x ∧ s.ref r ≠ 0 := by
  cases h with
  | inl hdata =>
    obtain ⟨b, _, h0, he⟩ := hdata
    exact ⟨some b, he, h0⟩
  | inr hindirect => exact ⟨none, hindirect.2, hindirect.1.1⟩

theorem Cut.consistent (h : s.Cut blocklen t) (hs : s.Consistent) : t.Consistent := by
  obtain ⟨hn, hb, _, _⟩ := h.volume
  refine ⟨hn ▸ hs.small, by rw [hn, hb]; exact hs.bits, ?_, ?_, ?_, ?_⟩
  · rw [hn, hb]
    intro b hlo hhi
    apply (h.freed b).mpr
    refine ⟨hs.tail b hlo hhi, fun hf => ?_⟩
    obtain ⟨r, hr, h0⟩ := hf.ref
    have hused := (hs.used r h0).1
    omega
  · apply (h.freed 0).mpr
    refine ⟨hs.superblock, fun hf => ?_⟩
    obtain ⟨r, hr, h0⟩ := hf.ref
    exact h0 hr
  · intro r h0
    obtain ⟨hr, hfreed⟩ := h.ref_kept hs h0
    rw [hr] at h0 ⊢
    have hused := hs.used r h0
    exact ⟨hn ▸ hused.1, (h.freed _).mpr ⟨hused.2, hfreed⟩⟩
  · intro r r' he h0
    have hr := (h.ref_kept hs h0).1
    have hr' := (h.ref_kept hs (he ▸ h0)).1
    rw [hr] at he h0
    rw [hr'] at he
    exact hs.distinct r r' he h0

/-- What `sfs_truncate` should do. A block that is freed twice fails the assertion in
`bitmap_unmark`, so a block that became free was freed once. -/
structure Truncates (s : SfsSt) (len : Nat) (t : SfsSt) : Prop where
  unmapped : ∀ b, blocksOf len ≤ b → t.fileBlock b = 0
  freedData : ∀ b, blocksOf len ≤ b → s.fileBlock b ≠ 0 → t.freemap (s.fileBlock b) = false
  freedIndirect : (∃ b, nDirect ≤ b ∧ blocksOf len ≤ b ∧ s.fileBlock b ≠ 0) →
    (∀ b, nDirect ≤ b → b < blocksOf len → s.fileBlock b = 0) →
    t.freemap s.inode.indirect = false ∧ t.inode.indirect = 0
  freedOnly : ∀ x, s.freemap x ≠ t.freemap x → s.freemap x = true ∧
    ((∃ b, blocksOf len ≤ b ∧ s.fileBlock b = x) ∨
      x = s.inode.indirect ∧ ∀ b, nDirect ≤ b → t.fileBlock b = 0)
  below : ∀ x < min len s.inode.size, t.content x = s.content x
  size : t.inode.size = len
  extended : ∀ len', len ≤ len' → len' ≤ maxFileSize → ∀ t',
    sfsTruncate len' t = some (.ok (), t') → ∀ x, len ≤ x → x < len' → t'.content x = 0

/-- `sfs_truncate` returns 0 after it did what it should. -/
def TruncateSafe (s : SfsSt) (len : Nat) : Prop :=
  ∃ t, sfsTruncate len s = some (.ok (), t) ∧ s.Truncates len t

/-- The file has no block just past the cut in the range of the indirect block, and only zeros
between the cut and the end of the block that it falls into. -/
structure CutClean (s : SfsSt) (len : Nat) : Prop where
  next : nDirect ≤ blocksOf len → s.fileBlock (blocksOf len) = 0
  tail : ∀ x, len ≤ x → x < blocksOf len * blockSize → s.content x = 0

private theorem lt_blocksOf_iff : x / blockSize < blocksOf len ↔ x < blocksOf len * blockSize := by
  rw [Nat.div_lt_iff_lt_mul (by decide)]

private theorem blocksOf_le (hlen : len ≤ maxFileSize) : blocksOf len ≤ maxFileBlocks := by
  simp only [maxFileSize] at hlen
  rw [blocksOf, Nat.div_le_iff_le_mul_add_pred (by decide)]
  simp only [blockSize] at *
  omega

private theorem lt_blocksOf (hx : x < len) : x / blockSize < blocksOf len := by
  apply lt_blocksOf_iff.mpr
  simp only [blocksOf, blockSize]
  omega

private theorem not_drops (hb : b < blocklen) : ¬ Drops blocklen b := by
  simp only [Drops]
  omega

theorem drops_of_le (hb : blocklen ≤ b) (hne : nDirect ≤ blocklen → b ≠ blocklen) :
    Drops blocklen b := by
  simp only [Drops]
  omega

private theorem fileBlock_of_no_indirect (h0 : s.inode.indirect = 0) (hb : nDirect ≤ b) :
    s.fileBlock b = 0 := by
  have hno : ¬ b < nDirect := by omega
  simp only [SfsSt.fileBlock, SfsSt.entry, if_neg hno, if_pos h0, ite_self]

theorem lt_maxFileBlocks (hb : s.fileBlock b ≠ 0) : b < maxFileBlocks := by
  by_contra hmax
  have hno : ¬ b < nDirect := by
    simp only [maxFileBlocks] at hmax
    omega
  simp only [SfsSt.fileBlock, if_neg hno, if_neg hmax] at hb
  exact hb rfl

theorem CutClean.ne (hc : s.CutClean len) (hb : s.fileBlock b ≠ 0) (hge : nDirect ≤ blocksOf len) :
    b ≠ blocksOf len := by
  intro he
  rw [he] at hb
  exact hb (hc.next hge)

private theorem Cut.not_free (h : s.Cut blocklen t) (hx : s.FreedBlocks blocklen x) :
    t.freemap x = false := by
  rw [← Bool.not_eq_true, h.freed x]
  exact fun hf => hf.2 hx

private theorem CutClean.freesIndirect (hc : s.CutClean len)
    (hdrop : ∃ b, nDirect ≤ b ∧ blocksOf len ≤ b ∧ s.fileBlock b ≠ 0)
    (hrest : ∀ b, nDirect ≤ b → b < blocksOf len → s.fileBlock b = 0) :
    s.FreesIndirect (blocksOf len) := by
  obtain ⟨b, hb, hlen, h0⟩ := hdrop
  have hmax := lt_maxFileBlocks h0
  have hne := hc.ne h0
  simp only [maxFileBlocks] at hmax
  refine ⟨fun hid => h0 (fileBlock_of_no_indirect hid hb), by omega, fun k hk hin => ?_⟩
  rw [← ref_entry hk, ref_some]
  by_cases he : nDirect + k = blocksOf len
  · rw [he]
    exact hc.next (by omega)
  · exact hrest _ (Nat.le_add_right ..) (by omega)

theorem Cut.content_past (h : s.Cut (blocksOf len) t) (hs : s.Consistent) (hc : s.CutClean len)
    (hx : len ≤ x) : t.content x = 0 := by
  rw [h.content hs]
  split
  case isTrue => rfl
  case isFalse hkeep =>
    by_cases hin : x / blockSize < blocksOf len
    · exact hc.tail x hx (lt_blocksOf_iff.mp hin)
    · have hlast : s.fileBlock (x / blockSize) = 0 := by
        by_contra h0
        exact hkeep (drops_of_le (by omega) fun hge => hc.ne h0 hge)
      simp only [SfsSt.content, if_pos hlast]

private theorem Cut.truncates (h : s.Cut (blocksOf len) t) (hs : s.Consistent) (hok : ∀ i, s.ioErrors i = none)
    (hsize : t.inode.size = len) (hc : s.CutClean len) : s.Truncates len t where
  unmapped b hb := by
    rw [h.fileBlock b]
    split
    case isTrue => rfl
    case isFalse hkeep =>
      by_contra h0
      exact hkeep (drops_of_le hb fun hge => hc.ne h0 hge)
  freedData b hb h0 :=
    h.not_free (Or.inl ⟨b, drops_of_le hb fun hge => hc.ne h0 hge, h0, rfl⟩)
  freedIndirect hdrop hrest := by
    have hf := hc.freesIndirect hdrop hrest
    exact ⟨h.not_free (Or.inr ⟨hf, rfl⟩), h.emptied hf⟩
  freedOnly x hx := by
    have hiff := h.freed x
    have htrue : s.freemap x = true ∧ s.FreedBlocks (blocksOf len) x := by
      cases hs' : s.freemap x <;> cases ht' : t.freemap x <;> simp [hs', ht'] at hx hiff ⊢
      exact hiff
    refine ⟨htrue.1, ?_⟩
    cases htrue.2 with
    | inl hdata =>
      obtain ⟨b, hdrop, _, he⟩ := hdata
      refine Or.inl ⟨b, ?_, he⟩
      simp only [Drops] at hdrop
      omega
    | inr hindirect =>
      exact Or.inr ⟨hindirect.2.symm,
        fun b hb => fileBlock_of_no_indirect (h.emptied hindirect.1) hb⟩
  below x hx := by
    have hlt : x < len := by omega
    rw [h.content hs, if_neg (not_drops (lt_blocksOf hlt))]
  size := hsize
  extended := by
    intro len' hlen _ t' hrun x hlo hhi
    have hok' : ∀ i, t.ioErrors i = none := by
      rw [h.volume.2.2.1]
      exact hok
    obtain ⟨t'', hrun', hcut', _⟩ := (h.consistent hs).truncates hok' len'
    obtain ⟨_, rfl⟩ := Prod.mk.inj (Option.some.inj (hrun.symm.trans hrun'))
    rw [hcut'.content (h.consistent hs)]
    split
    case isTrue => rfl
    case isFalse => exact h.content_past hs hc hlo

theorem Cut.cutClean (h : s.Cut (blocksOf len) t) (hs : s.Consistent)
    (hok : ∀ i, s.ioErrors i = none) (hlen : len ≤ maxFileSize) (ht : s.Truncates len t) :
    s.CutClean len where
  next hge := by
    have hun := ht.unmapped _ (Nat.le_refl _)
    rw [h.fileBlock, if_neg fun hd => Nat.lt_irrefl _ ((drops_entry hge).mp hd)] at hun
    exact hun
  tail x hlo hhi := by
    have hok' : ∀ i, t.ioErrors i = none := by
      rw [h.volume.2.2.1]
      exact hok
    have hmax : x < maxFileSize :=
      Nat.lt_of_lt_of_le hhi (Nat.mul_le_mul_right _ (blocksOf_le hlen))
    obtain ⟨t', hrun, hcut, _⟩ := (h.consistent hs).truncates hok' maxFileSize
    have hzero := ht.extended maxFileSize hlen (Nat.le_refl _) t' hrun x hlo hmax
    rw [hcut.content (h.consistent hs), if_neg (not_drops (lt_blocksOf hmax)), h.content hs,
      if_neg (not_drops (lt_blocksOf_iff.mpr hhi))] at hzero
    exact hzero

private theorem Consistent.truncateSafe_iff (h : s.Consistent) (hok : ∀ i, s.ioErrors i = none)
    (hlen : len ≤ maxFileSize) : s.TruncateSafe len ↔ s.CutClean len := by
  obtain ⟨t, hrun, hcut, hsize⟩ := h.truncates hok len
  constructor
  · rintro ⟨t', hrun', ht⟩
    obtain ⟨_, rfl⟩ := Prod.mk.inj (Option.some.inj (hrun.symm.trans hrun'))
    exact hcut.cutClean h hok hlen ht
  · intro hc
    exact ⟨t, hrun, hcut.truncates h hok hsize hc⟩

/-- `sfs_truncate` does what it should if and only if the file is clean at the cut. -/
theorem truncate_safe_iff (s : SfsSt) (len : Nat) (h : s.Consistent)
    (hok : ∀ i, s.ioErrors i = none) (hlen : len ≤ maxFileSize) :
    s.TruncateSafe len ↔ s.CutClean len :=
  h.truncateSafe_iff hok hlen

/-- A file with one block, the first one in its indirect block. -/
def indirectFile : SfsSt :=
  { sparseFile 0 with
    disk := Function.update (fun _ => zeros) 5 (ByteStore.setWord zeros 0 6)
    inode := ⟨8192, fun _ => 0, 5⟩ }

private theorem indirectFile_entry (k : Nat) : indirectFile.entry k = if k = 0 then 6 else 0 := by
  have hid : indirectFile.inode.indirect = 5 := rfl
  have hdisk : indirectFile.disk 5 = ByteStore.setWord zeros 0 6 := by
    show Function.update (fun _ => zeros) 5 (ByteStore.setWord zeros 0 6) 5 = _
    rw [Function.update_self]
  rw [SfsSt.entry, hid, if_neg (by decide), hdisk]
  split
  case isTrue h0 =>
    rw [h0]
    exact ByteStore.word_setWord_self _ _ (by decide)
  case isFalse h0 =>
    rw [ByteStore.word_setWord_of_disjoint (by omega), zeros_word]

private theorem indirectFile_ref (r : Option Nat) : indirectFile.ref r =
    if r = none then 5 else if r = some nDirect then 6 else 0 := by
  cases r with
  | none => rfl
  | some b =>
    simp only [ref, SfsSt.fileBlock, indirectFile_entry, Option.some.injEq, reduceCtorEq, if_false]
    by_cases hb : b < nDirect
    · have hne : b ≠ nDirect := by omega
      rw [if_pos hb, if_neg hne]
      rfl
    · by_cases he : b = nDirect
      · subst he
        rfl
      · have hsub : b - nDirect ≠ 0 := by omega
        rw [if_neg hb, if_neg he, if_neg hsub, ite_self]

private theorem indirectFile_consistent : indirectFile.Consistent where
  small := by show 8 ≤ maxBlocks; decide
  bits := Nat.le_refl _
  tail _ _ _ := rfl
  superblock := rfl
  used r _ := by
    refine ⟨?_, rfl⟩
    rw [indirectFile_ref]
    show (if r = none then 5 else if r = some nDirect then 6 else 0) < 8
    split
    · decide
    · split <;> decide
  distinct r r' he h0 := by
    simp only [indirectFile_ref] at he h0
    by_cases hn : r = none <;> by_cases hn' : r' = none <;>
      by_cases hs : r = some nDirect <;> by_cases hs' : r' = some nDirect <;>
        simp [hn, hn', hs, hs'] at he h0 ⊢

theorem truncate_safe_to_zero : indirectFile.TruncateSafe 0 :=
  (truncate_safe_iff indirectFile 0 indirectFile_consistent (fun _ => rfl) (Nat.zero_le _)).mpr
    ⟨fun h => absurd h (by decide), fun x _ hx => absurd hx (by simp [blocksOf, blockSize])⟩

/-- Cut to 15 blocks, the file keeps its sixteenth. -/
theorem truncate_keeps_block : ¬ ∀ (s : SfsSt) (len : Nat), s.Consistent →
    (∀ i, s.ioErrors i = none) → len ≤ maxFileSize → s.TruncateSafe len := by
  intro hall
  have hsafe := hall indirectFile (nDirect * blockSize) indirectFile_consistent (fun _ => rfl)
    (by decide)
  have hclean := (indirectFile_consistent.truncateSafe_iff (fun _ => rfl) (by decide)).mp hsafe
  have hlen : blocksOf (nDirect * blockSize) = nDirect := by decide
  have hnext := hclean.next (by rw [hlen])
  rw [hlen, ← ref_some, indirectFile_ref] at hnext
  exact absurd hnext (by decide)

end SfsSt

end CseOs.Kernel.Sfs
