import CseOs.Framework.SlotTable
import CseOs.Kernel.Sfs.Creation
import CseOs.Kernel.Sfs.Layout
import CseOs.Kernel.Sfs.Shortage

/-!
# The entries of the directory

The directory is a table of slots. What `sfs_dir_findname` finds, `sfs_dir_link` puts and `sfs_dir_unlink`
clears are slots of that table, and a link that fails has changed none.
-/

namespace CseOs.Kernel.Sfs

open Framework Prog

namespace Volume

/-- `sfs_dir_link`, with the slot that it hands back -/
def dirLinkSlot (dir : Nat) (name : List UInt8) (ino : Nat) : Prog Volume Errno Nat := do
  let scan ← dirFindname dir name
  raiseIf (scan.found.isSome = true) .eexist
  raiseIf (nameLen < name.length + 1) .enametoolong
  let slot ← match scan.emptyslot with
    | some slot => pure slot
    | none => dirNentries dir
  writedir dir (dirent ino name) slot
  return slot

/-- `sfs_dir_unlink` -/
def dirUnlink (dir slot : Nat) : Prog Volume Errno Unit := writedir dir zeros slot

/-- The file `f` was revised: its content, its size and the blocks that it refers to, and nothing else. -/
structure Revised (v : Volume) (f : Nat) (content : Nat → UInt8) (size : Nat) (v' : Volume) : Prop where
  consistent : (v'.file f idle).Consistent
  fair : (v.file f idle).Fair (v'.file f idle)
  steady : (v.file f idle).Steady (v'.file f idle)
  others : ∀ g, g ≠ f → v'.vnode g = v.vnode g
  type : (v'.vnode f).type = (v.vnode f).type
  linkcount : (v'.vnode f).linkcount = (v.vnode f).linkcount
  content : v'.content f = content
  size : (v'.vnode f).inode.size = size

variable {v v' v'' : Volume} {s u : SfsSt} {w : Transfer} {dir f ino k n m : Nat} {name : List UInt8}
  {scan : DirScan} {sd : ByteStore} {bytes bytes' : Nat → UInt8} {E : Errno → Volume → Prop}

private theorem fair_of_file : (v.file f idle).Fair (v.file f w) := SfsSt.fair_setReq (s := v.file f idle) (w := w)

theorem revised_setFile (hu : u.Consistent) (hfair : (v.file f w).Fair u) (hsteady : (v.file f w).Steady u) :
    v.Revised f u.content u.inode.size (v.setFile f u) where
  consistent := by
    rw [file_setFile]
    exact hu.of_ref rfl rfl rfl fun _ hx => hx
  fair := by
    rw [file_setFile]
    exact (fair_of_file.trans hfair).trans SfsSt.fair_setReq
  steady := by
    rw [file_setFile]
    have hstart : (v.file f idle).Steady (v.file f w) := SfsSt.Steady.of_eq rfl rfl rfl rfl rfl rfl rfl
    exact SfsSt.Steady.trans _ _ _ (SfsSt.Steady.trans _ _ _ hstart hsteady) SfsSt.Steady.setReq
  others g hne := vnode_setFile_of_ne hne
  type := by simp only [setFile, setVnode, Function.update_self]
  linkcount := by simp only [setFile, setVnode, Function.update_self]
  content := by
    rw [Volume.content, file_setFile]
    rfl
  size := by simp only [setFile, setVnode, Function.update_self]

private theorem Revised.trans (h : v.Revised f bytes n v') (h' : v'.Revised f bytes' m v'') :
    v.Revised f bytes' m v'' where
  consistent := h'.consistent
  fair := h.fair.trans h'.fair
  steady := SfsSt.Steady.trans _ _ _ h.steady h'.steady
  others g hne := (h'.others g hne).trans (h.others g hne)
  type := h'.type.trans h.type
  linkcount := h'.linkcount.trans h.linkcount
  content := h'.content
  size := h'.size

theorem Quiet.revised (hq : v.Quiet v') (h : (v.file f idle).Consistent) :
    v.Revised f (v.content f) (v.vnode f).inode.size v' := by
  obtain ⟨k, rfl⟩ := hq
  have hfair : (v.file f idle).Fair ((v.countIos k).file f idle) :=
    SfsSt.fair_of_ref (fun _ _ => rfl) rfl rfl rfl
  exact ⟨h.of_ref rfl rfl rfl fun _ hx => hx, hfair, SfsSt.Steady.of_eq rfl rfl rfl rfl rfl rfl rfl,
    fun _ _ => rfl, rfl, rfl, rfl, rfl⟩

/-- What is in a directory entry -/
def direntry (sd : ByteStore) : Option (List UInt8 × Nat) :=
  if sd.word 0 = 0 then none else some (sfdName sd, sd.word 0)

/-- The slots of the directory -/
def slots (v : Volume) (dir : Nat) : SlotTable (List UInt8) Nat :=
  (List.range ((v.vnode dir).inode.size / direntSize)).map fun k => direntry (v.entry dir k)

private theorem direntry_congr {sd' : ByteStore} (h : ∀ i < direntSize, sd' i = sd i) : direntry sd' = direntry sd := by
  obtain ⟨hword, hname⟩ := entry_congr h
  rw [direntry, direntry, hword, hname]

private theorem direntry_eq_some : direntry sd = some (name, ino) ↔ sd.word 0 = ino ∧ ino ≠ 0 ∧ sfdName sd = name := by
  simp only [direntry, Option.ite_none_left_eq_some, Option.some.injEq, Prod.mk.injEq]
  constructor
  · rintro ⟨h0, hname, rfl⟩
    exact ⟨rfl, h0, hname⟩
  · rintro ⟨rfl, h0, hname⟩
    exact ⟨h0, hname, rfl⟩

private theorem direntry_eq_none : direntry sd = none ↔ sd.word 0 = 0 := by
  rw [direntry]
  split <;> simp_all

private theorem direntry_dirent (h0 : 0 ∉ name) (hlen : name.length < nameLen) (hino : ino ≠ 0) (hlt : ino < 2 ^ 32) :
    direntry (dirent ino name) = some (name, ino) :=
  direntry_eq_some.mpr ⟨word_dirent hlt, hino, sfdName_dirent h0 hlen⟩

private theorem direntry_zeros : direntry zeros = none := direntry_eq_none.mpr (zeros_word 0)

theorem length_slots : (v.slots dir).length = (v.vnode dir).inode.size / direntSize := by
  rw [slots, List.length_map, List.length_range]

private theorem getElem?_slots : (v.slots dir)[k]? =
    if k < (v.vnode dir).inode.size / direntSize then some (direntry (v.entry dir k)) else none := by
  rw [slots, List.getElem?_map]
  by_cases hk : k < (v.vnode dir).inode.size / direntSize
  · rw [List.getElem?_range hk, if_pos hk]
    rfl
  · rw [List.getElem?_eq_none (by rw [List.length_range]; omega), if_neg hk]
    rfl

theorem at_slots : SlotTable.At (v.slots dir) k name ino ↔ v.EntryAt dir k name ino := by
  rw [SlotTable.At, getElem?_slots]
  constructor
  · intro h
    rw [Option.ite_none_right_eq_some, Option.some.injEq, direntry_eq_some] at h
    exact ⟨h.1, h.2.1, h.2.2.1, h.2.2.2⟩
  · intro h
    rw [if_pos h.lt, direntry_eq_some.mpr ⟨h.links, h.ne_zero, h.name⟩]

theorem Directory.distinct (h : v.Directory dir) : SlotTable.Distinct (v.slots dir) :=
  fun i j name a b hi hj => h.unique i j name a b (at_slots.mp hi) (at_slots.mp hj)

theorem slots_congr (hcontent : v'.content dir = v.content dir)
    (hsize : (v'.vnode dir).inode.size = (v.vnode dir).inode.size) : v'.slots dir = v.slots dir := by
  have hentry : v'.entry dir = v.entry dir := by
    funext k i
    rw [entry, entry, hcontent]
  rw [slots, slots, hsize, hentry]

theorem slots_put (hsize : (v.vnode dir).inode.size % direntSize = 0)
    (hk : k ≤ (v.vnode dir).inode.size / direntSize)
    (hcontent : v'.content dir = ByteStore.blit (v.content dir) (k * direntSize) direntSize sd 0)
    (hsize' : (v'.vnode dir).inode.size = max (v.vnode dir).inode.size (k * direntSize + direntSize)) :
    v'.slots dir = SlotTable.put k (direntry sd) (v.slots dir) := by
  have hn : (v'.vnode dir).inode.size / direntSize = max ((v.vnode dir).inode.size / direntSize) (k + 1) := by
    rw [hsize']
    simp only [direntSize] at *
    omega
  apply List.ext_getElem?
  intro j
  rw [SlotTable.getElem?_put (length_slots.symm ▸ hk), getElem?_slots, getElem?_slots, hn]
  by_cases hj : j = k
  · subst hj
    have hin : j < max ((v.vnode dir).inode.size / direntSize) (j + 1) := by omega
    have hslot : direntry (v'.entry dir j) = direntry sd := by
      apply direntry_congr
      intro i hi
      rw [entry, hcontent, ByteStore.blit_of_inside hi, Nat.zero_add]
    rw [if_pos hin, if_pos rfl, hslot]
  · have hin : j < max ((v.vnode dir).inode.size / direntSize) (k + 1) ↔
        j < (v.vnode dir).inode.size / direntSize := by omega
    have hslot : direntry (v'.entry dir j) = direntry (v.entry dir j) := by
      apply direntry_congr
      intro i hi
      rw [entry, entry, hcontent, ByteStore.blit_of_outside]
      simp only [direntSize] at *
      omega
    simp only [hin, if_neg hj, hslot]

/-- What a scan of the directory tells -/
structure Located (v : Volume) (dir : Nat) (name : List UInt8) (scan : DirScan) : Prop where
  found : ∀ ino k, scan.found = some (ino, k) ↔ SlotTable.At (v.slots dir) k name ino
  vacant : ∀ k, scan.emptyslot = some k → SlotTable.Vacant (v.slots dir) k

theorem Readable.wlpe_scanSlots (h : v.Readable dir) (hn : n ≤ (v.vnode dir).inode.size / direntSize) :
    wlpe (scanSlots dir name n)
      (fun scan v' => v.Quiet v' ∧ ∀ k, scan.emptyslot = some k → k < n ∧ direntry (v.entry dir k) = none)
      (fun _ _ => True) v := by
  induction n with
  | zero =>
    refine ⟨.refl v, fun k hk => ?_⟩
    cases hk
  | succ n ih =>
    simp only [scanSlots, scanSlot, wlpe_bind]
    apply wlpe_mono_post (ih (by omega))
    intro scan v' ht
    obtain ⟨⟨i, rfl⟩, hempty⟩ := ht
    have hbefore (k : Nat) (hk : scan.emptyslot = some k) : k < n + 1 ∧ direntry (v.entry dir k) = none :=
      ⟨Nat.lt_succ_of_lt (hempty k hk).1, (hempty k hk).2⟩
    apply wlpe_mono_post (wlpe_of_wp ((h.countIos i).wp_readdir (E := fun _ _ => True) hn))
    intro tsd v'' ht'
    obtain ⟨hquiet, hword, _⟩ := ht'
    have hquiet' : v.Quiet v'' := Quiet.trans ⟨i, rfl⟩ hquiet
    simp only [wlpe_ite, wlpe_bind, wlpe_check, wlpe_pure]
    split
    case isTrue h0 =>
      refine ⟨hquiet', fun k hk => ?_⟩
      cases hk
      exact ⟨Nat.lt_succ_self n, direntry_eq_none.mpr (hword.symm.trans h0)⟩
    case isFalse =>
      split
      case isTrue => exact fun _ => ⟨hquiet', hbefore⟩
      case isFalse => exact ⟨hquiet', hbefore⟩

/-- The directory is looked through. -/
theorem Directory.wp_locate (hd : v.Directory dir) (h : v.Readable dir) :
    wp (dirFindname dir name) (fun scan v' => v.Quiet v' ∧ v.Located dir name scan) E v := by
  rw [dirFindname, wp_bind, hd.wp_dirNentries]
  apply wp_mono (wp_and_wlpe (hd.wp_scanSlots h (Nat.le_refl _)) (h.wlpe_scanSlots (Nat.le_refl _)))
  · intro scan v' ht
    obtain ⟨⟨hquiet, hscan⟩, _, hempty⟩ := ht
    refine ⟨hquiet, fun ino k => ?_, fun k hk => ?_⟩
    · rw [hscan ino k, at_slots]
      exact ⟨And.right, fun he => ⟨he.lt, he⟩⟩
    · obtain ⟨hlt, hnone⟩ := hempty k hk
      refine ⟨?_, fun name ino hat => ?_⟩
      · rw [length_slots]
        omega
      · rw [SlotTable.At, getElem?_slots, if_pos hlt, hnone] at hat
        cases hat
  · exact fun _ _ he => he.1

theorem Located.lookup (h : v.Located dir name scan) (hd : v.Directory dir) :
    SlotTable.lookup name (v.slots dir) = scan.found.map Prod.fst := by
  cases hf : scan.found with
  | none =>
    apply SlotTable.lookup_eq_none.mpr
    intro k ino hat
    rw [← h.found, hf] at hat
    cases hat
  | some p =>
    apply hd.distinct.lookup_eq_some.mpr
    exact ⟨p.2, (h.found p.1 p.2).mp hf⟩

/-- `n` bytes of a request were written to a file. -/
structure Stores (v : Volume) (f : Nat) (w : Transfer) (n : Nat) (v' : Volume) : Prop where
  revised : v.Revised f (ByteStore.blit (v.content f) w.uio.offset n w.mem w.uio.iovBase)
    (max (v.vnode f).inode.size (w.uio.offset + n)) v'
  le : n ≤ w.uio.resid
  fits : w.uio.offset + n ≤ maxFileSize

private theorem stores_of_written (h : (v.file f w).Written n u) (hsteady : (v.file f w).Steady u) :
    v.Stores f w n (v.setFile f u) := by
  have hrevised := revised_setFile h.consistent h.fair hsteady
  rw [h.content, h.size] at hrevised
  exact ⟨hrevised, h.le, h.fits⟩

private theorem Readable.canWrite (h : v.Readable f) (hw : w.Room) (hrw : w.uio.rw = .write) :
    (v.file f w).CanWrite :=
  ⟨consistent_file h.consistent, hw, hrw⟩

/-- Every block of the volume is in use. -/
def Full (v : Volume) : Prop := ∀ b < v.nbits, v.freemap b = true

/-- Why a write stops after `n` bytes of its request -/
inductive StopsFor (w : Transfer) (n : Nat) (v : Volume) : Errno → Prop
  | space (h : v.Full) : StopsFor w n v .enospc
  | size (h : maxFileSize ≤ w.uio.offset + n) : StopsFor w n v .einval
  | memory (h : ¬ w.NoFaults) : StopsFor w n v .efault

private theorem stopsFor_of_lacks {e : Errno} (h : SfsSt.Lacks (¬ w.NoFaults) u e) (huio : u.req.uio = w.uio.advance n) :
    StopsFor w n (v.setFile f u) e := by
  cases h with
  | space h =>
    refine .space fun b hb => ?_
    have hset : u.freemap b = true := by simpa using List.find?_eq_none.mp h b (List.mem_range.mpr hb)
    exact hset
  | size h =>
    refine .size ?_
    rw [huio] at h
    exact h
  | memory h => exact .memory h

/-- A write on a disk that works stores its bytes, or some of the first of them. -/
theorem Readable.wp_write (h : v.Readable f) (hw : w.Room) (hrw : w.uio.rw = .write)
    (hoff : w.uio.offset ≤ maxFileSize) : wp (fileIo f w SfsSt.sfsIo)
      (fun ku v' => (ku.uio = w.uio.advance w.uio.resid ∧ ku.mem = w.mem) ∧ v.Stores f w w.uio.resid v')
      (fun e v' => ∃ n, (v.file f w).Breaks n ∧ v.Stores f w n v' ∧ StopsFor w n v' e) v := by
  have hcan := h.canWrite hw hrw
  have hcalm : (v.file f w).Calm (¬ w.NoFaults) := ⟨h.errors, fun hno => not_not.mp hno⟩
  rw [wp_fileIo]
  apply wp_mono (wp_and_wlpe (hcan.wp_sfsIo h.errors h.size hoff) (wlpe_and (SfsSt.marks_sfsIo _) (hcalm.wlpe_write hrw)))
  · exact fun _ u hu => ⟨⟨hu.1.uio, hu.1.mem⟩, stores_of_written hu.1 hu.2.1⟩
  · intro e u hu
    obtain ⟨⟨n, hbreaks, hwritten⟩, hsteady, hlacks⟩ := hu
    exact ⟨n, hbreaks, stores_of_written hwritten hsteady, stopsFor_of_lacks hlacks hwritten.uio⟩

/-- The directory was revised, and its slots now are those of `t`. -/
structure Relinked (v : Volume) (dir : Nat) (t : SlotTable (List UInt8) Nat) (v' : Volume) : Prop where
  revised : v.Revised dir (v'.content dir) (v'.vnode dir).inode.size v'
  slots : v'.slots dir = t
  whole : (v'.vnode dir).inode.size % direntSize = 0
  fits : (v'.vnode dir).inode.size ≤ maxFileSize
  blank : (∀ x, (v.vnode dir).inode.size ≤ x → v.content dir x = 0) →
    ∀ x, (v'.vnode dir).inode.size ≤ x → v'.content dir x = 0

private theorem Quiet.relinked (hq : v.Quiet v') (h : v.Readable dir)
    (hsize : (v.vnode dir).inode.size % direntSize = 0) : v.Relinked dir (v.slots dir) v' := by
  have hrevised := hq.revised h.consistent
  obtain ⟨k, rfl⟩ := hq
  exact ⟨hrevised, rfl, hsize, h.size, id⟩

private theorem Relinked.of_quiet {t : SlotTable (List UInt8) Nat} (h : v'.Relinked dir t v'') (hq : v.Quiet v')
    (hc : (v.file dir idle).Consistent) : v.Relinked dir t v'' := by
  have hrevised := (hq.revised hc).trans h.revised
  obtain ⟨k, rfl⟩ := hq
  exact ⟨hrevised, h.slots, h.whole, h.fits, h.blank⟩

theorem direntSize_room : (kuio sd direntSize (k * direntSize) .write).Room := kuio_room (by decide)

private theorem Stores.relinked (h : v.Stores dir (kuio sd direntSize (k * direntSize) .write) direntSize v')
    (hsize : (v.vnode dir).inode.size % direntSize = 0) (hmax : (v.vnode dir).inode.size ≤ maxFileSize)
    (hk : k ≤ (v.vnode dir).inode.size / direntSize) :
    v.Relinked dir (SlotTable.put k (direntry sd) (v.slots dir)) v' := by
  have hcontent := h.revised.content
  have hsize' : (v'.vnode dir).inode.size = max (v.vnode dir).inode.size (k * direntSize + direntSize) :=
    h.revised.size
  have hfits : k * direntSize + direntSize ≤ maxFileSize := h.fits
  refine ⟨?_, slots_put hsize hk hcontent hsize', ?_, ?_, fun hblank x hx => ?_⟩
  · rw [hcontent, hsize']
    exact h.revised
  · rw [hsize']
    simp only [direntSize] at *
    omega
  · rw [hsize']
    omega
  · rw [hsize'] at hx
    rw [hcontent, ByteStore.blit_of_outside]
    · exact hblank x (by omega)
    · exact .inr (by show k * direntSize + direntSize ≤ x; omega)

theorem slot_offset (hsize : (v.vnode dir).inode.size ≤ maxFileSize)
    (hk : k ≤ (v.vnode dir).inode.size / direntSize) :
    k * direntSize ≤ (v.vnode dir).inode.size ∧ k * direntSize ≤ maxFileSize := by
  have hle := Nat.mul_le_mul_right direntSize hk
  have hdiv := Nat.div_mul_le_self (v.vnode dir).inode.size direntSize
  omega

/-- Why there is no room for another entry -/
inductive NoRoom (t : SlotTable (List UInt8) Nat) (v : Volume) : Errno → Prop
  | space (h : v.Full) : NoRoom t v .enospc
  | size (h : maxFileSize ≤ t.length * direntSize) : NoRoom t v .einval

theorem Readable.wp_writedir (h : v.Readable dir) (hsize : (v.vnode dir).inode.size % direntSize = 0)
    (hk : k ≤ (v.vnode dir).inode.size / direntSize) : wp (writedir dir sd k)
      (fun _ v' => v.Relinked dir (SlotTable.put k (direntry sd) (v.slots dir)) v')
      (fun e v' => NoRoom (v.slots dir) v' e ∧ v.Relinked dir (v.slots dir) v') v := by
  obtain ⟨hstart, hoff⟩ := slot_offset h.size hk
  simp only [writedir, wp_bind, wp_ite, wp_diverge, wp_pure]
  apply wp_mono (h.wp_write direntSize_room rfl hoff)
  · intro ku v' ht
    obtain ⟨⟨huio, _⟩, hstores⟩ := ht
    have hres : ku.uio.resid = 0 := by
      rw [huio, Uio.advance_resid direntSize_room.lt (Nat.le_refl _), Nat.sub_self]
    rw [if_neg (by omega)]
    exact hstores.relinked hsize h.size hk
  · intro e v' ht
    obtain ⟨n, hbreaks, hstores, hstops⟩ := ht
    have hn : n = 0 := by
      cases hbreaks with
      | inl h0 => exact h0
      | inr hbreak =>
        obtain ⟨hlt, hblock⟩ := hbreak
        have hlt' : n < direntSize := hlt
        have hblock' : (k * direntSize + n) % blockSize = 0 := hblock
        simp only [direntSize, blockSize] at *
        omega
    subst hn
    have hrevised := hstores.revised
    rw [ByteStore.blit_none] at hrevised
    have hsame : max (v.vnode dir).inode.size (k * direntSize + 0) = (v.vnode dir).inode.size := by omega
    have hsize' : (v'.vnode dir).inode.size = (v.vnode dir).inode.size := hrevised.size.trans hsame
    have hroom : NoRoom (v.slots dir) v' e := by
      cases hstops with
      | space h => exact .space h
      | size hend =>
        have hend' : maxFileSize ≤ k * direntSize := hend
        have hk' : k ≤ (v.slots dir).length := length_slots.symm ▸ hk
        exact .size (Nat.le_trans hend' (Nat.mul_le_mul_right direntSize hk'))
      | memory hfaults =>
        have hno : (kuio sd direntSize (k * direntSize) .write).NoFaults := fun _ => rfl
        exact absurd hno hfaults
    refine ⟨hroom, ?_, slots_congr hrevised.content hsize', hsize' ▸ hsize, hsize' ▸ h.size, fun hblank x hx => ?_⟩
    · rw [hrevised.content, hsize', ← hsame]
      exact hrevised
    · rw [hrevised.content]
      exact hblank x (hsize' ▸ hx)

/-- Why a name cannot be linked: it is there, or too long, or there is no room. -/
def LinkFails (t : SlotTable (List UInt8) Nat) (name : List UInt8) (v : Volume) (e : Errno) : Prop :=
  if (SlotTable.lookup name t).isSome then e = .eexist
  else if nameLen ≤ name.length then e = .enametoolong
  else NoRoom t v e

/-- A new name is put into a vacant slot, or the directory has the entries it had. -/
theorem Directory.wp_dirLinkSlot (hd : v.Directory dir) (h : v.Readable dir) (hname : 0 ∉ name)
    (hino : ino ≠ 0) (hlt : ino < 2 ^ 32) : wp (dirLinkSlot dir name ino)
      (fun k v' => SlotTable.lookup name (v.slots dir) = none ∧ SlotTable.Vacant (v.slots dir) k ∧
        name.length < nameLen ∧ v.Relinked dir (SlotTable.put k (some (name, ino)) (v.slots dir)) v')
      (fun e v' => LinkFails (v.slots dir) name v' e ∧ v.Relinked dir (v.slots dir) v') v := by
  simp only [dirLinkSlot, wp_bind]
  apply wp_mono_post (hd.wp_locate h)
  intro scan v₁ ht
  obtain ⟨hquiet, hlocated⟩ := ht
  have hlookup := hlocated.lookup hd
  have hsame := hquiet.relinked h hd.size
  simp only [wp_raiseIf]
  split
  case isTrue hfound =>
    refine ⟨?_, hsame⟩
    have hsome : (SlotTable.lookup name (v.slots dir)).isSome = true := by
      rw [hlookup, Option.isSome_map, hfound]
    rw [LinkFails, if_pos hsome]
  case isFalse hfound =>
    have hnone : SlotTable.lookup name (v.slots dir) = none := by
      rw [hlookup, Option.not_isSome_iff_eq_none.mp hfound]
      rfl
    have hsome : ¬ (SlotTable.lookup name (v.slots dir)).isSome = true := by simp [hnone]
    split
    case isTrue hlong =>
      refine ⟨?_, hsame⟩
      rw [LinkFails, if_neg hsome, if_pos (by omega)]
    case isFalse hlong =>
      have hshort : name.length < nameLen := by omega
      have hput (k : Nat) (hv : SlotTable.Vacant (v.slots dir) k) : wp (writedir dir (dirent ino name) k)
          (fun _ v' => SlotTable.lookup name (v.slots dir) = none ∧ SlotTable.Vacant (v.slots dir) k ∧
            name.length < nameLen ∧ v.Relinked dir (SlotTable.put k (some (name, ino)) (v.slots dir)) v')
          (fun e v' => LinkFails (v.slots dir) name v' e ∧ v.Relinked dir (v.slots dir) v') v₁ := by
        obtain ⟨i, rfl⟩ := hquiet
        have hk : k ≤ ((v.countIos i).vnode dir).inode.size / direntSize := length_slots (v := v) ▸ hv.1
        have hentry := direntry_dirent hname hshort hino hlt
        have hwrite : wp (writedir dir (dirent ino name) k)
            (fun _ v' => (v.countIos i).Relinked dir
              (SlotTable.put k (direntry (dirent ino name)) ((v.countIos i).slots dir)) v')
            (fun e v' => NoRoom (v.slots dir) v' e ∧ (v.countIos i).Relinked dir ((v.countIos i).slots dir) v')
            (v.countIos i) :=
          (h.countIos i).wp_writedir hd.size hk
        apply wp_mono hwrite
        · intro _ v' hv'
          rw [hentry] at hv'
          exact ⟨hnone, hv, hshort, hv'.of_quiet ⟨i, rfl⟩ h.consistent⟩
        · intro e v' hv'
          refine ⟨?_, hv'.2.of_quiet ⟨i, rfl⟩ h.consistent⟩
          rw [LinkFails, if_neg hsome, if_neg (Nat.not_le.mpr hshort)]
          exact hv'.1
      cases he : scan.emptyslot with
      | some k =>
        simp only [wp_bind, wp_pure]
        exact hput k (hlocated.vacant k he)
      | none =>
        obtain ⟨i, rfl⟩ := hquiet
        have hd' : (v.countIos i).Directory dir := hd.of_content rfl rfl rfl
        simp only [wp_bind, hd'.wp_dirNentries, wp_pure]
        apply hput
        refine ⟨Nat.le_of_eq length_slots.symm, fun name ino hat => ?_⟩
        have hlt := hat.lt
        rw [length_slots] at hlt
        exact Nat.lt_irrefl _ hlt

theorem EntryAt.held (h : v.EntryAt dir k name ino) : (v.file dir w).fileBlock (k * direntSize / blockSize) ≠ 0 := by
  intro h0
  apply h.ne_zero
  rw [← h.links]
  have hzero (i : Nat) (hi : i < 4) : v.entry dir k i = 0 := by
    have hblock : (k * direntSize + i) / blockSize = k * direntSize / blockSize := by
      simp only [direntSize, blockSize]
      omega
    have hfile : (v.file dir idle).fileBlock ((k * direntSize + i) / blockSize) = 0 := by
      rw [hblock]
      exact h0
    rw [entry, content, SfsSt.content, if_pos hfile]
  have hword : (v.entry dir k).word 0 = ByteStore.word zeros 0 :=
    ByteStore.word_congr fun x _ hx => hzero x (by omega)
  rw [hword, zeros_word]

/-- An entry that is there is cleared. -/
theorem Directory.wp_dirUnlink (hd : v.Directory dir) (h : v.Readable dir)
    (hat : SlotTable.At (v.slots dir) k name ino) : wp (dirUnlink dir k)
      (fun _ v' => v.Relinked dir (SlotTable.put k none (v.slots dir)) v') E v := by
  have hent := at_slots.mp hat
  have hk := Nat.le_of_lt hent.lt
  obtain ⟨hstart, hoff⟩ := slot_offset h.size hk
  have hcan := h.canWrite (w := kuio zeros direntSize (k * direntSize) .write) direntSize_room rfl
  have hone : k * direntSize % blockSize + direntSize ≤ blockSize := by
    simp only [direntSize, blockSize]
    omega
  have hfails := hcan.failsIn_held h.errors (fun _ => rfl) hone (by show direntSize < blockSize; decide) hent.held
  simp only [dirUnlink, writedir, wp_bind, wp_ite, wp_diverge, wp_pure]
  rw [wp_fileIo]
  have hwrite := hcan.wp_sfsIo_of h.errors h.size hoff (show direntSize ≠ 0 by decide) hfails
  apply wp_mono (wp_and_wlpe hwrite (SfsSt.marks_sfsIo _))
  · intro _ u hu
    have hres : u.req.uio.resid = 0 := by
      rw [hu.1.uio]
      exact (Uio.advance_resid direntSize_room.lt (Nat.le_refl _)).trans (Nat.sub_self _)
    rw [if_neg (by omega), ← direntry_zeros]
    exact (stores_of_written hu.1 hu.2).relinked hd.size h.size hk
  · intro _ u hu
    obtain ⟨⟨_, hno, _⟩, _⟩ := hu
    exact hno.elim

end Volume

end CseOs.Kernel.Sfs
