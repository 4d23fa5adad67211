import CseOs.Kernel.Sfs.Volume

/-!
# Changing one file of a volume

A write, a truncation and the creation of a file, and what is left of the other files: they keep their
blocks, and no block of theirs becomes one of the file that was changed.
-/

namespace CseOs.Kernel.Sfs

open Framework Prog

namespace Volume

variable {v v' v'' : Volume} {s t u : SfsSt} {w : Transfer} {dir f ino k n len pos slot b d : Nat}
  {name : List UInt8} {sd : ByteStore} {bytes : Nat → UInt8} {r : Option Nat}
  {E : Errno → Volume → Prop}

/-- The blocks of `f` are not blocks of `b`. -/
structure Beside (v : Volume) (f b : Nat) : Prop where
  consistent : (v.file f idle).Consistent
  foreign : ∀ r, v.ref f r ≠ 0 → (v.file b idle).Foreign (v.ref f r)

/-- `f` is what it was, and still beside `b`. -/
structure Intact (v v' : Volume) (f b : Nat) : Prop where
  beside : v'.Beside f b
  content : v'.content f = v.content f
  vnode : v'.vnode f = v.vnode f

theorem Intact.trans (h : v.Intact v' f b) (h' : v'.Intact v'' f b) : v.Intact v'' f b :=
  ⟨h'.beside, h'.content.trans h.content, h'.vnode.trans h.vnode⟩

theorem Intact.text (h : v.Intact v' f b) : v'.text f = v.text f := by
  rw [Volume.text, Volume.text, h.vnode, h.content]

theorem Beside.intact (h : v.Beside f b) : v.Intact v f b := ⟨h, rfl, rfl⟩

private theorem foreign_file (h : (v.file b idle).Foreign d) : (v.file b w).Foreign d :=
  ⟨h.ne_zero, h.lt, h.marked, h.unused⟩

theorem Beside.setFile (h : v.Beside f b) (hne : f ≠ b) (hs : (v.file b w).Spares u)
    (hu : u.Consistent) : v.Intact (v.setFile b u) f b := by
  have hview := @file_setFile_of_ne v u idle f b hne
  have hdisk (r : Option Nat) (h0 : v.ref f r ≠ 0) :
      ((v.setFile b u).file f idle).disk (v.ref f r) = (v.file f idle).disk (v.ref f r) := by
    rw [hview]
    exact (hs _ (foreign_file (h.foreign r h0))).2
  have href : ((v.setFile b u).file f idle).ref = (v.file f idle).ref := by
    apply SfsSt.ref_congr
    · rw [hview]
      rfl
    · exact hdisk none
  have hcontent : (v.setFile b u).content f = v.content f :=
    SfsSt.content_congr href fun c hc => hdisk (some c) hc
  refine ⟨⟨?_, fun r h0 => ?_⟩, hcontent, vnode_setFile_of_ne hne⟩
  · refine ⟨?_, ?_, ?_, ?_, ?_, ?_⟩
    · rw [hview]
      exact hu.small
    · rw [hview]
      exact hu.bits
    · rw [hview]
      exact hu.tail
    · rw [hview]
      exact hu.superblock
    · intro r h0
      rw [href] at h0 ⊢
      have hforeign := (hs _ (foreign_file (h.foreign r h0))).1
      rw [hview]
      exact ⟨hforeign.lt, hforeign.marked⟩
    · rw [href]
      exact h.consistent.distinct
  · have hsame : (v.setFile b u).ref f r = v.ref f r := congrFun href r
    rw [hsame] at h0 ⊢
    have hforeign := (hs _ (foreign_file (h.foreign r h0))).1
    rw [file_setFile]
    exact ⟨hforeign.ne_zero, hforeign.lt, hforeign.marked, hforeign.unused⟩

theorem Beside.quiet (h : v.Beside f b) (hq : v.Quiet v') : v.Intact v' f b := by
  obtain ⟨k, rfl⟩ := hq
  exact ⟨⟨h.consistent.of_ref rfl rfl rfl fun _ hx => hx, fun r h0 =>
    have hforeign := h.foreign r h0
    ⟨hforeign.ne_zero, hforeign.lt, hforeign.marked, hforeign.unused⟩⟩, rfl, rfl⟩

/-- Only the file `b` was changed, to a content and a size. -/
structure Changed (v : Volume) (b : Nat) (content : Nat → UInt8) (size : Nat) (v' : Volume) :
    Prop where
  consistent : (v'.file b idle).Consistent
  content : v'.content b = content
  size : (v'.vnode b).inode.size = size
  type : (v'.vnode b).type = (v.vnode b).type
  errors : v'.ioErrors = v.ioErrors
  others : ∀ f ≠ b, v.Beside f b → v.Intact v' f b

private theorem changed_setFile (hu : u.Consistent) (hs : (v.file b w).Spares u)
    (herrors : u.ioErrors = v.ioErrors) (hcontent : u.content = bytes) (hsize : u.inode.size = n) :
    v.Changed b bytes n (v.setFile b u) where
  consistent := by
    rw [file_setFile]
    exact hu.of_ref rfl rfl rfl fun _ hx => hx
  content := by
    rw [Volume.content, file_setFile]
    exact hcontent
  size := by
    simp only [setFile, setVnode, Function.update_self]
    exact hsize
  type := by simp only [setFile, setVnode, Function.update_self]
  errors := herrors
  others f hne h := h.setFile hne hs hu

/-- A write that succeeds has put all its bytes into the file. -/
theorem wlp_sfsIo_write (h : (v.file b idle).Consistent)
    (hsize : (v.vnode b).inode.size < 2 ^ 31) (hlen : len < 2 ^ 32) (h0 : len ≠ 0) :
    wlp (fileIo b (kuio sd len pos .write) SfsSt.sfsIo) (fun ku v' => ku.mem = sd ∧
      v.Changed b (ByteStore.blit (v.content b) pos len sd 0)
        (max (v.vnode b).inode.size (pos + len)) v') v := by
  have hcan : (v.file b (kuio sd len pos .write)).CanWrite :=
    ⟨consistent_file h, kuio_room hlen, rfl⟩
  rw [wlp_fileIo]
  refine wlp_mono (hcan.wlp_sfsIo h0) fun _ t ht => ?_
  obtain ⟨u, hwrote, rfl⟩ := ht
  have hstored := hwrote.stored
  have hu : u.adjustSize.Consistent := by
    unfold SfsSt.adjustSize
    split
    · exact hstored.consistent.of_ref rfl rfl rfl fun _ hx => hx
    · exact hstored.consistent
  have hsize' := SfsSt.adjustSize_size (s := u) (hstored.size ▸ hsize)
  rw [hstored.size, hstored.uio, Uio.advance_offset] at hsize'
  refine ⟨?_, changed_setFile hu (hwrote.spares.trans SfsSt.spares_adjustSize) ?_ ?_ hsize'⟩
  · rw [SfsSt.adjustSize_req, hstored.mem]
    rfl
  · have herrors : u.adjustSize.ioErrors = u.ioErrors := by
      unfold SfsSt.adjustSize
      split <;> rfl
    rw [herrors, hstored.errors]
    rfl
  · rw [SfsSt.adjustSize_content]
    exact hstored.content

/-- A file that is cut to nothing has no block and no byte. -/
theorem wp_sfsTruncate_zero (h : v.Readable b) :
    wp (onFile b (SfsSt.sfsTruncate 0)) (fun _ v' => v.Changed b (fun _ => 0) 0 v') E v := by
  obtain ⟨t, hrun, hcut, hsize⟩ := h.consistent.truncates h.errors 0
  have hcontent : t.content = fun _ => 0 := by
    funext x
    have hall : SfsSt.Drops (SfsSt.blocksOf 0) (x / blockSize) := by
      have h0 : SfsSt.blocksOf 0 = 0 := by decide
      simp only [SfsSt.Drops, h0]
      exact (Nat.lt_or_ge (x / blockSize) nDirect).imp (⟨·, Nat.zero_le _⟩) fun hge =>
        ⟨hge, Nat.lt_of_lt_of_le (by decide) hge⟩
    rw [hcut.content h.consistent, if_pos hall]
  rw [onFile, wp_zoom, wp_of_ok hrun]
  exact changed_setFile (hcut.consistent h.consistent) (hcut.spares h.consistent)
    hcut.volume.2.2.1 hcontent hsize

theorem takeWhile_padded (h0 : 0 ∉ name) {m : Nat} (hlen : name.length ≤ m) :
    ((List.range m).map fun i => name.getD i 0).takeWhile (fun c => c ≠ 0) = name := by
  have hsplit : (List.range m).map (fun i => name.getD i 0) =
      name ++ List.replicate (m - name.length) 0 := by
    apply List.ext_getElem
    · simp
      omega
    · intro i hi hi'
      simp only [List.getElem_map, List.getElem_range, List.getD_eq_getElem?_getD]
      by_cases hin : i < name.length
      · simp [List.getElem_append_left hin, hin]
      · simp [List.getElem_append_right (Nat.not_lt.mp hin), Nat.not_lt.mp hin]
  have hname : ∀ c ∈ name, decide (c ≠ 0) = true := by
    intro c hc
    exact decide_eq_true fun he => h0 (he ▸ hc)
  rw [hsplit, List.takeWhile_append_of_pos hname, List.takeWhile_replicate]
  simp

/-- The entry that is set up reads back as it was meant. -/
theorem sfdName_dirent (h0 : 0 ∉ name) (hlen : name.length < nameLen) :
    sfdName (dirent ino name) = name := by
  have hbytes (i : Nat) : dirent ino name (4 + i) = name.getD i 0 := by
    by_cases hi : i < name.length
    · rw [dirent, ByteStore.blit_of_inside hi, Nat.zero_add]
    · rw [dirent, ByteStore.blit_of_outside (by omega), ByteStore.setWord_of_ge (by omega)]
      simp [zeros, Nat.not_lt.mp hi]
  simp only [sfdName, hbytes]
  exact takeWhile_padded h0 (Nat.le_sub_one_of_lt hlen)

theorem word_dirent (h : ino < 2 ^ 32) : (dirent ino name).word 0 = ino := by
  have hword : (dirent ino name).word 0 = (ByteStore.setWord zeros 0 ino).word 0 :=
    ByteStore.word_congr fun x _ hx => ByteStore.blit_of_outside (by omega)
  rw [hword, ByteStore.word_setWord_self _ _ h]

private theorem EntryAt.of_content (h : v.EntryAt dir k name ino) (hcontent : v'.content dir = v.content dir)
    (hsize : (v'.vnode dir).inode.size = (v.vnode dir).inode.size) : v'.EntryAt dir k name ino := by
  have hentry : v'.entry dir k = v.entry dir k := by
    funext i
    rw [entry, entry, hcontent]
  exact ⟨hsize ▸ h.lt, hentry ▸ h.links, h.ne_zero, hentry ▸ h.name⟩

theorem Holds.of_content (h : v.Holds dir name ino) (hcontent : v'.content dir = v.content dir)
    (hsize : (v'.vnode dir).inode.size = (v.vnode dir).inode.size) : v'.Holds dir name ino := by
  obtain ⟨k, hk⟩ := h
  exact ⟨k, hk.of_content hcontent hsize⟩

theorem Directory.of_content (h : v.Directory dir) (hcontent : v'.content dir = v.content dir)
    (hsize : (v'.vnode dir).inode.size = (v.vnode dir).inode.size)
    (htype : (v'.vnode dir).type = (v.vnode dir).type) : v'.Directory dir :=
  ⟨htype.trans h.type, hsize ▸ h.size, fun k k' name ino ino' he he' =>
    h.unique k k' name ino ino' (he.of_content hcontent.symm hsize.symm)
      (he'.of_content hcontent.symm hsize.symm)⟩

/-- A name leads to one inode. -/
theorem Directory.holds_unique (h : v.Directory dir) {ino' : Nat} (hh : v.Holds dir name ino)
    (hh' : v.Holds dir name ino') : ino = ino' := by
  obtain ⟨k, hk⟩ := hh
  obtain ⟨k', hk'⟩ := hh'
  have hsame := h.unique k k' name ino ino' hk hk'
  subst hsame
  rw [← hk.links, hk'.links]

/-- The inodes are in blocks of their own, no two files share a block, and the root directory has
names for files that exist. -/
structure Valid (v : Volume) : Prop where
  consistent : ∀ f, v.Lives f → (v.file f idle).Consistent
  apart : ∀ f g, v.Lives f → v.Lives g → f ≠ g →
    ∀ r r', v.ref f r ≠ 0 → v.ref g r' ≠ v.ref f r
  inodes : ∀ f, v.Lives f → f < v.nblocks ∧ v.freemap f = true
  size : ∀ f, v.Lives f → (v.vnode f).inode.size ≤ maxFileSize
  root : v.Directory rootIno
  entries : ∀ name ino, v.Holds rootIno name ino → v.Lives ino ∧ (v.vnode ino).linkcount ≠ 0

theorem Valid.lives_root (h : v.Valid) : v.Lives rootIno := by
  rw [Lives, h.root.type]
  decide

theorem Valid.beside (h : v.Valid) (hf : v.Lives f) (hb : v.Lives b) (hne : f ≠ b) :
    v.Beside f b where
  consistent := h.consistent f hf
  foreign r h0 := by
    have hused := (h.consistent f hf).used r h0
    exact ⟨h0, hused.1, hused.2, fun r' => h.apart f b hf hb hne r r' h0⟩

theorem Valid.readable (h : v.Valid) (hok : ∀ i, v.ioErrors i = none) (hf : v.Lives f) :
    v.Readable f :=
  ⟨h.consistent f hf, hok, h.size f hf⟩

theorem Valid.quiet (h : v.Valid) (hq : v.Quiet v') : v'.Valid := by
  obtain ⟨k, rfl⟩ := hq
  exact ⟨fun f hf => (h.consistent f hf).of_ref rfl rfl rfl fun _ hx => hx, h.apart, h.inodes, h.size,
    h.root.of_content rfl rfl rfl, fun name ino hh => h.entries name ino (hh.of_content rfl rfl)⟩

private theorem wp_loadvnode {Q : Unit → Volume → Prop} : wp (loadvnode ino .inval) Q E v ↔
    (ino < v.nblocks ∧ v.freemap ino = true ∧ v.Lives ino) ∧ Q () v := by
  simp only [loadvnode, wp_bind, wp_state, wp_ite, wp_diverge, wp_doIf, ne_eq, not_true_eq_false,
    if_false, wp_pure, Lives]
  by_cases hout : v.nblocks ≤ ino ∨ v.freemap ino = false
  · rw [if_pos hout]
    refine ⟨False.elim, fun h => ?_⟩
    cases hout with
    | inl hge => omega
    | inr hfree => simp [h.1.2.1] at hfree
  · rw [if_neg hout]
    have hin : ino < v.nblocks ∧ v.freemap ino = true := by simpa using hout
    by_cases htype : (v.vnode ino).type = .inval
    · simp [htype]
    · simp [htype, hin]

/-- A name that the directory holds is found. -/
theorem Valid.wp_lookonce (h : v.Valid) (hok : ∀ i, v.ioErrors i = none) :
    wp (lookonce rootIno name) (fun ino v' => v.Quiet v' ∧ v.Holds rootIno name ino)
      (fun _ _ => ∀ ino, ¬ v.Holds rootIno name ino) v := by
  simp only [lookonce, wp_bind]
  apply wp_mono_post (h.root.wp_dirFindname (h.readable hok h.lives_root))
  intro scan v' ht
  obtain ⟨hquiet, hfinds⟩ := ht
  cases hf : scan.found with
  | none =>
    intro ino hh
    have hsome := (hfinds ino).mpr hh
    simp [hf] at hsome
  | some p =>
    obtain ⟨ino, k⟩ := p
    have hh := (hfinds ino).mp ⟨k, hf⟩
    obtain ⟨hlives, hlinks⟩ := h.entries name ino hh
    have hin := h.inodes ino hlives
    obtain ⟨m, rfl⟩ := hquiet
    have hlinks' : ¬ ((v.countIos m).vnode ino).linkcount = 0 := hlinks
    simp only [wp_bind, wp_loadvnode, wp_state, if_neg hlinks', wp_pure]
    exact ⟨⟨hin.1, hin.2, hlives⟩, ⟨m, rfl⟩, hh⟩

/-- A name that exists is not created. -/
theorem Valid.wp_sfsCreat_held (h : v.Valid) (hok : ∀ i, v.ioErrors i = none)
    (hh : v.Holds rootIno name ino) :
    wp (sfsCreat rootIno name false) (fun ino' v' => ino' = ino ∧ v.Quiet v') E v := by
  simp only [sfsCreat, wp_bind]
  apply wp_mono_post (h.root.wp_dirFindname (h.readable hok h.lives_root))
  intro scan v' ht
  obtain ⟨hquiet, hfinds⟩ := ht
  obtain ⟨k, hk⟩ := (hfinds ino).mpr hh
  obtain ⟨hlives, _⟩ := h.entries name ino hh
  have hin := h.inodes ino hlives
  obtain ⟨m, rfl⟩ := hquiet
  simp only [wp_raiseIf, hk, Bool.false_eq_true, and_false, if_false, wp_bind, wp_loadvnode, wp_pure]
  exact ⟨⟨hin.1, hin.2, hlives⟩, trivial, m, rfl⟩

private theorem file_setVnode_of_ne {sv : SfsVnode} (h : f ≠ d) :
    (v.setVnode d sv).file f w = v.file f w := by
  simp [setVnode, file, h]

private theorem vnode_setVnode {sv : SfsVnode} : (v.setVnode d sv).vnode d = sv := Function.update_self ..

private theorem vnode_setVnode_of_ne {sv : SfsVnode} (h : f ≠ d) : (v.setVnode d sv).vnode f = v.vnode f :=
  Function.update_of_ne h ..

private theorem Beside.setVnode {sv : SfsVnode} (h : v.Beside f b) (hf : f ≠ d) (hb : b ≠ d) :
    (v.setVnode d sv).Beside f b := by
  refine ⟨?_, fun r h0 => ?_⟩
  · rw [file_setVnode_of_ne hf]
    exact h.consistent
  · rw [ref, file_setVnode_of_ne hf] at h0 ⊢
    rw [file_setVnode_of_ne hb]
    exact h.foreign r h0

private theorem Intact.setVnode {sv : SfsVnode} (h : v.Intact v' f b) (hf : f ≠ d) (hb : b ≠ d) :
    v.Intact (v'.setVnode d sv) f b := by
  refine ⟨h.beside.setVnode hf hb, ?_, (vnode_setVnode_of_ne hf).trans h.vnode⟩
  rw [Volume.content, file_setVnode_of_ne hf]
  exact h.content

/-- A file without blocks refers to none. -/
theorem ref_blank (h : (v.vnode f).inode = SfsVnode.blank.inode) : v.ref f r = 0 := by
  have hinode : (v.file f idle).inode = SfsVnode.blank.inode := h
  cases r with
  | none =>
    rw [ref, SfsSt.ref_none, hinode]
    rfl
  | some c =>
    simp only [ref, SfsSt.ref, SfsSt.fileBlock, SfsSt.entry, hinode, SfsVnode.blank, if_true, ite_self]

theorem consistent_blank (h : (v.file dir idle).Consistent)
    (hblank : (v.vnode f).inode = SfsVnode.blank.inode) : (v.file f idle).Consistent where
  small := h.small
  bits := h.bits
  tail := h.tail
  superblock := h.superblock
  used _ h0 := absurd (ref_blank hblank) h0
  distinct _ _ _ h0 := absurd (ref_blank hblank) h0

/-- Everything is beside a file without blocks. -/
theorem beside_blank (h : (v.file f idle).Consistent)
    (hblank : (v.vnode d).inode = SfsVnode.blank.inode) : v.Beside f d where
  consistent := h
  foreign r h0 := by
    have hused := h.used r h0
    refine ⟨h0, hused.1, hused.2, fun r' he => h0 ?_⟩
    rw [← he]
    exact ref_blank hblank

theorem blank_beside (h : (v.file b idle).Consistent)
    (hblank : (v.vnode d).inode = SfsVnode.blank.inode) : v.Beside d b :=
  ⟨consistent_blank h hblank, fun _ h0 => absurd (ref_blank hblank) h0⟩

private theorem wlp_loadvnode_new : wlp (loadvnode d .file)
    (fun _ v' => v' = v.setVnode d { v.vnode d with type := .file, dirty := true }) v := by
  have hnew : ¬ SfsType.file = .inval := by decide
  simp only [loadvnode, wlp_bind, wlp_state, wlp_ite, wlp_diverge, wlp_doIf, ne_eq, hnew,
    not_false_eq_true, if_true, wlp_check, wlp_update, wlp_pure, vnode_setVnode, if_false, implies_true,
    ite_self]

/-- An inode `d` was made that no directory names yet. -/
structure Made (v : Volume) (d : Nat) (v' : Volume) : Prop where
  free : v.freemap d = false
  lt : d < 2 ^ 32
  ne_zero : d ≠ 0
  vnode : v'.vnode d = { SfsVnode.blank with type := .file, dirty := true }
  root : ∃ v₁ sv, v.Changed rootIno (v.content rootIno) (v.vnode rootIno).inode.size v₁ ∧
    v' = v₁.setVnode d sv

private theorem Valid.wlp_makeobj (h : v.Valid) :
    wlp (makeobj rootIno .file) (fun d v' => v.Made d v') v := by
  have hcons := h.consistent rootIno h.lives_root
  simp only [makeobj, wlp_bind, wlp_update, wlp_pure, onFile, wlp_zoom]
  refine wlp_mono hcons.wlp_balloc fun d t ht => ?_
  obtain ⟨hspares, hfree, halloc⟩ := ht
  have hlt : d < 2 ^ 32 := by
    have hlt := halloc.fresh.lt
    have hsmall := halloc.kept.consistent.small
    simp only [maxBlocks, blockSize] at hsmall
    omega
  refine wlp_mono wlp_loadvnode_new fun _ v' hv' => ?_
  have hchanged : v.Changed rootIno (v.content rootIno) (v.vnode rootIno).inode.size
      (v.setFile rootIno t) :=
    changed_setFile halloc.kept.consistent hspares halloc.kept.errors halloc.kept.content
      halloc.kept.size
  rw [vnode_setVnode] at hv'
  refine ⟨hfree, hlt, halloc.fresh.ne_zero, ?_, _, { SfsVnode.blank with type := .file, dirty := true },
    hchanged, ?_⟩
  · rw [hv', vnode_setVnode]
  · rw [hv', setVnode, setVnode, setVnode]
    simp only [Function.update_idem]

/-- A read before the change makes no difference. -/
theorem Changed.of_quiet (h : v'.Changed b bytes n v'') (hq : v.Quiet v') : v.Changed b bytes n v'' := by
  obtain ⟨k, rfl⟩ := hq
  exact ⟨h.consistent, h.content, h.size, h.type, h.errors, fun f hne hb =>
    have hquiet := hb.quiet ⟨k, rfl⟩
    hquiet.trans (h.others f hne hquiet.beside)⟩

/-- Neither does a read after it. -/
theorem Changed.then_quiet (h : v.Changed b bytes n v') (hq : v'.Quiet v'') :
    v.Changed b bytes n v'' := by
  obtain ⟨k, rfl⟩ := hq
  refine ⟨h.consistent.of_ref rfl rfl rfl fun _ hx => hx, h.content, h.size, h.type, h.errors, ?_⟩
  intro f hne hb
  have hintact := h.others f hne hb
  exact hintact.trans (hintact.beside.quiet ⟨k, rfl⟩)

theorem Readable.wlp_writedir (h : v.Readable dir) (hino : ino < 2 ^ 32) (hne : ino ≠ 0)
    (h0 : 0 ∉ name) (hlen : name.length < nameLen) :
    wlp (writedir dir (dirent ino name) slot)
      (fun _ v' => v'.Holds dir name ino ∧ ∃ bytes n, v.Changed dir bytes n v') v := by
  have hsize : (v.vnode dir).inode.size < 2 ^ 31 := SfsSt.size_lt (s := v.file dir idle) h.size
  simp only [writedir, wlp_bind]
  refine wlp_mono (wlp_sfsIo_write h.consistent hsize (by decide) (by decide)) fun ku v' ht => ?_
  obtain ⟨_, hchanged⟩ := ht
  simp only [wlp_ite, wlp_diverge, wlp_pure]
  split
  case isTrue => exact trivial
  case isFalse =>
    have hentry : ∀ i < direntSize, v'.entry dir slot i = dirent ino name i := by
      intro i hi
      rw [entry, hchanged.content, ByteStore.blit_of_inside hi, Nat.zero_add]
    obtain ⟨hword, hname⟩ := entry_congr hentry
    refine ⟨⟨slot, ?_, ?_, hne, ?_⟩, _, _, hchanged⟩
    · rw [hchanged.size]
      apply Nat.lt_of_lt_of_le (Nat.lt_succ_self slot)
      rw [Nat.le_div_iff_mul_le (by decide), Nat.succ_mul]
      exact Nat.le_max_right ..
    · rw [hword, word_dirent hino]
    · rw [hname, sfdName_dirent h0 hlen]

private theorem Directory.wlp_dirNentries (hd : v.Directory dir) :
    wlp (dirNentries dir) (fun n v' => n = (v.vnode dir).inode.size / direntSize ∧ v' = v) v :=
  wlp_of_wp (E := fun _ _ => True) (hd.wp_dirNentries.mpr ⟨rfl, rfl⟩)

theorem Directory.wlp_dirLink (hd : v.Directory dir) (h : v.Readable dir) (hino : ino < 2 ^ 32)
    (hne : ino ≠ 0) (h0 : 0 ∉ name) : wlp (dirLink dir name ino)
      (fun _ v' => v'.Holds dir name ino ∧ ∃ bytes n, v.Changed dir bytes n v') v := by
  simp only [dirLink, wlp_bind]
  refine wlp_mono (wlp_of_wp (E := fun _ _ => True) (hd.wp_dirFindname h)) fun scan v' ht => ?_
  obtain ⟨hquiet, _⟩ := ht
  simp only [wlp_raiseIf]
  intro _ hlen
  obtain ⟨k, rfl⟩ := hquiet
  have hwrite (slot : Nat) :
      wlp (writedir dir (dirent ino name) slot)
        (fun _ v' => v'.Holds dir name ino ∧ ∃ bytes n, v.Changed dir bytes n v') (v.countIos k) := by
    refine wlp_mono ((h.countIos k).wlp_writedir hino hne h0 (by omega)) fun _ v' ht => ?_
    obtain ⟨hholds, bytes, n, hchanged⟩ := ht
    exact ⟨hholds, bytes, n, hchanged.of_quiet ⟨k, rfl⟩⟩
  cases hs : scan.emptyslot with
  | some slot => exact hwrite slot
  | none =>
    have hd' : (v.countIos k).Directory dir := hd.of_content rfl rfl rfl
    rw [wlp_bind]
    refine wlp_mono hd'.wlp_dirNentries fun n v' ht => ?_
    obtain ⟨rfl, rfl⟩ := ht
    exact hwrite _

theorem Made.new (hm : v.Made d v') (h : v.Valid) : ¬ v.Lives d := by
  intro hlives
  have hfree := hm.free
  simp [(h.inodes d hlives).2] at hfree

private theorem Made.ne (hm : v.Made d v') (h : v.Valid) (hf : v.Lives f) : f ≠ d :=
  fun he => hm.new h (he ▸ hf)

theorem Made.directory (hm : v.Made d v') (h : v.Valid) : v'.Directory rootIno := by
  have hne := hm.ne h h.lives_root
  obtain ⟨v₁, sv, hchanged, rfl⟩ := hm.root
  apply h.root.of_content
  · rw [content, file_setVnode_of_ne hne]
    exact hchanged.content
  · rw [vnode_setVnode_of_ne hne]
    exact hchanged.size
  · rw [vnode_setVnode_of_ne hne]
    exact hchanged.type

private theorem Made.readable (hm : v.Made d v') (h : v.Valid) (hok : ∀ i, v.ioErrors i = none) :
    v'.Readable rootIno := by
  have hne := hm.ne h h.lives_root
  obtain ⟨v₁, sv, hchanged, rfl⟩ := hm.root
  refine ⟨?_, ?_, ?_⟩
  · rw [file_setVnode_of_ne hne]
    exact hchanged.consistent
  · show ∀ i, v₁.ioErrors i = none
    rw [hchanged.errors]
    exact hok
  · rw [vnode_setVnode_of_ne hne, hchanged.size]
    exact h.size rootIno h.lives_root

private theorem Made.intact (hm : v.Made d v') (h : v.Valid) (hf : v.Lives f) (hroot : f ≠ rootIno) :
    v.Intact v' f rootIno := by
  have hne := hm.ne h hf
  have hne' := hm.ne h h.lives_root
  obtain ⟨v₁, sv, hchanged, rfl⟩ := hm.root
  have hbeside := h.beside hf h.lives_root hroot
  exact (hchanged.others f hroot hbeside).setVnode hne hne'

/-- A new and empty file `d` has the name, and the other files are what they were. -/
structure Created (v : Volume) (name : List UInt8) (d : Nat) (v' : Volume) : Prop where
  holds : v'.Holds rootIno name d
  new : ¬ v.Lives d
  type : (v'.vnode d).type = .file
  blank : (v'.vnode d).inode = SfsVnode.blank.inode
  errors : ∀ i, v'.ioErrors i = none
  root : (v'.file rootIno idle).Consistent
  dir : (v'.vnode rootIno).type = .dir
  files : ∀ f, v.Lives f → f ≠ rootIno → v.Intact v' f d

/-- A name that the directory does not have is given to a new file. -/
theorem Valid.wlp_sfsCreat_new (h : v.Valid) (hok : ∀ i, v.ioErrors i = none)
    (hnot : ∀ ino, ¬ v.Holds rootIno name ino) (h0 : 0 ∉ name) :
    wlp (sfsCreat rootIno name false) (fun d v' => v.Created name d v') v := by
  simp only [sfsCreat, wlp_bind]
  have hfind : wp (dirFindname rootIno name) (fun scan v' => v.Quiet v' ∧ v.Finds rootIno name scan)
      (fun _ _ => True) v := h.root.wp_dirFindname (h.readable hok h.lives_root)
  refine wlp_mono (wlp_of_wp hfind) fun scan v₁ ht => ?_
  obtain ⟨hquiet, hfinds⟩ := ht
  have hnone : scan.found = none := by
    cases hf : scan.found with
    | none => rfl
    | some p => exact absurd ((hfinds p.1).mp ⟨p.2, hf⟩) (hnot p.1)
  have h₁ := h.quiet hquiet
  have hok₁ : ∀ i, v₁.ioErrors i = none := by
    obtain ⟨k, rfl⟩ := hquiet
    exact hok
  simp only [wlp_raiseIf, hnone, wlp_bind, wlp_onError, wlp_update, wlp_pure]
  intro _
  refine wlp_mono h₁.wlp_makeobj fun d v₂ hm => ?_
  have hr := hm.readable h₁ hok₁
  refine wlp_mono ((hm.directory h₁).wlp_dirLink hr hm.lt hm.ne_zero h0) fun _ v₃ hlink => ?_
  obtain ⟨hholds, bytes, n, hchanged⟩ := hlink
  have hne := hm.ne h₁ h₁.lives_root
  have hblank : (v₂.vnode d).inode = SfsVnode.blank.inode := by rw [hm.vnode]
  have hd := hchanged.others d hne.symm (blank_beside hr.consistent hblank)
  have hroot : ((countLink d v₃).file rootIno idle).Consistent := by
    rw [countLink, file_setVnode_of_ne hne]
    exact hchanged.consistent
  have hblank' : ((countLink d v₃).vnode d).inode = SfsVnode.blank.inode := by
    rw [countLink, vnode_setVnode, hd.vnode, hblank]
  refine ⟨hholds.of_content ?_ ?_, ?_, ?_, hblank', ?_, hroot, ?_, fun f hf hfr => ?_⟩
  · rw [countLink, content, file_setVnode_of_ne hne]
    rfl
  · rw [countLink, vnode_setVnode_of_ne hne]
  · obtain ⟨k, rfl⟩ := hquiet
    exact hm.new h₁
  · rw [countLink, vnode_setVnode, hd.vnode, hm.vnode]
  · show ∀ i, v₃.ioErrors i = none
    rw [hchanged.errors]
    exact hr.errors
  · rw [countLink, vnode_setVnode_of_ne hne, hchanged.type]
    exact (hm.directory h₁).type
  · have hstart := (h.beside hf h.lives_root hfr).quiet hquiet
    have hf₁ : v₁.Lives f := by
      obtain ⟨k, rfl⟩ := hquiet
      exact hf
    have hmade := hm.intact h₁ hf₁ hfr
    have hlinked := hchanged.others f hfr hmade.beside
    have hkept : v.Intact (countLink d v₃) f rootIno :=
      (hstart.trans (hmade.trans hlinked)).setVnode (hm.ne h₁ hf₁) hne
    exact ⟨beside_blank hkept.beside.consistent hblank', hkept.content, hkept.vnode⟩

end Volume

end CseOs.Kernel.Sfs
