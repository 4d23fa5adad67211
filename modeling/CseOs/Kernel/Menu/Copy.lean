import CseOs.Kernel.Vfs.Open

/-!
# The command `cp`

`cmd_cp` opens its destination, and so empties it, before it reads its source. Where both names lead to
one file, what it reads is what is left of that file.
-/

namespace CseOs.Kernel.Menu

open Framework Prog Sfs Volume Vfs

/-- `sizeof(buffer)` -/
def bufferSize : Nat := 512

/-- The loop of `cmd_cp`, for at most so many rounds -/
def cpLoop (vSource vDest : Nat) : Nat → Nat → ByteStore → Prog Volume Errno Unit
  | 0, _, _ => diverge
  | rounds + 1, offset, buffer => do
    let kuRead ← vopRead vSource (kuio buffer bufferSize offset .read)
    let nRead := sub32 bufferSize kuRead.uio.resid
    if nRead = 0 then
      return ()
    else do
      let kuWrite ← vopWrite vDest (kuio kuRead.mem nRead offset .write)
      cpLoop vSource vDest rounds (offset + nRead) kuWrite.mem

/-- `cmd_cp`; an exception is a result that is not 0. -/
def cmdCp (vfs : Starts) (rounds : Nat) (args : List (List UInt8)) : Prog Volume Errno Unit :=
  match args with
  | [_, sourceFile, destFile] => do
    let vSource ← vfsOpen vfs sourceFile oRdonly
    let vDest ← vfsOpen vfs destFile overwriteFlags
    cpLoop vSource vDest rounds 0 zeros
  | _ => raise .einval

variable {v v' v₁ : Volume} {vfs : Starts} {path src dst : List UInt8} {buf : ByteStore}
  {a b f ino len m n pos rounds : Nat} {E : Errno → Volume → Prop}

theorem wp_vopRead (hr : v.Readable a) (htype : (v.vnode a).type = .file) (hend : pos + len < 2 ^ 31)
    (hm : min len ((v.vnode a).inode.size - pos) = m) :
    wp (vopRead a (kuio buf len pos .read)) (fun ku v' => v.Quiet v' ∧ ku.uio.resid = len - m ∧
      ∀ i < m, ku.mem i = v.content a (pos + i)) E v := by
  have hread : wp SfsSt.sfsRead (fun _ t => (v.file a (kuio buf len pos .read)).ReadsExactly t)
      (fun _ _ => False) (v.file a (kuio buf len pos .read)) := hr.wp_sfsRead hend
  have hall : (v.file a (kuio buf len pos .read)).readable = m := hm
  rw [vopRead, wp_vop_file htype, wp_fileIo]
  apply wp_mono hread
  · intro _ t ht
    obtain ⟨k, hk⟩ := ht.file
    have hres := ht.resid
    have hbytes := ht.bytes
    rw [hall] at hres hbytes
    refine ⟨⟨k, ?_⟩, hres, fun i hi => ?_⟩
    · rw [hk]
      exact setFile_read
    · have hbyte := hbytes i hi
      rw [show (v.file a (kuio buf len pos .read)).req.uio.iovBase = 0 from rfl, Nat.zero_add] at hbyte
      exact hbyte
  · exact fun _ _ hf => hf.elim

private theorem wlp_vopRead (hr : v.Readable a) (hend : pos + len < 2 ^ 31)
    (hm : min len ((v.vnode a).inode.size - pos) = m) :
    wlp (vopRead a (kuio buf len pos .read)) (fun ku v' => v.Quiet v' ∧ ku.uio.resid = len - m ∧
      ∀ i < m, ku.mem i = v.content a (pos + i)) v := by
  cases htype : (v.vnode a).type with
  | file => exact wlp_of_wp (E := fun _ _ => True) (wp_vopRead hr htype hend hm)
  | dir =>
    refine @wlp_of_wp _ _ _ _ (fun _ _ => True) _ _ ?_
    rw [vopRead, wp_vop_dir htype]
    exact trivial
  | inval =>
    refine wlp_vop (fun hf => ?_) fun hd => ?_
    · exact absurd (htype.symm.trans hf) (by decide)
    · exact absurd (htype.symm.trans hd) (by decide)

private theorem sfsWrite_eq {s : SfsSt} (h : s.req.uio.rw = .write) : SfsSt.sfsWrite s = SfsSt.sfsIo s := by
  apply run_congr
  intro Q E
  simp only [SfsSt.sfsWrite, wp_bind, wp_state, wp_check, h, true_and]

theorem wlp_vopWrite (hb : (v.file b idle).Consistent) (hsize : (v.vnode b).inode.size < 2 ^ 31)
    (hlen : len < 2 ^ 32) (h0 : len ≠ 0) : wlp (vopWrite b (kuio buf len pos .write)) (fun _ v' =>
      v.Changed b (ByteStore.blit (v.content b) pos len buf 0)
        (max (v.vnode b).inode.size (pos + len)) v') v := by
  refine wlp_vop (fun _ => ?_) fun _ => (wlp_raise _).mpr trivial
  have hio := @wlp_sfsIo_write v len pos b buf hb hsize hlen h0
  rw [wlp_fileIo] at hio ⊢
  intro _ t hrun
  rw [sfsWrite_eq rfl] at hrun
  exact (hio () t hrun).2

/-- The first `o` bytes of `a`, as they were in `v₁`, are all that is in `b`, and the files beside `b`
are as they were in `v₁`. -/
structure Copying (v₁ : Volume) (a b o : Nat) (v : Volume) : Prop where
  consistent : (v.file b idle).Consistent
  errors : ∀ i, v.ioErrors i = none
  size : (v.vnode b).inode.size = o
  le : o ≤ (v₁.vnode a).inode.size
  bytes : ∀ x < o, v.content b x = v₁.content a x
  others : ∀ f ≠ b, v₁.Beside f b → v₁.Intact v f b

private theorem Copying.quiet (h : Copying v₁ a b n v) (hq : v.Quiet v') : Copying v₁ a b n v' := by
  obtain ⟨k, rfl⟩ := hq
  refine ⟨h.consistent.of_ref rfl rfl rfl fun _ hx => hx, h.errors, h.size, h.le, h.bytes, ?_⟩
  intro f hf hb
  have hintact := h.others f hf hb
  exact hintact.trans (hintact.beside.quiet ⟨k, rfl⟩)

theorem Copying.append (h : Copying v₁ a b n v) (hm : n + m ≤ (v₁.vnode a).inode.size)
    (hbuf : ∀ i < m, buf i = v₁.content a (n + i))
    (hc : v.Changed b (ByteStore.blit (v.content b) n m buf 0) (max (v.vnode b).inode.size (n + m)) v') :
    Copying v₁ a b (n + m) v' := by
  refine ⟨hc.consistent, ?_, ?_, hm, fun x hx => ?_, fun f hf hb => ?_⟩
  · rw [hc.errors]
    exact h.errors
  · rw [hc.size, h.size]
    exact Nat.max_eq_right (Nat.le_add_right ..)
  · rw [hc.content]
    by_cases hold : x < n
    · rw [ByteStore.blit_of_outside (Or.inl hold), h.bytes x hold]
    · obtain ⟨i, rfl⟩ := Nat.exists_eq_add_of_le (Nat.not_lt.mp hold)
      have hi : i < m := by omega
      rw [ByteStore.blit_of_inside hi, Nat.zero_add, hbuf i hi]
  · have hintact := h.others f hf hb
    exact hintact.trans (hc.others f hf hintact.beside)

theorem Copying.wlp_cpLoop (h : Copying v₁ a b n v) (hne : a ≠ b) (ha : v₁.Beside a b)
    (hsize : (v₁.vnode a).inode.size ≤ maxFileSize) :
    wlp (cpLoop a b rounds n buf) (fun _ t => Copying v₁ a b (v₁.vnode a).inode.size t) v := by
  induction rounds generalizing v n buf with
  | zero => exact wlp_diverge.mpr trivial
  | succ rounds ih =>
    have hsame := h.others a hne ha
    have hr : v.Readable a := by
      refine ⟨hsame.beside.consistent, h.errors, ?_⟩
      rw [hsame.vnode]
      exact hsize
    have hsmall : (v₁.vnode a).inode.size < 2 ^ 30 := by
      simp only [maxFileSize, maxFileBlocks, nDirect, dbPerIdb, blockSize] at hsize
      omega
    have hle := h.le
    have hend : n + bufferSize < 2 ^ 31 := by
      simp only [bufferSize]
      omega
    rw [cpLoop, wlp_bind]
    refine wlp_mono (wlp_vopRead hr hend rfl) fun ku v' ht => ?_
    obtain ⟨hquiet, hres, hbytes⟩ := ht
    rw [hsame.vnode] at hres hbytes
    rw [hsame.content] at hbytes
    generalize hm : min bufferSize ((v₁.vnode a).inode.size - n) = m at hres hbytes
    have hm' : m ≤ bufferSize := by omega
    have hread : sub32 bufferSize ku.uio.resid = m := by
      rw [hres, sub32_of_le (by decide) (Nat.sub_le ..)]
      omega
    have hq := h.quiet hquiet
    simp only [hread, wlp_ite, wlp_pure, wlp_bind]
    split
    case isTrue h0 =>
      have hdone : (v₁.vnode a).inode.size = n := by
        simp only [bufferSize] at hm
        omega
      rw [hdone]
      exact hq
    case isFalse h0 =>
      have hfull : (v'.vnode b).inode.size < 2 ^ 31 := by
        rw [hq.size]
        omega
      have hlen : m < 2 ^ 32 := Nat.lt_of_le_of_lt hm' (by decide)
      refine wlp_mono (wlp_vopWrite hq.consistent hfull hlen h0) fun ku' v'' hw => ?_
      exact ih (hq.append (by omega) hbytes hw)

private theorem wlp_cpLoop_dir {Q : Unit → Volume → Prop} (htype : (v.vnode a).type = .dir) :
    wlp (cpLoop a b rounds n buf) Q v := by
  cases rounds with
  | zero => exact wlp_diverge.mpr trivial
  | succ rounds =>
    refine @wlp_of_wp _ _ _ _ (fun _ _ => True) _ _ ?_
    rw [cpLoop, wp_bind, vopRead, wp_vop_dir htype]
    exact trivial

theorem wp_cpLoop_empty (hr : v.Readable a) (htype : (v.vnode a).type = .file)
    (hsize : (v.vnode a).inode.size = 0) :
    wp (cpLoop a b (rounds + 1) 0 buf) (fun _ t => v.Quiet t) E v := by
  have hm : min bufferSize ((v.vnode a).inode.size - 0) = 0 := by rw [hsize, Nat.sub_self, Nat.min_zero]
  rw [cpLoop, wp_bind]
  apply wp_mono_post (wp_vopRead hr htype (by decide) hm)
  intro ku t ht
  have hread : sub32 bufferSize ku.uio.resid = 0 := by
    rw [ht.2.1]
    decide
  simp only [hread, if_true, wp_pure]
  exact ht.1

/-- Whenever `cp` returns 0, its destination has the contents that its source had, and every other
file is what it was. -/
def CpCopies (v : Volume) (vfs : Starts) (src dst : List UInt8) : Prop :=
  ∀ cp rounds t, cmdCp vfs rounds [cp, src, dst] v = some (.ok (), t) →
    ∃ a b, Names v vfs src a ∧ Names t vfs dst b ∧ t.text b = v.text a ∧
      ∀ f ≠ b, (v.vnode f).type = .file → t.text f = v.text f ∧ t.vnode f = v.vnode f

/-- Both names lead to one file, and the file is not empty. -/
def Aliased (v : Volume) (vfs : Starts) (src dst : List UInt8) : Prop :=
  ∃ a, Names v vfs src a ∧ Names v vfs dst a ∧ (v.vnode a).type = .file ∧
    (v.vnode a).inode.size ≠ 0

private theorem Copying.text (h : Copying v₁ a b (v₁.vnode a).inode.size v) : v.text b = v₁.text a := by
  rw [Volume.text, Volume.text, h.size]
  apply List.map_congr_left
  intro x hx
  exact h.bytes x (List.mem_range.mp hx)

theorem wlp_cpLoop_emptied (hv : v.Valid) (he : Emptied v vfs path b v₁) (ha : v.Lives a)
    (hroot : a ≠ rootIno) (hempty : a = b → (v.vnode a).inode.size = 0) :
    wlp (cpLoop a b rounds 0 zeros) (fun _ t => t.text b = v.text a ∧
      ∀ f ≠ b, v₁.Beside f b → v₁.Intact t f b) v₁ := by
  by_cases hab : a = b
  · subst hab
    cases rounds with
    | zero => exact wlp_diverge.mpr trivial
    | succ rounds =>
      have hr : v₁.Readable a := ⟨he.consistent, he.errors, by rw [he.size]; exact Nat.zero_le _⟩
      refine wlp_mono (wlp_of_wp (E := fun _ _ => True) (wp_cpLoop_empty hr he.type he.size)) fun _ t ht => ?_
      refine ⟨?_, fun f _ hf => hf.quiet ht⟩
      obtain ⟨k, rfl⟩ := ht
      have hsize : ((v₁.countIos k).vnode a).inode.size = 0 := he.size
      rw [text, text, hsize, hempty rfl]
      rfl
  · have hsame := he.files a hab ha hroot
    have hstart : Copying v₁ a b 0 v₁ :=
      ⟨he.consistent, he.errors, he.size, Nat.zero_le _, fun x hx => absurd hx (Nat.not_lt_zero x),
        fun f _ hf => hf.intact⟩
    have hsize : (v₁.vnode a).inode.size ≤ maxFileSize := by
      rw [hsame.vnode]
      exact hv.size a ha
    refine wlp_mono (hstart.wlp_cpLoop hab hsame.beside hsize) fun _ t ht => ?_
    exact ⟨ht.text.trans (hsame.text), ht.others⟩

theorem wlp_cmdCp (cp : List UInt8) (hv : v.Valid) (hok : ∀ i, v.ioErrors i = none) (h0 : 0 ∉ dst)
    (hno : ¬ Aliased v vfs src dst) : wlp (cmdCp vfs rounds [cp, src, dst]) (fun _ t =>
      ∃ a b, Names v vfs src a ∧ Names t vfs dst b ∧ t.text b = v.text a ∧
        ∀ f ≠ b, (v.vnode f).type = .file → t.text f = v.text f ∧ t.vnode f = v.vnode f) v := by
  simp only [cmdCp, wlp_bind]
  refine wlp_mono (wlp_of_wp (wp_vfsOpen_rdonly hv hok)) fun a v' ht => ?_
  obtain ⟨⟨k, rfl⟩, ha⟩ := ht
  have hv' := hv.quiet ⟨k, rfl⟩
  have hlives : v.Lives a := ha.lives hv
  refine wlp_mono (wlp_vfsOpen_emptied hv' hok h0) fun b v₁ he => ?_
  by_cases hroot : a = rootIno
  · rw [hroot]
    exact wlp_cpLoop_dir he.dir
  · have hempty : a = b → (v.vnode a).inode.size = 0 := by
      intro hab
      obtain ⟨hb, htype⟩ := he.held (hab ▸ hlives)
      by_contra hsize
      exact hno ⟨a, ha, hab ▸ hb.of_content rfl rfl, hab ▸ htype, hsize⟩
    have hbroot : rootIno ≠ b := by
      intro hb
      have htype := he.dir
      rw [hb, he.type] at htype
      cases htype
    refine wlp_mono (wlp_cpLoop_emptied hv' he hlives hroot hempty) fun _ t ht => ?_
    obtain ⟨htext, hothers⟩ := ht
    refine ⟨a, b, ha, he.names.of_intact (hothers _ hbroot he.root), htext, fun f hf hfile => ?_⟩
    have hthere : v.Lives f := by
      rw [Lives, hfile]
      decide
    have hfr : f ≠ rootIno := by
      intro hf
      rw [hf, hv.root.type] at hfile
      cases hfile
    have hopened := he.files f hf hthere hfr
    have hkept := hothers f hf hopened.beside
    have hsame := hopened.text
    exact ⟨hkept.text.trans hsame, hkept.vnode.trans hopened.vnode⟩

theorem wp_cmdCp_aliased (cp : List UInt8) (hv : v.Valid) (hok : ∀ i, v.ioErrors i = none)
    (hsrc : Names v vfs src a) (hdst : Names v vfs dst a) (htype : (v.vnode a).type = .file) :
    wp (cmdCp vfs 1 [cp, src, dst]) (fun _ t => v.Changed a (fun _ => 0) 0 t) (fun _ _ => False) v := by
  simp only [cmdCp, wp_bind]
  apply wp_mono (wp_vfsOpen_rdonly hv hok)
  · intro a' v' ht
    obtain ⟨⟨k, rfl⟩, ha⟩ := ht
    rw [ha.unique hv hsrc]
    have hv' := hv.quiet ⟨k, rfl⟩
    apply wp_mono_post (wp_vfsOpen_held hv' hok (hdst.of_content rfl rfl) htype)
    intro b v₁ ht
    obtain ⟨rfl, hc⟩ := ht
    have hr : v₁.Readable b := by
      refine ⟨hc.consistent, ?_, by rw [hc.size]; exact Nat.zero_le _⟩
      rw [hc.errors]
      exact hok
    apply wp_mono_post (wp_cpLoop_empty hr (hc.type.trans htype) hc.size)
    exact fun _ t ht => (hc.of_quiet ⟨k, rfl⟩).then_quiet ht
  · exact fun _ _ hno => hno a hsrc

private theorem Aliased.not_copies (h : Aliased v vfs src dst) (hv : v.Valid) (hok : ∀ i, v.ioErrors i = none) :
    ¬ CpCopies v vfs src dst := by
  obtain ⟨a, hsrc, hdst, htype, hsize⟩ := h
  intro hcopies
  obtain ⟨r, t, hrun, hr⟩ := wp_elim (wp_cmdCp_aliased [] hv hok hsrc hdst htype)
  cases r with
  | error e => exact hr
  | ok u =>
    obtain ⟨a', b, ha', hb, htext, _⟩ := hcopies [] 1 t hrun
    have hroot : rootIno ≠ a := by
      intro he
      rw [← he, hv.root.type] at htype
      cases htype
    have hsame := hr.others _ hroot (hv.beside hv.lives_root (hsrc.lives hv) hroot)
    have hb' : Names v vfs dst b := hb.of_content hsame.content.symm (by rw [hsame.vnode])
    rw [ha'.unique hv hsrc, hb'.unique hv hdst] at htext
    have hlen := congrArg List.length htext
    simp only [text, List.length_map, List.length_range, hr.size] at hlen
    exact hsize hlen.symm

/-- On a working disk `cp` copies if and only if its names do not lead to one file that is not empty. -/
theorem cmd_cp_copies_iff (v : Volume) (vfs : Starts) (src dst : List UInt8) (hv : v.Valid)
    (hok : ∀ i, v.ioErrors i = none) (h0 : 0 ∉ dst) :
    CpCopies v vfs src dst ↔ ¬ Aliased v vfs src dst := by
  constructor
  · exact fun hcopies halias => halias.not_copies hv hok hcopies
  · exact fun hno cp rounds t hrun => wlp_cmdCp cp hv hok h0 hno () t hrun

/-- An inode with one block -/
def oneBlock (type : SfsType) (size block : Nat) : SfsVnode :=
  ⟨⟨size, fun i => if i = 0 then block else 0, 0⟩, type, 1, false⟩

/-- A volume with a file "a" of one byte -/
def smallVolume : Volume where
  disk b := if b = 3 then dirent 4 [97] else fun _ => 7
  ioErrors _ := none
  ios := 0
  nblocks := 8
  nbits := 8
  freemap b := decide (b < 6)
  freemapDirty := false
  vnode ino := if ino = rootIno then oneBlock .dir 64 3 else if ino = 4 then oneBlock .file 1 5 else .blank

/-- Paths start in the current directory only. -/
def currentDir : Starts := ⟨.ok (), fun _ => .error .enodev, false⟩

private theorem ref_oneBlock {type : SfsType} {size block : Nat} {r : Option Nat}
    (h : v.vnode f = oneBlock type size block) : v.ref f r = if r = some 0 then block else 0 := by
  have hinode : (v.file f idle).inode = (oneBlock type size block).inode := by
    rw [← h]
    rfl
  cases r with
  | none =>
    rw [Volume.ref, SfsSt.ref_none, hinode]
    rfl
  | some c =>
    simp only [Volume.ref, SfsSt.ref, SfsSt.fileBlock, SfsSt.entry, hinode, oneBlock, if_true, ite_self,
      Option.some.injEq]
    by_cases hc : c = 0
    · simp [hc, nDirect]
    · simp [hc]

private theorem smallVolume_lives : smallVolume.Lives f ↔ f = rootIno ∨ f = 4 := by
  simp only [Lives, smallVolume]
  by_cases hr : f = rootIno
  · simp [hr, oneBlock]
  · by_cases h4 : f = 4
    · simp [h4, rootIno, oneBlock]
    · simp [hr, h4, SfsVnode.blank]

theorem smallVolume_block (h : smallVolume.Lives f) : ∃ type size block,
    smallVolume.vnode f = oneBlock type size block ∧ block < 6 ∧ block ≠ 0 ∧ size ≤ 64 ∧ f < 6 ∧
      (f = rootIno ∧ block = 3 ∨ f = 4 ∧ block = 5) := by
  cases smallVolume_lives.mp h with
  | inl hr =>
    subst hr
    exact ⟨.dir, 64, 3, rfl, by decide, by decide, by decide, by decide, Or.inl ⟨rfl, rfl⟩⟩
  | inr h4 =>
    subst h4
    exact ⟨.file, 1, 5, rfl, by decide, by decide, by decide, by decide, Or.inr ⟨rfl, rfl⟩⟩

theorem smallVolume_dirent : (smallVolume.entry rootIno 0).word 0 = 4 ∧
    sfdName (smallVolume.entry rootIno 0) = [97] := by
  have hentry : ∀ i < direntSize, smallVolume.entry rootIno 0 i = dirent 4 [97] i := by
    intro i hi
    simp only [direntSize] at hi
    exact SfsSt.content_at (s := smallVolume.file rootIno idle) 0 (show i < blockSize by
      simp only [blockSize]
      omega)
  obtain ⟨hword, hname⟩ := entry_congr hentry
  rw [hword, hname]
  exact ⟨word_dirent (by decide), sfdName_dirent (by decide) (by decide)⟩

private theorem smallVolume_entry {k : Nat} {name : List UInt8} (h : smallVolume.EntryAt rootIno k name ino) :
    k = 0 ∧ ino = 4 ∧ name = [97] := by
  have hk : k = 0 := by
    have hlt := h.lt
    have hone : (smallVolume.vnode rootIno).inode.size / direntSize = 1 := by decide
    omega
  subst hk
  exact ⟨rfl, h.links.symm.trans smallVolume_dirent.1, h.name.symm.trans smallVolume_dirent.2⟩

private theorem smallVolume_names : Names smallVolume currentDir [97] 4 :=
  ⟨[97], rfl, 0, by decide, smallVolume_dirent.1, by decide, smallVolume_dirent.2⟩

private theorem smallVolume_valid : smallVolume.Valid where
  consistent f hf := by
    obtain ⟨type, size, block, hnode, hlt, hne, _⟩ := smallVolume_block hf
    have href (r : Option Nat) : smallVolume.ref f r = if r = some 0 then block else 0 :=
      ref_oneBlock hnode
    refine ⟨?_, Nat.le_refl _, fun b hlo hhi => absurd hhi (Nat.not_lt.mpr hlo), rfl, fun r h0 => ?_,
      fun r r' he h0 => ?_⟩
    · show 8 ≤ maxBlocks
      decide
    · change smallVolume.ref f r ≠ 0 at h0
      show smallVolume.ref f r < 8 ∧ decide (smallVolume.ref f r < 6) = true
      rw [href] at h0 ⊢
      split at h0
      case isTrue hr =>
        rw [if_pos hr]
        exact ⟨by omega, decide_eq_true hlt⟩
      case isFalse => exact absurd rfl h0
    · change smallVolume.ref f r = smallVolume.ref f r' at he
      change smallVolume.ref f r ≠ 0 at h0
      rw [href] at he h0
      rw [href] at he
      split at h0
      case isTrue hr =>
        rw [if_pos hr] at he
        split at he
        case isTrue hr' => rw [hr, hr']
        case isFalse => exact absurd he hne
      case isFalse => exact absurd rfl h0
  apart f g hf hg hne r r' h0 := by
    obtain ⟨_, _, block, hnode, _, _, _, _, hcase⟩ := smallVolume_block hf
    obtain ⟨_, _, block', hnode', _, _, _, _, hcase'⟩ := smallVolume_block hg
    rw [ref_oneBlock hnode] at h0 ⊢
    rw [ref_oneBlock hnode']
    split at h0
    case isTrue hr =>
      rw [if_pos hr]
      split <;> omega
    case isFalse => exact absurd rfl h0
  inodes f hf := by
    obtain ⟨_, _, _, _, _, _, _, hlt, _⟩ := smallVolume_block hf
    exact ⟨Nat.lt_trans hlt (by decide), decide_eq_true hlt⟩
  size f hf := by
    obtain ⟨_, _, _, hnode, _, _, hsize, _⟩ := smallVolume_block hf
    rw [hnode]
    exact Nat.le_trans hsize (by decide)
  root := ⟨rfl, by decide, fun k k' _ _ _ he he' =>
    (smallVolume_entry he).1.trans (smallVolume_entry he').1.symm⟩
  entries name ino hh := by
    obtain ⟨k, hk⟩ := hh
    rw [(smallVolume_entry hk).2.1]
    exact ⟨smallVolume_lives.mpr (Or.inr rfl), by decide⟩

theorem cmd_cp_copies_new : CpCopies smallVolume currentDir [97] [98] :=
  (cmd_cp_copies_iff smallVolume currentDir [97] [98] smallVolume_valid (fun _ => rfl) (by decide)).mpr
    fun halias => by
      obtain ⟨a, _, ⟨sub, hdev, hh⟩, _⟩ := halias
      have hsub : sub = [98] := getdevice_ok hdev
      rw [hsub, if_neg (by decide)] at hh
      obtain ⟨k, hk⟩ := hh
      exact absurd (smallVolume_entry hk).2.2 (by decide)

/-- "a" is not copied to "a". -/
theorem cmd_cp_not_copies_self : ¬ ∀ (v : Volume) (vfs : Starts) (src dst : List UInt8), v.Valid →
    (∀ i, v.ioErrors i = none) → 0 ∉ dst → CpCopies v vfs src dst := by
  intro hall
  have hcopies := hall smallVolume currentDir [97] [97] smallVolume_valid (fun _ => rfl) (by decide)
  have halias : Aliased smallVolume currentDir [97] [97] :=
    ⟨4, smallVolume_names, smallVolume_names, rfl, by decide⟩
  exact halias.not_copies smallVolume_valid (fun _ => rfl) hcopies

end CseOs.Kernel.Menu
