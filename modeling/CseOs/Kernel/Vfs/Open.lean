import CseOs.Kernel.Sfs.Creation

/-!
# Opening a path: `vfspath.c` and `vfslookup.c`

One volume is mounted, and path names start in its root directory. The vnode operations are those of
`sfs_fileops` or `sfs_dirops`, by the type of the inode.
-/

namespace CseOs.Kernel.Vfs

open Framework Prog Sfs Volume

/-- `NAME_MAX` -/
def nameMax : Nat := 255

def oRdonly : Nat := 0

def oWronly : Nat := 1

def oRdwr : Nat := 2

def oCreat : Nat := 4

def oExcl : Nat := 8

def oTrunc : Nat := 16

def oAppend : Nat := 32

def oAccmode : Nat := 3

/-- Which of the places where a path can start are there: the current directory, the roots of devices,
and the boot file system. Those that are there are the root of the volume. -/
structure Starts where
  getcurdir : Except Errno Unit
  getroot : List UInt8 → Except Errno Unit
  bootfs : Bool

def colonChar : UInt8 := 58

def slashChar : UInt8 := 47

/-- Where the first colon or slash is -/
def firstMark (path : List UInt8) : Nat := path.findIdx fun c => c = colonChar ∨ c = slashChar

/-- The start of the path in `getdevice`: a device, the boot file system, or the current directory -/
def reachStart (vfs : Starts) (path : List UInt8) : Except Errno Unit :=
  if path[firstMark path]? = some colonChar ∧ 0 < firstMark path then
    vfs.getroot (path.take (firstMark path))
  else if path[firstMark path]? = some slashChar ∧ firstMark path = 0 then
    if vfs.bootfs = true then .ok () else .error .enoent
  else
    vfs.getcurdir

/-- The subpath in `getdevice`. Slashes after a device name, a leading slash or a leading colon are
skipped. -/
def subpathOf (path : List UInt8) : List UInt8 :=
  if path[firstMark path]? = some colonChar ∨
      path[firstMark path]? = some slashChar ∧ firstMark path = 0 then
    (path.drop (firstMark path + 1)).dropWhile fun c => c = slashChar
  else
    path

/-- `getdevice` -/
def getdevice (vfs : Starts) (path : List UInt8) : Except Errno (List UInt8) :=
  (reachStart vfs path).map fun _ => subpathOf path

def startPath (vfs : Starts) (path : List UInt8) : Prog Volume Errno (List UInt8) :=
  match getdevice vfs path with
  | .ok subpath => return subpath
  | .error e => raise e

/-- `vfs_lookparent` -/
def vfsLookparent (vfs : Starts) (path : List UInt8) (buflen : Nat) :
    Prog Volume Errno (Nat × List UInt8) := do
  let subpath ← startPath vfs path
  if subpath = [] then raise .einval else sfsLookparent rootIno subpath buflen

/-- `vfs_lookup` -/
def vfsLookup (vfs : Starts) (path : List UInt8) : Prog Volume Errno Nat := do
  let subpath ← startPath vfs path
  if subpath = [] then return rootIno else sfsLookup rootIno subpath

/-- The operation of the table that the vnode has -/
def vop {α : Type} (vn : Nat) (fileop dirop : Prog Volume Errno α) : Prog Volume Errno α := do
  let v ← state
  match (v.vnode vn).type with
  | .file => fileop
  | .dir => dirop
  | .inval => diverge

/-- `sfs_open` and `sfs_opendir` -/
def vopOpen (vn openflags : Nat) : Prog Volume Errno Unit :=
  vop vn (raiseIf (openflags &&& oAppend ≠ 0) .eunimp) do
    raiseIf (openflags &&& oAccmode ≠ oRdonly) .eisdir
    raiseIf (openflags &&& oAppend ≠ 0) .eisdir

def vopCreat (dir : Nat) (name : List UInt8) (excl : Bool) : Prog Volume Errno Nat :=
  vop dir (raise .enotdir) (sfsCreat dir name excl)

def vopTruncate (vn len : Nat) : Prog Volume Errno Unit :=
  vop vn (onFile vn (SfsSt.sfsTruncate len)) (raise .eisdir)

def vopRead (vn : Nat) (ku : Transfer) : Prog Volume Errno Transfer :=
  vop vn (fileIo vn ku SfsSt.sfsRead) (raise .eisdir)

def vopWrite (vn : Nat) (ku : Transfer) : Prog Volume Errno Transfer :=
  vop vn (fileIo vn ku SfsSt.sfsWrite) (raise .eisdir)

/-- The vnode that `vfs_open` finds or makes -/
def openVnode (vfs : Starts) (path : List UInt8) (openflags : Nat) : Prog Volume Errno Nat :=
  if openflags &&& oCreat ≠ 0 then do
    let parent ← vfsLookparent vfs path (nameMax + 1)
    vopCreat parent.1 parent.2 (decide (openflags &&& oExcl ≠ 0))
  else
    vfsLookup vfs path

/-- `vfs_open` -/
def vfsOpen (vfs : Starts) (path : List UInt8) (openflags : Nat) : Prog Volume Errno Nat := do
  let how := openflags &&& oAccmode
  raiseIf (how ≠ oRdonly ∧ how ≠ oWronly ∧ how ≠ oRdwr) .einval
  let vn ← openVnode vfs path openflags
  vopOpen vn openflags
  doIf (openflags &&& oTrunc ≠ 0) do
    raiseIf (how = oRdonly) .einval
    vopTruncate vn 0
  return vn

/-- A path names the root directory or what the directory has under the rest of it. -/
def Names (v : Volume) (vfs : Starts) (path : List UInt8) (ino : Nat) : Prop :=
  ∃ subpath, getdevice vfs path = .ok subpath ∧
    if subpath = [] then ino = rootIno else v.Holds rootIno subpath ino

variable {v v' v'' : Volume} {vfs : Starts} {path subpath name : List UInt8}
  {a b d f ino len n pos vn : Nat} {buf : ByteStore} {α : Type} {fileop dirop : Prog Volume Errno α}
  {Q : α → Volume → Prop} {E : Errno → Volume → Prop}

theorem zero_notMem_subpathOf (h0 : 0 ∉ path) : 0 ∉ subpathOf path := by
  unfold subpathOf
  split
  · exact fun hmem => h0 (List.mem_of_mem_drop ((List.dropWhile_sublist _).mem hmem))
  · exact h0

theorem getdevice_ok (h : getdevice vfs path = .ok subpath) : subpath = subpathOf path := by
  unfold getdevice at h
  cases hreach : reachStart vfs path with
  | error e => simp [hreach, Except.map] at h
  | ok _ =>
    rw [hreach] at h
    exact (Except.ok.inj h).symm

theorem wp_vop_file (h : (v.vnode vn).type = .file) : wp (vop vn fileop dirop) Q E v ↔
    wp fileop Q E v := by
  simp only [vop, wp_bind, wp_state, h]

theorem wp_vop_dir (h : (v.vnode vn).type = .dir) : wp (vop vn fileop dirop) Q E v ↔
    wp dirop Q E v := by
  simp only [vop, wp_bind, wp_state, h]

theorem wlp_vop (hfile : (v.vnode vn).type = .file → wlp fileop Q v)
    (hdir : (v.vnode vn).type = .dir → wlp dirop Q v) : wlp (vop vn fileop dirop) Q v := by
  simp only [vop, wlp_bind, wlp_state]
  cases htype : (v.vnode vn).type with
  | file => exact hfile htype
  | dir => exact hdir htype
  | inval => exact wlp_diverge.mpr trivial

private theorem wp_startPath {Q : List UInt8 → Volume → Prop} : wp (startPath vfs path) Q E v ↔
    match getdevice vfs path with
    | .ok subpath => Q subpath v
    | .error e => E e v := by
  unfold startPath
  cases getdevice vfs path <;> rfl

theorem Names.unique (hv : v.Valid) (h : Names v vfs path a) (h' : Names v vfs path b) : a = b := by
  obtain ⟨sub, hsub, ha⟩ := h
  obtain ⟨sub', hsub', hb⟩ := h'
  rw [hsub] at hsub'
  cases hsub'
  split at ha
  case isTrue h0 =>
    rw [if_pos h0] at hb
    rw [ha, hb]
  case isFalse h0 =>
    rw [if_neg h0] at hb
    exact hv.root.holds_unique ha hb

/-- A file that a path names exists and has links. -/
theorem Names.lives (hv : v.Valid) (h : Names v vfs path a) : v.Lives a := by
  obtain ⟨sub, _, ha⟩ := h
  split at ha
  case isTrue =>
    rw [ha]
    exact hv.lives_root
  case isFalse => exact (hv.entries _ _ ha).1

theorem wp_vfsLookup (hv : v.Valid) (hok : ∀ i, v.ioErrors i = none) :
    wp (vfsLookup vfs path) (fun a v' => v.Quiet v' ∧ Names v vfs path a)
      (fun _ _ => ∀ a, ¬ Names v vfs path a) v := by
  rw [vfsLookup, wp_bind, wp_startPath]
  cases hdev : getdevice vfs path with
  | error e =>
    intro a ha
    obtain ⟨sub, hsub, _⟩ := ha
    simp [hdev] at hsub
  | ok sub =>
    by_cases h0 : sub = []
    · simp only [h0, if_true, wp_pure]
      exact ⟨.refl v, sub, hdev, by rw [if_pos h0]⟩
    · have htype : ¬ (v.vnode rootIno).type ≠ .dir := fun hne => hne hv.root.type
      simp only [if_neg h0, sfsLookup, wp_bind, wp_state, wp_raiseIf, if_neg htype]
      apply wp_mono (hv.wp_lookonce hok)
      · exact fun a v' ht => ⟨ht.1, sub, hdev, by rw [if_neg h0]; exact ht.2⟩
      · intro _ _ hno a ha
        obtain ⟨sub', hsub', hh⟩ := ha
        rw [hdev] at hsub'
        cases hsub'
        rw [if_neg h0] at hh
        exact hno a hh

/-- To open for reading changes nothing. -/
theorem wp_vfsOpen_rdonly (hv : v.Valid) (hok : ∀ i, v.ioErrors i = none) :
    wp (vfsOpen vfs path oRdonly) (fun a v' => v.Quiet v' ∧ Names v vfs path a)
      (fun _ _ => ∀ a, ¬ Names v vfs path a) v := by
  have hhow : ¬ (oRdonly &&& oAccmode ≠ oRdonly ∧ oRdonly &&& oAccmode ≠ oWronly ∧
      oRdonly &&& oAccmode ≠ oRdwr) := by decide
  have hcreat : ¬ oRdonly &&& oCreat ≠ 0 := by decide
  have htrunc : ¬ oRdonly &&& oTrunc ≠ 0 := by decide
  have happend : ¬ oRdonly &&& oAppend ≠ 0 := by decide
  have hacc : ¬ oRdonly &&& oAccmode ≠ oRdonly := by decide
  simp only [vfsOpen, openVnode, wp_bind, wp_raiseIf, if_neg hhow, if_neg hcreat, wp_doIf,
    if_neg htrunc, wp_pure]
  apply wp_mono_post (wp_vfsLookup hv hok)
  intro a v' ht
  obtain ⟨hquiet, hnames⟩ := ht
  have hlives := hnames.lives hv
  have hsame : (v'.vnode a).type = (v.vnode a).type := by
    obtain ⟨k, rfl⟩ := hquiet
    rfl
  unfold vopOpen
  cases htype : (v.vnode a).type with
  | file =>
    rw [wp_vop_file (hsame.trans htype), wp_raiseIf, if_neg happend]
    exact ⟨hquiet, hnames⟩
  | dir =>
    rw [wp_vop_dir (hsame.trans htype), wp_bind, wp_raiseIf, if_neg hacc, wp_raiseIf, if_neg happend]
    exact ⟨hquiet, hnames⟩
  | inval => exact absurd htype hlives

/-- The flags for a file that is to be overwritten -/
def overwriteFlags : Nat := oWronly ||| oCreat ||| oTrunc

private theorem sfdName_length (sd : ByteStore) : (sfdName sd).length < nameLen := by
  have hle : (sfdName sd).length ≤ ((List.range (nameLen - 1)).map fun i => sd (4 + i)).length :=
    (List.takeWhile_sublist _).length_le
  rw [List.length_map, List.length_range] at hle
  exact Nat.lt_of_le_of_lt hle (by decide)

private theorem wp_vfsOpen_overwrite {Q : Nat → Volume → Prop} : wp (vfsOpen vfs path overwriteFlags) Q E v ↔
    wp (vfsLookparent vfs path (nameMax + 1)) (fun parent v₁ =>
      wp (vopCreat parent.1 parent.2 false) (fun vn v₂ =>
        wp (do vopOpen vn overwriteFlags; vopTruncate vn 0) (fun _ v' => Q vn v') E v₂) E v₁) E v := by
  have hhow : ¬ (overwriteFlags &&& oAccmode ≠ oRdonly ∧ overwriteFlags &&& oAccmode ≠ oWronly ∧
      overwriteFlags &&& oAccmode ≠ oRdwr) := by decide
  have hcreat : overwriteFlags &&& oCreat ≠ 0 := by decide
  have hexcl : decide (overwriteFlags &&& oExcl ≠ 0) = false := by decide
  have htrunc : overwriteFlags &&& oTrunc ≠ 0 := by decide
  have hrd : ¬ overwriteFlags &&& oAccmode = oRdonly := by decide
  simp only [vfsOpen, openVnode, wp_bind, wp_raiseIf, if_neg hhow, if_pos hcreat, hexcl, wp_doIf,
    if_pos htrunc, if_neg hrd, wp_pure]

private theorem wlp_vfsOpen_overwrite {Q : Nat → Volume → Prop} : wlp (vfsOpen vfs path overwriteFlags) Q v ↔
    wlp (vfsLookparent vfs path (nameMax + 1)) (fun parent v₁ =>
      wlp (vopCreat parent.1 parent.2 false) (fun vn v₂ =>
        wlp (do vopOpen vn overwriteFlags; vopTruncate vn 0) (fun _ v' => Q vn v') v₂) v₁) v := by
  have hhow : ¬ (overwriteFlags &&& oAccmode ≠ oRdonly ∧ overwriteFlags &&& oAccmode ≠ oWronly ∧
      overwriteFlags &&& oAccmode ≠ oRdwr) := by decide
  have hcreat : overwriteFlags &&& oCreat ≠ 0 := by decide
  have hexcl : decide (overwriteFlags &&& oExcl ≠ 0) = false := by decide
  have htrunc : overwriteFlags &&& oTrunc ≠ 0 := by decide
  have hrd : ¬ overwriteFlags &&& oAccmode = oRdonly := by decide
  simp only [vfsOpen, openVnode, wlp_bind, wlp_raiseIf, hhow, not_false_eq_true, true_implies,
    if_pos hcreat, hexcl, wlp_doIf, if_pos htrunc, hrd, wlp_pure]

theorem wp_truncateOpen (hr : v.Readable b) (htype : (v.vnode b).type = .file) :
    wp (do vopOpen b overwriteFlags; vopTruncate b 0) (fun _ v' => v.Changed b (fun _ => 0) 0 v')
      E v := by
  have happend : ¬ overwriteFlags &&& oAppend ≠ 0 := by decide
  rw [wp_bind, vopOpen, wp_vop_file htype, wp_raiseIf, if_neg happend, vopTruncate, wp_vop_file htype]
  exact wp_sfsTruncate_zero hr

theorem wlp_truncateOpen_dir {Q : Unit → Volume → Prop} (htype : (v.vnode b).type = .dir) :
    wlp (do vopOpen b overwriteFlags; vopTruncate b 0) Q v := by
  have hacc : overwriteFlags &&& oAccmode ≠ oRdonly := by decide
  refine @wlp_of_wp _ _ _ _ (fun _ _ => True) _ _ ?_
  rw [wp_bind, vopOpen, wp_vop_dir htype, wp_bind, wp_raiseIf, if_pos hacc]
  exact trivial

private theorem wp_vfsLookparent {Q : Nat × List UInt8 → Volume → Prop} (hv : v.Valid)
    (hdev : getdevice vfs path = .ok subpath) (hne : subpath ≠ []) :
    wp (vfsLookparent vfs path n) Q E v ↔
      if n < subpath.length + 1 then E .enametoolong v else Q (rootIno, subpath) v := by
  have htype : ¬ (v.vnode rootIno).type ≠ .dir := fun hne => hne hv.root.type
  simp only [vfsLookparent, wp_bind, wp_startPath, hdev, if_neg hne, sfsLookparent, wp_state,
    wp_raiseIf, if_neg htype, wp_pure]

private theorem wlp_vfsLookparent (hv : v.Valid) :
    wlp (vfsLookparent vfs path n) (fun parent v' => v' = v ∧ parent.1 = rootIno ∧
      getdevice vfs path = .ok parent.2 ∧ parent.2 ≠ []) v := by
  refine @wlp_of_wp _ _ _ _ (fun _ _ => True) _ _ ?_
  cases hdev : getdevice vfs path with
  | error e =>
    rw [vfsLookparent, wp_bind, wp_startPath, hdev]
    exact trivial
  | ok sub =>
    by_cases h0 : sub = []
    · simp only [vfsLookparent, wp_bind, wp_startPath, hdev, h0, if_true, wp_raise]
    · rw [wp_vfsLookparent hv hdev h0]
      split
      · exact trivial
      · exact ⟨rfl, rfl, rfl, h0⟩

/-- A file that exists is opened and emptied. -/
theorem wp_vfsOpen_held (hv : v.Valid) (hok : ∀ i, v.ioErrors i = none) (hb : Names v vfs path b)
    (htype : (v.vnode b).type = .file) : wp (vfsOpen vfs path overwriteFlags)
      (fun b' v' => b' = b ∧ v.Changed b (fun _ => 0) 0 v') E v := by
  obtain ⟨sub, hdev, hh⟩ := id hb
  have hne : sub ≠ [] := by
    intro h0
    rw [if_pos h0] at hh
    rw [hh, hv.root.type] at htype
    cases htype
  rw [if_neg hne] at hh
  have hlen : ¬ nameMax + 1 < sub.length + 1 := by
    obtain ⟨k, hk⟩ := hh
    have hshort := sfdName_length (v.entry rootIno k)
    rw [hk.name] at hshort
    simp only [nameLen, nameMax] at *
    omega
  rw [wp_vfsOpen_overwrite, wp_vfsLookparent hv hdev hne, if_neg hlen, vopCreat,
    wp_vop_dir hv.root.type]
  apply wp_mono_post (hv.wp_sfsCreat_held hok hh)
  intro vn v' ht
  obtain ⟨rfl, k, rfl⟩ := ht
  have hr := (hv.readable hok (hb.lives hv)).countIos k
  apply wp_mono_post (wp_truncateOpen hr htype)
  exact fun _ v' hchanged => ⟨rfl, hchanged.of_quiet ⟨k, rfl⟩⟩

/-- The path names an empty file `b` that was there under that name or is new, and the other files are
what they were. -/
structure Emptied (v : Volume) (vfs : Starts) (path : List UInt8) (b : Nat) (v' : Volume) : Prop where
  names : Names v' vfs path b
  type : (v'.vnode b).type = .file
  size : (v'.vnode b).inode.size = 0
  consistent : (v'.file b idle).Consistent
  errors : ∀ i, v'.ioErrors i = none
  root : v'.Beside rootIno b
  dir : (v'.vnode rootIno).type = .dir
  held : v.Lives b → Names v vfs path b ∧ (v.vnode b).type = .file
  files : ∀ f ≠ b, v.Lives f → f ≠ rootIno → v.Intact v' f b

/-- The names stay with the contents of the directory. -/
theorem Names.of_content (h : Names v vfs path a)
    (hcontent : v'.content rootIno = v.content rootIno)
    (hsize : (v'.vnode rootIno).inode.size = (v.vnode rootIno).inode.size) : Names v' vfs path a := by
  obtain ⟨sub, hdev, hh⟩ := h
  refine ⟨sub, hdev, ?_⟩
  split
  case isTrue h0 =>
    rw [if_pos h0] at hh
    exact hh
  case isFalse h0 =>
    rw [if_neg h0] at hh
    exact hh.of_content hcontent hsize

theorem Names.of_intact (h : Names v vfs path a) (hroot : v.Intact v' rootIno b) :
    Names v' vfs path a :=
  h.of_content hroot.content (by rw [hroot.vnode])

private theorem emptied_of_changed (hc : v.Changed b (fun _ => 0) 0 v') (hv : v.Valid)
    (hok : ∀ i, v.ioErrors i = none) (hb : Names v vfs path b) (htype : (v.vnode b).type = .file) :
    Emptied v vfs path b v' := by
  have hne : rootIno ≠ b := by
    intro he
    rw [← he, hv.root.type] at htype
    cases htype
  have hlives := hb.lives hv
  have hroot := hv.beside hv.lives_root hlives hne
  refine ⟨hb.of_intact (hc.others _ hne hroot), hc.type.trans htype, hc.size, hc.consistent, ?_,
    (hc.others _ hne hroot).beside, ?_, fun _ => ⟨hb, htype⟩, fun f hf hfl _ => ?_⟩
  · rw [hc.errors]
    exact hok
  · rw [(hc.others _ hne hroot).vnode]
    exact hv.root.type
  · exact hc.others f hf (hv.beside hfl hlives hf)

private theorem emptied_of_created (hc : v.Created subpath b v') (hdev : getdevice vfs path = .ok subpath)
    (hsub : subpath ≠ []) (hroot : (v.vnode rootIno).type = .dir)
    (ht : v'.Changed b (fun _ => 0) 0 v'') : Emptied v vfs path b v'' := by
  have hlives : v.Lives rootIno := by
    rw [Lives, hroot]
    decide
  have hne : rootIno ≠ b := fun he => hc.new (he ▸ hlives)
  have hbeside := beside_blank hc.root hc.blank
  have hnames : Names v' vfs path b := ⟨subpath, hdev, by rw [if_neg hsub]; exact hc.holds⟩
  refine ⟨hnames.of_intact (ht.others _ hne hbeside), ht.type.trans hc.type, ht.size, ht.consistent, ?_,
    (ht.others _ hne hbeside).beside, ?_, fun hl => absurd hl hc.new, fun f hf hfl hfr => ?_⟩
  · rw [ht.errors]
    exact hc.errors
  · rw [(ht.others _ hne hbeside).vnode]
    exact hc.dir
  · have hmade := hc.files f hfl hfr
    exact hmade.trans (ht.others f hf hmade.beside)

/-- Whatever is opened to be overwritten is empty, and nothing else was touched. -/
theorem wlp_vfsOpen_emptied (hv : v.Valid) (hok : ∀ i, v.ioErrors i = none) (h0 : 0 ∉ path) :
    wlp (vfsOpen vfs path overwriteFlags) (fun b v' => Emptied v vfs path b v') v := by
  by_cases hheld : ∃ b, Names v vfs path b ∧ (v.vnode b).type = .file
  · obtain ⟨b, hb, htype⟩ := hheld
    refine wlp_mono (wlp_of_wp (E := fun _ _ => True) (wp_vfsOpen_held hv hok hb htype)) fun b' v' ht => ?_
    obtain ⟨rfl, hchanged⟩ := ht
    exact emptied_of_changed hchanged hv hok hb htype
  · rw [wlp_vfsOpen_overwrite]
    refine wlp_mono (wlp_vfsLookparent hv) fun parent v₁ ht => ?_
    obtain ⟨dir, sub⟩ := parent
    obtain ⟨rfl, rfl, hdev, hsub⟩ := ht
    rw [vopCreat]
    refine wlp_vop (fun hfile => ?_) fun _ => ?_
    · exact absurd (hv.root.type.symm.trans hfile) (by decide)
    by_cases hany : ∃ ino, v₁.Holds rootIno sub ino
    · obtain ⟨ino, hh⟩ := hany
      have hnames : Names v₁ vfs path ino := ⟨sub, hdev, by rw [if_neg hsub]; exact hh⟩
      have hcreat := hv.wp_sfsCreat_held (E := fun _ _ => True) hok hh
      refine wlp_mono (wlp_of_wp hcreat) fun ino' v₂ ht => ?_
      obtain ⟨he, k, rfl⟩ := ht
      have hdir : (v₁.vnode ino).type = .dir := by
        cases htype : (v₁.vnode ino).type with
        | dir => rfl
        | file => exact absurd ⟨ino, hnames, htype⟩ hheld
        | inval => exact absurd htype (hnames.lives hv)
      rw [he]
      exact wlp_truncateOpen_dir hdir
    · have hname : 0 ∉ sub := by
        have hsame : sub = subpathOf path := getdevice_ok hdev
        rw [hsame]
        exact zero_notMem_subpathOf h0
      have hcreat := hv.wlp_sfsCreat_new hok (fun ino hh => hany ⟨ino, hh⟩) hname
      refine wlp_mono hcreat fun d v₂ hc => ?_
      have hr : v₂.Readable d := by
        refine ⟨consistent_blank hc.root hc.blank, hc.errors, ?_⟩
        rw [hc.blank]
        exact Nat.zero_le _
      refine wlp_mono (wlp_of_wp (E := fun _ _ => True) (wp_truncateOpen hr hc.type)) fun _ v' ht => ?_
      exact emptied_of_created hc hdev hsub hv.root.type ht

end CseOs.Kernel.Vfs
