import CseOs.Kernel.Sfs.Sharing

/-!
# A volume with its directory: `sfs_vnode.c`

The inodes of a volume share its disk and its free map. A directory is a file of entries of 64 bytes;
there is one, in the root inode. `sfs_loadvnode` hands out one vnode for an inode number, however many
names lead to it.
-/

namespace CseOs.Kernel.Sfs

open Framework Prog

inductive SfsType where
  | inval
  | file
  | dir
deriving DecidableEq, Repr

/-- An inode as `sfs_loadvnode` finds it, in memory or on the disk -/
structure SfsVnode where
  inode : Inode
  type : SfsType
  linkcount : Nat
  dirty : Bool

/-- What a block of zeros is as an inode -/
def SfsVnode.blank : SfsVnode := ⟨⟨0, fun _ => 0, 0⟩, .inval, 0, false⟩

/-- The disk, the block layer's errors, the free map, and the inodes; a block without an inode has
one of no type. -/
structure Volume where
  disk : Nat → ByteStore
  ioErrors : Nat → Option Errno
  ios : Nat
  nblocks : Nat
  nbits : Nat
  freemap : Nat → Bool
  freemapDirty : Bool
  vnode : Nat → SfsVnode

/-- `SFS_ROOT_LOCATION` -/
def rootIno : Nat := 1

/-- `sizeof(struct sfs_dir)` -/
def direntSize : Nat := 64

/-- `SFS_NAMELEN` -/
def nameLen : Nat := 60

/-- `mk_kuio` over a buffer -/
def kuio (buf : ByteStore) (len pos : Nat) (rw : UioRw) : Transfer :=
  ⟨mkKuio 0 len pos rw, buf, fun _ => none, 0⟩

/-- No request -/
def idle : Transfer := kuio zeros 0 0 .read

namespace Volume

/-- One file of the volume, with a request -/
def file (ino : Nat) (w : Transfer) (v : Volume) : SfsSt :=
  { req := w
    disk := v.disk
    ioErrors := v.ioErrors
    ios := v.ios
    nblocks := v.nblocks
    nbits := v.nbits
    freemap := v.freemap
    freemapDirty := v.freemapDirty
    inode := (v.vnode ino).inode
    dirty := (v.vnode ino).dirty }

def setVnode (ino : Nat) (sv : SfsVnode) (v : Volume) : Volume :=
  { v with vnode := Function.update v.vnode ino sv }

def setFile (ino : Nat) (s : SfsSt) (v : Volume) : Volume :=
  setVnode ino { v.vnode ino with inode := s.inode, dirty := s.dirty }
    { v with
      disk := s.disk
      ioErrors := s.ioErrors
      ios := s.ios
      nblocks := s.nblocks
      nbits := s.nbits
      freemap := s.freemap
      freemapDirty := s.freemapDirty }

def countIos (k : Nat) (v : Volume) : Volume := { v with ios := k }

def onFile {α : Type} (ino : Nat) (p : Prog SfsSt Errno α) : Prog Volume Errno α :=
  zoom (file ino idle) (setFile ino) p

/-- A request to a file; the request is returned as it is left. -/
def fileIo (ino : Nat) (w : Transfer) (p : Prog SfsSt Errno Unit) : Prog Volume Errno Transfer :=
  zoom (file ino w) (setFile ino) do
    p
    let s ← state
    return s.req

/-- `sfd_name`, with its null termination ensured -/
def sfdName (sd : ByteStore) : List UInt8 :=
  ((List.range (nameLen - 1)).map fun i => sd (4 + i)).takeWhile fun c => c ≠ 0

/-- The entry that `sfs_dir_link` sets up -/
def dirent (ino : Nat) (name : List UInt8) : ByteStore :=
  (ByteStore.setWord zeros 0 ino).blit 4 name.length (fun i => name.getD i 0) 0

/-- `sfs_readdir` -/
def readdir (dir slot : Nat) : Prog Volume Errno ByteStore := do
  let ku ← fileIo dir (kuio zeros direntSize (slot * direntSize) .read) SfsSt.sfsIo
  if 0 < ku.uio.resid then diverge else return ku.mem

/-- `sfs_writedir` -/
def writedir (dir : Nat) (sd : ByteStore) (slot : Nat) : Prog Volume Errno Unit := do
  let ku ← fileIo dir (kuio sd direntSize (slot * direntSize) .write) SfsSt.sfsIo
  if 0 < ku.uio.resid then diverge else return ()

/-- `sfs_dir_nentries` -/
def dirNentries (dir : Nat) : Prog Volume Errno Nat := do
  let v ← state
  check ((v.vnode dir).type = .dir)
  let size := (v.vnode dir).inode.size
  if size % direntSize ≠ 0 then diverge else return size / direntSize

/-- The inode number and slot that were found, and an empty slot. -/
structure DirScan where
  found : Option (Nat × Nat)
  emptyslot : Option Nat

/-- The loop body of `sfs_dir_findname` -/
def scanSlot (dir : Nat) (name : List UInt8) (i : Nat) (scan : DirScan) :
    Prog Volume Errno DirScan := do
  let tsd ← readdir dir i
  if tsd.word 0 = 0 then
    return { scan with emptyslot := some i }
  else if sfdName tsd = name then do
    check (scan.found = none)
    return { scan with found := some (tsd.word 0, i) }
  else
    return scan

def scanSlots (dir : Nat) (name : List UInt8) : Nat → Prog Volume Errno DirScan
  | 0 => return ⟨none, none⟩
  | i + 1 => do
    let scan ← scanSlots dir name i
    scanSlot dir name i scan

/-- `sfs_dir_findname`; a scan that found nothing is its `ENOENT`. -/
def dirFindname (dir : Nat) (name : List UInt8) : Prog Volume Errno DirScan := do
  let nentries ← dirNentries dir
  scanSlots dir name nentries

/-- `sfs_dir_link` -/
def dirLink (dir : Nat) (name : List UInt8) (ino : Nat) : Prog Volume Errno Unit := do
  let scan ← dirFindname dir name
  raiseIf (scan.found.isSome = true) .eexist
  raiseIf (nameLen < name.length + 1) .enametoolong
  match scan.emptyslot with
  | some slot => writedir dir (dirent ino name) slot
  | none => do
    let slot ← dirNentries dir
    writedir dir (dirent ino name) slot

/-- `sfs_loadvnode`. The type is forced for a new object only. -/
def loadvnode (ino : Nat) (forcetype : SfsType) : Prog Volume Errno Unit := do
  let v ← state
  if v.nblocks ≤ ino ∨ v.freemap ino = false then
    diverge
  else do
    doIf (forcetype ≠ .inval) do
      check ((v.vnode ino).type = .inval)
      update (setVnode ino { v.vnode ino with type := forcetype, dirty := true })
    let v ← state
    if (v.vnode ino).type = .inval then diverge else return ()

/-- `sfs_lookonce` -/
def lookonce (dir : Nat) (name : List UInt8) : Prog Volume Errno Nat := do
  let scan ← dirFindname dir name
  match scan.found with
  | none => raise .enoent
  | some (ino, _) => do
    loadvnode ino .inval
    let v ← state
    if (v.vnode ino).linkcount = 0 then diverge else return ino

/-- `sfs_makeobj`. The block of the new inode was cleared; which file the allocator is called for makes no
difference. -/
def makeobj (dir : Nat) (type : SfsType) : Prog Volume Errno Nat := do
  let ino ← onFile dir SfsSt.balloc
  update (setVnode ino .blank)
  loadvnode ino type
  return ino

/-- `sfs_reclaim` of an object without links -/
def discard (ino : Nat) : Prog Volume Errno Unit := do
  onFile ino (SfsSt.sfsTruncate 0)
  onFile ino (SfsSt.bfree ino)
  update (setVnode ino .blank)

def countLink (ino : Nat) (v : Volume) : Volume :=
  setVnode ino { v.vnode ino with linkcount := (v.vnode ino).linkcount + 1, dirty := true } v

/-- `sfs_creat` -/
def sfsCreat (dir : Nat) (name : List UInt8) (excl : Bool) : Prog Volume Errno Nat := do
  let scan ← dirFindname dir name
  raiseIf (scan.found.isSome = true ∧ excl = true) .eexist
  match scan.found with
  | some (ino, _) => do
    loadvnode ino .inval
    return ino
  | none => do
    let ino ← makeobj dir .file
    onError (dirLink dir name ino) (discard ino)
    update (countLink ino)
    return ino

/-- `sfs_lookparent`: there are no subdirectories, so the path is the name. -/
def sfsLookparent (dir : Nat) (path : List UInt8) (buflen : Nat) :
    Prog Volume Errno (Nat × List UInt8) := do
  let v ← state
  raiseIf ((v.vnode dir).type ≠ .dir) .enotdir
  raiseIf (buflen < path.length + 1) .enametoolong
  return (dir, path)

/-- `sfs_lookup` -/
def sfsLookup (dir : Nat) (path : List UInt8) : Prog Volume Errno Nat := do
  let v ← state
  raiseIf ((v.vnode dir).type ≠ .dir) .enotdir
  lookonce dir path

/-- There is an inode in the block. -/
def Lives (v : Volume) (ino : Nat) : Prop := (v.vnode ino).type ≠ .inval

def content (v : Volume) (ino : Nat) : Nat → UInt8 := (v.file ino idle).content

def ref (v : Volume) (ino : Nat) : Option Nat → Nat := (v.file ino idle).ref

/-- The bytes of a file, up to its size -/
def text (v : Volume) (ino : Nat) : List UInt8 :=
  (List.range (v.vnode ino).inode.size).map (v.content ino)

def entry (v : Volume) (dir k : Nat) : ByteStore := fun i => v.content dir (k * direntSize + i)

/-- Slot `k` of the directory links a name to an inode. -/
structure EntryAt (v : Volume) (dir k : Nat) (name : List UInt8) (ino : Nat) : Prop where
  lt : k < (v.vnode dir).inode.size / direntSize
  links : (v.entry dir k).word 0 = ino
  ne_zero : ino ≠ 0
  name : sfdName (v.entry dir k) = name

/-- The directory has the name for the inode. -/
def Holds (v : Volume) (dir : Nat) (name : List UInt8) (ino : Nat) : Prop :=
  ∃ k, v.EntryAt dir k name ino

/-- The entries of a directory are whole, and each name is there once. -/
structure Directory (v : Volume) (dir : Nat) : Prop where
  type : (v.vnode dir).type = .dir
  size : (v.vnode dir).inode.size % direntSize = 0
  unique : ∀ k k' name ino ino', v.EntryAt dir k name ino → v.EntryAt dir k' name ino' → k = k'

variable {v v' : Volume} {s u : SfsSt} {w : Transfer} {dir f i ino k n slot b : Nat}
  {name : List UInt8} {scan : DirScan} {sd : ByteStore} {p : Prog SfsSt Errno Unit}
  {E : Errno → Volume → Prop}

theorem file_setFile : (v.setFile ino s).file ino w = { s with req := w } := by
  simp [setFile, setVnode, file]

theorem vnode_setFile_of_ne (h : f ≠ ino) : (setFile ino s v).vnode f = v.vnode f :=
  Function.update_of_ne h ..

theorem file_setFile_of_ne (h : f ≠ ino) : (setFile ino s v).file f w =
    { s with req := w, inode := (v.vnode f).inode, dirty := (v.vnode f).dirty } := by
  simp [setFile, setVnode, file, h]

/-- A file that was only read is set to what it is. -/
theorem setFile_read {w' : Transfer} :
    setFile ino { v.file ino w with req := w', ios := k } v = v.countIos k := by
  simp [setFile, setVnode, file, countIos]

theorem consistent_file (h : (v.file ino idle).Consistent) : (v.file ino w).Consistent :=
  h.of_ref rfl rfl rfl fun _ hx => hx

theorem wp_fileIo {Q : Transfer → Volume → Prop} : wp (fileIo ino w p) Q E v ↔
    wp p (fun _ s => Q s.req (setFile ino s v)) (fun e s => E e (setFile ino s v))
      (v.file ino w) := by
  simp only [fileIo, wp_zoom, wp_bind, wp_state, wp_pure]

theorem wlp_fileIo {Q : Transfer → Volume → Prop} : wlp (fileIo ino w p) Q v ↔
    wlp p (fun _ s => Q s.req (setFile ino s v)) (v.file ino w) := by
  simp only [fileIo, wlp_zoom, wlp_bind, wlp_state, wlp_pure]

theorem kuio_room {len pos : Nat} {rw : UioRw} (h : len < 2 ^ 32) : (kuio sd len pos rw).Room :=
  ⟨h, Nat.le_refl _⟩

/-- A file in order on a working disk can be read. -/
structure Readable (v : Volume) (ino : Nat) : Prop where
  consistent : (v.file ino idle).Consistent
  errors : ∀ i, v.ioErrors i = none
  size : (v.vnode ino).inode.size ≤ maxFileSize

private theorem Readable.canRead (h : v.Readable ino) {len pos : Nat} (hlen : len < 2 ^ 32) :
    (v.file ino (kuio sd len pos .read)).CanRead :=
  ⟨consistent_file h.consistent, h.errors, kuio_room hlen, fun _ => rfl, rfl⟩

theorem Readable.countIos (h : v.Readable ino) (k : Nat) : (v.countIos k).Readable ino :=
  ⟨h.consistent.of_ref rfl rfl rfl fun _ hx => hx, h.errors, h.size⟩

/-- A read that ends where offsets are still positive delivers what the file has. -/
theorem Readable.wp_sfsRead (h : v.Readable ino) {len pos : Nat} (hend : pos + len < 2 ^ 31) :
    wp SfsSt.sfsRead
      (fun _ t => (v.file ino (kuio sd len pos .read)).ReadsExactly t) (fun _ _ => False)
      (v.file ino (kuio sd len pos .read)) := by
  have hcan : (v.file ino (kuio sd len pos .read)).CanRead := h.canRead (by omega)
  by_cases hpos : (v.vnode ino).inode.size ≤ pos
  · exact hcan.at_end (SfsSt.size_lt h.size) hpos
  · have hlt := Nat.not_le.mp hpos
    exact hcan.clamped (SfsSt.size_lt h.size) hlt hend (SfsSt.endsInside_of_size h.size hlt)

private theorem sfsRead_eq (h : s.req.uio.rw = .read) : SfsSt.sfsRead s = SfsSt.sfsIo s := by
  apply run_congr
  intro Q E
  simp only [SfsSt.sfsRead, wp_bind, wp_state, wp_check, h, true_and]

theorem entry_congr {sd' : ByteStore} (h : ∀ i < direntSize, sd' i = sd i) :
    sd'.word 0 = sd.word 0 ∧ sfdName sd' = sfdName sd := by
  simp only [direntSize] at h
  constructor
  · exact ByteStore.word_congr fun x _ hx => h x (by omega)
  · simp only [sfdName]
    congr 1
    apply List.map_congr_left
    intro i hi
    simp only [List.mem_range, nameLen] at hi
    exact h _ (by omega)

/-- Only the count of the block layer's requests changed. -/
def Quiet (v v' : Volume) : Prop := ∃ k, v' = v.countIos k

theorem Quiet.refl (v : Volume) : v.Quiet v := ⟨v.ios, rfl⟩

theorem Quiet.trans {v'' : Volume} (h : v.Quiet v') (h' : v'.Quiet v'') : v.Quiet v'' := by
  obtain ⟨k, rfl⟩ := h
  obtain ⟨k', rfl⟩ := h'
  exact ⟨k', rfl⟩

/-- An entry is read whole. -/
theorem Readable.wp_readdir (h : v.Readable dir) (hk : k < (v.vnode dir).inode.size / direntSize) :
    wp (readdir dir k) (fun sd v' => v.Quiet v' ∧
      sd.word 0 = (v.entry dir k).word 0 ∧ sfdName sd = sfdName (v.entry dir k)) E v := by
  have hsize := h.size
  have hlast : (k + 1) * direntSize ≤ (v.vnode dir).inode.size := by
    have hmul := Nat.mul_le_mul_right direntSize (Nat.succ_le_of_lt hk)
    exact Nat.le_trans hmul (Nat.div_mul_le_self ..)
  rw [Nat.succ_mul] at hlast
  have hend : k * direntSize + direntSize < 2 ^ 31 := by
    simp only [maxFileSize, maxFileBlocks, nDirect, dbPerIdb, blockSize] at hsize
    omega
  have hread : wp SfsSt.sfsRead (fun _ t =>
      (v.file dir (kuio zeros direntSize (k * direntSize) .read)).ReadsExactly t) (fun _ _ => False)
      (v.file dir (kuio zeros direntSize (k * direntSize) .read)) := h.wp_sfsRead hend
  rw [wp_of_run_eq (sfsRead_eq rfl)] at hread
  simp only [readdir, wp_bind, wp_fileIo, wp_ite, wp_diverge, wp_pure]
  apply wp_mono hread
  · intro _ t ht
    have hall : (v.file dir (kuio zeros direntSize (k * direntSize) .read)).readable = direntSize := by
      show min direntSize ((v.vnode dir).inode.size - k * direntSize) = direntSize
      omega
    obtain ⟨n, hn⟩ := ht.file
    have hres := ht.resid
    have hbytes := ht.bytes
    rw [hall] at hres hbytes
    have hzero : t.req.uio.resid = 0 := hres.trans (Nat.sub_self direntSize)
    rw [if_neg (by omega), hn]
    refine ⟨⟨n, setFile_read⟩, ?_⟩
    apply entry_congr
    intro i hi
    have hbyte := hbytes i hi
    rw [show (v.file dir (kuio zeros direntSize (k * direntSize) .read)).req.uio.iovBase = 0 from rfl,
      Nat.zero_add] at hbyte
    exact hbyte
  · exact fun _ _ hf => hf.elim

/-- The scan of the first `n` slots has found what is there. -/
def Scanned (v : Volume) (dir : Nat) (name : List UInt8) (n : Nat) (scan : DirScan) : Prop :=
  ∀ ino k, scan.found = some (ino, k) ↔ k < n ∧ v.EntryAt dir k name ino

theorem Scanned.skip (h : v.Scanned dir name n scan) (hno : ∀ ino, ¬ v.EntryAt dir n name ino)
    {scan' : DirScan} (hsame : scan'.found = scan.found) : v.Scanned dir name (n + 1) scan' := by
  intro ino k
  rw [hsame, h ino k]
  constructor
  · exact fun hk => ⟨by omega, hk.2⟩
  · intro hk
    have hne : k ≠ n := by
      intro he
      rw [he] at hk
      exact hno ino hk.2
    exact ⟨by omega, hk.2⟩

theorem Directory.not_found (hd : v.Directory dir) (h : v.Scanned dir name n scan)
    (he : v.EntryAt dir n name ino) : scan.found = none := by
  cases hf : scan.found with
  | none => rfl
  | some p =>
    obtain ⟨ino', k⟩ := p
    obtain ⟨hk, hent⟩ := (h ino' k).mp hf
    have hsame := hd.unique k n name ino' ino hent he
    omega

private theorem Directory.hit (hd : v.Directory dir) (he : v.EntryAt dir n name ino) :
    v.Scanned dir name (n + 1) { scan with found := some (ino, n) } := by
  intro ino' k
  constructor
  · intro hk
    cases hk
    exact ⟨Nat.lt_succ_self n, he⟩
  · intro hk
    have hsame := hd.unique k n name ino' ino hk.2 he
    subst hsame
    rw [← hk.2.links, he.links]

theorem Directory.wp_scanSlot (hd : v.Directory dir) (h : v.Readable dir)
    (hn : n < (v.vnode dir).inode.size / direntSize) (hq : v.Quiet v')
    (hs : v.Scanned dir name n scan) : wp (scanSlot dir name n scan)
      (fun scan' v'' => v.Quiet v'' ∧ v.Scanned dir name (n + 1) scan') E v' := by
  obtain ⟨m, rfl⟩ := hq
  simp only [scanSlot, wp_bind]
  apply wp_mono_post ((h.countIos m).wp_readdir hn)
  intro tsd v'' ht
  obtain ⟨hquiet, hino, hname⟩ := ht
  have hquiet' := (Quiet.trans ⟨m, rfl⟩ hquiet : v.Quiet v'')
  have hino' : tsd.word 0 = (v.entry dir n).word 0 := hino
  have hname' : sfdName tsd = sfdName (v.entry dir n) := hname
  simp only [wp_ite, wp_bind, wp_check, wp_pure, hino', hname']
  split
  case isTrue h0 =>
    exact ⟨hquiet', hs.skip (fun ino hent => hent.ne_zero (hent.links.symm.trans h0)) rfl⟩
  case isFalse h0 =>
    split
    case isTrue hsame =>
      have hent : v.EntryAt dir n name ((v.entry dir n).word 0) := ⟨hn, rfl, h0, hsame⟩
      exact ⟨hd.not_found hs hent, hquiet', hd.hit hent⟩
    case isFalse hother => exact ⟨hquiet', hs.skip (fun ino hent => hother hent.name) rfl⟩

theorem Directory.wp_scanSlots (hd : v.Directory dir) (h : v.Readable dir)
    (hn : n ≤ (v.vnode dir).inode.size / direntSize) :
    wp (scanSlots dir name n) (fun scan v' => v.Quiet v' ∧ v.Scanned dir name n scan) E v := by
  induction n with
  | zero => exact ⟨.refl v, fun _ _ => by simp⟩
  | succ n ih =>
    simp only [scanSlots, wp_bind]
    apply wp_mono_post (ih (by omega))
    intro scan v' ht
    exact hd.wp_scanSlot h hn ht.1 ht.2

/-- What `sfs_dir_findname` finds is what the directory holds. -/
def Finds (v : Volume) (dir : Nat) (name : List UInt8) (scan : DirScan) : Prop :=
  ∀ ino, (∃ k, scan.found = some (ino, k)) ↔ v.Holds dir name ino

theorem Directory.wp_dirNentries {Q : Nat → Volume → Prop} (hd : v.Directory dir) :
    wp (dirNentries dir) Q E v ↔ Q ((v.vnode dir).inode.size / direntSize) v := by
  simp only [dirNentries, wp_bind, wp_state, wp_check, hd.type, true_and, hd.size, ne_eq,
    not_true_eq_false, if_false, wp_pure]

theorem Directory.wp_dirFindname (hd : v.Directory dir) (h : v.Readable dir) :
    wp (dirFindname dir name) (fun scan v' => v.Quiet v' ∧ v.Finds dir name scan) E v := by
  rw [dirFindname, wp_bind, hd.wp_dirNentries]
  apply wp_mono_post (hd.wp_scanSlots h (Nat.le_refl _))
  intro scan v' ht
  obtain ⟨hquiet, hs⟩ := ht
  refine ⟨hquiet, fun ino => ?_⟩
  constructor
  · intro hf
    obtain ⟨k, hk⟩ := hf
    exact ⟨k, ((hs ino k).mp hk).2⟩
  · intro hh
    obtain ⟨k, hk⟩ := hh
    exact ⟨k, (hs ino k).mpr ⟨hk.lt, hk⟩⟩

end Volume

end CseOs.Kernel.Sfs
