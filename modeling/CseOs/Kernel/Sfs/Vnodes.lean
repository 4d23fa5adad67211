import CseOs.Kernel.Sfs.Entries

/-!
# The vnodes of a mounted volume: `sfs_vnode.c`, `sfs_fs.c` and `vnode.c`

Inodes are loaded into a table when they are first asked for, and written back when the last reference
to them is dropped. A file that has no name then is erased. Memory may run out when an inode is loaded and when
a volume is mounted.
-/

namespace CseOs.Kernel.Sfs

open Framework Prog

/-- `struct sfs_fs` on its device. The vnodes of `vol` are those of the table, in whose order their inode
numbers are in `vnodes`, with the reference counts in `refs`. Of the requests for memory, `asked` were made, and
`memory` says which are granted. -/
structure SfsFs where
  vol : Volume
  vnodes : List Nat
  refs : Nat → Nat
  memory : Nat → Bool
  asked : Nat

namespace SfsFs

def setVol (vol : Volume) (fs : SfsFs) : SfsFs := { fs with vol := vol }

def onVol {α : Type} (p : Prog Volume Errno α) : Prog SfsFs Errno α := zoom SfsFs.vol setVol p

/-- A program on the open file `ino` -/
def onFile {α : Type} (ino : Nat) (p : Prog SfsSt Errno α) : Prog SfsFs Errno α :=
  onVol (Volume.onFile ino p)

def setVnode (ino : Nat) (sv : SfsVnode) (fs : SfsFs) : SfsFs := fs.setVol (fs.vol.setVnode ino sv)

def setRefs (ino n : Nat) (fs : SfsFs) : SfsFs := { fs with refs := Function.update fs.refs ino n }

def addVnode (ino : Nat) (sv : SfsVnode) (fs : SfsFs) : SfsFs :=
  setRefs ino 1 (setVnode ino sv { fs with vnodes := fs.vnodes ++ [ino] })

def dropVnode (ino : Nat) (fs : SfsFs) : SfsFs :=
  setRefs ino 0 { fs with vnodes := fs.vnodes.erase ino }

/-- One more request for memory -/
def ask (fs : SfsFs) : SfsFs := { fs with asked := fs.asked + 1 }

/-- `kmalloc`, or a function that fails when its `kmalloc` does -/
def allocate : Prog SfsFs Errno Unit := do
  let fs ← state
  update ask
  raiseIf (fs.memory fs.asked = false) .enomem

/-- `sfs_bused` holds of the block, or there is a panic. -/
def checkBused (block : Nat) : Prog SfsFs Errno Unit := do
  let fs ← state
  check (block < fs.vol.nblocks ∧ fs.vol.freemap block = true)

/-- `VOP_INCREF` -/
def incref (ino : Nat) : Prog SfsFs Errno Unit := update fun fs => fs.setRefs ino (fs.refs ino + 1)

/-- `sfs_sync_inode` -/
def syncInode (ino : Nat) : Prog SfsFs Errno Unit := do
  let fs ← state
  let sv := fs.vol.vnode ino
  doIf (sv.dirty = true) do
    onFile ino (SfsSt.wblock (inodeBytes sv) ino)
    update (setVnode ino { sv with dirty := false })

/-- `VOP_TRUNCATE` -/
def truncate (ino len : Nat) : Prog SfsFs Errno Unit := do
  let fs ← state
  raiseIf ((fs.vol.vnode ino).type = .dir) .eisdir
  onFile ino (SfsSt.sfsTruncate len)

/-- `sfs_reclaim`, once the reference that was dropped is known to be the last one -/
def reclaim (ino : Nat) : Prog SfsFs Errno Unit := do
  let fs ← state
  doIf ((fs.vol.vnode ino).linkcount = 0) (truncate ino 0)
  syncInode ino
  let fs ← state
  doIf ((fs.vol.vnode ino).linkcount = 0) (onFile ino (SfsSt.bfree ino))
  check (ino ∈ fs.vnodes)
  update (dropVnode ino)

/-- `VOP_DECREF`; of an error of `sfs_reclaim` there is a warning only. -/
def decref (ino : Nat) : Prog SfsFs Errno Unit := do
  let fs ← state
  check (0 < fs.refs ino)
  if 1 < fs.refs ino then update (setRefs ino (fs.refs ino - 1)) else ignoring (reclaim ino)

/-- The vnodes that the search for `ino` comes across -/
def searched (ino : Nat) (fs : SfsFs) : List Nat :=
  fs.vnodes.takeWhile (fun x => x ≠ ino) ++ if ino ∈ fs.vnodes then [ino] else []

/-- The vnode of an inode that was just read -/
def loaded (data : ByteStore) (forcetype : SfsType) : SfsVnode :=
  if forcetype = .inval then inodeOf data else { inodeOf data with type := forcetype, dirty := true }

/-- `sfs_loadvnode`. Memory is asked for the vnode, then by `VOP_INIT` and by `array_add`. -/
def loadvnode (ino : Nat) (forcetype : SfsType) : Prog SfsFs Errno Unit := do
  let fs ← state
  forEach checkBused (fs.searched ino)
  if ino ∈ fs.vnodes then do
    check (forcetype = .inval)
    incref ino
  else do
    allocate
    checkBused ino
    let data ← onFile ino (SfsSt.rblock ino)
    check (forcetype = .inval ∨ (inodeOf data).type = .inval)
    check ((loaded data forcetype).type ≠ .inval)
    allocate
    allocate
    update (addVnode ino (loaded data forcetype))

/-- `sfs_getroot` -/
def getroot : Prog SfsFs Errno Unit := orDiverge (loadvnode rootIno .inval)

/-- `sfs_lookonce`, with the slot of the name -/
def lookonce (dir : Nat) (name : List UInt8) : Prog SfsFs Errno (Nat × Nat) := do
  let scan ← onVol (Volume.dirFindname dir name)
  match scan.found with
  | none => raise .enoent
  | some (ino, slot) => do
    loadvnode ino .inval
    let fs ← state
    check ((fs.vol.vnode ino).linkcount ≠ 0)
    return (ino, slot)

/-- `sfs_makeobj`. When the new inode cannot be loaded its block stays marked. -/
def makeobj (dir : Nat) (type : SfsType) : Prog SfsFs Errno Nat := do
  let ino ← onFile dir SfsSt.balloc
  loadvnode ino type
  return ino

def setLinkcount (ino n : Nat) (fs : SfsFs) : SfsFs :=
  setVnode ino { fs.vol.vnode ino with linkcount := n, dirty := true } fs

/-- `sfi_linkcount++` on 16 bits -/
def countLink (ino : Nat) : Prog SfsFs Errno Unit :=
  update fun fs => fs.setLinkcount ino (((fs.vol.vnode ino).linkcount + 1) % 2 ^ 16)

/-- `sfi_linkcount--`, with the assertion before it -/
def uncountLink (ino : Nat) : Prog SfsFs Errno Unit := do
  let fs ← state
  check (0 < (fs.vol.vnode ino).linkcount)
  update fun fs => fs.setLinkcount ino ((fs.vol.vnode ino).linkcount - 1)

/-- `sfi_linkcount--` in the recovery of `sfs_rename`, which marks nothing as dirty -/
def recountLink (ino : Nat) : Prog SfsFs Errno Unit :=
  update fun fs => fs.setVnode ino
    { fs.vol.vnode ino with linkcount := ((fs.vol.vnode ino).linkcount + 2 ^ 16 - 1) % 2 ^ 16 }

/-- `sfs_creat` -/
def creat (dir : Nat) (name : List UInt8) (excl : Bool) : Prog SfsFs Errno Nat := do
  let scan ← onVol (Volume.dirFindname dir name)
  raiseIf (scan.found.isSome = true ∧ excl = true) .eexist
  match scan.found with
  | some (ino, _) => do
    loadvnode ino .inval
    return ino
  | none => do
    let ino ← makeobj dir .file
    let _ ← onError (onVol (Volume.dirLinkSlot dir name ino)) (decref ino)
    countLink ino
    return ino

/-- `sfs_link` -/
def link (dir : Nat) (name : List UInt8) (file : Nat) : Prog SfsFs Errno Unit := do
  let _ ← onVol (Volume.dirLinkSlot dir name file)
  countLink file

/-- `sfs_remove` -/
def remove (dir : Nat) (name : List UInt8) : Prog SfsFs Errno Unit := do
  let victim ← lookonce dir name
  onError (onVol (Volume.dirUnlink dir victim.2)) (decref victim.1)
  uncountLink victim.1
  decref victim.1

/-- `sfs_rename` within the root directory -/
def rename (dir : Nat) (n1 n2 : List UInt8) : Prog SfsFs Errno Unit := do
  check (dir = rootIno)
  let g ← lookonce dir n1
  let fs ← state
  check ((fs.vol.vnode g.1).type = .file)
  let slot2 ← onError (onVol (Volume.dirLinkSlot dir n2 g.1)) (decref g.1)
  countLink g.1
  onError (onVol (Volume.dirUnlink dir g.2)) do
    orDiverge (onVol (Volume.dirUnlink dir slot2))
    recountLink g.1
    decref g.1
  uncountLink g.1
  decref g.1

/-- `sfs_lookparent`: there are no subdirectories, so the path is the name. -/
def lookparent (dir : Nat) (path : List UInt8) (buflen : Nat) : Prog SfsFs Errno (Nat × List UInt8) := do
  let fs ← state
  raiseIf ((fs.vol.vnode dir).type ≠ .dir) .enotdir
  raiseIf (buflen < path.length + 1) .enametoolong
  incref dir
  return (dir, path)

/-- `sfs_lookup` -/
def lookup (dir : Nat) (path : List UInt8) : Prog SfsFs Errno Nat := do
  let fs ← state
  raiseIf ((fs.vol.vnode dir).type ≠ .dir) .enotdir
  let final ← lookonce dir path
  return final.1

/-- `VOP_READ` -/
def read (ino : Nat) (w : Transfer) : Prog SfsFs Errno Transfer := do
  let fs ← state
  raiseIf ((fs.vol.vnode ino).type = .dir) .eisdir
  onVol (Volume.fileIo ino w SfsSt.sfsRead)

/-- `VOP_WRITE` -/
def write (ino : Nat) (w : Transfer) : Prog SfsFs Errno Transfer := do
  let fs ← state
  raiseIf ((fs.vol.vnode ino).type = .dir) .eisdir
  onVol (Volume.fileIo ino w SfsSt.sfsWrite)

/-- `struct stat`, as far as `sfs_stat` fills it in -/
structure Stat where
  mode : SfsType
  size : Nat
  nlink : Nat
  blocks : Nat

/-- `sfs_gettype` -/
def gettype (ino : Nat) : Prog SfsFs Errno SfsType := do
  let fs ← state
  check ((fs.vol.vnode ino).type ≠ .inval)
  return (fs.vol.vnode ino).type

/-- `sfs_stat`. Links and blocks are not supported. -/
def stat (ino : Nat) : Prog SfsFs Errno Stat := do
  let mode ← gettype ino
  let fs ← state
  return ⟨mode, (fs.vol.vnode ino).inode.size, 0, 0⟩

/-- A program of the block layer, on the device -/
def onDevice {α : Type} (p : Prog SfsSt Errno α) : Prog SfsFs Errno α := onFile rootIno p

/-- `sfs_sync`. The superblock is never dirty. -/
def sync : Prog SfsFs Errno Unit := do
  let fs ← state
  forEach (fun ino => ignoring (syncInode ino)) fs.vnodes
  let fs ← state
  doIf (fs.vol.freemapDirty = true) do
    loop (bitBlocks fs.vol.nblocks) fun j =>
      onDevice (SfsSt.wblock (mapBlock fs.vol.freemap j) (mapLocation + j))
    update fun fs => fs.setVol { fs.vol with freemapDirty := false }

/-- `sfs_unmount` -/
def unmount : Prog SfsFs Errno Unit := do
  let fs ← state
  raiseIf (fs.vnodes ≠ []) .ebusy
  check (fs.vol.freemapDirty = false)

/-- A volume of `nblocks` blocks, with nothing loaded yet -/
def blankFs (nblocks : Nat) (fs : SfsFs) : SfsFs where
  vol := { fs.vol with
    nblocks := nblocks, nbits := bitmapSize nblocks, freemap := fun _ => false, freemapDirty := false }
  vnodes := []
  refs _ := 0
  memory := fs.memory
  asked := fs.asked

/-- A block of the free map as it was read -/
def setMapBlock (j : Nat) (data : ByteStore) (fs : SfsFs) : SfsFs :=
  fs.setVol { fs.vol with
    freemap := fun b =>
      if b / blockBits = j then (data (b % blockBits / 8)).toBitVec.getLsbD (b % 8) else fs.vol.freemap b }

/-- `sfs_domount`. Memory is asked for `struct sfs_fs`, its array of vnodes and its free map. -/
def domount : Prog SfsFs Errno Unit := do
  allocate
  allocate
  let super ← onDevice (SfsSt.rblock sbLocation)
  raiseIf (super.word 0 ≠ sfsMagic) .einval
  allocate
  update (blankFs (super.word 4))
  loop (bitBlocks (super.word 4)) fun j => do
    let data ← onDevice (SfsSt.rblock (mapLocation + j))
    update (setMapBlock j data)

/-- `vfs_unmount`, and a mount of the device after it -/
def remount : Prog SfsFs Errno Unit := do
  sync
  unmount
  domount

/-- `vfs_unmountall`, which is all that is done about the volume when the system goes down -/
def unmountall : Prog SfsFs Errno Unit := ignoring do
  orElse sync sync
  unmount

/-- The system goes down and comes up again, with nothing in memory. -/
def reboot : Prog SfsFs Errno Unit := do
  unmountall
  domount

end SfsFs

end CseOs.Kernel.Sfs
