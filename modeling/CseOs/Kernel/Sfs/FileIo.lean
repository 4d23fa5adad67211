import CseOs.Kernel.Sfs.BlockMap

/-!
# File-level I/O: `sfs_partialio`, `sfs_blockio` and `sfs_io`

A request is a partial block at its head, whole blocks, and a partial block at its tail. A read is
cut off at the end of the file first, a write moves the end of the file last.
-/

namespace CseOs.Kernel.Sfs

open Framework Prog

/-- The `off_t` that a 32-bit value is converted to. -/
def toOff (x : Nat) : Int :=
  if x % 2 ^ 32 < 2 ^ 31 then (x % 2 ^ 32 : Nat) else (x % 2 ^ 32 : Nat) - 2 ^ 32

theorem toOff_of_lt {x : Nat} (h : x < 2 ^ 31) : toOff x = x := by
  have hmod : x % 2 ^ 32 = x := by omega
  rw [toOff, hmod, if_pos h]

def maxFileSize : Nat := maxFileBlocks * blockSize

namespace SfsSt

def mapUio (f : Uio → Uio) (s : SfsSt) : SfsSt := { s with req := { s.req with uio := f s.req.uio } }

/-- The block that a partial transfer works on; a hole is read as zeros. -/
def loadBuffer (diskblock : Nat) : Prog SfsSt Errno ByteStore := do
  let s ← state
  if diskblock = 0 then do
    check (s.req.uio.rw = .read)
    return zeros
  else
    rblock diskblock

/-- `sfs_partialio` before the write-back: the buffer and the block it belongs to -/
def partialBuffer (skipstart len : Nat) : Prog SfsSt Errno (ByteStore × Nat) := do
  let s ← state
  check (skipstart + len ≤ blockSize)
  let diskblock ← bmap (s.req.uio.offset / blockSize) (decide (s.req.uio.rw = .write))
  let iobuf ← loadBuffer diskblock
  let iobuf ← zoom req setReq (uiomove skipstart len iobuf)
  return (iobuf, diskblock)

/-- `sfs_partialio` -/
def partialio (skipstart len : Nat) : Prog SfsSt Errno Unit := do
  let block ← partialBuffer skipstart len
  let s ← state
  doIf (s.req.uio.rw = .write) (wblock block.1 block.2)

/-- The uio that `sfs_blockio` shows to the device. -/
def deviceUio (diskblock : Nat) (u : Uio) : Uio :=
  { u with offset := diskblock * blockSize, resid := blockSize }

/-- The original offset and residue, updated by what the device has done. -/
def restoreUio (saved : Uio) (diskblock : Nat) (u : Uio) : Uio :=
  { u with
    offset := u.offset - diskblock * blockSize + saved.offset
    resid := (sub32 u.resid blockSize + saved.resid) % 2 ^ 32 }

/-- `sfs_blockio` -/
def blockio : Prog SfsSt Errno Unit := do
  let s ← state
  let diskblock ← bmap (s.req.uio.offset / blockSize) (decide (s.req.uio.rw = .write))
  if diskblock = 0 then do
    check (s.req.uio.rw = .read)
    zoom req setReq (uiomovezeros blockSize)
  else do
    check (blockSize ≤ s.req.uio.resid)
    update (mapUio (deviceUio diskblock))
    ensuring rwblock (mapUio (restoreUio s.req.uio diskblock))

/-- `sfs_io` after the leading partial block -/
def ioBlocks : Prog SfsSt Errno Unit := do
  let s ← state
  if s.req.uio.resid = 0 then
    return ()
  else do
    check (s.req.uio.offset % blockSize = 0)
    loop (s.req.uio.resid / blockSize) fun _ => blockio
    let s ← state
    check (s.req.uio.resid < blockSize)
    doIf (0 < s.req.uio.resid) (partialio 0 s.req.uio.resid)

/-- `sfs_io` between the check for EOF and `out` -/
def ioBody : Prog SfsSt Errno Unit := do
  let s ← state
  let blkoff := s.req.uio.offset % blockSize
  doIf (blkoff ≠ 0) (partialio blkoff (min (blockSize - blkoff) s.req.uio.resid))
  ioBlocks

/-- What is beyond the end of the file, as `sfs_io` computes it. -/
def extraResid (s : SfsSt) : Nat :=
  (toOff (s.req.uio.offset + s.req.uio.resid) - toOff s.inode.size).toNat

def setResid (f : Nat → Nat) (u : Uio) : Uio := { u with resid := f u.resid }

/-- The file's length after a write -/
def adjustSize (s : SfsSt) : SfsSt :=
  if toOff s.inode.size < s.req.uio.offset then s.setSize s.req.uio.offset else s

/-- `sfs_io` -/
def sfsIo : Prog SfsSt Errno Unit := do
  let s ← state
  if s.req.uio.rw = .read then
    if toOff s.inode.size ≤ s.req.uio.offset then
      return ()
    else do
      check (0 < s.extraResid → s.extraResid < s.req.uio.resid)
      update (mapUio (setResid (sub32 · s.extraResid)))
      ensuring ioBody (mapUio (setResid fun resid => (resid + s.extraResid) % 2 ^ 32))
  else
    ensuring ioBody adjustSize

/-- `sfs_read` -/
def sfsRead : Prog SfsSt Errno Unit := do
  let s ← state
  check (s.req.uio.rw = .read)
  sfsIo

/-- `sfs_write` -/
def sfsWrite : Prog SfsSt Errno Unit := do
  let s ← state
  check (s.req.uio.rw = .write)
  sfsIo

end SfsSt

end CseOs.Kernel.Sfs
