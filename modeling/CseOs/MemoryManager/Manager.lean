import CseOs.Framework.ByteStore
import CseOs.Framework.Program

/-!
# The paged memory manager

The `MemoryManager` class: a page table over a few physical frames, a disk with room for every
page, and CLOCK replacement. The vectors of the class are functions from their indices; their
lengths are the page count, the physical size, the frame count and page count times page size,
and `index` checks every access against them.
-/

namespace CseOs

open Framework Framework.Prog

structure PageTableEntry where
  validBit : Bool := false
  presentBit : Bool := false
  referenceBit : Bool := false
  modifyBit : Bool := false
  pageFrameNum : Int := -1
deriving DecidableEq

structure MemoryManager where
  pageTable : Nat → PageTableEntry
  physicalMemory : ByteStore
  freeFrames : Nat → Bool
  diskStorage : ByteStore
  pageSize : Nat
  pageCount : Nat
  physicalSize : Nat
  clockPointer : Nat := 0

namespace MemoryManager

/-- The exceptions the class throws, with what they say. -/
inductive Exn where
  | outOfRange (what : String)
  | runtimeError (what : String)
  | logicError (what : String)
deriving DecidableEq

abbrev Method := Prog MemoryManager Exn

/-- The constructor with its three arguments; the frames fill the physical memory. -/
def new (pageSize numPages numFrames : Nat) : MemoryManager where
  pageTable := fun _ => {}
  physicalMemory := fun _ => 0
  freeFrames := fun _ => true
  diskStorage := fun _ => 0
  pageSize := pageSize
  pageCount := numPages
  physicalSize := numFrames * pageSize

/-- The length of `freeFrames`. -/
def frameCount (m : MemoryManager) : Nat := m.physicalSize / m.pageSize

/-- The length of `diskStorage`. -/
def diskSize (m : MemoryManager) : Nat := m.pageCount * m.pageSize

/-- The sizes are ints, and so are the two products of the constructor. -/
structure SizesFit (pageSize numPages numFrames : Nat) : Prop where
  page : pageSize < 2 ^ 31
  physical : numFrames * pageSize < 2 ^ 31
  disk : numPages * pageSize < 2 ^ 31

def setEntry (v : Nat) (f : PageTableEntry → PageTableEntry) (m : MemoryManager) : MemoryManager :=
  { m with pageTable := Function.update m.pageTable v (f (m.pageTable v)) }

def setFree (f : Nat) (b : Bool) (m : MemoryManager) : MemoryManager :=
  { m with freeFrames := Function.update m.freeFrames f b }

def storeByte (a : Nat) (b : UInt8) (m : MemoryManager) : MemoryManager :=
  { m with physicalMemory := Function.update m.physicalMemory a b }

def storeDisk (a : Nat) (b : UInt8) (m : MemoryManager) : MemoryManager :=
  { m with diskStorage := Function.update m.diskStorage a b }

def writeMemory (physicalAddress : Int) (data : UInt8) : Method Unit := do
  let m ← state
  raiseIf (physicalAddress ≥ m.physicalSize ∨ physicalAddress < 0)
    (.outOfRange "Physical address out of bounds")
  let a ← index physicalAddress m.physicalSize
  update (storeByte a data)

def readMemory (physicalAddress : Int) : Method UInt8 := do
  let m ← state
  raiseIf (physicalAddress ≥ m.physicalSize ∨ physicalAddress < 0)
    (.outOfRange "Physical address out of bounds")
  let a ← index physicalAddress m.physicalSize
  return m.physicalMemory a

def allocatePage (virtualPageNumber frameNumber : Int) : Method Unit := do
  let m ← state
  raiseIf (virtualPageNumber ≥ m.pageCount ∨ virtualPageNumber < 0)
    (.outOfRange "Invalid virtual page number")
  raiseIf (frameNumber ≥ m.frameCount ∨ frameNumber < 0) (.outOfRange "Invalid frame number")
  let v ← index virtualPageNumber m.pageCount
  update (setEntry v fun e =>
    { e with validBit := true, pageFrameNum := frameNumber, presentBit := true })
  let f ← index frameNumber m.frameCount
  update (setFree f false)

def wipeMemoryFrame (frameNumber : Int) : Method Unit := do
  let m ← state
  raiseIf (frameNumber ≥ m.frameCount ∨ frameNumber < 0) (.outOfRange "Invalid frame number")
  loop m.pageSize fun i => do
    let a ← index (frameNumber * m.pageSize + i) m.physicalSize
    update (storeByte a 0)

def writePageToDisk (virtualPageNumber : Nat) : Method Unit := do
  let m ← state
  let v ← index virtualPageNumber m.pageCount
  let frameNum := (m.pageTable v).pageFrameNum
  loop m.pageSize fun i => do
    let m ← state
    let d ← index (virtualPageNumber * m.pageSize + i : Nat) m.diskSize
    let a ← index (frameNum * m.pageSize + i) m.physicalSize
    update (storeDisk d (m.physicalMemory a))

def readPageFromDisk (virtualPageNumber : Nat) (frameNumber : Int) : Method Unit := do
  let m ← state
  loop m.pageSize fun i => do
    let m ← state
    let a ← index (frameNumber * m.pageSize + i) m.physicalSize
    let d ← index (virtualPageNumber * m.pageSize + i : Nat) m.diskSize
    update (storeByte a (m.diskStorage d))

def deletePageFromDisk (virtualPageNumber : Nat) : Method Unit := do
  let m ← state
  loop m.pageSize fun i => do
    let d ← index (virtualPageNumber * m.pageSize + i : Nat) m.diskSize
    update (storeDisk d 0)

/-- The top of the loop in `_replacePage`: a hand at the end of the table wraps around. -/
def wrapClock (m : MemoryManager) : MemoryManager :=
  if m.clockPointer = m.pageCount then { m with clockPointer := 0 } else m

def advanceClock (m : MemoryManager) : MemoryManager :=
  { m with clockPointer := m.clockPointer + 1 }

/-- The loop of `_replacePage`, for at most `fuel` ticks: the frame, the number and the modify
bit of the page it takes out. -/
def tick : Nat → Method (Int × Nat × Bool)
  | 0 => diverge
  | fuel + 1 => do
    update wrapClock
    let m ← state
    let v ← index m.clockPointer m.pageCount
    let entry := m.pageTable v
    if entry.presentBit then
      if entry.referenceBit then do
        update (setEntry v fun e => { e with referenceBit := false })
        update advanceClock
        tick fuel
      else do
        update (setEntry v fun e => { e with presentBit := false })
        update advanceClock
        return (entry.pageFrameNum, v, entry.modifyBit)
    else do
      update advanceClock
      tick fuel

/-- Two turns of the hand are enough: the first clears every reference bit. -/
def replacePage : Method Int := do
  let m ← state
  let (frameNumber, replacedVPN, entryWasModified) ← tick (2 * m.pageCount)
  doIf entryWasModified (writePageToDisk replacedVPN)
  let f ← index frameNumber m.frameCount
  update (setFree f true)
  update (setEntry replacedVPN fun e => { e with pageFrameNum := -1 })
  wipeMemoryFrame frameNumber
  return frameNumber

/-- The first index below `n` that passes the test, or `-1`. -/
def firstIndex (n : Nat) (p : Nat → Bool) : Int :=
  match (List.range n).find? p with
  | some i => i
  | none => -1

/-- The frame that `_handlePageFault` and `allocateAnyPage` use: the first free one, or one
taken from a page. -/
def takeFrame : Method Int := do
  let m ← state
  let freeFrame := firstIndex m.frameCount m.freeFrames
  if freeFrame = -1 then replacePage else return freeFrame

def handlePageFault (virtualPageNumber : Nat) : Method Unit := do
  let frame ← takeFrame
  update (setEntry virtualPageNumber fun e => { e with pageFrameNum := frame })
  readPageFromDisk virtualPageNumber frame
  let m ← state
  let f ← index frame m.frameCount
  update (setFree f false)
  update (setEntry virtualPageNumber fun e => { e with presentBit := true })

/-- `virtualAddress & (PAGE_SIZE - 1)` on 32-bit words; the mask is not negative. -/
def pageOffset (virtualAddress : Int) (pageSize : Nat) : Nat :=
  (BitVec.ofInt 32 virtualAddress &&& BitVec.ofNat 32 (pageSize - 1)).toNat

def virtualToPhysicalAddress (virtualAddress : Int) (writeOperation : Bool) : Method Int := do
  let m ← state
  let offset := pageOffset virtualAddress m.pageSize
  let virtualPageNumber := virtualAddress.tdiv m.pageSize
  raiseIf (virtualPageNumber ≥ m.pageCount ∨ virtualPageNumber < 0)
    (.outOfRange "Attempted to access out-of-bound virtual address")
  let v ← index virtualPageNumber m.pageCount
  raiseIf (¬ (m.pageTable v).validBit)
    (.runtimeError "Segmentation fault occurred: Invalid page accessed")
  doIf (¬ (m.pageTable v).presentBit) (handlePageFault v)
  let m ← state
  let physicalAddress := (m.pageTable v).pageFrameNum * m.pageSize + offset
  raiseIf (physicalAddress ≥ m.physicalSize ∨ physicalAddress < 0)
    (.outOfRange "Physical address out of bounds")
  update (setEntry v fun e => { e with referenceBit := true })
  doIf writeOperation (update (setEntry v fun e => { e with modifyBit := true }))
  return physicalAddress

def allocateAnyPage : Method Int := do
  let m ← state
  let vpn := firstIndex m.pageCount fun i => !(m.pageTable i).validBit
  raiseIf (vpn = -1) (.runtimeError "No free pages available for allocation")
  let freeFrame ← takeFrame
  allocatePage vpn freeFrame
  return vpn * m.pageSize

def writeVirtualMemory (virtualAddress : Int) (data : UInt8) : Method Unit := do
  let physicalAddress ← virtualToPhysicalAddress virtualAddress true
  writeMemory physicalAddress data

def readVirtualMemory (virtualAddress : Int) : Method UInt8 := do
  let physicalAddress ← virtualToPhysicalAddress virtualAddress false
  readMemory physicalAddress

def deletePageTableEntry (virtualAddress : Int) : Method Unit := do
  let m ← state
  let virtualPageNumber := virtualAddress.tdiv m.pageSize
  raiseIf (virtualPageNumber ≥ m.pageCount ∨ virtualPageNumber < 0)
    (.outOfRange "Attempted to access out-of-bound virtual address")
  let v ← index virtualPageNumber m.pageCount
  let entry := m.pageTable v
  raiseIf (¬ entry.validBit) (.logicError "Attempted to delete an invalid page")
  update (setEntry v fun e => { e with validBit := false })
  if entry.presentBit then do
    wipeMemoryFrame entry.pageFrameNum
    update (setEntry v fun e => { e with presentBit := false })
    let f ← index entry.pageFrameNum m.frameCount
    update (setFree f true)
    update (setEntry v fun e => { e with pageFrameNum := -1 })
  else deletePageFromDisk v
  update (setEntry v fun e => { e with modifyBit := false, referenceBit := false })

/-- What `printPageTableEntry` prints is left out. -/
def printPageTableEntry (virtualAddress : Int) : Method Unit := do
  let m ← state
  let virtualPageNumber := virtualAddress.tdiv m.pageSize
  raiseIf (virtualPageNumber ≥ m.pageCount ∨ virtualPageNumber < 0)
    (.outOfRange "Attempted to access out-of-bound virtual address")
  let _ ← index virtualPageNumber m.pageCount

end MemoryManager

end CseOs
