import CseOs.Framework.Transition
import CseOs.Framework.ByteStore
import CseOs.Framework.RunTable
import CseOs.Kernel.Vm.Pmem
import CseOs.Kernel.Vm.PageRuns
import CseOs.Framework.LinkedList
import CseOs.Framework.Numerals
import CseOs.Framework.Checked
import CseOs.Kernel.Heap.Kheap
import CseOs.Kernel.Heap.Invariant
import CseOs.Kernel.Heap.Kmalloc
import CseOs.Kernel.Heap.Kfree
import CseOs.Kernel.Heap.Runs
import CseOs.Kernel.Vm.Frames
import CseOs.Kernel.Vm.PageTable
import CseOs.Kernel.Vm.Ownership
import CseOs.Kernel.Vm.Changes
import CseOs.Kernel.Vm.Transfer
import CseOs.Kernel.Vm.Walk
import CseOs.Kernel.Vm.Spaces
import CseOs.Kernel.Vm.Clients
import CseOs.Kernel.Vm.PageOwners
import CseOs.Kernel.Vm.Exhaustion
import CseOs.Kernel.Vm.Lifetime
import CseOs.Framework.Program
import CseOs.Framework.Outcomes
import CseOs.Framework.SlotTable
import CseOs.MemoryManager.Manager
import CseOs.MemoryManager.Clock
import CseOs.MemoryManager.FrameTable
import CseOs.MemoryManager.Methods
import CseOs.MemoryManager.Transparency
import CseOs.Kernel.Errno
import CseOs.Kernel.Vfs.DeviceTable
import CseOs.Framework.RingBuffer
import CseOs.Kernel.Lib.Containers
import CseOs.Kernel.Lib.CopyInOut
import CseOs.Kernel.Lib.QueueRuns
import CseOs.Libc.Printf
import CseOs.Libc.IntegerFields
import CseOs.Kernel.Thread.Threads
import CseOs.Framework.DemandPaging
import CseOs.PageReplacement.FaultLaw
import CseOs.PageReplacement.Recency
import CseOs.PageReplacement.Optimality
import CseOs.TickSim.Simulator
import CseOs.TickSim.Places
import CseOs.TickSim.Dispatching
import CseOs.TickSim.Phases
import CseOs.TickSim.Accounts
import CseOs.TickSim.Rounds
import CseOs.TickSim.Loop
import CseOs.Framework.TimeSlices
import CseOs.TickSim.BoundedWait
import CseOs.Framework.Excess
import CseOs.TickSim.OneCore
import CseOs.SchedSim.Conservation
import CseOs.SchedSim.Slices
import CseOs.SchedSim.Makespan
import CseOs.SchedSim.Rotation
import CseOs.Framework.WhileLoop
import CseOs.Scheduler.Processes
import CseOs.Framework.ArrayQueue
import CseOs.MultiLevel.Scheduler
import CseOs.MultiLevel.Exact
import CseOs.MultiLevel.Bounds
import CseOs.Framework.TurnOrder
import CseOs.MultiLevel.Turns
import CseOs.Kernel.Thread.Partition
import CseOs.Kernel.Thread.Conservation
import CseOs.Kernel.Thread.Preallocation
import CseOs.Kernel.Thread.Sleepers
import CseOs.Kernel.Thread.Semaphores
import CseOs.Kernel.Asst1.CatMouse
import CseOs.Kernel.Asst1.Bowls
import CseOs.Kernel.Asst1.Meals
import CseOs.Kernel.Asst1.Farewell
import CseOs.Rs232.Sender
import CseOs.Kernel.Vm.FirstFit
import CseOs.Kernel.Vm.Faults
import CseOs.Kernel.Vm.Segments
import CseOs.Kernel.Vm.KmallocSafety
import CseOs.Kernel.Sfs.Uio
import CseOs.Kernel.Sfs.BlockIo
import CseOs.Kernel.Sfs.BlockMap
import CseOs.Kernel.Sfs.FileIo
import CseOs.Kernel.Sfs.Reads
import CseOs.Kernel.Sfs.Truncate
import CseOs.Kernel.Sfs.Writes
import CseOs.Kernel.Sfs.Sharing
import CseOs.Kernel.Sfs.Volume
import CseOs.Kernel.Sfs.Creation
import CseOs.Kernel.Sfs.Balance
import CseOs.Kernel.Sfs.Shortage
import CseOs.Kernel.Sfs.Format
import CseOs.Kernel.Sfs.Layout
import CseOs.Kernel.Sfs.Entries
import CseOs.Kernel.Sfs.Vnodes
import CseOs.Kernel.Sfs.Sound
import CseOs.Kernel.Sfs.Inodes
import CseOs.Kernel.Sfs.Reclaim
import CseOs.Kernel.Sfs.Links
import CseOs.Kernel.Sfs.Mounting
import CseOs.Kernel.Sfs.Files
import CseOs.Kernel.Sfs.Service
import CseOs.Kernel.Sfs.Runs
import CseOs.MemoryManager.Addresses
import CseOs.MemoryManager.Replacement
import CseOs.TickSim.Preemption
import CseOs.TickSim.Overtaking
import CseOs.Scheduler.RoundRobin
import CseOs.Framework.Timeline
import CseOs.Scheduler.Chart
import CseOs.Framework.WorkConserving
import CseOs.CpuSim.Jobs
import CseOs.CpuSim.ShortestRemaining
import CseOs.CpuSim.RoundRobin
import CseOs.Framework.ExchangeSort
import CseOs.WindowsLinux.Procs
import CseOs.WindowsLinux.PriorityRr
import CseOs.WindowsLinux.PriorityRuns
import CseOs.Framework.BinaryHeap
import CseOs.WindowsLinux.Cfs
import CseOs.WindowsLinux.RunQueue
import CseOs.WindowsLinux.CfsRuns
import CseOs.WindowsLinux.Fairness
import CseOs.Framework.PackedBits
import CseOs.Kernel.Lib.Bitmap
import CseOs.WindowsLinux.MinHeap
import CseOs.Framework.BubbleSort
import CseOs.FifoSjf.ShortestFirst
import CseOs.Libc.StrtokR
import CseOs.Kernel.Menu.CommandLine
import CseOs.Kernel.Vfs.Open
import CseOs.Kernel.Menu.Copy
import CseOs.Framework.CyclicScan
import CseOs.SchedTester.RoundRobin
import CseOs.SchedTester.Idling
