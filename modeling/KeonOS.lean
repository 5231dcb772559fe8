import KeonOS.Lib.Word
import KeonOS.Lib.Chain
import KeonOS.Lib.Fuel
import KeonOS.Heap.Model
import KeonOS.Heap.Blocks
import KeonOS.Heap.Refine
import KeonOS.Heap.Run
import KeonOS.Lib.Bytes
import KeonOS.Lib.Radix
import KeonOS.Mm.Pfa
import KeonOS.Mm.Paging
import KeonOS.Mm.Tables
import KeonOS.Mm.PageMap
import KeonOS.Mm.Vmm
import KeonOS.Heap.Adequate
import KeonOS.Proc.Sbrk
import KeonOS.Exec.Elf
import KeonOS.Exec.HeaderBounds
import KeonOS.Exec.Loader
import KeonOS.Exec.Image
import KeonOS.Exec.Progress
import KeonOS.Exec.Confine
import KeonOS.Mm.Guard
import KeonOS.Exec.Isolation
import KeonOS.Proc.Lifecycle
import KeonOS.Proc.Ownership
import KeonOS.Boot.MemoryMap
import KeonOS.Boot.Reservation
import KeonOS.Exec.Placement
import KeonOS.Mm.PfaRun
import KeonOS.Sched.Model
import KeonOS.Sched.Loops
import KeonOS.Sched.Queue
import KeonOS.Sched.Traversal
import KeonOS.Sched.Steps
import KeonOS.Sched.Loading
import KeonOS.Sched.Keyboard
import KeonOS.Lib.Locks
import KeonOS.Sched.Locks
import KeonOS.Fs.Vfs
import KeonOS.Fs.Lifetime
import KeonOS.Fs.Walk
import KeonOS.Fs.References
import KeonOS.Lib.BlockM
import KeonOS.Lib.WriteAhead
import KeonOS.Lib.WriteOrder
import KeonOS.Ext4.Model
import KeonOS.Ext4.Nodes
import KeonOS.Ext4.Layout
import KeonOS.Ext4.Alloc
import KeonOS.Ext4.Extend
import KeonOS.Ext4.ReadWrite
import KeonOS.Ext4.Handles
import KeonOS.Fs.KeonFs
import KeonOS.Fs.Resolve
import KeonOS.Fs.DotDot
import KeonOS.Ext4.Returns
import KeonOS.Ext4.Entries
import KeonOS.Ext4.Directory
import KeonOS.Ext4.Volume
import KeonOS.Ext4.Operations
import KeonOS.Ext4.Map
import KeonOS.Ext4.Footprint
import KeonOS.Ext4.Runs
import KeonOS.Ext4.Journal
import KeonOS.Drivers.KeyRing
import KeonOS.Heap.Tiling
import KeonOS.Heap.Laws
import KeonOS.Heap.Stats
import KeonOS.Sched.RoundRobin
import KeonOS.Fs.WorkingDir
import KeonOS.Fat.Model
import KeonOS.Lib.LinkTable
import KeonOS.Fat.Table
import KeonOS.Fat.Files
import KeonOS.Fat.FileLaws
import KeonOS.Fat.Chains
import KeonOS.Fat.Mirror
import KeonOS.Fat.Unlink
import KeonOS.Ext4.Slots
import KeonOS.Ext4.ExtentTree
import KeonOS.Ext4.Accounting
import KeonOS.Ext4.ExtentAlloc
import KeonOS.Ext4.MakeDir
import KeonOS.Ext4.Listing
import KeonOS.Ext4.Bounds
import KeonOS.Ext4.Commit
import KeonOS.Ext4.Atomic
import KeonOS.Ext4.Kept
import KeonOS.Fs.Clamp
import KeonOS.Fs.KeonImage
import KeonOS.Fs.PathArrays
import KeonOS.Fat.Bounds
import KeonOS.Fat.Listing
import KeonOS.Fat.Growth
import KeonOS.Ext4.Superblock
import KeonOS.Proc.PathString
import KeonOS.Proc.Files
import KeonOS.Drivers.Terminal
import KeonOS.Mm.Break
import KeonOS.Sched.Sleep
import KeonOS.Fat.Walks
import KeonOS.Libc.Numbers
import KeonOS.Libc.Printf
import KeonOS.Libc.Seek
import KeonOS.Exec.KexFile
