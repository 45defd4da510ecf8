import Xv6Lab.Lib.Words
import Xv6Lab.Lib.Transition
import Xv6Lab.Lib.CrashDisk
import Xv6Lab.Params
import Xv6Lab.Logging.Model
import Xv6Lab.Logging.Recovery
import Xv6Lab.Logging.CrashSafety
import Xv6Lab.Logging.BootPath
import Xv6Lab.Logging.GroupCommit
import Xv6Lab.Process.Model
import Xv6Lab.Process.Scheduling
import Xv6Lab.Process.Mutex
import Xv6Lab.Lib.RadixTree
import Xv6Lab.Memory.Model
import Xv6Lab.Memory.PageTable
import Xv6Lab.Memory.ThreadCopy
import Xv6Lab.Memory.Sharing
import Xv6Lab.FileSys.Model
import Xv6Lab.FileSys.Blocks
import Xv6Lab.FileSys.Syscalls
import Xv6Lab.FileSys.Truncate
import Xv6Lab.FileSys.Contents
import Xv6Lab.FileSys.ByteLists
import Xv6Lab.FileSys.Nodes
import Xv6Lab.FileSys.Directories
import Xv6Lab.FileSys.References
import Xv6Lab.FileSys.LinkCalls
import Xv6Lab.FileSys.BlockSafety
import Xv6Lab.FileSys.OpenCalls
import Xv6Lab.Lib.LinkGraph
import Xv6Lab.FileSys.Tree
import Xv6Lab.FileSys.Fresh
import Xv6Lab.FileSys.Dangling
import Xv6Lab.FileSys.LinkCounts
import Xv6Lab.Lib.Reservation
import Xv6Lab.Logging.Capacity
import Xv6Lab.Lib.RefCache
import Xv6Lab.Logging.BufferCache
import Xv6Lab.Logging.BufferSpace
import Xv6Lab.Lib.RingBuffer
import Xv6Lab.Pipes.Model
import Xv6Lab.Pipes.Fifo
import Xv6Lab.Process.Entries
import Xv6Lab.Process.Stopping
import Xv6Lab.Process.CleanStart
import Xv6Lab.Lib.Lineage
import Xv6Lab.Process.Children
import Xv6Lab.Process.Reaping
import Xv6Lab.Files.Model
import Xv6Lab.Lib.Handles
import Xv6Lab.Files.References
import Xv6Lab.Files.Calls
import Xv6Lab.Memory.Ownership
import Xv6Lab.Memory.FreeWalk
import Xv6Lab.Memory.Calls
import Xv6Lab.Memory.Mapping
import Xv6Lab.Console.Model
import Xv6Lab.Console.LineDiscipline
import Xv6Lab.Process.Waiting
import Xv6Lab.Process.SleepLocks
import Xv6Lab.Lib.Rings
import Xv6Lab.Lib.Tiling
import Xv6Lab.Malloc.FreeList
import Xv6Lab.Malloc.Allocation
import Xv6Lab.Malloc.Programs
import Xv6Lab.FileSys.DirectoryMap
import Xv6Lab.Lib.Scan
import Xv6Lab.Shell.Model
import Xv6Lab.Shell.Grammar
import Xv6Lab.Shell.Acceptance
import Xv6Lab.Virtio.Model
import Xv6Lab.Virtio.Descriptors
import Xv6Lab.Virtio.Invariant
import Xv6Lab.Virtio.Steps
import Xv6Lab.Virtio.Safety
import Xv6Lab.Buffers.Model
import Xv6Lab.Buffers.Invariant
import Xv6Lab.Buffers.Transparency
import Xv6Lab.Process.Pids
import Xv6Lab.Process.Signals
import Xv6Lab.FileSys.Reading
import Xv6Lab.Memory.Faults
import Xv6Lab.Memory.Copies
import Xv6Lab.Memory.Creation
import Xv6Lab.Memory.Strings
import Xv6Lab.Memory.Growth
import Xv6Lab.Memory.Fork
import Xv6Lab.Memory.Isolation
import Xv6Lab.FileSys.ShortWrites
import Xv6Lab.Malloc.Requests
import Xv6Lab.Shell.Redirections
import Xv6Lab.Memory.KernelThreads
import Xv6Lab.Memory.ProcInfo
import Xv6Lab.FileSys.SharedFile
import Xv6Lab.Utilities.Echo
import Xv6Lab.Utilities.Targets
import Xv6Lab.Utilities.Grep
import Xv6Lab.Console.Printint
import Xv6Lab.Utilities.HeadTail
import Xv6Lab.FileSys.WriteCost
