import Lps.Transition.Run
import Lps.Core.Engine
import Lps.Linux.PipeWake
import Lps.Linux.PipeStream
import Lps.Linux.SysConfine
import Lps.Linux.Sched
import Lps.Core.Reserve
import Lps.Core.Bound
import Lps.Linux.SchedConserve
import Lps.Asm.Code
import Lps.Core.Runtime
import Lps.Linux.Switch
import Lps.Linux.SwitchSpec
import Lps.Transition.Monitor
import Lps.Transition.Paired
import Lps.Linux.SwitchRun
import Lps.Linux.FloatTwins
import Lps.Linux.Affinity
import Lps.Core.Mmap
import Lps.Interval.Ordered
import Lps.Core.MmapSpec
import Lps.Core.BoxMem
import Lps.Core.BoxMemSpec
import Lps.Linux.ElfLoad
import Lps.Linux.Proc
import Lps.Linux.SysMem
import Lps.Linux.ProcSpec
import Lps.Linux.SysMemSpec
import Lps.Linux.SysMemRun
import Lps.Linux.ElfImage
import Lps.Linked.Links
import Lps.Linux.LinkedQueue
import Lps.Linux.RRLoop
import Lps.Linux.Fd
import Lps.Linux.FdLife
import Lps.Linux.FdPosix
import Lps.Linux.FdEnds
import Lps.Linux.FdPipeRun
import Lps.Linux.FdPipe
import Lps.Core.MmapCut
import Lps.Core.MmapCursor
import Lps.Linked.Listed
import Lps.Program.Simulate
import Lps.Core.MmapHeap
import Lps.Core.MmapHeapSpec
import Lps.Core.MmapRun
import Lps.Program.Play
import Lps.Core.MmapPages
import Lps.Core.MmapMap
import Lps.Core.MmapRoom
import Lps.Interval.Lookup
import Lps.Core.MmapSearch
import Lps.Core.OsMem
import Lps.Core.BoxPages
import Lps.Core.Capacity
import Lps.Core.OsFrame
import Lps.Transition.Outputs
import Lps.Linux.RingDeque
import Lps.Linux.SysMemHost
import Lps.Linux.BrkWindow
import Lps.Linux.BrkHeap
import Lps.Program.Locks
import Lps.Linux.RingLocks
import Lps.Memory.Pieces
import Lps.Linux.FileVec
import Lps.Linux.Layout
import Lps.Program.Lift
import Lps.Linux.FileOps
import Lps.Linux.FileSafe
import Lps.Core.BoxSound
import Lps.Core.BoxServe
import Lps.Core.BoxResult
import Lps.Linux.MmapTruth
import Lps.Linux.ElfServed
import Lps.Linux.LoadServed
import Lps.Program.Watch
import Lps.Linux.LoadWatch
import Lps.Linux.LoadWrites
import Lps.Linux.LoadReads
import Lps.Linux.LoadTouches
import Lps.Core.BoundFile
import Lps.Memory.Blocks
import Lps.Linux.StackInit
import Lps.Linux.StackFits
import Lps.Linux.StackDecode
import Lps.Linux.LoadEntry
import Lps.Core.Spaces
import Lps.Core.Occupancy
import Lps.Linux.SysInfo
import Lps.Linux.SysInfoSpec
import Lps.Linux.VecBounds
import Lps.Program.Loads
import Lps.Linux.PathCopy
import Lps.Linux.Getcwd
import Lps.Linux.Pread
import Lps.Linux.Getdents
import Lps.Linux.PipeNew
import Lps.Linux.PipePool
import Lps.Core.MmapOriginal
import Lps.Segments.Resolve
import Lps.Segments.Names
import Lps.Linux.Cwalk
import Lps.Linux.CwalkSegments
import Lps.Linux.CwalkJoined
import Lps.Linux.CwalkSpec
import Lps.Linux.WorkDir
import Lps.Linux.PipeOrder
import Lps.Linux.LoadImage
import Lps.Linux.LoadAgree
import Lps.Transition.Together
import Lps.Linux.Neighbours
import Lps.Program.Atomic
import Lps.Linux.RingAtomic
import Lps.Linux.BoundsHeld
