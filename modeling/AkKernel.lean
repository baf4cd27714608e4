import AkKernel.Foundation.LinkedRing
import AkKernel.Fault
import AkKernel.Foundation.Runs
import AkKernel.ListHead
import AkKernel.Proc.Task
import AkKernel.Proc.Sched
import AkKernel.Proc.System
import AkKernel.Proc.TaskTable
import AkKernel.Proc.Reports
import AkKernel.Foundation.Bitmap
import AkKernel.Foundation.Programs
import AkKernel.Io.Fdio
import AkKernel.Io.Refs
import AkKernel.Kernel.Malloc
import AkKernel.Mem.CloneDir
import AkKernel.Mem.Edit
import AkKernel.Mem.Space
import AkKernel.Kernel.Mappings
import AkKernel.Kernel.Ownership
import AkKernel.Kernel.PageFault
import AkKernel.Kernel.UserMaps
import AkKernel.Foundation.Chain
import AkKernel.Foundation.Bytes
import AkKernel.Foundation.Logged
import AkKernel.Fs.Node
import AkKernel.Fs.File
import AkKernel.Fs.Cpio
import AkKernel.Io.Files
import AkKernel.Io.Contents
import AkKernel.Io.Positions
import AkKernel.Kernel.Syscall
import AkKernel.Proc.Elf
import AkKernel.Kernel.Execve
import AkKernel.Boot.Multiboot
import AkKernel.Boot.Sweeps
import AkKernel.Boot.MemoryMap
import AkKernel.Boot.FreeFrames
import AkKernel.Mem.Coherent
import AkKernel.Kernel.Coherence
import AkKernel.Mem.Confine
import AkKernel.Kernel.UserRequests
import AkKernel.Foundation.Circular
import AkKernel.Io.Console
import AkKernel.Fs.ByteFile
import AkKernel.Proc.RoundRobin
import AkKernel.Mem.ReadWrite
import AkKernel.Mem.PageRanges
import AkKernel.Mem.Brk
import AkKernel.Foundation.Slots
import AkKernel.Mem.TmpSlots
import AkKernel.Kernel.TmpSlots
import AkKernel.Mem.Walkable
import AkKernel.Kernel.MapCalls
import AkKernel.Kernel.Replies
import AkKernel.Kernel.ErrorReturn
import AkKernel.Fs.Siblings
import AkKernel.Io.Seek
import AkKernel.Kernel.Descriptors
import AkKernel.Boot.PageLoops
import AkKernel.Fs.Tree
import AkKernel.Kernel.Paths
import AkKernel.Fs.Archive
import AkKernel.Foundation.Areas
import AkKernel.Mem.Growth
import AkKernel.Kernel.MmuReady
import AkKernel.Kernel.Growth
import AkKernel.Mem.FrameScan
import AkKernel.Boot.FrameRuns
import AkKernel.Mem.LargePages
import AkKernel.Proc.Exec
import AkKernel.Proc.ElfMap
import AkKernel.Proc.ElfSections
import AkKernel.Proc.ElfBounds
import AkKernel.Mem.Prealloc
import AkKernel.Kernel.Prealloc
import AkKernel.Mem.OwnPages
import AkKernel.Kernel.OwnPages
import AkKernel.Kernel.UserBytes
import AkKernel.Kernel.UserMemory
import AkKernel.Proc.ElfImage
import AkKernel.Kernel.ElfLoad
import AkKernel.Kernel.ImageLoad
import AkKernel.Foundation.CyclicRing
import AkKernel.ListRing
import AkKernel.Foundation.TextPage
import AkKernel.Io.VgaConsole
import AkKernel.Io.VgaText
import AkKernel.Io.ConsoleRead
import AkKernel.Io.ConsoleLine
import AkKernel.Kernel.Groups
import AkKernel.Kernel.EarlyMalloc
import AkKernel.Foundation.BlockCopy
import AkKernel.Kernel.PhysCopy
import AkKernel.Foundation.Records
import AkKernel.Boot.TagWalk
import AkKernel.Foundation.Ia32
import AkKernel.Foundation.Stacks
import AkKernel.Proc.Context
import AkKernel.Proc.Switch
import AkKernel.Mem.TaskSpaces
import AkKernel.Kernel.TaskSwitch
import AkKernel.Intr.Entry
import AkKernel.Kernel.Preempt
import AkKernel.Foundation.Tlb
import AkKernel.Mem.Cached
import AkKernel.Mem.CachedOps
import AkKernel.Mem.CachedClone
import AkKernel.Kernel.CachedRuns
