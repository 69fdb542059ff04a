import TinyOS.Task.Resume
import TinyOS.Fs.Pipe
import TinyOS.Lib.Paging
import TinyOS.Mm.Address
import TinyOS.Mm.PageTable
import TinyOS.EasyFs.Basic
import TinyOS.Lib.Region
import TinyOS.EasyFs.Efs
import TinyOS.EasyFs.Mount
import TinyOS.EasyFs.DataBlocks
import TinyOS.Sync.ProducerConsumer
import TinyOS.Lib.Locks
import TinyOS.Sync.Philosophers
import TinyOS.EasyFs.Locking
import TinyOS.Lib.Align
import TinyOS.Sync.Heap
import TinyOS.Sync.Interrupts
import TinyOS.Task.Pid
import TinyOS.EasyFs.BlockCache
import TinyOS.EasyFs.CacheManager
import TinyOS.Sync.RaceCounter
import TinyOS.Task.Loader
import TinyOS.Mm.UserMemory
import TinyOS.Lib.ByteMem
import TinyOS.Mm.MemorySet
import TinyOS.Lib.Pool
import TinyOS.Mm.FrameAllocator
import TinyOS.Fs.Syscall
import TinyOS.EasyFs.InodeTree
import TinyOS.EasyFs.DirEntry
import TinyOS.EasyFs.Vfs
import TinyOS.Lib.Overwrite
import TinyOS.EasyFs.FileTree
import TinyOS.EasyFs.TreeOps
import TinyOS.EasyFs.FileBlocks
import TinyOS.EasyFs.Files
import TinyOS.Fs.OsInode
import TinyOS.Fs.FdTable
import TinyOS.Fs.PipeEnds
import TinyOS.User.Shell
import TinyOS.Task.Process
import TinyOS.Task.RoundRobin
import TinyOS.Task.Reaping
import TinyOS.User.PipeProgram
import TinyOS.User.PipeTest
import TinyOS.User.Programs
import TinyOS.User.Forktree
import TinyOS.User.ForkBasic
