import Ginkgo.Lib.Lts
import Ginkgo.Lib.Bits
import Ginkgo.Lib.Dyadic
import Ginkgo.Include.BitScan
import Ginkgo.Lib.Fallible
import Ginkgo.Machine
import Ginkgo.Mm.BuddyCommon
import Ginkgo.Mm.Buddy
import Ginkgo.Mm.BuddyInvariant
import Ginkgo.Mm.BuddyOps
import Ginkgo.Mm.BuddyCreate
import Ginkgo.Mm.BuddyRun
import Ginkgo.Mm.MemPool
import Ginkgo.Mm.PoolInvariant
import Ginkgo.Mm.HeapRun
import Ginkgo.Core.Sched
import Ginkgo.Core.WaitList
import Ginkgo.Lib.Radix
import Ginkgo.Core.Mutex
import Ginkgo.Core.Semaphore
import Ginkgo.Core.Futex
import Ginkgo.Core.Timer
import Ginkgo.Core.TimerDeadline
import Ginkgo.Driver.Virtio
import Ginkgo.Fs.Vfs
import Ginkgo.Lib.RefTable
import Ginkgo.Fs.VfsCache
import Ginkgo.Fs.VfsPath
import Ginkgo.Fs.VfsWalk
import Ginkgo.Fs.VfsTruth
import Ginkgo.Fs.VfsRefs
import Ginkgo.Fs.VfsFile
import Ginkgo.User.IpcMsg
import Ginkgo.Fs.VfsRpc
import Ginkgo.Arch.PageTable
import Ginkgo.Core.Vmspace
import Ginkgo.Core.Process
import Ginkgo.Core.Vmo
import Ginkgo.Core.Class
import Ginkgo.Driver.Block
import Ginkgo.Fs.Cpio
import Ginkgo.Xjil.Lexer
import Ginkgo.Xjil.Parser
import Ginkgo.Xjil.RoundTrip
import Ginkgo.Core.VmspaceRun
import Ginkgo.Core.VmoAccess
import Ginkgo.Core.IpcConnection
import Ginkgo.Core.SchedRun
import Ginkgo.Core.KernelMap
import Ginkgo.Fs.FdRace
import Ginkgo.Mm.DoubleFree
import Ginkgo.Mm.PoolPages
import Ginkgo.Libc.Memory
import Ginkgo.Mm.Kalloc
import Ginkgo.Core.SlotTable
import Ginkgo.Core.IpcCap
import Ginkgo.Core.IpcSlots
import Ginkgo.Core.KernelClass
import Ginkgo.Core.ClassDelete
import Ginkgo.Driver.VirtioReject
import Ginkgo.User.IpcMsgRun
import Ginkgo.Core.IpcCall
import Ginkgo.Core.ThreadRun
import Ginkgo.Xjil.Keyword
import Ginkgo.Lib.Outcome
import Ginkgo.Xjil.Expression
import Ginkgo.Xjil.Lookup
import Ginkgo.Xjil.Member
import Ginkgo.Xjil.Bounds
import Ginkgo.Xjil.Array
import Ginkgo.Lib.Terminated
import Ginkgo.Libc.Raw
import Ginkgo.Fs.CpioDir
import Ginkgo.Fs.CpioImage
import Ginkgo.Fs.VfsOpen
import Ginkgo.Fs.VfsRoot
import Ginkgo.Fs.VfsSeek
import Ginkgo.Core.TimerExpiry
import Ginkgo.Driver.Clockevent
import Ginkgo.Driver.BlockWrite
import Ginkgo.Fs.CpioFile
import Ginkgo.Fs.VfsBuffer
import Ginkgo.Driver.Clocksource
import Ginkgo.Libc.Hmap
import Ginkgo.Libc.RadixTree
