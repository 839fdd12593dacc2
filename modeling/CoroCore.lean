import CoroCore.Arch.Sleepers
import CoroCore.Atomic.Mutex
import CoroCore.Atomic.SpinlockSafety
import CoroCore.Drivers.Ramdisk
import CoroCore.Drivers.VirtioExits
import CoroCore.Fs.Cursor
import CoroCore.Fs.Dentry
import CoroCore.Fs.FileLock
import CoroCore.Fs.PathMiss
import CoroCore.Fs.PathWalk
import CoroCore.Lib.DoublyLinked
import CoroCore.Lib.Ring
import CoroCore.Lib.SlotMap
import CoroCore.Lib.Smear
import CoroCore.Lib.Tally
import CoroCore.Lib.Written
import CoroCore.Mm.HeapBlock
import CoroCore.Mm.HeapSafety
import CoroCore.Mm.Log2
import CoroCore.Mm.NewDelete
import CoroCore.Mm.OperatorNew
import CoroCore.Mm.PageMap
import CoroCore.Mm.Routing
import CoroCore.Mm.TableFree
import CoroCore.Mm.UserClone
import CoroCore.Mm.UserSpaces
import CoroCore.Nfs.Accounting
import CoroCore.Nfs.AllocFull
import CoroCore.Nfs.BlockLocks
import CoroCore.Nfs.Contents
import CoroCore.Nfs.Directory
import CoroCore.Nfs.Dirent
import CoroCore.Nfs.FailedCalls
import CoroCore.Nfs.FileSize
import CoroCore.Nfs.Frame
import CoroCore.Nfs.FreeList
import CoroCore.Nfs.GiveBack
import CoroCore.Nfs.InodeNumbers
import CoroCore.Nfs.Listing
import CoroCore.Nfs.LookupOk
import CoroCore.Nfs.Mounted
import CoroCore.Nfs.Naming
import CoroCore.Nfs.PositionCache
import CoroCore.Nfs.Reached
import CoroCore.Nfs.ReadOnly
import CoroCore.Nfs.Volume
import CoroCore.Nfs.VolumeRun
import CoroCore.Proc.ElfBytes
import CoroCore.Proc.ElfLayout
import CoroCore.Proc.ElfReads
import CoroCore.Proc.Kill
import CoroCore.Proc.OutOfPages
import CoroCore.Proc.RoundRobin
import CoroCore.Task.Failure
import CoroCore.Trap.Preemption
import CoroCore.Trap.Users
import CoroCore.Utils.BufferDestroy
import CoroCore.Utils.BufferExits
import CoroCore.Utils.FailedLoad
import CoroCore.Utils.LinkedListRun
import CoroCore.Utils.Numeral
import CoroCore.Utils.PtrOwnership
import CoroCore.Utils.PtrRelease
