import ToyOs.Lib.Prog
import ToyOs.Lib.Sim
import ToyOs.Lib.Bytes
import ToyOs.Lib.Sums
import ToyOs.Lib.Ring
import ToyOs.Lib.Stream
import ToyOs.Lib.DirTree
import ToyOs.Lib.DirWalk
import ToyOs.Lib.Blocks
import ToyOs.Memlayout
import ToyOs.Kalloc
import ToyOs.Fs.Device
import ToyOs.Fs.Inode
import ToyOs.Fs.Dir
import ToyOs.Fs.State
import ToyOs.Fs.Namei
import ToyOs.Fs.Cache
import ToyOs.Fs.Volume
import ToyOs.Fs.BlockOps
import ToyOs.Fs.BlockMap
import ToyOs.Fs.Fills
import ToyOs.Fs.BlockAlloc
import ToyOs.Fs.Content
import ToyOs.Fs.Intact
import ToyOs.Fs.Writei
import ToyOs.Fs.Itrunc
import ToyOs.Fs.Icache
import ToyOs.Fs.IcacheOps
import ToyOs.Fs.InodeScope
import ToyOs.Fs.Directory
import ToyOs.Fs.Namespace
import ToyOs.Fs.Resolve
import ToyOs.Fs.Links
import ToyOs.Fs.Create
import ToyOs.Fs.CreatePath
import ToyOs.Fs.Ops
import ToyOs.Fs.Init
import ToyOs.Fs.Runs
import ToyOs.Fs.DirMap
import ToyOs.Fs.Access
import ToyOs.Fs.AccessSim
import ToyOs.Fs.AccessRuns
import ToyOs.Fs.Resting
import ToyOs.Fs.Watched
import ToyOs.Fs.Transparent
import ToyOs.Fs.InodeTable
import ToyOs.Fs.Truncate
import ToyOs.Fs.BlockPool
import ToyOs.Fs.Invariants
import ToyOs.Fs.PathSpec
import ToyOs.Fs.CreateSpec
import ToyOs.Fs.CreateFailure
import ToyOs.Fs.WriteSpec
import ToyOs.Fs.Coherence
import ToyOs.Fs.FullDisk
import ToyOs.Fs.ForgedEntry
import ToyOs.Vm
import ToyOs.Loader
import ToyOs.PageTree
import ToyOs.Walk
import ToyOs.Unmap
import ToyOs.Tables
import ToyOs.TableLinks
import ToyOs.MapRange
import ToyOs.Teardown
import ToyOs.AddressSpace
import ToyOs.Filled
import ToyOs.ProcPagetable
import ToyOs.Freewalk
import ToyOs.Boot
import ToyOs.TableRoom
import ToyOs.TableMap
import ToyOs.LoadSegment
import ToyOs.Grow
import ToyOs.CopySpace
import ToyOs.UserBytes
import ToyOs.UserCopy
import ToyOs.CopyBuffer
import ToyOs.CopyUser
import ToyOs.LoadImage
import ToyOs.PushArgv
import ToyOs.LoadElf
import ToyOs.Kernel.State
import ToyOs.Fs.LockFree
import ToyOs.LoadInode
import ToyOs.Kernel.File
import ToyOs.Kernel.Proc
import ToyOs.Kernel.Syscall
import ToyOs.Kernel.Trap
import ToyOs.Kernel.Init
import ToyOs.Kernel.Hart
import ToyOs.Kernel.Accounts
import ToyOs.Kernel.Tables
import ToyOs.Kernel.Console
import ToyOs.Kernel.Pipes
import ToyOs.RamPanics
import ToyOs.Kernel.Steady
import ToyOs.Kernel.Descriptors
import ToyOs.Kernel.Transfers
import ToyOs.Kernel.Exit
import ToyOs.Kernel.Wait
import ToyOs.Kernel.Fork
import ToyOs.Kernel.Calls
import ToyOs.Kernel.FileIo
import ToyOs.Kernel.Effects
import ToyOs.Kernel.Change
import ToyOs.Kernel.Resume
import ToyOs.Kernel.Start
import ToyOs.KernelMap
import ToyOs.Kernel.Run
import ToyOs.Kernel.History
import ToyOs.Exec
import ToyOs.ExecFailure
import ToyOs.ExecImage
import ToyOs.LoadSpec
import ToyOs.LoadAgree
import ToyOs.Kernel.FirstProcess
import ToyOs.Kernel.PipeStreams
import ToyOs.Kernel.ConsoleLine
import ToyOs.Kernel.Lives
import ToyOs.Kernel.Lifecycle
import ToyOs.Kernel.FirstRead
import ToyOs.Kernel.Safety
import ToyOs.User.Allocator
import ToyOs.User.FreeList
import ToyOs.User.Coalesce
import ToyOs.User.HeapRuns
import ToyOs.User.Shell
import ToyOs.User.ShellParser
import ToyOs.Argv
import ToyOs.Sbrk
import ToyOs.CopyBytes
import ToyOs.TableFree
