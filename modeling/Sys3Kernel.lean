import Sys3Kernel.Lib.PowerOfTwo
import Sys3Kernel.Lib.DyadicTree
import Sys3Kernel.Lib.Run
import Sys3Kernel.Lib.Loops
import Sys3Kernel.Lib.LinkedList
import Sys3Kernel.Lib.SharedFrames
import Sys3Kernel.Mm.Reserve
import Sys3Kernel.Vm.MapSpec
import Sys3Kernel.Proc.VmaList
import Sys3Kernel.Proc.FairShare
import Sys3Kernel.Proc.Exit
import Sys3Kernel.Proc.ExecFail
import Sys3Kernel.Proc.Choice
import Sys3Kernel.Trap.Contexts
import Sys3Kernel.Fs.Write
import Sys3Kernel.Fs.Table
import Sys3Kernel.Vm.Copy
import Sys3Kernel.Mm.Complete
import Sys3Kernel.Mm.Release
import Sys3Kernel.Trap.Waitpid
import Sys3Kernel.Trap.Nest
import Sys3Kernel.Trap.ForkReturn
import Sys3Kernel.Proc.Init
import Sys3Kernel.Trap.Pending
import Sys3Kernel.Trap.Tree
import Sys3Kernel.Trap.Adoption
import Sys3Kernel.Proc.Ready
import Sys3Kernel.Proc.Bounds
import Sys3Kernel.Fs.Virtio
import Sys3Kernel.Fs.Fat32
import Sys3Kernel.Fs.Read
import Sys3Kernel.Fs.Readdir
import Sys3Kernel.Fs.Lookup
import Sys3Kernel.Fs.Files
import Sys3Kernel.User.Counts
import Sys3Kernel.Proc.UnmapRange
import Sys3Kernel.Trap.VmaCalls
import Sys3Kernel.Proc.CopyMm
import Sys3Kernel.User.Sizes
import Sys3Kernel.Fs.PathSplit
import Sys3Kernel.Fs.Extend
import Sys3Kernel.Fs.WriteOwn
import Sys3Kernel.Fs.Offsets
import Sys3Kernel.Fs.FailedOpen
import Sys3Kernel.Fs.OpenSlot
import Sys3Kernel.User.Shell
import Sys3Kernel.Vm.Console
import Sys3Kernel.Trap.FaultBooks
import Sys3Kernel.Fs.Strncpy
import Sys3Kernel.User.Rounding
import Sys3Kernel.Proc.StoreRuns
import Sys3Kernel.Trap.FaultStep
import Sys3Kernel.Proc.Listed
import Sys3Kernel.Proc.ForkTables
import Sys3Kernel.Proc.ForkShare
import Sys3Kernel.Trap.OwnStep
import Sys3Kernel.Trap.OwnCalls
import Sys3Kernel.Trap.KernelHalf
import Sys3Kernel.Proc.PageRights
import Sys3Kernel.Trap.TaskMemory
import Sys3Kernel.Trap.Memory
import Sys3Kernel.Trap.MemoryStep
import Sys3Kernel.Trap.TaskEnd
import Sys3Kernel.Vm.Translate
import Sys3Kernel.Vm.Half
import Sys3Kernel.Trap.ForkPages
import Sys3Kernel.Trap.ForkMemory
import Sys3Kernel.Trap.FaultPage
import Sys3Kernel.Trap.MemoryRuns
import Sys3Kernel.Trap.PrivateMemory
import Sys3Kernel.Trap.Protection
import Sys3Kernel.Trap.Progress
import Sys3Kernel.Lib.MachineCode
import Sys3Kernel.Clib.Muldi3
import Sys3Kernel.Clib.Div
import Sys3Kernel.Boot.TableGrowth
import Sys3Kernel.Boot.Regions
import Sys3Kernel.Boot.Paging
import Sys3Kernel.Trap.KernelMap
import Sys3Kernel.Trap.FirstMemory
import Sys3Kernel.Boot.Start
