import Pke.Lib.Ring
import Pke.Lib.Dyadic
import Pke.Lib.Run
import Pke.Lib.Exec
import Pke.Lib.Fifo
import Pke.Model.Machine
import Pke.Model.Buddy
import Pke.Model.Descriptors
import Pke.Model.Pmm
import Pke.Model.Process
import Pke.Model.Vmm
import Pke.Model.Elf
import Pke.Model.Kernel
import Pke.Model.Printf
import Pke.Model.Trap
import Pke.Model.Sched
import Pke.Model.ListCalls
import Pke.Model.Harts
import Pke.Model.Walks
import Pke.Model.Spinlock
import Pke.Proofs.FreeLists
import Pke.Proofs.BuddyInvariant
import Pke.Proofs.BuddyInit
import Pke.Proofs.PmmCalls
import Pke.Proofs.BuddyRuns
import Pke.Proofs.BuddyEffects
import Pke.Proofs.PageCache
import Pke.Proofs.PooledFrames
import Pke.Proofs.InitialPartition
import Pke.Proofs.LockDiscipline
import Pke.Proofs.ReservedFrames
import Pke.Proofs.MergeBounds
import Pke.Proofs.ListRuns
import Pke.Proofs.BuddyHarts
import Pke.Proofs.PageTable
import Pke.Proofs.Space
import Pke.Proofs.ProcessSteps
import Pke.Proofs.ProcessInvariant
import Pke.Proofs.ProcessCalls
import Pke.Proofs.Fork
import Pke.Proofs.ForkCopies
import Pke.Proofs.System
import Pke.Proofs.PmmSupply
import Pke.Proofs.ForkRuns
import Pke.Proofs.FreedFrames
import Pke.Proofs.HeapCalls
import Pke.Proofs.SharedFrames
import Pke.Proofs.PageFaults
import Pke.Proofs.ElfSegments
import Pke.Proofs.ElfLoad
import Pke.Proofs.RegionTable
import Pke.Proofs.HeapRuns
import Pke.Proofs.UserPrint
import Pke.Proofs.Scheduling
import Pke.Proofs.PoolCalls
import Pke.Proofs.HartIndex
import Pke.Proofs.SyscallArguments
import Pke.Proofs.MapPages
import Pke.Proofs.WalkLevels
import Pke.Proofs.Unmap
import Pke.Proofs.TableGrowth
import Pke.Proofs.Spinlock
import Pke.Proofs.ReadyQueue
import Pke.Model.TrapVector
import Pke.Proofs.TrapRegisters
import Pke.Proofs.Forest
import Pke.Proofs.ForestCalls
import Pke.Proofs.ForkFrames
import Pke.Lib.Bytes
import Pke.Lib.Loop
import Pke.Model.Boot
import Pke.Model.DeviceTree
import Pke.Model.Htif
import Pke.Proofs.DeviceQueries
import Pke.Proofs.Footprint
import Pke.Proofs.ForkFootprint
import Pke.Proofs.HtifConsole
import Pke.Proofs.HtifReturns
import Pke.Proofs.Isolation
import Pke.Proofs.KernelTable
