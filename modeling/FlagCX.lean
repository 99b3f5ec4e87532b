import FlagCX.Bootstrap.AlltoAll
import FlagCX.Bootstrap.Barrier
import FlagCX.Bootstrap.Broadcast
import FlagCX.Bootstrap.Reductions
import FlagCX.C2c.AllGatherPhase
import FlagCX.C2c.SingleNic
import FlagCX.Cluster.Vendors
import FlagCX.DeviceFifo.RoundTrip
import FlagCX.Group.Retire
import FlagCX.HostRunner.Staging
import FlagCX.Ib.Complete
import FlagCX.Ib.Legacy
import FlagCX.Ib.RingWindow
import FlagCX.Ib.Tiling
import FlagCX.KernelProxy.Flush
import FlagCX.KernelProxy.Flushed
import FlagCX.KernelWorker.Brackets
import FlagCX.MemAlloc.Registry
import FlagCX.MemReg.Failed
import FlagCX.MemReg.Sound
import FlagCX.Net.ChunkConfig
import FlagCX.Net.Pipelines
import FlagCX.Notif.Stream
import FlagCX.P2p.Control
import FlagCX.P2p.Engine
import FlagCX.P2pShm.Progress
import FlagCX.Reg.Coverage
import FlagCX.Rma.Accounting
import FlagCX.Rma.AllOrNothing
import FlagCX.Rma.Flush
import FlagCX.Rma.PutValue
import FlagCX.Rma.Ready
import FlagCX.Rma.Release
import FlagCX.Rma.RingSafety
import FlagCX.Rma.Signal
import FlagCX.Rma.Visibility
import FlagCX.SymHeap.Address
import FlagCX.UniRunner.ScheduleRun
import FlagCX.UniRunner.SlicedResult
import FlagCX.UniRunner.TreeResult
import FlagCX.Group.Membership
import FlagCX.UniRunner.BuiltRuns
