import Tenzor.Core.ViewNames
import Tenzor.Autograd.MultiRoot
import Tenzor.Jit.Attention
import Tenzor.Backend.AllocatorRun
import Tenzor.Lite.MemoryPlan
import Tenzor.Jit.MemoryPlanSafe
import Tenzor.Distributed.RendezvousSeats
import Tenzor.Distributed.CheckpointReshard
import Tenzor.Distributed.PipelineLive
import Tenzor.Distributed.PipelineCorrect
import Tenzor.Distributed.FsdpState
import Tenzor.Distributed.Fsdp2Training
import Tenzor.Distributed.RpcServer
import Tenzor.Sparse.InMemory
import Tenzor.Nn.SafetensorsFiles
import Tenzor.Distributed.ErrorFeedback
import Tenzor.Optim.SgdRates
import Tenzor.Nn.KvCacheRuns
import Tenzor.Nn.ModuleParameters
import Tenzor.Nn.ModuleState
import Tenzor.Optim.SchedulersResume
import Tenzor.Jit.CompiledModuleRuns
import Tenzor.Distributed.RpcCorrelation
import Tenzor.Autograd.ShapeBackward
import Tenzor.Core.Aliasing
import Tenzor.Core.Slices
import Tenzor.Jit.SymbolicResolve
import Tenzor.Core.QuantizeRoundTrip
import Tenzor.Distributed.CheckpointMemory
import Tenzor.Lite.LoadMemory
import Tenzor.Jit.GraphReaderSafe
import Tenzor.Io.PickleMemory
import Tenzor.Optim.LbfgsRuns
import Tenzor.Data.Sampler
import Tenzor.Ops.PixelShuffle
import Tenzor.Ops.SplitExact
import Tenzor.Distributed.DeviceMeshGroups
import Tenzor.Distributed.FsdpUnits
import Tenzor.Optim.ZeroAgrees
import Tenzor.Io.LongIntegers
import Tenzor.Jit.NodeOrder
import Tenzor.Autograd.BroadcastAdjoint
import Tenzor.Optim.ChainedRates
