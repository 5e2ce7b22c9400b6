import PyTorchCore.Dispatch.LiveRegistrations
import PyTorchCore.TensorIterator.FastRefinement
import PyTorchCore.TensorIterator.DenseStrides
import PyTorchCore.RRef.Safety
import PyTorchCore.StaticRuntime.MemoryPlanner
import PyTorchCore.Rendezvous.Agreement
import PyTorchCore.Autograd.Engine
import PyTorchCore.Jit.AliasSoundness
import PyTorchCore.Ddp.GradientAgreement
import PyTorchCore.TcpStore.Matching
import PyTorchCore.Stores.Agreement
import PyTorchCore.Pickle.UnreadableDevices
import PyTorchCore.Pickle.RestoredTensors
import PyTorchCore.Stores.Linearizable
import PyTorchCore.Stores.HashStoreWaits
import PyTorchCore.Jit.ListSlice
import PyTorchCore.Fx.DeadCode
import PyTorchCore.Fx.Names
import PyTorchCore.Functionalization.Simulation
import PyTorchCore.ViewInverses.Inverses
import PyTorchCore.Refinement.Passes
import PyTorchCore.IrGraph.UseLists
import PyTorchCore.RemoteErrors.TimedOut
import PyTorchCore.MemoryDag.Patches
import PyTorchCore.AliasMoves.Moves
import PyTorchCore.BoundsOverlap.Difference
import PyTorchCore.BoundsOverlap.Sampled
import PyTorchCore.TensorExpr.ComputeAtRight
import PyTorchCore.LoopNest.NestRewrites
import PyTorchCore.IrSimplifier.Lanes
import PyTorchCore.Frontend.StringLiteral
import PyTorchCore.Frontend.WriteMarks
import PyTorchCore.Ddp.RebuildBuckets
import PyTorchCore.Ddp.CommHook
import PyTorchCore.Data.DistributedSampler
import PyTorchCore.NamedTensors.Unification
import PyTorchCore.TensorIterator.Indexing32
import PyTorchCore.Core.MemoryOverlap
