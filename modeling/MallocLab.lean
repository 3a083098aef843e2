import MallocLab.Memory.Words
import MallocLab.Memory.Tiling
import MallocLab.Blocks
import MallocLab.Releases
import MallocLab.Memlib
import MallocLab.MemlibRuns
import MallocLab.FirstFit.Model
import MallocLab.FirstFit.BlockList
import MallocLab.FirstFit.WellFormed
import MallocLab.FirstFit.Coalesce
import MallocLab.FirstFit.Requests
import MallocLab.FirstFit.Allocator
import MallocLab.FirstFit.Refinement
import MallocLab.FirstFit.LargeRequests
import MallocLab.FirstFit.Runs
import MallocLab.FirstFit.Invariant
import MallocLab.FirstFit.FreeOrder
import MallocLab.Memory.Logged
import MallocLab.Memory.LinkedList
import MallocLab.Segregated.Model
import MallocLab.Segregated.Rules
import MallocLab.Segregated.Lists
import MallocLab.Segregated.FreeLists
import MallocLab.Segregated.WellFormed
import MallocLab.Segregated.Coalesce
import MallocLab.Segregated.Frames
import MallocLab.Segregated.Free
import MallocLab.Segregated.FreeOrder
import MallocLab.Segregated.Reservations
import MallocLab.Segregated.Place
import MallocLab.Segregated.Extend
import MallocLab.Segregated.Realloc
import MallocLab.Segregated.ReallocRoom
import MallocLab.Segregated.Search
import MallocLab.Timing.Smallest
import MallocLab.Timing.Sampler
import MallocLab.FirstFit.OutOfMemory
import MallocLab.Driver.Scan
import MallocLab.Driver.ReadTrace
import MallocLab.Memory.Spans
import MallocLab.Driver.Replay
import MallocLab.Driver.EvalValid
import MallocLab.Driver.Soundness
import MallocLab.Driver.Correct
import MallocLab.Driver.EvalUtil
import MallocLab.Explicit.Model
import MallocLab.Explicit.Heap
import MallocLab.Explicit.Place
import MallocLab.Explicit.Check
import MallocLab.Segregated.ReallocGrowth
import MallocLab.Driver.Layout
import MallocLab.Driver.FirstFitCalls
import MallocLab.Driver.FirstFitValid
import MallocLab.Driver.EvalSpeed
import MallocLab.Driver.FirstFitUtil
import MallocLab.Driver.Verdict
import MallocLab.Driver.Main
import MallocLab.Driver.FirstFitMain
import MallocLab.FirstFit.CheckHeap
import MallocLab.Timing.Convergence
import MallocLab.Driver.WriteTrace
import MallocLab.Segregated.Init
import MallocLab.Explicit.FreeList
import MallocLab.Explicit.FindFit
