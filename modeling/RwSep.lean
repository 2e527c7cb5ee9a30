import RwSep.Allocator.Failure
import RwSep.Allocator.Independence
import RwSep.Allocator.Isolation
import RwSep.Allocator.Lifetime
import RwSep.Allocator.Usage
import RwSep.Allocator.World
import RwSep.Benchmark.Copy
import RwSep.Benchmark.Granularity
import RwSep.Benchmark.LatModes
import RwSep.Benchmark.LatRun
import RwSep.Benchmark.Latency
import RwSep.Benchmark.Multithread
import RwSep.Benchmark.RwPhases
import RwSep.Benchmark.Speedup
import RwSep.Benchmark.StrideTraces
import RwSep.MemAccess.CalleeSaved
import RwSep.MemAccess.ChasingFailure
import RwSep.MemAccess.RandLfsr
import RwSep.MemAccess.ReadAfterWrite
import RwSep.MemAccess.Sequential
import RwSep.MemAccess.Unrolled
import RwSep.MemAccess.WriteBack
import RwSep.Benchmark.Tasks
import RwSep.MemAccess.CrashImages
import RwSep.Latency.Cache
import RwSep.Latency.Crash
import RwSep.Benchmark.LatRelaxed
import RwSep.Benchmark.LatJob
