import HashingBenchmark.Probe.Correct
import HashingBenchmark.Cuckoo.Correct
import HashingBenchmark.Chained.Table
import HashingBenchmark.Lib.Linked
import HashingBenchmark.Chained.Invariant
import HashingBenchmark.Chained.Insert
import HashingBenchmark.Chained.Correct
import HashingBenchmark.Construction
import HashingBenchmark.Lib.UIntOrder
import HashingBenchmark.Rmi.Query
import HashingBenchmark.Rmi.Correct
import HashingBenchmark.Join.Runner
import HashingBenchmark.Join.Correct
import HashingBenchmark.Monotone.Table
import HashingBenchmark.Monotone.Iterate
import HashingBenchmark.Monotone.Correct
import HashingBenchmark.Chained.Range
import HashingBenchmark.Chained.RangeCorrect
import HashingBenchmark.Lib.ChunkList
import HashingBenchmark.Npj.Build
import HashingBenchmark.Lib.Interleaving
import HashingBenchmark.Npj.Interleave
import HashingBenchmark.Npj.Probe
import HashingBenchmark.Fixture.Names
import HashingBenchmark.Fixture.Cache
import HashingBenchmark.Lib.SuffixCode
import HashingBenchmark.Fixture.Signature
import HashingBenchmark.Fixture.Correct
import HashingBenchmark.Gapped.TouchUp
import HashingBenchmark.Gapped.TouchUpCorrect
import HashingBenchmark.Gapped.Build
import HashingBenchmark.Gapped.BuildCorrect
import HashingBenchmark.Gapped.Probe
import HashingBenchmark.Gapped.ProbeCorrect
import HashingBenchmark.Inlj.Count
import HashingBenchmark.Inlj.RmiProbe
import HashingBenchmark.Inlj.RmiSearch
import HashingBenchmark.Inlj.RmiCorrect
import HashingBenchmark.Inlj.CssTree
import HashingBenchmark.Lib.TableFill
import HashingBenchmark.Inlj.CssBuild
import HashingBenchmark.Inlj.CssSearch
import HashingBenchmark.Inlj.CssCorrect
import HashingBenchmark.Inlj.CssFits
import HashingBenchmark.Lib.OrbitFill
import HashingBenchmark.Probe.Occupancy
import HashingBenchmark.Chained.Exotic
import HashingBenchmark.Mmphf.Table
import HashingBenchmark.Mmphf.Correct
import HashingBenchmark.Lib.LaneMask
import HashingBenchmark.Monotone.Simd
import HashingBenchmark.Cuckoo.Failure
import HashingBenchmark.Join.Io
import HashingBenchmark.Join.IoCorrect
import HashingBenchmark.Art.Node
import HashingBenchmark.Lib.RadixBuild
import HashingBenchmark.Art.Tree
import HashingBenchmark.Art.Refine
import HashingBenchmark.Art.Correct
import HashingBenchmark.Chained.ByteSize
import HashingBenchmark.Directory
import HashingBenchmark.Dataset.Cached
import HashingBenchmark.Dataset.Sample
import HashingBenchmark.Join.Datasets
import HashingBenchmark.Join.DatasetsCorrect
import HashingBenchmark.Cuckoo.Kicking
import HashingBenchmark.Dataset.ProbingSet
import HashingBenchmark.Probe.Statistics
import HashingBenchmark.Inlj.CssWalk
import HashingBenchmark.Inlj.CssBlock
import HashingBenchmark.Lib.BitSmear
import HashingBenchmark.Npj.Allocate
import HashingBenchmark.Lib.Slices
import HashingBenchmark.Scripts.Benchmark
import HashingBenchmark.Lib.Dict
import HashingBenchmark.Lib.EarliestMin
import HashingBenchmark.Scripts.CleanOutput
import HashingBenchmark.Lib.Json
import HashingBenchmark.Lib.TextLines
import HashingBenchmark.Scripts.MergeOutput
import HashingBenchmark.Scripts.ResultFile
import HashingBenchmark.Scripts.MergeCorrect
import HashingBenchmark.Join.ProbePhase
import HashingBenchmark.Lib.XorShift
import HashingBenchmark.Npj.Murmur
import HashingBenchmark.Join.Generate
import HashingBenchmark.Join.Shuffle
import HashingBenchmark.Chained.Rising
import HashingBenchmark.Chained.GapStats
import HashingBenchmark.Inlj.CuckooMap
import HashingBenchmark.Inlj.CuckooMapCorrect
import HashingBenchmark.Lib.SpinLock
import HashingBenchmark.Npj.Latch
import HashingBenchmark.Npj.LatchSection
import HashingBenchmark.Npj.LatchRefine
import HashingBenchmark.Lib.Phased
import HashingBenchmark.Npj.Barrier
import HashingBenchmark.Npj.BarrierCorrect
import HashingBenchmark.Npj.JoinThread
import HashingBenchmark.Npj.JoinThreadCorrect
import HashingBenchmark.Lib.Spread
import HashingBenchmark.Probe.Exotic
import HashingBenchmark.Cuckoo.Statistics
import HashingBenchmark.Cuckoo.Exotic
import HashingBenchmark.Lib.RadixErase
import HashingBenchmark.Art.Erase
import HashingBenchmark.Art.Live
import HashingBenchmark.Art.EraseNode
import HashingBenchmark.Art.EraseRefine
import HashingBenchmark.Art.Runs
import HashingBenchmark.Lib.RadixOrder
import HashingBenchmark.Art.Order
import HashingBenchmark.Art.Extremes
import HashingBenchmark.Chained.OneBucket
import HashingBenchmark.Join.Workload
import HashingBenchmark.Join.WorkloadCorrect
