import Cachetest.ByteMemory
import Cachetest.Circuit
import Cachetest.LinkedWords
import Cachetest.Machine
import Cachetest.Buffer
import Cachetest.SubpathLayout
import Cachetest.Distribution
import Cachetest.Distribute
import Cachetest.UniformSubpath
import Cachetest.ZipfSubpath
import Cachetest.Experiment
import Cachetest.SubpathInfo
import Cachetest.SplitPath
import Cachetest.DebugChecks
import Cachetest.Runs
import Cachetest.Loop
import Cachetest.Stopping
import Cachetest.Migration
import Cachetest.Writeback
import Cachetest.Text
import Cachetest.CommandLine
import Cachetest.ParseOptions
import Cachetest.CpuSpec
import Cachetest.Pinning
import Cachetest.Consecutive
import Cachetest.FrameSearch
import Cachetest.FrameMap
import Cachetest.Contiguity
import Cachetest.FibreBarrier
import Cachetest.PerfCachetest
import Cachetest.Binary64
import Cachetest.Genzipf
import Cachetest.Sequence
import Cachetest.FirstFit
import Cachetest.UniformDistribution
import Cachetest.Sizes
import Cachetest.Placement
import Cachetest.HugeDistribution
import Cachetest.Bisection
import Cachetest.WeightedUniform
import Cachetest.WeightedCycle
import Cachetest.WorkerCpus
import Cachetest.Hexadecimal
import Cachetest.ParseEvents
import Cachetest.EventCode
import Cachetest.MersenneTwister
import Cachetest.ZipfDistribution
import Cachetest.AvgAwk
import Cachetest.Tokens
import Cachetest.MedianAwk
import Cachetest.LoadFramesDump
import Cachetest.Measurement
import Cachetest.Workers
import Cachetest.ThreadTest
import Cachetest.Traversal
import Cachetest.WorkersEnding
import Cachetest.Ending
import Cachetest.FibreRun
import Cachetest.Roaming
import Cachetest.FibreTraversal
import Cachetest.FibreEnding
import Cachetest.FullPeriod
import Cachetest.Rounding
import Cachetest.ZipfRanks
import Cachetest.Lagged
import Cachetest.XorShift
import Cachetest.MTRandState
import Cachetest.MTRandSeeds
import Cachetest.MTRandBounded
import Cachetest.LinearDistribution
import Cachetest.Report
import Cachetest.Main
