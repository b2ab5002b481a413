import PrlMiner.Library.Reduction
import PrlMiner.Library.FixedWidth
import PrlMiner.Library.Blake3
import PrlMiner.Reference.NoiseGenerator
import PrlMiner.Reference.NoisyGemm
import PrlMiner.Library.ParallelWrites
import PrlMiner.Library.Search
import PrlMiner.Reference.Transcript
import PrlMiner.Reference.TiledMatmul
import PrlMiner.Library.LowRankNoise
import PrlMiner.Reference.NoiseStructure
import PrlMiner.Reference.Denoise
import PrlMiner.Cuda.Blake3Block
import PrlMiner.Cuda.Noising
import PrlMiner.Cuda.PowScan
import PrlMiner.Cuda.ScanWinner
import PrlMiner.Cuda.ReferenceScan
import PrlMiner.Cuda.Warp
import PrlMiner.Cuda.TilePipeline
import PrlMiner.Cuda.Mine2Kernel
import PrlMiner.Cuda.Outcome
import PrlMiner.Cuda.Mine2Entry
import PrlMiner.Cuda.GpuSearch
import PrlMiner.Cuda.NaiveTranscript
import PrlMiner.Cuda.NaiveRun
import PrlMiner.Cuda.MineKernel
import PrlMiner.Cuda.NoiseGen
import PrlMiner.Cuda.MineEntry
import PrlMiner.Cuda.Context
import PrlMiner.Cuda.ContextRuns
import PrlMiner.Cuda.ContextBatch
import PrlMiner.Library.Runs
import PrlMiner.Miner.Runtime
import PrlMiner.Library.EarlyExit
import PrlMiner.Miner.CircuitBreaker
import PrlMiner.Library.Python
import PrlMiner.Miner.LuckyPool
import PrlMiner.Miner.LuckyPoolRuns
import PrlMiner.Miner.LuckyPoolJobs
import PrlMiner.Miner.LuckyPoolShares
import PrlMiner.Miner.MineLoopRuns
import PrlMiner.Miner.SubmitOutcomes
import PrlMiner.Miner.StaleSafety
import PrlMiner.Miner.MockGateway
import PrlMiner.Miner.CpuBackend
import PrlMiner.Miner.CudaBackend
import PrlMiner.Miner.CudaSearch
import PrlMiner.Miner.BackendReference
import PrlMiner.Miner.BackendsAgree
import PrlMiner.Miner.BackendSwap
import PrlMiner.Miner.WorkProofs
import PrlMiner.Miner.SelfTestRuns
import PrlMiner.Miner.WireFormat
import PrlMiner.Miner.GatewayWire
import PrlMiner.Miner.GatewayHistory
import PrlMiner.Miner.GatewayNet
import PrlMiner.Miner.SharedGateway
import PrlMiner.Miner.Nonces
import PrlMiner.Library.Lines
import PrlMiner.Library.Base64
import PrlMiner.Library.JsonText
import PrlMiner.Library.JsonRoundTrip
import PrlMiner.Miner.GatewayClient
import PrlMiner.Miner.GatewayRecovery
import PrlMiner.Miner.StratumClient
import PrlMiner.Miner.StratumLines
import PrlMiner.Cuda.KeyBatchRuns
import PrlMiner.Cuda.Mine2Transcripts
import PrlMiner.Cuda.NaiveAgreement
import PrlMiner.Cuda.NoiseGenEntry
import PrlMiner.Reference.TiledSearch
import PrlMiner.Reference.EasiestTarget
import PrlMiner.Reference.AlikeRows
import PrlMiner.Reference.GeneratedNoise
import PrlMiner.Cuda.MmaGemm
import PrlMiner.Cuda.NaiveIndices
import PrlMiner.Cuda.ContextLifetime
import PrlMiner.Cuda.ContextOwnership
import PrlMiner.Cuda.ContextAgreement
import PrlMiner.Cuda.NvmlMonitor
import PrlMiner.Cuda.EntryAllocations
import PrlMiner.Library.KeyedSlot
import PrlMiner.Miner.PreloadCache
import PrlMiner.Library.Triples
import PrlMiner.Miner.PoolProbe
import PrlMiner.Miner.ProbeStops
import PrlMiner.Miner.ProtocolHashrate
import PrlMiner.Miner.StatusLine
import PrlMiner.Miner.StatusShares
import PrlMiner.Library.RegexSuffix
import PrlMiner.Library.TextLines
import PrlMiner.Miner.ProtocolBenchmark
import PrlMiner.Library.Blake3Tree
import PrlMiner.Cuda.DeviceBlake3
import PrlMiner.Miner.LuckyPoolBatches
import PrlMiner.Miner.NetworkCalls
import PrlMiner.Miner.NetworkWork
