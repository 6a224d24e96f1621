import KairosEngine.Cuda.RewindWindow
import KairosEngine.Daemon.PrefillReuseExact
import KairosEngine.Daemon.GlobalKCalls
import KairosEngine.Daemon.SpineInline
import KairosEngine.Daemon.Telemetry
import KairosEngine.Daemon.ResidentTurns
import KairosEngine.Daemon.CommittedTruth
import KairosEngine.Daemon.MemoryStore
import KairosEngine.Daemon.ForgetGone
import KairosEngine.Daemon.Lifecycle
import KairosEngine.Library.MinHeap
import KairosEngine.Tokenizer.Gemma4Build
import KairosEngine.Tokenizer.Gemma4Piece
import KairosEngine.Tokenizer.PieceRefinement
import KairosEngine.Cuda.ExpertCache
import KairosEngine.Cuda.CacheDirectory
import KairosEngine.Cuda.SlotTable
import KairosEngine.Cuda.MoeRouting
import KairosEngine.Cuda.HostFreeMid
import KairosEngine.Cuda.KvBounds
import KairosEngine.Cuda.PrefixShear
import KairosEngine.Cuda.BatchedPrefill
import KairosEngine.Cuda.PrefixBlob
import KairosEngine.Cuda.RecallPeek
import KairosEngine.Cuda.ExpertLayer
import KairosEngine.Cuda.ExpertOrder
import KairosEngine.Cuda.ExpertStaging
import KairosEngine.Cuda.ExpertKernels
import KairosEngine.Daemon.DecodeBuffer
import KairosEngine.Daemon.PouwLedger
import KairosEngine.Daemon.SpecStep
import KairosEngine.Daemon.ToolMask
import KairosEngine.Library.DirectoryTree
import KairosEngine.Swarm.Attacker
import KairosEngine.Swarm.Serve
import KairosEngine.Swarm.Sync
import KairosEngine.Library.Occurrences
import KairosEngine.Tokenizer.ChatTemplate
import KairosEngine.Tokenizer.TurnMarkers
import KairosEngine.Cuda.ExpertRun
import KairosEngine.Library.LittleEndian
import KairosEngine.Library.TaskPool
import KairosEngine.Network.GarnerAssembly
import KairosEngine.Network.GarnerRuns
import KairosEngine.Network.PeerMap
import KairosEngine.Daemon.Sampler
import KairosEngine.Daemon.ThoughtCeiling
import KairosEngine.Library.BlockStore
import KairosEngine.Network.Ring2Quic
import KairosEngine.Tokenizer.DecodeLanes
import KairosEngine.Library.Cursor
import KairosEngine.Tokenizer.Gpt2Lane
import KairosEngine.Tokenizer.TokFile
import KairosEngine.Cuda.ForwardWindow
import KairosEngine.Daemon.DecodeStall
import KairosEngine.Daemon.DevicePriority
import KairosEngine.Daemon.SharedLedger
import KairosEngine.Library.Backtrack
import KairosEngine.Swarm.Canonical
import KairosEngine.Tokenizer.PieceRegex
import KairosEngine.Library.GreedyMerge
import KairosEngine.Library.IeeeNumber
import KairosEngine.Library.LinkedSpans
import KairosEngine.Tokenizer.SpmFragment
import KairosEngine.Tokenizer.SpmRefinement
import KairosEngine.Library.LengthFrames
import KairosEngine.Swarm.Framing
import KairosEngine.Swarm.PullAccount
import KairosEngine.Library.FillMissing
import KairosEngine.Swarm.Mesh
import KairosEngine.Swarm.Convergence
import KairosEngine.Library.Quiescence
import KairosEngine.Daemon.KvdecodeTurn
import KairosEngine.Daemon.TurnAbort
import KairosEngine.Library.BufWriter
import KairosEngine.Daemon.LedgerFaults
import KairosEngine.Daemon.LedgerReaders
import KairosEngine.Library.KeyedList
import KairosEngine.Swarm.Similarity
import KairosEngine.Library.BitPacking
import KairosEngine.Swarm.SigCodec
import KairosEngine.Library.Barrett
import KairosEngine.Cuda.PtxNtt
import KairosEngine.Library.Bitmap
import KairosEngine.Library.Shuffle
import KairosEngine.Daemon.MemoRouting
import KairosEngine.Library.Avx512
import KairosEngine.Cuda.MoeCpuExpert
import KairosEngine.Daemon.EpisodeOkf
import KairosEngine.Tokenizer.SptbReader
import KairosEngine.Daemon.GreedyPickers
import KairosEngine.Library.Garner
import KairosEngine.Library.Checked
import KairosEngine.Library.DigitRoot
import KairosEngine.Cuda.ByteExact
import KairosEngine.Cuda.RmsScale
import KairosEngine.Library.FixedPoint
import KairosEngine.Cuda.FixedExp
import KairosEngine.Cuda.OverlapPass
import KairosEngine.Cuda.OverlapBound
import KairosEngine.Library.ScoreOrder
import KairosEngine.Cuda.RouterTopk
import KairosEngine.Library.Striping
import KairosEngine.Cuda.ExpertBuckets
import KairosEngine.Cuda.PinRing
import KairosEngine.Cuda.PinRingRuns
import KairosEngine.Library.Softmax
import KairosEngine.Library.Tiling
import KairosEngine.Cuda.PrefillAttention
import KairosEngine.Cuda.PrefillGemm
import KairosEngine.Library.Weaving
import KairosEngine.Daemon.Reseam
import KairosEngine.Daemon.SeamFires
import KairosEngine.Daemon.ServingFlag
import KairosEngine.Daemon.DeviceNote
import KairosEngine.Daemon.Spectest
import KairosEngine.Daemon.PickPolicy
import KairosEngine.Daemon.SupersedeMark
import KairosEngine.Daemon.OkfReclass
import KairosEngine.Library.UndoLog
import KairosEngine.Daemon.Probes
import KairosEngine.Daemon.MergePass
import KairosEngine.Daemon.OkfRefine
import KairosEngine.Cuda.OracleTopB
import KairosEngine.Cuda.Q4bReaders
import KairosEngine.Library.PackedWord
import KairosEngine.Daemon.Qwen36Turn
import KairosEngine.Daemon.Qwen36Stream
import KairosEngine.Cuda.BxAttention
import KairosEngine.Daemon.KairosAlpha
import KairosEngine.Daemon.LiHeartbeat
import KairosEngine.Tokenizer.HashTables
import KairosEngine.Cuda.DecodeAttention
import KairosEngine.Cuda.ExpertPoolRuns
import KairosEngine.Cuda.PrefetchRuns
import KairosEngine.Cuda.ExpertLoop
import KairosEngine.Daemon.SamplerDraw
