import TradePlat.Lib.Runs
import TradePlat.Lib.SortedMap
import TradePlat.Lib.Binary64
import TradePlat.Lib.Incremental
import TradePlat.Lib.RingCells
import TradePlat.Lib.FileTree
import TradePlat.Lib.BitStrings
import TradePlat.Lib.SecureHash
import TradePlat.Lib.Base64
import TradePlat.Lib.OrderedSamples
import TradePlat.Lib.RunningNumbers
import TradePlat.Lib.LinkedCells
import TradePlat.Lib.Words
import TradePlat.Lib.Decimals
import TradePlat.Lib.TaggedParts
import TradePlat.Engine.OrderBook
import TradePlat.Engine.MatchingEngine
import TradePlat.Engine.MatchLoop
import TradePlat.Engine.Prices
import TradePlat.Engine.Conservation
import TradePlat.Engine.Tracking
import TradePlat.Engine.Invariant
import TradePlat.Engine.Reachable
import TradePlat.Engine.Auction
import TradePlat.Engine.Refinement
import TradePlat.Engine.LimitPrices
import TradePlat.Engine.DuplicateIds
import TradePlat.Engine.Stream
import TradePlat.Engine.Totals
import TradePlat.Engine.Priority
import TradePlat.Engine.Termination
import TradePlat.Engine.Histograms
import TradePlat.Engine.Percentiles
import TradePlat.Engine.MemoryPool
import TradePlat.Queue.MPSCQueue
import TradePlat.Queue.MPSCFifo
import TradePlat.Queue.SPSCQueue
import TradePlat.Queue.ApproxSize
import TradePlat.Gateway.Handshake
import TradePlat.Gateway.Connection
import TradePlat.Gateway.Segmentation
import TradePlat.Gateway.Frames
import TradePlat.Gateway.Packing
import TradePlat.Gateway.Appending
import TradePlat.Gateway.Fragmentation
import TradePlat.Gateway.Digest
import TradePlat.Gateway.Upgrade
import TradePlat.Gateway.Cursors
import TradePlat.Gateway.Server
import TradePlat.Gateway.ServerTrace
import TradePlat.Gateway.ServerInvariant
import TradePlat.Scorer.ContestantState
import TradePlat.Scorer.NoFalsePositives
import TradePlat.Scorer.Exchange
import TradePlat.Scorer.SkippedPrice
import TradePlat.Scorer.SlidingWindow
import TradePlat.Telemetry.MarketEvents
import TradePlat.Telemetry.KafkaOffloader
import TradePlat.Telemetry.OffloaderTrace
import TradePlat.Telemetry.Delivery
import TradePlat.Telemetry.Uploads
import TradePlat.Telemetry.Books
import TradePlat.Telemetry.Leaderboard
import TradePlat.Telemetry.LeaderboardSteps
import TradePlat.Telemetry.LeaderboardTrace
import TradePlat.Telemetry.LeaderboardStreams
import TradePlat.Telemetry.WorkerTrace
import TradePlat.System.Ingress
import TradePlat.System.TradeFeed
import TradePlat.System.EventAccount
import TradePlat.System.Backpressure
import TradePlat.System.ProcessLoop
import TradePlat.System.Shutdown
import TradePlat.System.WireFidelity
import TradePlat.System.FleetIds
import TradePlat.System.Pipeline
import TradePlat.System.EndToEnd
import TradePlat.System.Joins
import TradePlat.System.Progress
import TradePlat.System.Handover
import TradePlat.Fleet.Connections
import TradePlat.Fleet.ClientSteps
import TradePlat.Fleet.ConnectionsTrace
import TradePlat.System.Platform
import TradePlat.Infra.Orchestrator
import TradePlat.Bench.Readiness
import TradePlat.Bench.Summary
import TradePlat.Bench.PythonText
import TradePlat.Bench.FleetMetrics
