import VectorSearch.Lib.ByteCodec
import VectorSearch.Lib.ByteReader
import VectorSearch.Lib.Frames
import VectorSearch.Lib.KeyedLog
import VectorSearch.Lib.DurableFile
import VectorSearch.Lib.PriorityQueue
import VectorSearch.Lib.Reach
import VectorSearch.Wal.Record
import VectorSearch.Wal.Log
import VectorSearch.Wal.RoundTrip
import VectorSearch.Wal.TornTail
import VectorSearch.Wal.FailedAppend
import VectorSearch.Hnsw.Platform
import VectorSearch.Hnsw.KeyMap
import VectorSearch.Hnsw.Index
import VectorSearch.Hnsw.Graph
import VectorSearch.Hnsw.Operations
import VectorSearch.Hnsw.LayerSearch
import VectorSearch.Hnsw.Linking
import VectorSearch.Hnsw.KeyStore
import VectorSearch.Hnsw.WellFormed
import VectorSearch.Hnsw.Reachability
import VectorSearch.Hnsw.Sequential
import VectorSearch.Hnsw.Snapshot
import VectorSearch.Hnsw.SaveLoad
import VectorSearch.Hnsw.Bounds
import VectorSearch.Hnsw.Binding
import VectorSearch.Durable.Index
import VectorSearch.Durable.Recovery
import VectorSearch.Durable.Refinement
import VectorSearch.Durable.CrashRecovery
import VectorSearch.Durable.Rotation
import VectorSearch.Durable.PowerLoss
import VectorSearch.Durable.LogOrder
import VectorSearch.Durable.Rounds
import VectorSearch.Hnsw.ConcurrentAdd
import VectorSearch.Coordinator.Gather
import VectorSearch.Coordinator.Merge
import VectorSearch.Coordinator.Router
import VectorSearch.Durable.FailedSnapshot
import VectorSearch.Durable.FailedWrites
import VectorSearch.Durable.SameGraph
import VectorSearch.Durable.Startup
import VectorSearch.Hnsw.SearchSound
import VectorSearch.Shard.Server
import VectorSearch.Cluster.Invariant
import VectorSearch.Cluster.KeyIdentity
import VectorSearch.Wal.Language
import VectorSearch.Lib.GreedySelection
import VectorSearch.Hnsw.Heuristic
import VectorSearch.Hnsw.LocalOptimum
import VectorSearch.Hnsw.SearchAnswers
import VectorSearch.Hnsw.InsertionFrame
import VectorSearch.Lib.RwLock
import VectorSearch.Hnsw.ConcurrentInsert
import VectorSearch.Hnsw.IdAllocation
import VectorSearch.Hnsw.EntryLock
import VectorSearch.Hnsw.LostLinks
import VectorSearch.Lib.OutputStream
import VectorSearch.Durable.FullDisk
import VectorSearch.Hnsw.DamagedSnapshot
import VectorSearch.Hnsw.LoadedFile
import VectorSearch.Lib.Descent
import VectorSearch.Hnsw.GreedyDescent
import VectorSearch.Hnsw.VisitedList
import VectorSearch.Hnsw.MarkedSearch
import VectorSearch.Hnsw.Kernels
import VectorSearch.Lib.XorMultiply
import VectorSearch.Coordinator.KeyBits
import VectorSearch.Hnsw.Levels
import VectorSearch.Hnsw.ConcurrentBounds
import VectorSearch.Hnsw.ConcurrentSearch
import VectorSearch.Lib.History
import VectorSearch.Hnsw.KeyHistory
import VectorSearch.Shard.Effects
import VectorSearch.Cluster.History
import VectorSearch.Cluster.Reads
import VectorSearch.Hnsw.KeyReplay
import VectorSearch.Durable.Lifetime
import VectorSearch.Durable.Lives
import VectorSearch.Hnsw.ExactSearch
import VectorSearch.Cluster.Exact
import VectorSearch.Cluster.ScatterGather
import VectorSearch.Shard.Lifecycle
import VectorSearch.Cluster.Restarts
import VectorSearch.Cluster.Survival
