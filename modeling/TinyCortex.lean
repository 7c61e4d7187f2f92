import TinyCortex.Lib.Log
import TinyCortex.Lib.Machine
import TinyCortex.Lib.Table
import TinyCortex.Lib.Fallible
import TinyCortex.Lib.I64
import TinyCortex.Lib.KeyedStore
import TinyCortex.Queue.Types
import TinyCortex.Queue.Store
import TinyCortex.Queue.StoreSettle
import TinyCortex.Queue.ClaimToken
import TinyCortex.Queue.DedupeIndex
import TinyCortex.Queue.Gate
import TinyCortex.Queue.World
import TinyCortex.Chunks.Types
import TinyCortex.Tree.BucketSeal
import TinyCortex.Tree.Conservation
import TinyCortex.Tree.Read
import TinyCortex.Tree.Redelivery
import TinyCortex.Tree.Registry
import TinyCortex.Tree.World
import TinyCortex.Tree.Store
import TinyCortex.Worker.SealWorld
import TinyCortex.Ingest.Reingest
import TinyCortex.Worker.SealEdge
import TinyCortex.Tree.Header
import TinyCortex.Tree.Flush
import TinyCortex.Tree.MergeTier
import TinyCortex.Retrieval.DrillDown
import TinyCortex.Retrieval.DrillDownComplete
import TinyCortex.Chunks.List
import TinyCortex.Retrieval.Cover
import TinyCortex.Lib.Pruning
import TinyCortex.Retrieval.CoverComplete
import TinyCortex.Chunks.Delete
import TinyCortex.Chunks.DeleteReach
import TinyCortex.Ingest.Reopen
import TinyCortex.Content.Paths
import TinyCortex.Content.Raw
import TinyCortex.Ingest.Canonicalize
import TinyCortex.Retrieval.Envelope
import TinyCortex.Tree.Frozen
import TinyCortex.Tree.Profile
import TinyCortex.Tree.Sealable
import TinyCortex.Lib.Interleaving
import TinyCortex.TimeTree.Disk
import TinyCortex.TimeTree.DiskKept
import TinyCortex.TimeTree.FoldedOnce
import TinyCortex.TimeTree.Rebuild
import TinyCortex.TimeTree.SwapKept
import TinyCortex.Archivist.AppendedOnce
import TinyCortex.Chunks.Produce
import TinyCortex.Chunks.Signature
import TinyCortex.Content.Compose
import TinyCortex.Content.FilesKept
import TinyCortex.Conversations.Bus
import TinyCortex.Conversations.ChannelThreads
import TinyCortex.Conversations.CountsConverge
import TinyCortex.Conversations.DeliveredOnce
import TinyCortex.Conversations.FirstRows
import TinyCortex.Conversations.IndexTransport
import TinyCortex.Conversations.Jsonl
import TinyCortex.Conversations.Pending
import TinyCortex.Conversations.SearchRefines
import TinyCortex.Conversations.WarmIndexKept
import TinyCortex.Diff.Ledger
import TinyCortex.Diff.ItemId
import TinyCortex.Diff.LedgerOrder
import TinyCortex.Diff.Checkpoint
import TinyCortex.Diff.ReadMarkers
import TinyCortex.Diff.MetaReadBack
import TinyCortex.Diff.ItemTrees
import TinyCortex.Diff.MapDifference
import TinyCortex.TimeTree.Buffer
import TinyCortex.Lib.Chrono
import TinyCortex.TimeTree.NodeFile
import TinyCortex.TimeTree.NodeRoundTrip
import TinyCortex.Entities.Frontmatter
import TinyCortex.Entities.RoundTrip
import TinyCortex.Entities.Storable
import TinyCortex.Entities.Store
import TinyCortex.Entities.Notes
import TinyCortex.Persona.CursorStore
import TinyCortex.Persona.DiffSample
import TinyCortex.Persona.RulesKept
import TinyCortex.Persona.SplitRules
import TinyCortex.Sync.PageSize
import TinyCortex.Sync.PagedRun
import TinyCortex.Graph.EdgeStore
import TinyCortex.Kv.Store
import TinyCortex.Lib.Incidence
import TinyCortex.People.Coherent
import TinyCortex.Persona.Coverage
import TinyCortex.Queue.Backfill
import TinyCortex.Queue.Requeue
import TinyCortex.Queue.UnitsOfWork
import TinyCortex.Retrieval.CoverIsolated
import TinyCortex.Retrieval.SourceQuery
import TinyCortex.Score.EdgesRefine
import TinyCortex.Sync.Backed
import TinyCortex.Sync.Complete
import TinyCortex.Sync.FolderMirror
import TinyCortex.Sync.Gmail
import TinyCortex.Sync.Slack
import TinyCortex.Tree.Embeddings
import TinyCortex.ToolMemory.Render
import TinyCortex.ToolMemory.Rules
import TinyCortex.Sources.Registry
import TinyCortex.Sources.Upserts
import TinyCortex.Sources.RegistryValid
import TinyCortex.Lib.IpAddr
import TinyCortex.Lib.PathName
import TinyCortex.Sources.Ssrf
import TinyCortex.Content.Component
import TinyCortex.Conversations.Normalized
import TinyCortex.Lib.Regex
import TinyCortex.Sources.Glob
import TinyCortex.Lib.Json
import TinyCortex.Sync.Todoist
import TinyCortex.Chunks.Semantic
import TinyCortex.Chunks.SemanticKeeps
import TinyCortex.Chunks.SplitTiles
import TinyCortex.Graph.Bfs
import TinyCortex.Graph.BfsQueue
import TinyCortex.Lib.Ranking
import TinyCortex.Persona.Git
import TinyCortex.Persona.GitFolded
import TinyCortex.Persona.Digest
import TinyCortex.Retrieval.Topic
import TinyCortex.Retrieval.CoverAntichain
import TinyCortex.Retrieval.TopicRuns
import TinyCortex.Retrieval.WindowScan
import TinyCortex.Tree.BufferAccounts
import TinyCortex.Tree.Cascade
import TinyCortex.Tree.DocumentCovers
import TinyCortex.Tree.Prompt
import TinyCortex.Lib.Like
import TinyCortex.Retrieval.Search
