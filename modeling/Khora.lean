import Khora.Lib.Fallible
import Khora.Lib.Calendar
import Khora.Lib.IsoText
import Khora.Lib.Json
import Khora.Lib.Keyset
import Khora.Lib.Binary64
import Khora.Lib.Segments
import Khora.Lib.Ternary
import Khora.Lib.Modularity
import Khora.Lib.OrderedDict
import Khora.Lib.DisjointSets
import Khora.Lib.Glob
import Khora.Lib.Grouping
import Khora.Lib.Runs
import Khora.Lib.Table
import Khora.Lib.HashIndex
import Khora.Filter.Value
import Khora.Filter.Ast
import Khora.Filter.Split
import Khora.Filter.NormalForm
import Khora.Filter.Model
import Khora.Filter.Lower
import Khora.Filter.Python
import Khora.Filter.Superset
import Khora.Filter.Sqlite
import Khora.Filter.Lance
import Khora.Filter.ChunkRow
import Khora.Filter.Chronicle
import Khora.Filter.Cypher
import Khora.Filter.TextOrder
import Khora.Filter.Postgres
import Khora.Filter.Hash
import Khora.Filter.HashStable
import Khora.Filter.Surreal
import Khora.Filter.Gate
import Khora.Storage.DocumentScan
import Khora.Storage.ConcurrentScan
import Khora.Storage.SqliteDocuments
import Khora.Engine.RecallCache
import Khora.Engine.SliceCache
import Khora.Engine.WriteEpochs
import Khora.Lib.Slots
import Khora.Lib.Window
import Khora.Pending.StagedChunks
import Khora.Engine.RankFusion
import Khora.Engine.Retriever
import Khora.Engine.TemporalEdges
import Khora.Engine.TimeWindow
import Khora.Engine.ChannelFilter
import Khora.Engine.ProvenanceFilter
import Khora.Hooks.MatchDsl
import Khora.Hooks.NamespaceScope
import Khora.Hooks.Dispatcher
import Khora.Hooks.LlmEvaluator
import Khora.Dream.ApplyPhase
import Khora.Dream.DedupeEntities
import Khora.Dream.UndoFile
import Khora.Dream.GraphMirror
import Khora.Dream.SurrealApply
import Khora.Dream.SurrealReplay
import Khora.Dream.MirrorPending
import Khora.Dream.GraphConverge
import Khora.Dream.DreamUndo
import Khora.Dream.ReUndo
import Khora.Dream.UnionFind
import Khora.Dream.Planners
import Khora.Dream.ContradictionReconcile
import Khora.Dream.DedupePlan
import Khora.Dream.ResumePlan
import Khora.Accel.Communities
import Khora.Accel.EntityResolution
import Khora.Lib.Regex
import Khora.Lib.Effects
import Khora.Accel.CharClass
import Khora.Accel.ChunkDedup
import Khora.Accel.Blocking
import Khora.Query.BatchTemporal
import Khora.Chunkers.Base
import Khora.Chunkers.Conversation
import Khora.Chunkers.Fixed
import Khora.Chunkers.Recursive
import Khora.Lib.KeyedMerge
import Khora.Storage.ReplaceGraph
import Khora.Engine.ForgetCascade
import Khora.Storage.NamespaceVersions
import Khora.Storage.DeleteNamespace
import Khora.Storage.SplitEntities
import Khora.Storage.EntityKeyGate
import Khora.Storage.EntityLiveness
import Khora.Storage.EntityVersions
import Khora.Storage.EntityIds
import Khora.Storage.Provenance
import Khora.Lib.Separated
import Khora.Lib.SortBy
import Khora.Lib.Tasks
import Khora.Integrations.SessionList
import Khora.Integrations.TenantNamespaces
import Khora.Integrations.Documents
import Khora.Integrations.KhoraStore
import Khora.Integrations.ChatStore
import Khora.Integrations.KhoraSession
import Khora.Lib.Pages
import Khora.Lib.Isolation
import Khora.Integrations.CrewaiStorage
import Khora.Integrations.CrewaiDelete
import Khora.Integrations.CrewaiRoundTrip
import Khora.Engine.UnionFusion
import Khora.Engine.UnionWindow
import Khora.Engine.LazyExpansion
import Khora.Engine.RerankWindow
import Khora.Engine.VersionScoring
import Khora.Extraction.EntityResolver
import Khora.Extraction.ResolverCache
import Khora.Engine.EndpointRemap
import Khora.Engine.RememberBatch
import Khora.Engine.BatchAccounting
import Khora.Engine.ChecksumIdentity
import Khora.Engine.BatchInputs
import Khora.Engine.ForgetSession
import Khora.Lib.Asyncio
import Khora.Engine.ChunkSemaphore
import Khora.Pending.OrphanSweep
import Khora.Accel.Mmr
import Khora.Hooks.EvaluatorBudget
import Khora.Hooks.EventSummary
import Khora.Dream.FactCompaction
import Khora.Dream.ChunkGc
import Khora.Storage.ReplacePayload
import Khora.Dream.EventClustering
import Khora.Dream.CentroidRecompute
import Khora.Pending.Submission
