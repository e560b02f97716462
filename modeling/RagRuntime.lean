import RagRuntime.Core.Types
import RagRuntime.Base.Machine
import RagRuntime.Base.Versioned
import RagRuntime.Base.Codec
import RagRuntime.Base.MapCodec
import RagRuntime.Store.Format
import RagRuntime.Store.Container
import RagRuntime.Store.ContainerRoundTrip
import RagRuntime.Store.Frame
import RagRuntime.Store.Wal
import RagRuntime.Store.WalReplay
import RagRuntime.Store.WalRun
import RagRuntime.Core.Document
import RagRuntime.Core.Json
import RagRuntime.Store.Rows
import RagRuntime.Text.Chunker
import RagRuntime.Text.ChunkRun
import RagRuntime.Text.Scalars
import RagRuntime.Text.Layout
import RagRuntime.Text.HardLimit
import RagRuntime.Text.SourceText
import RagRuntime.Text.Coverage
import RagRuntime.Text.HeadingChain
import RagRuntime.Text.Utf8Policy
import RagRuntime.Text.Tokenizer
import RagRuntime.Lexical.Bm25Codec
import RagRuntime.Lexical.Bm25Growth
import RagRuntime.Index.Corpus
import RagRuntime.Index.CorpusReplay
import RagRuntime.Base.Replace
import RagRuntime.Index.CorpusCheckpoint
import RagRuntime.Index.SaveRun
import RagRuntime.Index.CheckpointRun
import RagRuntime.Index.IndexedCorpus
import RagRuntime.Index.CorpusFile
import RagRuntime.Backend.Types
import RagRuntime.Base.TopK
import RagRuntime.Dense.ExactIndex
import RagRuntime.Dense.Sidecar
import RagRuntime.Dense.TieredIndex
import RagRuntime.Backend.Generation
import RagRuntime.Backend.EmbeddedBackend
import RagRuntime.Preparation.DocumentPreparer
import RagRuntime.Preparation.Activation
import RagRuntime.Backend.Candidates
import RagRuntime.Backend.DenseView
import RagRuntime.Backend.DenseRun
import RagRuntime.Backend.Sidecars
import RagRuntime.Backend.CheckpointFile
import RagRuntime.Backend.CheckpointSections
import RagRuntime.Backend.LegacyReader
import RagRuntime.Backend.CatalogView
import RagRuntime.Ingestion.Job
import RagRuntime.Ingestion.JobStore
import RagRuntime.Ingestion.JobRecord
import RagRuntime.Ingestion.JobLog
import RagRuntime.Ingestion.JobLogRun
import RagRuntime.Ingestion.JobCodec
import RagRuntime.Ingestion.Quiescence
import RagRuntime.Ingestion.EmbeddedRuntime
import RagRuntime.Ingestion.RecoveryCases
import RagRuntime.Ingestion.Retention
import RagRuntime.Ingestion.JobLogPrefix
import RagRuntime.Ingestion.StoredFrames
import RagRuntime.Ingestion.FailedPersist
import RagRuntime.Ingestion.ReadOnlyJobs
import RagRuntime.Ingestion.Resume
import RagRuntime.Ingestion.Chronicle
import RagRuntime.Ingestion.PendingWork
import RagRuntime.Ingestion.Replaying
import RagRuntime.Ingestion.Standstill
import RagRuntime.Migration.Contract
import RagRuntime.Migration.EmbeddedEndpoint
import RagRuntime.Migration.Resumption
import RagRuntime.Base.Stamped
import RagRuntime.Index.Publication
import RagRuntime.Backend.Compaction
import RagRuntime.Index.Tombstones
import RagRuntime.Migration.Audit
import RagRuntime.Migration.Copying
import RagRuntime.Ingestion.Undisturbed
import RagRuntime.Ingestion.Catalogs
import RagRuntime.Migration.LeftoverLog
import RagRuntime.Base.Single
import RagRuntime.Base.Forgetful
import RagRuntime.Migration.SourceLog
import RagRuntime.Base.Utf8
import RagRuntime.Ingestion.Threads
import RagRuntime.Ingestion.FailureRecord
import RagRuntime.Ingestion.Submissions
import RagRuntime.Ingestion.Ledger
import RagRuntime.Ingestion.Workers
import RagRuntime.Index.BlockedScan
import RagRuntime.Lexical.OkapiIdf
import RagRuntime.Index.HnswRun
import RagRuntime.Base.Overfetch
import RagRuntime.Index.SearchedCorpus
import RagRuntime.Index.LexicalSearch
import RagRuntime.Index.HnswReach
import RagRuntime.Index.GraphedCorpus
import RagRuntime.Index.DenseSearch
import RagRuntime.Index.UpsertFailure
import RagRuntime.Lexical.Bm25Upkeep
import RagRuntime.Lexical.RankedTies
import RagRuntime.Lexical.TermCoverage
import RagRuntime.Lexical.Bm25Reopened
import RagRuntime.Store.LayoutSafety
import RagRuntime.Store.ContainerFile
import RagRuntime.Retrieval.FreedSlots
import RagRuntime.Dense.SidecarRoundTrip
import RagRuntime.Dense.NativeHnsw
import RagRuntime.Dense.NativeSidecar
import RagRuntime.Backend.Reopened
import RagRuntime.Backend.TierLayout
import RagRuntime.Mobile.Upserts
import RagRuntime.Core.ChunkIdentity
import RagRuntime.Text.ChunkingFingerprint
import RagRuntime.Dense.Sq8
import RagRuntime.Text.PorterReads
import RagRuntime.Mobile.FreshRevision
import RagRuntime.Fusion.Fuse
import RagRuntime.Retrieval.Diversity
import RagRuntime.Backend.LexicalView
import RagRuntime.Retrieval.Answers
import RagRuntime.Index.LinkedRun
import RagRuntime.Index.HnswCodec
import RagRuntime.Backend.Restarts
import RagRuntime.Postgres.ConnectionPool
