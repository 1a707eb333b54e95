import MerlionTsdb.Chunkenc.Rewrap
import MerlionTsdb.Wal.PageRoundtrip
import MerlionTsdb.Wal.Segment
import MerlionTsdb.Wal.SegmentRead
import MerlionTsdb.Wal.Directory
import MerlionTsdb.Wal.TornTail
import MerlionTsdb.Wal.Durable
import MerlionTsdb.Wal.SegmentCap
import MerlionTsdb.Lib.Str
import MerlionTsdb.Model.Labels
import MerlionTsdb.Wal.Record
import MerlionTsdb.Wal.RecordRoundtrip
import MerlionTsdb.Head.MemSeries
import MerlionTsdb.Head.SeriesStore
import MerlionTsdb.Head.Head
import MerlionTsdb.Head.Replay
import MerlionTsdb.Wal.Retry
import MerlionTsdb.Head.Recovery
import MerlionTsdb.Head.Retry
import MerlionTsdb.Encoding.Span
import MerlionTsdb.Lib.Decimal
import MerlionTsdb.Block.Chunks
import MerlionTsdb.Block.ChunkCache
import MerlionTsdb.Block.ChunkSafety
import MerlionTsdb.Block.ChunkLayout
import MerlionTsdb.Block.ChunksRoundtrip
import MerlionTsdb.Block.ChunkRetry
import MerlionTsdb.Lib.Ascending
import MerlionTsdb.Block.Index
import MerlionTsdb.Block.IndexWriter
import MerlionTsdb.Block.IndexLayout
import MerlionTsdb.Block.IndexRoundtrip
import MerlionTsdb.Block.PostingLookup
import MerlionTsdb.Model.Matcher
import MerlionTsdb.Block.Query
import MerlionTsdb.Head.Select
import MerlionTsdb.Head.Reach
import MerlionTsdb.Lib.Placed
import MerlionTsdb.Lib.Related
import MerlionTsdb.Head.SelectExact
import MerlionTsdb.Chunkenc.Size
import MerlionTsdb.Lib.StableSort
import MerlionTsdb.Block.Meta
import MerlionTsdb.Block.Create
import MerlionTsdb.Block.Select
import MerlionTsdb.Block.CreateChunks
import MerlionTsdb.Block.CreateIndex
import MerlionTsdb.Block.Stored
import MerlionTsdb.Lib.Buckets
import MerlionTsdb.Block.Compact
import MerlionTsdb.Block.EncodedRuns
import MerlionTsdb.Block.VerticalMerge
import MerlionTsdb.Block.StoredPostings
import MerlionTsdb.Block.StoredSelect
import MerlionTsdb.Block.Success
import MerlionTsdb.Block.Wrapped
import MerlionTsdb.Block.Limits
import MerlionTsdb.Block.CreateSelect
import MerlionTsdb.Lib.IndexSort
import MerlionTsdb.Querier.Querier
import MerlionTsdb.Block.Produced
import MerlionTsdb.Querier.Merge
import MerlionTsdb.Block.Times
import MerlionTsdb.Head.EqualSamples
import MerlionTsdb.Block.TimesExact
import MerlionTsdb.Encoding.Prefixed
import MerlionTsdb.Wal.RecordSafety
import MerlionTsdb.Head.StoreRun
import MerlionTsdb.Head.SeriesRun
import MerlionTsdb.Encoding.BitReads
import MerlionTsdb.Chunkenc.Windows
import MerlionTsdb.Lib.SignedRange
import MerlionTsdb.Chunkenc.SignedOps
import MerlionTsdb.Wal.RecordOps
import MerlionTsdb.Head.AppendOps
import MerlionTsdb.Block.SeriesOps
import MerlionTsdb.Block.SignedRun
import MerlionTsdb.Block.SectionSafety
import MerlionTsdb.Block.SymbolSafety
import MerlionTsdb.Block.PostingSafety
import MerlionTsdb.Block.IndexSafety
import MerlionTsdb.Block.HeadSelect
import MerlionTsdb.Block.CompactSeries
import MerlionTsdb.Encoding.BitRuns
import MerlionTsdb.Encoding.VarintExact
import MerlionTsdb.Lib.ReflectedCrc
import MerlionTsdb.Encoding.Crc32cBits
import MerlionTsdb.Block.Checksum
import MerlionTsdb.Wal.FramedSize
import MerlionTsdb.Lib.LowerBound
import MerlionTsdb.Model.LabelSets
import MerlionTsdb.Lib.Positional
import MerlionTsdb.Block.Ulid
import MerlionTsdb.Lib.LastWrite
import MerlionTsdb.Block.Content
import MerlionTsdb.Block.History
import MerlionTsdb.Block.SelectSamples
import MerlionTsdb.Block.HistorySelect
import MerlionTsdb.Block.Regroup
import MerlionTsdb.Querier.Samples
import MerlionTsdb.Querier.Complete
import MerlionTsdb.Lib.Journal
import MerlionTsdb.Wal.Crash
import MerlionTsdb.Wal.OnDisk
import MerlionTsdb.Head.Crash
import MerlionTsdb.Block.PairQuery
import MerlionTsdb.Encoding.Damage
import MerlionTsdb.Wal.Damage
import MerlionTsdb.Wal.Lifetime
import MerlionTsdb.Head.Sessions
import MerlionTsdb.Lib.Refusal
import MerlionTsdb.Block.ChunkDamage
import MerlionTsdb.Block.IndexDamage
import MerlionTsdb.Block.WornQuery
import MerlionTsdb.Block.Layout
import MerlionTsdb.Block.Damage
import MerlionTsdb.Querier.Damage
import MerlionTsdb.System.Lifetime
import MerlionTsdb.Block.Durable
