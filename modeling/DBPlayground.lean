import DBPlayground.Lib.Beside
import DBPlayground.Lib.ByteReader
import DBPlayground.Lib.Checksums
import DBPlayground.Lib.Cursor
import DBPlayground.Lib.Effects
import DBPlayground.Lib.Footprint
import DBPlayground.Lib.Framing
import DBPlayground.Lib.Lockstep
import DBPlayground.Lib.Machine
import DBPlayground.Lib.Monitor
import DBPlayground.Lib.Program
import DBPlayground.Lib.RandomFile
import DBPlayground.Lib.RelyGuarantee
import DBPlayground.Lib.Separators
import DBPlayground.Lib.Service
import DBPlayground.Lib.Session
import DBPlayground.Lib.Solo
import DBPlayground.Lib.SwapRemove
import DBPlayground.Table.CheckedColumn
import DBPlayground.Table.Column
import DBPlayground.Table.ColumnOffsets
import DBPlayground.Table.RowCodec
import DBPlayground.Table.RowScan
import DBPlayground.Table.RowTableSource
import DBPlayground.Storage.BPlusTree
import DBPlayground.Storage.BPlusTreeEngine
import DBPlayground.Storage.BufferPool
import DBPlayground.Storage.Config
import DBPlayground.Storage.DiskManager
import DBPlayground.Storage.EncodedKey
import DBPlayground.Storage.EngineRuns
import DBPlayground.Storage.EngineSession
import DBPlayground.Storage.Heap
import DBPlayground.Storage.HeapRules
import DBPlayground.Storage.InputFiles
import DBPlayground.Storage.InsertCall
import DBPlayground.Storage.KeyEncoder
import DBPlayground.Storage.KvCursor
import DBPlayground.Storage.LRUReplacer
import DBPlayground.Storage.LocalStorage
import DBPlayground.Storage.LocalStorageAtomic
import DBPlayground.Storage.MiniKV
import DBPlayground.Storage.PageProgram
import DBPlayground.Storage.PageStore
import DBPlayground.Storage.PinBalance
import DBPlayground.Storage.PinCounts
import DBPlayground.Storage.PoolCoherence
import DBPlayground.Storage.PoolInvariant
import DBPlayground.Storage.PoolPins
import DBPlayground.Storage.PoolView
import DBPlayground.Storage.RemoveCall
import DBPlayground.Storage.RemoveCalls
import DBPlayground.Storage.Session
import DBPlayground.Storage.SessionShows
import DBPlayground.Storage.SlottedPage
import DBPlayground.Storage.TreeCalls
import DBPlayground.Storage.TreeCascade
import DBPlayground.Storage.TreeInsert
import DBPlayground.Storage.TreeMerge
import DBPlayground.Storage.TreePage
import DBPlayground.Storage.TreeRebalance
import DBPlayground.Storage.TreeScan
import DBPlayground.Storage.TreeSearch
import DBPlayground.Storage.TreeSession
import DBPlayground.Storage.TreeShape
import DBPlayground.Storage.TreeSplit
import DBPlayground.Storage.TupleFailures
import DBPlayground.Storage.TupleHeap
import DBPlayground.Storage.TupleRuns
import DBPlayground.Storage.TupleStore
import DBPlayground.Storage.ValuePage
import DBPlayground.Storage.Watch
import DBPlayground.Format.Codec
import DBPlayground.Format.ColumnData
import DBPlayground.Format.Columnar
import DBPlayground.Format.FastPath
import DBPlayground.Format.FileLayout
import DBPlayground.Format.FooterBounds
import DBPlayground.Format.ReadBack
import DBPlayground.Format.ReadBounds
import DBPlayground.Format.RoundTrip
import DBPlayground.Format.ScanFiles
import DBPlayground.Format.WindowedScan
import DBPlayground.Query.CloudTableSource
import DBPlayground.Query.RowDecoding
import DBPlayground.Query.RowProgress
import DBPlayground.Query.ScanExecutor
import DBPlayground.Query.SourcesAgree
import DBPlayground.Cloud.Acks
import DBPlayground.Cloud.AppendSpec
import DBPlayground.Cloud.CalmStore
import DBPlayground.Cloud.CanonicalRows
import DBPlayground.Cloud.CanonicalWal
import DBPlayground.Cloud.ContentVersions
import DBPlayground.Cloud.Contract
import DBPlayground.Cloud.Correct
import DBPlayground.Cloud.DedupIndex
import DBPlayground.Cloud.EpochOwnership
import DBPlayground.Cloud.Growth
import DBPlayground.Cloud.ImportSpec
import DBPlayground.Cloud.IndexPass
import DBPlayground.Cloud.IndexSpec
import DBPlayground.Cloud.Invariant
import DBPlayground.Cloud.Keys
import DBPlayground.Cloud.LoadSpec
import DBPlayground.Cloud.Log
import DBPlayground.Cloud.LogOrder
import DBPlayground.Cloud.LogReads
import DBPlayground.Cloud.NextSeq
import DBPlayground.Cloud.OpaqueVersions
import DBPlayground.Cloud.PreserveLog
import DBPlayground.Cloud.PreserveState
import DBPlayground.Cloud.Progress
import DBPlayground.Cloud.PublishSpec
import DBPlayground.Cloud.ReadSpecs
import DBPlayground.Cloud.Readback
import DBPlayground.Cloud.Records
import DBPlayground.Cloud.RecordsExact
import DBPlayground.Cloud.Refusals
import DBPlayground.Cloud.Rules
import DBPlayground.Cloud.Sigv4
import DBPlayground.Cloud.SnapshotLoader
import DBPlayground.Cloud.Snapshots
import DBPlayground.Cloud.SoloIndexer
import DBPlayground.Cloud.SoloReads
import DBPlayground.Cloud.SoloWriter
import DBPlayground.Cloud.SortEntries
import DBPlayground.Cloud.StartSpec
import DBPlayground.Cloud.StateStore
import DBPlayground.Cloud.Store
import DBPlayground.Cloud.System
import DBPlayground.Cloud.TableWriter
import DBPlayground.Cloud.TailCoverage
import DBPlayground.Cloud.TextTable
import DBPlayground.Cloud.TornWals
import DBPlayground.Cloud.WalCodec
import DBPlayground.Cloud.WalDigest
import DBPlayground.Cloud.WalIndexer
import DBPlayground.Cloud.WalLimits
import DBPlayground.Cloud.WalRoundTrip
import DBPlayground.Cloud.WalSize
import DBPlayground.Cloud.Wire
import DBPlayground.Cloud.WriteSpecs
import DBPlayground.Base.ReaderWriterLatch
import DBPlayground.Io.Poller
