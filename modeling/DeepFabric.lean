import DeepFabric.Lib.Run
import DeepFabric.Lib.SortedMap
import DeepFabric.Lib.Buffer
import DeepFabric.Lib.Comparison
import DeepFabric.Lib.CommonPrefix
import DeepFabric.Lib.ShiftRegister
import DeepFabric.Lib.BigEndian
import DeepFabric.Lib.Occurrence
import DeepFabric.Sync.Group
import DeepFabric.Sync.AtomicCommit
import DeepFabric.Sync.EndRecords
import DeepFabric.Transaction.Table
import DeepFabric.Transaction.RowLock
import DeepFabric.Transaction.ReadLocks
import DeepFabric.Transaction.Credentials
import DeepFabric.Transaction.Viewpoint
import DeepFabric.Store.FileRange
import DeepFabric.Store.FileRefs
import DeepFabric.Store.LogEntry
import DeepFabric.Store.CommitGroup
import DeepFabric.Store.IndexScan
import DeepFabric.Store.Information
import DeepFabric.Store.Snapshot
import DeepFabric.Store.StreamIndexes
import DeepFabric.Store.RecoveryBoundary
import DeepFabric.Store.LocalityOrder
import DeepFabric.Store.KeyPaging
import DeepFabric.Store.Purge
import DeepFabric.Store.Checkpoint
import DeepFabric.Store.Reading
import DeepFabric.Store.Segmentation
import DeepFabric.Store.RowProtocol
import DeepFabric.Store.RowRoundTrip
import DeepFabric.Store.RowLayout
import DeepFabric.Store.CompositeKey
import DeepFabric.Store.CompositeOrder
import DeepFabric.Store.RangeEstimate
import DeepFabric.Wire.BinaryWireFormat
import DeepFabric.Wire.EncodeProtocol
import DeepFabric.Wire.Message
import DeepFabric.Wire.Decoding
import DeepFabric.Wire.MsgBundle
import DeepFabric.Distributed.VirtualKeySpace
import DeepFabric.Distributed.VirtualStoryLine
import DeepFabric.Distributed.Serializer
import DeepFabric.Distributed.DataLogBlock
import DeepFabric.Distributed.Publish
import DeepFabric.Distributed.QuickList
import DeepFabric.Distributed.Topology
import DeepFabric.Platform.TreeNode
import DeepFabric.Platform.TreeMap
import DeepFabric.Platform.TreeSet
import DeepFabric.Platform.TreeNavigation
import DeepFabric.Platform.TreeRange
import DeepFabric.Platform.TreeIterator
import DeepFabric.Platform.TreeMapIterator
import DeepFabric.Platform.CompositeKey
import DeepFabric.Platform.Cardinality
import DeepFabric.Platform.HashMap
import DeepFabric.Platform.HashProbe
import DeepFabric.Platform.HashCoverage
import DeepFabric.Platform.HashRefinement
import DeepFabric.Platform.ArrayList
import DeepFabric.Platform.NumberRangeSet
import DeepFabric.Platform.PriorityQueue
import DeepFabric.Platform.HashCalls
import DeepFabric.Platform.HashIterator
import DeepFabric.Wire.RequestSocket
import DeepFabric.Wire.WriterAccount
import DeepFabric.Wire.BundleState
import DeepFabric.Wire.WriterClone
import DeepFabric.Wire.Observation
import DeepFabric.Wire.ReaderCopy
import DeepFabric.Wire.RenderReader
import DeepFabric.Store.BufferedFile
import DeepFabric.Store.SectionWriter
import DeepFabric.Store.SectionRoundTrip
import DeepFabric.Store.SchemaBuilder
import DeepFabric.Store.SchemaFile
import DeepFabric.Store.SchemaMark
import DeepFabric.Lib.Put
import DeepFabric.Store.KeyFill
import DeepFabric.Store.KeyGeometry
import DeepFabric.Store.VariableColumn
import DeepFabric.Store.KeyImage
import DeepFabric.Store.KeyEquality
import DeepFabric.Store.PrimaryKey
import DeepFabric.Store.IndexRead
import DeepFabric.Lib.LinkedCells
import DeepFabric.Store.Unviewed
import DeepFabric.Lib.MovingGraph
import DeepFabric.Transaction.WaitCycle
import DeepFabric.Store.Reservation
import DeepFabric.Store.ValueStatistics
import DeepFabric.Store.SummarySet
import DeepFabric.Distributed.ChangeLog
import DeepFabric.Distributed.SegmentPull
import DeepFabric.Store.CheckpointChain
import DeepFabric.Platform.ComparatorSet
import DeepFabric.Store.Retention
import DeepFabric.Store.MemoryCompression
import DeepFabric.Store.RangeRepair
import DeepFabric.Store.FileLimit
import DeepFabric.Store.ConcurrentContainer
import DeepFabric.Store.MapFileSet
import DeepFabric.Distributed.PeerTables
import DeepFabric.Distributed.FileTransfer
import DeepFabric.Platform.LinkManager
import DeepFabric.Store.SummarySearch
import DeepFabric.Distributed.BundleHandOff
import DeepFabric.Store.CandidateOrder
import DeepFabric.Platform.HashFill
import DeepFabric.Sync.LwReadWriteLock
import DeepFabric.Sync.ReadWriteLock
