import Relay.Lib.Machine
import Relay.Lib.Dict
import Relay.Lib.OffsetLog
import Relay.Lib.Timeline
import Relay.Lib.Matching
import Relay.Lib.Quorum
import Relay.Lib.Causal
import Relay.Lib.Counters
import Relay.Lib.Incremental
import Relay.Lib.BigEndian
import Relay.Lib.Bisection
import Relay.Lib.Shares
import Relay.Lib.ShiftRegister
import Relay.Lib.Rounding
import Relay.Lib.Printing
import Relay.Errors
import Relay.Records
import Relay.SegmentLog
import Relay.Retention
import Relay.ConsumerGroup
import Relay.Recovery
import Relay.RetentionFloor
import Relay.Compaction
import Relay.Idempotent
import Relay.ExactlyOnce
import Relay.ProducerIdempotence
import Relay.AbortTransaction
import Relay.LastStableOffset
import Relay.LogMatching
import Relay.AppendDelivery
import Relay.EpochFetch
import Relay.CommitIndex
import Relay.MembershipChange
import Relay.QuorumVote
import Relay.GCounter
import Relay.VectorClock
import Relay.OrSet
import Relay.LwwRegister
import Relay.HybridLogicalClock
import Relay.CausalDelivery
import Relay.AtomicBroadcast
import Relay.SnapshotIsolation
import Relay.ReadIndex
import Relay.Framing
import Relay.Varint
import Relay.LeaseLock
import Relay.CallbackOrder
import Relay.ConnectorOffset
import Relay.TxnCoordinator
import Relay.Replication
import Relay.MetadataCache
import Relay.SyncGroup
import Relay.Cooperative
import Relay.FetchSession
import Relay.ProducerSnapshot
import Relay.ProducerIdBlock
import Relay.TimeIndex
import Relay.OffsetIndex
import Relay.SegmentLookup
import Relay.Crc32c
import Relay.Rebalance
import Relay.ProducerExpiry
import Relay.Saga
import Relay.MetadataSnapshot
import Relay.Schemas
import Relay.Lib.Clusters
import Relay.SessionWindow
import Relay.StreamTime
import Relay.Suppression
import Relay.OuterJoin
import Relay.StreamJoin
import Relay.Lib.Updates
import Relay.TableJoin
import Relay.CheckpointBarrier
import Relay.StateStore
import Relay.LsmTree
import Relay.Bitcask
import Relay.Wal
import Relay.HoppingWindow
import Relay.TimerWheel
import Relay.CountingBloom
import Relay.Lib.Digraph
import Relay.Topology
import Relay.TopologicalSort
import Relay.IntervalScheduler
import Relay.Lib.BinaryHeap
import Relay.PriorityQueue
import Relay.Floats
import Relay.RunningMedian
import Relay.FenwickTree
import Relay.Quickselect
import Relay.ReservoirSample
import Relay.SegmentTree
import Relay.Lib.Forest
import Relay.DisjointSet
import Relay.Lib.LinkedChain
import Relay.SkipList
import Relay.Lib.Apportionment
import Relay.WeightedAssign
import Relay.TokenBucket
import Relay.FairQueue
import Relay.FetchAssembly
import Relay.FetchPlan
import Relay.Lib.Groups
import Relay.Purgatory
import Relay.ConsistentHash
import Relay.Lib.Largest
import Relay.RackSpread
import Relay.Placement
import Relay.HistogramMerge
import Relay.ReadRepair
import Relay.CircuitBreaker
import Relay.Lib.Separated
import Relay.RecordDigest
import Relay.Lib.Heads
import Relay.MergeIterator
import Relay.FetchCoalesce
import Relay.Lib.Peaks
import Relay.SlidingMax
import Relay.Trie
import Relay.PrefixCompression
import Relay.Lib.Pairing
import Relay.MerkleTree
import Relay.Topics
import Relay.Lib.Recency
import Relay.LruCache
import Relay.LamportClock
import Relay.TwoPhaseCommit
import Relay.TopN
import Relay.RendezvousHash
import Relay.TopologyDepth
import Relay.AssignmentCheck
import Relay.RangeAssign
import Relay.Lib.Since
import Relay.WindowStore
import Relay.Lib.Leases
import Relay.Liveness
import Relay.DeadLetter
import Relay.HintedHandoff
import Relay.Retraction
import Relay.OptimisticLock
import Relay.Lib.Tiling
import Relay.TieredStorage
import Relay.RunLength
import Relay.DeltaEncoding
import Relay.WireSchema
import Relay.RingBuffer
import Relay.CountMinSketch
import Relay.Lib.AsOf
import Relay.TemporalJoin
import Relay.OffsetTranslation
import Relay.Mirroring
