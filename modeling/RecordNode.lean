import RecordNode.Foundation.OrderedMap
import RecordNode.Foundation.Search
import RecordNode.Foundation.Comparator
import RecordNode.Foundation.Run
import RecordNode.Foundation.Walk
import RecordNode.Foundation.Json
import RecordNode.Foundation.JsonText
import RecordNode.Foundation.Double
import RecordNode.Foundation.Sql
import RecordNode.Foundation.Paging
import RecordNode.Foundation.Varint
import RecordNode.Encoding.Value
import RecordNode.Encoding.Base58
import RecordNode.Encoding.Environment
import RecordNode.Encoding.PlainEnvironment
import RecordNode.Encoding.MapOrder
import RecordNode.Encoding.Base58Buffers
import RecordNode.Encoding.ParseCid
import RecordNode.Entry.Types
import RecordNode.Entry.Signed
import RecordNode.Entry.CanonicalBlock
import RecordNode.AccessControl.Filter
import RecordNode.AccessControl.FilterMeaning
import RecordNode.AccessControl.CapabilityRecord
import RecordNode.Entry.Records
import RecordNode.Entry.Operations
import RecordNode.Entry.Payload
import RecordNode.Fabric.CommitBatch
import RecordNode.Fabric.ContentStore
import RecordNode.Fabric.PinTables
import RecordNode.Fabric.PinIndex
import RecordNode.Fabric.PinCalls
import RecordNode.Fabric.Coverage
import RecordNode.Fabric.Turns
import RecordNode.Fabric.Eviction
import RecordNode.Oplog.State
import RecordNode.Oplog.Causal
import RecordNode.Oplog.CurrentState
import RecordNode.AccessControl.Capability
import RecordNode.AccessControl.ChainWalk
import RecordNode.AccessControl.Locality
import RecordNode.Oplog.Accept
import RecordNode.Oplog.Dag
import RecordNode.Oplog.Merge
import RecordNode.Oplog.Indexed
import RecordNode.Oplog.Settled
import RecordNode.Oplog.Batch
import RecordNode.Oplog.Root
import RecordNode.Oplog.Exact
import RecordNode.Oplog.Authentic
import RecordNode.Oplog.Growing
import RecordNode.Oplog.LocalEntry
import RecordNode.Oplog.Delivery
import RecordNode.Oplog.About
import RecordNode.Oplog.IdentityLibrary
import RecordNode.AccessControl.Granting
import RecordNode.AccessControl.Delegation
import RecordNode.AccessControl.Inertness
import RecordNode.Oplog.Replicas
import RecordNode.Replication.Traversal
import RecordNode.Replication.Bookkeeping
import RecordNode.Replication.Observed
import RecordNode.Replication.Orchestrator
import RecordNode.Replication.Readiness
import RecordNode.Replication.Waiting
import RecordNode.Replication.Supervised
import RecordNode.Replication.Messages
import RecordNode.Replication.Snapshots
import RecordNode.Replication.Announcements
import RecordNode.Replication.Replicator
import RecordNode.Replication.Lifecycle
import RecordNode.Replication.HeadsRate
import RecordNode.Replication.Binding
import RecordNode.QueryDb.EntryBlocks
import RecordNode.QueryDb.Tables
import RecordNode.QueryDb.Projector
import RecordNode.QueryDb.Writes
import RecordNode.QueryDb.Triggers
import RecordNode.QueryDb.Aggregates
import RecordNode.QueryDb.TrackList
import RecordNode.QueryDb.TrackReference
import RecordNode.QueryDb.TrackPages
import RecordNode.Peer.WriteTarget
import RecordNode.Api.TokenStore
import RecordNode.Api.Authenticator
import RecordNode.Api.EventBridge
import RecordNode.Api.ManagedLabels
import RecordNode.Peer.Capabilities
import RecordNode.Peer.Load
import RecordNode.Peer.Node
import RecordNode.Peer.Heads
import RecordNode.Peer.Restore
import RecordNode.Peer.StateStore
import RecordNode.Peer.PinRecord
import RecordNode.Peer.Registration
import RecordNode.Peer.Unlink
import RecordNode.Peer.BlobKeeper
import RecordNode.Peer.BlobPolicy
import RecordNode.AccessControl.Chain
import RecordNode.Fabric.UnixFile
import RecordNode.Fabric.WalCheckpointer
import RecordNode.Foundation.BitPacking
import RecordNode.Foundation.Renaming
import RecordNode.Foundation.Serial
import RecordNode.Foundation.Tally
import RecordNode.Foundation.WorkerPool
import RecordNode.Ingest.Download
import RecordNode.Ingest.ToolHost
import RecordNode.Peer.Audio
import RecordNode.Peer.Census
import RecordNode.Peer.ContentFetch
import RecordNode.Peer.Ingests
import RecordNode.Peer.PeerAnnouncements
import RecordNode.Replication.Announcer
