import WalKv.Cluster.Acknowledgement
import WalKv.Cluster.Availability
import WalKv.Cluster.Compaction
import WalKv.Cluster.Hints
import WalKv.Cluster.Lease
import WalKv.Cluster.Reads
import WalKv.Cluster.Retention
import WalKv.Cluster.Safety
import WalKv.Cluster.Segmented
import WalKv.Cluster.Sessions
import WalKv.Cluster.Updates
import WalKv.Driver.Applying
import WalKv.Driver.Checkpoint
import WalKv.Driver.Handout
import WalKv.Driver.Refinement
import WalKv.Driver.Snapshotting
import WalKv.Driver.Waiting
import WalKv.Raft.Bookkeeping
import WalKv.Raft.Campaign
import WalKv.Raft.CommitRule
import WalKv.Raft.FailedCompaction
import WalKv.Raft.FailedPersist
import WalKv.Raft.FailedReplication
import WalKv.Raft.Gap
import WalKv.Raft.HardDisk
import WalKv.Raft.Redelivery
import WalKv.Raft.Restart
import WalKv.Raft.Splicing
import WalKv.Raft.Timer
import WalKv.Raft.Vote
import WalKv.Raft.Wrapping
import WalKv.Store.Replay
import WalKv.Store.SnapshotLayout
import WalKv.Wal.Bursts
import WalKv.Wal.Durability
import WalKv.Wal.Exactness
import WalKv.Wal.FailedAppend
import WalKv.Wal.Interruption
import WalKv.Wal.Readback
import WalKv.Wal.Representation
import WalKv.Wal.Scanning
import WalKv.Wal.Torn
import WalKv.Wal.Unflushed
