import BlunMq.Lib.Steps
import BlunMq.Lib.Tally
import BlunMq.Lib.Fifo
import BlunMq.Lib.Mealy
import BlunMq.Lib.Memo
import BlunMq.Lib.LastWrite
import BlunMq.Lib.Sampled
import BlunMq.Lib.Replay
import BlunMq.Lib.Reorder
import BlunMq.Lib.MapTotal
import BlunMq.Lib.Text
import BlunMq.Lib.Printer
import BlunMq.Raft.Json
import BlunMq.Raft.NodeStateMachine
import BlunMq.Raft.NodeDirectoryLaws
import BlunMq.Raft.Replication
import BlunMq.Raft.DirectoryConvergence
import BlunMq.Raft.QueueState
import BlunMq.Raft.QueueIndependence
import BlunMq.Raft.Replica
import BlunMq.Raft.SnapshotBuild
import BlunMq.Raft.SnapshotLaws
import BlunMq.Raft.StateMachine
import BlunMq.Raft.QueueReplay
import BlunMq.Raft.OffsetBounds
import BlunMq.Raft.Store
import BlunMq.Raft.Types
import BlunMq.Raft.Engine
import BlunMq.Raft.Durable
import BlunMq.Raft.PurgeSafety
import BlunMq.Raft.EntryDurability
import BlunMq.Raft.DiskEngine
import BlunMq.Raft.Group
import BlunMq.Raft.LogStore
import BlunMq.Raft.LogCalls
import BlunMq.Raft.LogRefinement
import BlunMq.Raft.Recovery
import BlunMq.Host.Publish
import BlunMq.Host.Consume
import BlunMq.Host.Delivery
import BlunMq.Host.DeliveryLaws
import BlunMq.Host.ForwardedPop
import BlunMq.Host.ClosedStreams
import BlunMq.Host.ForwardedWires
import BlunMq.Host.DeliveryOrder
import BlunMq.Raft.Network
import BlunMq.Host.RaftRpc
import BlunMq.Host.Registration
import BlunMq.Host.Peers
import BlunMq.Host.PeerBytes
import BlunMq.Host.PeersExact
import BlunMq.Host.Bootstrap
import BlunMq.Host.Broker
import BlunMq.Host.PublishLaws
import BlunMq.Host.Conservation
import BlunMq.Host.LeaderAnswers
import BlunMq.Host.ForwardHops
import BlunMq.Host.Drain
import BlunMq.Host.RaftNetwork
import BlunMq.Host.Channels
import BlunMq.Host.Status
