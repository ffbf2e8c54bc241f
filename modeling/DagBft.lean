import DagBft.Config
import DagBft.Config.Partition
import DagBft.Lib.Base64
import DagBft.Crypto.Keys
import DagBft.Primary.Messages
import DagBft.Primary.Encoding
import DagBft.Primary.Validity
import DagBft.Primary.Proposer
import DagBft.Primary.Acceptance
import DagBft.Primary.Proposals
import DagBft.Worker.Processor
import DagBft.Lib.Prefixed
import DagBft.Worker.Pipeline
import DagBft.Worker.Network
import DagBft.Primary.Counts
import DagBft.Lib.AssocMap
import DagBft.Lib.Dfs
import DagBft.Lib.Pieces
import DagBft.Primary.Aggregators
import DagBft.Lib.Quorum
import DagBft.Primary.Quorum
import DagBft.Primary.Core
import DagBft.Primary.Votes
import DagBft.Primary.Frame
import DagBft.Primary.Delivery
import DagBft.Primary.Rounds
import DagBft.Primary.Assembly
import DagBft.Primary.Evidence
import DagBft.Primary.Network
import DagBft.Primary.Advance
import DagBft.Primary.Order
import DagBft.Primary.Authorship
import DagBft.Primary.Helper
import DagBft.Primary.HeaderWaiter
import DagBft.Store.Commands
import DagBft.Consensus.State
import DagBft.Consensus.Causal
import DagBft.Consensus.Invariant
import DagBft.Consensus.Commit
import DagBft.Lib.Sweep
import DagBft.Consensus.Leaders
import DagBft.Consensus.Agreement
import DagBft.Consensus.Linked
import DagBft.Consensus.TotalOrder
import DagBft.Consensus.Points
import DagBft.Consensus.Completeness
import DagBft.Consensus.Checked
import DagBft.Consensus.Content
import DagBft.Primary.Node
import DagBft.Consensus.Network
import DagBft.Node.Authorities
import DagBft.Lib.Runs
import DagBft.Lib.HashMap
import DagBft.Consensus.Rerouting
import DagBft.Consensus.Shedding
import DagBft.Consensus.Balancing
import DagBft.Lib.Ranks
import DagBft.Lib.Accumulate
import DagBft.Consensus.Robust
import DagBft.Lib.Rounding
import DagBft.Consensus.Arithmetic
import DagBft.Consensus.Overflow
import DagBft.Consensus.Partition
import DagBft.Consensus.Migrations
import DagBft.Lib.Handover
import DagBft.Lib.Loan
import DagBft.Lib.Buffers
import DagBft.Lib.LockQueues
import DagBft.Lib.Reorder
import DagBft.Worker.Transaction
import DagBft.Worker.Synchronizer
import DagBft.Worker.Payments
import DagBft.Fusion.Schedule
import DagBft.Fusion.Executor
import DagBft.Fusion.Sequence
import DagBft.Fusion.Agreement
import DagBft.Fusion.Site
import DagBft.Fusion.System
import DagBft.Fusion.Serial
import DagBft.Fusion.Queues
import DagBft.Fusion.Loads
import DagBft.Fusion.Shares
import DagBft.Fusion.Malformed
import DagBft.Fusion.Pending
import DagBft.Fusion.Drain
import DagBft.Fusion.Conservation
import DagBft.Fusion.Payments
import DagBft.Network.ReliableSender
import DagBft.Writeback.Router
import DagBft.Writeback.Executor
import DagBft.Writeback.Payments
import DagBft.Writeback.Course
import DagBft.Writeback.Site
import DagBft.Writeback.Calls
import DagBft.Writeback.Arrivals
import DagBft.Writeback.Batches
import DagBft.Writeback.System
import DagBft.Writeback.Serial
import DagBft.Writeback.Deadlock
import DagBft.Writeback.Designs
import DagBft.Replay.Shards
import DagBft.Replay.BatchGenerator
import DagBft.Simulator.Flamingo
import DagBft.Lib.Bins
import DagBft.Simulator.Hermes
import DagBft.Node.Analyze
import DagBft.Node.MigrationNotices
import DagBft.Node.MigrationListener
import DagBft.Node.BenchmarkClient
import DagBft.Node.Dispatch
import DagBft.Node.Execution
import DagBft.Replay.Sequencer
