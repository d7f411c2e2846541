import Sequencer.Lib.Run
import Sequencer.Concurrency.Scheduler
import Sequencer.Concurrency.Worker
import Sequencer.Lib.Ownership
import Sequencer.Concurrency.SchedulerInvariant
import Sequencer.Concurrency.SchedulerRuns
import Sequencer.Lib.Collections
import Sequencer.Mempool.TransactionPool
import Sequencer.Mempool.TransactionQueue
import Sequencer.Mempool.Mempool
import Sequencer.Lib.Checked
import Sequencer.Fee.Gas
import Sequencer.Fee.FeeChecks
import Sequencer.Fee.AccountTransaction
import Sequencer.Gateway.Admission
import Sequencer.Lib.OrderedTable
import Sequencer.Storage.State
import Sequencer.Storage.CompiledClass
import Sequencer.Storage.Body
import Sequencer.Storage.Events
import Sequencer.P2pSync.StateDiff
import Sequencer.BlockHash.StateDiffHash
import Sequencer.Lib.QuorumAgreement
import Sequencer.Consensus.StreamHandler
import Sequencer.Consensus.StateMachine
import Sequencer.Consensus.StateMachineVotes
import Sequencer.Lib.BinaryTrie
import Sequencer.Crypto.PatriciaHash
import Sequencer.Batcher.FeeMarket
import Sequencer.Blockifier.Bouncer
import Sequencer.Blockifier.TransactionExecutor
import Sequencer.Batcher.BlockBuilder
import Sequencer.Batcher.ProposalManager
import Sequencer.Network.PeerManager
import Sequencer.Protobuf.Converters
import Sequencer.Lib.HeapIndex
import Sequencer.Lib.SortedSearch
import Sequencer.Patricia.NodeIndex
import Sequencer.Patricia.LeafIndices
import Sequencer.Lib.BigEndian
import Sequencer.Lib.Json
import Sequencer.Patricia.NodeSerde
import Sequencer.Patricia.OriginalSkeleton
import Sequencer.Patricia.StoredTrie
import Sequencer.Patricia.PreviousLeaves
import Sequencer.Patricia.UpdatedSkeleton
import Sequencer.Patricia.CanonicalTrie
import Sequencer.Patricia.SkeletonPaths
import Sequencer.Patricia.SkeletonShape
import Sequencer.Patricia.OriginalNodes
import Sequencer.Patricia.UpdatedShape
import Sequencer.Patricia.UpdatedTree
import Sequencer.Patricia.UpdatedCreate
import Sequencer.Patricia.FetchedSkeleton
import Sequencer.Patricia.FilledHash
import Sequencer.Patricia.Commitment
