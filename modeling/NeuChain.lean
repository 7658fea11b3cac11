import NeuChain.Lib.Run
import NeuChain.Lib.Store
import NeuChain.Lib.Serial
import NeuChain.Lib.MinRegister
import NeuChain.Server.ReserveTable
import NeuChain.Server.Database
import NeuChain.Server.Executor
import NeuChain.Server.Serializable
import NeuChain.Lib.Threads
import NeuChain.Server.EpochRun
import NeuChain.Server.ReadPhase
import NeuChain.Server.CommitPhase
import NeuChain.Server.ConcurrentEpoch
import NeuChain.Lib.Varint
import NeuChain.Codec
import NeuChain.MerkleTree
import NeuChain.Server.BlockGenerator
import NeuChain.Server.Determinism
import NeuChain.Lib.Interleave
import NeuChain.Lib.Tally
import NeuChain.Server.ConsensusControlBlock
import NeuChain.Server.ViewChange
import NeuChain.Lib.Barrier
import NeuChain.Server.EpochBuffer
import NeuChain.Server.EpochSync
import NeuChain.Server.EpochDelivery
import NeuChain.Server.EpochLoss
import NeuChain.Server.ClientProxy
import NeuChain.Server.ProxyReplay
import NeuChain.Server.ProxyServer
import NeuChain.Server.Invalidation
import NeuChain.Lib.Rank
import NeuChain.Server.Aggregation
import NeuChain.Server.AggregationEpoch
import NeuChain.Server.Coordinator
import NeuChain.Lib.Log
import NeuChain.Server.PhaseSeparation
import NeuChain.EpochServer.EVConsensusManager
import NeuChain.EpochServer.EpochCounter
import NeuChain.EpochServer.Snapshot
import NeuChain.Server.BlockChain
import NeuChain.Server.EpochApproval
import NeuChain.Server.ChainRestart
import NeuChain.Server.TransactionManager
import NeuChain.Server.EpochBatches
import NeuChain.Server.OneBlock
import NeuChain.Server.Pipeline
import NeuChain.Server.SteadyStream
import NeuChain.Lib.Decimal
import NeuChain.Server.ORM
import NeuChain.Server.SmallBank
import NeuChain.Server.MoneyConservation
import NeuChain.Server.TransactionIds
import NeuChain.Lib.Rounds
import NeuChain.Server.AggregationExchange
import NeuChain.Server.ExchangeInStep
import NeuChain.Server.TimeoutVotes
import NeuChain.Lib.HashMap
import NeuChain.Server.StorageBackends
import NeuChain.Server.MvccReserveTable
import NeuChain.Lib.Program
import NeuChain.Server.ReadSets
import NeuChain.Server.CommitBuffer
import NeuChain.Lib.Wire
import NeuChain.Server.BlockAudit
import NeuChain.PayloadFormat
import NeuChain.Server.PayloadSignature
import NeuChain.Server.BlockFormat
import NeuChain.Server.BlockQuery
import NeuChain.Server.MalformedInput
import NeuChain.CodecAcceptance
import NeuChain.CodecObject
import NeuChain.Server.SignedMessage
import NeuChain.Server.BalanceBounds
import NeuChain.Server.CrashConsistency
import NeuChain.Server.EarlyReturn
import NeuChain.Server.ReceiverTasks
import NeuChain.Server.CommController
import NeuChain.Server.WorkloadPhase
import NeuChain.Server.TransactionRecycler
import NeuChain.Server.BlockStores
import NeuChain.Server.InvalidRecords
import NeuChain.Server.WriteSets
import NeuChain.Server.CyclicBarrier
import NeuChain.Server.Reservations
import NeuChain.Server.Chaincodes
import NeuChain.Server.ReadOnlyQueries
import NeuChain.Lib.PairTree
import NeuChain.MerkleRoot
import NeuChain.Common.LightweightSemaphore
import NeuChain.Common.MpmcQueue
import NeuChain.Server.BlockBinding
