/-
  The servers of an organisation exchange their results, epoch after epoch
  (`aggregation_broadcaster.cpp`, and `aggregation_coordinator.cpp` as far as it calls it).

  In each epoch the coordinator of a server assigns the transactions, those it executes itself
  to `broadcastTransaction` and the others to `listenTransaction`. After the read phase
  `aggregateTransaction` starts one pool task for each other server, sends its own results to
  all of them and waits for the tasks. A task takes one message from `remoteRecvBuffer` and writes
  its results to the transactions of `listenTransaction`.

  For each other server a listener thread takes the messages of its link, puts them into
  `remoteRecvBuffer` and waits at a barrier for the other listeners. The barrier is that of
  `Lib.Barrier`: it releases a generation when all listeners have arrived. Links are reliable and
  in order, and messages can be parsed.

  What the read phase makes of a transaction is a parameter. What is buffered for a transaction
  (`bufferUpdates`) and what happens after `aggregateTransaction` is in `Aggregation`. The checks
  that are compiled only into debug builds are left out, and so is a race: each task looks its epoch
  up with `listenTransaction[epoch]`, which for a server without foreign transactions inserts into
  the `std::map`, and no lock is held. Here looking up changes nothing.

  The listener beside each message, `pushed`, `popped`, `receivedFrom` and the nodes a task has
  handled are not in the source. They record what the properties speak about.
-/
import NeuChain.Lib.Rounds
import NeuChain.Lib.Run
import NeuChain.Server.Aggregation

namespace NeuChain.Server

open NeuChain Lib

/-! ## State -/

structure ExchangeConfig where
  cluster : AggregationCluster
  msg : KVRWSetFormat
  /-- The last saved epoch when the servers are started. -/
  latestSavedEpoch : Nat
  /-- What every server receives for an epoch. -/
  transactions : Nat → List Transaction
  epoch_eq : ∀ e, ∀ t ∈ transactions e, t.epoch = e
  /-- What the read phase of a server leaves of a transaction. -/
  executed : Nat → Transaction → TransactionResult × KVRWSet

namespace ExchangeConfig

variable (cfg : ExchangeConfig)

def startupEpoch : Nat := cfg.latestSavedEpoch + 1

def totalServerCount : Nat := cfg.cluster.clusterIPs.length

def remoteAggregationBlockServerCount : Nat := cfg.totalServerCount - 1

/-- For the server at place `k` of the configuration. -/
def isLocalTransaction (k : Nat) (tid : Tid) : Bool :=
  cfg.cluster.isLocalTransaction (cfg.cluster.clusterIPs.getD k []) tid

end ExchangeConfig

/-- The server to which listener `i` of server `k` listens: all but the own one, in order. -/
def peer (k i : Nat) : Nat := if i < k then i else i + 1

inductive ListenerPc where
  | getReply
  | push (aggregationExchange : AggregationExchange)
  | await
deriving DecidableEq

inductive PoolTask where
  | idle
  | pop
  | checkEpoch (listener : Nat) (aggregationExchange : AggregationExchange)
  | handle (listener : Nat) (aggregationExchange : AggregationExchange)
      (handled rest : List AggregationNode)
  | signalled (listener : Nat) (aggregationExchange : AggregationExchange)
deriving DecidableEq

def PoolTask.isSignalled : PoolTask → Bool
  | .signalled _ _ => true
  | _ => false

/-- Where a coordinator is. -/
inductive AggregatePc where
  | assign (queue : List Transaction)
  | aggregateTransaction
  | sendReply
  | waitMany
  /-- `aggregateTransaction` has returned; the rest of the epoch follows. -/
  | returned
deriving DecidableEq

/-- A server with its `AggregationBroadcaster`. The maps from ids to transactions are lists that are
    sorted by id. -/
structure Broadcaster where
  currentEpoch : Nat
  pc : AggregatePc
  broadcastEpoch : Nat := 0
  broadcastTransaction : Nat → List Transaction := fun _ => []
  listenTransaction : Nat → List Transaction := fun _ => []
  remoteRecvBuffer : List (Nat × AggregationExchange) := []
  listener : Nat → ListenerPc := fun _ => .getReply
  barrier : Barrier := { waits := 0, generation := 0, party := fun _ => .outside 0 }
  workers : Nat → PoolTask := fun _ => .idle
  aborted : Bool := false
  /-- All that has been pushed to `remoteRecvBuffer`: the listener and how many it had pushed. -/
  pushed : List (Nat × Nat) := []
  popped : Nat := 0
  /-- The servers whose messages have set a transaction in the call of `aggregateTransaction`. -/
  receivedFrom : Tid → List Nat := fun _ => []

structure ExchangeState where
  server : Nat → Broadcaster
  /-- What the first has sent and the second has not yet received. -/
  link : Nat → Nat → List AggregationExchange := fun _ _ => []

inductive ExchangeAction where
  | coordinator (server : Nat)
  | listener (server listener : Nat)
  | worker (server task : Nat)
deriving DecidableEq

/-! ## The coordinator -/

/-- `m[transaction->getTransactionID()] = transaction`. -/
def insertTransaction (t : Transaction) : List Transaction → List Transaction
  | [] => [t]
  | u :: m =>
      if t.tid < u.tid then t :: u :: m
      else if t.tid = u.tid then t :: m
      else u :: insertTransaction t m

/-- The message for the transactions of `broadcastTransaction[epoch]`. -/
def makeExchange (msg : KVRWSetFormat) (epoch : Nat) (broadcastTransaction : List Transaction) :
    AggregationExchange where
  epoch := epoch
  node := broadcastTransaction.map fun t =>
    { tid := t.tid
      result := t.transactionResult.toNat
      rwset := msg.serializeAsString t.kvRWSet }

namespace Broadcaster

def addBroadcastTransaction (b : Broadcaster) (t : Transaction) : Broadcaster :=
  { b with
    broadcastTransaction := Function.update b.broadcastTransaction t.epoch
      (insertTransaction t (b.broadcastTransaction t.epoch)) }

def addListenTransaction (b : Broadcaster) (t : Transaction) : Broadcaster :=
  { b with
    listenTransaction := Function.update b.listenTransaction t.epoch
      (insertTransaction t (b.listenTransaction t.epoch)) }

/-- What `createWorkload` does with a transaction. -/
def assign (cfg : ExchangeConfig) (k : Nat) (b : Broadcaster) (t : Transaction) : Broadcaster :=
  if cfg.isLocalTransaction k t.tid then b.addBroadcastTransaction t else b.addListenTransaction t

end Broadcaster

def ExchangeConfig.execute (cfg : ExchangeConfig) (k : Nat) (t : Transaction) : Transaction :=
  { t with
    transactionResult := (cfg.executed k t).1
    kvRWSet := (cfg.executed k t).2 }

namespace Broadcaster

def readPhase (cfg : ExchangeConfig) (k : Nat) (b : Broadcaster) : Broadcaster :=
  { b with
    broadcastTransaction := Function.update b.broadcastTransaction b.currentEpoch
      ((b.broadcastTransaction b.currentEpoch).map (cfg.execute k)) }

/-- `aggregateTransaction(currentEpoch)` up to the start of the tasks. -/
def aggregateTransaction (cfg : ExchangeConfig) (b : Broadcaster) : Broadcaster :=
  if b.broadcastEpoch = b.currentEpoch then { b with pc := .returned }
  else
    { b with
      broadcastEpoch := b.currentEpoch
      workers := fun t => if t < cfg.remoteAggregationBlockServerCount then .pop else .idle
      receivedFrom := fun _ => []
      pc := .sendReply }

/-- The coordinator takes a step, in which it may send a message. -/
def coordinatorStep (cfg : ExchangeConfig) (k : Nat) (b : Broadcaster) :
    Option (Broadcaster × Option AggregationExchange) :=
  match b.pc with
  | .assign (t :: queue) => some ({ b.assign cfg k t with pc := .assign queue }, none)
  | .assign [] => some ({ b.readPhase cfg k with pc := .aggregateTransaction }, none)
  | .aggregateTransaction => some (b.aggregateTransaction cfg, none)
  | .sendReply =>
      some ({ b with
              broadcastTransaction := Function.update b.broadcastTransaction b.currentEpoch []
              pc := .waitMany },
        some (makeExchange cfg.msg b.currentEpoch (b.broadcastTransaction b.currentEpoch)))
  | .waitMany =>
      if ∀ t < cfg.remoteAggregationBlockServerCount, (b.workers t).isSignalled = true then
        some ({ b with
                listenTransaction := Function.update b.listenTransaction b.broadcastEpoch []
                workers := fun _ => .idle
                pc := .returned }, none)
      else none
  | .returned =>
      some ({ b with
              currentEpoch := b.currentEpoch + 1
              pc := .assign (cfg.transactions (b.currentEpoch + 1)) }, none)

/-! ## Listeners and pool -/

def setListener (b : Broadcaster) (i : Nat) (pc : ListenerPc) : Broadcaster :=
  { b with listener := Function.update b.listener i pc }

/-- `localClientRecv`, with what is on the link and what is left there. -/
def listenerStep (cfg : ExchangeConfig) (b : Broadcaster) (i : Nat)
    (link : List AggregationExchange) : Option (Broadcaster × List AggregationExchange) :=
  match b.listener i, b.barrier.party i with
  | .getReply, .outside _ =>
      match link with
      | [] => none
      | x :: rest => some (b.setListener i (.push x), rest)
  | .push x, .outside r =>
      if b.remoteRecvBuffer.length < cfg.remoteAggregationBlockServerCount * 2 then
        some ({ b with
          remoteRecvBuffer := b.remoteRecvBuffer ++ [(i, x)]
          pushed := b.pushed ++ [(i, r)] }.setListener i .await, link)
      else none
  | .await, .outside r =>
      some ({ b with
        barrier := b.barrier.arrive cfg.remoteAggregationBlockServerCount i r }, link)
  | .await, .closing r =>
      some ({ b with barrier := b.barrier.release i r }.setListener i .getReply, link)
  | .await, .waiting r generation =>
      if generation < b.barrier.generation then
        some ({ b with barrier := b.barrier.leave i r }.setListener i .getReply, link)
      else none
  | _, _ => none

/-- The results of a node are written to its transaction. -/
def receiveNode (msg : KVRWSetFormat) (node : AggregationNode) (t : Transaction) : Transaction :=
  if t.tid = node.tid then
    { t with
      transactionResult := TransactionResult.ofNat node.result
      kvRWSet := (msg.parseFromString node.rwset).2 }
  else t

def setTask (b : Broadcaster) (t : Nat) (task : PoolTask) : Broadcaster :=
  { b with workers := Function.update b.workers t task }

/-- The next node of a message that has come from listener `i`. -/
def handleNode (cfg : ExchangeConfig) (k : Nat) (b : Broadcaster) (i : Nat)
    (x : AggregationExchange) (node : AggregationNode) : Broadcaster :=
  { b with
    listenTransaction := Function.update b.listenTransaction x.epoch
      ((b.listenTransaction x.epoch).map (receiveNode cfg.msg node))
    receivedFrom := Function.update b.receivedFrom node.tid
      (b.receivedFrom node.tid ++ [peer k i]) }

/-- Pool task `t` takes a step. -/
def workerStep (cfg : ExchangeConfig) (k : Nat) (b : Broadcaster) (t : Nat) : Option Broadcaster :=
  match b.workers t with
  | .pop =>
      match b.remoteRecvBuffer with
      | [] => none
      | (i, x) :: rest =>
          some ({ b with remoteRecvBuffer := rest, popped := b.popped + 1 }.setTask t
            (.checkEpoch i x))
  | .checkEpoch i x =>
      if b.broadcastEpoch = x.epoch then some (b.setTask t (.handle i x [] x.node))
      else some { b with aborted := true }
  | .handle i x _ [] => some (b.setTask t (.signalled i x))
  | .handle i x handled (node :: rest) =>
      if (b.listenTransaction x.epoch).any (·.tid = node.tid) then
        some ((b.handleNode cfg k i x node).setTask t (.handle i x (handled ++ [node]) rest))
      else some { b with aborted := true }
  | _ => none

end Broadcaster

/-! ## Steps -/

namespace ExchangeState

def initial (cfg : ExchangeConfig) : ExchangeState where
  server _ :=
    { currentEpoch := cfg.startupEpoch, pc := .assign (cfg.transactions cfg.startupEpoch) }

def setServer (s : ExchangeState) (k : Nat) (b : Broadcaster) : ExchangeState :=
  { s with server := Function.update s.server k b }

/-- `sendReply` of a server with a publishing socket. -/
def send (s : ExchangeState) (k : Nat) : Option AggregationExchange → ExchangeState
  | none => s
  | some x => { s with link := Function.update s.link k fun other => s.link k other ++ [x] }

def setLink (s : ExchangeState) (j k : Nat) (l : List AggregationExchange) : ExchangeState :=
  { s with link := Function.update s.link j (Function.update (s.link j) k l) }

def step (cfg : ExchangeConfig) (s : ExchangeState) : ExchangeAction → Option ExchangeState
  | .coordinator k =>
      if k < cfg.totalServerCount ∧ (s.server k).aborted = false then
        ((s.server k).coordinatorStep cfg k).map fun (b, sent) => (s.setServer k b).send k sent
      else none
  | .listener k i =>
      if k < cfg.totalServerCount ∧ i < cfg.remoteAggregationBlockServerCount ∧
          (s.server k).aborted = false then
        ((s.server k).listenerStep cfg i (s.link (peer k i) k)).map fun (b, rest) =>
          (s.setServer k b).setLink (peer k i) k rest
      else none
  | .worker k t =>
      if k < cfg.totalServerCount ∧ t < cfg.remoteAggregationBlockServerCount ∧
          (s.server k).aborted = false then
        ((s.server k).workerStep cfg k t).map fun b => s.setServer k b
      else none

end ExchangeState

end NeuChain.Server
