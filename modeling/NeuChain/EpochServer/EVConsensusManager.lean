/-
  The epoch servers: `EVConsensusManager` over `ConsensusManager` and `raft::Chain`.

  Each server has a thread for its users, one for the messages of raft, and a pool that submits
  proposals. Raft is a log of `PushRequest`s common to all servers, of which each has applied some;
  a proposal that has been taken from the queue may be submitted again and again. A user request
  is two steps, since the epoch is loaded before the rest is done: other threads run in between.

  An `IncreaseEpochRequest` is its `expect_epoch`. Whether the timer has run out is part of the
  action. `rsaEncrypt` is a parameter.

  What has been delivered to a server and what it has signed is kept in `delivered` and
  `responses`; the source only writes these to its log.
-/
import NeuChain.Lib.Run
import NeuChain.Server.ClientProxy
import Mathlib.Logic.Function.Basic

namespace NeuChain.EpochServer

open NeuChain Lib Server

/-- The `expect_epoch`s of a batch. -/
abbrev PushRequest := List Nat

/-- The variables of `receiver_from_user`. -/
structure UserReceiver where
  epochSizeMap : Nat → Option Nat := fun _ => none
  totalSize : Nat := 0
  sentIncreaseMessage : Bool := false
  /-- The request at hand and the epoch that was loaded for it. -/
  current : Option (EpochRequest × Nat) := none

structure EVConsensusManager where
  currentEpoch : Nat := 1
  epochApproveMap : Nat → Nat := fun _ => 0
  user : UserReceiver := {}
  requestQueue : List Nat := []
  /-- What the workers of `clientsPool` submit. -/
  flying : List PushRequest := []
  consensusRequestQueue : List Nat := []

namespace EVConsensusManager

/-- One turn of `receiver_from_raft`, with the message it takes. -/
def receiverFromRaft (m : EVConsensusManager) : Option (EVConsensusManager × Nat) :=
  match m.consensusRequestQueue with
  | [] => none
  | expectEpoch :: queue =>
      some ({ m with
        consensusRequestQueue := queue
        epochApproveMap :=
          Function.update m.epochApproveMap expectEpoch (m.epochApproveMap expectEpoch + 1)
        -- the test of the number of approvals is commented out
        currentEpoch := if expectEpoch > m.currentEpoch then expectEpoch else m.currentEpoch },
        expectEpoch)

/-- `receiver_from_user` up to the load of `current_epoch`. -/
def getRequest (m : EVConsensusManager) (request : EpochRequest) : Option EVConsensusManager :=
  if m.user.current.isNone then
    some { m with user := { m.user with current := some (request, m.currentEpoch) } }
  else none

/-- The rest of the turn: a proposal if the time is over and none has been made in this epoch, and
    the signed response. -/
def receiverFromUser (sign : Bytes → Bytes) (m : EVConsensusManager) (timeout : Bool) :
    Option (EVConsensusManager × EpochResponse) :=
  m.user.current.map fun (request, epochNum) =>
    let first := (m.user.epochSizeMap epochNum).isNone
    -- the log line looks up the epoch before, which creates an entry
    let epochSizeMap :=
      if first ∧ epochNum ≠ 1 then
        Function.update m.user.epochSizeMap (epochNum - 1)
          (some ((m.user.epochSizeMap (epochNum - 1)).getD 0))
      else m.user.epochSizeMap
    let sentIncreaseMessage := !first && m.user.sentIncreaseMessage
    let propose := timeout && !sentIncreaseMessage
    let totalSize := m.user.totalSize + request.requestBatchSize
    ({ m with
      requestQueue := if propose then m.requestQueue ++ [epochNum + 1] else m.requestQueue
      user :=
        { epochSizeMap := Function.update epochSizeMap epochNum
            (some ((epochSizeMap epochNum).getD 0 + request.requestBatchSize))
          totalSize := totalSize
          sentIncreaseMessage := sentIncreaseMessage || propose } },
      { epoch := epochNum
        request := request
        nonce := totalSize
        signature := sign (decimal epochNum ++ request.batchHash ++ decimal totalSize) })

/-- `send_to_raft` takes `count` messages and gives them to the pool. -/
def sendToRaft (batchSize : Nat) (m : EVConsensusManager) (count : Nat) : Option EVConsensusManager :=
  if 0 < count ∧ count ≤ batchSize ∧ count ≤ m.requestQueue.length then
    some { m with
      requestQueue := m.requestQueue.drop count
      flying := m.flying ++ [m.requestQueue.take count] }
  else none

/-- `Chain::on_apply` of one entry, with the handler of `send_to_raft`. -/
def onApply (m : EVConsensusManager) (entry : PushRequest) : EVConsensusManager :=
  { m with consensusRequestQueue := m.consensusRequestQueue ++ entry }

end EVConsensusManager

structure EpochCluster where
  log : List PushRequest := []
  servers : Nat → EVConsensusManager := fun _ => {}
  applied : Nat → Nat := fun _ => 0
  delivered : Nat → List Nat := fun _ => []
  responses : Nat → List EpochResponse := fun _ => []

inductive EpochAction where
  | getRequest (server : Nat) (request : EpochRequest)
  | receiverFromUser (server : Nat) (timeout : Bool)
  | sendToRaft (server count : Nat)
  /-- The `j`-th proposal of the pool gets into the log, perhaps once more. -/
  | submit (server j : Nat)
  | onApply (server : Nat)
  | receiverFromRaft (server : Nat)

namespace EpochCluster

def setServer (c : EpochCluster) (i : Nat) (m : EVConsensusManager) : EpochCluster :=
  { c with servers := Function.update c.servers i m }

def respond (c : EpochCluster) (i : Nat) (r : EpochResponse) : EpochCluster :=
  { c with responses := Function.update c.responses i (c.responses i ++ [r]) }

def deliver (c : EpochCluster) (i expectEpoch : Nat) : EpochCluster :=
  { c with delivered := Function.update c.delivered i (c.delivered i ++ [expectEpoch]) }

/-- One step of any number of servers. -/
def step (sign : Bytes → Bytes) (batchSize : Nat) (c : EpochCluster) :
    EpochAction → Option EpochCluster
  | .getRequest i request => ((c.servers i).getRequest request).map (c.setServer i)
  | .receiverFromUser i timeout =>
      ((c.servers i).receiverFromUser sign timeout).map fun (m, r) => (c.setServer i m).respond i r
  | .sendToRaft i count => ((c.servers i).sendToRaft batchSize count).map (c.setServer i)
  | .submit i j =>
      ((c.servers i).flying[j]?).map fun request => { c with log := c.log ++ [request] }
  | .onApply i =>
      c.log[c.applied i]?.map fun entry =>
        { c.setServer i ((c.servers i).onApply entry) with
          applied := Function.update c.applied i (c.applied i + 1) }
  | .receiverFromRaft i =>
      ((c.servers i).receiverFromRaft).map fun (m, expectEpoch) =>
        (c.setServer i m).deliver i expectEpoch

end EpochCluster

end NeuChain.EpochServer
