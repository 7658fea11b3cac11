/-
  The two receiver loops of a client proxy (`client_proxy.cpp`).

  `receiveFromLocalServer` takes the batches of the local users and their epoch server responses, in
  turn: it finishes the epochs before, pushes the transactions to the local buffer and sends them to the other
  servers. `receiveFromOtherServer` takes these messages on another server and does the same with
  the remote buffer, after having checked the batch.

  Hash, signatures and protobuf are parameters (`ProxyEnv`). `rsaDecrypt` verifies a signature.
  `SHA256Helper` hashes what has been appended. A transaction id is the first eight bytes of a
  digest, read as on a little-endian machine.

  The two pool workers of `receiveFromOtherServer` write to different entries of the
  list, so it does not matter how they interleave; here the first runs before the second.

  Left out: `finishSignal`, measuring times, log output.
-/
import Mathlib.Data.Finset.Card
import Mathlib.Data.List.TakeWhile
import NeuChain.Codec
import NeuChain.Server.Comm

namespace NeuChain.Server

open NeuChain

/-- What the proxies get from outside: crypto, protobuf and the address of this server. -/
structure ProxyEnv where
  sha : SHA256
  msg : Messages
  setToString : TransactionsWithProof → Bytes
  setFromString : Bytes → Option TransactionsWithProof
  /-- The response after `ParseFromString`, whose result is not looked at. -/
  responseFromString : Bytes → EpochResponse
  /-- `getUserSigner(ip)->rsaDecrypt(message, signature)`. -/
  userVerify : Bytes → Bytes → Bytes → Bool
  /-- `epochServerSignHelper->rsaDecrypt(message, signature)`. -/
  epochServerVerify : Bytes → Bytes → Bool
  localIp : Bytes

/-- What is done to an `EpochTransactionBuffer`. -/
inductive BufferOp where
  | push (transaction : Transaction)
  | asyncEmptyBuffer (epoch : Epoch)
deriving DecidableEq, Repr

/-- The bytes of a number, the lowest first. -/
def littleEndian : Bytes → Nat
  | [] => 0
  | b :: bs => b.toNat + 256 * littleEndian bs

/-- `std::to_string`. -/
def decimal (n : Nat) : Bytes := (Nat.repr n).toList.map fun c => UInt8.ofNat c.toNat

/-- The id both receivers give to a transaction of the batch with this signature. -/
def ProxyEnv.transactionID (env : ProxyEnv) (signature : Bytes) (t : Transaction) : Tid :=
  littleEndian ((env.sha.hash (signature ++ t.transactionPayload.digest)).take 8)

/-! ## The local receiver -/

inductive LocalEvent where
  /-- `localServer->sendReply`: the message goes to the other servers, serialized. -/
  | sendReply (message : TransactionsWithProof)
  /-- `ccb->sendEpochFinishSignal`: the message goes through raft. -/
  | sendEpochFinishSignal (message : TransactionsWithProof)
  | buffer (op : BufferOp)
deriving DecidableEq, Repr

/-- The variables of the loop: the epoch, and the signatures of its batches so far. -/
structure LocalState where
  epoch : Epoch
  proofSet : List Bytes := []
deriving DecidableEq, Repr

/-- The inner loop, `response.epoch() - epoch` turns of it. -/
def finishEpochs (env : ProxyEnv) (st : LocalState) : Nat → List LocalEvent × LocalState
  | 0 => ([], st)
  | n + 1 =>
      let proofSet : TransactionsWithProof :=
        { epoch := st.epoch, type := .con, ip := env.localIp, data := st.proofSet }
      let (events, st') := finishEpochs env { epoch := st.epoch + 1 } n
      (.sendReply proofSet :: .sendEpochFinishSignal proofSet ::
        .buffer (.asyncEmptyBuffer st.epoch) :: events, st')

/-- The loop over the transactions of a batch: what is pushed, and the data to send unless a `CHECK`
    fails. A transaction is serialized before it gets its id. -/
def pushTransactions (env : ProxyEnv) (epoch : Epoch) (signature : Bytes) :
    List Transaction → List BufferOp × Option (List Bytes)
  | [] => ([], some [])
  | t :: ts =>
      if epoch = t.epoch then
        let (ops, data) := pushTransactions env epoch signature ts
        (.push (t.setTransactionID (env.transactionID signature t)) :: ops,
          data.map (t.serializeToString env.sha env.msg :: ·))
      else ([], none)

/-- One turn of the loop; the state is `none` after a failed `CHECK`. -/
def receiveBatch (env : ProxyEnv) (st : LocalState) (responseRaw : Bytes)
    (transactionList : List Transaction) : List LocalEvent × Option LocalState :=
  let response := env.responseFromString responseRaw
  let (events, st) := finishEpochs env st (response.epoch - st.epoch)
  let st := { st with proofSet := st.proofSet ++ [response.signature] }
  if st.epoch = response.epoch then
    match pushTransactions env st.epoch response.signature transactionList with
    | (ops, none) => (events ++ ops.map .buffer, none)
    | (ops, some data) =>
        (events ++ ops.map .buffer ++
          [.sendReply { epoch := st.epoch, type := .tx, proof := responseRaw, data := data }],
          some st)
  else (events, none)

def receiveFromLocalServer (env : ProxyEnv) (st : LocalState) :
    List (Bytes × List Transaction) → List LocalEvent × Option LocalState
  | [] => ([], some st)
  | (responseRaw, transactionList) :: batches =>
      match receiveBatch env st responseRaw transactionList with
      | (events, none) => (events, none)
      | (events, some st') =>
          let (rest, final) := receiveFromLocalServer env st' batches
          (events ++ rest, final)

/-- What the local receiver sends to the other servers. -/
def replies (events : List LocalEvent) : List TransactionsWithProof :=
  events.filterMap fun
    | .sendReply m => some m
    | _ => none

/-- What it does to the local buffer. -/
def bufferOps (events : List LocalEvent) : List BufferOp :=
  events.filterMap fun
    | .buffer op => some op
    | _ => none

theorem replies_append (l l' : List LocalEvent) : replies (l ++ l') = replies l ++ replies l' :=
  List.filterMap_append

theorem bufferOps_append (l l' : List LocalEvent) :
    bufferOps (l ++ l') = bufferOps l ++ bufferOps l' := List.filterMap_append

theorem replies_map_buffer (ops : List BufferOp) : replies (ops.map .buffer) = [] := by
  induction ops with
  | nil => rfl
  | cons op ops ih => exact ih

theorem bufferOps_map_buffer (ops : List BufferOp) : bufferOps (ops.map .buffer) = ops := by
  induction ops with
  | nil => rfl
  | cons op ops ih =>
      show op :: bufferOps (ops.map .buffer) = op :: ops
      rw [ih]

theorem replies_sendReply (m : TransactionsWithProof) : replies [.sendReply m] = [m] := rfl

theorem bufferOps_sendReply (m : TransactionsWithProof) : bufferOps [.sendReply m] = [] := rfl

/-! ## The remote receiver -/

structure RemoteState where
  epoch : Epoch
  currentEpochProofSet : Finset Bytes := ∅
deriving DecidableEq

/-- How the receiver goes on: it receives, it has left the loop by an exception
    (`InvalidClientProxyException` or `MaliciousClientProxyException`), or a `CHECK` has failed. -/
inductive RemoteStatus where
  | receiving (st : RemoteState)
  | invalidClientProxy (epoch : Epoch)
  | maliciousClientProxy (epoch : Epoch)
  | checkFailed
deriving DecidableEq

/-- `Utils::makeTransaction(raw)`; `none` if its `CHECK` fails. -/
def makeTransaction (env : ProxyEnv) (raw : Bytes) : Option Transaction :=
  match deserializeFromString env.msg raw with
  | .ok t => some t
  | .error _ => none

/-- The user's signature of a transaction. -/
def verifyPayload (env : ProxyEnv) (ip : Bytes) (t : Transaction) : Bool :=
  env.userVerify ip (env.msg.payloadToString { t.transactionPayload with digest := [] })
    t.transactionPayload.digest

def workerSize : Nat := 2

/-- A pool worker goes through its indices and stops at the first wrong signature. -/
def poolWorker (env : ProxyEnv) (ip : Bytes) (data : List Bytes) :
    List Nat → List (Option Transaction) → Option (Bool × List (Option Transaction))
  | [], transactionList => some (true, transactionList)
  | i :: indices, transactionList =>
      (data[i]?.bind (makeTransaction env)).bind fun t =>
        if verifyPayload env ip t then
          poolWorker env ip data indices (transactionList.set i (some t))
        else some (false, transactionList)

/-- The indices `workerId, workerId + workerSize, ...` below `n`. -/
def workerIndices (workerId n : Nat) : List Nat :=
  (List.range n).filter fun i => i % workerSize = workerId

def deserializeBatch (env : ProxyEnv) (ip : Bytes) (data : List Bytes) :
    Option (Bool × List (Option Transaction)) :=
  (poolWorker env ip data (workerIndices 0 data.length)
    (List.replicate data.length none)).bind fun (valid, transactionList) =>
      (poolWorker env ip data (workerIndices 1 data.length) transactionList).map
        fun (valid', transactionList) => (valid && valid', transactionList)

def verifyBatchHash (env : ProxyEnv) (transactionList : List Transaction)
    (response : EpochResponse) : Bool :=
  if transactionList.length ≠ response.request.requestBatchSize then false
  else
    let digest := env.sha.hash (transactionList.flatMap fun t => t.transactionPayload.digest)
    if response.request.batchHash ≠ digest then false
    else
      let message := decimal response.epoch ++ response.request.batchHash ++ decimal response.nonce
      env.epochServerVerify message response.signature

/-- The loop that pushes the transactions of a verified batch. -/
def pushRemote (env : ProxyEnv) (epoch : Epoch) (signature : Bytes) :
    List Transaction → List BufferOp × Bool
  | [] => ([], true)
  | t :: ts =>
      if t.epoch = epoch then
        let (ops, ok) := pushRemote env epoch signature ts
        (.push (t.setTransactionID (env.transactionID signature t)) :: ops, ok)
      else ([], false)

/-- A message of type CON ends the epoch. -/
def receiveProofSet (st : RemoteState) (proofSet : TransactionsWithProof) :
    List BufferOp × RemoteStatus :=
  if st.epoch = proofSet.epoch ∧ (∀ proof ∈ proofSet.data, proof ∈ st.currentEpochProofSet) ∧
      proofSet.data.length = st.currentEpochProofSet.card then
    ([.asyncEmptyBuffer st.epoch], .receiving { epoch := st.epoch + 1 })
  else ([], .checkFailed)

/-- Any other message is a batch. -/
def receiveTransactionSet (env : ProxyEnv) (ip : Bytes) (st : RemoteState)
    (transactionSet : TransactionsWithProof) : List BufferOp × RemoteStatus :=
  let response := env.responseFromString transactionSet.proof
  if st.epoch ≠ response.epoch then ([], .maliciousClientProxy st.epoch)
  else
    let st := { st with currentEpochProofSet := insert response.signature st.currentEpochProofSet }
    match deserializeBatch env ip transactionSet.data with
    | none => ([], .checkFailed)
    | some (false, _) => ([], .maliciousClientProxy st.epoch)
    | some (true, list) =>
        match list.mapM id with
        | none => ([], .checkFailed)  -- a null pointer
        | some transactionList =>
            if verifyBatchHash env transactionList response then
              match pushRemote env st.epoch response.signature transactionList with
              | (ops, true) => (ops, .receiving st)
              | (ops, false) => (ops, .checkFailed)
            else ([], .maliciousClientProxy st.epoch)

def receiveMessage (env : ProxyEnv) (ip : Bytes) (st : RemoteState) (messageRaw : Bytes) :
    List BufferOp × RemoteStatus :=
  match env.setFromString messageRaw with
  | none => ([], .checkFailed)
  | some transactionSet =>
      if transactionSet.type = .con then receiveProofSet st transactionSet
      else receiveTransactionSet env ip st transactionSet

/-- `invalidBits[ip]` as the receiver reads it. -/
structure InvalidBit where
  first : Epoch := 0
  second : Bool := false
deriving DecidableEq, Repr

/-- What `wait_dequeue_timed` comes back with: a message, or nothing in time, whereupon the receiver
    looks at its bit. -/
inductive RemoteEvent where
  | message (messageRaw : Bytes)
  | timeout (bit : InvalidBit)

def remoteStep (env : ProxyEnv) (ip : Bytes) (st : RemoteState) :
    RemoteEvent → List BufferOp × RemoteStatus
  | .message raw => receiveMessage env ip st raw
  | .timeout bit =>
      if bit.second ∧ bit.first ≤ st.epoch then ([], .invalidClientProxy st.epoch)
      else ([], .receiving st)

/-- The loop of `receiveFromOtherServer`, until an exception or a failed `CHECK` ends it. -/
def receiveFromOtherServer (env : ProxyEnv) (ip : Bytes) (st : RemoteState) :
    List RemoteEvent → List BufferOp × RemoteStatus
  | [] => ([], .receiving st)
  | event :: events =>
      match remoteStep env ip st event with
      | (ops, .receiving st') =>
          let (rest, final) := receiveFromOtherServer env ip st' events
          (ops ++ rest, final)
      | (ops, status) => (ops, status)

/-! ## What the two loops push -/

def batchOps (env : ProxyEnv) (signature : Bytes) (txs : List Transaction) : List BufferOp :=
  txs.map fun t => .push (t.setTransactionID (env.transactionID signature t))

/-- The transactions up to the first of another epoch. -/
def ofEpoch (epoch : Epoch) (txs : List Transaction) : List Transaction :=
  txs.takeWhile fun t => t.epoch = epoch

section Loops

variable {env : ProxyEnv} {epoch : Epoch} {signature : Bytes} {txs : List Transaction}

theorem pushTransactions_eq : pushTransactions env epoch signature txs =
    (batchOps env signature (ofEpoch epoch txs),
      if ∀ t ∈ txs, t.epoch = epoch then some (txs.map fun t => t.serializeToString env.sha env.msg)
      else none) := by
  induction txs with
  | nil => rfl
  | cons t txs ih =>
      rw [pushTransactions, ih]
      by_cases ht : t.epoch = epoch
      · by_cases hall : ∀ u ∈ txs, u.epoch = epoch <;> simp [ofEpoch, batchOps, ht, hall]
      · simp [ofEpoch, batchOps, ht, Ne.symm ht]

theorem pushRemote_eq : pushRemote env epoch signature txs =
    (batchOps env signature (ofEpoch epoch txs), decide (∀ t ∈ txs, t.epoch = epoch)) := by
  induction txs with
  | nil => rfl
  | cons t txs ih =>
      rw [pushRemote, ih]
      by_cases ht : t.epoch = epoch <;> simp [ofEpoch, batchOps, ht]

theorem epoch_of_mem_ofEpoch {t : Transaction} (h : t ∈ ofEpoch epoch txs) : t.epoch = epoch := by
  simpa using List.mem_takeWhile_imp h

theorem ofEpoch_eq_self (h : ∀ t ∈ txs, t.epoch = epoch) : ofEpoch epoch txs = txs :=
  List.takeWhile_eq_self_iff.mpr fun t ht => decide_eq_true (h t ht)

theorem ops_of_pushTransactions {ops : List BufferOp} {data : Option (List Bytes)}
    (h : pushTransactions env epoch signature txs = (ops, data)) :
    ops = batchOps env signature (ofEpoch epoch txs) := by
  rw [pushTransactions_eq] at h
  exact (Prod.mk.inj h).1.symm

theorem ops_of_pushRemote {ops : List BufferOp} {ok : Bool}
    (h : pushRemote env epoch signature txs = (ops, ok)) :
    ops = batchOps env signature (ofEpoch epoch txs) := by
  rw [pushRemote_eq] at h
  exact (Prod.mk.inj h).1.symm

end Loops

end NeuChain.Server
