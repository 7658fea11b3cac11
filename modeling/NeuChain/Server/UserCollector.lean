/-
  The user collector (`user_collector.cpp`): from signed user requests to batches with an epoch.

  One thread puts requests into a queue. Another takes up to `USER_REQUEST_BATCH_SIZE` of them at
  a time, checks the signatures and starts a task. Each task asks the epoch servers until it gets
  a response that is not older than `latestEpoch`, gives the epoch to its transactions and hands
  the batch to the local receiver. At most `clientSize` tasks are under way, those which have been
  started first.

  A task sends to and gets replies from several epoch servers; the last reply is the one that is
  parsed. The two workers write to different entries of `transactionList`.

  The same request may be in the queue more than once and nobody looks for repetitions.

  Left out: `finishSignal`, waiting, measuring times, log output.
-/
import NeuChain.Lib.Run
import NeuChain.Server.ClientProxy

namespace NeuChain

def Transaction.setEpoch (t : Transaction) (epoch : Epoch) : Transaction :=
  { t with epoch := epoch }

/-- The digest of the user, which is the signature of the request. -/
def Transaction.digest (t : Transaction) : Bytes := t.transactionPayload.digest

namespace Server

open Lib

/-- `UserRequest` of `comm.proto`. -/
structure UserRequest where
  payload : Bytes := []
  digest : Bytes := []
deriving DecidableEq, Repr

structure CollectorConfig where
  /-- The address in it is that of the server of the collector. -/
  env : ProxyEnv
  /-- The request after `ParseFromString`, whose result is not looked at. -/
  requestFromString : Bytes → UserRequest
  /-- The payload after `ParseFromString` has failed, since its result is not looked at either. -/
  unparsedPayload : Bytes → TransactionPayload
  userRequestBatchSize : Nat := 300

/-- What a task has been started with. -/
structure CollectorTask where
  transactionList : List Transaction
  request : EpochRequest
deriving DecidableEq, Repr

structure UserCollector where
  requestBuffer : List Bytes := []
  tasks : List CollectorTask := []
  latestEpoch : Epoch := 1
  /-- The calls of `newTransactionHandle`, the proof first, as they are put into
      `pendingTransactions`. -/
  handed : List (Bytes × List Transaction) := []
  aborted : Bool := false
deriving DecidableEq, Repr

inductive CollectorAction where
  | collectRequest (message : Bytes)
  /-- `try_dequeue_bulk` comes back with `requestSize` requests. -/
  | processRequest (requestSize : Nat)
  /-- A task has got its replies. -/
  | getReply (task : Nat) (responseRaw : Bytes)
deriving DecidableEq, Repr

namespace UserCollector

def clientSize : Nat := 10

/-- The transaction for a request; `none` if the `CHECK` of the signature fails. -/
def makeTransaction (cfg : CollectorConfig) (rawUserRequest : Bytes) : Option Transaction :=
  let userRequest := cfg.requestFromString rawUserRequest
  if cfg.env.userVerify cfg.env.localIp userRequest.payload userRequest.digest then
    let transactionPayload := (cfg.env.msg.payloadFromString userRequest.payload).getD
      (cfg.unparsedPayload userRequest.payload)
    some { readOnlyFlag := false
           transactionPayload := { transactionPayload with digest := userRequest.digest } }
  else none

def makeRequest (cfg : CollectorConfig) (transactionList : List Transaction) : EpochRequest where
  requestBatchSize := transactionList.length
  batchHash := cfg.env.sha.hash (transactionList.flatMap Transaction.digest)

def processRequest (cfg : CollectorConfig) (c : UserCollector) (requestSize : Nat) :
    UserCollector :=
  match (c.requestBuffer.take requestSize).mapM (makeTransaction cfg) with
  | none => { c with aborted := true }
  | some transactionList =>
      { c with
        requestBuffer := c.requestBuffer.drop requestSize
        tasks := c.tasks ++ [⟨transactionList, makeRequest cfg transactionList⟩] }

/-- One turn of the loop of a task, which ends unless the request has to be sent again. -/
def getReply (cfg : CollectorConfig) (c : UserCollector) (i : Nat) (task : CollectorTask)
    (responseRaw : Bytes) : UserCollector :=
  let response := cfg.env.responseFromString responseRaw
  if response.epoch < c.latestEpoch then c
  else
    { c with
      latestEpoch := response.epoch
      tasks := c.tasks.eraseIdx i
      handed := c.handed ++
        [(responseRaw, task.transactionList.map (·.setEpoch response.epoch))] }

def step (cfg : CollectorConfig) (c : UserCollector) (a : CollectorAction) : Option UserCollector :=
  if c.aborted then none
  else
    match a with
    | .collectRequest message => some { c with requestBuffer := c.requestBuffer ++ [message] }
    | .processRequest requestSize =>
        if 0 < requestSize ∧ requestSize ≤ cfg.userRequestBatchSize ∧
            requestSize ≤ c.requestBuffer.length then
          some (c.processRequest cfg requestSize)
        else none
    | .getReply i responseRaw =>
        if i < clientSize then
          c.tasks[i]?.map fun task => c.getReply cfg i task responseRaw
        else none

/-! ## Batches -/

variable {cfg : CollectorConfig} {c c' : UserCollector} {a : CollectorAction}
  {as : List CollectorAction}

theorem digest_of_makeTransaction {raw : Bytes} {t : Transaction}
    (h : makeTransaction cfg raw = some t) : t.digest = (cfg.requestFromString raw).digest := by
  unfold makeTransaction at h
  dsimp only at h
  split at h
  · cases h
    rfl
  · cases h

theorem digests_of_mapM {raws : List Bytes} {txs : List Transaction}
    (h : raws.mapM (makeTransaction cfg) = some txs) :
    txs.map Transaction.digest = raws.map fun raw => (cfg.requestFromString raw).digest := by
  induction raws generalizing txs with
  | nil =>
      cases h
      rfl
  | cons raw raws ih =>
      rw [List.mapM_cons] at h
      obtain ⟨t, ht, h⟩ := Option.bind_eq_some_iff.mp h
      obtain ⟨ts, hts, h⟩ := Option.bind_eq_some_iff.mp h
      cases h
      rw [List.map_cons, List.map_cons, ih hts, digest_of_makeTransaction ht]

/-- No request stands twice in the batch that is taken. -/
def TakesDistinct (cfg : CollectorConfig) (c : UserCollector) : CollectorAction → Prop
  | .processRequest requestSize =>
      ((c.requestBuffer.take requestSize).map fun raw => (cfg.requestFromString raw).digest).Nodup
  | _ => True

/-- The digests of a batch are different, before and after it has been handed over. -/
structure Distinct (c : UserCollector) : Prop where
  tasks : ∀ task ∈ c.tasks, (task.transactionList.map Transaction.digest).Nodup
  handed : ∀ batch ∈ c.handed, (batch.2.map Transaction.digest).Nodup

theorem Distinct.processRequest {n : Nat} (h : Distinct c)
    (hn : TakesDistinct cfg c (.processRequest n)) : Distinct (c.processRequest cfg n) := by
  unfold UserCollector.processRequest
  split
  · exact ⟨h.tasks, h.handed⟩
  · rename_i txs htxs
    refine ⟨fun task htask => ?_, h.handed⟩
    rcases List.mem_append.mp htask with htask | htask
    · exact h.tasks task htask
    · rw [List.mem_singleton.mp htask, digests_of_mapM htxs]
      exact hn

theorem Distinct.getReply {i : Nat} {task : CollectorTask} {raw : Bytes} (h : Distinct c)
    (htask : task ∈ c.tasks) : Distinct (c.getReply cfg i task raw) := by
  unfold UserCollector.getReply
  dsimp only
  split
  · exact h
  · refine ⟨fun u hu => h.tasks u (List.mem_of_mem_eraseIdx hu), fun batch hb => ?_⟩
    rcases List.mem_append.mp hb with hb | hb
    · exact h.handed batch hb
    · rw [List.mem_singleton.mp hb, List.map_map]
      exact h.tasks task htask

theorem Distinct.step (h : Distinct c) (hs : UserCollector.step cfg c a = some c')
    (ha : TakesDistinct cfg c a) : Distinct c' := by
  unfold UserCollector.step at hs
  split at hs
  · cases hs
  · cases a with
    | collectRequest message =>
        cases hs
        exact ⟨h.tasks, h.handed⟩
    | processRequest n =>
        dsimp only at hs
        split at hs
        · cases hs
          exact h.processRequest ha
        · cases hs
    | getReply i raw =>
        dsimp only at hs
        split at hs
        · obtain ⟨task, htask, rfl⟩ := Option.map_eq_some_iff.mp hs
          exact h.getReply (List.mem_of_getElem? htask)
        · cases hs

/-- If no request stands twice in a batch that is taken, the digests in each batch that is handed
    over are different. -/
theorem distinct_of_run (h : run (UserCollector.step cfg) {} as = some c)
    (hm : Meets (UserCollector.step cfg) (TakesDistinct cfg) {} as) : Distinct c :=
  run_invariant_of_meets (TakesDistinct cfg) Distinct (fun _ _ _ hi ha hs => hi.step hs ha) h hm
    ⟨by nofun, by nofun⟩

end UserCollector

end Server

end NeuChain
