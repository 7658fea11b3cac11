/-
  The receiver tasks of `UserCollector::processRequest`, thread by thread, and the epoch servers
  that answer them.

  A thread of the pool sends the request of its task to `minEpochServerCount` epoch servers, waits
  for all of them, keeps the last reply and takes `pipelineLock`. What it does under the lock is
  one step (`UserCollector.getReply`). Between the reply and the lock, any other thread may do any
  number of steps; so the reply may have become too old, and the request is sent again.

  The epoch servers answer with `receiverFromUser`, in any epoch they like and with any nonce. How
  the messages are written is a parameter (`EpochMessages`), and protobuf's way is one that reads
  back (`EpochMessages.protobuf_roundTrip`).

  A message in another one is not written here if it is empty, which a request never is.

  Left out: the clients, of which there are as many as threads.

  * `batches_leave_in_epoch_order`: for every interleaving.
-/
import Mathlib.Data.List.Range
import NeuChain.Lib.Wire
import NeuChain.Server.PayloadSignature
import NeuChain.Server.SignedMessage

namespace NeuChain.Server

open NeuChain Lib

/-! ## Requests and responses on the wire -/

namespace EpochRequest

def toFields (r : EpochRequest) : List WireField :=
  uint64Field 1 (r.requestBatchSize % 2 ^ 32) ++ bytesField 2 r.batchHash

def setField (r : EpochRequest) (f : WireField) : Option EpochRequest :=
  match f.number, f.value with
  | 1, .varint v => some { r with requestBatchSize := v % 2 ^ 32 }
  | 2, .bytes data => some { r with batchHash := data }
  | _, _ => none

def serializeAsString (r : EpochRequest) : Bytes := writeFields r.toFields

def parseFromString (raw : Bytes) : Option EpochRequest := mergeFrom setField {} raw

/-- As it is in a message: the size fits its type, the hash is one of `SHA256Helper`. -/
structure Encodable (r : EpochRequest) : Prop where
  size : r.requestBatchSize < 2 ^ 32
  hash : r.batchHash.length = sha256HashSize

variable {r : EpochRequest}

theorem foldlM_toFields (hr : r.Encodable) : r.toFields.foldlM setField {} = some r := by
  obtain ⟨size, hash⟩ := r
  have hlt : size < 4294967296 := hr.size
  simp only [toFields, bytesField, uint64Field, List.foldlM_append, Nat.mod_eq_of_lt hr.size]
  by_cases h₁ : size = 0 <;> by_cases h₂ : hash = [] <;> simp [h₁, h₂, setField, hlt]

theorem valid_of_mem_toFields (hr : r.Encodable) {f : WireField} (hf : f ∈ r.toFields) :
    f.Valid := by
  simp only [toFields, List.mem_append] at hf
  rcases hf with hf | hf
  · exact valid_of_mem_uint64Field (by decide) (by decide)
      (Nat.lt_trans (Nat.mod_lt _ (by decide)) (by decide)) hf
  · exact valid_of_mem_bytesField_of_length (by decide) (by decide) (by rw [hr.hash]; decide) hf

theorem parse_serialize (hr : r.Encodable) : parseFromString r.serializeAsString = some r :=
  mergeFrom_writeFields (fun _ hf => valid_of_mem_toFields hr hf) (foldlM_toFields hr)

theorem length_serializeAsString (hr : r.Encodable) : r.serializeAsString.length < 2 ^ 31 := by
  have hhash := hr.hash
  unfold sha256HashSize at hhash
  have hsize : (writeFields (uint64Field 1 (r.requestBatchSize % 2 ^ 32))).length ≤ 15 :=
    length_uint64Field_le (by decide) (Nat.lt_trans (Nat.mod_lt _ (by decide)) (by decide))
  have hdata : (writeFields (bytesField 2 r.batchHash)).length ≤ 10 + r.batchHash.length :=
    length_bytesField_le (by decide) (by omega)
  unfold serializeAsString toFields
  rw [writeFields, List.flatMap_append, List.length_append]
  unfold writeFields at hsize hdata
  omega

end EpochRequest

namespace EpochResponse

def toFields (r : EpochResponse) : List WireField :=
  uint64Field 1 (r.epoch % 2 ^ 64) ++ (bytesField 2 r.request.serializeAsString ++
    (uint64Field 3 (r.nonce % 2 ^ 64) ++ bytesField 4 r.signature))

def setField (r : EpochResponse) (f : WireField) : Option EpochResponse :=
  match f.number, f.value with
  | 1, .varint v => some { r with epoch := v }
  | 2, .bytes raw =>
      (mergeFrom EpochRequest.setField r.request raw).map fun request =>
        { r with request := request }
  | 3, .varint v => some { r with nonce := v }
  | 4, .bytes data => some { r with signature := data }
  | _, _ => none

def serializeAsString (r : EpochResponse) : Bytes := writeFields r.toFields

def parseFromString (raw : Bytes) : Option EpochResponse := mergeFrom setField {} raw

variable {r : EpochResponse}

theorem foldlM_toFields (hr : r.request.Encodable) :
    r.toFields.foldlM setField {} =
      some { r with epoch := r.epoch % 2 ^ 64, nonce := r.nonce % 2 ^ 64 } := by
  obtain ⟨epoch, request, nonce, signature⟩ := r
  have hepoch : (uint64Field 1 (epoch % 2 ^ 64)).foldlM setField {} =
      some { epoch := epoch % 2 ^ 64 } :=
    foldlM_uint64Field (fun v => ({ epoch := v } : EpochResponse)) rfl
  have hrequest : (bytesField 2 request.serializeAsString).foldlM setField
      { epoch := epoch % 2 ^ 64 } = some { epoch := epoch % 2 ^ 64, request := request } :=
    foldlM_messageField
      (fun request => ({ epoch := epoch % 2 ^ 64, request := request } : EpochResponse))
      (fun _ => rfl) (fun _ hf => EpochRequest.valid_of_mem_toFields hr hf)
      (EpochRequest.foldlM_toFields hr)
  have hnonce : (uint64Field 3 (nonce % 2 ^ 64)).foldlM setField
      { epoch := epoch % 2 ^ 64, request := request } =
      some { epoch := epoch % 2 ^ 64, request := request, nonce := nonce % 2 ^ 64 } :=
    foldlM_uint64Field
      (fun v => ({ epoch := epoch % 2 ^ 64, request := request, nonce := v } : EpochResponse)) rfl
  unfold toFields
  rw [List.foldlM_append, hepoch]
  simp only [bind, Option.bind_some]
  rw [List.foldlM_append, hrequest]
  simp only [bind, Option.bind_some]
  rw [List.foldlM_append, hnonce]
  exact foldlM_bytesField
    (fun data => ({ epoch := epoch % 2 ^ 64, request := request, nonce := nonce % 2 ^ 64,
                    signature := data } : EpochResponse)) rfl

theorem valid_of_mem_toFields (hr : r.request.Encodable) (hsignature : r.signature.length < 2 ^ 31)
    {f : WireField} (hf : f ∈ r.toFields) : f.Valid := by
  simp only [toFields, List.mem_append] at hf
  rcases hf with hf | hf | hf | hf
  · exact valid_of_mem_uint64Field (by decide) (by decide) (Nat.mod_lt _ (by decide)) hf
  · exact valid_of_mem_bytesField_of_length (by decide) (by decide)
      (EpochRequest.length_serializeAsString hr) hf
  · exact valid_of_mem_uint64Field (by decide) (by decide) (Nat.mod_lt _ (by decide)) hf
  · exact valid_of_mem_bytesField_of_length (by decide) (by decide) hsignature hf

theorem parse_serialize (hr : r.request.Encodable) (hsignature : r.signature.length < 2 ^ 31) :
    parseFromString r.serializeAsString =
      some { r with epoch := r.epoch % 2 ^ 64, nonce := r.nonce % 2 ^ 64 } :=
  mergeFrom_writeFields (fun _ hf => valid_of_mem_toFields hr hsignature hf) (foldlM_toFields hr)

end EpochResponse

/-! ## Epoch servers -/

/-- How messages are written, and read by the epoch servers. -/
structure EpochMessages where
  requestToString : EpochRequest → Bytes
  /-- The request after `ParseFromString`, whose result is not looked at. -/
  requestFromString : Bytes → EpochRequest
  responseToString : EpochResponse → Bytes

/-- What is written is read back, the responses by the tasks. -/
structure EpochMessages.RoundTrip (wire : EpochMessages)
    (responseFromString : Bytes → EpochResponse) : Prop where
  request : ∀ r : EpochRequest, r.Encodable → wire.requestFromString (wire.requestToString r) = r
  response : ∀ r : EpochResponse, r.request.Encodable → r.signature.length < 2 ^ 31 →
    responseFromString (wire.responseToString r) =
      { r with epoch := r.epoch % 2 ^ 64, nonce := r.nonce % 2 ^ 64 }

def EpochMessages.protobuf : EpochMessages where
  requestToString := EpochRequest.serializeAsString
  requestFromString raw := (EpochRequest.parseFromString raw).getD {}
  responseToString := EpochResponse.serializeAsString

theorem EpochMessages.protobuf_roundTrip {responseFromString : Bytes → EpochResponse}
    (h : ∀ raw response, EpochResponse.parseFromString raw = some response →
      responseFromString raw = response) : protobuf.RoundTrip responseFromString where
  request r hr := by
    show (EpochRequest.parseFromString r.serializeAsString).getD {} = r
    rw [EpochRequest.parse_serialize hr, Option.getD_some]
  response _ hr hsignature := h _ _ (EpochResponse.parse_serialize hr hsignature)

/-- The key of the epoch servers, and the format of the messages. -/
structure EpochServerSigner where
  wire : EpochMessages
  rsaEncrypt : Bytes → Bytes
  length_rsaEncrypt : ∀ message, (rsaEncrypt message).length < 2 ^ 31

/-- The answer to a message, in this epoch and after requests of this size. -/
def EpochServerSigner.reply (signer : EpochServerSigner) (requestRaw : Bytes)
    (epochNum totalSize : Nat) : Bytes :=
  let request := signer.wire.requestFromString requestRaw
  signer.wire.responseToString (receiverFromUser signer.rsaEncrypt epochNum totalSize request).2

/-- An epoch server gives the request back. -/
theorem request_of_reply {signer : EpochServerSigner} {responseFromString : Bytes → EpochResponse}
    (hwire : signer.wire.RoundTrip responseFromString) {request : EpochRequest}
    (hr : request.Encodable) (epochNum totalSize : Nat) :
    (responseFromString (signer.reply (signer.wire.requestToString request) epochNum
      totalSize)).request = request := by
  unfold EpochServerSigner.reply
  rw [hwire.request request hr]
  exact congrArg EpochResponse.request (hwire.response _ hr (signer.length_rsaEncrypt _))

/-! ## Threads -/

/-- The first tasks of the collector have a thread. -/
structure ReceiverTasks where
  collector : UserCollector := {}
  /-- For each task with a thread: the reply, between `getReply` and the lock. -/
  replies : List (Option Bytes) := []
deriving DecidableEq, Repr

inductive ReceiverAction where
  | collectRequest (message : Bytes)
  | processRequest (requestSize : Nat)
  /-- A thread that has nothing to do takes the next task. -/
  | takeTask
  /-- The request goes to the epoch servers, which are in these epochs and have seen requests of
      these sizes; the replies come back. -/
  | getReplies (task : Nat) (servers : List (Nat × Nat))
  /-- The thread takes `pipelineLock`. -/
  | lockPipeline (task : Nat)
deriving DecidableEq, Repr

namespace ReceiverTasks

def minEpochServerCount : Nat := 2

/-- `responseRaw` after the loop over the clients. -/
def lastReply (signer : EpochServerSigner) (task : CollectorTask) (servers : List (Nat × Nat)) :
    Bytes :=
  (servers.map fun server =>
    signer.reply (signer.wire.requestToString task.request) server.1 server.2).getLastD []

def step (cfg : CollectorConfig) (signer : EpochServerSigner) (s : ReceiverTasks) :
    ReceiverAction → Option ReceiverTasks
  | .collectRequest message =>
      (s.collector.step cfg (.collectRequest message)).map fun c => { s with collector := c }
  | .processRequest requestSize =>
      (s.collector.step cfg (.processRequest requestSize)).map fun c => { s with collector := c }
  | .takeTask =>
      if s.collector.aborted = false ∧ s.replies.length < UserCollector.clientSize ∧
          s.replies.length < s.collector.tasks.length then
        some { s with replies := s.replies ++ [none] }
      else none
  | .getReplies i servers =>
      if s.collector.aborted = false ∧ s.replies[i]? = some none ∧
          servers.length = minEpochServerCount then
        s.collector.tasks[i]?.map fun task =>
          { s with replies := s.replies.set i (some (lastReply signer task servers)) }
      else none
  | .lockPipeline i =>
      s.replies[i]?.join.bind fun responseRaw =>
        (s.collector.step cfg (.getReply i responseRaw)).map fun c =>
          { collector := c
            replies :=
              if (cfg.env.responseFromString responseRaw).epoch < s.collector.latestEpoch then
                s.replies.set i none
              else s.replies.eraseIdx i }

/-- The messages of the users, in the order they were collected. -/
def collected (as : List ReceiverAction) : List Bytes :=
  as.filterMap fun
    | .collectRequest message => some message
    | _ => none

end ReceiverTasks

/-! ## Where the batches are -/

namespace UserCollector

/-- The transactions of batch `k`, made from the requests of this batch in their order. -/
def Made (cfg : CollectorConfig) (batches : List (List Bytes)) (k : Nat) (txs : List Transaction) :
    Prop :=
  ∃ raws, batches[k]? = some raws ∧ raws.mapM (makeTransaction cfg) = some txs

/-- What has been handed over is batch `k`, with a response for it. -/
def HandedOver (cfg : CollectorConfig) (batches : List (List Bytes)) (k : Nat)
    (batch : Bytes × List Transaction) : Prop :=
  ∃ txs, Made cfg batches k txs ∧
    batch.2 = txs.map (·.setEpoch (cfg.env.responseFromString batch.1).epoch) ∧
    (cfg.env.responseFromString batch.1).request = makeRequest cfg txs

/-- The task is under way with batch `k`. -/
structure UnderWay (cfg : CollectorConfig) (batches : List (List Bytes)) (k : Nat)
    (task : CollectorTask) : Prop where
  made : Made cfg batches k task.transactionList
  request : task.request = makeRequest cfg task.transactionList
  size : task.transactionList.length ≤ cfg.userRequestBatchSize

/-- The requests collected so far have been cut into batches, up to those still in the buffer. Each
    batch has been handed over or is under way, and not twice. -/
structure Accounted (cfg : CollectorConfig) (requests : List Bytes) (c : UserCollector)
    (batches : List (List Bytes)) (delivered : List (Nat × Bytes × List Transaction))
    (started : List (Nat × CollectorTask)) : Prop where
  cut : batches.flatten ++ c.requestBuffer = requests
  handed_eq : delivered.map Prod.snd = c.handed
  tasks_eq : started.map Prod.snd = c.tasks
  once : (delivered.map Prod.fst ++ started.map Prod.fst).Perm (List.range batches.length)
  handedOver : ∀ d ∈ delivered, HandedOver cfg batches d.1 d.2
  underWay : ∀ d ∈ started, UnderWay cfg batches d.1 d.2

/-- The epochs of the batches that have been handed over. -/
def epochs (cfg : CollectorConfig) (c : UserCollector) : List Epoch :=
  c.handed.map fun batch => (cfg.env.responseFromString batch.1).epoch

structure InOrder (cfg : CollectorConfig) (c : UserCollector) : Prop where
  sorted : (c.epochs cfg).Pairwise (· ≤ ·)
  latest : ∀ e ∈ c.epochs cfg, e ≤ c.latestEpoch

variable {cfg : CollectorConfig} {c : UserCollector} {requests : List Bytes}
  {batches : List (List Bytes)} {delivered : List (Nat × Bytes × List Transaction)}
  {started : List (Nat × CollectorTask)} {k n i : Nat} {raws : List Bytes} {raw : Bytes}
  {txs : List Transaction} {task : CollectorTask}

theorem Made.append (h : Made cfg batches k txs) (raws : List Bytes) :
    Made cfg (batches ++ [raws]) k txs := by
  obtain ⟨raws', hget, hmap⟩ := h
  exact ⟨raws', List.getElem?_append_left (List.getElem?_eq_some_iff.mp hget).1 ▸ hget, hmap⟩

section

variable (h : Accounted cfg requests c batches delivered started)

include h

theorem Accounted.collectRequest (message : Bytes) :
    Accounted cfg (requests ++ [message])
      { c with requestBuffer := c.requestBuffer ++ [message] } batches delivered started :=
  { h with cut := by rw [← List.append_assoc, h.cut] }

/-- The next batch is what is taken out of the buffer. -/
theorem Accounted.processRequest
    (hmake : (c.requestBuffer.take n).mapM (makeTransaction cfg) = some txs)
    (hn : n ≤ cfg.userRequestBatchSize) :
    Accounted cfg requests
      { c with
        requestBuffer := c.requestBuffer.drop n
        tasks := c.tasks ++ [⟨txs, makeRequest cfg txs⟩] }
      (batches ++ [c.requestBuffer.take n]) delivered
      (started ++ [(batches.length, ⟨txs, makeRequest cfg txs⟩)]) where
  cut := by
    rw [List.flatten_append, List.flatten_singleton, List.append_assoc, List.take_append_drop,
      h.cut]
  handed_eq := h.handed_eq
  tasks_eq := by
    rw [List.map_append, h.tasks_eq]
    rfl
  once := by
    rw [List.map_append, ← List.append_assoc, List.length_append, List.length_singleton,
      List.range_succ]
    exact h.once.append_right _
  handedOver d hd := by
    obtain ⟨txs', hmade, hrest⟩ := h.handedOver d hd
    exact ⟨txs', hmade.append _, hrest⟩
  underWay d hd := by
    rcases List.mem_append.mp hd with hd | hd
    · obtain ⟨hmade, hrequest, hsize⟩ := h.underWay d hd
      exact ⟨hmade.append _, hrequest, hsize⟩
    · cases List.mem_singleton.mp hd
      have hlen : txs.length ≤ n := by
        have hdigests := congrArg List.length (digests_of_mapM hmake)
        rw [List.length_map, List.length_map, List.length_take] at hdigests
        omega
      exact ⟨⟨_, List.getElem?_concat_length, hmake⟩, rfl, Nat.le_trans hlen hn⟩

/-- A task that has got a reply to its request hands over its batch. -/
theorem Accounted.handOver (htask : c.tasks[i]? = some task)
    (hrequest : (cfg.env.responseFromString raw).request = task.request) (e : Epoch)
    (he : e = (cfg.env.responseFromString raw).epoch) :
    ∃ k, Accounted cfg requests
      { c with
        latestEpoch := e
        tasks := c.tasks.eraseIdx i
        handed := c.handed ++ [(raw, task.transactionList.map (·.setEpoch e))] }
      batches (delivered ++ [(k, raw, task.transactionList.map (·.setEpoch e))])
      (started.eraseIdx i) := by
  subst he
  rw [← h.tasks_eq, List.getElem?_map] at htask
  obtain ⟨⟨k, task'⟩, hget, rfl⟩ := Option.map_eq_some_iff.mp htask
  obtain ⟨hlt, hget⟩ := List.getElem?_eq_some_iff.mp hget
  have hmem : (k, task') ∈ started := hget ▸ List.getElem_mem hlt
  have hperm : ((k, task') :: started.eraseIdx i).Perm started := by
    rw [← hget]
    exact List.getElem_cons_eraseIdx_perm hlt
  refine ⟨k, h.cut, ?_, ?_, ?_, ?_, ?_⟩
  · rw [List.map_append, h.handed_eq]
    rfl
  · rw [← h.tasks_eq, List.eraseIdx_map]
  · refine List.Perm.trans ?_ h.once
    rw [List.map_append, List.append_assoc]
    exact (hperm.map Prod.fst).append_left _
  · intro d hd
    rcases List.mem_append.mp hd with hd | hd
    · exact h.handedOver d hd
    · cases List.mem_singleton.mp hd
      obtain ⟨hmade, hmakes, -⟩ := h.underWay _ hmem
      exact ⟨task'.transactionList, hmade, rfl, hrequest.trans hmakes⟩
  · exact fun d hd => h.underWay d (List.mem_of_mem_eraseIdx hd)

/-- What the epoch servers get can be written and read. -/
theorem Accounted.encodable (hsize : cfg.userRequestBatchSize < 2 ^ 32) (htask : task ∈ c.tasks) :
    task.request.Encodable := by
  rw [← h.tasks_eq] at htask
  obtain ⟨d, hd, rfl⟩ := List.mem_map.mp htask
  have hway := h.underWay d hd
  rw [hway.request]
  exact ⟨Nat.lt_of_le_of_lt hway.size hsize, cfg.env.sha.length_hash _⟩

end

theorem InOrder.handOver (h : InOrder cfg c) (txs : List Transaction) (tasks : List CollectorTask)
    (hle : c.latestEpoch ≤ (cfg.env.responseFromString raw).epoch) :
    InOrder cfg
      { c with
        latestEpoch := (cfg.env.responseFromString raw).epoch
        tasks := tasks
        handed := c.handed ++ [(raw, txs)] } := by
  have hepochs : epochs cfg
      { c with
        latestEpoch := (cfg.env.responseFromString raw).epoch
        tasks := tasks
        handed := c.handed ++ [(raw, txs)] } =
      c.epochs cfg ++ [(cfg.env.responseFromString raw).epoch] := by
    unfold epochs
    rw [List.map_append]
    rfl
  constructor
  · rw [hepochs]
    refine List.pairwise_append.mpr ⟨h.sorted, List.pairwise_singleton _ _, fun e he e' he' => ?_⟩
    cases List.mem_singleton.mp he'
    exact Nat.le_trans (h.latest e he) hle
  · intro e he
    rw [hepochs] at he
    rcases List.mem_append.mp he with he | he
    · exact Nat.le_trans (h.latest e he) hle
    · exact Nat.le_of_eq (List.mem_singleton.mp he)

theorem step_collectRequest {c' : UserCollector} {message : Bytes}
    (h : UserCollector.step cfg c (.collectRequest message) = some c') :
    c' = { c with requestBuffer := c.requestBuffer ++ [message] } := by
  unfold UserCollector.step at h
  split at h
  · cases h
  · exact (Option.some.inj h).symm

theorem step_processRequest {c' : UserCollector}
    (h : UserCollector.step cfg c (.processRequest n) = some c') :
    n ≤ cfg.userRequestBatchSize ∧ c' = c.processRequest cfg n := by
  unfold UserCollector.step at h
  split at h
  · cases h
  · dsimp only at h
    split at h
    · rename_i hn
      exact ⟨hn.2.1, (Option.some.inj h).symm⟩
    · cases h

theorem step_getReply {c' : UserCollector}
    (h : UserCollector.step cfg c (.getReply i raw) = some c') :
    ∃ task, c.tasks[i]? = some task ∧ c' = c.getReply cfg i task raw := by
  unfold UserCollector.step at h
  split at h
  · cases h
  · dsimp only at h
    split at h
    · obtain ⟨task, htask, rfl⟩ := Option.map_eq_some_iff.mp h
      exact ⟨task, htask, rfl⟩
    · cases h

end UserCollector

/-! ## Every interleaving -/

namespace ReceiverTasks

open UserCollector (InOrder Accounted)

variable {cfg : CollectorConfig} {signer : EpochServerSigner} {s s' : ReceiverTasks}
  {a : ReceiverAction} {as : List ReceiverAction} {requests : List Bytes}

/-- A reply that a thread has got is one to the request of its task. -/
def RepliesMatch (cfg : CollectorConfig) (s : ReceiverTasks) : Prop :=
  ∀ (i : Nat) (raw : Bytes), s.replies[i]? = some (some raw) → ∃ task,
    s.collector.tasks[i]? = some task ∧ (cfg.env.responseFromString raw).request = task.request

/-- What holds once `requests` have been collected. -/
structure Inv (cfg : CollectorConfig) (requests : List Bytes) (s : ReceiverTasks) : Prop where
  inOrder : InOrder cfg s.collector
  accounted : ∃ batches delivered started,
    Accounted cfg requests s.collector batches delivered started
  repliesMatch : RepliesMatch cfg s

/-- A task that is added behind the others does not matter for the replies. -/
theorem RepliesMatch.append {c : UserCollector} (h : RepliesMatch cfg s)
    (tasks : List CollectorTask) (htasks : c.tasks = s.collector.tasks ++ tasks) :
    RepliesMatch cfg { s with collector := c } := by
  intro i raw hraw
  obtain ⟨task, htask, hrequest⟩ := h i raw hraw
  refine ⟨task, ?_, hrequest⟩
  show c.tasks[i]? = some task
  rw [htasks, List.getElem?_append_left (List.getElem?_eq_some_iff.mp htask).1]
  exact htask

theorem RepliesMatch.eraseIdx {c : UserCollector} {i : Nat} (h : RepliesMatch cfg s)
    (htasks : c.tasks = s.collector.tasks.eraseIdx i) :
    RepliesMatch cfg { collector := c, replies := s.replies.eraseIdx i } := by
  intro j raw hraw
  show ∃ task, c.tasks[j]? = some task ∧ _
  rw [htasks, List.getElem?_eraseIdx]
  dsimp only at hraw
  rw [List.getElem?_eraseIdx] at hraw
  split at hraw
  · rename_i hj
    rw [if_pos hj]
    exact h j raw hraw
  · rename_i hj
    rw [if_neg hj]
    exact h (j + 1) raw hraw

theorem RepliesMatch.set {i : Nat} {reply : Option Bytes} (h : RepliesMatch cfg s)
    (hreply : ∀ raw, reply = some raw → ∃ task, s.collector.tasks[i]? = some task ∧
      (cfg.env.responseFromString raw).request = task.request) :
    RepliesMatch cfg { s with replies := s.replies.set i reply } := by
  intro j raw hraw
  dsimp only at hraw
  rw [List.getElem?_set] at hraw
  split at hraw
  · rename_i hij
    subst hij
    split at hraw
    · exact hreply raw (Option.some.inj hraw)
    · cases hraw
  · exact h j raw hraw

theorem Inv.collectRequest {message : Bytes} (h : Inv cfg requests s)
    (hs : step cfg signer s (.collectRequest message) = some s') :
    Inv cfg (requests ++ [message]) s' := by
  obtain ⟨c, hc, rfl⟩ := Option.map_eq_some_iff.mp hs
  cases UserCollector.step_collectRequest hc
  obtain ⟨batches, delivered, started, hacc⟩ := h.accounted
  exact ⟨⟨h.inOrder.sorted, h.inOrder.latest⟩,
    ⟨batches, delivered, started, hacc.collectRequest message⟩,
    h.repliesMatch.append [] (List.append_nil _).symm⟩

theorem Inv.processRequest {n : Nat} (h : Inv cfg requests s)
    (hs : step cfg signer s (.processRequest n) = some s') : Inv cfg requests s' := by
  obtain ⟨c, hc, rfl⟩ := Option.map_eq_some_iff.mp hs
  obtain ⟨hn, rfl⟩ := UserCollector.step_processRequest hc
  obtain ⟨batches, delivered, started, hacc⟩ := h.accounted
  unfold UserCollector.processRequest
  split
  · exact ⟨⟨h.inOrder.sorted, h.inOrder.latest⟩,
      ⟨batches, delivered, started, { hacc with }⟩,
      h.repliesMatch.append [] (List.append_nil _).symm⟩
  · rename_i hmake
    exact ⟨⟨h.inOrder.sorted, h.inOrder.latest⟩, ⟨_, _, _, hacc.processRequest hmake hn⟩,
      h.repliesMatch.append _ rfl⟩

theorem Inv.takeTask (h : Inv cfg requests s) (hs : step cfg signer s .takeTask = some s') :
    Inv cfg requests s' := by
  obtain ⟨-, hs⟩ := Option.ite_none_right_eq_some.mp hs
  cases hs
  refine ⟨h.inOrder, h.accounted, fun i raw hraw => ?_⟩
  rw [List.getElem?_append] at hraw
  split at hraw
  · exact h.repliesMatch i raw hraw
  · rw [List.getElem?_singleton] at hraw
    split at hraw <;> cases hraw

theorem lastReply_eq (signer : EpochServerSigner) (task : CollectorTask)
    {servers : List (Nat × Nat)} (hcount : servers.length = minEpochServerCount) :
    ∃ server : Nat × Nat, lastReply signer task servers =
      signer.reply (signer.wire.requestToString task.request) server.1 server.2 := by
  have hne : servers ≠ [] := by
    rintro rfl
    cases hcount
  refine ⟨servers.getLast hne, ?_⟩
  unfold lastReply
  rw [List.getLastD_eq_getLast?, List.getLast?_map, List.getLast?_eq_some_getLast hne]
  rfl

theorem Inv.getReplies {i : Nat} {servers : List (Nat × Nat)}
    (hwire : signer.wire.RoundTrip cfg.env.responseFromString)
    (hsize : cfg.userRequestBatchSize < 2 ^ 32) (h : Inv cfg requests s)
    (hs : step cfg signer s (.getReplies i servers) = some s') : Inv cfg requests s' := by
  obtain ⟨⟨-, -, hcount⟩, hs⟩ := Option.ite_none_right_eq_some.mp hs
  obtain ⟨task, htask, rfl⟩ := Option.map_eq_some_iff.mp hs
  obtain ⟨batches, delivered, started, hacc⟩ := h.accounted
  obtain ⟨server, hlast⟩ := lastReply_eq signer task hcount
  refine ⟨h.inOrder, h.accounted, h.repliesMatch.set fun raw hraw => ⟨task, htask, ?_⟩⟩
  rw [← Option.some.inj hraw, hlast]
  exact request_of_reply hwire (hacc.encodable hsize (List.mem_of_getElem? htask)) server.1 server.2

theorem Inv.lockPipeline {i : Nat} (h : Inv cfg requests s)
    (hs : step cfg signer s (.lockPipeline i) = some s') : Inv cfg requests s' := by
  obtain ⟨raw, hraw, hs⟩ := Option.bind_eq_some_iff.mp hs
  obtain ⟨c, hc, rfl⟩ := Option.map_eq_some_iff.mp hs
  obtain ⟨task, htask, rfl⟩ := UserCollector.step_getReply hc
  obtain ⟨task', htask', hrequest⟩ := h.repliesMatch i raw (Option.join_eq_some_iff.mp hraw)
  cases Option.some.inj (htask.symm.trans htask')
  obtain ⟨batches, delivered, started, hacc⟩ := h.accounted
  unfold UserCollector.getReply
  dsimp only
  split
  · exact ⟨h.inOrder, h.accounted, h.repliesMatch.set (by nofun)⟩
  · rename_i hlt
    obtain ⟨k, hacc'⟩ := hacc.handOver htask hrequest _ rfl
    exact ⟨h.inOrder.handOver _ _ (Nat.le_of_not_lt hlt), ⟨_, _, _, hacc'⟩,
      h.repliesMatch.eraseIdx rfl⟩

theorem collected_append (as bs : List ReceiverAction) :
    collected (as ++ bs) = collected as ++ collected bs := List.filterMap_append

theorem Inv.step (hwire : signer.wire.RoundTrip cfg.env.responseFromString)
    (hsize : cfg.userRequestBatchSize < 2 ^ 32) (h : Inv cfg (collected as) s)
    (hs : step cfg signer s a = some s') : Inv cfg (collected (as ++ [a])) s' := by
  rw [collected_append]
  cases a with
  | collectRequest message => exact h.collectRequest hs
  | processRequest n =>
      rw [show collected [.processRequest n] = [] from rfl, List.append_nil]
      exact h.processRequest hs
  | takeTask =>
      rw [show collected [.takeTask] = [] from rfl, List.append_nil]
      exact h.takeTask hs
  | getReplies i servers =>
      rw [show collected [.getReplies i servers] = [] from rfl, List.append_nil]
      exact h.getReplies hwire hsize hs
  | lockPipeline i =>
      rw [show collected [.lockPipeline i] = [] from rfl, List.append_nil]
      exact h.lockPipeline hs

theorem inv_start : Inv cfg [] {} where
  inOrder := ⟨List.Pairwise.nil, by nofun⟩
  accounted := ⟨[], [], [], rfl, rfl, rfl, List.Perm.refl _, by nofun, by nofun⟩
  repliesMatch := by nofun

/-! ## What is handed over -/

/-- The request in a proof is the one `verifyBatchHash` compares the transactions with. -/
theorem request_of_handedOver {batches : List (List Bytes)} {k : Nat}
    {batch : Bytes × List Transaction} (h : UserCollector.HandedOver cfg batches k batch) :
    (cfg.env.responseFromString batch.1).request = UserCollector.makeRequest cfg batch.2 := by
  obtain ⟨txs, -, hbatch, hrequest⟩ := h
  rw [hrequest, hbatch]
  unfold UserCollector.makeRequest
  rw [List.length_map, List.flatMap_map]
  rfl

theorem verifyBatchHash_of_request {txs : List Transaction} {response : EpochResponse}
    (h : response.request = UserCollector.makeRequest cfg txs) :
    verifyBatchHash cfg.env txs response =
      cfg.env.epochServerVerify response.message response.signature := by
  have hlength : response.request.requestBatchSize = txs.length := by rw [h]; rfl
  have hhash : response.request.batchHash =
      cfg.env.sha.hash (txs.flatMap fun t => t.transactionPayload.digest) := by rw [h]; rfl
  unfold verifyBatchHash
  rw [if_neg (not_not.mpr hlength.symm)]
  dsimp only
  rw [if_neg (not_not.mpr hhash)]
  rfl

/-- Whatever the threads and the epoch servers do: the batches are handed over in the order of
    their epochs, none of them twice, each as it was collected. The epoch of its transactions is
    that of the proof, whose size and hash are those `verifyBatchHash` computes. -/
theorem batches_leave_in_epoch_order (hwire : signer.wire.RoundTrip cfg.env.responseFromString)
    (hsize : cfg.userRequestBatchSize < 2 ^ 32)
    (hrun : run (ReceiverTasks.step cfg signer) {} as = some s) :
    (s.collector.handed.map fun batch => (cfg.env.responseFromString batch.1).epoch).Pairwise
        (· ≤ ·) ∧
      (∃ batches : List (List Bytes),
        batches.flatten ++ s.collector.requestBuffer = collected as ∧
        ∃ delivered : List (Nat × Bytes × List Transaction),
          delivered.map Prod.snd = s.collector.handed ∧ (delivered.map Prod.fst).Nodup ∧
          ∀ d ∈ delivered, ∃ raws txs, batches[d.1]? = some raws ∧
            raws.mapM (UserCollector.makeTransaction cfg) = some txs ∧
            d.2.2 = txs.map (·.setEpoch (cfg.env.responseFromString d.2.1).epoch)) ∧
      ∀ batch ∈ s.collector.handed,
        (∀ t ∈ batch.2, t.epoch = (cfg.env.responseFromString batch.1).epoch) ∧
        (cfg.env.responseFromString batch.1).request.requestBatchSize = batch.2.length ∧
        (cfg.env.responseFromString batch.1).request.batchHash =
          cfg.env.sha.hash (batch.2.flatMap Transaction.digest) ∧
        verifyBatchHash cfg.env batch.2 (cfg.env.responseFromString batch.1) =
          cfg.env.epochServerVerify (cfg.env.responseFromString batch.1).message
            (cfg.env.responseFromString batch.1).signature := by
  have hinv : Inv cfg (collected as) s :=
    run_invariant_history (fun as s => Inv cfg (collected as) s)
      (fun _ _ _ _ h hs => h.step hwire hsize hs) hrun inv_start
  obtain ⟨batches, delivered, started, hacc⟩ := hinv.accounted
  have hnodup : (delivered.map Prod.fst).Nodup :=
    (List.nodup_append.mp (hacc.once.nodup_iff.mpr List.nodup_range)).1
  refine ⟨hinv.inOrder.sorted, ⟨batches, hacc.cut, delivered, hacc.handed_eq, hnodup, ?_⟩, ?_⟩
  · intro d hd
    obtain ⟨txs, ⟨raws, hraws, hmade⟩, hepoch, -⟩ := hacc.handedOver d hd
    exact ⟨raws, txs, hraws, hmade, hepoch⟩
  · intro batch hbatch
    rw [← hacc.handed_eq] at hbatch
    obtain ⟨d, hd, rfl⟩ := List.mem_map.mp hbatch
    have hrequest := request_of_handedOver (hacc.handedOver d hd)
    obtain ⟨txs, -, hepoch, -⟩ := hacc.handedOver d hd
    refine ⟨fun t ht => ?_, ?_, ?_, verifyBatchHash_of_request hrequest⟩
    · rw [hepoch] at ht
      obtain ⟨u, -, rfl⟩ := List.mem_map.mp ht
      rfl
    · rw [hrequest]
      rfl
    · rw [hrequest]
      rfl

/-- Users and epoch servers sign with the message itself, cut off. -/
def plainSigner : EpochServerSigner where
  wire := .protobuf
  rsaEncrypt message := message.take 8
  length_rsaEncrypt message := by
    rw [List.length_take]
    omega

def wireConfig : CollectorConfig where
  env := { plainEnv [] with
    responseFromString := fun raw => (EpochResponse.parseFromString raw).getD {} }
  requestFromString := plainConfig.requestFromString
  unparsedPayload := plainConfig.unparsedPayload

/-- Two tasks. The second has got a reply of epoch 3 when the first takes the lock with one of
    epoch 5; the second asks again. -/
def overtaken : List ReceiverAction :=
  [.collectRequest [10, 1, 7], .collectRequest [10, 1, 8], .collectRequest [10, 1, 9],
    .processRequest 2, .processRequest 1, .takeTask, .takeTask,
    .getReplies 1 [(4, 0), (3, 1)], .getReplies 0 [(3, 0), (5, 2)], .lockPipeline 0,
    .lockPipeline 0, .getReplies 0 [(5, 7), (6, 7)], .lockPipeline 0]

theorem batches_leave_overtaken :
    ∃ s, run (step wireConfig plainSigner) {} overtaken = some s ∧
      s.collector.handed.map (fun batch => batch.2.map (·.epoch)) = [[5, 5], [6]] ∧
      (s.collector.handed.map fun batch =>
        (wireConfig.env.responseFromString batch.1).epoch).Pairwise (· ≤ ·) ∧
      ∀ batch ∈ s.collector.handed,
        (wireConfig.env.responseFromString batch.1).request.requestBatchSize = batch.2.length := by
  have hany : (run (step wireConfig plainSigner) {} overtaken).any (fun s =>
      s.collector.handed.map (fun batch => batch.2.map (·.epoch)) = [[5, 5], [6]]) = true := by
    decide +kernel
  obtain ⟨s, hrun, hs⟩ := exists_of_any hany
  have hwire : plainSigner.wire.RoundTrip wireConfig.env.responseFromString := by
    refine EpochMessages.protobuf_roundTrip fun raw response h => ?_
    show (EpochResponse.parseFromString raw).getD {} = response
    rw [h]
    rfl
  obtain ⟨hsorted, -, hbatch⟩ := batches_leave_in_epoch_order hwire (by decide) hrun
  exact ⟨s, hrun, hs, hsorted, fun batch hb => (hbatch batch hb).2.1⟩

end ReceiverTasks

end NeuChain.Server
