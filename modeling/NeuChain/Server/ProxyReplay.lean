/-
  What one server does with its batches, every other server does as well.

  * `remote_replays_local`: the messages an honest server sends while it goes through its
    batches make the receiver on another server do the same to its buffer: the same
    transactions under the same ids are pushed, and the same epochs are finished, in the same order.
    No `CHECK` fails there and no exception is raised. The receiver may run into any number of
    timeouts in between, as long as the sender has not been invalidated.

  Between two batches the receiver is at the epoch of the sender and knows the signatures of the
  epoch's batches (`Mirror`). That the number of signatures is compared makes it necessary that no
  two batches have the same.
-/
import NeuChain.Server.ClientProxy

namespace NeuChain.Server

open NeuChain

/-- A batch as an honest server gets it from its users and the epoch server. -/
structure HonestBatch (env : ProxyEnv) (ip responseRaw : Bytes) (txs : List Transaction) :
    Prop where
  epoch : ∀ t ∈ txs, t.epoch = (env.responseFromString responseRaw).epoch
  encodable : ∀ t ∈ txs, t.Encodable env.msg
  signed : ∀ t ∈ txs, verifyPayload env ip t = true
  size : txs.length = (env.responseFromString responseRaw).request.requestBatchSize
  hash : env.sha.hash (txs.flatMap fun t => t.transactionPayload.digest) =
    (env.responseFromString responseRaw).request.batchHash
  signature : env.epochServerVerify
    (decimal (env.responseFromString responseRaw).epoch ++
      (env.responseFromString responseRaw).request.batchHash ++
      decimal (env.responseFromString responseRaw).nonce)
    (env.responseFromString responseRaw).signature = true

/-- The receiver is where the sender is. -/
structure Mirror (st : LocalState) (rst : RemoteState) : Prop where
  epoch : rst.epoch = st.epoch
  proofs : rst.currentEpochProofSet = st.proofSet.toFinset
  nodup : st.proofSet.Nodup

/-- The receiver has seen one more signature of the epoch. -/
def RemoteState.accept (rst : RemoteState) (signature : Bytes) : RemoteState :=
  { rst with currentEpochProofSet := insert signature rst.currentEpochProofSet }

variable {env : ProxyEnv} {ip : Bytes} {st : LocalState} {rst rst' : RemoteState}

/-! ## The batch -/

section Batch

variable {responseRaw : Bytes} {txs : List Transaction}

theorem makeTransaction_serialize {t : Transaction} (h : t.Encodable env.msg) :
    makeTransaction env (t.serializeToString env.sha env.msg) = some t := by
  unfold makeTransaction
  rw [deserialize_serialize env.sha h]

/-- A worker fills in the entries it is given. -/
theorem poolWorker_eq {data : List Bytes} (hdec : data.map (makeTransaction env) = txs.map some)
    (hsig : ∀ t ∈ txs, verifyPayload env ip t = true) (indices : List Nat)
    (hind : ∀ i ∈ indices, i < txs.length) (list : List (Option Transaction)) :
    poolWorker env ip data indices list =
      some (true, indices.foldl (fun l i => l.set i txs[i]?) list) := by
  induction indices generalizing list with
  | nil => rfl
  | cons i indices ih =>
      have hi : i < txs.length := hind i List.mem_cons_self
      have hmem : txs[i] ∈ txs := List.getElem_mem hi
      have hget : data[i]?.bind (makeTransaction env) = some txs[i] := by
        have hmap : (data.map (makeTransaction env))[i]? = (txs.map some)[i]? := by rw [hdec]
        rw [List.getElem?_map, List.getElem?_map, List.getElem?_eq_getElem hi] at hmap
        obtain ⟨raw, hraw, hmake⟩ := Option.map_eq_some_iff.mp hmap
        rw [hraw]
        exact hmake
      unfold poolWorker
      rw [hget, Option.bind_some, if_pos (hsig _ hmem),
        ih (fun j hj => hind j (List.mem_cons_of_mem _ hj)), List.foldl_cons,
        List.getElem?_eq_getElem hi]

theorem length_foldl_set (indices : List Nat) (list : List (Option Transaction)) :
    (indices.foldl (fun l i => l.set i txs[i]?) list).length = list.length := by
  induction indices generalizing list with
  | nil => rfl
  | cons i indices ih => rw [List.foldl_cons, ih, List.length_set]

theorem getElem?_foldl_set (indices : List Nat) (list : List (Option Transaction)) (j : Nat)
    (hj : j < list.length) :
    (indices.foldl (fun l i => l.set i txs[i]?) list)[j]? =
      if j ∈ indices then some txs[j]? else list[j]? := by
  induction indices generalizing list with
  | nil => simp
  | cons i indices ih =>
      rw [List.foldl_cons, ih _ (by rw [List.length_set]; exact hj)]
      by_cases hji : j ∈ indices
      · simp [hji]
      · by_cases hi : i = j
        · subst hi
          simp [hji, hj]
        · have hij : j ≠ i := fun h => hi h.symm
          simp [hji, hi, hij]

/-- Each index belongs to one of the two workers. -/
theorem mem_workerIndices {n i : Nat} (hi : i < n) :
    i ∈ workerIndices 0 n ∨ i ∈ workerIndices 1 n := by
  have h2 : i % 2 = 0 ∨ i % 2 = 1 := by omega
  unfold workerIndices workerSize
  simpa [hi] using h2

theorem lt_of_mem_workerIndices {n w i : Nat} (h : i ∈ workerIndices w n) : i < n := by
  unfold workerIndices at h
  exact List.mem_range.mp (List.mem_filter.mp h).1

theorem deserializeBatch_eq {data : List Bytes}
    (hdec : data.map (makeTransaction env) = txs.map some)
    (hsig : ∀ t ∈ txs, verifyPayload env ip t = true) :
    deserializeBatch env ip data = some (true, txs.map some) := by
  have hlen : data.length = txs.length := by
    have hmap := congrArg List.length hdec
    rwa [List.length_map, List.length_map] at hmap
  unfold deserializeBatch
  rw [hlen, poolWorker_eq hdec hsig _ fun _ => lt_of_mem_workerIndices, Option.bind_some]
  dsimp only
  rw [poolWorker_eq hdec hsig _ fun _ => lt_of_mem_workerIndices, Option.map_some]
  refine congrArg some (Prod.ext rfl ?_)
  refine List.ext_getElem? fun j => ?_
  show (List.foldl _ (List.foldl _ _ _) _)[j]? = _
  by_cases hj : j < txs.length
  · rw [getElem?_foldl_set _ _ j (by rw [length_foldl_set, List.length_replicate]; exact hj),
      getElem?_foldl_set _ _ j (by rw [List.length_replicate]; exact hj),
      List.getElem?_map, List.getElem?_eq_getElem hj]
    rcases mem_workerIndices hj with h | h
    · simp [h]
    · simp [h]
  · have hle : txs.length ≤ j := Nat.le_of_not_lt hj
    rw [List.getElem?_eq_none (by
        rw [length_foldl_set, length_foldl_set, List.length_replicate]; exact hle),
      List.getElem?_eq_none (by rw [List.length_map]; exact hle)]

theorem HonestBatch.verify (h : HonestBatch env ip responseRaw txs) :
    verifyBatchHash env txs (env.responseFromString responseRaw) = true := by
  unfold verifyBatchHash
  rw [if_neg (by simpa using h.size)]
  dsimp only
  rw [if_neg (by simpa using h.hash.symm)]
  exact h.signature

theorem mapM_id_map_some {α : Type} (l : List α) : (l.map some).mapM id = some l := by
  induction l with
  | nil => rfl
  | cons a l ih => simp [ih]

/-- The receiver accepts the batch and pushes what the sender has pushed. -/
theorem HonestBatch.receive (h : HonestBatch env ip responseRaw txs)
    (he : rst.epoch = (env.responseFromString responseRaw).epoch) :
    receiveTransactionSet env ip rst
      { epoch := rst.epoch, type := .tx, proof := responseRaw,
        data := txs.map fun t => t.serializeToString env.sha env.msg } =
      (batchOps env (env.responseFromString responseRaw).signature txs,
        .receiving (rst.accept (env.responseFromString responseRaw).signature)) := by
  have hdec : (txs.map fun t => t.serializeToString env.sha env.msg).map (makeTransaction env) =
      txs.map some := by
    rw [List.map_map]
    exact List.map_congr_left fun t ht => makeTransaction_serialize (h.encodable t ht)
  unfold receiveTransactionSet
  dsimp only
  rw [if_neg (by simpa using he), deserializeBatch_eq hdec h.signed]
  dsimp only
  rw [mapM_id_map_some]
  dsimp only
  have hall : ∀ t ∈ txs, t.epoch = rst.epoch := fun t ht => (h.epoch t ht).trans he.symm
  rw [if_pos h.verify, pushRemote_eq, ofEpoch_eq_self hall, decide_eq_true hall]
  rfl

end Batch

/-! ## The stream -/

section Stream

/-- Receiving the messages performs these operations and leads to this state. -/
def Consumes (env : ProxyEnv) (ip : Bytes) (rst : RemoteState)
    (messages : List TransactionsWithProof) (ops : List BufferOp) (rst' : RemoteState) : Prop :=
  receiveFromOtherServer env ip rst (messages.map fun m => .message (env.setToString m)) =
    (ops, .receiving rst')

theorem Consumes.nil : Consumes env ip rst [] [] rst := rfl

theorem Consumes.append {ms ms' : List TransactionsWithProof} {ops ops' : List BufferOp}
    {rst'' : RemoteState} (h : Consumes env ip rst ms ops rst')
    (h' : Consumes env ip rst' ms' ops' rst'') :
    Consumes env ip rst (ms ++ ms') (ops ++ ops') rst'' := by
  unfold Consumes at *
  rw [List.map_append]
  generalize (ms.map fun m => RemoteEvent.message (env.setToString m)) = events at h
  induction events generalizing rst ops with
  | nil =>
      cases h
      exact h'
  | cons event events ih =>
      rw [List.cons_append]
      unfold receiveFromOtherServer at h ⊢
      split at h
      · rename_i ops₁ st₁ hstep
        cases hrec : receiveFromOtherServer env ip st₁ events with
        | mk rest final =>
            rw [hrec] at h
            cases h
            rw [ih hrec, List.append_assoc]
      · rename_i ops₁ status hne hstep
        cases h
        exact absurd rfl (hne _)

theorem Consumes.single {m : TransactionsWithProof} {ops : List BufferOp}
    (hround : env.setFromString (env.setToString m) = some m)
    (h : (if m.type = .con then receiveProofSet rst m else receiveTransactionSet env ip rst m) =
      (ops, .receiving rst')) : Consumes env ip rst [m] ops rst' := by
  have hstep : remoteStep env ip rst (.message (env.setToString m)) = (ops, .receiving rst') := by
    show receiveMessage env ip rst (env.setToString m) = _
    unfold receiveMessage
    rw [hround]
    exact h
  unfold Consumes
  rw [List.map_singleton]
  unfold receiveFromOtherServer
  rw [hstep]
  show (ops ++ [], _) = _
  rw [List.append_nil]

/-- The end of an epoch is the same on both sides. -/
theorem Mirror.receiveProofSet (h : Mirror st rst) :
    receiveProofSet rst { epoch := st.epoch, type := .con, ip := env.localIp, data := st.proofSet } =
      ([.asyncEmptyBuffer st.epoch], .receiving { epoch := st.epoch + 1 }) := by
  unfold NeuChain.Server.receiveProofSet
  rw [if_pos ?_, h.epoch]
  refine ⟨h.epoch, fun proof hp => ?_, ?_⟩
  · rw [h.proofs]
    exact List.mem_toFinset.mpr hp
  · rw [h.proofs, List.toFinset_card_of_nodup h.nodup]

theorem mirror_next (e : Epoch) : Mirror { epoch := e } { epoch := e } :=
  ⟨rfl, rfl, List.nodup_nil⟩

theorem epoch_finishEpochs (env : ProxyEnv) (st : LocalState) (n : Nat) :
    (finishEpochs env st n).2.epoch = st.epoch + n := by
  induction n generalizing st with
  | zero => rfl
  | succ n ih =>
      show (finishEpochs env { epoch := st.epoch + 1 } n).2.epoch = _
      rw [ih]
      exact (Nat.add_assoc st.epoch 1 n).trans (by rw [Nat.add_comm 1 n])

theorem proofSet_finishEpochs (env : ProxyEnv) (st : LocalState) (n : Nat) :
    ∀ proof ∈ (finishEpochs env st n).2.proofSet, proof ∈ st.proofSet := by
  induction n generalizing st with
  | zero => exact fun _ hp => hp
  | succ n ih => exact fun proof hp => absurd (ih { epoch := st.epoch + 1 } proof hp) List.not_mem_nil

/-- Finishing any number of epochs. -/
theorem consumes_finishEpochs (ip : Bytes) (n : Nat) (h : Mirror st rst)
    (hround : ∀ m ∈ replies (finishEpochs env st n).1,
      env.setFromString (env.setToString m) = some m) :
    ∃ rst', Consumes env ip rst (replies (finishEpochs env st n).1)
        (bufferOps (finishEpochs env st n).1) rst' ∧ Mirror (finishEpochs env st n).2 rst' := by
  induction n generalizing st rst with
  | zero => exact ⟨rst, Consumes.nil, h⟩
  | succ n ih =>
      obtain ⟨rst', hcons, hmirror⟩ := ih (mirror_next (st.epoch + 1))
        fun m hm => hround m (List.mem_cons_of_mem _ hm)
      have hcon : Consumes env ip rst [_] _ _ := Consumes.single (hround _ List.mem_cons_self)
        (by rw [if_pos rfl]; exact h.receiveProofSet)
      exact ⟨rst', hcon.append hcons, hmirror⟩

/-! ## Batches -/

variable {responseRaw : Bytes} {txs : List Transaction}

/-- A batch of an epoch that is already over stops the sender. -/
theorem receiveBatch_late (h : (env.responseFromString responseRaw).epoch < st.epoch) :
    receiveBatch env st responseRaw txs = ([], none) := by
  have hzero : finishEpochs env st ((env.responseFromString responseRaw).epoch - st.epoch) =
      ([], st) := by
    rw [Nat.sub_eq_zero_of_le (Nat.le_of_lt h)]
    rfl
  have hne : ¬ st.epoch = (env.responseFromString responseRaw).epoch := Nat.ne_of_gt h
  simp [receiveBatch, hzero, hne]

theorem HonestBatch.receiveBatch_eq (h : HonestBatch env ip responseRaw txs)
    (hle : st.epoch ≤ (env.responseFromString responseRaw).epoch) :
    receiveBatch env st responseRaw txs =
      ((finishEpochs env st ((env.responseFromString responseRaw).epoch - st.epoch)).1 ++
        (batchOps env (env.responseFromString responseRaw).signature txs).map .buffer ++
        [.sendReply { epoch := (env.responseFromString responseRaw).epoch, type := .tx,
                      proof := responseRaw,
                      data := txs.map fun t => t.serializeToString env.sha env.msg }],
        some { epoch := (env.responseFromString responseRaw).epoch
               proofSet := (finishEpochs env st
                 ((env.responseFromString responseRaw).epoch - st.epoch)).2.proofSet ++
                   [(env.responseFromString responseRaw).signature] }) := by
  have hepoch : (finishEpochs env st ((env.responseFromString responseRaw).epoch - st.epoch)).2.epoch
      = (env.responseFromString responseRaw).epoch := by
    rw [epoch_finishEpochs]
    exact Nat.add_sub_cancel' hle
  unfold receiveBatch
  dsimp only
  rw [hepoch, if_pos rfl, pushTransactions_eq, ofEpoch_eq_self h.epoch,
    if_pos h.epoch]

/-- One batch. -/
theorem HonestBatch.consumes (h : HonestBatch env ip responseRaw txs) (hm : Mirror st rst)
    (hnew : (env.responseFromString responseRaw).signature ∉ st.proofSet)
    (hround : ∀ m ∈ replies (receiveBatch env st responseRaw txs).1,
      env.setFromString (env.setToString m) = some m) :
    ∃ rst', Consumes env ip rst (replies (receiveBatch env st responseRaw txs).1)
        (bufferOps (receiveBatch env st responseRaw txs).1) rst' ∧
      ∀ st', (receiveBatch env st responseRaw txs).2 = some st' → Mirror st' rst' ∧
        ∀ proof ∈ st'.proofSet, proof ∈ st.proofSet ∨
          proof = (env.responseFromString responseRaw).signature := by
  rcases Nat.lt_or_ge (env.responseFromString responseRaw).epoch st.epoch with hlate | hle
  · rw [receiveBatch_late hlate]
    exact ⟨rst, Consumes.nil, fun st' hst => by cases hst⟩
  · rw [h.receiveBatch_eq hle] at hround ⊢
    have hproofs := proofSet_finishEpochs env st
      ((env.responseFromString responseRaw).epoch - st.epoch)
    have hepoch := epoch_finishEpochs env st
      ((env.responseFromString responseRaw).epoch - st.epoch)
    simp only [replies_append, bufferOps_append, replies_map_buffer, bufferOps_map_buffer,
      replies_sendReply, bufferOps_sendReply, List.append_nil] at hround ⊢
    obtain ⟨rst₁, hcons, hm₁⟩ := consumes_finishEpochs ip
      ((env.responseFromString responseRaw).epoch - st.epoch) hm
      fun m hmem => hround m (List.mem_append_left _ hmem)
    have he₁ : rst₁.epoch = (env.responseFromString responseRaw).epoch := by
      rw [hm₁.epoch, hepoch]
      exact Nat.add_sub_cancel' hle
    refine ⟨rst₁.accept (env.responseFromString responseRaw).signature, ?_, ?_⟩
    · refine hcons.append (Consumes.single (hround _ (List.mem_append_right _ List.mem_cons_self)) ?_)
      rw [if_neg (by nofun), ← he₁]
      exact (h.receive he₁).trans (by rfl)
    · intro st' hst
      cases hst
      refine ⟨⟨he₁, ?_, ?_⟩, fun proof hp => ?_⟩
      · show insert _ rst₁.currentEpochProofSet = _
        rw [hm₁.proofs]
        ext proof
        simp
      · refine List.Nodup.append hm₁.nodup (List.nodup_singleton _) ?_
        intro proof hp hs
        rw [List.mem_singleton.mp hs] at hp
        exact hnew (hproofs _ hp)
      · rcases List.mem_append.mp hp with hp | hp
        · exact Or.inl (hproofs _ hp)
        · exact Or.inr (List.mem_singleton.mp hp)

/-- The epoch of the response that comes with a batch. -/
def batchEpoch (env : ProxyEnv) (batch : Bytes × List Transaction) : Epoch :=
  (env.responseFromString batch.1).epoch

def batchSignature (env : ProxyEnv) (batch : Bytes × List Transaction) : Bytes :=
  (env.responseFromString batch.1).signature

theorem consumes_receiveFromLocalServer (batches : List (Bytes × List Transaction))
    (hm : Mirror st rst) (hhonest : ∀ b ∈ batches, HonestBatch env ip b.1 b.2)
    (hdistinct : (batches.map (batchSignature env)).Nodup)
    (hnew : ∀ b ∈ batches, batchSignature env b ∉ st.proofSet)
    (hround : ∀ m ∈ replies (receiveFromLocalServer env st batches).1,
      env.setFromString (env.setToString m) = some m) :
    ∃ rst', Consumes env ip rst (replies (receiveFromLocalServer env st batches).1)
      (bufferOps (receiveFromLocalServer env st batches).1) rst' := by
  induction batches generalizing st rst with
  | nil => exact ⟨rst, Consumes.nil⟩
  | cons b batches ih =>
      obtain ⟨responseRaw, txs⟩ := b
      have hb := hhonest _ List.mem_cons_self
      have hbnew := hnew _ List.mem_cons_self
      rw [List.map_cons, List.nodup_cons] at hdistinct
      unfold receiveFromLocalServer at hround ⊢
      cases hrec : receiveBatch env st responseRaw txs with
      | mk events final =>
          rw [hrec] at hround
          cases final with
          | none =>
              obtain ⟨rst', hcons, -⟩ := hb.consumes hm hbnew (by rw [hrec]; exact hround)
              rw [hrec] at hcons
              exact ⟨rst', hcons⟩
          | some st' =>
              simp only [replies_append, bufferOps_append] at hround ⊢
              obtain ⟨rst₁, hcons, hst⟩ := hb.consumes hm hbnew
                (by rw [hrec]; exact fun m hmem => hround m (List.mem_append_left _ hmem))
              rw [hrec] at hcons hst
              obtain ⟨hm', hproofs⟩ := hst st' rfl
              have hnew' : ∀ b ∈ batches, batchSignature env b ∉ st'.proofSet := by
                intro b hb hmem
                rcases hproofs _ hmem with hmem | hmem
                · exact hnew b (List.mem_cons_of_mem _ hb) hmem
                · exact hdistinct.1 (List.mem_map.mpr ⟨b, hb, hmem⟩)
              obtain ⟨rst', hrest⟩ := ih hm' (fun b hb => hhonest b (List.mem_cons_of_mem _ hb))
                hdistinct.2 hnew' (fun m hmem => hround m (List.mem_append_right _ hmem))
              exact ⟨rst', hcons.append hrest⟩

/-- With epochs in order no `CHECK` fails at the sender. -/
theorem receiveFromLocalServer_isSome (batches : List (Bytes × List Transaction))
    (hhonest : ∀ b ∈ batches, HonestBatch env ip b.1 b.2)
    (hsorted : (st.epoch :: batches.map (batchEpoch env)).Pairwise (· ≤ ·)) :
    (receiveFromLocalServer env st batches).2.isSome := by
  induction batches generalizing st with
  | nil => rfl
  | cons b batches ih =>
      obtain ⟨responseRaw, txs⟩ := b
      rw [List.map_cons, List.pairwise_cons] at hsorted
      have hle : st.epoch ≤ (env.responseFromString responseRaw).epoch :=
        hsorted.1 _ List.mem_cons_self
      unfold receiveFromLocalServer
      rw [(hhonest _ List.mem_cons_self).receiveBatch_eq hle]
      exact ih (fun b hb => hhonest b (List.mem_cons_of_mem _ hb)) hsorted.2

/-! ## Timeouts -/

/-- What the receiver takes from its queue. -/
def remoteMessages (events : List RemoteEvent) : List Bytes :=
  events.filterMap fun
    | .message raw => some raw
    | .timeout _ => none

theorem receiveFromOtherServer_timeouts (events : List RemoteEvent)
    (hbit : ∀ bit, .timeout bit ∈ events → bit.second = false) :
    receiveFromOtherServer env ip rst events =
      receiveFromOtherServer env ip rst ((remoteMessages events).map .message) := by
  induction events generalizing rst with
  | nil => rfl
  | cons event events ih =>
      have ih' := fun rst => @ih rst fun bit hb => hbit bit (List.mem_cons_of_mem _ hb)
      cases event with
      | message raw =>
          show receiveFromOtherServer env ip rst (.message raw :: events) =
            receiveFromOtherServer env ip rst (.message raw :: (remoteMessages events).map .message)
          unfold receiveFromOtherServer
          simp only [ih']
      | timeout bit =>
          have hsecond := hbit bit List.mem_cons_self
          show receiveFromOtherServer env ip rst (.timeout bit :: events) =
            receiveFromOtherServer env ip rst ((remoteMessages events).map .message)
          rw [← ih' rst]
          conv_lhs => unfold receiveFromOtherServer
          simp [remoteStep, hsecond]

end Stream

/-- What an honest server sends, another server replays on its buffer. -/
theorem remote_replays_local (env : ProxyEnv) (ip : Bytes) (start : Epoch)
    (batches : List (Bytes × List Transaction))
    (hhonest : ∀ b ∈ batches, HonestBatch env ip b.1 b.2)
    (hdistinct : (batches.map (batchSignature env)).Nodup)
    (hround : ∀ m ∈ replies (receiveFromLocalServer env { epoch := start } batches).1,
      env.setFromString (env.setToString m) = some m)
    (events : List RemoteEvent)
    (hfifo : remoteMessages events =
      (replies (receiveFromLocalServer env { epoch := start } batches).1).map env.setToString)
    (hbit : ∀ bit, .timeout bit ∈ events → bit.second = false) :
    ((start :: batches.map (batchEpoch env)).Pairwise (· ≤ ·) →
      (receiveFromLocalServer env { epoch := start } batches).2.isSome) ∧
    ∃ st, receiveFromOtherServer env ip { epoch := start } events =
      (bufferOps (receiveFromLocalServer env { epoch := start } batches).1, .receiving st) := by
  refine ⟨fun hsorted => receiveFromLocalServer_isSome batches hhonest hsorted, ?_⟩
  obtain ⟨st, hst⟩ := consumes_receiveFromLocalServer batches (mirror_next start) hhonest hdistinct
    (fun _ _ => List.not_mem_nil) hround
  refine ⟨st, ?_⟩
  rw [receiveFromOtherServer_timeouts events hbit, hfifo, List.map_map]
  exact hst

/-- A transaction of epoch 2. -/
def sampleTransaction : Transaction := { epoch := 2, transactionPayload := { digest := [9] } }

theorem length_zeros (_ : Bytes) : (List.replicate 32 0 : Bytes).length = sha256HashSize :=
  rfl

def sampleSHA256 : SHA256 where
  hash _ := List.replicate 32 0
  length_hash := length_zeros

def sampleMessages : Messages where
  payloadToString _ := [1]
  payloadFromString _ := some sampleTransaction.transactionPayload
  rwSetToString _ := []
  rwSetFromString _ := some {}

/-- The end of epoch 1, and a batch of epoch 2. -/
def sampleCON : TransactionsWithProof := { epoch := 1, type := .con, ip := [7] }

def sampleTX : TransactionsWithProof :=
  { epoch := 2, type := .tx, proof := [5]
    data := [sampleTransaction.serializeToString sampleSHA256 sampleMessages] }

/-- Just enough for one batch: every signature is accepted, and there is one message of each
    kind. -/
def sampleEnv : ProxyEnv where
  sha := sampleSHA256
  msg := sampleMessages
  setToString m := if m.type = .con then [0] else [1]
  setFromString raw := if raw = [0] then some sampleCON else some sampleTX
  responseFromString _ :=
    { epoch := 2, request := { requestBatchSize := 1, batchHash := List.replicate 32 0 }
      signature := [3] }
  userVerify _ _ _ := true
  epochServerVerify _ _ := true
  localIp := [7]

theorem remote_replays_local_sample :
    ∃ st, receiveFromOtherServer sampleEnv [7] { epoch := 1 }
        [.timeout {}, .message [0], .timeout {}, .message [1]] =
      ([.asyncEmptyBuffer 1, .push sampleTransaction], .receiving st) := by
  have hlocal : bufferOps (receiveFromLocalServer sampleEnv { epoch := 1 }
      [([5], [sampleTransaction])]).1 = [.asyncEmptyBuffer 1, .push sampleTransaction] := by
    decide
  have hreplies : replies (receiveFromLocalServer sampleEnv { epoch := 1 }
      [([5], [sampleTransaction])]).1 = [sampleCON, sampleTX] := rfl
  have hhonest : ∀ b ∈ [(([5] : Bytes), [sampleTransaction])],
      HonestBatch sampleEnv [7] b.1 b.2 := by
    intro b hb
    rw [List.mem_singleton.mp hb]
    refine ⟨by decide, fun t ht => ?_, by decide, by decide, by decide, by decide⟩
    rw [List.mem_singleton.mp ht]
    exact ⟨by decide, by decide, by nofun, by decide, by decide, rfl, rfl⟩
  have hround : ∀ m ∈ [sampleCON, sampleTX],
      sampleEnv.setFromString (sampleEnv.setToString m) = some m := by
    rintro m (_ | ⟨_, _ | ⟨_, hm⟩⟩)
    · rfl
    · rfl
    · cases hm
  obtain ⟨-, st, hst⟩ := remote_replays_local sampleEnv [7] 1 [([5], [sampleTransaction])] hhonest
    (by simp) (hreplies ▸ hround)
    [.timeout {}, .message [0], .timeout {}, .message [1]] (by rw [hreplies]; rfl) (by simp)
  rw [hlocal] at hst
  exact ⟨st, hst⟩

end NeuChain.Server
