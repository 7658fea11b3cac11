/-
  The ids of the transactions in the execution queue.

  A transaction gets its id from the signature of its batch and its own digest. So two transactions
  of a batch have the same id exactly if they have the same digest, that is, if the same signed
  request stands in the batch twice (`tids_nodup_iff`). The user collector does not prevent this
  (`repeated_request_repeats_tid`).

  * `delivered_tids_unique`: if no server takes a batch with the same request in it twice, and
    signatures and ids are as one expects of the cryptography, no two transactions of an epoch that
    reach the execution queue of a server have the same id. This holds in every state of every run
    of the server, with batches and messages as honest servers produce them.
-/
import Mathlib.Data.List.Flatten
import Mathlib.Data.List.Nodup
import NeuChain.Lib.Log
import NeuChain.Server.Pushes
import NeuChain.Server.UserCollector

namespace NeuChain.Server

open NeuChain Lib

/-! ## What comes in -/

section Sent

variable {env : ProxyEnv}

/-- A transaction that has been sent is got back. -/
theorem filterMap_makeTransaction {txs : List Transaction} (h : ∀ t ∈ txs, t.Encodable env.msg) :
    (txs.map fun t => t.serializeToString env.sha env.msg).filterMap (makeTransaction env) =
      txs := by
  induction txs with
  | nil => rfl
  | cons t txs ih =>
      have hfirst : makeTransaction env (t.serializeToString env.sha env.msg) = some t := by
        unfold makeTransaction
        rw [deserialize_serialize env.sha (h t List.mem_cons_self)]
      rw [List.map_cons, List.filterMap_cons_some hfirst,
        ih fun u hu => h u (List.mem_cons_of_mem _ hu)]

theorem data_of_pushTransactions {e : Epoch} {signature : Bytes} {txs : List Transaction}
    {ops : List BufferOp} {data : List Bytes}
    (h : pushTransactions env e signature txs = (ops, some data)) :
    data = txs.map fun t => t.serializeToString env.sha env.msg := by
  rw [pushTransactions_eq, Prod.mk.injEq, Option.ite_none_right_eq_some] at h
  exact (Option.some.inj h.2.2).symm

theorem setBatch_finishEpochs (env : ProxyEnv) (st : LocalState) (n : Nat) :
    (replies (finishEpochs env st n).1).flatMap (setBatch env) = [] := by
  induction n generalizing st with
  | zero => rfl
  | succ n ih => exact ih { epoch := st.epoch + 1 }

theorem setBatch_receiveBatch (st : LocalState) (raw : Bytes) {txs : List Transaction}
    (h : ∀ t ∈ txs, t.Encodable env.msg) :
    ((replies (receiveBatch env st raw txs).1).flatMap (setBatch env)).Sublist
      [signedBatch env (raw, txs)] := by
  have hfinish := setBatch_finishEpochs env st ((env.responseFromString raw).epoch - st.epoch)
  unfold receiveBatch
  dsimp only
  split
  · split <;> rename_i heq
    · rw [replies_append, replies_map_buffer, List.append_nil, hfinish]
      exact List.nil_sublist _
    · rw [replies_append, replies_append, replies_map_buffer, replies_sendReply, List.append_nil,
        List.flatMap_append, hfinish, data_of_pushTransactions heq]
      show List.Sublist [(_, List.filterMap (makeTransaction env) _)] _
      rw [filterMap_makeTransaction h]
      exact List.Sublist.refl _
  · rw [hfinish]
    exact List.nil_sublist _

/-- A server sends each of its batches at most once, in order. -/
theorem setBatch_receiveFromLocalServer (env : ProxyEnv) (st : LocalState)
    {batches : List (Bytes × List Transaction)}
    (h : ∀ b ∈ batches, ∀ t ∈ b.2, t.Encodable env.msg) :
    ((replies (receiveFromLocalServer env st batches).1).flatMap (setBatch env)).Sublist
      (batches.map (signedBatch env)) := by
  induction batches generalizing st with
  | nil => exact List.Sublist.refl _
  | cons b batches ih =>
      have hb := setBatch_receiveBatch st b.1 (h b List.mem_cons_self)
      unfold receiveFromLocalServer
      split <;> rename_i heq
      · rw [heq] at hb
        exact hb.trans (List.singleton_sublist.mpr List.mem_cons_self)
      · rw [heq] at hb
        dsimp only
        rw [replies_append, List.flatMap_append]
        exact List.Sublist.append hb (ih _ fun c hc => h c (List.mem_cons_of_mem _ hc))

end Sent

namespace ProxyServer

/-- The batches the local receiver has taken. -/
def localBatches (as : List ServerAction) : List (Bytes × List Transaction) :=
  as.filterMap fun
    | .batch responseRaw transactionList => some (responseRaw, transactionList)
    | _ => none

/-- The messages that have arrived for proxy `p`. -/
def arrivals (p : Nat) (as : List ServerAction) : List Bytes :=
  as.filterMap fun
    | .arrive q messageRaw => if q = p then some messageRaw else none
    | _ => none

/-- What the local receiver of server `p` sends when it goes through these batches. -/
def sentBy (cfg : ProxyServerConfig) (p : Nat) (batches : List (Bytes × List Transaction)) :
    List TransactionsWithProof :=
  replies (receiveFromLocalServer { cfg.env with localIp := cfg.ips p }
    { epoch := cfg.startWithEpoch } batches).1

/-- Each server has gone through the first of its batches, and reliable links have delivered the
    first of its messages. Transactions and messages can be read back. -/
structure HonestInputs (cfg : ProxyServerConfig) (batches : Nat → List (Bytes × List Transaction))
    (as : List ServerAction) : Prop where
  own : localBatches as <+: batches cfg.localId
  /-- A server does not listen to itself. -/
  noEcho : arrivals cfg.localId as = []
  remote : ∀ p, p ≠ cfg.localId →
    arrivals p as <+: (sentBy cfg p (batches p)).map cfg.env.setToString
  parse : ∀ p, p ≠ cfg.localId → ∀ m ∈ sentBy cfg p (batches p),
    cfg.env.setFromString (cfg.env.setToString m) = some m
  encodable : ∀ p, ∀ b ∈ batches p, ∀ t ∈ b.2, t.Encodable cfg.env.msg

variable {cfg : ProxyServerConfig} {batches : Nat → List (Bytes × List Transaction)}
  {as : List ServerAction} {s : ProxyServer} {p : Nat}

theorem arrivals_arrive (q : Nat) (raw : Bytes) : arrivals p (.arrive q raw :: as) =
    (if q = p then [raw] else []) ++ arrivals p as := by
  unfold arrivals
  rw [List.filterMap_cons]
  by_cases hq : q = p
  · simp only [if_pos hq, List.singleton_append]
  · simp only [if_neg hq, List.nil_append]

theorem brought_cons (a : ServerAction) :
    brought cfg p (a :: as) = broughtBy cfg p a ++ brought cfg p as := rfl

theorem brought_local (h : arrivals cfg.localId as = []) :
    brought cfg cfg.localId as = (localBatches as).map (signedBatch cfg.env) := by
  induction as with
  | nil => rfl
  | cons a as ih =>
      rw [brought_cons]
      cases a with
      | arrive q raw =>
          rw [arrivals_arrive, List.append_eq_nil_iff] at h
          have hq : q ≠ cfg.localId := fun hq => by simp [hq] at h
          rw [broughtBy, if_neg hq, ih h.2]
          rfl
      | batch raw txs =>
          rw [broughtBy, if_pos rfl, ih h]
          rfl
      | _ => exact ih h

theorem brought_remote (hp : cfg.localId ≠ p) :
    brought cfg p as = (arrivals p as).flatMap (messageBatch cfg.env) := by
  induction as with
  | nil => rfl
  | cons a as ih =>
      rw [brought_cons]
      cases a with
      | arrive q raw =>
          rw [broughtBy, arrivals_arrive, List.flatMap_append, ih]
          congr 1
          split
          · exact (List.flatMap_singleton _ _).symm
          · rfl
      | batch raw txs =>
          rw [broughtBy, if_neg hp]
          exact ih
      | _ => exact ih

/-- What comes in for a proxy are batches of its server, each at most once. -/
theorem HonestInputs.brought_sublist (h : HonestInputs cfg batches as) (p : Nat) :
    (brought cfg p as).Sublist ((batches p).map (signedBatch cfg.env)) := by
  by_cases hp : p = cfg.localId
  · subst hp
    rw [brought_local h.noEcho]
    exact h.own.sublist.map _
  · rw [brought_remote (Ne.symm hp)]
    have hparse : ((sentBy cfg p (batches p)).map cfg.env.setToString).flatMap
        (messageBatch cfg.env) = (sentBy cfg p (batches p)).flatMap (setBatch cfg.env) := by
      rw [List.flatMap_map]
      refine List.flatMap_congr fun m hm => ?_
      unfold messageBatch
      rw [h.parse p hp m hm]
    have hsent := setBatch_receiveFromLocalServer { cfg.env with localIp := cfg.ips p }
      { epoch := cfg.startWithEpoch } (h.encodable p)
    exact ((h.remote p hp).sublist.flatMap _).trans (hparse ▸ hsent)

/-! ## Ids -/

/-- The epoch server signs no two batches alike. -/
structure DistinctSignatures (env : ProxyEnv) (batches : Nat → List (Bytes × List Transaction)) :
    Prop where
  within : ∀ p, ((batches p).map fun b => (env.responseFromString b.1).signature).Nodup
  across : ∀ p q, p ≠ q → ∀ b ∈ batches p, ∀ c ∈ batches q,
    (env.responseFromString b.1).signature ≠ (env.responseFromString c.1).signature

/-- The first bytes of the hash tell the pairs of signature and digest in these batches apart. -/
def DistinctIds (env : ProxyEnv) (batches : Nat → List (Bytes × List Transaction)) : Prop :=
  ∀ p q, ∀ b ∈ batches p, ∀ c ∈ batches q, ∀ t ∈ b.2, ∀ u ∈ c.2,
    env.transactionID (env.responseFromString b.1).signature t =
      env.transactionID (env.responseFromString c.1).signature u →
    (env.responseFromString b.1).signature = (env.responseFromString c.1).signature ∧
      t.digest = u.digest

theorem transactionID_congr (env : ProxyEnv) (signature : Bytes) {t u : Transaction}
    (h : t.digest = u.digest) : env.transactionID signature t = env.transactionID signature u := by
  unfold ProxyEnv.transactionID
  rw [show t.transactionPayload.digest = u.transactionPayload.digest from h]

/-- Two transactions of a batch get the same id exactly if they have the same digest. -/
theorem tids_nodup_iff {env : ProxyEnv} {signature : Bytes} {txs : List Transaction}
    (h : ∀ t ∈ txs, ∀ u ∈ txs, env.transactionID signature t = env.transactionID signature u →
      t.digest = u.digest) :
    ((stamped env (signature, txs)).map Transaction.tid).Nodup ↔
      (txs.map Transaction.digest).Nodup := by
  unfold stamped List.Nodup
  rw [List.map_map, List.pairwise_map, List.pairwise_map]
  refine List.Pairwise.iff_of_mem fun {t u} ht hu => not_congr ?_
  exact ⟨h t ht u hu, transactionID_congr env signature⟩

/-- The transactions of all batches of a server have different ids. -/
theorem tids_nodup (hsig : DistinctSignatures cfg.env batches) (hids : DistinctIds cfg.env batches)
    (hdig : ∀ b ∈ batches p, (b.2.map Transaction.digest).Nodup) :
    ((((batches p).map (signedBatch cfg.env)).flatMap (stamped cfg.env)).map
      Transaction.tid).Nodup := by
  rw [List.map_flatMap, List.flatMap_map, List.nodup_flatMap]
  refine ⟨fun b hb => ?_, ?_⟩
  · exact (tids_nodup_iff fun t ht u hu h => (hids p p b hb b hb t ht u hu h).2).mpr (hdig b hb)
  · refine (List.pairwise_map.mp (hsig.within p)).imp_of_mem fun {b c} hb hc hne => ?_
    intro tid htb htc
    obtain ⟨_, hb', rfl⟩ := List.mem_map.mp htb
    obtain ⟨_, hc', heq⟩ := List.mem_map.mp htc
    obtain ⟨t, ht, rfl⟩ := List.mem_map.mp hb'
    obtain ⟨u, hu, rfl⟩ := List.mem_map.mp hc'
    exact hne (hids p p b hb c hc t ht u hu heq.symm).1

/-- What has been handed on for a proxy has come in for it. -/
theorem handledOf_le (h : HonestInputs cfg batches as)
    (hrun : run (ProxyServer.step cfg) (ProxyServer.initial cfg) as = some s) (p : Nat) (e : Nat) :
    (s.core.handledOf cfg.core p e).Subperm
      (((batches p).map (signedBatch cfg.env)).flatMap (stamped cfg.env)) := by
  have hcons := ((inStep_of_run hrun).core.content p).conserved e
  have hhandled : (s.core.handledOf cfg.core p e).Sublist (s.core.proxies p).pushed := by
    have hfilter : (s.core.handledOf cfg.core p e).Sublist
        ((s.core.proxies p).pushed.filter (cfg.core.getEpoch · = e)) := by
      rw [← hcons, List.append_assoc]
      exact List.sublist_append_left _ _
    exact hfilter.trans List.filter_sublist
  have hpushed : (s.core.proxies p).pushed.Subperm
      ((brought cfg p as).flatMap (stamped cfg.env)) := by
    refine Multiset.coe_le.mp (le_trans ?_ (outstanding_le hrun p))
    unfold outstanding
    rw [add_assoc]
    exact Multiset.le_add_right _ _
  exact hhandled.subperm.trans (hpushed.trans ((h.brought_sublist p).flatMap _).subperm)

/-- The id of a transaction that has been handed on. -/
theorem tid_of_handled (h : HonestInputs cfg batches as)
    (hrun : run (ProxyServer.step cfg) (ProxyServer.initial cfg) as = some s)
    {x : Nat × Transaction} (hx : x ∈ s.core.handled) :
    ∃ b ∈ batches x.1, ∃ t ∈ b.2,
      x.2.tid = cfg.env.transactionID (cfg.env.responseFromString b.1).signature t := by
  have hin := (handledOf_le h hrun x.1 x.2.epoch).subset (ProxyState.mem_handledOf.mpr hx)
  obtain ⟨_, hsigned, ht⟩ := List.mem_flatMap.mp hin
  obtain ⟨b, hb, rfl⟩ := List.mem_map.mp hsigned
  obtain ⟨t, ht, htx⟩ := List.mem_map.mp ht
  exact ⟨b, hb, t, ht, by rw [← htx]; rfl⟩

end ProxyServer

open ProxyServer in
/-- No two transactions of an epoch reach the queue under the same id, if no request stands twice in
    a batch. -/
theorem delivered_tids_unique (cfg : ProxyServerConfig) (collectorConfig : Nat → CollectorConfig)
    (users : Nat → List CollectorAction) (collectors : Nat → UserCollector)
    (hcollect : ∀ p, (collectorConfig p).env = { cfg.env with localIp := cfg.ips p } ∧
      run (UserCollector.step (collectorConfig p)) {} (users p) = some (collectors p))
    (hdistinct : ∀ p, Meets (UserCollector.step (collectorConfig p))
      (UserCollector.TakesDistinct (collectorConfig p)) {} (users p))
    (hsig : DistinctSignatures cfg.env fun p => (collectors p).handed)
    (hids : DistinctIds cfg.env fun p => (collectors p).handed)
    (as : List ServerAction) (s : ProxyServer)
    (hinputs : HonestInputs cfg (fun p => (collectors p).handed) as)
    (hrun : run (ProxyServer.step cfg) (ProxyServer.initial cfg) as = some s) (e : Epoch) :
    ((s.core.handled.filter fun x => x.2.epoch = e).map fun x => x.2.tid).Nodup := by
  have hdig := fun p => (UserCollector.distinct_of_run (hcollect p).2 (hdistinct p)).handed
  refine nodup_map_of_classes _ Prod.fst (fun p => ?_) fun x hx y hy hne heq => ?_
  · have hle : Multiset.map Transaction.tid ↑(s.core.handledOf cfg.core p e) ≤ _ :=
      Multiset.map_le_map (Multiset.coe_le.mpr (handledOf_le hinputs hrun p e))
    have hnodup := Multiset.coe_nodup.mp
      (Multiset.nodup_of_le hle (Multiset.coe_nodup.mpr (tids_nodup hsig hids (hdig p))))
    unfold ProxyState.handledOf at hnodup
    rw [List.map_map] at hnodup
    simp only [Bool.decide_and] at hnodup
    rw [List.filter_filter]
    exact hnodup
  · obtain ⟨b, hb, t, ht, hx⟩ := tid_of_handled hinputs hrun (List.mem_of_mem_filter hx)
    obtain ⟨c, hc, u, hu, hy⟩ := tid_of_handled hinputs hrun (List.mem_of_mem_filter hy)
    have hid := hids x.1 y.1 b hb c hc t ht u hu (hx.symm.trans (heq.trans hy))
    exact hsig.across x.1 y.1 hne b hb c hc hid.1

/-! ## Two servers -/

/-- A hash that starts with what is hashed. -/
def paddedSHA256 : SHA256 where
  hash data := (data ++ List.replicate 32 0).take 32
  length_hash data := by
    rw [List.length_take, List.length_append, List.length_replicate]
    unfold sha256HashSize
    omega

/-- Payloads with nothing but a digest. -/
def digestMessages : Messages where
  payloadToString payload := payload.digest
  payloadFromString raw := some { digest := raw }
  rwSetToString _ := []
  rwSetFromString _ := some {}

/-- The transaction for the request `[n]`, in epoch 1. -/
def requested (n : UInt8) : Transaction :=
  { epoch := 1, readOnlyFlag := false, transactionPayload := { digest := [n] } }

/-- The only message: server 1 has one batch, with the request `[1]`. -/
def idsMessage : TransactionsWithProof :=
  { epoch := 1, type := .tx, proof := [4]
    data := [(requested 1).serializeToString paddedSHA256 digestMessages] }

def idsEnv : ProxyEnv where
  sha := paddedSHA256
  msg := digestMessages
  setToString _ := [0]
  setFromString _ := some idsMessage
  responseFromString raw :=
    { epoch := 1, request := { requestBatchSize := 1, batchHash := paddedSHA256.hash [1] }
      signature := raw }
  userVerify _ _ _ := true
  epochServerVerify _ _ := true
  localIp := [0]

def idsConfig : ProxyServerConfig where
  env := idsEnv
  ips p := [UInt8.ofNat p]
  localId := 0
  blkSrvCnt := 2
  startWithEpoch := 1
  eagerSent := true

def idsCollector (p : Nat) : CollectorConfig where
  env := { idsEnv with localIp := idsConfig.ips p }
  requestFromString raw := { payload := raw, digest := raw }
  unparsedPayload _ := {}

/-- The users of server 0 send two requests that come into one batch, and one user of server 1
    sends the request `[1]` as well. -/
def idsUsers (first second : UInt8) : Nat → List CollectorAction
  | 0 => [.collectRequest [first], .collectRequest [second], .processRequest 2, .getReply 0 [3]]
  | 1 => [.collectRequest [1], .processRequest 1, .getReply 0 [4]]
  | _ => []

def idsCollected (first second : UInt8) : Nat → UserCollector
  | 0 => { handed := [([3], [requested first, requested second])] }
  | 1 => { handed := [([4], [requested 1])] }
  | _ => {}

/-- Proxy 1 and then the local proxy push their transactions. -/
def idsActions (first second : UInt8) : List ServerAction :=
  [.arrive 1 [0], .receive 1, .perform 1, .continuePush 1, .continuePush 1, .perform 1,
    .batch [3] [requested first, requested second], .perform 0, .continuePush 0, .continuePush 0,
    .perform 0, .continuePush 0, .continuePush 0]

variable {first second : UInt8}

theorem requested_encodable (n : UInt8) : (requested n).Encodable digestMessages :=
  ⟨(by decide : 0 < 2 ^ 64), (by decide : 1 < 2 ^ 64), by nofun, (by decide : 1 < 2 ^ 31),
    (by decide : 0 < 2 ^ 31), rfl, rfl⟩

/-- The batch of server 0 or that of server 1. -/
theorem mem_idsCollected {p : Nat} {b : Bytes × List Transaction}
    (h : b ∈ (idsCollected first second p).handed) :
    p = 0 ∧ b = ([3], [requested first, requested second]) ∨ p = 1 ∧ b = ([4], [requested 1]) := by
  match p, h with
  | 0, h => exact Or.inl ⟨rfl, List.mem_singleton.mp h⟩
  | 1, h => exact Or.inr ⟨rfl, List.mem_singleton.mp h⟩

open ProxyServer in
theorem idsInputs : HonestInputs idsConfig (fun p => (idsCollected first second p).handed)
    (idsActions first second) := by
  refine ⟨List.prefix_rfl, rfl, fun p hp => ?_, fun p hp m hm => ?_, fun p b hb t ht => ?_⟩
  · match p with
    | 0 => exact absurd rfl hp
    | 1 => exact List.prefix_rfl
    | p + 2 => exact List.nil_prefix
  · match p, hm with
    | 0, _ => exact absurd rfl hp
    | 1, hm =>
        rw [List.mem_singleton.mp hm]
        rfl
  · rcases mem_idsCollected hb with ⟨-, rfl⟩ | ⟨-, rfl⟩
    · rcases List.mem_pair.mp ht with rfl | rfl
      · exact requested_encodable first
      · exact requested_encodable second
    · rw [List.mem_singleton.mp ht]
      exact requested_encodable 1

open ProxyServer in
theorem idsSignatures :
    DistinctSignatures idsEnv fun p => (idsCollected first second p).handed := by
  refine ⟨fun p => ?_, fun p q hpq b hb c hc => ?_⟩
  · match p with
    | 0 => exact List.nodup_singleton _
    | 1 => exact List.nodup_singleton _
    | p + 2 => exact List.nodup_nil
  · rcases mem_idsCollected hb with ⟨rfl, rfl⟩ | ⟨rfl, rfl⟩ <;>
      rcases mem_idsCollected hc with ⟨rfl, rfl⟩ | ⟨rfl, rfl⟩
    · exact absurd rfl hpq
    · exact (by decide : ([3] : Bytes) ≠ [4])
    · exact (by decide : ([4] : Bytes) ≠ [3])
    · exact absurd rfl hpq

theorem idsRun (p : Nat) : (idsCollector p).env = { idsEnv with localIp := idsConfig.ips p } ∧
    run (UserCollector.step (idsCollector p)) {} (idsUsers first second p) =
      some (idsCollected first second p) := by
  refine ⟨rfl, ?_⟩
  match p with
  | 0 => rfl
  | 1 => rfl
  | p + 2 => rfl

open ProxyServer in
theorem idsDistinct (h : ∀ b ∈ [([3], [requested first, requested second]), ([4], [requested 1])],
    ∀ c ∈ [([3], [requested first, requested second]), ([4], [requested 1])],
      ∀ t ∈ b.2, ∀ u ∈ c.2, idsEnv.transactionID b.1 t = idsEnv.transactionID c.1 u →
        b.1 = c.1 ∧ t.digest = u.digest) :
    DistinctIds idsEnv fun p => (idsCollected first second p).handed := by
  have hmem : ∀ p, ∀ b ∈ (idsCollected first second p).handed,
      b ∈ [([3], [requested first, requested second]), ([4], [requested 1])] := by
    intro p b hb
    rcases mem_idsCollected hb with ⟨-, rfl⟩ | ⟨-, rfl⟩
    · exact List.mem_cons_self
    · exact List.mem_cons_of_mem _ List.mem_cons_self
  exact fun p q b hb c hc t ht u hu => h b (hmem p b hb) c (hmem q c hc) t ht u hu

open ProxyServer in
theorem delivered_tids_unique_two :
    (run (ProxyServer.step idsConfig) (ProxyServer.initial idsConfig) (idsActions 1 2)).any
      (fun s => (s.core.handled.map fun x => x.2.tid) = [260, 259, 515] ∧
        ((s.core.handled.filter fun x => x.2.epoch = 1).map fun x => x.2.tid).Nodup) = true := by
  have hids : DistinctIds idsEnv fun p => (idsCollected 1 2 p).handed := idsDistinct (by decide)
  have hrun : (run (ProxyServer.step idsConfig) (ProxyServer.initial idsConfig)
      (idsActions 1 2)).any
        (fun s => (s.core.handled.map fun x => x.2.tid) = [260, 259, 515]) = true := by
    decide +kernel
  obtain ⟨s, hs, htids⟩ := exists_of_any hrun
  have hmeets : ∀ p, Meets (UserCollector.step (idsCollector p))
      (UserCollector.TakesDistinct (idsCollector p)) {} (idsUsers 1 2 p) := by
    intro p
    match p with
    | 0 =>
        refine ⟨trivial, fun _ h => ?_⟩
        cases h
        refine ⟨trivial, fun _ h => ?_⟩
        cases h
        exact ⟨(by decide : ([[1], [2]] : List Bytes).Nodup), fun _ _ =>
          ⟨trivial, fun _ _ => trivial⟩⟩
    | 1 =>
        refine ⟨trivial, fun _ h => ?_⟩
        cases h
        exact ⟨(by decide : ([[1]] : List Bytes).Nodup), fun _ _ =>
          ⟨trivial, fun _ _ => trivial⟩⟩
    | p + 2 => trivial
  have hunique := delivered_tids_unique idsConfig idsCollector (idsUsers 1 2) (idsCollected 1 2)
    idsRun hmeets idsSignatures hids (idsActions 1 2) s idsInputs hs 1
  rw [hs]
  exact decide_eq_true ⟨htids, hunique⟩

open ProxyServer in
/-- The same request twice in a batch. -/
theorem repeated_request_repeats_tid :
    (∀ p, run (UserCollector.step (idsCollector p)) {} (idsUsers 1 1 p) =
      some (idsCollected 1 1 p)) ∧
    (DistinctSignatures idsEnv fun p => (idsCollected 1 1 p).handed) ∧
    (DistinctIds idsEnv fun p => (idsCollected 1 1 p).handed) ∧
    HonestInputs idsConfig (fun p => (idsCollected 1 1 p).handed) (idsActions 1 1) ∧
    (run (ProxyServer.step idsConfig) (ProxyServer.initial idsConfig) (idsActions 1 1)).any
      (fun s => (s.core.handled.map fun x => (x.2.epoch, x.2.tid)) =
        [(1, 260), (1, 259), (1, 259)]) = true :=
  ⟨fun p => (idsRun p).2, idsSignatures, idsDistinct (by decide), idsInputs, by decide +kernel⟩

end NeuChain.Server
