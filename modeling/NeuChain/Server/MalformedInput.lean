/-
  What a peer or a user can do to a server with the bytes they send: which messages make
  `receiveFromOtherServer` fail a `CHECK`, and which requests `processRequest`. A failed `CHECK`
  ends the server; an exception only ends the receiver of this peer.

  * `malformed_input_iff`: the messages and requests that end the server, all of them.
-/
import NeuChain.Server.PayloadSignature

namespace NeuChain.Server

open NeuChain

section

variable (env : ProxyEnv) (ip : Bytes) (st : RemoteState)

/-- The entry at this place decodes, and its user has signed it. -/
def AcceptedAt (data : List Bytes) (i : Nat) : Prop :=
  ∃ t, data[i]?.bind (makeTransaction env) = some t ∧ verifyPayload env ip t = true

/-- A pool worker comes to an entry that does not decode: it has accepted its entries before. -/
def ReachesUndecodable (data : List Bytes) : Prop :=
  ∃ i < data.length, data[i]?.bind (makeTransaction env) = none ∧
    ∀ j < i, j % workerSize = i % workerSize → AcceptedAt env ip data j

/-- A batch that passes all checks and has a transaction of another epoch. What a user signs does
    not include the epoch of the transaction. -/
def HasOtherEpoch (m : TransactionsWithProof) : Prop :=
  ∃ txs : List Transaction, m.data.map (makeTransaction env) = txs.map some ∧
    (∀ t ∈ txs, verifyPayload env ip t = true) ∧
    verifyBatchHash env txs (env.responseFromString m.proof) = true ∧ ∃ t ∈ txs, t.epoch ≠ st.epoch

/-- A message after which the server is not there any more. -/
inductive FatalSet (m : TransactionsWithProof) : Prop
  | proofSet (htype : m.type = .con)
      (h : ¬ (st.epoch = m.epoch ∧ (∀ proof ∈ m.data, proof ∈ st.currentEpochProofSet) ∧
        m.data.length = st.currentEpochProofSet.card))
  | undecodable (htype : m.type ≠ .con)
      (hepoch : st.epoch = (env.responseFromString m.proof).epoch)
      (h : ReachesUndecodable env ip m.data)
  | otherEpoch (htype : m.type ≠ .con)
      (hepoch : st.epoch = (env.responseFromString m.proof).epoch) (h : HasOtherEpoch env ip st m)

/-- Bytes that do not parse are fatal too. -/
def FatalMessage (messageRaw : Bytes) : Prop :=
  ∀ m, env.setFromString messageRaw = some m → FatalSet env ip st m

end

section

variable {env : ProxyEnv} {ip : Bytes} {st : RemoteState} {data : List Bytes}

/-! ## The pool workers -/

/-- A worker whose places are in order fails at the first that does not decode, if it gets there. -/
theorem poolWorker_eq_none {indices : List Nat} (hsorted : indices.Pairwise (· < ·))
    (list : List (Option Transaction)) :
    poolWorker env ip data indices list = none ↔
      ∃ i ∈ indices, data[i]?.bind (makeTransaction env) = none ∧
        ∀ j ∈ indices, j < i → AcceptedAt env ip data j := by
  induction indices generalizing list with
  | nil => simp [poolWorker]
  | cons k indices ih =>
      obtain ⟨hleast, hsorted⟩ := List.pairwise_cons.mp hsorted
      rw [poolWorker]
      cases hk : data[k]?.bind (makeTransaction env) with
      | none =>
          refine ⟨fun _ => ⟨k, List.mem_cons_self, hk, fun j hj hlt => ?_⟩, fun _ => rfl⟩
          rcases List.mem_cons.mp hj with rfl | hj
          · exact absurd hlt (Nat.lt_irrefl _)
          · exact absurd hlt (Nat.lt_asymm (hleast j hj))
      | some t =>
          rw [Option.bind_some]
          by_cases hverify : verifyPayload env ip t = true
          · rw [if_pos hverify, ih hsorted]
            constructor
            · rintro ⟨i, hi, hnone, hbefore⟩
              refine ⟨i, List.mem_cons_of_mem k hi, hnone, fun j hj hlt => ?_⟩
              rcases List.mem_cons.mp hj with rfl | hj
              · exact ⟨t, hk, hverify⟩
              · exact hbefore j hj hlt
            · rintro ⟨i, hi, hnone, hbefore⟩
              rcases List.mem_cons.mp hi with rfl | hi
              · rw [hk] at hnone
                cases hnone
              · exact ⟨i, hi, hnone, fun j hj => hbefore j (List.mem_cons_of_mem k hj)⟩
          · rw [if_neg hverify]
            constructor
            · intro hnone
              cases hnone
            rintro ⟨i, hi, hnone, hbefore⟩
            rcases List.mem_cons.mp hi with rfl | hi
            · rw [hk] at hnone
              cases hnone
            · obtain ⟨t', ht', hv'⟩ := hbefore k List.mem_cons_self (hleast i hi)
              rw [hk] at ht'
              cases ht'
              exact absurd hv' hverify

theorem acceptedAt_of_poolWorker {indices : List Nat} {list list' : List (Option Transaction)}
    (h : poolWorker env ip data indices list = some (true, list')) :
    ∀ i ∈ indices, AcceptedAt env ip data i := by
  induction indices generalizing list with
  | nil => simp
  | cons k indices ih =>
      obtain ⟨t, ht, hrest⟩ := Option.bind_eq_some_iff.mp h
      split at hrest
      · rename_i hverify
        exact List.forall_mem_cons.mpr ⟨⟨t, ht, hverify⟩, ih hrest⟩
      · cases hrest

theorem mem_workerIndices_iff {w n i : Nat} :
    i ∈ workerIndices w n ↔ i < n ∧ i % workerSize = w := by
  simp [workerIndices]

theorem workerIndices_sorted (w n : Nat) : (workerIndices w n).Pairwise (· < ·) :=
  List.pairwise_lt_range.filter _

/-- The worker with this id comes to an entry that does not decode. -/
def WorkerFails (env : ProxyEnv) (ip : Bytes) (data : List Bytes) (workerId : Nat) : Prop :=
  ∃ i < data.length, i % workerSize = workerId ∧ data[i]?.bind (makeTransaction env) = none ∧
    ∀ j < i, j % workerSize = workerId → AcceptedAt env ip data j

theorem poolWorker_eq_none_iff {workerId : Nat} (list : List (Option Transaction)) :
    poolWorker env ip data (workerIndices workerId data.length) list = none ↔
      WorkerFails env ip data workerId := by
  rw [poolWorker_eq_none (workerIndices_sorted workerId _)]
  simp only [mem_workerIndices_iff]
  constructor
  · rintro ⟨i, ⟨hi, hw⟩, hnone, hbefore⟩
    exact ⟨i, hi, hw, hnone, fun j hj hjw => hbefore j ⟨Nat.lt_trans hj hi, hjw⟩ hj⟩
  · rintro ⟨i, hi, hw, hnone, hbefore⟩
    exact ⟨i, ⟨hi, hw⟩, hnone, fun j hj hlt => hbefore j hlt hj.2⟩

theorem reachesUndecodable_iff : ReachesUndecodable env ip data ↔
    WorkerFails env ip data 0 ∨ WorkerFails env ip data 1 := by
  constructor
  · rintro ⟨i, hi, hnone, hbefore⟩
    have hmod : i % workerSize = 0 ∨ i % workerSize = 1 := Nat.mod_two_eq_zero_or_one i
    rcases hmod with hw | hw
    · exact .inl ⟨i, hi, hw, hnone, fun j hj hjw => hbefore j hj (hjw.trans hw.symm)⟩
    · exact .inr ⟨i, hi, hw, hnone, fun j hj hjw => hbefore j hj (hjw.trans hw.symm)⟩
  · rintro (⟨i, hi, hw, hnone, hbefore⟩ | ⟨i, hi, hw, hnone, hbefore⟩)
    · exact ⟨i, hi, hnone, fun j hj hji => hbefore j hj (hji.trans hw)⟩
    · exact ⟨i, hi, hnone, fun j hj hji => hbefore j hj (hji.trans hw)⟩

theorem deserializeBatch_eq_none :
    deserializeBatch env ip data = none ↔ ReachesUndecodable env ip data := by
  rw [reachesUndecodable_iff, ← poolWorker_eq_none_iff (List.replicate data.length none)]
  unfold deserializeBatch
  cases poolWorker env ip data (workerIndices 0 data.length) (List.replicate data.length none) with
  | none => simp
  | some r =>
      rw [Option.bind_some, Option.map_eq_none_iff, poolWorker_eq_none_iff]
      simp

theorem exists_map_some {α β : Type} {f : α → Option β} {P : β → Prop} {l : List α}
    (h : ∀ a ∈ l, ∃ b, f a = some b ∧ P b) :
    ∃ bs : List β, l.map f = bs.map some ∧ ∀ b ∈ bs, P b := by
  induction l with
  | nil => exact ⟨[], rfl, by simp⟩
  | cons a l ih =>
      obtain ⟨b, hb, hP⟩ := h a List.mem_cons_self
      obtain ⟨bs, hbs, hall⟩ := ih fun a' ha' => h a' (List.mem_cons_of_mem a ha')
      refine ⟨b :: bs, ?_, List.forall_mem_cons.mpr ⟨hP, hall⟩⟩
      rw [List.map_cons, List.map_cons, hb, hbs]

/-- If both workers get through, every entry decodes and is signed. -/
theorem deserializeBatch_true {list : List (Option Transaction)}
    (h : deserializeBatch env ip data = some (true, list)) :
    ∃ txs : List Transaction, data.map (makeTransaction env) = txs.map some ∧
      (∀ t ∈ txs, verifyPayload env ip t = true) ∧ list = txs.map some := by
  obtain ⟨⟨valid, list₀⟩, h₀, hrest⟩ := Option.bind_eq_some_iff.mp h
  obtain ⟨⟨valid', list₁⟩, h₁, hpair⟩ := Option.map_eq_some_iff.mp hrest
  obtain ⟨hvalid, -⟩ := Prod.mk.inj hpair
  obtain ⟨rfl, rfl⟩ := Bool.and_eq_true_iff.mp hvalid
  have haccepted : ∀ raw ∈ data, ∃ t, makeTransaction env raw = some t ∧
      verifyPayload env ip t = true := by
    intro raw hraw
    obtain ⟨i, hi, rfl⟩ := List.getElem_of_mem hraw
    have hat : AcceptedAt env ip data i := by
      rcases mem_workerIndices hi with hw | hw
      · exact acceptedAt_of_poolWorker h₀ i hw
      · exact acceptedAt_of_poolWorker h₁ i hw
    obtain ⟨t, ht, hverify⟩ := hat
    rw [List.getElem?_eq_getElem hi] at ht
    exact ⟨t, ht, hverify⟩
  obtain ⟨txs, hdec, hsig⟩ := exists_map_some haccepted
  rw [deserializeBatch_eq hdec hsig] at h
  cases h
  exact ⟨txs, hdec, hsig, rfl⟩

/-! ## Messages -/

theorem hasOtherEpoch_iff {m : TransactionsWithProof} {txs : List Transaction}
    (hdec : m.data.map (makeTransaction env) = txs.map some)
    (hsig : ∀ t ∈ txs, verifyPayload env ip t = true) :
    HasOtherEpoch env ip st m ↔ verifyBatchHash env txs (env.responseFromString m.proof) = true ∧
      ∃ t ∈ txs, t.epoch ≠ st.epoch := by
  constructor
  · rintro ⟨txs', hdec', -, hrest⟩
    rw [hdec] at hdec'
    rw [List.map_injective_iff.mpr (Option.some_injective _) hdec']
    exact hrest
  · intro hrest
    exact ⟨txs, hdec, hsig, hrest⟩

/-- A batch of the epoch after it has been decoded. -/
theorem receiveDecoded_checkFailed {m : TransactionsWithProof} {txs : List Transaction}
    (hepoch : st.epoch = (env.responseFromString m.proof).epoch)
    (hdec : m.data.map (makeTransaction env) = txs.map some)
    (hsig : ∀ t ∈ txs, verifyPayload env ip t = true) :
    (receiveTransactionSet env ip st m).2 = .checkFailed ↔ HasOtherEpoch env ip st m := by
  have hpush : (pushRemote env st.epoch (env.responseFromString m.proof).signature txs).2 = false ↔
      ∃ t ∈ txs, t.epoch ≠ st.epoch := by
    simp [pushRemote_eq]
  rw [hasOtherEpoch_iff hdec hsig, ← hpush]
  unfold receiveTransactionSet
  dsimp only
  rw [if_neg (not_not.mpr hepoch), deserializeBatch_eq hdec hsig]
  dsimp only
  rw [mapM_id_map_some]
  dsimp only
  by_cases hverify : verifyBatchHash env txs (env.responseFromString m.proof) = true
  · rw [if_pos hverify]
    split <;> rename_i heq <;> simp [heq, hverify]
  · rw [if_neg hverify]
    simp [hverify]

theorem receiveTransactionSet_checkFailed (m : TransactionsWithProof) :
    (receiveTransactionSet env ip st m).2 = .checkFailed ↔
      st.epoch = (env.responseFromString m.proof).epoch ∧
        (ReachesUndecodable env ip m.data ∨ HasOtherEpoch env ip st m) := by
  by_cases hepoch : st.epoch = (env.responseFromString m.proof).epoch
  · rw [← deserializeBatch_eq_none, and_iff_right hepoch]
    cases hbatch : deserializeBatch env ip m.data with
    | none =>
        unfold receiveTransactionSet
        dsimp only
        rw [if_neg (not_not.mpr hepoch), hbatch]
        simp
    | some r =>
        obtain ⟨valid, list⟩ := r
        rw [or_iff_right (by simp)]
        cases valid with
        | true =>
            obtain ⟨txs, hdec, hsig, -⟩ := deserializeBatch_true hbatch
            exact receiveDecoded_checkFailed hepoch hdec hsig
        | false =>
            -- a batch of another epoch would have been decoded
            have hnot : ¬ HasOtherEpoch env ip st m := by
              rintro ⟨txs, hdec, hsig, -⟩
              rw [deserializeBatch_eq hdec hsig] at hbatch
              cases hbatch
            unfold receiveTransactionSet
            dsimp only
            rw [if_neg (not_not.mpr hepoch), hbatch]
            simp [hnot]
  · unfold receiveTransactionSet
    dsimp only
    rw [if_pos hepoch]
    simp [hepoch]

theorem receiveProofSet_checkFailed (m : TransactionsWithProof) :
    (receiveProofSet st m).2 = .checkFailed ↔
      ¬ (st.epoch = m.epoch ∧ (∀ proof ∈ m.data, proof ∈ st.currentEpochProofSet) ∧
        m.data.length = st.currentEpochProofSet.card) := by
  unfold receiveProofSet
  split
  · rename_i hends
    exact iff_of_false RemoteStatus.noConfusion (not_not.mpr hends)
  · rename_i hnot
    exact iff_of_true rfl hnot

theorem receiveMessage_checkFailed (raw : Bytes) :
    (receiveMessage env ip st raw).2 = .checkFailed ↔ FatalMessage env ip st raw := by
  unfold receiveMessage FatalMessage
  cases env.setFromString raw with
  | none => simp
  | some m =>
      simp only [Option.some.injEq, forall_eq']
      by_cases htype : m.type = .con
      · rw [if_pos htype, receiveProofSet_checkFailed]
        constructor
        · exact .proofSet htype
        · intro h
          cases h with
          | proofSet _ hnot => exact hnot
          | undecodable hne => exact absurd htype hne
          | otherEpoch hne => exact absurd htype hne
      · rw [if_neg htype, receiveTransactionSet_checkFailed]
        constructor
        · rintro ⟨hepoch, hundec | hother⟩
          · exact .undecodable htype hepoch hundec
          · exact .otherEpoch htype hepoch hother
        · intro h
          cases h with
          | proofSet hcon => exact absurd hcon htype
          | undecodable _ hepoch hundec => exact ⟨hepoch, .inl hundec⟩
          | otherEpoch _ hepoch hother => exact ⟨hepoch, .inr hother⟩

/-! ## Requests -/

theorem makeTransaction_eq_none {cfg : CollectorConfig} {raw : Bytes} :
    UserCollector.makeTransaction cfg raw = none ↔
      cfg.env.userVerify cfg.env.localIp (cfg.requestFromString raw).payload
        (cfg.requestFromString raw).digest = false := by
  unfold UserCollector.makeTransaction
  dsimp only
  split <;> simp_all

theorem mapM_eq_none {α β : Type} {f : α → Option β} {l : List α} :
    l.mapM f = none ↔ ∃ a ∈ l, f a = none := by
  induction l with
  | nil => simp
  | cons a l ih =>
      rw [List.mapM_cons]
      cases ha : f a with
      | none => simp [ha]
      | some b =>
          cases hl : l.mapM f with
          | none => simpa [ha] using ih.mp hl
          | some bs =>
              rw [hl] at ih
              simpa [ha] using ih

theorem processRequest_aborted {cfg : CollectorConfig} {c : UserCollector} {requestSize : Nat} :
    (c.processRequest cfg requestSize).aborted = true ↔ c.aborted = true ∨
      ∃ raw ∈ c.requestBuffer.take requestSize,
        cfg.env.userVerify cfg.env.localIp (cfg.requestFromString raw).payload
          (cfg.requestFromString raw).digest = false := by
  have hnone := @mapM_eq_none _ _ (UserCollector.makeTransaction cfg)
    (c.requestBuffer.take requestSize)
  simp only [makeTransaction_eq_none] at hnone
  rw [← hnone]
  unfold UserCollector.processRequest
  split <;> rename_i heq <;> simp [heq]

/-- The bytes that end the server: for the receiver, in any state, messages that do not parse, a
    set of proofs that is not the one the receiver has, a batch with an entry that does not decode
    where a worker comes to it, and a batch that is all right but for the epoch of a transaction; for
    the collector, requests with a wrong signature. All others are processed, or end the receiver by
    an exception. -/
theorem malformed_input_iff (env : ProxyEnv) (ip : Bytes) (st : RemoteState) (messageRaw : Bytes)
    (cfg : CollectorConfig) (c : UserCollector) (requestSize : Nat) :
    ((receiveMessage env ip st messageRaw).2 = .checkFailed ↔ FatalMessage env ip st messageRaw) ∧
      ((c.processRequest cfg requestSize).aborted = true ↔ c.aborted = true ∨
        ∃ raw ∈ c.requestBuffer.take requestSize,
          cfg.env.userVerify cfg.env.localIp (cfg.requestFromString raw).payload
            (cfg.requestFromString raw).digest = false) :=
  ⟨receiveMessage_checkFailed messageRaw, processRequest_aborted⟩

end

/-- A signed transaction. -/
def signedTransaction : Transaction :=
  { readOnlyFlag := false
    transactionPayload := { header := [7], nonce := 1, digest := [10, 1, 7, 24, 1] } }

/-- Four messages of a faulty peer: one that does not parse, the end of an epoch that is not the
    current one, a batch with an empty entry, and a verified batch with a transaction of epoch 2. -/
def faultyEnv : ProxyEnv :=
  { plainEnv [] with
    setFromString := fun raw =>
      if raw = [0] then none
      else if raw = [1] then some { epoch := 2, type := .con }
      else if raw = [2] then some { epoch := 1, type := .tx, data := [[]] }
      else some { epoch := 1, type := .tx, data := [forward (plainEnv []) 2 signedTransaction] } }

/-- The requests of a user who does not sign. -/
def unsignedConfig : CollectorConfig :=
  { plainConfig with requestFromString := fun raw => { payload := raw } }

theorem malformed_input_ends_server :
    (∀ raw ∈ [[0], [1], [2], [3]],
      (receiveMessage faultyEnv [] { epoch := 1 } raw).2 = .checkFailed) ∧
      (UserCollector.processRequest unsignedConfig { requestBuffer := [[10, 1, 7]] } 1).aborted =
        true := by
  decide +kernel

end NeuChain.Server
