/-
  A user request is checked twice: by the server that gets it, over the bytes of the payload as the
  user has sent them (`UserCollector::processRequest`), and by the servers it is forwarded to,
  over the payload parsed, without its digest and serialized again (`receiveFromOtherServer`).

  A user may encode a payload in many ways, of which `SerializeAsString` writes one.

  * `forwarded_check_iff`: of the requests a server accepts, the other servers accept exactly those
    which are encoded as `SerializeAsString` does it, without a digest.
-/
import NeuChain.PayloadFormat
import NeuChain.Server.ProxyReplay
import NeuChain.Server.UserCollector

namespace NeuChain.Server

open NeuChain

/-- protobuf: payloads, and the empty read and write set a request starts with. -/
structure WireMessages (msg : Messages) : Prop where
  payloadToString : msg.payloadToString = TransactionPayload.serializeAsString
  payloadFromString : msg.payloadFromString = TransactionPayload.parseFromString
  rwSetToString : msg.rwSetToString {} = []
  rwSetFromString : msg.rwSetFromString [] = some {}

/-- What goes to the other servers for a transaction of the collector, once it has got its epoch. -/
def forward (env : ProxyEnv) (epoch : Epoch) (t : Transaction) : Bytes :=
  (t.setEpoch epoch).serializeToString env.sha env.msg

section

variable {cfg : CollectorConfig} {remote : ProxyEnv} {raw : Bytes} {t : Transaction}
  {p : TransactionPayload} {epoch : Epoch}

theorem makeTransaction_spec (haccept : UserCollector.makeTransaction cfg raw = some t)
    (hparse : cfg.env.msg.payloadFromString (cfg.requestFromString raw).payload = some p) :
    cfg.env.userVerify cfg.env.localIp (cfg.requestFromString raw).payload
        (cfg.requestFromString raw).digest = true ∧
      t = { readOnlyFlag := false
            transactionPayload := { p with digest := (cfg.requestFromString raw).digest } } := by
  unfold UserCollector.makeTransaction at haccept
  dsimp only at haccept
  rw [hparse] at haccept
  split at haccept
  · rename_i hverify
    cases haccept
    exact ⟨hverify, rfl⟩
  · cases haccept

/-- A transaction with nothing in it but its payload. -/
theorem encodable_of_payload {msg : Messages} (hmsg : WireMessages msg) (hepoch : epoch < 2 ^ 64)
    (hsize : p.serializeAsString.length < 2 ^ 31) :
    Transaction.Encodable msg
      { epoch := epoch, readOnlyFlag := false, transactionPayload := p } where
  tid := Nat.two_pow_pos 64
  epoch := hepoch
  result _ := TransactionResult.noConfusion
  payloadSize := by
    rw [hmsg.payloadToString]
    exact hsize
  rwSetSize := by
    rw [hmsg.rwSetToString]
    exact Nat.two_pow_pos 31
  payload := by
    rw [hmsg.payloadToString, hmsg.payloadFromString]
    exact TransactionPayload.parse_serialize hsize
  rwSet := by rw [hmsg.rwSetToString, hmsg.rwSetFromString]

/-- A transaction of the collector is the same on the other servers. -/
theorem makeTransaction_forward (hmsg : WireMessages cfg.env.msg)
    (hremote : remote.msg = cfg.env.msg) (haccept : UserCollector.makeTransaction cfg raw = some t)
    (hparse : cfg.env.msg.payloadFromString (cfg.requestFromString raw).payload = some p)
    (hepoch : epoch < 2 ^ 64) (hsize : t.transactionPayload.serializeAsString.length < 2 ^ 31) :
    makeTransaction remote (forward cfg.env epoch t) = some (t.setEpoch epoch) := by
  obtain ⟨-, rfl⟩ := makeTransaction_spec haccept hparse
  have henc := encodable_of_payload hmsg hepoch hsize
  unfold makeTransaction
  rw [hremote]
  exact @makeTransaction_serialize cfg.env _ henc

/-- A request that a server accepts and whose payload parses becomes a transaction that the
    other servers decode. It passes their check exactly if the user's bytes are those of the payload
    serialized without a digest. A signature is taken to verify one message only, and
    protobuf to write no message of 2 GiB. -/
theorem forwarded_check_iff (hmsg : WireMessages cfg.env.msg) (hremote : remote.msg = cfg.env.msg)
    (hkeys : remote.userVerify = cfg.env.userVerify)
    (hrsa : ∀ m m' signature, cfg.env.userVerify cfg.env.localIp m signature = true →
      cfg.env.userVerify cfg.env.localIp m' signature = true → m = m')
    (haccept : UserCollector.makeTransaction cfg raw = some t)
    (hparse : cfg.env.msg.payloadFromString (cfg.requestFromString raw).payload = some p)
    (hepoch : epoch < 2 ^ 64) (hsize : t.transactionPayload.serializeAsString.length < 2 ^ 31) :
    ∃ t', makeTransaction remote (forward cfg.env epoch t) = some t' ∧
      (verifyPayload remote cfg.env.localIp t' = true ↔
        (cfg.requestFromString raw).payload = p.clearDigest.serializeAsString) := by
  refine ⟨_, makeTransaction_forward hmsg hremote haccept hparse hepoch hsize, ?_⟩
  obtain ⟨hverify, rfl⟩ := makeTransaction_spec haccept hparse
  unfold verifyPayload
  rw [hkeys, hremote, hmsg.payloadToString]
  constructor
  · intro hcheck
    exact hrsa _ _ _ hverify hcheck
  · intro heq
    rw [heq] at hverify
    exact hverify

end

def wireMessages : Messages where
  payloadToString := TransactionPayload.serializeAsString
  payloadFromString := TransactionPayload.parseFromString
  rwSetToString _ := []
  rwSetFromString _ := some {}

theorem wireMessages_spec : WireMessages wireMessages := ⟨rfl, rfl, rfl, rfl⟩

/-- A user signs a message with the message itself. The other servers get one batch of epoch 1. -/
def plainEnv (data : List Bytes) : ProxyEnv where
  sha := sampleSHA256
  msg := wireMessages
  setToString _ := []
  setFromString _ := some { epoch := 1, type := .tx, data := data }
  responseFromString _ :=
    { epoch := 1, request := { requestBatchSize := 1, batchHash := List.replicate 32 0 } }
  userVerify _ message signature := message == signature
  epochServerVerify _ _ := true
  localIp := []

def plainConfig : CollectorConfig where
  env := plainEnv []
  requestFromString raw := { payload := raw, digest := raw }
  unparsedPayload _ := {}

/-- Header and nonce, in this order. -/
theorem forwarded_check_canonical :
    ∃ t t', UserCollector.makeTransaction plainConfig [10, 1, 7, 24, 1] = some t ∧
      makeTransaction (plainEnv []) (forward plainConfig.env 1 t) = some t' ∧
      verifyPayload (plainEnv []) [] t' = true := by
  have hrsa : ∀ m m' signature : Bytes, (m == signature) = true → (m' == signature) = true →
      m = m' := fun _ _ _ h h' => (beq_iff_eq.mp h).trans (beq_iff_eq.mp h').symm
  have hparse : TransactionPayload.parseFromString [10, 1, 7, 24, 1] =
      some { header := [7], nonce := 1 } := by decide +kernel
  have hsize : (TransactionPayload.serializeAsString
      { header := [7], nonce := 1, digest := [10, 1, 7, 24, 1] }).length < 2 ^ 31 := by
    decide +kernel
  have hepoch : (1 : Epoch) < 2 ^ 64 := by decide
  have haccept : UserCollector.makeTransaction plainConfig [10, 1, 7, 24, 1] =
      some { readOnlyFlag := false
             transactionPayload :=
               { header := [7], nonce := 1, digest := [10, 1, 7, 24, 1] } } := by
    decide +kernel
  obtain ⟨t', hmake, hcheck⟩ := forwarded_check_iff wireMessages_spec
    (show (plainEnv []).msg = plainConfig.env.msg from rfl) rfl hrsa haccept hparse hepoch hsize
  exact ⟨_, t', haccept, hmake, hcheck.mpr (by decide +kernel)⟩

/-- The nonce before the header, a nonce sent twice, and a digest in the payload: the requests are
    accepted, their payloads parse, and the server that forwards them is malicious to the others. -/
theorem accepted_then_malicious :
    [[24, 1, 10, 1, 7], [24, 1, 24, 2], [10, 1, 7, 34, 1, 9]].map (fun raw : Bytes =>
      ((TransactionPayload.parseFromString raw).isSome,
        (UserCollector.makeTransaction plainConfig raw).map fun t =>
          (receiveMessage (plainEnv [forward plainConfig.env 1 t]) [] { epoch := 1 } []).2)) =
      List.replicate 3 (true, some (.maliciousClientProxy 1)) := by
  decide +kernel

end NeuChain.Server
