/-
  `MockTransaction::deserializeFromString` as a method: it fills in an object that exists, field by
  field, and leaves the rest as it was when it fails.

  * `codec_round_trip`: both encodings come back, whatever the object held before.
-/
import NeuChain.CodecAcceptance
import NeuChain.PayloadFormat
import NeuChain.RWSetFormat
import NeuChain.Server.BlockQuery

namespace NeuChain

/-- `ParseFromString` clears a message before it reads, so nothing of the object's own shows
    through. -/
def Transaction.deserializeFromString (msg : Messages) (raw : Bytes) :
    ExceptT DecodeFailure (StateM Transaction) Unit := do
  let (tid, bs) ← readVarint64 raw
  modify fun t => { t with tid := tid }
  let (epoch, bs) ← readVarint64 bs
  modify fun t => { t with epoch := epoch }
  let (flag, bs) ← readVarint32 bs
  modify fun t => { t with readOnlyFlag := flag != 0 }
  let (payloadSize, bs) ← readVarint64 bs
  let (payloadString, bs) ← readString payloadSize bs
  let payload ← checkParse (msg.payloadFromString payloadString)
  modify fun t => { t with transactionPayload := payload }
  let (rwSetSize, bs) ← readVarint64 bs
  let (rwSetString, bs) ← readString rwSetSize bs
  let rwSet ← checkParse (msg.rwSetFromString rwSetString)
  modify fun t => { t with kvRWSet := rwSet }
  let (result, bs) ← readVarint32 bs
  modify fun t => { t with transactionResult := TransactionResult.ofNat result }
  let _ ← readString sha256HashSize bs

section

variable {sha : SHA256} {msg : Messages} {raw : Bytes} {t : Transaction}

section

variable {α β : Type}

theorem run_read {x : Except DecodeFailure α} {a : α} (hx : x = .ok a)
    (f : α → ExceptT DecodeFailure (StateM Transaction) β) (t : Transaction) :
    ((liftM x : ExceptT DecodeFailure (StateM Transaction) α) >>= f).run t = (f a).run t := by
  rw [hx]
  rfl

theorem run_set (g : Transaction → Transaction)
    (f : PUnit → ExceptT DecodeFailure (StateM Transaction) β) (t : Transaction) :
    ((modify g : ExceptT DecodeFailure (StateM Transaction) PUnit) >>= f).run t =
      (f ⟨⟩).run (g t) := rfl

end

/-- When it succeeds, every field has been set. -/
theorem deserializeFromString_run (t₀ : Transaction)
    (h : NeuChain.deserializeFromString msg raw = .ok t) :
    (Transaction.deserializeFromString msg raw).run t₀ = (.ok (), t) := by
  obtain ⟨tid, epoch, flag, payloadSize, payloadString, payload, rwSetSize, rwSetString, rwSet,
    result, hash, bs₁, bs₂, bs₃, bs₄, bs₅, bs₆, bs₇, bs₈, bs₉, h₁, h₂, h₃, h₄, h₅, hpayload, h₆, h₇,
    hrwSet, h₈, h₉, rfl⟩ := reads_of_deserialize h
  unfold Transaction.deserializeFromString
  simp only [run_read h₁, run_read h₂, run_read h₃, run_read h₄, run_read h₅, run_read hpayload,
    run_read h₆, run_read h₇, run_read hrwSet, run_read h₈, run_read h₉, run_set]
  rfl

/-- An encoding that fits into an `int` has messages that do. -/
theorem encodable_of_length (htid : t.tid < 2 ^ 64) (hepoch : t.epoch < 2 ^ 64)
    (hresult : t.transactionResult.Named) (hlen : (t.serializeToString sha msg).length < 2 ^ 31)
    (hpayload : msg.payloadFromString (msg.payloadToString t.transactionPayload) =
      some t.transactionPayload)
    (hrwSet : msg.rwSetFromString (msg.rwSetToString t.kvRWSet) = some t.kvRWSet) :
    t.Encodable msg := by
  simp only [Transaction.serializeToString, Transaction.fields, writeSized,
    List.length_append] at hlen
  exact ⟨htid, hepoch, hresult, by omega, by omega, hpayload, hrwSet⟩

/-- What is written is read back, into any object. -/
theorem codec_round_trip (sha : SHA256) (msg : Messages) (t₀ : Transaction)
    (htid : t.tid < 2 ^ 64) (hepoch : t.epoch < 2 ^ 64) (hresult : t.transactionResult.Named) :
    ((t.serializeToString sha msg).length < 2 ^ 31 →
      msg.payloadFromString (msg.payloadToString t.transactionPayload) =
        some t.transactionPayload →
      msg.rwSetFromString (msg.rwSetToString t.kvRWSet) = some t.kvRWSet →
      (Transaction.deserializeFromString msg (t.serializeToString sha msg)).run t₀ = (.ok (), t)) ∧
    (t.serializeResultToString.length < 2 ^ 31 →
      deserializeResultFromString t₀ t.serializeResultToString =
        (true, { t₀ with
          tid := t.tid
          epoch := t.epoch
          transactionPayload :=
            { t₀.transactionPayload with digest := t.transactionPayload.digest }
          transactionResult := t.transactionResult })) := by
  constructor
  · intro hlen hpayload hrwSet
    have hencodable := encodable_of_length htid hepoch hresult hlen hpayload hrwSet
    exact deserializeFromString_run t₀ (deserialize_serialize sha hencodable)
  · intro hlen
    rw [deserializeResult_serializeResult t₀ hresult hlen, Nat.mod_eq_of_lt htid,
      Nat.mod_eq_of_lt hepoch]

end

/-- The messages as protobuf writes them. -/
def Messages.protobuf : Messages where
  payloadToString := TransactionPayload.serializeAsString
  payloadFromString := TransactionPayload.parseFromString
  rwSetToString := KVRWSet.serializeAsString
  rwSetFromString raw :=
    if (KVRWSet.parseFromString raw).1 then some (KVRWSet.parseFromString raw).2 else none

/-- A transfer of a later epoch, with ids of more than one byte. -/
def filledTransaction : Transaction where
  epoch := 70000
  tid := 2 ^ 40 + 3
  readOnlyFlag := false
  transactionPayload :=
    { header := Lib.ascii "sendPayment", payload := Lib.ascii "17,42,500", nonce := 123456789
      digest := List.replicate 32 171 }
  kvRWSet :=
    { reads := [{ table := Lib.ascii "saving", key := Lib.ascii "17", value := Lib.ascii "900" }]
      writes := [{ table := Lib.ascii "saving", key := Lib.ascii "17", value := Lib.ascii "400" }] }
  transactionResult := .commit

/-- The object held another transaction before. -/
theorem codec_round_trip_first :
    (Transaction.deserializeFromString .protobuf
        (filledTransaction.serializeToString firstSHA256 .protobuf)).run
          { epoch := 9, tid := 2 ^ 64 - 1, kvRWSet := { reads := [⟨[1], [2], [3]⟩] } } =
        (.ok (), filledTransaction) ∧
      deserializeResultFromString {} filledTransaction.serializeResultToString =
        (true, { tid := 2 ^ 40 + 3, epoch := 70000
                 transactionPayload := { digest := List.replicate 32 171 }
                 transactionResult := .commit }) := by
  have hresult : filledTransaction.transactionResult.Named := by
    simp [TransactionResult.Named, filledTransaction]
  have hround := codec_round_trip firstSHA256 .protobuf
    { epoch := 9, tid := 2 ^ 64 - 1, kvRWSet := { reads := [⟨[1], [2], [3]⟩] } }
    (show filledTransaction.tid < 2 ^ 64 by decide) (by decide) hresult
  refine ⟨hround.1 (by decide +kernel) (by decide +kernel) (by decide +kernel), ?_⟩
  exact (codec_round_trip firstSHA256 .protobuf {} (by decide) (by decide) hresult).2
    (by decide +kernel)

end NeuChain
