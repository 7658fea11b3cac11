/-
  `MockTransaction::serializeToString` and its reverse, and the short form
  `serializeResultToString` used for early responses.

  The fields are written with protobuf's `CodedOutputStream`: varints, and strings with their
  size in front. SHA-256 is a parameter of which only the digest size is used, and so are the
  generated protobuf classes of the two messages inside (`Messages`).

  `CodedInputStream` is read as its documentation has it: a varint of more than ten bytes is
  an error and higher bits are dropped; `ReadString` takes an `int`, so a size is cut to 32 bits
  and refused when that is negative or more than what is left. An input of 2^31 bytes or
  more, whose size `ArrayInputStream` cannot hold, is outside the model.

  * `deserialize_serialize`: a transaction whose messages parse back comes back.
-/
import NeuChain.Types
import NeuChain.Lib.Varint

namespace NeuChain

open NeuChain.Lib

/-- `SHA256HashSize`, and `HASH_LENGTH` of the Merkle tree. -/
def sha256HashSize : Nat := 32

/-- `SHA256Helper`, as a function. -/
structure SHA256 where
  hash : Bytes → Bytes
  length_hash : ∀ data, (hash data).length = sha256HashSize

/-- `SerializeAsString` and `ParseFromString` of the messages a transaction holds. -/
structure Messages where
  payloadToString : TransactionPayload → Bytes
  payloadFromString : Bytes → Option TransactionPayload
  rwSetToString : KVRWSet → Bytes
  rwSetFromString : Bytes → Option KVRWSet

/-! ## Writing -/

def writeVarint64 (v : Nat) : Bytes := writeVarint (v % 2 ^ 64)

def writeVarint32 (v : Nat) : Bytes := writeVarint (v % 2 ^ 32)

/-- A string with its size in front. -/
def writeSized (data : Bytes) : Bytes := writeVarint64 data.length ++ data

/-- What `serializeToString` writes before the hash. -/
def Transaction.fields (msg : Messages) (t : Transaction) : Bytes :=
  writeVarint64 t.tid ++ (writeVarint64 t.epoch ++ (writeVarint32 t.readOnlyFlag.toNat ++
    (writeSized (msg.payloadToString t.transactionPayload) ++
      (writeSized (msg.rwSetToString t.kvRWSet) ++ writeVarint32 t.transactionResult.toNat))))

def Transaction.serializeToString (sha : SHA256) (msg : Messages) (t : Transaction) : Bytes :=
  t.fields msg ++ sha.hash (t.fields msg)

def Transaction.serializeResultToString (t : Transaction) : Bytes :=
  writeVarint64 t.tid ++ (writeVarint64 t.epoch ++
    (writeSized t.transactionPayload.digest ++ writeVarint32 t.transactionResult.toNat))

/-! ## Reading -/

/-- How decoding can fail: it returns `false`, or a `CHECK` stops the process. -/
inductive DecodeFailure where
  | returnsFalse
  | checkFails
deriving DecidableEq, Repr

def readVarint64 (bs : Bytes) : Except DecodeFailure (Nat × Bytes) :=
  match readVarint 10 bs with
  | some (v, rest) => .ok (v % 2 ^ 64, rest)
  | none => .error .returnsFalse

def readVarint32 (bs : Bytes) : Except DecodeFailure (Nat × Bytes) :=
  match readVarint 10 bs with
  | some (v, rest) => .ok (v % 2 ^ 32, rest)
  | none => .error .returnsFalse

/-- `ReadString(&buffer, size)` with the conversion of `size` to `int`. -/
def readString (size : Nat) (bs : Bytes) : Except DecodeFailure (Bytes × Bytes) :=
  let n := size % 2 ^ 32
  if n < 2 ^ 31 ∧ n ≤ bs.length then .ok (bs.take n, bs.drop n) else .error .returnsFalse

/-- `CHECK(message->ParseFromString(data))`. -/
def checkParse {α : Type} (parsed : Option α) : Except DecodeFailure α :=
  match parsed with
  | some a => .ok a
  | none => .error .checkFails

/-- Every field of the object is overwritten, so what it held before does not matter. -/
def deserializeFromString (msg : Messages) (raw : Bytes) : Except DecodeFailure Transaction := do
  let (tid, bs) ← readVarint64 raw
  let (epoch, bs) ← readVarint64 bs
  let (flag, bs) ← readVarint32 bs
  let (payloadSize, bs) ← readVarint64 bs
  let (payloadString, bs) ← readString payloadSize bs
  let payload ← checkParse (msg.payloadFromString payloadString)
  let (rwSetSize, bs) ← readVarint64 bs
  let (rwSetString, bs) ← readString rwSetSize bs
  let rwSet ← checkParse (msg.rwSetFromString rwSetString)
  let (result, bs) ← readVarint32 bs
  -- the hash is read and not compared
  let _ ← readString sha256HashSize bs
  .ok
    { epoch := epoch
      tid := tid
      readOnlyFlag := flag != 0
      kvRWSet := rwSet
      transactionResult := TransactionResult.ofNat result
      transactionPayload := payload }

/-! ## Round trip -/

section RoundTrip

variable {v : Nat} {data : Bytes} (rest : Bytes)

theorem readVarint64_write (hv : v < 2 ^ 64) :
    readVarint64 (writeVarint64 v ++ rest) = .ok (v, rest) := by
  have hmod : v % 2 ^ 64 = v := Nat.mod_eq_of_lt hv
  have hfit : v < 128 ^ (9 + 1) := Nat.lt_trans hv (by decide)
  unfold readVarint64 writeVarint64
  rw [hmod, readVarint_writeVarint hfit]
  simp only [hmod]

theorem readVarint32_write (hv : v < 2 ^ 32) :
    readVarint32 (writeVarint32 v ++ rest) = .ok (v, rest) := by
  have hmod : v % 2 ^ 32 = v := Nat.mod_eq_of_lt hv
  have hfit : v < 128 ^ (9 + 1) := Nat.lt_trans hv (by decide)
  unfold readVarint32 writeVarint32
  rw [hmod, readVarint_writeVarint hfit]
  simp only [hmod]

theorem readString_append (h : data.length < 2 ^ 31) :
    readString data.length (data ++ rest) = .ok (data, rest) := by
  have hmod : data.length % 2 ^ 32 = data.length := Nat.mod_eq_of_lt (Nat.lt_trans h (by decide))
  unfold readString
  simp only [hmod]
  rw [if_pos ⟨h, by simp⟩, List.take_left, List.drop_left]

/-- A result that is one of the four. -/
def TransactionResult.Named (r : TransactionResult) : Prop := ∀ code, r ≠ .other code

theorem TransactionResult.ofNat_toNat {r : TransactionResult} (h : r.Named) :
    TransactionResult.ofNat r.toNat = r := by
  cases r with
  | other code => exact absurd rfl (h code)
  | _ => rfl

theorem TransactionResult.toNat_lt (r : TransactionResult) : r.toNat < 2 ^ 32 := by
  cases r with
  | other code => exact code.toNat_lt
  | _ => decide

/-- The bounds that come from the wire format, and the messages parse back. -/
structure Transaction.Encodable (msg : Messages) (t : Transaction) : Prop where
  tid : t.tid < 2 ^ 64
  epoch : t.epoch < 2 ^ 64
  result : t.transactionResult.Named
  payloadSize : (msg.payloadToString t.transactionPayload).length < 2 ^ 31
  rwSetSize : (msg.rwSetToString t.kvRWSet).length < 2 ^ 31
  payload : msg.payloadFromString (msg.payloadToString t.transactionPayload) =
    some t.transactionPayload
  rwSet : msg.rwSetFromString (msg.rwSetToString t.kvRWSet) = some t.kvRWSet

theorem deserialize_serialize (sha : SHA256) {msg : Messages} {t : Transaction}
    (h : t.Encodable msg) : deserializeFromString msg (t.serializeToString sha msg) = .ok t := by
  have hflag : t.readOnlyFlag.toNat < 2 ^ 32 := by cases t.readOnlyFlag <;> decide
  have hpay64 : (msg.payloadToString t.transactionPayload).length < 2 ^ 64 :=
    Nat.lt_trans h.payloadSize (by decide)
  have hrw64 : (msg.rwSetToString t.kvRWSet).length < 2 ^ 64 :=
    Nat.lt_trans h.rwSetSize (by decide)
  have hhash := sha.length_hash (t.fields msg)
  generalize hd : sha.hash (t.fields msg) = digest at hhash
  have hdig : readString sha256HashSize digest = .ok (digest, []) := by
    have hlen : digest.length < 2 ^ 31 := by rw [hhash]; decide
    have hread := readString_append [] hlen
    rwa [List.append_nil, hhash] at hread
  unfold deserializeFromString Transaction.serializeToString
  rw [hd]
  unfold Transaction.fields writeSized
  simp only [List.append_assoc, readVarint64_write _ h.tid, readVarint64_write _ h.epoch,
    readVarint32_write _ hflag, readVarint64_write _ hpay64, readString_append _ h.payloadSize,
    readVarint64_write _ hrw64, readString_append _ h.rwSetSize,
    readVarint32_write _ t.transactionResult.toNat_lt, hdig, h.payload, h.rwSet, checkParse,
    TransactionResult.ofNat_toNat h.result, bind, Except.bind]
  have hback : (t.readOnlyFlag.toNat != 0) = t.readOnlyFlag := by cases t.readOnlyFlag <;> rfl
  rw [hback]

end RoundTrip

end NeuChain
