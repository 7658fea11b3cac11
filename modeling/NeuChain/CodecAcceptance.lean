/-
  Which byte strings `MockTransaction::deserializeFromString` accepts.

  `Frame.ofBytes` cuts a string where the decoder cuts it, and looks at nothing. A frame is intact
  if its numbers are in the shortest form and in range, the digest at its end is that of the bytes
  before it, and nothing comes after. The decoder asks for none of this: the digest is read into
  a local, numbers lose their upper bits, and what is left over stays unread.

  * `accepted_iff_intact`: an accepted string is the encoding of the transaction it gives exactly if
    its frame is intact.
-/
import NeuChain.Codec

namespace NeuChain

open Lib

/-- The parts of an encoding, in their order. -/
structure Frame where
  tid : Bytes
  epoch : Bytes
  readOnlyFlag : Bytes
  payloadSize : Bytes
  payload : Bytes
  rwSetSize : Bytes
  rwSet : Bytes
  transactionResult : Bytes
  transactionHash : Bytes
  rest : Bytes
deriving DecidableEq, Repr

namespace Frame

/-- `ReadString` is given the size cut to 32 bits. -/
def ofBytes (raw : Bytes) : Frame :=
  let (tid, bs) := splitVarint raw
  let (epoch, bs) := splitVarint bs
  let (flag, bs) := splitVarint bs
  let (payloadSize, bs) := splitVarint bs
  let payloadLength := varintValue payloadSize % 2 ^ 32
  let (rwSetSize, bs') := splitVarint (bs.drop payloadLength)
  let rwSetLength := varintValue rwSetSize % 2 ^ 32
  let (result, tail) := splitVarint (bs'.drop rwSetLength)
  { tid := tid
    epoch := epoch
    readOnlyFlag := flag
    payloadSize := payloadSize
    payload := bs.take payloadLength
    rwSetSize := rwSetSize
    rwSet := bs'.take rwSetLength
    transactionResult := result
    transactionHash := tail.take sha256HashSize
    rest := tail.drop sha256HashSize }

def fields (f : Frame) : Bytes :=
  f.tid ++ (f.epoch ++ (f.readOnlyFlag ++ (f.payloadSize ++ (f.payload ++
    (f.rwSetSize ++ (f.rwSet ++ f.transactionResult))))))

def numbers (f : Frame) : List Bytes :=
  [f.tid, f.epoch, f.readOnlyFlag, f.payloadSize, f.rwSetSize, f.transactionResult]

/-- What an encoder makes sure of. -/
structure Intact (sha : SHA256) (f : Frame) : Prop where
  shortest : ∀ n ∈ f.numbers, shortest n
  tid : varintValue f.tid < 2 ^ 64
  epoch : varintValue f.epoch < 2 ^ 64
  readOnlyFlag : varintValue f.readOnlyFlag ≤ 1
  payloadSize : varintValue f.payloadSize < 2 ^ 31
  rwSetSize : varintValue f.rwSetSize < 2 ^ 31
  transactionResult : varintValue f.transactionResult ≤ 3
  transactionHash : f.transactionHash = sha.hash f.fields
  rest : f.rest = []

/-- What the decoder makes of a frame. -/
structure Decodes (msg : Messages) (f : Frame) (t : Transaction) : Prop where
  numbers : ∀ n ∈ f.numbers, Lib.shortest n → writeVarint (varintValue n) = n
  tid : t.tid = varintValue f.tid % 2 ^ 64
  epoch : t.epoch = varintValue f.epoch % 2 ^ 64
  readOnlyFlag : t.readOnlyFlag = (varintValue f.readOnlyFlag % 2 ^ 32 != 0)
  payloadSize : f.payload.length = varintValue f.payloadSize % 2 ^ 32 ∧ f.payload.length < 2 ^ 31
  payload : msg.payloadFromString f.payload = some t.transactionPayload
  rwSetSize : f.rwSet.length = varintValue f.rwSetSize % 2 ^ 32 ∧ f.rwSet.length < 2 ^ 31
  rwSet : msg.rwSetFromString f.rwSet = some t.kvRWSet
  transactionResult :
    t.transactionResult = TransactionResult.ofNat (varintValue f.transactionResult % 2 ^ 32)

end Frame

/-- A message that parses is written back as it was. -/
structure Messages.Canonical (msg : Messages) : Prop where
  payload : ∀ raw p, msg.payloadFromString raw = some p → msg.payloadToString p = raw
  rwSet : ∀ raw s, msg.rwSetFromString raw = some s → msg.rwSetToString s = raw

/-! ## What the readers take -/

section Readers

variable {α β : Type} {bs rest data : Bytes} {v size : Nat}

theorem bind_eq_ok {x : Except DecodeFailure α} {f : α → Except DecodeFailure β} {b : β}
    (h : x >>= f = .ok b) : ∃ a, x = .ok a ∧ f a = .ok b := by
  cases x with
  | error e => cases h
  | ok a => exact ⟨a, rfl, h⟩

theorem checkParse_eq_ok {parsed : Option α} {a : α} (h : checkParse parsed = .ok a) :
    parsed = some a := by
  cases parsed with
  | none => cases h
  | some b =>
      cases h
      rfl

/-- The bytes of a number, if the number was read. -/
def Reads (bs : Bytes) (used rest : Bytes) : Prop :=
  splitVarint bs = (used, rest) ∧ bs = used ++ rest ∧
    (shortest used → writeVarint (varintValue used) = used)

theorem reads_of_readVarint {r : Nat × Bytes} (h : readVarint 10 bs = some r) :
    ∃ used, Reads bs used r.2 ∧ r.1 = varintValue used := by
  obtain ⟨rfl, -⟩ := readVarint_eq_some h
  exact ⟨(splitVarint bs).1, ⟨rfl, (splitVarint_append bs).symm, writeVarint_varintValue h⟩, rfl⟩

theorem readVarint64_eq_ok (h : readVarint64 bs = .ok (v, rest)) :
    ∃ used, Reads bs used rest ∧ v = varintValue used % 2 ^ 64 := by
  unfold readVarint64 at h
  split at h
  · rename_i hread
    cases h
    obtain ⟨used, hreads, hvalue⟩ := reads_of_readVarint hread
    exact ⟨used, hreads, congrArg (· % 2 ^ 64) hvalue⟩
  · cases h

theorem readVarint32_eq_ok (h : readVarint32 bs = .ok (v, rest)) :
    ∃ used, Reads bs used rest ∧ v = varintValue used % 2 ^ 32 := by
  unfold readVarint32 at h
  split at h
  · rename_i hread
    cases h
    obtain ⟨used, hreads, hvalue⟩ := reads_of_readVarint hread
    exact ⟨used, hreads, congrArg (· % 2 ^ 32) hvalue⟩
  · cases h

theorem readString_eq_ok (h : readString size bs = .ok (data, rest)) :
    data = bs.take (size % 2 ^ 32) ∧ rest = bs.drop (size % 2 ^ 32) ∧
      data.length = size % 2 ^ 32 ∧ data.length < 2 ^ 31 ∧ bs = data ++ rest := by
  unfold readString at h
  simp only at h
  split at h
  · rename_i hsize
    cases h
    have hlen : (bs.take (size % 2 ^ 32)).length = size % 2 ^ 32 := by
      rw [List.length_take]
      exact Nat.min_eq_left hsize.2
    refine ⟨rfl, rfl, hlen, ?_, (List.take_append_drop _ _).symm⟩
    rw [hlen]
    exact hsize.1
  · cases h

end Readers

section Acceptance

variable {sha : SHA256} {msg : Messages} {raw : Bytes} {t : Transaction}

/-- A string is accepted by these reads, one after the other. -/
theorem reads_of_deserialize (h : deserializeFromString msg raw = .ok t) :
    ∃ tid epoch flag payloadSize payloadString payload rwSetSize rwSetString rwSet result hash
      bs₁ bs₂ bs₃ bs₄ bs₅ bs₆ bs₇ bs₈ bs₉,
      readVarint64 raw = .ok (tid, bs₁) ∧ readVarint64 bs₁ = .ok (epoch, bs₂) ∧
      readVarint32 bs₂ = .ok (flag, bs₃) ∧ readVarint64 bs₃ = .ok (payloadSize, bs₄) ∧
      readString payloadSize bs₄ = .ok (payloadString, bs₅) ∧
      checkParse (msg.payloadFromString payloadString) = .ok payload ∧
      readVarint64 bs₅ = .ok (rwSetSize, bs₆) ∧
      readString rwSetSize bs₆ = .ok (rwSetString, bs₇) ∧
      checkParse (msg.rwSetFromString rwSetString) = .ok rwSet ∧
      readVarint32 bs₇ = .ok (result, bs₈) ∧
      readString sha256HashSize bs₈ = .ok (hash, bs₉) ∧
      t = { epoch := epoch
            tid := tid
            readOnlyFlag := flag != 0
            kvRWSet := rwSet
            transactionResult := TransactionResult.ofNat result
            transactionPayload := payload } := by
  unfold deserializeFromString at h
  obtain ⟨⟨tid, bs₁⟩, h₁, h⟩ := bind_eq_ok h
  obtain ⟨⟨epoch, bs₂⟩, h₂, h⟩ := bind_eq_ok h
  obtain ⟨⟨flag, bs₃⟩, h₃, h⟩ := bind_eq_ok h
  obtain ⟨⟨payloadSize, bs₄⟩, h₄, h⟩ := bind_eq_ok h
  obtain ⟨⟨payloadString, bs₅⟩, h₅, h⟩ := bind_eq_ok h
  obtain ⟨payload, hpayload, h⟩ := bind_eq_ok h
  obtain ⟨⟨rwSetSize, bs₆⟩, h₆, h⟩ := bind_eq_ok h
  obtain ⟨⟨rwSetString, bs₇⟩, h₇, h⟩ := bind_eq_ok h
  obtain ⟨rwSet, hrwSet, h⟩ := bind_eq_ok h
  obtain ⟨⟨result, bs₈⟩, h₈, h⟩ := bind_eq_ok h
  obtain ⟨⟨hash, bs₉⟩, h₉, h⟩ := bind_eq_ok h
  cases h
  exact ⟨tid, epoch, flag, payloadSize, payloadString, payload, rwSetSize, rwSetString, rwSet,
    result, hash, bs₁, bs₂, bs₃, bs₄, bs₅, bs₆, bs₇, bs₈, bs₉, h₁, h₂, h₃, h₄, h₅, hpayload, h₆, h₇,
    hrwSet, h₈, h₉, rfl⟩

/-- An accepted string is cut into a frame that the decoder reads field by field. -/
theorem decodes_of_deserialize (h : deserializeFromString msg raw = .ok t) :
    (Frame.ofBytes raw).Decodes msg t ∧
      (Frame.ofBytes raw).transactionHash.length = sha256HashSize ∧
      raw = (Frame.ofBytes raw).fields ++
        ((Frame.ofBytes raw).transactionHash ++ (Frame.ofBytes raw).rest) := by
  obtain ⟨tid, epoch, flag, payloadSize, payloadString, payload, rwSetSize, rwSetString, rwSet,
    result, hash, bs₁, bs₂, bs₃, bs₄, bs₅, bs₆, bs₇, bs₈, bs₉, h₁, h₂, h₃, h₄, h₅, hpayload, h₆, h₇,
    hrwSet, h₈, h₉, rfl⟩ := reads_of_deserialize h
  obtain ⟨u₁, ⟨hs₁, ha₁, hw₁⟩, rfl⟩ := readVarint64_eq_ok h₁
  obtain ⟨u₂, ⟨hs₂, ha₂, hw₂⟩, rfl⟩ := readVarint64_eq_ok h₂
  obtain ⟨u₃, ⟨hs₃, ha₃, hw₃⟩, rfl⟩ := readVarint32_eq_ok h₃
  obtain ⟨u₄, ⟨hs₄, ha₄, hw₄⟩, rfl⟩ := readVarint64_eq_ok h₄
  obtain ⟨hp₁, hp₂, hp₃, hp₄, ha₅⟩ := readString_eq_ok h₅
  obtain ⟨u₆, ⟨hs₆, ha₆, hw₆⟩, rfl⟩ := readVarint64_eq_ok h₆
  obtain ⟨hr₁, hr₂, hr₃, hr₄, ha₇⟩ := readString_eq_ok h₇
  obtain ⟨u₈, ⟨hs₈, ha₈, hw₈⟩, rfl⟩ := readVarint32_eq_ok h₈
  obtain ⟨hh₁, hh₂, hh₃, -, ha₉⟩ := readString_eq_ok h₉
  have hcut : ∀ n : Nat, n % 2 ^ 64 % 2 ^ 32 = n % 2 ^ 32 := by
    intro n
    omega
  have hhash : sha256HashSize % 2 ^ 32 = sha256HashSize := rfl
  rw [hcut] at hp₁ hp₂ hp₃ hr₁ hr₂ hr₃
  rw [hhash] at hh₁ hh₂ hh₃
  have hframe : Frame.ofBytes raw =
      ⟨u₁, u₂, u₃, u₄, payloadString, u₆, rwSetString, u₈, hash, bs₉⟩ := by
    unfold Frame.ofBytes
    simp only [hs₁, hs₂, hs₃, hs₄, ← hp₁, ← hp₂, hs₆, ← hr₁, ← hr₂, hs₈, ← hh₁, ← hh₂]
  rw [hframe]
  refine ⟨?_, hh₃, ?_⟩
  · constructor
    · simp only [Frame.numbers, List.forall_mem_cons]
      exact ⟨hw₁, hw₂, hw₃, hw₄, hw₆, hw₈, by simp⟩
    · rfl
    · rfl
    · rfl
    · exact ⟨hp₃, hp₄⟩
    · exact checkParse_eq_ok hpayload
    · exact ⟨hr₃, hr₄⟩
    · exact checkParse_eq_ok hrwSet
    · rfl
  · simp only [Frame.fields, List.append_assoc]
    rw [← ha₉, ← ha₈, ← ha₇, ← ha₆, ← ha₅, ← ha₄, ← ha₃, ← ha₂, ← ha₁]

theorem eq_of_le_three {n : Nat} (hn : n ≤ 3) : n = 0 ∨ n = 1 ∨ n = 2 ∨ n = 3 := by omega

theorem TransactionResult.named_ofNat {n : Nat} (hn : n ≤ 3) :
    (TransactionResult.ofNat n).Named := by
  intro code hcode
  obtain rfl | rfl | rfl | rfl := eq_of_le_three hn
  all_goals cases hcode

theorem TransactionResult.toNat_ofNat {n : Nat} (hn : n ≤ 3) :
    (TransactionResult.ofNat n).toNat = n := by
  obtain rfl | rfl | rfl | rfl := eq_of_le_three hn
  all_goals rfl

/-! ## The frame of an encoding -/

theorem writeVarint64_eq {n : Nat} (hn : n < 2 ^ 64) : writeVarint64 n = writeVarint n := by
  rw [writeVarint64, Nat.mod_eq_of_lt hn]

theorem writeVarint32_eq {n : Nat} (hn : n < 2 ^ 32) : writeVarint32 n = writeVarint n := by
  rw [writeVarint32, Nat.mod_eq_of_lt hn]

/-- The parts that `serializeToString` writes. -/
def Transaction.frame (sha : SHA256) (msg : Messages) (t : Transaction) : Frame :=
  { tid := writeVarint64 t.tid
    epoch := writeVarint64 t.epoch
    readOnlyFlag := writeVarint32 t.readOnlyFlag.toNat
    payloadSize := writeVarint64 (msg.payloadToString t.transactionPayload).length
    payload := msg.payloadToString t.transactionPayload
    rwSetSize := writeVarint64 (msg.rwSetToString t.kvRWSet).length
    rwSet := msg.rwSetToString t.kvRWSet
    transactionResult := writeVarint32 t.transactionResult.toNat
    transactionHash := sha.hash (t.fields msg)
    rest := [] }

theorem fields_frame : (t.frame sha msg).fields = t.fields msg := by
  simp only [Transaction.frame, Frame.fields, Transaction.fields, writeSized, List.append_assoc]

theorem ofBytes_serialize (hpayload : (msg.payloadToString t.transactionPayload).length < 2 ^ 31)
    (hrwSet : (msg.rwSetToString t.kvRWSet).length < 2 ^ 31) :
    Frame.ofBytes (t.serializeToString sha msg) = t.frame sha msg := by
  have hhash : sha256HashSize = (sha.hash (t.fields msg)).length := (sha.length_hash _).symm
  have htake : (sha.hash (t.fields msg)).take sha256HashSize = sha.hash (t.fields msg) := by
    rw [hhash, List.take_length]
  have hdrop : (sha.hash (t.fields msg)).drop sha256HashSize = [] := by
    rw [hhash, List.drop_length]
  -- a size that an `int` holds is not cut
  have hcut : ∀ {n : Nat}, n < 2 ^ 31 → n % 2 ^ 64 % 2 ^ 32 = n := by
    intro n hn
    omega
  unfold Transaction.serializeToString Transaction.frame
  generalize sha.hash (t.fields msg) = digest at htake hdrop
  unfold Transaction.fields writeSized writeVarint64 writeVarint32 Frame.ofBytes
  simp only [List.append_assoc, splitVarint_writeVarint, varintValue_writeVarint, hcut hpayload,
    hcut hrwSet, List.take_left, List.drop_left, htake, hdrop]

/-- An encoding is intact. -/
theorem intact_frame (htid : t.tid < 2 ^ 64) (hepoch : t.epoch < 2 ^ 64)
    (hpayload : (msg.payloadToString t.transactionPayload).length < 2 ^ 31)
    (hrwSet : (msg.rwSetToString t.kvRWSet).length < 2 ^ 31) (hnamed : t.transactionResult.Named) :
    (t.frame sha msg).Intact sha := by
  have hflag : t.readOnlyFlag.toNat ≤ 1 := by cases t.readOnlyFlag <;> decide
  have hresult : t.transactionResult.toNat ≤ 3 := by
    cases hr : t.transactionResult with
    | other code => exact absurd hr (hnamed code)
    | _ => decide
  constructor
  · simp only [Transaction.frame, Frame.numbers, writeVarint64, writeVarint32,
      List.forall_mem_cons, shortest_writeVarint, true_and]
    simp
  · simpa only [Transaction.frame, writeVarint64_eq htid, varintValue_writeVarint]
  · simpa only [Transaction.frame, writeVarint64_eq hepoch, varintValue_writeVarint]
  · simp only [Transaction.frame, writeVarint32, varintValue_writeVarint]
    omega
  · simp only [Transaction.frame, writeVarint64, varintValue_writeVarint]
    omega
  · simp only [Transaction.frame, writeVarint64, varintValue_writeVarint]
    omega
  · simp only [Transaction.frame, writeVarint32, varintValue_writeVarint]
    omega
  · rw [fields_frame]
    rfl
  · rfl

/-- An intact frame is written again as it was. -/
theorem fields_of_intact (hcanon : msg.Canonical) {f : Frame} (hdec : f.Decodes msg t)
    (hint : f.Intact sha) : t.fields msg = f.fields := by
  obtain ⟨h₁, h₂, h₃, h₄, h₅, h₆, -⟩ :
      f.tid = writeVarint (varintValue f.tid) ∧ f.epoch = writeVarint (varintValue f.epoch) ∧
      f.readOnlyFlag = writeVarint (varintValue f.readOnlyFlag) ∧
      f.payloadSize = writeVarint (varintValue f.payloadSize) ∧
      f.rwSetSize = writeVarint (varintValue f.rwSetSize) ∧
      f.transactionResult = writeVarint (varintValue f.transactionResult) ∧ True := by
    have hnumbers := fun n hn => (hdec.numbers n hn (hint.shortest n hn)).symm
    simpa only [Frame.numbers, List.forall_mem_cons, List.not_mem_nil, false_imp_iff,
      implies_true] using hnumbers
  have htid : writeVarint64 t.tid = f.tid := by
    rw [hdec.tid, Nat.mod_eq_of_lt hint.tid, writeVarint64_eq hint.tid, ← h₁]
  have hepoch : writeVarint64 t.epoch = f.epoch := by
    rw [hdec.epoch, Nat.mod_eq_of_lt hint.epoch, writeVarint64_eq hint.epoch, ← h₂]
  have hflag : writeVarint32 t.readOnlyFlag.toNat = f.readOnlyFlag := by
    have hle := hint.readOnlyFlag
    have hvalue : t.readOnlyFlag.toNat = varintValue f.readOnlyFlag := by
      rw [hdec.readOnlyFlag]
      obtain h0 | h1 : varintValue f.readOnlyFlag = 0 ∨ varintValue f.readOnlyFlag = 1 := by omega
      · rw [h0]
        rfl
      · rw [h1]
        rfl
    rw [hvalue, writeVarint32_eq (by omega), ← h₃]
  have hpayload : writeSized (msg.payloadToString t.transactionPayload) =
      f.payloadSize ++ f.payload := by
    have hsize := hint.payloadSize
    have hlen := hdec.payloadSize.1
    rw [Nat.mod_eq_of_lt (by omega)] at hlen
    rw [hcanon.payload _ _ hdec.payload, writeSized, hlen, writeVarint64_eq (by omega), ← h₄]
  have hrwSet : writeSized (msg.rwSetToString t.kvRWSet) = f.rwSetSize ++ f.rwSet := by
    have hsize := hint.rwSetSize
    have hlen := hdec.rwSetSize.1
    rw [Nat.mod_eq_of_lt (by omega)] at hlen
    rw [hcanon.rwSet _ _ hdec.rwSet, writeSized, hlen, writeVarint64_eq (by omega), ← h₅]
  have hresult : writeVarint32 t.transactionResult.toNat = f.transactionResult := by
    have hle := hint.transactionResult
    rw [hdec.transactionResult, Nat.mod_eq_of_lt (by omega), TransactionResult.toNat_ofNat hle,
      writeVarint32_eq (by omega), ← h₆]
  unfold Transaction.fields Frame.fields
  rw [htid, hepoch, hflag, hpayload, hrwSet, hresult]
  simp only [List.append_assoc]

end Acceptance

/-- What the encoder promises of a string and the transaction in it. -/
structure Unaltered (sha : SHA256) (msg : Messages) (raw : Bytes) (t : Transaction) : Prop where
  encoding : raw = t.serializeToString sha msg
  digest : raw.drop (raw.length - sha256HashSize) =
    sha.hash (raw.take (raw.length - sha256HashSize))
  result : t.transactionResult.Named

/-- An accepted string is what the encoder writes for the transaction exactly if its numbers are
    in the shortest form and in range, its digest is right and nothing follows. -/
theorem accepted_iff_intact {sha : SHA256} {msg : Messages} (hcanon : msg.Canonical) {raw : Bytes}
    {t : Transaction} (h : deserializeFromString msg raw = .ok t) :
    Unaltered sha msg raw t ↔ (Frame.ofBytes raw).Intact sha := by
  obtain ⟨hdec, hlen, hraw⟩ := decodes_of_deserialize h
  constructor
  · intro hun
    have hplen := hdec.payloadSize.2
    have hrlen := hdec.rwSetSize.2
    rw [← hcanon.payload _ _ hdec.payload] at hplen
    rw [← hcanon.rwSet _ _ hdec.rwSet] at hrlen
    have htid : t.tid < 2 ^ 64 := hdec.tid ▸ Nat.mod_lt _ (by decide)
    have hepoch : t.epoch < 2 ^ 64 := hdec.epoch ▸ Nat.mod_lt _ (by decide)
    rw [hun.encoding, ofBytes_serialize hplen hrlen]
    exact intact_frame htid hepoch hplen hrlen hun.result
  · intro hint
    have hfields := fields_of_intact hcanon hdec hint
    have hencoding : raw = t.serializeToString sha msg := by
      rw [Transaction.serializeToString, hfields, ← hint.transactionHash]
      rw [hint.rest, List.append_nil] at hraw
      exact hraw
    refine ⟨hencoding, ?_, ?_⟩
    · have hsize : raw.length - sha256HashSize = (t.fields msg).length := by
        rw [hencoding, Transaction.serializeToString, List.length_append, sha.length_hash]
        omega
      rw [hsize, hencoding, Transaction.serializeToString, List.drop_left, List.take_left]
    · have hle := hint.transactionResult
      rw [hdec.transactionResult, Nat.mod_eq_of_lt (by omega)]
      exact TransactionResult.named_ofNat hle

/-- The messages of a transaction that nobody has filled in yet. -/
def blankMessages : Messages where
  payloadToString _ := []
  payloadFromString raw := if raw = [] then some {} else none
  rwSetToString _ := []
  rwSetFromString raw := if raw = [] then some {} else none

theorem blankMessages_canonical : blankMessages.Canonical where
  payload raw p h := by
    simp only [blankMessages, Option.ite_none_right_eq_some] at h
    exact h.1.symm
  rwSet raw s h := by
    simp only [blankMessages, Option.ite_none_right_eq_some] at h
    exact h.1.symm

/-- The committed transaction 1 of epoch 1. -/
def firstTransaction : Transaction :=
  { epoch := 1, tid := 1, readOnlyFlag := false, transactionResult := .commit }

def firstFields : Bytes := [1, 1, 0, 0, 0, 0]

/-- The digest of these bytes. -/
def firstSHA256 : SHA256 where
  hash _ :=
    [26, 113, 121, 124, 171, 142, 210, 60, 114, 35, 59, 119, 6, 177, 102, 163, 48, 73, 228,
    232, 125, 251, 197, 91, 158, 37, 47, 156, 24, 67, 236, 166]
  length_hash _ := rfl

theorem accepted_iff_intact_first :
    deserializeFromString blankMessages (firstFields ++ firstSHA256.hash firstFields) =
        .ok firstTransaction ∧
      Unaltered firstSHA256 blankMessages (firstFields ++ firstSHA256.hash firstFields)
        firstTransaction := by
  have hok : deserializeFromString blankMessages (firstFields ++ firstSHA256.hash firstFields) =
      .ok firstTransaction := by decide +kernel
  refine ⟨hok, (accepted_iff_intact blankMessages_canonical hok).mpr ?_⟩
  constructor
  all_goals decide +kernel

theorem Unaltered.length_eq {sha : SHA256} {msg : Messages} {raw : Bytes} {t : Transaction}
    (h : Unaltered sha msg raw t) : raw.length = (t.fields msg).length + sha256HashSize := by
  rw [h.encoding, Transaction.serializeToString, List.length_append, sha.length_hash]

/-- Accepted with any digest, with a byte behind it, with a number in two bytes that fits in one,
    with a size of 2^32 in front of nothing, and with a result that does not exist. -/
theorem accepts_altered :
    blankMessages.Canonical ∧
    (deserializeFromString blankMessages (firstFields ++ List.replicate 32 0) =
        .ok firstTransaction ∧
      deserializeFromString blankMessages (firstFields ++ List.replicate 32 1) =
        .ok firstTransaction ∧
      ∀ sha, ¬ (Unaltered sha blankMessages (firstFields ++ List.replicate 32 0) firstTransaction ∧
        Unaltered sha blankMessages (firstFields ++ List.replicate 32 1) firstTransaction)) ∧
    (deserializeFromString blankMessages (firstFields ++ List.replicate 33 0) =
        .ok firstTransaction ∧
      ∀ sha, ¬ Unaltered sha blankMessages (firstFields ++ List.replicate 33 0) firstTransaction) ∧
    (deserializeFromString blankMessages ([129, 0, 1, 0, 0, 0, 0] ++ List.replicate 32 0) =
        .ok firstTransaction ∧
      ∀ sha, ¬ Unaltered sha blankMessages ([129, 0, 1, 0, 0, 0, 0] ++ List.replicate 32 0)
        firstTransaction) ∧
    (deserializeFromString blankMessages
        ([1, 1, 0, 128, 128, 128, 128, 16, 0, 0] ++ List.replicate 32 0) = .ok firstTransaction ∧
      ∀ sha, ¬ Unaltered sha blankMessages
        ([1, 1, 0, 128, 128, 128, 128, 16, 0, 0] ++ List.replicate 32 0) firstTransaction) ∧
    (deserializeFromString blankMessages ([1, 1, 0, 0, 0, 7] ++ List.replicate 32 0) =
        .ok { firstTransaction with transactionResult := .other 7 } ∧
      ∀ sha, ¬ Unaltered sha blankMessages ([1, 1, 0, 0, 0, 7] ++ List.replicate 32 0)
        { firstTransaction with transactionResult := .other 7 }) := by
  have hfields : (firstTransaction.fields blankMessages).length = 6 := by decide +kernel
  -- an altered string of another length
  have hlength : ∀ (sha : SHA256) (raw : Bytes), raw.length ≠ 38 →
      ¬ Unaltered sha blankMessages raw firstTransaction := by
    intro sha raw hne hun
    have hlen := hun.length_eq
    rw [hfields] at hlen
    exact hne hlen
  refine ⟨blankMessages_canonical, ⟨by decide +kernel, by decide +kernel, ?_⟩,
    ⟨by decide +kernel, fun sha => hlength sha _ (by decide)⟩,
    ⟨by decide +kernel, fun sha => hlength sha _ (by decide)⟩,
    ⟨by decide +kernel, fun sha => hlength sha _ (by decide)⟩, ⟨by decide +kernel, ?_⟩⟩
  · rintro sha ⟨hzero, hone⟩
    have hsame := hzero.encoding.trans hone.encoding.symm
    exact absurd hsame (by decide)
  · intro sha hun
    exact hun.result 7 rfl

end NeuChain
