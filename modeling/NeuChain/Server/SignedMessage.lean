/-
  What the epoch server signs for a batch: `EVConsensusManager::receiver_from_user`, and the same
  string in `ClientProxy::verifyBatchHash`.

  The epoch and the nonce are printed as decimal numbers right before and right after the hash of
  the batch, with nothing in between. Only the hash has a fixed length. If it begins or ends with
  bytes that are digits, these can be read as a part of the number beside it.

  Left out: the timer and the messages to raft, and the sizes of the epochs, which are
  only logged.

  * `message_unambiguous_iff`: the responses for which no other one has the same message.
-/
import NeuChain.Lib.Decimal
import NeuChain.Server.ClientProxy

namespace NeuChain.Server

open NeuChain Lib

/-- What is signed. -/
def EpochResponse.message (response : EpochResponse) : Bytes :=
  decimal response.epoch ++ response.request.batchHash ++ decimal response.nonce

/-- One turn of the loop of `receiver_from_user`: `totalSize` afterwards and the reply. -/
def receiverFromUser (rsaEncrypt : Bytes → Bytes) (epochNum totalSize : Nat)
    (request : EpochRequest) : Nat × EpochResponse :=
  let totalSize := (totalSize + request.requestBatchSize) % 2 ^ 64
  let response : EpochResponse := { epoch := epochNum, request := request, nonce := totalSize }
  (totalSize, { response with signature := rsaEncrypt response.message })

theorem signature_receiverFromUser (rsaEncrypt : Bytes → Bytes) (epochNum totalSize : Nat)
    (request : EpochRequest) :
    (receiverFromUser rsaEncrypt epochNum totalSize request).2.signature =
      rsaEncrypt (receiverFromUser rsaEncrypt epochNum totalSize request).2.message := rfl

theorem verify_of_verifyBatchHash {env : ProxyEnv} {txs : List Transaction}
    {response : EpochResponse} (h : verifyBatchHash env txs response = true) :
    env.epochServerVerify response.message response.signature = true := by
  unfold verifyBatchHash at h
  simp only [ite_not] at h
  split at h
  · split at h
    · exact h
    · cases h
  · cases h

/-! ## Decimal numbers -/

/-- The two ways to print a number agree. -/
theorem decimal_eq_natToString (n : Nat) : decimal n = Decimal.natToString n := by
  have hchar : ∀ d < 10, UInt8.ofNat (Nat.digitChar d).toNat = UInt8.ofNat (48 + d) := by decide
  unfold decimal
  rw [Nat.repr_eq_ofList_toDigits, String.toList_ofList]
  induction n using Nat.strongRecOn with
  | ind n ih =>
      rcases Nat.lt_or_ge n 10 with hlt | hge
      · rw [Nat.toDigits_of_lt_base hlt, Decimal.natToString_of_lt hlt, ← hchar n hlt]
        rfl
      · rw [Nat.toDigits_of_base_le (by decide) hge, Decimal.natToString_of_le hge, List.map_append,
          ih (n / 10) (by omega), ← hchar (n % 10) (by omega)]
        rfl

/-- A string that `std::to_string` prints for a 64-bit number. -/
def IsUInt64 (s : Bytes) : Prop := Decimal.isNumeral s = true ∧ Decimal.number s < 2 ^ 64

instance (s : Bytes) : Decidable (IsUInt64 s) := inferInstanceAs (Decidable (_ ∧ _))

theorem isUInt64_decimal {n : Nat} (hn : n < 2 ^ 64) : IsUInt64 (decimal n) := by
  rw [decimal_eq_natToString]
  exact ⟨Decimal.isNumeral_natToString n, by rwa [Decimal.number_natToString]⟩

theorem decimal_number {s : Bytes} (hs : IsUInt64 s) : decimal (Decimal.number s) = s := by
  rw [decimal_eq_natToString, Decimal.natToString_number hs.1]

theorem decimal_injective {m n : Nat} (h : decimal m = decimal n) : m = n := by
  rw [decimal_eq_natToString, decimal_eq_natToString] at h
  exact Decimal.natToString_injective h

theorem length_decimal_le {n : Nat} (hn : n < 2 ^ 64) : (decimal n).length ≤ 20 := by
  rw [decimal_eq_natToString]
  exact Decimal.length_natToString_le (Nat.lt_trans hn (by decide))

/-! ## Where the hash can begin -/

section Middle

variable {α : Type} {a h b a' h' b' : List α} {d : Nat}

/-- The first `d` elements of the middle go to the front, as many come from the back. -/
theorem append_move (a h b : List α) (d : Nat) :
    (a ++ h.take d) ++ (h.drop d ++ b.take d) ++ b.drop d = a ++ h ++ b := by
  rw [List.append_assoc, List.append_assoc, List.append_assoc, List.take_append_drop,
    ← List.append_assoc (h.take d), List.take_append_drop, List.append_assoc]

theorem move_of_append_eq (heq : a' ++ h' ++ b' = a ++ h ++ b) (hlen : h'.length = h.length)
    (hd : a'.length = a.length + d) (hle : d ≤ h.length) :
    a' = a ++ h.take d ∧ h' = h.drop d ++ b.take d ∧ b' = b.drop d := by
  have hsum := congrArg List.length heq
  simp only [List.length_append] at hsum
  rw [← append_move a h b d] at heq
  have hfront : a'.length = (a ++ h.take d).length := by
    rw [List.length_append, List.length_take]
    omega
  have hmiddle : (a' ++ h').length = ((a ++ h.take d) ++ (h.drop d ++ b.take d)).length := by
    simp only [List.length_append, List.length_take, List.length_drop]
    omega
  obtain ⟨hah, hb⟩ := List.append_inj heq hmiddle
  obtain ⟨ha, hh⟩ := List.append_inj hah hfront
  exact ⟨ha, hh, hb⟩

end Middle

/-! ## Which messages have one meaning -/

/-- What the types of the fields and the hash function make sure of. -/
structure EpochResponse.WellFormed (response : EpochResponse) : Prop where
  epoch : response.epoch < 2 ^ 64
  batchHash : response.request.batchHash.length = sha256HashSize
  nonce : response.nonce < 2 ^ 64

/-- Another epoch, batch or nonce has another message. -/
def EpochResponse.Unambiguous (response : EpochResponse) : Prop :=
  ∀ response' : EpochResponse, response'.WellFormed → response'.message = response.message →
    response'.epoch = response.epoch ∧ response'.request.batchHash = response.request.batchHash ∧
      response'.nonce = response.nonce

/-- The first `d` bytes of the hash continue the epoch, and the nonce can do without as many. -/
def EpochResponse.MovesForward (response : EpochResponse) (d : Nat) : Prop :=
  IsUInt64 (decimal response.epoch ++ response.request.batchHash.take d) ∧
    IsUInt64 ((decimal response.nonce).drop d)

/-- The epoch can do without its last `d` digits, and the last `d` bytes of the hash are digits
    that can come before the nonce. -/
def EpochResponse.MovesBackward (response : EpochResponse) (d : Nat) : Prop :=
  IsUInt64 ((decimal response.epoch).take ((decimal response.epoch).length - d)) ∧
    IsUInt64 (response.request.batchHash.drop (sha256HashSize - d) ++ decimal response.nonce)

instance (response : EpochResponse) (d : Nat) : Decidable (response.MovesForward d) :=
  inferInstanceAs (Decidable (_ ∧ _))

instance (response : EpochResponse) (d : Nat) : Decidable (response.MovesBackward d) :=
  inferInstanceAs (Decidable (_ ∧ _))

section Ambiguity

variable {response response' : EpochResponse} {d : Nat}

theorem isUInt64_ne_nil {s : Bytes} (hs : IsUInt64 s) : s ≠ [] := (of_decide_eq_true hs.1).1

/-- Another way to cut the message. -/
theorem not_unambiguous {e h n : Bytes} (he : IsUInt64 e) (hh : h.length = sha256HashSize)
    (hn : IsUInt64 n) (heq : e ++ h ++ n = response.message)
    (hlen : e.length ≠ (decimal response.epoch).length) : ¬ response.Unambiguous := by
  intro hun
  have hmessage : EpochResponse.message
      { epoch := Decimal.number e, request := { batchHash := h }, nonce := Decimal.number n } =
      response.message := by
    unfold EpochResponse.message
    rw [decimal_number he, decimal_number hn]
    exact heq
  obtain ⟨hsame, -, -⟩ := hun _ ⟨he.2, hh, hn.2⟩ hmessage
  have hdecimal := congrArg (fun n => (decimal n).length) hsame
  simp only [decimal_number he] at hdecimal
  exact hlen hdecimal

theorem not_unambiguous_of_movesForward (hwf : response.WellFormed) (hpos : 0 < d)
    (hle : d ≤ sha256HashSize) (hmove : response.MovesForward d) : ¬ response.Unambiguous := by
  obtain ⟨hepoch, hnonce⟩ := hmove
  have hhash := hwf.batchHash
  have hlong : d < (decimal response.nonce).length := by
    have hne := List.length_pos_of_ne_nil (isUInt64_ne_nil hnonce)
    rw [List.length_drop] at hne
    omega
  refine not_unambiguous hepoch ?_ hnonce (append_move _ _ _ d) ?_
  · rw [List.length_append, List.length_drop, List.length_take, hhash]
    omega
  · rw [List.length_append, List.length_take, hhash]
    omega

theorem not_unambiguous_of_movesBackward (hwf : response.WellFormed) (hpos : 0 < d)
    (hle : d ≤ sha256HashSize) (hmove : response.MovesBackward d) : ¬ response.Unambiguous := by
  obtain ⟨hepoch, hnonce⟩ := hmove
  have hhash := hwf.batchHash
  have hlong : d < (decimal response.epoch).length := by
    have hne := List.length_pos_of_ne_nil (isUInt64_ne_nil hepoch)
    rw [List.length_take] at hne
    omega
  generalize hk : (decimal response.epoch).length - d = k at hepoch
  have hcut : (decimal response.epoch).take k ++
      ((decimal response.epoch).drop k ++
        response.request.batchHash.take (sha256HashSize - d)) ++
      (response.request.batchHash.drop (sha256HashSize - d) ++ decimal response.nonce) =
      response.message := by
    unfold EpochResponse.message
    conv_rhs =>
      rw [← List.take_append_drop k (decimal response.epoch),
        ← List.take_append_drop (sha256HashSize - d) response.request.batchHash]
    simp only [List.append_assoc]
  refine not_unambiguous hepoch ?_ hnonce hcut ?_
  · rw [List.length_append, List.length_drop, List.length_take, hhash]
    omega
  · rw [List.length_take]
    omega

/-- Two messages of the same form are the same response, or the hash begins at another place. -/
theorem moves_of_message_eq (hwf : response.WellFormed) (hwf' : response'.WellFormed)
    (heq : response'.message = response.message) :
    (response'.epoch = response.epoch ∧ response'.request.batchHash = response.request.batchHash ∧
      response'.nonce = response.nonce) ∨
    ∃ d, 0 < d ∧ d ≤ sha256HashSize ∧ (response.MovesForward d ∨ response.MovesBackward d) := by
  have hlen : response'.request.batchHash.length = response.request.batchHash.length := by
    rw [hwf.batchHash, hwf'.batchHash]
  have hle := length_decimal_le hwf.epoch
  have hle' := length_decimal_le hwf'.epoch
  have hsize : sha256HashSize = 32 := rfl
  have hhash := hwf.batchHash
  have hhash' := hwf'.batchHash
  rcases Nat.lt_trichotomy (decimal response.epoch).length (decimal response'.epoch).length with
    hlt | hsame | hgt
  · right
    obtain ⟨d, hd⟩ := Nat.exists_eq_add_of_lt hlt
    obtain ⟨he, -, hn⟩ := move_of_append_eq (d := d + 1) heq hlen (by omega) (by omega)
    refine ⟨d + 1, by omega, by omega, Or.inl ⟨?_, ?_⟩⟩
    · rw [← he]
      exact isUInt64_decimal hwf'.epoch
    · rw [← hn]
      exact isUInt64_decimal hwf'.nonce
  · left
    obtain ⟨heh, hn⟩ := List.append_inj heq (by simp only [List.length_append]; omega)
    obtain ⟨he, hh⟩ := List.append_inj heh hsame.symm
    exact ⟨decimal_injective he, hh, decimal_injective hn⟩
  · right
    obtain ⟨d, hd⟩ := Nat.exists_eq_add_of_lt hgt
    obtain ⟨he, hh, hn⟩ := move_of_append_eq (d := d + 1) heq.symm hlen.symm (by omega) (by omega)
    refine ⟨d + 1, by omega, by omega, Or.inr ⟨?_, ?_⟩⟩
    · have htake :
          (decimal response.epoch).length - (d + 1) = (decimal response'.epoch).length := by
        omega
      rw [htake, he, List.take_left]
      exact isUInt64_decimal hwf'.epoch
    · have hnonce : decimal response'.nonce =
          response.request.batchHash.drop (sha256HashSize - (d + 1)) ++ decimal response.nonce := by
        have hdrop :
            sha256HashSize - (d + 1) = (response'.request.batchHash.drop (d + 1)).length := by
          rw [List.length_drop, hhash']
        rw [hdrop, hh, List.drop_left, hn, List.take_append_drop]
      rw [← hnonce]
      exact isUInt64_decimal hwf'.nonce

end Ambiguity

/-- A message means one epoch, batch and nonce exactly if no digits can move across the ends of
    the hash, neither from it to the epoch nor from the epoch to it. -/
theorem message_unambiguous_iff {response : EpochResponse} (hwf : response.WellFormed) :
    response.Unambiguous ↔
      ¬ ∃ d, 0 < d ∧ d ≤ sha256HashSize ∧
        (response.MovesForward d ∨ response.MovesBackward d) := by
  constructor
  · rintro hun ⟨d, hpos, hle, hmove | hmove⟩
    · exact not_unambiguous_of_movesForward hwf hpos hle hmove hun
    · exact not_unambiguous_of_movesBackward hwf hpos hle hmove hun
  · intro hno response' hwf' heq
    rcases moves_of_message_eq hwf hwf' heq with hsame | hmove
    · exact hsame
    · exact absurd hmove hno

/-- A hash without digits at its ends. -/
theorem message_unambiguous_zero :
    EpochResponse.Unambiguous
      { epoch := 12, request := { batchHash := List.replicate 32 0 }, nonce := 34 } := by
  have hstay : ∀ d < 33, 0 < d →
      ¬ (EpochResponse.MovesForward
          { epoch := 12, request := { batchHash := List.replicate 32 0 }, nonce := 34 } d ∨
        EpochResponse.MovesBackward
          { epoch := 12, request := { batchHash := List.replicate 32 0 }, nonce := 34 } d) := by
    decide +kernel
  refine (message_unambiguous_iff ⟨by decide, by decide, by decide⟩).mpr ?_
  rintro ⟨d, hpos, hle, hmove⟩
  exact hstay d (Nat.lt_succ_of_le hle) hpos hmove

/-- A signature for epoch 1 is also one for epoch 12. -/
theorem message_of_two_epochs :
    EpochResponse.WellFormed
        { epoch := 1, request := { batchHash := 50 :: List.replicate 31 0 }, nonce := 34 } ∧
    EpochResponse.WellFormed
        { epoch := 12, request := { batchHash := List.replicate 31 0 ++ [51] }, nonce := 4 } ∧
    EpochResponse.message
        { epoch := 12, request := { batchHash := List.replicate 31 0 ++ [51] }, nonce := 4 } =
      EpochResponse.message
        { epoch := 1, request := { batchHash := 50 :: List.replicate 31 0 }, nonce := 34 } ∧
    ¬ EpochResponse.Unambiguous
        { epoch := 1, request := { batchHash := 50 :: List.replicate 31 0 }, nonce := 34 } := by
  have hwf : EpochResponse.WellFormed
      { epoch := 12, request := { batchHash := List.replicate 31 0 ++ [51] }, nonce := 4 } :=
    ⟨by decide, by decide, by decide⟩
  have hmessage : EpochResponse.message
        { epoch := 12, request := { batchHash := List.replicate 31 0 ++ [51] }, nonce := 4 } =
      EpochResponse.message
        { epoch := 1, request := { batchHash := 50 :: List.replicate 31 0 }, nonce := 34 } := by
    decide +kernel
  refine ⟨⟨by decide, by decide, by decide⟩, hwf, hmessage, ?_⟩
  intro hun
  exact absurd (hun _ hwf hmessage).1 (by decide)

end NeuChain.Server
