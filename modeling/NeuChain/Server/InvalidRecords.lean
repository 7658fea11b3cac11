/-
  The three records a server keeps of an invalid proxy.

  The control block has an entry for the proxy (`ProxyBlock`), the client proxy has a pair in
  `invalidBits` that its callback fills in, and each transaction that was received from the proxy
  points to that pair. Two predicates answer from them: `Transaction::isValid` from the pair, and
  `isCurrentEpochInvalid` from the entry.

  The records themselves are in step. The callback is called once for a proxy, so its `CHECK` does
  not fail, and after every message the pair says what the entry says (`InStep`). The predicates are
  not: both take a proxy that nobody has voted out for an invalid one, and `isValid` takes every
  transaction of an invalid proxy for a valid one. So they give the right answer together only about
  the epochs before the first invalid one (`records_agree_iff`).
-/
import NeuChain.Server.ClientProxy
import NeuChain.Server.ConsensusControlBlock

namespace NeuChain

/-- `Transaction::isValid`. The bit is what `setInvalidBit` has left: the pair it points to now, or
    the null pointer every transaction starts with. -/
def Transaction.isValid (t : Transaction) (invalidBit : Option Server.InvalidBit) : Bool :=
  match invalidBit with
  | none => true
  | some bit =>
      if !bit.second then
        if bit.first ≤ t.epoch then false else true
      else true

end NeuChain

namespace NeuChain.Server

open NeuChain Lib

/-! ## The model -/

/-- The entry that `operator[]` may create is the one that `proxy` reads anyway. -/
def ConsensusControlBlock.isCurrentEpochInvalid (cb : ConsensusControlBlock) (ip : Bytes)
    (epoch : Epoch) : Bool :=
  if (cb.proxy ip).isValid then true
  else decide ((cb.proxy ip).firstInvalidEpoch ≤ epoch)

/-- The members of `ClientProxy` that hold the records. A pair of `invalidBits` is `(0, false)` from
    the start, whether the constructor sets it or `operator[]`. -/
structure ClientProxy where
  ccb : ConsensusControlBlock
  invalidBits : Bytes → InvalidBit := fun _ => {}

namespace ClientProxy

/-- The function given to `setMaliciousCallbackHandle`; `none` if the `CHECK` fails. -/
def maliciousCallback (invalidBits : Bytes → InvalidBit) (call : Bytes × Epoch) :
    Option (Bytes → InvalidBit) :=
  if (invalidBits call.1).first ≠ 0 then none
  else some (Function.update invalidBits call.1 ⟨call.2, true⟩)

/-- The calls of the handle between two states of the control block, the earliest first. -/
def callsSince (before after : ConsensusControlBlock) : List (Bytes × Epoch) :=
  (after.broadcasts.take (after.broadcasts.length - before.broadcasts.length)).reverse

/-- `recvProofSet` with the callback installed. The handle is called under the lock of the control
    block, so the calls belong to the message. -/
def recvProofSet (s : ClientProxy) (now : Time) (proofSet : TransactionsWithProof) :
    Option ClientProxy := do
  let ccb ← s.ccb.recvProofSet now proofSet
  let invalidBits ← (callsSince s.ccb ccb).foldlM maliciousCallback s.invalidBits
  return { ccb := ccb, invalidBits := invalidBits }

/-- The proxy of a server in a cluster of `n`, when the service has been started. -/
def started (n : Nat) : ClientProxy := { ccb := .started n }

def recvAll (s : ClientProxy) (msgs : List (Time × TransactionsWithProof)) : Option ClientProxy :=
  run (fun s m => s.recvProofSet m.1 m.2) s msgs

end ClientProxy

/-! ## What a message does to the verdicts -/

namespace ConsensusControlBlock

variable {cb cb' : ConsensusControlBlock} {now : Time} {m : TransactionsWithProof}

/-- Either the handle is not called and all verdicts stay, or it is called once, for a proxy that
    was valid and is not any more. -/
def HandleStep (cb cb' : ConsensusControlBlock) : Prop :=
  (cb'.broadcasts = cb.broadcasts ∧ cb'.tally.verdict = cb.tally.verdict) ∨
    ∃ t e, cb.isValid t = true ∧ cb'.broadcasts = (t, e) :: cb.broadcasts ∧
      cb'.tally.verdict = Function.update cb.tally.verdict t (some e)

theorem HandleStep.refl (cb : ConsensusControlBlock) : HandleStep cb cb := Or.inl ⟨rfl, rfl⟩

theorem verdict_eq_of_proxy (h : cb'.proxy = cb.proxy) : cb'.tally.verdict = cb.tally.verdict := by
  rw [tally_congr h]

theorem broadcasts_maliciousTarget (t : Bytes) (e : Epoch) :
    (cb.maliciousTarget t e).broadcasts = (t, e) :: cb.broadcasts := by
  unfold maliciousTarget
  dsimp only
  split <;> rfl

theorem verdict_maliciousTarget (t : Bytes) (e : Epoch) :
    (cb.maliciousTarget t e).tally.verdict = Function.update cb.tally.verdict t (some e) := by
  funext ip
  unfold tally isValid firstInvalidEpoch
  dsimp only
  rw [proxy_maliciousTarget, proxy_setProxy]
  by_cases hip : ip = t
  · subst hip
    simp
  · simp [hip]

theorem broadcasts_confirmedClientProxy (ip : Bytes) (e : Epoch) :
    (cb.confirmedClientProxy ip e).broadcasts = cb.broadcasts := by
  unfold confirmedClientProxy
  split <;> rfl

theorem handleStep_obtainMalicious (o t : Bytes) (e : Epoch) :
    HandleStep cb (cb.obtainMalicious o t e) := by
  cases ht : cb.isValid t with
  | false =>
      have ht' : (cb.proxy t).isValid = false := ht
      refine Or.inl ⟨?_, verdict_eq_of_proxy (obtainMalicious_of_invalid ht)⟩
      unfold obtainMalicious
      rw [if_pos (by simp [ht'])]
      rfl
  | true =>
      have ht' : (cb.proxy t).isValid = true := ht
      unfold obtainMalicious
      rw [if_neg (by simp [ht'])]
      dsimp only
      split
      · refine Or.inr ⟨t, e, ht, broadcasts_maliciousTarget t e, ?_⟩
        rw [verdict_maliciousTarget]
        -- noting the voter does not touch a verdict, and that of the target is overwritten
        funext ip
        by_cases hip : ip = t
        · subst hip
          simp
        · rw [Function.update_of_ne hip, Function.update_of_ne hip]
          unfold tally isValid firstInvalidEpoch
          dsimp only
          rw [proxy_setProxy, if_neg hip]
      · refine Or.inl ⟨rfl, ?_⟩
        funext ip
        unfold tally isValid firstInvalidEpoch
        dsimp only
        rw [proxy_setProxy]
        by_cases hip : ip = t
        · rw [if_pos hip, hip]
        · rw [if_neg hip]

theorem handleStep_recvProofSet (h : cb.recvProofSet now m = some cb') : HandleStep cb cb' := by
  rw [recvProofSet_eq] at h
  cases h
  split
  · unfold handle
    cases m.type with
    | heartbeat => exact Or.inl ⟨rfl, congrArg Tally.verdict (tally_setProxy rfl rfl rfl)⟩
    | con =>
        refine Or.inl ⟨broadcasts_confirmedClientProxy _ _, ?_⟩
        rw [verdict_eq_of_proxy (proxy_confirmedClientProxy _ _)]
        exact congrArg Tally.verdict (tally_setProxy rfl rfl rfl)
    | malicious =>
        have hset := setProxy_proxy cb m.ip
        have hstep : HandleStep (cb.setProxy m.ip (cb.proxy m.ip)) _ :=
          handleStep_obtainMalicious m.ip m.proof m.epoch
        rcases hstep with ⟨hb, hv⟩ | ⟨t, e, ht, hb, hv⟩
        · exact Or.inl ⟨hb, hv.trans (verdict_eq_of_proxy hset)⟩
        · refine Or.inr ⟨t, e, ?_, hb, by rw [hv, verdict_eq_of_proxy hset]⟩
          unfold isValid at ht
          rw [hset] at ht
          exact ht
    | tx => exact .refl cb
    | other c => exact .refl cb
  · exact .refl cb

end ConsensusControlBlock

/-! ## The records are in step -/

namespace ClientProxy

variable {s : ClientProxy}

/-- The pair of every proxy says what the control block has decided. -/
def InStep (s : ClientProxy) : Prop :=
  ∀ p, s.invalidBits p = (s.ccb.tally.verdict p).elim {} fun e => ⟨e, true⟩

theorem inStep_started (n : Nat) : InStep (started n) := fun _ => rfl

/-- The callback finds the pair of its proxy as it was in the beginning. -/
theorem InStep.recvProofSet (h : InStep s) (now : Time) (m : TransactionsWithProof) :
    ∃ s', s.recvProofSet now m = some s' ∧ InStep s' := by
  obtain ⟨ccb, hccb⟩ : ∃ ccb, s.ccb.recvProofSet now m = some ccb :=
    ⟨_, ConsensusControlBlock.recvProofSet_eq s.ccb now m⟩
  unfold ClientProxy.recvProofSet callsSince
  rw [hccb]
  rcases ConsensusControlBlock.handleStep_recvProofSet hccb with ⟨hb, hv⟩ | ⟨t, e, ht, hb, hv⟩
  · refine ⟨{ ccb := ccb, invalidBits := s.invalidBits }, ?_, fun p => ?_⟩
    · simp [hb]
    · rw [hv]
      exact h p
  · have hfresh : s.invalidBits t = {} := by
      rw [h t, (ConsensusControlBlock.verdict_eq_none _ _).mpr ht]
      rfl
    refine ⟨{ ccb := ccb, invalidBits := Function.update s.invalidBits t ⟨e, true⟩ }, ?_,
      fun p => ?_⟩
    · simp [hb, maliciousCallback, hfresh]
    · rw [hv]
      by_cases hp : p = t
      · subst hp
        simp
      · dsimp only
        rw [Function.update_of_ne hp, Function.update_of_ne hp]
        exact h p

theorem InStep.recvAll (h : InStep s) (msgs : List (Time × TransactionsWithProof)) :
    ∃ s', s.recvAll msgs = some s' ∧ InStep s' := by
  induction msgs generalizing s with
  | nil => exact ⟨s, rfl, h⟩
  | cons m msgs ih =>
      obtain ⟨s₁, h₁, hin⟩ := h.recvProofSet m.1 m.2
      obtain ⟨s', hr, hin'⟩ := ih hin
      exact ⟨s', run_cons_eq_some.mpr ⟨s₁, h₁, hr⟩, hin'⟩

/-! ## The predicates over them -/

/-- Proxy `p` has been invalidated, with a first invalid epoch that is not after `e`. -/
def InvalidSince (s : ClientProxy) (p : Bytes) (e : Epoch) : Prop :=
  s.ccb.isValid p = false ∧ s.ccb.firstInvalidEpoch p ≤ e

/-- Both predicates give the verdict about proxy `p` in epoch `e`: the one for the
    transactions of that epoch that were received from `p`, the other for the epoch. -/
structure RecordsAgree (s : ClientProxy) (p : Bytes) (e : Epoch) : Prop where
  transaction : ∀ t : Transaction, t.epoch = e →
    (t.isValid (some (s.invalidBits p)) = false ↔ InvalidSince s p e)
  controlBlock : s.ccb.isCurrentEpochInvalid p e = true ↔ InvalidSince s p e

/-- A transaction is reported as invalid as long as its proxy is valid. -/
theorem InStep.isValid_eq (h : InStep s) (p : Bytes) (t : Transaction) :
    t.isValid (some (s.invalidBits p)) = !s.ccb.isValid p := by
  rw [h p]
  unfold Transaction.isValid
  cases hv : s.ccb.isValid p with
  | true =>
      rw [(ConsensusControlBlock.verdict_eq_none _ _).mpr hv]
      simp
  | false =>
      rw [(ConsensusControlBlock.verdict_eq_some _ _ _).mpr ⟨hv, rfl⟩]
      simp

theorem isCurrentEpochInvalid_iff (cb : ConsensusControlBlock) (p : Bytes) (e : Epoch) :
    cb.isCurrentEpochInvalid p e = true ↔ cb.isValid p = true ∨ cb.firstInvalidEpoch p ≤ e := by
  unfold ConsensusControlBlock.isCurrentEpochInvalid ConsensusControlBlock.isValid
    ConsensusControlBlock.firstInvalidEpoch
  cases (cb.proxy p).isValid <;> simp

theorem InStep.recordsAgree_iff (h : InStep s) (p : Bytes) (e : Epoch) :
    RecordsAgree s p e ↔ s.ccb.isValid p = false ∧ e < s.ccb.firstInvalidEpoch p := by
  constructor
  · rintro ⟨ht, hc⟩
    have ht := ht { epoch := e } rfl
    rw [h.isValid_eq] at ht
    rw [isCurrentEpochInvalid_iff] at hc
    unfold InvalidSince at ht hc
    cases hv : s.ccb.isValid p with
    | true =>
        -- a valid proxy: the code says invalid
        rw [hv] at hc
        cases (hc.mp (Or.inl rfl)).1
    | false =>
        rw [hv] at ht
        refine ⟨rfl, Nat.lt_of_not_le fun hle => ?_⟩
        cases ht.mpr ⟨rfl, hle⟩
  · rintro ⟨hv, hlt⟩
    have hnot : ¬ InvalidSince s p e := fun hs => absurd hs.2 (Nat.not_le_of_lt hlt)
    refine ⟨fun t _ => ?_, ?_⟩
    · rw [h.isValid_eq, hv]
      exact iff_of_false (by decide) hnot
    · rw [isCurrentEpochInvalid_iff, hv]
      refine iff_of_false ?_ hnot
      rintro (hv | hle)
      · cases hv
      · exact absurd hle (Nat.not_le_of_lt hlt)

/-- A server handles every sequence of messages, and after it the predicates agree with the verdict
    about a proxy and an epoch just when the proxy is invalid and the epoch is before its
    first invalid one. -/
theorem records_agree_iff (n : Nat) (msgs : List (Time × TransactionsWithProof)) :
    ∃ s, (started n).recvAll msgs = some s ∧
      ∀ p e, RecordsAgree s p e ↔ s.ccb.isValid p = false ∧ e < s.ccb.firstInvalidEpoch p := by
  obtain ⟨s, hs, hin⟩ := (inStep_started n).recvAll msgs
  exact ⟨s, hs, fun p e => hin.recordsAgree_iff p e⟩

/-- In a cluster of four. Before any message every transaction is reported as invalid, and every
    epoch. After two votes against a proxy since epoch 5 its transactions of epoch 5 are reported as
    valid. -/
theorem records_disagree :
    (∃ s, (started 4).recvAll [] = some s ∧ s.ccb.isValid [1] = true ∧
      ({ epoch := 1 } : Transaction).isValid (some (s.invalidBits [1])) = false ∧
      s.ccb.isCurrentEpochInvalid [1] 1 = true ∧ ¬ RecordsAgree s [1] 1) ∧
    ∃ s, (started 4).recvAll
        [(0, { type := .malicious, ip := [2], proof := [1], epoch := 5 }),
          (0, { type := .malicious, ip := [3], proof := [1], epoch := 5 })] = some s ∧
      InvalidSince s [1] 5 ∧
      ({ epoch := 5 } : Transaction).isValid (some (s.invalidBits [1])) = true ∧
      ¬ RecordsAgree s [1] 5 := by
  refine ⟨⟨started 4, rfl, rfl, rfl, rfl, fun h => ?_⟩, _, rfl, ⟨rfl, ?_⟩, rfl, fun h => ?_⟩
  · cases (h.controlBlock.mp rfl).1
  · exact Nat.le_refl 5
  · cases (h.transaction { epoch := 5 } rfl).mpr ⟨rfl, Nat.le_refl 5⟩

end ClientProxy

end NeuChain.Server
