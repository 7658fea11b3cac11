/-
  The control block every server keeps about the client proxies of the cluster
  (`consensus_control_block.h`): who has confirmed an epoch, who has been silent, and who
  has been voted out since which epoch.

  `recvProofSet` handles one message of the merged raft logs. The two `CHECK`s in it never fail
  (`recvProofSet_eq`), so a server handles every sequence of messages (`exists_recvAll`).

  What decides about exclusion is a `Lib.Tally` (`ConsensusControlBlock.tally`): a message of
  type MALICIOUS casts a vote, any other message leaves it as it is (`tally_recvProofSet`), and the
  clock has no part in it. So after any sequence of messages the verdicts are those of
  `Lib.Tally.count` (`tally_recvAll`).

  `epochApproveMap` and `epochStaleBit` are vectors of length `MAX_EPOCH` that are indexed with the
  epoch of a message. An access past their end is undefined in C++; here it sets
  `outOfBounds` and has no other effect.

  Left out: locks and condition variables (every access is under `proxiesTimeoutMutex`, so a call
  is one step), log output, and setting up braft.
-/
import NeuChain.Lib.Run
import NeuChain.Lib.Tally
import NeuChain.Server.Comm

namespace NeuChain.Server

open NeuChain Lib

/-- The vote of a MALICIOUS message: its sender wants the proxy named in `proof` excluded. -/
def TransactionsWithProof.vote? (m : TransactionsWithProof) : Option (Vote Bytes Epoch) :=
  if m.type = .malicious then some { voter := m.ip, target := m.proof, since := m.epoch } else none

/-! ## The control block -/

/-- A reading of `Timer::timeNow()`, in nanoseconds. -/
abbrev Time := Int

structure ProxyBlock where
  latestEpoch : Epoch := 0
  lastHeartbeat : Time := 0
  isValid : Bool := true
  epochVoters : Epoch → Finset Bytes := fun _ => ∅
  firstInvalidEpoch : Epoch := 0

structure ConsensusControlBlock where
  start : Bool := false
  totalServerCount : Nat := 0
  proxiesTimeout : Bytes → Option ProxyBlock := fun _ => none
  epochApproveMap : Epoch → Finset Bytes := fun _ => ∅
  epochStaleBit : Epoch → Bool := fun _ => false
  /-- The calls of `maliciousBroadcastHandle`, the latest first. -/
  broadcasts : List (Bytes × Epoch) := []
  outOfBounds : Bool := false

namespace ConsensusControlBlock

/-- What `proxiesTimeout[ip]` refers to; `operator[]` creates a missing entry. -/
def proxy (cb : ConsensusControlBlock) (ip : Bytes) : ProxyBlock :=
  (cb.proxiesTimeout ip).getD {}

def setProxy (cb : ConsensusControlBlock) (ip : Bytes) (blk : ProxyBlock) :
    ConsensusControlBlock :=
  { cb with proxiesTimeout := Function.update cb.proxiesTimeout ip (some blk) }

def setConsensusCount (cb : ConsensusControlBlock) (total : Nat) :
    Option ConsensusControlBlock :=
  if cb.start then none else some { cb with totalServerCount := total }

def startService (cb : ConsensusControlBlock) : Option ConsensusControlBlock :=
  if cb.start then none else some { cb with start := true }

def confirmedClientProxy (cb : ConsensusControlBlock) (observerId : Bytes) (epoch : Epoch) :
    ConsensusControlBlock :=
  if epoch < MAX_EPOCH then
    { cb with
      epochApproveMap := Function.update cb.epochApproveMap epoch
        (insert observerId (cb.epochApproveMap epoch)) }
  else { cb with outOfBounds := true }

def maliciousTarget (cb : ConsensusControlBlock) (targetId : Bytes) (epoch : Epoch) :
    ConsensusControlBlock :=
  let cb := cb.setProxy targetId
    { cb.proxy targetId with isValid := false, firstInvalidEpoch := epoch }
  let cb := { cb with broadcasts := (targetId, epoch) :: cb.broadcasts }
  if epoch < MAX_EPOCH then
    { cb with
      epochStaleBit := Function.update cb.epochStaleBit epoch true
      epochApproveMap := fun i =>
        if epoch ≤ i ∧ i < MAX_EPOCH then insert targetId (cb.epochApproveMap i)
        else cb.epochApproveMap i }
  else { cb with outOfBounds := true }

/-- `f + 1` of `3f + 1` servers. -/
def votersNeeded (cb : ConsensusControlBlock) : Nat := (cb.totalServerCount - 1) / 3 + 1

def obtainMalicious (cb : ConsensusControlBlock) (observerId targetId : Bytes) (epoch : Epoch) :
    ConsensusControlBlock :=
  let targetCB := cb.proxy targetId
  if !targetCB.isValid then cb.setProxy targetId targetCB
  else
    let voters := insert observerId (targetCB.epochVoters epoch)
    let cb := cb.setProxy targetId
      { targetCB with epochVoters := Function.update targetCB.epochVoters epoch voters }
    if cb.votersNeeded ≤ voters.card then cb.maliciousTarget targetId epoch else cb

/-- One message, handled at time `now`; `none` if a `CHECK` fails. -/
def recvProofSet (cb : ConsensusControlBlock) (now : Time) (proofSet : TransactionsWithProof) :
    Option ConsensusControlBlock :=
  if !cb.start then some cb
  else
    let emitter := proofSet.ip
    if (cb.proxiesTimeout emitter).any (fun blk => !blk.isValid) then some cb
    else
      match proofSet.type with
      | .heartbeat =>
          let blk := { cb.proxy emitter with lastHeartbeat := now }
          if blk.isValid then some (cb.setProxy emitter blk) else none
      | .con =>
          let blk := { cb.proxy emitter with latestEpoch := proofSet.epoch, lastHeartbeat := now }
          if blk.isValid then
            some ((cb.setProxy emitter blk).confirmedClientProxy emitter proofSet.epoch)
          else none
      | .malicious =>
          let blk := cb.proxy emitter
          let cb := cb.setProxy emitter blk
          if !blk.isValid then some cb
          else some (cb.obtainMalicious emitter proofSet.proof proofSet.epoch)
      | _ => some cb

/-- The loop of `receiver_from_multi_raft_instance` over the messages it pops, each with the time
    at which it is handled. -/
def recvAll (cb : ConsensusControlBlock) (msgs : List (Time × TransactionsWithProof)) :
    Option ConsensusControlBlock :=
  run (fun cb m => cb.recvProofSet m.1 m.2) cb msgs

/-- A control block in service for `n` servers: constructed, `setConsensusCount`,
    `startService`. -/
def started (n : Nat) : ConsensusControlBlock := { start := true, totalServerCount := n }

/-! ## Votes and verdicts -/

def isValid (cb : ConsensusControlBlock) (ip : Bytes) : Bool := (cb.proxy ip).isValid

def firstInvalidEpoch (cb : ConsensusControlBlock) (ip : Bytes) : Epoch :=
  (cb.proxy ip).firstInvalidEpoch

/-- The part of the control block that decides about exclusion. -/
def tally (cb : ConsensusControlBlock) : Tally Bytes Epoch where
  voters ip := (cb.proxy ip).epochVoters
  verdict ip := if cb.isValid ip then none else some (cb.firstInvalidEpoch ip)

section

variable (cb : ConsensusControlBlock) (ip ip' : Bytes) (blk : ProxyBlock)

theorem proxy_setProxy :
    (cb.setProxy ip blk).proxy ip' = if ip' = ip then blk else cb.proxy ip' := by
  unfold proxy setProxy
  by_cases h : ip' = ip
  · subst h
    simp
  · simp [h]

theorem setProxy_proxy : (cb.setProxy ip (cb.proxy ip)).proxy = cb.proxy := by
  funext ip'
  rw [proxy_setProxy]
  split
  · rename_i h; rw [h]
  · rfl

theorem any_invalid :
    (cb.proxiesTimeout ip).any (fun blk => !blk.isValid) = !cb.isValid ip := by
  unfold isValid proxy
  cases cb.proxiesTimeout ip <;> rfl

theorem verdict_eq_none : cb.tally.verdict ip = none ↔ cb.isValid ip = true := by
  cases h : cb.isValid ip <;> simp [tally, h]

theorem verdict_eq_some (e : Epoch) :
    cb.tally.verdict ip = some e ↔ cb.isValid ip = false ∧ cb.firstInvalidEpoch ip = e := by
  cases h : cb.isValid ip <;> simp [tally, h]

theorem isSome_verdict : (cb.tally.verdict ip).isSome = !cb.isValid ip := by
  cases h : cb.isValid ip <;> simp [tally, h]

end

variable {cb cb' : ConsensusControlBlock} {now : Time} {m : TransactionsWithProof}

/-- The tally depends on the entries of the proxies only. -/
theorem tally_congr (h : cb.proxy = cb'.proxy) : cb.tally = cb'.tally := by
  unfold tally isValid firstInvalidEpoch
  rw [h]

/-- Setting the times of a proxy does not touch its votes. -/
theorem tally_setProxy {ip : Bytes} {blk : ProxyBlock} (hv : blk.isValid = cb.isValid ip)
    (hf : blk.firstInvalidEpoch = cb.firstInvalidEpoch ip)
    (hvo : blk.epochVoters = (cb.proxy ip).epochVoters) : (cb.setProxy ip blk).tally = cb.tally := by
  have hp : ∀ ip', ip' = ip ∨ (cb.setProxy ip blk).proxy ip' = cb.proxy ip' := by
    intro ip'
    by_cases h : ip' = ip
    · exact Or.inl h
    · right; rw [proxy_setProxy, if_neg h]
  have hip : (cb.setProxy ip blk).proxy ip = blk := by rw [proxy_setProxy, if_pos rfl]
  unfold tally isValid firstInvalidEpoch at *
  congr 1
  · funext ip'
    rcases hp ip' with rfl | h
    · rw [hip, hvo]
    · rw [h]
  · funext ip'
    rcases hp ip' with rfl | h
    · rw [hip, hv, hf]
    · rw [h]

theorem proxy_confirmedClientProxy (ip : Bytes) (e : Epoch) :
    (cb.confirmedClientProxy ip e).proxy = cb.proxy := by
  unfold confirmedClientProxy
  split <;> rfl

theorem proxy_maliciousTarget (t : Bytes) (e : Epoch) :
    (cb.maliciousTarget t e).proxy =
      (cb.setProxy t { cb.proxy t with isValid := false, firstInvalidEpoch := e }).proxy := by
  unfold maliciousTarget
  dsimp only
  split <;> rfl

theorem obtainMalicious_of_invalid {o t : Bytes} {e : Epoch} (ht : cb.isValid t = false) :
    (cb.obtainMalicious o t e).proxy = cb.proxy := by
  have ht' : (cb.proxy t).isValid = false := ht
  unfold obtainMalicious
  rw [if_pos (by simp [ht'])]
  exact setProxy_proxy cb t

/-- The entry of the target after a vote against it. -/
def votedAgainst (cb : ConsensusControlBlock) (o t : Bytes) (e : Epoch) : ProxyBlock :=
  let voters := insert o ((cb.proxy t).epochVoters e)
  let blk := { cb.proxy t with epochVoters := Function.update (cb.proxy t).epochVoters e voters }
  if cb.votersNeeded ≤ voters.card then { blk with isValid := false, firstInvalidEpoch := e }
  else blk

theorem epochVoters_votedAgainst (o t : Bytes) (e : Epoch) :
    (cb.votedAgainst o t e).epochVoters =
      Function.update (cb.proxy t).epochVoters e (insert o ((cb.proxy t).epochVoters e)) := by
  unfold votedAgainst
  dsimp only
  split <;> rfl

theorem verdict_votedAgainst {o t : Bytes} {e : Epoch} (ht : cb.isValid t = true) :
    (if (cb.votedAgainst o t e).isValid then none
      else some (cb.votedAgainst o t e).firstInvalidEpoch) =
    if t = t ∧ cb.votersNeeded ≤ (insert o (cb.tally.voters t e)).card then some e else none := by
  have ht' : (cb.proxy t).isValid = true := ht
  unfold votedAgainst
  by_cases hq : cb.votersNeeded ≤ (insert o ((cb.proxy t).epochVoters e)).card
  · simp [hq, tally]
  · simp [hq, tally, ht']

theorem obtainMalicious_of_valid {o t : Bytes} {e : Epoch} (ht : cb.isValid t = true) :
    (cb.obtainMalicious o t e).proxy = (cb.setProxy t (cb.votedAgainst o t e)).proxy := by
  have ht' : (cb.proxy t).isValid = true := ht
  unfold obtainMalicious votedAgainst
  rw [if_neg (by simp [ht'])]
  dsimp only
  have hneed : ∀ blk, (cb.setProxy t blk).votersNeeded = cb.votersNeeded := fun _ => rfl
  rw [hneed]
  split
  · rw [proxy_maliciousTarget]
    funext ip
    simp only [proxy_setProxy, if_pos]
    split <;> rfl
  · rfl

/-- The vote of a valid proxy is counted as `Lib.Tally.cast` counts it. -/
theorem tally_obtainMalicious (o t : Bytes) (e : Epoch) (ho : cb.isValid o = true) :
    (cb.obtainMalicious o t e).tally =
      cb.tally.cast cb.votersNeeded { voter := o, target := t, since := e } := by
  have hov : cb.tally.verdict o = none := (verdict_eq_none _ _).mpr ho
  cases ht : cb.isValid t with
  | false =>
      have hclosed : (cb.tally.verdict t).isSome = true := by rw [isSome_verdict, ht]; rfl
      rw [cast_of_closed (Or.inr hclosed)]
      exact tally_congr (obtainMalicious_of_invalid ht)
  | true =>
      have htv : cb.tally.verdict t = none := (verdict_eq_none _ _).mpr ht
      have hp := proxy_setProxy cb t
      rw [tally_congr (obtainMalicious_of_valid ht)]
      refine Tally.ext ?_ ?_
      · funext ip e'
        rw [cast_voters_of_open hov htv]
        by_cases hip : ip = t
        · subst hip
          by_cases he : e' = e
          · simp [tally, hp, epochVoters_votedAgainst, he]
          · simp [tally, hp, epochVoters_votedAgainst, he]
        · simp [tally, hp, hip]
      · funext ip
        rw [cast_verdict_of_open hov htv]
        by_cases hip : ip = t
        · subst hip
          rw [htv, ← verdict_votedAgainst ht]
          simp [tally, isValid, firstInvalidEpoch, hp]
        · rw [if_neg fun h => hip h.1]
          unfold tally isValid firstInvalidEpoch
          dsimp only
          rw [hp, if_neg hip]

/-! ## One message -/

/-- What a message of a valid proxy does. -/
def handle (cb : ConsensusControlBlock) (now : Time) (m : TransactionsWithProof) :
    ConsensusControlBlock :=
  match m.type with
  | .heartbeat => cb.setProxy m.ip { cb.proxy m.ip with lastHeartbeat := now }
  | .con =>
      (cb.setProxy m.ip { cb.proxy m.ip with latestEpoch := m.epoch, lastHeartbeat := now }
        ).confirmedClientProxy m.ip m.epoch
  | .malicious => (cb.setProxy m.ip (cb.proxy m.ip)).obtainMalicious m.ip m.proof m.epoch
  | _ => cb

/-- The `CHECK`s of `recvProofSet` do not fail: they come after the same test. -/
theorem recvProofSet_eq (cb : ConsensusControlBlock) (now : Time) (m : TransactionsWithProof) :
    cb.recvProofSet now m = some (if cb.start ∧ cb.isValid m.ip then cb.handle now m else cb) := by
  unfold recvProofSet handle
  dsimp only
  rw [any_invalid]
  cases hs : cb.start with
  | false => simp
  | true =>
      cases hv : cb.isValid m.ip with
      | false => simp
      | true =>
          have hv' : (cb.proxy m.ip).isValid = true := hv
          cases m.type <;> simp [hv']

/-- What one message does to the votes. -/
theorem tally_recvProofSet (hs : cb.start = true) (h : cb.recvProofSet now m = some cb') :
    cb'.tally = (m.vote?.elim cb.tally (cb.tally.cast cb.votersNeeded)) := by
  rw [recvProofSet_eq, hs] at h
  unfold TransactionsWithProof.vote?
  cases hv : cb.isValid m.ip with
  | false =>
      rw [if_neg (by simp [hv])] at h
      cases h
      split
      · -- a vote of an excluded proxy is ignored
        have hclosed : (cb.tally.verdict m.ip).isSome = true := by rw [isSome_verdict, hv]; rfl
        exact (cast_of_closed (Or.inl hclosed)).symm
      · rfl
  | true =>
      rw [if_pos ⟨rfl, hv⟩] at h
      cases h
      unfold handle
      cases hm : m.type with
      | heartbeat => exact tally_setProxy rfl rfl rfl
      | con => exact (tally_congr (proxy_confirmedClientProxy _ _)).trans (tally_setProxy rfl rfl rfl)
      | malicious =>
          have hset := setProxy_proxy cb m.ip
          have hval : (cb.setProxy m.ip (cb.proxy m.ip)).isValid m.ip = true := by
            unfold isValid
            rw [hset]
            exact hv
          show ((cb.setProxy m.ip (cb.proxy m.ip)).obtainMalicious m.ip m.proof m.epoch).tally = _
          rw [tally_obtainMalicious _ _ _ hval, tally_congr hset]
          rfl
      | tx => rfl
      | other c => rfl

theorem config_maliciousTarget (t : Bytes) (e : Epoch) :
    (cb.maliciousTarget t e).start = cb.start ∧
      (cb.maliciousTarget t e).totalServerCount = cb.totalServerCount := by
  unfold maliciousTarget
  dsimp only
  split <;> exact ⟨rfl, rfl⟩

theorem config_obtainMalicious (o t : Bytes) (e : Epoch) :
    (cb.obtainMalicious o t e).start = cb.start ∧
      (cb.obtainMalicious o t e).totalServerCount = cb.totalServerCount := by
  unfold obtainMalicious
  dsimp only
  split
  · exact ⟨rfl, rfl⟩
  · split
    · exact config_maliciousTarget _ _
    · exact ⟨rfl, rfl⟩

theorem config_recvProofSet (h : cb.recvProofSet now m = some cb') :
    cb'.start = cb.start ∧ cb'.totalServerCount = cb.totalServerCount := by
  rw [recvProofSet_eq] at h
  cases h
  split
  · unfold handle
    cases m.type with
    | con =>
        dsimp only
        unfold confirmedClientProxy
        split <;> exact ⟨rfl, rfl⟩
    | malicious => exact config_obtainMalicious _ _ _
    | heartbeat => exact ⟨rfl, rfl⟩
    | tx => exact ⟨rfl, rfl⟩
    | other c => exact ⟨rfl, rfl⟩
  · exact ⟨rfl, rfl⟩

/-! ## A sequence of messages -/

theorem exists_recvAll (cb : ConsensusControlBlock) (msgs : List (Time × TransactionsWithProof)) :
    ∃ cb', cb.recvAll msgs = some cb' := by
  induction msgs generalizing cb with
  | nil => exact ⟨cb, rfl⟩
  | cons m msgs ih =>
      obtain ⟨cb', h'⟩ := ih _
      exact ⟨cb', run_cons_eq_some.mpr ⟨_, recvProofSet_eq cb m.1 m.2, h'⟩⟩

/-- The votes in a sequence of messages. -/
def votes (msgs : List TransactionsWithProof) : List (Vote Bytes Epoch) :=
  msgs.filterMap TransactionsWithProof.vote?

theorem foldl_tally_recvAll {msgs : List (Time × TransactionsWithProof)} (hs : cb.start = true)
    (h : cb.recvAll msgs = some cb') :
    cb'.tally = (votes (msgs.map Prod.snd)).foldl (Tally.cast cb.votersNeeded) cb.tally := by
  induction msgs generalizing cb with
  | nil => cases h; rfl
  | cons m msgs ih =>
      obtain ⟨cb₁, h₁, hr⟩ := run_cons_eq_some.mp h
      obtain ⟨hstart, hcount⟩ := config_recvProofSet h₁
      have hneed : cb₁.votersNeeded = cb.votersNeeded := by unfold votersNeeded; rw [hcount]
      rw [ih (hstart.trans hs) hr, tally_recvProofSet hs h₁, hneed]
      unfold votes
      rw [List.map_cons, List.filterMap_cons]
      cases m.2.vote? <;> rfl

/-- The control block of a server has counted the votes it received. -/
theorem tally_recvAll {n : Nat} {msgs : List (Time × TransactionsWithProof)}
    (h : (started n).recvAll msgs = some cb) :
    cb.tally = Tally.count ((n - 1) / 3 + 1) (votes (msgs.map Prod.snd)) :=
  foldl_tally_recvAll rfl h

end ConsensusControlBlock

end NeuChain.Server
