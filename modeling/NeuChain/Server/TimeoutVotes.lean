/-
  When a server votes against a proxy that has been silent: `spinCheckTimeout`.

  Once a second the check goes through `proxiesTimeout` and votes against every valid proxy whose
  last heartbeat is more than three seconds old, since the epoch after the one it confirmed last. It
  reads the entries and changes none, so its votes depend on the messages processed before it
  (`processed`) and the time:

  * the time in an entry is that of the last HEARTBEAT or CON message of the proxy, or 0, and the
    epoch is that of the last CON message, whatever came before (`Watched`);
  * an entry is there as soon as the proxy has been heard, or has sent a MALICIOUS message, or
    is named in one.

  So the epoch of a vote is above every confirmed one just when the last CON message has the
  greatest epoch (`timeout_vote_unconfirmed_iff`), and a proxy that has never been heard
  is voted against because somebody else has done so (`timeout_vote_iff`).

  `span(lastHeartbeat, currentTime) > 3` is a comparison of doubles, which tells apart all
  differences of nanoseconds near three seconds. Left out: `isCurrentEpochInvalid`, which nothing
  calls, and the HEARTBEAT message the thread sends after the check.
-/
import Mathlib.Algebra.Ring.Nat
import NeuChain.Server.ConsensusControlBlock

namespace NeuChain.Server.ConsensusControlBlock

open NeuChain Lib

/-! ## The check -/

/-- The message of `broadcastMaliciousViewChange`. -/
def maliciousViewChange (localIp maliciousIP : Bytes) (maliciousEpoch : Epoch) :
    TransactionsWithProof :=
  { epoch := maliciousEpoch, ip := localIp, proof := maliciousIP, type := .malicious }

/-- The vote that the loop of `spinCheckTimeout` broadcasts when it comes to the entry of `ip`. -/
def spinCheckTimeout (cb : ConsensusControlBlock) (localIp : Bytes) (currentTime : Time)
    (ip : Bytes) : Option TransactionsWithProof :=
  match cb.proxiesTimeout ip with
  | none => none
  | some blk =>
      if blk.isValid ∧ 3000000000 < currentTime - blk.lastHeartbeat then
        -- `epoch_size_t` has 64 bits
        some (maliciousViewChange localIp ip ((blk.latestEpoch + 1) % 2 ^ 64))
      else none

/-- The messages that are not dropped. -/
def processed (cb : ConsensusControlBlock) :
    List (Time × TransactionsWithProof) → List (Time × TransactionsWithProof)
  | [] => []
  | m :: msgs =>
      let rest := processed ((cb.recvProofSet m.1 m.2).getD cb) msgs
      if cb.start ∧ cb.isValid m.2.ip then m :: rest else rest

/-- `m` shows that `ip` is there. -/
def Shows (ip : Bytes) (m : Time × TransactionsWithProof) : Prop :=
  m.2.ip = ip ∧ (m.2.type = .heartbeat ∨ m.2.type = .con)

def Confirms (ip : Bytes) (m : Time × TransactionsWithProof) : Prop :=
  m.2.ip = ip ∧ m.2.type = .con

/-- `m` is a vote, by `ip` or against it. -/
def Accuses (ip : Bytes) (m : Time × TransactionsWithProof) : Prop :=
  m.2.type = .malicious ∧ (m.2.ip = ip ∨ m.2.proof = ip)

instance (ip : Bytes) : DecidablePred (Shows ip) :=
  fun m => inferInstanceAs (Decidable (m.2.ip = ip ∧ (m.2.type = .heartbeat ∨ m.2.type = .con)))

instance (ip : Bytes) : DecidablePred (Confirms ip) :=
  fun m => inferInstanceAs (Decidable (m.2.ip = ip ∧ m.2.type = .con))

instance (ip : Bytes) : DecidablePred (Accuses ip) :=
  fun m => inferInstanceAs
    (Decidable (m.2.type = .malicious ∧ (m.2.ip = ip ∨ m.2.proof = ip)))

/-- When `ip` was heard last. -/
def lastHeard (ip : Bytes) (past : List (Time × TransactionsWithProof)) : Option Time :=
  (past.filter (Shows ip ·)).getLast?.map Prod.fst

/-- The epoch of the last CON message of `ip`, 0 before the first. -/
def lastConfirmed (ip : Bytes) (past : List (Time × TransactionsWithProof)) : Epoch :=
  ((past.filter (Confirms ip ·)).getLast?.map fun m => m.2.epoch).getD 0

variable {cb cb' : ConsensusControlBlock} {now : Time} {m : TransactionsWithProof}
  {o t ip localIp : Bytes} {e : Epoch} {n : Nat}
  {past msgs more : List (Time × TransactionsWithProof)}

/-! ## One message -/

theorem isSome_setProxy (blk : ProxyBlock) :
    ((cb.setProxy t blk).proxiesTimeout ip).isSome ↔ (cb.proxiesTimeout ip).isSome ∨ ip = t := by
  unfold setProxy
  by_cases h : ip = t
  · simp [h]
  · simp [h]

theorem isSome_confirmedClientProxy :
    ((cb.confirmedClientProxy o e).proxiesTimeout ip).isSome = (cb.proxiesTimeout ip).isSome := by
  unfold confirmedClientProxy
  split <;> rfl

theorem isSome_maliciousTarget :
    ((cb.maliciousTarget t e).proxiesTimeout ip).isSome ↔
      (cb.proxiesTimeout ip).isSome ∨ ip = t := by
  rw [← isSome_setProxy { cb.proxy t with isValid := false, firstInvalidEpoch := e }]
  unfold maliciousTarget
  dsimp only
  split <;> rfl

/-- A vote creates the entry of its target. -/
theorem isSome_obtainMalicious :
    ((cb.obtainMalicious o t e).proxiesTimeout ip).isSome ↔
      (cb.proxiesTimeout ip).isSome ∨ ip = t := by
  unfold obtainMalicious
  dsimp only
  split
  · exact isSome_setProxy _
  · split
    · rw [isSome_maliciousTarget, isSome_setProxy, or_assoc, or_self]
    · exact isSome_setProxy _

/-- What the clock and the CON messages have left in an entry. -/
def times (cb : ConsensusControlBlock) (ip : Bytes) : Time × Epoch :=
  ((cb.proxy ip).lastHeartbeat, (cb.proxy ip).latestEpoch)

theorem times_setProxy (blk : ProxyBlock) : (cb.setProxy t blk).times ip =
    if ip = t then (blk.lastHeartbeat, blk.latestEpoch) else cb.times ip := by
  unfold times
  rw [proxy_setProxy]
  split <;> rfl

/-- Votes do not touch the times. -/
theorem times_obtainMalicious : (cb.obtainMalicious o t e).times ip = cb.times ip := by
  have hkept : ∀ blk : ProxyBlock, (blk.lastHeartbeat, blk.latestEpoch) = cb.times t →
      (cb.setProxy t blk).times ip = cb.times ip := by
    intro blk hblk
    rw [times_setProxy, hblk]
    split
    · rename_i h; rw [h]
    · rfl
  have hproxy : ∀ cb' : ConsensusControlBlock, cb'.proxy = (cb.obtainMalicious o t e).proxy →
      (cb.obtainMalicious o t e).times ip = cb'.times ip := by
    intro cb' h
    unfold times
    rw [h]
  by_cases ht : cb.isValid t = true
  · rw [hproxy _ (obtainMalicious_of_valid ht).symm]
    refine hkept _ ?_
    unfold votedAgainst
    dsimp only
    split <;> rfl
  · rw [Bool.not_eq_true] at ht
    exact hproxy cb (obtainMalicious_of_invalid ht).symm

theorem isSome_handle : ((cb.handle now m).proxiesTimeout ip).isSome ↔
    (cb.proxiesTimeout ip).isSome ∨ Shows ip (now, m) ∨ Accuses ip (now, m) := by
  unfold handle
  split <;> rename_i htype
  · rw [isSome_setProxy, eq_comm (a := ip)]
    simp [Shows, Accuses, htype]
  · rw [isSome_confirmedClientProxy, isSome_setProxy, eq_comm (a := ip)]
    simp [Shows, Accuses, htype]
  · rw [isSome_obtainMalicious, isSome_setProxy, eq_comm (a := ip), eq_comm (a := ip)]
    simp [Shows, Accuses, htype, or_assoc]
  · rename_i hbeat hcon
    have hshows : ¬ Shows ip (now, m) := fun h => h.2.elim hbeat hcon
    have haccuses : ¬ Accuses ip (now, m) := fun h => htype h.1
    simp [hshows, haccuses]

theorem times_handle : (cb.handle now m).times ip =
    (if Shows ip (now, m) then now else (cb.times ip).1,
      if Confirms ip (now, m) then m.epoch else (cb.times ip).2) := by
  unfold handle
  split <;> rename_i htype
  · have hshows : Shows ip (now, m) ↔ ip = m.ip := by
      simp [Shows, htype, eq_comm]
    have hcon : ¬ Confirms ip (now, m) := by
      simp [Confirms, htype]
    rw [times_setProxy, if_neg hcon]
    by_cases hip : ip = m.ip
    · rw [if_pos hip, if_pos (hshows.mpr hip), hip]
      rfl
    · rw [if_neg hip, if_neg (hip ∘ hshows.mp)]
  · have hshows : Shows ip (now, m) ↔ ip = m.ip := by
      simp [Shows, htype, eq_comm]
    have hcon : Confirms ip (now, m) ↔ ip = m.ip := by
      simp [Confirms, htype, eq_comm]
    have hconfirmed : ∀ cb' : ConsensusControlBlock,
        (cb'.confirmedClientProxy m.ip m.epoch).times ip = cb'.times ip := by
      intro cb'
      unfold times
      rw [proxy_confirmedClientProxy]
    rw [hconfirmed, times_setProxy]
    by_cases hip : ip = m.ip
    · rw [if_pos hip, if_pos (hshows.mpr hip), if_pos (hcon.mpr hip)]
    · rw [if_neg hip, if_neg (hip ∘ hshows.mp), if_neg (hip ∘ hcon.mp)]
  · have hshows : ¬ Shows ip (now, m) := by
      simp [Shows, htype]
    have hcon : ¬ Confirms ip (now, m) := by
      simp [Confirms, htype]
    rw [times_obtainMalicious, if_neg hshows, if_neg hcon]
    unfold times
    rw [setProxy_proxy]
  · rename_i hbeat hcon
    have hshows : ¬ Shows ip (now, m) := fun h => h.2.elim hbeat hcon
    have hcon' : ¬ Confirms ip (now, m) := fun h => hcon h.2
    rw [if_neg hshows, if_neg hcon']

/-! ## A sequence of messages -/

theorem lastHeard_snoc (x : Time × TransactionsWithProof) :
    lastHeard ip (past ++ [x]) = if Shows ip x then some x.1 else lastHeard ip past := by
  unfold lastHeard
  rw [List.filter_append]
  split
  · simp [*]
  · simp [*]

theorem lastConfirmed_snoc (x : Time × TransactionsWithProof) :
    lastConfirmed ip (past ++ [x]) =
      if Confirms ip x then x.2.epoch else lastConfirmed ip past := by
  unfold lastConfirmed
  rw [List.filter_append]
  split
  · simp [*]
  · simp [*]

theorem processed_append (h : cb.recvAll msgs = some cb') :
    cb.processed (msgs ++ more) = cb.processed msgs ++ cb'.processed more := by
  induction msgs generalizing cb with
  | nil => cases h; rfl
  | cons x msgs ih =>
      obtain ⟨cb₁, hx, hr⟩ := run_cons_eq_some.mp h
      have hget : (cb.recvProofSet x.1 x.2).getD cb = cb₁ := by rw [hx, Option.getD_some]
      simp only [List.cons_append, processed, hget, ih hr]
      split
      · rfl
      · rfl

theorem processed_singleton (x : Time × TransactionsWithProof) :
    cb.processed [x] = if cb.start ∧ cb.isValid x.2.ip then [x] else [] := rfl

/-- What the entries say about the messages that have been processed. -/
structure Watched (past : List (Time × TransactionsWithProof)) (cb : ConsensusControlBlock) :
    Prop where
  entry : ∀ ip, (cb.proxiesTimeout ip).isSome ↔ ∃ x ∈ past, Shows ip x ∨ Accuses ip x
  lastHeartbeat : ∀ ip, (cb.proxy ip).lastHeartbeat = (lastHeard ip past).getD 0
  latestEpoch : ∀ ip, (cb.proxy ip).latestEpoch = lastConfirmed ip past

theorem Watched.handle (h : Watched past cb) : Watched (past ++ [(now, m)]) (cb.handle now m) := by
  have htimes := fun ip => @times_handle cb now m ip
  constructor
  · intro ip
    rw [isSome_handle, h.entry]
    constructor
    · rintro (⟨x, hx, hsays⟩ | hsays)
      · exact ⟨x, List.mem_append_left _ hx, hsays⟩
      · exact ⟨(now, m), by simp, hsays⟩
    · rintro ⟨x, hx, hsays⟩
      rcases List.mem_append.mp hx with hold | hnew
      · exact Or.inl ⟨x, hold, hsays⟩
      · rw [List.mem_singleton.mp hnew] at hsays
        exact Or.inr hsays
  · intro ip
    have hfirst := congrArg Prod.fst (htimes ip)
    dsimp only [times] at hfirst
    rw [hfirst, lastHeard_snoc, h.lastHeartbeat]
    split <;> rfl
  · intro ip
    have hsecond := congrArg Prod.snd (htimes ip)
    dsimp only [times] at hsecond
    rw [hsecond, lastConfirmed_snoc, h.latestEpoch]

theorem watched_recvAll (h : (started n).recvAll msgs = some cb) :
    Watched ((started n).processed msgs) cb := by
  have hall : (started n).recvAll msgs = some cb ∧ Watched ((started n).processed msgs) cb := by
    refine run_invariant_history
      (fun msgs cb => (started n).recvAll msgs = some cb ∧ Watched ((started n).processed msgs) cb)
      ?_ h ⟨rfl, ⟨by simp [started, processed], fun _ => rfl, fun _ => rfl⟩⟩
    rintro msgs cb₁ x cb₂ ⟨hrun, hw⟩ hstep
    refine ⟨run_append_eq_some.mpr ⟨cb₁, hrun, run_cons_eq_some.mpr ⟨cb₂, hstep, rfl⟩⟩, ?_⟩
    rw [processed_append hrun]
    rw [recvProofSet_eq] at hstep
    have hstep := Option.some.inj hstep
    by_cases hvalid : cb₁.start ∧ cb₁.isValid x.2.ip
    · rw [if_pos hvalid] at hstep
      rw [processed_singleton, if_pos hvalid, ← hstep]
      exact hw.handle
    · rw [if_neg hvalid] at hstep
      rw [processed_singleton, if_neg hvalid, List.append_nil, ← hstep]
      exact hw
  exact hall.2

/-! ## Votes -/

theorem spinCheckTimeout_eq_some {v : TransactionsWithProof} :
    cb.spinCheckTimeout localIp now ip = some v ↔
      (cb.proxiesTimeout ip).isSome ∧ cb.isValid ip = true ∧
        3000000000 < now - (cb.proxy ip).lastHeartbeat ∧
        maliciousViewChange localIp ip (((cb.proxy ip).latestEpoch + 1) % 2 ^ 64) = v := by
  unfold spinCheckTimeout isValid proxy
  cases cb.proxiesTimeout ip with
  | none => simp
  | some blk => simp [and_assoc]

theorem exists_lastConfirmed (h : ∃ x ∈ past, Confirms ip x) :
    ∃ x ∈ past, Confirms ip x ∧ x.2.epoch = lastConfirmed ip past := by
  obtain ⟨x, hx, hcon⟩ := h
  have hne : past.filter (Confirms ip ·) ≠ [] :=
    List.ne_nil_of_mem (List.mem_filter.mpr ⟨hx, decide_eq_true hcon⟩)
  have hmem := List.mem_filter.mp (List.getLast_mem hne)
  refine ⟨_, hmem.1, of_decide_eq_true hmem.2, ?_⟩
  unfold lastConfirmed
  rw [List.getLast?_eq_some_getLast hne, Option.map_some, Option.getD_some]

/-- The vote is above every CON message of the proxy if and only if none of them has a greater epoch
    than the last one. -/
theorem timeout_vote_unconfirmed_iff {v : TransactionsWithProof}
    (h : (started n).recvAll msgs = some cb) (hvote : cb.spinCheckTimeout localIp now ip = some v) :
    (∀ x ∈ (started n).processed msgs, Confirms ip x → x.2.epoch < v.epoch) ↔
      lastConfirmed ip ((started n).processed msgs) + 1 < 2 ^ 64 ∧
      ∀ x ∈ (started n).processed msgs, Confirms ip x →
        x.2.epoch ≤ lastConfirmed ip ((started n).processed msgs) := by
  obtain ⟨-, -, -, rfl⟩ := spinCheckTimeout_eq_some.mp hvote
  rw [(watched_recvAll h).latestEpoch]
  generalize (started n).processed msgs = past
  unfold maliciousViewChange
  dsimp only
  constructor
  · intro hbelow
    have hfits : lastConfirmed ip past + 1 < 2 ^ 64 := by
      by_contra hbig
      -- then a CON message has been processed, and the vote wraps around below it
      have hsome : ∃ x ∈ past, Confirms ip x := by
        by_contra hnone
        have hzero : lastConfirmed ip past = 0 := by
          have hnil : past.filter (Confirms ip ·) = [] :=
            List.filter_eq_nil_iff.mpr fun x hx hcon => hnone ⟨x, hx, of_decide_eq_true hcon⟩
          unfold lastConfirmed
          rw [hnil]
          rfl
        rw [hzero] at hbig
        exact hbig (by decide)
      obtain ⟨x, hx, hcon, hlast⟩ := exists_lastConfirmed hsome
      have hlt := hbelow x hx hcon
      rw [hlast] at hlt
      have hwraps : ∀ last : Nat, ¬ last + 1 < 2 ^ 64 → (last + 1) % 2 ^ 64 ≤ last := by
        intro last hlast
        omega
      exact absurd hlt (Nat.not_lt_of_le (hwraps _ hbig))
    refine ⟨hfits, fun x hx hcon => ?_⟩
    have hlt := hbelow x hx hcon
    rw [Nat.mod_eq_of_lt hfits] at hlt
    exact Nat.le_of_lt_succ hlt
  · rintro ⟨hfits, hle⟩ x hx hcon
    rw [Nat.mod_eq_of_lt hfits]
    exact Nat.lt_succ_of_le (hle x hx hcon)

/-- A message of the proxy `[7]`. -/
def confirmation (epoch : Epoch) : TransactionsWithProof :=
  { epoch := epoch, type := .con, ip := [7] }

/-- Epochs 1 and 2 are confirmed in order; the vote is for epoch 3. -/
theorem timeout_vote_unconfirmed_three :
    ∃ cb v, (started 4).recvAll [(0, confirmation 1), (1, confirmation 2)] = some cb ∧
      cb.spinCheckTimeout [1] 3000000002 [7] = some v ∧ v.epoch = 3 ∧
      ∀ x ∈ (started 4).processed [(0, confirmation 1), (1, confirmation 2)],
        Confirms [7] x → x.2.epoch < v.epoch := by
  obtain ⟨cb, h⟩ := exists_recvAll (started 4) [(0, confirmation 1), (1, confirmation 2)]
  have hvote : cb.spinCheckTimeout [1] 3000000002 [7] = some (maliciousViewChange [1] [7] 3) := by
    have hcb : ((started 4).recvAll [(0, confirmation 1), (1, confirmation 2)]).bind
        (fun cb => cb.spinCheckTimeout [1] 3000000002 [7]) =
          some (maliciousViewChange [1] [7] 3) := by
      decide +kernel
    rw [h] at hcb
    exact hcb
  refine ⟨cb, _, h, hvote, rfl, ?_⟩
  rw [timeout_vote_unconfirmed_iff h hvote]
  decide +kernel

/-- The CON message of epoch 1 comes once more after that of epoch 2, and the server votes for
    epoch 2. -/
theorem repeated_con_names_confirmed :
    ∃ cb v, (started 4).recvAll [(0, confirmation 1), (1, confirmation 2), (2, confirmation 1)] =
        some cb ∧
      cb.spinCheckTimeout [1] 3000000003 [7] = some v ∧
      ∃ x ∈ (started 4).processed [(0, confirmation 1), (1, confirmation 2), (2, confirmation 1)],
        Confirms [7] x ∧ v.epoch ≤ x.2.epoch := by
  have hcb : ((started 4).recvAll
      [(0, confirmation 1), (1, confirmation 2), (2, confirmation 1)]).bind
      (fun cb => cb.spinCheckTimeout [1] 3000000003 [7]) =
        some (maliciousViewChange [1] [7] 2) := by
    decide +kernel
  obtain ⟨cb, h, hvote⟩ := Option.bind_eq_some_iff.mp hcb
  exact ⟨cb, _, h, hvote, (1, confirmation 2), by decide +kernel, by decide, by decide⟩

/-- A valid proxy is voted against after three seconds of silence, and also if it has never been
    heard and there is a vote by it or against it. -/
theorem isSome_spinCheckTimeout_iff (h : (started n).recvAll msgs = some cb) :
    (cb.spinCheckTimeout localIp now ip).isSome ↔ cb.isValid ip = true ∧
      ((∃ heard, lastHeard ip ((started n).processed msgs) = some heard ∧
          3000000000 < now - heard) ∨
        lastHeard ip ((started n).processed msgs) = none ∧
          (∃ x ∈ (started n).processed msgs, Accuses ip x) ∧ 3000000000 < now) := by
  have hw := watched_recvAll h
  rw [Option.isSome_iff_exists]
  simp only [spinCheckTimeout_eq_some, hw.entry, hw.lastHeartbeat]
  generalize (started n).processed msgs = past
  cases hheard : lastHeard ip past with
  | none =>
      have hshows : ∀ x ∈ past, ¬ Shows ip x := by
        unfold lastHeard at hheard
        rw [Option.map_eq_none_iff, List.getLast?_eq_none_iff, List.filter_eq_nil_iff] at hheard
        exact fun x hx hs => hheard x hx (decide_eq_true hs)
      constructor
      · rintro ⟨v, ⟨x, hx, hsays⟩, hvalid, hlate, -⟩
        refine ⟨hvalid, Or.inr ⟨rfl, ⟨x, hx, hsays.resolve_left (hshows x hx)⟩, ?_⟩⟩
        simpa using hlate
      · rintro ⟨hvalid, ⟨heard, hsome, -⟩ | ⟨-, ⟨x, hx, haccuses⟩, hlate⟩⟩
        · cases hsome
        · exact ⟨_, ⟨x, hx, Or.inr haccuses⟩, hvalid, by simpa using hlate, rfl⟩
  | some heard =>
      obtain ⟨x, hlast, rfl⟩ := Option.map_eq_some_iff.mp hheard
      have hx := List.mem_filter.mp (List.mem_of_getLast? hlast)
      constructor
      · rintro ⟨v, -, hvalid, hlate, -⟩
        exact ⟨hvalid, Or.inl ⟨x.1, rfl, hlate⟩⟩
      · rintro ⟨hvalid, ⟨heard, hsome, hlate⟩ | ⟨hnone, -⟩⟩
        · cases hsome
          exact ⟨_, ⟨x, hx.1, Or.inl (of_decide_eq_true hx.2)⟩, hvalid, hlate, rfl⟩
        · cases hnone

/-- When a check votes against a proxy. At every time a vote means that the proxy was heard and then
    silent exactly if the proxy has been heard, or there is no vote by it or against it, or it is
    voted out already. -/
theorem timeout_vote_iff (h : (started n).recvAll msgs = some cb) :
    ((cb.spinCheckTimeout localIp now ip).isSome ↔ cb.isValid ip = true ∧
      ((∃ heard, lastHeard ip ((started n).processed msgs) = some heard ∧
          3000000000 < now - heard) ∨
        lastHeard ip ((started n).processed msgs) = none ∧
          (∃ x ∈ (started n).processed msgs, Accuses ip x) ∧ 3000000000 < now)) ∧
    ((∀ now, (cb.spinCheckTimeout localIp now ip).isSome →
        ∃ heard, lastHeard ip ((started n).processed msgs) = some heard ∧
          3000000000 < now - heard) ↔
      (lastHeard ip ((started n).processed msgs)).isSome ∨
        (∀ x ∈ (started n).processed msgs, ¬ Accuses ip x) ∨ cb.isValid ip = false) := by
  refine ⟨isSome_spinCheckTimeout_iff h, fun hsilent => ?_, fun hcond now hvote => ?_⟩
  · by_contra hnot
    rw [not_or, not_or, Option.not_isSome_iff_eq_none, Bool.not_eq_false] at hnot
    obtain ⟨hnone, haccused, hvalid⟩ := hnot
    obtain ⟨x, hx, haccuses⟩ : ∃ x ∈ (started n).processed msgs, Accuses ip x := by
      simpa using haccused
    obtain ⟨heard, hsome, -⟩ := hsilent 3000000001
      ((isSome_spinCheckTimeout_iff h).mpr
        ⟨hvalid, Or.inr ⟨hnone, ⟨x, hx, haccuses⟩, by decide⟩⟩)
    rw [hnone] at hsome
    cases hsome
  · obtain ⟨hvalid, hlate | ⟨hnone, ⟨x, hx, haccuses⟩, -⟩⟩ :=
      (isSome_spinCheckTimeout_iff h).mp hvote
    · exact hlate
    · rcases hcond with hheard | hquiet | hinvalid
      · rw [hnone] at hheard
        cases hheard
      · exact absurd haccuses (hquiet x hx)
      · rw [hvalid] at hinvalid
        cases hinvalid

/-- The proxy was heard at 1 and is voted against three seconds later. -/
theorem timeout_vote_iff_three :
    ∃ cb, (started 4).recvAll [(0, confirmation 1), (1, confirmation 2)] = some cb ∧
      (cb.spinCheckTimeout [1] 3000000001 [7]).isSome = false ∧
      (cb.spinCheckTimeout [1] 3000000002 [7]).isSome = true := by
  have hvalid : ((started 4).recvAll [(0, confirmation 1), (1, confirmation 2)]).any
      (fun cb => cb.isValid [7]) = true := by decide +kernel
  obtain ⟨cb, h, hvalid⟩ := (Option.any_eq_true _ _).mp hvalid
  have hheard : lastHeard [7] ((started 4).processed [(0, confirmation 1), (1, confirmation 2)]) =
      some 1 := by decide +kernel
  refine ⟨cb, h, ?_, ?_⟩
  · rw [Bool.eq_false_iff]
    intro hvote
    obtain ⟨-, ⟨heard, hsome, hlate⟩ | ⟨hnone, -⟩⟩ := (timeout_vote_iff h).1.mp hvote
    · rw [hheard] at hsome
      cases hsome
      exact absurd hlate (by decide)
    · rw [hheard] at hnone
      cases hnone
  · exact (timeout_vote_iff h).1.mpr ⟨hvalid, Or.inl ⟨1, hheard, by decide⟩⟩

/-- The only message there has been is a vote of `[8]` against `[7]`. The server joins in, and
    votes against `[8]` as well. -/
theorem accused_is_voted_against :
    ∃ cb, (started 4).recvAll [(0, maliciousViewChange [8] [7] 1)] = some cb ∧
      cb.spinCheckTimeout [1] 3000000001 [7] = some (maliciousViewChange [1] [7] 1) ∧
      cb.spinCheckTimeout [1] 3000000001 [8] = some (maliciousViewChange [1] [8] 1) := by
  have hcb : ((started 4).recvAll [(0, maliciousViewChange [8] [7] 1)]).any (fun cb =>
      cb.spinCheckTimeout [1] 3000000001 [7] = some (maliciousViewChange [1] [7] 1) ∧
        cb.spinCheckTimeout [1] 3000000001 [8] = some (maliciousViewChange [1] [8] 1)) = true := by
    decide +kernel
  obtain ⟨cb, h, hvotes⟩ := exists_of_any hcb
  exact ⟨cb, h, hvotes⟩

end NeuChain.Server.ConsensusControlBlock
