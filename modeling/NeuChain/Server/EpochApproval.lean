/-
  What `epochApproveMap` means, and when the coordinator may go on with an epoch.

  A server is in the entry of an epoch if it has confirmed the epoch while it was valid, or
  has been voted out since this epoch or an earlier one (`approve_map_meaning`).
  `waitForEpochFinish` compares sizes only, which is enough since no other name gets into the map.
  Entries only grow and verdicts stay, so what is finished once is finished for good.

  All this holds for messages of the configured servers with epochs below `MAX_EPOCH`, the length of
  the vector.
-/
import NeuChain.Lib.Log
import NeuChain.Server.ConsensusControlBlock
import Mathlib.Data.Finset.Card

namespace NeuChain.Server.ConsensusControlBlock

open NeuChain Lib

/-- The condition `waitForEpochFinish` waits for. -/
def waitForEpochFinish (cb : ConsensusControlBlock) (epoch : Epoch) : Bool :=
  (cb.epochApproveMap epoch).card = cb.totalServerCount

/-- `s` is voted out, since epoch `e` or an earlier one. -/
def OutSince (cb : ConsensusControlBlock) (s : Bytes) (e : Epoch) : Prop :=
  cb.isValid s = false ∧ cb.firstInvalidEpoch s ≤ e

/-- A CON message of `s` for epoch `e` was handled while `s` was valid. -/
def Confirmed (n : Nat) (msgs : List (Time × TransactionsWithProof)) (s : Bytes) (e : Epoch) : Prop :=
  ∃ before m after cb, msgs = before ++ m :: after ∧ (started n).recvAll before = some cb ∧
    m.2.type = .con ∧ m.2.ip = s ∧ m.2.epoch = e ∧ cb.isValid s = true

/-- A message of one of the servers, about these servers. -/
structure Configured (servers : Finset Bytes) (m : TransactionsWithProof) : Prop where
  ip : m.ip ∈ servers
  target : m.type = .malicious → m.proof ∈ servers
  epoch : m.epoch < MAX_EPOCH

variable {cb cb' : ConsensusControlBlock} {now : Time} {m : TransactionsWithProof} {s o t : Bytes}
  {e i : Epoch} {n : Nat}

/-! ## One message -/

theorem approve_maliciousTarget (he : e < MAX_EPOCH) (hi : i < MAX_EPOCH) :
    s ∈ (cb.maliciousTarget t e).epochApproveMap i ↔
      s ∈ cb.epochApproveMap i ∨ s = t ∧ e ≤ i := by
  unfold maliciousTarget
  dsimp only
  rw [if_pos he]
  by_cases hle : e ≤ i
  · simp only [hle, hi, and_self, if_true, and_true]
    exact Finset.mem_insert.trans or_comm
  · simp only [hle, false_and, if_false, and_false, or_false]
    rfl

/-- A vote puts its target into the map if it is the one that votes it out. -/
theorem approve_obtainMalicious (he : e < MAX_EPOCH) (hi : i < MAX_EPOCH) :
    s ∈ (cb.obtainMalicious o t e).epochApproveMap i ↔ s ∈ cb.epochApproveMap i ∨
      s = t ∧ cb.isValid t = true ∧ (cb.obtainMalicious o t e).isValid t = false ∧ e ≤ i := by
  cases ht : cb.isValid t with
  | false =>
      have ht' : (cb.proxy t).isValid = false := ht
      unfold obtainMalicious
      rw [if_pos (by simp [ht'])]
      simp [setProxy]
  | true =>
      have ht' : (cb.proxy t).isValid = true := ht
      unfold obtainMalicious
      rw [if_neg (by simp [ht'])]
      dsimp only
      split
      · have hout : ∀ cb₁ : ConsensusControlBlock, (cb₁.maliciousTarget t e).isValid t = false := by
          intro cb₁
          unfold isValid
          rw [proxy_maliciousTarget, proxy_setProxy, if_pos rfl]
        rw [approve_maliciousTarget he hi, hout]
        simp [setProxy]
      · have hin : ∀ voters, (cb.setProxy t { cb.proxy t with epochVoters := voters }).isValid t =
            true := by
          intro voters
          unfold isValid
          rw [proxy_setProxy, if_pos rfl]
          exact ht'
        rw [hin]
        simp [setProxy]

theorem approve_confirmedClientProxy (he : e < MAX_EPOCH) :
    s ∈ (cb.confirmedClientProxy o e).epochApproveMap i ↔
      s ∈ cb.epochApproveMap i ∨ s = o ∧ i = e := by
  unfold confirmedClientProxy
  rw [if_pos he]
  by_cases hi : i = e
  · subst hi
    simp only [Function.update_self, and_true]
    exact Finset.mem_insert.trans or_comm
  · simp [hi]

/-- A verdict is final. -/
theorem verdict_recvProofSet (hs : cb.start = true) (h : cb.recvProofSet now m = some cb')
    (hv : cb.isValid s = false) :
    cb'.isValid s = false ∧ cb'.firstInvalidEpoch s = cb.firstInvalidEpoch s := by
  have hold : cb.tally.verdict s = some (cb.firstInvalidEpoch s) :=
    (verdict_eq_some _ _ _).mpr ⟨hv, rfl⟩
  have hnew : cb'.tally.verdict s = some (cb.firstInvalidEpoch s) := by
    rw [tally_recvProofSet hs h]
    cases m.vote? with
    | none => exact hold
    | some v => exact cast_verdict_some hold
  exact (verdict_eq_some _ _ _).mp hnew

theorem outSince_recvProofSet (hs : cb.start = true) (h : cb.recvProofSet now m = some cb')
    (hout : cb.OutSince s e) : cb'.OutSince s e := by
  obtain ⟨hv, hf⟩ := verdict_recvProofSet hs h hout.1
  exact ⟨hv, hf ▸ hout.2⟩

/-- A server that is voted out by a message is so since the epoch of the message. -/
theorem new_verdict (hs : cb.start = true) (h : cb.recvProofSet now m = some cb')
    (hv : cb.isValid s = true) (hv' : cb'.isValid s = false) :
    m.type = .malicious ∧ m.proof = s ∧ cb'.firstInvalidEpoch s = m.epoch := by
  have hold : cb.tally.verdict s = none := (verdict_eq_none _ _).mpr hv
  have hnew : cb'.tally.verdict s = some (cb'.firstInvalidEpoch s) :=
    (verdict_eq_some _ _ _).mpr ⟨hv', rfl⟩
  rw [tally_recvProofSet hs h] at hnew
  unfold TransactionsWithProof.vote? at hnew
  split at hnew
  · rename_i htype
    simp only [Option.elim_some] at hnew
    -- the vote counts, since it changed a verdict
    have hopen : cb.tally.verdict m.ip = none ∧ cb.tally.verdict m.proof = none := by
      by_contra hclosed
      have hclosed := (not_and_or.mp hclosed).imp Option.isSome_iff_ne_none.mpr
        Option.isSome_iff_ne_none.mpr
      rw [cast_of_closed hclosed, hold] at hnew
      cases hnew
    rw [cast_verdict_of_open hopen.1 hopen.2] at hnew
    split at hnew
    · rename_i hcast
      exact ⟨htype, hcast.1.symm, (Option.some.inj hnew).symm⟩
    · rw [hold] at hnew
      cases hnew
  · rw [Option.elim_none, hold] at hnew
    cases hnew

/-- What one message adds to the map. -/
theorem approve_recvProofSet (hs : cb.start = true) (he : m.epoch < MAX_EPOCH) (hi : i < MAX_EPOCH)
    (h : cb.recvProofSet now m = some cb') :
    s ∈ cb'.epochApproveMap i ↔ s ∈ cb.epochApproveMap i ∨
      (m.type = .con ∧ m.ip = s ∧ m.epoch = i ∧ cb.isValid s = true) ∨
      (cb.isValid s = true ∧ cb'.isValid s = false ∧ m.epoch ≤ i) := by
  have hnew := @new_verdict cb cb' now m s hs h
  rw [recvProofSet_eq, hs] at h
  cases hv : cb.isValid m.ip with
  | false =>
      rw [if_neg (by simp [hv])] at h
      cases h
      constructor
      · exact Or.inl
      · rintro (hmem | ⟨-, rfl, -, hval⟩ | ⟨hval, hinv, -⟩)
        · exact hmem
        · rw [hv] at hval
          cases hval
        · rw [hval] at hinv
          cases hinv
  | true =>
      rw [if_pos ⟨rfl, hv⟩] at h
      have h : cb.handle now m = cb' := Option.some.inj h
      subst h
      by_cases hcon : m.type = .con
      · have hmap : s ∈ (cb.handle now m).epochApproveMap i ↔
            s ∈ cb.epochApproveMap i ∨ s = m.ip ∧ i = m.epoch := by
          unfold handle
          rw [hcon]
          exact approve_confirmedClientProxy he
        rw [hmap]
        constructor
        · rintro (hmem | ⟨rfl, rfl⟩)
          · exact Or.inl hmem
          · exact Or.inr (Or.inl ⟨hcon, rfl, rfl, hv⟩)
        · rintro (hmem | ⟨-, rfl, rfl, -⟩ | ⟨hval, hinv, -⟩)
          · exact Or.inl hmem
          · exact Or.inr ⟨rfl, rfl⟩
          · have hmal := (hnew hval hinv).1
            rw [hcon] at hmal
            cases hmal
      · by_cases hmal : m.type = .malicious
        · have hset : (cb.setProxy m.ip (cb.proxy m.ip)).isValid = cb.isValid := by
            unfold isValid
            rw [setProxy_proxy]
          have hmap : s ∈ (cb.handle now m).epochApproveMap i ↔ s ∈ cb.epochApproveMap i ∨
              s = m.proof ∧ cb.isValid m.proof = true ∧ (cb.handle now m).isValid m.proof = false ∧
                m.epoch ≤ i := by
            unfold handle
            rw [hmal]
            dsimp only
            rw [approve_obtainMalicious he hi, hset]
            rfl
          rw [hmap]
          constructor
          · rintro (hmem | ⟨rfl, hval, hinv, hle⟩)
            · exact Or.inl hmem
            · exact Or.inr (Or.inr ⟨hval, hinv, hle⟩)
          · rintro (hmem | ⟨hcon', -⟩ | ⟨hval, hinv, hle⟩)
            · exact Or.inl hmem
            · exact absurd hcon' hcon
            · obtain ⟨-, rfl, -⟩ := hnew hval hinv
              exact Or.inr ⟨rfl, hval, hinv, hle⟩
        · -- no other message touches the map
          have hmap : (cb.handle now m).epochApproveMap = cb.epochApproveMap := by
            unfold handle
            split
            · rfl
            · exact absurd ‹_› hcon
            · exact absurd ‹_› hmal
            · rfl
          rw [hmap]
          constructor
          · exact Or.inl
          · rintro (hmem | ⟨hcon', -⟩ | ⟨hval, hinv, -⟩)
            · exact hmem
            · exact absurd hcon' hcon
            · exact absurd (hnew hval hinv).1 hmal

/-! ## A sequence of messages -/

variable {servers : Finset Bytes} {msgs more : List (Time × TransactionsWithProof)}
  {x : Time × TransactionsWithProof}

theorem config_recvAll (h : (started n).recvAll msgs = some cb) :
    cb.start = true ∧ cb.totalServerCount = n := by
  refine run_invariant (fun cb => cb.start = true ∧ cb.totalServerCount = n) ?_ h ⟨rfl, rfl⟩
  rintro cb₁ x cb₂ ⟨hs, hn⟩ h₁
  obtain ⟨hs', hn'⟩ := config_recvProofSet h₁
  exact ⟨hs'.trans hs, hn'.trans hn⟩

theorem confirmed_snoc (h : (started n).recvAll msgs = some cb) :
    Confirmed n (msgs ++ [x]) s e ↔ Confirmed n msgs s e ∨
      (x.2.type = .con ∧ x.2.ip = s ∧ x.2.epoch = e ∧ cb.isValid s = true) := by
  constructor
  · rintro ⟨before, m, after, cb₁, hsplit, hrun, hm⟩
    rcases Lib.snoc_eq_append_cons hsplit with ⟨rfl, rfl⟩ | ⟨after', hbefore⟩
    · rw [h] at hrun
      cases hrun
      exact Or.inr hm
    · exact Or.inl ⟨before, m, after', cb₁, hbefore, hrun, hm⟩
  · rintro (⟨before, m, after, cb₁, rfl, hrun, hm⟩ | hm)
    · exact ⟨before, m, after ++ [x], cb₁, by simp, hrun, hm⟩
    · exact ⟨msgs, x, [], cb, rfl, h, hm⟩

section

variable (hmsgs : ∀ x ∈ msgs, Configured servers x.2)

include hmsgs

/-- Who is in the map, in every state a sequence of messages leads to. -/
theorem mem_epochApproveMap (h : (started n).recvAll msgs = some cb) (he : e < MAX_EPOCH) :
    s ∈ cb.epochApproveMap e ↔ Confirmed n msgs s e ∨ cb.OutSince s e := by
  induction msgs using List.reverseRecOn generalizing cb with
  | nil =>
      cases h
      constructor
      · intro hmem
        exact absurd hmem (Finset.notMem_empty s)
      · rintro (⟨before, m, after, cb₁, hsplit, -⟩ | ⟨hinv, -⟩)
        · simp at hsplit
        · cases hinv
  | append_singleton msgs x ih =>
      obtain ⟨cb₁, h₁, hstep⟩ := run_append_eq_some.mp h
      have hstep : cb₁.recvProofSet x.1 x.2 = some cb := by
        obtain ⟨cb₂, hx, hnil⟩ := run_cons_eq_some.mp hstep
        cases hnil
        exact hx
      have hx : Configured servers x.2 := hmsgs x (by simp)
      have hs : cb₁.start = true := (config_recvAll h₁).1
      rw [approve_recvProofSet hs hx.epoch he hstep, confirmed_snoc h₁,
        ih (fun y hy => hmsgs y (List.mem_append_left _ hy)) h₁]
      constructor
      · rintro ((hconf | hout) | hcon | ⟨hval, hinv, hle⟩)
        · exact Or.inl (Or.inl hconf)
        · exact Or.inr (outSince_recvProofSet hs hstep hout)
        · exact Or.inl (Or.inr hcon)
        · refine Or.inr ⟨hinv, ?_⟩
          rw [(new_verdict hs hstep hval hinv).2.2]
          exact hle
      · rintro ((hconf | hcon) | ⟨hinv, hle⟩)
        · exact Or.inl (Or.inl hconf)
        · exact Or.inr (Or.inl hcon)
        · cases hval : cb₁.isValid s with
          | true =>
              rw [(new_verdict hs hstep hval hinv).2.2] at hle
              exact Or.inr (Or.inr ⟨rfl, hinv, hle⟩)
          | false =>
              obtain ⟨-, hf⟩ := verdict_recvProofSet hs hstep hval
              exact Or.inl (Or.inr ⟨hval, hf ▸ hle⟩)

/-- Nobody but the configured servers is ever voted out. -/
theorem mem_servers_of_invalid (h : (started n).recvAll msgs = some cb)
    (hinv : cb.isValid s = false) : s ∈ servers := by
  have hall : cb.start = true ∧ ∀ s, cb.isValid s = false → s ∈ servers := by
    refine run_invariant_of_mem (fun cb => cb.start = true ∧ ∀ s, cb.isValid s = false → s ∈ servers)
      ?_ h ⟨rfl, nofun⟩
    rintro cb₁ x cb₂ hx ⟨hs, hin⟩ hstep
    refine ⟨(config_recvProofSet hstep).1.trans hs, fun s hinv => ?_⟩
    cases hval : cb₁.isValid s with
    | true =>
        obtain ⟨htype, rfl, -⟩ := new_verdict hs hstep hval hinv
        exact (hmsgs x hx).target htype
    | false => exact hin s hval
  exact hall.2 s hinv

theorem epochApproveMap_subset (h : (started n).recvAll msgs = some cb) (he : e < MAX_EPOCH) :
    cb.epochApproveMap e ⊆ servers := by
  intro s hs
  rcases (mem_epochApproveMap hmsgs h he).mp hs with
    ⟨before, m, after, cb₁, rfl, -, -, rfl, -⟩ | ⟨hinv, -⟩
  · exact (hmsgs m (by simp)).ip
  · exact mem_servers_of_invalid hmsgs h hinv

theorem waitForEpochFinish_iff (h : (started servers.card).recvAll msgs = some cb)
    (he : e < MAX_EPOCH) :
    cb.waitForEpochFinish e = true ↔ cb.epochApproveMap e = servers := by
  unfold waitForEpochFinish
  rw [(config_recvAll h).2, decide_eq_true_eq]
  constructor
  · intro hcard
    exact Finset.eq_of_subset_of_card_le (epochApproveMap_subset hmsgs h he) hcard.ge
  · intro heq
    rw [heq]

end

/-- Entries of the map only grow, and verdicts stay. -/
theorem recvAll_mono (hmore : ∀ x ∈ more, Configured servers x.2) (hs : cb.start = true)
    (h : cb.recvAll more = some cb') :
    (∀ e < MAX_EPOCH, cb.epochApproveMap e ⊆ cb'.epochApproveMap e) ∧
      ∀ s, cb.isValid s = false →
        cb'.isValid s = false ∧ cb'.firstInvalidEpoch s = cb.firstInvalidEpoch s := by
  have hinv := run_invariant_of_mem (fun cb₁ : ConsensusControlBlock => cb₁.start = true ∧
    (∀ e < MAX_EPOCH, cb.epochApproveMap e ⊆ cb₁.epochApproveMap e) ∧
      ∀ s, cb.isValid s = false →
        cb₁.isValid s = false ∧ cb₁.firstInvalidEpoch s = cb.firstInvalidEpoch s) ?_ h
    ⟨hs, fun _ _ => Finset.Subset.refl _, fun s hv => ⟨hv, rfl⟩⟩
  · exact hinv.2
  · rintro cb₁ x cb₂ hx ⟨hs₁, hmap, hverdict⟩ hstep
    refine ⟨(config_recvProofSet hstep).1.trans hs₁, fun e he s hmem => ?_, fun s hv => ?_⟩
    · exact (approve_recvProofSet hs₁ (hmore x hx).epoch he hstep).mpr (Or.inl (hmap e he hmem))
    · obtain ⟨hv₁, hf₁⟩ := hverdict s hv
      obtain ⟨hv₂, hf₂⟩ := verdict_recvProofSet hs₁ hstep hv₁
      exact ⟨hv₂, hf₂.trans hf₁⟩

/-- The map, the condition the coordinator waits for, and that nothing of it is taken back. -/
theorem approve_map_meaning (hmsgs : ∀ x ∈ msgs, Configured servers x.2)
    (h : (started servers.card).recvAll msgs = some cb) :
    (∀ e < MAX_EPOCH, ∀ s, s ∈ cb.epochApproveMap e ↔
      Confirmed servers.card msgs s e ∨ cb.OutSince s e) ∧
    (∀ e < MAX_EPOCH, cb.waitForEpochFinish e = true ↔
      ∀ s ∈ servers, Confirmed servers.card msgs s e ∨ cb.OutSince s e) ∧
    ∀ more cb', (∀ x ∈ more, Configured servers x.2) → cb.recvAll more = some cb' →
      (∀ e < MAX_EPOCH, cb.waitForEpochFinish e = true → cb'.waitForEpochFinish e = true) ∧
        ∀ s, cb.isValid s = false →
          cb'.isValid s = false ∧ cb'.firstInvalidEpoch s = cb.firstInvalidEpoch s := by
  refine ⟨fun e he s => mem_epochApproveMap hmsgs h he, fun e he => ?_, ?_⟩
  · rw [waitForEpochFinish_iff hmsgs h he]
    constructor
    · intro heq s hs
      exact (mem_epochApproveMap hmsgs h he).mp (heq ▸ hs)
    · intro hall
      refine Finset.Subset.antisymm (epochApproveMap_subset hmsgs h he) fun s hs => ?_
      exact (mem_epochApproveMap hmsgs h he).mpr (hall s hs)
  · intro more cb' hmore hrun
    obtain ⟨hgrow, hverdict⟩ := recvAll_mono hmore (config_recvAll h).1 hrun
    refine ⟨fun e he hfinish => ?_, hverdict⟩
    have hall : ∀ x ∈ msgs ++ more, Configured servers x.2 := by
      intro x hx
      rcases List.mem_append.mp hx with hx | hx
      · exact hmsgs x hx
      · exact hmore x hx
    have hrun' : (started servers.card).recvAll (msgs ++ more) = some cb' :=
      run_append_eq_some.mpr ⟨cb, h, hrun⟩
    rw [waitForEpochFinish_iff hmsgs h he] at hfinish
    rw [waitForEpochFinish_iff hall hrun' he]
    refine Finset.Subset.antisymm (epochApproveMap_subset hall hrun' he) ?_
    have hgrow := hgrow e he
    rwa [hfinish] at hgrow

/-- One of two servers confirms epoch 3 and has the other voted out since epoch 2. -/
def confirmAndExclude : List (Time × TransactionsWithProof) :=
  [(0, { type := .con, ip := [1], epoch := 3 }),
    (1, { type := .malicious, ip := [1], proof := [2], epoch := 2 })]

theorem approve_map_meaning_two :
    ∃ cb, (started 2).recvAll confirmAndExclude = some cb ∧ cb.waitForEpochFinish 3 = true ∧
      ∀ s ∈ ({[1], [2]} : Finset Bytes), Confirmed 2 confirmAndExclude s 3 ∨ cb.OutSince s 3 := by
  have hany : ((started 2).recvAll confirmAndExclude).any
      (fun cb => cb.waitForEpochFinish 3) = true := by decide
  obtain ⟨cb, hcb, hfinish⟩ := (Option.any_eq_true _ _).mp hany
  have hconf : ∀ x ∈ confirmAndExclude, Configured ({[1], [2]} : Finset Bytes) x.2 := by
    intro x hx
    rcases List.mem_cons.mp hx with rfl | hx
    · exact ⟨by decide, nofun, by decide⟩
    · obtain rfl := List.mem_singleton.mp hx
      exact ⟨by decide, fun _ => by decide, by decide⟩
  have hmeaning := approve_map_meaning hconf hcb
  exact ⟨cb, hcb, hfinish, (hmeaning.2.1 3 (by decide)).mp hfinish⟩

end NeuChain.Server.ConsensusControlBlock
