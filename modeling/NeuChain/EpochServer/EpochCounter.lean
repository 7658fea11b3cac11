/-
  The epoch counter of the epoch servers.

  Whatever users, timers, the pool and raft do (`epoch_counter`): the epoch of a server is 1 before
  its first delivery and then the highest number delivered, it goes up one at a time, the epochs a
  server signs do not go down, and servers that are equally far in the log are in the same epoch.

  That no number is left out is a property of the log (`Gapless`): a proposal is at most one above
  an epoch some server has seen, so at most one above the highest number in the log, and stays so
  however late and however often it gets there.
-/
import NeuChain.EpochServer.EVConsensusManager
import NeuChain.Lib.HighWater

namespace NeuChain.EpochServer

open NeuChain Lib Server

/-! ## One server -/

/-- A server that has taken `delivered` of the first `applied` entries of the log. -/
structure ServerInv (log : List PushRequest) (m : EVConsensusManager) (applied : Nat)
    (delivered : List Nat) (responses : List EpochResponse) : Prop where
  applied_le : applied ≤ log.length
  queued : delivered ++ m.consensusRequestQueue = (log.take applied).flatten
  currentEpoch_eq : m.currentEpoch = highWater 1 delivered
  proposed : ∀ x ∈ m.requestQueue ++ m.flying.flatten, 2 ≤ x ∧ x ≤ highWater 1 log.flatten + 1
  loaded : ∀ request e, m.user.current = some (request, e) →
    1 ≤ e ∧ e ≤ m.currentEpoch ∧ ∀ r ∈ responses, r.epoch ≤ e
  signed : ∀ r ∈ responses, r.epoch ≤ m.currentEpoch
  ordered : (responses.map EpochResponse.epoch).Pairwise (· ≤ ·)

variable {log : List PushRequest} {m m' : EVConsensusManager} {applied : Nat}
  {delivered : List Nat} {responses : List EpochResponse}

theorem serverInv_initial : ServerInv [] {} 0 [] [] where
  applied_le := Nat.le_refl 0
  queued := rfl
  currentEpoch_eq := rfl
  proposed := by simp
  loaded := by simp
  signed := by simp
  ordered := .nil

section

variable (h : ServerInv log m applied delivered responses)

include h

/-- What has been delivered is a part of the log from its start on. -/
theorem ServerInv.delivered_append :
    ∃ rest, log.flatten = delivered ++ rest := by
  refine ⟨m.consensusRequestQueue ++ (log.drop applied).flatten, ?_⟩
  rw [← List.append_assoc, h.queued, ← List.flatten_append, List.take_append_drop]

theorem ServerInv.currentEpoch_le :
    m.currentEpoch ≤ highWater 1 log.flatten := by
  obtain ⟨rest, hrest⟩ := h.delivered_append
  rw [h.currentEpoch_eq, hrest]
  exact highWater_le_append

theorem ServerInv.one_le_currentEpoch :
    1 ≤ m.currentEpoch := by
  rw [h.currentEpoch_eq]
  exact start_le_highWater

theorem ServerInv.log_append (request : PushRequest) :
    ServerInv (log ++ [request]) m applied delivered responses := by
  refine { h with applied_le := ?_, queued := ?_, proposed := ?_ }
  · rw [List.length_append]
    have := h.applied_le
    omega
  · rw [List.take_append_of_le_length h.applied_le]
    exact h.queued
  · intro x hx
    have hle : highWater 1 log.flatten ≤ highWater 1 (log ++ [request]).flatten := by
      rw [List.flatten_append]
      exact highWater_le_append
    have := h.proposed x hx
    omega

theorem ServerInv.getRequest {request : EpochRequest} (hm : m.getRequest request = some m') :
    ServerInv log m' applied delivered responses := by
  unfold EVConsensusManager.getRequest at hm
  split_ifs at hm
  cases hm
  refine { h with loaded := ?_ }
  intro request' e heq
  cases heq
  exact ⟨h.one_le_currentEpoch, Nat.le_refl _, h.signed⟩

theorem ServerInv.receiverFromUser {sign : Bytes → Bytes} {timeout : Bool} {r : EpochResponse}
    (hm : m.receiverFromUser sign timeout = some (m', r)) :
    ServerInv log m' applied delivered (responses ++ [r]) := by
  obtain ⟨⟨request, e⟩, hcurrent, heq⟩ := Option.map_eq_some_iff.mp hm
  cases heq
  obtain ⟨hpos, hle, hsigned⟩ := h.loaded request e hcurrent
  refine { h with proposed := ?_, loaded := by simp, signed := ?_, ordered := ?_ }
  · -- the only new proposal is the one after the epoch that was loaded
    intro x hx
    have hold := h.proposed x
    have hnew := h.currentEpoch_le
    dsimp only at hx
    split_ifs at hx
    · rw [List.append_assoc, List.mem_append, List.mem_append, List.mem_singleton] at hx
      rw [List.mem_append] at hold
      rcases hx with hx | rfl | hx
      · exact hold (Or.inl hx)
      · omega
      · exact hold (Or.inr hx)
    · exact hold hx
  · intro r' hr'
    rcases List.mem_append.mp hr' with hr' | hr'
    · exact h.signed r' hr'
    · cases List.mem_singleton.mp hr'
      exact hle
  · rw [List.map_append]
    refine List.pairwise_append.mpr ⟨h.ordered, List.pairwise_singleton _ _, ?_⟩
    intro x hx y hy
    obtain ⟨r', hr', rfl⟩ := List.mem_map.mp hx
    cases List.mem_singleton.mp hy
    exact hsigned r' hr'

theorem ServerInv.sendToRaft {batchSize count : Nat} (hm : m.sendToRaft batchSize count = some m') :
    ServerInv log m' applied delivered responses := by
  unfold EVConsensusManager.sendToRaft at hm
  split_ifs at hm
  cases hm
  refine { h with proposed := ?_ }
  intro x hx
  apply h.proposed x
  rw [← List.take_append_drop count m.requestQueue]
  simp only [List.mem_append, List.flatten_append, List.flatten_singleton] at hx ⊢
  tauto

theorem ServerInv.onApply {entry : PushRequest} (hentry : log[applied]? = some entry) :
    ServerInv log (m.onApply entry) (applied + 1) delivered responses := by
  refine { h with applied_le := ?_, queued := ?_ }
  · exact (List.getElem?_eq_some_iff.mp hentry).1
  · show delivered ++ (m.consensusRequestQueue ++ entry) = _
    rw [← List.append_assoc, h.queued, List.take_add_one, hentry, List.flatten_append]
    simp

/-- A delivery raises the epoch by at most one. -/
theorem ServerInv.receiverFromRaft (hgap : Gapless 1 log.flatten) {x : Nat}
    (hm : m.receiverFromRaft = some (m', x)) :
    ServerInv log m' applied (delivered ++ [x]) responses ∧
      (m'.currentEpoch = m.currentEpoch ∨ m'.currentEpoch = m.currentEpoch + 1) := by
  have hqueued := h.queued
  unfold EVConsensusManager.receiverFromRaft at hm
  cases hqueue : m.consensusRequestQueue with
  | nil =>
      rw [hqueue] at hm
      cases hm
  | cons y queue =>
      rw [hqueue] at hm hqueued
      cases hm
      have hmax : (if x > m.currentEpoch then x else m.currentEpoch) =
          highWater 1 (delivered ++ [x]) := by
        rw [highWater_snoc, ← h.currentEpoch_eq]
        split_ifs <;> omega
      have hlog : log.flatten = delivered ++ x :: (queue ++ (log.drop applied).flatten) := by
        rw [← List.cons_append, ← List.append_assoc, hqueued, ← List.flatten_append,
          List.take_append_drop]
      have hrise : (if x > m.currentEpoch then x else m.currentEpoch) = m.currentEpoch ∨
          (if x > m.currentEpoch then x else m.currentEpoch) = m.currentEpoch + 1 := by
        rw [hmax, h.currentEpoch_eq]
        rw [hlog] at hgap
        exact hgap.highWater_snoc
      have hup : m.currentEpoch ≤ if x > m.currentEpoch then x else m.currentEpoch := by
        split_ifs <;> omega
      refine ⟨{ h with queued := ?_, currentEpoch_eq := hmax, loaded := ?_, signed := ?_ }, hrise⟩
      · rw [← hqueued, List.append_assoc]
        rfl
      · intro request e hcurrent
        obtain ⟨hpos, hle, hsigned⟩ := h.loaded request e hcurrent
        exact ⟨hpos, Nat.le_trans hle hup, hsigned⟩
      · intro r hr
        exact Nat.le_trans (h.signed r hr) hup

end

/-! ## All servers -/

namespace EpochCluster

structure Inv (c : EpochCluster) : Prop where
  server : ∀ i, ServerInv c.log (c.servers i) (c.applied i) (c.delivered i) (c.responses i)
  positive : ∀ x ∈ c.log.flatten, 2 ≤ x
  gapless : Gapless 1 c.log.flatten

variable {sign : Bytes → Bytes} {batchSize : Nat} {c c' : EpochCluster} {a : EpochAction}

theorem inv_initial : Inv {} where
  server _ := serverInv_initial
  positive := by simp
  gapless := gapless_nil

/-- What a step does to the epochs of the servers. -/
def RisesByOne (c c' : EpochCluster) : Prop :=
  ∀ i, (c'.servers i).currentEpoch = (c.servers i).currentEpoch ∨
    (c'.servers i).currentEpoch = (c.servers i).currentEpoch + 1

/-- A step of one server is a step of all. -/
theorem Inv.update (h : c.Inv) (i : Nat) (hlog : c'.log = c.log)
    (hother : ∀ j ≠ i, c'.servers j = c.servers j ∧ c'.applied j = c.applied j ∧
      c'.delivered j = c.delivered j ∧ c'.responses j = c.responses j)
    (hself : ServerInv c.log (c'.servers i) (c'.applied i) (c'.delivered i) (c'.responses i))
    (hrise : (c'.servers i).currentEpoch = (c.servers i).currentEpoch ∨
      (c'.servers i).currentEpoch = (c.servers i).currentEpoch + 1) : c'.Inv ∧ RisesByOne c c' := by
  refine ⟨⟨?_, hlog ▸ h.positive, hlog ▸ h.gapless⟩, ?_⟩
  · intro j
    by_cases hj : j = i
    · rw [hj, hlog]
      exact hself
    · obtain ⟨hs, ha, hd, hr⟩ := hother j hj
      rw [hlog, hs, ha, hd, hr]
      exact h.server j
  · intro j
    by_cases hj : j = i
    · rw [hj]
      exact hrise
    · rw [(hother j hj).1]
      exact Or.inl rfl

theorem Inv.submit (h : c.Inv) {i j : Nat} {request : PushRequest}
    (hj : (c.servers i).flying[j]? = some request) : Inv { c with log := c.log ++ [request] } := by
  have hflying : ∀ x ∈ request, x ∈ (c.servers i).requestQueue ++ (c.servers i).flying.flatten := by
    intro x hx
    rw [List.mem_append, List.mem_flatten]
    exact Or.inr ⟨request, List.mem_of_getElem? hj, hx⟩
  have hproposed := fun x hx => (h.server i).proposed x (hflying x hx)
  have hflatten : (c.log ++ [request]).flatten = c.log.flatten ++ request := by
    rw [List.flatten_append, List.flatten_singleton]
  refine ⟨fun k => (h.server k).log_append request, ?_, ?_⟩
  · rw [hflatten]
    exact List.forall_mem_append.mpr ⟨h.positive, fun x hx => (hproposed x hx).1⟩
  · rw [hflatten]
    exact h.gapless.append fun x hx => (hproposed x hx).2

theorem Inv.step (h : c.Inv) (hs : EpochCluster.step sign batchSize c a = some c') :
    c'.Inv ∧ RisesByOne c c' := by
  unfold EpochCluster.step at hs
  cases a with
  | getRequest i request =>
      obtain ⟨m, hm, rfl⟩ := Option.map_eq_some_iff.mp hs
      have hself := (h.server i).getRequest hm
      refine h.update i rfl (fun j hj => ?_) ?_ (Or.inl ?_)
      · simp [setServer, hj]
      · simpa [setServer] using hself
      · simpa [setServer] using hself.currentEpoch_eq.trans (h.server i).currentEpoch_eq.symm
  | receiverFromUser i timeout =>
      obtain ⟨⟨m, r⟩, hm, rfl⟩ := Option.map_eq_some_iff.mp hs
      have hself := (h.server i).receiverFromUser hm
      refine h.update i rfl (fun j hj => ?_) ?_ (Or.inl ?_)
      · simp [setServer, respond, hj]
      · simpa [setServer, respond] using hself
      · simpa [setServer, respond] using
          hself.currentEpoch_eq.trans (h.server i).currentEpoch_eq.symm
  | sendToRaft i count =>
      obtain ⟨m, hm, rfl⟩ := Option.map_eq_some_iff.mp hs
      have hself := (h.server i).sendToRaft hm
      refine h.update i rfl (fun j hj => ?_) ?_ (Or.inl ?_)
      · simp [setServer, hj]
      · simpa [setServer] using hself
      · simpa [setServer] using hself.currentEpoch_eq.trans (h.server i).currentEpoch_eq.symm
  | submit i j =>
      obtain ⟨request, hj, rfl⟩ := Option.map_eq_some_iff.mp hs
      exact ⟨h.submit hj, fun _ => Or.inl rfl⟩
  | onApply i =>
      obtain ⟨entry, hentry, rfl⟩ := Option.map_eq_some_iff.mp hs
      have hself := (h.server i).onApply hentry
      refine h.update i rfl (fun j hj => ?_) ?_ (Or.inl ?_)
      · simp [setServer, hj]
      · simpa [setServer] using hself
      · simp [setServer, EVConsensusManager.onApply]
  | receiverFromRaft i =>
      obtain ⟨⟨m, x⟩, hm, rfl⟩ := Option.map_eq_some_iff.mp hs
      obtain ⟨hself, hrise⟩ := (h.server i).receiverFromRaft h.gapless hm
      refine h.update i rfl (fun j hj => ?_) ?_ ?_
      · simp [setServer, deliver, hj]
      · simpa [setServer, deliver] using hself
      · simpa [setServer, deliver] using hrise

/-- Both have taken the same part of the log. -/
theorem Inv.delivered_eq (h : c.Inv) {i j : Nat}
    (hlen : (c.delivered i).length = (c.delivered j).length) : c.delivered i = c.delivered j := by
  obtain ⟨rest, hi⟩ := (h.server i).delivered_append
  obtain ⟨rest', hj⟩ := (h.server j).delivered_append
  exact (List.append_inj (hi.symm.trans hj) hlen).1

end EpochCluster

/-- For any number of servers and any interleaving of requests, timers, proposals, duplicate
    submissions and deliveries. -/
theorem epoch_counter {sign : Bytes → Bytes} {batchSize : Nat} {actions : List EpochAction}
    {c : EpochCluster} (h : run (EpochCluster.step sign batchSize) {} actions = some c) :
    (∀ i, (c.delivered i = [] ∧ (c.servers i).currentEpoch = 1) ∨
      ((c.servers i).currentEpoch ∈ c.delivered i ∧
        ∀ x ∈ c.delivered i, x ≤ (c.servers i).currentEpoch)) ∧
    (∀ a c', EpochCluster.step sign batchSize c a = some c' → EpochCluster.RisesByOne c c') ∧
    (∀ i, ((c.responses i).map EpochResponse.epoch).Pairwise (· ≤ ·)) ∧
    (∀ i, c.delivered i <+: c.log.flatten) ∧
    (∀ i j, (c.delivered i).length = (c.delivered j).length →
      (c.servers i).currentEpoch = (c.servers j).currentEpoch) := by
  have hinv : c.Inv :=
    run_invariant EpochCluster.Inv (fun _ _ _ hi hs => (hi.step hs).1) h EpochCluster.inv_initial
  refine ⟨?_, fun a c' hs => (hinv.step hs).2, fun i => (hinv.server i).ordered, ?_, ?_⟩
  · intro i
    obtain ⟨rest, hrest⟩ := (hinv.server i).delivered_append
    have hcur := (hinv.server i).currentEpoch_eq
    rw [hcur]
    rcases List.eq_nil_or_concat (c.delivered i) with hnil | ⟨l, x, hsnoc⟩
    · left
      rw [hnil]
      exact ⟨rfl, rfl⟩
    · right
      refine ⟨highWater_mem.resolve_left ?_, fun y hy => le_highWater hy⟩
      -- every number delivered is at least two
      have hx : x ∈ c.delivered i := by
        rw [hsnoc, List.concat_eq_append]
        exact List.mem_append_right _ (List.mem_singleton_self x)
      have htwo : 2 ≤ x := hinv.positive x (hrest ▸ List.mem_append_left _ hx)
      have hle : x ≤ highWater 1 (c.delivered i) := le_highWater hx
      omega
  · intro i
    obtain ⟨rest, hrest⟩ := (hinv.server i).delivered_append
    exact ⟨rest, hrest.symm⟩
  · intro i j hlen
    rw [(hinv.server i).currentEpoch_eq, (hinv.server j).currentEpoch_eq, hinv.delivered_eq hlen]

/-- Both servers propose epoch 2; one proposal gets into the log twice. -/
def twoProposals : List EpochAction :=
  [.getRequest 0 {}, .receiverFromUser 0 true, .getRequest 1 {}, .receiverFromUser 1 true,
    .sendToRaft 0 1, .sendToRaft 1 1, .submit 0 0, .submit 1 0, .submit 0 0,
    .onApply 0, .receiverFromRaft 0, .getRequest 0 {}, .receiverFromUser 0 false,
    .onApply 1, .onApply 1, .receiverFromRaft 1]

theorem epoch_counter_two : ∃ c, run (EpochCluster.step id 1) {} twoProposals = some c ∧
    c.log = [[2], [2], [2]] ∧ (c.responses 0).map EpochResponse.epoch = [1, 2] ∧
    (c.servers 0).currentEpoch = 2 ∧ (c.servers 0).currentEpoch = (c.servers 1).currentEpoch := by
  have hrun : (run (EpochCluster.step id 1) {} twoProposals).any (fun c =>
      c.log = [[2], [2], [2]] ∧ (c.responses 0).map EpochResponse.epoch = [1, 2] ∧
        (c.servers 0).currentEpoch = 2 ∧
          (c.delivered 0).length = (c.delivered 1).length) = true := by
    decide
  obtain ⟨c, hc, hlog, hresponses, hepoch, hlen⟩ := exists_of_any hrun
  exact ⟨c, hc, hlog, hresponses, hepoch, (epoch_counter hc).2.2.2.2 0 1 hlen⟩

end NeuChain.EpochServer
