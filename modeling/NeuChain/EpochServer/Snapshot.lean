/-
  Snapshots of an epoch server.

  `raft::Chain` owns the snapshot callbacks, but the epoch is in `EVConsensusManager`, and the
  callbacks neither write nor read anything. A restarted server starts from epoch 1 and gets only the
  log entries after its snapshot.

  * `restart_keeps_epoch_iff`: from the restart on it is in the epoch of a server that was never
    restarted, and signs none lower than before, exactly if every number before the snapshot is
    reached again between the snapshot and the restart.
-/
import NeuChain.EpochServer.EVConsensusManager
import NeuChain.Lib.HighWater

namespace NeuChain.EpochServer

open NeuChain Lib Server

namespace EVConsensusManager

/-- `Chain::on_snapshot_save` and `save_snapshot`: the file `data`, to which nothing is written. -/
def onSnapshotSave (_ : EVConsensusManager) : Bytes := []

/-- `Chain::on_snapshot_load`: the file is opened, and that is all. -/
def onSnapshotLoad (m : EVConsensusManager) (_data : Bytes) : EVConsensusManager := m

/-- `receiver_from_raft` until the queue is empty. -/
def drain : Nat → EVConsensusManager → EVConsensusManager
  | 0, m => m
  | n + 1, m =>
      match m.receiverFromRaft with
      | none => m
      | some (m', _) => drain n m'

/-- Entries are applied and taken from the queue. -/
def replay (m : EVConsensusManager) (entries : List PushRequest) : EVConsensusManager :=
  let m := entries.foldl onApply m
  m.drain m.consensusRequestQueue.length

/-- A server that has applied the log. -/
def uninterrupted (log : List PushRequest) : EVConsensusManager := replay {} log

/-- The same when it took a snapshot after `k` entries and was restarted after `r`, once it has
    applied `m` entries. -/
def restarted (log : List PushRequest) (k r m : Nat) : EVConsensusManager :=
  let data := (uninterrupted (log.take k)).onSnapshotSave
  ((onSnapshotLoad {} data).replay ((log.take r).drop k)).replay ((log.take m).drop r)

/-- The answer to a request. -/
def answer (sign : Bytes → Bytes) (m : EVConsensusManager) (request : EpochRequest) (timeout : Bool) :
    Option EpochResponse :=
  ((m.getRequest request).bind fun m' => m'.receiverFromUser sign timeout).map Prod.snd

variable {m : EVConsensusManager} {k r n : Nat} {sign : Bytes → Bytes}

theorem answer_epoch {request : EpochRequest} {timeout : Bool} {response : EpochResponse}
    (h : answer sign m request timeout = some response) : response.epoch = m.currentEpoch := by
  obtain ⟨⟨m₂, response'⟩, hbind, rfl⟩ := Option.map_eq_some_iff.mp h
  obtain ⟨m₁, hget, hanswer⟩ := Option.bind_eq_some_iff.mp hbind
  unfold getRequest at hget
  split_ifs at hget
  cases hget
  cases hanswer
  rfl

theorem drain_currentEpoch (n : Nat) (m : EVConsensusManager) :
    (m.drain n).currentEpoch = highWater m.currentEpoch (m.consensusRequestQueue.take n) := by
  induction n generalizing m with
  | zero => rfl
  | succ n ih =>
      obtain ⟨epoch, approve, user, queue, flying, pending⟩ := m
      cases pending with
      | nil => rfl
      | cons x pending =>
          have hmax : (if x > epoch then x else epoch) = max epoch x := by
            split_ifs <;> omega
          refine (ih _).trans ?_
          rw [hmax]
          rfl

theorem drain_queue (n : Nat) (m : EVConsensusManager) :
    (m.drain n).consensusRequestQueue = m.consensusRequestQueue.drop n := by
  induction n generalizing m with
  | zero => rfl
  | succ n ih =>
      obtain ⟨epoch, approve, user, queue, flying, pending⟩ := m
      cases pending with
      | nil => rfl
      | cons x pending => exact ih _

theorem foldl_onApply (entries : List PushRequest) (m : EVConsensusManager) :
    entries.foldl onApply m =
      { m with consensusRequestQueue := m.consensusRequestQueue ++ entries.flatten } := by
  induction entries generalizing m with
  | nil => simp
  | cons entry entries ih =>
      rw [List.foldl_cons, ih]
      simp [onApply]

theorem replay_currentEpoch (hqueue : m.consensusRequestQueue = []) (entries : List PushRequest) :
    (m.replay entries).currentEpoch = highWater m.currentEpoch entries.flatten := by
  unfold replay
  rw [foldl_onApply, drain_currentEpoch]
  dsimp only
  rw [List.take_length, hqueue, List.nil_append]

theorem replay_queue (entries : List PushRequest) :
    (m.replay entries).consensusRequestQueue = [] := by
  unfold replay
  rw [drain_queue, List.drop_length]

theorem uninterrupted_currentEpoch (log : List PushRequest) :
    (uninterrupted log).currentEpoch = highWater 1 log.flatten :=
  replay_currentEpoch rfl log

/-- Only what comes after the snapshot counts. -/
theorem restarted_currentEpoch (hk : k ≤ r) (hr : r ≤ n) (log : List PushRequest) :
    (restarted log k r n).currentEpoch = highWater 1 ((log.take n).drop k).flatten := by
  have hsplit : (log.take n).drop k = (log.take r).drop k ++ (log.take n).drop r := by
    have htake : (log.take r).drop k = ((log.take n).drop k).take (r - k) := by
      rw [← List.drop_take, List.take_take, min_eq_left hr]
    have hdrop : (log.take n).drop r = ((log.take n).drop k).drop (r - k) := by
      rw [List.drop_drop, Nat.add_sub_cancel' hk]
    rw [htake, hdrop, List.take_append_drop]
  unfold restarted
  rw [replay_currentEpoch (replay_queue _), replay_currentEpoch rfl, ← highWater_append,
    ← List.flatten_append, ← hsplit]
  rfl

end EVConsensusManager

open EVConsensusManager

/-- At every point after the restart the epoch is that of a server that was never restarted, and no
    answer has a lower epoch than one before the restart. -/
def RestartKeepsEpoch (sign : Bytes → Bytes) (log : List PushRequest) (k r : Nat) : Prop :=
  ∀ m, r ≤ m →
    (restarted log k r m).currentEpoch = (uninterrupted (log.take m)).currentEpoch ∧
      ∀ j ≤ r, ∀ request timeout response request' timeout' response',
        answer sign (uninterrupted (log.take j)) request timeout = some response →
          answer sign (restarted log k r m) request' timeout' = some response' →
            response.epoch ≤ response'.epoch

/-- Every number before the snapshot is at most 1 or reached between snapshot and restart. -/
def ReachedAgain (log : List PushRequest) (k r : Nat) : Prop :=
  ∀ x ∈ (log.take k).flatten, x ≤ 1 ∨ ∃ y ∈ ((log.take r).drop k).flatten, x ≤ y

/-- The entries up to `m`, cut at the snapshot. -/
theorem flatten_take_eq (log : List PushRequest) {k m : Nat} (hk : k ≤ m) :
    (log.take m).flatten = (log.take k).flatten ++ ((log.take m).drop k).flatten := by
  have htake : log.take k = (log.take m).take k := by rw [List.take_take, min_eq_left hk]
  rw [htake, ← List.flatten_append, List.take_append_drop]

theorem ReachedAgain.mono {log : List PushRequest} {k r m : Nat} (h : ReachedAgain log k r)
    (hr : r ≤ m) : ReachedAgain log k m := by
  intro x hx
  refine (h x hx).imp_right fun ⟨y, hy, hxy⟩ => ⟨y, ?_, hxy⟩
  obtain ⟨entry, hentry, hy⟩ := List.mem_flatten.mp hy
  have hsub : ((log.take r).drop k).Sublist ((log.take m).drop k) :=
    (List.take_sublist_take_left hr).drop k
  exact List.mem_flatten.mpr ⟨entry, hsub.subset hentry, hy⟩

/-- Of the entries up to `m` those before the snapshot can be left out. -/
theorem highWater_drop_iff (log : List PushRequest) {k m : Nat} (hk : k ≤ m) :
    highWater 1 ((log.take m).drop k).flatten = highWater 1 (log.take m).flatten ↔
      ReachedAgain log k m := by
  rw [flatten_take_eq log hk]
  constructor
  · intro heq x hx
    have hle : x ≤ highWater 1 ((log.take m).drop k).flatten := by
      rw [heq]
      exact le_highWater (List.mem_append_left _ hx)
    -- the mark is the start value or one of the numbers after the snapshot
    rcases @highWater_mem 1 ((log.take m).drop k).flatten with hone | hmem
    · left
      omega
    · exact Or.inr ⟨_, hmem, hle⟩
  · intro hagain
    refine Nat.le_antisymm ?_ ?_
    · refine highWater_le_iff.mpr ⟨start_le_highWater, fun x hx => le_highWater ?_⟩
      exact List.mem_append_right _ hx
    · refine highWater_le_iff.mpr ⟨start_le_highWater, fun x hx => ?_⟩
      rcases List.mem_append.mp hx with hx | hx
      · rcases hagain x hx with hone | ⟨y, hy, hxy⟩
        · exact Nat.le_trans hone start_le_highWater
        · exact Nat.le_trans hxy (le_highWater hy)
      · exact le_highWater hx

theorem restart_keeps_epoch_iff (sign : Bytes → Bytes) (log : List PushRequest) {k r : Nat}
    (hk : k ≤ r) : RestartKeepsEpoch sign log k r ↔ ReachedAgain log k r := by
  constructor
  · intro hkeeps
    have heq := (hkeeps r le_rfl).1
    rw [restarted_currentEpoch hk le_rfl, uninterrupted_currentEpoch] at heq
    exact (highWater_drop_iff log hk).mp heq
  · intro hagain m hm
    have heq : (restarted log k r m).currentEpoch = (uninterrupted (log.take m)).currentEpoch := by
      rw [restarted_currentEpoch hk hm, uninterrupted_currentEpoch]
      exact (highWater_drop_iff log (hk.trans hm)).mpr (hagain.mono hm)
    refine ⟨heq, ?_⟩
    intro j hj request timeout response request' timeout' response' hbefore hafter
    rw [answer_epoch hbefore, answer_epoch hafter, heq, uninterrupted_currentEpoch,
      uninterrupted_currentEpoch, flatten_take_eq log (hj.trans hm)]
    exact highWater_le_append

/-- Epoch 2 begins before the snapshot, epoch 3 between snapshot and restart, epoch 4 later. -/
theorem restart_keeps_epoch_later :
    RestartKeepsEpoch id [[2], [3], [4]] 1 2 ∧ ReachedAgain [[2], [3], [4]] 1 2 := by
  have hagain : ReachedAgain [[2], [3], [4]] 1 2 := by
    unfold ReachedAgain
    decide
  exact ⟨(restart_keeps_epoch_iff id [[2], [3], [4]] (by decide)).mpr hagain, hagain⟩

/-- With nothing between the snapshot and the restart the server is back in epoch 1, although
    epoch 3 will bring it up again. -/
theorem restart_loses_epoch : ¬ RestartKeepsEpoch id [[2], [3]] 1 1 := by
  intro hkeeps
  have heq := (hkeeps 1 le_rfl).1
  revert heq
  decide

end NeuChain.EpochServer
