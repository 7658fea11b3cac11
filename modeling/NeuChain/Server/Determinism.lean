/-
  Replicas agree: two servers that start an epoch from the same database and run the same set
  of transactions end alike, whatever the order of arrival, the split into workloads, the
  number of workers and the schedules of both phases.

  They may differ in everything the epoch does not read: what is left in the commit buffer, and
  an older reserve table. The block body is compared up to the signature, for which each
  server has its own key.
-/
import NeuChain.Server.ConcurrentEpoch
import NeuChain.Server.BlockGenerator

namespace NeuChain.Server

open NeuChain.Lib

/-- The pending queue of the block generator, filled with the transactions `ids` of the epoch in
    this order. -/
def pendingQueue (s : EpochState) (ids : List Tid) : TxPriorityQueue := pushAll (ids.map s.txns)

/-- Two servers after an epoch with the transactions `ts`. The block bodies agree for all orders in
    which the finished transactions reach the block generator. -/
structure SameOutcome (ts : List Transaction) (r r' : EpochState) : Prop where
  txns : ∀ t ∈ ts, r.txns t.tid = r'.txns t.tid
  storage : r.db.storage = r'.db.storage
  block : ∀ ids ids', ids.Perm (ts.map Transaction.tid) → ids'.Perm (ts.map Transaction.tid) →
    ∀ sha msg epoch,
      (∀ sign, generateBlockBody sha msg sign epoch (pendingQueue r ids) =
        generateBlockBody sha msg sign epoch (pendingQueue r' ids')) ∧
      ∀ sign sign' b b', generateBlockBody sha msg sign epoch (pendingQueue r ids) = some b →
        generateBlockBody sha msg sign' epoch (pendingQueue r' ids') = some b' →
        b.1 = b'.1 ∧ b.2.data = b'.2.data ∧ b.2.metadata.take 2 = b'.2.metadata.take 2

section

variable {cc : Chaincode} {e : Epoch} {ts : List Transaction} {r r' : EpochState}

theorem sameOutcome_of_eq (hnd : (ts.map Transaction.tid).Nodup)
    (htid : ∀ t ∈ ts, (r.txns t.tid).tid = t.tid)
    (htx : ∀ t ∈ ts, r.txns t.tid = r'.txns t.tid) (hst : r.db.storage = r'.db.storage) :
    SameOutcome ts r r' := by
  refine ⟨htx, hst, ?_⟩
  intro ids ids' hids hids' sha msg epoch
  have hmem : ∀ tid ∈ ids, ∃ t ∈ ts, t.tid = tid :=
    fun tid h => List.mem_map.mp (hids.mem_iff.mp h)
  have hqueue : pendingQueue r ids = pendingQueue r' ids' := by
    unfold pendingQueue
    have htids : (ids.map r.txns).map Transaction.tid = ids := by
      rw [List.map_map]
      refine (List.map_congr_left fun tid h => ?_).trans (List.map_id ids)
      obtain ⟨t, ht, rfl⟩ := hmem tid h
      exact htid t ht
    rw [pushAll_perm ((hids.trans hids'.symm).map r.txns)]
    · congr 1
      refine List.map_congr_left fun tid h => ?_
      obtain ⟨t, ht, rfl⟩ := List.mem_map.mp (hids'.mem_iff.mp h)
      exact htx t ht
    · rw [htids]
      exact hids.nodup_iff.mpr hnd
  rw [hqueue]
  exact ⟨fun _ => rfl, fun _ _ _ _ => generateBlockBody_content⟩

/-- Replica determinism. -/
theorem replicas_agree {s s' : ServerState} {workloads workloads' : List (List Transaction)}
    (htab : cc.TwoFieldTables) (hb : EpochBatch e workloads.flatten)
    (hp : workloads.flatten.Perm workloads'.flatten) (hD : s.db.storage = s'.db.storage)
    (hfresh : s.Fresh e) (hfresh' : s'.Fresh e) :
    (∃ as bs r, runConcurrent cc s workloads as bs = some r) ∧
    ∀ as bs as' bs' r r', runConcurrent cc s workloads as bs = some r →
      runConcurrent cc s' workloads' as' bs' = some r' → SameOutcome workloads.flatten r r' := by
  constructor
  · obtain ⟨bs, as', r, hr⟩ := runConcurrent_completes htab hb hfresh run_nil
    exact ⟨_, as', r, hr⟩
  · intro as bs as' bs' r r' hrun hrun'
    have hleast := hfresh.reservations_least cc hb.tid_ne_zero
    obtain ⟨hst, htx⟩ := runConcurrent_eq htab hb hfresh hrun (List.Perm.refl _) hleast
    rw [hD] at hleast
    obtain ⟨hst', htx'⟩ := runConcurrent_eq htab (hb.perm hp) hfresh' hrun' hp.symm hleast
    refine sameOutcome_of_eq hb.tids ?_ ?_ ?_
    · intro t ht
      rw [htx t ht, finished_tid]
    · intro t ht
      rw [htx t ht, htx' t ht, hD]
    · rw [hst, hst', hD]

end

/-- The transactions of `copyWorkloads` in another order, for three workers. -/
def copyWorkloads' : List (List Transaction) :=
  [[{ epoch := 5, tid := 3, readOnlyFlag := false }],
    [],
    [{ epoch := 5, tid := 2, readOnlyFlag := false },
      { epoch := 5, tid := 1, readOnlyFlag := false }]]

theorem replicas_agree_copy :
    (∃ as bs r, runConcurrent copyChaincode { db := { storage := fun _ => none } }
      copyWorkloads as bs = some r) ∧
    ∀ as bs as' bs' r r',
      runConcurrent copyChaincode { db := { storage := fun _ => none } } copyWorkloads as bs =
        some r →
      runConcurrent copyChaincode
        { db := { storage := fun _ => none, commitPhase := true }
          reserveTable := some { epoch := 4, readTableList := fun _ => 1 } }
        copyWorkloads' as' bs' = some r' →
      SameOutcome copyWorkloads.flatten r r' :=
  replicas_agree copyChaincode_twoFieldTables copyWorkloads_batch (by decide) rfl
    (fun _ h => by cases h) (fun _ h => by cases h; decide)

end NeuChain.Server
