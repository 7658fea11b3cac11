/-
  What the servers of an organisation send each other in an epoch.

  The message of server `k` for epoch `e` depends only on the transactions of the epoch
  (`exchangeOf`): it has a node for each transaction that is local to `k`. Each transaction is
  local to one server, so a server listens for all transactions in the messages of the others,
  and no transaction is in two of them.
-/
import Mathlib.Data.List.GetD
import NeuChain.Server.AggregationExchange

namespace NeuChain.Server

open NeuChain Lib

/-! ## Other servers -/

theorem peer_ne (k i : Nat) : peer k i ≠ k := by
  unfold peer
  split <;> omega

theorem peer_lt {n k i : Nat} (hk : k < n) (hi : i < n - 1) : peer k i < n := by
  unfold peer
  split <;> omega

theorem peer_injective {k i i' : Nat} (h : peer k i = peer k i') : i = i' := by
  unfold peer at h
  split at h <;> split at h <;> omega

theorem exists_peer {n k j : Nat} (hk : k < n) (hj : j < n) (hne : j ≠ k) :
    ∃ i < n - 1, peer k i = j := by
  by_cases hlt : j < k
  · exact ⟨j, by omega, if_pos hlt⟩
  · refine ⟨j - 1, by omega, ?_⟩
    unfold peer
    rw [if_neg (by omega)]
    omega

namespace ExchangeConfig

variable {cfg : ExchangeConfig} {k e : Nat} {tid : Tid}

theorem isLocalTransaction_getElem (hk : k < cfg.totalServerCount) :
    cfg.isLocalTransaction k tid =
      cfg.cluster.isLocalTransaction cfg.cluster.clusterIPs[k] tid := by
  unfold isLocalTransaction
  rw [List.getD_eq_getElem _ _ hk]

/-- A transaction is local to one server. -/
theorem local_unique {j : Nat} (hk : k < cfg.totalServerCount) (hj : j < cfg.totalServerCount)
    (hkl : cfg.isLocalTransaction k tid = true) (hjl : cfg.isLocalTransaction j tid = true) :
    k = j := by
  rw [isLocalTransaction_getElem hk] at hkl
  rw [isLocalTransaction_getElem hj] at hjl
  have hip := (existsUnique_isLocalTransaction cfg.cluster tid).unique
    ⟨List.getElem_mem hk, hkl⟩ ⟨List.getElem_mem hj, hjl⟩
  exact (List.Nodup.getElem_inj_iff cfg.cluster.unique).mp hip

theorem exists_local (cfg : ExchangeConfig) (tid : Tid) :
    ∃ j < cfg.totalServerCount, cfg.isLocalTransaction j tid = true := by
  obtain ⟨ip, ⟨hip, hlocal⟩, -⟩ := existsUnique_isLocalTransaction cfg.cluster tid
  obtain ⟨j, hj, rfl⟩ := List.getElem_of_mem hip
  exact ⟨j, hj, (isLocalTransaction_getElem hj).trans hlocal⟩

end ExchangeConfig

/-! ## Maps -/

/-- The map that has been filled with these transactions. -/
def mapOf (ts : List Transaction) : List Transaction :=
  ts.foldl (fun m t => insertTransaction t m) []

theorem mapOf_snoc (ts : List Transaction) (t : Transaction) :
    mapOf (ts ++ [t]) = insertTransaction t (mapOf ts) := List.foldl_append

theorem mem_tids_insertTransaction {t : Transaction} {m : List Transaction} {tid : Tid} :
    tid ∈ (insertTransaction t m).map Transaction.tid ↔
      tid = t.tid ∨ tid ∈ m.map Transaction.tid := by
  induction m with
  | nil => simp [insertTransaction]
  | cons u m ih =>
      unfold insertTransaction
      split
      · simp
      · split
        · rename_i hu
          simp [hu]
        · rw [List.map_cons, List.mem_cons, ih, List.map_cons, List.mem_cons]
          exact or_left_comm

theorem pairwise_insertTransaction {t : Transaction} {m : List Transaction}
    (h : (m.map Transaction.tid).Pairwise (· < ·)) :
    ((insertTransaction t m).map Transaction.tid).Pairwise (· < ·) := by
  induction m with
  | nil => exact List.pairwise_singleton _ _
  | cons u m ih =>
      obtain ⟨hu, hm⟩ := List.pairwise_cons.mp h
      unfold insertTransaction
      split
      · rename_i hlt
        refine List.pairwise_cons.mpr ⟨fun v hv => ?_, h⟩
        rcases List.mem_cons.mp hv with rfl | hv
        · exact hlt
        · exact Nat.lt_trans hlt (hu v hv)
      · split
        · rename_i heq
          refine List.pairwise_cons.mpr ⟨fun v hv => ?_, hm⟩
          rw [heq]
          exact hu v hv
        · rename_i hge hne
          refine List.pairwise_cons.mpr ⟨fun v hv => ?_, ih hm⟩
          rcases mem_tids_insertTransaction.mp hv with rfl | hv
          · exact Nat.lt_of_le_of_ne (Nat.not_lt.mp hge) (Ne.symm hne)
          · exact hu v hv

theorem mem_tids_mapOf {ts : List Transaction} {tid : Tid} :
    tid ∈ (mapOf ts).map Transaction.tid ↔ tid ∈ ts.map Transaction.tid := by
  induction ts using List.reverseRecOn with
  | nil => rfl
  | append_singleton ts t ih =>
      rw [mapOf_snoc, mem_tids_insertTransaction, ih, List.map_append, List.mem_append,
        List.map_singleton, List.mem_singleton]
      exact or_comm

theorem pairwise_mapOf (ts : List Transaction) :
    ((mapOf ts).map Transaction.tid).Pairwise (· < ·) := by
  induction ts using List.reverseRecOn with
  | nil => exact List.Pairwise.nil
  | append_singleton ts t ih =>
      rw [mapOf_snoc]
      exact pairwise_insertTransaction ih

/-! ## Messages -/

namespace ExchangeConfig

variable {cfg : ExchangeConfig} {k e : Nat} {tid : Tid}

/-- What is in `broadcastTransaction` of server `k` after it has been assigned these. -/
def localMap (cfg : ExchangeConfig) (k : Nat) (ts : List Transaction) : List Transaction :=
  mapOf (ts.filter fun t => cfg.isLocalTransaction k t.tid)

/-- What is in `listenTransaction`. -/
def remoteMap (cfg : ExchangeConfig) (k : Nat) (ts : List Transaction) : List Transaction :=
  mapOf (ts.filter fun t => !cfg.isLocalTransaction k t.tid)

/-- The message of server `k` for epoch `e`. -/
def exchangeOf (cfg : ExchangeConfig) (k e : Nat) : AggregationExchange :=
  makeExchange cfg.msg e ((cfg.localMap k (cfg.transactions e)).map (cfg.execute k))

theorem mem_remoteMap {ts : List Transaction} :
    tid ∈ (cfg.remoteMap k ts).map Transaction.tid ↔
      tid ∈ ts.map Transaction.tid ∧ cfg.isLocalTransaction k tid = false := by
  unfold remoteMap
  rw [mem_tids_mapOf, List.mem_map, List.mem_map]
  constructor
  · rintro ⟨t, ht, rfl⟩
    obtain ⟨ht, hlocal⟩ := List.mem_filter.mp ht
    exact ⟨⟨t, ht, rfl⟩, by simpa using hlocal⟩
  · rintro ⟨⟨t, ht, rfl⟩, hlocal⟩
    exact ⟨t, List.mem_filter.mpr ⟨ht, by simpa using hlocal⟩, rfl⟩

theorem tids_exchangeOf : (cfg.exchangeOf k e).node.map AggregationNode.tid =
    (cfg.localMap k (cfg.transactions e)).map Transaction.tid := by
  unfold exchangeOf makeExchange
  rw [List.map_map, List.map_map]
  rfl

theorem mem_exchangeOf : tid ∈ (cfg.exchangeOf k e).node.map AggregationNode.tid ↔
    tid ∈ (cfg.transactions e).map Transaction.tid ∧ cfg.isLocalTransaction k tid = true := by
  rw [tids_exchangeOf, localMap, mem_tids_mapOf, List.mem_map, List.mem_map]
  constructor
  · rintro ⟨t, ht, rfl⟩
    obtain ⟨ht, hlocal⟩ := List.mem_filter.mp ht
    exact ⟨⟨t, ht, rfl⟩, hlocal⟩
  · rintro ⟨⟨t, ht, rfl⟩, hlocal⟩
    exact ⟨t, List.mem_filter.mpr ⟨ht, hlocal⟩, rfl⟩

theorem nodup_exchangeOf (cfg : ExchangeConfig) (k e : Nat) :
    ((cfg.exchangeOf k e).node.map AggregationNode.tid).Nodup := by
  rw [tids_exchangeOf]
  exact (pairwise_mapOf _).imp fun h => Nat.ne_of_lt h

end ExchangeConfig

end NeuChain.Server
