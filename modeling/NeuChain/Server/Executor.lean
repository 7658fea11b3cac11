/-
  `TransactionExecutorImpl::executeList` and `TransactionExecutor::commitList`, each run alone.

  A chaincode is a parameter: what `InvokeChaincode` does with one transaction on one
  storage, as a return value, the read-write set the transaction holds afterwards and the
  tables it creates. The chaincode object dies at the end of its loop iteration; its
  `CCORMHelper` then buffers the read-write set, unless the transaction is read-only.

  `executeLoop` and `commitLoop` are the two loops as the source has them. Their closed
  forms are what later proofs use:
  * `executeLoop_txns`, `executeLoop_rt`, `executeLoop_buffered`: every transaction is
    `executed` on the storage the loop started with, which it does not change.
  * `commitLoop_eq`: with every read-write set buffered no commit fails, each
    transaction gets the result `decision` names, and the committed write sets are applied
    in list order.
-/
import NeuChain.Server.ReserveTable
import NeuChain.Server.Database

namespace NeuChain.Server

open NeuChain.Lib

structure ChaincodeOutcome where
  ret : Bool
  kvRWSet : KVRWSet
  tableList : List ORMTableDefinition := []
deriving DecidableEq, Repr

abbrev Chaincode := Transaction → Storage → ChaincodeOutcome

/-- A deterministic program: its outcome depends only on the entries it recorded as read. -/
def Chaincode.LocalReads (cc : Chaincode) : Prop :=
  ∀ t D D', (∀ r ∈ (cc t D).kvRWSet.reads, D' r.cell = D r.cell) → cc t D' = cc t D

/-- Every table it creates has two fields, which `commitUpdate` checks. -/
def Chaincode.TwoFieldTables (cc : Chaincode) : Prop :=
  ∀ t D, ∀ table ∈ (cc t D).tableList, table.fieldList.length = 2

/-- The database and the table `ReserveTableProvider` currently holds. -/
structure ServerState where
  db : DatabaseImpl
  reserveTable : Option MockReserveTable := none

/-- The database and the reserve table the executors of one epoch share. -/
structure ExecState where
  db : DatabaseImpl
  rt : MockReserveTable

/-- A transaction after its loop iteration of `executeList` on storage `D`. -/
def executed (cc : Chaincode) (D : Storage) (t : Transaction) : Transaction :=
  let out := cc t D
  let t := { t with kvRWSet := out.kvRWSet }
  if out.ret then t else t.setTransactionResult .abortNoRetry

def executeOne (cc : Chaincode) (s : ExecState) (t : Transaction) : ExecState × Transaction :=
  let out := cc t s.db.storage
  let t' := executed cc s.db.storage t
  let rt' := if out.ret then s.rt.reserveRWSet t'.kvRWSet t'.tid else s.rt
  -- `~CCORMHelper`, also when the chaincode failed
  let db' := if t.readOnlyFlag then s.db else s.db.bufferUpdates t.tid t'.kvRWSet out.tableList
  ({ db := db', rt := rt' }, t')

def executeLoop (cc : Chaincode) : ExecState → List Transaction → ExecState × List Transaction
  | s, [] => (s, [])
  | s, t :: ts =>
      let r := executeOne cc s t
      let rest := executeLoop cc r.1 ts
      (rest.1, r.2 :: rest.2)

/-- What `commitList` makes of a transaction, given the reservations. -/
def decision (rt : MockReserveTable) (t : Transaction) : TransactionResult :=
  if t.transactionResult = .abortNoRetry then .abortNoRetry
  else
    let dep := rt.dependencyAnalysis t.kvRWSet t.tid
    if dep.waw then .abort
    else if !dep.war || !dep.raw then .commit
    else .abort

def commitOne (s : ExecState) (t : Transaction) : Option (ExecState × Transaction) :=
  if t.transactionResult = .abortNoRetry then some ({ s with db := s.db.abortUpdate }, t)
  else
    let dep := s.rt.dependencyAnalysis t.kvRWSet t.tid
    -- this branch alone leaves `commitPhase` as it is
    if dep.waw then some (s, t.setTransactionResult .abort)
    else if !dep.war || !dep.raw then
      (s.db.commitUpdate t.tid).map fun r =>
        ({ s with db := r.1 },
          t.setTransactionResult (if r.2 then .commit else .abortNoRetry))
    else some ({ s with db := s.db.abortUpdate }, t.setTransactionResult .abort)

def commitLoop : ExecState → List Transaction → Option (ExecState × List Transaction)
  | s, [] => some (s, [])
  | s, t :: ts =>
      (commitOne s t).bind fun r =>
        (commitLoop r.1 ts).map fun rest => (rest.1, r.2 :: rest.2)

/-! ## The read phase -/

section Execute

variable {cc : Chaincode} {s : ExecState} {ts : List Transaction} {D : Storage} {t : Transaction}

@[simp] theorem executed_tid : (executed cc D t).tid = t.tid := by
  unfold executed
  simp only
  split <;> rfl

@[simp] theorem executed_kvRWSet : (executed cc D t).kvRWSet = (cc t D).kvRWSet := by
  unfold executed
  simp only
  split <;> rfl

/-- A failed chaincode marks the transaction; a successful one leaves its result. -/
theorem executed_result : (executed cc D t).transactionResult =
    if (cc t D).ret then t.transactionResult else .abortNoRetry := by
  unfold executed
  simp only
  split <;> rfl

@[simp] theorem executeOne_snd : (executeOne cc s t).2 = executed cc s.db.storage t := rfl

@[simp] theorem executeOne_storage : (executeOne cc s t).1.db.storage = s.db.storage := by
  unfold executeOne
  simp only
  split
  · rfl
  · exact DatabaseImpl.bufferUpdates_storage

theorem executeLoop_storage : (executeLoop cc s ts).1.db.storage = s.db.storage := by
  induction ts generalizing s with
  | nil => rfl
  | cons t ts ih =>
      simp only [executeLoop]
      rw [ih, executeOne_storage]

theorem executeLoop_txns : (executeLoop cc s ts).2 = ts.map (executed cc s.db.storage) := by
  induction ts generalizing s with
  | nil => rfl
  | cons t ts ih =>
      simp only [executeLoop, List.map_cons, executeOne_snd]
      rw [ih, executeOne_storage]

theorem executeLoop_append {ts' : List Transaction} :
    executeLoop cc s (ts ++ ts') =
      ((executeLoop cc (executeLoop cc s ts).1 ts').1,
        (executeLoop cc s ts).2 ++ (executeLoop cc (executeLoop cc s ts).1 ts').2) := by
  induction ts generalizing s with
  | nil => rfl
  | cons t ts ih => simp only [List.cons_append, executeLoop, ih]

/-- The reservations one executed transaction makes. -/
def reserveExecuted (cc : Chaincode) (D : Storage) (rt : MockReserveTable) (t : Transaction) :
    MockReserveTable :=
  if (cc t D).ret then rt.reserveRWSet (cc t D).kvRWSet t.tid else rt

theorem executeOne_rt : (executeOne cc s t).1.rt = reserveExecuted cc s.db.storage s.rt t := by
  simp [executeOne, reserveExecuted]

theorem executeLoop_rt :
    (executeLoop cc s ts).1.rt = ts.foldl (reserveExecuted cc s.db.storage) s.rt := by
  induction ts generalizing s with
  | nil => rfl
  | cons t ts ih =>
      simp only [executeLoop, List.foldl_cons]
      rw [ih, executeOne_rt, executeOne_storage]

theorem reserveExecuted_epoch (rt : MockReserveTable) :
    (reserveExecuted cc D rt t).epoch = rt.epoch := by
  unfold reserveExecuted
  split <;> rfl

theorem executeLoop_epoch : (executeLoop cc s ts).1.rt.epoch = s.rt.epoch := by
  rw [executeLoop_rt]
  generalize s.db.storage = D
  generalize s.rt = rt
  induction ts generalizing rt with
  | nil => rfl
  | cons t ts ih => rw [List.foldl_cons, ih, reserveExecuted_epoch]

theorem executeOne_buffered (hro : t.readOnlyFlag = false) :
    (executeOne cc s t).1.db.commitPhase = false ∧
      (executeOne cc s t).1.db.Buffered t.tid (cc t s.db.storage).kvRWSet
        (cc t s.db.storage).tableList := by
  simp only [executeOne, hro, Bool.false_eq_true, if_false, executed_kvRWSet]
  exact ⟨DatabaseImpl.bufferUpdates_commitPhase, DatabaseImpl.buffered_bufferUpdates⟩

/-- Once an entry of this epoch is in the buffer, the rest of the loop keeps it. -/
theorem executeLoop_keeps {tid : Tid} {rw : KVRWSet} {tableList : List ORMTableDefinition}
    (hb : s.db.Buffered tid rw tableList) (hphase : s.db.commitPhase = false)
    (htid : ∀ t ∈ ts, t.tid ≠ tid) :
    (executeLoop cc s ts).1.db.Buffered tid rw tableList := by
  induction ts generalizing s with
  | nil => exact hb
  | cons t ts ih =>
      simp only [executeLoop]
      have hne : tid ≠ t.tid := Ne.symm (htid t List.mem_cons_self)
      apply ih
      · simp only [executeOne]
        split
        · exact hb
        · exact hb.bufferUpdates hphase hne
      · simp only [executeOne]
        split
        · exact hphase
        · exact DatabaseImpl.bufferUpdates_commitPhase
      · exact fun t' ht' => htid t' (List.mem_cons_of_mem _ ht')

theorem executeLoop_buffered (hnd : (ts.map Transaction.tid).Nodup)
    (hro : ∀ t ∈ ts, t.readOnlyFlag = false) (ht : t ∈ ts) :
    (executeLoop cc s ts).1.db.Buffered t.tid (cc t s.db.storage).kvRWSet
      (cc t s.db.storage).tableList := by
  induction ts generalizing s with
  | nil => cases ht
  | cons t' ts ih =>
      simp only [executeLoop]
      rw [List.map_cons, List.nodup_cons] at hnd
      have hro' := hro t' List.mem_cons_self
      rcases List.mem_cons.mp ht with rfl | ht
      · refine executeLoop_keeps (executeOne_buffered hro').2 (executeOne_buffered hro').1 ?_
        intro u hu he
        exact hnd.1 (he ▸ List.mem_map_of_mem hu)
      · have := ih (s := (executeOne cc s t').1) hnd.2
          (fun u hu => hro u (List.mem_cons_of_mem _ hu)) ht
        rwa [executeOne_storage] at this

end Execute

/-! ## The commit phase -/

section Commit

variable {s : ExecState} {ts : List Transaction} {t : Transaction}

/-- The write sets `commitList` applies, in list order. -/
def committedEffects (rt : MockReserveTable) (ts : List Transaction) :
    List (Cell × Option Bytes) :=
  (ts.filter fun t => decision rt t = .commit).flatMap fun t => t.kvRWSet.writes.map writeEffect

/-- A transaction that will be committed is buffered, with tables that pass the check. -/
def Ready (db : DatabaseImpl) (t : Transaction) : Prop :=
  ∃ tableList, db.Buffered t.tid t.kvRWSet tableList ∧
    ∀ table ∈ tableList, table.fieldList.length = 2

theorem Ready.of_buffers {db db' : DatabaseImpl} (h : Ready db t)
    (h1 : db'.rwSetBuffer = db.rwSetBuffer) (h2 : db'.tableListBuffer = db.tableListBuffer) :
    Ready db' t := by
  obtain ⟨tableList, hb, ht⟩ := h
  refine ⟨tableList, ?_, ht⟩
  unfold DatabaseImpl.Buffered at *
  rw [h1, h2]
  exact hb

theorem commitOne_eq (h : Ready s.db t) :
    ∃ db', commitOne s t =
        some ({ s with db := db' }, t.setTransactionResult (decision s.rt t)) ∧
      db'.storage = putAll s.db.storage (committedEffects s.rt [t]) ∧
      db'.rwSetBuffer = s.db.rwSetBuffer ∧ db'.tableListBuffer = s.db.tableListBuffer := by
  obtain ⟨tableList, hb, ht⟩ := h
  unfold commitOne committedEffects decision
  by_cases hres : t.transactionResult = .abortNoRetry
  · refine ⟨s.db.abortUpdate, ?_, ?_, rfl, rfl⟩
    · rw [if_pos hres, if_pos hres, ← hres]
      rfl
    · simp [hres, DatabaseImpl.abortUpdate]
  · simp only [if_neg hres]
    by_cases hwaw : (s.rt.dependencyAnalysis t.kvRWSet t.tid).waw
    · refine ⟨s.db, ?_, ?_, rfl, rfl⟩
      · simp only [if_pos hwaw]
      · simp [hres, hwaw]
    · by_cases hok : (!(s.rt.dependencyAnalysis t.kvRWSet t.tid).war ||
          !(s.rt.dependencyAnalysis t.kvRWSet t.tid).raw) = true
      · refine ⟨{ s.db with
          commitPhase := true
          storage := putAll s.db.storage (t.kvRWSet.writes.map writeEffect) }, ?_, ?_, rfl, rfl⟩
        · simp only [if_neg hwaw, if_pos hok, DatabaseImpl.commitUpdate_eq hb ht, Option.map_some,
            if_true]
        · simp only [hres, hwaw, hok, if_false, if_true, decide_true, List.filter_cons,
            List.filter_nil, List.flatMap_cons, List.flatMap_nil, List.append_nil,
            Bool.false_eq_true]
      · refine ⟨s.db.abortUpdate, ?_, ?_, rfl, rfl⟩
        · simp only [if_neg hwaw, if_neg hok]
        · simp [hres, hwaw, hok, DatabaseImpl.abortUpdate]

theorem committedEffects_cons (rt : MockReserveTable) :
    committedEffects rt (t :: ts) = committedEffects rt [t] ++ committedEffects rt ts := by
  unfold committedEffects
  rw [← List.flatMap_append, ← List.filter_append]
  rfl

theorem commitLoop_eq (h : ∀ t ∈ ts, Ready s.db t) :
    ∃ db', commitLoop s ts =
        some ({ s with db := db' },
          ts.map fun t => t.setTransactionResult (decision s.rt t)) ∧
      db'.storage = putAll s.db.storage (committedEffects s.rt ts) ∧
      db'.rwSetBuffer = s.db.rwSetBuffer ∧ db'.tableListBuffer = s.db.tableListBuffer := by
  induction ts generalizing s with
  | nil => exact ⟨s.db, rfl, rfl, rfl, rfl⟩
  | cons t ts ih =>
      obtain ⟨db1, h1, hst1, hb1, ht1⟩ := commitOne_eq (h t List.mem_cons_self)
      obtain ⟨db2, h2, hst2, hb2, ht2⟩ := ih (s := { s with db := db1 })
        fun u hu => (h u (List.mem_cons_of_mem _ hu)).of_buffers hb1 ht1
      refine ⟨db2, ?_, ?_, hb2.trans hb1, ht2.trans ht1⟩
      · simp only [commitLoop, h1, h2, Option.bind_some, Option.map_some, List.map_cons]
      · rw [hst2, hst1, ← putAll_append, ← committedEffects_cons]

theorem commitLoop_append {ts' : List Transaction} :
    commitLoop s (ts ++ ts') =
      (commitLoop s ts).bind fun r =>
        (commitLoop r.1 ts').map fun r' => (r'.1, r.2 ++ r'.2) := by
  induction ts generalizing s with
  | nil => simp [commitLoop]
  | cons t ts ih =>
      simp only [List.cons_append, commitLoop, Option.bind_assoc, ih]
      refine Option.bind_congr fun r _ => ?_
      cases commitLoop r.1 ts <;> simp [Function.comp_def]

end Commit

end NeuChain.Server
