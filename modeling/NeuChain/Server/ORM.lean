/-
  What a chaincode sees of the database: `CCORMHelper`, its queries and its inserts, over
  `LevelDBStorage`.

  A chaincode function is a program in `CC`. It reads one storage, which nobody changes while it
  runs, and appends to the read-write set of its transaction; `none` is a `CHECK` that fails. A read
  is recorded when a value is taken from the result of a query, not when the query is made.

  * `CC.Proper`: the program does the same on every storage that agrees on what it has recorded as
    read, and the tables it creates have two fields.
  * `CC.Closed`: what a property needs to hold of every chaincode; `Proper` is such a property.
  * `chaincodeOf_localReads`, `chaincodeOf_twoFieldTables`: what the executor needs of a chaincode
    holds if its functions are such programs.
-/
import NeuChain.Lib.Decimal
import NeuChain.Server.Executor

namespace NeuChain.Server

open NeuChain.Lib

/-! ## The model -/

/-- `ARIA_SYS_TABLE`. -/
def ariaSysTable : Bytes := ascii "aria_sys_table"

structure CCORMHelper where
  tid : Tid
  readOnly : Bool
  kvRWSet : KVRWSet := {}
  tableList : List ORMTableDefinition := []
deriving DecidableEq, Repr

abbrev CC := ReaderT Storage (OptionT (StateM CCORMHelper))

/-- Running a program: what it returns, and what the helper is left with. -/
def CC.exec {α : Type} (p : CC α) (D : Storage) (h : CCORMHelper) : Option α × CCORMHelper :=
  StateT.run (OptionT.run (ReaderT.run p D)) h

structure LevelDBResultsIterator where
  table : Bytes
  key : Bytes
  value : Bytes
  readKeys : List Bytes := []
  index : Int := 0
deriving DecidableEq, Repr

/-- `1 - index`, as a condition. -/
def LevelDBResultsIterator.hasNext (it : LevelDBResultsIterator) : Bool := 1 - it.index ≠ 0

/-- `newQuery`, `filter` for the key and `executeQuery`. -/
def executeQuery (table col : Bytes) : CC LevelDBResultsIterator := do
  let storage ← read
  return { table := table, key := col, value := Storage.selectDB storage col table }

/-- The value of an attribute and the iterator afterwards. -/
def LevelDBResultsIterator.getString (it : LevelDBResultsIterator) (attr : Bytes) :
    CC (Bytes × LevelDBResultsIterator) := do
  let result := if attr = ascii "key" then it.key else it.value
  if it.key ∈ it.readKeys then return (result, it)
  else
    modify fun h => { h with
      kvRWSet := { h.kvRWSet with
        reads := h.kvRWSet.reads ++ [{ table := it.table, key := it.key, value := it.value }] } }
    return (result, { it with readKeys := it.key :: it.readKeys })

/-- The value of a key, or `default` where it is empty; the `queryLambda` of a chaincode. -/
def selectOr (table default key : Bytes) : CC Bytes := do
  let r ← executeQuery table key
  if !r.hasNext then return default
  else
    let (first, r) ← r.getString (ascii "value")
    if first.isEmpty then return default
    else
      let (second, _) ← r.getString (ascii "value")
      return second

/-- `newInsert`, then `set` for the key and for the value. The second `CHECK` does not compare
    tables. -/
def insert (table key value : Bytes) : CC Unit := do
  let h : CCORMHelper ← get
  if h.readOnly ∨ h.kvRWSet.writes.any (fun w => w.key = key) then failure
  else
    modify fun h => { h with
      kvRWSet := { h.kvRWSet with
        writes := h.kvRWSet.writes ++ [{ table := table, key := key, value := value }] } }

/-- The loop of a chaincode that inserts one row after the other. -/
def insertRows (table : Bytes) : List (Bytes × Bytes) → CC Unit
  | [] => pure ()
  | (key, value) :: rest => do
      insert table key value
      insertRows table rest

/-- `createTable`; the fields are added to the table it returns. -/
def createTable (tableName : Bytes) (fieldList : List Bytes) : CC Unit :=
  modify fun h => { h with
    kvRWSet := { h.kvRWSet with
      writes := h.kvRWSet.writes ++ [{
        table := ariaSysTable, key := tableName,
        value := ascii "place holder of " ++ Decimal.natToString h.tid }] }
    tableList := h.tableList ++ [{ tableName := tableName, fieldList := fieldList }] }

/-- The chaincode object of a transaction: its helper starts with the read-write set of the
    transaction. A `CHECK` that fails would end the process; it is told apart by `CC.exec`. -/
def chaincodeOf (invokeChaincode : TransactionPayload → CC Bool) : Chaincode := fun t D =>
  let r := (invokeChaincode t.transactionPayload).exec D
    { tid := t.tid, readOnly := t.readOnlyFlag, kvRWSet := t.kvRWSet }
  { ret := r.1.getD false, kvRWSet := r.2.kvRWSet, tableList := r.2.tableList }

/-! ## Running programs -/

namespace CC

variable {α β : Type} {p : CC α} {q : α → CC β} {D D' : Storage} {h : CCORMHelper}

@[simp] theorem exec_pure (a : α) : (pure a : CC α).exec D h = (some a, h) := rfl

@[simp] theorem exec_failure : (failure : CC α).exec D h = (none, h) := rfl

@[simp] theorem exec_get : (get : CC CCORMHelper).exec D h = (some h, h) := rfl

@[simp] theorem exec_modify (f : CCORMHelper → CCORMHelper) :
    (modify f : CC PUnit).exec D h = (some ⟨⟩, f h) := rfl

@[simp] theorem exec_read : (read : CC Storage).exec D h = (some D, h) := rfl

theorem exec_bind : (p >>= q).exec D h =
    match p.exec D h with
    | (some a, h') => (q a).exec D h'
    | (none, h') => (none, h') := by
  unfold CC.exec
  rw [ReaderT.run_bind, OptionT.run_bind, Option.elimM, StateT.run_bind]
  cases StateT.run (OptionT.run (ReaderT.run p D)) h with
  | mk r h' => cases r <;> rfl

theorem ext {p' : CC α} (h : ∀ D h, p.exec D h = p'.exec D h) : p = p' :=
  funext fun D => funext fun s => h D s

theorem exec_ite {c : Prop} [Decidable c] {p p' : CC α} :
    (if c then p else p').exec D h = if c then p.exec D h else p'.exec D h := by
  split <;> rfl

def TwoFields (h : CCORMHelper) : Prop := ∀ table ∈ h.tableList, table.fieldList.length = 2

/-- The program only adds to the reads, they determine what it does, and what it creates are tables
    with two fields. -/
structure Proper (p : CC α) : Prop where
  grows : ∀ D h, h.kvRWSet.reads ⊆ (p.exec D h).2.kvRWSet.reads
  agree : ∀ D D' h, (∀ r ∈ (p.exec D h).2.kvRWSet.reads, D' r.cell = D r.cell) →
    p.exec D' h = p.exec D h
  tables : ∀ D h, TwoFields h → TwoFields (p.exec D h).2

theorem Proper.pure (a : α) : (Pure.pure a : CC α).Proper :=
  ⟨fun _ _ => List.Subset.refl _, fun _ _ _ _ => rfl, fun _ _ htables => htables⟩

theorem Proper.failure : (Alternative.failure : CC α).Proper :=
  ⟨fun _ _ => List.Subset.refl _, fun _ _ _ _ => rfl, fun _ _ htables => htables⟩

theorem Proper.get : (MonadState.get : CC CCORMHelper).Proper :=
  ⟨fun _ _ => List.Subset.refl _, fun _ _ _ _ => rfl, fun _ _ htables => htables⟩

theorem Proper.bind (hp : p.Proper) (hq : ∀ a, (q a).Proper) : (p >>= q).Proper := by
  have hmono : ∀ D h, (p.exec D h).2.kvRWSet.reads ⊆ ((p >>= q).exec D h).2.kvRWSet.reads := by
    intro D h
    rw [exec_bind]
    cases p.exec D h with
    | mk r h' =>
        cases r with
        | none => exact List.Subset.refl _
        | some a => exact (hq a).grows D h'
  refine ⟨fun D h => List.Subset.trans (hp.grows D h) (hmono D h), fun D D' h hagree => ?_,
    fun D h htables => ?_⟩
  · have hfirst := hp.agree D D' h fun r hr => hagree r (hmono D h hr)
    rw [exec_bind] at hagree
    rw [exec_bind, exec_bind, hfirst]
    cases hrun : p.exec D h with
    | mk r h' =>
        rw [hrun] at hagree
        cases r with
        | none => rfl
        | some a => exact (hq a).agree D D' h' hagree
  · have hfirst := hp.tables D h htables
    rw [exec_bind]
    cases hrun : p.exec D h with
    | mk r h' =>
        rw [hrun] at hfirst
        cases r with
        | none => exact hfirst
        | some a => exact (hq a).tables D h' hfirst

end CC

/-! ## Queries and inserts -/

section

variable {D : Storage} {h : CCORMHelper} {table key value : Bytes}

@[simp] theorem exec_executeQuery : (executeQuery table key).exec D h =
    (some { table := table, key := key, value := Storage.selectDB D key table }, h) := rfl

/-- LevelDB always gives one result. -/
@[simp] theorem hasNext_new :
    ({ table := table, key := key, value := value } : LevelDBResultsIterator).hasNext = true := rfl

theorem exec_getString (it : LevelDBResultsIterator) (attr : Bytes) : (it.getString attr).exec D h =
    let result := if attr = ascii "key" then it.key else it.value
    if it.key ∈ it.readKeys then (some (result, it), h)
    else (some (result, { it with readKeys := it.key :: it.readKeys }), { h with
      kvRWSet := { h.kvRWSet with
        reads := h.kvRWSet.reads ++
          [{ table := it.table, key := it.key, value := it.value }] } }) := by
  unfold LevelDBResultsIterator.getString
  dsimp only
  rw [CC.exec_ite]
  rfl

/-- One read is recorded, also where the value is empty. -/
theorem exec_selectOr {default : Bytes} : (selectOr table default key).exec D h =
    (some (if (D.selectDB key table).isEmpty then default else D.selectDB key table), { h with
      kvRWSet := { h.kvRWSet with
        reads := h.kvRWSet.reads ++
          [{ table := table, key := key, value := D.selectDB key table }] } }) := by
  have hkey : ascii "value" ≠ ascii "key" := by decide
  unfold selectOr
  rw [CC.exec_bind, exec_executeQuery]
  dsimp only
  rw [hasNext_new, if_neg (by decide), CC.exec_bind, exec_getString]
  dsimp only
  rw [if_neg hkey, if_neg List.not_mem_nil]
  dsimp only
  rw [CC.exec_ite]
  split
  · rfl
  · rw [CC.exec_bind, exec_getString]
    dsimp only
    rw [if_neg hkey, if_pos List.mem_cons_self]
    rfl

theorem selectOr_proper (table default key : Bytes) : (selectOr table default key).Proper := by
  refine ⟨fun D h => ?_, fun D D' h hagree => ?_, fun D h htables => ?_⟩
  · rw [exec_selectOr]
    exact List.subset_append_left _ _
  · rw [exec_selectOr] at hagree
    have hsame : D' (table, key) = D (table, key) :=
      hagree _ (List.mem_append_right _ List.mem_cons_self)
    have hselect : D'.selectDB key table = D.selectDB key table := by
      unfold Storage.selectDB
      rw [hsame]
    rw [exec_selectOr, exec_selectOr, hselect]
  · rw [exec_selectOr]
    exact htables

theorem exec_insert : (insert table key value).exec D h =
    if h.readOnly ∨ h.kvRWSet.writes.any (fun w => w.key = key) then (none, h)
    else (some (), { h with
      kvRWSet := { h.kvRWSet with
        writes := h.kvRWSet.writes ++ [{ table := table, key := key, value := value }] } }) := by
  unfold insert
  rw [CC.exec_bind, CC.exec_get]
  dsimp only
  rw [CC.exec_ite]
  rfl

theorem insert_proper (table key value : Bytes) : (insert table key value).Proper := by
  refine ⟨fun D h => ?_, fun D D' h _ => ?_, fun D h htables => ?_⟩
  · rw [exec_insert]
    split <;> exact List.Subset.refl _
  · rw [exec_insert, exec_insert]
  · rw [exec_insert]
    split <;> exact htables

theorem createTable_proper {tableName : Bytes} {fieldList : List Bytes}
    (htwo : fieldList.length = 2) : (createTable tableName fieldList).Proper := by
  refine ⟨fun D h => List.Subset.refl _, fun D D' h _ => rfl, fun D h htables table htable => ?_⟩
  rcases List.mem_append.mp htable with hold | hnew
  · exact htables table hold
  · rw [List.mem_singleton.mp hnew]
    exact htwo

/-- A property of programs that holds of the calls of the helper and goes through `do`. -/
structure CC.Closed (P : (α : Type) → CC α → Prop) : Prop where
  pure : ∀ {α : Type} (a : α), P α (Pure.pure a)
  failure : ∀ {α : Type}, P α Alternative.failure
  get : P CCORMHelper MonadState.get
  bind : ∀ {α β : Type} {p : CC α} {q : α → CC β}, P α p → (∀ a, P β (q a)) → P β (p >>= q)
  selectOr : ∀ table default key, P Bytes (selectOr table default key)
  insert : ∀ table key value, P Unit (insert table key value)
  createTable : ∀ tableName fieldList, fieldList.length = 2 →
    P Unit (createTable tableName fieldList)

theorem CC.Closed.ite {P : (α : Type) → CC α → Prop} (_hP : CC.Closed P) {α : Type} {c : Prop}
    [Decidable c] {p p' : CC α} (hp : P α p) (hp' : P α p') : P α (if c then p else p') := by
  split
  · exact hp
  · exact hp'

theorem CC.Closed.insertRows {P : (α : Type) → CC α → Prop} (hP : CC.Closed P) (table : Bytes)
    (rows : List (Bytes × Bytes)) : P Unit (insertRows table rows) := by
  induction rows with
  | nil => exact hP.pure ()
  | cons row rows ih => exact hP.bind (hP.insert _ _ _) fun _ => ih

theorem proper_closed : CC.Closed fun _ p => p.Proper where
  pure := .pure
  failure := .failure
  get := .get
  bind := .bind
  selectOr := selectOr_proper
  insert := insert_proper
  createTable _ _ := createTable_proper

end

section

variable {invokeChaincode : TransactionPayload → CC Bool}

theorem chaincodeOf_localReads (hproper : ∀ payload, (invokeChaincode payload).Proper) :
    (chaincodeOf invokeChaincode).LocalReads := by
  intro t D D' hagree
  unfold chaincodeOf at hagree ⊢
  dsimp only at hagree ⊢
  rw [(hproper t.transactionPayload).agree D D' _ hagree]

theorem chaincodeOf_twoFieldTables (hproper : ∀ payload, (invokeChaincode payload).Proper) :
    (chaincodeOf invokeChaincode).TwoFieldTables :=
  fun t D => (hproper t.transactionPayload).tables D _ nofun

end

end NeuChain.Server
