/-
  `DatabaseImpl`: the read-write sets buffered during the read phase, and their
  application to storage when a transaction commits.

  Storage is `LevelDBStorage`, the type `compile_config.h` selects: one LevelDB map per table,
  taken as a correct map. `createTable` is a no-op there (it only logs), so of a table
  definition only the `CHECK` on its number of fields is left.

  `commitUpdate` returns `none` where the process would die: a `CHECK` fails, or
  `rwSetBuffer[tid]` is the null pointer that `operator[]` creates for a missing entry.
-/
import NeuChain.Types
import NeuChain.Lib.Store

namespace NeuChain.Server

open NeuChain.Lib

abbrev Storage := Cell → Option Bytes

/-- The value string `selectDB` finds: empty for a missing key. -/
def Storage.selectDB (s : Storage) (key table : Bytes) : Bytes := (s (table, key)).getD []

/-- What `commitUpdate` does to storage for one write: `removeWriteSet` or `updateWriteSet`. -/
def writeEffect (w : KVWrite) : Cell × Option Bytes :=
  (w.cell, if w.isDelete then none else some w.value)

/-- `ORMTableImpl`: the table's name and the column names of its fields. -/
structure ORMTableDefinition where
  tableName : Bytes
  fieldList : List Bytes
deriving DecidableEq, Repr

structure DatabaseImpl where
  commitPhase : Bool := false
  storage : Storage
  rwSetBuffer : Tid → Option KVRWSet := fun _ => none
  tableListBuffer : Tid → Option (List ORMTableDefinition) := fun _ => none

namespace DatabaseImpl

/-- `clearBufferThreadSafe`, once its lock is held. -/
def clearBuffer (db : DatabaseImpl) : DatabaseImpl :=
  if db.commitPhase then
    { db with rwSetBuffer := fun _ => none, tableListBuffer := fun _ => none, commitPhase := false }
  else db

def insertBuffer (db : DatabaseImpl) (tid : Tid) (rw : KVRWSet)
    (tableList : List ORMTableDefinition) : DatabaseImpl :=
  { db with
    rwSetBuffer := Function.update db.rwSetBuffer tid (some rw)
    tableListBuffer := Function.update db.tableListBuffer tid (some tableList) }

/-- The lambda stored in `storage->bufferUpdates`. -/
def bufferUpdates (db : DatabaseImpl) (tid : Tid) (rw : KVRWSet)
    (tableList : List ORMTableDefinition) : DatabaseImpl :=
  db.clearBuffer.insertBuffer tid rw tableList

def abortUpdate (db : DatabaseImpl) : DatabaseImpl := { db with commitPhase := true }

/-- The `CHECK(table->fieldSize() == 2)` of every table the transaction creates. -/
def tablesOk (db : DatabaseImpl) (tid : Tid) : Bool :=
  ((db.tableListBuffer tid).getD []).all fun table => table.fieldList.length == 2

def commitUpdate (db : DatabaseImpl) (tid : Tid) : Option (DatabaseImpl × Bool) :=
  if db.tablesOk tid then
    (db.rwSetBuffer tid).map fun rw =>
      ({ db with commitPhase := true, storage := putAll db.storage (rw.writes.map writeEffect) }, true)
  else none

variable {db : DatabaseImpl} {tid tid' : Tid} {rw : KVRWSet} {tableList : List ORMTableDefinition}

@[simp] theorem clearBuffer_storage : db.clearBuffer.storage = db.storage := by
  unfold clearBuffer
  split <;> rfl

@[simp] theorem clearBuffer_commitPhase : db.clearBuffer.commitPhase = false := by
  unfold clearBuffer
  split
  · rfl
  · rename_i h; simpa using h

@[simp] theorem bufferUpdates_storage :
    (db.bufferUpdates tid rw tableList).storage = db.storage := clearBuffer_storage

@[simp] theorem bufferUpdates_commitPhase :
    (db.bufferUpdates tid rw tableList).commitPhase = false := clearBuffer_commitPhase

/-- Transaction `tid` is buffered with these writes and tables. -/
def Buffered (db : DatabaseImpl) (tid : Tid) (rw : KVRWSet)
    (tableList : List ORMTableDefinition) : Prop :=
  db.rwSetBuffer tid = some rw ∧ db.tableListBuffer tid = some tableList

theorem buffered_bufferUpdates : (db.bufferUpdates tid rw tableList).Buffered tid rw tableList := by
  unfold bufferUpdates insertBuffer Buffered
  exact ⟨Function.update_self _ _ _, Function.update_self _ _ _⟩

/-- Buffering another transaction keeps an entry, unless it is the call that clears the
    buffer of the previous epoch. -/
theorem Buffered.bufferUpdates {rw' : KVRWSet} {tableList' : List ORMTableDefinition}
    (h : db.Buffered tid rw tableList) (hphase : db.commitPhase = false) (hne : tid ≠ tid') :
    (db.bufferUpdates tid' rw' tableList').Buffered tid rw tableList := by
  unfold DatabaseImpl.bufferUpdates insertBuffer clearBuffer Buffered at *
  simp only [hphase, Bool.false_eq_true, if_false]
  rw [Function.update_of_ne hne, Function.update_of_ne hne]
  exact h

/-- Committing a buffered transaction succeeds and applies exactly its writes. -/
theorem commitUpdate_eq (h : db.Buffered tid rw tableList)
    (ht : ∀ table ∈ tableList, table.fieldList.length = 2) :
    db.commitUpdate tid = some ({ db with
      commitPhase := true, storage := putAll db.storage (rw.writes.map writeEffect) }, true) := by
  have hok : db.tablesOk tid = true := by
    unfold tablesOk
    rw [h.2, Option.getD_some, List.all_eq_true]
    intro table htable
    simpa using ht table htable
  unfold commitUpdate
  rw [if_pos hok, h.1, Option.map_some]

end DatabaseImpl

end NeuChain.Server
