/-
  The two storages without SQL: `HashMapStorage` and `LevelDBStorage`, in a release build.

  `LevelDBStorage` has a LevelDB map for each table, which it opens when the table is used for the
  first time. `HashMapStorage` has one map and leaves the table aside. Its `removeWriteSet` is
  `DCHECK(db.remove(key))`, and the condition of a `DCHECK` is not evaluated in a release build.

  `backends_agree_iff`: the two give the same answers to a sequence of calls if and only if,
  whenever a key is looked up in a table, the value given to the key last in any table is the value
  given to it last in this table, where removals count for the table only.

  A LevelDB map is taken as a correct map that is empty when it is created. The value string is what
  the result iterator is built with.
-/
import NeuChain.Lib.HashMap
import NeuChain.Lib.Run
import NeuChain.Types

namespace NeuChain.Server

open NeuChain Lib

inductive StorageCall where
  | updateWriteSet (key value table : Bytes)
  | removeWriteSet (key table : Bytes)
  | selectDB (key table : Bytes)
deriving DecidableEq, Repr

variable {H : Hashing Bytes}

/-! ## The two storages -/

structure HashMapStorage (H : Hashing Bytes) where
  db : HashMap H Bytes := {}

namespace HashMapStorage

def updateWriteSet (s : HashMapStorage H) (key value _table : Bytes) : HashMapStorage H :=
  { s with db := s.db.set key value }

def removeWriteSet (s : HashMapStorage H) (_key _table : Bytes) : HashMapStorage H := s

def selectDB (s : HashMapStorage H) (key _table : Bytes) : HashMapStorage H × Bytes :=
  let (value, db) := s.db.index key []
  ({ s with db := db }, value)

def call (s : HashMapStorage H) : StorageCall → HashMapStorage H × Option Bytes
  | .updateWriteSet key value table => (s.updateWriteSet key value table, none)
  | .removeWriteSet key table => (s.removeWriteSet key table, none)
  | .selectDB key table =>
      let (s, value) := s.selectDB key table
      (s, some value)

end HashMapStorage

structure LevelDBStorage (H : Hashing Bytes) where
  db : HashMap H (Bytes → Option Bytes) := {}

namespace LevelDBStorage

def getTable (s : LevelDBStorage H) (table : Bytes) :
    (Bytes → Option Bytes) × LevelDBStorage H :=
  let (partition, db) := s.db.index table fun _ => none
  (partition, { s with db := db })

/-- `Put` and `Delete`: the map behind the pointer changes. -/
def write (s : LevelDBStorage H) (key table : Bytes) (entry : Option Bytes) : LevelDBStorage H :=
  let (partition, s) := s.getTable table
  { s with db := s.db.set table (Function.update partition key entry) }

def updateWriteSet (s : LevelDBStorage H) (key value table : Bytes) : LevelDBStorage H :=
  s.write key table (some value)

def removeWriteSet (s : LevelDBStorage H) (key table : Bytes) : LevelDBStorage H :=
  s.write key table none

/-- `Get` leaves the value empty for a missing key, and its status is not looked at. -/
def selectDB (s : LevelDBStorage H) (key table : Bytes) : LevelDBStorage H × Bytes :=
  let (partition, s) := s.getTable table
  (s, (partition key).getD [])

def call (s : LevelDBStorage H) : StorageCall → LevelDBStorage H × Option Bytes
  | .updateWriteSet key value table => (s.updateWriteSet key value table, none)
  | .removeWriteSet key table => (s.removeWriteSet key table, none)
  | .selectDB key table =>
      let (s, value) := s.selectDB key table
      (s, some value)

end LevelDBStorage

/-! ## What the calls leave -/

/-- The value of `key` after a call, if tables and removals do not matter. -/
def updateOf (key value : Bytes) : StorageCall → Bytes
  | .updateWriteSet key' value' _ => if key' = key then value' else value
  | _ => value

/-- The value of `key` in `table` after a call. -/
def writeOf (key table value : Bytes) : StorageCall → Bytes
  | .updateWriteSet key' value' table' => if key' = key ∧ table' = table then value' else value
  | .removeWriteSet key' table' => if key' = key ∧ table' = table then [] else value
  | .selectDB _ _ => value

/-- The value `key` was given last, in any table. -/
def lastUpdate (key : Bytes) (past : List StorageCall) : Bytes := past.foldl (updateOf key) []

/-- The value `key` was given last in `table`, empty after a removal. -/
def lastValue (key table : Bytes) (past : List StorageCall) : Bytes :=
  past.foldl (writeOf key table) []

/-- What a table of `LevelDBStorage` holds for a key. -/
def LevelDBStorage.value (s : LevelDBStorage H) (key table : Bytes) : Bytes :=
  ((s.db.find table).bind fun partition => partition key).getD []

def HashMapStorage.value (s : HashMapStorage H) (key : Bytes) : Bytes := (s.db.find key).getD []

section

variable {key key' table table' value : Bytes}

theorem HashMapStorage.value_updateWriteSet (s : HashMapStorage H) (table : Bytes) :
    (s.updateWriteSet key' value table).value key = if key' = key then value else s.value key := by
  unfold HashMapStorage.value HashMapStorage.updateWriteSet
  rw [HashMap.find_set]
  by_cases hk : key' = key
  · simp [hk]
  · simp [hk, Ne.symm hk]

theorem HashMapStorage.selectDB_snd (s : HashMapStorage H) (table : Bytes) :
    (s.selectDB key table).2 = s.value key := HashMap.index_fst

/-- `operator[]` creates an entry with the empty string. -/
theorem HashMapStorage.value_selectDB (s : HashMapStorage H) (table : Bytes) :
    (s.selectDB key' table).1.value key = s.value key := by
  unfold HashMapStorage.value HashMapStorage.selectDB
  dsimp only
  rw [HashMap.find_index]
  by_cases hk : key = key'
  · simp [hk]
  · simp [hk]

theorem LevelDBStorage.getTable_fst {s : LevelDBStorage H} :
    ((s.getTable table).1 key).getD [] = s.value key table := by
  unfold LevelDBStorage.getTable LevelDBStorage.value
  dsimp only
  rw [HashMap.index_fst]
  cases s.db.find table <;> rfl

theorem LevelDBStorage.value_getTable {s : LevelDBStorage H} :
    (s.getTable table').2.value key table = s.value key table := by
  unfold LevelDBStorage.getTable LevelDBStorage.value
  dsimp only
  rw [HashMap.find_index]
  by_cases ht : table = table'
  · subst ht
    cases s.db.find table <;> simp
  · simp [ht]

theorem LevelDBStorage.value_write (s : LevelDBStorage H) (entry : Option Bytes) :
    (s.write key' table' entry).value key table =
      if key' = key ∧ table' = table then entry.getD [] else s.value key table := by
  have hopened := @LevelDBStorage.value_getTable H key table table' s
  have hfst := @LevelDBStorage.getTable_fst H key table' s
  unfold LevelDBStorage.write LevelDBStorage.value at *
  dsimp only
  rw [HashMap.find_set]
  by_cases ht : table = table'
  · subst ht
    by_cases hk : key' = key
    · simp [hk]
    · simp [hk, Ne.symm hk, hfst]
  · rw [if_neg ht, hopened, if_neg fun h => ht h.2.symm]

theorem HashMapStorage.value_call (s : HashMapStorage H) (c : StorageCall) :
    updateOf key (s.value key) c = (s.call c).1.value key := by
  cases c with
  | updateWriteSet key' value' table' => exact (s.value_updateWriteSet table').symm
  | removeWriteSet key' table' => rfl
  | selectDB key' table' => exact (s.value_selectDB table').symm

theorem LevelDBStorage.value_call (s : LevelDBStorage H) (c : StorageCall) :
    writeOf key table (s.value key table) c = (s.call c).1.value key table := by
  cases c with
  | updateWriteSet key' value' table' => exact (s.value_write (some value')).symm
  | removeWriteSet key' table' => exact (s.value_write none).symm
  | selectDB key' table' => exact LevelDBStorage.value_getTable.symm

theorem HashMapStorage.value_afterCalls (past : List StorageCall) :
    (afterCalls HashMapStorage.call ({} : HashMapStorage H) past).value key =
      lastUpdate key past :=
  (List.foldl_hom (HashMapStorage.value · key) HashMapStorage.value_call).symm

theorem LevelDBStorage.value_afterCalls (past : List StorageCall) :
    (afterCalls LevelDBStorage.call ({} : LevelDBStorage H) past).value key table =
      lastValue key table past :=
  (List.foldl_hom (LevelDBStorage.value · key table) LevelDBStorage.value_call).symm

/-- Both storages start empty. -/
theorem select_eq_iff (past : List StorageCall) :
    (HashMapStorage.call (afterCalls HashMapStorage.call ({} : HashMapStorage H) past)
        (.selectDB key table)).2 =
      (LevelDBStorage.call (afterCalls LevelDBStorage.call ({} : LevelDBStorage H) past)
        (.selectDB key table)).2 ↔
      lastUpdate key past = lastValue key table past := by
  rw [← @HashMapStorage.value_afterCalls H, ← @LevelDBStorage.value_afterCalls H,
    ← HashMapStorage.selectDB_snd _ table, ← LevelDBStorage.getTable_fst]
  exact Option.some_inj

end

/-! ## When they agree -/

theorem backends_agree_iff (calls : List StorageCall) :
    answers HashMapStorage.call ({} : HashMapStorage H) calls =
        answers LevelDBStorage.call ({} : LevelDBStorage H) calls ↔
      ∀ before key table after, calls = before ++ .selectDB key table :: after →
        lastUpdate key before = lastValue key table before := by
  rw [answers_eq_iff]
  constructor
  · intro hall before key table after heq
    exact (select_eq_iff before).mp (hall before _ after heq)
  · intro hall before c after heq
    cases c with
    | updateWriteSet key value table => rfl
    | removeWriteSet key table => rfl
    | selectDB key table => exact (select_eq_iff before).mpr (hall before key table after heq)

/-- A key that is written in one table and looked up in another. -/
def otherTable : List StorageCall := [.updateWriteSet [1] [5] [10], .selectDB [1] [11]]

/-- A key that is looked up after it has been removed. -/
def removedKey : List StorageCall :=
  [.updateWriteSet [1] [5] [10], .removeWriteSet [1] [10], .selectDB [1] [10]]

/-- Any hash function will do. -/
def lengthHashing : Hashing Bytes where
  hash := List.length
  count := 997
  count_pos := by decide

theorem backends_differ :
    answers HashMapStorage.call ({} : HashMapStorage lengthHashing) otherTable ≠
        answers LevelDBStorage.call ({} : LevelDBStorage lengthHashing) otherTable ∧
      answers HashMapStorage.call ({} : HashMapStorage lengthHashing) removedKey ≠
        answers LevelDBStorage.call ({} : LevelDBStorage lengthHashing) removedKey := by
  constructor
  · intro h
    have hselect := answers_eq_iff.mp h [.updateWriteSet [1] [5] [10]] (.selectDB [1] [11]) [] rfl
    exact absurd ((select_eq_iff _).mp hselect) (by decide)
  · intro h
    have hselect := answers_eq_iff.mp h [.updateWriteSet [1] [5] [10], .removeWriteSet [1] [10]]
      (.selectDB [1] [10]) [] rfl
    exact absurd ((select_eq_iff _).mp hselect) (by decide)

end NeuChain.Server
