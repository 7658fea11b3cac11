/-
  Whether the reads a chaincode records are all it has learnt of the database.

  A chaincode is any program (`Lib.Program`) over the calls of `CCORMHelper`, its queries, iterators
  and inserts. A query fetches its result in `executeQuery`; a read is recorded in `getString`
  only. The two iterators differ in what the other calls tell:

  * `LevelDBResultsIterator` always has one result, empty for a missing key, so `hasNext` and
    `next` tell nothing;
  * `ResultsIteratorImpl` has a row for a key that exists and none otherwise, so
    `hasNext` and `next` tell whether it does, and so does `getString` when it throws.

  `consults` is the cell an answer depends on. A run that has recorded each cell it consulted is
  repeated on any database that agrees on the recorded reads (`Complete.repeats`); every run with
  the first iterator has, and `reads_complete_iff` says that the second iterator is the only reason
  for a run not to be repeated.
-/
import NeuChain.Lib.Program
import NeuChain.Server.SmallBank

namespace NeuChain.Server

open NeuChain.Lib

/-! ## The model -/

/-- `LevelDBStorage` or `HashMapStorage`, and `DBStorageImpl`. -/
inductive Backend where
  | levelDB
  | sql
deriving DecidableEq, Repr

/-- A `pqxx::result` of `select * from table where key = ...`: its rows, with the columns `key`
    and `value`. -/
structure SelectResult where
  key : Bytes
  rows : List (Bytes × Bytes)
deriving DecidableEq, Repr

structure ResultsIteratorImpl where
  table : Bytes
  result : SelectResult
  readKeys : List Bytes := []
  index : Nat := 0
deriving DecidableEq, Repr

inductive ResultsIterator where
  | levelDB (it : LevelDBResultsIterator)
  | sql (it : ResultsIteratorImpl)
deriving DecidableEq, Repr

/-- The row with the key, if and only if there is one. -/
def selectRows (D : Storage) (key table : Bytes) : SelectResult where
  key := key
  rows := (D (table, key)).toList.map fun value => (key, value)

/-- `selectDB`, and `init` for the table. -/
def selectDB (backend : Backend) (D : Storage) (key table : Bytes) : ResultsIterator :=
  match backend with
  | .levelDB => .levelDB { table := table, key := key, value := Storage.selectDB D key table }
  | .sql => .sql { table := table, result := selectRows D key table }

/-- `std::size(result) - index`, as a condition. -/
def ResultsIteratorImpl.hasNext (it : ResultsIteratorImpl) : Bool :=
  it.result.rows.length - it.index ≠ 0

def ResultsIterator.hasNext : ResultsIterator → Bool
  | .levelDB it => it.hasNext
  | .sql it => it.hasNext

/-- `return ++index` if there is a next result. -/
def ResultsIterator.next (it : ResultsIterator) : Bool × ResultsIterator :=
  if it.hasNext then
    match it with
    | .levelDB it => (it.index + 1 ≠ 0, .levelDB { it with index := it.index + 1 })
    | .sql it => (it.index + 1 ≠ 0, .sql { it with index := it.index + 1 })
  else (false, it)

def CCORMHelper.addRead (h : CCORMHelper) (r : KVRead) : CCORMHelper :=
  { h with kvRWSet := { h.kvRWSet with reads := h.kvRWSet.reads ++ [r] } }

def CCORMHelper.addWrite (h : CCORMHelper) (w : KVWrite) : CCORMHelper :=
  { h with kvRWSet := { h.kvRWSet with writes := h.kvRWSet.writes ++ [w] } }

/-- `row.column_number(attr)` throws for an attribute that is no column. -/
def column (row : Bytes × Bytes) (attr : Bytes) : Option Bytes :=
  if attr = ascii "key" then some row.1 else if attr = ascii "value" then some row.2 else none

/-- The string, unless an exception is thrown, the iterator and the helper. -/
def ResultsIteratorImpl.getString (it : ResultsIteratorImpl) (attr : Bytes) (h : CCORMHelper) :
    Option Bytes × ResultsIteratorImpl × CCORMHelper :=
  match it.result.rows[it.index]? with
  | none => (none, it, h)
  | some row =>
      if it.readKeys.contains row.1 then (column row attr, it, h)
      else
        -- the value is not recorded
        (column row attr, { it with readKeys := row.1 :: it.readKeys },
          h.addRead { table := it.table, key := row.1, value := [] })

def ResultsIterator.getString (D : Storage) (it : ResultsIterator) (attr : Bytes)
    (h : CCORMHelper) : Option Bytes × ResultsIterator × CCORMHelper :=
  match it with
  | .levelDB it =>
      match (it.getString attr).exec D h with
      | (some (value, it'), h') => (some value, .levelDB it', h')
      | (none, h') => (none, .levelDB it, h')
  | .sql it =>
      let r := it.getString attr h
      (r.1, .sql r.2.1, r.2.2)

structure QueryImpl where
  table : Bytes
  col : Bytes := []
  iter : Option ResultsIterator := none
deriving DecidableEq, Repr

structure InsertImpl where
  table : Bytes
  key : Bytes := []
deriving DecidableEq, Repr

/-- The helper with the queries and inserts it owns. An iterator is reached through its query,
    which owns it. -/
structure ORMState where
  helper : CCORMHelper
  queryList : List QueryImpl := []
  insertList : List InsertImpl := []
deriving DecidableEq, Repr

/-- The calls of a chaincode. Queries and inserts are named by their place in the helper's
    lists. -/
inductive ORMCall where
  | newQuery (table : Bytes)
  | filter (query : Nat) (attr arg : Bytes)
  | filterNum (query : Nat) (attr : Bytes)
  | executeQuery (query : Nat)
  | hasNext (query : Nat)
  | next (query : Nat)
  | getString (query : Nat) (attr : Bytes)
  | newInsert (table : Bytes)
  | set (insert : Nat) (attr value : Bytes)
  | setInt (insert : Nat) (attr : Bytes)
deriving DecidableEq, Repr

abbrev ORMCall.Answer : ORMCall → Type
  | .newQuery _ => Nat
  | .filter _ _ _ => Unit
  | .filterNum _ _ => Unit
  | .executeQuery _ => Unit
  | .hasNext _ => Bool
  | .next _ => Bool
  | .getString _ _ => Bytes
  | .newInsert _ => Nat
  | .set _ _ _ => Bool
  | .setInt _ _ => Bool

namespace ORMState

/-- A call on a query; without one it goes through an invalid pointer. -/
def onQuery {α : Type} (s : ORMState) (query : Nat) (f : QueryImpl → QueryImpl) (answer : α) :
    Option α × ORMState :=
  match s.queryList[query]? with
  | none => (none, s)
  | some q => (some answer, { s with queryList := s.queryList.set query (f q) })

/-- A call on the iterator of a query. -/
def onIter {α : Type} (s : ORMState) (query : Nat)
    (f : ResultsIterator → CCORMHelper → Option α × ResultsIterator × CCORMHelper) :
    Option α × ORMState :=
  match s.queryList[query]?.bind fun q => q.iter.map fun it => (q, it) with
  | none => (none, s)
  | some (q, it) =>
      let r := f it s.helper
      (r.1, { s with
        helper := r.2.2
        queryList := s.queryList.set query { q with iter := some r.2.1 } })

def newInsert (s : ORMState) (table : Bytes) : Option Nat × ORMState :=
  if s.helper.readOnly then (none, s)
  else (some s.insertList.length, { s with insertList := s.insertList ++ [{ table := table }] })

/-- `InsertImpl::set`. The `CHECK` for a key that was written before does not compare tables. -/
def set (s : ORMState) (insert : Nat) (attr value : Bytes) : Option Bool × ORMState :=
  match s.insertList[insert]? with
  | none => (none, s)
  | some i =>
      if attr = ascii "key" then
        (some true, { s with insertList := s.insertList.set insert { i with key := value } })
      else if attr = ascii "value" then
        if s.helper.kvRWSet.writes.any (fun w => w.key = i.key) then (none, s)
        else
          (some true, { s with
            helper := s.helper.addWrite { table := i.table, key := i.key, value := value } })
      else (some false, s)

end ORMState

/-- A call on database `D`; no answer is a failed `CHECK`, an exception or an invalid pointer. -/
def serve (backend : Backend) (D : Storage) :
    (o : ORMCall) → ORMState → Option o.Answer × ORMState
  | .newQuery table, s =>
      (some s.queryList.length, { s with queryList := s.queryList ++ [{ table := table }] })
  | .filter query _ arg, s => s.onQuery query (fun q => { q with col := arg }) ()
  | .filterNum query _, s => s.onQuery query id ()
  | .executeQuery query, s =>
      s.onQuery query (fun q => { q with iter := some (selectDB backend D q.col q.table) }) ()
  | .hasNext query, s => s.onIter query fun it h => (some it.hasNext, it, h)
  | .next query, s => s.onIter query fun it h => (some it.next.1, it.next.2, h)
  | .getString query attr, s => s.onIter query fun it h => it.getString D attr h
  | .newInsert table, s => s.newInsert table
  | .set insert attr value, s => s.set insert attr value
  | .setInt _ _, s => (some false, s)

/-- A chaincode: it reaches the database through these calls only. -/
abbrev ORMProgram (ρ : Type) := Program ORMCall.Answer ρ

/-! ## What an answer depends on -/

def ResultsIterator.cell : ResultsIterator → Cell
  | .levelDB it => (it.table, it.key)
  | .sql it => (it.table, it.result.key)

def ORMState.iterCell (s : ORMState) (query : Nat) : Option Cell :=
  (s.queryList[query]?.bind QueryImpl.iter).map ResultsIterator.cell

/-- The cell of the database a call tells something about. -/
def ORMCall.consults (backend : Backend) (o : ORMCall) (s : ORMState) : Option Cell :=
  match o, backend with
  | .getString query _, _ => s.iterCell query
  | .hasNext query, .sql => s.iterCell query
  | .next query, .sql => s.iterCell query
  | _, _ => none

def CCORMHelper.recorded (h : CCORMHelper) : Set Cell := {c | c ∈ h.kvRWSet.reads.map KVRead.cell}

/-- Each cell the run consults is among the reads it has recorded at its end. -/
def Complete {ρ : Type} (backend : Backend) (D : Storage) (p : ORMProgram ρ) (s : ORMState) :
    Prop :=
  p.Calls (serve backend D)
    (fun o s' => ∀ c ∈ o.consults backend s', c ∈ (p.run (serve backend D) s).2.helper.recorded) s

/-! ## The same state over another database -/

/-- What the iterator would be, had its query been executed on `D`. -/
def ResultsIterator.over (D : Storage) : ResultsIterator → ResultsIterator
  | .levelDB it => .levelDB { it with value := Storage.selectDB D it.key it.table }
  | .sql it => .sql { it with result := selectRows D it.result.key it.table }

def QueryImpl.over (D : Storage) (q : QueryImpl) : QueryImpl :=
  { q with iter := q.iter.map (ResultsIterator.over D) }

def ORMState.over (s : ORMState) (D : Storage) : ORMState :=
  { s with queryList := s.queryList.map (QueryImpl.over D) }

section Over

variable {backend : Backend} {D D' : Storage} {it : ResultsIterator} {s : ORMState}

theorem over_levelDB_iff {it : LevelDBResultsIterator} :
    (ResultsIterator.levelDB it).over D = .levelDB it ↔
      Storage.selectDB D it.key it.table = it.value := by
  cases it
  simp [ResultsIterator.over]

theorem over_sql_iff {it : ResultsIteratorImpl} : (ResultsIterator.sql it).over D = .sql it ↔
    selectRows D it.result.key it.table = it.result := by
  cases it
  simp [ResultsIterator.over]

theorem over_selectDB (key table : Bytes) :
    (selectDB backend D key table).over D' = selectDB backend D' key table := by
  cases backend <;> rfl

/-- Over databases that agree on its cell an iterator is the same. -/
theorem over_eq_of_agree (h : it.over D = it) (hc : D' it.cell = D it.cell) : it.over D' = it := by
  refine Eq.trans ?_ h
  cases it with
  | levelDB it =>
      have hc : D' (it.table, it.key) = D (it.table, it.key) := hc
      simp only [ResultsIterator.over, Storage.selectDB, hc]
  | sql it =>
      have hc : D' (it.table, it.result.key) = D (it.table, it.result.key) := hc
      simp only [ResultsIterator.over, selectRows, hc]

theorem onQuery_over {α : Type} {f f' : QueryImpl → QueryImpl} (query : Nat) (answer : α)
    (hf : ∀ q, f' (q.over D) = (f q).over D) :
    (s.over D).onQuery query f' answer =
      ((s.onQuery query f answer).1, (s.onQuery query f answer).2.over D) := by
  unfold ORMState.onQuery ORMState.over
  dsimp only
  rw [List.getElem?_map]
  cases s.queryList[query]? with
  | none => rfl
  | some q => simp [hf]

theorem onIter_over {α : Type} (query : Nat)
    (f f' : ResultsIterator → CCORMHelper → Option α × ResultsIterator × CCORMHelper)
    (hf : ∀ q ∈ s.queryList, ∀ it ∈ q.iter, s.iterCell query = some it.cell →
      f' (it.over D) s.helper =
        ((f it s.helper).1, (f it s.helper).2.1.over D, (f it s.helper).2.2)) :
    (s.over D).onIter query f' = ((s.onIter query f).1, (s.onIter query f).2.over D) := by
  unfold ORMState.onIter
  cases hq : s.queryList[query]? with
  | none => simp [ORMState.over, hq]
  | some q =>
      cases hit : q.iter with
      | none => simp [ORMState.over, hq, hit, QueryImpl.over]
      | some it =>
          have hcell : s.iterCell query = some it.cell := by
            simp [ORMState.iterCell, hq, hit]
          have := hf q (List.mem_of_getElem? hq) it hit hcell
          simp [ORMState.over, hq, hit, QueryImpl.over, this]

end Over

/-! ## Along a run -/

def ResultsIterator.backend : ResultsIterator → Backend
  | .levelDB _ => .levelDB
  | .sql _ => .sql

def ResultsIterator.readKeys : ResultsIterator → List Bytes
  | .levelDB it => it.readKeys
  | .sql it => it.readKeys

/-- The iterator was made by `backend` on `D`, and the cell of its key is recorded once the key is
    among its `readKeys`. -/
structure Sound (backend : Backend) (D : Storage) (recorded : Set Cell) (it : ResultsIterator) :
    Prop where
  made : it.backend = backend
  fetched : it.over D = it
  noted : ∀ k ∈ it.readKeys, (it.cell.1, k) ∈ recorded

def ORMState.Sound (backend : Backend) (D : Storage) (s : ORMState) : Prop :=
  ∀ q ∈ s.queryList, ∀ it ∈ q.iter, Server.Sound backend D s.helper.recorded it

/-- What a call on an iterator may do: add reads, and keep the iterator sound. -/
structure IterCall {α : Type} (backend : Backend) (D : Storage)
    (f : ResultsIterator → CCORMHelper → Option α × ResultsIterator × CCORMHelper) : Prop where
  grows : ∀ it h, h.recorded ⊆ (f it h).2.2.recorded
  sound : ∀ it h, Sound backend D h.recorded it →
    Sound backend D (f it h).2.2.recorded (f it h).2.1

section Run

variable {backend : Backend} {D D' : Storage} {s : ORMState} {α ρ : Type}
  {it : ResultsIterator} {h : CCORMHelper}

theorem Sound.mono {R R' : Set Cell} (hs : Sound backend D R it) (hR : R ⊆ R') :
    Sound backend D R' it :=
  ⟨hs.made, hs.fetched, fun k hk => hR (hs.noted k hk)⟩

theorem recorded_addRead (r : KVRead) :
    (h.addRead r).recorded = Insert.insert r.cell h.recorded := by
  ext c
  simp [CCORMHelper.recorded, CCORMHelper.addRead, or_comm, eq_comm]

theorem hasNext_iterCall : IterCall backend D fun it h => (some it.hasNext, it, h) :=
  ⟨fun _ _ => subset_rfl, fun _ _ hs => hs⟩

theorem next_iterCall : IterCall backend D fun it h => (some it.next.1, it.next.2, h) := by
  refine ⟨fun _ _ => subset_rfl, fun it h hs => ?_⟩
  unfold ResultsIterator.next
  split
  · cases it with
    | levelDB it =>
        have hvalue := over_levelDB_iff.mp hs.fetched
        exact ⟨hs.made, over_levelDB_iff.mpr hvalue, hs.noted⟩
    | sql it =>
        have hresult := over_sql_iff.mp hs.fetched
        exact ⟨hs.made, over_sql_iff.mpr hresult, hs.noted⟩
  · exact hs

/-- The iterator after it has recorded key `k`. -/
def ResultsIterator.note (k : Bytes) : ResultsIterator → ResultsIterator
  | .levelDB it => .levelDB { it with readKeys := k :: it.readKeys }
  | .sql it => .sql { it with readKeys := k :: it.readKeys }

theorem Sound.note {R : Set Cell} (hs : Sound backend D R it) (k : Bytes) :
    Sound backend D (Insert.insert (it.cell.1, k) R) (it.note k) := by
  have hnoted : ∀ k' ∈ k :: it.readKeys, (it.cell.1, k') ∈ Insert.insert (it.cell.1, k) R := by
    intro k' hk'
    rcases List.mem_cons.mp hk' with rfl | hk'
    · exact Set.mem_insert _ _
    · exact Set.mem_insert_of_mem _ (hs.noted k' hk')
  cases it with
  | levelDB it =>
      have hvalue := over_levelDB_iff.mp hs.fetched
      exact ⟨hs.made, over_levelDB_iff.mpr hvalue, hnoted⟩
  | sql it =>
      have hresult := over_sql_iff.mp hs.fetched
      exact ⟨hs.made, over_sql_iff.mpr hresult, hnoted⟩

theorem getString_levelDB (it : LevelDBResultsIterator) (attr : Bytes) :
    (ResultsIterator.levelDB it).getString D attr h =
      (some (if attr = ascii "key" then it.key else it.value),
        if it.key ∈ it.readKeys then (.levelDB it, h)
        else ((ResultsIterator.levelDB it).note it.key,
          h.addRead { table := it.table, key := it.key, value := it.value })) := by
  unfold ResultsIterator.getString
  simp only [exec_getString]
  by_cases hk : it.key ∈ it.readKeys
  · simp [hk]
  · simp [hk, CCORMHelper.addRead, ResultsIterator.note]

/-- The database is not asked again. -/
theorem getString_congr (D D' : Storage) (it : ResultsIterator) (attr : Bytes) (h : CCORMHelper) :
    it.getString D attr h = it.getString D' attr h := by
  cases it with
  | levelDB it => rw [getString_levelDB, getString_levelDB]
  | sql it => rfl

/-- One read is recorded, or nothing changes. -/
theorem getString_effect (D : Storage) (it : ResultsIterator) (attr : Bytes) (h : CCORMHelper) :
    (it.getString D attr h).2 = (it, h) ∨ ∃ k v, (it.getString D attr h).2 =
      (it.note k, h.addRead { table := it.cell.1, key := k, value := v }) := by
  cases it with
  | levelDB it =>
      rw [getString_levelDB]
      by_cases hk : it.key ∈ it.readKeys
      · exact Or.inl (if_pos hk)
      · exact Or.inr ⟨it.key, it.value, if_neg hk⟩
  | sql it =>
      unfold ResultsIterator.getString ResultsIteratorImpl.getString
      cases hrow : it.result.rows[it.index]? with
      | none => exact Or.inl (by simp [hrow])
      | some row =>
          by_cases hk : row.1 ∈ it.readKeys
          · exact Or.inl (by simp [hrow, hk])
          · right
            exact ⟨row.1, [], by simp [hrow, hk, ResultsIterator.note, ResultsIterator.cell]⟩

theorem getString_iterCall (attr : Bytes) :
    IterCall backend D fun it h => it.getString D attr h := by
  refine ⟨fun it h => ?_, fun it h hs => ?_⟩
  · rcases getString_effect D it attr h with heff | ⟨k, v, heff⟩
    · rw [heff]
    · rw [heff, recorded_addRead]
      exact Set.subset_insert _ _
  · rcases getString_effect D it attr h with heff | ⟨k, v, heff⟩
    · rw [heff]
      exact hs
    · rw [heff, recorded_addRead]
      exact hs.note k

/-- With LevelDB, what is read is recorded. -/
theorem getString_recorded {it : LevelDBResultsIterator} (attr : Bytes)
    (hs : Sound backend D h.recorded (.levelDB it)) :
    (it.table, it.key) ∈ ((ResultsIterator.levelDB it).getString D attr h).2.2.recorded := by
  rw [getString_levelDB]
  by_cases hk : it.key ∈ it.readKeys
  · rw [if_pos hk]
    exact hs.noted it.key hk
  · rw [if_neg hk, recorded_addRead]
    exact Set.mem_insert _ _

/-! ### One call -/

theorem onQuery_helper (query : Nat) (f : QueryImpl → QueryImpl) (answer : α) :
    (s.onQuery query f answer).2.helper = s.helper := by
  unfold ORMState.onQuery
  split <;> rfl

theorem onQuery_sound {f : QueryImpl → QueryImpl} (query : Nat) (answer : α)
    (hs : s.Sound backend D)
    (hf : ∀ q, ∀ it ∈ (f q).iter, it ∈ q.iter ∨ Sound backend D s.helper.recorded it) :
    (s.onQuery query f answer).2.Sound backend D := by
  unfold ORMState.onQuery
  split
  · exact hs
  · rename_i q hq
    intro q' hq' it hit
    rcases List.mem_or_eq_of_mem_set hq' with hmem | rfl
    · exact hs q' hmem it hit
    · rcases hf q it hit with hold | hnew
      · exact hs q (List.mem_of_getElem? hq) it hold
      · exact hnew

theorem onIter_spec
    {f : ResultsIterator → CCORMHelper → Option α × ResultsIterator × CCORMHelper} (query : Nat)
    (hf : IterCall backend D f) (hs : s.Sound backend D) :
    s.helper.recorded ⊆ (s.onIter query f).2.helper.recorded ∧
      (s.onIter query f).2.Sound backend D := by
  unfold ORMState.onIter
  split
  · exact ⟨subset_rfl, hs⟩
  · rename_i q it hq
    obtain ⟨q', hq', hit⟩ := Option.bind_eq_some_iff.mp hq
    obtain ⟨it', hit', heq⟩ := Option.map_eq_some_iff.mp hit
    cases heq
    have hsound := hs q (List.mem_of_getElem? hq') it hit'
    refine ⟨hf.grows it s.helper, fun q' hq' it' hit' => ?_⟩
    rcases List.mem_or_eq_of_mem_set hq' with hmem | rfl
    · exact (hs q' hmem it' hit').mono (hf.grows it s.helper)
    · cases hit'
      exact hf.sound it s.helper hsound

theorem serve_recorded (o : ORMCall) (s : ORMState) (hs : s.Sound backend D) :
    s.helper.recorded ⊆ (serve backend D o s).2.helper.recorded ∧
      (serve backend D o s).2.Sound backend D := by
  have hquery : ∀ (query : Nat) (f : QueryImpl → QueryImpl),
      (∀ q, ∀ it ∈ (f q).iter, it ∈ q.iter ∨ Sound backend D s.helper.recorded it) →
      s.helper.recorded ⊆ (s.onQuery query f ()).2.helper.recorded ∧
        (s.onQuery query f ()).2.Sound backend D := by
    intro query f hf
    refine ⟨?_, onQuery_sound query () hs hf⟩
    rw [onQuery_helper]
  cases o with
  | newQuery table =>
      refine ⟨subset_rfl, fun q hq it hit => ?_⟩
      rcases List.mem_append.mp hq with hq | hq
      · exact hs q hq it hit
      · rw [List.mem_singleton.mp hq] at hit
        cases hit
  | filter query attr arg => exact hquery query _ fun q it hit => Or.inl hit
  | filterNum query attr => exact hquery query _ fun q it hit => Or.inl hit
  | executeQuery query =>
      refine hquery query _ fun q it hit => Or.inr ?_
      cases hit
      cases backend <;> exact ⟨rfl, rfl, fun k hk => by cases hk⟩
  | hasNext query => exact onIter_spec query hasNext_iterCall hs
  | next query => exact onIter_spec query next_iterCall hs
  | getString query attr => exact onIter_spec query (getString_iterCall attr) hs
  | newInsert table =>
      simp only [serve, ORMState.newInsert]
      split <;> exact ⟨subset_rfl, hs⟩
  | set insert attr value =>
      simp only [serve, ORMState.set]
      split
      · exact ⟨subset_rfl, hs⟩
      · split
        · exact ⟨subset_rfl, hs⟩
        · split
          · split <;> exact ⟨subset_rfl, hs⟩
          · exact ⟨subset_rfl, hs⟩
  | setInt insert attr => exact ⟨subset_rfl, hs⟩

theorem next_levelDB_over (D : Storage) (it : LevelDBResultsIterator) :
    ((ResultsIterator.levelDB it).over D).next =
      ((ResultsIterator.levelDB it).next.1, (ResultsIterator.levelDB it).next.2.over D) := by
  have hsame : ((ResultsIterator.levelDB it).over D).hasNext =
      (ResultsIterator.levelDB it).hasNext := rfl
  unfold ResultsIterator.next
  rw [hsame]
  cases (ResultsIterator.levelDB it).hasNext <;> rfl

/-- A call on an iterator that is the same over `D'`. -/
theorem IterCall.over {f : ResultsIterator → CCORMHelper → Option α × ResultsIterator × CCORMHelper}
    (hf : IterCall backend D' f) (hs : Sound backend D h.recorded it) (hov : it.over D' = it) :
    f (it.over D') h = ((f it h).1, (f it h).2.1.over D', (f it h).2.2) := by
  have hs' : Sound backend D' h.recorded it := ⟨hs.made, hov, hs.noted⟩
  rw [hov, (hf.sound it h hs').fetched]

/-- A call is answered alike over a database that agrees on the cell it consults. -/
theorem serve_over (D' : Storage) (o : ORMCall) (s : ORMState) (hs : s.Sound backend D)
    (hagree : ∀ c ∈ o.consults backend s, D' c = D c) :
    serve backend D' o (s.over D') =
      ((serve backend D o s).1, (serve backend D o s).2.over D') := by
  cases o with
  | newQuery table => simp [serve, ORMState.over, QueryImpl.over]
  | filter query attr arg => exact onQuery_over query () fun q => rfl
  | filterNum query attr => exact onQuery_over query () fun q => rfl
  | executeQuery query =>
      refine onQuery_over query () fun q => ?_
      simp [QueryImpl.over, over_selectDB]
  | hasNext query =>
      simp only [serve]
      refine onIter_over query _ _ fun q hq it hit hcell => ?_
      have hsound := hs q hq it hit
      cases it with
      | levelDB it => rfl
      | sql it =>
          have hb : backend = .sql := hsound.made.symm
          subst hb
          exact hasNext_iterCall.over hsound (over_eq_of_agree hsound.fetched (hagree _ hcell))
  | next query =>
      simp only [serve]
      refine onIter_over query _ _ fun q hq it hit hcell => ?_
      have hsound := hs q hq it hit
      cases it with
      | levelDB it => rw [next_levelDB_over]
      | sql it =>
          have hb : backend = .sql := hsound.made.symm
          subst hb
          exact next_iterCall.over hsound (over_eq_of_agree hsound.fetched (hagree _ hcell))
  | getString query attr =>
      refine onIter_over query _ _ fun q hq it hit hcell => ?_
      have hsound := hs q hq it hit
      rw [getString_congr D D' it]
      exact (getString_iterCall attr).over hsound
        (over_eq_of_agree hsound.fetched (hagree _ hcell))
  | newInsert table =>
      by_cases hro : s.helper.readOnly = true
      · simp [serve, ORMState.newInsert, ORMState.over, hro]
      · simp [serve, ORMState.newInsert, ORMState.over, hro]
  | set insert attr value =>
      simp only [serve, ORMState.set, ORMState.over]
      cases s.insertList[insert]? with
      | none => rfl
      | some i =>
          by_cases hkey : attr = ascii "key"
          · simp only [if_pos hkey]
          · simp only [if_neg hkey]
            by_cases hvalue : attr = ascii "value"
            · simp only [if_pos hvalue]
              by_cases hwritten : s.helper.kvRWSet.writes.any (fun w => w.key = i.key) = true
              · rw [if_pos hwritten]
                exact if_pos hwritten
              · rw [if_neg hwritten]
                exact if_neg hwritten
            · simp only [if_neg hvalue]
  | setInt insert attr => rfl

/-- With LevelDB every cell that is consulted is recorded at once. -/
theorem consults_recorded (o : ORMCall) (s : ORMState) (hs : s.Sound .levelDB D) :
    ∀ c ∈ o.consults .levelDB s, c ∈ (serve .levelDB D o s).2.helper.recorded := by
  intro c hc
  cases o with
  | getString query attr =>
      obtain ⟨it, hit, rfl⟩ := Option.map_eq_some_iff.mp hc
      obtain ⟨q, hq, hit⟩ := Option.bind_eq_some_iff.mp hit
      have hsound := hs q (List.mem_of_getElem? hq) it hit
      cases it with
      | levelDB it =>
          simp only [serve, ORMState.onIter]
          rw [hq, Option.bind_some, hit, Option.map_some]
          exact getString_recorded attr hsound
      | sql it => cases hsound.made
  | _ => cases hc

theorem complete_levelDB (p : ORMProgram ρ) (s : ORMState) (hs : s.Sound .levelDB D) :
    Complete .levelDB D p s := by
  refine (Program.calls_final (fun s : ORMState => s.helper.recorded)
    (fun o s hs => (serve_recorded o s hs).2) (fun o s hs => (serve_recorded o s hs).1) hs).mono ?_
  rintro o s' ⟨hs', hfinal⟩ c hc
  exact hfinal (consults_recorded o s' hs' c hc)

/-- The run of a chaincode for transaction `tid`. -/
def runProgram (backend : Backend) (p : ORMProgram ρ) (tid : Tid) (readOnly : Bool) (D : Storage) :
    Option ρ × ORMState :=
  p.run (serve backend D) { helper := { tid := tid, readOnly := readOnly } }

/-- On a second database, which agrees on the recorded reads, a run that has recorded what it
    consulted is repeated. -/
theorem Complete.repeats {p : ORMProgram ρ} {tid : Tid} {readOnly : Bool}
    (hcomplete : Complete backend D p { helper := { tid := tid, readOnly := readOnly } })
    (hagree : ∀ r ∈ (runProgram backend p tid readOnly D).2.helper.kvRWSet.reads,
      D' r.cell = D r.cell) :
    (runProgram backend p tid readOnly D').1 = (runProgram backend p tid readOnly D).1 ∧
      (runProgram backend p tid readOnly D').2.helper.kvRWSet =
        (runProgram backend p tid readOnly D).2.helper.kvRWSet := by
  have h0 : ORMState.Sound backend D { helper := { tid := tid, readOnly := readOnly } } := by
    intro q hq
    cases hq
  have hlock := Program.run_lockstep (serve backend D')
    (fun s t => s.Sound backend D ∧ t = s.over D') ?_ hcomplete
    (show _ ∧ ({ helper := { tid := tid, readOnly := readOnly } } : ORMState) = _ from ⟨h0, rfl⟩)
  · refine ⟨hlock.1, ?_⟩
    unfold runProgram
    rw [hlock.2.2]
    rfl
  · rintro o s t ⟨hs, rfl⟩ hc
    have hstep := serve_over D' o s hs ?_
    · rw [hstep]
      exact ⟨rfl, (serve_recorded o s hs).2, rfl⟩
    · intro c hcons
      obtain ⟨r, hr, rfl⟩ := List.mem_map.mp (hc c hcons)
      exact hagree r hr

end Run

/-- Any chaincode that is run on a second database, which agrees with the first on the reads
    recorded by the first run, records the same read-write set and returns the same. -/
def ReadsComplete (backend : Backend) : Prop :=
  ∀ (ρ : Type) (p : ORMProgram ρ) (tid : Tid) (readOnly : Bool) (D D' : Storage),
    (∀ r ∈ (runProgram backend p tid readOnly D).2.helper.kvRWSet.reads, D' r.cell = D r.cell) →
      (runProgram backend p tid readOnly D').1 = (runProgram backend p tid readOnly D).1 ∧
        (runProgram backend p tid readOnly D').2.helper.kvRWSet =
          (runProgram backend p tid readOnly D).2.helper.kvRWSet

/-! ### The query of SmallBank -/

section SmallBank

open SmallBank

/-- `queryLambda` of `SmallBankChaincode`, call by call. -/
def smallBankQuery (key : Bytes) : ORMProgram Bytes :=
  .call (.newQuery smallBank) fun query =>
  .call (.filter query (ascii "key") key) fun _ =>
  .call (.executeQuery query) fun _ =>
  .call (.hasNext query) fun more =>
  if !more then .done (Decimal.toString BALANCE)
  else
    .call (.getString query (ascii "value")) fun first =>
    if first.isEmpty then .done (Decimal.toString BALANCE)
    else .call (.getString query (ascii "value")) fun value => .done value

/-- On LevelDB it does what `queryLambda` does. -/
theorem run_smallBankQuery (D : Storage) (h : CCORMHelper) (key : Bytes) :
    ((smallBankQuery key).run (serve .levelDB D) { helper := h }).1 =
        ((queryLambda key).exec D h).1 ∧
      ((smallBankQuery key).run (serve .levelDB D) { helper := h }).2.helper =
        ((queryLambda key).exec D h).2 := by
  have hkey : ascii "value" ≠ ascii "key" := by decide
  rw [exec_queryLambda]
  unfold balanceString recordRead
  by_cases hempty : Storage.selectDB D key smallBank = []
  · simp [smallBankQuery, Program.run, serve, ORMState.onQuery, ORMState.onIter, selectDB,
      ResultsIterator.hasNext, getString_levelDB, CCORMHelper.addRead, hkey, hempty]
  · simp [smallBankQuery, Program.run, serve, ORMState.onQuery, ORMState.onIter, selectDB,
      ResultsIterator.hasNext, getString_levelDB, CCORMHelper.addRead, ResultsIterator.note, hkey,
      hempty]

def oneBalance : Storage := fun c => if c = (smallBank, [7]) then some (ascii "5") else none

/-- With SQL the query of a missing balance leaves no record, so a database that has the balance
    agrees on all recorded reads. -/
theorem absent_balance_unrecorded :
    (∀ r ∈ (runProgram .sql (smallBankQuery [7]) 1 false fun _ => none).2.helper.kvRWSet.reads,
      oneBalance r.cell = (fun _ => none : Storage) r.cell) ∧
    (runProgram .sql (smallBankQuery [7]) 1 false fun _ => none).1 = some (ascii "1000") ∧
    (runProgram .sql (smallBankQuery [7]) 1 false oneBalance).1 = some (ascii "5") := by
  decide +kernel

/-- The read sets are complete with the one iterator and not with the other. -/
theorem reads_complete_iff (backend : Backend) : ReadsComplete backend ↔ backend = .levelDB := by
  constructor
  · intro hall
    cases backend with
    | levelDB => rfl
    | sql =>
        have hsame := (hall Bytes (smallBankQuery [7]) 1 false (fun _ => none) oneBalance
          (by decide +kernel)).1
        revert hsame
        decide +kernel
  · rintro rfl ρ p tid readOnly D D' hagree
    have h0 : ORMState.Sound .levelDB D { helper := { tid := tid, readOnly := readOnly } } := by
      intro q hq
      cases hq
    exact (complete_levelDB p _ h0).repeats hagree

end SmallBank

end NeuChain.Server
