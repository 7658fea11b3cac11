/-
  The write set a chaincode leaves behind.

  A chaincode writes through the inserts it has got from `newInsert`: `set("key", k)` notes the
  key in the insert, and `set("value", v)` adds an entry to the write set of the transaction. All
  inserts share the write set, and `createTable` adds an entry of its own. `InsertImpl::set` looks
  for an earlier entry with the same key and ends the process with a `CHECK` if it finds one. It
  does not compare tables; `createTable` does not look at all.

  `events` is what the chaincode has written, call by call, whatever the write set does with it.

  * `last_write_wins_iff`: the process goes on and the write set has one entry for each cell
    written, with the last value, if and only if no value is written to a key that was written
    before in any table, and no table is created whose entry has been written before.
-/
import Mathlib.Data.List.Nodup
import NeuChain.Lib.Run
import NeuChain.Server.ReadSets

namespace NeuChain.Server

open NeuChain.Lib

/-! ## The model -/

inductive WriteCall where
  | createTable (tableName : Bytes)
  | newInsert (table : Bytes)
  | setKey (insert : Nat) (key : Bytes)
  | setValue (insert : Nat) (value : Bytes)
deriving DecidableEq, Repr

/-- The entry of `createTable`. -/
def tableEntry (tid : Tid) (tableName : Bytes) : KVWrite where
  table := ariaSysTable
  key := tableName
  value := ascii "place holder of " ++ Decimal.natToString tid

namespace ORMState

/-- The fields are added to the table that is returned. -/
def createTable (s : ORMState) (tableName : Bytes) : ORMState :=
  { s with helper :=
      { s.helper.addWrite (tableEntry s.helper.tid tableName) with
        tableList := s.helper.tableList ++ [{ tableName := tableName, fieldList := [] }] } }

/-- The state after a call, unless it has ended the process. -/
def answered {α : Type} (r : Option α × ORMState) : Option ORMState := r.1.map fun _ => r.2

def writeStep (s : ORMState) : WriteCall → Option ORMState
  | .createTable tableName => some (s.createTable tableName)
  | .newInsert table => answered (s.newInsert table)
  | .setKey insert key => answered (s.set insert (ascii "key") key)
  | .setValue insert value => answered (s.set insert (ascii "value") value)

end ORMState

/-- The state a chaincode with write access starts with. -/
def writingState (tid : Tid) : ORMState := { helper := { tid := tid, readOnly := false } }

/-! ## What is written -/

/-- The entry for a value that is set in the insert. -/
def InsertImpl.entry (i : InsertImpl) (value : Bytes) : KVWrite :=
  { table := i.table, key := i.key, value := value }

/-- With `n` inserts made: `set` is called for one of them. -/
def WriteCall.Made (n : Nat) : WriteCall → Prop
  | .createTable _ => True
  | .newInsert _ => True
  | .setKey insert _ => insert < n
  | .setValue insert _ => insert < n

def WriteCall.madeAfter (n : Nat) : WriteCall → Nat
  | .newInsert _ => n + 1
  | _ => n

def WriteCall.insertsAfter (inserts : List InsertImpl) : WriteCall → List InsertImpl
  | .createTable _ => inserts
  | .newInsert table => inserts ++ [{ table := table }]
  | .setKey insert key => inserts.modify insert fun i => { i with key := key }
  | .setValue _ _ => inserts

/-- An entry, and whether `InsertImpl::set` writes it. -/
structure WriteEvent where
  write : KVWrite
  bySet : Bool
deriving DecidableEq, Repr

def WriteCall.event (tid : Tid) (inserts : List InsertImpl) : WriteCall → Option WriteEvent
  | .createTable tableName => some ⟨tableEntry tid tableName, false⟩
  | .newInsert _ => none
  | .setKey _ _ => none
  | .setValue insert value =>
      inserts[insert]?.map fun i => ⟨i.entry value, true⟩

/-- The chaincode uses the inserts it has. -/
def Made : Nat → List WriteCall → Prop
  | _, [] => True
  | n, call :: calls => call.Made n ∧ Made (call.madeAfter n) calls

def events (tid : Tid) : List InsertImpl → List WriteCall → List WriteEvent
  | _, [] => []
  | inserts, call :: calls =>
      (call.event tid inserts).toList ++ events tid (call.insertsAfter inserts) calls

/-- For every cell the write set has the last entry written to it, and nothing else. -/
def LastWriteWins (written : List KVWrite) (writes : List KVWrite) : Prop :=
  ∀ c, writes.filter (fun w => w.cell = c) = (written.filter fun w => w.cell = c).getLast?.toList

/-- No value goes to a key that was written before, in whatever table, and no table is created
    whose entry was written before. -/
def Fresh (evs : List WriteEvent) : Prop :=
  evs.Pairwise fun earlier later =>
    if later.bySet then earlier.write.key ≠ later.write.key
    else earlier.write.cell ≠ later.write.cell

/-! ## One call -/

/-- The `CHECK` of `set` lets the event pass. -/
def WriteEvent.Passes (ev : WriteEvent) (writes : List KVWrite) : Prop :=
  ev.bySet = true → ∀ w ∈ writes, w.key ≠ ev.write.key

section

variable {s s' : ORMState} {tid : Tid} {call : WriteCall} {calls : List WriteCall}

abbrev ORMState.writes (s : ORMState) : List KVWrite := s.helper.kvRWSet.writes

/-- The call has left the state that its event says. -/
structure Follows (s : ORMState) (call : WriteCall) (s' : ORMState) : Prop where
  tid : s'.helper.tid = s.helper.tid
  readOnly : s'.helper.readOnly = false
  insertList : s'.insertList = call.insertsAfter s.insertList
  writes : s'.writes =
    s.writes ++ (call.event s.helper.tid s.insertList).toList.map WriteEvent.write

theorem writeStep_passes (hro : s.helper.readOnly = false) (hmade : call.Made s.insertList.length)
    (hpass : ∀ ev ∈ call.event s.helper.tid s.insertList, ev.Passes s.writes) :
    ∃ s', s.writeStep call = some s' ∧ Follows s call s' := by
  cases call with
  | createTable tableName => exact ⟨_, rfl, rfl, hro, rfl, rfl⟩
  | newInsert table =>
      refine ⟨{ s with insertList := s.insertList ++ [{ table := table }] }, ?_, rfl, hro, rfl, ?_⟩
      · simp [ORMState.writeStep, ORMState.answered, ORMState.newInsert, hro]
      · simp [WriteCall.event]
  | setKey insert key =>
      have hget : s.insertList[insert]? = some s.insertList[insert] :=
        List.getElem?_eq_getElem hmade
      let i : InsertImpl := { s.insertList[insert] with key := key }
      refine ⟨{ s with insertList := s.insertList.set insert i }, ?_, rfl, hro, ?_, ?_⟩
      · simp [ORMState.writeStep, ORMState.answered, ORMState.set, hget, i]
      · simp [WriteCall.insertsAfter, List.modify_eq_set_getElem?, hget, i]
      · simp [WriteCall.event]
  | setValue insert value =>
      have hget : s.insertList[insert]? = some s.insertList[insert] :=
        List.getElem?_eq_getElem hmade
      have hkeys : s.writes.any (fun w => w.key = s.insertList[insert].key) = false := by
        rw [List.any_eq_false]
        intro w hw
        rw [decide_eq_true_eq]
        have hmem : ⟨s.insertList[insert].entry value, true⟩ ∈
            (WriteCall.setValue insert value).event s.helper.tid s.insertList := by
          simp [WriteCall.event, hget]
        exact hpass _ hmem rfl w hw
      have hattr : ascii "value" ≠ ascii "key" := by decide
      let w : KVWrite := s.insertList[insert].entry value
      refine ⟨{ s with helper := s.helper.addWrite w }, ?_, rfl, hro, rfl, ?_⟩
      · simp [ORMState.writeStep, ORMState.answered, ORMState.set, hget, hattr, hkeys, w,
          InsertImpl.entry]
      · simp [WriteCall.event, hget, CCORMHelper.addWrite, w]

theorem writeStep_fails {ev : WriteEvent} (hev : call.event s.helper.tid s.insertList = some ev)
    (hfail : ¬ ev.Passes s.writes) : s.writeStep call = none := by
  unfold WriteEvent.Passes at hfail
  push Not at hfail
  obtain ⟨hset, w, hw, hkey⟩ := hfail
  cases call with
  | createTable tableName =>
      cases hev
      cases hset
  | newInsert table => cases hev
  | setKey insert key => cases hev
  | setValue insert value =>
      obtain ⟨i, hget, rfl⟩ := Option.map_eq_some_iff.mp hev
      have hattr : ascii "value" ≠ ascii "key" := by decide
      have hkeys : s.writes.any (fun w => w.key = i.key) = true :=
        List.any_eq_true.mpr ⟨w, hw, decide_eq_true hkey⟩
      simp [ORMState.writeStep, ORMState.answered, ORMState.set, hget, hattr, hkeys]

/-! ## All calls -/

/-- One event after the other gets past the `CHECK`. -/
def PassAll : List KVWrite → List WriteEvent → Prop
  | _, [] => True
  | writes, ev :: evs => ev.Passes writes ∧ PassAll (writes ++ [ev.write]) evs

theorem length_insertsAfter (inserts : List InsertImpl) (call : WriteCall) :
    (call.insertsAfter inserts).length = call.madeAfter inserts.length := by
  cases call <;> simp [WriteCall.insertsAfter, WriteCall.madeAfter]

theorem run_writeStep_iff {ws : List KVWrite} (hro : s.helper.readOnly = false)
    (hmade : Made s.insertList.length calls) :
    (∃ s', run ORMState.writeStep s calls = some s' ∧ s'.writes = ws) ↔
      PassAll s.writes (events s.helper.tid s.insertList calls) ∧
        ws = s.writes ++ (events s.helper.tid s.insertList calls).map WriteEvent.write := by
  induction calls generalizing s with
  | nil =>
      constructor
      · rintro ⟨s', hs', rfl⟩
        cases hs'
        exact ⟨trivial, by simp [events]⟩
      · rintro ⟨-, rfl⟩
        exact ⟨s, rfl, by simp [events]⟩
  | cons call calls ih =>
      obtain ⟨hcall, hrest⟩ := hmade
      rw [← length_insertsAfter] at hrest
      have hstep : (∀ ev ∈ call.event s.helper.tid s.insertList, ev.Passes s.writes) →
          ((∃ s', run ORMState.writeStep s (call :: calls) = some s' ∧ s'.writes = ws) ↔
            PassAll
              (s.writes ++ (call.event s.helper.tid s.insertList).toList.map WriteEvent.write)
              (events s.helper.tid (call.insertsAfter s.insertList) calls) ∧
            ws = s.writes ++ (events s.helper.tid s.insertList (call :: calls)).map
              WriteEvent.write) := by
        intro hpass
        obtain ⟨t, ht, hfollow⟩ := writeStep_passes hro hcall hpass
        have hih := ih hfollow.readOnly (by rw [hfollow.insertList]; exact hrest)
        rw [hfollow.insertList, hfollow.tid, hfollow.writes] at hih
        rw [run, ht, Option.bind_some, hih, events, List.map_append, List.append_assoc]
      cases hev : call.event s.helper.tid s.insertList with
      | none =>
          rw [hev] at hstep
          rw [hstep fun ev hmem => by cases hmem]
          simp [events, hev]
      | some ev =>
          by_cases hpass : ev.Passes s.writes
          · rw [hev] at hstep
            rw [hstep fun ev' hmem => Option.some.inj hmem ▸ hpass]
            simp [events, hev, PassAll, hpass]
          · -- the `CHECK` ends the process
            refine iff_of_false ?_ ?_
            · rintro ⟨s', hs', -⟩
              rw [run, writeStep_fails hev hpass] at hs'
              cases hs'
            · rintro ⟨hall, -⟩
              rw [events, hev] at hall
              exact hpass hall.1

end

theorem passAll_iff (writes : List KVWrite) (evs : List WriteEvent) : PassAll writes evs ↔
    (∀ ev ∈ evs, ev.Passes writes) ∧
      evs.Pairwise fun earlier later =>
        later.bySet = true → earlier.write.key ≠ later.write.key := by
  induction evs generalizing writes with
  | nil => simp [PassAll]
  | cons ev evs ih =>
      rw [PassAll, ih, List.pairwise_cons, List.forall_mem_cons]
      have hsplit : (∀ later ∈ evs, later.Passes (writes ++ [ev.write])) ↔
          (∀ later ∈ evs, later.Passes writes) ∧
            ∀ later ∈ evs, later.bySet = true → ev.write.key ≠ later.write.key := by
        rw [← forall₂_and]
        refine forall₂_congr fun later _ => ?_
        unfold WriteEvent.Passes
        simp only [List.forall_mem_append, List.forall_mem_singleton]
        tauto
      rw [hsplit]
      tauto

/-! ## One entry for each cell -/

/-- A list is its last element if it has at most one. -/
theorem eq_getLast?_toList_iff {α : Type*} {xs : List α} :
    xs = xs.getLast?.toList ↔ xs.length ≤ 1 := by
  match xs with
  | [] => simp
  | [x] => simp
  | x :: y :: xs =>
      refine iff_of_false (fun h => ?_) (by simp)
      have hlength := congrArg List.length h
      cases hlast : (x :: y :: xs).getLast? with
      | none => simp [hlast] at hlength
      | some z => simp [hlast] at hlength

theorem lastWriteWins_self_iff (writes : List KVWrite) :
    LastWriteWins writes writes ↔ (writes.map KVWrite.cell).Nodup := by
  rw [List.nodup_iff_count_le_one]
  refine forall_congr' fun c => ?_
  have heq : (fun c' => c' == c) ∘ KVWrite.cell = fun w => decide (w.cell = c) := by
    funext w
    exact beq_eq_decide _ _
  rw [eq_getLast?_toList_iff, ← List.countP_eq_length_filter, List.count, List.countP_map, heq]

theorem fresh_iff (evs : List WriteEvent) :
    Fresh evs ↔ PassAll [] evs ∧ ((evs.map WriteEvent.write).map KVWrite.cell).Nodup := by
  have hnil : ∀ ev ∈ evs, ev.Passes [] := fun ev _ _ w hw => by cases hw
  rw [passAll_iff, and_iff_right hnil, List.map_map, List.Nodup, List.pairwise_map,
    ← List.pairwise_and_iff]
  refine List.Pairwise.iff fun earlier later => ?_
  -- writes to different keys go to different cells
  have hcell : earlier.write.key ≠ later.write.key → earlier.write.cell ≠ later.write.cell :=
    fun hkey heq => hkey (congrArg Prod.snd heq)
  cases hset : later.bySet with
  | true => simpa [hset] using hcell
  | false => simp

theorem last_write_wins_iff (tid : Tid) (calls : List WriteCall) (hmade : Made 0 calls) :
    (∃ s, run ORMState.writeStep (writingState tid) calls = some s ∧
        LastWriteWins ((events tid [] calls).map WriteEvent.write) s.helper.kvRWSet.writes) ↔
      Fresh (events tid [] calls) := by
  have hrun := @run_writeStep_iff (writingState tid) calls
  rw [fresh_iff, ← lastWriteWins_self_iff]
  constructor
  · rintro ⟨s, hs, hlast⟩
    obtain ⟨hpass, hwrites⟩ := (hrun rfl hmade).mp ⟨s, hs, rfl⟩
    rw [show s.helper.kvRWSet.writes = _ from hwrites] at hlast
    exact ⟨hpass, hlast⟩
  · rintro ⟨hpass, hlast⟩
    obtain ⟨s, hs, hwrites⟩ := (hrun rfl hmade).mpr ⟨hpass, rfl⟩
    refine ⟨s, hs, ?_⟩
    rw [show s.helper.kvRWSet.writes = _ from hwrites]
    exact hlast

/-- Two inserts for different tables and keys. -/
def twoInserts : List WriteCall :=
  [.newInsert [1], .newInsert [2], .setKey 0 [10], .setKey 1 [11], .setValue 0 [20],
    .setValue 1 [21]]

theorem last_write_wins_twoInserts : Made 0 twoInserts ∧
    ∃ s, run ORMState.writeStep (writingState 1) twoInserts = some s ∧
      LastWriteWins ((events 1 [] twoInserts).map WriteEvent.write) s.helper.kvRWSet.writes := by
  have hmade : Made 0 twoInserts :=
    ⟨trivial, trivial, Nat.zero_lt_two, Nat.one_lt_two, Nat.zero_lt_two, Nat.one_lt_two, trivial⟩
  refine ⟨hmade, (last_write_wins_iff 1 twoInserts hmade).mpr ?_⟩
  unfold Fresh
  decide

/-- A value that is written twice to one cell ends the process, and so does the same key in two
    tables. A table that is created twice has two entries. -/
theorem last_write_lost :
    run ORMState.writeStep (writingState 1)
        [.newInsert [1], .setKey 0 [10], .setValue 0 [20], .setValue 0 [21]] = none ∧
    run ORMState.writeStep (writingState 1)
        [.newInsert [1], .newInsert [2], .setKey 0 [10], .setKey 1 [10], .setValue 0 [20],
          .setValue 1 [21]] = none ∧
    (run ORMState.writeStep (writingState 1) [.createTable [1], .createTable [1]]).map
        (fun s => s.helper.kvRWSet.writes) = some [tableEntry 1 [1], tableEntry 1 [1]] := by
  refine ⟨?_, ?_, ?_⟩ <;> decide +kernel

end NeuChain.Server
