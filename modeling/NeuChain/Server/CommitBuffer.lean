/-
  The buffer of `DatabaseImpl`, step by step.

  `bufferUpdates` tests `commitPhase` without the mutex, again in `clearBufferThreadSafe`, and once
  more with it; the hash maps are cleared one bucket after the other; `map[tid] = value` looks the
  entry up, or creates it, under the lock of its bucket and writes through the reference after
  that. `commitUpdate` sets `commitPhase` and follows the pointer it finds for its transaction.
  `Lib.runPhase` interleaves the calls of several workers, first all calls of `bufferUpdates`
  of an epoch, then all of `commitList`.

  A pointer to a read-write set is a number. `corrupt` is set where a write goes through a
  reference to an erased entry, or a null pointer is followed.

  * `BufferingCalls`: as long as `commitPhase` is set, no call has come to its insertion, and
    whoever clears is alone; once it is not, the entries are those of the epoch.
  * `exists_sets_commitPhase`: the transaction with the smallest id has no `waw`, so in every
    epoch that is not empty some transaction sets `commitPhase`.
  * `buffer_is_current`: over any run of epochs.
-/
import NeuChain.Lib.HashMap
import NeuChain.Server.ConcurrentEpoch
import Mathlib.Data.List.MinMax

namespace NeuChain.Server

open NeuChain.Lib

/-! ## The model -/

/-- The arguments of a call of `bufferUpdates`. -/
structure BufferCall where
  tid : Tid
  kvRWSet : Nat
  tableList : List ORMTableDefinition
deriving DecidableEq, Repr

/-- `DatabaseImpl` without its storage, with the mutex of `clearBufferThreadSafe`. -/
structure CommitBuffer (H : Hashing Tid) where
  commitPhase : Bool := false
  mutex : Bool := false
  rwSetBuffer : HashMap H (Option Nat) := {}
  tableListBuffer : HashMap H (List ORMTableDefinition) := {}
  corrupt : Bool := false

/-- Where a call of `bufferUpdates` is. -/
inductive BufferInstr where
  | bufferUpdates (b : BufferCall)
  | clearBufferThreadSafe (b : BufferCall)
  | lock (b : BufferCall)
  | clearLocked (b : BufferCall)
  | clearRWSets (b : BufferCall) (bucket : Nat)
  | clearTableLists (b : BufferCall) (bucket : Nat)
  | resetCommitPhase (b : BufferCall)
  | unlock (b : BufferCall)
  | indexRWSet (b : BufferCall)
  | storeRWSet (b : BufferCall)
  | indexTableList (b : BufferCall)
  | storeTableList (b : BufferCall)
deriving DecidableEq, Repr

/-- `none` only where the mutex is taken. -/
def execBuffer {H : Hashing Tid} (db : CommitBuffer H) (i : BufferInstr) (_ : Unit) :
    Option (CommitBuffer H × List BufferInstr) :=
  match i with
  | .bufferUpdates b =>
      some (db, [if db.commitPhase then .clearBufferThreadSafe b else .indexRWSet b])
  | .clearBufferThreadSafe b => some (db, [if db.commitPhase then .lock b else .indexRWSet b])
  | .lock b => if db.mutex then none else some ({ db with mutex := true }, [.clearLocked b])
  | .clearLocked b => some (db, [if db.commitPhase then .clearRWSets b 0 else .unlock b])
  | .clearRWSets b bucket =>
      if bucket < H.count then
        some ({ db with rwSetBuffer := db.rwSetBuffer.clearBucket bucket },
          [.clearRWSets b (bucket + 1)])
      else some (db, [.clearTableLists b 0])
  | .clearTableLists b bucket =>
      if bucket < H.count then
        some ({ db with tableListBuffer := db.tableListBuffer.clearBucket bucket },
          [.clearTableLists b (bucket + 1)])
      else some (db, [.resetCommitPhase b])
  | .resetCommitPhase b => some ({ db with commitPhase := false }, [.unlock b])
  | .unlock b => some ({ db with mutex := false }, [.indexRWSet b])
  | .indexRWSet b =>
      some ({ db with rwSetBuffer := (db.rwSetBuffer.index b.tid none).2 }, [.storeRWSet b])
  | .storeRWSet b =>
      some (if (db.rwSetBuffer.find b.tid).isSome
        then { db with rwSetBuffer := db.rwSetBuffer.set b.tid (some b.kvRWSet) }
        else { db with corrupt := true }, [.indexTableList b])
  | .indexTableList b =>
      some ({ db with tableListBuffer := (db.tableListBuffer.index b.tid []).2 },
        [.storeTableList b])
  | .storeTableList b =>
      some (if (db.tableListBuffer.find b.tid).isSome
        then { db with tableListBuffer := db.tableListBuffer.set b.tid b.tableList }
        else { db with corrupt := true }, [])

/-- Where `commitList` is with a transaction. -/
inductive CommitInstr where
  | commitTransaction (t : Transaction)
  | commitUpdate (tid : Tid)
  | useTableList (tid : Tid)
  | useRWSet (tid : Tid)
deriving DecidableEq, Repr

/-- `none` only where the `CHECK` on the tables fails. -/
def execCommit {H : Hashing Tid} (rt : MockReserveTable) (db : CommitBuffer H) (i : CommitInstr)
    (_ : Unit) : Option (CommitBuffer H × List CommitInstr) :=
  match i with
  | .commitTransaction t =>
      if t.transactionResult = .abortNoRetry then some ({ db with commitPhase := true }, [])
      else
        let dep := rt.dependencyAnalysis t.kvRWSet t.tid
        -- this branch alone leaves `commitPhase` as it is
        if dep.waw then some (db, [])
        else if !dep.war || !dep.raw then some (db, [.commitUpdate t.tid])
        else some ({ db with commitPhase := true }, [])
  | .commitUpdate tid => some ({ db with commitPhase := true }, [.useTableList tid])
  | .useTableList tid =>
      let entry := db.tableListBuffer.index tid []
      if entry.1.all (fun table => table.fieldList.length = 2) then
        some ({ db with tableListBuffer := entry.2 }, [.useRWSet tid])
      else none
  | .useRWSet tid =>
      let entry := db.rwSetBuffer.index tid none
      some ({ db with rwSetBuffer := entry.2, corrupt := db.corrupt || entry.1.isNone }, [])

/-- An epoch: what the workers buffer, the transactions as they hand them to `commitList`, and
    the reservations. -/
structure BufferEpoch where
  calls : List (List BufferCall)
  commits : List (List Transaction)
  reserveTable : MockReserveTable

namespace BufferEpoch

def bufferPrograms (e : BufferEpoch) : List (List BufferInstr) :=
  e.calls.map (List.map .bufferUpdates)

def commitPrograms (e : BufferEpoch) : List (List CommitInstr) :=
  e.commits.map (List.map .commitTransaction)

/-- The registers asked for: by all transactions whose chaincode succeeded. -/
def requests (e : BufferEpoch) : List Request :=
  (e.commits.flatten.filter fun t => t.transactionResult ≠ .abortNoRetry).flatMap fun t =>
    reserveRequests t.kvRWSet t.tid

/-- Ids are distinct and not zero, the transactions committed are those buffered, and the
    registers show the smallest ids. -/
structure Valid (e : BufferEpoch) : Prop where
  distinct : (e.calls.flatten.map BufferCall.tid).Nodup
  nonzero : ∀ b ∈ e.calls.flatten, b.tid ≠ 0
  covers : ∀ tid, tid ∈ e.commits.flatten.map Transaction.tid ↔
    tid ∈ e.calls.flatten.map BufferCall.tid
  reserved : ShowsLeast e.reserveTable e.requests

end BufferEpoch

/-- The two phases of an epoch, each with its schedule. -/
def runBufferEpoch {H : Hashing Tid} (db : CommitBuffer H)
    (a : BufferEpoch × List (Nat × Unit) × List (Nat × Unit)) : Option (CommitBuffer H) :=
  (runPhase execBuffer db a.1.bufferPrograms a.2.1).bind fun db' =>
    runPhase (execCommit a.1.reserveTable) db' a.1.commitPrograms a.2.2

/-! ## Buffering -/

namespace BufferInstr

def call : BufferInstr → BufferCall
  | .bufferUpdates b => b
  | .clearBufferThreadSafe b => b
  | .lock b => b
  | .clearLocked b => b
  | .clearRWSets b _ => b
  | .clearTableLists b _ => b
  | .resetCommitPhase b => b
  | .unlock b => b
  | .indexRWSet b => b
  | .storeRWSet b => b
  | .indexTableList b => b
  | .storeTableList b => b

/-- The call holds the mutex. -/
def inside : BufferInstr → Bool
  | .clearLocked _ => true
  | .clearRWSets _ _ => true
  | .clearTableLists _ _ => true
  | .resetCommitPhase _ => true
  | .unlock _ => true
  | _ => false

/-- It holds the mutex and has found `commitPhase` set. -/
def clearing : BufferInstr → Bool
  | .clearRWSets _ _ => true
  | .clearTableLists _ _ => true
  | .resetCommitPhase _ => true
  | _ => false

/-- It has not seen `commitPhase` unset. -/
def early : BufferInstr → Bool
  | .bufferUpdates _ => true
  | .clearBufferThreadSafe _ => true
  | .lock _ => true
  | .clearLocked _ => true
  | .clearRWSets _ _ => true
  | .clearTableLists _ _ => true
  | .resetCommitPhase _ => true
  | _ => false

/-- What it has put into `rwSetBuffer` under its id. -/
def rwEntry : BufferInstr → Option (Option Nat)
  | .storeRWSet _ => some none
  | .indexTableList b => some (some b.kvRWSet)
  | .storeTableList b => some (some b.kvRWSet)
  | _ => none

def tableEntry : BufferInstr → Option (List ORMTableDefinition)
  | .storeTableList _ => some []
  | _ => none

/-- What it has cleared so far. -/
def Cleared {H : Hashing Tid} (db : CommitBuffer H) : BufferInstr → Prop
  | .clearRWSets _ bucket => ∀ tid, H.bucket tid < bucket → db.rwSetBuffer.find tid = none
  | .clearTableLists _ bucket => (∀ tid, db.rwSetBuffer.find tid = none) ∧
      ∀ tid, H.bucket tid < bucket → db.tableListBuffer.find tid = none
  | .resetCommitPhase _ => (∀ tid, db.rwSetBuffer.find tid = none) ∧
      ∀ tid, db.tableListBuffer.find tid = none
  | _ => True

end BufferInstr

/-- The buffer has what `b` put into it. -/
def CommitBuffer.Holds {H : Hashing Tid} (db : CommitBuffer H) (b : BufferCall) : Prop :=
  db.rwSetBuffer.find b.tid = some (some b.kvRWSet) ∧
    db.tableListBuffer.find b.tid = some b.tableList

/-- The buffer has nothing under an id that no call of `E` has. -/
def CommitBuffer.OnlyOf {H : Hashing Tid} (db : CommitBuffer H) (E : List BufferCall) : Prop :=
  ∀ tid, (∀ b ∈ E, b.tid ≠ tid) →
    db.rwSetBuffer.find tid = none ∧ db.tableListBuffer.find tid = none

/-- Once `commitPhase` is unset, the buffer has what the calls of `E` have put into it, with `is`
    still to do. -/
structure Filled {H : Hashing Tid} (E : List BufferCall) (db : CommitBuffer H)
    (is : List BufferInstr) : Prop where
  underway : ∀ i ∈ is, db.rwSetBuffer.find i.call.tid = i.rwEntry ∧
    db.tableListBuffer.find i.call.tid = i.tableEntry
  finished : ∀ b ∈ E, (∀ i ∈ is, i.call ≠ b) → db.Holds b
  others : db.OnlyOf E

/-- Calls of `E`, no call twice, and only one of them holds the mutex. -/
structure Places (E : List BufferCall) (mutex : Bool) (is : List BufferInstr) : Prop where
  asked : ∀ i ∈ is, i.call ∈ E
  once : (is.map BufferInstr.call).Nodup
  holder : is.countP BufferInstr.inside = mutex.toNat

/-- The calls of `E`, with `is` still to do. -/
structure BufferingCalls {H : Hashing Tid} (E : List BufferCall) (db : CommitBuffer H)
    (is : List BufferInstr) : Prop where
  places : Places E db.mutex is
  sane : db.corrupt = false
  early : db.commitPhase = true → ∀ i ∈ is, i.early = true
  pending : db.commitPhase = true → ∀ b ∈ E, ∃ i ∈ is, i.call = b
  clearing : ∀ i ∈ is, i.clearing = true → db.commitPhase = true
  cleared : ∀ i ∈ is, i.Cleared db
  filled : db.commitPhase = false → Filled E db is

section Buffering

variable {H : Hashing Tid} {E : List BufferCall} {db db' : CommitBuffer H} {i j : BufferInstr}
  {is is' js next : List BufferInstr} {b : BufferCall} {m m' : Bool}

theorem inside_of_clearing (h : i.clearing = true) : i.inside = true := by
  cases i <;> first | rfl | cases h

theorem entries_of_early (h : i.early = true) : i.rwEntry = none ∧ i.tableEntry = none := by
  cases i <;> first | exact ⟨rfl, rfl⟩ | cases h

theorem cleared_of_not_clearing (h : i.clearing = false) : i.Cleared db := by
  cases i <;> cases h <;> trivial

/-- A call that comes to another place. -/
theorem exists_call_cons (h : j.call = i.call) :
    (∃ k ∈ j :: js, k.call = b) ↔ ∃ k ∈ i :: js, k.call = b := by
  simp [h]

namespace Places

theorem perm (hp : is.Perm is') (h : Places E m is) : Places E m is' :=
  ⟨fun i hi => h.asked i (hp.mem_iff.mpr hi), (hp.map _).nodup_iff.mp h.once,
    hp.countP_eq _ ▸ h.holder⟩

theorem move (h : Places E m (i :: js)) (hcall : j.call = i.call)
    (hinside : m'.toNat + i.inside.toNat = m.toNat + j.inside.toNat) :
    Places E m' (j :: js) := by
  refine ⟨?_, ?_, ?_⟩
  · intro k hk
    rcases List.mem_cons.mp hk with rfl | hk
    · rw [hcall]
      exact h.asked i List.mem_cons_self
    · exact h.asked k (List.mem_cons_of_mem _ hk)
  · have honce := h.once
    rw [List.map_cons] at honce ⊢
    rw [hcall]
    exact honce
  · have hcount := h.holder
    rw [List.countP_cons] at hcount ⊢
    cases hi : i.inside <;> cases hj : j.inside <;> simp [hi, hj] at hcount hinside ⊢ <;> omega

theorem leave (h : Places E m (i :: js)) (hi : i.inside = false) : Places E m js := by
  refine ⟨fun k hk => h.asked k (List.mem_cons_of_mem _ hk), (List.nodup_cons.mp h.once).2, ?_⟩
  have hcount := h.holder
  rw [List.countP_cons_of_neg (by simp [hi])] at hcount
  exact hcount

/-- Whoever holds the mutex is alone. -/
theorem alone (h : Places E m (i :: js)) (hi : i.inside = true) : ∀ j ∈ js, j.inside = false := by
  have hcount := h.holder
  rw [List.countP_cons_of_pos hi] at hcount
  have hzero : js.countP BufferInstr.inside = 0 := by
    have := Bool.toNat_le m
    omega
  intro j hj
  simpa using List.countP_eq_zero.mp hzero j hj

/-- The calls of other steps have other ids. -/
theorem tid_ne (hE : (E.map BufferCall.tid).Nodup) (h : Places E m (i :: js)) (hb : b ∈ E)
    (hne : b ≠ i.call) : b.tid ≠ i.call.tid := by
  intro heq
  exact hne (List.inj_on_of_nodup_map hE hb (h.asked i List.mem_cons_self) heq)

theorem call_ne (h : Places E m (i :: js)) (hj : j ∈ js) : j.call ≠ i.call := by
  intro heq
  exact (List.nodup_cons.mp h.once).1 (heq ▸ List.mem_map_of_mem hj)

end Places

theorem Filled.perm (hp : is.Perm is') (h : Filled E db is) : Filled E db is' :=
  ⟨fun i hi => h.underway i (hp.mem_iff.mpr hi),
    fun b hb hno => h.finished b hb fun i hi => hno i (hp.mem_iff.mp hi), h.others⟩

/-- A call that comes to another place without changing the maps. -/
theorem Filled.move (h : Filled E db (i :: js)) (hcall : j.call = i.call)
    (hrw : db'.rwSetBuffer = db.rwSetBuffer) (htables : db'.tableListBuffer = db.tableListBuffer)
    (hentries : j.rwEntry = i.rwEntry ∧ j.tableEntry = i.tableEntry) :
    Filled E db' (j :: js) := by
  refine ⟨?_, ?_, ?_⟩
  · intro k hk
    rw [hrw, htables]
    rcases List.mem_cons.mp hk with rfl | hk
    · rw [hcall, hentries.1, hentries.2]
      exact h.underway i List.mem_cons_self
    · exact h.underway k (List.mem_cons_of_mem _ hk)
  · intro b hb hno
    unfold CommitBuffer.Holds
    rw [hrw, htables]
    refine h.finished b hb fun k hk hkb => ?_
    obtain ⟨k', hk', hkb'⟩ := (exists_call_cons hcall).mpr ⟨k, hk, hkb⟩
    exact hno k' hk' hkb'
  · unfold CommitBuffer.OnlyOf
    rw [hrw, htables]
    exact h.others

namespace BufferingCalls

theorem perm (hp : is.Perm is') (h : BufferingCalls E db is) : BufferingCalls E db is' := by
  refine ⟨h.places.perm hp, h.sane, fun hc i hi => h.early hc i (hp.mem_iff.mpr hi), ?_,
    fun i hi => h.clearing i (hp.mem_iff.mpr hi), fun i hi => h.cleared i (hp.mem_iff.mpr hi),
    fun hc => (h.filled hc).perm hp⟩
  intro hc b hb
  obtain ⟨i, hi, rfl⟩ := h.pending hc b hb
  exact ⟨i, hp.mem_iff.mp hi, rfl⟩

theorem unset_of_late (h : BufferingCalls E db (i :: js)) (hlate : i.early = false) :
    db.commitPhase = false := by
  refine Bool.eq_false_iff.mpr fun hc => ?_
  rw [h.early hc i List.mem_cons_self] at hlate
  cases hlate

/-- What the next step finds under its own id. -/
theorem entry (h : BufferingCalls E db (i :: js)) (hlate : i.early = false) :
    db.rwSetBuffer.find i.call.tid = i.rwEntry ∧
      db.tableListBuffer.find i.call.tid = i.tableEntry :=
  (h.filled (h.unset_of_late hlate)).underway i List.mem_cons_self

/-- A step that changes at most the mutex. -/
theorem move (h : BufferingCalls E db (i :: js)) (hcall : j.call = i.call)
    (hinside : m.toNat + i.inside.toNat = db.mutex.toNat + j.inside.toNat)
    (hearly : db.commitPhase = true → j.early = true)
    (hclearing : j.clearing = true → db.commitPhase = true) (hcleared : j.Cleared db)
    (hentries : db.commitPhase = false → j.rwEntry = i.rwEntry ∧ j.tableEntry = i.tableEntry) :
    BufferingCalls E { db with mutex := m } (j :: js) := by
  refine ⟨h.places.move hcall hinside, h.sane, ?_, ?_, ?_, ?_, ?_⟩
  · intro hc k hk
    rcases List.mem_cons.mp hk with rfl | hk
    · exact hearly hc
    · exact h.early hc k (List.mem_cons_of_mem _ hk)
  · intro hc b hb
    exact (exists_call_cons hcall).mpr (h.pending hc b hb)
  · intro k hk
    rcases List.mem_cons.mp hk with rfl | hk
    · exact hclearing
    · exact h.clearing k (List.mem_cons_of_mem _ hk)
  · intro k hk
    rcases List.mem_cons.mp hk with rfl | hk
    · cases k <;> exact hcleared
    · have hk := h.cleared k (List.mem_cons_of_mem _ hk)
      cases k <;> exact hk
  · intro hc
    exact (h.filled hc).move hcall rfl rfl (hentries hc)

/-- A step of the holder of the mutex that clears something. -/
theorem clear (h : BufferingCalls E db (i :: js)) (hi : i.clearing = true) (hj : j.clearing = true)
    (hearly : j.early = true) (hcall : j.call = i.call) (hcleared : j.Cleared db')
    (hphase : db'.commitPhase = db.commitPhase) (hmutex : db'.mutex = db.mutex)
    (hsane : db'.corrupt = db.corrupt) : BufferingCalls E db' (j :: js) := by
  have hset : db'.commitPhase = true := hphase.trans (h.clearing i List.mem_cons_self hi)
  refine ⟨?_, hsane.trans h.sane, ?_, ?_, fun _ _ _ => hset, ?_, ?_⟩
  · refine h.places.move hcall ?_
    rw [hmutex, inside_of_clearing hi, inside_of_clearing hj]
  · intro hc k hk
    rcases List.mem_cons.mp hk with rfl | hk
    · exact hearly
    · exact h.early (hphase ▸ hc) k (List.mem_cons_of_mem _ hk)
  · intro hc b hb
    exact (exists_call_cons hcall).mpr (h.pending (hphase ▸ hc) b hb)
  · intro k hk
    rcases List.mem_cons.mp hk with rfl | hk
    · exact hcleared
    · refine cleared_of_not_clearing (Bool.eq_false_iff.mpr fun hk' => ?_)
      have := h.places.alone (inside_of_clearing hi) k hk
      rw [inside_of_clearing hk'] at this
      cases this
  · intro hc
    rw [hset] at hc
    cases hc

/-- The buffer is empty and every call is before its insertion. -/
theorem reset (h : BufferingCalls E db (.resetCommitPhase b :: js)) :
    BufferingCalls E { db with commitPhase := false } (.unlock b :: js) := by
  have hset := h.clearing _ List.mem_cons_self rfl
  obtain ⟨hrw, htables⟩ : (∀ tid, db.rwSetBuffer.find tid = none) ∧
      ∀ tid, db.tableListBuffer.find tid = none := h.cleared _ List.mem_cons_self
  have hclearing : ∀ k ∈ js, k.clearing = false := by
    intro k hk
    refine Bool.eq_false_iff.mpr fun hk' => ?_
    have := h.places.alone rfl k hk
    rw [inside_of_clearing hk'] at this
    cases this
  refine ⟨h.places.move rfl rfl, h.sane, ?_, ?_, ?_, ?_, fun _ => ⟨?_, ?_, fun tid _ => ?_⟩⟩
  · intro hc
    cases hc
  · intro hc
    cases hc
  · intro k hk hk'
    rcases List.mem_cons.mp hk with rfl | hk
    · cases hk'
    · rw [hclearing k hk] at hk'
      cases hk'
  · intro k hk
    rcases List.mem_cons.mp hk with rfl | hk
    · trivial
    · exact cleared_of_not_clearing (hclearing k hk)
  · intro k hk
    have hnone : k.rwEntry = none ∧ k.tableEntry = none := by
      rcases List.mem_cons.mp hk with rfl | hk
      · exact ⟨rfl, rfl⟩
      · exact entries_of_early (h.early hset k (List.mem_cons_of_mem _ hk))
    rw [hnone.1, hnone.2]
    exact ⟨hrw _, htables _⟩
  · intro b' hb' hno
    have hmoved : ∃ k ∈ .unlock b :: js, k.call = b' :=
      (exists_call_cons (i := .resetCommitPhase b) (j := .unlock b) rfl).mpr
        (h.pending hset b' hb')
    obtain ⟨k, hk, hkb⟩ := hmoved
    exact absurd hkb (hno k hk)
  · exact ⟨hrw tid, htables tid⟩

/-- A step that changes the entries of its own id only; with it the call may end. -/
theorem insert (hE : (E.map BufferCall.tid).Nodup) (h : BufferingCalls E db (i :: js))
    (hlate : i.early = false) (hi : i.inside = false)
    (hphase : db'.commitPhase = db.commitPhase) (hmutex : db'.mutex = db.mutex)
    (hsane : db'.corrupt = db.corrupt)
    (hother : ∀ tid, tid ≠ i.call.tid → db'.rwSetBuffer.find tid = db.rwSetBuffer.find tid ∧
      db'.tableListBuffer.find tid = db.tableListBuffer.find tid)
    (hnext : (next = [] ∧ db'.Holds i.call) ∨ ∃ j, next = [j] ∧ j.call = i.call ∧
      j.inside = false ∧ j.clearing = false ∧ db'.rwSetBuffer.find i.call.tid = j.rwEntry ∧
      db'.tableListBuffer.find i.call.tid = j.tableEntry) :
    BufferingCalls E db' (next ++ js) := by
  have hunset := h.unset_of_late hlate
  have hf := h.filled hunset
  have hjs : ∀ k ∈ js, k.clearing = false := by
    intro k hk
    refine Bool.eq_false_iff.mpr fun hk' => ?_
    rw [h.clearing k (List.mem_cons_of_mem _ hk) hk'] at hunset
    cases hunset
  have hkeep : ∀ b' ∈ E, b' ≠ i.call →
      db'.rwSetBuffer.find b'.tid = db.rwSetBuffer.find b'.tid ∧
        db'.tableListBuffer.find b'.tid = db.tableListBuffer.find b'.tid :=
    fun b' hb' hne => hother _ (h.places.tid_ne hE hb' hne)
  have hunderway : ∀ k ∈ js, db'.rwSetBuffer.find k.call.tid = k.rwEntry ∧
      db'.tableListBuffer.find k.call.tid = k.tableEntry := by
    intro k hk
    have hk' := List.mem_cons_of_mem i hk
    obtain ⟨hrw, htables⟩ := hkeep k.call (h.places.asked k hk') (h.places.call_ne hk)
    rw [hrw, htables]
    exact hf.underway k hk'
  have hfinished : ∀ b' ∈ E, b' ≠ i.call → (∀ k ∈ js, k.call ≠ b') → db'.Holds b' := by
    intro b' hb' hne hno
    obtain ⟨hrw, htables⟩ := hkeep b' hb' hne
    unfold CommitBuffer.Holds
    rw [hrw, htables]
    refine hf.finished b' hb' fun k hk => ?_
    rcases List.mem_cons.mp hk with rfl | hk
    · exact fun heq => hne heq.symm
    · exact hno k hk
  have hothers : db'.OnlyOf E := by
    intro tid htid
    obtain ⟨hrw, htables⟩ := hother tid fun heq =>
      htid i.call (h.places.asked i List.mem_cons_self) heq.symm
    rw [hrw, htables]
    exact hf.others tid htid
  have hphase' : ¬ db'.commitPhase = true := by
    rw [hphase, hunset]
    decide
  rcases hnext with ⟨rfl, hholds⟩ | ⟨j, rfl, hcall, hji, hjc, hjrw, hjt⟩
  · refine ⟨hmutex ▸ h.places.leave hi, hsane.trans h.sane, fun hc => absurd hc hphase',
      fun hc => absurd hc hphase', ?_, fun k hk => cleared_of_not_clearing (hjs k hk),
      fun _ => ⟨hunderway, ?_, hothers⟩⟩
    · intro k hk hk'
      rw [hjs k hk] at hk'
      cases hk'
    · intro b' hb' hno
      by_cases heq : b' = i.call
      · rw [heq]
        exact hholds
      · exact hfinished b' hb' heq hno
  · refine ⟨?_, hsane.trans h.sane, fun hc => absurd hc hphase', fun hc => absurd hc hphase',
      ?_, ?_, fun _ => ⟨?_, ?_, hothers⟩⟩
    · refine h.places.move hcall ?_
      rw [hmutex, hi, hji]
    · intro k hk hk'
      rcases List.mem_cons.mp hk with rfl | hk
      · rw [hjc] at hk'
        cases hk'
      · rw [hjs k hk] at hk'
        cases hk'
    · intro k hk
      rcases List.mem_cons.mp hk with rfl | hk
      · exact cleared_of_not_clearing hjc
      · exact cleared_of_not_clearing (hjs k hk)
    · intro k hk
      rcases List.mem_cons.mp hk with rfl | hk
      · rw [hcall]
        exact ⟨hjrw, hjt⟩
      · exact hunderway k hk
    · intro b' hb' hno
      refine hfinished b' hb' (fun heq => ?_) fun k hk => hno k (List.mem_cons_of_mem _ hk)
      exact hno j List.mem_cons_self (hcall.trans heq.symm)

theorem exec (hE : (E.map BufferCall.tid).Nodup) (h : BufferingCalls E db (i :: js)) {u : Unit}
    (hex : execBuffer db i u = some (db', next)) : BufferingCalls E db' (next ++ js) := by
  cases i with
  | bufferUpdates b | clearBufferThreadSafe b =>
      cases hex
      cases hc : db.commitPhase with
      | true =>
          exact h.move rfl rfl (fun _ => rfl) (by simp [BufferInstr.clearing]) trivial
            (by simp [hc])
      | false =>
          exact h.move rfl rfl (by simp [hc]) (by simp [BufferInstr.clearing]) trivial
            fun _ => ⟨rfl, rfl⟩
  | lock b =>
      simp only [execBuffer] at hex
      cases hm : db.mutex with
      | true => simp [hm] at hex
      | false =>
          simp only [hm] at hex
          cases hex
          exact h.move rfl (by rw [hm]; rfl) (fun _ => rfl) (by simp [BufferInstr.clearing]) trivial
            fun _ => ⟨rfl, rfl⟩
  | clearLocked b =>
      cases hex
      cases hc : db.commitPhase with
      | true =>
          exact h.move rfl rfl (fun _ => rfl) (fun _ => hc)
            (fun tid htid => absurd htid (Nat.not_lt_zero _)) (by simp [hc])
      | false =>
          exact h.move rfl rfl (by simp [hc]) (by simp [BufferInstr.clearing]) trivial
            fun _ => ⟨rfl, rfl⟩
  | clearRWSets b bucket =>
      have hcleared : ∀ tid, H.bucket tid < bucket → db.rwSetBuffer.find tid = none :=
        h.cleared _ List.mem_cons_self
      simp only [execBuffer] at hex
      split at hex
      · cases hex
        refine h.clear rfl rfl rfl rfl (fun tid htid => ?_) rfl rfl rfl
        rw [HashMap.find_clearBucket]
        split
        · rfl
        · rename_i hne
          exact hcleared tid (by omega)
      · rename_i hlast
        cases hex
        refine h.clear rfl rfl rfl rfl ⟨fun tid => ?_, fun tid htid => ?_⟩ rfl rfl rfl
        · exact hcleared tid (Nat.lt_of_lt_of_le (Nat.mod_lt _ H.count_pos) (Nat.not_lt.mp hlast))
        · exact absurd htid (Nat.not_lt_zero _)
  | clearTableLists b bucket =>
      obtain ⟨hrw, hcleared⟩ : (∀ tid, db.rwSetBuffer.find tid = none) ∧
          ∀ tid, H.bucket tid < bucket → db.tableListBuffer.find tid = none :=
        h.cleared _ List.mem_cons_self
      simp only [execBuffer] at hex
      split at hex
      · cases hex
        refine h.clear rfl rfl rfl rfl ⟨hrw, fun tid htid => ?_⟩ rfl rfl rfl
        rw [HashMap.find_clearBucket]
        split
        · rfl
        · rename_i hne
          exact hcleared tid (by omega)
      · rename_i hlast
        cases hex
        refine h.clear rfl rfl rfl rfl ⟨hrw, fun tid => ?_⟩ rfl rfl rfl
        exact hcleared tid (Nat.lt_of_lt_of_le (Nat.mod_lt _ H.count_pos) (Nat.not_lt.mp hlast))
  | resetCommitPhase b =>
      cases hex
      exact h.reset
  | unlock b =>
      cases hex
      have hunset := h.unset_of_late rfl
      have hm : db.mutex = true := by
        have hcount := h.places.holder
        rw [List.countP_cons_of_pos rfl] at hcount
        cases hm : db.mutex with
        | true => rfl
        | false => simp [hm] at hcount
      exact h.move rfl (by rw [hm]; rfl) (by simp [hunset]) (by simp [BufferInstr.clearing]) trivial
        fun _ => ⟨rfl, rfl⟩
  | indexRWSet b =>
      cases hex
      obtain ⟨hrw, htables⟩ := h.entry rfl
      refine h.insert hE rfl rfl rfl rfl rfl (fun tid hne => ⟨?_, rfl⟩)
        (Or.inr ⟨_, rfl, rfl, rfl, rfl, ?_, htables⟩)
      · exact HashMap.find_index.trans (if_neg hne)
      · refine (HashMap.find_index.trans (if_pos rfl)).trans ?_
        rw [show db.rwSetBuffer.find b.tid = none from hrw]
        rfl
  | storeRWSet b =>
      obtain ⟨hrw, htables⟩ := h.entry rfl
      simp only [execBuffer, show db.rwSetBuffer.find b.tid = some none from hrw,
        Option.isSome_some, if_true] at hex
      cases hex
      refine h.insert hE rfl rfl rfl rfl rfl (fun tid hne => ⟨?_, rfl⟩)
        (Or.inr ⟨_, rfl, rfl, rfl, rfl, ?_, htables⟩)
      · exact HashMap.find_set.trans (if_neg hne)
      · exact HashMap.find_set.trans (if_pos rfl)
  | indexTableList b =>
      cases hex
      obtain ⟨hrw, htables⟩ := h.entry rfl
      refine h.insert hE rfl rfl rfl rfl rfl (fun tid hne => ⟨rfl, ?_⟩)
        (Or.inr ⟨_, rfl, rfl, rfl, rfl, hrw, ?_⟩)
      · exact HashMap.find_index.trans (if_neg hne)
      · refine (HashMap.find_index.trans (if_pos rfl)).trans ?_
        rw [show db.tableListBuffer.find b.tid = none from htables]
        rfl
  | storeTableList b =>
      obtain ⟨hrw, htables⟩ := h.entry rfl
      simp only [execBuffer, show db.tableListBuffer.find b.tid = some [] from htables,
        Option.isSome_some, if_true] at hex
      cases hex
      refine h.insert hE rfl rfl rfl rfl rfl (fun tid hne => ⟨rfl, ?_⟩)
        (Or.inl ⟨rfl, hrw, ?_⟩)
      · exact HashMap.find_set.trans (if_neg hne)
      · exact HashMap.find_set.trans (if_pos rfl)

end BufferingCalls

/-- Between epochs: unless `commitPhase` is set, the buffer is empty. -/
structure BetweenEpochs (db : CommitBuffer H) : Prop where
  mutex : db.mutex = false
  sane : db.corrupt = false
  empty : db.commitPhase = false → db.OnlyOf []

theorem BufferingCalls.start {e : BufferEpoch} (he : e.Valid) (h : BetweenEpochs db) :
    BufferingCalls e.calls.flatten db e.bufferPrograms.flatten := by
  have hprograms : e.bufferPrograms.flatten = e.calls.flatten.map .bufferUpdates := by
    rw [BufferEpoch.bufferPrograms, List.map_flatten]
  have hmem : ∀ {i}, i ∈ e.bufferPrograms.flatten →
      ∃ b ∈ e.calls.flatten, .bufferUpdates b = i := by
    intro i hi
    rw [hprograms] at hi
    exact List.mem_map.mp hi
  have hpending : ∀ b ∈ e.calls.flatten, ∃ i ∈ e.bufferPrograms.flatten, i.call = b := by
    intro b hb
    rw [hprograms]
    exact ⟨_, List.mem_map_of_mem hb, rfl⟩
  refine ⟨⟨?_, ?_, ?_⟩, h.sane, ?_, fun _ => hpending, ?_, ?_, fun hc => ⟨?_, ?_, ?_⟩⟩
  · intro i hi
    obtain ⟨b, hb, rfl⟩ := hmem hi
    exact hb
  · rw [hprograms, List.map_map]
    have hid : e.calls.flatten.map (BufferInstr.call ∘ .bufferUpdates) = e.calls.flatten :=
      List.map_id _
    rw [hid]
    exact List.Nodup.of_map _ he.distinct
  · rw [h.mutex]
    refine List.countP_eq_zero.mpr fun i hi => ?_
    obtain ⟨b, -, rfl⟩ := hmem hi
    simp [BufferInstr.inside]
  · intro _ i hi
    obtain ⟨b, -, rfl⟩ := hmem hi
    rfl
  · intro i hi hc
    obtain ⟨b, -, rfl⟩ := hmem hi
    cases hc
  · intro i hi
    obtain ⟨b, -, rfl⟩ := hmem hi
    trivial
  · intro i hi
    obtain ⟨b, -, rfl⟩ := hmem hi
    exact h.empty hc _ (by simp)
  · intro b hb hno
    obtain ⟨i, hi, rfl⟩ := hpending b hb
    exact absurd rfl (hno i hi)
  · intro tid _
    exact h.empty hc tid (by simp)

theorem BufferingCalls.run {programs : List (List BufferInstr)} {as : List (Nat × Unit)}
    {p : Pool (CommitBuffer H) BufferInstr} (hE : (E.map BufferCall.tid).Nodup)
    (h : BufferingCalls E db programs.flatten)
    (hrun : Lib.run (Pool.step execBuffer) { shared := db, threads := programs } as = some p) :
    BufferingCalls E p.shared p.threads.flatten :=
  run_todo (BufferingCalls E) (fun _ _ _ => BufferingCalls.perm)
    (fun _ _ _ _ _ _ hcalls hex => BufferingCalls.exec hE hcalls hex) hrun h

end Buffering

/-! ## Committing -/

namespace CommitInstr

def tid : CommitInstr → Tid
  | .commitTransaction t => t.tid
  | .commitUpdate tid => tid
  | .useTableList tid => tid
  | .useRWSet tid => tid

/-- The step, or the one it leads to, sets `commitPhase`. -/
def sets (rt : MockReserveTable) : CommitInstr → Bool
  | .commitTransaction t =>
      t.transactionResult = .abortNoRetry ∨ (rt.dependencyAnalysis t.kvRWSet t.tid).waw = false
  | .commitUpdate _ => true
  | _ => false

end CommitInstr

/-- The buffer stays as the calls of `E` have filled it, and if there is a call, `commitPhase` is
    set or is going to be. -/
structure CommittingCalls {H : Hashing Tid} (E : List BufferCall) (rt : MockReserveTable)
    (db : CommitBuffer H) (is : List CommitInstr) : Prop where
  mutex : db.mutex = false
  sane : db.corrupt = false
  asked : ∀ i ∈ is, ∃ b ∈ E, b.tid = i.tid
  holds : ∀ b ∈ E, db.Holds b
  others : E ≠ [] ∨ db.commitPhase = false → db.OnlyOf E
  flagged : E ≠ [] → db.commitPhase = true ∨ ∃ i ∈ is, i.sets rt = true

section Committing

variable {H : Hashing Tid} {E : List BufferCall} {rt : MockReserveTable} {db db' : CommitBuffer H}
  {i j : CommitInstr} {is is' js next : List CommitInstr} {e : BufferEpoch}

namespace CommittingCalls

theorem perm (hp : is.Perm is') (h : CommittingCalls E rt db is) : CommittingCalls E rt db is' := by
  refine ⟨h.mutex, h.sane, fun i hi => h.asked i (hp.mem_iff.mpr hi), h.holds, h.others,
    fun hE => (h.flagged hE).imp_right ?_⟩
  rintro ⟨i, hi, hset⟩
  exact ⟨i, hp.mem_iff.mp hi, hset⟩

/-- A step that leaves the maps alone. -/
theorem step {c : Bool} (h : CommittingCalls E rt db (i :: js)) (hnext : ∀ j ∈ next, j.tid = i.tid)
    (hphase : db.commitPhase = true → c = true)
    (hflag : i.sets rt = true → c = true ∨ ∃ j ∈ next, j.sets rt = true) :
    CommittingCalls E rt { db with commitPhase := c } (next ++ js) := by
  obtain ⟨b, hb, -⟩ := h.asked i List.mem_cons_self
  have hne : E ≠ [] := List.ne_nil_of_mem hb
  refine ⟨h.mutex, h.sane, ?_, h.holds, fun _ => h.others (Or.inl hne), fun _ => ?_⟩
  · intro j hj
    rcases List.mem_append.mp hj with hj | hj
    · rw [hnext j hj]
      exact h.asked i List.mem_cons_self
    · exact h.asked j (List.mem_cons_of_mem _ hj)
  · rcases h.flagged hne with hc | ⟨k, hk, hset⟩
    · exact Or.inl (hphase hc)
    · rcases List.mem_cons.mp hk with rfl | hk
      · rcases hflag hset with hc | ⟨j, hj, hset⟩
        · exact Or.inl hc
        · exact Or.inr ⟨j, List.mem_append_left _ hj, hset⟩
      · exact Or.inr ⟨k, List.mem_append_right _ hk, hset⟩

theorem exec (h : CommittingCalls E rt db (i :: js)) {u : Unit}
    (hex : execCommit rt db i u = some (db', next)) : CommittingCalls E rt db' (next ++ js) := by
  obtain ⟨b, hb, htid⟩ := h.asked i List.mem_cons_self
  obtain ⟨hrw, htables⟩ := h.holds b hb
  rw [htid] at hrw htables
  cases i with
  | commitTransaction t =>
      simp only [execCommit] at hex
      split at hex
      · cases hex
        exact h.step (by simp) (fun _ => rfl) fun _ => Or.inl rfl
      · rename_i hres
        split at hex
        · rename_i hwaw
          cases hex
          refine h.step (by simp) id fun hset => ?_
          simp [CommitInstr.sets, hres, hwaw] at hset
        · split at hex
          · cases hex
            refine h.step ?_ id fun _ => Or.inr ⟨_, List.mem_singleton_self _, rfl⟩
            simp [CommitInstr.tid]
          · cases hex
            exact h.step (by simp) (fun _ => rfl) fun _ => Or.inl rfl
  | commitUpdate tid =>
      cases hex
      exact h.step (by simp [CommitInstr.tid]) (fun _ => rfl) fun _ => Or.inl rfl
  | useTableList tid =>
      have hfind : db.tableListBuffer.find tid = some b.tableList := htables
      simp only [execCommit, HashMap.index_of_find hfind] at hex
      split at hex
      · cases hex
        refine h.step (by simp [CommitInstr.tid]) id fun hset => ?_
        cases hset
      · cases hex
  | useRWSet tid =>
      have hfind : db.rwSetBuffer.find tid = some (some b.kvRWSet) := hrw
      simp only [execCommit, HashMap.index_of_find hfind, Option.isNone_some, Bool.or_false] at hex
      cases hex
      refine h.step (by simp) id fun hset => ?_
      cases hset

end CommittingCalls

/-- The smallest id has no `waw`. -/
theorem exists_sets_commitPhase (he : e.Valid) (hne : e.commits.flatten ≠ []) :
    ∃ t ∈ e.commits.flatten, (CommitInstr.commitTransaction t).sets e.reserveTable = true := by
  obtain ⟨t, ht⟩ : ∃ t, t ∈ e.commits.flatten.argmin Transaction.tid := by
    cases hmin : e.commits.flatten.argmin Transaction.tid with
    | none => exact absurd (List.argmin_eq_none.mp hmin) hne
    | some t => exact ⟨t, rfl⟩
  refine ⟨t, List.argmin_mem ht, ?_⟩
  have hzero : ∀ c, (0 : Nat) ∉ {tid | { side := .write, cell := c, tid := tid } ∈ e.requests} := by
    intro c hc
    obtain ⟨u, hu, hr⟩ := List.mem_flatMap.mp hc
    obtain ⟨b, hb, htid⟩ := List.mem_map.mp
      ((he.covers u.tid).mp (List.mem_map_of_mem (List.mem_of_mem_filter hu)))
    exact he.nonzero b hb (htid.trans (mem_reserveRequests.mp hr).1.symm)
  have hwaw : (e.reserveTable.dependencyAnalysis t.kvRWSet t.tid).waw = false := by
    refine List.any_eq_false.mpr fun c _ hbefore => ?_
    simp only [reservedBefore, Bool.and_eq_true, decide_eq_true_eq] at hbefore
    obtain ⟨m, hm, hlt⟩ := ((he.reserved .write c).lt_iff (hzero c)).mp hbefore
    obtain ⟨u, hu, hr⟩ := List.mem_flatMap.mp hm
    have hle : t.tid ≤ u.tid := List.le_of_mem_argmin (List.mem_of_mem_filter hu) ht
    have hm' : m = u.tid := (mem_reserveRequests.mp hr).1
    exact absurd (hm' ▸ hlt) (Nat.not_lt_of_le hle)
  simp [CommitInstr.sets, hwaw]

namespace CommittingCalls

/-- The commit phase starts where all calls of `bufferUpdates` have returned. -/
theorem start (he : e.Valid) (h : BufferingCalls e.calls.flatten db []) :
    CommittingCalls e.calls.flatten e.reserveTable db e.commitPrograms.flatten := by
  have hprograms : e.commitPrograms.flatten = e.commits.flatten.map .commitTransaction := by
    rw [BufferEpoch.commitPrograms, List.map_flatten]
  have hunset : e.calls.flatten ≠ [] → db.commitPhase = false := by
    intro hne
    refine Bool.eq_false_iff.mpr fun hc => ?_
    obtain ⟨b, hb⟩ := List.exists_mem_of_ne_nil _ hne
    obtain ⟨i, hi, -⟩ := h.pending hc b hb
    cases hi
  have hmutex : db.mutex = false := by
    have hcount := h.places.holder
    cases hm : db.mutex with
    | true => simp [hm] at hcount
    | false => rfl
  refine ⟨hmutex, h.sane, ?_, ?_, ?_, ?_⟩
  · intro i hi
    rw [hprograms] at hi
    obtain ⟨t, ht, rfl⟩ := List.mem_map.mp hi
    exact List.mem_map.mp ((he.covers t.tid).mp (List.mem_map_of_mem ht))
  · intro b hb
    exact (h.filled (hunset (List.ne_nil_of_mem hb))).finished b hb (by simp)
  · rintro (hne | hc)
    · exact (h.filled (hunset hne)).others
    · exact (h.filled hc).others
  · intro hne
    obtain ⟨b, hb⟩ := List.exists_mem_of_ne_nil _ hne
    obtain ⟨t, ht, -⟩ := List.mem_map.mp ((he.covers b.tid).mpr (List.mem_map_of_mem hb))
    obtain ⟨t', ht', hset⟩ := exists_sets_commitPhase he (List.ne_nil_of_mem ht)
    rw [hprograms]
    exact Or.inr ⟨_, List.mem_map_of_mem ht', hset⟩

theorem run {programs : List (List CommitInstr)} {as : List (Nat × Unit)}
    {p : Pool (CommitBuffer H) CommitInstr} (h : CommittingCalls E rt db programs.flatten)
    (hrun : Lib.run (Pool.step (execCommit rt)) { shared := db, threads := programs } as = some p) :
    CommittingCalls E rt p.shared p.threads.flatten :=
  run_todo (CommittingCalls E rt) (fun _ _ _ => perm)
    (fun _ _ _ _ _ _ hcalls hex => exec hcalls hex) hrun h

theorem finish (h : CommittingCalls E rt db []) : BetweenEpochs db := by
  refine ⟨h.mutex, h.sane, fun hc => ?_⟩
  have hE : E = [] := by
    by_contra hne
    rcases h.flagged hne with hset | ⟨i, hi, -⟩
    · rw [hc] at hset
      cases hset
    · cases hi
  subst hE
  exact h.others (Or.inr hc)

end CommittingCalls

theorem buffered_of_runPhase {bs : List (Nat × Unit)} (he : e.Valid) (h : BetweenEpochs db)
    (hrun : runPhase execBuffer db e.bufferPrograms bs = some db') :
    BufferingCalls e.calls.flatten db' [] := by
  obtain ⟨p, hp, hidle, rfl⟩ := runPhase_eq_some.mp hrun
  rw [← hidle.flatten_eq_nil]
  exact (BufferingCalls.start he h).run he.distinct hp

theorem betweenEpochs_run {history : List (BufferEpoch × List (Nat × Unit) × List (Nat × Unit))}
    (hvalid : ∀ a ∈ history, a.1.Valid) (h : BetweenEpochs db)
    (hrun : run runBufferEpoch db history = some db') : BetweenEpochs db' := by
  induction history generalizing db with
  | nil =>
      cases hrun
      exact h
  | cons a history ih =>
      obtain ⟨db₁, hepoch, hrest⟩ := run_cons_eq_some.mp hrun
      obtain ⟨db₂, hbuffer, hcommit⟩ := Option.bind_eq_some_iff.mp hepoch
      have ha := hvalid a List.mem_cons_self
      have hstart := CommittingCalls.start ha (buffered_of_runPhase ha h hbuffer)
      obtain ⟨p, hp, hidle, rfl⟩ := runPhase_eq_some.mp hcommit
      have hend := hstart.run hp
      rw [hidle.flatten_eq_nil] at hend
      exact ih (fun b hb => hvalid b (List.mem_cons_of_mem _ hb)) hend.finish hrest

end Committing

/-! ## Runs of epochs -/

/-- A call of `bufferUpdates` has returned. -/
def Returned {H : Hashing Tid} (p : Pool (CommitBuffer H) BufferInstr) (b : BufferCall) : Prop :=
  ∀ i ∈ p.threads.flatten, i.call ≠ b

/-- Every entry is one of the calls `E`, maybe still without its value. -/
def CommitBuffer.EntriesOf {H : Hashing Tid} (db : CommitBuffer H) (E : List BufferCall) : Prop :=
  (∀ tid v, db.rwSetBuffer.find tid = some v →
    ∃ b ∈ E, b.tid = tid ∧ (v = none ∨ v = some b.kvRWSet)) ∧
  ∀ tid l, db.tableListBuffer.find tid = some l → ∃ b ∈ E, b.tid = tid ∧ (l = [] ∨ l = b.tableList)

section Runs

variable {H : Hashing Tid} {E : List BufferCall} {db : CommitBuffer H} {is : List BufferInstr}

theorem rwEntry_cases {i : BufferInstr} {v : Option Nat} (h : i.rwEntry = some v) :
    v = none ∨ v = some i.call.kvRWSet := by
  cases i <;> cases h <;> simp [BufferInstr.call]

theorem tableEntry_eq {i : BufferInstr} {l : List ORMTableDefinition} (h : i.tableEntry = some l) :
    l = [] := by
  cases i with
  | storeTableList b =>
      cases h
      rfl
  | _ => cases h

theorem Filled.entriesOf (h : Filled E db is) : db.EntriesOf E := by
  -- under any id: nothing, or a call that is underway, or one that has returned
  have hcases : ∀ tid, (db.rwSetBuffer.find tid = none ∧ db.tableListBuffer.find tid = none) ∨
      (∃ i ∈ is, i.call ∈ E ∧ i.call.tid = tid) ∨ ∃ b ∈ E, b.tid = tid ∧ db.Holds b := by
    intro tid
    by_cases hb : ∃ b ∈ E, b.tid = tid
    · right
      obtain ⟨b, hb, rfl⟩ := hb
      by_cases hi : ∃ i ∈ is, i.call = b
      · obtain ⟨i, hi, rfl⟩ := hi
        exact Or.inl ⟨i, hi, hb, rfl⟩
      · refine Or.inr ⟨b, hb, rfl, h.finished b hb fun i hi' heq => hi ⟨i, hi', heq⟩⟩
    · exact Or.inl (h.others tid fun b hb' heq => hb ⟨b, hb', heq⟩)
  constructor
  · intro tid v hv
    rcases hcases tid with ⟨hnone, -⟩ | ⟨i, hi, hiE, rfl⟩ | ⟨b, hb, rfl, hholds⟩
    · rw [hnone] at hv
      cases hv
    · rw [(h.underway i hi).1] at hv
      exact ⟨i.call, hiE, rfl, rwEntry_cases hv⟩
    · rw [hholds.1] at hv
      cases hv
      exact ⟨b, hb, rfl, Or.inr rfl⟩
  · intro tid l hl
    rcases hcases tid with ⟨-, hnone⟩ | ⟨i, hi, hiE, rfl⟩ | ⟨b, hb, rfl, hholds⟩
    · rw [hnone] at hl
      cases hl
    · rw [(h.underway i hi).2] at hl
      exact ⟨i.call, hiE, rfl, Or.inl (tableEntry_eq hl)⟩
    · rw [hholds.2] at hl
      cases hl
      exact ⟨b, hb, rfl, Or.inr rfl⟩

/-- After any epochs, in the next one. While the workers buffer: what a call has put into the
    buffer stays there, and once some call has returned no entry of an earlier epoch is left.
    While they commit: the entries of the transactions still to be committed, and of
    all others of the epoch, are those buffered for them in this epoch. -/
theorem buffer_is_current (history : List (BufferEpoch × List (Nat × Unit) × List (Nat × Unit)))
    (hvalid : ∀ a ∈ history, a.1.Valid) (db : CommitBuffer H)
    (hdb : run runBufferEpoch {} history = some db) (e : BufferEpoch) (he : e.Valid) :
    (∀ as p, run (Pool.step execBuffer) { shared := db, threads := e.bufferPrograms } as = some p →
      p.shared.corrupt = false ∧
      (∀ b ∈ e.calls.flatten, Returned p b → p.shared.Holds b) ∧
      (∀ i ∈ p.threads.flatten, i.early = false →
        p.shared.rwSetBuffer.find i.call.tid = i.rwEntry ∧
          p.shared.tableListBuffer.find i.call.tid = i.tableEntry) ∧
      ((∃ b ∈ e.calls.flatten, Returned p b) → p.shared.EntriesOf e.calls.flatten)) ∧
    (∀ bs db', runPhase execBuffer db e.bufferPrograms bs = some db' →
      ∀ as p, run (Pool.step (execCommit e.reserveTable))
          { shared := db', threads := e.commitPrograms } as = some p →
        p.shared.corrupt = false ∧
        (∀ i ∈ p.threads.flatten, ∃ b ∈ e.calls.flatten, b.tid = i.tid ∧ p.shared.Holds b) ∧
        (∀ b ∈ e.calls.flatten, p.shared.Holds b) ∧
        (e.calls.flatten ≠ [] → p.shared.EntriesOf e.calls.flatten)) := by
  have hbetween : BetweenEpochs db := by
    refine betweenEpochs_run hvalid ⟨rfl, rfl, fun _ tid _ => ⟨rfl, rfl⟩⟩ hdb
  constructor
  · intro as p hrun
    have hinv := (BufferingCalls.start he hbetween).run he.distinct hrun
    have hunset : ∀ b ∈ e.calls.flatten, Returned p b → p.shared.commitPhase = false := by
      intro b hb hret
      refine Bool.eq_false_iff.mpr fun hc => ?_
      obtain ⟨i, hi, hcall⟩ := hinv.pending hc b hb
      exact hret i hi hcall
    refine ⟨hinv.sane, ?_, ?_, ?_⟩
    · intro b hb hret
      exact (hinv.filled (hunset b hb hret)).finished b hb hret
    · intro i hi hlate
      have hphase : p.shared.commitPhase = false := by
        refine Bool.eq_false_iff.mpr fun hc => ?_
        rw [hinv.early hc i hi] at hlate
        cases hlate
      exact (hinv.filled hphase).underway i hi
    · rintro ⟨b, hb, hret⟩
      exact (hinv.filled (hunset b hb hret)).entriesOf
  · intro bs db' hbuffer as p hrun
    have hinv := (CommittingCalls.start he (buffered_of_runPhase he hbetween hbuffer)).run hrun
    refine ⟨hinv.sane, ?_, hinv.holds, fun hne => ?_⟩
    · intro i hi
      obtain ⟨b, hb, htid⟩ := hinv.asked i hi
      exact ⟨b, hb, htid, hinv.holds b hb⟩
    · have hfilled : Filled e.calls.flatten p.shared [] :=
        ⟨by simp, fun b hb _ => hinv.holds b hb, hinv.others (Or.inl hne)⟩
      exact hfilled.entriesOf

end Runs

/-- Two workers with one transaction each. -/
def firstEpoch : BufferEpoch where
  calls := [[{ tid := 1, kvRWSet := 100, tableList := [] }],
    [{ tid := 2, kvRWSet := 101, tableList := [] }]]
  commits := [[{ tid := 1 }], [{ tid := 2 }]]
  reserveTable := { epoch := 1 }

def secondEpoch : BufferEpoch where
  calls := [[{ tid := 1, kvRWSet := 200, tableList := [] }]]
  commits := [[{ tid := 1 }]]
  reserveTable := { epoch := 2 }

theorem firstEpoch_valid : firstEpoch.Valid :=
  ⟨by decide, by decide, fun tid => by simp [firstEpoch], showsLeast_new⟩

theorem secondEpoch_valid : secondEpoch.Valid :=
  ⟨by decide, by decide, fun tid => by simp [secondEpoch], showsLeast_new⟩

/-- Nothing is left of the first epoch. -/
theorem buffer_is_current_second : ∃ (db : CommitBuffer default)
    (p : Pool (CommitBuffer default) BufferInstr),
    run runBufferEpoch {} [(firstEpoch,
      List.replicate 5 (0, ()) ++ List.replicate 5 (1, ()),
      List.replicate 4 (0, ()) ++ List.replicate 4 (1, ()))] = some db ∧
    db.rwSetBuffer.find 2 = some (some 101) ∧
    run (Pool.step execBuffer) { shared := db, threads := secondEpoch.bufferPrograms }
      (List.replicate 14 (0, ())) = some p ∧
    p.shared.rwSetBuffer.find 2 = none := by
  have hruns : (run runBufferEpoch ({} : CommitBuffer default) [(firstEpoch,
      List.replicate 5 (0, ()) ++ List.replicate 5 (1, ()),
      List.replicate 4 (0, ()) ++ List.replicate 4 (1, ()))]).any (fun db =>
        db.rwSetBuffer.find 2 = some (some 101) ∧
        (run (Pool.step execBuffer) { shared := db, threads := secondEpoch.bufferPrograms }
          (List.replicate 14 (0, ()))).any (fun p => p.threads = [[]])) = true := by
    decide +kernel
  obtain ⟨db, hdb, hold, hrest⟩ := exists_of_any hruns
  obtain ⟨p, hp, hthreads⟩ := exists_of_any hrest
  have hcurrent := buffer_is_current _ (by simpa using firstEpoch_valid) db hdb secondEpoch
    secondEpoch_valid
  have hentries := (hcurrent.1 _ p hp).2.2.2
    ⟨{ tid := 1, kvRWSet := 200, tableList := [] }, by decide, by simp [Returned, hthreads]⟩
  refine ⟨db, p, hdb, hold, hp, Option.eq_none_iff_forall_ne_some.mpr fun v hv => ?_⟩
  obtain ⟨b, hb, htid, -⟩ := hentries.1 2 v hv
  rw [List.mem_singleton.mp hb] at htid
  cases htid

end NeuChain.Server
