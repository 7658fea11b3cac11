/-
  `MockReserveTable`: reservations of one epoch and the dependency test on them.

  Two nested hash maps of atomics, table name then key; a register that was never touched
  reads 0 (`operator[]` value-initialises it). A transaction reserves every cell it reads in
  the read table and every cell it writes in the write table; a register keeps the
  smallest id (`Lib.keepLeast`). `dependencyAnalysis` then asks, for one transaction,
  whether a smaller id wrote what it writes (`waw`), read what it writes (`war`) or wrote
  what it reads (`raw`).

  This file runs each call alone. The same loop among other threads is in
  `NeuChain.Server.EpochRun`.

  * `reserveRWSet_read_le`, `reserveRWSet_write_le`: a reserved register is non-zero and at
    most the id, whatever it held before, and `reserveRWSet_keeps`: later calls keep that.
  * `reserveRWSet_least`: a register that shows the minimum of the ids offered so far shows
    the minimum of those and the new one after the call, if the call names its cell.
-/
import NeuChain.Types
import NeuChain.Lib.MinRegister
import Mathlib.Logic.Function.Basic

namespace NeuChain.Server

open NeuChain.Lib

/-- `epoch` of the base class `ReserveTable`, and the two tables. -/
structure MockReserveTable where
  epoch : Epoch
  readTableList : Cell → Tid := fun _ => 0
  writeTableList : Cell → Tid := fun _ => 0

/-- `TransactionDependency`. -/
structure TransactionDependency where
  waw : Bool := false
  war : Bool := false
  raw : Bool := false
deriving DecidableEq, Repr

/-- The loop over `compare_exchange_weak` on one register, with no other thread. -/
def reserveCell (reg : Cell → Tid) (tid : Tid) (c : Cell) : Cell → Tid :=
  Function.update reg c (keepLeast (reg c) tid)

def MockReserveTable.reserveRWSet (rt : MockReserveTable) (rw : KVRWSet) (tid : Tid) :
    MockReserveTable :=
  { rt with
    readTableList := (rw.reads.map KVRead.cell).foldl (reserveCell · tid) rt.readTableList
    writeTableList := (rw.writes.map KVWrite.cell).foldl (reserveCell · tid) rt.writeTableList }

/-- `old < transactionID && old != 0`. -/
def reservedBefore (reg : Cell → Tid) (tid : Tid) (c : Cell) : Bool :=
  decide (reg c < tid) && decide (reg c ≠ 0)

def MockReserveTable.dependencyAnalysis (rt : MockReserveTable) (rw : KVRWSet) (tid : Tid) :
    TransactionDependency where
  waw := (rw.writes.map KVWrite.cell).any (reservedBefore rt.writeTableList tid)
  war := (rw.writes.map KVWrite.cell).any (reservedBefore rt.readTableList tid)
  raw := (rw.reads.map KVRead.cell).any (reservedBefore rt.writeTableList tid)

/-- `ReserveTableProvider::getHashMapReserveTable`: a new table whenever the epoch differs. -/
def getReserveTable (current : Option MockReserveTable) (epoch : Epoch) : MockReserveTable :=
  match current with
  | none => { epoch := epoch }
  | some rt => if epoch ≠ rt.epoch then { epoch := epoch } else rt

theorem getReserveTable_epoch (current : Option MockReserveTable) (epoch : Epoch) :
    (getReserveTable current epoch).epoch = epoch := by
  unfold getReserveTable
  split
  · rfl
  · split
    · rfl
    · rename_i h; exact (not_not.mp h).symm

/-- Asking again in the same epoch gives the same table. -/
theorem getReserveTable_self (rt : MockReserveTable) :
    getReserveTable (some rt) rt.epoch = rt := by
  simp [getReserveTable]

/-! ## Registers hold at most the id that reserved them -/

/-- Register `c` is held by an id that is at most `tid`. -/
def HeldBy (reg : Cell → Tid) (tid : Tid) (c : Cell) : Prop := reg c ≠ 0 ∧ reg c ≤ tid

theorem reserveCell_self {reg : Cell → Tid} {tid : Tid} {c : Cell} (h : tid ≠ 0) :
    HeldBy (reserveCell reg tid c) tid c := by
  unfold HeldBy reserveCell
  rw [Function.update_self]
  exact ⟨keepLeast_ne_zero h, keepLeast_le⟩

theorem reserveCell_keeps {reg : Cell → Tid} {tid tid' : Tid} {c c' : Cell} (h : tid ≠ 0)
    (hc : HeldBy reg tid' c') : HeldBy (reserveCell reg tid c) tid' c' := by
  unfold HeldBy reserveCell at *
  by_cases he : c' = c
  · subst he
    rw [Function.update_self]
    exact ⟨keepLeast_ne_zero h, Nat.le_trans (keepLeast_le_of_ne_zero hc.1) hc.2⟩
  · rw [Function.update_of_ne he]
    exact hc

theorem foldl_reserveCell_keeps {cs : List Cell} {reg : Cell → Tid} {tid tid' : Tid} {c : Cell}
    (h : tid ≠ 0) (hc : HeldBy reg tid' c) :
    HeldBy (cs.foldl (reserveCell · tid) reg) tid' c := by
  induction cs generalizing reg with
  | nil => exact hc
  | cons c' cs ih => exact ih (reserveCell_keeps h hc)

theorem foldl_reserveCell_held {cs : List Cell} {reg : Cell → Tid} {tid : Tid} {c : Cell}
    (h : tid ≠ 0) (hc : c ∈ cs) : HeldBy (cs.foldl (reserveCell · tid) reg) tid c := by
  induction cs generalizing reg with
  | nil => cases hc
  | cons c' cs ih =>
      rcases List.mem_cons.mp hc with rfl | hc
      · rw [List.foldl_cons]
        exact foldl_reserveCell_keeps h (reserveCell_self h)
      · exact ih hc

theorem reserveRWSet_read_le {rt : MockReserveTable} {rw : KVRWSet} {tid : Tid} {c : Cell}
    (h : tid ≠ 0) (hc : c ∈ rw.reads.map KVRead.cell) :
    HeldBy (rt.reserveRWSet rw tid).readTableList tid c :=
  foldl_reserveCell_held h hc

theorem reserveRWSet_write_le {rt : MockReserveTable} {rw : KVRWSet} {tid : Tid} {c : Cell}
    (h : tid ≠ 0) (hc : c ∈ rw.writes.map KVWrite.cell) :
    HeldBy (rt.reserveRWSet rw tid).writeTableList tid c :=
  foldl_reserveCell_held h hc

theorem reserveRWSet_keeps {rt : MockReserveTable} {rw : KVRWSet} {tid tid' : Tid} {c : Cell}
    (h : tid ≠ 0) :
    (HeldBy rt.readTableList tid' c → HeldBy (rt.reserveRWSet rw tid).readTableList tid' c) ∧
    (HeldBy rt.writeTableList tid' c → HeldBy (rt.reserveRWSet rw tid).writeTableList tid' c) :=
  ⟨foldl_reserveCell_keeps h, foldl_reserveCell_keeps h⟩

/-- A register held by a smaller id answers the dependency test. -/
theorem reservedBefore_of_held {reg : Cell → Tid} {tid tid' : Tid} {c : Cell}
    (h : HeldBy reg tid' c) (hlt : tid' < tid) : reservedBefore reg tid c = true := by
  unfold reservedBefore
  rw [Bool.and_eq_true, decide_eq_true_eq, decide_eq_true_eq]
  exact ⟨Nat.lt_of_le_of_lt h.2 hlt, h.1⟩

/-! ## Registers show the minimum -/

theorem foldl_reserveCell_least {cs : List Cell} {reg : Cell → Tid} {tid : Tid}
    {S : Cell → Set Nat} (h : tid ≠ 0) (hS : ∀ c, Least (S c) (reg c)) (c : Cell) :
    Least (S c ∪ {m | m = tid ∧ c ∈ cs}) (cs.foldl (reserveCell · tid) reg c) := by
  induction cs generalizing reg S with
  | nil => simpa using hS c
  | cons c' cs ih =>
      have hstep : ∀ d, Least (if d = c' then insert tid (S d) else S d)
          (reserveCell reg tid c' d) := by
        intro d
        unfold reserveCell
        by_cases hd : d = c'
        · subst hd
          rw [if_pos rfl, Function.update_self]
          exact (hS d).offer h
        · rw [if_neg hd, Function.update_of_ne hd]
          exact hS d
      have hrest := ih hstep
      rw [List.foldl_cons]
      convert hrest using 1
      ext m
      by_cases hc : c = c'
      · simp only [hc, if_pos, Set.mem_union, Set.mem_insert_iff, Set.mem_ofPred_eq,
          List.mem_cons, true_or, and_true]
        tauto
      · simp [hc]

theorem reserveRWSet_least {rt : MockReserveTable} {tid : Tid} {R W : Cell → Set Nat}
    (rw : KVRWSet) (h : tid ≠ 0) (hR : ∀ c, Least (R c) (rt.readTableList c))
    (hW : ∀ c, Least (W c) (rt.writeTableList c)) (c : Cell) :
    Least (R c ∪ {m | m = tid ∧ c ∈ rw.reads.map KVRead.cell})
      ((rt.reserveRWSet rw tid).readTableList c) ∧
    Least (W c ∪ {m | m = tid ∧ c ∈ rw.writes.map KVWrite.cell})
      ((rt.reserveRWSet rw tid).writeTableList c) :=
  ⟨foldl_reserveCell_least h hR c, foldl_reserveCell_least h hW c⟩

end NeuChain.Server
