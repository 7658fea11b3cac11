/-
  One epoch with its workers running concurrently.

  A worker's program is `executeList` or `commitList` on its workload, cut into the steps other
  threads can come between: fetching the reserve table, running a chaincode, loading a
  register, one turn of the compare-exchange loop, the test, the locked clearing and the
  insertion of `bufferUpdates`, the decision on a transaction, each single write of
  `commitUpdate`. The transactions are objects shared by reference; with distinct ids a function of
  the id. `Lib.runPhase` interleaves the programs of one phase and ends when all have; the
  coordinator keeps the phases apart.

  `dependencyAnalysis` and a chaincode are one step each: no instruction of the commit phase
  changes a register, and none of the read phase changes storage, so their single loads
  commute with everything that can come between.

  `receiveNode` and `aggregate` are the steps of aggregation mode: a node of another server's
  message, and an iteration of `AggregationTransactionExecutor::executeList`.

  What a phase of each kind does is proved in `ReadPhase` and `CommitPhase`.
-/
import NeuChain.Server.Executor
import NeuChain.Lib.Threads

namespace NeuChain.Server

open NeuChain.Lib

/-! ## The model -/

inductive Side where
  | read
  | write
deriving DecidableEq, Repr

def MockReserveTable.reg (rt : MockReserveTable) : Side → Cell → Tid
  | .read => rt.readTableList
  | .write => rt.writeTableList

def MockReserveTable.setReg (rt : MockReserveTable) (side : Side) (c : Cell) (tid : Tid) :
    MockReserveTable :=
  match side with
  | .read => { rt with readTableList := Function.update rt.readTableList c tid }
  | .write => { rt with writeTableList := Function.update rt.writeTableList c tid }

/-- Transaction `tid` asks for one register. -/
structure Request where
  side : Side
  cell : Cell
  tid : Tid
deriving DecidableEq, Repr

/-- The two loops of `reserveRWSet`, in order. -/
def reserveRequests (rw : KVRWSet) (tid : Tid) : List Request :=
  rw.reads.map (fun r => { side := .read, cell := r.cell, tid := tid }) ++
    rw.writes.map fun w => { side := .write, cell := w.cell, tid := tid }

/-- The arguments of a call of `bufferUpdates`. -/
structure BufferEntry where
  tid : Tid
  kvRWSet : KVRWSet
  tableList : List ORMTableDefinition
deriving DecidableEq, Repr

inductive Instr where
  | getReserveTable (epoch : Epoch)
  | invokeChaincode (tid : Tid)
  | receiveNode (tid : Tid) (result : TransactionResult) (rwset : KVRWSet)
  | aggregate (tid : Tid)
  | load (r : Request)
  | compareExchange (r : Request) (old : Tid)
  | bufferUpdates (b : BufferEntry)
  | clearBufferThreadSafe (b : BufferEntry)
  | insertBuffer (b : BufferEntry)
  | commitTransaction (tid : Tid)
  | commitUpdate (tid : Tid)
  | write (w : KVWrite)
  | setResult (tid : Tid) (result : TransactionResult)
deriving DecidableEq, Repr

/-- The server during an epoch: its transactions by id. -/
structure EpochState extends ServerState where
  txns : Tid → Transaction

def EpochState.setTxn (s : EpochState) (tid : Tid) (t : Transaction) : EpochState :=
  { s with txns := Function.update s.txns tid t }

/-- One instruction. `spurious` lets a `compare_exchange_weak` fail without a reason. `none`
    stands for a null pointer or a failed `CHECK`. -/
def exec (cc : Chaincode) (s : EpochState) (i : Instr) (spurious : Bool) :
    Option (EpochState × List Instr) :=
  match i with
  | .getReserveTable epoch =>
      some ({ s with reserveTable := some (getReserveTable s.reserveTable epoch) }, [])
  | .invokeChaincode tid =>
      let t := s.txns tid
      let out := cc t s.db.storage
      some (s.setTxn tid (executed cc s.db.storage t),
        (if out.ret then (reserveRequests out.kvRWSet tid).map .load else []) ++
          -- `~CCORMHelper`, also when the chaincode failed
          (if t.readOnlyFlag then []
            else [.bufferUpdates { tid := tid, kvRWSet := out.kvRWSet, tableList := out.tableList }]))
  | .receiveNode tid result rwset =>
      some (s.setTxn tid { s.txns tid with transactionResult := result, kvRWSet := rwset },
        [.bufferUpdates { tid := tid, kvRWSet := rwset, tableList := [] }])
  | .aggregate tid =>
      let t := s.txns tid
      some (s, if t.transactionResult = .abortNoRetry then []
        else (reserveRequests t.kvRWSet tid).map .load)
  | .load r =>
      s.reserveTable.map fun rt => (s, [.compareExchange r (rt.reg r.side r.cell)])
  | .compareExchange r old =>
      s.reserveTable.map fun rt =>
        let turn := casLoop (rt.reg r.side r.cell) old r.tid spurious
        ({ s with reserveTable := some (rt.setReg r.side r.cell turn.1) },
          turn.2.toList.map (.compareExchange r))
  | .bufferUpdates b =>
      some (s, [if s.db.commitPhase then .clearBufferThreadSafe b else .insertBuffer b])
  | .clearBufferThreadSafe b => some ({ s with db := s.db.clearBuffer }, [.insertBuffer b])
  | .insertBuffer b => some ({ s with db := s.db.insertBuffer b.tid b.kvRWSet b.tableList }, [])
  | .commitTransaction tid =>
      let t := s.txns tid
      if t.transactionResult = .abortNoRetry then some ({ s with db := s.db.abortUpdate }, [])
      else
        s.reserveTable.map fun rt =>
          let dep := rt.dependencyAnalysis t.kvRWSet tid
          if dep.waw then (s.setTxn tid (t.setTransactionResult .abort), [])
          else if !dep.war || !dep.raw then (s, [.commitUpdate tid])
          else ({ s.setTxn tid (t.setTransactionResult .abort) with db := s.db.abortUpdate }, [])
  | .commitUpdate tid =>
      if s.db.tablesOk tid then
        (s.db.rwSetBuffer tid).map fun rw =>
          ({ s with db := { s.db with commitPhase := true } },
            rw.writes.map .write ++ [.setResult tid .commit])
      else none
  | .write w => some ({ s with db := { s.db with storage := put s.db.storage (writeEffect w) } }, [])
  | .setResult tid result => some (s.setTxn tid ((s.txns tid).setTransactionResult result), [])

/-- The two `executeList`s: fetch the table of the first transaction's epoch, then one iteration
    per transaction. -/
def listProgram (iteration : Tid → Instr) (ts : List Transaction) : List Instr :=
  match ts with
  | [] => []
  | t :: _ => .getReserveTable t.epoch :: ts.map fun t => iteration t.tid

/-- `TransactionExecutorImpl::executeList`. -/
def executeProgram : List Transaction → List Instr := listProgram .invokeChaincode

/-- `AggregationTransactionExecutor::executeList`. -/
def aggregateProgram : List Transaction → List Instr := listProgram .aggregate

/-- `TransactionExecutor::commitList`. -/
def commitProgram (ts : List Transaction) : List Instr := ts.map fun t => .commitTransaction t.tid

/-! ## Registers -/

section Registers

variable {rt : MockReserveTable} {e : Epoch} {s : EpochState}

@[simp] theorem setReg_epoch (side : Side) (c : Cell) (tid : Tid) :
    (rt.setReg side c tid).epoch = rt.epoch := by
  cases side <;> rfl

theorem setReg_reg_self (side : Side) (c : Cell) (tid : Tid) :
    (rt.setReg side c tid).reg side c = tid := by
  cases side <;> exact Function.update_self _ _ _

theorem setReg_reg_of_ne {side side' : Side} {c c' : Cell} {tid : Tid}
    (h : side' = side → c' ≠ c) : (rt.setReg side c tid).reg side' c' = rt.reg side' c' := by
  cases side <;> cases side'
  · exact Function.update_of_ne (h rfl) _ _
  · rfl
  · rfl
  · exact Function.update_of_ne (h rfl) _ _

theorem setReg_self (side : Side) (c : Cell) : rt.setReg side c (rt.reg side c) = rt := by
  cases side
  · simp [MockReserveTable.setReg, MockReserveTable.reg]
  · simp [MockReserveTable.setReg, MockReserveTable.reg]

/-- The table a worker of epoch `e` finds: a new one as long as none of them has asked. -/
def EpochState.table (s : EpochState) (e : Epoch) : MockReserveTable :=
  getReserveTable s.reserveTable e

/-- Some worker has asked for the table of epoch `e`. -/
def EpochState.Fetched (s : EpochState) (e : Epoch) : Prop :=
  ∃ rt, s.reserveTable = some rt ∧ rt.epoch = e

theorem EpochState.Fetched.reserveTable_eq (h : s.Fetched e) : s.reserveTable = some (s.table e) := by
  obtain ⟨rt, hrt, rfl⟩ := h
  unfold EpochState.table
  rw [hrt, getReserveTable_self]

theorem table_eq_of_some (h : s.reserveTable = some rt) (he : rt.epoch = e) : s.table e = rt := by
  unfold EpochState.table
  rw [h, ← he, getReserveTable_self]

end Registers

end NeuChain.Server
