/-
  One server over many epochs.

  `Replica.step` is an epoch of the whole server: the transactions that arrive for it and those the
  transaction manager has put back are split into workloads, run by concurrent workers
  (`runConcurrent`) and taken from the buffer by `epochFinishedCallback`, in any order. Every
  choice stands in the action: the split, the two schedules, and the order of `try_dequeue`.
  `called` is what reaches the block generator, call by call. The end of a step is the callback as
  the machine of the transaction manager runs it (`step_of_callback`).

  * `Running`: what holds between two epochs. Nothing is lost and nothing doubled: the ids that have
    arrived are those of the calls and those put back.
  * `Alike.step`: an epoch with the same transactions makes the same of two servers.
  * `handed_ne_nil`: an epoch with transactions always hands some of them over, since the one with
    the smallest id is never aborted.
  * `history_serializable`: the committed transactions of all epochs, block after block, have one
    serial order that repeats every recorded read and write set and gives the final database.
  * `history_complete`: what `Running` and `handed_ne_nil` say of a whole run.
-/
import NeuChain.Server.ConcurrentEpoch
import NeuChain.Server.TransactionManager
import Mathlib.Data.List.Forall2
import Mathlib.Data.List.MinMax

namespace NeuChain.Server

open NeuChain Lib

/-! ## What becomes of a finished transaction -/

/-- `categorizeEpoch` and `nonCategorizeEpoch` give this transaction to the block generator. -/
def handsOver (cfg : TrManagerConfig) (t : Transaction) : Bool :=
  if cfg.categorizeTransaction ∨ cfg.reusingAbortTransaction then
    match t.transactionResult with
    | .abort => !cfg.reusingAbortTransaction
    | .commit => true
    | .abortNoRetry => true
    | _ => false
  else true

/-- They put it into the next epoch. -/
def retries (cfg : TrManagerConfig) (t : Transaction) : Bool :=
  cfg.reusingAbortTransaction && decide (t.transactionResult = .abort)

def retry (next : Epoch) (t : Transaction) : Transaction :=
  { t.resetTransaction with epoch := next }

theorem TransactionManagerImpl.categorize_eq (cfg : TrManagerConfig) (m : TransactionManagerImpl)
    (trWrapper : List TxPtr) (p : TxPtr) :
    m.categorize cfg trWrapper p =
      if handsOver cfg (m.object p) then
        { m with committed := m.committed ++ [p], callback := .categorizing trWrapper }
      else if retries cfg (m.object p) then
        { m with
          object := Function.update m.object p (retry (m.processingEpoch + 1) (m.object p))
          epochTxBuffer := Function.update m.epochTxBuffer (m.processingEpoch + 1)
            (m.epochTxBuffer (m.processingEpoch + 1) ++ [p])
          callback := .categorizing (trWrapper ++ [p]) }
      else { m with callback := .categorizing trWrapper } := by
  obtain ⟨categorize, reusing⟩ := cfg
  cases hresult : (m.object p).transactionResult <;> cases categorize <;> cases reusing <;>
    simp [TransactionManagerImpl.categorize, handsOver, retries, retry, hresult]

/-- What is handed over is not put back. -/
theorem retries_of_handsOver {cfg : TrManagerConfig} {t : Transaction}
    (h : handsOver cfg t = true) : retries cfg t = false := by
  obtain ⟨categorize, reusing⟩ := cfg
  cases hresult : t.transactionResult <;> cases reusing <;> simp_all [handsOver, retries]

section Finished

variable {cfg : TrManagerConfig} {cc : Chaincode} {D : Storage} {rt : MockReserveTable}
  {ts : List Transaction} {t : Transaction}

theorem retries_finished (cfg : TrManagerConfig) (cc : Chaincode) (D : Storage)
    (rt : MockReserveTable) (t : Transaction) :
    retries cfg (finished cc D rt t) = !handsOver cfg (finished cc D rt t) := by
  have hresult : (finished cc D rt t).transactionResult = decision rt (executed cc D t) := rfl
  obtain ⟨categorize, reusing⟩ := cfg
  unfold retries handsOver
  rw [hresult]
  unfold decision
  dsimp only
  split_ifs <;> cases categorize <;> cases reusing <;> simp_all

/-- What is handed over and what is put back make up the epoch. -/
theorem handed_retried_perm (cfg : TrManagerConfig) (cc : Chaincode) (D : Storage)
    (rt : MockReserveTable) (ts : List Transaction) :
    ((ts.map (finished cc D rt)).filter (handsOver cfg) ++
      (ts.map (finished cc D rt)).filter (retries cfg)).Perm (ts.map (finished cc D rt)) := by
  have hretries : (ts.map (finished cc D rt)).filter (retries cfg) =
      (ts.map (finished cc D rt)).filter fun t => !handsOver cfg t := by
    refine List.filter_congr fun t ht => ?_
    obtain ⟨u, -, rfl⟩ := List.mem_map.mp ht
    exact retries_finished cfg cc D rt u
  rw [hretries]
  exact List.filter_append_perm _ _

/-- The smallest id of an epoch finds no register written before. -/
theorem reservedBefore_eq_false (hrt : ShowsLeast rt (epochRequests cc D ts))
    (hmin : ∀ u ∈ ts, t.tid ≤ u.tid) (c : Cell) :
    reservedBefore rt.writeTableList t.tid c = false := by
  unfold reservedBefore
  rcases hrt .write c with ⟨hzero, -⟩ | ⟨-, hmem, -⟩
  · have hzero : rt.writeTableList c = 0 := hzero
    simp [hzero]
  · obtain ⟨u, hu, htid⟩ := tid_of_mem_epochRequests hmem
    have htid : rt.writeTableList c = u.tid := htid
    simp [htid, hmin u hu]

theorem decision_ne_abort (hrt : ShowsLeast rt (epochRequests cc D ts))
    (hmin : ∀ u ∈ ts, t.tid ≤ u.tid) : decision rt (executed cc D t) ≠ .abort := by
  have hnone : ∀ cells : List Cell, cells.any (reservedBefore rt.writeTableList t.tid) = false :=
    fun cells => List.any_eq_false.mpr fun c _ => by simp [reservedBefore_eq_false hrt hmin c]
  unfold decision MockReserveTable.dependencyAnalysis
  simp only [executed_tid, hnone]
  split <;> simp

/-- An epoch always hands over a transaction. -/
theorem handed_ne_nil (cfg : TrManagerConfig) (hrt : ShowsLeast rt (epochRequests cc D ts))
    (hne : ts ≠ []) : (ts.map (finished cc D rt)).filter (handsOver cfg) ≠ [] := by
  obtain ⟨t, ht, hmin⟩ : ∃ t ∈ ts, ∀ u ∈ ts, t.tid ≤ u.tid := by
    cases hargmin : ts.argmin Transaction.tid with
    | none => exact absurd (List.argmin_eq_none.mp hargmin) hne
    | some t => exact ⟨t, List.argmin_mem hargmin, fun u hu => List.le_of_mem_argmin hu hargmin⟩
  have hnot : retries cfg (finished cc D rt t) = false := by
    unfold retries
    have : (finished cc D rt t).transactionResult ≠ .abort := decision_ne_abort hrt hmin
    simp [this]
  have hhands : handsOver cfg (finished cc D rt t) = true := by
    rw [retries_finished] at hnot
    simpa using hnot
  exact List.ne_nil_of_mem (List.mem_filter.mpr ⟨List.mem_map_of_mem ht, hhands⟩)

end Finished

/-! ## The reserve table of an epoch -/

section Table

variable {cc : Chaincode} {e : Epoch} {s s' : EpochState} {programs : List (List Instr)}
  {as : List (Nat × Bool)}

/-- The reserve table is not of a later epoch, and none will be fetched. -/
structure TableUpTo (e : Epoch) (s : EpochState) (todo : List Instr) : Prop where
  table : ∀ rt, s.reserveTable = some rt → rt.epoch ≤ e
  fetches : ∀ e', .getReserveTable e' ∈ todo → e' ≤ e

theorem exec_tableUpTo {i : Instr} {spurious : Bool} {next rest : List Instr}
    (h : TableUpTo e s (i :: rest)) (hexec : exec cc s i spurious = some (s', next)) :
    TableUpTo e s' (next ++ rest) := by
  have hrest : ∀ e', Instr.getReserveTable e' ∈ rest → e' ≤ e :=
    fun e' he' => h.fetches e' (List.mem_cons_of_mem i he')
  -- every instruction but the first two kinds keeps the table, and none leaves a fetch
  have hkeep : s'.reserveTable = s.reserveTable → (∀ e', Instr.getReserveTable e' ∉ next) →
      TableUpTo e s' (next ++ rest) := by
    intro htable hnext
    refine ⟨htable ▸ h.table, fun e' he' => ?_⟩
    exact (List.mem_append.mp he').elim (fun hn => absurd hn (hnext e')) (hrest e')
  cases i with
  | getReserveTable epoch =>
      cases hexec
      refine ⟨fun rt hrt => ?_, hrest⟩
      cases hrt
      rw [getReserveTable_epoch]
      exact h.fetches epoch List.mem_cons_self
  | compareExchange r old =>
      obtain ⟨rt, hrt, heq⟩ := Option.map_eq_some_iff.mp hexec
      cases heq
      refine ⟨fun rt' hrt' => ?_, fun e' he' => ?_⟩
      · cases hrt'
        rw [setReg_epoch]
        exact h.table rt hrt
      · rcases List.mem_append.mp he' with hn | hr
        · simp at hn
        · exact hrest e' hr
  | load r =>
      obtain ⟨rt, -, heq⟩ := Option.map_eq_some_iff.mp hexec
      cases heq
      exact hkeep rfl (by simp)
  | commitTransaction tid =>
      unfold exec at hexec
      dsimp only at hexec
      split at hexec
      · cases hexec
        exact hkeep rfl (by simp)
      · obtain ⟨rt, -, heq⟩ := Option.map_eq_some_iff.mp hexec
        split_ifs at heq <;> cases heq <;> exact hkeep rfl (by simp)
  | commitUpdate tid =>
      obtain ⟨-, hexec⟩ := Option.ite_none_right_eq_some.mp hexec
      obtain ⟨rw, -, heq⟩ := Option.map_eq_some_iff.mp hexec
      cases heq
      exact hkeep rfl (by simp)
  | invokeChaincode tid =>
      cases hexec
      refine hkeep rfl fun e' he' => ?_
      rcases List.mem_append.mp he' with hl | hr
      · split at hl <;> simp at hl
      · split at hr <;> simp at hr
  | aggregate tid =>
      cases hexec
      refine hkeep rfl fun e' he' => ?_
      split at he' <;> simp at he'
  | bufferUpdates b =>
      cases hexec
      refine hkeep rfl fun e' he' => ?_
      split at he' <;> simp at he'
  | receiveNode tid result rwset => cases hexec; exact hkeep rfl (by simp)
  | clearBufferThreadSafe b => cases hexec; exact hkeep rfl (by simp)
  | insertBuffer b => cases hexec; exact hkeep rfl (by simp)
  | write w => cases hexec; exact hkeep rfl (by simp)
  | setResult tid result => cases hexec; exact hkeep rfl (by simp)

theorem runPhase_tableUpTo (h : TableUpTo e s programs.flatten)
    (hrun : runPhase (exec cc) s programs as = some s') : TableUpTo e s' [] :=
  runPhase_todo (TableUpTo e)
    (fun _ _ _ hp h => ⟨h.table, fun e' he' => h.fetches e' (hp.mem_iff.mpr he')⟩)
    (fun _ _ _ _ _ _ h hexec => exec_tableUpTo h hexec) hrun h

/-- After an epoch the reserve table is of this epoch or an earlier one. -/
theorem runConcurrent_table {s : ServerState} {workloads : List (List Transaction)}
    {bs : List (Nat × Bool)} (hold : ∀ rt, s.reserveTable = some rt → rt.epoch ≤ e)
    (hepoch : ∀ t ∈ workloads.flatten, t.epoch = e)
    (hrun : runConcurrent cc s workloads as bs = some s') :
    ∀ rt, s'.reserveTable = some rt → rt.epoch ≤ e := by
  obtain ⟨m, hread, hcommit⟩ := Option.bind_eq_some_iff.mp hrun
  have hm : TableUpTo e m [] := by
    refine runPhase_tableUpTo ⟨hold, fun e' he' => ?_⟩ hread
    obtain ⟨l, hl, hmem⟩ := List.mem_flatten.mp he'
    obtain ⟨ts, hts, rfl⟩ := List.mem_map.mp hl
    rcases ts with _ | ⟨t, ts⟩
    · cases hmem
    · rcases List.mem_cons.mp hmem with heq | hrest
      · cases heq
        exact (hepoch t (List.mem_flatten.mpr ⟨_, hts, List.mem_cons_self⟩)).le
      · simp at hrest
  refine (runPhase_tableUpTo ⟨hm.table, fun e' he' => ?_⟩ hcommit).table
  obtain ⟨l, hl, hmem⟩ := List.mem_flatten.mp he'
  obtain ⟨ts, -, rfl⟩ := List.mem_map.mp hl
  simp [commitProgram] at hmem

end Table

/-! ## The callback of the transaction manager -/

namespace TransactionManagerImpl

variable {cfg : TrManagerConfig} {m₀ m m' : TransactionManagerImpl} {ps : List TxPtr}

/-- `epochFinishedCallback` from its loop on, with the choices of `try_dequeue`. The thread of `run`
    is left out; it works on later epochs. -/
def callbackActions (is : List Nat) : List ManagerAction :=
  is.map .tryDequeue ++ [.endOfQueue, .generateBlock, .finish]

/-- The loop that began in `m₀` has taken `ps` from the queue. -/
structure Categorizing (cfg : TrManagerConfig) (m₀ : TransactionManagerImpl) (ps : List TxPtr)
    (m : TransactionManagerImpl) : Prop where
  epoch : m.processingEpoch = m₀.processingEpoch
  blocks : m.blocks = m₀.blocks
  queue : (ps ++ m.epochTxBuffer m₀.processingEpoch).Perm (m₀.epochTxBuffer m₀.processingEpoch)
  committed : m.committed = ps.filter fun p => handsOver cfg (m₀.object p)
  callback : m.callback = .categorizing (ps.filter fun p => retries cfg (m₀.object p))
  object : ∀ p, m.object p = if p ∈ ps.filter fun p => retries cfg (m₀.object p) then
    retry (m₀.processingEpoch + 1) (m₀.object p) else m₀.object p

theorem Categorizing.tryDequeue (h : Categorizing cfg m₀ ps m)
    (hnodup : (m₀.epochTxBuffer m₀.processingEpoch).Nodup) {i : Nat}
    (hstep : m.step cfg (.tryDequeue i) = some m') : ∃ p, Categorizing cfg m₀ (ps ++ [p]) m' := by
  simp only [step, h.callback, h.epoch] at hstep
  cases hp : (m.epochTxBuffer m₀.processingEpoch)[i]? with
  | none =>
      rw [hp] at hstep
      cases hstep
  | some p =>
      rw [hp] at hstep
      obtain ⟨hi, hget⟩ := List.getElem?_eq_some_iff.mp hp
      have hnot : p ∉ ps := fun hmem => (List.nodup_append'.mp (h.queue.nodup_iff.mpr hnodup)).2.2
        hmem (List.mem_of_getElem? hp)
      have hobject : m.object p = m₀.object p := by
        rw [h.object, if_neg fun hc => hnot (List.mem_of_mem_filter hc)]
      have hqueue : (ps ++ [p] ++ (m.epochTxBuffer m₀.processingEpoch).eraseIdx i).Perm
          (m₀.epochTxBuffer m₀.processingEpoch) := by
        refine .trans ?_ h.queue
        rw [List.append_assoc, List.singleton_append, ← hget]
        exact (List.getElem_cons_eraseIdx_perm hi).append_left ps
      -- the objects change if `p` is put back, and only then
      have hskip : retries cfg (m₀.object p) = false →
          (ps ++ [p]).filter (fun q => retries cfg (m₀.object q)) =
            ps.filter fun q => retries cfg (m₀.object q) := fun hretries => by simp [hretries]
      refine ⟨p, ?_⟩
      dsimp only at hstep
      rw [categorize_eq] at hstep
      dsimp only at hstep
      rw [hobject] at hstep
      by_cases hhands : handsOver cfg (m₀.object p) = true
      · have hretries := retries_of_handsOver hhands
        rw [if_pos hhands] at hstep
        cases hstep
        refine ⟨rfl, h.blocks, by simpa using hqueue, by simp [h.committed, hhands], ?_, ?_⟩ <;>
          rw [hskip hretries]
        exact h.object
      · rw [if_neg hhands] at hstep
        by_cases hretries : retries cfg (m₀.object p) = true
        · rw [if_pos hretries] at hstep
          cases hstep
          refine ⟨rfl, h.blocks, by simpa using hqueue, ?_, ?_, fun q => ?_⟩
          · simp [h.committed, hhands]
          · simp [hretries]
          · by_cases hq : q = p
            · subst hq
              simp [hretries]
            · simp [hq, h.object]
        · have hretries := Bool.eq_false_of_not_eq_true hretries
          rw [if_neg (by simp [hretries])] at hstep
          cases hstep
          refine ⟨rfl, h.blocks, by simpa using hqueue, by simp [h.committed, hhands], ?_, ?_⟩ <;>
            rw [hskip hretries]
          exact h.object

theorem Categorizing.run (h : Categorizing cfg m₀ ps m)
    (hnodup : (m₀.epochTxBuffer m₀.processingEpoch).Nodup) (is : List Nat)
    (hrun : Lib.run (step cfg) m (is.map .tryDequeue) = some m') :
    ∃ ps, Categorizing cfg m₀ ps m' := by
  induction is generalizing m ps with
  | nil =>
      cases hrun
      exact ⟨ps, h⟩
  | cons i is ih =>
      obtain ⟨m₁, hstep, hrest⟩ := run_cons_eq_some.mp hrun
      obtain ⟨p, hp⟩ := h.tryDequeue hnodup hstep
      exact ih hp hrest

/-- What a callback has done: `ps` is the order in which it has taken the transactions. -/
structure CalledBack (cfg : TrManagerConfig) (m : TransactionManagerImpl) (ps : List TxPtr)
    (m' : TransactionManagerImpl) : Prop where
  epoch : m'.processingEpoch = m.processingEpoch + 1
  queue : ps.Perm (m.epochTxBuffer m.processingEpoch)
  blocks : m'.blocks =
    m.blocks ++ [(m.processingEpoch, ps.filter fun p => handsOver cfg (m.object p))]
  reuse : cfg.reusingAbortTransaction = true →
    m'.reuseTxWrapper = some (ps.filter fun p => retries cfg (m.object p))
  object : ∀ p, m'.object p = if p ∈ ps.filter fun p => retries cfg (m.object p) then
    retry (m.processingEpoch + 1) (m.object p) else m.object p

theorem calledBack_of_run (hstart : m.callback = .categorizing []) (hcommitted : m.committed = [])
    (hnodup : (m.epochTxBuffer m.processingEpoch).Nodup) {is : List Nat}
    (hrun : Lib.run (step cfg) m (callbackActions is) = some m') :
    ∃ ps, CalledBack cfg m ps m' := by
  have h0 : Categorizing cfg m [] m :=
    ⟨rfl, rfl, List.Perm.refl _, hcommitted, hstart, fun p => by simp⟩
  obtain ⟨m₁, hloop, hend⟩ := run_append_eq_some.mp hrun
  obtain ⟨ps, h⟩ := h0.run hnodup is hloop
  obtain ⟨m₂, hempty, hend⟩ := run_cons_eq_some.mp hend
  obtain ⟨m₃, hblock, hend⟩ := run_cons_eq_some.mp hend
  obtain ⟨m₄, hfinish, hend⟩ := run_cons_eq_some.mp hend
  cases hend
  simp only [step, h.callback, h.epoch] at hempty
  cases hqueue : m₁.epochTxBuffer m.processingEpoch with
  | cons p rest =>
      rw [hqueue] at hempty
      cases hempty
  | nil =>
      rw [hqueue] at hempty
      cases hempty
      cases hblock
      cases hfinish
      have hperm := h.queue
      rw [hqueue, List.append_nil] at hperm
      refine ⟨ps, rfl, hperm, ?_, fun hreusing => ?_, h.object⟩
      · simp [h.blocks, h.committed]
      · simp [hreusing]

end TransactionManagerImpl

/-! ## The server -/

/-- A server between two epochs. -/
structure Replica where
  server : ServerState
  /-- The epoch that comes next. -/
  epoch : Epoch
  reuseTxWrapper : List Transaction := []
  /-- The calls of `generateBlock`, each with the transactions added for it. -/
  called : List (List Transaction) := []

/-- An epoch, with all that is left to chance. -/
structure EpochAction where
  incoming : List Transaction
  workloads : List (List Transaction)
  reads : List (Nat × Bool)
  commits : List (Nat × Bool)
  dequeued : List Tid
deriving Repr

namespace Replica

def start (server : ServerState) (epoch : Epoch) : Replica := { server := server, epoch := epoch }

def step (cc : Chaincode) (cfg : TrManagerConfig) (r : Replica) (a : EpochAction) :
    Option Replica :=
  if a.workloads.flatten.Perm (a.incoming ++ r.reuseTxWrapper) ∧
      a.dequeued.Perm (a.workloads.flatten.map Transaction.tid) then
    (runConcurrent cc r.server a.workloads a.reads a.commits).map fun s =>
      { server := s.toServerState
        epoch := r.epoch + 1
        reuseTxWrapper :=
          ((a.dequeued.map s.txns).filter (retries cfg)).map (retry (r.epoch + 1))
        called := r.called ++ [(a.dequeued.map s.txns).filter (handsOver cfg)] }
  else none

/-- The end of a step is the callback of the transaction manager. Its queue has the transactions of
    the epoch, as the workers have left them; then some step makes the same call and puts the
    same transactions back. -/
theorem step_of_callback {cc : Chaincode} {cfg : TrManagerConfig} {r : Replica}
    {incoming : List Transaction} {workloads : List (List Transaction)}
    {reads commits : List (Nat × Bool)} {s : EpochState} {m m' : TransactionManagerImpl}
    {is : List Nat} (hsplit : workloads.flatten.Perm (incoming ++ r.reuseTxWrapper))
    (hrun : runConcurrent cc r.server workloads reads commits = some s)
    (hepoch : m.processingEpoch = r.epoch) (hstart : m.callback = .categorizing [])
    (hcommitted : m.committed = []) (hnodup : (m.epochTxBuffer r.epoch).Nodup)
    (hids : ((m.epochTxBuffer r.epoch).map fun p => (m.object p).tid).Perm
      (workloads.flatten.map Transaction.tid))
    (hobjects : ∀ p ∈ m.epochTxBuffer r.epoch, s.txns (m.object p).tid = m.object p)
    (hcallback : Lib.run (TransactionManagerImpl.step cfg) m
      (TransactionManagerImpl.callbackActions is) = some m') :
    ∃ dequeued r' handed putBack,
      r.step cc cfg ⟨incoming, workloads, reads, commits, dequeued⟩ = some r' ∧
      r'.epoch = m'.processingEpoch ∧
      m'.blocks = m.blocks ++ [(r.epoch, handed)] ∧
      r'.called = r.called ++ [handed.map m'.object] ∧
      (cfg.reusingAbortTransaction = true → m'.reuseTxWrapper = some putBack) ∧
      r'.reuseTxWrapper = putBack.map m'.object := by
  rw [← hepoch] at hnodup hids hobjects
  obtain ⟨ps, hback⟩ := TransactionManagerImpl.calledBack_of_run hstart hcommitted hnodup hcallback
  -- the ids in the order in which the callback has taken their transactions
  have htxns : (ps.map fun p => (m.object p).tid).map s.txns = ps.map m.object := by
    rw [List.map_map]
    exact List.map_congr_left fun p hp => hobjects p (hback.queue.mem_iff.mp hp)
  have hdequeued :
      (ps.map fun p => (m.object p).tid).Perm (workloads.flatten.map Transaction.tid) :=
    (hback.queue.map _).trans hids
  have hstep : r.step cc cfg
      ⟨incoming, workloads, reads, commits, ps.map fun p => (m.object p).tid⟩ = some
        { server := s.toServerState
          epoch := r.epoch + 1
          reuseTxWrapper := ((ps.map m.object).filter (retries cfg)).map (retry (r.epoch + 1))
          called := r.called ++ [(ps.map m.object).filter (handsOver cfg)] } := by
    unfold step
    rw [if_pos ⟨hsplit, hdequeued⟩, hrun, ← htxns]
    rfl
  refine ⟨_, _, ps.filter fun p => handsOver cfg (m.object p),
    ps.filter fun p => retries cfg (m.object p), hstep, ?_, ?_, ?_, hback.reuse, ?_⟩
  · rw [hback.epoch, hepoch]
  · rw [hback.blocks, hepoch]
  · dsimp only
    rw [List.filter_map]
    congr 2
    refine List.map_congr_left fun p hp => ?_
    have hhands : handsOver cfg (m.object p) = true := (List.mem_filter.mp hp).2
    rw [hback.object, if_neg (by simp [retries_of_handsOver hhands])]
  · dsimp only
    rw [List.filter_map, List.map_map]
    refine List.map_congr_left fun p hp => ?_
    rw [hback.object, hepoch]
    exact (if_pos hp).symm

end Replica

/-- What comes from the consensus: the transactions of one epoch after the other, with distinct
    ids from 1 on, none of them read-only. -/
structure Arrivals (e₀ : Epoch) (arrivals : List (List Transaction)) : Prop where
  epoch : ∀ k ts, arrivals[k]? = some ts → ∀ t ∈ ts, t.epoch = e₀ + k
  tids : (arrivals.flatten.map Transaction.tid).Nodup
  tid_ne_zero : ∀ t ∈ arrivals.flatten, t.tid ≠ 0
  writable : ∀ t ∈ arrivals.flatten, t.readOnlyFlag = false

theorem Arrivals.of_append {e₀ : Epoch} {past future : List (List Transaction)}
    (h : Arrivals e₀ (past ++ future)) : Arrivals e₀ past := by
  have hsub : past.flatten.Sublist (past ++ future).flatten := by
    rw [List.flatten_append]
    exact List.sublist_append_left _ _
  refine ⟨fun k ts hk => h.epoch k ts ?_, h.tids.sublist (hsub.map _),
    fun t ht => h.tid_ne_zero t (hsub.subset ht), fun t ht => h.writable t (hsub.subset ht)⟩
  rw [List.getElem?_append_left (List.getElem?_eq_some_iff.mp hk).1]
  exact hk

namespace Replica

variable {cc : Chaincode} {cfg : TrManagerConfig} {e₀ : Epoch} {r r' : Replica}
  {past : List (List Transaction)} {a a' : EpochAction}

/-- What holds between two epochs, after the transactions of `past` have arrived. -/
structure Running (e₀ : Epoch) (past : List (List Transaction)) (r : Replica) : Prop where
  epoch : r.epoch = e₀ + past.length
  table : ∀ rt, r.server.reserveTable = some rt → rt.epoch < r.epoch
  reused : ∀ t ∈ r.reuseTxWrapper, t.epoch = r.epoch ∧ t.readOnlyFlag = false
  tids : ((r.called.flatten ++ r.reuseTxWrapper).map Transaction.tid).Perm
    (past.flatten.map Transaction.tid)

/-- One epoch, in terms of any order of its transactions and any table with the minima. -/
structure Finishes (cc : Chaincode) (cfg : TrManagerConfig) (r : Replica) (ts : List Transaction)
    (rt : MockReserveTable) (r' : Replica) : Prop where
  epoch : r'.epoch = r.epoch + 1
  storage : r'.server.db.storage =
    putAll r.server.db.storage (ts.flatMap (effectsOf cc r.server.db.storage rt))
  table : ∀ rt', r'.server.reserveTable = some rt' → rt'.epoch ≤ r.epoch
  reuse : r'.reuseTxWrapper.Perm
    (((ts.map (finished cc r.server.db.storage rt)).filter (retries cfg)).map
      (retry (r.epoch + 1)))
  called : ∃ handed, r'.called = r.called ++ [handed] ∧
    handed.Perm ((ts.map (finished cc r.server.db.storage rt)).filter (handsOver cfg))

theorem Running.batch (h : Running e₀ past r) {ts : List Transaction}
    (harr : Arrivals e₀ (past ++ [ts])) : EpochBatch r.epoch (ts ++ r.reuseTxWrapper) := by
  have hflat : (past ++ [ts]).flatten = past.flatten ++ ts := by simp
  have hreused : ∀ t ∈ r.reuseTxWrapper, t.tid ∈ past.flatten.map Transaction.tid :=
    fun t ht => h.tids.subset (List.mem_map_of_mem (List.mem_append_right _ ht))
  have htids := harr.tids
  rw [hflat, List.map_append] at htids
  obtain ⟨-, hts, hapart⟩ := List.nodup_append'.mp htids
  have hnodup : (r.reuseTxWrapper.map Transaction.tid).Nodup := by
    have := h.tids.nodup_iff.mpr (List.nodup_append'.mp htids).1
    exact this.sublist ((List.sublist_append_right _ _).map _)
  have hmem : ∀ t ∈ ts, t ∈ (past ++ [ts]).flatten := by
    intro t ht
    rw [hflat]
    exact List.mem_append_right _ ht
  refine ⟨fun t ht => ?_, ?_, fun t ht => ?_, fun t ht => ?_⟩
  · rcases List.mem_append.mp ht with hnew | hold
    · rw [h.epoch]
      exact harr.epoch past.length ts (by simp) t hnew
    · exact (h.reused t hold).1
  · rw [List.map_append]
    refine List.nodup_append'.mpr ⟨hts, hnodup, fun tid hnew hold => ?_⟩
    obtain ⟨t, ht, rfl⟩ := List.mem_map.mp hold
    exact hapart (hreused t ht) hnew
  · rcases List.mem_append.mp ht with hnew | hold
    · exact harr.tid_ne_zero t (hmem t hnew)
    · obtain ⟨u, hu, htid⟩ := List.mem_map.mp (hreused t hold)
      rw [← htid]
      exact harr.of_append.tid_ne_zero u hu
  · rcases List.mem_append.mp ht with hnew | hold
    · exact harr.writable t (hmem t hnew)
    · exact (h.reused t hold).2

theorem Running.fresh (h : Running e₀ past r) : r.server.Fresh r.epoch :=
  fun rt hrt => (h.table rt hrt).ne

/-- What a step makes of an epoch does not depend on the choices in it. -/
theorem Running.finishes (h : Running e₀ past r) (htab : cc.TwoFieldTables)
    (harr : Arrivals e₀ (past ++ [a.incoming])) (hstep : r.step cc cfg a = some r')
    {ts : List Transaction} {rt : MockReserveTable}
    (hp : (a.incoming ++ r.reuseTxWrapper).Perm ts)
    (hrt : ShowsLeast rt (epochRequests cc r.server.db.storage ts)) :
    Finishes cc cfg r ts rt r' := by
  obtain ⟨⟨hsplit, hdeq⟩, hrun⟩ := Option.ite_none_right_eq_some.mp hstep
  obtain ⟨s, hs, rfl⟩ := Option.map_eq_some_iff.mp hrun
  have hb : EpochBatch r.epoch a.workloads.flatten := (h.batch harr).perm hsplit.symm
  obtain ⟨hst, htx⟩ := runConcurrent_eq htab hb h.fresh hs (hsplit.trans hp) hrt
  have hdone : (a.dequeued.map s.txns).Perm (ts.map (finished cc r.server.db.storage rt)) := by
    refine ((hdeq.trans ((hsplit.trans hp).map _)).map s.txns).trans ?_
    rw [List.map_map]
    exact .of_eq (List.map_congr_left htx)
  exact ⟨rfl, hst, runConcurrent_table (fun rt hrt => (h.table rt hrt).le) hb.epoch hs,
    (hdone.filter _).map _, _, rfl, hdone.filter _⟩

/-- There is always such a table. -/
theorem Running.exists_least (h : Running e₀ past r) (cc : Chaincode) {ts : List Transaction}
    (hb : EpochBatch r.epoch ts) :
    ∃ rt, ShowsLeast rt (epochRequests cc r.server.db.storage ts) :=
  ⟨_, h.fresh.reservations_least cc hb.tid_ne_zero⟩

theorem finished_readOnlyFlag (D : Storage) (rt : MockReserveTable) (t : Transaction) :
    (finished cc D rt t).readOnlyFlag = t.readOnlyFlag := by
  unfold finished executed Transaction.setTransactionResult
  dsimp only
  split <;> rfl

/-- What an epoch hands over and puts back has the ids it got. -/
theorem Finishes.tids {ts handed : List Transaction} {rt : MockReserveTable}
    (h : Finishes cc cfg r ts rt r') (hcalled : r'.called = r.called ++ [handed]) :
    ((handed ++ r'.reuseTxWrapper).map Transaction.tid).Perm (ts.map Transaction.tid) := by
  obtain ⟨handed', hcalled', hhanded⟩ := h.called
  obtain rfl : handed' = handed := by simpa using hcalled'.symm.trans hcalled
  have hparts := (handed_retried_perm cfg cc r.server.db.storage rt ts).map Transaction.tid
  have hreuse := h.reuse.map Transaction.tid
  have htid : Transaction.tid ∘ finished cc r.server.db.storage rt = Transaction.tid :=
    funext fun t => finished_tid
  have hretry : Transaction.tid ∘ retry (r.epoch + 1) = Transaction.tid := rfl
  rw [List.map_map, hretry] at hreuse
  rw [List.map_append, List.map_map, htid] at hparts
  rw [List.map_append]
  exact ((hhanded.map Transaction.tid).append hreuse).trans hparts

theorem Running.step (h : Running e₀ past r) (htab : cc.TwoFieldTables)
    (harr : Arrivals e₀ (past ++ [a.incoming])) (hstep : r.step cc cfg a = some r') :
    Running e₀ (past ++ [a.incoming]) r' := by
  have hb := h.batch harr
  obtain ⟨rt, hrt⟩ := h.exists_least cc hb
  have hfin := h.finishes htab harr hstep (List.Perm.refl _) hrt
  obtain ⟨handed, hcalled, -⟩ := hfin.called
  have hepoch : r'.epoch = r.epoch + 1 := hfin.epoch
  refine ⟨?_, fun rt' hrt' => ?_, fun t ht => ?_, ?_⟩
  · rw [hepoch, h.epoch, List.length_append, List.length_singleton, Nat.add_assoc]
  · rw [hepoch]
    exact Nat.lt_succ_of_le (hfin.table rt' hrt')
  · obtain ⟨u, hu, rfl⟩ := List.mem_map.mp (hfin.reuse.mem_iff.mp ht)
    obtain ⟨v, hv, rfl⟩ := List.mem_map.mp (List.mem_filter.mp hu).1
    refine ⟨hepoch.symm, ?_⟩
    exact (finished_readOnlyFlag _ rt v).trans (hb.writable v hv)
  · have hepochIds := hfin.tids hcalled
    have htids := h.tids
    simp only [hcalled, List.flatten_append, List.flatten_singleton, List.map_append,
      List.append_assoc] at hepochIds htids ⊢
    refine (hepochIds.append_left _).trans ((List.perm_append_comm.append_left _).trans ?_)
    rw [← List.append_assoc]
    exact htids.append_right _

/-! ## Two servers -/

/-- Two servers after the same epochs. -/
structure Alike (r r' : Replica) : Prop where
  storage : r.server.db.storage = r'.server.db.storage
  epoch : r.epoch = r'.epoch
  reuse : r.reuseTxWrapper.Perm r'.reuseTxWrapper
  called : List.Forall₂ List.Perm r.called r'.called

theorem Alike.step {past' : List (List Transaction)} {s s' : Replica} (h : Alike r r')
    (hrunning : Running e₀ past r) (hrunning' : Running e₀ past' r') (htab : cc.TwoFieldTables)
    (harr : Arrivals e₀ (past ++ [a.incoming])) (harr' : Arrivals e₀ (past' ++ [a'.incoming]))
    (hsame : a.incoming.Perm a'.incoming) (hstep : r.step cc cfg a = some s)
    (hstep' : r'.step cc cfg a' = some s') : Alike s s' := by
  have hp : (a'.incoming ++ r'.reuseTxWrapper).Perm (a.incoming ++ r.reuseTxWrapper) :=
    (hsame.append h.reuse).symm
  obtain ⟨rt, hrt⟩ := hrunning.exists_least cc (hrunning.batch harr)
  have hfin := hrunning.finishes htab harr hstep (List.Perm.refl _) hrt
  rw [h.storage] at hrt
  have hfin' := hrunning'.finishes htab harr' hstep' hp hrt
  obtain ⟨handed, hcalled, hhanded⟩ := hfin.called
  obtain ⟨handed', hcalled', hhanded'⟩ := hfin'.called
  refine ⟨?_, ?_, ?_, ?_⟩
  · rw [hfin.storage, hfin'.storage, h.storage]
  · rw [hfin.epoch, hfin'.epoch, h.epoch]
  · have hreuse := hfin.reuse
    rw [h.storage, h.epoch] at hreuse
    exact hreuse.trans hfin'.reuse.symm
  · rw [hcalled, hcalled']
    rw [h.storage] at hhanded
    exact List.rel_append h.called (.cons (hhanded.trans hhanded'.symm) .nil)

/-- The transactions a run gets, epoch by epoch. -/
def arrivals (actions : List EpochAction) : List (List Transaction) :=
  actions.map EpochAction.incoming

/-- Two servers that get the same transactions for every epoch, in any order. -/
def SameArrivals : List EpochAction → List EpochAction → Prop :=
  List.Forall₂ fun a a' => a.incoming.Perm a'.incoming

theorem Alike.run {past' : List (List Transaction)} {s s' : Replica}
    {actions actions' : List EpochAction} (h : Alike r r') (hrunning : Running e₀ past r)
    (hrunning' : Running e₀ past' r') (htab : cc.TwoFieldTables)
    (harr : Arrivals e₀ (past ++ arrivals actions))
    (harr' : Arrivals e₀ (past' ++ arrivals actions')) (hsame : SameArrivals actions actions')
    (hrun : Lib.run (Replica.step cc cfg) r actions = some s)
    (hrun' : Lib.run (Replica.step cc cfg) r' actions' = some s') : Alike s s' := by
  induction hsame generalizing past past' r r' with
  | nil =>
      cases hrun
      cases hrun'
      exact h
  | @cons a a' actions actions' hperm hsame ih =>
      have hcons : ∀ a actions past, past ++ arrivals (a :: actions) =
        past ++ [a.incoming] ++ arrivals actions := by simp [arrivals]
      rw [hcons] at harr harr'
      obtain ⟨r₁, hstep, hrest⟩ := run_cons_eq_some.mp hrun
      obtain ⟨r₁', hstep', hrest'⟩ := run_cons_eq_some.mp hrun'
      have halike :=
        h.step hrunning hrunning' htab harr.of_append harr'.of_append hperm hstep hstep'
      exact ih halike (hrunning.step htab harr.of_append hstep)
        (hrunning'.step htab harr'.of_append hstep') harr harr' hrest hrest'

theorem Running.start {s : ServerState} (hnew : ∀ rt, s.reserveTable = some rt → rt.epoch < e₀) :
    Running e₀ [] (start s e₀) :=
  ⟨rfl, hnew, fun _ ht => absurd ht List.not_mem_nil, List.Perm.refl _⟩

theorem alike_run (htab : cc.TwoFieldTables) {actions actions' : List EpochAction}
    {s s' : ServerState} (hD : s.db.storage = s'.db.storage)
    (hnew : ∀ rt, s.reserveTable = some rt → rt.epoch < e₀)
    (hnew' : ∀ rt, s'.reserveTable = some rt → rt.epoch < e₀)
    (harr : Arrivals e₀ (arrivals actions)) (harr' : Arrivals e₀ (arrivals actions'))
    (hsame : SameArrivals actions actions')
    (hrun : Lib.run (Replica.step cc cfg) (start s e₀) actions = some r)
    (hrun' : Lib.run (Replica.step cc cfg) (start s' e₀) actions' = some r') : Alike r r' := by
  have hstart : Alike (start s e₀) (start s' e₀) := ⟨hD, rfl, List.Perm.refl _, .nil⟩
  exact hstart.run (.start hnew) (.start hnew') htab harr harr' hsame hrun hrun'

/-! ## The calls of a server -/

theorem called_of_step (hstep : r.step cc cfg a = some r') :
    ∃ handed, r'.called = r.called ++ [handed] := by
  obtain ⟨-, hrun⟩ := Option.ite_none_right_eq_some.mp hstep
  obtain ⟨s, -, rfl⟩ := Option.map_eq_some_iff.mp hrun
  exact ⟨_, rfl⟩

/-- There is a call for every epoch. -/
theorem called_run {actions : List EpochAction}
    (hrun : Lib.run (Replica.step cc cfg) r actions = some r') :
    ∃ more, r'.called = r.called ++ more ∧ more.length = actions.length := by
  refine run_invariant_history (fun past r' => ∃ more, r'.called = r.called ++ more ∧
    more.length = past.length) ?_ hrun ⟨[], by simp, rfl⟩
  rintro past r₁ a r₂ ⟨more, hcalled, hlen⟩ hstep
  obtain ⟨handed, hhanded⟩ := called_of_step hstep
  refine ⟨more ++ [handed], ?_, by simp [hlen]⟩
  rw [hhanded, hcalled, List.append_assoc]

/-- What holds after a run from the start. -/
theorem running_run (htab : cc.TwoFieldTables) {s : ServerState} {actions : List EpochAction}
    (hnew : ∀ rt, s.reserveTable = some rt → rt.epoch < e₀) (harr : Arrivals e₀ (arrivals actions))
    (hrun : Lib.run (Replica.step cc cfg) (start s e₀) actions = some r) :
    Running e₀ (arrivals actions) r := by
  refine run_invariant_history (fun past r => Arrivals e₀ (arrivals past) →
    Running e₀ (arrivals past) r) ?_ hrun (fun _ => .start hnew) harr
  intro past r₁ a r₂ hpast hstep harr'
  have hsnoc : arrivals (past ++ [a]) = arrivals past ++ [a.incoming] := List.map_append
  rw [hsnoc] at harr' ⊢
  exact (hpast harr'.of_append).step htab harr' hstep

/-- An epoch with transactions, be they new or put back, makes a call with transactions. -/
theorem Running.handed (h : Running e₀ past r) (htab : cc.TwoFieldTables)
    (harr : Arrivals e₀ (past ++ [a.incoming])) (hstep : r.step cc cfg a = some r')
    (hne : a.incoming ++ r.reuseTxWrapper ≠ []) :
    ∃ handed, r'.called = r.called ++ [handed] ∧ handed ≠ [] := by
  obtain ⟨rt, hrt⟩ := h.exists_least cc (h.batch harr)
  obtain ⟨handed, hcalled, hperm⟩ := (h.finishes htab harr hstep (List.Perm.refl _) hrt).called
  refine ⟨handed, hcalled, fun hnil => ?_⟩
  rw [hnil] at hperm
  exact handed_ne_nil cfg hrt hne hperm.nil_eq.symm

/-- No id is handed over twice. -/
theorem Running.called_nodup (h : Running e₀ past r) (harr : Arrivals e₀ past)
    {txs : List Transaction} (htxs : txs ∈ r.called) : (txs.map Transaction.tid).Nodup := by
  have hall := h.tids.nodup_iff.mpr harr.tids
  rw [List.map_append] at hall
  exact (List.nodup_append'.mp hall).1.sublist ((List.sublist_flatten_of_mem htxs).map _)

/-- Nothing is lost and nothing is done twice: what has arrived has been handed over once or is put
    back. The call of an epoch that has transactions, `incoming` ones or those put back by the
    epoch before, has transactions. -/
theorem history_complete (htab : cc.TwoFieldTables) {s : ServerState} {actions : List EpochAction}
    (hnew : ∀ rt, s.reserveTable = some rt → rt.epoch < e₀) (harr : Arrivals e₀ (arrivals actions))
    (hrun : Lib.run (Replica.step cc cfg) (start s e₀) actions = some r) :
    ((r.called.flatten ++ r.reuseTxWrapper).map Transaction.tid).Perm
      ((arrivals actions).flatten.map Transaction.tid) ∧
    ((r.called.flatten ++ r.reuseTxWrapper).map Transaction.tid).Nodup ∧
    ∀ k a r₁, actions[k]? = some a →
      Lib.run (Replica.step cc cfg) (start s e₀) (actions.take k) = some r₁ →
      a.incoming ++ r₁.reuseTxWrapper ≠ [] → ∃ txs, r.called[k]? = some txs ∧ txs ≠ [] := by
  have hrunning := running_run htab hnew harr hrun
  refine ⟨hrunning.tids, hrunning.tids.nodup_iff.mpr harr.tids, fun k a r₁ ha hfirst hne => ?_⟩
  obtain ⟨hk, hak⟩ := List.getElem?_eq_some_iff.mp ha
  have hsplit : actions = actions.take k ++ a :: actions.drop (k + 1) := by
    rw [← hak, List.getElem_cons_drop, List.take_append_drop]
  rw [hsplit] at hrun harr
  obtain ⟨r₁', hfirst', hrest⟩ := run_append_eq_some.mp hrun
  obtain rfl : r₁ = r₁' := Option.some.inj (hfirst.symm.trans hfirst')
  obtain ⟨r₂, hstep, hlater⟩ := run_cons_eq_some.mp hrest
  have harrivals : arrivals (actions.take k ++ a :: actions.drop (k + 1)) =
      arrivals (actions.take k) ++ [a.incoming] ++ arrivals (actions.drop (k + 1)) := by
    simp [arrivals]
  rw [harrivals] at harr
  obtain ⟨handed, hhanded, hnonempty⟩ := (running_run htab hnew harr.of_append.of_append
    hfirst).handed htab harr.of_append hstep hne
  -- `k` calls before this one, the others after it
  obtain ⟨before, hbefore, hlen⟩ := called_run hfirst
  obtain ⟨more, hmore, -⟩ := called_run hlater
  have hbefore : r₁.called = before := hbefore
  have hlen : r₁.called.length = k := by
    rw [hbefore, hlen, List.length_take, min_eq_left (Nat.le_of_lt hk)]
  refine ⟨handed, ?_, hnonempty⟩
  rw [hmore, hhanded, List.append_assoc, ← hlen, List.getElem?_append_right (Nat.le_refl _),
    Nat.sub_self]
  rfl

/-! ## The history of a server -/

/-- `orders` explains a history that took the database from `D` to `D'` and handed over `called`:
    for each call it lists the committed transactions, as they were before and after their epoch.
    Running their chaincodes one by one, through all calls, repeats the read and write sets they
    have recorded and ends in `D'`. -/
structure SerialHistory (cc : Chaincode) (D D' : Storage) (called : List (List Transaction))
    (orders : List (List (Transaction × Transaction))) : Prop where
  blocks : List.Forall₂ (fun order txs => (order.map Prod.snd).Perm
    (txs.filter fun t => t.transactionResult = .commit)) orders called
  outcome : ∀ p ∈ orders.flatten,
    p.2 = { p.1 with kvRWSet := p.2.kvRWSet, transactionResult := .commit }
  ends : ((chaincodePrograms cc).serialRun D (orders.flatten.map Prod.fst)).1 = D'
  repeats : ((chaincodePrograms cc).serialRun D (orders.flatten.map Prod.fst)).2.map
    (fun out => (out.ret, out.kvRWSet)) = orders.flatten.map fun p => (true, p.2.kvRWSet)

theorem SerialHistory.snoc {D D₁ D₂ : Storage} {called : List (List Transaction)}
    {handed : List Transaction} {orders : List (List (Transaction × Transaction))}
    {order : List (Transaction × Transaction)} (h : SerialHistory cc D D₁ called orders)
    (hlast : SerialHistory cc D₁ D₂ [handed] [order]) :
    SerialHistory cc D D₂ (called ++ [handed]) (orders ++ [order]) := by
  have hends := hlast.ends
  have hrepeats := hlast.repeats
  have houtcome := hlast.outcome
  rw [List.flatten_singleton] at hends hrepeats houtcome
  refine ⟨List.rel_append h.blocks hlast.blocks, fun p hp => ?_, ?_, ?_⟩
  · rw [List.flatten_append, List.flatten_singleton] at hp
    exact (List.mem_append.mp hp).elim (h.outcome p) (houtcome p)
  · rw [List.flatten_append, List.map_append, List.flatten_singleton, Programs.serialRun_append,
      h.ends]
    exact hends
  · rw [List.flatten_append, List.map_append, List.flatten_singleton, Programs.serialRun_append,
      h.ends, List.map_append, List.map_append, h.repeats]
    exact congrArg _ hrepeats

/-- The committed transactions of an epoch are handed over. -/
theorem filter_handed (cfg : TrManagerConfig) (D : Storage) (rt : MockReserveTable)
    (ts : List Transaction) :
    ((ts.map (finished cc D rt)).filter (handsOver cfg)).filter
        (fun t => t.transactionResult = .commit) =
      (ts.filter (Commits cc D rt)).map (finished cc D rt) := by
  rw [List.filter_filter, List.filter_map]
  congr 1
  refine List.filter_congr fun t _ => ?_
  have hiff : (finished cc D rt t).transactionResult = .commit ↔ Commits cc D rt t := Iff.rfl
  by_cases hc : Commits cc D rt t
  · have hresult := hiff.mpr hc
    simp [handsOver, hresult, hc]
  · have hresult := mt hiff.mp hc
    simp [hresult, hc]

theorem finished_of_commits {D : Storage} {rt : MockReserveTable} {t : Transaction}
    (h : Commits cc D rt t) : finished cc D rt t =
      { t with kvRWSet := (cc t D).kvRWSet, transactionResult := .commit } := by
  have hresult : decision rt (executed cc D t) = .commit := h
  unfold finished
  rw [hresult]
  unfold executed
  dsimp only
  rw [if_pos h.ret]
  rfl

theorem Finishes.serial (hloc : cc.LocalReads) {ts handed : List Transaction}
    {rt : MockReserveTable} (h : Finishes cc cfg r ts rt r') (hb : EpochBatch r.epoch ts)
    (hrt : ShowsLeast rt (epochRequests cc r.server.db.storage ts))
    (hcalled : r'.called = r.called ++ [handed]) :
    ∃ order, SerialHistory cc r.server.db.storage r'.server.db.storage [handed] [order] := by
  obtain ⟨handed', hcalled', hhanded⟩ := h.called
  obtain rfl : handed' = handed := by simpa using hcalled'.symm.trans hcalled
  have hstorage := h.storage
  generalize r.server.db.storage = D at hrt hhanded hstorage ⊢
  have hcommits : ∀ t ∈ ts.filter (Commits cc D rt), t ∈ ts ∧ Commits cc D rt t :=
    fun t ht => by simpa using List.mem_filter.mp ht
  obtain ⟨order, hperm, hserial⟩ := serial_order hloc hrt.reserved
    (hb.tids.sublist (List.filter_sublist.map _)) hcommits
  have hfst : (order.map fun t => (t, finished cc D rt t)).map Prod.fst = order := by
    rw [List.map_map]
    exact List.map_id _
  refine ⟨order.map fun t => (t, finished cc D rt t), ?_, fun p hp => ?_, ?_, ?_⟩
  · refine .cons ?_ .nil
    rw [List.map_map]
    refine (hperm.map (finished cc D rt)).trans ?_
    rw [← filter_handed cfg D rt ts]
    exact (hhanded.filter _).symm
  · rw [List.flatten_singleton] at hp
    obtain ⟨t, ht, rfl⟩ := List.mem_map.mp hp
    simp only [finished_of_commits (hcommits t (hperm.mem_iff.mp ht)).2]
  · rw [List.flatten_singleton, hfst, hserial, hstorage, flatMap_effectsOf]
  · rw [List.flatten_singleton, hfst, hserial, List.map_map, List.map_map]
    refine List.map_congr_left fun t ht => ?_
    have hc := (hcommits t (hperm.mem_iff.mp ht)).2
    simp only [Function.comp_apply, hc.ret, finished_kvRWSet]

/-- The blocks of a server are a serial history. -/
theorem history_serializable (hloc : cc.LocalReads) (htab : cc.TwoFieldTables)
    {s : ServerState} {actions : List EpochAction}
    (hnew : ∀ rt, s.reserveTable = some rt → rt.epoch < e₀) (harr : Arrivals e₀ (arrivals actions))
    (hrun : Lib.run (Replica.step cc cfg) (start s e₀) actions = some r) :
    ∃ orders, SerialHistory cc s.db.storage r.server.db.storage r.called orders := by
  have hstart : SerialHistory cc s.db.storage s.db.storage [] [] :=
    ⟨.nil, fun _ hp => absurd hp List.not_mem_nil, rfl, rfl⟩
  refine (run_invariant_history (fun past r => Arrivals e₀ (arrivals past) →
    Running e₀ (arrivals past) r ∧
      ∃ orders, SerialHistory cc s.db.storage r.server.db.storage r.called orders) ?_ hrun
    (fun _ => ⟨.start hnew, [], hstart⟩) harr).2
  intro past r₁ a r₂ hpast hstep harr'
  have hsnoc : arrivals (past ++ [a]) = arrivals past ++ [a.incoming] := List.map_append
  rw [hsnoc] at harr' ⊢
  obtain ⟨hrunning, orders, hserial⟩ := hpast harr'.of_append
  have hb := hrunning.batch harr'
  obtain ⟨rt, hrt⟩ := hrunning.exists_least cc hb
  have hfin := hrunning.finishes htab harr' hstep (List.Perm.refl _) hrt
  obtain ⟨handed, hcalled, -⟩ := hfin.called
  obtain ⟨order, hlast⟩ := hfin.serial hloc hb hrt hcalled
  rw [hcalled]
  exact ⟨hrunning.step htab harr' hstep, orders ++ [order], hserial.snoc hlast⟩

def copyTransaction (epoch : Epoch) (tid : Tid) : Transaction :=
  { epoch := epoch, tid := tid, readOnlyFlag := false }

/-- Transaction 257 writes the key of transaction 1 and is put back once. Two workers in the first
    epoch, one in the second. -/
def retryRun : List EpochAction :=
  [{ incoming := [copyTransaction 5 1, copyTransaction 5 257, copyTransaction 5 2]
     workloads := [[copyTransaction 5 257], [copyTransaction 5 2, copyTransaction 5 1]]
     reads := (0, false) :: List.replicate 15 (1, false) ++ List.replicate 7 (0, false)
     commits := List.replicate 4 (1, false) ++ (0, false) :: List.replicate 4 (1, false)
     dequeued := [257, 1, 2] },
    { incoming := [copyTransaction 6 3]
      workloads := [[copyTransaction 6 3, copyTransaction 6 257]]
      reads := List.replicate 16 (0, false)
      commits := List.replicate 8 (0, false)
      dequeued := [3, 257] }]

def reuseConfig : TrManagerConfig :=
  { categorizeTransaction := true, reusingAbortTransaction := true }

def emptyServer : ServerState := { db := { storage := fun _ => none } }

theorem retryRun_arrivals : Arrivals 5 (arrivals retryRun) := by
  refine ⟨fun k ts hk => ?_, by decide, by decide, by decide⟩
  rcases k with _ | _ | k
  · cases hk
    decide
  · cases hk
    decide
  · cases hk

/-- Transaction 257 is put back again, and nothing else is in the second epoch. -/
def putBackRun : List EpochAction :=
  [{ incoming := [copyTransaction 5 1, copyTransaction 5 257]
     workloads := [[copyTransaction 5 1, copyTransaction 5 257]]
     reads := List.replicate 15 (0, false)
     commits := List.replicate 5 (0, false)
     dequeued := [1, 257] },
    { incoming := []
      workloads := [[copyTransaction 6 257]]
      reads := List.replicate 9 (0, false)
      commits := List.replicate 4 (0, false)
      dequeued := [257] }]

theorem putBackRun_arrivals : Arrivals 5 (arrivals putBackRun) := by
  refine ⟨fun k ts hk => ?_, by decide, by decide, by decide⟩
  rcases k with _ | _ | k
  · cases hk
    decide
  · cases hk
    decide
  · cases hk

theorem history_complete_putBack :
    ∃ r, Lib.run (Replica.step copyChaincode reuseConfig) (start emptyServer 5) putBackRun =
      some r ∧
      ((r.called.flatten ++ r.reuseTxWrapper).map Transaction.tid).Perm [1, 257] ∧
      ∃ txs, r.called[1]? = some txs ∧ txs ≠ [] := by
  have hany : (Lib.run (Replica.step copyChaincode reuseConfig) (start emptyServer 5)
      putBackRun).isSome = true := by decide +kernel
  have hfirst : (Lib.run (Replica.step copyChaincode reuseConfig) (start emptyServer 5)
      (putBackRun.take 1)).any (fun r => r.reuseTxWrapper ≠ []) = true := by decide +kernel
  obtain ⟨r, hrun⟩ := Option.isSome_iff_exists.mp hany
  obtain ⟨r₁, hrun₁, hne⟩ := exists_of_any hfirst
  obtain ⟨hperm, -, hcalls⟩ := history_complete copyChaincode_twoFieldTables
    (fun _ h => by cases h) putBackRun_arrivals hrun
  exact ⟨r, hrun, hperm, hcalls 1 _ r₁ rfl hrun₁ hne⟩

theorem history_serializable_retry :
    ∃ r, Lib.run (Replica.step copyChaincode reuseConfig) (start emptyServer 5) retryRun = some r ∧
      r.called.map (List.map Transaction.tid) = [[1, 2], [3, 257]] ∧
      ∃ orders,
        SerialHistory copyChaincode (fun _ => none) r.server.db.storage r.called orders := by
  have hany : (Lib.run (Replica.step copyChaincode reuseConfig) (start emptyServer 5) retryRun).any
      (fun r => r.called.map (List.map Transaction.tid) = [[1, 2], [3, 257]]) = true := by
    decide +kernel
  obtain ⟨r, hrun, hcalled⟩ := exists_of_any hany
  exact ⟨r, hrun, hcalled, history_serializable copyChaincode_localReads
    copyChaincode_twoFieldTables (fun _ h => by cases h) retryRun_arrivals hrun⟩

end Replica

end NeuChain.Server
