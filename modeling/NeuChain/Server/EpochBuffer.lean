/-
  How transactions get from the client proxies into the execution queue
  (`epoch_transaction_buffer.h`, `epoch_txn_queue_manager.h`, `cyclic_barrier.cpp`).

  Each of the `n` proxies has a buffer with two threads. The proxy thread pushes the transactions
  of its epoch and then finishes the epoch (`asyncEmptyBuffer(epoch++)`), which leaves a
  task for the worker thread of the buffer. The worker meets the other workers at a barrier,
  empties the buffer of the epoch (unless transactions are sent eagerly) and signals that it is
  through. If they are sent eagerly, the proxy thread itself hands a transaction on when all
  workers have signalled for the epoch before.

  A step is one access to what the threads share: `globalProcessingEpoch`,
  `currentEpochPushedToQueueCnt`, the barrier, the handle; work on the thread's own data comes with
  it. Loads and stores are sequentially consistent: the code stores the count before the epoch with
  release and loads the epoch before the count with acquire. A thread that waits at the barrier
  goes on only after its generation has been released.

  A failed `CHECK` sets `aborted`, and nothing happens after it. `buffer` is a vector of
  length `MAX_EPOCH`; a step that would index past its end is not enabled, so a run ends
  there.

  `pushed`, `completed` and the proxy number beside each transaction of `handled` are not in the
  source. They record what the properties speak about.
-/
import NeuChain.Lib.Barrier
import NeuChain.Lib.Run
import NeuChain.Types

namespace NeuChain.Server

open NeuChain Lib

/-! ## State -/

/-- Where a proxy thread is in `pushTransactionToBuffer`. -/
inductive PushPc (τ : Type*) where
  | idle
  /-- `globalProcessingEpoch` is the epoch of the transaction, the count is loaded next. -/
  | loaded (transaction : τ)
  /-- All proxies are through with the epoch before; first the buffer is emptied. -/
  | emptying (transaction : τ)

/-- Where a worker thread is in its task, the end of epoch `targetEpoch`. -/
inductive WorkerPc where
  | idle
  | waiting (targetEpoch : Nat) (generation : Nat)
  /-- Last at the barrier, in its callback: the count is reset, the epoch is increased, and
      then the generation is released. -/
  | storing (targetEpoch : Nat)
  | adding (targetEpoch : Nat)
  | releasing (targetEpoch : Nat)
  | emptying (targetEpoch : Nat)
  | signalling (targetEpoch : Nat)
deriving DecidableEq

/-- A proxy with its `EpochTransactionBuffer`. -/
structure TransactionBuffer (τ : Type*) where
  epoch : Nat
  pushPc : PushPc τ := .idle
  workerPc : WorkerPc := .idle
  workload : List Epoch := []
  buffer : Nat → List τ := fun _ => []
  pushed : List τ := []
  completed : List Epoch := []

/-- `EpochTxnQueueManager`, with its barrier. -/
structure EpochTxnQueueManager where
  globalProcessingEpoch : Nat
  currentEpochPushedToQueueCnt : Nat
  currentWaits : Nat := 0
  generation : Nat := 0

structure ProxyState (τ : Type*) where
  queueMgr : EpochTxnQueueManager
  proxies : Nat → TransactionBuffer τ
  handled : List (Nat × τ) := []
  aborted : Bool := false

structure ProxyConfig (τ : Type*) where
  blkSrvCnt : Nat
  startWithEpoch : Nat
  eagerSent : Bool
  getEpoch : τ → Nat

inductive ProxyAction (τ : Type*) where
  /-- The proxy thread calls `pushTransactionToBuffer`. -/
  | push (proxy : Nat) (transaction : τ)
  /-- The proxy thread goes on in the call it is in. -/
  | continuePush (proxy : Nat)
  /-- The proxy thread calls `asyncEmptyBuffer(epoch++)`. -/
  | asyncEmptyBuffer (proxy : Nat)
  /-- The worker thread takes a step. -/
  | work (proxy : Nat)

namespace ProxyState

variable {τ : Type*}

def initial (cfg : ProxyConfig τ) : ProxyState τ where
  queueMgr := { globalProcessingEpoch := cfg.startWithEpoch,
                currentEpochPushedToQueueCnt := cfg.blkSrvCnt }
  proxies _ := { epoch := cfg.startWithEpoch }

def setProxy (s : ProxyState τ) (p : Nat) (b : TransactionBuffer τ) : ProxyState τ :=
  { s with proxies := Function.update s.proxies p b }

/-- `_handle(transaction)`. -/
def handle (s : ProxyState τ) (p : Nat) (t : τ) : ProxyState τ :=
  { s with handled := s.handled ++ [(p, t)] }

def abort (s : ProxyState τ) : ProxyState τ := { s with aborted := true }

/-! ## The proxy thread -/

/-- `buffer[epoch].push(transaction)`, after which the call returns. -/
def park (b : TransactionBuffer τ) (e : Nat) (t : τ) : TransactionBuffer τ :=
  { b with buffer := Function.update b.buffer e (b.buffer e ++ [t]), pushPc := .idle }

/-- The call of `pushTransactionToBuffer`, up to and with the first load of
    `isAllCPPushedToQueue`. -/
def pushTransactionToBuffer (cfg : ProxyConfig τ) (s : ProxyState τ) (p : Nat) (t : τ) :
    ProxyState τ :=
  let txEpoch := cfg.getEpoch t
  let b := { s.proxies p with pushed := (s.proxies p).pushed ++ [t] }
  if cfg.eagerSent then
    if txEpoch > s.queueMgr.globalProcessingEpoch then s.setProxy p (park b txEpoch t)
    else if txEpoch = s.queueMgr.globalProcessingEpoch then
      s.setProxy p { b with pushPc := .loaded t }
    else s.abort  -- CHECK(waitingEpoch == finishedLatestEpoch)
  else s.setProxy p (park b txEpoch t)

/-- One turn of the loop in `syncEmptyBuffer(e)`; `none` if the buffer is empty. -/
def syncEmptyBuffer (cfg : ProxyConfig τ) (s : ProxyState τ) (p : Nat) (e : Nat) :
    Option (ProxyState τ) :=
  match (s.proxies p).buffer e with
  | [] => none
  | t :: rest =>
      if cfg.getEpoch t = e then
        some ((s.handle p t).setProxy p
          { s.proxies p with buffer := Function.update (s.proxies p).buffer e rest })
      else some s.abort

def continuePush (cfg : ProxyConfig τ) (s : ProxyState τ) (p : Nat) : Option (ProxyState τ) :=
  match (s.proxies p).pushPc with
  | .idle => none
  | .loaded t =>
      if s.queueMgr.currentEpochPushedToQueueCnt < cfg.blkSrvCnt then
        some (s.setProxy p (park (s.proxies p) (cfg.getEpoch t) t))
      else some (s.setProxy p { s.proxies p with pushPc := .emptying t })
  | .emptying t =>
      match s.syncEmptyBuffer cfg p (cfg.getEpoch t) with
      | some s' => some s'
      | none => some ((s.handle p t).setProxy p { s.proxies p with pushPc := .idle })

def asyncEmptyBuffer (s : ProxyState τ) (p : Nat) : ProxyState τ :=
  let b := s.proxies p
  s.setProxy p { b with workload := b.workload ++ [b.epoch], epoch := b.epoch + 1 }

/-! ## The worker thread -/

/-- After `waitForAllCPRecvTxn` has returned. -/
def afterAwait (cfg : ProxyConfig τ) (e : Nat) : WorkerPc :=
  if cfg.eagerSent then .signalling e else .emptying e

/-- The worker takes the next task and arrives at the barrier. -/
def await (cfg : ProxyConfig τ) (s : ProxyState τ) (p : Nat) (e : Nat) (rest : List Nat) :
    ProxyState τ :=
  let waits := if s.queueMgr.currentWaits < cfg.blkSrvCnt then s.queueMgr.currentWaits + 1
    else s.queueMgr.currentWaits
  { s with
    queueMgr := { s.queueMgr with currentWaits := waits }
    proxies := Function.update s.proxies p
      { s.proxies p with
        workload := rest
        workerPc := if waits ≥ cfg.blkSrvCnt then .storing e
          else .waiting e s.queueMgr.generation } }

def setWorkerPc (s : ProxyState τ) (p : Nat) (pc : WorkerPc) : ProxyState τ :=
  s.setProxy p { s.proxies p with workerPc := pc }

def work (cfg : ProxyConfig τ) (s : ProxyState τ) (p : Nat) : Option (ProxyState τ) :=
  let m := s.queueMgr
  match (s.proxies p).workerPc with
  | .idle =>
      match (s.proxies p).workload with
      | [] => none
      | e :: rest => some (s.await cfg p e rest)
  | .waiting e k => if k < m.generation then some (s.setWorkerPc p (afterAwait cfg e)) else none
  | .storing e =>
      some ({ s with queueMgr := { m with currentEpochPushedToQueueCnt := 0 } }.setWorkerPc p
        (.adding e))
  | .adding e =>
      some ({ s with queueMgr := { m with globalProcessingEpoch := m.globalProcessingEpoch + 1 }
        }.setWorkerPc p (.releasing e))
  | .releasing e =>
      some ({ s with queueMgr := { m with currentWaits := 0, generation := m.generation + 1 }
        }.setWorkerPc p (afterAwait cfg e))
  | .emptying e =>
      if e < MAX_EPOCH then
        match s.syncEmptyBuffer cfg p e with
        | some s' => some s'
        | none => some (s.setWorkerPc p (.signalling e))
      else none
  | .signalling e =>
      let m := { m with currentEpochPushedToQueueCnt := m.currentEpochPushedToQueueCnt + 1 }
      some ({ s with queueMgr := m }.setProxy p
        { s.proxies p with workerPc := .idle, completed := (s.proxies p).completed ++ [e] })

/-! ## Steps -/

/-- One step. A proxy thread pushes transactions of its own epoch only, which it has checked before, and
    does one thing after the other. -/
def step (cfg : ProxyConfig τ) (s : ProxyState τ) (a : ProxyAction τ) : Option (ProxyState τ) :=
  if s.aborted then none
  else
    match a with
    | .push p t =>
        match (s.proxies p).pushPc with
        | .idle =>
            if p < cfg.blkSrvCnt ∧ cfg.getEpoch t = (s.proxies p).epoch ∧
                cfg.getEpoch t < MAX_EPOCH then
              some (s.pushTransactionToBuffer cfg p t)
            else none
        | _ => none
    | .continuePush p => if p < cfg.blkSrvCnt then s.continuePush cfg p else none
    | .asyncEmptyBuffer p =>
        match (s.proxies p).pushPc with
        | .idle => if p < cfg.blkSrvCnt then some (s.asyncEmptyBuffer p) else none
        | _ => none
    | .work p => if p < cfg.blkSrvCnt then s.work cfg p else none

/-- What a step can be. -/
inductive Step (cfg : ProxyConfig τ) (s : ProxyState τ) : ProxyAction τ → ProxyState τ → Prop
  | push {p : Nat} {t : τ} (hp : p < cfg.blkSrvCnt) (hpc : (s.proxies p).pushPc = .idle)
      (ht : cfg.getEpoch t = (s.proxies p).epoch) (hmax : cfg.getEpoch t < MAX_EPOCH) :
      Step cfg s (.push p t) (s.pushTransactionToBuffer cfg p t)
  | continuePush {p : Nat} {s' : ProxyState τ} (hp : p < cfg.blkSrvCnt)
      (hs : s.continuePush cfg p = some s') : Step cfg s (.continuePush p) s'
  | asyncEmptyBuffer {p : Nat} (hp : p < cfg.blkSrvCnt) (hpc : (s.proxies p).pushPc = .idle) :
      Step cfg s (.asyncEmptyBuffer p) (s.asyncEmptyBuffer p)
  | work {p : Nat} {s' : ProxyState τ} (hp : p < cfg.blkSrvCnt) (hs : s.work cfg p = some s') :
      Step cfg s (.work p) s'

theorem step_cases {cfg : ProxyConfig τ} {s s' : ProxyState τ} {a : ProxyAction τ}
    (h : step cfg s a = some s') : Step cfg s a s' := by
  unfold step at h
  split at h
  · cases h
  cases a with
  | push p t =>
      dsimp only at h
      split at h
      · rename_i hpc
        obtain ⟨⟨hp, ht, hmax⟩, hs⟩ := Option.ite_none_right_eq_some.mp h
        cases hs
        exact .push hp hpc ht hmax
      · cases h
  | continuePush p =>
      obtain ⟨hp, hs⟩ := Option.ite_none_right_eq_some.mp h
      exact .continuePush hp hs
  | asyncEmptyBuffer p =>
      dsimp only at h
      split at h
      · rename_i hpc
        obtain ⟨hp, hs⟩ := Option.ite_none_right_eq_some.mp h
        cases hs
        exact .asyncEmptyBuffer hp hpc
      · cases h
  | work p =>
      obtain ⟨hp, hs⟩ := Option.ite_none_right_eq_some.mp h
      exact .work hp hs

end ProxyState

end NeuChain.Server
