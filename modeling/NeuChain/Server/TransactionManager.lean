/-
  `TransactionManagerImpl`, between the comm module, the coordinator and the block generator.

  The thread of `run` fetches the transactions of one epoch after the other, keeps them in
  `epochTxBuffer` and sends them to the coordinator. The coordinator's thread calls
  `epochFinishedCallback`, which takes them out again and gives them to the block generator. With
  `reusingAbortTransaction` an aborted one is reset and put into the next epoch instead: the
  callback leaves it in `reuseTxWrapper`, and `run` sends it after the transactions of the next epoch.

  A transaction is known by its position in the sequence that comm delivers, which stands for the
  pointer; `object` is what the pointers refer to.

  Comm and the coordinator are as the manager sees them. `getTransaction` returns some
  of the next transactions if they have the epoch asked for, a null pointer if the next one has another
  epoch, and waits if there is none. The coordinator sets the results of what it was sent for its
  epoch, and calls back when all of them are final and something of a later epoch has been sent.

  Threads interleave at every access to what they share. `ConcurrentQueue` has several producers, so
  `try_dequeue` may return any element. `sent`, `blocks` and `outcome` record what happened.

  Left out: waiting for the block in the synchronous mode, and `clearTransactionForEpoch`, which
  frees transactions of saved blocks.
-/
import NeuChain.Lib.Run
import NeuChain.Types
import Mathlib.Logic.Function.Basic

namespace NeuChain

def Transaction.resetTransaction (t : Transaction) : Transaction :=
  { t with epoch := 0, kvRWSet := {}, transactionResult := .pending }

def TransactionResult.isFinal (r : TransactionResult) : Bool :=
  r = .commit ∨ r = .abort ∨ r = .abortNoRetry

namespace Server

open Lib

/-- A position in the sequence of transactions that comm delivers. -/
abbrev TxPtr := Nat

/-- `TR_MGR_GET_BATCH_MAX_SIZE`. -/
def trMgrGetBatchMaxSize : Nat := 5000

structure TrManagerConfig where
  categorizeTransaction : Bool
  reusingAbortTransaction : Bool
deriving DecidableEq, Repr

/-- Where the thread of `run` is. -/
inductive FetchState where
  | fetching
  /-- `todo` is still to be enqueued, then `trWrapper` is sent. -/
  | adding (todo trWrapper : List TxPtr)
  /-- Waits for `epochFinishedSignal`. -/
  | waiting
deriving DecidableEq, Repr

/-- Where the coordinator's thread is, if it is in `epochFinishedCallback`. -/
inductive CallbackState where
  | executing
  | categorizing (trWrapper : List TxPtr)
  | generating
  | finishing
deriving DecidableEq, Repr

structure TransactionManagerImpl where
  /-- What comm has not delivered yet. -/
  incoming : List TxPtr
  object : TxPtr → Transaction
  /-- The local of `run`. -/
  currentEpoch : Nat
  fetch : FetchState := .fetching
  epochTxBuffer : Nat → List TxPtr := fun _ => []
  reuseTxWrapper : Option (List TxPtr) := none
  /-- Also the epoch of the coordinator. -/
  processingEpoch : Nat
  callback : CallbackState := .executing
  /-- What was given to `addCommittedTransaction` since the last block. -/
  committed : List TxPtr := []
  /-- What was sent to the coordinator, as it was then. -/
  sent : List (TxPtr × Transaction) := []
  /-- The calls of `generateBlock`. -/
  blocks : List (Nat × List TxPtr) := []
  /-- The result with which a transaction left an epoch. -/
  outcome : Nat → TxPtr → Option TransactionResult := fun _ _ => none

inductive ManagerAction where
  /-- `getTransaction` returns this many transactions. -/
  | getTransaction (n : Nat)
  /-- It returns a null pointer, and `run` goes on to the next epoch. -/
  | nextEpoch
  | enqueue
  | sendTransaction
  /-- The wait is over. -/
  | resume
  /-- A worker executes or commits a transaction. -/
  | execute (p : TxPtr) (rwSet : KVRWSet) (result : TransactionResult)
  | epochFinishedCallback
  /-- `try_dequeue` returns the `i`-th element. -/
  | tryDequeue (i : Nat)
  | endOfQueue
  | generateBlock
  | finish
deriving DecidableEq, Repr

namespace TransactionManagerImpl

/-- `sendTransactionHandle`. -/
def sendTransactionHandle (m : TransactionManagerImpl) (trWrapper : List TxPtr) :
    TransactionManagerImpl :=
  { m with sent := m.sent ++ trWrapper.map fun p => (p, m.object p) }

/-- What `categorizeEpoch` or `nonCategorizeEpoch` does with a transaction it has taken from the
    queue. -/
def categorize (cfg : TrManagerConfig) (m : TransactionManagerImpl) (trWrapper : List TxPtr)
    (p : TxPtr) : TransactionManagerImpl :=
  let commit : TransactionManagerImpl :=
    { m with committed := m.committed ++ [p], callback := .categorizing trWrapper }
  if cfg.categorizeTransaction ∨ cfg.reusingAbortTransaction then
    match (m.object p).transactionResult with
    | .abort =>
        if !cfg.reusingAbortTransaction then commit
        else
          let next := m.processingEpoch + 1
          { m with
            object := Function.update m.object p
              { (m.object p).resetTransaction with epoch := next }
            epochTxBuffer := Function.update m.epochTxBuffer next (m.epochTxBuffer next ++ [p])
            callback := .categorizing (trWrapper ++ [p]) }
    | .commit => commit
    | .abortNoRetry => commit
    | _ => { m with callback := .categorizing trWrapper }
  else commit

/-- The coordinator is done with its epoch. -/
def epochIsOver (m : TransactionManagerImpl) : Bool :=
  (m.sent.all fun x => x.2.epoch ≠ m.processingEpoch ∨
    (m.object x.1).transactionResult.isFinal) ∧ m.sent.any fun x => m.processingEpoch < x.2.epoch

def step (cfg : TrManagerConfig) (m : TransactionManagerImpl) :
    ManagerAction → Option TransactionManagerImpl
  | .getTransaction n =>
      let trWrapper := m.incoming.take n
      if m.fetch = .fetching ∧ 0 < n ∧ n ≤ trMgrGetBatchMaxSize ∧ n ≤ m.incoming.length ∧
          trWrapper.all (fun p => (m.object p).epoch = m.currentEpoch) then
        some { m with incoming := m.incoming.drop n, fetch := .adding trWrapper trWrapper }
      else none
  | .nextEpoch =>
      if m.fetch = .fetching ∧
          m.incoming.head?.any (fun p => (m.object p).epoch ≠ m.currentEpoch) then
        some { m with
          currentEpoch := m.currentEpoch + 1
          fetch := if cfg.reusingAbortTransaction then .waiting else .fetching }
      else none
  | .enqueue =>
      match m.fetch with
      | .adding (p :: todo) trWrapper =>
          some { m with
            epochTxBuffer := Function.update m.epochTxBuffer m.currentEpoch
              (m.epochTxBuffer m.currentEpoch ++ [p])
            fetch := .adding todo trWrapper }
      | _ => none
  | .sendTransaction =>
      match m.fetch with
      | .adding [] trWrapper => some { m.sendTransactionHandle trWrapper with fetch := .fetching }
      | _ => none
  | .resume =>
      if m.fetch = .waiting ∧ m.currentEpoch ≤ m.processingEpoch + 1 then
        match m.reuseTxWrapper with
        | none => some { m with fetch := .fetching }
        | some trWrapper =>
            some { m.sendTransactionHandle trWrapper with
              fetch := .fetching, reuseTxWrapper := none }
      else none
  | .execute p rwSet result =>
      if m.callback = .executing ∧ m.sent.any (fun x => x.1 = p ∧ x.2.epoch = m.processingEpoch) then
        some { m with
          object := Function.update m.object p
            { m.object p with kvRWSet := rwSet, transactionResult := result } }
      else none
  | .epochFinishedCallback =>
      if m.callback = .executing ∧ m.epochIsOver then some { m with callback := .categorizing [] }
      else none
  | .tryDequeue i =>
      match m.callback, (m.epochTxBuffer m.processingEpoch)[i]? with
      | .categorizing trWrapper, some p =>
          let m := { m with
            epochTxBuffer := Function.update m.epochTxBuffer m.processingEpoch
              ((m.epochTxBuffer m.processingEpoch).eraseIdx i)
            outcome := Function.update m.outcome m.processingEpoch
              (Function.update (m.outcome m.processingEpoch) p
                (some (m.object p).transactionResult)) }
          some (m.categorize cfg trWrapper p)
      | _, _ => none
  | .endOfQueue =>
      match m.callback, m.epochTxBuffer m.processingEpoch with
      | .categorizing trWrapper, [] =>
          some { m with
            reuseTxWrapper :=
              if cfg.categorizeTransaction ∨ cfg.reusingAbortTransaction then some trWrapper
              else m.reuseTxWrapper
            callback := .generating }
      | _, _ => none
  | .generateBlock =>
      if m.callback = .generating then
        some { m with
          blocks := m.blocks ++ [(m.processingEpoch, m.committed)]
          committed := []
          callback := .finishing }
      else none
  | .finish =>
      if m.callback = .finishing then
        some { m with
          epochTxBuffer := Function.update m.epochTxBuffer m.processingEpoch []
          processingEpoch := m.processingEpoch + 1
          callback := .executing }
      else none

/-- `setBlockGenerator` has set the epoch to start with; comm will deliver `stream`. -/
def start (stream : List Transaction) (startupEpoch : Nat) : TransactionManagerImpl :=
  { incoming := List.range stream.length
    object := fun p => stream.getD p {}
    currentEpoch := startupEpoch
    processingEpoch := startupEpoch }

end TransactionManagerImpl

end Server

end NeuChain
