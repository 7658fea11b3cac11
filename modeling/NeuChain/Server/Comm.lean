/-
  The messages of `comm.proto` that servers exchange about batches and epochs.
-/
import NeuChain.Types

namespace NeuChain.Server

open NeuChain

/-- `TransactionsWithProof::Type`. The enumeration is open on the wire. -/
inductive ProofType where
  | tx
  | con
  | heartbeat
  | malicious
  | other (code : UInt32)
deriving DecidableEq, Repr

structure TransactionsWithProof where
  epoch : Epoch := 0
  type : ProofType := .tx
  proof : Bytes := []
  ip : Bytes := []
  data : List Bytes := []
deriving DecidableEq, Repr

structure EpochRequest where
  requestBatchSize : Nat := 0
  batchHash : Bytes := []
deriving DecidableEq, Repr

/-- What the epoch server has signed for a batch. -/
structure EpochResponse where
  epoch : Epoch := 0
  request : EpochRequest := {}
  nonce : Nat := 0
  signature : Bytes := []
deriving DecidableEq, Repr

end NeuChain.Server
