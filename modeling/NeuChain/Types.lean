/-
  The data every part of a block server shares: byte strings, transaction ids and epochs,
  read and write sets (`kv_rwset.proto`), transaction results and the transaction object
  (`transaction.h`, `mock_transaction.h`).

  `std::string` is a list of bytes. `tid_size_t` and `epoch_size_t` are 64-bit in the source;
  here they are natural numbers, since the code only compares them, counts up to a value it
  was given and takes remainders. Where a bound matters (the wire format) it is stated.

  Left out: the fields `range_queries_info` and `metadata_writes` of `KVRWSet`, which no code
  of the server touches.
-/
import Mathlib.Data.List.Basic

namespace NeuChain

abbrev Bytes := List UInt8

abbrev Tid := Nat

abbrev Epoch := Nat

/-- `MAX_EPOCH` of `compile_config.h`: the length of the vectors that are indexed by epoch. -/
def MAX_EPOCH : Nat := 10000

/-- A register of a reserve table, or an entry of the database: table name and key. -/
abbrev Cell := Bytes × Bytes

structure KVRead where
  table : Bytes
  key : Bytes
  value : Bytes
deriving DecidableEq, Repr

structure KVWrite where
  table : Bytes
  key : Bytes
  value : Bytes
  isDelete : Bool := false
deriving DecidableEq, Repr

structure KVRWSet where
  reads : List KVRead := []
  writes : List KVWrite := []
deriving DecidableEq, Repr

def KVRead.cell (r : KVRead) : Cell := (r.table, r.key)

def KVWrite.cell (w : KVWrite) : Cell := (w.table, w.key)

/-- `enum class TransactionResult`, in the order of the source. A value that comes from the
    wire through `static_cast` may be any other number. -/
inductive TransactionResult where
  | commit
  | pending
  | abort
  | abortNoRetry
  | other (code : UInt32)
deriving DecidableEq, Repr

/-- `static_cast<uint32_t>(result)`. -/
def TransactionResult.toNat : TransactionResult → Nat
  | .commit => 0
  | .pending => 1
  | .abort => 2
  | .abortNoRetry => 3
  | .other code => code.toNat

/-- `static_cast<TransactionResult>(code)`. -/
def TransactionResult.ofNat : Nat → TransactionResult
  | 0 => .commit
  | 1 => .pending
  | 2 => .abort
  | 3 => .abortNoRetry
  | code => .other (UInt32.ofNat code)

/-- `TransactionPayload` of `transaction.proto`. -/
structure TransactionPayload where
  header : Bytes := []
  payload : Bytes := []
  nonce : UInt64 := 0
  digest : Bytes := []
deriving DecidableEq, Repr

/-- `MockTransaction`. The defaults are those of its constructor. -/
structure Transaction where
  epoch : Epoch := 0
  tid : Tid := 0
  readOnlyFlag : Bool := true
  kvRWSet : KVRWSet := {}
  transactionResult : TransactionResult := .pending
  transactionPayload : TransactionPayload := {}
deriving DecidableEq, Repr

def Transaction.setTransactionID (t : Transaction) (tid : Tid) : Transaction := { t with tid := tid }

def Transaction.setTransactionResult (t : Transaction) (r : TransactionResult) : Transaction :=
  { t with transactionResult := r }

end NeuChain
