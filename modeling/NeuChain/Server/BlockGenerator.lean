/-
  `BlockGeneratorImpl::generateBlockBody` and the queue in front of it.

  `addCommittedTransaction` pushes finished transactions into a `std::priority_queue` ordered by
  id, largest on top. The queue is a list kept in that order: what `top` and `pop` return one
  after the other. Only the order of transactions with equal ids would depend on the heap.

  `generateBlockBody` is `none` where a `CHECK` fails or, with no transaction at all, the
  Merkle root is read through a null pointer.

  * `pushAll_perm`: with distinct ids the queue does not depend on the order of arrival.
-/
import NeuChain.MerkleTree
import Mathlib.Data.List.Sort

namespace NeuChain.Server

open NeuChain.Merkle

structure BlockHeader where
  number : Epoch := 0
  previousHash : Bytes := []
  dataHash : Bytes := []
deriving DecidableEq, Repr

/-- `Block` of `block.proto`. -/
structure Block where
  header : BlockHeader := {}
  data : List Bytes := []
  metadata : List Bytes := []
deriving DecidableEq, Repr

/-- Largest id first. -/
def popsBefore (a b : Transaction) : Prop := b.tid ≤ a.tid

instance : DecidableRel popsBefore := fun a b => inferInstanceAs (Decidable (b.tid ≤ a.tid))

instance : Std.Total popsBefore := ⟨fun a b => Nat.le_total b.tid a.tid⟩

instance : IsTrans Transaction popsBefore := ⟨fun _ _ _ hab hbc => Nat.le_trans hbc hab⟩

abbrev TxPriorityQueue := List Transaction

/-- `addCommittedTransaction`. -/
def addCommittedTransaction (queue : TxPriorityQueue) (t : Transaction) : TxPriorityQueue :=
  queue.orderedInsert popsBefore t

/-- The queue after the finished transactions arrived in this order. -/
def pushAll (arrival : List Transaction) : TxPriorityQueue :=
  arrival.foldl addCommittedTransaction []

/-- The block for early responses, and the block itself. -/
def generateBlockBody (sha : SHA256) (msg : Messages) (rsaEncrypt : Bytes → Option Bytes)
    (epoch : Epoch) (queue : TxPriorityQueue) : Option (Block × Block) := do
  let partialBlock : Block :=
    { header := { number := epoch }, data := queue.map Transaction.serializeResultToString }
  let data := queue.map (Transaction.serializeToString sha msg)
  let results := queue.map fun t => UInt8.ofNat t.transactionResult.toNat
  let mt ← mtOfList sha (data.map sha.hash)
  let merkleRoot ← mtGetRoot mt
  let signature ← rsaEncrypt merkleRoot
  pure (partialBlock, { data := data, metadata := [results, merkleRoot, signature] })

/-! ## The queue erases arrival order -/

theorem pushAll_perm_arrival (arrival queue : List Transaction) :
    (arrival.foldl addCommittedTransaction queue).Perm (arrival ++ queue) := by
  induction arrival generalizing queue with
  | nil => rfl
  | cons t arrival ih =>
      rw [List.foldl_cons]
      refine (ih _).trans ?_
      have hins : (addCommittedTransaction queue t).Perm (t :: queue) :=
        List.perm_orderedInsert popsBefore t queue
      exact (hins.append_left arrival).trans List.perm_middle

theorem pushAll_sorted (arrival queue : List Transaction) (h : queue.Pairwise popsBefore) :
    (arrival.foldl addCommittedTransaction queue).Pairwise popsBefore := by
  induction arrival generalizing queue with
  | nil => exact h
  | cons t arrival ih => exact ih _ (h.orderedInsert t queue)

/-- With distinct ids, two orders of arrival fill the queue alike. -/
theorem pushAll_perm {a b : List Transaction} (hp : a.Perm b)
    (hnd : (a.map Transaction.tid).Nodup) : pushAll a = pushAll b := by
  have ha := pushAll_perm_arrival a []
  have hb := pushAll_perm_arrival b []
  rw [List.append_nil] at ha hb
  refine (ha.trans (hp.trans hb.symm)).eq_of_pairwise ?_ (pushAll_sorted a [] .nil)
    (pushAll_sorted b [] .nil)
  intro t u ht hu htu hut
  have htid : t.tid = u.tid := Nat.le_antisymm hut htu
  have hua : u ∈ a := hp.mem_iff.mpr (hb.mem_iff.mp hu)
  exact List.inj_on_of_nodup_map hnd (ha.mem_iff.mp ht) hua htid

/-- The two blocks have the transactions in the order of the queue. -/
theorem generateBlockBody_spec {sha : SHA256} {msg : Messages} {rsaEncrypt : Bytes → Option Bytes}
    {epoch : Epoch} {queue : TxPriorityQueue} {partialBlock body : Block}
    (h : generateBlockBody sha msg rsaEncrypt epoch queue = some (partialBlock, body)) :
    partialBlock = { header := { number := epoch }
                     data := queue.map Transaction.serializeResultToString } ∧
      body.data = queue.map (Transaction.serializeToString sha msg) ∧
      ∃ root signature, rsaEncrypt root = some signature ∧ body.metadata =
        [queue.map fun t => UInt8.ofNat t.transactionResult.toNat, root, signature] := by
  simp only [generateBlockBody, bind, Option.bind_eq_some_iff, pure, Option.some.injEq,
    Prod.mk.injEq] at h
  obtain ⟨-, -, root, -, signature, hsign, rfl, rfl⟩ := h
  exact ⟨rfl, rfl, root, signature, hsign, rfl⟩

/-- What a block says about its transactions comes from the queue alone; the server's key
    only signs it. -/
theorem generateBlockBody_content {sha : SHA256} {msg : Messages}
    {rsaEncrypt rsaEncrypt' : Bytes → Option Bytes} {epoch : Epoch} {queue : TxPriorityQueue}
    {b b' : Block × Block} (h : generateBlockBody sha msg rsaEncrypt epoch queue = some b)
    (h' : generateBlockBody sha msg rsaEncrypt' epoch queue = some b') :
    b.1 = b'.1 ∧ b.2.data = b'.2.data ∧ b.2.metadata.take 2 = b'.2.metadata.take 2 := by
  simp only [generateBlockBody, bind, Option.bind_eq_some_iff, pure, Option.some.injEq] at h h'
  obtain ⟨mt, hmt, root, hroot, sig, -, rfl⟩ := h
  obtain ⟨mt', hmt', root', hroot', sig', -, rfl⟩ := h'
  rw [hmt] at hmt'
  cases hmt'
  rw [hroot] at hroot'
  cases hroot'
  exact ⟨rfl, rfl, rfl⟩

end NeuChain.Server
