/-
  From finished transactions to saved blocks: `BlockGeneratorImpl` with the thread that calls
  `generateBlock`, the pool that builds the bodies, the thread of `run` that makes the headers and
  saves the blocks, and `BlockStorageToFile`.

  The number of the current block is kept in three places: a static of `generateBlock`, a local of
  `run`, and the storage. The hash of the block before is kept in a static of `generateBlockHeader`
  and compared with what the storage has.

  A task of the pool touches nothing but its own queue until it puts the block into `blockBuffer`, so
  it is one step, taken in any order. The thread of `run` makes three: the header, the file of
  the block, and `block_num.txt`. A `CHECK` that fails sets `crashed`, after which nothing happens.
  `restart` is a new process on the same files.

  Files are read as they were written, and a block parses back from what it was serialized to. A
  transaction is a value here: nobody changes one that is in a queue of the block generator.

  Left out: partial blocks, the broadcaster, and the check of signatures of other servers.
-/
import NeuChain.Lib.Run
import NeuChain.MerkleRoot
import NeuChain.Server.BlockGenerator

namespace NeuChain.Server

open NeuChain Lib Merkle

/-! ## Storage -/

structure BlockStorageToFile where
  /-- The files `<number>.bin`. -/
  blockFile : Nat → Option Block := fun _ => none
  /-- The file `block_num.txt`. -/
  blockNum : Nat := 0
  bufferedEpochFromFile : Nat := 0

namespace BlockStorageToFile

/-- The constructor, on the files an earlier process has left. -/
def construct (storage : BlockStorageToFile) (resetEpoch : Bool) : BlockStorageToFile :=
  if resetEpoch then { storage with blockNum := 0, bufferedEpochFromFile := 0 }
  else { storage with bufferedEpochFromFile := storage.blockNum }

def getLatestSavedEpoch (storage : BlockStorageToFile) : Nat := storage.bufferedEpochFromFile

def insertBlock (storage : BlockStorageToFile) (block : Block) : BlockStorageToFile :=
  { storage with
    blockFile := Function.update storage.blockFile block.header.number (some block)
    bufferedEpochFromFile := block.header.number }

def updateLatestSavedEpoch (storage : BlockStorageToFile) : BlockStorageToFile :=
  { storage with blockNum := storage.bufferedEpochFromFile }

def appendBlock (storage : BlockStorageToFile) (block : Block) : BlockStorageToFile :=
  (storage.insertBlock block).updateLatestSavedEpoch

def loadBlock (storage : BlockStorageToFile) (epoch : Nat) : Option Block :=
  if storage.bufferedEpochFromFile < epoch then none else storage.blockFile epoch

end BlockStorageToFile

/-! ## The block generator -/

/-- Where the thread of `run` is: waiting for the next body, or about to write the block, or about
    to write its number. -/
inductive RunState where
  | waiting
  | inserting (block : Block)
  | updating
deriving DecidableEq, Repr

structure BlockGeneratorImpl where
  pendingTransactionQueue : TxPriorityQueue := []
  /-- The static `currentBlockEpoch` of `generateBlock`, which its first call initialises. -/
  bodyEpoch : Option Nat := none
  /-- The tasks of the pool. -/
  workers : List (Nat × TxPriorityQueue) := []
  blockBuffer : Nat → Option Block := fun _ => none
  /-- The local `currentBlockEpoch` of `run`. -/
  currentBlockEpoch : Nat
  runState : RunState := .waiting
  /-- The static of `generateBlockHeader`. -/
  previousDataHash : Bytes := []
  storage : BlockStorageToFile
  crashed : Bool := false

/-- `generateBlockHeader` and the new value of its static; `none` where a `CHECK` fails. -/
def generateBlockHeader (sha : SHA256) (storage : BlockStorageToFile) (previousDataHash : Bytes)
    (block : Block) : Option (Block × Bytes) := do
  let results ← block.metadata[0]?
  let merkleRoot ← block.metadata[1]?
  let hashResult := sha.hash (results ++ merkleRoot)
  let lastEpoch := storage.getLatestSavedEpoch
  let header := { block.header with dataHash := hashResult, number := lastEpoch + 1 }
  if lastEpoch > 0 then
    let previous ← storage.loadBlock lastEpoch
    if previous.header.dataHash = previousDataHash then
      some ({ block with header := { header with previousHash := previousDataHash } }, hashResult)
    else none
  else some ({ block with header := header }, hashResult)

inductive BlockAction where
  | addCommittedTransaction (t : Transaction)
  | generateBlock
  /-- The `i`-th task of the pool finishes. -/
  | generateBlockBody (i : Nat)
  | generateBlockHeader
  | insertBlock
  | updateLatestSavedEpoch

/-- What the pool and the thread of `run` do, as opposed to the caller. -/
def BlockAction.background : BlockAction → Bool
  | .addCommittedTransaction _ => false
  | .generateBlock => false
  | _ => true

namespace BlockGeneratorImpl

/-- A new process on these files. -/
def start (storage : BlockStorageToFile) (resetEpoch : Bool) : BlockGeneratorImpl :=
  let storage := storage.construct resetEpoch
  { storage := storage, currentBlockEpoch := storage.getLatestSavedEpoch + 1 }

def generateBlock (g : BlockGeneratorImpl) : BlockGeneratorImpl :=
  let epoch := g.bodyEpoch.getD g.storage.getLatestSavedEpoch + 1
  { g with
    bodyEpoch := some epoch
    pendingTransactionQueue := []
    workers := g.workers ++ [(epoch, g.pendingTransactionQueue)] }

variable (sha : SHA256) (msg : Messages) (sign : Bytes → Bytes)

/-- A task of the pool: the body, put into the buffer. -/
def body (g : BlockGeneratorImpl) (i : Nat) : Option BlockGeneratorImpl :=
  match g.workers[i]? with
  | none => none
  | some (epoch, queue) =>
      match generateBlockBody sha msg (fun root => some (sign root)) epoch queue with
      | none => some { g with crashed := true }
      | some (_, block) =>
          some { g with
            workers := g.workers.eraseIdx i
            blockBuffer := Function.update g.blockBuffer epoch (some block) }

/-- The next body, taken from the buffer and given its header. -/
def header (g : BlockGeneratorImpl) : Option BlockGeneratorImpl :=
  match g.runState, g.blockBuffer g.currentBlockEpoch with
  | .waiting, some block =>
      match Server.generateBlockHeader sha g.storage g.previousDataHash block with
      | none => some { g with crashed := true }
      | some (block, hashResult) =>
          some { g with
            blockBuffer := Function.update g.blockBuffer g.currentBlockEpoch none
            previousDataHash := hashResult
            runState := .inserting block }
  | _, _ => none

def step (g : BlockGeneratorImpl) : BlockAction → Option BlockGeneratorImpl
  | .addCommittedTransaction t =>
      if g.crashed then none
      else some { g with
        pendingTransactionQueue := addCommittedTransaction g.pendingTransactionQueue t }
  | .generateBlock => if g.crashed then none else some g.generateBlock
  | .generateBlockBody i => if g.crashed then none else g.body sha msg sign i
  | .generateBlockHeader => if g.crashed then none else g.header sha
  | .insertBlock =>
      if g.crashed then none
      else
        match g.runState with
        | .inserting block =>
            some { g with storage := g.storage.insertBlock block, runState := .updating }
        | _ => none
  | .updateLatestSavedEpoch =>
      if g.crashed then none
      else
        match g.runState with
        | .updating =>
            some { g with
              storage := g.storage.updateLatestSavedEpoch
              currentBlockEpoch := g.currentBlockEpoch + 1
              runState := .waiting }
        | _ => none

/-- The process is stopped at any point and started again. -/
def restart (g : BlockGeneratorImpl) (resetEpoch : Bool) : BlockGeneratorImpl :=
  start g.storage resetEpoch

end BlockGeneratorImpl

/-! ## The calls of a run -/

/-- The transactions of each call of `generateBlock`, and those added since the last one. -/
def recordCall (past : List (List Transaction) × List Transaction) :
    BlockAction → List (List Transaction) × List Transaction
  | .addCommittedTransaction t => (past.1, past.2 ++ [t])
  | .generateBlock => (past.1 ++ [past.2], [])
  | _ => past

def recordCalls (actions : List BlockAction) : List (List Transaction) × List Transaction :=
  actions.foldl recordCall ([], [])

/-- The transactions added before each call of `generateBlock`, since the call before it. -/
def calls (actions : List BlockAction) : List (List Transaction) := (recordCalls actions).1

/-- Those added after the last call. -/
def uncalled (actions : List BlockAction) : List Transaction := (recordCalls actions).2

theorem recordCalls_snoc (actions : List BlockAction) (a : BlockAction) :
    recordCalls (actions ++ [a]) = recordCall (recordCalls actions) a := by
  unfold recordCalls
  rw [List.foldl_append]
  rfl

theorem recordCall_background {a : BlockAction} (ha : a.background = true)
    (past : List (List Transaction) × List Transaction) : recordCall past a = past := by
  cases a with
  | addCommittedTransaction t => cases ha
  | generateBlock => cases ha
  | _ => rfl

/-! ## What a step does -/

namespace BlockGeneratorImpl

variable {sha : SHA256} {msg : Messages} {sign : Bytes → Bytes} {g g' : BlockGeneratorImpl}
  {a : BlockAction} {block : Block}

/-- The block of `generateBlockBody`, which does not depend on the epoch. -/
def bodyOf (sha : SHA256) (msg : Messages) (sign : Bytes → Bytes) (queue : TxPriorityQueue) :
    Option Block :=
  let data := queue.map (Transaction.serializeToString sha msg)
  ((mtOfList sha (data.map sha.hash)).bind mtGetRoot).map fun merkleRoot =>
    { data := data
      metadata := [queue.map fun t => UInt8.ofNat t.transactionResult.toNat, merkleRoot,
        sign merkleRoot] }

theorem generateBlockBody_snd (epoch : Nat) (queue : TxPriorityQueue) :
    (generateBlockBody sha msg (fun root => some (sign root)) epoch queue).map Prod.snd =
      bodyOf sha msg sign queue := by
  unfold bodyOf generateBlockBody
  dsimp only
  cases mtOfList sha ((queue.map (Transaction.serializeToString sha msg)).map sha.hash) with
  | none => rfl
  | some mt =>
      simp only [Option.bind_eq_bind, Option.bind_some]
      cases mtGetRoot mt <;> rfl

/-- Exactly queues that are neither empty nor too long have a body. -/
theorem bodyOf_isSome (queue : TxPriorityQueue) :
    (bodyOf sha msg sign queue).isSome = true ↔
      queue ≠ [] ∧ queue.length ≤ mtAlMaxElems := by
  unfold bodyOf
  rw [Option.isSome_map, root_isSome_iff]
  simp only [List.length_map, ne_eq, List.map_eq_nil_iff]

theorem body_cases {i : Nat} (h : g.body sha msg sign i = some g') :
    ∃ epoch queue, g.workers[i]? = some (epoch, queue) ∧
      ((bodyOf sha msg sign queue = none ∧ g' = { g with crashed := true }) ∨
        ∃ block, bodyOf sha msg sign queue = some block ∧ g' = { g with
          workers := g.workers.eraseIdx i
          blockBuffer := Function.update g.blockBuffer epoch (some block) }) := by
  unfold body at h
  split at h
  · cases h
  · rename_i epoch queue hget
    refine ⟨epoch, queue, hget, ?_⟩
    rw [← generateBlockBody_snd epoch queue]
    split at h
    · rename_i hbody
      cases h
      rw [hbody]
      exact Or.inl ⟨rfl, rfl⟩
    · rename_i partialBlock block hbody
      cases h
      rw [hbody]
      exact Or.inr ⟨block, rfl, rfl⟩

theorem header_cases (h : g.header sha = some g') :
    g.runState = .waiting ∧ ∃ block, g.blockBuffer g.currentBlockEpoch = some block ∧
      ((Server.generateBlockHeader sha g.storage g.previousDataHash block = none ∧
          g' = { g with crashed := true }) ∨
        ∃ block' hashResult,
          Server.generateBlockHeader sha g.storage g.previousDataHash block =
            some (block', hashResult) ∧
          g' = { g with
            blockBuffer := Function.update g.blockBuffer g.currentBlockEpoch none
            previousDataHash := hashResult
            runState := .inserting block' }) := by
  unfold header at h
  split at h
  · rename_i block hwait hbuf
    refine ⟨hwait, block, hbuf, ?_⟩
    split at h
    · rename_i hnone
      cases h
      exact Or.inl ⟨hnone, rfl⟩
    · rename_i block' hashResult hsome
      cases h
      exact Or.inr ⟨block', hashResult, hsome, rfl⟩
  · cases h

theorem not_crashed_of_step (h : g.step sha msg sign a = some g') : g.crashed = false := by
  cases hc : g.crashed with
  | false => rfl
  | true =>
      cases a <;> simp [step, hc] at h

/-- What a step can be. -/
inductive Step (sha : SHA256) (msg : Messages) (sign : Bytes → Bytes) (g : BlockGeneratorImpl) :
    BlockAction → BlockGeneratorImpl → Prop
  | add (t : Transaction) : Step sha msg sign g (.addCommittedTransaction t)
      { g with
        pendingTransactionQueue := addCommittedTransaction g.pendingTransactionQueue t }
  | call : Step sha msg sign g .generateBlock g.generateBlock
  | body {i : Nat} {g' : BlockGeneratorImpl} (h : g.body sha msg sign i = some g') :
      Step sha msg sign g (.generateBlockBody i) g'
  | header {g' : BlockGeneratorImpl} (h : g.header sha = some g') :
      Step sha msg sign g .generateBlockHeader g'
  | insert {block : Block} (hrun : g.runState = .inserting block) :
      Step sha msg sign g .insertBlock
        { g with storage := g.storage.insertBlock block, runState := .updating }
  | update (hrun : g.runState = .updating) : Step sha msg sign g .updateLatestSavedEpoch
      { g with
        storage := g.storage.updateLatestSavedEpoch
        currentBlockEpoch := g.currentBlockEpoch + 1
        runState := .waiting }

theorem step_cases (h : g.step sha msg sign a = some g') : Step sha msg sign g a g' := by
  have halive : ¬ g.crashed = true := by
    rw [not_crashed_of_step h]
    exact Bool.false_ne_true
  cases a with
  | addCommittedTransaction t =>
      simp only [step, if_neg halive] at h
      cases h
      exact .add t
  | generateBlock =>
      simp only [step, if_neg halive] at h
      cases h
      exact .call
  | generateBlockBody i =>
      simp only [step, if_neg halive] at h
      exact .body h
  | generateBlockHeader =>
      simp only [step, if_neg halive] at h
      exact .header h
  | insertBlock =>
      simp only [step, if_neg halive] at h
      split at h
      · rename_i block hrun
        cases h
        exact .insert hrun
      · cases h
  | updateLatestSavedEpoch =>
      simp only [step, if_neg halive] at h
      split at h
      · rename_i hrun
        cases h
        exact .update hrun
      · cases h

/-- What the guard of every step asks. -/
theorem not_crashed (h : g.crashed = false) : ¬ g.crashed = true := by
  rw [h]
  exact Bool.false_ne_true

end BlockGeneratorImpl

end NeuChain.Server
