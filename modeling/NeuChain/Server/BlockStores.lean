/-
  The two stores for blocks: `BlockStorageToFile`, with a file per block, and `BlockStorageToDB`,
  with a map in memory (`USING_MEMORY_BLOCK`).

  `insertBlock` takes the number of a block as `int64_t`, `loadBlock` takes it as `uint64_t`: a
  file is named by the signed number and looked for by the unsigned one, and a key of the map is
  converted back. Both stores let a number pass that is not above the latest one. After that the
  file store opens a file that may not exist, and the map is read through what `find` returns.

  protobuf refuses to serialize a block of 2 GiB or more. Then `SerializeToOstream` returns false,
  and `SerializeAsString` returns an empty string that nobody looks at.

  Both stores are compared with a list of blocks (`FileHolds`, `DBHolds`). The store of numbers and
  blocks that the block generator uses is what the file store amounts to (`toBlocks`), and the store
  that writes step by step gives its answers between two blocks (`loadBlock_storageProcess`).

  * `stores_agree_iff`: they give the same answers to consecutive blocks and any queries if and only
    if nobody asks for block 0, no block is too large, and no block from number `2^63` on is asked
    for.
-/
import NeuChain.Server.BlockChain
import NeuChain.Server.CrashConsistency

namespace NeuChain.Server.BlockStores

open NeuChain Lib

/-! ## The model -/

/-- A conversion to `int64_t`. -/
def int64 (n : Nat) : Int := (n : Int).bmod (2 ^ 64)

/-- A conversion to `uint64_t`. -/
def uint64 (z : Int) : Nat := (z % 2 ^ 64).toNat

inductive BlockCall where
  | appendBlock (block : Block)
  | loadBlock (epoch : Nat)
deriving DecidableEq, Repr

inductive BlockResult where
  | appended (success : Bool)
  | loaded (block : Option Block)
  /-- `db.find(epoch)->second` where `find` has returned `end()`. -/
  | missingEntry
deriving DecidableEq, Repr

/-- protobuf serializes the block. -/
def Fits (block : Block) : Prop := block.serializeAsString.length < 2 ^ 31

instance (block : Block) : Decidable (Fits block) :=
  inferInstanceAs (Decidable (block.serializeAsString.length < 2 ^ 31))

structure BlockStorageToFile where
  /-- The files `<number>.bin`. -/
  binFile : Int → Option Bytes := fun _ => none
  /-- The file `block_num.txt`. -/
  blockNum : Option Bytes := none
  bufferedEpochFromFile : Nat := 0

namespace BlockStorageToFile

/-- The constructor; `garbage` is what it finds in `epoch` if the file has no number. -/
def construct (s : BlockStorageToFile) (resetEpoch : Bool) (garbage : Nat) : BlockStorageToFile :=
  if resetEpoch then
    { s with blockNum := some (Decimal.natToString 0), bufferedEpochFromFile := 0 }
  else { s with bufferedEpochFromFile := extractEpoch garbage s.blockNum }

def insertBlock (s : BlockStorageToFile) (block : Block) : BlockStorageToFile × Bool :=
  let epoch := int64 block.header.number
  -- opening the file for output has made it empty
  let s := { s with binFile := Function.update s.binFile epoch (some []) }
  if Fits block then
    ({ s with
        binFile := Function.update s.binFile epoch (some block.serializeAsString)
        bufferedEpochFromFile := uint64 epoch }, true)
  else (s, false)

def updateLatestSavedEpoch (s : BlockStorageToFile) : BlockStorageToFile × Bool :=
  ({ s with blockNum := some (Decimal.natToString s.bufferedEpochFromFile) }, true)

def appendBlock (s : BlockStorageToFile) (block : Block) : BlockStorageToFile × Bool :=
  let (s, inserted) := s.insertBlock block
  if !inserted then (s, false) else s.updateLatestSavedEpoch

def loadBlock (s : BlockStorageToFile) (epoch : Nat) : Option Block :=
  if s.bufferedEpochFromFile < epoch then none
  else (s.binFile epoch).bind Block.parseFromString

/-- A call, what it returns, and `getLatestSavedEpoch()` after it. -/
def call (s : BlockStorageToFile) : BlockCall → BlockStorageToFile × BlockResult × Nat
  | .appendBlock block =>
      let (s, success) := s.appendBlock block
      (s, .appended success, s.bufferedEpochFromFile)
  | .loadBlock epoch => (s, .loaded (s.loadBlock epoch), s.bufferedEpochFromFile)

/-- A new process on a store without blocks. -/
def empty (resetEpoch : Bool) (garbage : Nat) : BlockStorageToFile :=
  ({ blockNum := some (Decimal.natToString 0) } : BlockStorageToFile).construct resetEpoch garbage

end BlockStorageToFile

structure BlockStorageToDB where
  bufferedEpochFromFile : Nat := 0
  db : Nat → Option Bytes := fun _ => none
  dbEpoch : Nat := 0

namespace BlockStorageToDB

def insertBlock (s : BlockStorageToDB) (block : Block) : BlockStorageToDB × Bool :=
  let epoch := int64 block.header.number
  let raw := if Fits block then block.serializeAsString else []
  ({ s with
      db := Function.update s.db (uint64 epoch) (some raw)
      bufferedEpochFromFile := uint64 epoch }, true)

def updateLatestSavedEpoch (s : BlockStorageToDB) : BlockStorageToDB × Bool :=
  ({ s with dbEpoch := s.bufferedEpochFromFile }, true)

def appendBlock (s : BlockStorageToDB) (block : Block) : BlockStorageToDB × Bool :=
  let (s, inserted) := s.insertBlock block
  if !inserted then (s, false) else s.updateLatestSavedEpoch

/-- Nobody looks at what `ParseFromString` returns. What is stored parses. -/
def loadBlock (s : BlockStorageToDB) (epoch : Nat) : BlockResult :=
  if s.bufferedEpochFromFile < epoch then .loaded none
  else
    match s.db epoch with
    | none => .missingEntry
    | some raw => .loaded (some ((Block.parseFromString raw).getD {}))

def call (s : BlockStorageToDB) : BlockCall → BlockStorageToDB × BlockResult × Nat
  | .appendBlock block =>
      let (s, success) := s.appendBlock block
      (s, .appended success, s.bufferedEpochFromFile)
  | .loadBlock epoch => (s, s.loadBlock epoch, s.bufferedEpochFromFile)

end BlockStorageToDB

/-- The call a `block_query` with this payload makes. -/
def blockQuery (payload : Bytes) : BlockCall := .loadBlock (uint64 (Decimal.strtol payload))

/-! ## Signed and unsigned numbers -/

section

variable {n m : Nat}

theorem uint64_int64 (hn : n < 2 ^ 64) : uint64 (int64 n) = n := by
  unfold uint64 int64
  rw [Int.bmod_def]
  split <;> omega

theorem int64_of_lt (hn : n < 2 ^ 63) : int64 n = n := by
  unfold int64
  rw [Int.bmod_def]
  split <;> omega

theorem int64_lt (n : Nat) : int64 n < 2 ^ 63 := by
  unfold int64
  rw [Int.bmod_def]
  split <;> omega

theorem int64_injOn (hn : n < 2 ^ 64) (hm : m < 2 ^ 64) (h : int64 n = int64 m) : n = m := by
  rw [← uint64_int64 hn, ← uint64_int64 hm, h]

end

/-! ## A list of blocks -/

/-- Blocks that have been numbered and serialized. -/
structure Chain (blocks : List Block) : Prop where
  length_lt : blocks.length < 2 ^ 64
  parses : ∀ b ∈ blocks, Block.parseFromString b.serializeAsString = some b

theorem chain_nil : Chain [] := ⟨by decide, fun _ hb => absurd hb List.not_mem_nil⟩

theorem Chain.snoc {blocks : List Block} {block : Block} (h : Chain blocks)
    (hlen : blocks.length + 1 < 2 ^ 64) (hnumber : block.header.number = blocks.length + 1)
    (hfits : Fits block) : Chain (blocks ++ [block]) := by
  refine ⟨by simpa using hlen, fun b hb => ?_⟩
  rcases List.mem_append.mp hb with hb | hb
  · exact h.parses b hb
  · rw [List.mem_singleton.mp hb]
    refine Block.parse_serialize ?_ hfits
    rw [hnumber]
    exact hlen

/-- The files are those of the blocks, by their signed numbers. -/
structure FileHolds (s : BlockStorageToFile) (blocks : List Block) : Prop where
  latest : s.bufferedEpochFromFile = blocks.length
  stored : ∀ k b, blocks[k]? = some b → s.binFile (int64 (k + 1)) = some b.serializeAsString
  only : ∀ name, (∀ k < blocks.length, int64 (k + 1) ≠ name) → s.binFile name = none

/-- The keys are the numbers of the blocks. -/
structure DBHolds (s : BlockStorageToDB) (blocks : List Block) : Prop where
  latest : s.bufferedEpochFromFile = blocks.length
  stored : ∀ k b, blocks[k]? = some b → s.db (k + 1) = some b.serializeAsString
  only : ∀ n, (∀ k < blocks.length, k + 1 ≠ n) → s.db n = none

theorem fileHolds_empty (resetEpoch : Bool) (garbage : Nat) :
    FileHolds (.empty resetEpoch garbage) [] := by
  have hbin : (BlockStorageToFile.empty resetEpoch garbage).binFile = fun _ => none := by
    cases resetEpoch <;> rfl
  refine ⟨by cases resetEpoch <;> rfl, ?_, fun name _ => by rw [hbin]⟩
  intro k b hk
  cases hk

theorem dbHolds_empty : DBHolds {} [] := by
  refine ⟨rfl, ?_, fun _ _ => rfl⟩
  intro k b hk
  cases hk

section Calls

variable {blocks : List Block} {file : BlockStorageToFile} {db : BlockStorageToDB} {block : Block}
  {epoch : Nat}

section

variable {κ : Type} [DecidableEq κ] (name : Nat → κ) {entries : κ → Option Bytes}

/-- One more block is stored, under a name of its own. -/
theorem stored_snoc
    (h : ∀ k b, blocks[k]? = some b → entries (name k) = some b.serializeAsString)
    (hne : ∀ k < blocks.length, name k ≠ name blocks.length) (k : Nat) (b : Block)
    (hk : (blocks ++ [block])[k]? = some b) :
    Function.update entries (name blocks.length) (some block.serializeAsString) (name k) =
      some b.serializeAsString := by
  rcases getElem?_snoc hk with hk | ⟨rfl, rfl⟩
  · rw [Function.update_of_ne (hne k (List.getElem?_eq_some_iff.mp hk).1)]
    exact h k b hk
  · rw [Function.update_self]

theorem only_snoc {key : κ} (h : (∀ k < blocks.length, name k ≠ key) → entries key = none)
    (hkey : ∀ k < (blocks ++ [block]).length, name k ≠ key) :
    Function.update entries (name blocks.length) (some block.serializeAsString) key = none := by
  rw [List.length_append] at hkey
  rw [Function.update_of_ne (hkey blocks.length (Nat.lt_succ_self _)).symm]
  exact h fun k hk => hkey k (Nat.lt_succ_of_lt hk)

end

theorem FileHolds.appendBlock (h : FileHolds file blocks) (hlen : blocks.length + 1 < 2 ^ 64)
    (hnumber : block.header.number = blocks.length + 1) (hfits : Fits block) :
    (file.call (.appendBlock block)).2 = (.appended true, blocks.length + 1) ∧
      FileHolds (file.call (.appendBlock block)).1 (blocks ++ [block]) := by
  have hcall : file.call (.appendBlock block) =
      ({ binFile := Function.update file.binFile (int64 (blocks.length + 1))
            (some block.serializeAsString)
         blockNum := some (Decimal.natToString (blocks.length + 1))
         bufferedEpochFromFile := blocks.length + 1 },
        .appended true, blocks.length + 1) := by
    unfold BlockStorageToFile.call BlockStorageToFile.appendBlock BlockStorageToFile.insertBlock
    simp [if_pos hfits, hnumber, uint64_int64 hlen, BlockStorageToFile.updateLatestSavedEpoch]
  rw [hcall]
  have hne : ∀ k < blocks.length, int64 (k + 1) ≠ int64 (blocks.length + 1) := by
    intro k hk heq
    have := int64_injOn (by omega) hlen heq
    omega
  refine ⟨rfl, by simp, ?_, fun key => ?_⟩
  · dsimp only
    exact stored_snoc (fun k => int64 (k + 1)) h.stored hne
  · dsimp only
    exact only_snoc (fun k => int64 (k + 1)) (h.only key)

theorem DBHolds.appendBlock (h : DBHolds db blocks) (hlen : blocks.length + 1 < 2 ^ 64)
    (hnumber : block.header.number = blocks.length + 1) (hfits : Fits block) :
    (db.call (.appendBlock block)).2 = (.appended true, blocks.length + 1) ∧
      DBHolds (db.call (.appendBlock block)).1 (blocks ++ [block]) := by
  have hcall : db.call (.appendBlock block) =
      ({ bufferedEpochFromFile := blocks.length + 1
         db := Function.update db.db (blocks.length + 1) (some block.serializeAsString)
         dbEpoch := blocks.length + 1 },
        .appended true, blocks.length + 1) := by
    unfold BlockStorageToDB.call BlockStorageToDB.appendBlock BlockStorageToDB.insertBlock
    simp [if_pos hfits, hnumber, uint64_int64 hlen, BlockStorageToDB.updateLatestSavedEpoch]
  rw [hcall]
  have hne : ∀ k < blocks.length, k + 1 ≠ blocks.length + 1 := by
    intro k hk
    omega
  refine ⟨rfl, by simp, ?_, fun key => ?_⟩
  · dsimp only
    exact stored_snoc (fun k => k + 1) h.stored hne
  · dsimp only
    exact only_snoc (fun k => k + 1) (h.only key)

/-- A block that protobuf refuses: one store says so, the other does not. -/
theorem appendBlock_ne_of_not_fits (hfits : ¬ Fits block) :
    (file.call (.appendBlock block)).2 ≠ (db.call (.appendBlock block)).2 := by
  intro heq
  have hfile : (file.call (.appendBlock block)).2.1 = .appended false := by
    unfold BlockStorageToFile.call BlockStorageToFile.appendBlock BlockStorageToFile.insertBlock
    simp [if_neg hfits]
  have hdb : (db.call (.appendBlock block)).2.1 = .appended true := rfl
  rw [heq, hdb] at hfile
  cases hfile

/-- The file store finds a block unless its number is read as a negative one when the file is
    named. -/
theorem FileHolds.loadBlock (h : FileHolds file blocks) (hc : Chain blocks) (epoch : Nat) :
    file.loadBlock epoch =
      if epoch = 0 ∨ 2 ^ 63 ≤ epoch then none else blocks[epoch - 1]? := by
  unfold BlockStorageToFile.loadBlock
  rw [h.latest]
  by_cases hlt : blocks.length < epoch
  · rw [if_pos hlt, List.getElem?_eq_none (by omega), ite_self]
  rw [if_neg hlt]
  by_cases hbad : epoch = 0 ∨ 2 ^ 63 ≤ epoch
  · -- no file has this name
    rw [if_pos hbad, h.only epoch fun k hk heq => ?_, Option.bind_none]
    rcases hbad with rfl | hlarge
    · have hzero : int64 (k + 1) = int64 0 := heq
      have hlen := hc.length_lt
      have := int64_injOn (by omega) (by decide) hzero
      omega
    · have := int64_lt (k + 1)
      omega
  · obtain ⟨k, rfl⟩ := Nat.exists_eq_succ_of_ne_zero fun h0 => hbad (Or.inl h0)
    rw [if_neg hbad, Nat.succ_sub_one]
    have hk : k < blocks.length := by omega
    have hsome : blocks[k]? = some blocks[k] := List.getElem?_eq_getElem hk
    have hfile := h.stored k _ hsome
    rw [int64_of_lt (by omega)] at hfile
    rw [hsome, Nat.succ_eq_add_one, hfile, Option.bind_some]
    exact hc.parses _ (List.getElem_mem hk)

theorem DBHolds.loadBlock (h : DBHolds db blocks) (hc : Chain blocks) (epoch : Nat) :
    db.loadBlock epoch = if epoch = 0 then .missingEntry else .loaded blocks[epoch - 1]? := by
  unfold BlockStorageToDB.loadBlock
  rw [h.latest]
  cases epoch with
  | zero =>
      rw [if_neg (Nat.not_lt_zero _), if_pos rfl, h.only 0 fun k _ heq => by cases heq]
  | succ k =>
      rw [if_neg (Nat.succ_ne_zero k), Nat.succ_sub_one]
      by_cases hk : k < blocks.length
      · have hsome : blocks[k]? = some blocks[k] := List.getElem?_eq_getElem hk
        rw [if_neg (by omega), h.stored k _ hsome, hsome]
        dsimp only
        rw [hc.parses _ (List.getElem_mem hk)]
        rfl
      · rw [if_pos (by omega), List.getElem?_eq_none (by omega)]

/-- The two give the same answer about a number. -/
theorem loadBlock_eq_iff (hf : FileHolds file blocks) (hd : DBHolds db blocks) (hc : Chain blocks) :
    (file.call (.loadBlock epoch)).2 = (db.call (.loadBlock epoch)).2 ↔
      epoch ≠ 0 ∧ ¬ (2 ^ 63 ≤ epoch ∧ epoch ≤ blocks.length) := by
  have hfile : (file.call (.loadBlock epoch)).2 =
      (.loaded (file.loadBlock epoch), file.bufferedEpochFromFile) := rfl
  have hdb : (db.call (.loadBlock epoch)).2 = (db.loadBlock epoch, db.bufferedEpochFromFile) := rfl
  rw [hfile, hdb, hf.latest, hd.latest, hf.loadBlock hc, hd.loadBlock hc, Prod.mk.injEq,
    and_iff_left rfl]
  by_cases h0 : epoch = 0
  · simp [h0]
  by_cases hlarge : 2 ^ 63 ≤ epoch
  · rw [if_pos (Or.inr hlarge), if_neg h0, BlockResult.loaded.injEq, eq_comm,
      List.getElem?_eq_none_iff]
    omega
  · rw [if_neg (by omega), if_neg h0]
    exact iff_of_true rfl ⟨h0, fun h => hlarge h.1⟩

end Calls

/-! ## Any sequence of calls -/

/-- The appended blocks are numbered one after the other, from `n + 1` on, and all numbers are of 64
    bits. -/
def Consecutive : Nat → List BlockCall → Prop
  | _, [] => True
  | n, .appendBlock block :: calls =>
      (block.header.number = n + 1 ∧ n + 1 < 2 ^ 64) ∧ Consecutive (n + 1) calls
  | n, .loadBlock epoch :: calls => epoch < 2 ^ 64 ∧ Consecutive n calls

/-- With `n` blocks stored before: no block is too large, nobody asks for block 0, and nobody asks
    for a stored block whose number is not an `int64_t`. -/
def Servable : Nat → List BlockCall → Prop
  | _, [] => True
  | n, .appendBlock block :: calls => Fits block ∧ Servable (n + 1) calls
  | n, .loadBlock epoch :: calls =>
      (epoch ≠ 0 ∧ ¬ (2 ^ 63 ≤ epoch ∧ epoch ≤ n)) ∧ Servable n calls

theorem answers_eq_iff_servable {blocks : List Block} {file : BlockStorageToFile}
    {db : BlockStorageToDB} (hf : FileHolds file blocks) (hd : DBHolds db blocks)
    (hc : Chain blocks) {calls : List BlockCall} (hcalls : Consecutive blocks.length calls) :
    answers BlockStorageToFile.call file calls = answers BlockStorageToDB.call db calls ↔
      Servable blocks.length calls := by
  induction calls generalizing file db blocks with
  | nil => exact iff_of_true rfl trivial
  | cons call calls ih =>
      rw [answers, answers, List.cons.injEq]
      cases call with
      | appendBlock block =>
          obtain ⟨⟨hnumber, hlen⟩, hrest⟩ := hcalls
          by_cases hfits : Fits block
          · obtain ⟨hfa, hf'⟩ := hf.appendBlock hlen hnumber hfits
            obtain ⟨hda, hd'⟩ := hd.appendBlock hlen hnumber hfits
            have hlength : (blocks ++ [block]).length = blocks.length + 1 := by simp
            have hih := ih hf' hd' (hc.snoc hlen hnumber hfits) (by rw [hlength]; exact hrest)
            rw [hlength] at hih
            exact and_congr (iff_of_true (hfa.trans hda.symm) hfits) hih
          · exact iff_of_false (fun h => appendBlock_ne_of_not_fits hfits h.1) fun h => hfits h.1
      | loadBlock epoch =>
          -- a query leaves both stores as they are
          exact and_congr (loadBlock_eq_iff hf hd hc) (ih hf hd hc hcalls.2)

/-- The results, the blocks and the latest epochs are the same, and no missing entry is read, if and
    only if the calls are such as both stores can serve. -/
theorem stores_agree_iff (resetEpoch : Bool) (garbage : Nat) (calls : List BlockCall)
    (hcalls : Consecutive 0 calls) :
    answers BlockStorageToFile.call (.empty resetEpoch garbage) calls =
        answers BlockStorageToDB.call {} calls ↔ Servable 0 calls :=
  answers_eq_iff_servable (fileHolds_empty resetEpoch garbage) dbHolds_empty chain_nil hcalls

/-- The first block, and queries for it and for the one after it. -/
def firstBlock : List BlockCall :=
  [.appendBlock { header := { number := 1 } }, .loadBlock 1, .loadBlock 2]

theorem stores_agree_firstBlock : Consecutive 0 firstBlock ∧
    answers BlockStorageToFile.call (.empty true 0) firstBlock =
      answers BlockStorageToDB.call {} firstBlock := by
  have hcalls : Consecutive 0 firstBlock := ⟨⟨rfl, by decide⟩, by decide, by decide, trivial⟩
  refine ⟨hcalls, (stores_agree_iff true 0 firstBlock hcalls).mpr ?_⟩
  exact ⟨by decide +kernel, by decide, by decide, trivial⟩

/-- `strtol` makes 0 of a payload that is no number. The file store finds no file, and the map is
    read through `end()`. -/
theorem stores_differ_on_zero : Consecutive 0 [blockQuery (ascii "tip")] ∧
    answers BlockStorageToFile.call (.empty true 0) [blockQuery (ascii "tip")] =
      [(.loaded none, 0)] ∧
    answers BlockStorageToDB.call {} [blockQuery (ascii "tip")] = [(.missingEntry, 0)] := by
  refine ⟨⟨by decide, trivial⟩, ?_, ?_⟩
  · decide
  · decide

/-! ## The file store of the block generator -/

/-- The store as the block generator has it in `BlockChain`: numbers and blocks. -/
def BlockStorageToFile.toBlocks (s : BlockStorageToFile) : Server.BlockStorageToFile where
  blockFile n := (s.binFile n).bind Block.parseFromString
  blockNum := extractEpoch 0 s.blockNum
  bufferedEpochFromFile := s.bufferedEpochFromFile

theorem toBlocks_appendBlock (s : BlockStorageToFile) {block : Block} (hfits : Fits block)
    (hnumber : block.header.number < 2 ^ 63) :
    (s.appendBlock block).2 = true ∧
      (s.appendBlock block).1.toBlocks = s.toBlocks.appendBlock block := by
  have hlt : block.header.number < 2 ^ 64 := Nat.lt_trans hnumber (by decide)
  have hcall : s.appendBlock block =
      ({ binFile := Function.update s.binFile (int64 block.header.number)
            (some block.serializeAsString)
         blockNum := some (Decimal.natToString block.header.number)
         bufferedEpochFromFile := block.header.number }, true) := by
    unfold BlockStorageToFile.appendBlock BlockStorageToFile.insertBlock
    simp [if_pos hfits, uint64_int64 hlt, BlockStorageToFile.updateLatestSavedEpoch]
  have hfile : (fun n : Nat => (Function.update s.binFile (int64 block.header.number)
      (some block.serializeAsString) n).bind Block.parseFromString) =
        Function.update s.toBlocks.blockFile block.header.number (some block) := by
    funext n
    rw [int64_of_lt hnumber]
    by_cases hn : n = block.header.number
    · rw [hn, Function.update_self, Function.update_self, Option.bind_some,
        Block.parse_serialize hlt hfits]
    · rw [Function.update_of_ne (by exact_mod_cast hn), Function.update_of_ne hn]
      rfl
  rw [hcall]
  refine ⟨rfl, ?_⟩
  simp only [BlockStorageToFile.toBlocks, hfile, Server.BlockStorageToFile.appendBlock,
    Server.BlockStorageToFile.insertBlock, Server.BlockStorageToFile.updateLatestSavedEpoch,
    StorageProcess.extractEpoch_natToString hlt]

theorem toBlocks_loadBlock (s : BlockStorageToFile) (epoch : Nat) :
    s.loadBlock epoch = s.toBlocks.loadBlock epoch := rfl

theorem toBlocks_construct {s : BlockStorageToFile} {n : Nat}
    (hnum : s.blockNum = some (Decimal.natToString n)) (hn : n < 2 ^ 64) (resetEpoch : Bool)
    (garbage : Nat) :
    (s.construct resetEpoch garbage).toBlocks = s.toBlocks.construct resetEpoch := by
  have hzero := StorageProcess.extractEpoch_natToString (show 0 < 2 ^ 64 by decide) 0
  cases resetEpoch with
  | true =>
      simp [BlockStorageToFile.construct, BlockStorageToFile.toBlocks,
        Server.BlockStorageToFile.construct, hzero]
  | false =>
      simp [BlockStorageToFile.construct, BlockStorageToFile.toBlocks,
        Server.BlockStorageToFile.construct, hnum, StorageProcess.extractEpoch_natToString hn]

/-- A store that writes its files step by step holds, once `appendBlock` has returned, what this
    one holds after the same blocks. -/
theorem loadBlock_storageProcess {p : StorageProcess} (hinv : StorageProcess.Inv p)
    (hidle : p.state = .idle) {file : BlockStorageToFile} (h : FileHolds file p.returned)
    {epoch : Nat} (hpos : 0 < epoch) (hlt : epoch < 2 ^ 63) :
    p.bufferedEpochFromFile = file.bufferedEpochFromFile ∧
      StorageProcess.loadBlock p.files p.bufferedEpochFromFile epoch = file.loadBlock epoch := by
  have hlatest : p.bufferedEpochFromFile = file.bufferedEpochFromFile := by
    rw [hinv.buffered, hidle, h.latest]
    rfl
  refine ⟨hlatest, ?_⟩
  unfold StorageProcess.loadBlock BlockStorageToFile.loadBlock
  rw [hlatest]
  split
  · rfl
  · rename_i hle
    obtain ⟨k, rfl⟩ := Nat.exists_eq_add_of_lt hpos
    rw [h.latest] at hle
    have hsome : p.returned[k]? = some (p.returned.get ⟨k, by omega⟩) :=
      List.getElem?_eq_getElem (by omega)
    have hfile := h.stored k _ hsome
    rw [int64_of_lt (by omega)] at hfile
    rw [Nat.zero_add, hinv.stored k _ hsome, hfile]

end NeuChain.Server.BlockStores
