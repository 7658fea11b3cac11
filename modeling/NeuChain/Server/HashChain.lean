/-
  The chain of saved blocks within one process.

  * `hash_chain_in_order`: from an empty chain, for calls of `generateBlock` on one to
    `mtAlMaxElems` transactions each, no `CHECK` fails, whatever the order in which bodies are finished.
    The block saved for the `k`-th call has number `k`, holds the transactions of this call and links
    to the block before. When pool and header thread have nothing left to do, every call has its block.
  * `too_many_transactions`: with more transactions than the Merkle tree takes, the process stops.

  The invariant of a process (`Inv`) says where the block of each call is: a task of the pool, the
  buffer, the hands of the header thread, or the files.
-/
import NeuChain.Server.BlockChain

namespace NeuChain.Server

open NeuChain Lib Merkle

/-- The block with these transactions, as far as its body goes. -/
def HoldsExactly (sha : SHA256) (msg : Messages) (txs : List Transaction) (b : Block) : Prop :=
  ∃ queue : List Transaction, queue.Perm txs ∧
    b.data = queue.map (Transaction.serializeToString sha msg) ∧
    b.metadata[0]? = some (queue.map fun t => UInt8.ofNat t.transactionResult.toNat)

/-- The block for the call with index `k`, as it stands in the files. -/
structure ChainBlock (sha : SHA256) (msg : Messages) (files : Nat → Option Block)
    (called : List (List Transaction)) (k : Nat) (b : Block) : Prop where
  number : b.header.number = k + 1
  content : ∃ txs, called[k]? = some txs ∧ HoldsExactly sha msg txs b
  dataHash : ∃ m₀ m₁, b.metadata[0]? = some m₀ ∧ b.metadata[1]? = some m₁ ∧
    b.header.dataHash = sha.hash (m₀ ++ m₁)
  previousHash : 0 < k → ∃ previous, files k = some previous ∧
    b.header.previousHash = previous.header.dataHash

section

variable {sha : SHA256} {msg : Messages} {sign : Bytes → Bytes} {files : Nat → Option Block}
  {called : List (List Transaction)} {k n : Nat} {b block : Block} {storage : BlockStorageToFile}

theorem ChainBlock.call (h : ChainBlock sha msg files called k b) (txs : List Transaction) :
    ChainBlock sha msg files (called ++ [txs]) k b := by
  obtain ⟨txs', hget, hholds⟩ := h.content
  have hlt : k < called.length := (List.getElem?_eq_some_iff.mp hget).1
  refine ⟨h.number, ⟨txs', ?_, hholds⟩, h.dataHash, h.previousHash⟩
  rw [List.getElem?_append_left hlt]
  exact hget

/-- Writing a later file changes nothing. -/
theorem ChainBlock.write (h : ChainBlock sha msg files called k b) (hk : k < n) (f : Option Block) :
    ChainBlock sha msg (Function.update files n f) called k b := by
  refine ⟨h.number, h.content, h.dataHash, fun hpos => ?_⟩
  obtain ⟨previous, hprev, hhash⟩ := h.previousHash hpos
  refine ⟨previous, ?_, hhash⟩
  rw [Function.update_of_ne (by omega)]
  exact hprev

theorem pushAll_perm_self (txs : List Transaction) : (pushAll txs).Perm txs := by
  have hperm := pushAll_perm_arrival txs []
  rwa [List.append_nil] at hperm

theorem pushAll_ne_nil {txs : List Transaction} (hne : txs ≠ []) : pushAll txs ≠ [] := by
  intro hnil
  have hperm := pushAll_perm_self txs
  rw [hnil] at hperm
  exact hne hperm.nil_eq.symm

theorem bodyOf_pushAll_isSome {txs : List Transaction} (hne : txs ≠ [])
    (hlen : txs.length ≤ mtAlMaxElems) :
    ∃ block, BlockGeneratorImpl.bodyOf sha msg sign (pushAll txs) = some block := by
  rw [← Option.isSome_iff_exists, BlockGeneratorImpl.bodyOf_isSome,
    (pushAll_perm_self txs).length_eq]
  exact ⟨pushAll_ne_nil hne, hlen⟩

/-- A body has no header yet, its results and its root are there. -/
theorem bodyOf_spec {queue : TxPriorityQueue}
    (h : BlockGeneratorImpl.bodyOf sha msg sign queue = some block) :
    block.header = {} ∧ block.data = queue.map (Transaction.serializeToString sha msg) ∧
      block.metadata[0]? = some (queue.map fun t => UInt8.ofNat t.transactionResult.toNat) ∧
      ∃ root, block.metadata[1]? = some root := by
  obtain ⟨root, -, rfl⟩ := Option.map_eq_some_iff.mp h
  exact ⟨rfl, rfl, rfl, root, rfl⟩

theorem generateBlockHeader_eq {m₀ m₁ : Bytes} (previousDataHash : Bytes)
    (h₀ : block.metadata[0]? = some m₀) (h₁ : block.metadata[1]? = some m₁) :
    generateBlockHeader sha storage previousDataHash block =
      if storage.getLatestSavedEpoch > 0 then
        (storage.loadBlock storage.getLatestSavedEpoch).bind fun previous =>
          if previous.header.dataHash = previousDataHash then
            some ({ block with header :=
              { number := storage.getLatestSavedEpoch + 1, previousHash := previousDataHash,
                dataHash := sha.hash (m₀ ++ m₁) } }, sha.hash (m₀ ++ m₁))
          else none
      else some ({ block with header :=
        { block.header with
          dataHash := sha.hash (m₀ ++ m₁), number := storage.getLatestSavedEpoch + 1 } },
          sha.hash (m₀ ++ m₁)) := by
  unfold generateBlockHeader
  rw [h₀, h₁]
  rfl

/-- A header changes nothing else of the block; its hash is that of the metadata. -/
theorem generateBlockHeader_content {m₀ m₁ previousDataHash hashResult : Bytes} {block' : Block}
    (h₀ : block.metadata[0]? = some m₀) (h₁ : block.metadata[1]? = some m₁)
    (h : generateBlockHeader sha storage previousDataHash block = some (block', hashResult)) :
    block'.header.number = storage.getLatestSavedEpoch + 1 ∧
      block'.header.dataHash = sha.hash (m₀ ++ m₁) ∧ hashResult = sha.hash (m₀ ++ m₁) ∧
      block'.data = block.data ∧ block'.metadata = block.metadata := by
  rw [generateBlockHeader_eq previousDataHash h₀ h₁] at h
  split at h
  · obtain ⟨previous, -, hif⟩ := Option.bind_eq_some_iff.mp h
    split at hif
    · cases hif
      exact ⟨rfl, rfl, rfl, rfl, rfl⟩
    · cases hif
  · cases h
    exact ⟨rfl, rfl, rfl, rfl, rfl⟩

/-- Whatever header is made, its number is the next one and its hash that of the metadata. -/
theorem generateBlockHeader_spec {previousDataHash hashResult : Bytes} {block' : Block}
    (h : generateBlockHeader sha storage previousDataHash block = some (block', hashResult)) :
    block'.header.number = storage.getLatestSavedEpoch + 1 ∧
      block'.header.dataHash = hashResult ∧ hashResult.length = sha256HashSize := by
  obtain ⟨m₀, h₀, hrest⟩ := Option.bind_eq_some_iff.mp h
  obtain ⟨m₁, h₁, -⟩ := Option.bind_eq_some_iff.mp hrest
  obtain ⟨hnum, hdata, rfl, -, -⟩ := generateBlockHeader_content h₀ h₁ h
  exact ⟨hnum, hdata, sha.length_hash _⟩

end

namespace BlockGeneratorImpl

variable {sha : SHA256} {msg : Messages} {sign : Bytes → Bytes} {g g' : BlockGeneratorImpl}
  {past : List BlockAction} {a : BlockAction}

/-! ## Within one process -/

/-- How many blocks have got a header. -/
def taken (g : BlockGeneratorImpl) : Nat :=
  match g.runState with
  | .waiting => g.storage.blockNum
  | _ => g.storage.blockNum + 1

/-- How many blocks are in the files. -/
def written (g : BlockGeneratorImpl) : Nat :=
  match g.runState with
  | .updating => g.storage.blockNum + 1
  | _ => g.storage.blockNum

/-- A block number and the queue of the call it belongs to. -/
def Belongs (called : List (List Transaction)) (e : Nat) (queue : TxPriorityQueue) : Prop :=
  ∃ k txs, e = k + 1 ∧ called[k]? = some txs ∧ queue = pushAll txs

theorem Belongs.le {called : List (List Transaction)} {e : Nat} {queue : TxPriorityQueue}
    (h : Belongs called e queue) : e ≤ called.length := by
  obtain ⟨k, txs, rfl, hget, -⟩ := h
  exact (List.getElem?_eq_some_iff.mp hget).1

theorem Belongs.call {called : List (List Transaction)} {e : Nat} {queue : TxPriorityQueue}
    (h : Belongs called e queue) (txs : List Transaction) : Belongs (called ++ [txs]) e queue := by
  obtain ⟨k, txs', rfl, hget, rfl⟩ := h
  have hlt : k < called.length := (List.getElem?_eq_some_iff.mp hget).1
  exact ⟨k, txs', rfl, by rw [List.getElem?_append_left hlt]; exact hget, rfl⟩

structure Inv (sha : SHA256) (msg : Messages) (sign : Bytes → Bytes)
    (called : List (List Transaction)) (added : List Transaction) (g : BlockGeneratorImpl) :
    Prop where
  alive : g.crashed = false
  pending : g.pendingTransactionQueue = pushAll added
  bodyEpoch : g.bodyEpoch.getD 0 = called.length
  epoch : g.currentBlockEpoch = g.storage.blockNum + 1
  latest : g.storage.bufferedEpochFromFile = g.written
  taken_le : g.taken ≤ called.length
  -- a task of the pool
  worker : ∀ t ∈ g.workers,
    g.taken < t.1 ∧ Belongs called t.1 t.2 ∧ g.blockBuffer t.1 = none
  distinct : (g.workers.map Prod.fst).Nodup
  -- a finished body
  buffered : ∀ e b, g.blockBuffer e = some b →
    g.taken < e ∧ ∃ queue, Belongs called e queue ∧ bodyOf sha msg sign queue = some b
  covered : ∀ e, g.taken < e → e ≤ called.length →
    e ∈ g.workers.map Prod.fst ∨ (g.blockBuffer e).isSome = true
  -- a block with a header
  inHand : ∀ b, g.runState = .inserting b →
    ChainBlock sha msg g.storage.blockFile called g.storage.blockNum b ∧
      g.previousDataHash = b.header.dataHash
  -- a block in the files
  saved : ∀ k < g.written, ∃ b, g.storage.blockFile (k + 1) = some b ∧
    ChainBlock sha msg g.storage.blockFile called k b
  hash : (∀ b, g.runState ≠ .inserting b) → ∀ k b, g.written = k + 1 →
    g.storage.blockFile (k + 1) = some b → g.previousDataHash = b.header.dataHash

theorem Inv.start {storage : BlockStorageToFile} (resetEpoch : Bool)
    (h : (storage.construct resetEpoch).blockNum = 0) :
    Inv sha msg sign [] [] (start storage resetEpoch) := by
  have hbuf : (storage.construct resetEpoch).bufferedEpochFromFile = 0 := by
    cases resetEpoch with
    | true => rfl
    | false => exact h
  have hwritten : (BlockGeneratorImpl.start storage resetEpoch).written = 0 := h
  constructor
  · rfl
  · rfl
  · rfl
  · change (storage.construct resetEpoch).bufferedEpochFromFile + 1 = _
    rw [hbuf]
    change 0 + 1 = (storage.construct resetEpoch).blockNum + 1
    rw [h]
  · rw [hwritten]
    exact hbuf
  · exact h.le
  · intro t ht
    cases ht
  · exact List.nodup_nil
  · intro e b hb
    cases hb
  · intro e _ hle
    have : e = 0 := Nat.le_zero.mp hle
    omega
  · intro b hb
    cases hb
  · intro k hk
    rw [hwritten] at hk
    omega
  · intro _ k b hk
    rw [hwritten] at hk
    omega

variable {called : List (List Transaction)} {added : List Transaction}

theorem written_le (g : BlockGeneratorImpl) : g.written ≤ g.taken := by
  unfold written taken
  split <;> split <;> simp_all

/-- With distinct keys, the `i`-th entry is the only one with its key. -/
theorem fst_ne_of_mem_eraseIdx {i : Nat} {x t : Nat × TxPriorityQueue}
    {l : List (Nat × TxPriorityQueue)} (hnd : (l.map Prod.fst).Nodup) (hget : l[i]? = some x)
    (ht : t ∈ l.eraseIdx i) : t.1 ≠ x.1 := by
  intro heq
  obtain ⟨j, hji, hj⟩ := List.mem_eraseIdx_iff_getElem?.mp ht
  have hlen : i < (l.map Prod.fst).length := by
    rw [List.length_map]
    exact (List.getElem?_eq_some_iff.mp hget).1
  apply hji
  symm
  apply (List.getElem?_inj hlen hnd).mp
  rw [List.getElem?_map, List.getElem?_map, hget, hj, Option.map_some, Option.map_some, heq]

section

variable (h : Inv sha msg sign called added g)

include h

theorem Inv.add (t : Transaction) :
    Inv sha msg sign called (added ++ [t])
      { g with pendingTransactionQueue := addCommittedTransaction g.pendingTransactionQueue t } := by
  refine { h with pending := ?_ }
  rw [h.pending]
  unfold pushAll
  rw [List.foldl_append]
  rfl

theorem Inv.generateBlock :
    Inv sha msg sign (called ++ [added]) [] g.generateBlock := by
  have hepoch : g.bodyEpoch.getD g.storage.getLatestSavedEpoch = called.length := by
    have hbody := h.bodyEpoch
    cases hb : g.bodyEpoch with
    | some e =>
        rw [hb] at hbody
        exact hbody
    | none =>
        -- the first call: nothing is saved yet
        rw [hb] at hbody
        have hle := (written_le _).trans h.taken_le
        rw [← h.latest, ← hbody] at hle
        exact (Nat.le_zero.mp hle).trans hbody
  have hnew : Belongs (called ++ [added]) (called.length + 1) g.pendingTransactionQueue :=
    ⟨called.length, added, rfl, by simp, h.pending⟩
  have hempty : g.blockBuffer (called.length + 1) = none := by
    cases hb : g.blockBuffer (called.length + 1) with
    | none => rfl
    | some b =>
        obtain ⟨-, queue, hbelongs, -⟩ := h.buffered _ b hb
        have := hbelongs.le
        omega
  have hworkers : g.generateBlock.workers =
      g.workers ++ [(called.length + 1, g.pendingTransactionQueue)] := by
    unfold BlockGeneratorImpl.generateBlock
    dsimp only
    rw [hepoch]
  constructor
  · exact h.alive
  · rfl
  · change g.bodyEpoch.getD g.storage.getLatestSavedEpoch + 1 = _
    rw [hepoch, List.length_append, List.length_singleton]
  · exact h.epoch
  · exact h.latest
  · rw [List.length_append]
    exact Nat.le_add_right_of_le h.taken_le
  · intro t ht
    rw [hworkers] at ht
    rcases List.mem_append.mp ht with hold | hlast
    · obtain ⟨hlt, hbelongs, hnone⟩ := h.worker t hold
      exact ⟨hlt, hbelongs.call added, hnone⟩
    · obtain rfl := List.mem_singleton.mp hlast
      exact ⟨Nat.lt_succ_of_le h.taken_le, hnew, hempty⟩
  · rw [hworkers, List.map_append]
    refine h.distinct.append (List.nodup_singleton _) ?_
    intro e he hlast
    obtain ⟨t, ht, rfl⟩ := List.mem_map.mp he
    have hle := (h.worker t ht).2.1.le
    have : t.1 = called.length + 1 := List.mem_singleton.mp hlast
    omega
  · intro e b hb
    obtain ⟨hlt, queue, hbelongs, hbody⟩ := h.buffered e b hb
    exact ⟨hlt, queue, hbelongs.call added, hbody⟩
  · intro e hlt hle
    rw [hworkers, List.map_append]
    rw [List.length_append, List.length_singleton] at hle
    by_cases hlast : e = called.length + 1
    · exact Or.inl (List.mem_append_right _ (List.mem_singleton.mpr hlast))
    · rcases h.covered e hlt (by omega) with hmem | hsome
      · exact Or.inl (List.mem_append_left _ hmem)
      · exact Or.inr hsome
  · intro b hb
    obtain ⟨hchain, hhash⟩ := h.inHand b hb
    exact ⟨hchain.call added, hhash⟩
  · intro k hk
    obtain ⟨b, hfile, hchain⟩ := h.saved k hk
    exact ⟨b, hfile, hchain.call added⟩
  · exact h.hash

theorem Inv.body (hcalls : ∀ txs ∈ called, txs ≠ [] ∧ txs.length ≤ mtAlMaxElems) {i : Nat}
    (hstep : g.body sha msg sign i = some g') : Inv sha msg sign called added g' := by
  obtain ⟨e, queue, hget, hcases⟩ := body_cases hstep
  have hmem : (e, queue) ∈ g.workers := List.mem_of_getElem? hget
  obtain ⟨hlt, hbelongs, hnone⟩ := h.worker _ hmem
  rcases hcases with ⟨hfail, -⟩ | ⟨block, hbody, rfl⟩
  · -- the queue of a call has a body
    obtain ⟨k, txs, -, hcall, rfl⟩ := hbelongs
    obtain ⟨hne, hlen⟩ := hcalls txs (List.mem_of_getElem? hcall)
    obtain ⟨block, hblock⟩ := @bodyOf_pushAll_isSome sha msg sign txs hne hlen
    rw [hblock] at hfail
    cases hfail
  · refine { h with worker := ?_, distinct := ?_, buffered := ?_, covered := ?_ }
    · intro t ht
      obtain ⟨htlt, htb, htn⟩ := h.worker t (List.mem_of_mem_eraseIdx ht)
      refine ⟨htlt, htb, ?_⟩
      dsimp only
      rw [Function.update_of_ne (fst_ne_of_mem_eraseIdx h.distinct hget ht)]
      exact htn
    · exact h.distinct.sublist ((List.eraseIdx_sublist g.workers i).map Prod.fst)
    · intro e' b hb
      dsimp only at hb
      by_cases he : e' = e
      · subst he
        rw [Function.update_self] at hb
        cases hb
        exact ⟨hlt, queue, hbelongs, hbody⟩
      · rw [Function.update_of_ne he] at hb
        exact h.buffered e' b hb
    · intro e' hlt' hle
      by_cases he : e' = e
      · subst he
        right
        simp
      · dsimp only
        rw [Function.update_of_ne he]
        rcases h.covered e' hlt' hle with hin | hsome
        · left
          obtain ⟨t, ht, rfl⟩ := List.mem_map.mp hin
          obtain ⟨j, hj⟩ := List.mem_iff_getElem?.mp ht
          refine List.mem_map.mpr ⟨t, List.mem_eraseIdx_iff_getElem?.mpr ⟨j, ?_, hj⟩, rfl⟩
          rintro rfl
          rw [hget] at hj
          cases hj
          exact he rfl
        · exact Or.inr hsome

/-- The header of the next block: the static is the hash of the block before. -/
theorem Inv.header_block (hwait : g.runState = .waiting) {block : Block}
    (hbuf : g.blockBuffer g.currentBlockEpoch = some block) :
    ∃ block' hashResult,
      generateBlockHeader sha g.storage g.previousDataHash block = some (block', hashResult) ∧
        block'.header.dataHash = hashResult ∧
        ChainBlock sha msg g.storage.blockFile called g.storage.blockNum block' := by
  have hwritten : g.written = g.storage.blockNum := by
    unfold written
    rw [hwait]
  have hlatest : g.storage.getLatestSavedEpoch = g.storage.blockNum := h.latest.trans hwritten
  obtain ⟨-, queue, ⟨k, txs, hk, hcall, rfl⟩, hbody⟩ := h.buffered _ block hbuf
  obtain rfl : k = g.storage.blockNum := by
    have := h.epoch
    omega
  obtain ⟨hheader, hdata, h₀, root, h₁⟩ := bodyOf_spec hbody
  have hcontent : ∃ txs, called[g.storage.blockNum]? = some txs ∧ HoldsExactly sha msg txs block :=
    ⟨txs, hcall, pushAll txs, pushAll_perm_self txs, hdata, h₀⟩
  rw [generateBlockHeader_eq _ h₀ h₁, hlatest]
  rcases Nat.eq_zero_or_pos g.storage.blockNum with hzero | hpos
  · rw [if_neg (by omega)]
    refine ⟨_, _, rfl, rfl, rfl, hcontent, ⟨_, _, h₀, h₁, rfl⟩, fun hpos => ?_⟩
    omega
  · rw [if_pos hpos]
    obtain ⟨j, hj⟩ : ∃ j, g.storage.blockNum = j + 1 := ⟨g.storage.blockNum - 1, by omega⟩
    obtain ⟨previous, hfile, -⟩ := h.saved j (by omega)
    have hload : g.storage.loadBlock g.storage.blockNum = some previous := by
      unfold BlockStorageToFile.loadBlock
      rw [if_neg (by rw [h.latest, hwritten]; omega), hj]
      exact hfile
    have hprev : g.previousDataHash = previous.header.dataHash := by
      apply h.hash ?_ j previous (hwritten.trans hj) hfile
      intro b hb
      rw [hwait] at hb
      cases hb
    rw [hload, Option.bind_some, if_pos hprev.symm]
    refine ⟨_, _, rfl, rfl, rfl, hcontent, ⟨_, _, h₀, h₁, rfl⟩, fun _ => ⟨previous, ?_, hprev⟩⟩
    rw [hj]
    exact hfile

theorem Inv.header (hstep : g.header sha = some g') :
    Inv sha msg sign called added g' := by
  obtain ⟨hwait, block, hbuf, hcases⟩ := header_cases hstep
  obtain ⟨block', hashResult, hheader, hhash, hchain⟩ := h.header_block hwait hbuf
  have htaken : g.taken = g.storage.blockNum := by
    unfold taken
    rw [hwait]
  have hwritten : g.written = g.storage.blockNum := by
    unfold written
    rw [hwait]
  obtain ⟨hlt, queue, hbelongs, -⟩ := h.buffered _ block hbuf
  have hepoch := h.epoch
  rcases hcases with ⟨hfail, -⟩ | ⟨block'', hashResult', hheader', rfl⟩
  · rw [hheader] at hfail
    cases hfail
  · rw [hheader] at hheader'
    cases hheader'
    -- a number above the last one taken, other than the one taken now
    have hnext : ∀ e, g.taken < e → e ≠ g.currentBlockEpoch → g.storage.blockNum + 1 < e := by
      intro e he hne
      omega
    constructor
    · exact h.alive
    · exact h.pending
    · exact h.bodyEpoch
    · exact h.epoch
    · exact h.latest.trans hwritten
    · have := hbelongs.le
      change g.storage.blockNum + 1 ≤ called.length
      omega
    · intro t ht
      obtain ⟨htlt, htb, htn⟩ := h.worker t ht
      have hne : t.1 ≠ g.currentBlockEpoch := by
        intro heq
        rw [heq, hbuf] at htn
        cases htn
      refine ⟨hnext t.1 htlt hne, htb, ?_⟩
      dsimp only
      rw [Function.update_of_ne hne]
      exact htn
    · exact h.distinct
    · intro e b hb
      dsimp only at hb
      by_cases he : e = g.currentBlockEpoch
      · subst he
        rw [Function.update_self] at hb
        cases hb
      · rw [Function.update_of_ne he] at hb
        obtain ⟨helt, hrest⟩ := h.buffered e b hb
        exact ⟨hnext e helt he, hrest⟩
    · intro e helt hle
      have helt : g.storage.blockNum + 1 < e := helt
      dsimp only
      rw [Function.update_of_ne (by omega)]
      exact h.covered e (by omega) hle
    · rintro b hb
      cases hb
      exact ⟨hchain, hhash.symm⟩
    · intro k hk
      exact h.saved k (hwritten ▸ hk)
    · intro hno
      exact absurd rfl (hno block')

theorem Inv.insert {block : Block} (hrun : g.runState = .inserting block) :
    Inv sha msg sign called added
      { g with storage := g.storage.insertBlock block, runState := .updating } := by
  obtain ⟨hchain, hhash⟩ := h.inHand block hrun
  have htaken : g.taken = g.storage.blockNum + 1 := by
    unfold taken
    rw [hrun]
  have hwritten : g.written = g.storage.blockNum := by
    unfold written
    rw [hrun]
  have hnum : block.header.number = g.storage.blockNum + 1 := hchain.number
  constructor
  · exact h.alive
  · exact h.pending
  · exact h.bodyEpoch
  · exact h.epoch
  · exact hnum
  · have hle := h.taken_le
    rw [htaken] at hle
    exact hle
  · intro t ht
    have hw := h.worker t ht
    rw [htaken] at hw
    exact hw
  · exact h.distinct
  · intro e b hb
    have hb' := h.buffered e b hb
    rw [htaken] at hb'
    exact hb'
  · intro e he hle
    exact h.covered e (htaken ▸ he) hle
  · intro b hb
    cases hb
  · intro k hk
    have hk : k < g.storage.blockNum + 1 := hk
    by_cases hlast : k = g.storage.blockNum
    · subst hlast
      refine ⟨block, ?_, hchain.write (hnum ▸ Nat.lt_succ_self _) _⟩
      change Function.update g.storage.blockFile block.header.number (some block) _ = _
      rw [hnum, Function.update_self]
    · obtain ⟨b, hfile, hb⟩ := h.saved k (by omega)
      refine ⟨b, ?_, hb.write (hnum ▸ hk) _⟩
      change Function.update g.storage.blockFile block.header.number (some block) _ = _
      rw [hnum, Function.update_of_ne (by omega)]
      exact hfile
  · intro _ k b hk hfile
    have hk : g.storage.blockNum + 1 = k + 1 := hk
    have hfile : Function.update g.storage.blockFile block.header.number (some block) (k + 1) =
      some b := hfile
    rw [hnum, hk, Function.update_self] at hfile
    cases hfile
    exact hhash

theorem Inv.update (hrun : g.runState = .updating) :
    Inv sha msg sign called added
      { g with
        storage := g.storage.updateLatestSavedEpoch
        currentBlockEpoch := g.currentBlockEpoch + 1
        runState := .waiting } := by
  have htaken : g.taken = g.storage.blockNum + 1 := by
    unfold taken
    rw [hrun]
  have hwritten : g.written = g.storage.blockNum + 1 := by
    unfold written
    rw [hrun]
  have hbuf : g.storage.bufferedEpochFromFile = g.storage.blockNum + 1 := h.latest.trans hwritten
  constructor
  · exact h.alive
  · exact h.pending
  · exact h.bodyEpoch
  · change g.currentBlockEpoch + 1 = g.storage.bufferedEpochFromFile + 1
    rw [h.epoch, hbuf]
  · rfl
  · exact (hbuf.trans htaken.symm).le.trans h.taken_le
  · intro t ht
    have hw := h.worker t ht
    rw [htaken, ← hbuf] at hw
    exact hw
  · exact h.distinct
  · intro e b hb
    have hb' := h.buffered e b hb
    rw [htaken, ← hbuf] at hb'
    exact hb'
  · intro e he hle
    have he : g.storage.bufferedEpochFromFile < e := he
    exact h.covered e (by omega) hle
  · intro b hb
    cases hb
  · intro k hk
    have hk : k < g.storage.bufferedEpochFromFile := hk
    exact h.saved k (by omega)
  · intro _ k b hk
    have hk : g.storage.bufferedEpochFromFile = k + 1 := hk
    refine h.hash ?_ k b (by omega)
    intro b' hb'
    rw [hrun] at hb'
    cases hb'

theorem Inv.step (hcalls : ∀ txs ∈ called, txs ≠ [] ∧ txs.length ≤ mtAlMaxElems)
    (hstep : g.step sha msg sign a = some g') :
    Inv sha msg sign (recordCall (called, added) a).1 (recordCall (called, added) a).2 g' := by
  cases step_cases hstep with
  | add t => exact h.add t
  | call => exact h.generateBlock
  | body hbody => exact h.body hcalls hbody
  | header hcall => exact h.header hcall
  | insert hrun => exact h.insert hrun
  | update hrun => exact h.update hrun

end

theorem calls_subset_snoc (past : List BlockAction) (a : BlockAction) :
    calls past ⊆ calls (past ++ [a]) := by
  unfold calls
  rw [recordCalls_snoc]
  cases a with
  | generateBlock => exact List.subset_append_left _ _
  | _ => exact List.Subset.refl _

/-- What every step keeps while the calls fit into a tree holds after such a run. -/
theorem run_of_calls (I : List (List Transaction) → List Transaction → BlockGeneratorImpl → Prop)
    (hkeep : ∀ called added g a g', I called added g →
      (∀ txs ∈ called, txs ≠ [] ∧ txs.length ≤ mtAlMaxElems) → g.step sha msg sign a = some g' →
        I (recordCall (called, added) a).1 (recordCall (called, added) a).2 g')
    {actions : List BlockAction}
    (hcalls : ∀ txs ∈ calls actions, txs ≠ [] ∧ txs.length ≤ mtAlMaxElems)
    (h : run (step sha msg sign) g actions = some g') (h0 : I [] [] g) :
    I (calls actions) (uncalled actions) g' := by
  refine run_invariant_history
    (fun past g => (∀ txs ∈ calls past, txs ≠ [] ∧ txs.length ≤ mtAlMaxElems) →
      I (calls past) (uncalled past) g) ?_ h (fun _ => h0) hcalls
  intro past g₁ a g₂ hinv hstep hcalls'
  have hpast : ∀ txs ∈ calls past, txs ≠ [] ∧ txs.length ≤ mtAlMaxElems :=
    fun txs htxs => hcalls' txs (calls_subset_snoc past a htxs)
  have hinv' := hkeep _ _ _ _ _ (hinv hpast) hpast hstep
  unfold calls uncalled at hinv' ⊢
  rw [recordCalls_snoc]
  exact hinv'

theorem inv_run {storage : BlockStorageToFile} {resetEpoch : Bool} {actions : List BlockAction}
    (hempty : (storage.construct resetEpoch).blockNum = 0)
    (hcalls : ∀ txs ∈ calls actions, txs ≠ [] ∧ txs.length ≤ mtAlMaxElems)
    (h : run (step sha msg sign) (start storage resetEpoch) actions = some g) :
    Inv sha msg sign (calls actions) (uncalled actions) g :=
  run_of_calls (Inv sha msg sign) (fun _ _ _ _ _ => Inv.step) hcalls h (Inv.start resetEpoch hempty)

/-! ## Every call gets its block -/

/-- The steps that pool and header thread have to make for `n` calls. -/
def remaining (g : BlockGeneratorImpl) (n : Nat) : Nat :=
  g.workers.length + 3 * (n - g.taken) +
    match g.runState with
    | .waiting => 0
    | .inserting _ => 2
    | .updating => 1

section

variable (h : Inv sha msg sign called added g)

include h

theorem Inv.remaining_lt (hcalls : ∀ txs ∈ called, txs ≠ [] ∧ txs.length ≤ mtAlMaxElems)
    (ha : a.background = true) (hstep : g.step sha msg sign a = some g') :
    g'.remaining called.length < g.remaining called.length := by
  cases step_cases hstep with
  | add t => cases ha
  | call => cases ha
  | @body i _ hbody =>
      have halive' := (h.body hcalls hbody).alive
      obtain ⟨e, queue, hget, ⟨-, rfl⟩ | ⟨block, -, rfl⟩⟩ := body_cases hbody
      · cases halive'
      · have hi : i < g.workers.length := (List.getElem?_eq_some_iff.mp hget).1
        have hlen := List.length_eraseIdx_of_lt hi
        unfold remaining taken
        dsimp only
        omega
  | header hcall =>
      have hinv' := h.header hcall
      obtain ⟨hwait, block, -, ⟨-, rfl⟩ | ⟨block', hashResult, -, rfl⟩⟩ := header_cases hcall
      · cases hinv'.alive
      · have hle : g.storage.blockNum + 1 ≤ called.length := hinv'.taken_le
        unfold remaining taken
        rw [hwait]
        dsimp only
        omega
  | insert hrun =>
      unfold remaining taken
      rw [hrun]
      change _ + 3 * (_ - (g.storage.blockNum + 1)) + 1 < _
      dsimp only
      omega
  | update hrun =>
      have hbuf : g.storage.bufferedEpochFromFile = g.storage.blockNum + 1 := by
        rw [h.latest]
        unfold written
        rw [hrun]
      unfold remaining taken
      rw [hrun]
      change _ + 3 * (_ - g.storage.bufferedEpochFromFile) + 0 < _
      rw [hbuf]
      dsimp only
      omega

/-- Nothing is left to do only when every call has its block. -/
theorem Inv.blockNum_of_idle
    (hidle : ∀ a : BlockAction, a.background = true → g.step sha msg sign a = none) :
    g.storage.blockNum = called.length := by
  have halive := not_crashed h.alive
  have hwait : g.runState = .waiting := by
    cases hrun : g.runState with
    | waiting => rfl
    | inserting block =>
        have hno := hidle .insertBlock rfl
        simp [BlockGeneratorImpl.step, h.alive, hrun] at hno
    | updating =>
        have hno := hidle .updateLatestSavedEpoch rfl
        simp [BlockGeneratorImpl.step, h.alive, hrun] at hno
  have htaken : g.taken = g.storage.blockNum := by
    unfold taken
    rw [hwait]
  by_contra hne
  have hlt : g.storage.blockNum < called.length := by
    have := h.taken_le
    omega
  rcases h.covered (g.storage.blockNum + 1) (by omega) hlt with hmem | hsome
  · obtain ⟨t, ht, -⟩ := List.mem_map.mp hmem
    obtain ⟨i, hi⟩ := List.mem_iff_getElem?.mp ht
    have hno := hidle (.generateBlockBody i) rfl
    simp only [BlockGeneratorImpl.step, if_neg halive] at hno
    unfold BlockGeneratorImpl.body at hno
    rw [hi] at hno
    dsimp only at hno
    split at hno <;> cases hno
  · obtain ⟨block, hblock⟩ := Option.isSome_iff_exists.mp hsome
    rw [← h.epoch] at hblock
    have hno := hidle .generateBlockHeader rfl
    simp only [BlockGeneratorImpl.step, if_neg halive] at hno
    unfold BlockGeneratorImpl.header at hno
    rw [hwait, hblock] at hno
    dsimp only at hno
    split at hno <;> cases hno

theorem Inv.background_length (hcalls : ∀ txs ∈ called, txs ≠ [] ∧ txs.length ≤ mtAlMaxElems)
    {actions : List BlockAction} (hback : ∀ a ∈ actions, a.background = true)
    (hrun : run (BlockGeneratorImpl.step sha msg sign) g actions = some g') :
    actions.length ≤ g.remaining called.length := by
  induction actions generalizing g with
  | nil => exact Nat.zero_le _
  | cons a actions ih =>
      obtain ⟨g₁, hstep, hrest⟩ := run_cons_eq_some.mp hrun
      have ha : a.background = true := hback a List.mem_cons_self
      have hinv := h.step hcalls hstep
      rw [recordCall_background ha] at hinv
      have hlen := ih hinv (fun b hb => hback b (List.mem_cons_of_mem a hb)) hrest
      have hlt := h.remaining_lt hcalls ha hstep
      rw [List.length_cons]
      omega

end

theorem remaining_le (g : BlockGeneratorImpl) (n : Nat) :
    g.remaining n ≤ g.workers.length + 3 * n + 2 := by
  unfold remaining
  split <;> omega

/-- From an empty chain every call gets its block, in order and linked to the one before. -/
theorem hash_chain_in_order {storage : BlockStorageToFile} {resetEpoch : Bool}
    {actions : List BlockAction} (hempty : (storage.construct resetEpoch).blockNum = 0)
    (hcalls : ∀ txs ∈ calls actions, txs ≠ [] ∧ txs.length ≤ mtAlMaxElems)
    (h : run (step sha msg sign) (start storage resetEpoch) actions = some g) :
    g.crashed = false ∧ g.storage.blockNum ≤ (calls actions).length ∧
      (∀ k < g.storage.blockNum, ∃ b, g.storage.blockFile (k + 1) = some b ∧
        ChainBlock sha msg g.storage.blockFile (calls actions) k b) ∧
      (∀ more g', (∀ a ∈ more, a.background = true) → run (step sha msg sign) g more = some g' →
        more.length ≤ g.workers.length + 3 * (calls actions).length + 2) ∧
      ((∀ a : BlockAction, a.background = true → g.step sha msg sign a = none) →
        g.storage.blockNum = (calls actions).length) := by
  have hinv := inv_run hempty hcalls h
  have hwritten : g.storage.blockNum ≤ g.written := by
    unfold written
    split <;> omega
  refine ⟨hinv.alive, ?_, ?_, ?_, hinv.blockNum_of_idle⟩
  · exact hwritten.trans ((written_le _).trans hinv.taken_le)
  · intro k hk
    exact hinv.saved k (by omega)
  · intro more g' hback hrun
    exact (hinv.background_length hcalls hback hrun).trans (g.remaining_le _)

def zeroSHA256 : SHA256 where
  hash _ := List.replicate 32 0
  length_hash _ := rfl

def emptyMessages : Messages where
  payloadToString _ := []
  payloadFromString _ := none
  rwSetToString _ := []
  rwSetFromString _ := none

/-- What it takes to save one block with one transaction. -/
def saveOne (tid : Tid) : List BlockAction :=
  [.addCommittedTransaction { tid := tid }, .generateBlock, .generateBlockBody 0,
    .generateBlockHeader, .insertBlock, .updateLatestSavedEpoch]

theorem hash_chain_in_order_two :
    ∃ g, run (step zeroSHA256 emptyMessages id) (start {} true) (saveOne 1 ++ saveOne 2) = some g ∧
      g.storage.blockNum = 2 ∧ ∃ b, g.storage.blockFile 2 = some b ∧
        ChainBlock zeroSHA256 emptyMessages g.storage.blockFile
          [[{ tid := 1 }], [{ tid := 2 }]] 1 b := by
  have hany : (run (step zeroSHA256 emptyMessages id) (start {} true)
      (saveOne 1 ++ saveOne 2)).any (fun g => g.storage.blockNum = 2) = true := by decide
  obtain ⟨g, hg, hnum⟩ := exists_of_any hany
  obtain ⟨-, -, hsaved, -⟩ := hash_chain_in_order rfl (by decide) hg
  exact ⟨g, hg, hnum, hsaved 1 (by omega)⟩

/-! ## Too many transactions -/

theorem run_adds (txs : List Transaction) (halive : g.crashed = false) :
    run (step sha msg sign) g (txs.map .addCommittedTransaction) =
      some { g with
        pendingTransactionQueue := txs.foldl addCommittedTransaction g.pendingTransactionQueue } := by
  induction txs generalizing g with
  | nil => rfl
  | cons t txs ih =>
      let g₁ := { g with
        pendingTransactionQueue := addCommittedTransaction g.pendingTransactionQueue t }
      have hstep : g.step sha msg sign (.addCommittedTransaction t) = some g₁ := by
        rw [step, if_neg]
        rw [halive]
        exact Bool.false_ne_true
      exact run_cons_eq_some.mpr ⟨g₁, hstep, @ih g₁ halive⟩

theorem recordCalls_adds (txs : List Transaction) (past : List (List Transaction) × List Transaction) :
    (txs.map BlockAction.addCommittedTransaction).foldl recordCall past =
      (past.1, past.2 ++ txs) := by
  induction txs generalizing past with
  | nil => simp
  | cons t txs ih =>
      rw [List.map_cons, List.foldl_cons, ih]
      simp [recordCall]

theorem calls_adds (txs : List Transaction) :
    calls (txs.map .addCommittedTransaction ++
      ([.generateBlock, .generateBlockBody 0] : List BlockAction)) = [txs] := by
  unfold calls recordCalls
  rw [List.foldl_append, recordCalls_adds]
  rfl

/-- A task whose body cannot be made stops the process. -/
theorem body_of_none {g : BlockGeneratorImpl} {i epoch : Nat} {queue : TxPriorityQueue}
    (htask : g.workers[i]? = some (epoch, queue)) (hbody : bodyOf sha msg sign queue = none) :
    g.body sha msg sign i = some { g with crashed := true } := by
  have hfail : generateBlockBody sha msg (fun root => some (sign root)) epoch queue = none := by
    rw [← generateBlockBody_snd epoch] at hbody
    exact Option.map_eq_none_iff.mp hbody
  simp only [body, htask, hfail]

theorem crash_of_too_many (txs : List Transaction) (hlong : mtAlMaxElems < txs.length) :
    ∃ g, run (step sha msg sign) (start {} true)
        (txs.map .addCommittedTransaction ++
          ([.generateBlock, .generateBlockBody 0] : List BlockAction)) = some g ∧
      g.crashed = true ∧ g.storage.blockNum = 0 := by
  have hbody : bodyOf sha msg sign (pushAll txs) = none := by
    rw [← Option.not_isSome_iff_eq_none, bodyOf_isSome, (pushAll_perm_self txs).length_eq]
    rintro ⟨-, hle⟩
    omega
  let g₁ : BlockGeneratorImpl := { start {} true with pendingTransactionQueue := pushAll txs }
  refine ⟨{ g₁.generateBlock with crashed := true }, ?_, rfl, rfl⟩
  refine run_append_eq_some.mpr ⟨g₁, run_adds txs rfl, ?_⟩
  refine run_cons_eq_some.mpr ⟨g₁.generateBlock, rfl, run_cons_eq_some.mpr ⟨_, ?_, rfl⟩⟩
  have htask : g₁.generateBlock.workers[0]? = some (1, pushAll txs) := rfl
  exact body_of_none htask hbody

/-- One call with one transaction more than the Merkle tree takes. -/
theorem too_many_transactions :
    ∃ actions txs, calls actions = [txs] ∧ txs ≠ [] ∧ ∀ sha msg sign, ∃ g,
      run (step sha msg sign) (start {} true) actions = some g ∧ g.crashed = true ∧
        g.storage.blockNum = 0 := by
  have hlen : (List.replicate (mtAlMaxElems + 1) ({} : Transaction)).length = mtAlMaxElems + 1 :=
    List.length_replicate
  refine ⟨_, _, calls_adds (List.replicate (mtAlMaxElems + 1) {}), ?_, fun sha msg sign => ?_⟩
  · exact List.ne_nil_of_length_eq_add_one hlen
  · exact crash_of_too_many _ (by omega)

end BlockGeneratorImpl

end NeuChain.Server
