/-
  How a client asks for the results of a block: `DBUserBase::pollTx`, the `block_query` of
  `QueryController::run`, and where the server keeps the blocks it answers from.

  With `enableEarlyReturn` the answer is the partial block, which `generateBlockBody` has put into
  `partialBlockBuffer`; without, it is the saved block. The entries of a partial block are written
  by `serializeResultToString`, those of a saved block by `serializeToString`. The client decodes
  both with `deserializeResultFromString`, into one transaction object and without looking at what
  it returns.

  A reply is the serialized block, or nothing if there is no such block. Left out: the other
  commands of the controller.

  * `poll_tx_reports`: with early return the client gets the digests and the results. Without,
    it gets no digest at all, and the size of the payload is taken for the result.
-/
import NeuChain.Lib.Decimal
import NeuChain.Server.BlockFormat
import NeuChain.Server.HashChain

namespace NeuChain

/-- What is returned, and the object afterwards: a field is set as soon as it has been read. -/
def deserializeResultFromString (t : Transaction) (raw : Bytes) : Bool × Transaction :=
  match readVarint64 raw with
  | .error _ => (false, t)
  | .ok (tid, bs) =>
      let t := { t with tid := tid }
      match readVarint64 bs with
      | .error _ => (false, t)
      | .ok (epoch, bs) =>
          let t := { t with epoch := epoch }
          match readVarint64 bs with
          | .error _ => (false, t)
          | .ok (digestSize, bs) =>
              match readString digestSize bs with
              | .error _ => (false, t)
              | .ok (digest, bs) =>
                  let t :=
                    { t with transactionPayload := { t.transactionPayload with digest := digest } }
                  match readVarint32 bs with
                  | .error _ => (false, t)
                  | .ok (result, _) =>
                      (true, { t with transactionResult := TransactionResult.ofNat result })

/-! ## Decoding -/

section

variable {v : Nat} {data : Bytes} (rest : Bytes)

theorem readVarint64_writeVarint64 (v : Nat) :
    readVarint64 (writeVarint64 v ++ rest) = .ok (v % 2 ^ 64, rest) := by
  have hmod : writeVarint64 v = writeVarint64 (v % 2 ^ 64) := by
    unfold writeVarint64
    rw [Nat.mod_mod]
  rw [hmod]
  exact readVarint64_write rest (Nat.mod_lt v (by decide))

theorem readVarint32_writeVarint64 (hv : v < 2 ^ 32) :
    readVarint32 (writeVarint64 v ++ rest) = .ok (v, rest) := by
  have hsame : writeVarint64 v = writeVarint32 v := by
    unfold writeVarint64 writeVarint32
    rw [Nat.mod_eq_of_lt hv, Nat.mod_eq_of_lt (Nat.lt_trans hv (by decide))]
  rw [hsame]
  exact readVarint32_write rest hv

theorem deserializeResult_serializeResult (t₀ : Transaction) {t : Transaction}
    (hresult : t.transactionResult.Named) (hlen : t.serializeResultToString.length < 2 ^ 31) :
    deserializeResultFromString t₀ t.serializeResultToString =
      (true, { t₀ with
        tid := t.tid % 2 ^ 64
        epoch := t.epoch % 2 ^ 64
        transactionPayload :=
          { t₀.transactionPayload with digest := t.transactionPayload.digest }
        transactionResult := t.transactionResult }) := by
  have hdigest : t.transactionPayload.digest.length < 2 ^ 31 := by
    simp only [Transaction.serializeResultToString, writeSized, List.length_append] at hlen
    omega
  have hsize : t.transactionPayload.digest.length % 2 ^ 64 = t.transactionPayload.digest.length :=
    Nat.mod_eq_of_lt (Nat.lt_trans hdigest (by decide))
  have hcode := readVarint32_write [] t.transactionResult.toNat_lt
  rw [List.append_nil] at hcode
  unfold deserializeResultFromString Transaction.serializeResultToString writeSized
  simp only [List.append_assoc, readVarint64_writeVarint64, hsize, readString_append _ hdigest,
    hcode, TransactionResult.ofNat_toNat hresult]

/-- The decoder for results, on the whole encoding: the flag is taken for the size of the digest,
    and the size of the payload for the result. -/
theorem deserializeResult_serialize (sha : SHA256) {msg : Messages} (t₀ : Transaction)
    {t : Transaction} (hflag : t.readOnlyFlag = false)
    (hsize : (msg.payloadToString t.transactionPayload).length < 2 ^ 32) :
    ∃ t', deserializeResultFromString t₀ (t.serializeToString sha msg) = (true, t') ∧
      t'.transactionPayload.digest = [] ∧ t'.transactionResult =
        TransactionResult.ofNat (msg.payloadToString t.transactionPayload).length := by
  have hzero : writeVarint32 t.readOnlyFlag.toNat = writeVarint64 0 := by
    rw [hflag]
    rfl
  have hempty : ∀ bs : Bytes, readString (0 % 2 ^ 64) bs = .ok ([], bs) := fun _ => rfl
  unfold deserializeResultFromString Transaction.serializeToString Transaction.fields writeSized
  simp only [List.append_assoc, readVarint64_writeVarint64, hzero, hempty,
    readVarint32_writeVarint64 _ hsize]
  exact ⟨_, rfl, rfl, rfl⟩

theorem TransactionResult.ofNat_eq_abort {n : Nat} :
    TransactionResult.ofNat n = .abort ↔ n = 2 := by
  unfold TransactionResult.ofNat
  split <;> simp_all

end

namespace Server

open Lib

/-! ## Server and client -/

/-- What the query controller reads of the block generator. -/
structure BlockInfo where
  partialBlockBuffer : Nat → Option Block := fun _ => none
  storage : BlockStorageToFile := {}

namespace BlockInfo

/-- `generateBlockBody` with a partial block. -/
def addPartialBlock (info : BlockInfo) (epoch : Nat) (partialBlock : Block) : BlockInfo :=
  let buffer := Function.update info.partialBlockBuffer epoch (some partialBlock)
  { info with
    partialBlockBuffer :=
      if 100 < epoch then Function.update buffer (epoch - 100) none else buffer }

def getPartialConstructedBlock (info : BlockInfo) (blockNum : Nat) : Option Bytes :=
  (info.partialBlockBuffer blockNum).map Block.serializeAsString

def loadBlock (info : BlockInfo) (blockNum : Nat) : Option Bytes :=
  (info.storage.loadBlock blockNum).map Block.serializeAsString

/-- The reply to a `block_query`. The number is converted to `epoch_size_t`. -/
def blockQuery (info : BlockInfo) (earlyReturn : Bool) (payload : Bytes) : Bytes :=
  let blockNum := (Decimal.strtol payload % 2 ^ 64).toNat
  let serializedBlock :=
    if earlyReturn then info.getPartialConstructedBlock blockNum else info.loadBlock blockNum
  serializedBlock.getD []

end BlockInfo

/-- What the client takes from an object: the digest, and whether the result is not ABORT. -/
def report (t : Transaction) : Bytes × Bool :=
  (t.transactionPayload.digest, decide (t.transactionResult ≠ .abort))

/-- The loop of `pollTx` with its one object. -/
def pollLoop : Transaction → List Bytes → List (Bytes × Bool)
  | _, [] => []
  | t, transactionRaw :: data =>
      let t := (deserializeResultFromString t transactionRaw).2
      report t :: pollLoop t data

/-- `none` if the `CHECK` fails. `unparsed` is the block after `ParseFromString` has failed. -/
def pollTx (getReply : Bytes → Bytes) (unparsed : Bytes → Block) (blockNumber : Nat) :
    Option (List (Bytes × Bool)) :=
  if 0 < blockNumber then
    let replyRaw := getReply (Decimal.natToString blockNumber)
    let block := (Block.parseFromString replyRaw).getD (unparsed replyRaw)
    some (pollLoop {} block.data)
  else none

section

variable {info : BlockInfo} {unparsed : Bytes → Block} {epoch : Nat} {b : Block}

/-- The number arrives as it was sent. -/
theorem blockQuery_natToString (h : epoch < 2 ^ 63) (earlyReturn : Bool) :
    info.blockQuery earlyReturn (Decimal.natToString epoch) =
      (if earlyReturn then info.getPartialConstructedBlock epoch else info.loadBlock epoch).getD
        [] := by
  have hnum : (Decimal.strtol (Decimal.natToString epoch) % 2 ^ 64).toNat = epoch := by
    rw [Decimal.strtol_natToString, Decimal.clamp_of_mem (by omega) (by omega)]
    omega
  unfold BlockInfo.blockQuery
  rw [hnum]

/-- The loop over entries of which each, whatever the object holds, gives what `f` says. -/
theorem pollLoop_map {ts : List Transaction} {enc : Transaction → Bytes}
    {f : Transaction → Bytes × Bool}
    (h : ∀ t ∈ ts, ∀ t₀, report (deserializeResultFromString t₀ (enc t)).2 = f t)
    (t₀ : Transaction) : pollLoop t₀ (ts.map enc) = ts.map f := by
  induction ts generalizing t₀ with
  | nil => rfl
  | cons t ts ih =>
      rw [List.map_cons, List.map_cons, pollLoop, h t List.mem_cons_self,
        ih fun t' ht' => h t' (List.mem_cons_of_mem t ht')]

/-- The client goes through the block it has asked for. -/
theorem pollTx_of_reply {getReply : Bytes → Bytes} {ts : List Transaction}
    {enc : Transaction → Bytes} {f : Transaction → Bytes × Bool} (hpos : 0 < epoch)
    (hreply : getReply (Decimal.natToString epoch) = b.serializeAsString)
    (hnumber : b.header.number < 2 ^ 63) (hlen : b.serializeAsString.length < 2 ^ 31)
    (hdata : b.data = ts.map enc)
    (h : ∀ t ∈ ts, (enc t).length < 2 ^ 31 →
      ∀ t₀, report (deserializeResultFromString t₀ (enc t)).2 = f t) :
    pollTx getReply unparsed epoch = some (ts.map f) := by
  have hloop : pollLoop {} b.data = ts.map f := by
    rw [hdata]
    refine pollLoop_map (fun t ht => h t ht ?_) {}
    have hentry : enc t ∈ b.data := by
      rw [hdata]
      exact List.mem_map_of_mem ht
    exact Nat.lt_of_le_of_lt ((length_le_blockDataToString hentry).trans b.data_length_le) hlen
  unfold pollTx
  rw [if_pos hpos, hreply]
  dsimp only
  rw [Block.parse_serialize (Nat.lt_trans hnumber (by decide)) hlen, Option.getD_some, hloop]

theorem report_serializeResult {t : Transaction} (hresult : t.transactionResult.Named)
    (hlen : t.serializeResultToString.length < 2 ^ 31) (t₀ : Transaction) :
    report (deserializeResultFromString t₀ t.serializeResultToString).2 = report t := by
  rw [deserializeResult_serializeResult t₀ hresult hlen]
  rfl

theorem report_serialize {sha : SHA256} {msg : Messages} {t : Transaction}
    (hflag : t.readOnlyFlag = false) (hlen : (t.serializeToString sha msg).length < 2 ^ 31)
    (t₀ : Transaction) :
    report (deserializeResultFromString t₀ (t.serializeToString sha msg)).2 =
      ([], decide ((msg.payloadToString t.transactionPayload).length ≠ 2)) := by
  have hsize : (msg.payloadToString t.transactionPayload).length < 2 ^ 32 := by
    simp only [Transaction.serializeToString, Transaction.fields, writeSized,
      List.length_append] at hlen
    omega
  obtain ⟨t', heq, hd, hr⟩ := deserializeResult_serialize sha t₀ hflag hsize
  unfold report
  rw [heq, hd, hr]
  simp only [ne_eq, TransactionResult.ofNat_eq_abort]

/-- For the blocks of an epoch: with early return the client gets the digest of each transaction and
    whether its result is not ABORT, in the order of the block. Without, it gets no digest, and a
    flag that depends on the size of the payload only, so that this is right of transactions that
    have no digest and whose payload has another size than 2 exactly if they are not aborted. -/
theorem poll_tx_reports {sha : SHA256} {msg : Messages} {rsaEncrypt : Bytes → Option Bytes}
    {txs : List Transaction} {partialBlock body block : Block} {storage : BlockStorageToFile}
    {previousDataHash hashResult : Bytes}
    (hbody : generateBlockBody sha msg rsaEncrypt epoch (pushAll txs) = some (partialBlock, body))
    (hheader : generateBlockHeader sha storage previousDataHash body = some (block, hashResult))
    (hnumber : block.header.number = epoch)
    (hearly : info.partialBlockBuffer epoch = some partialBlock)
    (hsaved : info.storage.loadBlock epoch = some block) (hepoch : epoch < 2 ^ 63)
    (hlen : partialBlock.serializeAsString.length < 2 ^ 31)
    (hlen' : block.serializeAsString.length < 2 ^ 31)
    (hresult : ∀ t ∈ txs, t.transactionResult.Named) :
    (pushAll txs).Perm txs ∧
      pollTx (info.blockQuery true) unparsed epoch = some ((pushAll txs).map report) ∧
      ((∀ t ∈ txs, t.readOnlyFlag = false) →
        pollTx (info.blockQuery false) unparsed epoch = some ((pushAll txs).map fun t =>
          ([], decide ((msg.payloadToString t.transactionPayload).length ≠ 2)))) ∧
      ((∀ t ∈ txs, t.readOnlyFlag = false) → ∀ earlyReturn,
        (pollTx (info.blockQuery earlyReturn) unparsed epoch = some ((pushAll txs).map report) ↔
          earlyReturn = true ∨ ∀ t ∈ txs, t.transactionPayload.digest = [] ∧
            (t.transactionResult ≠ .abort ↔
              (msg.payloadToString t.transactionPayload).length ≠ 2))) := by
  obtain ⟨hpart, hdata, root, signature, -, hmeta⟩ := generateBlockBody_spec hbody
  obtain ⟨hnum, -, -, hdata', -⟩ :=
    generateBlockHeader_content (congrArg (·[0]?) hmeta) (congrArg (·[1]?) hmeta) hheader
  have hpos : 0 < epoch := by
    rw [← hnumber, hnum]
    exact Nat.succ_pos _
  have hperm := pushAll_perm_self txs
  have hmem : ∀ {t}, t ∈ pushAll txs → t ∈ txs := fun ht => hperm.mem_iff.mp ht
  have hon : pollTx (info.blockQuery true) unparsed epoch = some ((pushAll txs).map report) := by
    have hreply : info.blockQuery true (Decimal.natToString epoch) =
        partialBlock.serializeAsString := by
      rw [blockQuery_natToString hepoch]
      simp [BlockInfo.getPartialConstructedBlock, hearly]
    refine pollTx_of_reply hpos hreply ?_ hlen (congrArg Block.data hpart)
      fun t ht => report_serializeResult (hresult t (hmem ht))
    rw [hpart]
    exact hepoch
  have hoff : (∀ t ∈ txs, t.readOnlyFlag = false) →
      pollTx (info.blockQuery false) unparsed epoch = some ((pushAll txs).map fun t =>
        ([], decide ((msg.payloadToString t.transactionPayload).length ≠ 2))) := by
    intro hflag
    have hreply : info.blockQuery false (Decimal.natToString epoch) = block.serializeAsString := by
      rw [blockQuery_natToString hepoch]
      simp [BlockInfo.loadBlock, hsaved]
    exact pollTx_of_reply hpos hreply (hnumber ▸ hepoch) hlen' (hdata'.trans hdata)
      fun t ht => report_serialize (hflag t (hmem ht))
  refine ⟨hperm, hon, hoff, fun hflag earlyReturn => ?_⟩
  cases earlyReturn with
  | true => simp [hon]
  | false =>
      rw [hoff hflag, Option.some.injEq, List.map_inj_left]
      simp only [Bool.false_eq_true, false_or, report, Prod.mk.injEq, decide_eq_decide]
      constructor
      · intro hall t ht
        obtain ⟨hdigest, hiff⟩ := hall t (hperm.mem_iff.mpr ht)
        exact ⟨hdigest.symm, hiff.symm⟩
      · intro hall t ht
        obtain ⟨hdigest, hiff⟩ := hall t (hmem ht)
        exact ⟨hdigest.symm, hiff.symm⟩

end

/-- A transaction that has committed, and one that has not. -/
def polledTransactions : List Transaction :=
  [{ tid := 1, readOnlyFlag := false, transactionResult := .commit
     transactionPayload := { digest := [8] } },
    { tid := 2, readOnlyFlag := false, transactionResult := .abort
      transactionPayload := { digest := [9] } }]

/-- The partial block and the saved block of the epoch 1. -/
def polledBlocks : Option (Block × Block) :=
  (generateBlockBody BlockGeneratorImpl.zeroSHA256 BlockGeneratorImpl.emptyMessages some 1
    (pushAll polledTransactions)).bind fun b =>
      (generateBlockHeader BlockGeneratorImpl.zeroSHA256 {} [] b.2).map fun h => (b.1, h.1)

def polledInfo (blocks : Block × Block) : BlockInfo :=
  BlockInfo.addPartialBlock { storage := BlockStorageToFile.insertBlock {} blocks.2 } 1 blocks.1

theorem poll_tx_reports_two :
    ∃ blocks, polledBlocks = some blocks ∧
      pollTx ((polledInfo blocks).blockQuery true) (fun _ => {}) 1 =
        some ((pushAll polledTransactions).map report) := by
  have hany : polledBlocks.any (fun blocks => blocks.2.header.number = 1 ∧
      blocks.1.serializeAsString.length < 2 ^ 31 ∧ blocks.2.serializeAsString.length < 2 ^ 31) =
        true := by
    decide +kernel
  obtain ⟨blocks, hblocks, hnumber, hlen, hlen'⟩ := exists_of_any hany
  refine ⟨blocks, hblocks, ?_⟩
  obtain ⟨⟨p, body⟩, hbody, hmap⟩ := Option.bind_eq_some_iff.mp hblocks
  obtain ⟨⟨block, hashResult⟩, hheader, rfl⟩ := Option.map_eq_some_iff.mp hmap
  have hearly : (polledInfo (p, block)).partialBlockBuffer 1 = some p := by
    simp [polledInfo, BlockInfo.addPartialBlock]
  have hsaved : (polledInfo (p, block)).storage.loadBlock 1 = some block := by
    have hnumber : block.header.number = 1 := hnumber
    simp [polledInfo, BlockInfo.addPartialBlock, BlockStorageToFile.insertBlock,
      BlockStorageToFile.loadBlock, hnumber]
  have hresult : ∀ t ∈ polledTransactions, t.transactionResult.Named := by
    simp [polledTransactions, TransactionResult.Named]
  exact (poll_tx_reports hbody hheader hnumber hearly hsaved (by decide) hlen hlen' hresult).2.1

/-- From the saved block the client reads two transactions without a digest, both committed. -/
theorem saved_block_misread :
    polledBlocks.map (fun blocks =>
      (pollTx ((polledInfo blocks).blockQuery true) (fun _ => {}) 1,
        pollTx ((polledInfo blocks).blockQuery false) (fun _ => {}) 1)) =
      some (some [([9], false), ([8], true)], some [([], true), ([], true)]) := by
  decide +kernel

end Server

end NeuChain
