/-
  The audit of a saved block, `BlockGeneratorImpl::deserializeBlock` with `verify` and `validate`,
  on the blocks the server itself has made.

  The hash in a header is that of the results and the Merkle root; the audit hashes the
  transactions, the results and the Merkle root. `deserializeBlock` is `none` where a `CHECK` fails,
  or metadata that is not there is read. `rsaDecrypt digest signature` checks a signature.

  Of the block it loads only what is returned is modelled: the block itself is `loadBlock`'s.

  * `own_block_audit`: without `verify` the server's own blocks pass. With `verify` they pass only
    where two different strings have the same hash.
-/
import NeuChain.Server.BlockFormat
import NeuChain.Server.HashChain

namespace NeuChain.Server

open NeuChain Merkle

/-- With `skipVerify`, the default, the Merkle root is taken from the block. -/
def signatureValidate (sha : SHA256) (rsaDecrypt : Bytes → Bytes → Bool) (block : Block)
    (signature : Bytes) (skipVerify : Bool := true) : Option Bool := do
  let merkleRoot ← block.metadata[1]?
  let root ←
    if skipVerify then some merkleRoot
    else do
      let mt ← mtOfList sha (block.data.map sha.hash)
      let root ← mtGetRoot mt
      if root = merkleRoot then some root else none
  if rsaDecrypt root signature then some true else none

/-- The part of `deserializeBlock` under `verify`. -/
def verifyDataHash (sha : SHA256) (block : Block) : Option Bool := do
  let results ← block.metadata[0]?
  let merkleRoot ← block.metadata[1]?
  let hashResult := sha.hash (blockDataToString block.data ++ (results ++ merkleRoot))
  some (hashResult = block.header.dataHash ∧ 3 ≤ block.metadata.length)

def deserializeBlock (sha : SHA256) (rsaDecrypt : Bytes → Bytes → Bool)
    (storage : BlockStorageToFile) (epoch : Nat) (verify validate : Bool) : Option Bool :=
  match storage.loadBlock epoch with
  | none => some false
  | some block => do
      let verified ← if verify then verifyDataHash sha block else some true
      if verified && validate then
        let signature ← block.metadata[2]?
        signatureValidate sha rsaDecrypt block signature
      else some verified

section

variable {sha : SHA256} {msg : Messages} {rsaEncrypt : Bytes → Option Bytes}
  {rsaDecrypt : Bytes → Bytes → Bool} {storage : BlockStorageToFile} {block body : Block}

/-- The block that was appended last is the one that is loaded. -/
theorem loadBlock_appendBlock (storage : BlockStorageToFile) (block : Block) :
    (storage.appendBlock block).loadBlock block.header.number = some block := by
  simp [BlockStorageToFile.appendBlock, BlockStorageToFile.updateLatestSavedEpoch,
    BlockStorageToFile.insertBlock, BlockStorageToFile.loadBlock]

/-- What the audit of a block with a signed root comes to. -/
theorem deserializeBlock_of_signed {epoch : Nat} {m₀ m₁ signature : Bytes}
    (hload : storage.loadBlock epoch = some block) (hmeta : block.metadata = [m₀, m₁, signature])
    (hsigned : rsaDecrypt m₁ signature = true) (verify validate : Bool) :
    deserializeBlock sha rsaDecrypt storage epoch verify validate = some (!verify ||
      decide (sha.hash (blockDataToString block.data ++ (m₀ ++ m₁)) = block.header.dataHash)) := by
  have hvalid : signatureValidate sha rsaDecrypt block signature = some true := by
    simp [signatureValidate, hmeta, hsigned]
  have hverify : verifyDataHash sha block = some
      (sha.hash (blockDataToString block.data ++ (m₀ ++ m₁)) = block.header.dataHash : Bool) := by
    simp [verifyDataHash, hmeta]
  have hsig : block.metadata[2]? = some signature := by
    rw [hmeta]
    rfl
  unfold deserializeBlock
  rw [hload]
  cases verify with
  | false => cases validate <;> simp [hsig, hvalid]
  | true =>
      by_cases heq : sha.hash (blockDataToString block.data ++ (m₀ ++ m₁)) = block.header.dataHash
      · cases validate <;> simp [hverify, heq, hsig, hvalid]
      · simp [hverify, heq]

/-- The audit of a block of the server passes exactly without `verify`, or if the string that the
    audit hashes and the string that was hashed for the header, which differ, have the
    same hash. -/
theorem own_block_audit
    (hrsa : ∀ digest signature, rsaEncrypt digest = some signature →
      rsaDecrypt digest signature = true)
    {txs : List Transaction} (hne : txs ≠ []) {epoch : Epoch} {partialBlock : Block}
    (hbody : generateBlockBody sha msg rsaEncrypt epoch (pushAll txs) = some (partialBlock, body))
    {previousDataHash hashResult : Bytes}
    (hheader : generateBlockHeader sha storage previousDataHash body = some (block, hashResult))
    (verify validate : Bool) :
    ∃ m₀ m₁ signature, block.metadata = [m₀, m₁, signature] ∧
      blockDataToString block.data ++ (m₀ ++ m₁) ≠ m₀ ++ m₁ ∧
      deserializeBlock sha rsaDecrypt (storage.appendBlock block) block.header.number verify
        validate = some (!verify || decide
          (sha.hash (blockDataToString block.data ++ (m₀ ++ m₁)) = sha.hash (m₀ ++ m₁))) ∧
      (deserializeBlock sha rsaDecrypt (storage.appendBlock block) block.header.number verify
          validate = some true ↔ verify = false ∨
        sha.hash (blockDataToString block.data ++ (m₀ ++ m₁)) = sha.hash (m₀ ++ m₁)) := by
  obtain ⟨-, hdata, root, signature, hsign, hmeta⟩ := generateBlockBody_spec hbody
  have h₀ : body.metadata[0]? = some _ := congrArg (·[0]?) hmeta
  have h₁ : body.metadata[1]? = some root := congrArg (·[1]?) hmeta
  obtain ⟨-, hhash, -, hdata', hmeta'⟩ := generateBlockHeader_content h₀ h₁ hheader
  have haudit : deserializeBlock sha rsaDecrypt (storage.appendBlock block) block.header.number
      verify validate = _ := deserializeBlock_of_signed (loadBlock_appendBlock storage block)
    (hmeta'.trans hmeta) (hrsa root signature hsign) verify validate
  rw [hhash] at haudit
  refine ⟨_, root, signature, hmeta'.trans hmeta, ?_, haudit, ?_⟩
  · intro heq
    have hnil := blockDataToString_eq_nil.mp (List.append_left_eq_self.mp heq)
    rw [hdata', hdata, List.map_eq_nil_iff] at hnil
    exact pushAll_ne_nil hne hnil
  · rw [haudit]
    simp

end

/-- The length of what is hashed, as the first byte. -/
def lengthSHA256 : SHA256 where
  hash data := UInt8.ofNat data.length :: List.replicate 31 0
  length_hash _ := rfl

/-- The body of a block with one transaction, and the block as it is first saved. -/
def auditedBody : Option (Block × Block) :=
  generateBlockBody lengthSHA256 BlockGeneratorImpl.emptyMessages some 1 (pushAll [{ tid := 1 }])

def auditedBlock : Option (Block × Bytes) :=
  auditedBody.bind fun b => generateBlockHeader lengthSHA256 {} [] b.2

theorem own_block_audit_one :
    ∃ p body block hashResult, auditedBody = some (p, body) ∧
      auditedBlock = some (block, hashResult) ∧
      deserializeBlock lengthSHA256 (· == ·) (BlockStorageToFile.appendBlock {} block)
        block.header.number false true = some true := by
  obtain ⟨⟨block, hashResult⟩, hblock⟩ : ∃ b, auditedBlock = some b :=
    Option.isSome_iff_exists.mp (by decide +kernel)
  obtain ⟨⟨p, body⟩, hbody, hheader⟩ := Option.bind_eq_some_iff.mp hblock
  have hrsa : ∀ digest signature : Bytes, some digest = some signature →
      (digest == signature) = true := fun _ _ h => beq_iff_eq.mpr (Option.some.inj h)
  have hne : [({ tid := 1 } : Transaction)] ≠ [] := List.cons_ne_nil _ _
  obtain ⟨_, _, _, -, -, -, hpasses⟩ := own_block_audit hrsa hne hbody hheader false true
  exact ⟨p, body, block, hashResult, hbody, hblock, hpasses.mpr (Or.inl rfl)⟩

/-- Verified, the same block is rejected. -/
theorem own_block_rejected :
    auditedBlock.map (fun b => deserializeBlock lengthSHA256 (· == ·)
      (BlockStorageToFile.appendBlock {} b.1) b.1.header.number true true) =
        some (some false) := by
  decide +kernel

end NeuChain.Server
