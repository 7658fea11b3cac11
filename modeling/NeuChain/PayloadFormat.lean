/-
  `TransactionPayload` of `transaction.proto` as protobuf writes and reads it.

  A field with its default value is not written; the others are written once, in the order of their
  numbers. On reading they may come in any order, and the last one of a number counts.

  Left out: fields that the message does not have. protobuf keeps them aside and
  writes them again; a string with such a field does not parse here.

  * `parse_serialize`: a payload of less than 2 GiB parses back.
-/
import NeuChain.Codec
import NeuChain.Lib.Wire

namespace NeuChain

open Lib

namespace TransactionPayload

def toFields (p : TransactionPayload) : List WireField :=
  bytesField 1 p.header ++ (bytesField 2 p.payload ++ (uint64Field 3 p.nonce.toNat ++
    bytesField 4 p.digest))

def serializeAsString (p : TransactionPayload) : Bytes := writeFields p.toFields

def setField (p : TransactionPayload) (f : WireField) : Option TransactionPayload :=
  match f.number, f.value with
  | 1, .bytes data => some { p with header := data }
  | 2, .bytes data => some { p with payload := data }
  | 3, .varint v => some { p with nonce := UInt64.ofNat v }
  | 4, .bytes data => some { p with digest := data }
  | _, _ => none

def parseFromString (raw : Bytes) : Option TransactionPayload := mergeFrom setField {} raw

def clearDigest (p : TransactionPayload) : TransactionPayload := { p with digest := [] }

/-! ## Round trip -/

theorem foldlM_toFields (p : TransactionPayload) : p.toFields.foldlM setField {} = some p := by
  obtain ⟨header, payload, nonce, digest⟩ := p
  have hzero : nonce.toNat = 0 ↔ nonce = 0 := UInt64.toNat_inj (b := 0)
  simp only [toFields, bytesField, uint64Field, List.foldlM_append, hzero]
  by_cases h₁ : header = [] <;> by_cases h₂ : payload = [] <;> by_cases h₃ : nonce = 0 <;>
    by_cases h₄ : digest = [] <;> simp [h₁, h₂, h₃, h₄, setField]

theorem valid_of_mem_toFields {p : TransactionPayload} (h : p.serializeAsString.length < 2 ^ 31)
    {f : WireField} (hf : f ∈ p.toFields) : f.Valid := by
  have hlen : f.write.length < 2 ^ 31 := Nat.lt_of_le_of_lt (write_length_le hf) h
  simp only [toFields, List.mem_append] at hf
  rcases hf with hf | hf | hf | hf
  · exact valid_of_mem_bytesField (by decide) (by decide) hf hlen
  · exact valid_of_mem_bytesField (by decide) (by decide) hf hlen
  · exact valid_of_mem_uint64Field (by decide) (by decide) p.nonce.toNat_lt hf
  · exact valid_of_mem_bytesField (by decide) (by decide) hf hlen

theorem parse_serialize {p : TransactionPayload} (h : p.serializeAsString.length < 2 ^ 31) :
    parseFromString p.serializeAsString = some p :=
  mergeFrom_writeFields (fun _ hf => valid_of_mem_toFields h hf) (foldlM_toFields p)

end TransactionPayload

end NeuChain
