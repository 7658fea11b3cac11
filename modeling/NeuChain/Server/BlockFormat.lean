/-
  `Block` of `block.proto` as protobuf writes and reads it: header, data and metadata are messages
  inside the block. Data and metadata are lists of strings.

  protobuf writes a part that has been set even if it is empty. Here an empty part is not written;
  it is read alike.

  * `parse_serialize`: a block of less than 2 GiB parses back.
-/
import NeuChain.Lib.Wire
import NeuChain.Server.BlockGenerator

namespace NeuChain.Server

open NeuChain Lib

namespace BlockHeader

def toFields (h : BlockHeader) : List WireField :=
  uint64Field 1 (h.number % 2 ^ 64) ++ (bytesField 2 h.previousHash ++ bytesField 3 h.dataHash)

def setField (h : BlockHeader) (f : WireField) : Option BlockHeader :=
  match f.number, f.value with
  | 1, .varint v => some { h with number := v }
  | 2, .bytes data => some { h with previousHash := data }
  | 3, .bytes data => some { h with dataHash := data }
  | _, _ => none

theorem foldlM_toFields {h : BlockHeader} (hnumber : h.number < 2 ^ 64) :
    h.toFields.foldlM setField {} = some h := by
  obtain ⟨number, previousHash, dataHash⟩ := h
  simp only [toFields, bytesField, uint64Field, List.foldlM_append, Nat.mod_eq_of_lt hnumber]
  by_cases h₁ : number = 0 <;> by_cases h₂ : previousHash = [] <;> by_cases h₃ : dataHash = [] <;>
    simp [h₁, h₂, h₃, setField]

theorem valid_of_mem_toFields {h : BlockHeader} (hlen : (writeFields h.toFields).length < 2 ^ 31)
    {f : WireField} (hf : f ∈ h.toFields) : f.Valid := by
  have hf' : f.write.length < 2 ^ 31 := Nat.lt_of_le_of_lt (write_length_le hf) hlen
  simp only [toFields, List.mem_append] at hf
  rcases hf with hf | hf | hf
  · exact valid_of_mem_uint64Field (by decide) (by decide) (Nat.mod_lt _ (by decide)) hf
  · exact valid_of_mem_bytesField (by decide) (by decide) hf hf'
  · exact valid_of_mem_bytesField (by decide) (by decide) hf hf'

end BlockHeader

/-! ## Data and metadata -/

/-- `repeated bytes data = 1`, and the same for `metadata`. -/
def repeatedFields (data : List Bytes) : List WireField :=
  data.map fun d => { number := 1, value := .bytes d }

def addField (data : List Bytes) (f : WireField) : Option (List Bytes) :=
  match f.number, f.value with
  | 1, .bytes d => some (data ++ [d])
  | _, _ => none

/-- `SerializeAsString` of `BlockData`. -/
def blockDataToString (data : List Bytes) : Bytes := writeFields (repeatedFields data)

theorem foldlM_repeatedFields (data acc : List Bytes) :
    (repeatedFields data).foldlM addField acc = some (acc ++ data) := by
  induction data generalizing acc with
  | nil => simp [repeatedFields]
  | cons d data ih =>
      have hcons : repeatedFields (d :: data) =
          { number := 1, value := .bytes d } :: repeatedFields data := List.map_cons
      rw [hcons, List.foldlM_cons]
      simp [addField, ih]

theorem valid_of_mem_repeatedFields {data : List Bytes}
    (hlen : (writeFields (repeatedFields data)).length < 2 ^ 31) {f : WireField}
    (hf : f ∈ repeatedFields data) : f.Valid := by
  have hf' : f.write.length < 2 ^ 31 := Nat.lt_of_le_of_lt (write_length_le hf) hlen
  obtain ⟨d, -, rfl⟩ := List.mem_map.mp hf
  exact WireField.valid_of_bytes (by decide) (by decide) hf'

/-- A string of the data is not longer than the data. -/
theorem length_le_blockDataToString {data : List Bytes} {d : Bytes} (hd : d ∈ data) :
    d.length ≤ (blockDataToString data).length := by
  have hmem : { number := 1, value := .bytes d } ∈ repeatedFields data := List.mem_map_of_mem hd
  have hwrite := write_length_le hmem
  simp only [WireField.write, WireValue.write, List.length_append] at hwrite
  unfold blockDataToString
  omega

theorem blockDataToString_eq_nil {data : List Bytes} : blockDataToString data = [] ↔ data = [] := by
  rw [blockDataToString, writeFields_eq_nil, repeatedFields, List.map_eq_nil_iff]

/-! ## Blocks -/

namespace Block

def toFields (b : Block) : List WireField :=
  bytesField 1 (writeFields b.header.toFields) ++ (bytesField 2 (blockDataToString b.data) ++
    bytesField 3 (blockDataToString b.metadata))

def setField (b : Block) (f : WireField) : Option Block :=
  match f.number, f.value with
  | 1, .bytes raw =>
      (mergeFrom BlockHeader.setField b.header raw).map fun header => { b with header := header }
  | 2, .bytes raw => (mergeFrom addField b.data raw).map fun data => { b with data := data }
  | 3, .bytes raw =>
      (mergeFrom addField b.metadata raw).map fun metadata => { b with metadata := metadata }
  | _, _ => none

def serializeAsString (b : Block) : Bytes := writeFields b.toFields

def parseFromString (raw : Bytes) : Option Block := mergeFrom setField {} raw

theorem header_length_le (b : Block) :
    (writeFields b.header.toFields).length ≤ b.serializeAsString.length :=
  length_le_of_bytesField 1 fun _ hf => List.mem_append_left _ hf

theorem data_length_le (b : Block) :
    (blockDataToString b.data).length ≤ b.serializeAsString.length :=
  length_le_of_bytesField 2 fun _ hf =>
    List.mem_append_right _ (List.mem_append_left _ hf)

theorem metadata_length_le (b : Block) :
    (blockDataToString b.metadata).length ≤ b.serializeAsString.length :=
  length_le_of_bytesField 3 fun _ hf =>
    List.mem_append_right _ (List.mem_append_right _ hf)

theorem foldlM_toFields {b : Block} (hnumber : b.header.number < 2 ^ 64)
    (hlen : b.serializeAsString.length < 2 ^ 31) : b.toFields.foldlM setField {} = some b := by
  have hheader : (bytesField 1 (writeFields b.header.toFields)).foldlM setField {} =
      some { header := b.header } :=
    foldlM_messageField (fun header => ({ header := header } : Block)) (fun _ => rfl)
      (fun _ hf => BlockHeader.valid_of_mem_toFields
        (Nat.lt_of_le_of_lt b.header_length_le hlen) hf)
      (BlockHeader.foldlM_toFields hnumber)
  have hdata : (bytesField 2 (blockDataToString b.data)).foldlM setField { header := b.header } =
      some { header := b.header, data := b.data } :=
    foldlM_messageField (fun data => ({ header := b.header, data := data } : Block)) (fun _ => rfl)
      (fun _ hf => valid_of_mem_repeatedFields (Nat.lt_of_le_of_lt b.data_length_le hlen) hf)
      (foldlM_repeatedFields b.data [])
  have hmetadata : (bytesField 3 (blockDataToString b.metadata)).foldlM setField
      { header := b.header, data := b.data } = some b :=
    foldlM_messageField
      (fun metadata => ({ header := b.header, data := b.data, metadata := metadata } : Block))
      (fun _ => rfl)
      (fun _ hf => valid_of_mem_repeatedFields (Nat.lt_of_le_of_lt b.metadata_length_le hlen) hf)
      (foldlM_repeatedFields b.metadata [])
  unfold toFields
  rw [List.foldlM_append, hheader]
  simp only [bind, Option.bind_some]
  rw [List.foldlM_append, hdata]
  exact hmetadata

theorem valid_of_mem_toFields {b : Block} (hlen : b.serializeAsString.length < 2 ^ 31)
    {f : WireField} (hf : f ∈ b.toFields) : f.Valid := by
  have hf' : f.write.length < 2 ^ 31 := Nat.lt_of_le_of_lt (write_length_le hf) hlen
  simp only [toFields, List.mem_append] at hf
  rcases hf with hf | hf | hf <;> exact valid_of_mem_bytesField (by decide) (by decide) hf hf'

theorem parse_serialize {b : Block} (hnumber : b.header.number < 2 ^ 64)
    (hlen : b.serializeAsString.length < 2 ^ 31) : parseFromString b.serializeAsString = some b :=
  mergeFrom_writeFields (fun _ hf => valid_of_mem_toFields hlen hf) (foldlM_toFields hnumber hlen)

end Block

end NeuChain.Server
