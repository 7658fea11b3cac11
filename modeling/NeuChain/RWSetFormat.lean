/-
  `KVRWSet` of `kv_rwset.proto` as protobuf writes and reads it.

  The lists are written in the order of their numbers, each read and write as a message of its own.
  `table` and `key` are of type `string`: writing does not check them (it logs an error), but
  reading stops at the first one that is not UTF-8. By then the string and the read or write it
  belongs to are in the message, and they stay there.

  Left out: range queries and metadata writes, which no code fills, and what is left of a field
  that is cut off.

  * `parse_serialize`: a set of less than 2 GiB parses back if its strings are UTF-8.
-/
import NeuChain.Types
import NeuChain.Lib.Wire

namespace NeuChain

open Lib

/-- The generated class: `SerializeAsString`, and `ParseFromString` with what it returns and
    leaves in the message. -/
structure KVRWSetFormat where
  serializeAsString : KVRWSet → Bytes
  parseFromString : Bytes → Bool × KVRWSet

namespace KVRead

def toFields (r : KVRead) : List WireField :=
  bytesField 1 r.table ++ (bytesField 2 r.key ++ bytesField 3 r.value)

def setField (r : KVRead) (f : WireField) : Bool × KVRead :=
  match f.number, f.value with
  | 1, .bytes data => (validUTF8 data, { r with table := data })
  | 2, .bytes data => (validUTF8 data, { r with key := data })
  | 3, .bytes data => (true, { r with value := data })
  | _, _ => (true, r)

end KVRead

namespace KVWrite

def toFields (w : KVWrite) : List WireField :=
  bytesField 1 w.table ++ (bytesField 2 w.key ++ (bytesField 3 w.value ++
    uint64Field 4 w.isDelete.toNat))

def setField (w : KVWrite) (f : WireField) : Bool × KVWrite :=
  match f.number, f.value with
  | 1, .bytes data => (validUTF8 data, { w with table := data })
  | 2, .bytes data => (validUTF8 data, { w with key := data })
  | 3, .bytes data => (true, { w with value := data })
  | 4, .varint v => (true, { w with isDelete := v ≠ 0 })
  | _, _ => (true, w)

end KVWrite

namespace KVRWSet

/-- An element of a repeated field is written even if it is empty. -/
def toFields (s : KVRWSet) : List WireField :=
  s.reads.map (fun r => { number := 1, value := .bytes (writeFields r.toFields) }) ++
    s.writes.map fun w => { number := 3, value := .bytes (writeFields w.toFields) }

def serializeAsString (s : KVRWSet) : Bytes := writeFields s.toFields

/-- A read or write is added before it is parsed. -/
def setField (s : KVRWSet) (f : WireField) : Bool × KVRWSet :=
  match f.number, f.value with
  | 1, .bytes data =>
      let r := mergeUntil KVRead.setField { table := [], key := [], value := [] } data
      (r.1, { s with reads := s.reads ++ [r.2] })
  | 3, .bytes data =>
      let w := mergeUntil KVWrite.setField { table := [], key := [], value := [] } data
      (w.1, { s with writes := s.writes ++ [w.2] })
  | _, _ => (true, s)

def parseFromString (raw : Bytes) : Bool × KVRWSet := mergeUntil setField {} raw

/-- The strings of the set are UTF-8. -/
structure ValidStrings (s : KVRWSet) : Prop where
  reads : ∀ r ∈ s.reads, validUTF8 r.table = true ∧ validUTF8 r.key = true
  writes : ∀ w ∈ s.writes, validUTF8 w.table = true ∧ validUTF8 w.key = true

end KVRWSet

def KVRWSetFormat.protobuf : KVRWSetFormat where
  serializeAsString := KVRWSet.serializeAsString
  parseFromString := KVRWSet.parseFromString

/-! ## Round trip -/

theorem KVRead.foldlM_toFields {r : KVRead} (htable : validUTF8 r.table = true)
    (hkey : validUTF8 r.key = true) :
    r.toFields.foldlM (accepted setField) { table := [], key := [], value := [] } = some r := by
  obtain ⟨table, key, value⟩ := r
  unfold toFields
  rw [List.foldlM_append, foldlM_bytesField (fun data => KVRead.mk data [] []) (if_pos htable),
    Option.bind_eq_bind, Option.bind_some, List.foldlM_append,
    foldlM_bytesField (fun data => KVRead.mk table data []) (if_pos hkey)]
  exact foldlM_bytesField (KVRead.mk table key) rfl

theorem KVWrite.foldlM_toFields {w : KVWrite} (htable : validUTF8 w.table = true)
    (hkey : validUTF8 w.key = true) :
    w.toFields.foldlM (accepted setField) { table := [], key := [], value := [] } = some w := by
  obtain ⟨table, key, value, isDelete⟩ := w
  unfold toFields
  rw [List.foldlM_append,
    foldlM_bytesField (fun data => KVWrite.mk data [] [] false) (if_pos htable),
    Option.bind_eq_bind, Option.bind_some, List.foldlM_append,
    foldlM_bytesField (fun data => KVWrite.mk table data [] false) (if_pos hkey),
    Option.bind_eq_bind, Option.bind_some, List.foldlM_append,
    foldlM_bytesField (fun data => KVWrite.mk table key data false) rfl]
  cases isDelete <;> rfl

namespace KVRWSet

theorem valid_of_mem_read {r : KVRead} (hlen : (writeFields r.toFields).length < 2 ^ 31)
    {f : WireField} (hf : f ∈ r.toFields) : f.Valid := by
  have hf' := Nat.lt_of_le_of_lt (write_length_le hf) hlen
  simp only [KVRead.toFields, List.mem_append] at hf
  rcases hf with hf | hf | hf <;> exact valid_of_mem_bytesField (by decide) (by decide) hf hf'

theorem valid_of_mem_write {w : KVWrite} (hlen : (writeFields w.toFields).length < 2 ^ 31)
    {f : WireField} (hf : f ∈ w.toFields) : f.Valid := by
  have hf' := Nat.lt_of_le_of_lt (write_length_le hf) hlen
  simp only [KVWrite.toFields, List.mem_append] at hf
  rcases hf with hf | hf | hf | hf
  · exact valid_of_mem_bytesField (by decide) (by decide) hf hf'
  · exact valid_of_mem_bytesField (by decide) (by decide) hf hf'
  · exact valid_of_mem_bytesField (by decide) (by decide) hf hf'
  · exact valid_of_mem_uint64Field (by decide) (by decide)
      (Nat.lt_of_le_of_lt w.isDelete.toNat_le (by decide)) hf

theorem valid_of_mem_toFields {s : KVRWSet} (h : s.serializeAsString.length < 2 ^ 31)
    {f : WireField} (hf : f ∈ s.toFields) : f.Valid := by
  have hlen := Nat.lt_of_le_of_lt (write_length_le hf) h
  rcases List.mem_append.mp hf with hf | hf
  · obtain ⟨r, -, rfl⟩ := List.mem_map.mp hf
    exact WireField.valid_of_bytes (by decide) (by decide) hlen
  · obtain ⟨w, -, rfl⟩ := List.mem_map.mp hf
    exact WireField.valid_of_bytes (by decide) (by decide) hlen

theorem setField_read {r : KVRead} (htable : validUTF8 r.table = true)
    (hkey : validUTF8 r.key = true) (hlen : (writeFields r.toFields).length < 2 ^ 31)
    (reads : List KVRead) :
    accepted setField (KVRWSet.mk reads [])
      { number := 1, value := .bytes (writeFields r.toFields) } =
        some (KVRWSet.mk (reads ++ [r]) []) := by
  have hmerge := (mergeUntil_writeFields fun _ hf => valid_of_mem_read hlen hf).trans
    (foldUntil_of_foldlM (KVRead.foldlM_toFields htable hkey))
  simp [accepted, setField, hmerge]

theorem setField_write {w : KVWrite} (htable : validUTF8 w.table = true)
    (hkey : validUTF8 w.key = true) (hlen : (writeFields w.toFields).length < 2 ^ 31)
    (reads : List KVRead) (writes : List KVWrite) :
    accepted setField (KVRWSet.mk reads writes)
      { number := 3, value := .bytes (writeFields w.toFields) } =
        some (KVRWSet.mk reads (writes ++ [w])) := by
  have hmerge := (mergeUntil_writeFields fun _ hf => valid_of_mem_write hlen hf).trans
    (foldUntil_of_foldlM (KVWrite.foldlM_toFields htable hkey))
  simp [accepted, setField, hmerge]

theorem foldlM_toFields {s : KVRWSet} (hstrings : s.ValidStrings)
    (hvalid : ∀ f ∈ s.toFields, f.Valid) :
    s.toFields.foldlM (accepted setField) {} = some s := by
  obtain ⟨reads, writes⟩ := s
  unfold toFields
  rw [List.foldlM_append, foldlM_repeated _ _ (fun reads => KVRWSet.mk reads []) []]
  · refine foldlM_repeated _ _ (KVRWSet.mk reads) [] fun ys w hw => ?_
    obtain ⟨htable, hkey⟩ := hstrings.writes w hw
    exact setField_write htable hkey
      (hvalid _ (List.mem_append_right _ (List.mem_map_of_mem hw))).value reads ys
  · intro ys r hr
    obtain ⟨htable, hkey⟩ := hstrings.reads r hr
    exact setField_read htable hkey
      (hvalid _ (List.mem_append_left _ (List.mem_map_of_mem hr))).value ys

theorem parse_serialize {s : KVRWSet} (hstrings : s.ValidStrings)
    (hlen : s.serializeAsString.length < 2 ^ 31) :
    parseFromString s.serializeAsString = (true, s) := by
  have hvalid : ∀ f ∈ s.toFields, f.Valid := fun _ hf => valid_of_mem_toFields hlen hf
  exact (mergeUntil_writeFields hvalid).trans
    (foldUntil_of_foldlM (foldlM_toFields hstrings hvalid))

end KVRWSet

end NeuChain
