/-
  The wire format of protocol buffers: a message is a sequence of fields, each a tag (the number of
  the field and its wire type) and a value, a varint or a string with its size.

  Any sequence of fields is read, in any order and with repetitions; a message says how it takes up
  a field. Of the wire types the two that are written here are read.

  A parser that fails leaves in the message what it has taken up so far (`mergeUntil`). A field of
  type `string` is taken up and then refused if it is not UTF-8. Where only a message that was read
  to its end counts, it is an `Option` (`mergeFrom`).

  * `mergeUntil_writeFields`: reading takes up the fields that were written.
  * `mergeFrom_writeFields`, `foldlM_messageField`: so a message is read back, also one inside
    another.
-/
import NeuChain.Lib.Varint

namespace NeuChain.Lib

inductive WireValue where
  | varint (v : Nat)
  | bytes (data : List UInt8)
deriving DecidableEq, Repr

structure WireField where
  number : Nat
  value : WireValue
deriving DecidableEq, Repr

def WireValue.wireType : WireValue → Nat
  | .varint _ => 0
  | .bytes _ => 2

def WireValue.write : WireValue → List UInt8
  | .varint v => writeVarint v
  | .bytes data => writeVarint data.length ++ data

def WireField.write (f : WireField) : List UInt8 :=
  writeVarint (8 * f.number + f.value.wireType) ++ f.value.write

def writeFields (fs : List WireField) : List UInt8 := fs.flatMap WireField.write

/-- The value of a field with this wire type, and the bytes after it. -/
def readValue (wireType : Nat) (bs : List UInt8) : Option (WireValue × List UInt8) :=
  if wireType = 0 then
    (readVarint 10 bs).map fun r => (.varint (r.1 % 2 ^ 64), r.2)
  else if wireType = 2 then
    (readVarint 5 bs).bind fun r =>
      if r.1 < 2 ^ 31 ∧ r.1 ≤ r.2.length then some (.bytes (r.2.take r.1), r.2.drop r.1) else none
  else none

def readField (bs : List UInt8) : Option (WireField × List UInt8) :=
  (readVarint 5 bs).bind fun r =>
    let tag := r.1 % 2 ^ 32
    if tag / 8 = 0 then none
    else (readValue (tag % 8) r.2).map fun v => ({ number := tag / 8, value := v.1 }, v.2)

/-- The bounds of the format. -/
def WireValue.Valid : WireValue → Prop
  | .varint v => v < 2 ^ 64
  | .bytes data => data.length < 2 ^ 31

structure WireField.Valid (f : WireField) : Prop where
  pos : 0 < f.number
  lt : f.number < 2 ^ 29
  value : f.value.Valid

theorem WireField.write_ne_nil (f : WireField) : f.write ≠ [] := by
  simp [WireField.write, writeVarint_ne_nil]

theorem writeFields_eq_nil {fs : List WireField} : writeFields fs = [] ↔ fs = [] := by
  cases fs with
  | nil => simp [writeFields]
  | cons f fs => simp [writeFields, f.write_ne_nil]

theorem length_le_writeFields (fs : List WireField) : fs.length ≤ (writeFields fs).length := by
  induction fs with
  | nil => simp
  | cons f fs ih =>
      have hpos := List.length_pos_of_ne_nil f.write_ne_nil
      have hcons : writeFields (f :: fs) = f.write ++ writeFields fs := List.flatMap_cons
      rw [hcons, List.length_append, List.length_cons]
      omega

theorem write_length_le {fs : List WireField} {f : WireField} (h : f ∈ fs) :
    f.write.length ≤ (writeFields fs).length :=
  (List.sublist_flatten_of_mem (List.mem_map_of_mem h)).length_le

/-- A string in a message that is not too long is not too long. -/
theorem WireField.valid_of_bytes {number : Nat} {data : List UInt8} (hpos : 0 < number)
    (hlt : number < 2 ^ 29)
    (hlen : (WireField.write { number := number, value := .bytes data }).length < 2 ^ 31) :
    WireField.Valid { number := number, value := .bytes data } := by
  refine ⟨hpos, hlt, ?_⟩
  simp only [WireField.write, WireValue.write, List.length_append] at hlen
  show data.length < 2 ^ 31
  omega

theorem readValue_write {v : WireValue} (h : v.Valid) (rest : List UInt8) :
    readValue v.wireType (v.write ++ rest) = some (v, rest) := by
  cases v with
  | varint n =>
      have hn : n < 2 ^ 64 := h
      have hread : readVarint 10 (writeVarint n ++ rest) = some (n, rest) :=
        readVarint_writeVarint (Nat.lt_trans hn (by decide)) rest
      simp only [readValue, WireValue.wireType, WireValue.write, hread, if_true, Option.map_some,
        Nat.mod_eq_of_lt hn]
  | bytes data =>
      have hlen : data.length < 2 ^ 31 := h
      have hread : readVarint 5 (writeVarint data.length ++ (data ++ rest)) =
          some (data.length, data ++ rest) :=
        readVarint_writeVarint (Nat.lt_trans hlen (by decide)) _
      simp [readValue, WireValue.wireType, WireValue.write, hread]
      omega

theorem readField_write {f : WireField} (h : f.Valid) (rest : List UInt8) :
    readField (f.write ++ rest) = some (f, rest) := by
  have hlt := h.lt
  have hpos := h.pos
  have htype : f.value.wireType < 8 := by
    cases f.value <;> simp [WireValue.wireType]
  have htag : 8 * f.number + f.value.wireType < 2 ^ 32 := by omega
  have hread : readVarint 5 (writeVarint (8 * f.number + f.value.wireType) ++
      (f.value.write ++ rest)) = some (8 * f.number + f.value.wireType, f.value.write ++ rest) :=
    readVarint_writeVarint (Nat.lt_trans htag (by decide)) _
  have hdiv : (8 * f.number + f.value.wireType) / 8 = f.number := by omega
  have hmod : (8 * f.number + f.value.wireType) % 8 = f.value.wireType := by omega
  unfold readField WireField.write
  rw [List.append_assoc, hread]
  simp only [Option.bind_some, Nat.mod_eq_of_lt htag, hdiv, hmod, readValue_write h.value,
    Option.map_some]
  rw [if_neg (Nat.ne_of_gt hpos)]

/-! ## Reading a message -/

section Until

variable {α : Type} {setField : α → WireField → Bool × α} {a c : α} {fs : List WireField}

/-- Fields are taken up until one is refused; that one is in the message. -/
def foldUntil (setField : α → WireField → Bool × α) : α → List WireField → Bool × α
  | a, [] => (true, a)
  | a, f :: fs =>
      let r := setField a f
      if r.1 then foldUntil setField r.2 fs else r

/-- At most so many fields. -/
def readUntil (setField : α → WireField → Bool × α) : Nat → α → List UInt8 → Bool × α
  | _, a, [] => (true, a)
  | 0, a, _ :: _ => (false, a)
  | n + 1, a, b :: bs =>
      match readField (b :: bs) with
      | none => (false, a)
      | some (f, rest) =>
          let r := setField a f
          if r.1 then readUntil setField n r.2 rest else r

/-- `ParseFromString`: what it returns, and the message it leaves. -/
def mergeUntil (setField : α → WireField → Bool × α) (a : α) (raw : List UInt8) : Bool × α :=
  readUntil setField raw.length a raw

theorem readUntil_writeFields (h : ∀ f ∈ fs, f.Valid) {n : Nat} (hn : fs.length ≤ n) :
    readUntil setField n a (writeFields fs) = foldUntil setField a fs := by
  induction fs generalizing n a with
  | nil => cases n <;> rfl
  | cons f fs ih =>
      have hcons : writeFields (f :: fs) = f.write ++ writeFields fs := List.flatMap_cons
      have hfield := readField_write (h f List.mem_cons_self) (writeFields fs)
      cases n with
      | zero => cases hn
      | succ n =>
          have hrest : readUntil setField n (setField a f).2 (writeFields fs) = _ :=
            ih (fun g hg => h g (List.mem_cons_of_mem _ hg)) (Nat.le_of_succ_le_succ hn)
          rw [hcons]
          cases hw : f.write ++ writeFields fs with
          | nil => exact absurd (List.append_eq_nil_iff.mp hw).1 f.write_ne_nil
          | cons b bs =>
              rw [hw] at hfield
              simp only [readUntil, hfield, foldUntil, hrest]

theorem mergeUntil_writeFields (h : ∀ f ∈ fs, f.Valid) :
    mergeUntil setField a (writeFields fs) = foldUntil setField a fs :=
  readUntil_writeFields h (length_le_writeFields fs)

/-- The message with the field, unless it is refused. -/
def accepted (setField : α → WireField → Bool × α) (a : α) (f : WireField) : Option α :=
  if (setField a f).1 then some (setField a f).2 else none

theorem foldUntil_of_foldlM (h : fs.foldlM (accepted setField) a = some c) :
    foldUntil setField a fs = (true, c) := by
  induction fs generalizing a with
  | nil =>
      cases h
      rfl
  | cons f fs ih =>
      rw [List.foldlM_cons] at h
      obtain ⟨a', hfield, hrest⟩ := Option.bind_eq_some_iff.mp h
      obtain ⟨hok, heq⟩ := Option.ite_none_right_eq_some.mp hfield
      cases heq
      simp only [foldUntil, hok, if_true, ih hrest]

end Until

/-! ## Messages -/

/-- A field of type `bytes`, or a message; it is not written if it is empty. -/
def bytesField (number : Nat) (data : List UInt8) : List WireField :=
  if data = [] then [] else [{ number := number, value := .bytes data }]

/-- A field of type `uint64`. -/
def uint64Field (number v : Nat) : List WireField :=
  if v = 0 then [] else [{ number := number, value := .varint v }]

section

variable {α β : Type} {setField : α → WireField → Option α} {a c : α} {fs : List WireField}

/-- A field that cannot be taken up leaves the message as it is. -/
def orRefused (setField : α → WireField → Option α) (a : α) (f : WireField) : Bool × α :=
  match setField a f with
  | some c => (true, c)
  | none => (false, a)

theorem accepted_orRefused : accepted (orRefused setField) = setField := by
  funext a f
  unfold accepted orRefused
  cases setField a f <;> rfl

/-- `ParseFromString`, given how the message takes up a field, into a message that may have fields
    already. -/
def mergeFrom (setField : α → WireField → Option α) (a : α) (raw : List UInt8) : Option α :=
  let r := mergeUntil (orRefused setField) a raw
  if r.1 then some r.2 else none

theorem valid_of_mem_bytesField {number : Nat} {data : List UInt8} {f : WireField}
    (hpos : 0 < number) (hlt : number < 2 ^ 29) (hf : f ∈ bytesField number data)
    (hlen : f.write.length < 2 ^ 31) : f.Valid := by
  unfold bytesField at hf
  split at hf
  · cases hf
  · cases List.mem_singleton.mp hf
    exact WireField.valid_of_bytes hpos hlt hlen

theorem valid_of_mem_uint64Field {number v : Nat} {f : WireField} (hpos : 0 < number)
    (hlt : number < 2 ^ 29) (hv : v < 2 ^ 64) (hf : f ∈ uint64Field number v) : f.Valid := by
  unfold uint64Field at hf
  split at hf
  · cases hf
  · cases List.mem_singleton.mp hf
    exact ⟨hpos, hlt, hv⟩

theorem valid_of_mem_bytesField_of_length {number : Nat} {data : List UInt8} {f : WireField}
    (hpos : 0 < number) (hlt : number < 2 ^ 29) (hlen : data.length < 2 ^ 31)
    (hf : f ∈ bytesField number data) : f.Valid := by
  unfold bytesField at hf
  split at hf
  · cases hf
  · cases List.mem_singleton.mp hf
    exact ⟨hpos, hlt, hlen⟩

/-- A tag has at most five bytes, and so has a length. -/
theorem length_bytesField_le {number : Nat} {data : List UInt8} (hlt : number < 2 ^ 29)
    (hlen : data.length < 2 ^ 31) :
    (writeFields (bytesField number data)).length ≤ 10 + data.length := by
  have htag : (writeVarint (8 * number + 2)).length ≤ 5 := length_writeVarint_le (by omega)
  have hsize : (writeVarint data.length).length ≤ 5 := length_writeVarint_le (by omega)
  unfold bytesField
  split
  · exact Nat.zero_le _
  · simp only [writeFields, WireField.write, WireValue.write, WireValue.wireType,
      List.flatMap_singleton, List.length_append]
    omega

theorem length_uint64Field_le {number v : Nat} (hlt : number < 2 ^ 29) (hv : v < 2 ^ 64) :
    (writeFields (uint64Field number v)).length ≤ 15 := by
  have htag : (writeVarint (8 * number + 0)).length ≤ 5 := length_writeVarint_le (by omega)
  have hnumber : (writeVarint v).length ≤ 10 := length_writeVarint_le (by omega)
  unfold uint64Field
  split
  · exact Nat.zero_le _
  · simp only [writeFields, WireField.write, WireValue.write, WireValue.wireType,
      List.flatMap_singleton, List.length_append]
    omega

/-- What is in a field is not longer than the message. -/
theorem length_le_of_bytesField (number : Nat) {data : List UInt8}
    (h : ∀ f ∈ bytesField number data, f ∈ fs) : data.length ≤ (writeFields fs).length := by
  by_cases hnil : data = []
  · simp [hnil]
  · have hmem := write_length_le (h { number := number, value := .bytes data }
      (by simp [bytesField, hnil]))
    simp only [WireField.write, WireValue.write, List.length_append] at hmem
    omega

theorem mergeFrom_writeFields (hvalid : ∀ f ∈ fs, f.Valid) (hfold : fs.foldlM setField a = some c) :
    mergeFrom setField a (writeFields fs) = some c := by
  rw [← @accepted_orRefused _ setField] at hfold
  unfold mergeFrom
  rw [mergeUntil_writeFields hvalid, foldUntil_of_foldlM hfold]
  rfl

/-- A field that is put at its place by `put`, where its default value stands before. -/
theorem foldlM_uint64Field (put : Nat → α) {number v : Nat}
    (hset : setField (put 0) { number := number, value := .varint v } = some (put v)) :
    (uint64Field number v).foldlM setField (put 0) = some (put v) := by
  unfold uint64Field
  split
  · rename_i hzero
    rw [hzero]
    rfl
  · rw [List.foldlM_cons, hset]
    rfl

theorem foldlM_bytesField (put : List UInt8 → α) {number : Nat} {data : List UInt8}
    (hset : setField (put []) { number := number, value := .bytes data } = some (put data)) :
    (bytesField number data).foldlM setField (put []) = some (put data) := by
  unfold bytesField
  split
  · rename_i hnil
    rw [hnil]
    rfl
  · rw [List.foldlM_cons, hset]
    rfl

/-- A message as a field of another one, which puts it at its place by `put`. -/
theorem foldlM_messageField {outer : β → WireField → Option β} (put : α → β) {number : Nat}
    (houter : ∀ raw, outer (put a) { number := number, value := .bytes raw } =
      (mergeFrom setField a raw).map put)
    (hvalid : ∀ f ∈ fs, f.Valid) (hfold : fs.foldlM setField a = some c) :
    (bytesField number (writeFields fs)).foldlM outer (put a) = some (put c) := by
  unfold bytesField
  split
  · rename_i hnil
    rw [writeFields_eq_nil.mp hnil] at hfold
    cases hfold
    rfl
  · rw [List.foldlM_cons, houter, mergeFrom_writeFields hvalid hfold]
    rfl

/-- A repeated field, whose values come to the end of a list. -/
theorem foldlM_repeated (set : α → WireField → Option α) (field : β → WireField)
    (put : List β → α) {xs : List β} (ys : List β)
    (hset : ∀ ys, ∀ x ∈ xs, set (put ys) (field x) = some (put (ys ++ [x]))) :
    (xs.map field).foldlM set (put ys) = some (put (ys ++ xs)) := by
  induction xs generalizing ys with
  | nil => simp
  | cons x xs ih =>
      rw [List.map_cons, List.foldlM_cons, hset ys x List.mem_cons_self]
      refine (ih (ys ++ [x]) fun ys y hy => hset ys y (List.mem_cons_of_mem x hy)).trans ?_
      rw [List.append_assoc]
      rfl

end

/-! ## Strings -/

/-- The ranges of the bytes that follow the first one of a character. -/
def utf8Ranges (lead : UInt8) : Option (List (Nat × Nat)) :=
  let b := lead.toNat
  if b < 0x80 then some []
  else if b < 0xC2 then none
  else if b < 0xE0 then some [(0x80, 0xBF)]
  else if b = 0xE0 then some [(0xA0, 0xBF), (0x80, 0xBF)]
  else if b = 0xED then some [(0x80, 0x9F), (0x80, 0xBF)]
  else if b < 0xF0 then some [(0x80, 0xBF), (0x80, 0xBF)]
  else if b = 0xF0 then some [(0x90, 0xBF), (0x80, 0xBF), (0x80, 0xBF)]
  else if b < 0xF4 then some [(0x80, 0xBF), (0x80, 0xBF), (0x80, 0xBF)]
  else if b = 0xF4 then some [(0x80, 0x8F), (0x80, 0xBF), (0x80, 0xBF)]
  else none

/-- The rest of a string, with the ranges of the bytes the last character still needs. -/
def utf8Rest : List (Nat × Nat) → List UInt8 → Bool
  | [], [] => true
  | _ :: _, [] => false
  | [], b :: bs =>
      match utf8Ranges b with
      | none => false
      | some ranges => utf8Rest ranges bs
  | (low, high) :: ranges, b :: bs =>
      decide (low ≤ b.toNat ∧ b.toNat ≤ high) && utf8Rest ranges bs

def validUTF8 (data : List UInt8) : Bool := utf8Rest [] data

end NeuChain.Lib
