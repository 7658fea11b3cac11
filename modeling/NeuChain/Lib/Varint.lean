/-
  Base-128 varints as byte lists.

  `writeVarint` emits seven bits per byte, low bits first, with the top bit set on every byte
  but the last. `readVarint k` reads at most `k` bytes and fails when the input ends early or
  the `k`-th byte still announces another one.

  * `readVarint_writeVarint`: the reader undoes the writer on every number that fits into the
    bytes it may read, whatever follows.
  * `writeVarint_varintValue`: bytes that were read are those the writer writes, if they are the
    shortest ones.
-/
import Mathlib.Algebra.Ring.Nat
import Mathlib.Data.List.Basic

namespace NeuChain.Lib

def writeVarint (v : Nat) : List UInt8 :=
  if v < 128 then [UInt8.ofNat v]
  else UInt8.ofNat (v % 128 + 128) :: writeVarint (v / 128)
termination_by v

/-- The number read and the bytes after it. -/
def readVarint : Nat → List UInt8 → Option (Nat × List UInt8)
  | 0, _ => none
  | _ + 1, [] => none
  | k + 1, b :: bs =>
      if b.toNat < 128 then some (b.toNat, bs)
      else (readVarint k bs).map fun r => (b.toNat - 128 + 128 * r.1, r.2)

theorem readVarint_writeVarint {k v : Nat} (hk : v < 128 ^ (k + 1)) (rest : List UInt8) :
    readVarint (k + 1) (writeVarint v ++ rest) = some (v, rest) := by
  induction k generalizing v with
  | zero =>
      have hv : v < 128 := by simpa using hk
      have hb : (UInt8.ofNat v).toNat = v := by
        rw [UInt8.toNat_ofNat']
        omega
      rw [writeVarint, if_pos hv]
      simp [readVarint, hb, hv]
  | succ k ih =>
      rw [writeVarint]
      split
      · rename_i hv
        have hb : (UInt8.ofNat v).toNat = v := by
          rw [UInt8.toNat_ofNat']
          omega
        simp [readVarint, hb, hv]
      · have hb : (UInt8.ofNat (v % 128 + 128)).toNat = v % 128 + 128 := by
          rw [UInt8.toNat_ofNat']
          omega
        have hq : v / 128 < 128 ^ (k + 1) := by
          rw [Nat.pow_succ] at hk
          omega
        have hnot : ¬ v % 128 + 128 < 128 := by omega
        have hsum : v % 128 + 128 - 128 + 128 * (v / 128) = v := by omega
        rw [List.cons_append, readVarint, hb, if_neg hnot, ih hq]
        simp only [Option.map_some, hsum]

theorem length_writeVarint_le {k v : Nat} (hk : v < 128 ^ (k + 1)) :
    (writeVarint v).length ≤ k + 1 := by
  induction k generalizing v with
  | zero =>
      rw [writeVarint, if_pos (by simpa using hk)]
      exact Nat.le_refl 1
  | succ k ih =>
      rw [writeVarint]
      split
      · exact Nat.succ_le_succ (Nat.zero_le _)
      · have hq : v / 128 < 128 ^ (k + 1) := by
          rw [Nat.pow_succ] at hk
          omega
        exact Nat.succ_le_succ (ih hq)

/-! ## The bytes of a number -/

/-- The bytes up to the first one with the top bit clear, and the bytes after it. -/
def splitVarint : List UInt8 → List UInt8 × List UInt8
  | [] => ([], [])
  | b :: bs =>
      if b.toNat < 128 then ([b], bs) else (b :: (splitVarint bs).1, (splitVarint bs).2)

/-- The number that the bytes stand for, however many they are. -/
def varintValue : List UInt8 → Nat
  | [] => 0
  | b :: bs => b.toNat % 128 + 128 * varintValue bs

/-- No zero byte at the end that could be left out. -/
def shortest (bs : List UInt8) : Bool := bs.length = 1 ∨ bs.getLast? ≠ some 0

theorem splitVarint_append (bs : List UInt8) : (splitVarint bs).1 ++ (splitVarint bs).2 = bs := by
  induction bs with
  | nil => rfl
  | cons b bs ih =>
      unfold splitVarint
      split
      · rfl
      · rw [List.cons_append, ih]

/-- What is read, in terms of the bytes. -/
theorem readVarint_eq_some {k : Nat} {bs : List UInt8} {r : Nat × List UInt8}
    (h : readVarint k bs = some r) :
    r = (varintValue (splitVarint bs).1, (splitVarint bs).2) ∧ (splitVarint bs).1 ≠ [] := by
  induction k generalizing bs r with
  | zero => cases h
  | succ k ih =>
      cases bs with
      | nil => cases h
      | cons b bs =>
          unfold readVarint at h
          unfold splitVarint
          split at h
          · rename_i hb
            cases h
            rw [if_pos hb]
            have hmod : b.toNat % 128 = b.toNat := Nat.mod_eq_of_lt hb
            simp [varintValue, hmod]
          · rename_i hb
            obtain ⟨r', hr', rfl⟩ := Option.map_eq_some_iff.mp h
            obtain ⟨rfl, -⟩ := ih hr'
            have hmod : b.toNat % 128 = b.toNat - 128 := by
              have := b.toNat_lt
              omega
            rw [if_neg hb]
            simp [varintValue, hmod]

theorem varintValue_pos {k : Nat} {bs : List UInt8} {r : Nat × List UInt8}
    (h : readVarint k bs = some r) (hlast : (splitVarint bs).1.getLast? ≠ some 0) :
    0 < varintValue (splitVarint bs).1 := by
  induction k generalizing bs r with
  | zero => cases h
  | succ k ih =>
      cases bs with
      | nil => cases h
      | cons b bs =>
          unfold readVarint at h
          unfold splitVarint at hlast ⊢
          split at h
          · rename_i hb
            rw [if_pos hb] at hlast ⊢
            have hne : b.toNat ≠ 0 := by
              intro h0
              have hzero : b = 0 := UInt8.toNat_inj.mp h0
              exact hlast (by simp [hzero])
            simp only [varintValue]
            omega
          · rename_i hb
            obtain ⟨r', hr', -⟩ := Option.map_eq_some_iff.mp h
            rw [if_neg hb] at hlast ⊢
            have hne := (readVarint_eq_some hr').2
            rw [List.getLast?_cons_of_ne_nil hne] at hlast
            have hpos := ih hr' hlast
            simp only [varintValue]
            omega

/-- Bytes in the shortest form are those the writer writes. -/
theorem writeVarint_varintValue {k : Nat} {bs : List UInt8} {r : Nat × List UInt8}
    (h : readVarint k bs = some r) (hshort : shortest (splitVarint bs).1) :
    writeVarint (varintValue (splitVarint bs).1) = (splitVarint bs).1 := by
  induction k generalizing bs r with
  | zero => cases h
  | succ k ih =>
      cases bs with
      | nil => cases h
      | cons b bs =>
          unfold readVarint at h
          unfold splitVarint at hshort ⊢
          have hback : UInt8.ofNat b.toNat = b := UInt8.ofNat_toNat
          split at h
          · rename_i hb
            rw [if_pos hb] at hshort ⊢
            have hvalue : varintValue [b] = b.toNat := by
              simp only [varintValue]
              omega
            rw [hvalue, writeVarint, if_pos hb, hback]
          · rename_i hb
            obtain ⟨r', hr', -⟩ := Option.map_eq_some_iff.mp h
            rw [if_neg hb] at hshort ⊢
            have hne := (readVarint_eq_some hr').2
            have hlast : (splitVarint bs).1.getLast? ≠ some 0 := by
              unfold shortest at hshort
              simp only [decide_eq_true_eq] at hshort
              rcases hshort with hlen | hlast
              · simp only [List.length_cons, Nat.add_eq_right, List.length_eq_zero_iff] at hlen
                exact absurd hlen hne
              · rwa [List.getLast?_cons_of_ne_nil hne] at hlast
            have hpos := varintValue_pos hr' hlast
            have hlt := b.toNat_lt
            have hbig : ¬ varintValue (b :: (splitVarint bs).1) < 128 := by
              simp only [varintValue]
              omega
            have hlow : varintValue (b :: (splitVarint bs).1) % 128 + 128 = b.toNat := by
              simp only [varintValue]
              omega
            have hhigh : varintValue (b :: (splitVarint bs).1) / 128 =
                varintValue (splitVarint bs).1 := by
              simp only [varintValue]
              omega
            have htail : shortest (splitVarint bs).1 := by
              unfold shortest
              simp [hlast]
            rw [writeVarint, if_neg hbig, hlow, hhigh, hback, ih hr' htail]

section Write

variable (v : Nat)

theorem splitVarint_writeVarint (rest : List UInt8) :
    splitVarint (writeVarint v ++ rest) = (writeVarint v, rest) := by
  induction v using Nat.strongRecOn with
  | ind v ih =>
      rw [writeVarint]
      split
      · rename_i hv
        have hb : (UInt8.ofNat v).toNat = v := by
          rw [UInt8.toNat_ofNat']
          omega
        simp [splitVarint, hb, hv]
      · rename_i hv
        have hb : ¬ (UInt8.ofNat (v % 128 + 128)).toNat < 128 := by
          rw [UInt8.toNat_ofNat']
          omega
        rw [List.cons_append, splitVarint, if_neg hb, ih (v / 128) (by omega)]

theorem varintValue_writeVarint : varintValue (writeVarint v) = v := by
  induction v using Nat.strongRecOn with
  | ind v ih =>
      rw [writeVarint]
      split
      · simp only [varintValue, UInt8.toNat_ofNat']
        omega
      · simp only [varintValue, UInt8.toNat_ofNat', ih (v / 128) (by omega)]
        omega

theorem writeVarint_ne_nil : writeVarint v ≠ [] := by
  rw [writeVarint]
  split <;> simp

theorem getLast_writeVarint (hv : 0 < v) : (writeVarint v).getLast? ≠ some 0 := by
  induction v using Nat.strongRecOn with
  | ind v ih =>
      rw [writeVarint]
      split
      · intro hzero
        have hbyte : UInt8.ofNat v = 0 := by simpa using hzero
        have hnat : (UInt8.ofNat v).toNat = 0 := by
          rw [hbyte]
          rfl
        rw [UInt8.toNat_ofNat'] at hnat
        omega
      · rw [List.getLast?_cons_of_ne_nil (writeVarint_ne_nil _)]
        exact ih (v / 128) (by omega) (by omega)

theorem shortest_writeVarint : shortest (writeVarint v) := by
  unfold shortest
  rcases Nat.eq_zero_or_pos v with rfl | hv
  · rw [writeVarint]
    simp
  · simp [getLast_writeVarint v hv]

end Write

end NeuChain.Lib
