/-
  Decimal numbers as byte strings: `std::to_string`, and `strtol` with base 10 for a 64-bit `long`.

  `strtol` skips white space, takes an optional sign and as many digits as follow, and ignores
  the rest. Without a digit it is 0. Out of range it is the nearest value.

  * `strtol_toString`: a number in range is read back as it was printed.
  * `isNumeral_natToString`, `natToString_number`: which strings are printed numbers.
-/
import Mathlib.Data.Nat.Digits.Defs
import Mathlib.Data.List.Induction
import Mathlib.Data.List.TakeWhile

namespace NeuChain.Lib

/-- The bytes of a string of ASCII characters. -/
def ascii (s : String) : List UInt8 := s.toList.map fun c => UInt8.ofNat c.toNat

namespace Decimal

/-- The characters for which `isspace` holds: tab to carriage return, and space. -/
def isSpace (c : UInt8) : Bool := c = 32 ∨ 9 ≤ c ∧ c ≤ 13

def isDigit (c : UInt8) : Bool := 48 ≤ c ∧ c ≤ 57

/-- The number that the leading digits make. -/
def number (s : List UInt8) : Nat :=
  (s.takeWhile isDigit).foldl (fun n c => 10 * n + (c.toNat - 48)) 0

/-- The range of a 64-bit `long`. -/
def clamp (z : Int) : Int := max (-2 ^ 63) (min z (2 ^ 63 - 1))

def strtol (s : List UInt8) : Int :=
  match s.dropWhile isSpace with
  | 45 :: rest => clamp (-(number rest))
  | 43 :: rest => clamp (number rest)
  | rest => clamp (number rest)

def natToString (n : Nat) : List UInt8 :=
  if n = 0 then [48] else (Nat.digits 10 n).reverse.map fun d => UInt8.ofNat (48 + d)

/-- `std::to_string` of an integer. -/
def toString (z : Int) : List UInt8 :=
  if z < 0 then 45 :: natToString z.natAbs else natToString z.natAbs

/-! ## Printed numbers -/

theorem toNat_digit {d : Nat} (hd : d < 10) : (UInt8.ofNat (48 + d)).toNat = 48 + d := by
  rw [UInt8.toNat_ofNat']
  omega

theorem isDigit_digit {d : Nat} (hd : d < 10) : isDigit (UInt8.ofNat (48 + d)) = true := by
  have hval := toNat_digit hd
  unfold isDigit
  rw [decide_eq_true_eq, UInt8.le_iff_toNat_le, UInt8.le_iff_toNat_le, hval]
  exact ⟨Nat.le_add_right 48 d, show 48 + d ≤ 57 by omega⟩

theorem isDigit_of_mem_natToString {n : Nat} {c : UInt8} (hc : c ∈ natToString n) :
    isDigit c = true := by
  unfold natToString at hc
  split at hc
  · rw [List.mem_singleton.mp hc]
    rfl
  · obtain ⟨d, hd, rfl⟩ := List.mem_map.mp hc
    exact isDigit_digit (Nat.digits_lt_base (by omega) (List.mem_reverse.mp hd))

theorem natToString_ne_nil (n : Nat) : natToString n ≠ [] := by
  unfold natToString
  split
  · exact List.cons_ne_nil _ _
  · rename_i hn
    rw [ne_eq, List.map_eq_nil_iff, List.reverse_eq_nil_iff]
    exact Nat.digits_ne_nil_iff_ne_zero.mpr hn

theorem natToString_eq_cons (n : Nat) : ∃ c s, natToString n = c :: s ∧ isDigit c = true := by
  obtain ⟨c, s, hcs⟩ := List.exists_cons_of_ne_nil (natToString_ne_nil n)
  exact ⟨c, s, hcs, isDigit_of_mem_natToString (hcs ▸ List.mem_cons_self)⟩

/-- Horner's rule on the digits from the most significant on. -/
theorem foldl_digits {ds : List Nat} (hds : ∀ d ∈ ds, d < 10) :
    (ds.reverse.map fun d => UInt8.ofNat (48 + d)).foldl
      (fun n c => 10 * n + (c.toNat - 48)) 0 = Nat.ofDigits 10 ds := by
  rw [List.map_reverse, List.foldl_reverse, List.foldr_map, Nat.ofDigits_eq_foldr]
  induction ds with
  | nil => rfl
  | cons d ds ih =>
      have hd := hds d List.mem_cons_self
      rw [List.foldr_cons, List.foldr_cons, ih fun d' hd' => hds d' (List.mem_cons_of_mem d hd'),
        toNat_digit hd, Nat.cast_id]
      omega

theorem number_natToString (n : Nat) : number (natToString n) = n := by
  unfold number
  rw [List.takeWhile_eq_self_iff.mpr fun c hc => isDigit_of_mem_natToString hc]
  unfold natToString
  split
  · rename_i hn
    rw [hn]
    rfl
  · rw [foldl_digits fun d hd => Nat.digits_lt_base (by omega) hd, Nat.ofDigits_digits]

theorem toNat_of_isDigit {c : UInt8} (hc : isDigit c = true) : 48 ≤ c.toNat ∧ c.toNat ≤ 57 := by
  have hle : 48 ≤ c ∧ c ≤ 57 := of_decide_eq_true hc
  rw [UInt8.le_iff_toNat_le, UInt8.le_iff_toNat_le] at hle
  exact hle

theorem dropWhile_isSpace_of_digit {c : UInt8} (hc : isDigit c = true) (s : List UInt8) :
    (c :: s).dropWhile isSpace = c :: s := by
  have hle := toNat_of_isDigit hc
  have hspace : isSpace c = false := by
    unfold isSpace
    rw [decide_eq_false_iff_not, UInt8.le_iff_toNat_le, UInt8.le_iff_toNat_le]
    rintro (rfl | ⟨-, hlt⟩)
    · exact absurd hle.1 (by decide)
    · exact absurd (hle.1.trans hlt) (by decide)
  rw [List.dropWhile_cons, hspace]
  rfl

/-- A digit is neither white space nor a sign. -/
theorem strtol_of_digit {c : UInt8} {s : List UInt8} (hc : isDigit c = true) :
    strtol (c :: s) = clamp (number (c :: s)) := by
  have hle := toNat_of_isDigit hc
  unfold strtol
  rw [dropWhile_isSpace_of_digit hc]
  split
  · rename_i heq
    cases heq
    exact absurd hle.1 (by decide)
  · rename_i heq
    cases heq
    exact absurd hle.1 (by decide)
  · rfl

theorem strtol_natToString (n : Nat) : strtol (natToString n) = clamp n := by
  obtain ⟨c, s, hcs, hc⟩ := natToString_eq_cons n
  have hnum := number_natToString n
  rw [hcs] at hnum ⊢
  rw [strtol_of_digit hc, hnum]

theorem clamp_of_mem {z : Int} (hlow : -2 ^ 63 ≤ z) (hhigh : z < 2 ^ 63) : clamp z = z := by
  unfold clamp
  omega

theorem strtol_toString {z : Int} (hlow : -2 ^ 63 ≤ z) (hhigh : z < 2 ^ 63) :
    strtol (toString z) = z := by
  unfold toString
  split
  · rename_i hneg
    have hminus : strtol (45 :: natToString z.natAbs) = clamp (-(number (natToString z.natAbs))) :=
      rfl
    rw [hminus, number_natToString, show -(z.natAbs : Int) = z by omega]
    exact clamp_of_mem hlow hhigh
  · rename_i hnonneg
    rw [strtol_natToString, show (z.natAbs : Int) = z by omega]
    exact clamp_of_mem hlow hhigh

theorem toString_ne_nil (z : Int) : toString z ≠ [] := by
  unfold toString
  split
  · exact List.cons_ne_nil _ _
  · exact natToString_ne_nil _

/-! ## Which strings are printed numbers -/

/-- Digits, with a zero in front only if there is no other. -/
def isNumeral (s : List UInt8) : Bool :=
  s ≠ [] ∧ s.all isDigit ∧ (s.head? = some 48 → s.length = 1)

theorem natToString_of_lt {n : Nat} (hn : n < 10) : natToString n = [UInt8.ofNat (48 + n)] := by
  unfold natToString
  split
  · rename_i hzero
    rw [hzero]
    rfl
  · rename_i hne
    rw [Nat.digits_of_lt 10 n hne hn]
    rfl

/-- The last digit comes off the end. -/
theorem natToString_of_le {n : Nat} (hn : 10 ≤ n) :
    natToString n = natToString (n / 10) ++ [UInt8.ofNat (48 + n % 10)] := by
  have hne : n ≠ 0 := by omega
  have hquot : n / 10 ≠ 0 := by omega
  unfold natToString
  rw [if_neg hne, if_neg hquot, Nat.digits_def' (by decide) (by omega)]
  simp

theorem number_snoc {s : List UInt8} (hs : ∀ c ∈ s, isDigit c = true) {c : UInt8}
    (hc : isDigit c = true) : number (s ++ [c]) = 10 * number s + (c.toNat - 48) := by
  have hall : ∀ b ∈ s ++ [c], isDigit b = true := by
    intro b hb
    rcases List.mem_append.mp hb with hb | hb
    · exact hs b hb
    · rwa [List.mem_singleton.mp hb]
  unfold number
  rw [List.takeWhile_eq_self_iff.mpr hall, List.takeWhile_eq_self_iff.mpr hs, List.foldl_append]
  rfl

theorem head_natToString {n : Nat} (hn : 0 < n) : (natToString n).head? ≠ some 48 := by
  induction n using Nat.strongRecOn with
  | ind n ih =>
      rcases Nat.lt_or_ge n 10 with hlt | hge
      · rw [natToString_of_lt hlt]
        intro hzero
        have hval : (UInt8.ofNat (48 + n)).toNat = (48 : UInt8).toNat :=
          congrArg UInt8.toNat (Option.some.inj hzero)
        rw [toNat_digit hlt] at hval
        have hzero : n = 0 := Nat.add_left_cancel (n := 48) hval
        omega
      · rw [natToString_of_le hge, List.head?_append]
        obtain ⟨c, s, hcs⟩ := List.exists_cons_of_ne_nil (natToString_ne_nil (n / 10))
        have hhead := ih (n / 10) (by omega) (by omega)
        rw [hcs] at hhead ⊢
        exact hhead

theorem isNumeral_natToString (n : Nat) : isNumeral (natToString n) = true := by
  have hdigits : (natToString n).all isDigit = true :=
    List.all_eq_true.mpr fun c hc => isDigit_of_mem_natToString hc
  have hhead : (natToString n).head? = some 48 → (natToString n).length = 1 := by
    intro hzero
    rcases Nat.eq_zero_or_pos n with rfl | hpos
    · rfl
    · exact absurd hzero (head_natToString hpos)
  exact decide_eq_true ⟨natToString_ne_nil n, hdigits, hhead⟩

theorem ofNat_digit {c : UInt8} (hc : isDigit c = true) :
    c.toNat - 48 < 10 ∧ UInt8.ofNat (48 + (c.toNat - 48)) = c := by
  have hle := toNat_of_isDigit hc
  refine ⟨by omega, ?_⟩
  rw [show 48 + (c.toNat - 48) = c.toNat by omega]
  exact UInt8.ofNat_toNat

/-- A numeral is what its number prints as. -/
theorem natToString_number {s : List UInt8} (hs : isNumeral s = true) :
    natToString (number s) = s := by
  induction s using List.reverseRecOn with
  | nil => cases hs
  | append_singleton s c ih =>
      obtain ⟨-, hdigits, hhead⟩ := of_decide_eq_true hs
      rw [List.all_append, Bool.and_eq_true, List.all_eq_true] at hdigits
      have hc : isDigit c = true := by simpa using hdigits.2
      obtain ⟨hlt, hback⟩ := ofNat_digit hc
      rw [number_snoc hdigits.1 hc]
      by_cases hne : s = []
      · subst hne
        have hzero : number [] = 0 := rfl
        rw [hzero, Nat.mul_zero, Nat.zero_add, natToString_of_lt hlt, hback]
        rfl
      · have hhead' : s.head? ≠ some 48 := by
          intro hzero
          have hlen := hhead (by rw [List.head?_append, hzero]; rfl)
          rw [List.length_append, List.length_singleton] at hlen
          exact hne (List.eq_nil_of_length_eq_zero (by omega))
        have hnumeral : isNumeral s = true :=
          decide_eq_true ⟨hne, List.all_eq_true.mpr hdigits.1, fun hzero => absurd hzero hhead'⟩
        have hrest := ih hnumeral
        -- a zero would be printed as one
        have hpos : number s ≠ 0 := by
          intro hzero
          rw [hzero] at hrest
          exact hhead' (by rw [← hrest]; rfl)
        rw [natToString_of_le (by omega), show (10 * number s + (c.toNat - 48)) / 10 = number s by
          omega, hrest, show (10 * number s + (c.toNat - 48)) % 10 = c.toNat - 48 by omega, hback]

theorem natToString_injective {m n : Nat} (h : natToString m = natToString n) : m = n := by
  rw [← number_natToString m, h, number_natToString]

theorem length_natToString_le {n k : Nat} (hn : n < 10 ^ (k + 1)) :
    (natToString n).length ≤ k + 1 := by
  induction k generalizing n with
  | zero =>
      rw [natToString_of_lt hn]
      exact Nat.le_refl 1
  | succ k ih =>
      rcases Nat.lt_or_ge n 10 with hlt | hge
      · rw [natToString_of_lt hlt]
        exact Nat.le_add_left 1 (k + 1)
      · have hquot : n / 10 < 10 ^ (k + 1) := by
          rw [Nat.pow_succ] at hn
          omega
        rw [natToString_of_le hge, List.length_append, List.length_singleton]
        exact Nat.succ_le_succ (ih hquot)

end Decimal

end NeuChain.Lib
