/-
  Registers that keep the smallest number offered to them, with 0 for "nothing yet",
  and the compare-exchange loop that maintains them without a lock.

  `keepLeast v n` is the loop run alone. `casLoop` is one turn of the loop on a register that
  other threads may change between turns: it holds the value `old` it last saw, and
  `compare_exchange_weak` may fail although the register still holds it (`spurious`).

  `Least S v`: `v` is the minimum of the offered set `S`, or 0 when nothing was offered.
  A turn that ends the loop leaves the register non-zero and at most `n` (`casLoop_done`),
  and no turn makes a non-zero register grow (`casLoop_mono`): these two facts are all a
  proof about many threads needs.
-/
import Mathlib.Order.Bounds.Basic
import Mathlib.Data.Set.Insert

namespace NeuChain.Lib

/-- The value after offering `n` to a register that holds `v`. -/
def keepLeast (v n : Nat) : Nat := if v ≤ n ∧ v ≠ 0 then v else n

/-- One turn of the loop: the new register value, and the value to retry with if the loop
    goes on. -/
def casLoop (v old n : Nat) (spurious : Bool) : Nat × Option Nat :=
  if old ≤ n ∧ old ≠ 0 then (v, none)
  else if spurious = true ∨ v ≠ old then (v, some v)
  else (n, none)

/-- What the register shows once exactly the numbers of `S` were offered. -/
def Least (S : Set Nat) (v : Nat) : Prop := (v = 0 ∧ S = ∅) ∨ (v ≠ 0 ∧ IsLeast S v)

variable {S : Set Nat} {v v' n old : Nat}

theorem keepLeast_ne_zero (hn : n ≠ 0) : keepLeast v n ≠ 0 := by
  unfold keepLeast
  split
  · rename_i h; exact h.2
  · exact hn

theorem keepLeast_le : keepLeast v n ≤ n := by
  unfold keepLeast
  split
  · rename_i h; exact h.1
  · exact Nat.le_refl n

theorem keepLeast_le_of_ne_zero (hv : v ≠ 0) : keepLeast v n ≤ v := by
  unfold keepLeast
  split <;> omega

theorem Least.unique (h : Least S v) (h' : Least S v') : v = v' := by
  rcases h with ⟨rfl, hS⟩ | ⟨_, hl⟩ <;> rcases h' with ⟨rfl, hS'⟩ | ⟨_, hl'⟩
  · rfl
  · rw [hS] at hl'; exact absurd hl'.1 (Set.notMem_empty _)
  · rw [hS'] at hl; exact absurd hl.1 (Set.notMem_empty _)
  · exact hl.unique hl'

/-- The test `v < n && v != 0` of a register asks for a smaller number among the offers. -/
theorem Least.lt_iff (h : Least S v) (h0 : (0 : Nat) ∉ S) :
    (v < n ∧ v ≠ 0) ↔ ∃ m ∈ S, m < n := by
  rcases h with ⟨rfl, rfl⟩ | ⟨hv, hl⟩
  · simp
  · constructor
    · intro hlt
      exact ⟨v, hl.1, hlt.1⟩
    · rintro ⟨m, hm, hmn⟩
      exact ⟨Nat.lt_of_le_of_lt (hl.2 hm) hmn, hv⟩

theorem Least.held (h : Least S v) (hn : n ∈ S) : v ≠ 0 ∧ v ≤ n := by
  rcases h with ⟨-, rfl⟩ | ⟨hv, hl⟩
  · exact absurd hn (Set.notMem_empty n)
  · exact ⟨hv, hl.2 hn⟩

theorem Least.offer (h : Least S v) (hn : n ≠ 0) : Least (insert n S) (keepLeast v n) := by
  right
  refine ⟨keepLeast_ne_zero hn, ?_⟩
  rcases h with ⟨rfl, rfl⟩ | ⟨hv, hl⟩
  · simp [keepLeast]
  · unfold keepLeast
    split
    · rename_i hle
      refine ⟨Set.mem_insert_of_mem n hl.1, ?_⟩
      rintro m (rfl | hm)
      · exact hle.1
      · exact hl.2 hm
    · rename_i hgt
      refine ⟨Set.mem_insert n S, ?_⟩
      rintro m (rfl | hm)
      · exact Nat.le_refl _
      · have := hl.2 hm
        omega

/-- A register between offers that are finished (all at least `v`) and the offers it may
    have taken its value from. -/
theorem least_of_bounds (hmem : v ≠ 0 → v ∈ S) (hle : ∀ m ∈ S, v ≠ 0 ∧ v ≤ m) : Least S v := by
  by_cases hv : v = 0
  · left
    refine ⟨hv, Set.eq_empty_of_forall_notMem fun m hm => ?_⟩
    exact (hle m hm).1 hv
  · right
    exact ⟨hv, hmem hv, fun m hm => (hle m hm).2⟩

/-! ## One turn among other threads -/

/-- What a thread knows of a register it saw hold `old`: non-zero values only go down. -/
def Seen (v old : Nat) : Prop := old ≠ 0 → v ≠ 0 ∧ v ≤ old

theorem seen_self : Seen v v := fun h => ⟨h, Nat.le_refl v⟩

variable {spurious : Bool}

/-- A turn leaves the register alone, or lowers it to `n`. -/
theorem casLoop_fst (v old n : Nat) (spurious : Bool) : (casLoop v old n spurious).1 = v ∨
    ((casLoop v old n spurious).1 = n ∧ (v = 0 ∨ n < v)) := by
  unfold casLoop
  split
  · exact Or.inl rfl
  · split
    · exact Or.inl rfl
    · rename_i hstop hok
      right
      refine ⟨rfl, ?_⟩
      push Not at hok
      omega

theorem casLoop_mono (old : Nat) (spurious : Bool) (hn : n ≠ 0) (hv : v ≠ 0) :
    (casLoop v old n spurious).1 ≠ 0 ∧ (casLoop v old n spurious).1 ≤ v := by
  rcases casLoop_fst v old n spurious with h | ⟨h, hlt⟩
  · rw [h]; exact ⟨hv, Nat.le_refl v⟩
  · rw [h]; exact ⟨hn, by omega⟩

theorem Seen.turn {old' : Nat} (hn : n ≠ 0) (h : Seen v old') :
    Seen (casLoop v old n spurious).1 old' := by
  intro ho
  obtain ⟨hv, hle⟩ := h ho
  obtain ⟨hv', hle'⟩ := casLoop_mono old spurious hn hv
  exact ⟨hv', Nat.le_trans hle' hle⟩

/-- When the loop ends the register is non-zero and at most `n`. -/
theorem casLoop_done (hn : n ≠ 0) (hs : Seen v old)
    (hd : (casLoop v old n spurious).2 = none) :
    (casLoop v old n spurious).1 ≠ 0 ∧
      (casLoop v old n spurious).1 ≤ n := by
  unfold casLoop at hd ⊢
  split
  · rename_i h
    obtain ⟨hv, hle⟩ := hs h.2
    exact ⟨hv, Nat.le_trans hle h.1⟩
  · rename_i h
    rw [if_neg h] at hd
    split
    · rename_i hf; rw [if_pos hf] at hd; cases hd
    · exact ⟨hn, Nat.le_refl n⟩

/-- A loop that ends has done what it would have done alone. -/
theorem casLoop_done_eq (hs : Seen v old) (hd : (casLoop v old n spurious).2 = none) :
    (casLoop v old n spurious).1 = keepLeast v n := by
  unfold casLoop keepLeast at *
  by_cases hstop : old ≤ n ∧ old ≠ 0
  · obtain ⟨hv, hle⟩ := hs hstop.2
    rw [if_pos hstop, if_pos ⟨Nat.le_trans hle hstop.1, hv⟩]
  · rw [if_neg hstop] at hd ⊢
    by_cases hfail : spurious = true ∨ v ≠ old
    · rw [if_pos hfail] at hd
      cases hd
    · push Not at hfail
      rw [if_neg (by simpa using hfail), if_neg (by rw [hfail.2]; exact hstop)]

/-- When the loop goes on it has just loaded the register. -/
theorem casLoop_retry {o : Nat} (hd : (casLoop v old n spurious).2 = some o) :
    (casLoop v old n spurious).1 = v ∧ o = v := by
  unfold casLoop at hd ⊢
  split
  · rename_i h; rw [if_pos h] at hd; cases hd
  · rename_i h
    rw [if_neg h] at hd
    split
    · rename_i hf; rw [if_pos hf] at hd; cases hd; exact ⟨rfl, rfl⟩
    · rename_i hf; rw [if_neg hf] at hd; cases hd

/-- With an up-to-date value, and no spurious failure, the loop ends. -/
theorem casLoop_self (v n : Nat) : (casLoop v v n false).2 = none := by
  unfold casLoop
  split
  · rfl
  · simp

end NeuChain.Lib
