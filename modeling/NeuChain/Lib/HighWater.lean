/-
  The highest number in a log, counted from a start value.

  `Gapless start log`: no entry is more than one above everything before it. Then the mark rises by
  at most one with every entry (`Gapless.highWater_snoc`), and a log stays gapless when numbers at
  most one above its mark are appended, in any order and as often as one likes
  (`Gapless.append`).
-/
import NeuChain.Lib.Log

namespace NeuChain.Lib

def highWater (start : Nat) (log : List Nat) : Nat := log.foldl max start

variable {start b x : Nat} {l m : List Nat}

theorem highWater_append : highWater start (l ++ m) = highWater (highWater start l) m :=
  List.foldl_append

theorem highWater_snoc : highWater start (l ++ [x]) = max (highWater start l) x := by
  rw [highWater_append]
  rfl

theorem highWater_le_iff : highWater start l ≤ b ↔ start ≤ b ∧ ∀ x ∈ l, x ≤ b := by
  induction l generalizing start with
  | nil => simp [highWater]
  | cons y l ih =>
      have h : highWater start (y :: l) = highWater (max start y) l := rfl
      rw [h, ih, Nat.max_le, List.forall_mem_cons, and_assoc]

theorem start_le_highWater : start ≤ highWater start l :=
  (highWater_le_iff.mp (Nat.le_refl _)).1

theorem le_highWater (h : x ∈ l) : x ≤ highWater start l :=
  (highWater_le_iff.mp (Nat.le_refl _)).2 x h

theorem highWater_le_append : highWater start l ≤ highWater start (l ++ m) := by
  rw [highWater_append]
  exact start_le_highWater

/-- The mark is the start value or one of the entries. -/
theorem highWater_mem : highWater start l = start ∨ highWater start l ∈ l := by
  induction l generalizing start with
  | nil => exact Or.inl rfl
  | cons y l ih =>
      have h : highWater start (y :: l) = highWater (max start y) l := rfl
      rw [h]
      rcases @ih (max start y) with heq | hmem
      · rcases Nat.le_total start y with hle | hle
        · right
          rw [heq, Nat.max_eq_right hle]
          exact List.mem_cons_self
        · left
          rw [heq, Nat.max_eq_left hle]
      · exact Or.inr (List.mem_cons_of_mem _ hmem)

def Gapless (start : Nat) (log : List Nat) : Prop :=
  ∀ l₁ x l₂, log = l₁ ++ x :: l₂ → x ≤ highWater start l₁ + 1

theorem gapless_nil : Gapless start [] := by
  intro l₁ x l₂ h
  simp at h

theorem Gapless.snoc (h : Gapless start l) (hx : x ≤ highWater start l + 1) :
    Gapless start (l ++ [x]) := by
  intro l₁ y l₂ heq
  rcases snoc_eq_append_cons heq with ⟨rfl, rfl⟩ | ⟨l', hl⟩
  · exact hx
  · exact h l₁ y l' hl

theorem Gapless.append (h : Gapless start l) (hm : ∀ x ∈ m, x ≤ highWater start l + 1) :
    Gapless start (l ++ m) := by
  induction m generalizing l with
  | nil => rwa [List.append_nil]
  | cons x m ih =>
      have hstep : Gapless start (l ++ [x]) := h.snoc (hm x List.mem_cons_self)
      have hle : highWater start l ≤ highWater start (l ++ [x]) := highWater_le_append
      have hrest := ih hstep fun y hy => by
        have := hm y (List.mem_cons_of_mem x hy)
        omega
      rwa [List.append_assoc] at hrest

/-- The mark rises by at most one. -/
theorem Gapless.highWater_snoc (h : Gapless start (l ++ x :: m)) :
    highWater start (l ++ [x]) = highWater start l ∨
      highWater start (l ++ [x]) = highWater start l + 1 := by
  have hx := h l x m rfl
  rw [Lib.highWater_snoc]
  omega

end NeuChain.Lib
