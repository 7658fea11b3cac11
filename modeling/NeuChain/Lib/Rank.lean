/-
  The rank of an element: how many elements of a list come before it.

  If the relation is a strict total order on the list and no element occurs twice, every number below
  the length is the rank of exactly one element (`existsUnique_rank`). So parties that know one
  another's names can number themselves without a message.
-/
import Mathlib.Data.Finset.Card

namespace NeuChain.Lib

variable {α : Type*} (r : α → α → Prop) [DecidableRel r]

def rank (l : List α) (x : α) : Nat := l.countP fun y => r y x

/-- A strict total order on the elements of `l`. -/
structure StrictOn (l : List α) : Prop where
  irrefl : ∀ x ∈ l, ¬ r x x
  trans : ∀ x ∈ l, ∀ y ∈ l, ∀ z ∈ l, r x y → r y z → r x z
  total : ∀ x ∈ l, ∀ y ∈ l, x ≠ y → r x y ∨ r y x

variable {r} {l : List α} {x y : α}

theorem countP_lt_countP {p q : α → Bool} (hpq : ∀ x ∈ l, p x = true → q x = true) (hx : x ∈ l)
    (hp : p x = false) (hq : q x = true) : l.countP p < l.countP q := by
  obtain ⟨l₁, l₂, rfl⟩ := List.append_of_mem hx
  have h₁ : l₁.countP p ≤ l₁.countP q := List.countP_mono_left fun y hy => hpq y (by simp [hy])
  have h₂ : l₂.countP p ≤ l₂.countP q := List.countP_mono_left fun y hy => hpq y (by simp [hy])
  simp only [List.countP_append, List.countP_cons, hp, hq]
  simp only [Bool.false_eq_true, if_false, if_true]
  omega

theorem StrictOn.rank_lt_length (h : StrictOn r l) (hx : x ∈ l) : rank r l x < l.length :=
  List.countP_lt_length_iff.mpr ⟨x, hx, decide_eq_false (h.irrefl x hx)⟩

theorem StrictOn.rank_lt_rank (h : StrictOn r l) (hx : x ∈ l) (hy : y ∈ l) (hxy : r x y) :
    rank r l x < rank r l y := by
  refine countP_lt_countP (fun z hz hzx => ?_) hx (decide_eq_false (h.irrefl x hx))
    (decide_eq_true hxy)
  exact decide_eq_true (h.trans z hz x hx y hy (of_decide_eq_true hzx) hxy)

theorem StrictOn.eq_of_rank_eq (h : StrictOn r l) (hx : x ∈ l) (hy : y ∈ l)
    (heq : rank r l x = rank r l y) : x = y := by
  by_contra hne
  rcases h.total x hx y hy hne with hxy | hyx
  · have := h.rank_lt_rank hx hy hxy
    omega
  · have := h.rank_lt_rank hy hx hyx
    omega

/-- The ranks are the numbers below the length, each taken once. -/
theorem existsUnique_rank (h : StrictOn r l) (hnd : l.Nodup) {k : Nat} (hk : k < l.length) :
    ∃! x, x ∈ l ∧ rank r l x = k := by
  classical
  have hsurj : Set.SurjOn (rank r l) l.toFinset (Finset.range l.length) := by
    refine Finset.surjOn_of_injOn_of_card_le _ (fun x hx => ?_) (fun x hx y hy heq => ?_) ?_
    · exact Finset.mem_coe.mpr (Finset.mem_range.mpr (h.rank_lt_length (List.mem_toFinset.mp hx)))
    · exact h.eq_of_rank_eq (List.mem_toFinset.mp hx) (List.mem_toFinset.mp hy) heq
    · rw [Finset.card_range, List.toFinset_card_of_nodup hnd]
  obtain ⟨x, hx, hxk⟩ := hsurj (Finset.mem_coe.mpr (Finset.mem_range.mpr hk))
  have hx : x ∈ l := List.mem_toFinset.mp hx
  refine ⟨x, ⟨hx, hxk⟩, ?_⟩
  rintro y ⟨hy, hyk⟩
  exact h.eq_of_rank_eq hy hx (hyk.trans hxk.symm)

end NeuChain.Lib
