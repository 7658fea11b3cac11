/-
  Order in a log to which events are appended.

  `Precedes log y x`: whenever `x` is in the log, `y` is before it. It is kept by an event that is not
  `x`, and by `x` if `y` has happened (`Precedes.snoc`).
-/
import Mathlib.Data.List.Basic

namespace NeuChain.Lib

variable {ε : Type*} {log : List ε} {x y a : ε}

/-- Where an entry of a longer log stands: it is the new one, or it was there before. -/
theorem snoc_eq_append_cons {l₁ l₂ : List ε} (h : log ++ [a] = l₁ ++ x :: l₂) :
    (l₁ = log ∧ x = a) ∨ ∃ l, log = l₁ ++ x :: l := by
  rcases List.eq_nil_or_concat l₂ with rfl | ⟨l, b, rfl⟩
  · obtain ⟨rfl, hax⟩ := List.append_inj' h rfl
    exact .inl ⟨rfl, (List.singleton_inj.mp hax).symm⟩
  · rw [List.concat_eq_append, ← List.cons_append, ← List.append_assoc] at h
    exact .inr ⟨l, (List.append_inj' h rfl).1⟩

/-- The same by its index. -/
theorem getElem?_snoc {k : Nat} (h : (log ++ [a])[k]? = some x) :
    log[k]? = some x ∨ k = log.length ∧ x = a := by
  rcases Nat.lt_trichotomy k log.length with hlt | rfl | hgt
  · rw [List.getElem?_append_left hlt] at h
    exact Or.inl h
  · rw [List.getElem?_concat_length] at h
    exact Or.inr ⟨rfl, (Option.some.inj h).symm⟩
  · rw [List.getElem?_eq_none (by rw [List.length_append]; exact hgt)] at h
    cases h

def Precedes (log : List ε) (y x : ε) : Prop := ∀ l₁ l₂, log = l₁ ++ x :: l₂ → y ∈ l₁

theorem precedes_of_not_mem (h : x ∉ log) : Precedes log y x := by
  intro l₁ l₂ heq
  rw [heq] at h
  simp at h

theorem Precedes.snoc (h : Precedes log y x) (ha : a = x → y ∈ log) : Precedes (log ++ [a]) y x := by
  intro l₁ l₂ heq
  rcases snoc_eq_append_cons heq with ⟨rfl, hxa⟩ | ⟨l, hl⟩
  · exact ha hxa.symm
  · exact h l₁ l hl

/-- Values are different if they are so within each class and between classes. -/
theorem nodup_map_of_classes {α β κ : Type*} [DecidableEq κ] (f : α → β) (key : α → κ)
    {l : List α} (hwithin : ∀ k, ((l.filter fun x => key x = k).map f).Nodup)
    (hacross : ∀ x ∈ l, ∀ y ∈ l, key x ≠ key y → f x ≠ f y) : (l.map f).Nodup := by
  induction l with
  | nil => exact List.nodup_nil
  | cons x l ih =>
      refine List.nodup_cons.mpr ⟨fun hx => ?_, ih (fun k => ?_) fun y hy z hz =>
        hacross y (List.mem_cons_of_mem _ hy) z (List.mem_cons_of_mem _ hz)⟩
      · obtain ⟨y, hy, hxy⟩ := List.mem_map.mp hx
        by_cases hkey : key y = key x
        · have hnodup := hwithin (key x)
          rw [List.filter_cons, if_pos (decide_eq_true rfl), List.map_cons,
            List.nodup_cons] at hnodup
          refine hnodup.1 (List.mem_map.mpr ⟨y, List.mem_filter.mpr ⟨hy, ?_⟩, hxy⟩)
          exact decide_eq_true hkey
        · exact hacross y (List.mem_cons_of_mem _ hy) x List.mem_cons_self hkey hxy
      · exact (hwithin k).sublist (((List.sublist_cons_self x l).filter _).map f)

end NeuChain.Lib
