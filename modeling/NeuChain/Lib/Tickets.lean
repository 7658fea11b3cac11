/-
  Tickets that are drawn from a counter and served in any order.

  `Held held issued Done`: the tickets below `issued` have been drawn; each of them is either done,
  or held by one holder.

  * `Held.draw`, `Held.finish`: drawing the next ticket, and being done with one.
  * `Held.min`: below the smallest ticket that is held, everything is done.
-/
import Mathlib.Data.List.Nodup
import Mathlib.Order.Nat
import Mathlib.Order.Basic

namespace NeuChain.Lib

/-- Who holds which of the tickets `0`, …, `issued - 1`. -/
structure Held (held : List Nat) (issued : Nat) (Done : Nat → Prop) : Prop where
  nodup : held.Nodup
  mem : ∀ x, x ∈ held ↔ x < issued ∧ ¬ Done x
  lt : ∀ x, Done x → x < issued

namespace Held

variable {held held' : List Nat} {issued x : Nat} {Done Done' : Nat → Prop}

theorem perm (h : Held held issued Done) (hp : held.Perm held') : Held held' issued Done :=
  ⟨hp.nodup_iff.mp h.nodup, fun x => hp.mem_iff.symm.trans (h.mem x), h.lt⟩

theorem congr (h : Held held issued Done) (hD : ∀ x, Done' x ↔ Done x) :
    Held held issued Done' :=
  ⟨h.nodup, fun x => by rw [hD]; exact h.mem x, fun x hx => h.lt x ((hD x).mp hx)⟩

theorem draw (h : Held held issued Done) : Held (issued :: held) (issued + 1) Done := by
  have hnew : ¬ Done issued := fun hD => Nat.lt_irrefl _ (h.lt _ hD)
  refine ⟨List.nodup_cons.mpr ⟨fun hmem => ?_, h.nodup⟩, fun x => ?_, fun x hx => ?_⟩
  · exact Nat.lt_irrefl _ ((h.mem _).mp hmem).1
  · rw [List.mem_cons, h.mem]
    constructor
    · rintro (rfl | ⟨hlt, hx⟩)
      · exact ⟨Nat.lt_succ_self _, hnew⟩
      · exact ⟨Nat.lt_succ_of_lt hlt, hx⟩
    · rintro ⟨hlt, hx⟩
      rcases Nat.lt_succ_iff_lt_or_eq.mp hlt with hlt | rfl
      · exact Or.inr ⟨hlt, hx⟩
      · exact Or.inl rfl
  · exact Nat.lt_succ_of_lt (h.lt x hx)

theorem finish (h : Held (x :: held) issued Done) (hD : ∀ y, Done' y ↔ Done y ∨ y = x) :
    Held held issued Done' := by
  obtain ⟨hx, hnodup⟩ := List.nodup_cons.mp h.nodup
  have hfront := (h.mem x).mp List.mem_cons_self
  refine ⟨hnodup, fun y => ?_, fun y hy => ?_⟩
  · rw [hD, not_or, ← and_assoc, ← h.mem y, List.mem_cons]
    constructor
    · exact fun hy => ⟨Or.inr hy, fun heq => hx (heq ▸ hy)⟩
    · exact fun ⟨hy, hne⟩ => hy.resolve_left hne
  · rcases (hD y).mp hy with hy | rfl
    · exact h.lt y hy
    · exact hfront.1

theorem not_mem_of_cons (h : Held (x :: held) issued Done) : x ∉ held :=
  (List.nodup_cons.mp h.nodup).1

theorem done_of_not_mem (h : Held held issued Done) (hx : x < issued) (hmem : x ∉ held) :
    Done x := by
  by_contra hD
  exact hmem ((h.mem x).mpr ⟨hx, hD⟩)

theorem exists_min (hne : held ≠ []) : ∃ x ∈ held, ∀ y ∈ held, x ≤ y := by
  classical
  obtain ⟨y, hy⟩ := List.exists_mem_of_ne_nil held hne
  have hex : ∃ x, x ∈ held := ⟨y, hy⟩
  exact ⟨Nat.find hex, Nat.find_spec hex, fun y hy => Nat.find_min' hex hy⟩

/-- What comes before the smallest ticket that is held is done. -/
theorem min (h : Held held issued Done) (hne : held ≠ []) :
    ∃ x ∈ held, ∀ y < x, Done y := by
  obtain ⟨x, hx, hmin⟩ := exists_min hne
  refine ⟨x, hx, fun y hy => h.done_of_not_mem (hy.trans ((h.mem x).mp hx).1) fun hmem => ?_⟩
  exact Nat.lt_irrefl _ (hy.trans_le (hmin y hmem))

/-- When nobody holds a ticket, all that were drawn are done. -/
theorem done_of_nil (h : Held [] issued Done) (hx : x < issued) : Done x :=
  h.done_of_not_mem hx List.not_mem_nil

end Held

end NeuChain.Lib
