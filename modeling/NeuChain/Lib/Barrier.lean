/-
  A cyclic barrier for `n` parties.

  A party that arrives waits for the generation it has joined to be released. The last one to
  arrive does not wait: it is `closing` the generation, and the others go on once it has
  released it. A party counts the rounds it has been through.

  * `Barrier.Inv`: kept by `arrive`, `release` and `leave`. No party is more than one round ahead of
    another, and while one is closing a generation all the others wait for it
    (`Inv.closing`).
-/
import Mathlib.Algebra.Order.Group.Nat
import Mathlib.Data.Nat.Count

namespace NeuChain.Lib

/-! ## Counting parties -/

section Count

variable {P Q : Nat → Prop} [DecidablePred P] [DecidablePred Q] {n p : Nat}

theorem count_congr (h : ∀ q < n, P q ↔ Q q) : Nat.count P n = Nat.count Q n := by
  rw [Nat.count_eq_card_filter_range, Nat.count_eq_card_filter_range]
  congr 1
  refine Finset.filter_congr fun q hq => h q (Finset.mem_range.mp hq)

theorem count_eq_zero (h : ∀ q < n, ¬ P q) : Nat.count P n = 0 :=
  (count_congr fun q hq => iff_false_intro (h q hq)).trans (Nat.count_false n)

/-- One more party. -/
theorem count_succ (hp : p < n) (hnot : ¬ P p) (hnew : Q p) (h : ∀ q < n, q ≠ p → (Q q ↔ P q)) :
    Nat.count Q n = Nat.count P n + 1 := by
  rw [Nat.count_eq_card_filter_range, Nat.count_eq_card_filter_range]
  have hins : (Finset.range n).filter Q = insert p ((Finset.range n).filter P) := by
    ext q
    rw [Finset.mem_insert, Finset.mem_filter, Finset.mem_filter, Finset.mem_range]
    by_cases hq : q = p
    · subst hq
      simp [hp, hnew]
    · simp only [hq, false_or]
      exact and_congr_right fun hlt => h q hlt hq
  rw [hins, Finset.card_insert_of_notMem fun hmem => hnot (Finset.mem_filter.mp hmem).2]

theorem count_lt (hp : p < n) (hnot : ¬ P p) : Nat.count P n < n := by
  have hle : Nat.count P n ≤ n := Nat.count_le P
  have hne : Nat.count P n ≠ n := fun h => hnot (Nat.count_iff_forall.mp h p hp)
  omega

/-- All but one. -/
theorem forall_of_count_succ (hnot : ¬ P p) (hp : p < n) (h : n ≤ Nat.count P n + 1) :
    ∀ q < n, q ≠ p → P q := by
  intro q hq hqp
  by_contra hPq
  have hone : Nat.count (fun i => P i ∨ i = p) n = Nat.count P n + 1 :=
    count_succ hp hnot (Or.inr rfl) fun i _ hi => by simp [hi]
  have hlt : Nat.count (fun i => P i ∨ i = p) n < n := count_lt hq fun h => h.elim hPq hqp
  omega

end Count

/-! ## The barrier -/

inductive Party where
  | outside (rounds : Nat)
  | waiting (rounds generation : Nat)
  | closing (rounds : Nat)
deriving DecidableEq

structure Barrier where
  waits : Nat
  generation : Nat
  party : Nat → Party

namespace Barrier

variable {n : Nat} {b : Barrier} {p r : Nat}

/-- `p`, which has been through `r` rounds, arrives. -/
def arrive (n : Nat) (b : Barrier) (p r : Nat) : Barrier :=
  let waits := if b.waits < n then b.waits + 1 else b.waits
  { waits := waits
    generation := b.generation
    party := Function.update b.party p
      (if n ≤ waits then .closing r else .waiting r b.generation) }

/-- `p` releases the generation it was the last to join. -/
def release (b : Barrier) (p r : Nat) : Barrier where
  waits := 0
  generation := b.generation + 1
  party := Function.update b.party p (.outside (r + 1))

/-- `p` goes on after its generation has been released. -/
def leave (b : Barrier) (p r : Nat) : Barrier :=
  { b with party := Function.update b.party p (.outside (r + 1)) }

/-- `p` has joined the current generation. -/
def Inside (b : Barrier) (p : Nat) : Prop :=
  match b.party p with
  | .outside _ => False
  | .waiting _ k => k = b.generation
  | .closing _ => True

instance (b : Barrier) : DecidablePred b.Inside := fun p => by
  unfold Inside
  cases b.party p <;> infer_instance

/-- How many rounds a party has been through when `g` generations have been released. -/
def AtRound (g : Nat) : Party → Prop
  | .outside r => r = g
  | .waiting r k => k = r ∧ (r = g ∨ r + 1 = g)
  | .closing r => r = g

structure Inv (n : Nat) (b : Barrier) : Prop where
  rounds : ∀ p < n, AtRound b.generation (b.party p)
  waits : b.waits = Nat.count b.Inside n
  closing : ∀ p < n, ∀ r, b.party p = .closing r →
    ∀ q < n, q ≠ p → b.party q = .waiting b.generation b.generation

theorem inside_outside (h : b.party p = .outside r) : ¬ b.Inside p := by
  unfold Inside
  rw [h]
  exact id

theorem Inv.arrive (h : Inv n b) (hp : p < n) (ho : b.party p = .outside r) :
    Inv n (b.arrive n p r) := by
  have hr : r = b.generation := by
    have := h.rounds p hp
    rwa [ho] at this
  have hlt : b.waits < n := by
    rw [h.waits]
    exact count_lt hp (inside_outside ho)
  have hne : ∀ q, q ≠ p → (b.arrive n p r).party q = b.party q :=
    fun q hq => Function.update_of_ne hq _ _
  have hself : (b.arrive n p r).party p =
      if n ≤ b.waits + 1 then .closing r else .waiting r b.generation := by
    simp [Barrier.arrive, hlt]
  refine ⟨fun q hq => ?_, ?_, ?_⟩
  · by_cases hqp : q = p
    · subst hqp
      rw [hself]
      split
      · exact hr
      · exact ⟨hr.symm, Or.inl hr⟩
    · rw [hne q hqp]
      exact h.rounds q hq
  · have hcount : Nat.count (b.arrive n p r).Inside n = Nat.count b.Inside n + 1 := by
      refine count_succ hp (inside_outside ho) ?_ fun q _ hqp => ?_
      · unfold Inside
        rw [hself]
        by_cases hn : n ≤ b.waits + 1
        · simp [hn]
        · simp [hn, Barrier.arrive]
      · unfold Inside
        rw [hne q hqp]
        rfl
    rw [hcount, ← h.waits]
    simp [Barrier.arrive, hlt]
  · -- only `p` can be closing: were it `q`, then `p` would be waiting
    intro q hq r' hq' i hi hiq
    by_cases hqp : q = p
    · subst hqp
      rw [hself] at hq'
      split at hq'
      · rename_i hn
        rw [h.waits] at hn
        have hin := forall_of_count_succ (inside_outside ho) hq hn i hi hiq
        rw [hne i hiq]
        have hround := h.rounds i hi
        unfold Inside at hin
        cases hpi : b.party i with
        | outside _ => rw [hpi] at hin; exact hin.elim
        | waiting r₁ k =>
            rw [hpi] at hin hround
            obtain rfl : k = b.generation := hin
            rw [show r₁ = b.generation from hround.1.symm]
            rfl
        | closing r₁ =>
            have := h.closing i hi r₁ hpi q hq (Ne.symm hiq)
            rw [ho] at this
            cases this
      · cases hq'
    · rw [hne q hqp] at hq'
      have := h.closing q hq r' hq' p hp (Ne.symm hqp)
      rw [ho] at this
      cases this

theorem Inv.release (h : Inv n b) (hp : p < n) (hc : b.party p = .closing r) :
    Inv n (b.release p r) := by
  have hr : r = b.generation := by
    have := h.rounds p hp
    rwa [hc] at this
  have hparty : ∀ q < n, q ≠ p → (b.release p r).party q = .waiting b.generation b.generation := by
    intro q hq hqp
    have := h.closing p hp r hc q hq hqp
    rw [← this]
    exact Function.update_of_ne hqp _ _
  have hself : (b.release p r).party p = .outside (r + 1) := Function.update_self _ _ _
  have hgen : (b.release p r).generation = b.generation + 1 := rfl
  refine ⟨fun q hq => ?_, ?_, ?_⟩
  · by_cases hqp : q = p
    · subst hqp
      rw [hself, hgen, hr]
      rfl
    · rw [hparty q hq hqp, hgen]
      exact ⟨rfl, Or.inr rfl⟩
  · have hnone : ∀ q < n, ¬ (b.release p r).Inside q := by
      intro q hq
      unfold Inside
      by_cases hqp : q = p
      · subst hqp
        rw [hself]
        exact id
      · rw [hparty q hq hqp, hgen]
        show b.generation ≠ b.generation + 1
        omega
    rw [count_eq_zero hnone]
    rfl
  · intro q hq r' hq'
    by_cases hqp : q = p
    · subst hqp
      rw [hself] at hq'
      cases hq'
    · rw [hparty q hq hqp] at hq'
      cases hq'

theorem Inv.leave {k : Nat} (h : Inv n b) (hp : p < n) (hw : b.party p = .waiting r k)
    (hk : k < b.generation) : Inv n (b.leave p r) := by
  have hround := h.rounds p hp
  rw [hw] at hround
  have hne : ∀ q, q ≠ p → (b.leave p r).party q = b.party q :=
    fun q hq => Function.update_of_ne hq _ _
  have hself : (b.leave p r).party p = .outside (r + 1) := Function.update_self _ _ _
  have hgen : (b.leave p r).generation = b.generation := rfl
  refine ⟨fun q hq => ?_, ?_, ?_⟩
  · by_cases hqp : q = p
    · subst hqp
      rw [hself, hgen]
      show r + 1 = b.generation
      obtain ⟨rfl, hr | hr⟩ := hround
      · omega
      · exact hr
    · rw [hne q hqp]
      exact h.rounds q hq
  · refine h.waits.trans (count_congr fun q _ => ?_)
    unfold Inside
    by_cases hqp : q = p
    · subst hqp
      rw [hself, hw]
      show k = b.generation ↔ False
      exact iff_false_intro (by omega)
    · rw [hne q hqp]
      rfl
  · intro q hq r' hq' i hi hiq
    by_cases hqp : q = p
    · subst hqp
      rw [hself] at hq'
      cases hq'
    · rw [hne q hqp] at hq'
      have hp' := h.closing q hq r' hq' p hp (Ne.symm hqp)
      rw [hw] at hp'
      cases hp'
      omega

theorem inv_start (n : Nat) : Inv n { waits := 0, generation := 0, party := fun _ => .outside 0 } := by
  exact ⟨fun _ _ => rfl, (count_eq_zero fun _ _ => id).symm, fun _ _ _ h => by cases h⟩

end Barrier

end NeuChain.Lib
