/-
  Parties that push one item per round to a common queue and then wait at a barrier.

  No party is more than one push ahead of another. So the pushes come in rounds: of all pushes the
  one at position `m` is of round `m / n` (`Inv.round`), and no party pushes twice in a round
  (`Inv.nodup`). Whoever takes `n` items at a time from the front of the queue takes one item of
  each party (`Inv.round_of_turn`).
-/
import Mathlib.Algebra.Order.BigOperators.Group.Finset
import NeuChain.Lib.Barrier

namespace NeuChain.Lib

/-- The rounds a party has been through. -/
def Party.rounds : Party → Nat
  | .outside r | .waiting r _ | .closing r => r

/-- Arriving is part of the round. -/
theorem Barrier.rounds_arrive (n : Nat) (b : Barrier) (p r : Nat) :
    ((b.arrive n p r).party p).rounds = r := by
  have hsame : ∀ (P : Prop) [Decidable P],
      (if P then Party.closing r else .waiting r b.generation).rounds = r := by
    intro P _
    split <;> rfl
  unfold Barrier.arrive
  dsimp only
  rw [Function.update_self, hsame]

structure Rounds where
  barrier : Barrier
  /-- A party has pushed its item of the round it is in. -/
  pushed : Nat → Bool
  /-- All pushes so far: the party and the round. -/
  history : List (Nat × Nat)

namespace Rounds

variable {n : Nat} {s s' : Rounds} {p r : Nat}

/-- How many items `p` has pushed. -/
def count (s : Rounds) (p : Nat) : Nat := (s.barrier.party p).rounds + (s.pushed p).toNat

def push (s : Rounds) (p r : Nat) : Rounds :=
  { s with
    pushed := Function.update s.pushed p true
    history := s.history ++ [(p, r)] }

def arrive (n : Nat) (s : Rounds) (p r : Nat) : Rounds :=
  { s with barrier := s.barrier.arrive n p r }

def release (s : Rounds) (p r : Nat) : Rounds :=
  { s with
    barrier := s.barrier.release p r
    pushed := Function.update s.pushed p false }

def leave (s : Rounds) (p r : Nat) : Rounds :=
  { s with
    barrier := s.barrier.leave p r
    pushed := Function.update s.pushed p false }

structure Inv (n : Nat) (s : Rounds) : Prop where
  barrier : s.barrier.Inv n
  inside : ∀ p < n, (∀ r, s.barrier.party p ≠ .outside r) → s.pushed p = true
  mem : ∀ p r, (p, r) ∈ s.history ↔ p < n ∧ r < s.count p
  nodup : s.history.Nodup
  length : s.history.length = ∑ p ∈ Finset.range n, s.count p
  round : ∀ m p r, s.history[m]? = some (p, r) → r = m / n

theorem inv_start (n : Nat) :
    Inv n { barrier := { waits := 0, generation := 0, party := fun _ => .outside 0 }
            pushed := fun _ => false
            history := [] } := by
  refine ⟨Barrier.inv_start n, fun p _ h => absurd rfl (h 0), fun p r => ?_, List.nodup_nil, ?_, ?_⟩
  · exact ⟨by nofun, fun h => absurd h.2 (Nat.not_lt_zero r)⟩
  · exact (Finset.sum_const_zero).symm
  · nofun

/-- Between two generations no party has pushed more than one item. -/
theorem Inv.count_cases (h : Inv n s) (hp : p < n) :
    s.count p = s.barrier.generation ∨ s.count p = s.barrier.generation + 1 := by
  have hround := h.barrier.rounds p hp
  have hin := h.inside p hp
  unfold count
  cases hparty : s.barrier.party p with
  | outside r =>
      rw [hparty] at hround
      obtain rfl : r = s.barrier.generation := hround
      cases s.pushed p with
      | false => exact Or.inl rfl
      | true => exact Or.inr rfl
  | waiting r k =>
      rw [hparty] at hround
      rw [hin (by rw [hparty]; nofun)]
      obtain ⟨-, rfl | hr⟩ := hround
      · exact Or.inr rfl
      · exact Or.inl hr
  | closing r =>
      rw [hparty] at hround
      obtain rfl : r = s.barrier.generation := hround
      rw [hin (by rw [hparty]; nofun)]
      exact Or.inr rfl

/-- Whoever is about to push finds the queue in the midst of its round. -/
theorem Inv.length_div (h : Inv n s) (hp : p < n) (hparty : s.barrier.party p = .outside r)
    (hnot : s.pushed p = false) : s.history.length / n = r := by
  obtain rfl : r = s.barrier.generation := by
    have := h.barrier.rounds p hp
    rwa [hparty] at this
  have hcount : s.count p = s.barrier.generation := by
    unfold count
    rw [hparty, hnot]
    rfl
  have hlower : n * s.barrier.generation ≤ s.history.length := by
    rw [h.length]
    have := Finset.card_nsmul_le_sum (Finset.range n) s.count s.barrier.generation fun q hq => by
      have := h.count_cases (Finset.mem_range.mp hq)
      omega
    rwa [Finset.card_range, Nat.nsmul_eq_mul] at this
  have hupper : s.history.length < n * (s.barrier.generation + 1) := by
    rw [h.length]
    have hle : ∀ q ∈ Finset.range n, s.count q ≤ s.barrier.generation + 1 := fun q hq => by
      have := h.count_cases (Finset.mem_range.mp hq)
      omega
    have hlt := Finset.sum_lt_sum hle ⟨p, Finset.mem_range.mpr hp, by omega⟩
    rwa [Finset.sum_const, Finset.card_range, Nat.nsmul_eq_mul] at hlt
  have hn : 0 < n := by omega
  exact Nat.div_eq_of_lt_le (by rw [Nat.mul_comm]; exact hlower)
    (by rw [Nat.mul_comm]; exact hupper)

theorem Inv.push (h : Inv n s) (hp : p < n) (hparty : s.barrier.party p = .outside r)
    (hnot : s.pushed p = false) : Inv n (s.push p r) := by
  have hself : (s.push p r).count p = s.count p + 1 := by
    show (s.barrier.party p).rounds + (Function.update s.pushed p true p).toNat =
      (s.barrier.party p).rounds + (s.pushed p).toNat + 1
    rw [Function.update_self, hnot]
    rfl
  have hother : ∀ q, q ≠ p → (s.push p r).count q = s.count q := by
    intro q hq
    show (s.barrier.party q).rounds + (Function.update s.pushed p true q).toNat = s.count q
    rw [Function.update_of_ne hq]
    rfl
  have hcount : s.count p = r := by
    unfold count
    rw [hparty, hnot]
    rfl
  refine ⟨h.barrier, fun q hq hin => ?_, fun q k => ?_, ?_, ?_, fun m q k hm => ?_⟩
  · show Function.update s.pushed p true q = true
    by_cases hqp : q = p
    · rw [hqp, Function.update_self]
    · rw [Function.update_of_ne hqp]
      exact h.inside q hq hin
  · show (q, k) ∈ s.history ++ [(p, r)] ↔ _
    rw [List.mem_append, List.mem_singleton, h.mem, Prod.mk.injEq]
    by_cases hqp : q = p
    · subst hqp
      rw [hself, hcount]
      omega
    · rw [hother q hqp]
      exact ⟨fun hc => hc.resolve_right fun h => hqp h.1, Or.inl⟩
  · refine List.Nodup.append h.nodup (List.nodup_singleton _) ?_
    rw [List.disjoint_singleton, h.mem, hcount]
    exact fun hc => Nat.lt_irrefl r hc.2
  · show (s.history ++ [(p, r)]).length = _
    have hmem : p ∈ Finset.range n := Finset.mem_range.mpr hp
    have hrest : ∑ q ∈ (Finset.range n).erase p, (s.push p r).count q =
        ∑ q ∈ (Finset.range n).erase p, s.count q :=
      Finset.sum_congr rfl fun q hq => hother q (Finset.ne_of_mem_erase hq)
    rw [List.length_append, h.length, ← Finset.add_sum_erase _ _ hmem,
      ← Finset.add_sum_erase _ (s.push p r).count hmem, hrest, hself, List.length_singleton]
    omega
  · have hm : (s.history ++ [(p, r)])[m]? = some (q, k) := hm
    rw [List.getElem?_append] at hm
    split at hm
    · exact h.round m q k hm
    · rename_i hlt
      obtain ⟨hm0, hqk⟩ := List.getElem?_eq_some_iff.mp hm
      rw [List.length_singleton] at hm0
      have hpos : m = s.history.length := by omega
      rw [hpos, h.length_div hp hparty hnot]
      rw [List.getElem_singleton] at hqk
      exact (Prod.mk.inj hqk).2.symm

/-- A step at the barrier pushes nothing. -/
theorem Inv.congr (h : Inv n s) (hb : s'.barrier.Inv n)
    (hin : ∀ p < n, (∀ r, s'.barrier.party p ≠ .outside r) → s'.pushed p = true)
    (hcount : ∀ p, s'.count p = s.count p) (hhist : s'.history = s.history) : Inv n s' := by
  refine ⟨hb, hin, fun p r => ?_, ?_, ?_, fun m p r hm => ?_⟩
  · rw [hhist, hcount, h.mem]
  · rw [hhist]
    exact h.nodup
  · rw [hhist, h.length]
    exact Finset.sum_congr rfl fun p _ => (hcount p).symm
  · rw [hhist] at hm
    exact h.round m p r hm

theorem Inv.arrive (h : Inv n s) (hp : p < n) (hparty : s.barrier.party p = .outside r)
    (hpushed : s.pushed p = true) : Inv n (s.arrive n p r) := by
  refine h.congr (h.barrier.arrive hp hparty) (fun q hq hin => ?_) (fun q => ?_) rfl
  · show s.pushed q = true
    by_cases hqp : q = p
    · rw [hqp, hpushed]
    · refine h.inside q hq fun k hk => hin k ?_
      exact (Function.update_of_ne hqp _ _).trans hk
  · show ((s.barrier.arrive n p r).party q).rounds + (s.pushed q).toNat = s.count q
    by_cases hqp : q = p
    · subst hqp
      unfold count
      rw [Barrier.rounds_arrive, hparty]
      rfl
    · rw [show (s.barrier.arrive n p r).party q = s.barrier.party q from
        Function.update_of_ne hqp _ _]
      rfl

/-- A party goes on to its next round. -/
theorem Inv.next {b : Barrier} (h : Inv n s) (hp : p < n) (hb : b.Inv n)
    (hparty : b.party = Function.update s.barrier.party p (.outside (r + 1)))
    (hin : ∀ k, s.barrier.party p ≠ .outside k) (hr : (s.barrier.party p).rounds = r) :
    Inv n { s with barrier := b, pushed := Function.update s.pushed p false } := by
  refine h.congr hb (fun q hq hout => ?_) (fun q => ?_) rfl
  · dsimp only at hout ⊢
    by_cases hqp : q = p
    · subst hqp
      exact absurd (by rw [hparty, Function.update_self]) (hout (r + 1))
    · rw [Function.update_of_ne hqp]
      refine h.inside q hq fun k hk => hout k ?_
      rw [hparty, Function.update_of_ne hqp]
      exact hk
  · show (b.party q).rounds + (Function.update s.pushed p false q).toNat = s.count q
    rw [hparty]
    by_cases hqp : q = p
    · subst hqp
      unfold count
      rw [Function.update_self, Function.update_self, hr, h.inside q hp hin]
      rfl
    · rw [Function.update_of_ne hqp, Function.update_of_ne hqp]
      rfl

theorem Inv.release (h : Inv n s) (hp : p < n) (hparty : s.barrier.party p = .closing r) :
    Inv n (s.release p r) :=
  h.next hp (h.barrier.release hp hparty) rfl (by rw [hparty]; nofun) (by rw [hparty]; rfl)

theorem Inv.leave {k : Nat} (h : Inv n s) (hp : p < n) (hparty : s.barrier.party p = .waiting r k)
    (hk : k < s.barrier.generation) : Inv n (s.leave p r) :=
  h.next hp (h.barrier.leave hp hparty hk) rfl (by rw [hparty]; nofun) (by rw [hparty]; rfl)

/-- The items of one turn of `n` are of one round. -/
theorem Inv.round_of_turn {a c : Nat} (h : Inv n s) (hc : c < n)
    (hm : s.history[a * n + c]? = some (p, r)) : r = a := by
  rw [h.round _ p r hm, Nat.mul_comm, Nat.mul_add_div (by omega), Nat.div_eq_of_lt hc,
    Nat.add_zero]

end Rounds

end NeuChain.Lib
