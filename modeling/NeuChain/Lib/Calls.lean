/-
  Calls that run at the same time on a shared state.

  A routine is code that any number of threads can be in: `enter` gives the first instruction of a
  call, `exec s i x` performs instruction `i` on the shared state and says where the call goes on,
  or what it returns. `x` is what the instruction leaves open; `none` means that it cannot be
  performed now. A state lists the instructions of the calls that are under way: which thread makes
  a call does not matter, and a thread's next call may come at any time.

  * `run_invariant_calls`: an invariant that does not look at the order of the list holds in every
    run, if a new call keeps it and every instruction does.
-/
import Mathlib.Algebra.BigOperators.Group.List.Basic
import Mathlib.Algebra.Order.Ring.Nat
import NeuChain.Lib.Run

namespace NeuChain.Lib

variable {σ ι χ κ ρ : Type*}

/-- Where a call is after an instruction. -/
inductive Outcome (ι ρ : Type*) where
  | next (i : ι)
  | done (r : ρ)
deriving DecidableEq, Repr

namespace Outcome

/-- What is left of the call. -/
def rest : Outcome ι ρ → List ι
  | next i => [i]
  | done _ => []

/-- What it has returned. -/
def results : Outcome ι ρ → List ρ
  | next _ => []
  | done r => [r]

@[simp] theorem rest_next (i : ι) : (next i : Outcome ι ρ).rest = [i] := rfl

@[simp] theorem rest_done (r : ρ) : (done r : Outcome ι ρ).rest = [] := rfl

@[simp] theorem results_next (i : ι) : (next i : Outcome ι ρ).results = [] := rfl

@[simp] theorem results_done (r : ρ) : (done r : Outcome ι ρ).results = [r] := rfl

end Outcome

structure Routine (σ ι χ κ ρ : Type*) where
  enter : κ → ι
  exec : σ → ι → χ → Option (σ × Outcome ι ρ)

/-- The shared state, the calls under way and what the others have returned, latest first. -/
structure Calls (σ ι ρ : Type*) where
  shared : σ
  active : List ι := []
  returned : List ρ := []

inductive CallAction (χ κ : Type*) where
  | call (c : κ)
  /-- The `n`-th call moves. -/
  | move (n : Nat) (x : χ)
deriving DecidableEq, Repr

def Calls.step (R : Routine σ ι χ κ ρ) (p : Calls σ ι ρ) : CallAction χ κ → Option (Calls σ ι ρ)
  | .call c => some { p with active := R.enter c :: p.active }
  | .move n x =>
      (p.active[n]?).bind fun i => (R.exec p.shared i x).map fun r =>
        { shared := r.1
          active := p.active.take n ++ (r.2.rest ++ p.active.drop (n + 1))
          returned := r.2.results ++ p.returned }

section

variable {R : Routine σ ι χ κ ρ} {p p' : Calls σ ι ρ} {s : σ}

/-- The call that moves is cut out of the list. -/
theorem Calls.step_move {n : Nat} {x : χ} (h : p.step R (.move n x) = some p') :
    ∃ before i after s' out, p.active = before ++ i :: after ∧
      R.exec p.shared i x = some (s', out) ∧
      p' = { shared := s', active := before ++ (out.rest ++ after),
             returned := out.results ++ p.returned } := by
  obtain ⟨i, hi, hmap⟩ := Option.bind_eq_some_iff.mp h
  obtain ⟨⟨s', out⟩, hexec, rfl⟩ := Option.map_eq_some_iff.mp hmap
  obtain ⟨hlt, rfl⟩ := List.getElem?_eq_some_iff.mp hi
  refine ⟨p.active.take n, p.active[n], p.active.drop (n + 1), s', out, ?_, hexec, rfl⟩
  rw [List.getElem_cons_drop, List.take_append_drop]

/-- The invariant rule. -/
theorem run_invariant_calls (I : σ → List ι → List ρ → Prop)
    (hperm : ∀ s l l' rs, l.Perm l' → I s l rs → I s l' rs)
    (hcall : ∀ s l rs c, I s l rs → I s (R.enter c :: l) rs)
    (hexec : ∀ s i x s' out l rs, I s (i :: l) rs → R.exec s i x = some (s', out) →
      I s' (out.rest ++ l) (out.results ++ rs))
    {as : List (CallAction χ κ)} (h : run (Calls.step R) p as = some p')
    (h0 : I p.shared p.active p.returned) : I p'.shared p'.active p'.returned := by
  refine run_invariant (fun p => I p.shared p.active p.returned) ?_ h h0
  intro p a p' hI hstep
  cases a with
  | call c =>
      cases hstep
      exact hcall _ _ _ c hI
  | move n x =>
      obtain ⟨before, i, after, s', out, hactive, hmove, rfl⟩ := Calls.step_move hstep
      rw [hactive] at hI
      have hfront := hperm _ _ _ _ List.perm_middle hI
      refine hperm _ _ _ _ ?_ (hexec _ _ _ _ _ _ _ hfront hmove)
      exact List.perm_append_comm_assoc _ _ _

end

/-! ## Counting over the calls -/

section Total

variable {f : ι → Nat} {l l' : List ι}

def total (f : ι → Nat) (l : List ι) : Nat := (l.map f).sum

@[simp] theorem total_nil (f : ι → Nat) : total f [] = 0 := rfl

@[simp] theorem total_cons (f : ι → Nat) (i : ι) (l : List ι) :
    total f (i :: l) = f i + total f l := by simp [total]

@[simp] theorem total_append (f : ι → Nat) (l l' : List ι) :
    total f (l ++ l') = total f l + total f l' := by simp [total]

theorem total_perm (f : ι → Nat) (hp : l.Perm l') : total f l = total f l' :=
  (hp.map f).sum_eq

theorem total_const {n : Nat} (h : ∀ i ∈ l, f i = n) : total f l = l.length * n := by
  unfold total
  rw [List.map_congr_left h]
  simp

end Total

end NeuChain.Lib
