/-
  Programs that reach the rest of the world only through calls.

  A program is a tree: it is done, or it makes a call and goes on by the answer. A server of the
  calls is a function on a state of its own; a call without an answer ends the run.

  * `run_lockstep`: two runs of one program, on servers that answer alike from related states
    as long as the calls of the first run meet a condition, end alike.
  * `calls_final`: what a call adds to a growing log is in the log at the end of the run.
-/
import Mathlib.Data.Set.Basic

namespace NeuChain.Lib

variable {Op : Type*} {Ans : Op → Type*} {ρ σ τ κ : Type*}

inductive Program (Ans : Op → Type*) (ρ : Type*) where
  | done (result : ρ)
  | call (o : Op) (next : Ans o → Program Ans ρ)

namespace Program

/-- Run with the server `serve`: the result, if the run was not ended by a call, and the
    server's state. -/
def run (serve : (o : Op) → σ → Option (Ans o) × σ) : Program Ans ρ → σ → Option ρ × σ
  | .done result, s => (some result, s)
  | .call o next, s =>
      match serve o s with
      | (none, s') => (none, s')
      | (some a, s') => (next a).run serve s'

/-- Every call of the run meets `P`, in the state it is made in. -/
def Calls (serve : (o : Op) → σ → Option (Ans o) × σ) (P : Op → σ → Prop) :
    Program Ans ρ → σ → Prop
  | .done _, _ => True
  | .call o next, s => P o s ∧ ∀ a, (serve o s).1 = some a → (next a).Calls serve P (serve o s).2

variable {serve : (o : Op) → σ → Option (Ans o) × σ} {p : Program Ans ρ} {s : σ} {t : τ}
  {P Q : Op → σ → Prop} {o : Op} {next : Ans o → Program Ans ρ}

theorem run_call_none (h : (serve o s).1 = none) :
    (call o next).run serve s = (none, (serve o s).2) := by
  rw [run]
  split
  · rename_i s' heq
    rw [heq]
  · rename_i a s' heq
    rw [heq] at h
    cases h

theorem run_call_some {a : Ans o} (h : (serve o s).1 = some a) :
    (call o next).run serve s = (next a).run serve (serve o s).2 := by
  rw [run]
  split
  · rename_i s' heq
    rw [heq] at h
    cases h
  · rename_i b s' heq
    rw [heq] at h ⊢
    cases h
    rfl

theorem Calls.mono (h : p.Calls serve P s) (hPQ : ∀ o s, P o s → Q o s) : p.Calls serve Q s := by
  induction p generalizing s with
  | done result => trivial
  | call o next ih => exact ⟨hPQ o s h.1, fun a ha => ih a (h.2 a ha)⟩

theorem run_lockstep (serve' : (o : Op) → τ → Option (Ans o) × τ) (Rel : σ → τ → Prop)
    (hstep : ∀ o s t, Rel s t → P o s →
      (serve' o t).1 = (serve o s).1 ∧ Rel (serve o s).2 (serve' o t).2)
    (hcalls : p.Calls serve P s) (h : Rel s t) :
    (p.run serve' t).1 = (p.run serve s).1 ∧ Rel (p.run serve s).2 (p.run serve' t).2 := by
  induction p generalizing s t with
  | done result => exact ⟨rfl, h⟩
  | call o next ih =>
      obtain ⟨hans, hrel⟩ := hstep o s t h hcalls.1
      cases ha : (serve o s).1 with
      | none =>
          rw [ha] at hans
          rw [run_call_none ha, run_call_none hans]
          exact ⟨rfl, hrel⟩
      | some a =>
          rw [ha] at hans
          rw [run_call_some ha, run_call_some hans]
          exact ih a (hcalls.2 a ha) hrel

variable {I : σ → Prop} (log : σ → Set κ)

theorem log_run (hI : ∀ o s, I s → I (serve o s).2)
    (hgrow : ∀ o s, I s → log s ⊆ log (serve o s).2) (h : I s) :
    log s ⊆ log (p.run serve s).2 := by
  induction p generalizing s with
  | done result => exact subset_rfl
  | call o next ih =>
      cases ha : (serve o s).1 with
      | none =>
          rw [run_call_none ha]
          exact hgrow o s h
      | some a =>
          rw [run_call_some ha]
          exact (hgrow o s h).trans (ih a (hI o s h))

theorem calls_final (hI : ∀ o s, I s → I (serve o s).2)
    (hgrow : ∀ o s, I s → log s ⊆ log (serve o s).2) (h : I s) :
    p.Calls serve (fun o s' => I s' ∧ log (serve o s').2 ⊆ log (p.run serve s).2) s := by
  induction p generalizing s with
  | done result => trivial
  | call o next ih =>
      refine ⟨⟨h, ?_⟩, fun a ha => ?_⟩
      · cases ha : (serve o s).1 with
        | none => rw [run_call_none ha]
        | some a =>
            rw [run_call_some ha]
            exact log_run log hI hgrow (hI o s h)
      · rw [run_call_some ha]
        exact ih a (hI o s h)

end Program

end NeuChain.Lib
