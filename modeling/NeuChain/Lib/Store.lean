/-
  Key-value stores as functions, sequences of writes to them, and when two
  sequences commute.

  A write is a key with `some v` (put) or `none` (delete). `putAll` applies a list
  of writes from the left. Blocks of writes to disjoint sets of keys may be applied
  in any order (`putAll_flatten_perm`): this is what makes the commit order of
  transactions without a common written key irrelevant.
-/
import Mathlib.Data.List.Basic
import Mathlib.Logic.Function.Basic
import Mathlib.Data.List.Perm.Basic

namespace NeuChain.Lib

variable {κ ν : Type*} [DecidableEq κ]

/-- One write: `none` deletes the key. -/
def put (s : κ → Option ν) (w : κ × Option ν) : κ → Option ν := Function.update s w.1 w.2

def putAll (s : κ → Option ν) (ws : List (κ × Option ν)) : κ → Option ν := ws.foldl put s

/-- No key is written by both. -/
def Apart (ws ws' : List (κ × Option ν)) : Prop := ∀ w ∈ ws, ∀ w' ∈ ws', w.1 ≠ w'.1

variable {s s' : κ → Option ν} {ws ws' : List (κ × Option ν)} {w : κ × Option ν} {k : κ}

@[simp] theorem putAll_nil : putAll s [] = s := rfl

@[simp] theorem putAll_cons : putAll s (w :: ws) = putAll (put s w) ws := rfl

theorem putAll_append : putAll s (ws ++ ws') = putAll (putAll s ws) ws' := by
  simp [putAll, List.foldl_append]

theorem put_apply_of_ne (h : w.1 ≠ k) : put s w k = s k :=
  Function.update_of_ne (Ne.symm h) _ _

theorem putAll_apply_of_forall_ne (h : ∀ w ∈ ws, w.1 ≠ k) : putAll s ws k = s k := by
  induction ws generalizing s with
  | nil => rfl
  | cons w ws ih =>
      rw [putAll_cons, ih fun w' hw' => h w' (List.mem_cons_of_mem _ hw')]
      exact put_apply_of_ne (h w List.mem_cons_self)

/-- A key some write changed was written. -/
theorem exists_write_of_putAll_ne (h : putAll s ws k ≠ s k) : ∃ w ∈ ws, w.1 = k := by
  by_contra hn
  push Not at hn
  exact h (putAll_apply_of_forall_ne hn)

omit [DecidableEq κ] in
theorem Apart.symm (h : Apart ws ws') : Apart ws' ws :=
  fun w hw w' hw' => Ne.symm (h w' hw' w hw)

theorem put_comm {w w' : κ × Option ν} (h : w.1 ≠ w'.1) : put (put s w) w' = put (put s w') w :=
  Function.update_comm h _ _ _

/-- One write moves over a list of writes to other keys. -/
theorem putAll_put_comm (h : ∀ w' ∈ ws, w.1 ≠ w'.1) :
    putAll (put s w) ws = put (putAll s ws) w := by
  induction ws generalizing s with
  | nil => rfl
  | cons w' ws ih =>
      rw [putAll_cons, putAll_cons, put_comm (h w' List.mem_cons_self)]
      exact ih fun w'' hw'' => h w'' (List.mem_cons_of_mem _ hw'')

theorem putAll_comm (h : Apart ws ws') :
    putAll (putAll s ws) ws' = putAll (putAll s ws') ws := by
  induction ws generalizing s with
  | nil => rfl
  | cons w ws ih =>
      rw [putAll_cons, putAll_cons, ih fun v hv => h v (List.mem_cons_of_mem _ hv)]
      rw [putAll_put_comm (h w List.mem_cons_self)]

/-- The first pending write of a block may be performed before the blocks that
    precede it, if they write other keys. -/
theorem putAll_append_cons (h : ∀ w' ∈ ws, w.1 ≠ w'.1) :
    putAll s (ws ++ w :: ws') = putAll (put s w) (ws ++ ws') := by
  rw [putAll_append, putAll_cons, putAll_append, putAll_put_comm h]

/-- Blocks with no written key in common commute: any order of them gives one store. -/
theorem putAll_flatten_perm {bs bs' : List (List (κ × Option ν))} (hp : bs.Perm bs')
    (hd : bs.Pairwise Apart) : putAll s bs.flatten = putAll s bs'.flatten := by
  induction hp generalizing s with
  | nil => rfl
  | cons b _ ih =>
      rw [List.flatten_cons, List.flatten_cons, putAll_append, putAll_append]
      exact ih (List.pairwise_cons.mp hd).2
  | swap b b' bs =>
      have hb : Apart b' b := (List.pairwise_cons.mp hd).1 b List.mem_cons_self
      simp only [List.flatten_cons, putAll_append]
      rw [putAll_comm hb]
  | trans hp _ ih ih' =>
      rw [ih hd]
      exact ih' (hp.pairwise hd Apart.symm)

end NeuChain.Lib
