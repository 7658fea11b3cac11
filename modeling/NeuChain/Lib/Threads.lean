/-
  Threads that share a state and run programs, one instruction at a time.

  A program is a list of instructions. An instruction may leave instructions to perform next,
  so a branch or a turn of a loop is an instruction that expands. `exec s i c` performs `i` on
  the shared state; `c` is what it leaves open (a weak compare-exchange may fail).
  `Pool.step` lets any thread move; `runPhase` runs one program per thread, all to their end.

  * `step_cases`: what a step can do, with the moving thread cut out of the list.
  * `runPhase_invariant`: what every step keeps holds when the phase has ended.
  * `run_todo`, `runPhase_todo`: the same for what is kept of the state and the instructions to be
    done.
  * `runPhase_completes`: a phase in which every instruction can be performed (`Advances`) gets to
    its end from wherever it is.
-/
import Mathlib.Algebra.Ring.Nat
import NeuChain.Lib.Run

namespace NeuChain.Lib

variable {σ ι χ : Type*}

/-- The shared state and what each thread still has to do. -/
structure Pool (σ ι : Type*) where
  shared : σ
  threads : List (List ι)

/-- Every thread has reached its end. -/
def Pool.Idle (p : Pool σ ι) : Prop := ∀ l ∈ p.threads, l = []

instance (p : Pool σ ι) : Decidable p.Idle :=
  decidable_of_iff (p.threads.all List.isEmpty = true) (by simp [Pool.Idle])

/-- Thread `a.1` performs its next instruction. -/
def Pool.step (exec : σ → ι → χ → Option (σ × List ι)) (p : Pool σ ι) (a : Nat × χ) :
    Option (Pool σ ι) :=
  match p.threads[a.1]? with
  | some (i :: rest) =>
      (exec p.shared i a.2).map fun r =>
        { shared := r.1, threads := p.threads.set a.1 (r.2 ++ rest) }
  | _ => none

/-- Run the programs from `s`, scheduled by `as`, until all of them have ended. -/
def runPhase (exec : σ → ι → χ → Option (σ × List ι)) (s : σ) (programs : List (List ι))
    (as : List (Nat × χ)) : Option σ :=
  (run (Pool.step exec) { shared := s, threads := programs } as).bind fun p =>
    if p.Idle then some p.shared else none

variable {exec : σ → ι → χ → Option (σ × List ι)} {p p' : Pool σ ι} {a : Nat × χ} {s s' : σ}
  {programs : List (List ι)} {as : List (Nat × χ)}

theorem step_cases (h : p.step exec a = some p') :
    ∃ before i rest after s' next, p.threads = before ++ (i :: rest) :: after ∧
      before.length = a.1 ∧ exec p.shared i a.2 = some (s', next) ∧
      p' = { shared := s', threads := before ++ (next ++ rest) :: after } := by
  unfold Pool.step at h
  split at h
  · rename_i i rest hget
    obtain ⟨⟨s', next⟩, hexec, rfl⟩ := Option.map_eq_some_iff.mp h
    obtain ⟨hlt, hi⟩ := List.getElem?_eq_some_iff.mp hget
    refine ⟨p.threads.take a.1, i, rest, p.threads.drop (a.1 + 1), s', next, ?_, ?_, hexec, ?_⟩
    · rw [← hi, List.getElem_cons_drop, List.take_append_drop]
    · rw [List.length_take]
      omega
    · rw [List.set_eq_take_append_cons_drop, if_pos hlt]
  · cases h

theorem step_of_exec {before after : List (List ι)} {i : ι} {rest next : List ι} {c : χ}
    (h : exec s i c = some (s', next)) :
    Pool.step exec { shared := s, threads := before ++ (i :: rest) :: after }
        (before.length, c) =
      some { shared := s', threads := before ++ (next ++ rest) :: after } := by
  simp [Pool.step, h]

/-- What one thread does next, and everything else, in the list of all that is to be done. -/
theorem flatten_thread_perm (before after : List (List ι)) (is rest : List ι) :
    (before ++ (is ++ rest) :: after).flatten.Perm
      (is ++ (before.flatten ++ (rest ++ after.flatten))) := by
  rw [List.flatten_append, List.flatten_cons, List.append_assoc]
  exact List.perm_append_comm_assoc _ _ _

/-- A pool that is not idle has a thread with something to do. -/
theorem exists_busy (h : ¬ p.Idle) :
    ∃ before i rest after, p.threads = before ++ (i :: rest) :: after := by
  unfold Pool.Idle at h
  push Not at h
  obtain ⟨l, hl, hne⟩ := h
  obtain ⟨before, after, hp⟩ := List.append_of_mem hl
  obtain ⟨i, rest, rfl⟩ := List.exists_cons_of_ne_nil hne
  exact ⟨before, i, rest, after, hp⟩

theorem Pool.Idle.flatten_eq_nil (h : p.Idle) : p.threads.flatten = [] :=
  List.flatten_eq_nil_iff.mpr h

theorem runPhase_eq_some :
    runPhase exec s programs as = some s' ↔
      ∃ p, run (Pool.step exec) { shared := s, threads := programs } as = some p ∧ p.Idle ∧
        p.shared = s' := by
  unfold runPhase
  rw [Option.bind_eq_some_iff]
  refine exists_congr fun p => and_congr_right fun _ => ?_
  by_cases hi : p.Idle <;> simp [hi]

theorem runPhase_invariant (I : Pool σ ι → Prop)
    (hstep : ∀ p a p', I p → Pool.step exec p a = some p' → I p')
    (h : runPhase exec s programs as = some s')
    (h0 : I { shared := s, threads := programs }) : ∃ p, I p ∧ p.Idle ∧ p.shared = s' := by
  obtain ⟨p, hrun, hidle, hs⟩ := runPhase_eq_some.mp h
  exact ⟨p, run_invariant I hstep hrun h0, hidle, hs⟩

/-- An invariant of the state and of the instructions that are still to be done, in whatever
    order. -/
theorem run_todo (I : σ → List ι → Prop) (hperm : ∀ s l l', l.Perm l' → I s l → I s l')
    (hexec : ∀ s i rest c s' next, I s (i :: rest) → exec s i c = some (s', next) →
      I s' (next ++ rest))
    (h : run (Pool.step exec) { shared := s, threads := programs } as = some p)
    (h0 : I s programs.flatten) : I p.shared p.threads.flatten := by
  refine run_invariant (fun p => I p.shared p.threads.flatten) ?_ h h0
  intro p a p' hp hstep
  obtain ⟨before, i, rest, after, s₁, next, hthreads, -, hex, rfl⟩ := step_cases hstep
  rw [hthreads] at hp
  have htodo := hperm _ _ _ (flatten_thread_perm before after [i] rest) hp
  exact hperm _ _ _ (flatten_thread_perm before after next rest).symm (hexec _ _ _ _ _ _ htodo hex)

theorem runPhase_todo (I : σ → List ι → Prop) (hperm : ∀ s l l', l.Perm l' → I s l → I s l')
    (hexec : ∀ s i rest c s' next, I s (i :: rest) → exec s i c = some (s', next) →
      I s' (next ++ rest))
    (h : runPhase exec s programs as = some s') (h0 : I s programs.flatten) : I s' [] := by
  obtain ⟨p, hrun, hidle, rfl⟩ := runPhase_eq_some.mp h
  have hp := run_todo I hperm hexec hrun h0
  rwa [hidle.flatten_eq_nil] at hp

/-! ## Coming to an end -/

/-- The instruction can be performed and leaves less work than `bound`, perhaps after it had to be
    repeated. -/
inductive Advances (exec : σ → ι → χ → Option (σ × List ι)) (work : ι → Nat) (bound : Nat) :
    σ → ι → Prop
  | done {s s' i next} (c : χ) (h : exec s i c = some (s', next))
      (hlt : (next.map work).sum < bound) : Advances exec work bound s i
  | again {s s' i i'} (c : χ) (h : exec s i c = some (s', [i']))
      (hnext : Advances exec work bound s' i') : Advances exec work bound s i

variable {work : ι → Nat}

theorem Advances.exists_run {bound : Nat} {i : ι} (h : Advances exec work bound s i)
    (before after : List (List ι)) (rest : List ι) :
    ∃ as p', run (Pool.step exec) { shared := s, threads := before ++ (i :: rest) :: after } as =
      some p' ∧ (p'.threads.flatten.map work).sum <
        bound + ((before ++ rest :: after).flatten.map work).sum := by
  induction h with
  | done c h hlt =>
      refine ⟨[(before.length, c)], _, run_cons_eq_some.mpr ⟨_, step_of_exec h, rfl⟩, ?_⟩
      simp only [List.flatten_append, List.flatten_cons, List.map_append, List.sum_append]
      omega
  | again c h _ ih =>
      obtain ⟨as, p', hrun, hlt⟩ := ih
      exact ⟨(before.length, c) :: as, p', run_cons_eq_some.mpr ⟨_, step_of_exec h, hrun⟩, hlt⟩

theorem exists_run_idle (I : Pool σ ι → Prop) (work : ι → Nat)
    (hstep : ∀ p a p', I p → Pool.step exec p a = some p' → I p')
    (hgo : ∀ before i rest after s, I { shared := s, threads := before ++ (i :: rest) :: after } →
      Advances exec work (work i) s i)
    (h0 : I p) : ∃ as p', run (Pool.step exec) p as = some p' ∧ p'.Idle := by
  refine exists_run_until I Pool.Idle (fun p => (p.threads.flatten.map work).sum) hstep ?_ h0
  intro p hp hbusy
  obtain ⟨before, i, rest, after, hth⟩ := exists_busy hbusy
  obtain ⟨s, threads⟩ := p
  subst hth
  obtain ⟨as, p', hrun, hlt⟩ := (hgo _ _ _ _ _ hp).exists_run before after rest
  refine ⟨as, p', hrun, lt_of_lt_of_eq hlt ?_⟩
  simp only [List.flatten_append, List.flatten_cons, List.map_append, List.sum_append,
    List.map_cons, List.sum_cons]
  omega

theorem runPhase_completes (I : Pool σ ι → Prop) (work : ι → Nat)
    (hstep : ∀ p a p', I p → Pool.step exec p a = some p' → I p')
    (hgo : ∀ before i rest after s, I { shared := s, threads := before ++ (i :: rest) :: after } →
      Advances exec work (work i) s i)
    (h0 : I { shared := s, threads := programs })
    (hrun : run (Pool.step exec) { shared := s, threads := programs } as = some p) :
    ∃ as' s', runPhase exec s programs (as ++ as') = some s' := by
  obtain ⟨as', p', hrun', hidle⟩ :=
    exists_run_idle I work hstep hgo (run_invariant I hstep hrun h0)
  exact ⟨as', p'.shared, runPhase_eq_some.mpr
    ⟨p', run_append_eq_some.mpr ⟨p, hrun, hrun'⟩, hidle, rfl⟩⟩

end NeuChain.Lib
