/-
  Runs of a step function with explicit actions, and the induction every
  invariant of the development goes through.

  `step s a = some s'` is one atomic step, `a` resolves every choice the step
  leaves open (which thread moves, whether a weak compare-exchange fails).
  `none` is an action that is not enabled. `run step s as` performs `as` in order.

  * `run_invariant`: what every step keeps holds after every run.
  * `run_invariant_of_meets`: the same when only the steps that meet a condition
    keep it, for runs all of whose steps meet the condition (`Meets`).
  * `run_split`: a run is cut at any of its actions.
  * `exists_run_until`: if some run makes a measure smaller whenever the goal is not yet
    reached, then some run reaches the goal.

  `answers call s as` are the answers of a machine to a sequence of calls. Two machines answer
  alike if and only if they do so to every call after the calls before it (`answers_eq_iff`).
-/
import Mathlib.Data.List.Basic

namespace NeuChain.Lib

variable {σ α : Type*}

/-- Perform the actions in order; `none` as soon as one is not enabled. -/
def run (step : σ → α → Option σ) : σ → List α → Option σ
  | s, [] => some s
  | s, a :: as => (step s a).bind fun s' => run step s' as

/-- Every step of the run is taken in a state that meets `C`. -/
def Meets (step : σ → α → Option σ) (C : σ → α → Prop) : σ → List α → Prop
  | _, [] => True
  | s, a :: as => C s a ∧ ∀ s', step s a = some s' → Meets step C s' as

instance decidableMeets (step : σ → α → Option σ) (C : σ → α → Prop) [∀ s a, Decidable (C s a)] :
    (s : σ) → (as : List α) → Decidable (Meets step C s as)
  | _, [] => isTrue trivial
  | s, a :: as =>
      @instDecidableAnd _ _ (inferInstanceAs (Decidable (C s a)))
        (match h : step s a with
        | none => isTrue fun _ hs => by cases hs
        | some t =>
            @decidable_of_iff _ (Meets step C t as)
              ⟨fun hm _ hs => Option.some.inj hs ▸ hm, fun hm => hm t rfl⟩
              (decidableMeets step C t as))

variable {step : σ → α → Option σ} {s s' s'' : σ} {a : α} {as bs : List α}

/-- The state a run that is evaluated ends in. -/
theorem exists_of_any {o : Option σ} {P : σ → Prop} [DecidablePred P]
    (h : o.any (fun s => P s) = true) : ∃ s, o = some s ∧ P s := by
  obtain ⟨s, ho, hP⟩ := (Option.any_eq_true _ _).mp h
  exact ⟨s, ho, of_decide_eq_true hP⟩

@[simp] theorem run_nil : run step s [] = some s := rfl

theorem run_cons_eq_some :
    run step s (a :: as) = some s'' ↔ ∃ s', step s a = some s' ∧ run step s' as = some s'' := by
  simp [run, Option.bind_eq_some_iff]

theorem run_append :
    run step s (as ++ bs) = (run step s as).bind fun s' => run step s' bs := by
  induction as generalizing s with
  | nil => rfl
  | cons a as ih =>
      simp only [List.cons_append, run, Option.bind_assoc]
      exact Option.bind_congr fun s' _ => ih

theorem run_append_eq_some :
    run step s (as ++ bs) = some s'' ↔ ∃ s', run step s as = some s' ∧ run step s' bs = some s'' := by
  rw [run_append, Option.bind_eq_some_iff]

/-- A run through `a` passes a state in which `a` is enabled. -/
theorem run_split (h : run step s (as ++ a :: bs) = some s'') :
    ∃ t t', run step s as = some t ∧ step t a = some t' ∧ run step t' bs = some s'' := by
  obtain ⟨t, ht, hr⟩ := run_append_eq_some.mp h
  obtain ⟨t', ha, hr⟩ := run_cons_eq_some.mp hr
  exact ⟨t, t', ht, ha, hr⟩

/-- What the steps of the run keep holds at its end. -/
theorem run_invariant_of_mem (I : σ → Prop)
    (hstep : ∀ s a s', a ∈ as → I s → step s a = some s' → I s')
    (h : run step s as = some s') (h0 : I s) : I s' := by
  induction as generalizing s with
  | nil => cases h; exact h0
  | cons a as ih =>
      obtain ⟨t, ht, hr⟩ := run_cons_eq_some.mp h
      exact ih (fun s b s' hb => hstep s b s' (List.mem_cons_of_mem _ hb)) hr
        (hstep s a t List.mem_cons_self h0 ht)

theorem run_invariant (I : σ → Prop) (hstep : ∀ s a s', I s → step s a = some s' → I s')
    (h : run step s as = some s') (h0 : I s) : I s' :=
  run_invariant_of_mem I (fun s a s' _ => hstep s a s') h h0

/-- An invariant that speaks of the actions taken so far. -/
theorem run_invariant_history (I : List α → σ → Prop)
    (hstep : ∀ as s a s', I as s → step s a = some s' → I (as ++ [a]) s')
    (h : run step s as = some s') (h0 : I [] s) : I as s' := by
  have hall : ∀ past, I past s → I (past ++ as) s' := by
    clear h0
    induction as generalizing s with
    | nil =>
        intro past hpast
        cases h
        rw [List.append_nil]
        exact hpast
    | cons a as ih =>
        intro past hpast
        obtain ⟨t, ht, hr⟩ := run_cons_eq_some.mp h
        rw [List.append_cons]
        exact ih hr (past ++ [a]) (hstep past s a t hpast ht)
  exact hall [] h0

/-- A number that passes `e` during the run does so in one of its steps. -/
theorem exists_step_past (f : σ → Nat) {e : Nat} (h : run step s as = some s') (h0 : f s ≤ e)
    (he : e < f s') : ∃ as₁ a as₂ t t', as = as₁ ++ a :: as₂ ∧ run step s as₁ = some t ∧
      step t a = some t' ∧ run step t' as₂ = some s' ∧ f t ≤ e ∧ e < f t' := by
  induction as generalizing s with
  | nil =>
      cases h
      omega
  | cons a as ih =>
      obtain ⟨t, ht, hr⟩ := run_cons_eq_some.mp h
      by_cases hte : f t ≤ e
      · obtain ⟨as₁, b, as₂, u, u', rfl, hu, hrest⟩ := ih hr hte
        exact ⟨a :: as₁, b, as₂, u, u', rfl, run_cons_eq_some.mpr ⟨t, ht, hu⟩, hrest⟩
      · exact ⟨[], a, as, s, t, rfl, rfl, ht, hr, h0, by omega⟩

theorem meets_of_forall {C : σ → α → Prop} (h : ∀ s, ∀ a ∈ as, C s a) : Meets step C s as := by
  induction as generalizing s with
  | nil => trivial
  | cons a as ih =>
      exact ⟨h s a List.mem_cons_self,
        fun _ _ => ih fun s b hb => h s b (List.mem_cons_of_mem a hb)⟩

theorem run_invariant_of_meets (C : σ → α → Prop) (I : σ → Prop)
    (hstep : ∀ s a s', I s → C s a → step s a = some s' → I s')
    (h : run step s as = some s') (hm : Meets step C s as) (h0 : I s) : I s' := by
  induction as generalizing s with
  | nil => cases h; exact h0
  | cons a as ih =>
      obtain ⟨t, ht, hr⟩ := run_cons_eq_some.mp h
      exact ih hr (hm.2 t ht) (hstep s a t h0 hm.1 ht)

theorem exists_run_until (I Q : σ → Prop) (μ : σ → Nat)
    (hstep : ∀ s a s', I s → step s a = some s' → I s')
    (hgo : ∀ s, I s → ¬ Q s → ∃ as s', run step s as = some s' ∧ μ s' < μ s)
    (h0 : I s) : ∃ as s', run step s as = some s' ∧ Q s' := by
  induction hn : μ s using Nat.strongRecOn generalizing s with
  | _ n ih =>
      by_cases hq : Q s
      · exact ⟨[], s, rfl, hq⟩
      · obtain ⟨as, t, hrun, hlt⟩ := hgo s h0 hq
        obtain ⟨bs, u, hrun', hu⟩ := ih (μ t) (hn ▸ hlt) (run_invariant I hstep hrun h0) rfl
        exact ⟨as ++ bs, u, run_append_eq_some.mpr ⟨t, hrun, hrun'⟩, hu⟩

/-! ## Answers -/

section Answers

variable {σ τ α β : Type*}

/-- The state after these calls. -/
def afterCalls (call : σ → α → σ × β) (s : σ) (as : List α) : σ :=
  as.foldl (fun s a => (call s a).1) s

/-- The answers to these calls, one for each. -/
def answers (call : σ → α → σ × β) : σ → List α → List β
  | _, [] => []
  | s, a :: as => (call s a).2 :: answers call (call s a).1 as

variable {call : σ → α → σ × β} {call' : τ → α → τ × β} {s : σ} {t : τ} {as : List α}

theorem answers_eq_iff : answers call s as = answers call' t as ↔
    ∀ before a after, as = before ++ a :: after →
      (call (afterCalls call s before) a).2 = (call' (afterCalls call' t before) a).2 := by
  induction as generalizing s t with
  | nil => simp [answers]
  | cons b as ih =>
      rw [answers, answers, List.cons.injEq, ih]
      constructor
      · rintro ⟨hfirst, hrest⟩ before a after heq
        cases before with
        | nil =>
            obtain ⟨rfl, -⟩ := List.cons.inj heq
            exact hfirst
        | cons c before =>
            obtain ⟨rfl, htail⟩ := List.cons.inj heq
            exact hrest before a after htail
      · intro hall
        refine ⟨hall [] b as rfl, fun before a after heq => ?_⟩
        exact hall (b :: before) a after (by rw [heq, List.cons_append])

end Answers

end NeuChain.Lib
