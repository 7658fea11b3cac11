/-
  Interleavings of several logs, and functions that do not depend on the interleaving.

  `Merge logs l`: `l` is made of the logs, each taken from its front.

  A function of lists that agrees on all interleavings of every family of at least two logs
  with the elements `xs` agrees on all orders of `xs` (`eq_of_merges`): two orders are joined by
  exchanging neighbours, and `a ++ x :: y :: b` and `a ++ y :: x :: b` are interleavings of
  the logs `a ++ x :: b` and `[y]`.
-/
import Mathlib.Data.List.Perm.Basic

namespace NeuChain.Lib

variable {α β : Type*}

inductive Merge : List (List α) → List α → Prop
  | done {logs : List (List α)} (h : ∀ l ∈ logs, l = []) : Merge logs []
  | take {p s : List (List α)} {x : α} {r l : List α} (h : Merge (p ++ r :: s) l) :
      Merge (p ++ (x :: r) :: s) (x :: l)

variable {logs : List (List α)} {l l' a b xs : List α} {x y : α}

theorem Merge.perm (h : Merge logs l) : logs.flatten.Perm l := by
  induction h with
  | done h => rw [List.flatten_eq_nil_iff.mpr h]
  | @take p s x r l _ ih =>
      have hcons : (p ++ (x :: r) :: s).flatten.Perm (x :: (p ++ r :: s).flatten) := by
        rw [List.flatten_append, List.flatten_append, List.flatten_cons, List.flatten_cons,
          List.cons_append]
        exact List.perm_middle
      exact hcons.trans (ih.cons x)

/-- One log has one interleaving. -/
theorem Merge.eq_flatten (h : Merge logs l) (hlen : logs.length ≤ 1) : l = logs.flatten := by
  induction h with
  | done h => rw [List.flatten_eq_nil_iff.mpr h]
  | @take p s x r l _ ih =>
      have hp : p.length = 0 ∧ s.length = 0 := by
        rw [List.length_append, List.length_cons] at hlen
        omega
      obtain rfl := List.eq_nil_of_length_eq_zero hp.1
      obtain rfl := List.eq_nil_of_length_eq_zero hp.2
      rw [ih (by simp)]
      simp

/-- An element that comes to the end of one log may come last. -/
theorem Merge.snoc {p s : List (List α)} {r : List α} (h : Merge (p ++ r :: s) l) (x : α) :
    Merge (p ++ (r ++ [x]) :: s) (l ++ [x]) := by
  generalize hlogs : p ++ r :: s = logs at h
  induction h generalizing p r s with
  | done h =>
      subst hlogs
      obtain rfl : r = [] := h r (by simp)
      refine .take (.done fun l hl => h l ?_)
      simpa using hl
  | @take p' s' y r' l _ ih =>
      -- the first element is taken from this log, from one before it or from one after it
      rcases List.append_eq_append_iff.mp hlogs with ⟨m, rfl, hm⟩ | ⟨m, rfl, hm⟩
      · cases m with
        | nil =>
            simp only [List.nil_append, List.cons.injEq] at hm
            obtain ⟨rfl, rfl⟩ := hm
            exact .take (ih (by simp))
        | cons r₁ m =>
            simp only [List.cons_append, List.cons.injEq] at hm
            obtain ⟨rfl, rfl⟩ := hm
            have := ih (p := p) (r := r) (s := m ++ r' :: s') (by simp)
            have hcons := Merge.take (p := p ++ (r ++ [x]) :: m) (s := s') (x := y) (r := r')
              (l := l ++ [x]) (by simpa using this)
            simpa using hcons
      · cases m with
        | nil =>
            simp only [List.nil_append, List.cons.injEq] at hm
            obtain ⟨rfl, rfl⟩ := hm
            rw [List.append_nil]
            exact .take (ih rfl)
        | cons r₁ m =>
            simp only [List.cons_append, List.cons.injEq] at hm
            obtain ⟨rfl, rfl⟩ := hm
            have := ih (p := p' ++ r' :: m) (r := r) (s := s) (by simp)
            have hcons := Merge.take (p := p') (s := m ++ (r ++ [x]) :: s) (x := y) (r := r')
              (l := l ++ [x]) (by simpa using this)
            simpa using hcons

/-- What is left of the first log. -/
theorem Merge.first (others : List (List α)) (h : ∀ l ∈ others, l = []) (a : List α) :
    Merge (a :: others) a := by
  induction a with
  | nil => exact .done (by simpa using h)
  | cons x a ih => exact .take (p := []) ih

/-- The second log `[y]` may be taken anywhere between the elements of the first. -/
theorem Merge.insert (others : List (List α)) (h : ∀ l ∈ others, l = []) (a b : List α) (y : α) :
    Merge ((a ++ b) :: [y] :: others) (a ++ y :: b) := by
  induction a with
  | nil =>
      refine .take (p := [b]) (s := others) (r := []) (Merge.first ([] :: others) ?_ b)
      simpa using h
  | cons x a ih => exact .take (p := []) ih

theorem Merge.swap (others : List (List α)) (h : ∀ l ∈ others, l = []) (a b : List α) (x y : α) :
    Merge ((a ++ x :: b) :: [y] :: others) (a ++ x :: y :: b) ∧
      Merge ((a ++ x :: b) :: [y] :: others) (a ++ y :: x :: b) := by
  constructor
  · have := Merge.insert others h (a ++ [x]) b y
    simpa using this
  · exact Merge.insert others h a (x :: b) y

/-- A function that does not see neighbours exchanged does not see the order. -/
theorem eq_of_swaps {f : List α → β}
    (h : ∀ a x y b, (a ++ x :: y :: b).Perm xs → f (a ++ x :: y :: b) = f (a ++ y :: x :: b))
    (hl : l.Perm xs) (hl' : l'.Perm xs) : f l = f l' := by
  -- the part already in common is kept in front
  have key : ∀ {l l' : List α}, l.Perm l' → ∀ pre, (pre ++ l).Perm xs → f (pre ++ l) = f (pre ++ l') := by
    intro l l' hp
    induction hp with
    | nil => intro pre _; rfl
    | cons x _ ih =>
        intro pre hpre
        have := ih (pre ++ [x]) (by simpa using hpre)
        simpa using this
    | swap x y l =>
        intro pre hpre
        exact h pre y x l hpre
    | trans hp _ ih ih' =>
        intro pre hpre
        rw [ih pre hpre]
        exact ih' pre ((hp.symm.append_left pre).trans hpre)
  exact key (hl.trans hl'.symm) [] hl

theorem eq_of_merges {f : List α → β} {n : Nat} (hn : 2 ≤ n)
    (h : ∀ logs : List (List α), logs.length = n → logs.flatten.Perm xs →
      ∀ l l', Merge logs l → Merge logs l' → f l = f l')
    (hl : l.Perm xs) (hl' : l'.Perm xs) : f l = f l' := by
  refine eq_of_swaps (fun a x y b hp => ?_) hl hl'
  have hempty : ∀ l ∈ List.replicate (n - 2) ([] : List α), l = [] :=
    fun l hm => List.eq_of_mem_replicate hm
  obtain ⟨hxy, hyx⟩ := Merge.swap _ hempty a b x y
  refine h _ ?_ (hxy.perm.trans hp) _ _ hxy hyx
  simp only [List.length_cons, List.length_replicate]
  omega

end NeuChain.Lib
