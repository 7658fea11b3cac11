/-
  Serial execution of deterministic programs on a store, and a serial order for
  programs that all ran on one snapshot.

  `exec t s` is what program `t` does on store `s`: an outcome with the keys it read
  and the writes it made. `LocalProg` says that the outcome depends only on the keys it
  reports as read. `serialRun` runs programs one by one, each on the store its
  predecessors left.

  * `serialRun_eq`: if no program reads a key that an earlier one in the order
    wrote (both as they ran on the snapshot), then running them serially repeats
    every snapshot outcome.
  * `Conflict.order`: a reordering rule. Every program has a number; `raw t` is set
    when `t` read what a smaller one wrote, `war t` when `t` wrote what a smaller one
    read, and no program has both. Programs with `raw` in descending order, then the
    others in ascending order, is an order of the first kind (`Conflict.order_pairwise`).
    No cycle argument is needed: on a read-before-write edge the larger of the two
    carries a flag, and that flag fixes its half of the order.
-/
import NeuChain.Lib.Store

namespace NeuChain.Lib

variable {κ ν ω τ : Type*} [DecidableEq κ]

/-- Deterministic programs over a store, with what an outcome says it read and wrote. -/
structure Programs (κ ν ω τ : Type*) where
  exec : τ → (κ → Option ν) → ω
  readsOf : ω → List κ
  writesOf : ω → List (κ × Option ν)

namespace Programs

variable (P : Programs κ ν ω τ)

/-- The outcome on a store depends only on the keys the outcome reports as read. -/
def LocalProg (t : τ) : Prop :=
  ∀ s s', (∀ k ∈ P.readsOf (P.exec t s), s' k = s k) → P.exec t s' = P.exec t s

/-- Run the programs one by one: the final store and each one's outcome. -/
def serialRun (s : κ → Option ν) : List τ → (κ → Option ν) × List ω
  | [] => (s, [])
  | t :: ts =>
      let rest := serialRun (putAll s (P.writesOf (P.exec t s))) ts
      (rest.1, P.exec t s :: rest.2)

/-- `b` read nothing that `a` wrote, both on the snapshot `D`. -/
def Unread (D : κ → Option ν) (a b : τ) : Prop :=
  ∀ k ∈ P.readsOf (P.exec b D), ∀ w ∈ P.writesOf (P.exec a D), w.1 ≠ k

variable {P}

/-- The induction behind `serialRun_eq`: the store has been changed only in keys that
    none of the remaining programs reads. -/
theorem serialRun_of_agree {D : κ → Option ν} {ts : List τ} (hl : ∀ t ∈ ts, P.LocalProg t)
    (ho : ts.Pairwise (P.Unread D)) (s : κ → Option ν)
    (ha : ∀ t ∈ ts, ∀ k ∈ P.readsOf (P.exec t D), s k = D k) :
    P.serialRun s ts =
      (putAll s (ts.flatMap fun t => P.writesOf (P.exec t D)), ts.map fun t => P.exec t D) := by
  induction ts generalizing s with
  | nil => rfl
  | cons t ts ih =>
      obtain ⟨hot, hots⟩ := List.pairwise_cons.mp ho
      have ht : P.exec t s = P.exec t D :=
        hl t List.mem_cons_self D s (ha t List.mem_cons_self)
      have hrest := ih (fun u hu => hl u (List.mem_cons_of_mem _ hu)) hots
        (putAll s (P.writesOf (P.exec t D))) ?_
      · simp only [serialRun, ht, hrest, List.flatMap_cons, List.map_cons, putAll_append]
      · intro u hu k hk
        rw [putAll_apply_of_forall_ne (hot u hu k hk)]
        exact ha u (List.mem_cons_of_mem _ hu) k hk

theorem serialRun_eq {D : κ → Option ν} {ts : List τ} (hl : ∀ t ∈ ts, P.LocalProg t)
    (ho : ts.Pairwise (P.Unread D)) :
    P.serialRun D ts =
      (putAll D (ts.flatMap fun t => P.writesOf (P.exec t D)), ts.map fun t => P.exec t D) :=
  serialRun_of_agree hl ho D fun _ _ _ _ => rfl

theorem serialRun_append (s : κ → Option ν) (ts us : List τ) :
    P.serialRun s (ts ++ us) =
      ((P.serialRun (P.serialRun s ts).1 us).1,
        (P.serialRun s ts).2 ++ (P.serialRun (P.serialRun s ts).1 us).2) := by
  induction ts generalizing s with
  | nil => rfl
  | cons t ts ih => simp only [List.cons_append, serialRun, ih]

end Programs

/-- The flags of a reordering commit rule. `edge a b`: `a` read a key that `b` wrote, so `a`
    must come first. -/
structure Conflict (τ : Type*) where
  num : τ → Nat
  raw : τ → Bool
  war : τ → Bool
  edge : τ → τ → Prop
  raw_of_edge : ∀ a b, edge a b → num b < num a → raw a = true
  war_of_edge : ∀ a b, edge a b → num a < num b → war b = true

namespace Conflict

variable (C : Conflict τ)

/-- `raw` programs first, the largest number first; then the others, the smallest first. -/
def before (a b : τ) : Bool :=
  match C.raw a, C.raw b with
  | true, true => decide (C.num b ≤ C.num a)
  | true, false => true
  | false, true => false
  | false, false => decide (C.num a ≤ C.num b)

def order (ts : List τ) : List τ := ts.mergeSort C.before

theorem before_trans (a b c : τ) (hab : C.before a b) (hbc : C.before b c) : C.before a c := by
  unfold before at *
  cases ha : C.raw a <;> cases hb : C.raw b <;> cases hc : C.raw c <;> simp_all <;> omega

theorem before_total (a b : τ) : (C.before a b || C.before b a) = true := by
  unfold before
  cases ha : C.raw a <;> cases hb : C.raw b <;> simp <;> omega

theorem order_perm (ts : List τ) : (C.order ts).Perm ts := List.mergeSort_perm _ _

/-- An edge never points backwards in the order, between programs that do not carry
    both flags. -/
theorem not_edge_of_before {a b : τ} (h : C.before a b) (hne : C.num a ≠ C.num b)
    (ha : ¬(C.raw a = true ∧ C.war a = true)) : ¬C.edge b a := by
  intro he
  rcases Nat.lt_or_gt_of_ne hne with hlt | hgt
  · -- `b` is the larger one and read from `a`: it is in the `raw` half, and `a` precedes it
    have hb : C.raw b = true := C.raw_of_edge b a he hlt
    unfold before at h
    cases hra : C.raw a <;> simp [hra, hb] at h
    omega
  · -- `a` is the larger one and overwrote a read of `b`: it is in the other half
    have hwa : C.war a = true := C.war_of_edge b a he hgt
    have hra : C.raw a = false := by
      by_contra hc
      exact ha ⟨by simpa using hc, hwa⟩
    unfold before at h
    cases hrb : C.raw b <;> simp [hra, hrb] at h
    omega

theorem order_pairwise {ts : List τ} (hnum : (ts.map C.num).Nodup)
    (hflags : ∀ t ∈ ts, ¬(C.raw t = true ∧ C.war t = true)) :
    (C.order ts).Pairwise fun a b => ¬C.edge b a := by
  have hs : (C.order ts).Pairwise fun a b => C.before a b = true :=
    List.pairwise_mergeSort C.before_trans C.before_total ts
  have hn : (C.order ts).Pairwise fun a b => C.num a ≠ C.num b := by
    have hnd : ((C.order ts).map C.num).Nodup := ((C.order_perm ts).map C.num).nodup_iff.mpr hnum
    exact List.pairwise_map.mp hnd
  refine (hs.and hn).imp_of_mem ?_
  intro a b ha _ h
  exact C.not_edge_of_before h.1 h.2 (hflags a ((C.order_perm ts).mem_iff.mp ha))

end Conflict

end NeuChain.Lib
