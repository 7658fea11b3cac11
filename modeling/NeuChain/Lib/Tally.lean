/-
  Votes to exclude members, counted as they arrive.

  A vote names a target and an epoch from which it should be excluded. Once `q` different
  members have voted for the same target and epoch, the target is excluded from that epoch on; the
  first such epoch stands. Votes by and against excluded members no longer count. So the
  verdict may depend on the order in which votes arrive.

  * `verdict_iff_of_stable`: if the votes are `Stable`, every order ends with exactly the targets
    and epochs that have `q` supporters excluded. `Stable`: no target has `q` supporters for two
    epochs, and each target with `q` supporters has `q` of them among the target itself and the
    members that have not.
  * `stable_of_verdict_const`: if all orders end alike, the votes are stable. Two
    orders per target and epoch are enough: its votes first, and its votes last.
-/
import Mathlib.Data.Finset.Card
import Mathlib.Data.List.Basic
import Mathlib.Data.Finset.Basic

namespace NeuChain.Lib

structure Vote (ι ε : Type*) where
  voter : ι
  target : ι
  since : ε
deriving DecidableEq

/-- The votes counted so far, and from when a member is excluded. -/
@[ext]
structure Tally (ι ε : Type*) where
  voters : ι → ε → Finset ι
  verdict : ι → Option ε

variable {ι ε : Type*} [DecidableEq ι] [DecidableEq ε]

def Tally.empty : Tally ι ε where
  voters _ _ := ∅
  verdict _ := none

/-- Count one vote. -/
def Tally.cast (q : Nat) (b : Tally ι ε) (v : Vote ι ε) : Tally ι ε :=
  if (b.verdict v.voter).isSome ∨ (b.verdict v.target).isSome then b
  else
    let vs := insert v.voter (b.voters v.target v.since)
    { voters := fun t e => if t = v.target ∧ e = v.since then vs else b.voters t e
      verdict := if q ≤ vs.card then Function.update b.verdict v.target (some v.since)
        else b.verdict }

def Tally.count (q : Nat) (vs : List (Vote ι ε)) : Tally ι ε := vs.foldl (Tally.cast q) .empty

/-- Who voted to exclude `t` from `e` on. -/
def supporters (vs : List (Vote ι ε)) (t : ι) (e : ε) : Finset ι :=
  ((vs.filter fun v => v.target = t ∧ v.since = e).map Vote.voter).toFinset

/-- `t` has enough supporters for being excluded from `e` on. -/
def Quorum (q : Nat) (vs : List (Vote ι ε)) (t : ι) (e : ε) : Prop := q ≤ (supporters vs t e).card

instance (q : Nat) (vs : List (Vote ι ε)) (t : ι) (e : ε) : Decidable (Quorum q vs t e) :=
  inferInstanceAs (Decidable (_ ≤ _))

/-- The targets that have a quorum for some epoch. -/
def condemned (q : Nat) (vs : List (Vote ι ε)) : Finset ι :=
  ((vs.filter fun v => Quorum q vs v.target v.since).map Vote.target).toFinset

/-- The supporters whose votes count in every order. -/
def reliable (q : Nat) (vs : List (Vote ι ε)) (t : ι) (e : ε) : Finset ι :=
  (supporters vs t e).filter fun s => s = t ∨ s ∉ condemned q vs

structure Stable (q : Nat) (vs : List (Vote ι ε)) : Prop where
  once : ∀ t e e', Quorum q vs t e → Quorum q vs t e' → e = e'
  reliable : ∀ t e, Quorum q vs t e → q ≤ (reliable q vs t e).card

/-! ## Counting -/

section Counting

variable {q : Nat} {b : Tally ι ε} {v : Vote ι ε} {vs ws : List (Vote ι ε)} {s t u : ι} {e e' : ε}

theorem mem_supporters :
    s ∈ supporters vs t e ↔ { voter := s, target := t, since := e } ∈ vs := by
  unfold supporters
  rw [List.mem_toFinset, List.mem_map]
  constructor
  · rintro ⟨v, hv, rfl⟩
    obtain ⟨hmem, hte⟩ := List.mem_filter.mp hv
    obtain ⟨rfl, rfl⟩ := of_decide_eq_true hte
    exact hmem
  · intro h
    exact ⟨_, List.mem_filter.mpr ⟨h, by simp⟩, rfl⟩

theorem supporters_congr (h : ∀ v, v ∈ vs ↔ v ∈ ws) : supporters vs t e = supporters ws t e := by
  ext s
  rw [mem_supporters, mem_supporters, h]

theorem Quorum.exists_vote (hq : 1 ≤ q) (h : Quorum q vs t e) :
    ∃ s, { voter := s, target := t, since := e } ∈ vs := by
  have hpos : 0 < (supporters vs t e).card := Nat.lt_of_lt_of_le hq h
  obtain ⟨s, hs⟩ := Finset.card_pos.mp hpos
  exact ⟨s, mem_supporters.mp hs⟩

theorem mem_condemned (hq : 1 ≤ q) : t ∈ condemned q vs ↔ ∃ e, Quorum q vs t e := by
  unfold condemned
  rw [List.mem_toFinset, List.mem_map]
  constructor
  · rintro ⟨v, hv, rfl⟩
    exact ⟨v.since, of_decide_eq_true (List.mem_filter.mp hv).2⟩
  · rintro ⟨e, he⟩
    obtain ⟨s, hs⟩ := he.exists_vote hq
    exact ⟨_, List.mem_filter.mpr ⟨hs, by simpa using he⟩, rfl⟩

/-- What one vote can do: it is ignored, or it counts. -/
theorem cast_cases (q : Nat) (b : Tally ι ε) (v : Vote ι ε) :
    (b.cast q v = b ∧ ((b.verdict v.voter).isSome ∨ (b.verdict v.target).isSome)) ∨
    (b.verdict v.voter = none ∧ b.verdict v.target = none ∧
      (∀ t e, (b.cast q v).voters t e =
        if t = v.target ∧ e = v.since then insert v.voter (b.voters t e) else b.voters t e) ∧
      (b.cast q v).verdict = if q ≤ ((b.cast q v).voters v.target v.since).card
        then Function.update b.verdict v.target (some v.since) else b.verdict) := by
  unfold Tally.cast
  by_cases h : (b.verdict v.voter).isSome ∨ (b.verdict v.target).isSome
  · left
    rw [if_pos h]
    exact ⟨rfl, h⟩
  · right
    rw [if_neg h]
    push Not at h
    refine ⟨by simpa using h.1, by simpa using h.2, ?_, by simp⟩
    intro t e
    by_cases hte : t = v.target ∧ e = v.since
    · obtain ⟨rfl, rfl⟩ := hte
      simp
    · simp [hte]

/-- A vote that counts, by target. -/
theorem cast_verdict_of_open (hv : b.verdict v.voter = none) (ht : b.verdict v.target = none)
    (t : ι) : (b.cast q v).verdict t =
      if t = v.target ∧ q ≤ (insert v.voter (b.voters v.target v.since)).card then some v.since
      else b.verdict t := by
  unfold Tally.cast
  rw [if_neg (by simp [hv, ht])]
  dsimp only
  by_cases hq : q ≤ (insert v.voter (b.voters v.target v.since)).card
  · by_cases htv : t = v.target
    · simp [hq, htv]
    · simp [hq, htv]
  · simp [hq]

theorem cast_voters_of_open (hv : b.verdict v.voter = none) (ht : b.verdict v.target = none)
    (t : ι) (e : ε) : (b.cast q v).voters t e =
      if t = v.target ∧ e = v.since then insert v.voter (b.voters v.target v.since)
      else b.voters t e := by
  unfold Tally.cast
  rw [if_neg (by simp [hv, ht])]

theorem cast_of_closed (h : (b.verdict v.voter).isSome ∨ (b.verdict v.target).isSome) :
    b.cast q v = b := by
  unfold Tally.cast
  rw [if_pos h]

theorem cast_verdict_some (h : b.verdict t = some e) : (b.cast q v).verdict t = some e := by
  rcases cast_cases q b v with ⟨heq, -⟩ | ⟨-, hv, -, hver⟩
  · rw [heq]; exact h
  · rw [hver]
    split
    · by_cases ht : t = v.target
      · subst ht; rw [h] at hv; cases hv
      · rw [Function.update_of_ne ht]; exact h
    · exact h

theorem verdict_none_of_cast (h : (b.cast q v).verdict t = none) : b.verdict t = none := by
  cases hb : b.verdict t with
  | none => rfl
  | some e => rw [cast_verdict_some hb] at h; cases h

/-- A verdict stands. -/
theorem foldl_cast_verdict_some (h : b.verdict t = some e) :
    (ws.foldl (Tally.cast q) b).verdict t = some e := by
  induction ws generalizing b with
  | nil => exact h
  | cons v ws ih => exact ih (cast_verdict_some h)

/-- Votes against `t` decide only about `t`. -/
theorem foldl_cast_verdict_of_ne (hws : ∀ v ∈ ws, v.target = t) (hu : u ≠ t) :
    (ws.foldl (Tally.cast q) b).verdict u = b.verdict u := by
  induction ws generalizing b with
  | nil => rfl
  | cons v ws ih =>
      rw [List.foldl_cons, ih fun w hw => hws w (List.mem_cons_of_mem _ hw)]
      rcases cast_cases q b v with ⟨heq, -⟩ | ⟨-, -, -, hver⟩
      · rw [heq]
      · rw [hver]
        split
        · rw [Function.update_of_ne]
          rw [hws v List.mem_cons_self]
          exact hu
        · rfl

/-- The counted voters, and why a member is excluded or not. -/
structure Counted (q : Nat) (vs : List (Vote ι ε)) (b : Tally ι ε) : Prop where
  voters : ∀ t e, b.voters t e ⊆ supporters vs t e
  excluded : ∀ t e, b.verdict t = some e → q ≤ (b.voters t e).card
  member : ∀ t e, b.verdict t = none → (b.voters t e).card < q
  counts : ∀ v ∈ vs, b.verdict v.voter = none → b.verdict v.target = none →
    v.voter ∈ b.voters v.target v.since

theorem Counted.cast (h : Counted q vs b) :
    Counted q (vs ++ [v]) (b.cast q v) := by
  have hsub : ∀ t e, supporters vs t e ⊆ supporters (vs ++ [v]) t e := by
    intro t e s hs
    rw [mem_supporters] at hs ⊢
    exact List.mem_append_left _ hs
  rcases cast_cases q b v with ⟨heq, hign⟩ | ⟨hvv, hvt, hvoters, hver⟩
  · rw [heq]
    refine ⟨fun t e => (h.voters t e).trans (hsub t e), h.excluded, h.member, ?_⟩
    intro w hw hwv hwt
    rcases List.mem_append.mp hw with hw | hw
    · exact h.counts w hw hwv hwt
    · rw [List.mem_singleton.mp hw] at hwv hwt
      rw [hwv, hwt] at hign
      simp at hign
  · -- the verdict of a target other than the vote's does not change
    have hother : ∀ t, t ≠ v.target → (b.cast q v).verdict t = b.verdict t := by
      intro t ht
      rw [hver]
      split
      · exact Function.update_of_ne ht _ _
      · rfl
    have hkeep : ∀ t e, ¬ (t = v.target ∧ e = v.since) →
        (b.cast q v).voters t e = b.voters t e := by
      intro t e hte
      rw [hvoters, if_neg hte]
    refine ⟨?_, ?_, ?_, ?_⟩
    · intro t e
      rw [hvoters]
      split
      · rename_i hte
        obtain ⟨rfl, rfl⟩ := hte
        refine Finset.insert_subset ?_ ((h.voters _ _).trans (hsub _ _))
        rw [mem_supporters]
        exact List.mem_append_right _ (List.mem_singleton_self _)
      · exact (h.voters t e).trans (hsub t e)
    · intro t e hte
      by_cases ht : t = v.target
      · subst ht
        rw [hver] at hte
        split at hte
        · rename_i hcard
          rw [Function.update_self] at hte
          cases hte
          exact hcard
        · rw [hvt] at hte; cases hte
      · rw [hother t ht] at hte
        rw [hkeep t e fun hc => ht hc.1]
        exact h.excluded t e hte
    · intro t e hte
      by_cases htv : t = v.target ∧ e = v.since
      · obtain ⟨rfl, rfl⟩ := htv
        rw [hver] at hte
        split at hte
        · rw [Function.update_self] at hte; cases hte
        · rename_i hcard; exact Nat.lt_of_not_le hcard
      · rw [hkeep t e htv]
        exact h.member t e (verdict_none_of_cast hte)
    · intro w hw hwv hwt
      rcases List.mem_append.mp hw with hw | hw
      · have hmem := h.counts w hw (verdict_none_of_cast hwv) (verdict_none_of_cast hwt)
        rw [hvoters]
        split
        · exact Finset.mem_insert_of_mem hmem
        · exact hmem
      · rw [List.mem_singleton.mp hw, hvoters, if_pos ⟨rfl, rfl⟩]
        exact Finset.mem_insert_self _ _

theorem counted_count (hq : 1 ≤ q) (vs : List (Vote ι ε)) : Counted q vs (Tally.count q vs) := by
  induction vs using List.reverseRecOn with
  | nil =>
      refine ⟨fun _ _ => Finset.empty_subset _, fun _ _ h => (by cases h), fun _ _ _ => ?_,
        fun _ h => absurd h List.not_mem_nil⟩
      exact hq
  | append_singleton vs v ih =>
      unfold Tally.count at ih ⊢
      rw [List.foldl_append]
      exact ih.cast

theorem quorum_of_verdict (hq : 1 ≤ q) (h : (Tally.count q vs).verdict t = some e) :
    Quorum q vs t e := by
  have hc := counted_count hq vs
  exact (hc.excluded t e h).trans (Finset.card_le_card (hc.voters t e))

end Counting

/-! ## When the order does not matter -/

section Order

variable {q : Nat} {vs ws : List (Vote ι ε)} {t : ι} {e : ε}

theorem verdict_iff_of_stable (hq : 1 ≤ q) (h : Stable q vs) (t : ι) (e : ε) :
    (Tally.count q vs).verdict t = some e ↔ Quorum q vs t e := by
  have hc := counted_count hq vs
  refine ⟨quorum_of_verdict hq, fun hquo => ?_⟩
  cases hver : (Tally.count q vs).verdict t with
  | some e' => rw [h.once t e e' hquo (quorum_of_verdict hq hver)]
  | none =>
      -- every reliable supporter has been counted, so `t` would be excluded
      have hsub : reliable q vs t e ⊆ (Tally.count q vs).voters t e := by
        intro s hs
        obtain ⟨hs, hrel⟩ := Finset.mem_filter.mp hs
        refine hc.counts _ (mem_supporters.mp hs) ?_ hver
        show (Tally.count q vs).verdict s = none
        rcases hrel with rfl | hn
        · exact hver
        · cases hvs : (Tally.count q vs).verdict s with
          | none => rfl
          | some e' => exact absurd ((mem_condemned hq).mpr ⟨e', quorum_of_verdict hq hvs⟩) hn
      have hlt := hc.member t e hver
      have hge := (h.reliable t e hquo).trans (Finset.card_le_card hsub)
      omega

theorem quorum_congr (h : ∀ v, v ∈ vs ↔ v ∈ ws) : Quorum q vs t e ↔ Quorum q ws t e := by
  unfold Quorum
  rw [supporters_congr h]

theorem Stable.congr (hq : 1 ≤ q) (h : ∀ v, v ∈ vs ↔ v ∈ ws) (hs : Stable q vs) :
    Stable q ws := by
  have hcon : condemned q vs = condemned q ws := by
    ext t
    rw [mem_condemned hq, mem_condemned hq]
    exact exists_congr fun e => quorum_congr h
  refine ⟨fun t e e' hte hte' => hs.once t e e' ((quorum_congr h).mpr hte)
    ((quorum_congr h).mpr hte'), fun t e hte => ?_⟩
  have := hs.reliable t e ((quorum_congr h).mpr hte)
  unfold Lib.reliable at this ⊢
  rwa [supporters_congr h, hcon] at this

/-- Stable votes end alike in every order. -/
theorem verdict_perm_of_stable (hq : 1 ≤ q) (h : Stable q vs) (hp : vs.Perm ws) :
    (Tally.count q vs).verdict = (Tally.count q ws).verdict := by
  funext t
  refine Option.ext fun e => ?_
  have hmem : ∀ v, v ∈ vs ↔ v ∈ ws := fun v => hp.mem_iff
  rw [verdict_iff_of_stable hq h, verdict_iff_of_stable hq (h.congr hq hmem), quorum_congr hmem]

/-- The votes against `t` for epoch `e`, and all the others. -/
def against (vs : List (Vote ι ε)) (t : ι) (e : ε) : List (Vote ι ε) :=
  vs.filter fun v => v.target = t ∧ v.since = e

def otherwise (vs : List (Vote ι ε)) (t : ι) (e : ε) : List (Vote ι ε) :=
  vs.filter fun v => ¬ (v.target = t ∧ v.since = e)

theorem mem_against {v : Vote ι ε} :
    v ∈ against vs t e ↔ v ∈ vs ∧ v.target = t ∧ v.since = e := by
  rw [against, List.mem_filter, decide_eq_true_eq]

theorem mem_otherwise {v : Vote ι ε} :
    v ∈ otherwise vs t e ↔ v ∈ vs ∧ ¬ (v.target = t ∧ v.since = e) := by
  rw [otherwise, List.mem_filter, decide_eq_true_eq]

/-- A quorum whose votes arrive first excludes its target. -/
theorem verdict_against (hq : 1 ≤ q) (h : Quorum q vs t e) :
    (Tally.count q (against vs t e)).verdict t = some e := by
  have hc := counted_count hq (against vs t e)
  have honly : ∀ u e', (Tally.count q (against vs t e)).verdict u = some e' → u = t ∧ e' = e := by
    intro u e' hu
    obtain ⟨s, hs⟩ := (quorum_of_verdict hq hu).exists_vote hq
    exact (mem_against.mp hs).2
  cases hver : (Tally.count q (against vs t e)).verdict t with
  | some e' => rw [(honly t e' hver).2]
  | none =>
      have hnone : ∀ u, (Tally.count q (against vs t e)).verdict u = none := by
        intro u
        cases hu : (Tally.count q (against vs t e)).verdict u with
        | none => rfl
        | some e' =>
            rw [(honly u e' hu).1, hver] at hu
            cases hu
      have hsub : supporters vs t e ⊆ (Tally.count q (against vs t e)).voters t e := by
        intro s hs
        exact hc.counts _ (mem_against.mpr ⟨mem_supporters.mp hs, rfl, rfl⟩) (hnone _) hver
      have hlt := hc.member t e hver
      have hge := h.trans (Finset.card_le_card hsub)
      omega

/-- The voters that are added by votes against `t`: those not excluded before. -/
theorem foldl_cast_voters (b : Tally ι ε) (hws : ∀ v ∈ ws, v.target = t ∧ v.since = e) (s : ι)
    (hs : s ∈ (ws.foldl (Tally.cast q) b).voters t e) :
    s ∈ b.voters t e ∨ (s ∈ supporters ws t e ∧ (s = t ∨ b.verdict s = none)) := by
  induction ws generalizing b with
  | nil => exact Or.inl hs
  | cons v ws ih =>
      have hrest := ih (b.cast q v) (fun w hw => hws w (List.mem_cons_of_mem _ hw)) hs
      obtain ⟨hvt, hve⟩ := hws v List.mem_cons_self
      have hsup : ∀ s, s ∈ supporters ws t e → s ∈ supporters (v :: ws) t e := by
        intro s hs
        rw [mem_supporters] at hs ⊢
        exact List.mem_cons_of_mem _ hs
      rcases cast_cases q b v with ⟨heq, -⟩ | ⟨hvv, -, hvoters, -⟩
      · rw [heq] at hrest
        exact hrest.imp_right fun h => ⟨hsup s h.1, h.2⟩
      · rcases hrest with hmem | ⟨hmem, hnone⟩
        · rw [hvoters, if_pos ⟨hvt.symm, hve.symm⟩, Finset.mem_insert] at hmem
          rcases hmem with rfl | hmem
          · right
            refine ⟨?_, Or.inr hvv⟩
            rw [mem_supporters, ← hvt, ← hve]
            exact List.mem_cons_self
          · exact Or.inl hmem
        · right
          exact ⟨hsup s hmem, hnone.imp_right verdict_none_of_cast⟩

/-- If the verdict is the same whether the votes against a target come first or last, the votes
    are stable. -/
theorem stable_of_verdict_const (hq : 1 ≤ q) (final : ι → Option ε)
    (hfirst : ∀ t e, (Tally.count q (against vs t e ++ otherwise vs t e)).verdict = final)
    (hlast : ∀ t e, (Tally.count q (otherwise vs t e ++ against vs t e)).verdict = final) :
    Stable q vs := by
  have hfin : ∀ t e, Quorum q vs t e → final t = some e := by
    intro t e hte
    rw [← hfirst t e]
    unfold Tally.count
    rw [List.foldl_append]
    exact foldl_cast_verdict_some (verdict_against hq hte)
  refine ⟨?_, ?_⟩
  · intro t e e' hte hte'
    have heq := (hfin t e hte).symm.trans (hfin t e' hte')
    exact Option.some.inj heq
  · intro t e hte
    have hall : ∀ v ∈ against vs t e, v.target = t ∧ v.since = e := fun v hv => (mem_against.mp hv).2
    have hcount : Tally.count q (otherwise vs t e ++ against vs t e) =
        (against vs t e).foldl (Tally.cast q) (Tally.count q (otherwise vs t e)) := by
      unfold Tally.count
      rw [List.foldl_append]
    have hc := counted_count hq (otherwise vs t e ++ against vs t e)
    have hver : (Tally.count q (otherwise vs t e ++ against vs t e)).verdict t = some e := by
      rw [hlast t e]
      exact hfin t e hte
    have hcard := hc.excluded t e hver
    refine hcard.trans (Finset.card_le_card fun s hs => ?_)
    rw [hcount] at hs
    rcases foldl_cast_voters _ hall s hs with hs | ⟨hs, hrel⟩
    · -- nothing was counted for `t` and `e` among the other votes
      have := mem_supporters.mp ((counted_count hq (otherwise vs t e)).voters t e hs)
      exact absurd ⟨rfl, rfl⟩ (mem_otherwise.mp this).2
    · refine Finset.mem_filter.mpr ⟨?_, ?_⟩
      · rw [mem_supporters] at hs ⊢
        exact (mem_against.mp hs).1
      · by_cases hst : s = t
        · exact Or.inl hst
        · right
          intro hcon
          obtain ⟨e', hse'⟩ := (mem_condemned hq).mp hcon
          have hsv : (Tally.count q (otherwise vs t e ++ against vs t e)).verdict s = some e' := by
            rw [hlast t e]
            exact hfin s e' hse'
          rw [hcount, foldl_cast_verdict_of_ne (fun v hv => (hall v hv).1) hst] at hsv
          rw [hrel.resolve_left hst] at hsv
          cases hsv

end Order

end NeuChain.Lib
