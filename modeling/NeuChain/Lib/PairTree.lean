/-
  Binary trees over a list of leaves, built level by level.

  `pairUp` combines neighbours two by two; a last one without a right neighbour is carried up
  as it is. `root` is what is left when pairing has gone on for long enough. `node leaves l i` is
  the same tree seen from one of its nodes: node `i` of level `l` stands over the leaves `j` with
  `j / 2 ^ l = i`.

  * `node_congr`: a node depends only on the leaves below it.
  * `root_eq_node`: the root is node 0 of every level that is high enough.
  * `root_inj_or_collide`: lists of one length with the same root are equal, or among the pairs
    combined in the two trees there are different ones that combine to the same value.
-/
import Mathlib.Algebra.Order.Ring.Nat
import Mathlib.Data.List.Basic
import Mathlib.Logic.Function.Iterate

namespace NeuChain.Lib.PairTree

variable {α : Type*} (h : α → α → α)

/-- A parent: its children combined, or its left child alone. -/
def combine : Option α → Option α → Option α
  | some a, some b => some (h a b)
  | a, _ => a

def node (leaves : List α) : Nat → Nat → Option α
  | 0, i => leaves[i]?
  | l + 1, i => combine h (node leaves l (2 * i)) (node leaves l (2 * i + 1))

def pairUp : List α → List α
  | a :: b :: rest => h a b :: pairUp rest
  | rest => rest

/-- One round for each leaf is more than enough. -/
def root (leaves : List α) : Option α := ((pairUp h)^[leaves.length] leaves).head?

/-- The pair is combined somewhere in the tree. -/
def Paired (leaves : List α) (p : α × α) : Prop :=
  ∃ l i, node h leaves l (2 * i) = some p.1 ∧ node h leaves l (2 * i + 1) = some p.2

/-- Pairs combined in the one tree and in the other are different and combine to the same value. -/
def Collide (leaves leaves' : List α) : Prop :=
  ∃ p q, Paired h leaves p ∧ Paired h leaves' q ∧ p ≠ q ∧ h p.1 p.2 = h q.1 q.2

variable {h} {leaves leaves' : List α} {l i j : Nat}

@[simp] theorem combine_none (a : Option α) : combine h a none = a := by
  cases a <;> rfl

theorem combine_eq_none {a b : Option α} : combine h a b = none ↔ a = none := by
  cases a <;> cases b <;> simp [combine]

/-! ## The leaves below a node -/

theorem div_two_pow_succ (j l : Nat) : j / 2 ^ (l + 1) = j / 2 ^ l / 2 := by
  rw [Nat.pow_succ, Nat.div_div_eq_div_mul]

theorem node_congr (hall : ∀ j, j / 2 ^ l = i → leaves[j]? = leaves'[j]?) :
    node h leaves l i = node h leaves' l i := by
  induction l generalizing i with
  | zero => exact hall i (Nat.div_one i)
  | succ l ih =>
      have hleft : node h leaves l (2 * i) = node h leaves' l (2 * i) := by
        refine ih fun j hj => hall j ?_
        rw [div_two_pow_succ, hj]
        omega
      have hright : node h leaves l (2 * i + 1) = node h leaves' l (2 * i + 1) := by
        refine ih fun j hj => hall j ?_
        rw [div_two_pow_succ, hj]
        omega
      rw [node, node, hleft, hright]

/-- A node that is not above the one leaf that differs. -/
theorem node_congr_of_ne {m : Nat} (hall : ∀ j, j ≠ m → leaves[j]? = leaves'[j]?)
    (hi : i ≠ m / 2 ^ l) : node h leaves l i = node h leaves' l i := by
  refine node_congr fun j hj => hall j fun hjm => hi ?_
  rw [← hj, hjm]

/-- There is a node where there is a first leaf for it. -/
theorem node_eq_none : node h leaves l i = none ↔ leaves.length ≤ i * 2 ^ l := by
  induction l generalizing i with
  | zero => rw [node, List.getElem?_eq_none_iff, Nat.pow_zero, Nat.mul_one]
  | succ l ih =>
      rw [node, combine_eq_none, ih, Nat.pow_succ, Nat.mul_comm 2 i, Nat.mul_assoc,
        Nat.mul_comm 2]

/-- Without a leaf below its right child a node is its left child. -/
theorem node_succ_of_le (hle : leaves.length ≤ (2 * i + 1) * 2 ^ l) :
    node h leaves (l + 1) i = node h leaves l (2 * i) := by
  rw [node, node_eq_none.mpr hle, combine_none]

theorem node_zero_of_le (hle : leaves.length ≤ 2 ^ l) (k : Nat) :
    node h leaves (l + k) 0 = node h leaves l 0 := by
  induction k with
  | zero => rfl
  | succ k ih =>
      have hpow : 2 ^ l ≤ 2 ^ (l + k) := Nat.pow_le_pow_right Nat.two_pos (Nat.le_add_right l k)
      rw [← Nat.add_assoc, node_succ_of_le, Nat.mul_zero, ih]
      rw [Nat.mul_zero, Nat.zero_add, Nat.one_mul]
      exact hle.trans hpow

/-! ## The root -/

theorem getElem?_pairUp (leaves : List α) (i : Nat) :
    (pairUp h leaves)[i]? = combine h leaves[2 * i]? leaves[2 * i + 1]? := by
  induction leaves using pairUp.induct generalizing i with
  | case1 a b rest ih =>
      cases i with
      | zero => rfl
      | succ i =>
          rw [pairUp, List.getElem?_cons_succ, ih]
          rfl
  | case2 rest hshort =>
      rcases rest with _ | ⟨a, _ | ⟨b, rest⟩⟩
      · rfl
      · cases i with
        | zero => rfl
        | succ i => rfl
      · exact absurd rfl (hshort a b rest)

theorem getElem?_iterate_pairUp (leaves : List α) (l i : Nat) :
    ((pairUp h)^[l] leaves)[i]? = node h leaves l i := by
  induction l generalizing i with
  | zero => rfl
  | succ l ih => rw [Function.iterate_succ_apply', getElem?_pairUp, ih, ih, node]

theorem root_eq_node (hle : leaves.length ≤ 2 ^ l) : root h leaves = node h leaves l 0 := by
  have hlen : leaves.length ≤ 2 ^ leaves.length := Nat.lt_two_pow_self.le
  rw [root, List.head?_eq_getElem?, getElem?_iterate_pairUp]
  rcases Nat.le_total l leaves.length with hl | hl
  · obtain ⟨k, hk⟩ := Nat.exists_eq_add_of_le hl
    rw [hk, node_zero_of_le hle]
  · obtain ⟨k, rfl⟩ := Nat.exists_eq_add_of_le hl
    rw [node_zero_of_le hlen]

/-- Node 0 of level `l` is the root of the first `2 ^ l` leaves. -/
theorem node_zero_eq_root (leaves : List α) (l : Nat) :
    node h leaves l 0 = root h (leaves.take (2 ^ l)) := by
  rw [root_eq_node (List.length_take_le _ _)]
  refine node_congr fun j hj => ?_
  rw [List.getElem?_take_of_lt]
  rcases Nat.div_eq_zero_iff.mp hj with hzero | hlt
  · exact absurd hzero (Nat.two_pow_pos l).ne'
  · exact hlt

/-! ## Binding -/

theorem node_mem {P : α → Prop} (hP : ∀ a b, P a → P b → P (h a b)) (hall : ∀ a ∈ leaves, P a)
    {a : α} (ha : node h leaves l i = some a) : P a := by
  induction l generalizing i a with
  | zero => exact hall a (List.mem_of_getElem? ha)
  | succ l ih =>
      rw [node] at ha
      cases hleft : node h leaves l (2 * i) with
      | none => simp [hleft, combine] at ha
      | some x =>
          cases hright : node h leaves l (2 * i + 1) with
          | none =>
              rw [hleft, hright, combine_none] at ha
              exact Option.some.inj ha ▸ ih hleft
          | some y =>
              rw [hleft, hright, combine] at ha
              exact Option.some.inj ha ▸ hP x y (ih hleft) (ih hright)

/-- Children whose parents agree do so themselves, or their pairs collide. -/
theorem children_eq_or_collide (hlen : leaves.length = leaves'.length)
    (heq : node h leaves (l + 1) i = node h leaves' (l + 1) i) :
    (node h leaves l (2 * i) = node h leaves' l (2 * i) ∧
      node h leaves l (2 * i + 1) = node h leaves' l (2 * i + 1)) ∨ Collide h leaves leaves' := by
  -- both trees have the same shape, so a child is there in both or in none
  have hshape : ∀ k, node h leaves l k = none ↔ node h leaves' l k = none := by
    intro k
    rw [node_eq_none, node_eq_none, hlen]
  rw [node, node] at heq
  cases hl : node h leaves l (2 * i) with
  | none =>
      have hr : node h leaves l (2 * i + 1) = none := by
        rw [node_eq_none] at hl ⊢
        exact hl.trans (Nat.mul_le_mul_right _ (Nat.le_succ _))
      exact .inl ⟨((hshape _).mp hl).symm, hr.trans ((hshape _).mp hr).symm⟩
  | some a =>
      obtain ⟨c, hl'⟩ : ∃ c, node h leaves' l (2 * i) = some c := by
        rw [← Option.ne_none_iff_exists', ne_eq, ← hshape, hl]
        exact Option.some_ne_none a
      cases hr : node h leaves l (2 * i + 1) with
      | none =>
          have hr' := (hshape _).mp hr
          rw [hl, hl', hr, hr', combine_none, combine_none] at heq
          exact .inl ⟨heq.trans hl'.symm, hr'.symm⟩
      | some b =>
          obtain ⟨d, hr'⟩ : ∃ d, node h leaves' l (2 * i + 1) = some d := by
            rw [← Option.ne_none_iff_exists', ne_eq, ← hshape, hr]
            exact Option.some_ne_none b
          rw [hl, hr, hl', hr', combine, combine] at heq
          by_cases hpair : (a, b) = (c, d)
          · obtain ⟨rfl, rfl⟩ := Prod.mk.inj hpair
            exact .inl ⟨hl'.symm, hr'.symm⟩
          · exact .inr ⟨(a, b), (c, d), ⟨l, i, hl, hr⟩, ⟨l, i, hl', hr'⟩, hpair,
              Option.some.inj heq⟩

theorem eq_or_collide (hlen : leaves.length = leaves'.length)
    (heq : node h leaves l i = node h leaves' l i) :
    (∀ j, j / 2 ^ l = i → leaves[j]? = leaves'[j]?) ∨ Collide h leaves leaves' := by
  induction l generalizing i with
  | zero =>
      refine .inl fun j hj => ?_
      rw [Nat.pow_zero, Nat.div_one] at hj
      exact hj ▸ heq
  | succ l ih =>
      rcases children_eq_or_collide hlen heq with ⟨hleft, hright⟩ | hcoll
      · rcases ih hleft with hleft | hcoll
        · rcases ih hright with hright | hcoll
          · refine .inl fun j hj => ?_
            rw [div_two_pow_succ] at hj
            rcases Nat.mod_two_eq_zero_or_one (j / 2 ^ l) with heven | hodd
            · exact hleft j (by omega)
            · exact hright j (by omega)
          · exact .inr hcoll
        · exact .inr hcoll
      · exact .inr hcoll

theorem root_inj_or_collide (hlen : leaves.length = leaves'.length)
    (heq : root h leaves = root h leaves') : leaves = leaves' ∨ Collide h leaves leaves' := by
  have hle : leaves.length ≤ 2 ^ leaves.length := Nat.lt_two_pow_self.le
  have hle' : leaves'.length ≤ 2 ^ leaves.length := hlen ▸ hle
  rw [root_eq_node hle, root_eq_node hle'] at heq
  rcases eq_or_collide hlen heq with hleaves | hcoll
  · left
    refine List.ext_getElem? fun j => ?_
    by_cases hj : j < leaves.length
    · exact hleaves j (Nat.div_eq_of_lt (hj.trans_le hle))
    · rw [List.getElem?_eq_none (by omega), List.getElem?_eq_none (by omega)]
  · exact .inr hcoll

end NeuChain.Lib.PairTree
