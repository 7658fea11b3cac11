/-
  What the arrays of the Merkle tree hold, and what its root is the hash of.

  Level `l` holds the nodes of level `l` of the tree over the leaves (`Lib.PairTree`), up to the
  last one that has a right child; a leaf that is carried up is stored on level 0 only
  (`MerkleTree.Over`). A node of level `l + 1` is made by the first leaf below its right child, so
  after `n` leaves the level has `(n - 1 + 2 ^ l) / 2 ^ (l + 1)` nodes (`levelSize`).

  * `root_isSome_iff`: there is a root if there is a leaf, and at most `mtAlMaxElems` of them.
  * `merkle_root_eq`: `mt_get_root` never looks at the last of the twenty levels, so it returns the
    node over the first `2 ^ 18` leaves, whatever comes after them.
-/
import NeuChain.MerkleTree
import NeuChain.Lib.PairTree
import Mathlib.Data.List.Induction
import Mathlib.Data.Nat.Bitwise
import Mathlib.Tactic.Ring

namespace NeuChain.Merkle

open NeuChain.Lib NeuChain.Lib.PairTree

/-- The nodes of level `l` after `n` leaves. -/
def levelSize (n : Nat) : Nat → Nat
  | 0 => n
  | l + 1 => (n - 1 + 2 ^ l) / 2 ^ (l + 1)

/-! ## Sizes, for the leaf `m` and its ancestor `m / 2 ^ l` at level `l` -/

section Arithmetic

variable {m l : Nat}

theorem leaf_split (m l : Nat) :
    ∃ r < 2 ^ l, m = 2 ^ l * (m / 2 ^ l) + r ∧ 2 ^ (l + 1) = 2 * 2 ^ l := by
  refine ⟨m % 2 ^ l, Nat.mod_lt _ (Nat.two_pow_pos l), ?_, Nat.pow_succ'⟩
  exact (Nat.div_add_mod m (2 ^ l)).symm

/-- The ancestor is a right child. -/
theorem odd_leaf_split (h : m / 2 ^ l % 2 = 1) :
    ∃ k r, m / 2 ^ l / 2 = k ∧ r < 2 ^ l ∧ m = 2 ^ l * (2 * k + 1) + r ∧
      2 ^ (l + 1) = 2 * 2 ^ l := by
  obtain ⟨r, hr, hm, hpow⟩ := leaf_split m l
  have hodd : m / 2 ^ l = 2 * (m / 2 ^ l / 2) + 1 := by omega
  exact ⟨m / 2 ^ l / 2, r, rfl, hr, hodd ▸ hm, hpow⟩

theorem levelSize_of_between {n p : Nat} (hlow : 2 ^ (l + 1) * p ≤ n - 1 + 2 ^ l)
    (hhigh : n - 1 + 2 ^ l < 2 ^ (l + 1) * (p + 1)) : levelSize n (l + 1) = p := by
  apply Nat.div_eq_of_lt_le
  · rw [Nat.mul_comm]
    exact hlow
  · rw [Nat.mul_comm]
    exact hhigh

theorem le_levelSize_succ (m l : Nat) : m / 2 ^ l ≤ levelSize (m + 1) l := by
  cases l with
  | zero => simp [levelSize]
  | succ l => exact Nat.div_le_div_right (Nat.le_add_right m (2 ^ l))

/-- Under a right child the parent is the last node of its level. -/
theorem levelSize_succ_of_odd (h : m / 2 ^ l % 2 = 1) :
    levelSize (m + 1) (l + 1) = m / 2 ^ l / 2 + 1 := by
  obtain ⟨k, r, hk, hr, hm, hpow⟩ := odd_leaf_split h
  generalize hp : 2 ^ l = p at *
  rw [hk]
  apply levelSize_of_between
  · rw [hpow, hp, hm]
    have : 2 * p * (k + 1) = p * (2 * k + 1) + p := by ring
    omega
  · rw [hpow, hp, hm]
    have : 2 * p * (k + 1 + 1) = p * (2 * k + 1) + p + 2 * p := by ring
    omega

/-- Before that leaf the parent was there or was the next to come. -/
theorem levelSize_of_odd (h : m / 2 ^ l % 2 = 1) :
    levelSize m (l + 1) = m / 2 ^ l / 2 ∨ levelSize m (l + 1) = m / 2 ^ l / 2 + 1 := by
  obtain ⟨k, r, hk, hr, hm, hpow⟩ := odd_leaf_split h
  generalize hp : 2 ^ l = p at *
  have hmul : p * (2 * k + 1) = 2 * p * k + p := by ring
  rw [hk]
  rcases Nat.eq_zero_or_pos r with hr0 | hr0
  · left
    apply levelSize_of_between
    · rw [hpow, hp]
      omega
    · rw [hpow, hp]
      have : 2 * p * (k + 1) = 2 * p * k + 2 * p := by ring
      omega
  · right
    apply levelSize_of_between
    · rw [hpow, hp]
      have : 2 * p * (k + 1) = 2 * p * k + 2 * p := by ring
      omega
    · rw [hpow, hp]
      have : 2 * p * (k + 1 + 1) = 2 * p * k + 4 * p := by ring
      omega

/-- A left child changes nothing above it. -/
theorem levelSize_of_even {n : Nat} (hpos : 0 < n) (hlow : m ≤ n) (hhigh : n ≤ m + 1)
    (h : m / 2 ^ l % 2 = 0) : levelSize n (l + 1) = m / 2 ^ l / 2 := by
  obtain ⟨r, hr, hm, hpow⟩ := leaf_split m l
  generalize hq : m / 2 ^ l = q at *
  generalize hp : 2 ^ l = p at *
  obtain ⟨k, rfl⟩ : ∃ k, q = 2 * k := ⟨q / 2, by omega⟩
  have hmul : p * (2 * k) = 2 * p * k := by ring
  have hnext : 2 * p * (k + 1) = 2 * p * k + 2 * p := by ring
  have hhalf : 2 * k / 2 = k := by omega
  rw [hhalf]
  apply levelSize_of_between
  · rw [hpow, hp]
    omega
  · rw [hpow, hp]
    omega

theorem levelSize_eq_zero {n : Nat} (h : n ≤ 2 ^ l) : levelSize n (l + 1) = 0 := by
  have hpow : 2 ^ (l + 1) = 2 * 2 ^ l := Nat.pow_succ'
  have hpos := Nat.two_pow_pos l
  apply levelSize_of_between <;> omega

theorem levelSize_pos {n : Nat} (h : 2 ^ l < n) : 0 < levelSize n (l + 1) := by
  have hpow : 2 ^ (l + 1) = 2 * 2 ^ l := Nat.pow_succ'
  exact Nat.div_pos (by omega) (Nat.two_pow_pos _)

end Arithmetic

/-! ## What the arrays hold -/

variable {sha : SHA256} {level level' : List MtAl} {leaves : List Bytes} {al : MtAl} {k l : Nat}

theorem not_isPowerOfTwo {v : Nat} (hlow : 2 ^ 18 < v) (hhigh : v < 2 ^ 19) :
    isPowerOfTwo v = false := by
  -- bit 18 is set in `v` and in `v - 1`
  have hv : v.testBit 18 = true := by
    rw [Nat.testBit_eq_decide_div_mod_eq]
    simp only [decide_eq_true_eq]
    omega
  have hpred : (v - 1).testBit 18 = true := by
    rw [Nat.testBit_eq_decide_div_mod_eq]
    simp only [decide_eq_true_eq]
    omega
  have hand : v &&& (v - 1) ≠ 0 := by
    intro hzero
    have hbit := Nat.testBit_and v (v - 1) 18
    rw [hzero, hv, hpred] at hbit
    simp at hbit
  simp [isPowerOfTwo, hand]

theorem mtAlAdd_of_lt (h : al.length < mtAlMaxElems) (hash : Bytes) :
    mtAlAdd al hash = some (al ++ [hash]) := by
  unfold mtAlAdd
  rw [if_neg]
  rintro ⟨-, hpow, hlong⟩
  unfold mtAlMaxElems at h hlong
  rw [not_isPowerOfTwo (by omega) (by omega)] at hpow
  cases hpow

theorem mtAlAdd_full (h : al.length = mtAlMaxElems) (hash : Bytes) : mtAlAdd al hash = none := by
  unfold mtAlAdd
  rw [h, if_pos (by decide)]

/-- The array of level `l` holds the nodes of that level. -/
def LevelOver (sha : SHA256) (level : List MtAl) (leaves : List Bytes) (l : Nat) : Prop :=
  ∃ al, level[l]? = some al ∧ al.length = levelSize leaves.length l ∧
    ∀ i < al.length, al[i]? = node (mtHash sha) leaves l i

structure MerkleTree.Over (sha : SHA256) (mt : MerkleTree) (leaves : List Bytes) : Prop where
  elems : mt.elems = leaves.length
  length : mt.level.length = treeLevels
  level : ∀ l < treeLevels, LevelOver sha mt.level leaves l

theorem LevelOver.set_of_ne (h : LevelOver sha level leaves l) (hkl : k ≠ l) (al : MtAl) :
    LevelOver sha (level.set k al) leaves l := by
  obtain ⟨old, hold, hsize⟩ := h
  exact ⟨old, by rw [List.getElem?_set_ne hkl, hold], hsize⟩

theorem levelOver_set (hl : l < level.length) (hlen : al.length = levelSize leaves.length l)
    (hall : ∀ i < al.length, al[i]? = node (mtHash sha) leaves l i) :
    LevelOver sha (level.set l al) leaves l :=
  ⟨al, List.getElem?_set_self hl, hlen, hall⟩

/-- A level that the changed leaf does not touch. -/
theorem LevelOver.congr {leaves' : List Bytes} (h : LevelOver sha level leaves l)
    (hsize : levelSize leaves.length l = levelSize leaves'.length l)
    (hall : ∀ i < levelSize leaves'.length l,
      node (mtHash sha) leaves l i = node (mtHash sha) leaves' l i) :
    LevelOver sha level leaves' l := by
  obtain ⟨al, hget, hlen, hnodes⟩ := h
  refine ⟨al, hget, hlen.trans hsize, fun i hi => ?_⟩
  rw [hnodes i hi]
  apply hall
  rw [← hsize, ← hlen]
  exact hi

/-- Adding right behind the last node, or overwriting the last one, changes that node only. -/
theorem mtAlAddOrUpdate_get {offset : Nat} (hash : Bytes) (hmax : offset < mtAlMaxElems)
    (h : al.length = offset ∨ al.length = offset + 1) :
    ∃ al', mtAlAddOrUpdate al hash offset = some al' ∧ al'.length = offset + 1 ∧
      al'[offset]? = some hash ∧ ∀ i < offset, al'[i]? = al[i]? := by
  unfold mtAlAddOrUpdate
  rw [if_neg (by omega)]
  by_cases hoff : offset = al.length
  · subst hoff
    refine ⟨al ++ [hash], ?_, ?_, ?_, fun i hi => ?_⟩
    · rw [if_pos rfl]
      exact mtAlAdd_of_lt hmax hash
    · rw [List.length_append, List.length_singleton]
    · exact List.getElem?_concat_length
    · exact List.getElem?_append_left hi
  · refine ⟨al.set offset hash, ?_, ?_, ?_, fun i hi => ?_⟩
    · rw [if_neg hoff]
      unfold mtAlUpdate
      rw [if_pos (by omega)]
    · rw [List.length_set]
      omega
    · exact List.getElem?_set_self (by omega)
    · exact List.getElem?_set_ne (by omega)

/-! ## Adding a leaf -/

theorem getElem?_append_ne {leaf : Bytes} {j : Nat} (hj : j ≠ leaves.length) :
    leaves[j]? = (leaves ++ [leaf])[j]? := by
  rcases Nat.lt_or_gt_of_ne hj with hlt | hgt
  · exact (List.getElem?_append_left hlt).symm
  · rw [List.getElem?_eq_none hgt.le, List.getElem?_eq_none]
    rw [List.length_append, List.length_singleton]
    exact hgt

/-- The loop of `mt_add` for the leaf `leaves.length`, at level `l`. -/
structure AddingAt (sha : SHA256) (level : List MtAl) (leaves : List Bytes) (leaf : Bytes)
    (l : Nat) (digest : Bytes) : Prop where
  length : level.length = treeLevels
  below : ∀ k ≤ l, k < treeLevels → LevelOver sha level (leaves ++ [leaf]) k
  above : ∀ k, l < k → k < treeLevels → LevelOver sha level leaves k
  digest : node (mtHash sha) (leaves ++ [leaf]) l (leaves.length / 2 ^ l) = some digest

variable {leaf digest : Bytes}

theorem AddingAt.done (h : AddingAt sha level leaves leaf l digest)
    (htop : leaves.length / 2 ^ l = 0) (hk : k < treeLevels) :
    LevelOver sha level (leaves ++ [leaf]) k := by
  rcases Nat.lt_or_ge l k with hlk | hkl
  · obtain ⟨j, rfl⟩ : ∃ j, k = j + 1 := ⟨k - 1, by omega⟩
    have hlt : leaves.length < 2 ^ l := by
      rcases Nat.div_eq_zero_iff.mp htop with hzero | hlt
      · exact absurd hzero (Nat.two_pow_pos l).ne'
      · exact hlt
    have hpow : 2 ^ l ≤ 2 ^ j := Nat.pow_le_pow_right Nat.two_pos (by omega)
    have hnew : levelSize (leaves ++ [leaf]).length (j + 1) = 0 := by
      apply levelSize_eq_zero
      rw [List.length_append, List.length_singleton]
      omega
    apply (h.above (j + 1) hlk hk).congr
    · rw [hnew]
      exact levelSize_eq_zero (by omega)
    · intro i hi
      rw [hnew] at hi
      exact absurd hi (Nat.not_lt_zero i)
  · exact h.below k hkl hk

/-- A left child goes up unchanged, and the level above it is as it was. -/
theorem AddingAt.even (h : AddingAt sha level leaves leaf l digest)
    (hpos : leaves.length / 2 ^ l ≠ 0) (heven : leaves.length / 2 ^ l % 2 = 0) :
    AddingAt sha level leaves leaf (l + 1) digest := by
  have hm : leaves.length / 2 ^ (l + 1) = leaves.length / 2 ^ l / 2 := div_two_pow_succ _ _
  have hsize := levelSize_of_even (Nat.succ_pos _) (Nat.le_succ _) le_rfl heven
  have hlen : (leaves ++ [leaf]).length = leaves.length + 1 := by simp
  refine ⟨h.length, fun k hk htree => ?_, fun k hk => h.above k (by omega), ?_⟩
  · rcases Nat.lt_or_ge l k with hlk | hkl
    · obtain rfl : k = l + 1 := by omega
      apply (h.above (l + 1) (by omega) htree).congr
      · rw [hlen]
        refine (levelSize_of_even (Nat.pos_of_ne_zero fun hzero => hpos ?_) le_rfl (Nat.le_succ _)
          heven).trans hsize.symm
        rw [hzero, Nat.zero_div]
      · intro i hi
        rw [hlen, hsize] at hi
        refine node_congr_of_ne (fun j hj => getElem?_append_ne hj) ?_
        rw [hm]
        exact hi.ne
    · exact h.below k hkl htree
  · -- the new leaf is the last one, so there is none below the right child
    rw [hm, node_succ_of_le]
    · have hhalf : 2 * (leaves.length / 2 ^ l / 2) = leaves.length / 2 ^ l := by omega
      rw [hhalf]
      exact h.digest
    · have hhalf : 2 * (leaves.length / 2 ^ l / 2) + 1 = leaves.length / 2 ^ l + 1 := by omega
      rw [hlen, hhalf]
      exact Nat.lt_mul_of_div_lt (Nat.lt_succ_self _) (Nat.two_pow_pos l)

/-- A right child is combined with the left one, and their parent is stored. -/
theorem AddingAt.odd (h : AddingAt sha level leaves leaf l digest)
    (hmax : leaves.length < mtAlMaxElems) (hl : l + 1 < treeLevels)
    (hodd : leaves.length / 2 ^ l % 2 = 1) :
    ∃ cur left par par', level[l]? = some cur ∧
      mtAlGet cur (leaves.length / 2 ^ l - 1) = some left ∧ level[l + 1]? = some par ∧
      mtAlAddOrUpdate par (mtHash sha left digest) (leaves.length / 2 ^ l / 2) = some par' ∧
      AddingAt sha (level.set (l + 1) par') leaves leaf (l + 1) (mtHash sha left digest) := by
  have hm : leaves.length / 2 ^ (l + 1) = leaves.length / 2 ^ l / 2 := div_two_pow_succ _ _
  have hlen : (leaves ++ [leaf]).length = leaves.length + 1 := by simp
  obtain ⟨cur, hcur, hcurLen, hcurNodes⟩ := h.below l (Nat.le_refl l) (by omega)
  obtain ⟨par, hpar, hparLen, hparNodes⟩ := h.above (l + 1) (Nat.lt_succ_self l) hl
  have hlt : leaves.length / 2 ^ l - 1 < cur.length := by
    have hpos : 0 < leaves.length / 2 ^ l := Nat.pos_of_ne_zero fun hzero => by
      rw [hzero] at hodd
      cases hodd
    rw [hcurLen, hlen]
    exact (Nat.sub_lt hpos Nat.one_pos).trans_le (le_levelSize_succ leaves.length l)
  obtain ⟨left, hleft⟩ : ∃ left, cur[leaves.length / 2 ^ l - 1]? = some left :=
    ⟨_, List.getElem?_eq_getElem hlt⟩
  have hbound : leaves.length / 2 ^ l / 2 < mtAlMaxElems := by
    have := Nat.div_le_self leaves.length (2 ^ l)
    omega
  obtain ⟨par', hadd, hlen', hlast, hbefore⟩ :=
    mtAlAddOrUpdate_get (mtHash sha left digest) hbound
      (hparLen ▸ levelSize_of_odd hodd)
  have hnode : node (mtHash sha) (leaves ++ [leaf]) (l + 1) (leaves.length / 2 ^ l / 2) =
      some (mtHash sha left digest) := by
    have hl0 : 2 * (leaves.length / 2 ^ l / 2) = leaves.length / 2 ^ l - 1 := by omega
    have hr0 : 2 * (leaves.length / 2 ^ l / 2) + 1 = leaves.length / 2 ^ l := by omega
    rw [node, hr0, hl0, ← hcurNodes _ hlt, hleft, h.digest]
    rfl
  refine ⟨cur, left, par, par', hcur, hleft, hpar, hadd, ?_, ?_, ?_, ?_⟩
  · rw [List.length_set, h.length]
  · intro k hk htree
    rcases Nat.lt_or_ge l k with hlk | hkl
    · obtain rfl : k = l + 1 := by omega
      apply levelOver_set (h.length ▸ hl)
      · rw [hlen', hlen, levelSize_succ_of_odd hodd]
      · intro i hi
        rcases Nat.lt_or_ge i (leaves.length / 2 ^ l / 2) with hi' | hi'
        · have hiPar : i < par.length := by
            rw [hparLen]
            rcases levelSize_of_odd hodd with hs | hs <;> omega
          rw [hbefore i hi', hparNodes i hiPar]
          refine node_congr_of_ne (fun j hj => getElem?_append_ne hj) ?_
          rw [hm]
          exact hi'.ne
        · obtain rfl : i = leaves.length / 2 ^ l / 2 := by omega
          rw [hlast, hnode]
    · exact (h.below k hkl htree).set_of_ne (by omega) par'
  · intro k hk htree
    exact (h.above k (by omega) htree).set_of_ne (by omega) par'
  · rw [hm]
    exact hnode

theorem mtAddLoop_over (hmax : leaves.length < mtAlMaxElems) (fuel : Nat)
    (hfuel : leaves.length / 2 ^ l < 2 ^ fuel) (h : AddingAt sha level leaves leaf l digest) :
    ∃ level', mtAddLoop sha fuel l (leaves.length / 2 ^ l) digest level = some level' ∧
      level'.length = treeLevels ∧ ∀ k < treeLevels, LevelOver sha level' (leaves ++ [leaf]) k := by
  induction fuel generalizing l digest level with
  | zero =>
      have htop : leaves.length / 2 ^ l = 0 := Nat.lt_one_iff.mp hfuel
      exact ⟨level, rfl, h.length, fun k hk => h.done htop hk⟩
  | succ fuel ih =>
      unfold mtAddLoop
      by_cases htop : leaves.length / 2 ^ l = 0
      · rw [if_pos htop]
        exact ⟨level, rfl, h.length, fun k hk => h.done htop hk⟩
      · have hm : leaves.length / 2 ^ (l + 1) = leaves.length / 2 ^ l / 2 := div_two_pow_succ _ _
        have hfuel' : leaves.length / 2 ^ (l + 1) < 2 ^ fuel := by
          rw [Nat.pow_succ] at hfuel
          omega
        rw [if_neg htop]
        by_cases hodd : leaves.length / 2 ^ l % 2 = 1
        · -- below the root of a tree with all its levels
          have hl : l + 1 < treeLevels := by
            by_contra hge
            have hpow : 2 ^ 19 ≤ 2 ^ l := by
              apply Nat.pow_le_pow_right Nat.two_pos
              unfold treeLevels at hge
              omega
            apply htop
            apply Nat.div_eq_of_lt
            unfold mtAlMaxElems at hmax
            omega
          obtain ⟨cur, left, par, par', hcur, hleft, hpar, hadd, hnext⟩ := h.odd hmax hl hodd
          obtain ⟨level', hrun, hlevel'⟩ := ih hfuel' hnext
          refine ⟨level', ?_, hlevel'⟩
          rw [if_pos hodd]
          simp only [hcur, hleft, hpar, hadd, Option.bind_eq_bind, Option.bind_some]
          rw [← hm]
          exact hrun
        · rw [if_neg hodd, ← hm]
          exact ih hfuel' (h.even htop (by omega))

theorem over_empty (sha : SHA256) : MerkleTree.Over sha {} [] := by
  refine ⟨rfl, List.length_replicate, fun l hl => ?_⟩
  refine ⟨[], ?_, ?_, fun i hi => absurd hi (Nat.not_lt_zero i)⟩
  · rw [List.getElem?_replicate, if_pos hl]
  · cases l with
    | zero => rfl
    | succ l => exact (levelSize_eq_zero (Nat.zero_le _)).symm

theorem mtAdd_over {mt : MerkleTree} (h : mt.Over sha leaves) (hmax : leaves.length < mtAlMaxElems)
    (tag : Bytes) : ∃ mt', mtAdd sha mt tag = some mt' ∧ mt'.Over sha (leaves ++ [tag]) := by
  obtain ⟨first, hfirst, hlen, hnodes⟩ := h.level 0 (by decide)
  have hadd : mtAlAdd first tag = some (first ++ [tag]) := mtAlAdd_of_lt (hlen ▸ hmax) tag
  have hfirstEq : first = leaves := by
    apply List.ext_getElem?
    intro i
    rcases Nat.lt_or_ge i first.length with hi | hi
    · exact hnodes i hi
    · rw [List.getElem?_eq_none hi, List.getElem?_eq_none (hlen.symm.le.trans hi)]
  subst hfirstEq
  have hstart : AddingAt sha (mt.level.set 0 (first ++ [tag])) first tag 0 tag := by
    refine ⟨?_, fun k hk htree => ?_, fun k hk htree => ?_, ?_⟩
    · rw [List.length_set, h.length]
    · obtain rfl : k = 0 := Nat.le_zero.mp hk
      exact levelOver_set (h.length ▸ htree) rfl fun i _ => rfl
    · exact (h.level k htree).set_of_ne hk.ne (first ++ [tag])
    · rw [Nat.pow_zero, Nat.div_one]
      exact List.getElem?_concat_length
  have hfuel : first.length / 2 ^ 0 < 2 ^ treeLevels := by
    rw [Nat.pow_zero, Nat.div_one]
    exact hmax.trans (by decide)
  obtain ⟨level', hrun, hlen', hover⟩ := mtAddLoop_over hmax treeLevels hfuel hstart
  refine ⟨{ elems := first.length + 1, level := level' }, ?_, ?_, hlen', hover⟩
  · rw [Nat.pow_zero, Nat.div_one] at hrun
    unfold mtAdd
    simp only [hfirst, hadd, h.elems, hrun, Option.bind_eq_bind, Option.bind_some, Option.pure_def]
  · rw [List.length_append, List.length_singleton]

theorem mtAdd_full {mt : MerkleTree} (h : mt.Over sha leaves) (hlen : leaves.length = mtAlMaxElems)
    (tag : Bytes) : mtAdd sha mt tag = none := by
  obtain ⟨first, hfirst, hsize, -⟩ := h.level 0 (by decide)
  unfold mtAdd
  simp only [hfirst, mtAlAdd_full (hsize.trans hlen) tag, Option.bind_eq_bind, Option.bind_some,
    Option.bind_none]

theorem mtOfList_over (sha : SHA256) {tags : List Bytes} (h : tags.length ≤ mtAlMaxElems) :
    ∃ mt, mtOfList sha tags = some mt ∧ mt.Over sha tags := by
  induction tags using List.reverseRecOn with
  | nil => exact ⟨{}, rfl, over_empty sha⟩
  | append_singleton tags tag ih =>
      rw [List.length_append, List.length_singleton] at h
      obtain ⟨mt, hmt, hover⟩ := ih (by omega)
      obtain ⟨mt', hadd, hover'⟩ := mtAdd_over hover h tag
      refine ⟨mt', ?_, hover'⟩
      unfold mtOfList at *
      rw [List.foldlM_append, hmt]
      simp [hadd]

theorem mtOfList_too_long {tags : List Bytes} (h : mtAlMaxElems < tags.length) :
    mtOfList sha tags = none := by
  have hdrop : 0 < (tags.drop mtAlMaxElems).length := by
    rw [List.length_drop]
    omega
  obtain ⟨tag, rest, hrest⟩ := List.exists_cons_of_length_pos hdrop
  have hlen : (tags.take mtAlMaxElems).length = mtAlMaxElems := by
    rw [List.length_take]
    omega
  obtain ⟨mt, hmt, hover⟩ := mtOfList_over sha hlen.le
  unfold mtOfList at *
  rw [← List.take_append_drop mtAlMaxElems tags, List.foldlM_append, hmt, hrest]
  simp [mtAdd_full hover hlen]

/-! ## The root -/

/-- The loop stops at a level that has a node, or where it starts. -/
theorem mtRootLevel_spec (level : List MtAl) (fuel l : Nat) :
    mtRootLevel level fuel l = l ∨ (mtRootLevel level fuel l < treeLevels - 1 ∧
      0 < ((level[mtRootLevel level fuel l]?).getD []).length) := by
  induction fuel generalizing l with
  | zero => exact Or.inl rfl
  | succ fuel ih =>
      unfold mtRootLevel
      split
      · rename_i hnext
        right
        rcases ih (l + 1) with heq | hspec
        · rw [heq]
          exact hnext
        · exact hspec
      · exact Or.inl rfl

/-- There is a level above `l`, and `mt_get_root` goes up to it. -/
theorem MerkleTree.Over.hasNext_iff {mt : MerkleTree} (h : mt.Over sha leaves) (l : Nat) :
    (l + 1 < treeLevels - 1 ∧ 0 < ((mt.level[l + 1]?).getD []).length) ↔
      l < 18 ∧ 2 ^ l < leaves.length := by
  have htree : l + 1 < treeLevels - 1 ↔ l < 18 := by
    unfold treeLevels
    omega
  rw [htree]
  refine and_congr_right_iff.mpr fun hl => ?_
  obtain ⟨al, hget, hlen, -⟩ := h.level (l + 1) (by unfold treeLevels; omega)
  rw [hget, Option.getD_some, hlen]
  constructor
  · intro hpos
    by_contra hle
    rw [levelSize_eq_zero (by omega)] at hpos
    exact absurd hpos (Nat.lt_irrefl 0)
  · exact levelSize_pos

/-- The loop of `mt_get_root` stops at level 18, or where one node stands over all leaves. -/
theorem MerkleTree.Over.rootLevel {mt : MerkleTree} (h : mt.Over sha leaves) (fuel : Nat)
    (hl : l ≤ 18) (hfuel : 18 ≤ l + fuel) :
    mtRootLevel mt.level fuel l ≤ 18 ∧ (mtRootLevel mt.level fuel l = 18 ∨
      leaves.length ≤ 2 ^ mtRootLevel mt.level fuel l) := by
  induction fuel generalizing l with
  | zero => exact ⟨hl, .inl (by rw [mtRootLevel]; omega)⟩
  | succ fuel ih =>
      unfold mtRootLevel
      have hiff := h.hasNext_iff l
      by_cases hnext : l < 18 ∧ 2 ^ l < leaves.length
      · rw [if_pos (hiff.mpr hnext)]
        exact ih (by omega) (by omega)
      · rw [if_neg (fun hc => hnext (hiff.mp hc))]
        refine ⟨hl, ?_⟩
        by_contra hboth
        push Not at hboth
        exact hnext ⟨Nat.lt_of_le_of_ne hl hboth.1, hboth.2⟩

theorem MerkleTree.Over.mtGetRoot_eq {mt : MerkleTree} (h : mt.Over sha leaves) :
    mtGetRoot mt = node (mtHash sha) leaves 18 0 := by
  obtain ⟨hle, htop⟩ := h.rootLevel treeLevels (Nat.zero_le 18) (by decide)
  have hstop := mtRootLevel_spec mt.level treeLevels 0
  have hroot : mtGetRoot mt =
      (mt.level[mtRootLevel mt.level treeLevels 0]?).bind (mtAlGet · 0) := rfl
  generalize mtRootLevel mt.level treeLevels 0 = top at *
  obtain ⟨al, hget, hlen, hnodes⟩ := h.level top (by unfold treeLevels; omega)
  -- above its root the tree has node 0 alone
  have hnode : node (mtHash sha) leaves 18 0 = node (mtHash sha) leaves top 0 := by
    rcases htop with rfl | htop
    · rfl
    · obtain ⟨k, hk⟩ := Nat.exists_eq_add_of_le hle
      rw [hk, node_zero_of_le htop]
  rw [hroot, hget, Option.bind_some, hnode]
  unfold mtAlGet
  rcases hstop with rfl | ⟨-, hpos⟩
  · by_cases hpos : 0 < al.length
    · exact hnodes 0 hpos
    · rw [List.getElem?_eq_none (Nat.not_lt.mp hpos), node, List.getElem?_eq_none]
      exact hlen.symm.le.trans (Nat.not_lt.mp hpos)
  · rw [hget] at hpos
    exact hnodes 0 hpos

theorem mtGetRoot_mtOfList {tags : List Bytes} {mt : MerkleTree}
    (h : mtOfList sha tags = some mt) :
    mtGetRoot mt = root (mtHash sha) (tags.take (2 ^ 18)) := by
  have hlen : tags.length ≤ mtAlMaxElems := by
    by_contra hlong
    rw [mtOfList_too_long (Nat.lt_of_not_le hlong)] at h
    cases h
  obtain ⟨mt', hmt, hover⟩ := mtOfList_over sha hlen
  cases hmt.symm.trans h
  rw [hover.mtGetRoot_eq, node_zero_eq_root]

theorem root_isSome_iff (sha : SHA256) (tags : List Bytes) :
    ((mtOfList sha tags).bind mtGetRoot).isSome = true ↔
      tags ≠ [] ∧ tags.length ≤ mtAlMaxElems := by
  by_cases hlen : tags.length ≤ mtAlMaxElems
  · obtain ⟨mt, hmt, hover⟩ := mtOfList_over sha hlen
    rw [hmt, Option.bind_some, hover.mtGetRoot_eq, ← Option.ne_none_iff_isSome, ne_eq, node_eq_none,
      Nat.zero_mul, Nat.le_zero, List.length_eq_zero_iff]
    exact (and_iff_left hlen).symm
  · rw [mtOfList_too_long (by omega)]
    simp [hlen]

/-- The root commits to the first `2 ^ 18` leaves, in their order, and to nothing else. -/
theorem merkle_root_eq (sha : SHA256) (tags : List Bytes) :
    (mtOfList sha tags).bind mtGetRoot =
      if tags.length ≤ mtAlMaxElems then root (mtHash sha) (tags.take (2 ^ 18)) else none := by
  by_cases hlen : tags.length ≤ mtAlMaxElems
  · obtain ⟨mt, hmt, -⟩ := mtOfList_over sha hlen
    rw [if_pos hlen, hmt, Option.bind_some, mtGetRoot_mtOfList hmt]
  · rw [if_neg hlen, mtOfList_too_long (Nat.lt_of_not_le hlen)]
    rfl

end NeuChain.Merkle
