/-
  Hash maps with a fixed number of buckets, each behind its own lock.

  A map of `count` buckets is a family of maps; the entry of a key is in bucket
  `hash key % count`. Every operation but `clear` takes one lock and is one step for the other
  threads. `clear` takes the locks one after the other: a sequence of steps `clearBucket`.

  `find` forgets the buckets: on it, the operations are those of one map (`find_set`, `find_index`),
  and clearing a bucket takes away the entries in it (`find_clearBucket`).
-/
import Mathlib.Data.List.Basic
import Mathlib.Logic.Function.Basic

namespace NeuChain.Lib

/-- How the keys are spread over the buckets. -/
structure Hashing (κ : Type*) where
  hash : κ → Nat
  count : Nat
  count_pos : 0 < count

instance {κ : Type*} : Inhabited (Hashing κ) :=
  ⟨{ hash := fun _ => 0, count := 1, count_pos := by decide }⟩

def Hashing.bucket {κ : Type*} (H : Hashing κ) (k : κ) : Nat := H.hash k % H.count

structure HashMap {κ : Type*} (H : Hashing κ) (ν : Type*) where
  maps : Nat → κ → Option ν := fun _ _ => none

namespace HashMap

variable {κ ν : Type*} {H : Hashing κ} [DecidableEq κ]

omit [DecidableEq κ] in
/-- The entry of a key, which is looked for in its bucket only. -/
def find (m : HashMap H ν) (k : κ) : Option ν := m.maps (H.bucket k) k

/-- `map[k] = v`. -/
def set (m : HashMap H ν) (k : κ) (v : ν) : HashMap H ν where
  maps := Function.update m.maps (H.bucket k) (Function.update (m.maps (H.bucket k)) k (some v))

/-- `map[k]`, which creates a missing entry: the value, and the map afterwards. -/
def index (m : HashMap H ν) (k : κ) (default : ν) : ν × HashMap H ν :=
  match m.find k with
  | some v => (v, m)
  | none => (default, m.set k default)

omit [DecidableEq κ] in
def clearBucket (m : HashMap H ν) (i : Nat) : HashMap H ν where
  maps := Function.update m.maps i fun _ => none

variable {m : HashMap H ν} {k k' : κ} {v : ν}

@[simp] theorem find_set : (m.set k v).find k' = if k' = k then some v else m.find k' := by
  unfold find set
  dsimp only
  by_cases hk : k' = k
  · subst hk
    simp
  · rw [if_neg hk]
    by_cases hb : H.bucket k' = H.bucket k
    · rw [hb, Function.update_self, Function.update_of_ne hk]
    · rw [Function.update_of_ne hb]

theorem index_fst {default : ν} : (m.index k default).1 = (m.find k).getD default := by
  unfold index
  split <;> rename_i h <;> rw [h] <;> rfl

theorem index_of_find {default : ν} (h : m.find k = some v) : m.index k default = (v, m) := by
  unfold index
  rw [h]

theorem find_index {default : ν} : (m.index k default).2.find k' =
    if k' = k then some ((m.find k).getD default) else m.find k' := by
  unfold index
  split <;> rename_i h
  · by_cases hk : k' = k
    · rw [if_pos hk, hk, h, Option.getD_some]
    · rw [if_neg hk]
  · rw [find_set, h, Option.getD_none]

omit [DecidableEq κ] in
theorem find_clearBucket {i : Nat} :
    (m.clearBucket i).find k = if H.bucket k = i then none else m.find k := by
  unfold find clearBucket
  by_cases hb : H.bucket k = i
  · simp [hb]
  · simp [hb]

end HashMap

end NeuChain.Lib
