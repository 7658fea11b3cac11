/-
  The Merkle tree of `common/merkle_tree`: twenty growing arrays of hashes, one per level.

  `mtAdd` appends a leaf and, on its way up, combines it with its left neighbour wherever it is
  a right child, adding or overwriting the parent. A leaf without a right neighbour is carried
  up unchanged, so an upper level may hold a node over fewer leaves than it has room for.

  `none` stands for an error code other than `MT_SUCCESS`, and for the null pointer
  `mt_get_root` copies from when the tree is empty. The `assert`s say that no array is full; the
  checks modelled here are those that stay in a release build.
-/
import NeuChain.Codec

namespace NeuChain.Merkle

def treeLevels : Nat := 20

def mtAlMaxElems : Nat := 524288

/-- `mt_al_t`: its `store`, hash by hash. -/
abbrev MtAl := List Bytes

structure MerkleTree where
  elems : Nat := 0
  level : List MtAl := List.replicate treeLevels []

/-- `is_power_of_two`. -/
def isPowerOfTwo (v : Nat) : Bool := v != 0 && (v &&& (v - 1)) == 0

/-- `mt_al_add`: the store doubles at powers of two, up to the maximum. -/
def mtAlAdd (al : MtAl) (hash : Bytes) : Option MtAl :=
  if al.length ≠ 0 ∧ isPowerOfTwo al.length ∧ mtAlMaxElems < al.length * 2 then none
  else some (al ++ [hash])

/-- `mt_al_update`. -/
def mtAlUpdate (al : MtAl) (hash : Bytes) (offset : Nat) : Option MtAl :=
  if offset < al.length then some (al.set offset hash) else none

/-- `mt_al_add_or_update`. -/
def mtAlAddOrUpdate (al : MtAl) (hash : Bytes) (offset : Nat) : Option MtAl :=
  if al.length < offset then none
  else if offset = al.length then mtAlAdd al hash
  else mtAlUpdate al hash offset

/-- `mt_al_get`. -/
def mtAlGet (al : MtAl) (offset : Nat) : Option Bytes := al[offset]?

/-- `mt_hash`. -/
def mtHash (sha : SHA256) (left right : Bytes) : Bytes := sha.hash (left ++ right)

/-- The loop of `mt_add`, with `fuel` levels left above level `l`. -/
def mtAddLoop (sha : SHA256) : Nat → Nat → Nat → Bytes → List MtAl → Option (List MtAl)
  | 0, _, _, _, level => some level
  | fuel + 1, l, q, digest, level =>
      if q = 0 then some level
      else if q % 2 = 1 then do
        let left ← mtAlGet (← level[l]?) (q - 1)
        let digest := mtHash sha left digest
        let parent ← mtAlAddOrUpdate (← level[l + 1]?) digest (q / 2)
        mtAddLoop sha fuel (l + 1) (q / 2) digest (level.set (l + 1) parent)
      else mtAddLoop sha fuel (l + 1) (q / 2) digest level

/-- `mt_add` of a tag of `HASH_LENGTH` bytes. -/
def mtAdd (sha : SHA256) (mt : MerkleTree) (tag : Bytes) : Option MerkleTree := do
  let leaves ← mtAlAdd (← mt.level[0]?) tag
  let level := mt.level.set 0 leaves
  let level ← mtAddLoop sha treeLevels 0 mt.elems tag level
  pure { elems := mt.elems + 1, level := level }

/-- The loop of `mt_get_root`: the highest level below the last with a node on it. -/
def mtRootLevel (level : List MtAl) : Nat → Nat → Nat
  | 0, l => l
  | fuel + 1, l =>
      if l + 1 < treeLevels - 1 ∧ 0 < ((level[l + 1]?).getD []).length
      then mtRootLevel level fuel (l + 1) else l

/-- `mt_get_root`. -/
def mtGetRoot (mt : MerkleTree) : Option Bytes := do
  mtAlGet (← mt.level[mtRootLevel mt.level treeLevels 0]?) 0

/-- `mt_create`, then `mt_add` of every tag in order. -/
def mtOfList (sha : SHA256) (tags : List Bytes) : Option MerkleTree :=
  tags.foldlM (mtAdd sha) {}

end NeuChain.Merkle
