/-
  What a hash in the chain commits to.

  `data_hash` is the hash of the results and the Merkle root, the Merkle root a hash of hashes of
  the first `2 ^ 18` transactions, and `previous_hash` the `data_hash` of the block before.

  * `data_hash_binds`: if blocks of two servers have the same `data_hash`, they have the same
    results and the same first `2 ^ 18` transactions, or two different strings that were hashed for
    them have the same hash. If they have the same `previous_hash`, this holds of the blocks before
    them.

  It ends there: `data_hash` does not cover `previous_hash`.
-/
import NeuChain.MerkleRoot
import NeuChain.Server.BlockAudit
import NeuChain.Server.ReplicaChain

namespace NeuChain.Server

open NeuChain Lib Merkle PairTree

/-- The strings that are hashed for a block: its transactions, pairs of nodes of its Merkle tree,
    and its results with the root. -/
def Hashed (sha : SHA256) (b : Block) (s : Bytes) : Prop :=
  s ∈ b.data ∨
    (∃ p, Paired (mtHash sha) ((b.data.map sha.hash).take (2 ^ 18)) p ∧ s = p.1 ++ p.2) ∨
    ∃ results root, b.metadata[0]? = some results ∧ b.metadata[1]? = some root ∧ s = results ++ root

/-- Different strings that were hashed for the two blocks have the same hash. -/
def HashesCollide (sha : SHA256) (b b' : Block) : Prop :=
  ∃ s s', Hashed sha b s ∧ Hashed sha b' s' ∧ s ≠ s' ∧ sha.hash s = sha.hash s'

/-- What the hashes say is the same. -/
structure SameContent (b b' : Block) : Prop where
  results : b.metadata[0]? = b'.metadata[0]?
  data : b.data.take (2 ^ 18) = b'.data.take (2 ^ 18)

section

variable {sha : SHA256} {msg : Messages} {sign sign' : Bytes → Bytes}
  {called called' : List (List Transaction)} {k k' : Nat} {b b' : Block}

theorem map_eq_or_collide {f : Bytes → Bytes} {l l' : List Bytes} (h : l.map f = l'.map f) :
    l = l' ∨ ∃ s ∈ l, ∃ s' ∈ l', s ≠ s' ∧ f s = f s' := by
  induction l generalizing l' with
  | nil => exact Or.inl (List.map_eq_nil_iff.mp h.symm).symm
  | cons x l ih =>
      obtain ⟨y, l', rfl, hxy, htail⟩ := List.map_eq_cons_iff.mp h.symm
      by_cases hne : x = y
      · rcases ih htail.symm with rfl | ⟨s, hs, s', hs', hcoll⟩
        · exact Or.inl (by rw [hne])
        · exact Or.inr ⟨s, List.mem_cons_of_mem _ hs, s', List.mem_cons_of_mem _ hs', hcoll⟩
      · exact Or.inr ⟨x, List.mem_cons_self, y, List.mem_cons_self, hne, hxy.symm⟩

/-- Every node of the tree of a block is a hash. -/
theorem node_length {data : List Bytes} {l i : Nat} {a : Bytes}
    (h : node (mtHash sha) ((data.map sha.hash).take (2 ^ 18)) l i = some a) :
    a.length = sha256HashSize := by
  refine node_mem (P := fun a => a.length = sha256HashSize) (fun a b _ _ => sha.length_hash _) ?_ h
  intro leaf hleaf
  obtain ⟨s, -, rfl⟩ := List.mem_map.mp (List.mem_of_mem_take hleaf)
  exact sha.length_hash s

/-- The results and the root of a block that a server has made. -/
theorem MadeFrom.root (h : MadeFrom sha msg sign called k b) : ∃ results root,
    b.metadata[0]? = some results ∧ b.metadata[1]? = some root ∧ results.length = b.data.length ∧
      PairTree.root (mtHash sha) ((b.data.map sha.hash).take (2 ^ 18)) = some root ∧
      root.length = sha256HashSize := by
  obtain ⟨txs, body, -, hbody, hdata, hmeta⟩ := h.body
  obtain ⟨root, hroot, rfl⟩ := Option.map_eq_some_iff.mp hbody
  obtain ⟨mt, hmt, hroot⟩ := Option.bind_eq_some_iff.mp hroot
  rw [hdata, hmeta]
  have htree := (mtGetRoot_mtOfList hmt).symm.trans hroot
  refine ⟨_, root, rfl, rfl, ?_, htree, ?_⟩
  · rw [List.length_map, List.length_map]
  · rw [root_eq_node Nat.lt_two_pow_self.le] at htree
    exact node_length htree

/-- Trees of the same number of transactions with the same root. -/
theorem data_eq_or_collide (hlen : b.data.length = b'.data.length)
    (h : PairTree.root (mtHash sha) ((b.data.map sha.hash).take (2 ^ 18)) =
      PairTree.root (mtHash sha) ((b'.data.map sha.hash).take (2 ^ 18))) :
    b.data.take (2 ^ 18) = b'.data.take (2 ^ 18) ∨ HashesCollide sha b b' := by
  have hleaves : ((b.data.map sha.hash).take (2 ^ 18)).length =
      ((b'.data.map sha.hash).take (2 ^ 18)).length := by
    rw [List.length_take, List.length_take, List.length_map, List.length_map, hlen]
  rcases root_inj_or_collide hleaves h with heq | ⟨p, q, hp, hq, hne, hhash⟩
  · rw [← List.map_take, ← List.map_take] at heq
    rcases map_eq_or_collide heq with hdata | ⟨s, hs, s', hs', hcoll⟩
    · exact Or.inl hdata
    · exact Or.inr ⟨s, s', Or.inl (List.mem_of_mem_take hs), Or.inl (List.mem_of_mem_take hs'),
        hcoll⟩
  · refine Or.inr ⟨p.1 ++ p.2, q.1 ++ q.2, Or.inr (Or.inl ⟨p, hp, rfl⟩),
      Or.inr (Or.inl ⟨q, hq, rfl⟩), fun heq => hne ?_, hhash⟩
    obtain ⟨l, i, hp, -⟩ := hp
    obtain ⟨l', i', hq, -⟩ := hq
    obtain ⟨hfst, hsnd⟩ := List.append_inj heq ((node_length hp).trans (node_length hq).symm)
    exact Prod.ext hfst hsnd

theorem MadeFrom.sameContent {files files' : Nat → Option Block}
    (h : MadeFrom sha msg sign called k b) (h' : MadeFrom sha msg sign' called' k' b')
    (hchain : ChainBlock sha msg files called k b)
    (hchain' : ChainBlock sha msg files' called' k' b')
    (heq : b.header.dataHash = b'.header.dataHash) : SameContent b b' ∨ HashesCollide sha b b' := by
  obtain ⟨results, root, h₀, h₁, hlen, hroot, hsize⟩ := h.root
  obtain ⟨results', root', h₀', h₁', hlen', hroot', hsize'⟩ := h'.root
  have hhash : sha.hash (results ++ root) = sha.hash (results' ++ root') := by
    obtain ⟨m₀, m₁, hm₀, hm₁, hm⟩ := hchain.dataHash
    obtain ⟨m₀', m₁', hm₀', hm₁', hm'⟩ := hchain'.dataHash
    cases h₀.symm.trans hm₀
    cases h₁.symm.trans hm₁
    cases h₀'.symm.trans hm₀'
    cases h₁'.symm.trans hm₁'
    rw [← hm, ← hm', heq]
  by_cases hsame : results ++ root = results' ++ root'
  · -- the root has a fixed length, so the results end where the root begins
    obtain ⟨hresults, rfl⟩ := List.append_inj' hsame (hsize.trans hsize'.symm)
    subst hresults
    rcases data_eq_or_collide (hlen.symm.trans hlen') (hroot.trans hroot'.symm) with hdata | hcoll
    · exact Or.inl ⟨h₀.trans h₀'.symm, hdata⟩
    · exact Or.inr hcoll
  · exact Or.inr ⟨_, _, Or.inr (Or.inr ⟨_, _, h₀, h₁, rfl⟩), Or.inr (Or.inr ⟨_, _, h₀', h₁', rfl⟩),
      hsame, hhash⟩

/-- Blocks of two servers with the same hash, or whose successors name the same hash. -/
theorem data_hash_binds {storage storage' : BlockStorageToFile} {resetEpoch resetEpoch' : Bool}
    {as as' : List BlockAction} {g g' : BlockGeneratorImpl}
    (hempty : (storage.construct resetEpoch).blockNum = 0)
    (hempty' : (storage'.construct resetEpoch').blockNum = 0)
    (hcalls : ∀ txs ∈ calls as, txs ≠ [] ∧ txs.length ≤ mtAlMaxElems)
    (hcalls' : ∀ txs ∈ calls as', txs ≠ [] ∧ txs.length ≤ mtAlMaxElems)
    (hrun : run (BlockGeneratorImpl.step sha msg sign) (.start storage resetEpoch) as = some g)
    (hrun' : run (BlockGeneratorImpl.step sha msg sign') (.start storage' resetEpoch') as' =
      some g')
    (hk : k < g.written) (hk' : k' < g'.written) :
    ∃ b b', g.storage.blockFile (k + 1) = some b ∧ g'.storage.blockFile (k' + 1) = some b' ∧
      (b.header.dataHash = b'.header.dataHash → SameContent b b' ∨ HashesCollide sha b b') ∧
      (0 < k → 0 < k' → b.header.previousHash = b'.header.previousHash →
        ∃ p p', g.storage.blockFile k = some p ∧ g'.storage.blockFile k' = some p' ∧
          (SameContent p p' ∨ HashesCollide sha p p')) := by
  have htraced := BlockGeneratorImpl.traced_run hempty hcalls hrun
  have htraced' := BlockGeneratorImpl.traced_run hempty' hcalls' hrun'
  have hbind : ∀ {k k' : Nat} {b b' : Block}, k < g.written → k' < g'.written →
      g.storage.blockFile (k + 1) = some b → g'.storage.blockFile (k' + 1) = some b' →
      b.header.dataHash = b'.header.dataHash → SameContent b b' ∨ HashesCollide sha b b' := by
    intro k k' b b' hk hk' hb hb' heq
    obtain ⟨c, hc, hchain⟩ := htraced.inv.saved k hk
    obtain ⟨c', hc', hchain'⟩ := htraced'.inv.saved k' hk'
    cases hb.symm.trans hc
    cases hb'.symm.trans hc'
    exact (htraced.files k hk b hb).sameContent (htraced'.files k' hk' b' hb') hchain hchain' heq
  obtain ⟨b, hb, hchain⟩ := htraced.inv.saved k hk
  obtain ⟨b', hb', hchain'⟩ := htraced'.inv.saved k' hk'
  refine ⟨b, b', hb, hb', hbind hk hk' hb hb', fun hpos hpos' heq => ?_⟩
  obtain ⟨p, hp, hlink⟩ := hchain.previousHash hpos
  obtain ⟨p', hp', hlink'⟩ := hchain'.previousHash hpos'
  obtain ⟨j, rfl⟩ : ∃ j, k = j + 1 := ⟨k - 1, by omega⟩
  obtain ⟨j', rfl⟩ : ∃ j', k' = j' + 1 := ⟨k' - 1, by omega⟩
  refine ⟨p, p', hp, hp', hbind (by omega) (by omega) hp hp' ?_⟩
  rw [← hlink, ← hlink', heq]

/-- For a block with one transaction, which has no pairs of nodes, two strings are hashed. -/
theorem hashed_single {data results root signature s : Bytes} (hdata : b.data = [data])
    (hmeta : b.metadata = [results, root, signature]) (h : Hashed sha b s) :
    s = data ∨ s = results ++ root := by
  rcases h with hmem | ⟨p, ⟨l, i, -, hright⟩, -⟩ | ⟨results', root', h₀, h₁, rfl⟩
  · rw [hdata] at hmem
    exact Or.inl (List.mem_singleton.mp hmem)
  · have hnone : node (mtHash sha) ((b.data.map sha.hash).take (2 ^ 18)) l (2 * i + 1) = none := by
      rw [node_eq_none, List.length_take, List.length_map, hdata]
      have hpow := Nat.mul_le_mul (Nat.le_add_left 1 (2 * i)) (Nat.two_pow_pos l)
      exact (Nat.min_le_right _ _).trans hpow
    rw [hnone] at hright
    cases hright
  · rw [hmeta] at h₀ h₁
    cases h₀
    cases h₁
    exact Or.inr rfl

theorem not_hashesCollide_single {data results root signature signature' : Bytes}
    (hdata : b.data = [data]) (hmeta : b.metadata = [results, root, signature])
    (hdata' : b'.data = [data]) (hmeta' : b'.metadata = [results, root, signature'])
    (hne : sha.hash data ≠ sha.hash (results ++ root)) : ¬ HashesCollide sha b b' := by
  rintro ⟨s, s', hs, hs', hdiff, hhash⟩
  rcases hashed_single hdata hmeta hs with rfl | rfl <;>
    rcases hashed_single hdata' hmeta' hs' with rfl | rfl
  · exact hdiff rfl
  · exact hne hhash
  · exact hne hhash.symm
  · exact hdiff rfl

end

/-- The only transaction of the block with this number, as it is hashed. -/
def onlyTransaction (number : Nat) : Bytes :=
  Transaction.serializeToString lengthSHA256 BlockGeneratorImpl.emptyMessages { tid := number }

/-- Two blocks with a transaction each, of a server that signs with `sign`. -/
def savesTwo (sign : Bytes → Bytes) : Option BlockGeneratorImpl :=
  run (BlockGeneratorImpl.step lengthSHA256 BlockGeneratorImpl.emptyMessages sign)
    (.start {} true) (saveAll [[{ tid := 1 }], [{ tid := 2 }]])

/-- What is in block `k + 1`: the results, the Merkle root and its signature. -/
def HasOnly (sign : Bytes → Bytes) (k : Nat) (b : Block) : Prop :=
  let root := lengthSHA256.hash (onlyTransaction (k + 1))
  b.data = [onlyTransaction (k + 1)] ∧ b.metadata = [[1], root, sign root] ∧
    b.header.dataHash = lengthSHA256.hash ([1] ++ root)

instance (sign : Bytes → Bytes) (k : Nat) (b : Block) : Decidable (HasOnly sign k b) :=
  inferInstanceAs (Decidable (_ ∧ _ ∧ _))

/-- Two servers have the same hashes and different signatures. Among the strings that they have
    hashed no two have the same hash, so the blocks have the same content. -/
theorem data_hash_binds_two :
    ∃ g g', savesTwo id = some g ∧ savesTwo List.reverse = some g' ∧
      ∀ k < 2, ∃ b b', g.storage.blockFile (k + 1) = some b ∧
        g'.storage.blockFile (k + 1) = some b' ∧ b ≠ b' ∧
        ¬ HashesCollide lengthSHA256 b b' ∧ SameContent b b' := by
  have hany : (savesTwo id).any (fun g => g.written = 2 ∧
      ∀ k < 2, (g.storage.blockFile (k + 1)).all (HasOnly id k)) = true := by decide +kernel
  have hany' : (savesTwo List.reverse).any (fun g => g.written = 2 ∧
      ∀ k < 2, (g.storage.blockFile (k + 1)).all (HasOnly List.reverse k)) = true := by
    decide +kernel
  obtain ⟨g, hrun, hwritten, hblocks⟩ := exists_of_any hany
  obtain ⟨g', hrun', hwritten', hblocks'⟩ := exists_of_any hany'
  refine ⟨g, g', hrun, hrun', fun k hk => ?_⟩
  obtain ⟨b, b', hb, hb', hbind, -⟩ := data_hash_binds rfl rfl (by decide) (by decide) hrun hrun'
    (hwritten.symm ▸ hk) (hwritten'.symm ▸ hk)
  have honly := hblocks k hk
  have honly' := hblocks' k hk
  rw [hb, Option.all_some, decide_eq_true_iff] at honly
  rw [hb', Option.all_some, decide_eq_true_iff] at honly'
  obtain ⟨hdata, hmeta, hhash⟩ := honly
  obtain ⟨hdata', hmeta', hhash'⟩ := honly'
  have hdiff : ∀ k < 2, lengthSHA256.hash (onlyTransaction (k + 1)) ≠
        lengthSHA256.hash ([1] ++ lengthSHA256.hash (onlyTransaction (k + 1))) ∧
      lengthSHA256.hash (onlyTransaction (k + 1)) ≠
        (lengthSHA256.hash (onlyTransaction (k + 1))).reverse := by decide +kernel
  have hnot := not_hashesCollide_single hdata hmeta hdata' hmeta' (hdiff k hk).1
  refine ⟨b, b', hb, hb', ?_, hnot, (hbind (hhash.trans hhash'.symm)).resolve_right hnot⟩
  rintro rfl
  exact (hdiff k hk).2 (by simpa using hmeta.symm.trans hmeta')

end NeuChain.Server
