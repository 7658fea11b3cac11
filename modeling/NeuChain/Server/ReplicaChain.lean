/-
  Replicas build the same chain.

  Two servers run epochs as in `Replica`, each with its own workers, schedules and order of calls,
  and each gives its finished transactions to a block generator, whose tasks are done in any order.

  * `replica_chains_agree`: if they start from the same database and get the same transactions for
    every epoch, they have the same database after it, and every block that both have saved
    is the same, but for the signature, as long as no call is empty or larger than a Merkle tree can
    be. One of them may be behind, in its epochs or in its blocks.

  `Traced` adds to the invariant of a block generator which call a saved block was made from. That
  blocks are then equal goes by induction on their number, since a header takes the hash of the
  block before.
-/
import NeuChain.Server.HashChain
import NeuChain.Server.Replica

namespace NeuChain.Server

open NeuChain Lib Merkle

/-! ## The block of a call -/

section Made

variable {sha : SHA256} {msg : Messages} {sign : Bytes → Bytes} {called : List (List Transaction)}
  {added : List Transaction} {k : Nat} {b : Block}

/-- The block of the call with index `k` is the body made of its transactions, under a header. -/
structure MadeFrom (sha : SHA256) (msg : Messages) (sign : Bytes → Bytes)
    (called : List (List Transaction)) (k : Nat) (b : Block) : Prop where
  body : ∃ txs body, called[k]? = some txs ∧
    BlockGeneratorImpl.bodyOf sha msg sign (pushAll txs) = some body ∧ b.data = body.data ∧
    b.metadata = body.metadata
  first : k = 0 → b.header.previousHash = []

theorem MadeFrom.call (h : MadeFrom sha msg sign called k b) (txs : List Transaction) :
    MadeFrom sha msg sign (called ++ [txs]) k b := by
  obtain ⟨txs', body, hget, hbody⟩ := h.body
  have hlt : k < called.length := (List.getElem?_eq_some_iff.mp hget).1
  refine ⟨⟨txs', body, ?_, hbody⟩, h.first⟩
  rw [List.getElem?_append_left hlt]
  exact hget

end Made

namespace BlockGeneratorImpl

variable {sha : SHA256} {msg : Messages} {sign : Bytes → Bytes} {called : List (List Transaction)}
  {added : List Transaction} {g g' : BlockGeneratorImpl} {a : BlockAction}

/-- The invariant of a process, and where its blocks come from. -/
structure Traced (sha : SHA256) (msg : Messages) (sign : Bytes → Bytes)
    (called : List (List Transaction)) (added : List Transaction) (g : BlockGeneratorImpl) :
    Prop where
  inv : Inv sha msg sign called added g
  inHand : ∀ b, g.runState = .inserting b → MadeFrom sha msg sign called g.storage.blockNum b
  files : ∀ k < g.written, ∀ b, g.storage.blockFile (k + 1) = some b →
    MadeFrom sha msg sign called k b

/-- The first header keeps the empty hash the body came with. -/
theorem generateBlockHeader_first {storage : BlockStorageToFile} {block block' : Block}
    {previousDataHash hashResult : Bytes} (hheader : block.header = {})
    (hzero : storage.getLatestSavedEpoch = 0)
    (h : generateBlockHeader sha storage previousDataHash block = some (block', hashResult)) :
    block'.header.previousHash = [] := by
  obtain ⟨m₀, h₀, hrest⟩ := Option.bind_eq_some_iff.mp h
  obtain ⟨m₁, h₁, -⟩ := Option.bind_eq_some_iff.mp hrest
  rw [generateBlockHeader_eq previousDataHash h₀ h₁, if_neg (by omega)] at h
  cases h
  exact congrArg BlockHeader.previousHash hheader

theorem Traced.header (h : Traced sha msg sign called added g) (hstep : g.header sha = some g') :
    Traced sha msg sign called added g' := by
  have hinv' := h.inv.header hstep
  obtain ⟨hwait, block, hbuf, hcases⟩ := header_cases hstep
  have hwritten : g.written = g.storage.blockNum := by
    unfold written
    rw [hwait]
  rcases hcases with ⟨-, rfl⟩ | ⟨block', hashResult, hheader, rfl⟩
  · exact absurd hinv'.alive (by simp)
  · refine ⟨hinv', fun b hb => ?_, fun k hk => h.files k (hwritten ▸ hk)⟩
    cases hb
    obtain ⟨-, queue, ⟨k, txs, hk, hcall, rfl⟩, hbody⟩ := h.inv.buffered _ block hbuf
    obtain rfl : k = g.storage.blockNum := by
      have := h.inv.epoch
      omega
    obtain ⟨hempty, -, h₀, root, h₁⟩ := bodyOf_spec hbody
    obtain ⟨-, -, -, hdata, hmeta⟩ := generateBlockHeader_content h₀ h₁ hheader
    refine ⟨⟨txs, block, hcall, hbody, hdata, hmeta⟩, fun hzero => ?_⟩
    refine generateBlockHeader_first hempty ?_ hheader
    exact h.inv.latest.trans (hwritten.trans hzero)

theorem Traced.insert (h : Traced sha msg sign called added g) {block : Block}
    (hrun : g.runState = .inserting block) : Traced sha msg sign called added
      { g with storage := g.storage.insertBlock block, runState := .updating } := by
  have hnum : block.header.number = g.storage.blockNum + 1 := (h.inv.inHand block hrun).1.number
  have hwritten : g.written = g.storage.blockNum := by
    unfold written
    rw [hrun]
  refine ⟨h.inv.insert hrun, fun b hb => (by cases hb), fun k hk b hb => ?_⟩
  have hk : k < g.storage.blockNum + 1 := hk
  have hb : Function.update g.storage.blockFile block.header.number (some block) (k + 1) =
    some b := hb
  by_cases hlast : k = g.storage.blockNum
  · rw [hnum, hlast, Function.update_self] at hb
    cases hb
    exact hlast ▸ h.inHand block hrun
  · rw [hnum, Function.update_of_ne (by omega)] at hb
    exact h.files k (by omega) b hb

theorem Traced.update (h : Traced sha msg sign called added g) (hrun : g.runState = .updating) :
    Traced sha msg sign called added
      { g with
        storage := g.storage.updateLatestSavedEpoch
        currentBlockEpoch := g.currentBlockEpoch + 1
        runState := .waiting } := by
  refine ⟨h.inv.update hrun, fun b hb => (by cases hb), fun k hk => ?_⟩
  have hk : k < g.storage.bufferedEpochFromFile := hk
  exact h.files k (h.inv.latest ▸ hk)

theorem Traced.step (h : Traced sha msg sign called added g)
    (hcalls : ∀ txs ∈ called, txs ≠ [] ∧ txs.length ≤ mtAlMaxElems)
    (hstep : g.step sha msg sign a = some g') :
    Traced sha msg sign (recordCall (called, added) a).1 (recordCall (called, added) a).2 g' := by
  have hinv' := h.inv.step hcalls hstep
  cases step_cases hstep with
  | add t => exact ⟨hinv', h.inHand, h.files⟩
  | call =>
      exact ⟨hinv', fun b hb => (h.inHand b hb).call added,
        fun k hk b hb => (h.files k hk b hb).call added⟩
  | body hbody =>
      obtain ⟨e, queue, -, ⟨-, rfl⟩ | ⟨block, -, rfl⟩⟩ := body_cases hbody
      · exact ⟨hinv', h.inHand, h.files⟩
      · exact ⟨hinv', h.inHand, h.files⟩
  | header hcall => exact h.header hcall
  | insert hrun => exact h.insert hrun
  | update hrun => exact h.update hrun

theorem traced_run {storage : BlockStorageToFile} {resetEpoch : Bool} {actions : List BlockAction}
    (hempty : (storage.construct resetEpoch).blockNum = 0)
    (hcalls : ∀ txs ∈ calls actions, txs ≠ [] ∧ txs.length ≤ mtAlMaxElems)
    (h : run (step sha msg sign) (start storage resetEpoch) actions = some g) :
    Traced sha msg sign (calls actions) (uncalled actions) g := by
  have hstart : Traced sha msg sign [] [] (start storage resetEpoch) := by
    have hinv : Inv sha msg sign [] [] (start storage resetEpoch) := Inv.start resetEpoch hempty
    refine ⟨hinv, fun b hb => (by cases hb), fun k hk => ?_⟩
    have hk : k < (storage.construct resetEpoch).blockNum := hk
    omega
  exact run_of_calls (Traced sha msg sign) (fun _ _ _ _ _ => Traced.step) hcalls h hstart

/-! ## Two block generators -/

/-- Bodies of the same transactions differ in the signature only. -/
theorem bodyOf_content {sign' : Bytes → Bytes} {queue : TxPriorityQueue} {body body' : Block}
    (h : bodyOf sha msg sign queue = some body) (h' : bodyOf sha msg sign' queue = some body') :
    body.data = body'.data ∧ body.metadata.take 2 = body'.metadata.take 2 := by
  obtain ⟨root, hroot, rfl⟩ := Option.map_eq_some_iff.mp h
  obtain ⟨root', hroot', rfl⟩ := Option.map_eq_some_iff.mp h'
  rw [hroot] at hroot'
  cases hroot'
  exact ⟨rfl, rfl⟩

end BlockGeneratorImpl

attribute [ext] BlockHeader

/-- Two blocks that differ in the signature only. -/
structure SameBlock (b b' : Block) : Prop where
  header : b.header = b'.header
  data : b.data = b'.data
  metadata : b.metadata.take 2 = b'.metadata.take 2

section Agree

variable {sha : SHA256} {msg : Messages} {sign sign' : Bytes → Bytes}
  {called called' : List (List Transaction)} {added added' : List Transaction}
  {g g' : BlockGeneratorImpl} {k : Nat} {b b' : Block}

/-- The calls that both servers have made hold the same transactions. -/
def CallsAgree (called called' : List (List Transaction)) : Prop :=
  ∀ (k : Nat) (txs txs' : List Transaction), called[k]? = some txs → called'[k]? = some txs' →
    txs.Perm txs' ∧ (txs.map Transaction.tid).Nodup

theorem getElem?_of_isPre {l l' : List (List Transaction)} (h : l <+: l') {k : Nat}
    {txs : List Transaction} (hk : l[k]? = some txs) : l'[k]? = some txs := by
  obtain ⟨more, rfl⟩ := h
  rw [List.getElem?_append_left (List.getElem?_eq_some_iff.mp hk).1]
  exact hk

theorem MadeFrom.content (h : MadeFrom sha msg sign called k b)
    (h' : MadeFrom sha msg sign' called' k b') (hagree : CallsAgree called called') :
    b.data = b'.data ∧ b.metadata.take 2 = b'.metadata.take 2 := by
  obtain ⟨txs, body, hcall, hbody, hdata, hmeta⟩ := h.body
  obtain ⟨txs', body', hcall', hbody', hdata', hmeta'⟩ := h'.body
  obtain ⟨hperm, hnodup⟩ := hagree k txs txs' hcall hcall'
  rw [← pushAll_perm hperm hnodup] at hbody'
  obtain ⟨hd, hm⟩ := BlockGeneratorImpl.bodyOf_content hbody hbody'
  exact ⟨hdata.trans (hd.trans hdata'.symm), by rw [hmeta, hmeta', hm]⟩

theorem getElem?_take_two {l l' : List Bytes} (h : l.take 2 = l'.take 2) {i : Nat} (hi : i < 2) :
    l[i]? = l'[i]? := by
  have := congrArg (·[i]?) h
  simpa [List.getElem?_take, hi] using this

/-- Blocks with the same metadata have the same hash. -/
theorem ChainBlock.dataHash_eq {files files' : Nat → Option Block}
    (h : ChainBlock sha msg files called k b) (h' : ChainBlock sha msg files' called' k b')
    (hmeta : b.metadata.take 2 = b'.metadata.take 2) :
    b.header.dataHash = b'.header.dataHash := by
  obtain ⟨m₀, m₁, h₀, h₁, hhash⟩ := h.dataHash
  obtain ⟨m₀', m₁', h₀', h₁', hhash'⟩ := h'.dataHash
  rw [getElem?_take_two hmeta (by decide), h₀'] at h₀
  rw [getElem?_take_two hmeta (by decide), h₁'] at h₁
  cases h₀
  cases h₁
  rw [hhash, hhash']

/-- The header of a block depends on the metadata and on the block before. -/
theorem MadeFrom.sameBlock {files files' : Nat → Option Block}
    (h : MadeFrom sha msg sign called k b) (h' : MadeFrom sha msg sign' called' k b')
    (hchain : ChainBlock sha msg files called k b)
    (hchain' : ChainBlock sha msg files' called' k b') (hagree : CallsAgree called called')
    (hprevious : 0 < k → ∀ p p', files k = some p → files' k = some p' → SameBlock p p') :
    SameBlock b b' := by
  obtain ⟨hdata, hmeta⟩ := h.content h' hagree
  refine ⟨BlockHeader.ext ?_ ?_ ?_, hdata, hmeta⟩
  · rw [hchain.number, hchain'.number]
  · rcases Nat.eq_zero_or_pos k with hzero | hpos
    · rw [h.first hzero, h'.first hzero]
    · obtain ⟨p, hp, hlink⟩ := hchain.previousHash hpos
      obtain ⟨p', hp', hlink'⟩ := hchain'.previousHash hpos
      rw [hlink, hlink', (hprevious hpos p p' hp hp').header]
  · exact hchain.dataHash_eq hchain' hmeta

/-- By induction on the number: a block takes the hash of the one before. -/
theorem sameBlock_of_traced (h : g.Traced sha msg sign called added)
    (h' : g'.Traced sha msg sign' called' added') (hagree : CallsAgree called called')
    (hk : k < g.storage.blockNum) (hk' : k < g'.storage.blockNum) :
    ∃ b b', g.storage.blockFile (k + 1) = some b ∧ g'.storage.blockFile (k + 1) = some b' ∧
      SameBlock b b' := by
  have hwritten : ∀ g : BlockGeneratorImpl, g.storage.blockNum ≤ g.written := by
    intro g
    unfold BlockGeneratorImpl.written
    split <;> omega
  induction k with
  | zero =>
      obtain ⟨b, hb, hchain⟩ := h.inv.saved 0 (hk.trans_le (hwritten g))
      obtain ⟨b', hb', hchain'⟩ := h'.inv.saved 0 (hk'.trans_le (hwritten g'))
      have hmade := h.files 0 (hk.trans_le (hwritten g)) b hb
      have hmade' := h'.files 0 (hk'.trans_le (hwritten g')) b' hb'
      exact ⟨b, b', hb, hb', hmade.sameBlock hmade' hchain hchain' hagree
        fun hpos => absurd hpos (Nat.lt_irrefl 0)⟩
  | succ k ih =>
      obtain ⟨p, p', hp, hp', hsame⟩ := ih (by omega) (by omega)
      obtain ⟨b, hb, hchain⟩ := h.inv.saved (k + 1) (hk.trans_le (hwritten g))
      obtain ⟨b', hb', hchain'⟩ := h'.inv.saved (k + 1) (hk'.trans_le (hwritten g'))
      have hmade := h.files (k + 1) (hk.trans_le (hwritten g)) b hb
      have hmade' := h'.files (k + 1) (hk'.trans_le (hwritten g')) b' hb'
      refine ⟨b, b', hb, hb', hmade.sameBlock hmade' hchain hchain' hagree fun _ q q' hq hq' => ?_⟩
      rw [hp] at hq
      rw [hp'] at hq'
      cases hq
      cases hq'
      exact hsame

end Agree

/-! ## Two servers -/

section Servers

variable {cc : Chaincode} {cfg : TrManagerConfig} {e₀ : Epoch} {s s' : ServerState}
  {r r' : Replica} {actions actions' : List EpochAction}

/-- The transactions of an epoch that both servers have run are the same. -/
def CommonArrivals (actions actions' : List EpochAction) : Prop :=
  ∀ (k : Nat) (a a' : EpochAction), actions[k]? = some a → actions'[k]? = some a' →
    a.incoming.Perm a'.incoming

theorem CommonArrivals.same (h : CommonArrivals actions actions')
    (hlen : actions.length = actions'.length) : Replica.SameArrivals actions actions' := by
  refine List.forall₂_iff_get.mpr ⟨hlen, fun i hi hi' => h i _ _ ?_ ?_⟩
  · exact List.getElem?_eq_getElem hi
  · exact List.getElem?_eq_getElem hi'

theorem CommonArrivals.take (h : CommonArrivals actions actions') (n : Nat) :
    CommonArrivals (actions.take n) (actions'.take n) := by
  intro k a a' ha ha'
  rw [List.getElem?_take] at ha ha'
  exact h k a a' (Option.ite_none_right_eq_some.mp ha).2 (Option.ite_none_right_eq_some.mp ha').2

theorem arrivals_take (harr : Arrivals e₀ (Replica.arrivals actions)) (n : Nat) :
    Arrivals e₀ (Replica.arrivals (actions.take n)) := by
  have hsplit : Replica.arrivals actions =
      Replica.arrivals (actions.take n) ++ Replica.arrivals (actions.drop n) := by
    unfold Replica.arrivals
    rw [← List.map_append, List.take_append_drop]
  rw [hsplit] at harr
  exact harr.of_append

/-- The first calls of a run are those of its first epochs. -/
theorem called_take (n : Nat)
    (hrun : run (Replica.step cc cfg) (.start s e₀) actions = some r) :
    ∃ r₁, run (Replica.step cc cfg) (.start s e₀) (actions.take n) = some r₁ ∧
      ∀ k < n, r.called[k]? = r₁.called[k]? := by
  rw [← List.take_append_drop n actions] at hrun
  obtain ⟨r₁, hfirst, hrest⟩ := run_append_eq_some.mp hrun
  obtain ⟨calls₁, hcalls₁, hlen₁⟩ := Replica.called_run hfirst
  obtain ⟨more, hmore, hlen⟩ := Replica.called_run hrest
  refine ⟨r₁, hfirst, fun k hk => ?_⟩
  have hr₁ : r₁.called = calls₁ := by rw [hcalls₁]; rfl
  rw [hmore, hr₁]
  rw [List.length_take] at hlen₁
  rw [List.length_drop] at hlen
  by_cases hin : k < calls₁.length
  · rw [List.getElem?_append_left hin]
  · -- the run is shorter than `n`, so nothing was left out
    rw [List.getElem?_append_right (by omega), List.getElem?_eq_none (by omega),
      List.getElem?_eq_none (by omega)]

theorem callsAgree_run (htab : cc.TwoFieldTables) (hD : s.db.storage = s'.db.storage)
    (hnew : ∀ rt, s.reserveTable = some rt → rt.epoch < e₀)
    (hnew' : ∀ rt, s'.reserveTable = some rt → rt.epoch < e₀)
    (harr : Arrivals e₀ (Replica.arrivals actions))
    (harr' : Arrivals e₀ (Replica.arrivals actions')) (hcommon : CommonArrivals actions actions')
    (hrun : run (Replica.step cc cfg) (.start s e₀) actions = some r)
    (hrun' : run (Replica.step cc cfg) (.start s' e₀) actions' = some r') :
    CallsAgree r.called r'.called := by
  intro k txs txs' htxs htxs'
  refine ⟨?_, ?_⟩
  · -- both have run `n` epochs
    let n := min actions.length actions'.length
    obtain ⟨r₁, hfirst, hcalls⟩ := called_take n hrun
    obtain ⟨r₁', hfirst', hcalls'⟩ := called_take n hrun'
    have hlen : (actions.take n).length = (actions'.take n).length := by
      simp only [List.length_take, n]
      omega
    have hk : k < n := by
      obtain ⟨more, hmore, hlen⟩ := Replica.called_run hrun
      obtain ⟨more', hmore', hlen'⟩ := Replica.called_run hrun'
      have hlt := (List.getElem?_eq_some_iff.mp htxs).1
      have hlt' := (List.getElem?_eq_some_iff.mp htxs').1
      rw [hmore] at hlt
      rw [hmore'] at hlt'
      exact lt_min (hlen ▸ hlt) (hlen' ▸ hlt')
    have halike := Replica.alike_run htab hD hnew hnew' (arrivals_take harr n)
      (arrivals_take harr' n) ((hcommon.take n).same hlen) hfirst hfirst'
    rw [hcalls k hk] at htxs
    rw [hcalls' k hk] at htxs'
    obtain ⟨hlt, rfl⟩ := List.getElem?_eq_some_iff.mp htxs
    obtain ⟨hlt', rfl⟩ := List.getElem?_eq_some_iff.mp htxs'
    exact halike.called.get hlt hlt'
  · have hrunning := Replica.running_run htab hnew harr hrun
    exact hrunning.called_nodup harr (List.mem_of_getElem? htxs)

/-- Two servers that have run the same epochs have the same database. If their calls have at least
    one transaction and at most `mtAlMaxElems`, the blocks that both of them have saved are the same
    but for the signature. -/
theorem replica_chains_agree (htab : cc.TwoFieldTables) (hD : s.db.storage = s'.db.storage)
    (hnew : ∀ rt, s.reserveTable = some rt → rt.epoch < e₀)
    (hnew' : ∀ rt, s'.reserveTable = some rt → rt.epoch < e₀)
    (harr : Arrivals e₀ (Replica.arrivals actions))
    (harr' : Arrivals e₀ (Replica.arrivals actions')) (hcommon : CommonArrivals actions actions')
    (hrun : run (Replica.step cc cfg) (.start s e₀) actions = some r)
    (hrun' : run (Replica.step cc cfg) (.start s' e₀) actions' = some r') :
    (actions.length = actions'.length → r.server.db.storage = r'.server.db.storage) ∧
    ∀ (sha : SHA256) (msg : Messages) (sign sign' : Bytes → Bytes)
      (storage storage' : BlockStorageToFile) (resetEpoch resetEpoch' : Bool)
      (as as' : List BlockAction) (g g' : BlockGeneratorImpl),
      (storage.construct resetEpoch).blockNum = 0 → (storage'.construct resetEpoch').blockNum = 0 →
      calls as <+: r.called → calls as' <+: r'.called →
      (∀ txs ∈ calls as, txs ≠ [] ∧ txs.length ≤ mtAlMaxElems) →
      (∀ txs ∈ calls as', txs ≠ [] ∧ txs.length ≤ mtAlMaxElems) →
      run (BlockGeneratorImpl.step sha msg sign) (.start storage resetEpoch) as = some g →
      run (BlockGeneratorImpl.step sha msg sign') (.start storage' resetEpoch') as' = some g' →
      ∀ k, k < g.storage.blockNum → k < g'.storage.blockNum →
        ∃ b b', g.storage.blockFile (k + 1) = some b ∧ g'.storage.blockFile (k + 1) = some b' ∧
          SameBlock b b' := by
  constructor
  · intro hlen
    exact (Replica.alike_run htab hD hnew hnew' harr harr' (hcommon.same hlen) hrun hrun').storage
  · intro sha msg sign sign' storage storage' resetEpoch resetEpoch' as as' g g' hempty hempty'
      hcalls hcalls' hlen hlen' hgen hgen' k hk hk'
    have htraced := BlockGeneratorImpl.traced_run hempty hlen hgen
    have htraced' := BlockGeneratorImpl.traced_run hempty' hlen' hgen'
    have hagree := callsAgree_run htab hD hnew hnew' harr harr' hcommon hrun hrun'
    refine sameBlock_of_traced htraced htraced' (fun k txs txs' h h' => ?_) hk hk'
    exact hagree k txs txs' (getElem?_of_isPre hcalls h) (getElem?_of_isPre hcalls' h')

/-- What it takes to save a block for each of the calls. -/
def saveAll (called : List (List Transaction)) : List BlockAction :=
  called.flatMap fun txs => txs.map .addCommittedTransaction ++
    [.generateBlock, .generateBlockBody 0, .generateBlockHeader, .insertBlock,
      .updateLatestSavedEpoch]

theorem replica_chains_agree_putBack :
    ∃ r g g', run (Replica.step copyChaincode Replica.reuseConfig)
        (.start Replica.emptyServer 5) Replica.putBackRun = some r ∧
      run (BlockGeneratorImpl.step BlockGeneratorImpl.zeroSHA256 BlockGeneratorImpl.emptyMessages
        id) (.start {} true) (saveAll r.called) = some g ∧
      run (BlockGeneratorImpl.step BlockGeneratorImpl.zeroSHA256 BlockGeneratorImpl.emptyMessages
        List.reverse) (.start {} true) (saveAll r.called) = some g' ∧
      ∃ b b', g.storage.blockFile 2 = some b ∧ g'.storage.blockFile 2 = some b' ∧
        SameBlock b b' := by
  have hany : (run (Replica.step copyChaincode Replica.reuseConfig) (.start Replica.emptyServer 5)
      Replica.putBackRun).any (fun r => (∀ txs ∈ r.called, txs ≠ [] ∧ txs.length ≤ 2) ∧
        calls (saveAll r.called) = r.called ∧ ∀ sign ∈ [id, List.reverse],
          (run (BlockGeneratorImpl.step BlockGeneratorImpl.zeroSHA256
            BlockGeneratorImpl.emptyMessages sign) (.start {} true) (saveAll r.called)).any
              (fun g => g.storage.blockNum = 2) = true) = true := by decide +kernel
  obtain ⟨r, hrun, hlen, hcalls, hsign⟩ := exists_of_any hany
  obtain ⟨g, hgen, hnum⟩ := exists_of_any (hsign id (by simp))
  obtain ⟨g', hgen', hnum'⟩ := exists_of_any (hsign List.reverse (by simp))
  have hcommon : CommonArrivals Replica.putBackRun Replica.putBackRun := by
    intro k a a' ha ha'
    cases ha.symm.trans ha'
    exact List.Perm.refl _
  have hall : ∀ txs ∈ calls (saveAll r.called), txs ≠ [] ∧ txs.length ≤ mtAlMaxElems := by
    rw [hcalls]
    exact fun txs h => ⟨(hlen txs h).1, (hlen txs h).2.trans (by decide)⟩
  obtain ⟨-, hblocks⟩ := replica_chains_agree copyChaincode_twoFieldTables rfl
    (fun _ h => by cases h) (fun _ h => by cases h) Replica.putBackRun_arrivals
    Replica.putBackRun_arrivals hcommon hrun hrun
  refine ⟨r, g, g', hrun, hgen, hgen', ?_⟩
  exact hblocks _ _ _ _ {} {} true true _ _ g g' rfl rfl ⟨[], by rw [hcalls, List.append_nil]⟩
    ⟨[], by rw [hcalls, List.append_nil]⟩ hall hall hgen hgen' 1 (by omega) (by omega)

end Servers

end NeuChain.Server
