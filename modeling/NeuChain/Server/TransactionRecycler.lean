/-
  How `TransactionRecycler` frees the transactions.

  `getTransaction` enqueues every transaction it takes in `addingTxQueue`. After `generateBlock`,
  `epochFinishedCallback` calls `clearTransactionForEpoch` for each epoch up to
  `getLatestSavedEpoch`. This moves the queue into `transactionMap`, under the epochs that the
  transactions carry by then, deletes those under the epoch it is called for that still carry it,
  and moves the others, which have been retried, under the epoch they carry. Without
  `enableAsyncBlockGen` the callback waits for its block first; with it, a callback may clean
  several epochs or none.

  Below is the `Pipeline` with its block generator. `getTransaction` takes one transaction in a
  step, since the callback may dequeue it at once. What `clearTransactionForEpoch` does after its
  loop over the queue is one step: no other thread looks at the map, and no other thread changes an
  epoch. `deleted` records every `delete`.

  The stream ends before a transaction that does not pass the `CHECK` of `transferTransaction`.

  * `clearMap_eq`: what `clearTransactionForEpoch` leaves in the map, and what it deletes.
  * `transactions_freed_once`: nothing is deleted twice or before its block is saved, and what is
    left carries an epoch that has not been cleaned.
  * `run_of_getTransaction`: a call of `CommController::getTransaction` is a run of these steps.

  Left out: `reserve`, which only allocates.
-/
import NeuChain.Server.CommController
import NeuChain.Server.SteadyStream

namespace NeuChain.Server

open NeuChain Lib Merkle

/-! ## The recycler -/

/-- A `delete`. -/
structure Deletion where
  transaction : TxPtr
  /-- The epoch that is cleaned. -/
  epoch : Epoch
  /-- `getEpoch` of the transaction. -/
  carried : Epoch
  /-- What the storage has for the epoch. -/
  saved : Option Block
deriving DecidableEq, Repr

structure TransactionRecycler where
  pipeline : Pipeline
  /-- What `getTransaction` has taken and will return. -/
  trWrapper : List TxPtr := []
  addingTxQueue : List TxPtr := []
  /-- The vector of a key holds its entries, in this order. -/
  transactionMap : List (Epoch × TxPtr) := []
  /-- A member of `TransactionManagerImpl`. -/
  cleanedEpoch : Epoch
  /-- `clearTransactionForEpoch` is in its loop over the queue. -/
  clearing : Bool := false
  deleted : List Deletion := []

inductive RecyclerAction where
  | pipeline (a : PipelineAction)
  /-- `getTransaction` takes a transaction. -/
  | takeTransaction
  /-- It returns what it has taken. -/
  | getTransaction
  /-- The call for the next epoch begins. -/
  | clearTransactionForEpoch
  /-- `try_dequeue` returns the `i`-th element. -/
  | tryDequeue (i : Nat)
  /-- The queue is empty, and the call ends. -/
  | clearMap

namespace TransactionRecycler

/-- The loop over the vector of `epoch`. -/
def clearOne (getEpoch : TxPtr → Epoch) (epoch : Epoch)
    (s : List (Epoch × TxPtr) × List TxPtr) (tr : TxPtr) : List (Epoch × TxPtr) × List TxPtr :=
  if getEpoch tr = epoch then (s.1, s.2 ++ [tr])
  else (s.1 ++ [(getEpoch tr, tr)], s.2)

/-- The second part of `clearTransactionForEpoch`: the map that it leaves, and what it deletes. -/
def clearMap (getEpoch : TxPtr → Epoch) (epoch : Epoch) (transactionMap : List (Epoch × TxPtr)) :
    List (Epoch × TxPtr) × List TxPtr :=
  let previousEpochTransaction := (transactionMap.filter fun x => x.1 = epoch).map Prod.snd
  let s := previousEpochTransaction.foldl (clearOne getEpoch epoch) (transactionMap, [])
  (s.1.filter fun x => x.1 ≠ epoch, s.2)

def manager (r : TransactionRecycler) : TransactionManagerImpl := r.pipeline.manager

def storage (r : TransactionRecycler) : BlockStorageToFile := r.pipeline.blockGenerator.storage

def getEpoch (r : TransactionRecycler) (p : TxPtr) : Epoch := (r.manager.object p).epoch

/-- A `CHECK` has failed. -/
def crashed (r : TransactionRecycler) : Bool :=
  r.pipeline.crashed || r.pipeline.blockGenerator.crashed

/-- The wait of the synchronous mode is over. -/
def waited (enableAsyncBlockGen : Bool) (r : TransactionRecycler) : Bool :=
  enableAsyncBlockGen || r.manager.processingEpoch = r.storage.getLatestSavedEpoch

/-- What the steps of the pipeline depend on here: `getTransaction` returns by its own action, or a
    null pointer if it has taken nothing, and the callback ends when the cleaning is done. -/
def allows (enableAsyncBlockGen : Bool) (r : TransactionRecycler) : PipelineAction → Bool
  | .manager (.getTransaction _) => false
  | .manager .nextEpoch => r.trWrapper.isEmpty
  | .manager .finish => r.waited enableAsyncBlockGen && !r.clearing &&
      decide (r.storage.getLatestSavedEpoch ≤ r.cleanedEpoch)
  | _ => true

variable (sha : SHA256) (msg : Messages) (sign : Bytes → Bytes) (cfg : TrManagerConfig)
  (enableAsyncBlockGen : Bool)

def step (r : TransactionRecycler) : RecyclerAction → Option TransactionRecycler
  | .pipeline a =>
      if r.allows enableAsyncBlockGen a then
        (r.pipeline.step sha msg sign cfg a).map fun P => { r with pipeline := P }
      else none
  | .takeTransaction =>
      (r.manager.incoming[r.trWrapper.length]?).bind fun p =>
        if ¬ r.crashed ∧ r.manager.fetch = .fetching ∧ r.trWrapper.length < trMgrGetBatchMaxSize ∧
            r.getEpoch p = r.manager.currentEpoch then
          some { r with
            trWrapper := r.trWrapper ++ [p]
            addingTxQueue := r.addingTxQueue ++ [p] }
        else none
  | .getTransaction =>
      (r.pipeline.step sha msg sign cfg (.manager (.getTransaction r.trWrapper.length))).map
        fun P => { r with pipeline := P, trWrapper := [] }
  | .clearTransactionForEpoch =>
      if ¬ r.crashed ∧ r.manager.callback = .finishing ∧ r.waited enableAsyncBlockGen ∧
          ¬ r.clearing ∧ r.cleanedEpoch < r.storage.getLatestSavedEpoch then
        some { r with cleanedEpoch := r.cleanedEpoch + 1, clearing := true }
      else none
  | .tryDequeue i =>
      (r.addingTxQueue[i]?).bind fun tx =>
        if ¬ r.crashed ∧ r.clearing then
          some { r with
            addingTxQueue := r.addingTxQueue.eraseIdx i
            transactionMap := r.transactionMap ++ [(r.getEpoch tx, tx)] }
        else none
  | .clearMap =>
      if ¬ r.crashed ∧ r.clearing ∧ r.addingTxQueue = [] then
        let cleared := clearMap r.getEpoch r.cleanedEpoch r.transactionMap
        some { r with
          transactionMap := cleared.1
          clearing := false
          deleted := r.deleted ++ cleared.2.map fun tr =>
            { transaction := tr
              epoch := r.cleanedEpoch
              carried := r.getEpoch tr
              saved := r.storage.loadBlock r.cleanedEpoch } }
      else none

end TransactionRecycler

/-- The transactions up to the first that fails the `CHECK` of `transferTransaction`. -/
def CommController.passed {τ : Type} (getEpoch : τ → Epoch) : Epoch → List τ → List τ
  | _, [] => []
  | currentEpoch, t :: ts =>
      match ProxyState.transferOne getEpoch currentEpoch t with
      | some currentEpoch => t :: passed getEpoch currentEpoch ts
      | none => []

/-- `setBlockGenerator` has set both epochs. -/
def TransactionRecycler.start (stream : List Transaction) (storage : BlockStorageToFile)
    (resetEpoch : Bool) : TransactionRecycler :=
  { pipeline := Pipeline.start (CommController.passed Transaction.epoch 0 stream) storage resetEpoch
    cleanedEpoch := (storage.construct resetEpoch).getLatestSavedEpoch }

/-! ## The stream -/

namespace CommController

variable {τ : Type} {getEpoch : τ → Epoch}

theorem transferOne_spec {t : τ} {e e' : Epoch}
    (h : ProxyState.transferOne getEpoch e t = some e') : e ≤ getEpoch t ∧ e' = getEpoch t := by
  unfold ProxyState.transferOne at h
  by_cases hlt : getEpoch t > e
  · simp only [hlt, if_true] at h
    cases h
    exact ⟨Nat.le_of_lt hlt, rfl⟩
  · simp only [hlt, if_false] at h
    split_ifs at h with heq
    cases h
    exact ⟨Nat.le_of_eq heq.symm, heq.symm⟩

theorem passed_sorted (e : Epoch) (stream : List τ) :
    (∀ t ∈ passed getEpoch e stream, e ≤ getEpoch t) ∧
      (passed getEpoch e stream).Pairwise fun t u => getEpoch t ≤ getEpoch u := by
  induction stream generalizing e with
  | nil => exact ⟨by nofun, List.Pairwise.nil⟩
  | cons t ts ih =>
      unfold passed
      split
      · rename_i e' hpass
        obtain ⟨hle, rfl⟩ := transferOne_spec hpass
        obtain ⟨hlow, hsorted⟩ := ih (getEpoch t)
        refine ⟨fun u hu => ?_, List.pairwise_cons.mpr ⟨hlow, hsorted⟩⟩
        rcases List.mem_cons.mp hu with rfl | hu
        · exact hle
        · exact Nat.le_trans hle (hlow u hu)
      · exact ⟨by nofun, List.Pairwise.nil⟩

end CommController

/-! ## Saving blocks -/

namespace BlockGeneratorImpl

variable {sha : SHA256} {msg : Messages} {sign : Bytes → Bytes} {g g' : BlockGeneratorImpl}
  {first next : Nat} {b : BlockAction}

/-- A process that starts with the epoch `first` has asked for the blocks before `next`. Those up to
    `getLatestSavedEpoch` are in the files, and no later one is asked for. -/
structure Saving (first next : Nat) (g : BlockGeneratorImpl) : Prop where
  called : g.bodyEpoch.getD g.storage.getLatestSavedEpoch + 1 = next
  first_le : first ≤ g.storage.getLatestSavedEpoch + 1
  saved_lt : g.storage.getLatestSavedEpoch < next
  worker : ∀ t ∈ g.workers, t.1 < next
  buffered : ∀ e block, g.blockBuffer e = some block → e < next
  current : g.runState ≠ .updating → g.currentBlockEpoch = g.storage.getLatestSavedEpoch + 1
  updating : g.runState = .updating → g.currentBlockEpoch = g.storage.getLatestSavedEpoch
  inHand : ∀ block, g.runState = .inserting block →
    block.header.number = g.storage.getLatestSavedEpoch + 1 ∧
      g.storage.getLatestSavedEpoch + 1 < next
  files : ∀ e, first ≤ e → e ≤ g.storage.getLatestSavedEpoch →
    ∃ block, g.storage.blockFile e = some block ∧ block.header.number = e

theorem Saving.start (storage : BlockStorageToFile) (resetEpoch : Bool) :
    Saving ((storage.construct resetEpoch).getLatestSavedEpoch + 1)
      ((storage.construct resetEpoch).getLatestSavedEpoch + 1) (start storage resetEpoch) where
  called := rfl
  first_le := Nat.le_refl _
  saved_lt := Nat.lt_succ_self _
  worker := nofun
  buffered := nofun
  current _ := rfl
  updating := nofun
  inHand := nofun
  files _ hlow hhigh := absurd hhigh (Nat.not_le_of_lt hlow)

theorem Saving.generateBlock (h : Saving first next g) :
    Saving first (next + 1) g.generateBlock where
  called := congrArg (· + 1) h.called
  first_le := h.first_le
  saved_lt := Nat.lt_succ_of_lt h.saved_lt
  worker t ht := by
    rcases List.mem_append.mp ht with hold | hnew
    · exact Nat.lt_succ_of_lt (h.worker t hold)
    · rw [List.mem_singleton.mp hnew]
      exact h.called ▸ Nat.lt_succ_self _
  buffered e block hbuf := Nat.lt_succ_of_lt (h.buffered e block hbuf)
  current := h.current
  updating := h.updating
  inHand block hrun := ⟨(h.inHand block hrun).1, Nat.lt_succ_of_lt (h.inHand block hrun).2⟩
  files := h.files

theorem Saving.insert (h : Saving first next g) {block : Block}
    (hrun : g.runState = .inserting block) :
    Saving first next
      { g with storage := g.storage.insertBlock block, runState := .updating } := by
  obtain ⟨hnum, hlt⟩ := h.inHand block hrun
  have hlatest : (g.storage.insertBlock block).getLatestSavedEpoch =
      g.storage.getLatestSavedEpoch + 1 := hnum
  have hcurrent := h.current (by rw [hrun]; nofun)
  refine { h with
    called := ?_, first_le := ?_, saved_lt := ?_, current := ?_, updating := ?_, inHand := nofun,
    files := ?_ }
  · have hcalled := h.called
    dsimp only
    cases hbody : g.bodyEpoch with
    | none =>
        rw [hbody] at hcalled
        exact absurd hcalled (Nat.ne_of_lt hlt)
    | some e =>
        rw [hbody] at hcalled
        exact hcalled
  · dsimp only
    rw [hlatest]
    exact Nat.le_succ_of_le h.first_le
  · dsimp only
    rw [hlatest]
    exact hlt
  · exact fun hne => absurd rfl hne
  · intro _
    dsimp only
    rw [hlatest]
    exact hcurrent
  · intro e hlow hhigh
    dsimp only at hhigh ⊢
    rw [hlatest] at hhigh
    unfold BlockStorageToFile.insertBlock
    dsimp only
    by_cases he : e = block.header.number
    · subst he
      rw [Function.update_self]
      exact ⟨block, rfl, rfl⟩
    · rw [Function.update_of_ne he]
      have hne : e ≠ g.storage.getLatestSavedEpoch + 1 := fun heq => he (heq.trans hnum.symm)
      exact h.files e hlow (by omega)

/-- The steps of the pool and of the thread of `run`. -/
theorem Saving.background (h : Saving first next g) (hb : b.background = true)
    (hstep : g.step sha msg sign b = some g') :
    Saving first next g' ∧ g.storage.getLatestSavedEpoch ≤ g'.storage.getLatestSavedEpoch := by
  cases step_cases hstep with
  | add t => cases hb
  | call => cases hb
  | body hbody =>
      obtain ⟨epoch, queue, hget, ⟨-, rfl⟩ | ⟨block, -, rfl⟩⟩ := body_cases hbody
      · exact ⟨{ h with }, Nat.le_refl _⟩
      · have hlt := h.worker _ (List.mem_of_getElem? hget)
        refine ⟨{ h with worker := ?_, buffered := ?_ }, Nat.le_refl _⟩
        · exact fun t ht => h.worker t (List.mem_of_mem_eraseIdx ht)
        · intro e block' hbuf
          dsimp only at hbuf
          by_cases he : e = epoch
          · rw [he]
            exact hlt
          · rw [Function.update_of_ne he] at hbuf
            exact h.buffered e block' hbuf
  | header hcall =>
      obtain ⟨hwait, block, hbuf, ⟨-, rfl⟩ | ⟨block', hashResult, hheader, rfl⟩⟩ :=
        header_cases hcall
      · exact ⟨{ h with }, Nat.le_refl _⟩
      · have hcurrent := h.current fun hrun => by
          rw [hwait] at hrun
          cases hrun
        refine ⟨{ h with buffered := ?_, current := ?_, updating := ?_, inHand := ?_ },
          Nat.le_refl _⟩
        · intro e block'' hbuf'
          dsimp only at hbuf'
          by_cases he : e = g.currentBlockEpoch
          · rw [he, Function.update_self] at hbuf'
            cases hbuf'
          · rw [Function.update_of_ne he] at hbuf'
            exact h.buffered e block'' hbuf'
        · exact fun _ => hcurrent
        · intro hrun
          cases hrun
        · intro block'' hrun
          cases hrun
          exact ⟨(generateBlockHeader_spec hheader).1, hcurrent ▸ h.buffered _ _ hbuf⟩
  | @insert block hrun =>
      refine ⟨h.insert hrun, ?_⟩
      change g.storage.getLatestSavedEpoch ≤ block.header.number
      rw [(h.inHand block hrun).1]
      exact Nat.le_succ _
  | update hrun =>
      refine ⟨{ h with current := ?_, updating := ?_, inHand := ?_ }, Nat.le_refl _⟩
      · exact fun _ => congrArg (· + 1) (h.updating hrun)
      · intro hwait
        cases hwait
      · intro block hwait
        cases hwait

end BlockGeneratorImpl

/-! ## Epochs of transactions -/

namespace TransactionManagerImpl

variable {cfg : TrManagerConfig} {stream : List Transaction} {s d : Nat}
  {carried : Nat → List Nat} {m m' : TransactionManagerImpl} {a : ManagerAction}

theorem Inv.closed_eq (h : Inv cfg stream s d carried m) : m.closed = s + m.blocks.length := by
  have hlen := congrArg List.length h.numbers
  rw [List.length_map, List.length_range'] at hlen
  have hs : s ≤ m.closed := by
    have := h.start_le
    unfold closed
    split <;> omega
  omega

theorem Inv.closed_le (h : Inv cfg stream s d carried m) : m.closed ≤ m.currentEpoch := by
  unfold closed
  split
  · rename_i hcb
    exact (h.ahead (by rw [hcb]; nofun)).1
  · exact h.epoch_le

/-- What a step does to the epochs of transactions: a retried one gets the next epoch. -/
structure EpochsKept (stream : List Transaction) (m m' : TransactionManagerImpl) : Prop where
  object : ∀ p, (m'.object p).epoch = (m.object p).epoch ∨
    epochOf stream p ≤ m.processingEpoch ∧ (m'.object p).epoch = m.processingEpoch + 1
  processingEpoch : m.processingEpoch ≤ m'.processingEpoch

theorem EpochsKept.of_object (hobject : m'.object = m.object)
    (hle : m.processingEpoch ≤ m'.processingEpoch) : EpochsKept stream m m' :=
  ⟨fun p => Or.inl (by rw [hobject]), hle⟩

theorem Inv.epochs_tryDequeue (h : Inv cfg stream s d carried m) {i : Nat}
    (hstep : m.step cfg (.tryDequeue i) = some m') :
    EpochsKept stream m m' ∧ m'.incoming = m.incoming := by
  simp only [TransactionManagerImpl.step] at hstep
  split at hstep
  · rename_i w p hcb hget
    have hmem := List.mem_of_getElem? hget
    have hm' : (m.takeOut i p).categorize cfg w p = m' := Option.some.inj hstep
    rcases @categorize_cases cfg (m.takeOut i p) w p (h.final w hcb p hmem) with
      ⟨-, -, hcase⟩ | ⟨-, hcase⟩
    · rw [hcase] at hm'
      subst hm'
      refine ⟨⟨fun q => ?_, Nat.le_refl _⟩, rfl⟩
      dsimp only [takeOut]
      by_cases hq : q = p
      · right
        rw [hq, Function.update_self]
        exact ⟨(h.dequeued hcb hmem).epoch_le, rfl⟩
      · left
        rw [Function.update_of_ne hq]
    · rw [hcase] at hm'
      subst hm'
      exact ⟨EpochsKept.of_object rfl (Nat.le_refl _), rfl⟩
  · cases hstep

/-- Apart from the steps that fetch and generate, nothing else changes that matters here. -/
theorem Inv.epochs_step (h : Inv cfg stream s d carried m) (hstep : m.step cfg a = some m') :
    EpochsKept stream m m' ∧ ((∀ n, a ≠ .getTransaction n) → m'.incoming = m.incoming) := by
  cases a with
  | tryDequeue i =>
      obtain ⟨hkept, hincoming⟩ := h.epochs_tryDequeue hstep
      exact ⟨hkept, fun _ => hincoming⟩
  | execute p rwSet result =>
      simp only [TransactionManagerImpl.step] at hstep
      split_ifs at hstep
      cases hstep
      refine ⟨⟨fun q => Or.inl ?_, Nat.le_refl _⟩, fun _ => rfl⟩
      dsimp only
      by_cases hq : q = p
      · rw [hq, Function.update_self]
      · rw [Function.update_of_ne hq]
  | getTransaction n =>
      simp only [TransactionManagerImpl.step] at hstep
      split_ifs at hstep
      cases hstep
      exact ⟨EpochsKept.of_object rfl (Nat.le_refl _), fun hne => absurd rfl (hne n)⟩
  | finish =>
      simp only [TransactionManagerImpl.step] at hstep
      split_ifs at hstep
      cases hstep
      exact ⟨EpochsKept.of_object rfl (Nat.le_succ _), fun _ => rfl⟩
  | resume =>
      simp only [TransactionManagerImpl.step] at hstep
      split_ifs at hstep
      split at hstep
      all_goals
        cases hstep
        exact ⟨EpochsKept.of_object rfl (Nat.le_refl _), fun _ => rfl⟩
  | enqueue | sendTransaction | endOfQueue =>
      simp only [TransactionManagerImpl.step] at hstep
      split at hstep
      · cases hstep
        exact ⟨EpochsKept.of_object rfl (Nat.le_refl _), fun _ => rfl⟩
      · cases hstep
  | _ =>
      simp only [TransactionManagerImpl.step] at hstep
      split_ifs at hstep
      all_goals
        cases hstep
        exact ⟨EpochsKept.of_object rfl (Nat.le_refl _), fun _ => rfl⟩

/-- The block generator is called when a block is added. -/
theorem Inv.saving_step {g : BlockGeneratorImpl} {d' : Nat} {carried' : Nat → List Nat}
    (h : Inv cfg stream s d carried m) (h' : Inv cfg stream s d' carried' m')
    (hsaving : g.Saving s m.closed) (hstep : m.step cfg a = some m') :
    (m.callGenerator m' a g).Saving s m'.closed ∧
      (m.callGenerator m' a g).storage = g.storage := by
  rw [h'.closed_eq]
  rw [h.closed_eq] at hsaving
  by_cases hgenerate : a = .generateBlock
  · subst hgenerate
    simp only [TransactionManagerImpl.step] at hstep
    split_ifs at hstep
    cases hstep
    refine ⟨?_, rfl⟩
    dsimp only
    rw [List.length_append, List.length_singleton, ← Nat.add_assoc]
    exact hsaving.generateBlock
  · by_cases hdequeue : ∃ i, a = .tryDequeue i
    · obtain ⟨i, rfl⟩ := hdequeue
      rw [(committed_of_tryDequeue hstep).1]
      exact ⟨{ hsaving with }, rfl⟩
    · have hno : ∀ i, a ≠ .tryDequeue i := fun i hi => hdequeue ⟨i, hi⟩
      have hidle : m.callGenerator m' a g = g := by
        unfold callGenerator
        split
        · exact absurd rfl (hno _)
        · exact absurd rfl hgenerate
        · rfl
      rw [hidle, (committed_of_step hstep hno hgenerate).1]
      exact ⟨hsaving, rfl⟩

end TransactionManagerImpl

/-! ## One call of `clearTransactionForEpoch` -/

namespace TransactionRecycler

open TransactionManagerImpl (epochOf EpochsKept)

section

variable (getEpoch : TxPtr → Epoch) (epoch : Epoch) (transactionMap : List (Epoch × TxPtr))

theorem foldl_clearOne (l : List TxPtr) (s : List (Epoch × TxPtr) × List TxPtr) :
    l.foldl (clearOne getEpoch epoch) s =
      (s.1 ++ (l.filter fun tr => getEpoch tr ≠ epoch).map (fun tr => (getEpoch tr, tr)),
        s.2 ++ l.filter fun tr => getEpoch tr = epoch) := by
  induction l generalizing s with
  | nil => simp
  | cons tr l ih =>
      rw [List.foldl_cons, ih]
      unfold clearOne
      by_cases htr : getEpoch tr = epoch
      · simp [htr]
      · simp [htr]

/-- The entries of other epochs stay, and those under the epoch go by what they carry. -/
theorem clearMap_eq :
    clearMap getEpoch epoch transactionMap =
      let previous := (transactionMap.filter fun x => x.1 = epoch).map Prod.snd
      (transactionMap.filter (fun x => x.1 ≠ epoch) ++
          (previous.filter fun tr => getEpoch tr ≠ epoch).map fun tr => (getEpoch tr, tr),
        previous.filter fun tr => getEpoch tr = epoch) := by
  unfold clearMap
  dsimp only
  rw [foldl_clearOne, List.filter_append, List.nil_append]
  congr 2
  rw [List.filter_eq_self]
  intro x hx
  obtain ⟨tr, htr, rfl⟩ := List.mem_map.mp hx
  exact (List.mem_filter.mp htr).2

theorem clearMap_perm :
    ((clearMap getEpoch epoch transactionMap).1.map Prod.snd ++
      (clearMap getEpoch epoch transactionMap).2).Perm (transactionMap.map Prod.snd) := by
  rw [clearMap_eq]
  dsimp only
  set previous := (transactionMap.filter fun x => x.1 = epoch).map Prod.snd
  have hprevious : ((previous.filter fun tr => getEpoch tr ≠ epoch) ++
      previous.filter fun tr => getEpoch tr = epoch).Perm previous := by
    refine List.perm_append_comm.trans ?_
    simpa using List.filter_append_perm (fun tr => decide (getEpoch tr = epoch)) previous
  have hall : ((transactionMap.filter fun x => x.1 ≠ epoch).map Prod.snd ++ previous).Perm
      (transactionMap.map Prod.snd) := by
    refine List.perm_append_comm.trans ?_
    rw [← List.map_append]
    have hperm := List.filter_append_perm (fun x => decide (x.1 = epoch)) transactionMap
    simpa using hperm.map Prod.snd
  rw [List.map_append, List.map_map, List.append_assoc]
  refine (List.Perm.append_left _ ?_).trans hall
  simpa [Function.comp_def] using hprevious

variable {getEpoch epoch transactionMap}

theorem mem_clearMap {x : Epoch × TxPtr} (hx : x ∈ (clearMap getEpoch epoch transactionMap).1) :
    x ∈ transactionMap ∧ x.1 ≠ epoch ∨
      (epoch, x.2) ∈ transactionMap ∧ x.1 = getEpoch x.2 ∧ getEpoch x.2 ≠ epoch := by
  rw [clearMap_eq] at hx
  rcases List.mem_append.mp hx with hkept | hmoved
  · left
    obtain ⟨hmem, hne⟩ := List.mem_filter.mp hkept
    exact ⟨hmem, of_decide_eq_true hne⟩
  · right
    obtain ⟨tr, htr, rfl⟩ := List.mem_map.mp hmoved
    obtain ⟨hprev, hne⟩ := List.mem_filter.mp htr
    obtain ⟨y, hy, rfl⟩ := List.mem_map.mp hprev
    obtain ⟨hmem, heq⟩ := List.mem_filter.mp hy
    refine ⟨?_, rfl, of_decide_eq_true hne⟩
    rw [← of_decide_eq_true heq]
    exact hmem

theorem mem_cleared {tr : TxPtr} (htr : tr ∈ (clearMap getEpoch epoch transactionMap).2) :
    getEpoch tr = epoch := by
  rw [clearMap_eq] at htr
  exact of_decide_eq_true (List.mem_filter.mp htr).2

end

/-! ## Whole runs -/

variable {sha : SHA256} {msg : Messages} {sign : Bytes → Bytes} {cfg : TrManagerConfig}
  {enableAsyncBlockGen : Bool} {stream : List Transaction} {first : Nat}
  {r r' : TransactionRecycler}

/-- The first epoch that has not been cleaned. -/
def uncleaned (r : TransactionRecycler) : Epoch :=
  if r.clearing then r.cleanedEpoch else r.cleanedEpoch + 1

/-- Where the transactions are that the recycler has got. -/
def places (r : TransactionRecycler) : List TxPtr :=
  r.addingTxQueue ++ r.transactionMap.map Prod.snd ++ r.deleted.map Deletion.transaction

/-- How many of the stream it has got. -/
def enqueued (stream : List Transaction) (r : TransactionRecycler) : Nat :=
  stream.length - r.manager.incoming.length + r.trWrapper.length

structure Inv (cfg : TrManagerConfig) (stream : List Transaction) (first : Nat)
    (r : TransactionRecycler) : Prop where
  manager : ∃ d carried, TransactionManagerImpl.Inv cfg stream first d carried r.manager
  saving : r.pipeline.blockGenerator.Saving first r.manager.closed
  -- a transaction carries its first epoch, or one that it has been retried for
  carries : ∀ p, r.getEpoch p = epochOf stream p ∨ r.getEpoch p ≤ r.manager.processingEpoch + 1
  first_le : first ≤ r.uncleaned
  cleaned_le : r.cleanedEpoch ≤ r.storage.getLatestSavedEpoch
  -- every one is in one place
  place : r.places.Perm (List.range (r.enqueued stream))
  -- nothing in the recycler carries an epoch that has been cleaned
  queued : ∀ p ∈ r.addingTxQueue, r.uncleaned ≤ r.getEpoch p
  -- a key is the epoch that the transaction carried
  entry : ∀ x ∈ r.transactionMap, r.uncleaned ≤ x.1 ∧ x.1 ≤ r.getEpoch x.2
  deletion : ∀ x ∈ r.deleted, x.carried = x.epoch ∧
    ∃ block, x.saved = some block ∧ block.header.number = x.epoch

theorem Inv.start (cfg : TrManagerConfig) (stream : List Transaction) (storage : BlockStorageToFile)
    (resetEpoch : Bool) :
    Inv cfg (CommController.passed Transaction.epoch 0 stream)
      (Pipeline.startupEpoch storage resetEpoch) (start stream storage resetEpoch) where
  manager := ⟨0, _, TransactionManagerImpl.Inv.start cfg _ _⟩
  saving := BlockGeneratorImpl.Saving.start storage resetEpoch
  carries _ := Or.inl rfl
  first_le := Nat.le_refl _
  cleaned_le := Nat.le_refl _
  place := by
    have hzero : enqueued (CommController.passed Transaction.epoch 0 stream)
        (TransactionRecycler.start stream storage resetEpoch) = 0 := by
      change _ - (List.range _).length + 0 = 0
      rw [List.length_range, Nat.sub_self]
    rw [hzero]
    exact List.Perm.nil
  queued := nofun
  entry := nofun
  deletion := nofun

section

variable (h : Inv cfg stream first r)

include h

/-- `getTransaction` asks for an epoch that has not been cleaned. -/
theorem Inv.uncleaned_le : r.uncleaned ≤ r.manager.currentEpoch := by
  obtain ⟨d, carried, hm⟩ := h.manager
  have hclosed := hm.closed_le
  have hsaved := h.saving.saved_lt
  have hcleaned := h.cleaned_le
  refine Nat.le_trans ?_ hclosed
  unfold uncleaned
  split
  · exact Nat.le_of_lt (Nat.lt_of_le_of_lt hcleaned hsaved)
  · exact Nat.lt_of_le_of_lt hcleaned hsaved

/-- Below the recycler a step has been made, which may have ended a call of `getTransaction`. -/
theorem Inv.advance {P : Pipeline} {w : List TxPtr}
    (hmanager : ∃ d carried, TransactionManagerImpl.Inv cfg stream first d carried P.manager)
    (hkept : EpochsKept stream r.manager P.manager)
    (hsaving : P.blockGenerator.Saving first P.manager.closed)
    (hsaved : r.storage.getLatestSavedEpoch ≤ P.blockGenerator.storage.getLatestSavedEpoch)
    (hfetched : stream.length - P.manager.incoming.length + w.length = r.enqueued stream) :
    Inv cfg stream first { r with pipeline := P, trWrapper := w } := by
  have hmono : ∀ p, r.getEpoch p ≤ (P.manager.object p).epoch := by
    intro p
    rcases hkept.object p with hsame | ⟨hle, hnext⟩
    · exact Nat.le_of_eq hsame.symm
    · rw [hnext]
      rcases h.carries p with hfirst | hretried
      · rw [hfirst]
        exact Nat.le_succ_of_le hle
      · exact hretried
  refine { h with
    manager := hmanager, saving := hsaving, carries := ?_, cleaned_le := ?_, place := ?_,
    queued := ?_, entry := ?_ }
  · intro p
    have hepoch := Nat.succ_le_succ hkept.processingEpoch
    rcases hkept.object p with hsame | ⟨-, hnext⟩
    · rcases h.carries p with hfirst | hretried
      · exact Or.inl (hsame.trans hfirst)
      · exact Or.inr (Nat.le_trans (Nat.le_of_eq hsame) (Nat.le_trans hretried hepoch))
    · exact Or.inr (Nat.le_trans (Nat.le_of_eq hnext) hepoch)
  · exact Nat.le_trans h.cleaned_le hsaved
  · change r.places.Perm (List.range (stream.length - P.manager.incoming.length + w.length))
    rw [hfetched]
    exact h.place
  · exact fun p hp => Nat.le_trans (h.queued p hp) (hmono p)
  · exact fun x hx => ⟨(h.entry x hx).1, Nat.le_trans (h.entry x hx).2 (hmono x.2)⟩

theorem Inv.managed (hsorted : stream.Pairwise fun t u => t.epoch ≤ u.epoch) {a : ManagerAction}
    {m : TransactionManagerImpl} (hstep : r.manager.step cfg a = some m) {w : List TxPtr}
    (hfetched : stream.length - m.incoming.length + w.length = r.enqueued stream)
    (adapter : WorkloadSizeAdapter) :
    Inv cfg stream first { r with
      pipeline := { r.pipeline with
        manager := m
        workloadSizeAdapter := adapter
        blockGenerator := r.manager.callGenerator m a r.pipeline.blockGenerator }
      trWrapper := w } := by
  obtain ⟨d, carried, hm⟩ := h.manager
  obtain ⟨d', carried', hm'⟩ := hm.step hsorted hstep
  obtain ⟨hsaving, hstorage⟩ := hm.saving_step hm' h.saving hstep
  refine h.advance ⟨d', carried', hm'⟩ (hm.epochs_step hstep).1 hsaving ?_ hfetched
  rw [hstorage]
  exact Nat.le_refl _

theorem Inv.pipeline_step (hsorted : stream.Pairwise fun t u => t.epoch ≤ u.epoch)
    {a : PipelineAction} {P : Pipeline} (hfetch : ∀ n, a ≠ .manager (.getTransaction n))
    (hstep : r.pipeline.step sha msg sign cfg a = some P) :
    Inv cfg stream first { r with pipeline := P } := by
  obtain ⟨d, carried, hm⟩ := h.manager
  cases a with
  | manager a =>
      obtain ⟨m, hm', ⟨-, rfl⟩ | ⟨adapter, -, rfl⟩⟩ := Pipeline.manager_step_cases hstep
      · exact { h with }
      · refine h.managed hsorted hm' ?_ adapter
        rw [(hm.epochs_step hm').2 fun n hn => hfetch n (congrArg _ hn)]
        rfl
  | background b =>
      obtain ⟨hb, g, hg, rfl⟩ := Pipeline.background_step_cases hstep
      obtain ⟨hsaving, hle⟩ := h.saving.background hb hg
      exact h.advance h.manager (EpochsKept.of_object rfl (Nat.le_refl _)) hsaving hle rfl

theorem Inv.takeTransaction
    (hstep : step sha msg sign cfg enableAsyncBlockGen r .takeTransaction = some r') :
    Inv cfg stream first r' := by
  obtain ⟨p, hget, hs⟩ := Option.bind_eq_some_iff.mp hstep
  obtain ⟨⟨-, -, -, hepoch⟩, hr'⟩ := Option.ite_none_right_eq_some.mp hs
  cases hr'
  obtain ⟨d, carried, hm⟩ := h.manager
  -- it is the next one of the stream
  have hcount : d + r.trWrapper.length = r.enqueued stream := by
    have hd := hm.delivered
    unfold enqueued
    rw [hm.incoming, List.length_range']
    omega
  have hp : r.enqueued stream = p := by
    rw [hm.incoming] at hget
    obtain ⟨_, heq⟩ := List.getElem?_eq_some_iff.mp hget
    rw [List.getElem_range', Nat.one_mul] at heq
    exact hcount.symm.trans heq
  refine { h with place := ?_, queued := ?_ }
  · change (r.addingTxQueue ++ [p] ++ _ ++ _).Perm
      (List.range (stream.length - _ + (r.trWrapper ++ [p]).length))
    rw [List.length_append, List.length_singleton, ← Nat.add_assoc, List.range_succ]
    have hlast := h.place.append_right [p]
    nth_rewrite 2 [← hp] at hlast
    refine List.Perm.trans ?_ hlast
    have hmove : ([p] ++ (r.transactionMap.map Prod.snd ++ r.deleted.map Deletion.transaction)).Perm
        (r.transactionMap.map Prod.snd ++ r.deleted.map Deletion.transaction ++ [p]) :=
      List.perm_append_comm
    simpa only [places, List.append_assoc] using hmove.append_left r.addingTxQueue
  · intro q hq
    rcases List.mem_append.mp hq with hold | hnew
    · exact h.queued q hold
    · rw [List.mem_singleton.mp hnew]
      exact Nat.le_trans h.uncleaned_le (Nat.le_of_eq hepoch.symm)

theorem Inv.getTransaction (hsorted : stream.Pairwise fun t u => t.epoch ≤ u.epoch)
    (hstep : step sha msg sign cfg enableAsyncBlockGen r .getTransaction = some r') :
    Inv cfg stream first r' := by
  obtain ⟨P, hP, rfl⟩ := Option.map_eq_some_iff.mp hstep
  obtain ⟨m, hm, ⟨hnone, -⟩ | ⟨adapter, -, rfl⟩⟩ := Pipeline.manager_step_cases hP
  · cases hnone
  · refine h.managed hsorted hm ?_ adapter
    obtain ⟨d, carried, hinv⟩ := h.manager
    have hd := hinv.delivered
    have hlen : r.manager.incoming.length = stream.length - d := by
      rw [hinv.incoming, List.length_range']
    obtain ⟨⟨-, -, -, hle, -⟩, hm'⟩ := Option.ite_none_right_eq_some.mp hm
    cases hm'
    have hle : r.trWrapper.length ≤ r.manager.incoming.length := hle
    change stream.length - (r.manager.incoming.drop r.trWrapper.length).length + 0 = _
    unfold enqueued
    rw [List.length_drop]
    omega

theorem Inv.clearTransactionForEpoch
    (hstep : step sha msg sign cfg enableAsyncBlockGen r .clearTransactionForEpoch = some r') :
    Inv cfg stream first r' := by
  obtain ⟨⟨-, -, -, hidle, hlt⟩, hr'⟩ := Option.ite_none_right_eq_some.mp hstep
  cases hr'
  have hsame : uncleaned { r with cleanedEpoch := r.cleanedEpoch + 1, clearing := true } =
      r.uncleaned := by
    unfold uncleaned
    rw [if_neg hidle]
    rfl
  refine { h with first_le := ?_, cleaned_le := hlt, queued := ?_, entry := ?_ }
  · rw [hsame]
    exact h.first_le
  · rw [hsame]
    exact h.queued
  · rw [hsame]
    exact h.entry

theorem Inv.tryDequeue {i : Nat}
    (hstep : step sha msg sign cfg enableAsyncBlockGen r (.tryDequeue i) = some r') :
    Inv cfg stream first r' := by
  obtain ⟨tx, hget, hs⟩ := Option.bind_eq_some_iff.mp hstep
  obtain ⟨-, hr'⟩ := Option.ite_none_right_eq_some.mp hs
  cases hr'
  refine { h with place := ?_, queued := ?_, entry := ?_ }
  · refine List.Perm.trans ?_ h.place
    obtain ⟨hlt, rfl⟩ := List.getElem?_eq_some_iff.mp hget
    have herase := List.getElem_cons_eraseIdx_perm hlt
    refine List.Perm.append_right _ ?_
    dsimp only
    rw [List.map_append, ← List.append_assoc]
    exact (List.perm_append_singleton _ _).trans (herase.append_right _)
  · exact fun p hp => h.queued p (List.mem_of_mem_eraseIdx hp)
  · intro x hx
    rcases List.mem_append.mp hx with hold | hnew
    · exact h.entry x hold
    · rw [List.mem_singleton.mp hnew]
      exact ⟨h.queued tx (List.mem_of_getElem? hget), Nat.le_refl _⟩

theorem Inv.clearMap (hstep : step sha msg sign cfg enableAsyncBlockGen r .clearMap = some r') :
    Inv cfg stream first r' := by
  obtain ⟨⟨-, hclearing, hempty⟩, hr'⟩ := Option.ite_none_right_eq_some.mp hstep
  cases hr'
  have hlow : r.uncleaned = r.cleanedEpoch := if_pos hclearing
  refine { h with first_le := ?_, place := ?_, queued := ?_, entry := ?_, deletion := ?_ }
  · exact Nat.le_succ_of_le (hlow ▸ h.first_le)
  · refine List.Perm.trans ?_ h.place
    have hperm := clearMap_perm r.getEpoch r.cleanedEpoch r.transactionMap
    unfold places
    dsimp only
    rw [hempty, List.map_append, List.map_map, List.nil_append, List.nil_append]
    refine List.Perm.trans ?_ (hperm.append_right _)
    rw [List.append_assoc]
    refine List.Perm.append_left _ (List.perm_append_comm.trans (List.Perm.append_right _ ?_))
    simp [Function.comp_def]
  · rw [hempty]
    nofun
  · intro x hx
    change r.cleanedEpoch + 1 ≤ x.1 ∧ _
    rcases mem_clearMap hx with ⟨hmem, hne⟩ | ⟨hmem, hkey, hne⟩
    · obtain ⟨hle, hcarries⟩ := h.entry x hmem
      rw [hlow] at hle
      exact ⟨Nat.lt_of_le_of_ne hle (Ne.symm hne), hcarries⟩
    · have hle := (h.entry _ hmem).2
      rw [hkey]
      exact ⟨Nat.lt_of_le_of_ne hle (Ne.symm hne), Nat.le_refl _⟩
  · intro x hx
    rcases List.mem_append.mp hx with hold | hnew
    · exact h.deletion x hold
    · obtain ⟨tr, htr, rfl⟩ := List.mem_map.mp hnew
      refine ⟨mem_cleared htr, ?_⟩
      obtain ⟨block, hfile, hnum⟩ := h.saving.files r.cleanedEpoch (hlow ▸ h.first_le) h.cleaned_le
      refine ⟨block, ?_, hnum⟩
      exact (if_neg (Nat.not_lt_of_le h.cleaned_le)).trans hfile

theorem Inv.step (hsorted : stream.Pairwise fun t u => t.epoch ≤ u.epoch) {a : RecyclerAction}
    (hstep : step sha msg sign cfg enableAsyncBlockGen r a = some r') :
    Inv cfg stream first r' := by
  cases a with
  | pipeline a =>
      obtain ⟨hallows, hs⟩ := Option.ite_none_right_eq_some.mp hstep
      obtain ⟨P, hP, rfl⟩ := Option.map_eq_some_iff.mp hs
      refine h.pipeline_step hsorted (fun n hn => ?_) hP
      rw [hn] at hallows
      cases hallows
  | takeTransaction => exact h.takeTransaction hstep
  | getTransaction => exact h.getTransaction hsorted hstep
  | clearTransactionForEpoch => exact h.clearTransactionForEpoch hstep
  | tryDequeue i => exact h.tryDequeue hstep
  | clearMap => exact h.clearMap hstep

end

/-- In every run, what has been fetched is in the queue, in the map or deleted, once. A transaction
    is deleted while the epoch that it carries is cleaned, and the block of this epoch is in the
    files by then. What is in the queue or the map carries an epoch that has not been cleaned. -/
theorem transactions_freed_once {storage : BlockStorageToFile} {resetEpoch : Bool}
    {actions : List RecyclerAction}
    (hrun : run (step sha msg sign cfg enableAsyncBlockGen) (start stream storage resetEpoch)
      actions = some r) :
    r.places.Perm
      (List.range (r.enqueued (CommController.passed Transaction.epoch 0 stream))) ∧
    (r.deleted.map Deletion.transaction).Nodup ∧
    (∀ x ∈ r.deleted, x.carried = x.epoch ∧
      ∃ block, x.saved = some block ∧ block.header.number = x.epoch) ∧
    ∀ p ∈ r.addingTxQueue ++ r.transactionMap.map Prod.snd,
      p ∉ r.deleted.map Deletion.transaction ∧ r.uncleaned ≤ r.getEpoch p := by
  have hsorted : (CommController.passed Transaction.epoch 0 stream).Pairwise
      fun t u => t.epoch ≤ u.epoch := (CommController.passed_sorted 0 stream).2
  have h := run_invariant (Inv cfg (CommController.passed Transaction.epoch 0 stream)
    (Pipeline.startupEpoch storage resetEpoch)) (fun _ _ _ hi hs => hi.step hsorted hs) hrun
    (Inv.start cfg stream storage resetEpoch)
  have hnodup : r.places.Nodup := h.place.nodup_iff.mpr List.nodup_range
  obtain ⟨-, hdeleted, hdisjoint⟩ := List.nodup_append.mp hnodup
  refine ⟨h.place, hdeleted, h.deletion, fun p hp => ⟨fun hdel => ?_, ?_⟩⟩
  · exact hdisjoint p hp p hdel rfl
  · rcases List.mem_append.mp hp with hqueue | hmap
    · exact h.queued p hqueue
    · obtain ⟨x, hx, rfl⟩ := List.mem_map.mp hmap
      obtain ⟨hle, hcarries⟩ := h.entry x hx
      exact Nat.le_trans hle hcarries

/-- One transaction of the first epoch, two of the second and one of the third. -/
def fourTransactions : List Transaction :=
  [{ epoch := 1 }, { epoch := 2 }, { epoch := 2 }, { epoch := 3 }]

/-- Fetching and sending `n` transactions. -/
def fetchAndSend (n : Nat) : List RecyclerAction :=
  List.replicate n RecyclerAction.takeTransaction ++ ([.getTransaction] : List RecyclerAction) ++
    List.replicate n (RecyclerAction.pipeline (.manager .enqueue)) ++
    ([.pipeline (.manager .sendTransaction)] : List RecyclerAction)

/-- The callback up to `generateBlock`, with `n` transactions. -/
def finishEpoch (n : Nat) : List RecyclerAction :=
  (([.epochFinishedCallback] : List ManagerAction) ++
    List.replicate n (ManagerAction.tryDequeue 0) ++
    ([.endOfQueue, .generateBlock] : List ManagerAction)).map fun a => .pipeline (.manager a)

/-- The block is saved, and its epoch cleaned with `n` transactions in the queue. -/
def saveAndClean (n : Nat) : List RecyclerAction :=
  (([.generateBlockBody 0, .generateBlockHeader, .insertBlock, .updateLatestSavedEpoch] :
    List BlockAction).map fun a => .pipeline (.background a)) ++
  ([.clearTransactionForEpoch] : List RecyclerAction) ++
  List.replicate n (RecyclerAction.tryDequeue 0) ++ ([.clearMap] : List RecyclerAction)

/-- The transaction 1 is under the second epoch when it is aborted there. -/
def retryInMap : List RecyclerAction :=
  fetchAndSend 1 ++
    ([.pipeline (.manager .nextEpoch), .pipeline (.manager .resume)] : List RecyclerAction) ++
    fetchAndSend 2 ++
    ([.pipeline (.manager (.execute 0 {} .commit))] : List RecyclerAction) ++
    finishEpoch 1 ++ saveAndClean 3 ++
    ([.pipeline (.manager .finish), .pipeline (.manager .nextEpoch),
      .pipeline (.manager .resume)] : List RecyclerAction) ++
    fetchAndSend 1 ++
    ([.pipeline (.manager (.execute 1 {} .abort)),
      .pipeline (.manager (.execute 2 {} .commit))] : List RecyclerAction) ++
    finishEpoch 2 ++ saveAndClean 1

theorem transactions_freed_retry :
    ∃ r, run (step BlockGeneratorImpl.zeroSHA256 BlockGeneratorImpl.emptyMessages id ⟨true, true⟩
        true) (start fourTransactions {} true) retryInMap = some r ∧
      r.deleted.map Deletion.transaction = [0, 2] ∧ r.transactionMap = [(3, 3), (3, 1)] ∧
      ∀ p ∈ r.addingTxQueue ++ r.transactionMap.map Prod.snd, r.uncleaned ≤ r.getEpoch p := by
  have hany : (run (step BlockGeneratorImpl.zeroSHA256 BlockGeneratorImpl.emptyMessages id
      ⟨true, true⟩ true) (start fourTransactions {} true) retryInMap).any (fun r =>
        r.deleted.map Deletion.transaction = [0, 2] ∧ r.transactionMap = [(3, 3), (3, 1)]) =
          true := by
    decide +kernel
  obtain ⟨r, hr, hdeleted, hmap⟩ := exists_of_any hany
  exact ⟨r, hr, hdeleted, hmap, fun p hp => ((transactions_freed_once hr).2.2.2 p hp).2⟩

/-! ## The calls of `getTransaction` -/

open CommController (Fed Taken)

/-- What is left of the stream is in the order of epochs. -/
theorem Inv.fed (h : Inv cfg stream first r)
    (hsorted : stream.Pairwise fun t u => t.epoch ≤ u.epoch) {c : CommController TxPtr}
    (hrest : c.rest = r.manager.incoming)
    (hcurrent : ∀ p ∈ c.broadcastTransactions, c.currentEpoch ≤ r.getEpoch p) :
    Fed r.getEpoch c := by
  obtain ⟨d, carried, hm⟩ := h.manager
  refine ⟨?_, hcurrent⟩
  rw [hrest, hm.incoming]
  refine List.Pairwise.imp_of_mem ?_ List.pairwise_lt_range'
  intro p q hp hq hlt
  rw [List.mem_range'_1] at hp hq
  have hd := hm.delivered
  unfold getEpoch
  rw [hm.original p hp.1, hm.original q hq.1]
  exact Pipeline.epochOf_mono hsorted (Nat.le_of_lt hlt) (by omega)

theorem run_takeTransaction (l : List TxPtr) (halive : ¬ r.crashed)
    (hfetch : r.manager.fetch = .fetching)
    (hnext : l <+: r.manager.incoming.drop r.trWrapper.length)
    (hepoch : ∀ p ∈ l, r.getEpoch p = r.manager.currentEpoch)
    (hroom : r.trWrapper.length + l.length ≤ trMgrGetBatchMaxSize) :
    run (step sha msg sign cfg enableAsyncBlockGen) r
        (List.replicate l.length .takeTransaction) =
      some { r with trWrapper := r.trWrapper ++ l, addingTxQueue := r.addingTxQueue ++ l } := by
  induction l generalizing r with
  | nil =>
      rw [List.append_nil, List.append_nil]
      rfl
  | cons p l ih =>
      obtain ⟨rest, hrest⟩ := hnext
      have hget : r.manager.incoming[r.trWrapper.length]? = some p := by
        rw [← Nat.add_zero r.trWrapper.length, ← List.getElem?_drop, ← hrest]
        rfl
      rw [List.length_cons] at hroom
      have hstep : step sha msg sign cfg enableAsyncBlockGen r .takeTransaction =
          some { r with
            trWrapper := r.trWrapper ++ [p], addingTxQueue := r.addingTxQueue ++ [p] } := by
        simp only [TransactionRecycler.step]
        rw [hget, Option.bind_some, if_pos]
        exact ⟨halive, hfetch, by omega, hepoch p List.mem_cons_self⟩
      rw [List.length_cons, List.replicate_succ]
      unfold run
      rw [hstep, Option.bind_some]
      have hdrop : l <+: r.manager.incoming.drop (r.trWrapper ++ [p]).length := by
        refine ⟨rest, ?_⟩
        rw [List.length_append, List.length_singleton, ← List.drop_drop, ← hrest]
        rfl
      have hrun := ih (r := { r with
        trWrapper := r.trWrapper ++ [p], addingTxQueue := r.addingTxQueue ++ [p] }) halive hfetch
        hdrop (fun q hq => hepoch q (List.mem_cons_of_mem p hq))
        (by rw [List.length_append, List.length_singleton]; omega)
      rw [hrun]
      dsimp only
      rw [List.append_assoc, List.append_assoc]
      rfl

theorem not_crashed_of_alive (halive : ¬ r.crashed) :
    ¬ (r.pipeline.crashed = true ∨ r.pipeline.blockGenerator.crashed = true) := by
  simpa [crashed] using halive

theorem step_getTransaction {rest : List TxPtr} (halive : ¬ r.crashed)
    (hfetch : r.manager.fetch = .fetching) (hnext : r.manager.incoming = r.trWrapper ++ rest)
    (hepoch : ∀ p ∈ r.trWrapper, r.getEpoch p = r.manager.currentEpoch) (hne : r.trWrapper ≠ [])
    (hroom : r.trWrapper.length ≤ trMgrGetBatchMaxSize) :
    step sha msg sign cfg enableAsyncBlockGen r .getTransaction = some { r with
      pipeline := { r.pipeline with
        manager := { r.manager with
          incoming := rest, fetch := .adding r.trWrapper r.trWrapper } }
      trWrapper := [] } := by
  have hmanager : r.pipeline.manager.step cfg (.getTransaction r.trWrapper.length) =
      some { r.manager with
        incoming := rest, fetch := .adding r.trWrapper r.trWrapper } := by
    have hnext : r.pipeline.manager.incoming = r.trWrapper ++ rest := hnext
    simp only [TransactionManagerImpl.step]
    rw [hnext, List.take_left, List.drop_left, if_pos]
    · rfl
    · refine ⟨hfetch, List.length_pos_of_ne_nil hne, hroom, ?_, ?_⟩
      · rw [List.length_append]
        exact Nat.le_add_right _ _
      · exact List.all_eq_true.mpr fun p hp => decide_eq_true (hepoch p hp)
  simp only [TransactionRecycler.step, Pipeline.step]
  rw [if_neg (not_crashed_of_alive halive), hmanager]
  rfl

/-- A list that `CommController::getTransaction` returns is taken and returned here. -/
theorem run_of_getTransaction {c c' : CommController TxPtr} {arrivals : Nat → Nat} {minSize : Nat}
    {l : List TxPtr} (halive : ¬ r.crashed) (hfetch : r.manager.fetch = .fetching)
    (hnone : r.trWrapper = []) (hfed : Fed r.getEpoch c) (hrest : c.rest = r.manager.incoming)
    (hget : c.getTransaction r.getEpoch arrivals r.manager.currentEpoch trMgrGetBatchMaxSize
      minSize = .ok (some l, c')) :
    c'.addingTxQueue = c.addingTxQueue ++ l ∧
    run (step sha msg sign cfg enableAsyncBlockGen) r
        (List.replicate l.length .takeTransaction ++ ([.getTransaction] : List RecyclerAction)) =
      some { r with
        pipeline := { r.pipeline with
          manager := { r.manager with incoming := c'.rest, fetch := .adding l l } }
        trWrapper := []
        addingTxQueue := r.addingTxQueue ++ l } := by
  rcases CommController.getTransaction_cases arrivals r.manager.currentEpoch minSize
    (show 0 < trMgrGetBatchMaxSize by decide) hfed with
    ⟨l', c'', hcall, htaken, hlen, hne⟩ | ⟨t, c'', hcall, -⟩ | ⟨hcall, -⟩
  · rw [hget] at hcall
    cases hcall
    have hincoming : r.manager.incoming = l ++ c'.rest := hrest ▸ htaken.rest
    refine ⟨htaken.addingTxQueue, run_append_eq_some.mpr ⟨_, run_takeTransaction l halive hfetch
      ?_ htaken.epoch ?_, ?_⟩⟩
    · rw [hnone, hincoming]
      exact List.prefix_append _ _
    · rw [hnone, List.length_nil, Nat.zero_add]
      exact hlen
    · rw [hnone, List.nil_append]
      exact run_cons_eq_some.mpr
        ⟨_, step_getTransaction halive hfetch hincoming htaken.epoch hne hlen, rfl⟩
  · rw [hget] at hcall
    cases hcall
  · rw [hget] at hcall
    cases hcall

/-- With a null pointer the step to the next epoch can be made. -/
theorem nextEpoch_of_getTransaction {c c' : CommController TxPtr} {arrivals : Nat → Nat}
    {minSize : Nat} (halive : ¬ r.crashed) (hfetch : r.manager.fetch = .fetching)
    (hnone : r.trWrapper = []) (hfed : Fed r.getEpoch c) (hrest : c.rest = r.manager.incoming)
    (hget : c.getTransaction r.getEpoch arrivals r.manager.currentEpoch trMgrGetBatchMaxSize
      minSize = .ok (none, c')) :
    c'.addingTxQueue = c.addingTxQueue ∧ c'.rest = r.manager.incoming ∧
    (step sha msg sign cfg enableAsyncBlockGen r (.pipeline (.manager .nextEpoch))).isSome := by
  rcases CommController.getTransaction_cases arrivals r.manager.currentEpoch minSize
    (show 0 < trMgrGetBatchMaxSize by decide) hfed with
    ⟨l, c'', hcall, -⟩ | ⟨p, c'', hcall, htaken, hhead, hepoch⟩ | ⟨hcall, -⟩
  · rw [hget] at hcall
    cases hcall
  · rw [hget] at hcall
    cases hcall
    refine ⟨?_, ?_, ?_⟩
    · rw [htaken.addingTxQueue, List.append_nil]
    · rw [← hrest, htaken.rest, List.nil_append]
    · have hhead : r.pipeline.manager.incoming.head? = some p := hrest ▸ hhead
      have hmanager : (r.pipeline.manager.step cfg .nextEpoch).isSome := by
        simp only [TransactionManagerImpl.step]
        rw [hhead, if_pos ⟨hfetch, decide_eq_true hepoch⟩]
        rfl
      obtain ⟨m', hm'⟩ := Option.isSome_iff_exists.mp hmanager
      simp only [TransactionRecycler.step, Pipeline.step]
      rw [if_pos (by simp only [allows, hnone, List.isEmpty_nil]),
        if_neg (not_crashed_of_alive halive), hm']
      rfl
  · rw [hget] at hcall
    cases hcall

end TransactionRecycler

end NeuChain.Server
