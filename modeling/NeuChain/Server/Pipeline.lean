/-
  The way of a transaction through one process: `TransactionManagerImpl`, `addTransaction` of the
  coordinator with its `WorkloadSizeAdapter`, and the block generator.

  The adapter keeps the last epoch it was told of, starting with 1, and has a `CHECK` that the next
  one follows it. The block generator reads the Merkle root of every block. So both stop the
  process when an epoch has no transaction, and the adapter also when the process starts in a later epoch.

  `AdapterInv` says where the adapter is: at the last epoch of which something was sent, and not
  before any epoch that the thread of `run` has left. `Called` says that the block generator has been
  called for every finished epoch.

  Left out: the sizes of workloads that the adapter computes.
-/
import NeuChain.Server.HashChain
import NeuChain.Server.OneBlock

namespace NeuChain.Server

open NeuChain Lib Merkle

/-! ## The process -/

structure WorkloadSizeAdapter where
  cacheEpoch : Nat := 1
  cacheCountList : List Nat := List.replicate 5 3000
deriving DecidableEq, Repr

/-- `none` where the `CHECK` fails. -/
def WorkloadSizeAdapter.setLastEpochTxCount (adapter : WorkloadSizeAdapter) (epoch count : Nat) :
    Option WorkloadSizeAdapter :=
  let i := epoch % 5
  if adapter.cacheEpoch = epoch then
    some { adapter with
      cacheCountList := adapter.cacheCountList.set i (adapter.cacheCountList.getD i 0 + count) }
  else if adapter.cacheEpoch + 1 = epoch then
    some { cacheEpoch := epoch, cacheCountList := adapter.cacheCountList.set i count }
  else none

/-- `addTransaction` of the coordinator, up to its queue. -/
def WorkloadSizeAdapter.addTransaction (adapter : WorkloadSizeAdapter)
    (object : TxPtr → Transaction) (trWrapper : List TxPtr) : Option WorkloadSizeAdapter :=
  match trWrapper with
  | [] => some adapter
  | p :: _ => adapter.setLastEpochTxCount (object p).epoch trWrapper.length

structure Pipeline where
  manager : TransactionManagerImpl
  workloadSizeAdapter : WorkloadSizeAdapter := {}
  blockGenerator : BlockGeneratorImpl
  /-- The `CHECK` of the adapter has failed. -/
  crashed : Bool := false

inductive PipelineAction where
  | manager (a : ManagerAction)
  /-- A step of the pool or the header thread of the block generator. -/
  | background (a : BlockAction)

namespace TransactionManagerImpl

/-- What this step gives to `sendTransactionHandle`. -/
def handled (m : TransactionManagerImpl) : ManagerAction → List TxPtr
  | .sendTransaction => m.unsent
  | .resume => m.reuseTxWrapper.getD []
  | _ => []

/-- What the step from `m` to `m'` calls in the block generator. -/
def callGenerator (m m' : TransactionManagerImpl) (a : ManagerAction) (g : BlockGeneratorImpl) :
    BlockGeneratorImpl :=
  match a with
  | .tryDequeue _ =>
      { g with
        pendingTransactionQueue := ((m'.committed.drop m.committed.length).map m'.object).foldl
          addCommittedTransaction g.pendingTransactionQueue }
  | .generateBlock => g.generateBlock
  | _ => g

end TransactionManagerImpl

namespace Pipeline

variable (sha : SHA256) (msg : Messages) (sign : Bytes → Bytes) (cfg : TrManagerConfig)

def step (P : Pipeline) : PipelineAction → Option Pipeline
  | .manager a =>
      if P.crashed ∨ P.blockGenerator.crashed then none
      else
        (P.manager.step cfg a).map fun m =>
          match P.workloadSizeAdapter.addTransaction P.manager.object (P.manager.handled a) with
          | none => { P with crashed := true }
          | some adapter =>
              { P with
                manager := m
                workloadSizeAdapter := adapter
                blockGenerator := P.manager.callGenerator m a P.blockGenerator }
  | .background a =>
      if P.crashed ∨ !a.background then none
      else (P.blockGenerator.step sha msg sign a).map fun g => { P with blockGenerator := g }

/-- A process starts after the last block in the files. -/
def startupEpoch (storage : BlockStorageToFile) (resetEpoch : Bool) : Nat :=
  (storage.construct resetEpoch).getLatestSavedEpoch + 1

def start (stream : List Transaction) (storage : BlockStorageToFile) (resetEpoch : Bool) :
    Pipeline :=
  { manager := TransactionManagerImpl.start stream (startupEpoch storage resetEpoch)
    blockGenerator := BlockGeneratorImpl.start storage resetEpoch }

end Pipeline

/-! ## The adapter -/

theorem setLastEpochTxCount_eq_some {adapter : WorkloadSizeAdapter} {epoch : Nat} (count : Nat)
    (hle : adapter.cacheEpoch ≤ epoch) (hlt : epoch ≤ adapter.cacheEpoch + 1) :
    ∃ adapter', adapter.setLastEpochTxCount epoch count = some adapter' ∧
      adapter'.cacheEpoch = epoch := by
  unfold WorkloadSizeAdapter.setLastEpochTxCount
  dsimp only
  by_cases heq : adapter.cacheEpoch = epoch
  · rw [if_pos heq]
    exact ⟨_, rfl, heq⟩
  · rw [if_neg heq, if_pos (by omega)]
    exact ⟨_, rfl, rfl⟩

namespace TransactionManagerImpl

variable {cfg : TrManagerConfig} {stream : List Transaction} {s d : Nat}
  {carried : Nat → List Nat} {m m' : TransactionManagerImpl} {adapter : WorkloadSizeAdapter}
  {a : ManagerAction}

theorem addTransaction_eq_some {w : List Nat} {epoch : Nat} {object : Nat → Transaction}
    (hw : ∀ p ∈ w, (object p).epoch = epoch)
    (hnext : w ≠ [] → adapter.cacheEpoch ≤ epoch ∧ epoch ≤ adapter.cacheEpoch + 1) :
    ∃ adapter', adapter.addTransaction object w = some adapter' ∧
      (w = [] → adapter' = adapter) ∧ (w ≠ [] → adapter'.cacheEpoch = epoch) := by
  cases w with
  | nil => exact ⟨adapter, rfl, fun _ => rfl, fun h => absurd rfl h⟩
  | cons p w =>
      obtain ⟨hle, hlt⟩ := hnext (List.cons_ne_nil p w)
      obtain ⟨adapter', hset, hepoch⟩ :=
        setLastEpochTxCount_eq_some (p :: w).length hle hlt
      refine ⟨adapter', ?_, nofun, fun _ => hepoch⟩
      unfold WorkloadSizeAdapter.addTransaction
      dsimp only
      rw [hw p List.mem_cons_self]
      exact hset

/-- For a process that starts with epoch 1. -/
structure AdapterInv (stream : List Transaction) (m : TransactionManagerImpl)
    (adapter : WorkloadSizeAdapter) : Prop where
  sent_le : ∀ x ∈ m.sent, x.2.epoch ≤ adapter.cacheEpoch
  reached : adapter.cacheEpoch = 1 ∨ ∃ x ∈ m.sent, x.2.epoch = adapter.cacheEpoch
  -- everything before what is still to be sent
  fetched : ∃ d, d ≤ stream.length ∧
    m.unsent ++ m.incoming = List.range' d (stream.length - d) ∧
    ∀ p < d, epochOf stream p ≤ adapter.cacheEpoch
  begun : m.processingEpoch ≤ adapter.cacheEpoch
  ahead : m.callback ≠ .executing → m.processingEpoch < adapter.cacheEpoch

theorem AdapterInv.start (stream : List Transaction) :
    AdapterInv stream (start stream 1) {} where
  sent_le := nofun
  reached := Or.inl rfl
  fetched := ⟨0, Nat.zero_le _, List.range_eq_range', nofun⟩
  begun := Nat.le_refl 1
  ahead := fun h => absurd rfl h

section

variable (h : AdapterInv stream m adapter)

include h

theorem AdapterInv.frame (hsent : m'.sent = m.sent)
    (hqueue : m'.unsent ++ m'.incoming = m.unsent ++ m.incoming)
    (hepoch : m'.processingEpoch ≤ adapter.cacheEpoch)
    (hahead : m'.callback ≠ .executing → m'.processingEpoch < adapter.cacheEpoch) :
    AdapterInv stream m' adapter := by
  refine ⟨?_, ?_, ?_, hepoch, hahead⟩
  · rw [hsent]
    exact h.sent_le
  · rw [hsent]
    exact h.reached
  · rw [hqueue]
    exact h.fetched

theorem AdapterInv.epochFinishedCallback (hstep : m.step cfg .epochFinishedCallback = some m') :
    AdapterInv stream m' adapter := by
  simp only [TransactionManagerImpl.step] at hstep
  split_ifs at hstep with hguard
  obtain ⟨-, hover⟩ := hguard
  cases hstep
  unfold epochIsOver at hover
  obtain ⟨-, hany⟩ := of_decide_eq_true hover
  obtain ⟨x, hx, hlt⟩ := List.any_eq_true.mp hany
  exact h.frame rfl rfl h.begun fun _ => lt_of_lt_of_le (of_decide_eq_true hlt) (h.sent_le x hx)

theorem AdapterInv.tryDequeue {i : Nat} (hstep : m.step cfg (.tryDequeue i) = some m') :
    AdapterInv stream m' adapter := by
  simp only [TransactionManagerImpl.step] at hstep
  split at hstep
  · rename_i w p hcb hget
    have hahead := h.ahead (by simp [hcb])
    cases hstep
    unfold categorize
    dsimp only
    split
    · split
      · split
        · exact h.frame rfl rfl h.begun fun _ => hahead
        · exact h.frame rfl rfl h.begun fun _ => hahead
      all_goals exact h.frame rfl rfl h.begun fun _ => hahead
    · exact h.frame rfl rfl h.begun fun _ => hahead
  · cases hstep

/-- The steps that send nothing. -/
theorem AdapterInv.step_silent (hstep : m.step cfg a = some m') (hsend : a ≠ .sendTransaction)
    (hresume : a ≠ .resume) :
    AdapterInv stream m' adapter := by
  cases a with
  | getTransaction n =>
      simp only [TransactionManagerImpl.step] at hstep
      split_ifs at hstep with hguard
      have hnone : m.unsent = [] := by
        unfold unsent
        rw [hguard.1]
      cases hstep
      refine h.frame rfl ?_ h.begun h.ahead
      rw [hnone]
      exact List.take_append_drop n m.incoming
  | nextEpoch =>
      simp only [TransactionManagerImpl.step] at hstep
      split_ifs at hstep with hguard hreuse
      all_goals
        have hnone : m.unsent = [] := by
          unfold unsent
          rw [hguard.1]
        cases hstep
        refine h.frame rfl ?_ h.begun h.ahead
        rw [hnone]
        rfl
  | enqueue =>
      simp only [TransactionManagerImpl.step] at hstep
      split at hstep
      · rename_i p todo w hfetch
        have hsame : m.unsent = w := by
          unfold unsent
          rw [hfetch]
        cases hstep
        refine h.frame rfl ?_ h.begun h.ahead
        rw [hsame]
        rfl
      · cases hstep
  | sendTransaction => exact absurd rfl hsend
  | resume => exact absurd rfl hresume
  | execute p rwSet result =>
      simp only [TransactionManagerImpl.step] at hstep
      split_ifs at hstep with hguard
      cases hstep
      exact h.frame rfl rfl h.begun h.ahead
  | epochFinishedCallback => exact h.epochFinishedCallback hstep
  | tryDequeue i => exact h.tryDequeue hstep
  | endOfQueue =>
      simp only [TransactionManagerImpl.step] at hstep
      split at hstep
      · rename_i w hcb hnil
        cases hstep
        exact h.frame rfl rfl h.begun fun _ => h.ahead (by simp [hcb])
      · cases hstep
  | generateBlock =>
      simp only [TransactionManagerImpl.step] at hstep
      split_ifs at hstep with hcb
      cases hstep
      exact h.frame rfl rfl h.begun fun _ => h.ahead (by simp [hcb])
  | finish =>
      simp only [TransactionManagerImpl.step] at hstep
      split_ifs at hstep with hcb
      cases hstep
      exact h.frame rfl rfl (h.ahead (by simp [hcb])) fun hne => absurd rfl hne

theorem AdapterInv.send {w : List Nat} {epoch : Nat} (hw : ∀ p ∈ w, (m.object p).epoch = epoch)
    (hnext : w ≠ [] → adapter.cacheEpoch ≤ epoch ∧ epoch ≤ adapter.cacheEpoch + 1)
    (hsent : m'.sent = m.sent ++ w.map fun p => (p, m.object p))
    (hfetched : ∃ d, d ≤ stream.length ∧
      m'.unsent ++ m'.incoming = List.range' d (stream.length - d) ∧
      ∀ p < d, epochOf stream p ≤ adapter.cacheEpoch ∨ p ∈ w ∧ epochOf stream p = epoch)
    (hepoch : m'.processingEpoch = m.processingEpoch) (hcb : m'.callback = m.callback) :
    ∃ adapter', adapter.addTransaction m.object w = some adapter' ∧
      AdapterInv stream m' adapter' := by
  obtain ⟨adapter', hadd, hnil, hcons⟩ := addTransaction_eq_some hw hnext
  refine ⟨adapter', hadd, ?_⟩
  have hmono : adapter.cacheEpoch ≤ adapter'.cacheEpoch := by
    by_cases hw' : w = []
    · rw [hnil hw']
    · rw [hcons hw']
      exact (hnext hw').1
  have hcache : ∀ p ∈ w, adapter'.cacheEpoch = epoch := fun p hp => hcons (List.ne_nil_of_mem hp)
  constructor
  · intro x hx
    rw [hsent] at hx
    rcases List.mem_append.mp hx with hold | hnew
    · exact (h.sent_le x hold).trans hmono
    · obtain ⟨p, hp, rfl⟩ := List.mem_map.mp hnew
      rw [hcache p hp]
      exact (hw p hp).le
  · rw [hsent]
    cases w with
    | nil =>
        rw [hnil rfl, List.map_nil, List.append_nil]
        exact h.reached
    | cons p w =>
        right
        refine ⟨(p, m.object p), List.mem_append_right _ List.mem_cons_self, ?_⟩
        rw [hcache p List.mem_cons_self]
        exact hw p List.mem_cons_self
  · obtain ⟨d, hd, hqueue, hle⟩ := hfetched
    refine ⟨d, hd, hqueue, fun p hp => ?_⟩
    rcases hle p hp with hold | ⟨hpw, heq⟩
    · exact hold.trans hmono
    · rw [hcache p hpw, heq]
  · rw [hepoch]
    exact h.begun.trans hmono
  · rw [hepoch, hcb]
    exact fun hne => lt_of_lt_of_le (h.ahead hne) hmono

/-- What was sent before is of no later epoch. -/
theorem AdapterInv.le_of_sent_le {epoch : Nat} (hpos : 1 ≤ epoch)
    (hsent : ∀ x ∈ m.sent, x.2.epoch ≤ epoch) : adapter.cacheEpoch ≤ epoch := by
  rcases h.reached with hone | ⟨x, hx, heq⟩
  · rw [hone]
    exact hpos
  · rw [← heq]
    exact hsent x hx

theorem AdapterInv.sendTransaction (hinv : Inv cfg stream 1 d carried m)
    (hgap : ∀ p < stream.length,
      epochOf stream p ≤ 2 ∨ ∃ q < p, epochOf stream p ≤ epochOf stream q + 1)
    (hstep : m.step cfg .sendTransaction = some m') :
    ∃ adapter', adapter.addTransaction m.object (m.handled .sendTransaction) = some adapter' ∧
      AdapterInv stream m' adapter' := by
  simp only [TransactionManagerImpl.step] at hstep
  split at hstep
  · rename_i w hfetch
    have hunsent : m.unsent = w := by
      unfold unsent
      rw [hfetch]
    have hepoch : ∀ p ∈ w, (m.object p).epoch = m.currentEpoch ∧
        epochOf stream p = m.currentEpoch := by
      rw [← hunsent]
      exact hinv.unsent_epoch
    obtain ⟨d₀, hd₀, hqueue, hle⟩ := h.fetched
    rw [hunsent] at hqueue
    have hlen : w.length ≤ stream.length - d₀ := by
      have := congrArg List.length hqueue
      rw [List.length_append, List.length_range'] at this
      omega
    -- `w` is the next part of the stream
    have hw : w = List.range' d₀ w.length := by
      have htake := congrArg (List.take w.length) hqueue
      rwa [List.take_left, List.take_range'_of_length_ge hlen] at htake
    have hrest : m.incoming = List.range' (d₀ + w.length) (stream.length - (d₀ + w.length)) := by
      have hdrop := congrArg (List.drop w.length) hqueue
      rw [List.drop_left, List.drop_range'] at hdrop
      rw [hdrop]
      congr 1 <;> omega
    change ∃ adapter', adapter.addTransaction m.object m.unsent = some adapter' ∧ _
    rw [hunsent]
    cases hstep
    refine h.send (fun p hp => (hepoch p hp).1) ?_ rfl ⟨d₀ + w.length, by omega, hrest, ?_⟩ rfl rfl
    · intro hne
      refine ⟨h.le_of_sent_le (hinv.start_le.trans hinv.epoch_le) fun x hx => (hinv.sent_le x hx).1, ?_⟩
      have hmem : d₀ ∈ w := by
        rw [hw, List.mem_range'_1]
        have := List.length_pos_of_ne_nil hne
        omega
      rw [← (hepoch d₀ hmem).2]
      have hpos : 1 ≤ adapter.cacheEpoch := hinv.start_le.trans h.begun
      rcases hgap d₀ (by have := List.length_pos_of_ne_nil hne; omega) with htwo | ⟨q, hq, hsucc⟩
      · omega
      · have := hle q hq
        omega
    · intro p hp
      by_cases hlt : p < d₀
      · exact Or.inl (hle p hlt)
      · have hmem : p ∈ w := by
          rw [hw, List.mem_range'_1]
          omega
        exact Or.inr ⟨hmem, (hepoch p hmem).2⟩
  · cases hstep

theorem AdapterInv.resume (hinv : Inv cfg stream 1 d carried m)
    (hstep : m.step cfg .resume = some m') :
    ∃ adapter', adapter.addTransaction m.object (m.handled .resume) = some adapter' ∧
      AdapterInv stream m' adapter' := by
  simp only [TransactionManagerImpl.step] at hstep
  split_ifs at hstep with hguard
  obtain ⟨hfetch, hcur⟩ := hguard
  obtain ⟨hnext, -, hretry⟩ := hinv.resuming hfetch hcur
  have hnone : m.unsent = [] := by
    unfold unsent
    rw [hfetch]
  have hqueue := h.fetched
  rw [hnone] at hqueue
  have hreset : ∀ p ∈ m.reuseTxWrapper.getD [], (m.object p).epoch = m.processingEpoch := by
    intro p hp
    rw [← hretry.2]
    rw [← hretry.1] at hp
    exact (hinv.retrying_reset p hp).1
  have hlast : adapter.cacheEpoch ≤ m.processingEpoch := by
    refine h.le_of_sent_le hinv.start_le fun x hx => ?_
    have hlt := (hinv.sent_le x hx).2 hfetch
    rw [hnext] at hlt
    exact Nat.le_of_lt_succ hlt
  obtain ⟨d₀, hd₀, hrange, hle⟩ := hqueue
  change ∃ adapter', adapter.addTransaction m.object (m.reuseTxWrapper.getD []) = some adapter' ∧ _
  have hsame : m'.sent = m.sent ++ (m.reuseTxWrapper.getD []).map (fun p => (p, m.object p)) ∧
      m'.unsent ++ m'.incoming = m.incoming ∧ m'.processingEpoch = m.processingEpoch ∧
      m'.callback = m.callback := by
    split at hstep
    · rename_i hwrap
      cases hstep
      rw [hwrap]
      exact ⟨(List.append_nil _).symm, rfl, rfl, rfl⟩
    · rename_i w hwrap
      cases hstep
      rw [hwrap]
      exact ⟨rfl, rfl, rfl, rfl⟩
  obtain ⟨hsent, hincoming, hepoch, hcb⟩ := hsame
  refine h.send hreset (fun _ => ⟨hlast, Nat.le_succ_of_le h.begun⟩) hsent ?_ hepoch hcb
  rw [hincoming]
  exact ⟨d₀, hd₀, hrange, fun p hp => Or.inl (hle p hp)⟩

/-- The adapter accepts whatever the step sends. -/
theorem AdapterInv.step (hinv : Inv cfg stream 1 d carried m)
    (hgap : ∀ p < stream.length,
      epochOf stream p ≤ 2 ∨ ∃ q < p, epochOf stream p ≤ epochOf stream q + 1)
    (hstep : m.step cfg a = some m') :
    ∃ adapter', adapter.addTransaction m.object (m.handled a) = some adapter' ∧
      AdapterInv stream m' adapter' := by
  by_cases hsend : a = .sendTransaction
  · subst hsend
    exact h.sendTransaction hinv hgap hstep
  · by_cases hresume : a = .resume
    · subst hresume
      exact h.resume hinv hstep
    · refine ⟨adapter, ?_, h.step_silent hstep hsend hresume⟩
      have hnil : m.handled a = [] := by
        unfold handled
        split
        · exact absurd rfl hsend
        · exact absurd rfl hresume
        · rfl
      rw [hnil]
      rfl

end

/-! ## What the block generator is called with -/

theorem committed_of_tryDequeue {i : Nat} (hstep : m.step cfg (.tryDequeue i) = some m') :
    m'.blocks = m.blocks ∧ m.committed.length ≤ m'.committed.length := by
  simp only [TransactionManagerImpl.step] at hstep
  split at hstep
  · rename_i w p hcb hget
    cases hstep
    have hcommit : m.committed.length ≤ (m.committed ++ [p]).length := by
      rw [List.length_append]
      exact Nat.le_add_right _ _
    unfold categorize
    dsimp only
    split
    · split
      · split
        · exact ⟨rfl, hcommit⟩
        · exact ⟨rfl, Nat.le_refl _⟩
      · exact ⟨rfl, hcommit⟩
      · exact ⟨rfl, hcommit⟩
      · exact ⟨rfl, Nat.le_refl _⟩
    · exact ⟨rfl, hcommit⟩
  · cases hstep

/-- The steps that call nothing of the block generator. -/
theorem committed_of_step (hstep : m.step cfg a = some m') (hdequeue : ∀ i, a ≠ .tryDequeue i)
    (hgenerate : a ≠ .generateBlock) : m'.blocks = m.blocks ∧ m'.committed = m.committed := by
  cases a with
  | tryDequeue i => exact absurd rfl (hdequeue i)
  | generateBlock => exact absurd rfl hgenerate
  | enqueue =>
      simp only [TransactionManagerImpl.step] at hstep
      split at hstep
      · cases hstep
        exact ⟨rfl, rfl⟩
      · cases hstep
  | sendTransaction =>
      simp only [TransactionManagerImpl.step] at hstep
      split at hstep
      · cases hstep
        exact ⟨rfl, rfl⟩
      · cases hstep
  | resume =>
      simp only [TransactionManagerImpl.step] at hstep
      split_ifs at hstep
      split at hstep
      all_goals
        cases hstep
        exact ⟨rfl, rfl⟩
  | endOfQueue =>
      simp only [TransactionManagerImpl.step] at hstep
      split at hstep
      · cases hstep
        exact ⟨rfl, rfl⟩
      · cases hstep
  | _ =>
      simp only [TransactionManagerImpl.step] at hstep
      split_ifs at hstep
      all_goals
        cases hstep
        exact ⟨rfl, rfl⟩

end TransactionManagerImpl

theorem BlockGeneratorImpl.Inv.addAll {sha : SHA256} {msg : Messages} {sign : Bytes → Bytes}
    {called : List (List Transaction)} {added : List Transaction} {g : BlockGeneratorImpl}
    (h : Inv sha msg sign called added g) (txs : List Transaction) :
    Inv sha msg sign called (added ++ txs)
      { g with
        pendingTransactionQueue := txs.foldl addCommittedTransaction g.pendingTransactionQueue } := by
  induction txs generalizing added g with
  | nil =>
      rw [List.append_nil]
      exact h
  | cons t txs ih =>
      rw [List.append_cons]
      exact ih (h.add t)

namespace Pipeline

open TransactionManagerImpl

variable {sha : SHA256} {msg : Messages} {sign : Bytes → Bytes} {cfg : TrManagerConfig}
  {stream : List Transaction} {P P' : Pipeline} {m m' : TransactionManagerImpl} {a : ManagerAction}

/-- The block generator has been called for every block, with as many transactions as were taken
    from the queue. -/
def Called (sha : SHA256) (msg : Messages) (sign : Bytes → Bytes) (m : TransactionManagerImpl)
    (g : BlockGeneratorImpl) : Prop :=
  ∃ called added, BlockGeneratorImpl.Inv sha msg sign called added g ∧
    called.length = m.blocks.length ∧ added.length = m.committed.length ∧
    ∀ txs ∈ called, txs ≠ [] ∧ txs.length ≤ mtAlMaxElems

theorem Called.manager {g : BlockGeneratorImpl} (h : Called sha msg sign m g)
    (hstep : m.step cfg a = some m')
    (hfits : a = .generateBlock → m.committed ≠ [] ∧ m.committed.length ≤ mtAlMaxElems) :
    Called sha msg sign m' (m.callGenerator m' a g) := by
  obtain ⟨called, added, hinv, hblocks, hadded, hcalls⟩ := h
  by_cases hgenerate : a = .generateBlock
  · subst hgenerate
    obtain ⟨hne, hlen⟩ := hfits rfl
    simp only [TransactionManagerImpl.step] at hstep
    split_ifs at hstep with hcb
    cases hstep
    refine ⟨called ++ [added], [], hinv.generateBlock, ?_, rfl, ?_⟩
    · change (called ++ [added]).length = (m.blocks ++ [(m.processingEpoch, m.committed)]).length
      rw [List.length_append, List.length_append, hblocks]
      rfl
    · intro txs htxs
      rcases List.mem_append.mp htxs with hold | hlast
      · exact hcalls txs hold
      · obtain rfl := List.mem_singleton.mp hlast
        refine ⟨?_, hadded.le.trans hlen⟩
        rw [← List.length_pos_iff, hadded, List.length_pos_iff]
        exact hne
  · by_cases hdequeue : ∃ i, a = .tryDequeue i
    · obtain ⟨i, rfl⟩ := hdequeue
      obtain ⟨hsame, hle⟩ := committed_of_tryDequeue hstep
      refine ⟨called, _, hinv.addAll _, ?_, ?_, hcalls⟩
      · rw [hsame]
        exact hblocks
      · rw [List.length_append, List.length_map, List.length_drop]
        omega
    · have hno : ∀ i, a ≠ .tryDequeue i := fun i hi => hdequeue ⟨i, hi⟩
      obtain ⟨hsame, hcommitted⟩ := committed_of_step hstep hno hgenerate
      have hidle : m.callGenerator m' a g = g := by
        unfold callGenerator
        split
        · exact absurd rfl (hno _)
        · exact absurd rfl hgenerate
        · rfl
      rw [hidle]
      exact ⟨called, added, hinv, by rw [hsame]; exact hblocks, by rw [hcommitted]; exact hadded,
        hcalls⟩

theorem Called.background {g g' : BlockGeneratorImpl} {b : BlockAction}
    (h : Called sha msg sign m g) (hb : b.background = true)
    (hstep : g.step sha msg sign b = some g') : Called sha msg sign m g' := by
  obtain ⟨called, added, hinv, hblocks, hadded, hcalls⟩ := h
  have hinv' := hinv.step hcalls hstep
  rw [recordCall_background hb] at hinv'
  exact ⟨called, added, hinv', hblocks, hadded, hcalls⟩

end Pipeline

end NeuChain.Server
