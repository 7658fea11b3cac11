/-
  Which streams of transactions a process gets through.

  * `steady_stream_is_saved`: if no epoch before the last is empty (`Steady`) and none is too large
    for its block, no `CHECK` fails and every finished epoch gets its block. When aborted
    transactions are used again, they may leave an epoch empty or make one too large, so there
    the condition is on the blocks of the run (`BlockFits`).
  * `gap_stops_pipeline`: a gap stops the process, and so does a start before the first transaction.

  A process that starts with the first epoch keeps `Flow`. One that starts later and is `Steady`
  never finishes an epoch and keeps `Quiet`: with one more epoch it would be stopped by the header
  of its first block.
-/
import NeuChain.Server.Pipeline

namespace NeuChain.Server.Pipeline

open NeuChain Lib Merkle TransactionManagerImpl

/-- No epoch before the last one is empty. -/
def Gapless (stream : List Transaction) : Prop :=
  ∀ t ∈ stream, ∀ e : Nat, 1 ≤ e → e ≤ t.epoch → ∃ u ∈ stream, u.epoch = e

/-- What a process can take from its startup epoch `s` on. One that finds blocks in its files can
    have no second epoch, and its first can only be epoch 2. -/
def Steady (s : Nat) (stream : List Transaction) : Prop :=
  stream = [] ∨ (s ≤ 2 ∧ ∀ t ∈ stream, t.epoch = s) ∨
    (s = 1 ∧ Gapless stream)

/-- The block that is about to be made is neither empty nor too large. -/
def BlockFits (P : Pipeline) (a : PipelineAction) : Prop :=
  match a with
  | .manager .generateBlock =>
      P.manager.committed ≠ [] ∧ P.manager.committed.length ≤ mtAlMaxElems
  | _ => True

/-- Only the last epoch may be too large for a block. -/
def SmallEpochs (stream : List Transaction) : Prop :=
  ∀ t ∈ stream, ∀ e < t.epoch, stream.countP (fun u => u.epoch = e) ≤ mtAlMaxElems

/-- Nothing fails, and what the block generator has still to do ends with a block for every finished
    epoch. -/
structure KeepsGoing (sha : SHA256) (msg : Messages) (sign : Bytes → Bytes) (s : Nat)
    (P : Pipeline) : Prop where
  adapter : P.crashed = false
  generator : P.blockGenerator.crashed = false
  ends : ∃ n, ∀ more g, (∀ a ∈ more, a.background = true) →
    run (BlockGeneratorImpl.step sha msg sign) P.blockGenerator more = some g → more.length ≤ n
  saved : (∀ a : BlockAction, a.background = true → P.blockGenerator.step sha msg sign a = none) →
    P.blockGenerator.storage.blockNum + 1 = P.manager.closed ∧
      ∀ e, s ≤ e → e < P.manager.closed →
        ∃ b, P.blockGenerator.storage.blockFile e = some b ∧ b.header.number = e

variable {sha : SHA256} {msg : Messages} {sign : Bytes → Bytes} {cfg : TrManagerConfig}
  {stream : List Transaction} {P P' : Pipeline} {m : TransactionManagerImpl} {a : PipelineAction}
  {s d : Nat} {carried : Nat → List Nat}

theorem manager_step_cases {a : ManagerAction}
    (hstep : P.step sha msg sign cfg (.manager a) = some P') :
    ∃ m', P.manager.step cfg a = some m' ∧
      (P.workloadSizeAdapter.addTransaction P.manager.object (P.manager.handled a) = none ∧
          P' = { P with crashed := true } ∨
        ∃ adapter,
          P.workloadSizeAdapter.addTransaction P.manager.object (P.manager.handled a) =
            some adapter ∧
          P' = { P with
            manager := m'
            workloadSizeAdapter := adapter
            blockGenerator := P.manager.callGenerator m' a P.blockGenerator }) := by
  simp only [Pipeline.step] at hstep
  split_ifs at hstep
  obtain ⟨m', hm, rfl⟩ := Option.map_eq_some_iff.mp hstep
  refine ⟨m', hm, ?_⟩
  split
  · exact Or.inl ⟨‹_›, rfl⟩
  · exact Or.inr ⟨_, ‹_›, rfl⟩

theorem background_step_cases {b : BlockAction}
    (hstep : P.step sha msg sign cfg (.background b) = some P') :
    b.background = true ∧ ∃ g, P.blockGenerator.step sha msg sign b = some g ∧
      P' = { P with blockGenerator := g } := by
  simp only [Pipeline.step] at hstep
  split_ifs at hstep with hguard
  obtain ⟨g, hg, rfl⟩ := Option.map_eq_some_iff.mp hstep
  refine ⟨?_, g, hg, rfl⟩
  by_contra hback
  exact hguard (Or.inr (by simpa using hback))

/-! ## From the first epoch on -/

theorem epochOf_mem {p : Nat} (hp : p < stream.length) :
    ∃ t ∈ stream, t.epoch = epochOf stream p := by
  refine ⟨stream[p], List.getElem_mem hp, ?_⟩
  unfold epochOf
  rw [List.getD_eq_getElem _ _ hp]

theorem exists_epochOf {t : Transaction} (ht : t ∈ stream) :
    ∃ p < stream.length, epochOf stream p = t.epoch := by
  obtain ⟨p, hp, rfl⟩ := List.mem_iff_getElem.mp ht
  refine ⟨p, hp, ?_⟩
  unfold epochOf
  rw [List.getD_eq_getElem _ _ hp]

theorem epochOf_mono (hsorted : stream.Pairwise fun t u => t.epoch ≤ u.epoch) {p q : Nat}
    (hpq : p ≤ q) (hq : q < stream.length) : epochOf stream p ≤ epochOf stream q := by
  rcases Nat.eq_or_lt_of_le hpq with rfl | hlt
  · exact Nat.le_refl _
  · unfold epochOf
    rw [List.getD_eq_getElem _ _ (hlt.trans hq), List.getD_eq_getElem _ _ hq]
    exact List.pairwise_iff_getElem.mp hsorted p q _ _ hlt

/-- Without gaps every transaction but those of the first epoch follows one of the epoch before. -/
theorem follows_of_gapless (hsorted : stream.Pairwise fun t u => t.epoch ≤ u.epoch)
    (hgapless : Gapless stream) {p : Nat}
    (hp : p < stream.length) :
    epochOf stream p ≤ 2 ∨ ∃ q < p, epochOf stream p ≤ epochOf stream q + 1 := by
  by_cases htwo : epochOf stream p ≤ 2
  · exact Or.inl htwo
  · right
    obtain ⟨t, ht, hep⟩ := epochOf_mem hp
    obtain ⟨u, hu, hue⟩ := hgapless t ht (epochOf stream p - 1) (by omega) (by
      rw [hep]
      exact Nat.sub_le _ _)
    obtain ⟨q, hq, hqe⟩ := exists_epochOf hu
    have hqe : epochOf stream q = epochOf stream p - 1 := hqe.trans hue
    refine ⟨q, ?_, by omega⟩
    by_contra hle
    have := epochOf_mono hsorted (Nat.le_of_not_lt hle) hq
    omega

theorem countP_epochOf (e : Nat) :
    stream.countP (fun u => u.epoch = e) =
      (List.range stream.length).countP fun p => epochOf stream p = e := by
  have hmap : (List.range stream.length).map (fun p => stream.getD p {}) = stream := by
    apply List.ext_getElem
    · rw [List.length_map, List.length_range]
    · intro p h₁ h₂
      rw [List.getElem_map, List.getElem_range, List.getD_eq_getElem _ _ h₂]
  conv_lhs => rw [← hmap, List.countP_map]
  rfl

/-- Without reuse a block has the transactions of its epoch. -/
theorem committed_length (h : Inv cfg stream s d carried m)
    (hreuse : cfg.reusingAbortTransaction = false) (hcb : m.callback = .generating) :
    m.committed.length = stream.countP (fun u => u.epoch = m.processingEpoch) := by
  have hperm : m.committed.Perm ((List.range stream.length).filter fun p =>
      epochOf stream p = m.processingEpoch) := by
    rw [List.perm_iff_count]
    intro p
    have hduring := h.during (by rw [hcb]; nofun) (by rw [hcb]; nofun) p
    rw [h.emptied hcb, h.carried_off hreuse, h.carried_off hreuse, List.count_nil, Nat.zero_add,
      Nat.add_zero, Nat.add_zero] at hduring
    have hnd : ((List.range stream.length).filter fun p =>
      epochOf stream p = m.processingEpoch).Nodup := List.nodup_range.filter _
    rw [hduring, hnd.count]
    unfold fresh
    simp only [List.mem_filter, List.mem_range, decide_eq_true_eq]
  rw [hperm.length_eq, countP_epochOf, List.countP_eq_length_filter]

/-- Without reuse what is sent has the epoch with which it came. -/
theorem epochOf_of_sent (h : Inv cfg stream s d carried m)
    (hreuse : cfg.reusingAbortTransaction = false) {x : Nat × Transaction} (hx : x ∈ m.sent) :
    x.1 < stream.length ∧ epochOf stream x.1 = x.2.epoch := by
  have hpos := sentCount_pos_of_mem hx
  have hsends := h.sends x.2.epoch x.1
  rw [h.carried_off hreuse, List.count_nil, Nat.add_zero] at hsends
  obtain ⟨hlt, hep⟩ := fresh_pos (show 0 < fresh stream d x.2.epoch x.1 by omega)
  exact ⟨hlt.trans_le h.delivered, hep⟩

theorem fits_without_reuse {adapter : WorkloadSizeAdapter} (h : Inv cfg stream 1 d carried m)
    (hadapter : AdapterInv stream m adapter)
    (hgapless : Gapless stream)
    (hsmall : SmallEpochs stream) (hreuse : cfg.reusingAbortTransaction = false)
    (hcb : m.callback = .generating) :
    m.committed ≠ [] ∧ m.committed.length ≤ mtAlMaxElems := by
  have hahead := hadapter.ahead (by rw [hcb]; nofun)
  have hstart := h.start_le
  -- something of a later epoch has come
  obtain ⟨t, ht, hlt⟩ : ∃ t ∈ stream, m.processingEpoch < t.epoch := by
    rcases hadapter.reached with hone | ⟨x, hx, hxe⟩
    · omega
    · obtain ⟨hlen, hep⟩ := epochOf_of_sent h hreuse hx
      obtain ⟨t, ht, hte⟩ := epochOf_mem hlen
      refine ⟨t, ht, ?_⟩
      rw [hte, hep, hxe]
      exact hahead
  have hlength := committed_length h hreuse hcb
  constructor
  · obtain ⟨u, hu, hue⟩ := hgapless t ht m.processingEpoch hstart hlt.le
    rw [← List.length_pos_iff, hlength, List.countP_pos_iff]
    exact ⟨u, hu, decide_eq_true hue⟩
  · rw [hlength]
    exact hsmall t ht _ hlt

structure Flow (sha : SHA256) (msg : Messages) (sign : Bytes → Bytes) (cfg : TrManagerConfig)
    (stream : List Transaction) (P : Pipeline) : Prop where
  alive : P.crashed = false
  manager : ∃ d carried, Inv cfg stream 1 d carried P.manager
  adapter : AdapterInv stream P.manager P.workloadSizeAdapter
  called : Called sha msg sign P.manager P.blockGenerator

theorem Flow.start {storage : BlockStorageToFile} {resetEpoch : Bool}
    (hfirst : startupEpoch storage resetEpoch = 1) :
    Flow sha msg sign cfg stream (start stream storage resetEpoch) := by
  have hempty : (storage.construct resetEpoch).blockNum = 0 := by
    cases resetEpoch with
    | true => rfl
    | false => exact Nat.succ.inj hfirst
  refine ⟨rfl, ⟨0, fun _ => [], ?_⟩, ?_, [], [],
    BlockGeneratorImpl.Inv.start resetEpoch hempty, rfl, rfl, nofun⟩
  · unfold Pipeline.start
    rw [hfirst]
    exact Inv.start cfg stream 1
  · unfold Pipeline.start
    rw [hfirst]
    exact AdapterInv.start stream

theorem Flow.step (h : Flow sha msg sign cfg stream P)
    (hsorted : stream.Pairwise fun t u => t.epoch ≤ u.epoch)
    (hgapless : Gapless stream)
    (hfits : BlockFits P a) (hstep : P.step sha msg sign cfg a = some P') :
    Flow sha msg sign cfg stream P' := by
  cases a with
  | manager a =>
      obtain ⟨m', hm, hcases⟩ := manager_step_cases hstep
      obtain ⟨d, carried, hinv⟩ := h.manager
      obtain ⟨adapter, hadd, hadapter⟩ :=
        h.adapter.step hinv (fun p hp => follows_of_gapless hsorted hgapless hp) hm
      rcases hcases with ⟨hnone, -⟩ | ⟨adapter', hadd', rfl⟩
      · rw [hadd] at hnone
        cases hnone
      · rw [hadd] at hadd'
        cases hadd'
        refine ⟨h.alive, hinv.step hsorted hm, hadapter, h.called.manager hm ?_⟩
        rintro rfl
        exact hfits
  | background b =>
      obtain ⟨hb, g, hg, rfl⟩ := background_step_cases hstep
      exact ⟨h.alive, h.manager, h.adapter, h.called.background hb hg⟩

theorem Flow.keepsGoing (h : Flow sha msg sign cfg stream P) :
    KeepsGoing sha msg sign 1 P := by
  obtain ⟨called, added, hinv, hblocks, -, hcalls⟩ := h.called
  obtain ⟨d, carried, hmanager⟩ := h.manager
  refine ⟨h.alive, hinv.alive, ⟨_, fun more g hback hrun =>
    hinv.background_length hcalls hback hrun⟩, fun hidle => ?_⟩
  have hnum := hinv.blockNum_of_idle hidle
  have hclosed : P.manager.blocks.length = P.manager.closed - 1 := by
    rw [← List.length_map (f := Prod.fst), hmanager.numbers, List.length_range']
  have hpos : 1 ≤ P.manager.closed := by
    have := hmanager.start_le
    unfold closed
    split <;> omega
  have hwritten : P.blockGenerator.storage.blockNum ≤ P.blockGenerator.written := by
    unfold BlockGeneratorImpl.written
    split <;> omega
  refine ⟨by omega, fun e hle hlt => ?_⟩
  obtain ⟨k, rfl⟩ : ∃ k, e = k + 1 := ⟨e - 1, by omega⟩
  obtain ⟨b, hfile, hb⟩ := hinv.saved k (by omega)
  exact ⟨b, hfile, hb.number⟩

/-! ## From a later epoch on -/

theorem unsent_lt (h : Inv cfg stream s d carried m) {p : Nat} (hp : p ∈ m.unsent) :
    p < stream.length := by
  have hpos := List.count_pos_iff.mpr hp
  have hsends := h.sends m.currentEpoch p
  rw [if_pos rfl] at hsends
  rcases Nat.eq_zero_or_pos (fresh stream d m.currentEpoch p) with hzero | hfresh
  · have hmem : p ∈ carried m.currentEpoch := List.count_pos_iff.mp (by omega)
    exact (h.carried_mem _ p hmem).1.trans_le h.delivered
  · exact (fresh_pos hfresh).1.trans_le h.delivered

/-- No epoch is ever finished. -/
structure Quiet (cfg : TrManagerConfig) (stream : List Transaction) (storage : BlockStorageToFile)
    (resetEpoch : Bool) (P : Pipeline) : Prop where
  alive : P.crashed = false
  manager : ∃ d carried, Inv cfg stream (startupEpoch storage resetEpoch) d carried P.manager
  executing : P.manager.callback = .executing
  processing : P.manager.processingEpoch = startupEpoch storage resetEpoch
  wrapper : P.manager.reuseTxWrapper = none
  sent : ∀ x ∈ P.manager.sent, x.2.epoch = startupEpoch storage resetEpoch
  adapter : P.workloadSizeAdapter.cacheEpoch = 1 ∨
    P.workloadSizeAdapter.cacheEpoch = startupEpoch storage resetEpoch
  generator : P.blockGenerator = BlockGeneratorImpl.start storage resetEpoch

section

variable {storage : BlockStorageToFile} {resetEpoch : Bool}

theorem Quiet.start : Quiet cfg stream storage resetEpoch (start stream storage resetEpoch) where
  alive := rfl
  manager := ⟨0, fun _ => [], Inv.start cfg stream _⟩
  executing := rfl
  processing := rfl
  wrapper := rfl
  sent := nofun
  adapter := Or.inl rfl
  generator := rfl

/-- A block generator that was not called has nothing to do. -/
theorem background_start {b : BlockAction} (hb : b.background = true) :
    (BlockGeneratorImpl.start storage resetEpoch).step sha msg sign b = none := by
  cases b with
  | addCommittedTransaction t => cases hb
  | generateBlock => cases hb
  | _ => rfl

/-- What a step of the manager does while no epoch is finished. -/
theorem Quiet.manager_step (h : Quiet cfg stream storage resetEpoch P) {a : ManagerAction}
    {m' : TransactionManagerImpl} (hm : P.manager.step cfg a = some m') :
    m'.callback = .executing ∧ m'.processingEpoch = P.manager.processingEpoch ∧
      m'.reuseTxWrapper = none ∧
      m'.sent = P.manager.sent ++ (P.manager.handled a).map (fun p => (p, P.manager.object p)) ∧
      (∀ p ∈ P.manager.handled a, p ∈ P.manager.unsent) ∧
      P.manager.callGenerator m' a P.blockGenerator = P.blockGenerator := by
  have hexec := h.executing
  have hwrap := h.wrapper
  have hnil := (List.append_nil P.manager.sent).symm
  have hnone : ∀ p ∈ ([] : List Nat), p ∈ P.manager.unsent := List.forall_mem_nil _
  cases a with
  | getTransaction n =>
      simp only [TransactionManagerImpl.step] at hm
      split_ifs at hm
      cases hm
      exact ⟨hexec, rfl, hwrap, hnil, hnone, rfl⟩
  | nextEpoch =>
      simp only [TransactionManagerImpl.step] at hm
      split_ifs at hm
      all_goals
        cases hm
        exact ⟨hexec, rfl, hwrap, hnil, hnone, rfl⟩
  | enqueue =>
      simp only [TransactionManagerImpl.step] at hm
      split at hm
      · cases hm
        exact ⟨hexec, rfl, hwrap, hnil, hnone, rfl⟩
      · cases hm
  | sendTransaction =>
      simp only [TransactionManagerImpl.step] at hm
      split at hm
      · rename_i w hfetch
        have hunsent : P.manager.handled .sendTransaction = w := by
          unfold handled unsent
          rw [hfetch]
        cases hm
        rw [hunsent]
        refine ⟨hexec, rfl, hwrap, rfl, fun p hp => ?_, rfl⟩
        rw [← hunsent] at hp
        exact hp
      · cases hm
  | resume =>
      simp only [TransactionManagerImpl.step, hwrap] at hm
      split_ifs at hm
      cases hm
      unfold handled
      dsimp only
      rw [hwrap]
      exact ⟨hexec, rfl, rfl, hnil, hnone, rfl⟩
  | execute p rwSet result =>
      simp only [TransactionManagerImpl.step] at hm
      split_ifs at hm
      cases hm
      exact ⟨hexec, rfl, hwrap, hnil, hnone, rfl⟩
  | epochFinishedCallback =>
      -- nothing of a later epoch is ever sent
      simp only [TransactionManagerImpl.step] at hm
      split_ifs at hm with hguard
      obtain ⟨-, hover⟩ := hguard
      unfold epochIsOver at hover
      obtain ⟨-, hany⟩ := of_decide_eq_true hover
      obtain ⟨x, hx, hlt⟩ := List.any_eq_true.mp hany
      have hlt := of_decide_eq_true hlt
      rw [h.sent x hx, h.processing] at hlt
      exact absurd hlt (Nat.lt_irrefl _)
  | tryDequeue i => simp [TransactionManagerImpl.step, hexec] at hm
  | endOfQueue => simp [TransactionManagerImpl.step, hexec] at hm
  | generateBlock => simp [TransactionManagerImpl.step, hexec] at hm
  | finish => simp [TransactionManagerImpl.step, hexec] at hm

theorem Quiet.step (h : Quiet cfg stream storage resetEpoch P)
    (hsorted : stream.Pairwise fun t u => t.epoch ≤ u.epoch)
    (hone : ∀ t ∈ stream, startupEpoch storage resetEpoch ≤ 2 ∧
      t.epoch = startupEpoch storage resetEpoch)
    (hstep : P.step sha msg sign cfg a = some P') : Quiet cfg stream storage resetEpoch P' := by
  cases a with
  | manager a =>
      obtain ⟨m', hm, hcases⟩ := manager_step_cases hstep
      obtain ⟨d, carried, hinv⟩ := h.manager
      obtain ⟨hexec, hepoch, hwrap, hsent, hhandled, hidle⟩ := h.manager_step hm
      have hunsent : ∀ p ∈ P.manager.handled a, startupEpoch storage resetEpoch ≤ 2 ∧
          (P.manager.object p).epoch = startupEpoch storage resetEpoch := by
        intro p hp
        obtain ⟨hobj, hep⟩ := hinv.unsent_epoch p (hhandled p hp)
        obtain ⟨t, ht, hte⟩ := epochOf_mem (unsent_lt hinv (hhandled p hp))
        obtain ⟨htwo, hs⟩ := hone t ht
        exact ⟨htwo, hobj.trans (hep.symm.trans (hte.symm.trans hs))⟩
      have hnext : P.manager.handled a ≠ [] →
          P.workloadSizeAdapter.cacheEpoch ≤ startupEpoch storage resetEpoch ∧
            startupEpoch storage resetEpoch ≤ P.workloadSizeAdapter.cacheEpoch + 1 := by
        intro hne
        obtain ⟨p, hp⟩ := List.exists_mem_of_ne_nil _ hne
        have htwo := (hunsent p hp).1
        have hpos : 1 ≤ startupEpoch storage resetEpoch := Nat.succ_pos _
        have := h.adapter
        omega
      obtain ⟨adapter, hadd, hnil, hcons⟩ :=
        addTransaction_eq_some (fun p hp => (hunsent p hp).2) hnext
      rcases hcases with ⟨hnone, -⟩ | ⟨adapter', hadd', rfl⟩
      · rw [hadd] at hnone
        cases hnone
      · rw [hadd] at hadd'
        cases hadd'
        refine ⟨h.alive, hinv.step hsorted hm, hexec, hepoch.trans h.processing, hwrap, ?_, ?_, ?_⟩
        · intro x hx
          dsimp only at hx
          rw [hsent] at hx
          rcases List.mem_append.mp hx with hold | hnew
          · exact h.sent x hold
          · obtain ⟨p, hp, rfl⟩ := List.mem_map.mp hnew
            exact (hunsent p hp).2
        · by_cases hw : P.manager.handled a = []
          · dsimp only
            rw [hnil hw]
            exact h.adapter
          · exact Or.inr (hcons hw)
        · exact hidle.trans h.generator
  | background b =>
      obtain ⟨hb, g, hg, rfl⟩ := background_step_cases hstep
      rw [h.generator, background_start hb] at hg
      cases hg

theorem Quiet.keepsGoing (h : Quiet cfg stream storage resetEpoch P) :
    KeepsGoing sha msg sign (startupEpoch storage resetEpoch) P := by
  have hclosed : P.manager.closed = startupEpoch storage resetEpoch := by
    unfold closed
    rw [h.executing]
    exact h.processing
  refine ⟨h.alive, by rw [h.generator]; rfl, ⟨0, fun more g hback hrun => ?_⟩, fun _ => ?_⟩
  · cases more with
    | nil => exact Nat.le_refl 0
    | cons b more =>
        obtain ⟨g₁, hg₁, -⟩ := run_cons_eq_some.mp hrun
        rw [h.generator, background_start (hback b List.mem_cons_self)] at hg₁
        cases hg₁
  · rw [hclosed, h.generator]
    refine ⟨?_, fun e hle hlt => absurd hle (Nat.not_le_of_lt hlt)⟩
    cases resetEpoch <;> rfl

/-- A process gets through every stream without empty epochs whose blocks are not too large. -/
theorem steady_stream_is_saved {actions : List PipelineAction}
    (hsorted : stream.Pairwise fun t u => t.epoch ≤ u.epoch)
    (hsteady : Steady (startupEpoch storage resetEpoch) stream)
    (hsmall : cfg.reusingAbortTransaction = false → SmallEpochs stream)
    (hfits : cfg.reusingAbortTransaction = true →
      Meets (step sha msg sign cfg) BlockFits (start stream storage resetEpoch) actions)
    (hrun : run (step sha msg sign cfg) (start stream storage resetEpoch) actions = some P) :
    KeepsGoing sha msg sign (startupEpoch storage resetEpoch) P := by
  have hquiet : (∀ t ∈ stream, startupEpoch storage resetEpoch ≤ 2 ∧
      t.epoch = startupEpoch storage resetEpoch) →
      KeepsGoing sha msg sign (startupEpoch storage resetEpoch) P := by
    intro hone
    refine (run_invariant (Quiet cfg stream storage resetEpoch) ?_ hrun Quiet.start).keepsGoing
    exact fun P₁ a P₂ h hstep => h.step hsorted hone hstep
  rcases hsteady with hnil | ⟨htwo, hall⟩ | ⟨hfirst, hgapless⟩
  · apply hquiet
    rw [hnil]
    nofun
  · exact hquiet fun t ht => ⟨htwo, hall t ht⟩
  · rw [hfirst]
    cases hreuse : cfg.reusingAbortTransaction with
    | true =>
        refine (run_invariant_of_meets BlockFits (Flow sha msg sign cfg stream) ?_ hrun
          (hfits hreuse) (Flow.start hfirst)).keepsGoing
        exact fun P₁ a P₂ h hC hstep => h.step hsorted hgapless hC hstep
    | false =>
        refine (run_invariant (Flow sha msg sign cfg stream) ?_ hrun
          (Flow.start hfirst)).keepsGoing
        intro P₁ a P₂ h hstep
        refine h.step hsorted hgapless ?_ hstep
        unfold BlockFits
        split
        · obtain ⟨m', hm, -⟩ := manager_step_cases hstep
          obtain ⟨d, carried, hinv⟩ := h.manager
          simp only [TransactionManagerImpl.step] at hm
          split_ifs at hm with hcb
          exact fits_without_reuse hinv h.adapter hgapless (hsmall hreuse) hreuse hcb
        · trivial

end

/-- The first epoch gets its block as soon as something of the second has come. -/
def finishFirst : List ManagerAction :=
  fetchOne ++ ([.nextEpoch] : List ManagerAction) ++ fetchOne ++
    ([.execute 0 {} .commit, .epochFinishedCallback, .tryDequeue 0, .endOfQueue, .generateBlock,
      .finish] : List ManagerAction)

def saveFirst : List PipelineAction :=
  finishFirst.map .manager ++
    ([.background (.generateBlockBody 0), .background .generateBlockHeader,
      .background .insertBlock, .background .updateLatestSavedEpoch] : List PipelineAction)

theorem steady_stream_is_saved_two :
    ∃ P, run (step BlockGeneratorImpl.zeroSHA256 BlockGeneratorImpl.emptyMessages id ⟨false, false⟩)
        (start [{ epoch := 1 }, { epoch := 2 }] {} true) saveFirst = some P ∧
      P.manager.closed = 2 ∧ P.blockGenerator.storage.blockNum = 1 ∧
      KeepsGoing BlockGeneratorImpl.zeroSHA256 BlockGeneratorImpl.emptyMessages id 1 P := by
  have hany : (run (step BlockGeneratorImpl.zeroSHA256 BlockGeneratorImpl.emptyMessages id
      ⟨false, false⟩) (start [{ epoch := 1 }, { epoch := 2 }] {} true) saveFirst).any
      (fun P => P.manager.closed = 2 ∧ P.blockGenerator.storage.blockNum = 1) = true := by decide
  obtain ⟨P, hP, hclosed, hnum⟩ := exists_of_any hany
  have hsteady : Steady (startupEpoch {} true) [{ epoch := 1 }, { epoch := 2 }] := by
    refine Or.inr (Or.inr ⟨rfl, fun t ht e hpos hle => ?_⟩)
    have htwo : e ≤ 2 := by
      rcases List.mem_cons.mp ht with rfl | ht
      · exact Nat.le_succ_of_le hle
      · obtain rfl := List.mem_singleton.mp ht
        exact hle
    rcases (show e = 1 ∨ e = 2 by omega) with rfl | rfl
    · exact ⟨_, List.mem_cons_self, rfl⟩
    · exact ⟨_, List.mem_cons_of_mem _ List.mem_cons_self, rfl⟩
  have hsmall : SmallEpochs [{ epoch := 1 }, { epoch := 2 }] :=
    fun _ _ _ _ => List.countP_le_length.trans (by decide)
  exact ⟨P, hP, hclosed, hnum,
    steady_stream_is_saved (by decide) hsteady (fun _ => hsmall) (fun h => by cases h) hP⟩

/-! ## Empty epochs -/

/-- Epoch 2 is missing: the adapter is at 1 when it is told of 3. -/
def missEpoch : List ManagerAction :=
  fetchOne ++ ([.nextEpoch, .nextEpoch] : List ManagerAction) ++ fetchOne

/-- Epoch 1 is missing: its block has no transaction. -/
def startLate : List ManagerAction :=
  ([.nextEpoch] : List ManagerAction) ++ fetchOne ++
    ([.epochFinishedCallback, .endOfQueue, .generateBlock] : List ManagerAction)

theorem gap_stops_pipeline :
    (∃ P, run (step BlockGeneratorImpl.zeroSHA256 BlockGeneratorImpl.emptyMessages id ⟨false, false⟩)
        (start [{ epoch := 1 }, { epoch := 3 }] {} true) (missEpoch.map .manager) = some P ∧
      startupEpoch {} true = 1 ∧ P.crashed = true) ∧
    ∃ P, run (step BlockGeneratorImpl.zeroSHA256 BlockGeneratorImpl.emptyMessages id ⟨false, false⟩)
        (start [{ epoch := 2 }] {} true)
        (startLate.map .manager ++ [.background (.generateBlockBody 0)]) = some P ∧
      P.manager.blocks = [(1, [])] ∧ P.blockGenerator.crashed = true := by
  have hgap : (run (step BlockGeneratorImpl.zeroSHA256 BlockGeneratorImpl.emptyMessages id
      ⟨false, false⟩) (start [{ epoch := 1 }, { epoch := 3 }] {} true) (missEpoch.map .manager)).any
      (fun P => P.crashed = true) = true := by decide
  have hlate : (run (step BlockGeneratorImpl.zeroSHA256 BlockGeneratorImpl.emptyMessages id
      ⟨false, false⟩) (start [{ epoch := 2 }] {} true)
        (startLate.map .manager ++ [.background (.generateBlockBody 0)])).any
      (fun P => P.manager.blocks = [(1, [])] ∧ P.blockGenerator.crashed = true) = true := by decide
  obtain ⟨P, hP, hcrash⟩ := exists_of_any hgap
  obtain ⟨P', hP', hcrash'⟩ := exists_of_any hlate
  exact ⟨⟨P, hP, rfl, hcrash⟩, ⟨P', hP', hcrash'⟩⟩

end NeuChain.Server.Pipeline
