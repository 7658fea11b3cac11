/-
  Every transaction gets into exactly one block.

  * `every_transaction_one_block`: in every reachable state of `TransactionManagerImpl` there is one
    block for each finished epoch, and no transaction is in two of them. Without reuse the block of an
    epoch holds the transactions with this epoch. With reuse it holds those for which this is the
    first epoch they leave with another result than ABORT; an aborted one has been reset, is sent
    once for the next epoch, and this comes before anything of the epoch after it.

  All of it comes from the counts in `Inv`. For reuse, `Inv.batch_iff` says who is in the batch of an
  epoch: by induction on the epoch, those that came with it or were aborted in every epoch since.
-/
import NeuChain.Server.EpochBatches

namespace NeuChain.Server.TransactionManagerImpl

open NeuChain Lib

variable {cfg : TrManagerConfig} {stream : List Transaction} {s d : Nat}
  {carried : Nat → List Nat} {m m' : TransactionManagerImpl} {e p : Nat} {b : List Nat}

theorem Inv.step (h : Inv cfg stream s d carried m)
    (hsorted : stream.Pairwise fun t u => t.epoch ≤ u.epoch) {a : ManagerAction}
    (hstep : m.step cfg a = some m') : ∃ d' carried', Inv cfg stream s d' carried' m' := by
  cases a with
  | getTransaction n => exact ⟨_, _, h.getTransaction hstep⟩
  | nextEpoch => exact ⟨_, _, h.nextEpoch hstep⟩
  | enqueue => exact ⟨_, _, h.enqueue hstep⟩
  | sendTransaction => exact ⟨_, _, h.sendTransaction hstep⟩
  | resume => exact ⟨_, _, h.resume hstep⟩
  | execute p rwSet result => exact ⟨_, _, h.execute hstep⟩
  | epochFinishedCallback => exact ⟨_, _, h.epochFinishedCallback hsorted hstep⟩
  | tryDequeue i => exact ⟨_, h.tryDequeue hstep⟩
  | endOfQueue => exact ⟨_, _, h.endOfQueue hstep⟩
  | generateBlock => exact ⟨_, _, h.generateBlock hstep⟩
  | finish => exact ⟨_, _, h.finish hstep⟩

theorem inv_run (hsorted : stream.Pairwise fun t u => t.epoch ≤ u.epoch)
    {actions : List ManagerAction} (hrun : run (step cfg) (start stream s) actions = some m) :
    ∃ d carried, Inv cfg stream s d carried m := by
  refine run_invariant (fun m => ∃ d carried, Inv cfg stream s d carried m) ?_ hrun
    ⟨0, _, Inv.start cfg stream s⟩
  rintro m₁ a m₂ ⟨d, carried, h⟩ hstep
  exact h.step hsorted hstep

/-! ## Blocks -/

/-- `p` left every epoch from its own to the one before `e` with ABORT. -/
def AbortedUntil (stream : List Transaction) (m : TransactionManagerImpl) (e p : Nat) : Prop :=
  epochOf stream p ≤ e ∧ ∀ e', epochOf stream p ≤ e' → e' < e → m.outcome e' p = some .abort

section

variable (h : Inv cfg stream s d carried m)

include h

theorem Inv.block_range :
    (∃ b, (e, b) ∈ m.blocks) ↔ s ≤ e ∧ e < m.closed := by
  have hs : s ≤ m.closed := by
    have := h.start_le
    unfold closed
    split <;> omega
  have hmem : (∃ b, (e, b) ∈ m.blocks) ↔ e ∈ m.blocks.map Prod.fst := by simp
  rw [hmem, h.numbers, List.mem_range'_1]
  omega

theorem Inv.block_nodup (heb : (e, b) ∈ m.blocks) : b.Nodup := by
  rw [List.nodup_iff_count_le_one]
  intro p
  have hafter := h.after e b heb p
  have hle := h.batch_le stream.length e p
  omega

/-- Who was aborted is in the batch of the next epoch. -/
theorem Inv.mem_carried_iff (hreuse : cfg.reusingAbortTransaction = true) :
    p ∈ carried (e + 1) ↔ m.outcome e p = some .abort := by
  constructor
  · exact h.aborted e p
  · intro hout
    rcases h.outcome_some e p (by rw [hout]; nofun) with hcarried | ⟨b, heb, hp⟩ | ⟨rfl, hp⟩
    · exact hcarried
    · obtain ⟨r, hr, hne⟩ := h.in_block e b heb p hp
      rw [hout] at hr
      exact absurd (Option.some.inj hr).symm (hne hreuse)
    · obtain ⟨r, hr, hne⟩ := h.in_committed p hp
      rw [hout] at hr
      exact absurd (Option.some.inj hr).symm (hne hreuse)

/-- The batch of a finished epoch. -/
theorem Inv.batch_iff (hreuse : cfg.reusingAbortTransaction = true) (heb : (e, b) ∈ m.blocks)
    (p : Nat) :
    0 < fresh stream stream.length e p + (carried e).count p ↔
      p < stream.length ∧ s ≤ epochOf stream p ∧ AbortedUntil stream m e p := by
  have hrange := h.block_range.mp ⟨b, heb⟩
  have hd := h.delivered
  induction e generalizing b with
  | zero =>
      have hnone : (carried 0).count p = 0 := by
        rw [List.count_eq_zero]
        intro hp
        have := (h.carried_mem 0 p hp).2.1
        omega
      rw [hnone, Nat.add_zero]
      unfold AbortedUntil
      constructor
      · intro hpos
        obtain ⟨hlt, hep⟩ := fresh_pos hpos
        exact ⟨hlt, by omega, hep.le, by omega⟩
      · rintro ⟨hlt, -, hep, -⟩
        unfold fresh
        rw [if_pos ⟨hlt, Nat.le_zero.mp hep⟩]
        exact Nat.one_pos
  | succ e ih =>
      have hprev : p ∈ carried (e + 1) → 0 < fresh stream stream.length e p + (carried e).count p ∧
          s ≤ e ∧ ∃ b, (e, b) ∈ m.blocks := by
        intro hp
        have hlt := (h.carried_mem _ p hp).2.2
        obtain ⟨b', hb'⟩ := h.block_range.mpr ⟨Nat.le_of_lt_succ hlt, by omega⟩
        have hafter := h.after e b' hb' p
        have hpos := List.count_pos_iff.mpr hp
        exact ⟨by omega, by omega, b', hb'⟩
      constructor
      · intro hpos
        rcases Nat.eq_zero_or_pos (fresh stream stream.length (e + 1) p) with hzero | hfresh
        · have hp : p ∈ carried (e + 1) := List.count_pos_iff.mp (by omega)
          obtain ⟨hbatch, hs, b', hb'⟩ := hprev hp
          obtain ⟨hlt, hsp, hle, hab⟩ := (ih hb' (h.block_range.mp ⟨b', hb'⟩)).mp hbatch
          refine ⟨hlt, hsp, Nat.le_succ_of_le hle, fun e' hep he' => ?_⟩
          by_cases hlast : e' = e
          · rw [hlast]
            exact h.aborted e p hp
          · exact hab e' hep (by omega)
        · obtain ⟨hlt, hep⟩ := fresh_pos hfresh
          exact ⟨hlt, by omega, hep.le, by omega⟩
      · rintro ⟨hlt, hsp, hle, hab⟩
        by_cases hep : epochOf stream p = e + 1
        · unfold fresh
          rw [if_pos ⟨hlt, hep⟩]
          omega
        · have hp : p ∈ carried (e + 1) :=
            (h.mem_carried_iff hreuse).mpr (hab e (by omega) (Nat.lt_succ_self e))
          have := List.count_pos_iff.mpr hp
          omega

theorem Inv.mem_block_without_reuse (hreuse : cfg.reusingAbortTransaction = false)
    (heb : (e, b) ∈ m.blocks) :
    p ∈ b ↔ p < stream.length ∧ epochOf stream p = e := by
  have hafter := h.after e b heb p
  rw [h.carried_off hreuse, h.carried_off hreuse, List.count_nil] at hafter
  rw [← List.count_pos_iff]
  unfold fresh at hafter
  split at hafter
  · rename_i hand
    exact iff_of_true (by omega) hand
  · rename_i hand
    exact iff_of_false (by omega) hand

theorem Inv.mem_block_with_reuse (hreuse : cfg.reusingAbortTransaction = true)
    (heb : (e, b) ∈ m.blocks) :
    p ∈ b ↔ p < stream.length ∧ s ≤ epochOf stream p ∧ AbortedUntil stream m e p ∧
      m.outcome e p ≠ some .abort := by
  have hafter := h.after e b heb p
  have hle := h.batch_le stream.length e p
  have hbatch := h.batch_iff hreuse heb p
  have hcarried : 0 < (carried (e + 1)).count p ↔ m.outcome e p = some .abort :=
    List.count_pos_iff.trans (h.mem_carried_iff hreuse)
  rw [← List.count_pos_iff]
  constructor
  · intro hpos
    obtain ⟨hlt, hsp, huntil⟩ := hbatch.mp (by omega)
    refine ⟨hlt, hsp, huntil, fun hout => ?_⟩
    have := hcarried.mpr hout
    omega
  · rintro ⟨hlt, hsp, huntil, hout⟩
    have hin := hbatch.mpr ⟨hlt, hsp, huntil⟩
    have hnot : (carried (e + 1)).count p = 0 :=
      Nat.eq_zero_of_not_pos fun hpos => hout (hcarried.mp hpos)
    omega

theorem Inv.one_block {e' : Nat} {b' : List Nat} (heb : (e, b) ∈ m.blocks)
    (heb' : (e', b') ∈ m.blocks) (hp : p ∈ b) (hp' : p ∈ b') : e = e' := by
  cases hreuse : cfg.reusingAbortTransaction with
  | false =>
      have he := ((h.mem_block_without_reuse hreuse heb).mp hp).2
      have he' := ((h.mem_block_without_reuse hreuse heb').mp hp').2
      omega
  | true =>
      obtain ⟨-, -, ⟨hle, hab⟩, hout⟩ := (h.mem_block_with_reuse hreuse heb).mp hp
      obtain ⟨-, -, ⟨hle', hab'⟩, hout'⟩ := (h.mem_block_with_reuse hreuse heb').mp hp'
      rcases Nat.lt_trichotomy e e' with hlt | heq | hgt
      · exact absurd (hab' e hle hlt) hout
      · exact heq
      · exact absurd (hab e' hle' hgt) hout'

end

/-! ## Sending again -/

theorem Inv.sent_once (h : Inv cfg stream s d carried m) (e p : Nat) : m.sentCount e p ≤ 1 := by
  have hsends := h.sends e p
  have hle := h.batch_le d e p
  omega

/-- Before anything of the epoch after the next is sent, the aborted ones have been. -/
theorem Inv.retried_before (h : Inv cfg stream s d carried m)
    (hreuse : cfg.reusingAbortTransaction = true) (hout : m.outcome e p = some .abort)
    {before after : List (Nat × Transaction)} {x : Nat × Transaction}
    (hsent : m.sent = before ++ x :: after) (hx : e + 2 ≤ x.2.epoch) :
    ∃ t, (p, t) ∈ before ∧ t.epoch = e + 1 := by
  have hcarried := (h.mem_carried_iff hreuse).mpr hout
  have hmem : x ∈ m.sent := by
    rw [hsent]
    exact List.mem_append_right _ List.mem_cons_self
  obtain ⟨hxle, hxwait⟩ := h.sent_le x hmem
  obtain ⟨htwo, hone⟩ := h.reuse_le hreuse
  -- it is not one that was fetched, nor waiting to be sent
  have hunsent : e + 1 = m.currentEpoch → m.unsent.count p = 0 := by
    intro hcur
    rw [List.count_eq_zero]
    intro hp
    have hep := (h.unsent_epoch p hp).2
    have := (h.carried_mem _ p hcarried).2.1
    omega
  have hretry : e + 1 ≠ m.retryEpoch ∨ m.retrying = [] := by
    by_contra hboth
    obtain ⟨he, hne⟩ := not_or.mp hboth
    have he : e + 1 = m.retryEpoch := not_not.mp he
    by_cases hexec : m.callback = .executing
    · have hepoch : m.retryEpoch = m.processingEpoch := by
        unfold retryEpoch
        rw [hexec]
      have hsome : m.reuseTxWrapper ≠ none := by
        intro hnone
        apply hne
        unfold retrying
        rw [hexec, hnone]
        rfl
      have hcur := h.wrapper hreuse hexec hsome
      have hstrict : m.processingEpoch + 1 ≤ m.currentEpoch ∧
          (m.fetch = .waiting → m.processingEpoch + 1 < m.currentEpoch) := by
        rw [← hepoch, ← he]
        exact ⟨hx.trans hxle, fun hw => lt_of_le_of_lt hx (hxwait hw)⟩
      rcases hcur with hle | ⟨heq, hw⟩
      · omega
      · have := hstrict.2 hw
        omega
    · have hepoch : m.retryEpoch = m.processingEpoch + 1 := by
        unfold retryEpoch
        split
        · exact absurd ‹_› hexec
        · rfl
      have hstrict : m.processingEpoch + 2 ≤ m.currentEpoch := by
        have heq : e = m.processingEpoch := by omega
        rw [← heq]
        exact hx.trans hxle
      by_cases hw : m.fetch = .waiting
      · have hlt : e + 2 < m.currentEpoch := lt_of_le_of_lt hx (hxwait hw)
        omega
      · have := hone hw
        omega
  have hsends := h.sends (e + 1) p
  have hcount := List.count_pos_iff.mpr hcarried
  have hunsent' : (if e + 1 = m.currentEpoch then m.unsent.count p else 0) = 0 := by
    split
    · exact hunsent ‹_›
    · rfl
  have hretry' : (if e + 1 = m.retryEpoch then m.retrying.count p else 0) = 0 := by
    rcases hretry with hne | hnil
    · rw [if_neg hne]
    · rw [hnil, List.count_nil, ite_self]
  rw [hunsent', hretry'] at hsends
  obtain ⟨y, hy, rfl, hye⟩ := sentCount_pos (show 0 < m.sentCount (e + 1) p by omega)
  -- the log is in the order of epochs
  have hsorted := h.sorted
  rw [hsent] at hy hsorted
  have hxy : ¬ x.2.epoch ≤ y.2.epoch := by
    rw [hye]
    exact fun hle => absurd (hx.trans hle) (by omega)
  rcases List.mem_append.mp hy with hbefore | hrest
  · exact ⟨y.2, hbefore, hye⟩
  · rcases List.mem_cons.mp hrest with rfl | hafter
    · exact absurd (Nat.le_refl _) hxy
    · have hcons := (List.pairwise_append.mp hsorted).2.1
      exact absurd ((List.pairwise_cons.mp hcons).1 y hafter) hxy

/-- One block for every finished epoch, and every transaction in one of them. -/
theorem every_transaction_one_block (hsorted : stream.Pairwise fun t u => t.epoch ≤ u.epoch)
    {actions : List ManagerAction} (hrun : run (step cfg) (start stream s) actions = some m) :
    m.blocks.map Prod.fst = List.range' s (m.closed - s) ∧
    (∀ e b e' b' p, (e, b) ∈ m.blocks → (e', b') ∈ m.blocks → p ∈ b → p ∈ b' → e = e') ∧
    (∀ e b, (e, b) ∈ m.blocks → b.Nodup) ∧
    (cfg.reusingAbortTransaction = false → ∀ e b, (e, b) ∈ m.blocks →
      ∀ p, p ∈ b ↔ p < stream.length ∧ epochOf stream p = e) ∧
    (cfg.reusingAbortTransaction = true →
      (∀ e b, (e, b) ∈ m.blocks → ∀ p, p ∈ b ↔ p < stream.length ∧ s ≤ epochOf stream p ∧
        AbortedUntil stream m e p ∧ m.outcome e p ≠ some .abort) ∧
      ∀ e p, m.outcome e p = some .abort →
        m.sentCount (e + 1) p ≤ 1 ∧
        (∀ x ∈ m.sent, x.1 = p → x.2.epoch = e + 1 →
          x.2.kvRWSet = {} ∧ x.2.transactionResult = .pending) ∧
        ∀ before x after, m.sent = before ++ x :: after → e + 2 ≤ x.2.epoch →
          ∃ t, (p, t) ∈ before ∧ t.epoch = e + 1) := by
  obtain ⟨d, carried, h⟩ := inv_run hsorted hrun
  refine ⟨h.numbers, fun e b e' b' p heb heb' => h.one_block heb heb', fun e b => h.block_nodup,
    fun hreuse e b heb p => h.mem_block_without_reuse hreuse heb, fun hreuse => ⟨fun e b heb p =>
      h.mem_block_with_reuse hreuse heb, fun e p hout => ⟨h.sent_once _ _, ?_, ?_⟩⟩⟩
  · rintro x hx rfl hxe
    have hcarried := (h.mem_carried_iff hreuse).mpr hout
    have hlt := (h.carried_mem _ _ hcarried).2.1
    exact h.snapshot x hx (hxe ▸ hlt)
  · intro before x after hsent hx
    exact h.retried_before hreuse hout hsent hx

/-! ## A transaction that is aborted once -/

/-- One transaction in each of the epochs 1, 2 and 3. -/
def threeEpochs : List Transaction := [{ epoch := 1 }, { epoch := 2 }, { epoch := 3 }]

/-- Fetching and sending the next transaction. -/
def fetchOne : List ManagerAction := [.getTransaction 1, .enqueue, .sendTransaction]

def retryOnce : List ManagerAction :=
  fetchOne ++ ([.nextEpoch, .resume] : List ManagerAction) ++ fetchOne ++
    ([.execute 0 {} .abort, .epochFinishedCallback, .tryDequeue 0, .endOfQueue, .generateBlock,
      .finish, .nextEpoch, .resume] : List ManagerAction) ++ fetchOne ++
    ([.execute 0 {} .commit, .execute 1 {} .commit, .epochFinishedCallback, .tryDequeue 1,
      .tryDequeue 0, .endOfQueue, .generateBlock] : List ManagerAction)

theorem every_transaction_one_block_retry :
    ∃ m, run (step ⟨true, true⟩) (start threeEpochs 1) retryOnce = some m ∧
      m.blocks = [(1, []), (2, [0, 1])] ∧ m.outcome 1 0 = some .abort ∧ m.sentCount 2 0 ≤ 1 := by
  have hany : (run (step ⟨true, true⟩) (start threeEpochs 1) retryOnce).any
      (fun m => m.blocks = [(1, []), (2, [0, 1])] ∧ m.outcome 1 0 = some .abort) = true := by decide
  obtain ⟨m, hm, hblocks, hout⟩ := exists_of_any hany
  have hall := every_transaction_one_block (by decide) hm
  exact ⟨m, hm, hblocks, hout, ((hall.2.2.2.2 rfl).2 1 0 hout).1⟩

end NeuChain.Server.TransactionManagerImpl
