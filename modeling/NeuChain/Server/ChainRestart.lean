/-
  The chain of saved blocks across a restart.

  A process that starts on the files of a chain has an empty `previousDataHash`. The hash in a stored
  header has 32 bytes, so the `CHECK` of `generateBlockHeader` that compares the two fails for
  every next block, whatever was run and restarted before.

  * `restart_rejects_next_block`: with a block saved, a restart ends the chain. No header is
    accepted, the number of blocks stays, and the first body to be finished stops the process.

  A restart may come at any point, also between the file of a block and `block_num.txt`.
-/
import NeuChain.Server.HashChain

namespace NeuChain.Server

open NeuChain Lib Merkle

namespace BlockGeneratorImpl

variable {sha : SHA256} {msg : Messages} {sign : Bytes → Bytes} {g g' : BlockGeneratorImpl}
  {a : BlockAction}

inductive ProcessAction where
  | act (a : BlockAction)
  | restart (resetEpoch : Bool)

def stepOrRestart (sha : SHA256) (msg : Messages) (sign : Bytes → Bytes) (g : BlockGeneratorImpl) :
    ProcessAction → Option BlockGeneratorImpl
  | .act a => g.step sha msg sign a
  | .restart resetEpoch => some (g.restart resetEpoch)

/-- The block becomes the next one of the stored chain. -/
def Accepted (sha : SHA256) (g : BlockGeneratorImpl) (block : Block) : Prop :=
  ∃ block' hashResult stored,
    generateBlockHeader sha g.storage g.previousDataHash block = some (block', hashResult) ∧
      block'.header.number = g.storage.blockNum + 1 ∧
      g.storage.blockFile g.storage.blockNum = some stored ∧
      block'.header.previousHash = stored.header.dataHash

/-- What holds of the files in every process. -/
structure Stored (g : BlockGeneratorImpl) : Prop where
  latest : g.storage.bufferedEpochFromFile = g.written
  hashed : ∀ k < g.written, ∃ b, g.storage.blockFile (k + 1) = some b ∧
    b.header.dataHash.length = sha256HashSize
  inHand : ∀ b, g.runState = .inserting b →
    b.header.number = g.storage.blockNum + 1 ∧ b.header.dataHash.length = sha256HashSize

theorem Stored.restart (h : Stored g) (resetEpoch : Bool) : Stored (g.restart resetEpoch) := by
  have hle : g.storage.blockNum ≤ g.written := by
    unfold written
    split <;> omega
  cases resetEpoch with
  | true =>
      refine ⟨rfl, fun k hk => ?_, fun b hb => ?_⟩
      · exact absurd hk (Nat.not_lt_zero k)
      · cases hb
  | false =>
      refine ⟨rfl, fun k hk => ?_, fun b hb => ?_⟩
      · have hk : k < g.storage.blockNum := hk
        exact h.hashed k (by omega)
      · cases hb

theorem Stored.step (h : Stored g) (hstep : g.step sha msg sign a = some g') : Stored g' := by
  cases step_cases hstep with
  | add t => exact ⟨h.latest, h.hashed, h.inHand⟩
  | call => exact ⟨h.latest, h.hashed, h.inHand⟩
  | body hbody =>
      obtain ⟨e, queue, -, ⟨-, rfl⟩ | ⟨block, -, rfl⟩⟩ := body_cases hbody
      · exact ⟨h.latest, h.hashed, h.inHand⟩
      · exact ⟨h.latest, h.hashed, h.inHand⟩
  | header hcall =>
      obtain ⟨hwait, block, -, ⟨-, rfl⟩ | ⟨block', hashResult, hheader, rfl⟩⟩ :=
        header_cases hcall
      · exact ⟨h.latest, h.hashed, h.inHand⟩
      · have hwritten : g.written = g.storage.blockNum := by
          unfold written
          rw [hwait]
        obtain ⟨hnum, hhash, hlen⟩ := generateBlockHeader_spec hheader
        refine ⟨h.latest.trans hwritten, fun k hk => h.hashed k (hwritten ▸ hk), fun b hb => ?_⟩
        cases hb
        refine ⟨hnum.trans ?_, hhash ▸ hlen⟩
        exact congrArg (· + 1) (h.latest.trans hwritten)
  | @insert block hrun =>
      obtain ⟨hnum, hlen⟩ := h.inHand block hrun
      have hwritten : g.written = g.storage.blockNum := by
        unfold written
        rw [hrun]
      refine ⟨hnum, fun k hk => ?_, fun b hb => ?_⟩
      · have hk : k < g.storage.blockNum + 1 := hk
        change ∃ b, Function.update g.storage.blockFile block.header.number (some block) _ = _ ∧ _
        rw [hnum]
        by_cases hlast : k = g.storage.blockNum
        · subst hlast
          exact ⟨block, Function.update_self .., hlen⟩
        · rw [Function.update_of_ne (by omega)]
          exact h.hashed k (by omega)
      · cases hb
  | update hrun =>
      refine ⟨rfl, fun k hk => ?_, fun b hb => ?_⟩
      · have hk : k < g.storage.bufferedEpochFromFile := hk
        exact h.hashed k (h.latest ▸ hk)
      · cases hb

theorem stored_run {storage : BlockStorageToFile} {resetEpoch : Bool} {actions : List ProcessAction}
    (hempty : (storage.construct resetEpoch).blockNum = 0)
    (h : run (stepOrRestart sha msg sign) (start storage resetEpoch) actions = some g) :
    Stored g := by
  refine run_invariant Stored ?_ h ?_
  · intro g₁ a g₂ hg hstep
    cases a with
    | act a => exact hg.step hstep
    | restart resetEpoch =>
        cases hstep
        exact hg.restart resetEpoch
  · have hinv := @Inv.start zeroSHA256 msg sign storage resetEpoch hempty
    refine ⟨hinv.latest, fun k hk => ?_, fun b hb => ?_⟩
    · have hk : k < (storage.construct resetEpoch).blockNum := hk
      omega
    · cases hb

/-- The empty static is not the hash of a stored block. -/
theorem Stored.header_none (h : Stored g) (hn : 1 ≤ g.storage.blockNum) (block : Block) :
    generateBlockHeader sha (g.restart false).storage [] block = none := by
  cases hheader : generateBlockHeader sha (g.restart false).storage [] block with
  | none => rfl
  | some result =>
      obtain ⟨m₀, h₀, hrest⟩ := Option.bind_eq_some_iff.mp hheader
      obtain ⟨m₁, h₁, -⟩ := Option.bind_eq_some_iff.mp hrest
      rw [generateBlockHeader_eq [] h₀ h₁] at hheader
      have hlatest : (g.restart false).storage.getLatestSavedEpoch = g.storage.blockNum := rfl
      rw [hlatest, if_pos (Nat.lt_of_succ_le hn)] at hheader
      obtain ⟨previous, hload, hif⟩ := Option.bind_eq_some_iff.mp hheader
      obtain ⟨n, hn'⟩ : ∃ n, g.storage.blockNum = n + 1 := ⟨g.storage.blockNum - 1, by omega⟩
      have hlt : n < (g.restart false).written := by
        change n < g.storage.blockNum
        omega
      obtain ⟨b, hfile, hlen⟩ := (h.restart false).hashed n hlt
      have hfile' : previous = b := by
        unfold BlockStorageToFile.loadBlock at hload
        split at hload
        · cases hload
        · rw [hn', hfile] at hload
          exact (Option.some.inj hload).symm
      split at hif
      · rename_i hempty
        rw [hfile'] at hempty
        rw [hempty] at hlen
        cases hlen
      · cases hif

/-- A restarted process that has saved nothing. -/
structure Stuck (g₀ g : BlockGeneratorImpl) : Prop where
  storage : g.storage = (g₀.restart false).storage
  previousDataHash : g.previousDataHash = []
  waiting : g.runState = .waiting

variable {g₀ : BlockGeneratorImpl}

theorem Stored.header_crashes (h : Stored g₀) (hn : 1 ≤ g₀.storage.blockNum) (hs : Stuck g₀ g)
    (hstep : g.header sha = some g') : g' = { g with crashed := true } := by
  obtain ⟨-, block, -, ⟨-, rfl⟩ | ⟨block', hashResult, hheader, -⟩⟩ := header_cases hstep
  · rfl
  · rw [hs.storage, hs.previousDataHash, h.header_none hn] at hheader
    cases hheader

theorem Stored.stuck_step (h : Stored g₀) (hn : 1 ≤ g₀.storage.blockNum) (hs : Stuck g₀ g)
    (hstep : g.step sha msg sign a = some g') :
    Stuck g₀ g' ∧ (a = .generateBlockHeader → g'.crashed = true) := by
  cases step_cases hstep with
  | add t => exact ⟨⟨hs.storage, hs.previousDataHash, hs.waiting⟩, by simp⟩
  | call => exact ⟨⟨hs.storage, hs.previousDataHash, hs.waiting⟩, by simp⟩
  | body hbody =>
      obtain ⟨e, queue, -, ⟨-, rfl⟩ | ⟨block, -, rfl⟩⟩ := body_cases hbody
      · exact ⟨⟨hs.storage, hs.previousDataHash, hs.waiting⟩, by simp⟩
      · exact ⟨⟨hs.storage, hs.previousDataHash, hs.waiting⟩, by simp⟩
  | header hcall =>
      obtain rfl := h.header_crashes hn hs hcall
      exact ⟨⟨hs.storage, hs.previousDataHash, hs.waiting⟩, fun _ => rfl⟩
  | insert hrun =>
      rw [hs.waiting] at hrun
      cases hrun
  | update hrun =>
      rw [hs.waiting] at hrun
      cases hrun

theorem Stored.stuck_run (h : Stored g₀) (hn : 1 ≤ g₀.storage.blockNum) {more : List BlockAction}
    (hrun : run (BlockGeneratorImpl.step sha msg sign) (g₀.restart false) more = some g) :
    Stuck g₀ g :=
  run_invariant (Stuck g₀) (fun _ _ _ hs hstep => (h.stuck_step hn hs hstep).1) hrun
    ⟨rfl, rfl, rfl⟩

/-- No step leads on from a crash. -/
theorem run_of_crashed (hc : g.crashed = true) {more : List BlockAction}
    (hrun : run (step sha msg sign) g more = some g') : g'.crashed = true := by
  cases more with
  | nil =>
      cases hrun
      exact hc
  | cons a more =>
      obtain ⟨g₁, hstep, -⟩ := run_cons_eq_some.mp hrun
      rw [not_crashed_of_step hstep] at hc
      cases hc

/-- Nothing is saved after the restart of a process that has saved a block. -/
theorem restart_rejects_next_block {storage : BlockStorageToFile} {resetEpoch : Bool}
    {actions : List ProcessAction} (hempty : (storage.construct resetEpoch).blockNum = 0)
    (h : run (stepOrRestart sha msg sign) (start storage resetEpoch) actions = some g)
    (hn : 1 ≤ g.storage.blockNum) :
    (∀ block, ¬ Accepted sha (g.restart false) block) ∧
      ∀ more g', run (step sha msg sign) (g.restart false) more = some g' →
        g'.storage.blockNum = g.storage.blockNum ∧
          (BlockAction.generateBlockHeader ∈ more → g'.crashed = true) := by
  have hstored := stored_run hempty h
  refine ⟨?_, fun more g' hrun => ⟨?_, fun hmem => ?_⟩⟩
  · rintro block ⟨block', hashResult, stored, hheader, -⟩
    have hnone := @Stored.header_none sha g hstored hn block
    have hstatic : (g.restart false).previousDataHash = [] := rfl
    rw [hstatic, hnone] at hheader
    cases hheader
  · rw [(hstored.stuck_run hn hrun).storage]
    rfl
  · obtain ⟨before, after, rfl⟩ := List.append_of_mem hmem
    obtain ⟨g₁, g₂, hbefore, hstep, hafter⟩ := run_split hrun
    have hcrash := (hstored.stuck_step hn (hstored.stuck_run hn hbefore) hstep).2 rfl
    exact run_of_crashed hcrash hafter

/-- One block is saved, the process is restarted, and the next block stops it. -/
theorem restart_stops_chain :
    ∃ g, run (stepOrRestart zeroSHA256 emptyMessages id) (start {} true)
        ((saveOne 1).map .act ++ .restart false :: ((saveOne 2).take 4).map .act) = some g ∧
      g.crashed = true ∧ g.storage.blockNum = 1 := by
  have hany : (run (stepOrRestart zeroSHA256 emptyMessages id) (start {} true)
      ((saveOne 1).map .act ++ .restart false :: ((saveOne 2).take 4).map .act)).any
      (fun g => g.crashed = true ∧ g.storage.blockNum = 1) = true := by decide
  obtain ⟨g, hg, hprop⟩ := exists_of_any hany
  exact ⟨g, hg, hprop⟩

theorem restart_rejects_next_block_one :
    ∃ g, run (stepOrRestart zeroSHA256 emptyMessages id) (start {} true) ((saveOne 1).map .act) =
        some g ∧ ∀ block, ¬ Accepted zeroSHA256 (g.restart false) block := by
  have hany : (run (stepOrRestart zeroSHA256 emptyMessages id) (start {} true)
      ((saveOne 1).map .act)).any (fun g => 1 ≤ g.storage.blockNum) = true := by decide
  obtain ⟨g, hg, hn⟩ := exists_of_any hany
  exact ⟨g, hg, (restart_rejects_next_block rfl hg hn).1⟩

end BlockGeneratorImpl

end NeuChain.Server
