/-
  `BlockStorageToFile` and what is left on disk when the process stops.

  A file that is opened for output is empty from then on, and every write to a stream is a step of
  its own: `SerializeToOstream` makes any number of them, `<<` one. A crash may come between any two
  steps and loses what the process knew. The next process constructs a `BlockStorageToFile` with
  `resetEpoch` false. It reads `block_num.txt` with `>>`, which leaves the variable alone if
  there is nothing to read. The variable has not been initialised: what it holds then is the
  parameter `garbage`.

  Left out: errors of the file system, and the lock, which only readers contend for.

  * `crash_consistent_iff`: the next process finds the blocks, unless the crash came between the
    opening of `block_num.txt` and the write to it.
-/
import NeuChain.Lib.Decimal
import NeuChain.Lib.Log
import NeuChain.Lib.Run
import NeuChain.Server.BlockFormat

namespace NeuChain.Server

open NeuChain Lib

/-! ## Files -/

inductive FileName where
  | blockNum
  | bin (epoch : Nat)
deriving DecidableEq, Repr

abbrev Files := FileName → Option Bytes

def Files.openForOutput (files : Files) (name : FileName) : Files :=
  Function.update files name (some [])

def Files.write (files : Files) (name : FileName) (data : Bytes) : Files :=
  Function.update files name (some ((files name).getD [] ++ data))

section Files

variable (files : Files) {name other : FileName} (data : Bytes)

theorem Files.openForOutput_self (name : FileName) : files.openForOutput name name = some [] :=
  Function.update_self _ _ _

theorem Files.openForOutput_of_ne (h : other ≠ name) :
    files.openForOutput name other = files other := Function.update_of_ne h _ _

theorem Files.write_self (name : FileName) :
    files.write name data name = some ((files name).getD [] ++ data) := Function.update_self _ _ _

theorem Files.write_of_ne (h : other ≠ name) : files.write name data other = files other :=
  Function.update_of_ne h _ _

end Files

/-- `ifs >> epoch` on a file with these contents. A sign is accepted, and a number that is too
    large gives the largest one. -/
def extractEpoch (garbage : Nat) (contents : Option Bytes) : Nat :=
  match (contents.getD []).dropWhile Decimal.isSpace with
  | [] => garbage
  | 45 :: rest =>
      let n := Decimal.number rest
      if n < 2 ^ 64 then (2 ^ 64 - n) % 2 ^ 64 else 2 ^ 64 - 1
  | 43 :: rest => min (Decimal.number rest) (2 ^ 64 - 1)
  | rest => min (Decimal.number rest) (2 ^ 64 - 1)

/-! ## Appending blocks -/

/-- Where `appendBlock` is. -/
inductive AppendState where
  | idle
  /-- In `insertBlock`, before the file is opened. -/
  | inserting (block : Block)
  | writing (block : Block) (rest : Bytes)
  /-- In `updateLatestSavedEpoch`, before the file is opened. -/
  | updating (block : Block)
  | counting (block : Block)
  | returning (block : Block)
deriving DecidableEq, Repr

def AppendState.block : AppendState → Option Block
  | .idle => none
  | .inserting block => some block
  | .writing block _ => some block
  | .updating block => some block
  | .counting block => some block
  | .returning block => some block

structure StorageProcess where
  files : Files
  bufferedEpochFromFile : Nat := 0
  state : AppendState := .idle
  /-- The blocks for which `appendBlock` has returned true, and those a new process has found. -/
  returned : List Block := []

inductive StorageAction where
  | appendBlock (block : Block)
  /-- The next step; one write of the block takes this many bytes. -/
  | fileStep (n : Nat)
  /-- The process stops, and the next one starts. -/
  | restart (garbage : Nat)
deriving DecidableEq, Repr

namespace StorageProcess

/-- The blocks that `appendBlock` was called for. -/
def appended (s : StorageProcess) : List Block := s.returned ++ s.state.block.toList

/-- The constructor, with `resetEpoch` false: the epoch it reports. -/
def loadEpoch (s : StorageProcess) (garbage : Nat) : Nat :=
  extractEpoch garbage (s.files .blockNum)

/-- `loadBlock` of a storage that has reported `bufferedEpochFromFile`. -/
def loadBlock (files : Files) (bufferedEpochFromFile epoch : Nat) : Option Block :=
  if bufferedEpochFromFile < epoch then none
  else (files (.bin epoch)).bind Block.parseFromString

def step (s : StorageProcess) : StorageAction → Option StorageProcess
  | .appendBlock block =>
      if s.state = .idle ∧ block.header.number = s.returned.length + 1 then
        some { s with state := .inserting block }
      else none
  | .fileStep n =>
      match s.state with
      | .idle => none
      | .inserting block =>
          some { s with
            files := s.files.openForOutput (.bin block.header.number)
            state := .writing block block.serializeAsString }
      | .writing block [] =>
          some { s with bufferedEpochFromFile := block.header.number, state := .updating block }
      | .writing block rest =>
          some { s with
            files := s.files.write (.bin block.header.number) (rest.take n)
            state := .writing block (rest.drop n) }
      | .updating block =>
          some { s with files := s.files.openForOutput .blockNum, state := .counting block }
      | .counting block =>
          some { s with
            files := s.files.write .blockNum (Decimal.natToString s.bufferedEpochFromFile)
            state := .returning block }
      | .returning block => some { s with state := .idle, returned := s.returned ++ [block] }
  | .restart garbage =>
      let epoch := s.loadEpoch garbage
      some
        { files := s.files
          bufferedEpochFromFile := epoch
          returned := s.appended.take epoch }

/-- The first process has reset the epoch. -/
def start (files : Files) : StorageProcess :=
  { files := (files.openForOutput .blockNum).write .blockNum (Decimal.natToString 0) }

/-- A block that protobuf can serialize. -/
def Storable (block : Block) : Prop :=
  block.header.number < 2 ^ 64 ∧ block.serializeAsString.length < 2 ^ 31

/-- What the next process finds is all that was appended, or all but the last block. -/
def Consistent (s : StorageProcess) (garbage : Nat) : Prop :=
  (s.loadEpoch garbage = s.returned.length ∨ s.loadEpoch garbage = s.returned.length + 1) ∧
    ∀ k < s.loadEpoch garbage, ∃ block, s.appended[k]? = some block ∧
      loadBlock s.files (s.loadEpoch garbage) (k + 1) = some block

/-- No block is too large, and no crash comes between the opening of `block_num.txt` and the write
    to it. -/
def Proper (s : StorageProcess) : StorageAction → Prop
  | .appendBlock block => Storable block
  | .fileStep _ => True
  | .restart _ => ∀ block, s.state ≠ .counting block

/-! ## The invariant -/

/-- What `block_num.txt` holds. -/
def counter (n : Nat) : AppendState → Bytes
  | .counting _ => []
  | .returning _ => Decimal.natToString (n + 1)
  | _ => Decimal.natToString n

/-- The latest epoch as it is reported while a block is appended. -/
def reported (n : Nat) : AppendState → Nat
  | .idle | .inserting _ | .writing _ _ => n
  | _ => n + 1

/-- What the file of the block that is being appended holds. -/
def CurrentFile (files : Files) : AppendState → Prop
  | .idle => True
  | .inserting _ => True
  | .writing block rest =>
      ∃ done, files (.bin block.header.number) = some done ∧ done ++ rest = block.serializeAsString
  | .updating block => files (.bin block.header.number) = some block.serializeAsString
  | .counting block => files (.bin block.header.number) = some block.serializeAsString
  | .returning block => files (.bin block.header.number) = some block.serializeAsString

structure Inv (s : StorageProcess) : Prop where
  numbered : ∀ k block, s.appended[k]? = some block → block.header.number = k + 1 ∧ Storable block
  stored : ∀ k block, s.returned[k]? = some block →
    s.files (.bin (k + 1)) = some block.serializeAsString
  current : CurrentFile s.files s.state
  counter : s.files .blockNum = some (counter s.returned.length s.state)
  buffered : s.bufferedEpochFromFile = reported s.returned.length s.state

section

variable {s s' : StorageProcess} {block : Block} {files : Files} {a : StorageAction}

theorem inv_start (files : Files) : Inv (start files) where
  numbered k block h := by simp [appended, start, AppendState.block] at h
  stored k block h := by simp [start] at h
  current := trivial
  counter := by simp [start, Files.write, Files.openForOutput, StorageProcess.counter]
  buffered := rfl

theorem Inv.block_eq (hinv : Inv s) (hblock : s.state.block = some block) :
    block.header.number = s.returned.length + 1 ∧ Storable block := by
  refine hinv.numbered _ _ ?_
  rw [appended, hblock]
  simp

/-- The files of the blocks before are left alone. -/
theorem Inv.stored_of_agree (hinv : Inv s)
    (hagree : ∀ k < s.returned.length, files (.bin (k + 1)) = s.files (.bin (k + 1))) (k : Nat)
    (block : Block) (hk : s.returned[k]? = some block) :
    files (.bin (k + 1)) = some block.serializeAsString := by
  obtain ⟨hlt, -⟩ := List.getElem?_eq_some_iff.mp hk
  rw [hagree k hlt]
  exact hinv.stored k block hk

theorem bin_ne_bin {k n : Nat} (hk : k < n) : FileName.bin (k + 1) ≠ FileName.bin (n + 1) := by
  intro heq
  cases heq
  omega

theorem inv_appendBlock (hinv : Inv s) (hstorable : Storable block)
    (h : s.step (.appendBlock block) = some s') : Inv s' := by
  unfold step at h
  simp only [Option.ite_none_right_eq_some, Option.some.injEq] at h
  obtain ⟨⟨hidle, hnumber⟩, rfl⟩ := h
  obtain ⟨-, -, -, hcounter, hbuffered⟩ := id hinv
  rw [hidle] at hcounter hbuffered
  refine ⟨?_, hinv.stored, trivial, hcounter, hbuffered⟩
  intro k b hk
  rcases getElem?_snoc hk with hk | ⟨rfl, rfl⟩
  · refine hinv.numbered k b ?_
    rw [appended, List.getElem?_append_left (List.getElem?_eq_some_iff.mp hk).1]
    exact hk
  · exact ⟨hnumber, hstorable⟩

theorem bin_ne_blockNum (n : Nat) : FileName.bin n ≠ .blockNum := by simp

theorem blockNum_ne_bin (n : Nat) : FileName.blockNum ≠ .bin n := by simp

theorem inv_fileStep {n : Nat} (hinv : Inv s) (h : s.step (.fileStep n) = some s') : Inv s' := by
  obtain ⟨files, buffered, state, returned⟩ := s
  have hblock : ∀ b, state.block = some b → b.header.number = returned.length + 1 ∧ Storable b :=
    fun _ hb => hinv.block_eq hb
  obtain ⟨hnumbered, -, hcurrent, hcounter, hbuffered⟩ := id hinv
  dsimp only at hcurrent hcounter hbuffered
  cases state with
  | idle => cases h
  | inserting block =>
      cases h
      obtain ⟨hnumber, -⟩ := hblock block rfl
      refine ⟨hnumbered, ?_, ?_, ?_, hbuffered⟩
      · refine hinv.stored_of_agree fun k hk => ?_
        rw [hnumber]
        exact files.openForOutput_of_ne (bin_ne_bin hk)
      · exact ⟨[], files.openForOutput_self _, rfl⟩
      · exact (files.openForOutput_of_ne (blockNum_ne_bin block.header.number)).trans hcounter
  | writing block rest =>
      obtain ⟨hnumber, -⟩ := hblock block rfl
      obtain ⟨done, hdone, happend⟩ := hcurrent
      cases rest with
      | nil =>
          cases h
          rw [List.append_nil] at happend
          exact ⟨hnumbered, hinv.stored, hdone.trans (congrArg some happend), hcounter, hnumber⟩
      | cons b rest =>
          cases h
          refine ⟨hnumbered, ?_, ?_, ?_, hbuffered⟩
          · refine hinv.stored_of_agree fun k hk => ?_
            rw [hnumber]
            exact files.write_of_ne _ (bin_ne_bin hk)
          · refine ⟨done ++ (b :: rest).take n, (files.write_self _ _).trans ?_, ?_⟩
            · rw [hdone]
              rfl
            · rw [List.append_assoc, List.take_append_drop]
              exact happend
          · exact (files.write_of_ne ((b :: rest).take n)
              (blockNum_ne_bin block.header.number)).trans hcounter
  | updating block =>
      cases h
      refine ⟨hnumbered, ?_, ?_, files.openForOutput_self .blockNum, hbuffered⟩
      · exact hinv.stored_of_agree fun k _ => files.openForOutput_of_ne (bin_ne_blockNum _)
      · exact (files.openForOutput_of_ne (bin_ne_blockNum _)).trans hcurrent
  | counting block =>
      cases h
      refine ⟨hnumbered, ?_, ?_, (files.write_self _ .blockNum).trans ?_, hbuffered⟩
      · exact hinv.stored_of_agree fun k _ =>
          files.write_of_ne (Decimal.natToString buffered) (bin_ne_blockNum _)
      · exact (files.write_of_ne (Decimal.natToString buffered) (bin_ne_blockNum _)).trans hcurrent
      · have hempty : files .blockNum = some [] := hcounter
        rw [hempty, hbuffered]
        rfl
  | returning block =>
      cases h
      obtain ⟨hnumber, -⟩ := hblock block rfl
      have hlen : (returned ++ [block]).length = returned.length + 1 := List.length_append
      refine ⟨?_, ?_, trivial, ?_, hbuffered.trans hlen.symm⟩
      · simpa [appended, AppendState.block] using hnumbered
      · intro k b hk
        rcases getElem?_snoc hk with hk | ⟨rfl, rfl⟩
        · exact hinv.stored k b hk
        · exact hnumber ▸ hcurrent
      · show files .blockNum = some (Decimal.natToString (returned ++ [block]).length)
        rw [hlen]
        exact hcounter

theorem extractEpoch_natToString {n : Nat} (hn : n < 2 ^ 64) (garbage : Nat) :
    extractEpoch garbage (some (Decimal.natToString n)) = n := by
  obtain ⟨c, rest, hcons, hc⟩ := Decimal.natToString_eq_cons n
  have hnumber := Decimal.number_natToString n
  have hle := Decimal.toNat_of_isDigit hc
  unfold extractEpoch
  rw [hcons] at hnumber
  rw [Option.getD_some, hcons, Decimal.dropWhile_isSpace_of_digit hc]
  -- a digit is no sign
  split
  · rename_i heq
    cases heq
  · rename_i heq
    cases heq
    exact absurd hle.1 (by decide)
  · rename_i heq
    cases heq
    exact absurd hle.1 (by decide)
  · rw [hnumber]
    omega

/-- A process that starts now finds these blocks. -/
structure Finds (s : StorageProcess) (epoch : Nat) : Prop where
  counter : s.files .blockNum = some (Decimal.natToString epoch)
  epoch_eq : epoch = s.returned.length ∨ epoch = s.returned.length + 1
  stored : ∀ k < epoch, ∃ block, s.appended[k]? = some block ∧
    s.files (.bin (k + 1)) = some block.serializeAsString

theorem Inv.stored_returned (hinv : Inv s) {k : Nat} (hk : k < s.returned.length) :
    ∃ block, s.appended[k]? = some block ∧
      s.files (.bin (k + 1)) = some block.serializeAsString := by
  have hget : s.returned[k]? = some s.returned[k] := List.getElem?_eq_getElem hk
  refine ⟨s.returned[k], ?_, hinv.stored k _ hget⟩
  rw [appended, List.getElem?_append_left hk]
  exact hget

theorem Inv.finds (hinv : Inv s) (hnot : ∀ block, s.state ≠ .counting block) :
    ∃ epoch, Finds s epoch := by
  have hcounter := hinv.counter
  cases hstate : s.state with
  | counting block => exact absurd hstate (hnot block)
  | returning block =>
      rw [hstate] at hcounter
      have hcurrent := hinv.current
      rw [hstate] at hcurrent
      have hblock : s.state.block = some block := by rw [hstate]; rfl
      refine ⟨s.returned.length + 1, hcounter, Or.inr rfl, fun k hk => ?_⟩
      rcases Nat.lt_or_eq_of_le (Nat.lt_succ_iff.mp hk) with hlt | rfl
      · exact hinv.stored_returned hlt
      · refine ⟨block, ?_, (hinv.block_eq hblock).1 ▸ hcurrent⟩
        rw [appended, hblock]
        simp
  | _ =>
      rw [hstate] at hcounter
      exact ⟨_, hcounter, Or.inl rfl, fun _ hk => hinv.stored_returned hk⟩

theorem Inv.loadEpoch_eq (hinv : Inv s) {epoch : Nat} (hfinds : Finds s epoch) (garbage : Nat) :
    s.loadEpoch garbage = epoch := by
  have hlt : epoch < 2 ^ 64 := by
    cases epoch with
    | zero => decide
    | succ k =>
        obtain ⟨block, hget, -⟩ := hfinds.stored k (Nat.lt_succ_self k)
        obtain ⟨hnumber, hstorable⟩ := hinv.numbered k block hget
        exact hnumber ▸ hstorable.1
  rw [loadEpoch, hfinds.counter, extractEpoch_natToString hlt]

theorem inv_restart {garbage : Nat} (hinv : Inv s) (hnot : ∀ block, s.state ≠ .counting block)
    (h : s.step (.restart garbage) = some s') : Inv s' := by
  obtain ⟨epoch, hfinds⟩ := hinv.finds hnot
  have hload := hinv.loadEpoch_eq hfinds garbage
  cases h
  rw [hload]
  have hget : ∀ k block, (s.appended.take epoch)[k]? = some block →
      k < epoch ∧ s.appended[k]? = some block := by
    intro k block hk
    rw [List.getElem?_take] at hk
    split at hk
    · rename_i hlt
      exact ⟨hlt, hk⟩
    · cases hk
  have hlen : (s.appended.take epoch).length = epoch := by
    rw [List.length_take]
    refine Nat.min_eq_left ?_
    cases epoch with
    | zero => exact Nat.zero_le _
    | succ k =>
        obtain ⟨block, hk, -⟩ := hfinds.stored k (Nat.lt_succ_self k)
        exact (List.getElem?_eq_some_iff.mp hk).1
  refine ⟨?_, ?_, trivial, ?_, hlen.symm⟩
  · intro k block hk
    simp only [appended, AppendState.block, Option.toList_none, List.append_nil] at hk
    exact hinv.numbered k block (hget k block hk).2
  · intro k block hk
    obtain ⟨hlt, hk⟩ := hget k block hk
    obtain ⟨block', hk', hfile⟩ := hfinds.stored k hlt
    rw [hk] at hk'
    cases hk'
    exact hfile
  · rw [hlen]
    exact hfinds.counter

theorem inv_step (hinv : Inv s) (hproper : Proper s a) (h : s.step a = some s') : Inv s' := by
  cases a with
  | appendBlock block => exact inv_appendBlock hinv hproper h
  | fileStep n => exact inv_fileStep hinv h
  | restart garbage => exact inv_restart hinv hproper h

theorem Inv.consistent (hinv : Inv s) (hnot : ∀ block, s.state ≠ .counting block)
    (garbage : Nat) : Consistent s garbage := by
  obtain ⟨epoch, hfinds⟩ := hinv.finds hnot
  unfold Consistent
  rw [hinv.loadEpoch_eq hfinds]
  refine ⟨hfinds.epoch_eq, fun k hk => ?_⟩
  obtain ⟨block, hget, hfile⟩ := hfinds.stored k hk
  obtain ⟨-, hstorable⟩ := hinv.numbered k block hget
  refine ⟨block, hget, ?_⟩
  rw [loadBlock, if_neg (by omega), hfile]
  exact Block.parse_serialize hstorable.1 hstorable.2

/-- With an empty `block_num.txt` the report is what happened to be in memory. -/
theorem Inv.not_consistent (hinv : Inv s) (hstate : s.state = .counting block) :
    ∃ garbage < 2 ^ 64, ¬ Consistent s garbage := by
  have hcounter := hinv.counter
  rw [hstate] at hcounter
  have hload : ∀ garbage, s.loadEpoch garbage = garbage := by
    intro garbage
    rw [loadEpoch, hcounter]
    rfl
  refine ⟨if s.returned.length = 0 then 2 else 0, by split <;> decide, ?_⟩
  rintro ⟨hepoch, -⟩
  rw [hload] at hepoch
  split at hepoch <;> omega

end

/-- Along every run of `appendBlock` calls with any number of crashes, none of them between the
    opening of `block_num.txt` and the write to it: the next process reports the blocks that were
    appended, or all but the last, and can load them, whatever was in memory, exactly if
    `block_num.txt` is not just then open and empty. -/
theorem crash_consistent_iff {files : Files} {actions : List StorageAction} {s : StorageProcess}
    (h : run step (start files) actions = some s)
    (hproper : Meets step Proper (start files) actions) :
    (∀ garbage < 2 ^ 64, Consistent s garbage) ↔ ∀ block, s.state ≠ .counting block := by
  have hinv : Inv s := run_invariant_of_meets Proper Inv
    (fun s a s' hinv hproper h => inv_step hinv hproper h) h hproper (inv_start files)
  constructor
  · intro hall block hstate
    obtain ⟨garbage, hlt, hno⟩ := hinv.not_consistent hstate
    exact hno (hall garbage hlt)
  · intro hnot garbage _
    exact hinv.consistent hnot garbage

instance (state : AppendState) : Decidable (∀ block, state ≠ .counting block) :=
  match state with
  | .counting block => isFalse fun h => h block rfl
  | .idle => isTrue fun _ => AppendState.noConfusion
  | .inserting _ => isTrue fun _ => AppendState.noConfusion
  | .writing _ _ => isTrue fun _ => AppendState.noConfusion
  | .updating _ => isTrue fun _ => AppendState.noConfusion
  | .returning _ => isTrue fun _ => AppendState.noConfusion

instance (s : StorageProcess) : (a : StorageAction) → Decidable (Proper s a)
  | .appendBlock _ => inferInstanceAs (Decidable (_ ∧ _))
  | .fileStep _ => isTrue trivial
  | .restart _ => inferInstanceAs (Decidable (∀ block, s.state ≠ .counting block))

/-- Up to the return of `appendBlock`, for a small block. -/
def appendSmall (number : Nat) : List StorageAction :=
  .appendBlock { header := { number := number } } :: List.replicate 6 (.fileStep 100)

/-- A crash in the middle of block 2, and a second attempt that gets as far as the number. -/
theorem crash_consistent_two :
    ∃ s, run step (start fun _ => none) (appendSmall 1 ++ ((appendSmall 2).take 2 ++
        (.restart 7 :: (appendSmall 2).take 4))) = some s ∧
      s.state = .updating { header := { number := 2 } } ∧
      ∀ garbage < 2 ^ 64, Consistent s garbage := by
  have hproper : Meets step Proper (start fun _ => none) (appendSmall 1 ++
      ((appendSmall 2).take 2 ++ (.restart 7 :: (appendSmall 2).take 4))) := by decide +kernel
  have hany : (run step (start fun _ => none) (appendSmall 1 ++ ((appendSmall 2).take 2 ++
      (.restart 7 :: (appendSmall 2).take 4)))).any
        (fun s => s.state = .updating { header := { number := 2 } }) = true := by decide +kernel
  obtain ⟨s, hrun, hstate⟩ := exists_of_any hany
  exact ⟨s, hrun, hstate, (crash_consistent_iff hrun hproper).mpr (by simp [hstate])⟩

/-- A crash right after `block_num.txt` was opened for block 2: the next process may report that
    there are no blocks, and start with block 1 again. -/
theorem crash_forgets_blocks :
    ∃ s, run step (start fun _ => none) (appendSmall 1 ++ (appendSmall 2).take 5) = some s ∧
      s.returned.length = 1 ∧ s.loadEpoch 0 = 0 ∧ ¬ Consistent s 0 := by
  have hany : (run step (start fun _ => none) (appendSmall 1 ++ (appendSmall 2).take 5)).any
      (fun s => s.returned.length = 1 ∧ s.loadEpoch 0 = 0) = true := by decide +kernel
  obtain ⟨s, hrun, hreturned, hload⟩ := exists_of_any hany
  refine ⟨s, hrun, hreturned, hload, ?_⟩
  rintro ⟨hepoch, -⟩
  omega

end StorageProcess

end NeuChain.Server
