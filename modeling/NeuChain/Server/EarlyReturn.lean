/-
  The partial blocks for early responses: what the tasks of `generateBlock` do to
  `partialBlockBuffer` and `partialEpoch`, and what `getPartialConstructedLatestEpoch` and
  `getPartialConstructedBlock` return meanwhile.

  A task of the pool stores the partial block of its epoch, removes the one of 100 epochs before,
  and stores its epoch as the latest. The tasks of several epochs run at the same time. Each of
  these three is a step; what a task does afterwards is not seen by a client. An `observe` is a call
  of the first function and, at the same time, of the second for every epoch. The query controller
  reads the same buffer (`info`).

  * `early_return_tip`: the latest epoch never decreases and its blocks are there, if the tasks
    store it in the order of the epochs, none removes a block before its turn, and no client looks
    after a block has been removed and before the epoch is stored.
-/
import NeuChain.Lib.Log
import NeuChain.Lib.Run
import NeuChain.Server.BlockQuery

namespace NeuChain.Server

open NeuChain Lib

/-- Where a task is in the first part of `generateBlockBody`. -/
inductive BodyPlace where
  | storing
  | removing
  | publishing
deriving DecidableEq, Repr

structure BodyTask where
  epoch : Nat
  txnQueue : TxPriorityQueue
  place : BodyPlace := .storing
deriving DecidableEq, Repr

/-- What a client gets. -/
structure Observation where
  latestEpoch : Nat
  block : Nat → Option Bytes

structure EarlyReturn where
  pendingTransactionQueue : TxPriorityQueue := []
  /-- The static of `generateBlock`. -/
  currentBlockEpoch : Nat
  /-- In the order of the calls. -/
  tasks : List BodyTask := []
  partialBlockBuffer : Nat → Option Block := fun _ => none
  partialEpoch : Nat := 0
  /-- The transactions added since the last call of `generateBlock`, and before each call. -/
  added : List Transaction := []
  calls : List (List Transaction) := []
  observed : List Observation := []

inductive EarlyAction where
  | addCommittedTransaction (t : Transaction)
  | generateBlock
  /-- The `i`-th task that is not done makes a step. -/
  | bodyStep (i : Nat)
  | observe
deriving DecidableEq, Repr

/-- The first block that `generateBlockBody` makes. -/
def partialBlock (epoch : Nat) (txnQueue : TxPriorityQueue) : Block :=
  { header := { number := epoch }, data := txnQueue.map Transaction.serializeResultToString }

namespace EarlyReturn

def getPartialConstructedLatestEpoch (s : EarlyReturn) : Nat := s.partialEpoch

def getPartialConstructedBlock (s : EarlyReturn) (blockNum : Nat) : Option Bytes :=
  (s.partialBlockBuffer blockNum).map Block.serializeAsString

/-- `partialBlockBuffer.remove(epoch - 100)`, if there is such a block. -/
def removeOld (buffer : Nat → Option Block) (epoch : Nat) : Nat → Option Block :=
  if 100 < epoch ∧ (buffer (epoch - 100)).isSome then Function.update buffer (epoch - 100) none
  else buffer

def bodyStep (s : EarlyReturn) (i : Nat) (task : BodyTask) : EarlyReturn :=
  match task.place with
  | .storing =>
      { s with
        partialBlockBuffer := Function.update s.partialBlockBuffer task.epoch
          (some (partialBlock task.epoch task.txnQueue))
        tasks := s.tasks.set i { task with place := .removing } }
  | .removing =>
      { s with
        partialBlockBuffer := removeOld s.partialBlockBuffer task.epoch
        tasks := s.tasks.set i { task with place := .publishing } }
  | .publishing => { s with partialEpoch := task.epoch, tasks := s.tasks.eraseIdx i }

def step (s : EarlyReturn) : EarlyAction → Option EarlyReturn
  | .addCommittedTransaction t =>
      some { s with
        pendingTransactionQueue := addCommittedTransaction s.pendingTransactionQueue t
        added := s.added ++ [t] }
  | .generateBlock =>
      let epoch := s.currentBlockEpoch + 1
      some { s with
        currentBlockEpoch := epoch
        pendingTransactionQueue := []
        tasks := s.tasks ++ [{ epoch := epoch, txnQueue := s.pendingTransactionQueue }]
        added := []
        calls := s.calls ++ [s.added] }
  | .bodyStep i => (s.tasks[i]?).map (s.bodyStep i)
  | .observe =>
      some { s with
        observed := s.observed ++
          [{ latestEpoch := s.getPartialConstructedLatestEpoch
             block := s.getPartialConstructedBlock }] }

/-- The storage has this many blocks. -/
def start (latestSavedEpoch : Nat) : EarlyReturn := { currentBlockEpoch := latestSavedEpoch }

/-- A task removes a block or stores its epoch only after all tasks before it are done, and a client
    does not look in between. -/
def InOrder (s : EarlyReturn) : EarlyAction → Prop
  | .bodyStep i => ∀ task : BodyTask, s.tasks[i]? = some task →
      task.place = .storing ∨ (task.place = .removing ∧ task.epoch ≤ 100) ∨ i = 0
  | .observe => ∀ task ∈ s.tasks, task.place = .publishing → task.epoch ≤ 100
  | _ => True

/-- The block of epoch `k` is what it should be. -/
def Backed (calls : List (List Transaction)) (latestSavedEpoch k : Nat) (block : Option Bytes) :
    Prop :=
  ∃ txs queue, calls[k - latestSavedEpoch - 1]? = some txs ∧ queue.Perm txs ∧
    queue.Pairwise (fun a b => b.tid ≤ a.tid) ∧
    block = some (partialBlock k queue).serializeAsString

/-! ## The invariant -/

/-- The tasks up to epoch `p` are done, in the order of the epochs. -/
structure Inv (e₀ p : Nat) (s : EarlyReturn) : Prop where
  le : e₀ ≤ p
  current : s.currentBlockEpoch = p + s.tasks.length
  calls : s.calls.length + e₀ = s.currentBlockEpoch
  pending : s.pendingTransactionQueue = pushAll s.added
  task : ∀ (i : Nat) (task : BodyTask), s.tasks[i]? = some task → task.epoch = p + 1 + i ∧
    ∃ txs, s.calls[p + i - e₀]? = some txs ∧ task.txnQueue = pushAll txs
  stored : ∀ (i : Nat) (task : BodyTask), s.tasks[i]? = some task → task.place ≠ .storing →
    s.partialBlockBuffer task.epoch = some (partialBlock task.epoch task.txnQueue)
  waiting : ∀ (i : Nat) (task : BodyTask), s.tasks[i + 1]? = some task →
    task.place = .publishing → task.epoch ≤ 100
  tip : (p = e₀ ∧ s.partialEpoch = 0) ∨ (e₀ < p ∧ s.partialEpoch = p)
  /-- The last block of the window is missing while the next task is about to store its epoch. -/
  window : ∀ k, e₀ < k → k ≤ p → p < k + 100 →
    (p + 1 = k + 100 → ∀ task : BodyTask, s.tasks[0]? = some task → task.place ≠ .publishing) →
    ∃ txs, s.calls[k - e₀ - 1]? = some txs ∧
      s.partialBlockBuffer k = some (partialBlock k (pushAll txs))

section

variable {e₀ p i : Nat} {s s' : EarlyReturn} {task : BodyTask} {a : EarlyAction}

theorem inv_start (e₀ : Nat) : Inv e₀ e₀ (start e₀) where
  le := Nat.le_refl e₀
  current := rfl
  calls := Nat.zero_add e₀
  pending := rfl
  task i task h := by simp [start] at h
  stored i task h := by simp [start] at h
  waiting i task h := by simp [start] at h
  tip := Or.inl ⟨rfl, rfl⟩
  window k h₁ h₂ := by omega

theorem inv_addCommittedTransaction (hinv : Inv e₀ p s) (t : Transaction) :
    Inv e₀ p { s with
      pendingTransactionQueue := addCommittedTransaction s.pendingTransactionQueue t
      added := s.added ++ [t] } := by
  refine ⟨hinv.le, hinv.current, hinv.calls, ?_, hinv.task, hinv.stored, hinv.waiting, hinv.tip,
    hinv.window⟩
  show addCommittedTransaction s.pendingTransactionQueue t = pushAll (s.added ++ [t])
  unfold pushAll
  rw [List.foldl_append, hinv.pending]
  rfl

theorem getElem?_calls_append {calls : List (List Transaction)} {txs : List Transaction} {i : Nat}
    (h : calls[i]? = some txs) (added : List Transaction) : (calls ++ [added])[i]? = some txs := by
  obtain ⟨hlt, -⟩ := List.getElem?_eq_some_iff.mp h
  rw [List.getElem?_append_left hlt]
  exact h

theorem inv_generateBlock (hinv : Inv e₀ p s) (h : s.step .generateBlock = some s') :
    Inv e₀ p s' := by
  cases h
  have hcurrent := hinv.current
  have hcalls := hinv.calls
  have hle := hinv.le
  constructor
  · exact hle
  · simp only [List.length_append, List.length_singleton]
    omega
  · simp only [List.length_append, List.length_singleton]
    omega
  · rfl
  · intro i task htask
    rcases getElem?_snoc htask with hold | ⟨rfl, rfl⟩
    · obtain ⟨hepoch, txs, hget, hqueue⟩ := hinv.task i task hold
      exact ⟨hepoch, txs, getElem?_calls_append hget _, hqueue⟩
    · refine ⟨by dsimp only; omega, s.added, ?_, hinv.pending⟩
      rw [show p + s.tasks.length - e₀ = s.calls.length by omega]
      exact List.getElem?_concat_length
  · intro i task htask hplace
    rcases getElem?_snoc htask with hold | ⟨rfl, rfl⟩
    · exact hinv.stored i task hold hplace
    · exact absurd rfl hplace
  · intro i task htask hplace
    rcases getElem?_snoc htask with hold | ⟨-, rfl⟩
    · exact hinv.waiting i task hold hplace
    · cases hplace
  · exact hinv.tip
  · intro k h₁ h₂ h₃ hnot
    obtain ⟨txs, hget, hbuffer⟩ := hinv.window k h₁ h₂ h₃ fun heq task htask => by
      refine hnot heq task ?_
      obtain ⟨hlt, -⟩ := List.getElem?_eq_some_iff.mp htask
      rw [List.getElem?_append_left hlt]
      exact htask
    exact ⟨txs, getElem?_calls_append hget _, hbuffer⟩

/-- A task has moved on. -/
theorem getElem?_tasks_set {tasks : List BodyTask} {new u : BodyTask} {j : Nat}
    (h : (tasks.set i new)[j]? = some u) :
    (j = i ∧ u = new) ∨ (j ≠ i ∧ tasks[j]? = some u) := by
  rw [List.getElem?_set] at h
  split at h
  · rename_i heq
    split at h
    · cases h
      exact Or.inl ⟨heq.symm, rfl⟩
    · cases h
  · rename_i hne
    exact Or.inr ⟨fun heq => hne heq.symm, h⟩

theorem inv_store (hinv : Inv e₀ p s) (htask : s.tasks[i]? = some task)
    (hplace : task.place = .storing) :
    Inv e₀ p { s with
      partialBlockBuffer := Function.update s.partialBlockBuffer task.epoch
        (some (partialBlock task.epoch task.txnQueue))
      tasks := s.tasks.set i { task with place := .removing } } := by
  have hepoch := (hinv.task i task htask).1
  constructor
  · exact hinv.le
  · rw [List.length_set]
    exact hinv.current
  · exact hinv.calls
  · exact hinv.pending
  · intro j u hu
    rcases getElem?_tasks_set hu with ⟨rfl, rfl⟩ | ⟨-, hold⟩
    · exact hinv.task j task htask
    · exact hinv.task j u hold
  · intro j u hu hstored
    rcases getElem?_tasks_set hu with ⟨-, rfl⟩ | ⟨hne, hold⟩
    · exact Function.update_self _ _ _
    · have hother := (hinv.task j u hold).1
      dsimp only
      rw [Function.update_of_ne (by omega)]
      exact hinv.stored j u hold hstored
  · intro j u hu hpublishing
    rcases getElem?_tasks_set hu with ⟨-, rfl⟩ | ⟨-, hold⟩
    · cases hpublishing
    · exact hinv.waiting j u hold hpublishing
  · exact hinv.tip
  · intro k h₁ h₂ h₃ hnot
    dsimp only
    rw [Function.update_of_ne (by omega)]
    refine hinv.window k h₁ h₂ h₃ fun heq u hu => ?_
    by_cases hi : i = 0
    · subst hi
      rw [htask] at hu
      cases hu
      simp [hplace]
    · refine hnot heq u ?_
      rw [List.getElem?_set_ne hi]
      exact hu

theorem removeOld_of_ne {buffer : Nat → Option Block} {epoch k : Nat} (h : epoch ≠ k + 100) :
    removeOld buffer epoch k = buffer k := by
  unfold removeOld
  split
  · rw [Function.update_of_ne (by omega)]
  · rfl

theorem removeOld_of_le {buffer : Nat → Option Block} {epoch : Nat} (h : epoch ≤ 100) :
    removeOld buffer epoch = buffer := by
  unfold removeOld
  rw [if_neg (by omega)]

theorem inv_remove (hinv : Inv e₀ p s) (htask : s.tasks[i]? = some task)
    (hplace : task.place = .removing) (horder : task.epoch ≤ 100 ∨ i = 0) :
    Inv e₀ p { s with
      partialBlockBuffer := removeOld s.partialBlockBuffer task.epoch
      tasks := s.tasks.set i { task with place := .publishing } } := by
  have hepoch := (hinv.task i task htask).1
  have hfirst := hinv.stored i task htask (by simp [hplace])
  -- only a block before the first task is removed
  have hkeep : ∀ k, p + 1 ≤ k → removeOld s.partialBlockBuffer task.epoch k =
      s.partialBlockBuffer k := by
    intro k hk
    rcases horder with hle | rfl
    · rw [removeOld_of_le hle]
    · exact removeOld_of_ne (by omega)
  constructor
  · exact hinv.le
  · rw [List.length_set]
    exact hinv.current
  · exact hinv.calls
  · exact hinv.pending
  · intro j u hu
    rcases getElem?_tasks_set hu with ⟨rfl, rfl⟩ | ⟨-, hold⟩
    · exact hinv.task j task htask
    · exact hinv.task j u hold
  · intro j u hu hstored
    dsimp only
    rcases getElem?_tasks_set hu with ⟨-, rfl⟩ | ⟨-, hold⟩
    · dsimp only
      rw [hkeep _ (by omega)]
      exact hfirst
    · have hother := (hinv.task j u hold).1
      rw [hkeep _ (by omega)]
      exact hinv.stored j u hold hstored
  · intro j u hu hpublishing
    rcases getElem?_tasks_set hu with ⟨hj, rfl⟩ | ⟨-, hold⟩
    · rcases horder with hle | hzero
      · exact hle
      · omega
    · exact hinv.waiting j u hold hpublishing
  · exact hinv.tip
  · intro k h₁ h₂ h₃ hnot
    dsimp only at hnot ⊢
    by_cases hi : i = 0
    · subst hi
      -- the task is the first one, and about to store its epoch
      have hne : p + 1 ≠ k + 100 := by
        intro heq
        obtain ⟨hlt, -⟩ := List.getElem?_eq_some_iff.mp htask
        exact hnot heq _ (List.getElem?_set_self hlt) rfl
      rw [removeOld_of_ne (by omega)]
      exact hinv.window k h₁ h₂ h₃ fun heq => absurd heq hne
    · rw [removeOld_of_le (horder.resolve_right hi)]
      refine hinv.window k h₁ h₂ h₃ fun heq u hu => hnot heq u ?_
      rw [List.getElem?_set_ne hi]
      exact hu

theorem inv_publish (hinv : Inv e₀ p s) (htask : s.tasks[0]? = some task)
    (hplace : task.place = .publishing) :
    Inv e₀ (p + 1) { s with partialEpoch := task.epoch, tasks := s.tasks.eraseIdx 0 } := by
  obtain ⟨hepoch, txs, hget, hqueue⟩ := hinv.task 0 task htask
  have hle := hinv.le
  have hcurrent := hinv.current
  have hrest : ∀ j, (s.tasks.eraseIdx 0)[j]? = s.tasks[j + 1]? := by
    intro j
    rw [List.eraseIdx_zero, List.getElem?_tail]
  constructor
  · omega
  · obtain ⟨hlt, -⟩ := List.getElem?_eq_some_iff.mp htask
    dsimp only
    rw [List.length_eraseIdx_of_lt hlt]
    omega
  · exact hinv.calls
  · exact hinv.pending
  · intro j u hu
    rw [hrest] at hu
    obtain ⟨hu₁, hu₂⟩ := hinv.task (j + 1) u hu
    refine ⟨by omega, ?_⟩
    rw [show p + 1 + j - e₀ = p + (j + 1) - e₀ by omega]
    exact hu₂
  · intro j u hu hstored
    rw [hrest] at hu
    exact hinv.stored (j + 1) u hu hstored
  · intro j u hu hpublishing
    rw [hrest] at hu
    exact hinv.waiting (j + 1) u hu hpublishing
  · right
    exact ⟨by omega, by dsimp only; omega⟩
  · intro k h₁ h₂ h₃ hnot
    rcases Nat.lt_or_eq_of_le h₂ with hlt | rfl
    · exact hinv.window k h₁ (by omega) (by omega) (by omega)
    · refine ⟨txs, ?_, ?_⟩
      · rw [show p + 1 - e₀ - 1 = p + 0 - e₀ by omega]
        exact hget
      · have hstored := hinv.stored 0 task htask (by simp [hplace])
        rw [hqueue, hepoch] at hstored
        exact hstored

/-- What the clients have got so far. -/
structure Observed (e₀ : Nat) (s : EarlyReturn) : Prop where
  sorted : (s.observed.map Observation.latestEpoch).Pairwise (· ≤ ·)
  le : ∀ o ∈ s.observed, o.latestEpoch ≤ s.partialEpoch
  backed : ∀ o ∈ s.observed, 0 < o.latestEpoch → ∀ k, e₀ < k → o.latestEpoch ≤ k + 99 →
    k ≤ o.latestEpoch → Backed s.calls e₀ k (o.block k)

theorem Inv.partialEpoch_le (hinv : Inv e₀ p s) : s.partialEpoch ≤ p := by
  rcases hinv.tip with ⟨-, htip⟩ | ⟨-, htip⟩ <;> omega

/-- A step that tells no client anything, and does not make the latest epoch smaller. -/
theorem Observed.mono (hobs : Observed e₀ s) (hobserved : s'.observed = s.observed)
    (hcalls : ∃ more, s'.calls = s.calls ++ more) (htip : s.partialEpoch ≤ s'.partialEpoch) :
    Observed e₀ s' := by
  obtain ⟨more, hmore⟩ := hcalls
  refine ⟨by rw [hobserved]; exact hobs.sorted, ?_, ?_⟩
  · intro o ho
    rw [hobserved] at ho
    exact (hobs.le o ho).trans htip
  · intro o ho hpos k h₁ h₂ h₃
    rw [hobserved] at ho
    obtain ⟨txs, queue, hget, hrest⟩ := hobs.backed o ho hpos k h₁ h₂ h₃
    obtain ⟨hlt, -⟩ := List.getElem?_eq_some_iff.mp hget
    refine ⟨txs, queue, ?_, hrest⟩
    rw [hmore, List.getElem?_append_left hlt]
    exact hget

/-- Between two tasks the blocks of the window are there. -/
theorem Inv.backed (hinv : Inv e₀ p s) (hquiet : InOrder s .observe) {k : Nat} (h₁ : e₀ < k)
    (h₂ : s.partialEpoch ≤ k + 99) (h₃ : k ≤ s.partialEpoch) :
    Backed s.calls e₀ k (s.getPartialConstructedBlock k) := by
  have hle := hinv.le
  have htip := hinv.tip
  obtain ⟨txs, hget, hbuffer⟩ := hinv.window k h₁ (by omega) (by omega) fun heq task htask => by
    intro hplace
    have hsmall := hquiet task (List.mem_of_getElem? htask) hplace
    have hepoch := (hinv.task 0 task htask).1
    omega
  refine ⟨txs, pushAll txs, hget, pushAll_perm_self txs, pushAll_sorted txs [] .nil, ?_⟩
  rw [getPartialConstructedBlock, hbuffer]
  rfl

theorem observed_observe (hinv : Inv e₀ p s) (hobs : Observed e₀ s) (hquiet : InOrder s .observe)
    (h : s.step .observe = some s') : Observed e₀ s' := by
  cases h
  constructor
  · simp only [List.map_append, List.map_singleton, List.pairwise_append, List.mem_map,
      List.mem_singleton]
    refine ⟨hobs.sorted, List.pairwise_singleton _ _, ?_⟩
    rintro e ⟨o, ho, rfl⟩ _ rfl
    exact hobs.le o ho
  · intro o ho
    rcases List.mem_append.mp ho with ho | ho
    · exact hobs.le o ho
    · rw [List.mem_singleton.mp ho]
      exact Nat.le_refl _
  · intro o ho hpos k h₁ h₂ h₃
    rcases List.mem_append.mp ho with ho | ho
    · exact hobs.backed o ho hpos k h₁ h₂ h₃
    · rw [List.mem_singleton.mp ho] at h₂ h₃ ⊢
      exact hinv.backed hquiet h₁ h₂ h₃

theorem inv_step (hinv : Inv e₀ p s) (hobs : Observed e₀ s) (horder : InOrder s a)
    (h : s.step a = some s') : ∃ p', Inv e₀ p' s' ∧ Observed e₀ s' := by
  cases a with
  | addCommittedTransaction t =>
      cases h
      exact ⟨p, inv_addCommittedTransaction hinv t, hobs.mono rfl ⟨[], by simp⟩ (Nat.le_refl _)⟩
  | generateBlock =>
      refine ⟨p, inv_generateBlock hinv h, ?_⟩
      cases h
      exact hobs.mono rfl ⟨[s.added], rfl⟩ (Nat.le_refl _)
  | bodyStep i =>
      obtain ⟨task, htask, rfl⟩ := Option.map_eq_some_iff.mp h
      have hcond := horder task htask
      unfold EarlyReturn.bodyStep
      cases hplace : task.place with
      | storing =>
          exact ⟨p, inv_store hinv htask hplace, hobs.mono rfl ⟨[], by simp⟩ (Nat.le_refl _)⟩
      | removing =>
          have hturn : task.epoch ≤ 100 ∨ i = 0 := by simpa [hplace] using hcond
          exact ⟨p, inv_remove hinv htask hplace hturn,
            hobs.mono rfl ⟨[], by simp⟩ (Nat.le_refl _)⟩
      | publishing =>
          obtain rfl : i = 0 := by simpa [hplace] using hcond
          have hepoch := (hinv.task 0 task htask).1
          have htip := hinv.partialEpoch_le
          exact ⟨p + 1, inv_publish hinv htask hplace,
            hobs.mono rfl ⟨[], by simp⟩ (by dsimp only; omega)⟩
  | observe =>
      refine ⟨p, ?_, observed_observe hinv hobs horder h⟩
      cases h
      exact ⟨hinv.le, hinv.current, hinv.calls, hinv.pending, hinv.task, hinv.stored, hinv.waiting,
        hinv.tip, hinv.window⟩

end

/-- If tasks remove blocks and store their epoch in the order of the epochs, and no client looks in
    between, the latest epoch never decreases and the blocks of the last 100 epochs are there. -/
theorem early_return_tip {e₀ : Nat} {actions : List EarlyAction} {s : EarlyReturn}
    (h : run step (start e₀) actions = some s) (horder : Meets step InOrder (start e₀) actions) :
    (s.observed.map Observation.latestEpoch).Pairwise (· ≤ ·) ∧
    ∀ o ∈ s.observed, 0 < o.latestEpoch → ∀ k, e₀ < k → max 1 (o.latestEpoch - 99) ≤ k →
      k ≤ o.latestEpoch → Backed s.calls e₀ k (o.block k) := by
  have hstart : Observed e₀ (start e₀) :=
    ⟨List.Pairwise.nil, by simp [start], by simp [start]⟩
  obtain ⟨p, -, hobs⟩ : ∃ p, Inv e₀ p s ∧ Observed e₀ s :=
    run_invariant_of_meets InOrder (fun s => ∃ p, Inv e₀ p s ∧ Observed e₀ s)
      (fun s a s' ⟨p, hinv, hobs⟩ horder h => inv_step hinv hobs horder h) h horder
      ⟨e₀, inv_start e₀, hstart⟩
  exact ⟨hobs.sorted, fun o ho hpos k h₁ h₂ h₃ => hobs.backed o ho hpos k h₁ (by omega) h₃⟩

instance (s : EarlyReturn) : (a : EarlyAction) → Decidable (InOrder s a)
  | .addCommittedTransaction _ => isTrue trivial
  | .generateBlock => isTrue trivial
  | .bodyStep i =>
      decidable_of_iff ((s.tasks[i]?).all (fun task => task.place = .storing ∨
        (task.place = .removing ∧ task.epoch ≤ 100) ∨ i = 0) = true)
        (by simp [InOrder, Option.all_eq_true])
  | .observe =>
      inferInstanceAs (Decidable (∀ task ∈ s.tasks, task.place = .publishing → task.epoch ≤ 100))

/-- Two blocks whose tasks are in the pool at the same time. -/
def twoCalls : List EarlyAction :=
  [.addCommittedTransaction { tid := 1 }, .addCommittedTransaction { tid := 5 }, .generateBlock,
    .addCommittedTransaction { tid := 7 }, .generateBlock]

/-- The second task stores its block first, but its epoch last. -/
def secondFirst : List EarlyAction :=
  [.bodyStep 1, .bodyStep 1, .bodyStep 0, .bodyStep 0, .bodyStep 0, .observe, .bodyStep 0, .observe]

theorem early_return_tip_two :
    ∃ s, run step (start 0) (twoCalls ++ secondFirst) = some s ∧
      s.observed.map Observation.latestEpoch = [1, 2] ∧
      ∀ o ∈ s.observed, Backed s.calls 0 1 (o.block 1) := by
  have horder : Meets step InOrder (start 0) (twoCalls ++ secondFirst) := by decide +kernel
  have hany : (run step (start 0) (twoCalls ++ secondFirst)).any
      (fun s => s.observed.map Observation.latestEpoch = [1, 2]) = true := by decide +kernel
  obtain ⟨s, hrun, hs⟩ := exists_of_any hany
  refine ⟨s, hrun, hs, fun o ho => ?_⟩
  have hepoch : o.latestEpoch = 1 ∨ o.latestEpoch = 2 := by
    have hmem := List.mem_map_of_mem (f := Observation.latestEpoch) ho
    rw [hs] at hmem
    simpa using hmem
  exact (early_return_tip hrun horder).2 o ho (by omega) 1 (by omega) (by omega) (by omega)

/-- One block after the other, as many as there are numbers. -/
def blocksInOrder (n : Nat) : List EarlyAction :=
  (List.replicate n [EarlyAction.addCommittedTransaction { tid := 1 }, .generateBlock, .bodyStep 0,
    .bodyStep 0, .bodyStep 0]).flatten

/-- The second task is faster. -/
def secondAlone : List EarlyAction :=
  [.bodyStep 1, .bodyStep 1, .bodyStep 1, .observe, .bodyStep 0, .bodyStep 0, .bodyStep 0, .observe]

/-- A client looks while the last task is between two steps. -/
def lookBetween : List EarlyAction :=
  [.addCommittedTransaction { tid := 1 }, .generateBlock, .bodyStep 0, .bodyStep 0, .observe]

/-- The latest epoch is 2 while block 1 is not there, then it is 1 again. And without any race,
    block 1 is gone while the latest epoch is still 100. -/
theorem tip_goes_back :
    ((run step (start 0) (twoCalls ++ secondAlone)).any fun s =>
        s.observed.map Observation.latestEpoch = [2, 1] ∧
        s.observed.map (fun o => (o.block 1).isSome) = [false, true]) = true ∧
    ((run step (start 0) (blocksInOrder 100 ++ lookBetween)).any fun s =>
        s.observed.map Observation.latestEpoch = [100] ∧
        s.observed.map (fun o => (o.block 1).isSome) = [false]) = true := by
  constructor
  · decide +kernel
  · decide +kernel

/-! ## The answers of the query controller -/

section

variable {e₀ k i : Nat} {s s' : EarlyReturn} {task : BodyTask} {storage : BlockStorageToFile}

/-- What the query controller reads in this state. -/
def info (s : EarlyReturn) (storage : BlockStorageToFile) : BlockInfo where
  partialBlockBuffer := s.partialBlockBuffer
  storage := storage

theorem removeOld_eq (buffer : Nat → Option Block) (epoch : Nat) :
    removeOld buffer epoch =
      if 100 < epoch then Function.update buffer (epoch - 100) none else buffer := by
  unfold removeOld
  by_cases hlt : 100 < epoch
  · cases hold : buffer (epoch - 100) with
    | some b => simp [hlt]
    | none => simp [hlt, ← hold]
  · simp [hlt]

/-- The first two steps of a task, with no step of another one in between. -/
theorem info_bodySteps (htask : s.tasks[i]? = some task) (hplace : task.place = .storing)
    (hrun : run step s [.bodyStep i, .bodyStep i] = some s') :
    s'.info storage = (s.info storage).addPartialBlock task.epoch
      (partialBlock task.epoch task.txnQueue) := by
  obtain ⟨hlt, -⟩ := List.getElem?_eq_some_iff.mp htask
  simp only [run, step, htask, Option.map_some, Option.bind_some, bodyStep, hplace,
    List.getElem?_set_self hlt, Option.some.injEq] at hrun
  subst hrun
  simp only [info, BlockInfo.addPartialBlock, removeOld_eq]

/-- While a block is there, a client with early return gets the results of its transactions. -/
theorem pollTx_info {unparsed : Bytes → Block} (hpos : 0 < k) (hk : k < 2 ^ 63)
    (hbacked : Backed s.calls e₀ k (s.getPartialConstructedBlock k))
    (hresult : ∀ txs ∈ s.calls, ∀ t ∈ txs, t.transactionResult.Named)
    (hlen : ∀ raw, s.getPartialConstructedBlock k = some raw → raw.length < 2 ^ 31) :
    ∃ (txs : List Transaction) (queue : TxPriorityQueue), s.calls[k - e₀ - 1]? = some txs ∧
      queue.Perm txs ∧
      pollTx ((s.info storage).blockQuery true) unparsed k = some (queue.map report) := by
  obtain ⟨txs, queue, hcall, hperm, -, hblock⟩ := hbacked
  have hreply : (s.info storage).blockQuery true (Decimal.natToString k) =
      (partialBlock k queue).serializeAsString := by
    have hget : (s.info storage).getPartialConstructedBlock k = s.getPartialConstructedBlock k :=
      rfl
    rw [blockQuery_natToString hk, if_pos rfl, hget, hblock, Option.getD_some]
  refine ⟨txs, queue, hcall, hperm, pollTx_of_reply hpos hreply hk (hlen _ hblock) rfl ?_⟩
  exact fun t ht => report_serializeResult
    (hresult txs (List.mem_of_getElem? hcall) t (hperm.mem_iff.mp ht))

end

end EarlyReturn

end NeuChain.Server
