/-
  How far the proxies, their workers and the queue manager can be apart.

  The barrier of the queue manager is a `Lib.Barrier` (`ProxyState.barrier`), whose parties are the
  workers. After `generation` rounds:

  * the tasks a worker has completed, the one it is at and those waiting are the
    epochs from the first one up to the proxy's own (`Sync.tasks`);
  * `globalProcessingEpoch` is `startWithEpoch + generation`, one more while the last
    worker at the barrier is about to release it, and never beyond the epoch of any proxy
    (`Sync.le_epoch`);
  * `currentEpochPushedToQueueCnt` is the number of workers that are through with all released
    epochs. So a proxy that reads `blkSrvCnt` there knows that all are (`Sync.of_count`).

  `Sync` says nothing about transactions. It is kept by every step of a worker (`Sync.work`), and
  what a proxy thread does other than finish its epoch does not touch it (`Sync.congr`).
-/
import NeuChain.Server.EpochBuffer

namespace NeuChain.Server

open NeuChain Lib

/-- The task a worker is at. -/
def WorkerPc.current : WorkerPc → List Nat
  | .idle => []
  | .waiting e _ | .storing e | .adding e | .releasing e | .emptying e | .signalling e => [e]

/-- The count has been reset, the generation is not yet released. -/
def WorkerPc.reset : WorkerPc → Bool
  | .adding _ | .releasing _ => true
  | _ => false

/-- The epoch has been increased, the generation is not yet released. -/
def WorkerPc.raised : WorkerPc → Bool
  | .releasing _ => true
  | _ => false

/-- The worker as a party of the barrier, after `completed` tasks. -/
def WorkerPc.party (completed : Nat) : WorkerPc → Party
  | .idle => .outside completed
  | .waiting _ k => .waiting completed k
  | .storing _ | .adding _ | .releasing _ => .closing completed
  | .emptying _ | .signalling _ => .outside (completed + 1)

theorem WorkerPc.party_of_reset {pc : WorkerPc} (h : pc.reset = true) (c : Nat) :
    pc.party c = .closing c := by
  cases pc <;> first | rfl | cases h

theorem WorkerPc.reset_of_raised {pc : WorkerPc} (h : pc.raised = true) : pc.reset = true := by
  cases pc <;> first | rfl | cases h

namespace ProxyState

variable {τ : Type*} {cfg : ProxyConfig τ} {s s' : ProxyState τ} {p q : Nat}

def barrier (s : ProxyState τ) : Barrier where
  waits := s.queueMgr.currentWaits
  generation := s.queueMgr.generation
  party p := (s.proxies p).workerPc.party (s.proxies p).completed.length

/-- What holds between the proxies, their workers and the queue manager. -/
structure Sync (cfg : ProxyConfig τ) (s : ProxyState τ) : Prop where
  barrier : s.barrier.Inv cfg.blkSrvCnt
  start_le : ∀ p < cfg.blkSrvCnt, cfg.startWithEpoch ≤ (s.proxies p).epoch
  tasks : ∀ p < cfg.blkSrvCnt, (s.proxies p).completed ++ (s.proxies p).workerPc.current ++
    (s.proxies p).workload =
      List.range' cfg.startWithEpoch ((s.proxies p).epoch - cfg.startWithEpoch)
  epochOpen : (∀ p < cfg.blkSrvCnt, (s.proxies p).workerPc.raised = false) →
    s.queueMgr.globalProcessingEpoch = cfg.startWithEpoch + s.queueMgr.generation
  epochRaised : ∀ p < cfg.blkSrvCnt, (s.proxies p).workerPc.raised = true →
    s.queueMgr.globalProcessingEpoch = cfg.startWithEpoch + s.queueMgr.generation + 1
  countOpen : (∀ p < cfg.blkSrvCnt, (s.proxies p).workerPc.reset = false) →
    s.queueMgr.currentEpochPushedToQueueCnt =
      Nat.count (fun p => (s.proxies p).completed.length = s.queueMgr.generation) cfg.blkSrvCnt
  countReset : ∀ p < cfg.blkSrvCnt, (s.proxies p).workerPc.reset = true →
    s.queueMgr.currentEpochPushedToQueueCnt = 0

theorem Sync.initial (cfg : ProxyConfig τ) : Sync cfg (initial cfg) := by
  refine ⟨Barrier.inv_start _, fun _ _ => Nat.le_refl _, fun _ _ => ?_, fun _ => rfl,
    fun _ _ h => (by cases h), fun _ => ?_, fun _ _ h => (by cases h)⟩
  · simp [ProxyState.initial, WorkerPc.current]
  · show cfg.blkSrvCnt = _
    exact (Nat.count_iff_forall.mpr fun _ _ => rfl).symm

/-! ## What follows from it -/

theorem Sync.closing_of_reset (hr : (s.proxies p).workerPc.reset = true) :
    ∃ r, s.barrier.party p = .closing r := ⟨_, WorkerPc.party_of_reset hr _⟩

section

variable (h : Sync cfg s) (hp : p < cfg.blkSrvCnt)

include h hp

/-- A task of the worker is an epoch the proxy has finished, and the number of tasks before it
    tells which. -/
theorem Sync.current_eq {e : Nat} (he : (s.proxies p).workerPc.current = [e]) :
    e = cfg.startWithEpoch + (s.proxies p).completed.length ∧ e < (s.proxies p).epoch := by
  have ht := h.tasks p hp
  rw [he] at ht
  have hget : (List.range' cfg.startWithEpoch ((s.proxies p).epoch - cfg.startWithEpoch))[
      (s.proxies p).completed.length]? = some e := by
    rw [← ht, List.append_assoc, List.getElem?_append_right (Nat.le_refl _), Nat.sub_self]
    rfl
  obtain ⟨hlt, heq⟩ := List.getElem?_eq_some_iff.mp hget
  rw [List.getElem_range'] at heq
  rw [List.length_range'] at hlt
  omega

theorem Sync.mem_completed {e : Nat} (he : e ∈ (s.proxies p).completed) :
    e < (s.proxies p).epoch := by
  have hmem : e ∈ List.range' cfg.startWithEpoch ((s.proxies p).epoch - cfg.startWithEpoch) := by
    rw [← h.tasks p hp]
    simp [he]
  have := List.mem_range'_1.mp hmem
  omega

/-- All other workers wait while one is closing the generation. -/
theorem Sync.others_waiting (hc : ∃ r, s.barrier.party p = .closing r) (hq : q < cfg.blkSrvCnt)
    (hqp : q ≠ p) :
    (∃ e, (s.proxies q).workerPc = .waiting e s.queueMgr.generation) ∧
      (s.proxies q).completed.length = s.queueMgr.generation := by
  obtain ⟨r, hr⟩ := hc
  have hw := h.barrier.closing p hp r hr q hq hqp
  simp only [ProxyState.barrier] at hw
  cases hpc : (s.proxies q).workerPc with
  | waiting e k =>
      rw [hpc] at hw
      simp only [WorkerPc.party, Party.waiting.injEq] at hw
      exact ⟨⟨e, by rw [hw.2]⟩, hw.1⟩
  | _ => rw [hpc] at hw; cases hw

/-- So no other worker has reset the count or increased the epoch. -/
theorem Sync.others_quiet (hc : ∃ r, s.barrier.party p = .closing r) (hq : q < cfg.blkSrvCnt)
    (hqp : q ≠ p) :
    (s.proxies q).workerPc.reset = false ∧ (s.proxies q).workerPc.raised = false := by
  obtain ⟨⟨e, he⟩, -⟩ := h.others_waiting hp hc hq hqp
  rw [he]
  exact ⟨rfl, rfl⟩

/-- A worker has completed or is at the task of every generation that has been released. -/
theorem Sync.generation_le_tasks : s.queueMgr.generation ≤
    (s.proxies p).completed.length + (s.proxies p).workerPc.current.length := by
  have hround := h.barrier.rounds p hp
  simp only [ProxyState.barrier] at hround
  cases hpc : (s.proxies p).workerPc <;> rw [hpc] at hround <;>
    simp only [WorkerPc.party, Barrier.AtRound, WorkerPc.current, List.length_nil,
      List.length_singleton] at hround ⊢ <;> omega

theorem Sync.generation_le :
    cfg.startWithEpoch + s.queueMgr.generation ≤ (s.proxies p).epoch := by
  have hlen := congrArg List.length (h.tasks p hp)
  have hle := h.start_le p hp
  have hgen := h.generation_le_tasks hp
  rw [List.length_range', List.length_append, List.length_append] at hlen
  omega

end

/-- While a worker closes the generation, every proxy has finished the epoch that ends. -/
theorem Sync.lt_epoch_of_closing (h : Sync cfg s) (hq : q < cfg.blkSrvCnt)
    (hc : ∃ r, s.barrier.party q = .closing r) (hp : p < cfg.blkSrvCnt) :
    cfg.startWithEpoch + s.queueMgr.generation < (s.proxies p).epoch := by
  have hcur : ∃ e, (s.proxies p).workerPc.current = [e] ∧
      (s.proxies p).completed.length = s.queueMgr.generation := by
    by_cases hpq : p = q
    · subst hpq
      obtain ⟨r, hr⟩ := hc
      have hround := h.barrier.rounds p hp
      simp only [ProxyState.barrier] at hr hround
      cases hpc : (s.proxies p).workerPc with
      | storing e => rw [hpc] at hround; exact ⟨e, rfl, hround⟩
      | adding e => rw [hpc] at hround; exact ⟨e, rfl, hround⟩
      | releasing e => rw [hpc] at hround; exact ⟨e, rfl, hround⟩
      | _ => rw [hpc] at hr; cases hr
    · obtain ⟨⟨e, he⟩, hlen⟩ := h.others_waiting hq hc hp hpq
      exact ⟨e, by rw [he]; rfl, hlen⟩
  obtain ⟨e, he, hlen⟩ := hcur
  have := h.current_eq hp he
  omega

/-- The queue manager is never ahead of a proxy. -/
theorem Sync.le_epoch (h : Sync cfg s) (hp : p < cfg.blkSrvCnt) :
    s.queueMgr.globalProcessingEpoch ≤ (s.proxies p).epoch := by
  by_cases hopen : ∀ q < cfg.blkSrvCnt, (s.proxies q).workerPc.raised = false
  · rw [h.epochOpen hopen]
    exact h.generation_le hp
  · push Not at hopen
    obtain ⟨q, hq, hr⟩ := hopen
    have hr : (s.proxies q).workerPc.raised = true := by simpa using hr
    rw [h.epochRaised q hq hr]
    exact h.lt_epoch_of_closing hq (Sync.closing_of_reset (WorkerPc.reset_of_raised hr)) hp

/-- A proxy that reads the full count knows where the generation is. -/
theorem Sync.of_count (h : Sync cfg s) (hp : p < cfg.blkSrvCnt)
    (hc : ¬ s.queueMgr.currentEpochPushedToQueueCnt < cfg.blkSrvCnt) :
    s.queueMgr.globalProcessingEpoch = cfg.startWithEpoch + s.queueMgr.generation := by
  refine h.epochOpen fun q hq => ?_
  cases hr : (s.proxies q).workerPc.raised with
  | false => rfl
  | true =>
      have := h.countReset q hq (WorkerPc.reset_of_raised hr)
      omega

/-! ## What keeps it -/

/-- A step that leaves the counters as they are. -/
theorem Sync.quiet (h : Sync cfg s) (hb : s'.barrier.Inv cfg.blkSrvCnt)
    (hg : s'.queueMgr.globalProcessingEpoch = s.queueMgr.globalProcessingEpoch)
    (hc : s'.queueMgr.currentEpochPushedToQueueCnt = s.queueMgr.currentEpochPushedToQueueCnt)
    (hgen : s'.queueMgr.generation = s.queueMgr.generation)
    (hstart : ∀ p < cfg.blkSrvCnt, cfg.startWithEpoch ≤ (s'.proxies p).epoch)
    (htasks : ∀ p < cfg.blkSrvCnt, (s'.proxies p).completed ++ (s'.proxies p).workerPc.current ++
      (s'.proxies p).workload =
        List.range' cfg.startWithEpoch ((s'.proxies p).epoch - cfg.startWithEpoch))
    (hflags : ∀ p < cfg.blkSrvCnt, (s'.proxies p).completed = (s.proxies p).completed ∧
      (s'.proxies p).workerPc.reset = (s.proxies p).workerPc.reset ∧
      (s'.proxies p).workerPc.raised = (s.proxies p).workerPc.raised) : Sync cfg s' where
  barrier := hb
  start_le := hstart
  tasks := htasks
  epochOpen hopen := by
    rw [hg, hgen]
    exact h.epochOpen fun p hp => (hflags p hp).2.2.symm.trans (hopen p hp)
  epochRaised p hp hr := by
    rw [hg, hgen]
    exact h.epochRaised p hp ((hflags p hp).2.2.symm.trans hr)
  countOpen hopen := by
    rw [hc, hgen, h.countOpen fun p hp => (hflags p hp).2.1.symm.trans (hopen p hp)]
    exact count_congr fun p hp => by rw [(hflags p hp).1]
  countReset p hp hr := by
    rw [hc]
    exact h.countReset p hp ((hflags p hp).2.1.symm.trans hr)

/-- What `Sync` reads of a proxy. -/
def SameControl (b b' : TransactionBuffer τ) : Prop :=
  b'.epoch = b.epoch ∧ b'.workerPc = b.workerPc ∧ b'.workload = b.workload ∧
    b'.completed = b.completed

theorem Sync.congr (h : Sync cfg s) (hm : s'.queueMgr = s.queueMgr)
    (hc : ∀ p, SameControl (s.proxies p) (s'.proxies p)) : Sync cfg s' := by
  have hb : s'.barrier = s.barrier := by
    unfold ProxyState.barrier
    rw [hm]
    congr 1
    funext p
    obtain ⟨-, hpc, -, hcomp⟩ := hc p
    rw [hpc, hcomp]
  refine h.quiet (hb ▸ h.barrier) (by rw [hm]) (by rw [hm]) (by rw [hm]) (fun p hp => ?_)
    (fun p hp => ?_) (fun p _ => ?_)
  · rw [(hc p).1]
    exact h.start_le p hp
  · obtain ⟨he, hpc, hw, hcomp⟩ := hc p
    rw [he, hpc, hw, hcomp]
    exact h.tasks p hp
  · obtain ⟨-, hpc, -, hcomp⟩ := hc p
    rw [hpc, hcomp]
    exact ⟨rfl, rfl, rfl⟩

theorem proxies_asyncEmptyBuffer (s : ProxyState τ) (p : Nat) :
    (s.asyncEmptyBuffer p).proxies p = { s.proxies p with
      workload := (s.proxies p).workload ++ [(s.proxies p).epoch]
      epoch := (s.proxies p).epoch + 1 } := Function.update_self _ _ _

theorem proxies_asyncEmptyBuffer_of_ne (s : ProxyState τ) {p q : Nat} (hq : q ≠ p) :
    (s.asyncEmptyBuffer p).proxies q = s.proxies q := Function.update_of_ne hq _ _

theorem Sync.asyncEmptyBuffer (h : Sync cfg s) : Sync cfg (s.asyncEmptyBuffer p) := by
  have hself := s.proxies_asyncEmptyBuffer p
  have hne := fun q (hq : q ≠ p) => s.proxies_asyncEmptyBuffer_of_ne hq
  have hctl : ∀ q, ((s.asyncEmptyBuffer p).proxies q).completed = (s.proxies q).completed ∧
      ((s.asyncEmptyBuffer p).proxies q).workerPc = (s.proxies q).workerPc := by
    intro q
    by_cases hq : q = p
    · subst hq
      rw [hself]
      exact ⟨rfl, rfl⟩
    · rw [hne q hq]
      exact ⟨rfl, rfl⟩
  have hb : (s.asyncEmptyBuffer p).barrier = s.barrier := by
    unfold ProxyState.barrier
    congr 1
    funext q
    rw [(hctl q).1, (hctl q).2]
  refine h.quiet (hb ▸ h.barrier) rfl rfl rfl (fun q hq => ?_) (fun q hq => ?_) (fun q _ => ?_)
  · have hle := h.start_le q hq
    by_cases hqp : q = p
    · subst hqp
      rw [hself]
      exact Nat.le_succ_of_le hle
    · rw [hne q hqp]
      exact hle
  · have ht := h.tasks q hq
    by_cases hqp : q = p
    · subst hqp
      have hle := h.start_le q hq
      rw [hself]
      dsimp only
      rw [Nat.succ_sub hle, Nat.succ_eq_add_one, List.range'_concat, ← ht]
      simp [Nat.add_sub_cancel' hle]
    · rw [hne q hqp]
      exact ht
  · rw [(hctl q).1, (hctl q).2]
    exact ⟨rfl, rfl, rfl⟩

/-! ## The worker's steps -/

section Work

variable {e : Nat}

/-- A worker's step, with the counters of the queue manager after it. -/
def workStep (s : ProxyState τ) (p : Nat) (m : EpochTxnQueueManager) (pc : WorkerPc) :
    ProxyState τ := { s with queueMgr := m }.setWorkerPc p pc

theorem workStep_proxies (m : EpochTxnQueueManager) (pc : WorkerPc) (q : Nat) :
    (s.workStep p m pc).proxies q =
      if q = p then { s.proxies p with workerPc := pc } else s.proxies q := by
  unfold workStep setWorkerPc setProxy
  by_cases hq : q = p
  · subst hq
    simp
  · simp [hq]

theorem barrier_workStep (m : EpochTxnQueueManager) (pc : WorkerPc) :
    (s.workStep p m pc).barrier =
      { waits := m.currentWaits
        generation := m.generation
        party := Function.update s.barrier.party p (pc.party (s.proxies p).completed.length) } := by
  unfold ProxyState.barrier
  congr 1
  funext q
  rw [workStep_proxies]
  by_cases hq : q = p
  · subst hq
    simp
  · simp [hq]

variable {m : EpochTxnQueueManager} {pc : WorkerPc}

/-- Within the callback the worker stays the same party of the barrier. -/
theorem Sync.barrier_workStep_same (h : Sync cfg s)
    (hm : m.currentWaits = s.queueMgr.currentWaits ∧ m.generation = s.queueMgr.generation)
    (hpc : pc.party (s.proxies p).completed.length = s.barrier.party p) :
    (s.workStep p m pc).barrier.Inv cfg.blkSrvCnt := by
  rw [barrier_workStep, hpc, Function.update_eq_self, hm.1, hm.2]
  exact h.barrier

theorem Sync.tasks_workStep (h : Sync cfg s) (hcur : pc.current = (s.proxies p).workerPc.current)
    (q : Nat) (hq : q < cfg.blkSrvCnt) :
    cfg.startWithEpoch ≤ ((s.workStep p m pc).proxies q).epoch ∧
    ((s.workStep p m pc).proxies q).completed ++ ((s.workStep p m pc).proxies q).workerPc.current ++
      ((s.workStep p m pc).proxies q).workload = List.range' cfg.startWithEpoch
        (((s.workStep p m pc).proxies q).epoch - cfg.startWithEpoch) := by
  rw [workStep_proxies]
  have ht := h.tasks q hq
  by_cases hqp : q = p
  · subst hqp
    rw [if_pos rfl]
    dsimp only
    rw [hcur]
    exact ⟨h.start_le q hq, ht⟩
  · rw [if_neg hqp]
    exact ⟨h.start_le q hq, ht⟩

/-- A worker's step that leaves the counters as they are. -/
theorem Sync.quietWorkStep (h : Sync cfg s)
    (hcur : pc.current = (s.proxies p).workerPc.current)
    (hreset : pc.reset = (s.proxies p).workerPc.reset)
    (hraised : pc.raised = (s.proxies p).workerPc.raised)
    (hb : (s.workStep p s.queueMgr pc).barrier.Inv cfg.blkSrvCnt) :
    Sync cfg (s.workStep p s.queueMgr pc) := by
  refine h.quiet hb rfl rfl rfl (fun q hq => (h.tasks_workStep hcur q hq).1)
    (fun q hq => (h.tasks_workStep hcur q hq).2) (fun q _ => ?_)
  rw [workStep_proxies]
  by_cases hqp : q = p
  · subst hqp
    rw [if_pos rfl]
    exact ⟨rfl, hreset, hraised⟩
  · rw [if_neg hqp]
    exact ⟨rfl, rfl, rfl⟩

theorem afterAwait_facts (cfg : ProxyConfig τ) (e : Nat) (c : Nat) :
    (afterAwait cfg e).current = [e] ∧ (afterAwait cfg e).reset = false ∧
      (afterAwait cfg e).raised = false ∧ (afterAwait cfg e).party c = .outside (c + 1) := by
  unfold afterAwait
  split <;> exact ⟨rfl, rfl, rfl, rfl⟩

theorem Sync.leave {k : Nat} (h : Sync cfg s) (hp : p < cfg.blkSrvCnt)
    (hpc : (s.proxies p).workerPc = .waiting e k) (hk : k < s.queueMgr.generation) :
    Sync cfg (s.workStep p s.queueMgr (afterAwait cfg e)) := by
  obtain ⟨hcur, hreset, hraised, hparty⟩ := afterAwait_facts cfg e (s.proxies p).completed.length
  have hw : s.barrier.party p = .waiting (s.proxies p).completed.length k := by
    simp [ProxyState.barrier, hpc, WorkerPc.party]
  refine h.quietWorkStep ?_ ?_ ?_ ?_
  · rw [hcur, hpc]; rfl
  · rw [hreset, hpc]; rfl
  · rw [hraised, hpc]; rfl
  · rw [barrier_workStep, hparty]
    exact h.barrier.leave hp hw hk

theorem Sync.emptied (h : Sync cfg s) (hpc : (s.proxies p).workerPc = .emptying e) :
    Sync cfg (s.workStep p s.queueMgr (.signalling e)) := by
  refine h.quietWorkStep ?_ ?_ ?_ ?_
  · rw [hpc]; rfl
  · rw [hpc]; rfl
  · rw [hpc]; rfl
  · exact h.barrier_workStep_same ⟨rfl, rfl⟩ (by simp [ProxyState.barrier, hpc, WorkerPc.party])

/-- The worker that arrives waits, or it is the last one. -/
theorem await_self (cfg : ProxyConfig τ) (s : ProxyState τ) (p e : Nat) (rest : List Nat) :
    ∃ pc, (s.await cfg p e rest).proxies p =
      { s.proxies p with workload := rest, workerPc := pc } ∧
      ((∃ k, pc = .waiting e k) ∨ pc = .storing e) := by
  have hpc : ∀ w : Nat, (∃ k, (if w ≥ cfg.blkSrvCnt then WorkerPc.storing e
      else .waiting e s.queueMgr.generation) = .waiting e k) ∨
      (if w ≥ cfg.blkSrvCnt then WorkerPc.storing e else .waiting e s.queueMgr.generation) =
        .storing e := by
    intro w
    split
    · exact Or.inr rfl
    · exact Or.inl ⟨_, rfl⟩
  exact ⟨_, Function.update_self _ _ _, hpc _⟩

section

variable (h : Sync cfg s) (hp : p < cfg.blkSrvCnt)

include h hp

theorem Sync.await {rest : List Nat} (hpc : (s.proxies p).workerPc = .idle)
    (hw : (s.proxies p).workload = e :: rest) :
    Sync cfg (s.await cfg p e rest) := by
  obtain ⟨pc, hself, hpc'⟩ := await_self cfg s p e rest
  have hflags : pc.current = [e] ∧ pc.reset = false ∧ pc.raised = false := by
    rcases hpc' with ⟨k, rfl⟩ | rfl <;> exact ⟨rfl, rfl, rfl⟩
  have hne : ∀ q, q ≠ p → (s.await cfg p e rest).proxies q = s.proxies q :=
    fun q hq => Function.update_of_ne hq _ _
  have hnew : (s.await cfg p e rest).barrier =
      s.barrier.arrive cfg.blkSrvCnt p (s.proxies p).completed.length := by
    have hparty : ∀ w c : Nat, (if w ≥ cfg.blkSrvCnt then WorkerPc.storing e
        else .waiting e s.queueMgr.generation).party c =
          if cfg.blkSrvCnt ≤ w then .closing c else .waiting c s.queueMgr.generation := by
      intro w c
      by_cases hw : cfg.blkSrvCnt ≤ w <;> simp [hw, WorkerPc.party]
    unfold ProxyState.barrier Barrier.arrive ProxyState.await
    congr 1
    funext q
    by_cases hq : q = p
    · subst hq
      simp only [Function.update_self, hparty]
    · simp [hq]
  refine h.quiet ?_ rfl rfl rfl (fun q hq => ?_) (fun q hq => ?_) (fun q _ => ?_)
  · rw [hnew]
    refine h.barrier.arrive hp ?_
    simp [ProxyState.barrier, hpc, WorkerPc.party]
  · by_cases hqp : q = p
    · subst hqp
      rw [hself]
      exact h.start_le q hq
    · rw [hne q hqp]
      exact h.start_le q hq
  · have ht := h.tasks q hq
    by_cases hqp : q = p
    · subst hqp
      rw [hpc, hw] at ht
      rw [hself]
      dsimp only
      rw [hflags.1, ← ht]
      simp [WorkerPc.current]
    · rw [hne q hqp]
      exact ht
  · by_cases hqp : q = p
    · subst hqp
      rw [hself, hpc]
      exact ⟨rfl, hflags.2⟩
    · rw [hne q hqp]
      exact ⟨rfl, rfl, rfl⟩

/-- The first step of the callback: the count is reset. -/
theorem Sync.store (hpc : (s.proxies p).workerPc = .storing e) :
    Sync cfg (s.workStep p { s.queueMgr with currentEpochPushedToQueueCnt := 0 } (.adding e)) := by
  have hcur : (WorkerPc.adding e).current = (s.proxies p).workerPc.current := by rw [hpc]; rfl
  have hraised : ∀ q, ((s.workStep p { s.queueMgr with currentEpochPushedToQueueCnt := 0 }
      (.adding e)).proxies q).workerPc.raised = (s.proxies q).workerPc.raised := by
    intro q
    rw [workStep_proxies]
    split
    · rename_i hq
      rw [hq, hpc]
      rfl
    · rfl
  refine ⟨?_, fun q hq => (h.tasks_workStep hcur q hq).1, fun q hq => (h.tasks_workStep hcur q hq).2,
    fun hopen => ?_, fun q hq hr => ?_, fun hopen => ?_, fun _ _ _ => rfl⟩
  · exact h.barrier_workStep_same ⟨rfl, rfl⟩ (by simp [ProxyState.barrier, hpc, WorkerPc.party])
  · exact h.epochOpen fun q hq => (hraised q).symm.trans (hopen q hq)
  · exact h.epochRaised q hq ((hraised q).symm.trans hr)
  · have := hopen p hp
    rw [workStep_proxies, if_pos rfl] at this
    cases this

/-- The second step of the callback: the epoch is increased. -/
theorem Sync.add (hpc : (s.proxies p).workerPc = .adding e) :
    Sync cfg (s.workStep p { s.queueMgr with
      globalProcessingEpoch := s.queueMgr.globalProcessingEpoch + 1 } (.releasing e)) := by
  have hcur : (WorkerPc.releasing e).current = (s.proxies p).workerPc.current := by rw [hpc]; rfl
  have hreset : (s.proxies p).workerPc.reset = true := by rw [hpc]; rfl
  have hopen : s.queueMgr.globalProcessingEpoch = cfg.startWithEpoch + s.queueMgr.generation := by
    refine h.epochOpen fun q hq => ?_
    by_cases hqp : q = p
    · subst hqp
      rw [hpc]
      rfl
    · exact (h.others_quiet hp (Sync.closing_of_reset hreset) hq hqp).2
  refine ⟨?_, fun q hq => (h.tasks_workStep hcur q hq).1, fun q hq => (h.tasks_workStep hcur q hq).2,
    fun hno => ?_, fun _ _ _ => ?_, fun hno => ?_, fun _ _ _ => h.countReset p hp hreset⟩
  · exact h.barrier_workStep_same ⟨rfl, rfl⟩ (by simp [ProxyState.barrier, hpc, WorkerPc.party])
  · have := hno p hp
    rw [workStep_proxies, if_pos rfl] at this
    cases this
  · show s.queueMgr.globalProcessingEpoch + 1 = _
    rw [hopen]
    rfl
  · have := hno p hp
    rw [workStep_proxies, if_pos rfl] at this
    cases this

/-- The end of the callback: the generation is released. -/
theorem Sync.release (hpc : (s.proxies p).workerPc = .releasing e) :
    Sync cfg (s.workStep p { s.queueMgr with
      currentWaits := 0, generation := s.queueMgr.generation + 1 } (afterAwait cfg e)) := by
  obtain ⟨hcur, hreset, hraised, hparty⟩ := afterAwait_facts cfg e (s.proxies p).completed.length
  have hclosing : s.barrier.party p = .closing (s.proxies p).completed.length := by
    simp [ProxyState.barrier, hpc, WorkerPc.party]
  have hlen : ∀ q < cfg.blkSrvCnt, (s.proxies q).completed.length = s.queueMgr.generation := by
    intro q hq
    by_cases hqp : q = p
    · subst hqp
      have hround := h.barrier.rounds q hq
      rw [hclosing] at hround
      exact hround
    · exact (h.others_waiting hp ⟨_, hclosing⟩ hq hqp).2
  have hquiet : ∀ q < cfg.blkSrvCnt, ((s.workStep p { s.queueMgr with
      currentWaits := 0, generation := s.queueMgr.generation + 1 } (afterAwait cfg e)
      ).proxies q).workerPc.reset = false ∧ ((s.workStep p { s.queueMgr with
      currentWaits := 0, generation := s.queueMgr.generation + 1 } (afterAwait cfg e)
      ).proxies q).workerPc.raised = false := by
    intro q hq
    rw [workStep_proxies]
    by_cases hqp : q = p
    · rw [if_pos hqp]
      exact ⟨hreset, hraised⟩
    · rw [if_neg hqp]
      exact h.others_quiet hp ⟨_, hclosing⟩ hq hqp
  have hcur' : (afterAwait cfg e).current = (s.proxies p).workerPc.current := by rw [hcur, hpc]; rfl
  refine ⟨?_, fun q hq => (h.tasks_workStep hcur' q hq).1,
    fun q hq => (h.tasks_workStep hcur' q hq).2, fun _ => ?_, fun q hq hr => ?_, fun _ => ?_,
    fun q hq hr => ?_⟩
  · rw [barrier_workStep, hparty]
    exact h.barrier.release hp hclosing
  · exact h.epochRaised p hp (by rw [hpc]; rfl)
  · rw [(hquiet q hq).2] at hr
    cases hr
  · -- nobody is through with the generation that has just been released
    show s.queueMgr.currentEpochPushedToQueueCnt = _
    rw [h.countReset p hp (by rw [hpc]; rfl)]
    have hnone : Nat.count (fun q => ((s.workStep p { s.queueMgr with
        currentWaits := 0, generation := s.queueMgr.generation + 1 } (afterAwait cfg e)
        ).proxies q).completed.length = s.queueMgr.generation + 1) cfg.blkSrvCnt =
        Nat.count (fun _ => False) cfg.blkSrvCnt := by
      refine count_congr fun q hq => iff_false_intro ?_
      have hq' := hlen q hq
      rw [workStep_proxies]
      split
      · rename_i hqp
        rw [hqp] at hq'
        show (s.proxies p).completed.length ≠ _
        omega
      · omega
    exact (hnone.trans (Nat.count_false _)).symm
  · rw [(hquiet q hq).1] at hr
    cases hr

/-- The end of a task. -/
theorem Sync.signal (hpc : (s.proxies p).workerPc = .signalling e) :
    Sync cfg ({ s with queueMgr := { s.queueMgr with currentEpochPushedToQueueCnt :=
        s.queueMgr.currentEpochPushedToQueueCnt + 1 } }.setProxy p { s.proxies p with
          workerPc := .idle, completed := (s.proxies p).completed ++ [e] }) := by
  generalize hs' : ({ s with queueMgr := { s.queueMgr with currentEpochPushedToQueueCnt :=
    s.queueMgr.currentEpochPushedToQueueCnt + 1 } }.setProxy p { s.proxies p with
      workerPc := .idle, completed := (s.proxies p).completed ++ [e] }) = s'
  have hself : s'.proxies p = { s.proxies p with
      workerPc := .idle, completed := (s.proxies p).completed ++ [e] } := by
    rw [← hs']
    exact Function.update_self _ _ _
  have hne : ∀ q, q ≠ p → s'.proxies q = s.proxies q := by
    intro q hq
    rw [← hs']
    exact Function.update_of_ne hq _ _
  have hm : s'.queueMgr = { s.queueMgr with currentEpochPushedToQueueCnt :=
      s.queueMgr.currentEpochPushedToQueueCnt + 1 } := by rw [← hs']; rfl
  have hb : s'.barrier = s.barrier := by
    unfold ProxyState.barrier
    rw [hm]
    congr 1
    funext q
    by_cases hq : q = p
    · subst hq
      rw [hself, hpc]
      simp [WorkerPc.party]
    · rw [hne q hq]
  -- while this worker is in its task, no other is closing a generation
  have hnone : ∀ q < cfg.blkSrvCnt, (s.proxies q).workerPc.reset = false := by
    intro q hq
    cases hr : (s.proxies q).workerPc.reset with
    | false => rfl
    | true =>
        by_cases hqp : p = q
        · subst hqp
          rw [hpc] at hr
          cases hr
        · obtain ⟨⟨e', he'⟩, -⟩ := h.others_waiting hq (Sync.closing_of_reset hr) hp hqp
          rw [hpc] at he'
          cases he'
  have hraised : ∀ q, (s'.proxies q).workerPc.raised = (s.proxies q).workerPc.raised := by
    intro q
    by_cases hq : q = p
    · rw [hq, hself, hpc]
      rfl
    · rw [hne q hq]
  have hround : (s.proxies p).completed.length + 1 = s.queueMgr.generation := by
    have := h.barrier.rounds p hp
    simp only [ProxyState.barrier, hpc] at this
    exact this
  refine ⟨hb ▸ h.barrier, fun q hq => ?_, fun q hq => ?_, fun hopen => ?_, fun q hq hr => ?_,
    fun _ => ?_, fun q hq hr => ?_⟩
  · by_cases hqp : q = p
    · subst hqp
      rw [hself]
      exact h.start_le q hq
    · rw [hne q hqp]
      exact h.start_le q hq
  · have ht := h.tasks q hq
    by_cases hqp : q = p
    · subst hqp
      rw [hpc] at ht
      rw [hself]
      dsimp only
      rw [← ht]
      simp [WorkerPc.current]
    · rw [hne q hqp]
      exact ht
  · rw [hm]
    exact h.epochOpen fun q hq => (hraised q).symm.trans (hopen q hq)
  · rw [hm]
    exact h.epochRaised q hq ((hraised q).symm.trans hr)
  · rw [hm]
    show s.queueMgr.currentEpochPushedToQueueCnt + 1 = _
    rw [h.countOpen hnone]
    refine (count_succ hp ?_ ?_ fun q _ hqp => ?_).symm
    · omega
    · rw [hself]
      simpa using hround
    · rw [hne q hqp]
  · by_cases hqp : q = p
    · rw [hqp, hself] at hr
      cases hr
    · rw [hne q hqp, hnone q hq] at hr
      cases hr

end

end Work

end ProxyState

end NeuChain.Server
