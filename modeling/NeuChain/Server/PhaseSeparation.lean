/-
  The phases of an epoch do not overlap.

  For both kinds of coordinators, for any number of workers and workloads, and for every
  interleaving of the coordinator thread with the worker threads (`phases_separated`):

  * `executeList` and `commitList` are called on a workload at most once, in this order;
  * no `commitList` starts before `executeList` has returned for all workloads of the epoch;
  * no `executeList` starts before `commitList` has returned for all workloads of earlier epochs;
  * a worker that executes or commits does so on the workload it has.

  `Inv` says where the workers are (`Slot`), that every workload not yet committed has exactly one
  of them, and how far the log is for each workload. A worker's step, the deployment of a workload
  and the end of an epoch have a lemma each; all other steps of the coordinator change only its
  position and one worker (`Inv.turn`, `Inv.goto`).
-/
import NeuChain.Lib.Log
import NeuChain.Server.WorkerPlaces
import Mathlib.Data.List.TakeDrop

namespace NeuChain.Server

open NeuChain Lib

/-! ## The log -/

section Log

variable {log log' events : List WorkEvent} {id id' k : Nat} {kind : WorkEventKind}

theorem history_append : history (log ++ log') id = history log id ++ history log' id := by
  simp [history]

theorem mem_history : kind ∈ history log id ↔ ⟨kind, id⟩ ∈ log := by
  simp only [history, List.mem_map, List.mem_filter, decide_eq_true_eq]
  constructor
  · rintro ⟨⟨kind', id'⟩, ⟨hmem, rfl⟩, rfl⟩
    exact hmem
  · intro hmem
    exact ⟨_, ⟨hmem, rfl⟩, rfl⟩

theorem Emits.history_self (h : Emits id k events) :
    (history events id).length = events.length ∧
      lifecycle.take (k + events.length) = lifecycle.take k ++ history events id := by
  rcases h with rfl | ⟨kind, hkind, rfl⟩
  · simp [history]
  · have hself : history [⟨kind, id⟩] id = [kind] := by simp [history]
    rw [hself]
    refine ⟨rfl, ?_⟩
    rw [List.length_singleton, List.take_add_one, hkind]
    rfl

theorem Emits.history_other (h : Emits id k events) (hne : id' ≠ id) : history events id' = [] := by
  rcases h with rfl | ⟨kind, -, rfl⟩
  · rfl
  · simp [history, hne.symm]

theorem Emits.workload_of_mem (h : Emits id k events) (hmem : ⟨kind, id'⟩ ∈ events) : id' = id := by
  rcases h with rfl | ⟨kind', -, rfl⟩
  · simp at hmem
  · exact (WorkEvent.mk.inj (List.mem_singleton.mp hmem)).2

theorem Emits.precedes {x y : WorkEvent} (hemits : Emits id k events) (h : Precedes log y x)
    (hx : x ∈ events → y ∈ log) : Precedes (log ++ events) y x := by
  rcases hemits with rfl | ⟨kind, -, rfl⟩
  · rwa [List.append_nil]
  · exact h.snoc fun ha => hx (ha ▸ List.mem_singleton_self _)

end Log

/-! ## The invariant -/

namespace CoordinatorState

/-- The workload at hand is one `createWorkload` returns, and a worker that is given one exists. -/
def Pending (mode : CoordinatorMode) (s : CoordinatorState) : CoordinatorPc → Prop
  | .scan workload _ =>
      workload.epoch = s.currentEpoch ∧ (mode = .aria → workload.aggregationWorkload = false)
  | .setAssigned workload i | .move workload i =>
      i < s.workerCount ∧ workload.epoch = s.currentEpoch ∧
        (mode = .aria → workload.aggregationWorkload = false)
  | _ => True

structure Inv (mode : CoordinatorMode) (s : CoordinatorState) : Prop where
  slot : ∀ i < s.workerCount, Slot mode s.currentEpoch s.pc i (s.view i)
  pending : s.Pending mode s.pc
  /-- A worker has one of the workloads deployed, and no two the same. -/
  held : ∀ i < s.workerCount, (s.workers i).workload < s.workloadCount
  injective : ∀ i < s.workerCount, ∀ j < s.workerCount,
    (s.workers i).workload = (s.workers j).workload → i = j
  /-- What no worker has any more is committed. -/
  replaced : ∀ id < s.workloadCount, (∀ i < s.workerCount, (s.workers i).workload ≠ id) →
    s.stage id = 4 ∧ (s.workloads id).epoch < s.currentEpoch
  fresh : ∀ id, s.workloadCount ≤ id → s.stage id = 0
  lifecycles : ∀ id, history s.log id = lifecycle.take (s.stage id)
  plain : mode = .aria → ∀ id < s.workloadCount, (s.workloads id).aggregationWorkload = false
  commits : ∀ id < s.workloadCount, ∀ id' < s.workloadCount,
    (s.workloads id').epoch = (s.workloads id).epoch →
      Precedes s.log ⟨.executeEnd, id'⟩ ⟨.commitStart, id⟩
  executes : ∀ id < s.workloadCount, ∀ id' < s.workloadCount,
    (s.workloads id').epoch < (s.workloads id).epoch →
      Precedes s.log ⟨.commitEnd, id'⟩ ⟨.executeStart, id⟩

variable {mode : CoordinatorMode} {s s' : CoordinatorState} {i id : Nat} {pc : CoordinatorPc}

theorem inv_initial (mode : CoordinatorMode) (startupEpoch : Nat) :
    (initial startupEpoch).Inv mode where
  slot _ hi := absurd hi (Nat.not_lt_zero _)
  pending := trivial
  held _ hi := absurd hi (Nat.not_lt_zero _)
  injective _ hi := absurd hi (Nat.not_lt_zero _)
  replaced _ hid := absurd hid (Nat.not_lt_zero _)
  fresh _ _ := rfl
  lifecycles _ := rfl
  plain _ _ hid := absurd hid (Nat.not_lt_zero _)
  commits _ hid := absurd hid (Nat.not_lt_zero _)
  executes _ hid := absurd hid (Nat.not_lt_zero _)

theorem view_setWorker_self (w : WorkerInstance) (hw : w.workload = (s.workers i).workload) :
    (s.setWorker i w).view i = { s.view i with worker := w } := by
  simp [view, setWorker, stage, hw]

theorem view_setWorker_of_ne (w : WorkerInstance) {j : Nat} (hj : j ≠ i) :
    (s.setWorker i w).view j = s.view j := by
  simp [view, setWorker, stage, hj]

theorem workload_setWorker (w : WorkerInstance) (hw : w.workload = (s.workers i).workload) (j : Nat) :
    ((s.setWorker i w).workers j).workload = (s.workers j).workload := by
  by_cases hj : j = i
  · subst hj
    simpa [setWorker] using hw
  · simp [setWorker, hj]

/-- The coordinator sets a field of one worker. -/
theorem stage_append (events : List WorkEvent) (id : Nat) :
    { s with log := s.log ++ events }.stage id = s.stage id + (history events id).length := by
  simp only [stage, history_append, List.length_append]

section

variable (h : s.Inv mode)

include h

theorem Inv.mem_log_iff {kind : WorkEventKind} :
    ⟨kind, id⟩ ∈ s.log ↔ lifecycle.idxOf kind < s.stage id := by
  rw [← mem_history, h.lifecycles, List.mem_take_iff_idxOf_lt (by cases kind <;> decide)]

theorem Inv.stage_le (id : Nat) : s.stage id ≤ 4 := by
  have hlen : s.stage id = (lifecycle.take (s.stage id)).length :=
    congrArg List.length (h.lifecycles id)
  rw [hlen]
  exact List.length_take_le' _ _

/-- No workload is of a later epoch, and those of earlier epochs are committed. -/
theorem Inv.epoch_le (hid : id < s.workloadCount) :
    (s.workloads id).epoch ≤ s.currentEpoch ∧
      ((s.workloads id).epoch < s.currentEpoch → s.stage id = 4) := by
  by_cases hheld : ∃ i < s.workerCount, (s.workers i).workload = id
  · obtain ⟨i, hi, rfl⟩ := hheld
    exact (h.slot i hi).epoch_le
  · have hrep := h.replaced id hid fun i hi heq => hheld ⟨i, hi, heq⟩
    exact ⟨Nat.le_of_lt hrep.2, fun _ => hrep.1⟩

/-- A workload of the current epoch has a worker. -/
theorem Inv.exists_worker (hid : id < s.workloadCount)
    (hepoch : (s.workloads id).epoch = s.currentEpoch) :
    ∃ i < s.workerCount, (s.workers i).workload = id := by
  by_contra hnone
  have hrep := h.replaced id hid fun i hi heq => hnone ⟨i, hi, heq⟩
  exact Nat.ne_of_lt hrep.2 hepoch

/-! ## Steps that move no workload -/

theorem Inv.goto (hslot : ∀ i < s.workerCount, Slot mode s.currentEpoch pc i (s.view i))
    (hpending : s.Pending mode pc) : (s.goto pc).Inv mode :=
  { h with slot := hslot, pending := hpending }

theorem Inv.turn {w : WorkerInstance} (hw : w.workload = (s.workers i).workload)
    (hself : i < s.workerCount → Slot mode s.currentEpoch pc i { s.view i with worker := w })
    (hother : ∀ j < s.workerCount, j ≠ i → Slot mode s.currentEpoch pc j (s.view j))
    (hpending : s.Pending mode pc) : ((s.setWorker i w).goto pc).Inv mode := by
  have hload := workload_setWorker w hw
  refine { h with slot := ?_, pending := hpending, held := ?_, injective := ?_, replaced := ?_ }
  · intro j hj
    show Slot mode s.currentEpoch pc j ((s.setWorker i w).view j)
    by_cases hji : j = i
    · subst hji
      rw [view_setWorker_self w hw]
      exact hself hj
    · rw [view_setWorker_of_ne w hji]
      exact hother j hj hji
  · intro j hj
    show ((s.setWorker i w).workers j).workload < s.workloadCount
    rw [hload]
    exact h.held j hj
  · intro j hj k hk heq
    refine h.injective j hj k hk ?_
    rw [← hload, ← hload]
    exact heq
  · intro id hid hfree
    refine h.replaced id hid fun j hj heq => hfree j hj ?_
    exact (hload j).trans heq

/-! ## The step of a worker -/

theorem Inv.work (hi : i < s.workerCount) (hs : s.work mode i = some s') :
    s'.Inv mode := by
  obtain ⟨⟨w, events⟩, hr, rfl⟩ := Option.map_eq_some_iff.mp hs
  have hslot := h.slot i hi
  have hagg : mode = .aria → (s.view i).workload.aggregationWorkload = false :=
    fun hm => h.plain hm _ (h.held i hi)
  obtain ⟨hw, hemits, hcommit⟩ := hslot.emits hagg hr
  have hw : w.workload = (s.workers i).workload := hw
  have hemits : Emits (s.workers i).workload (s.stage (s.workers i).workload) events := hemits
  have hload := workload_setWorker w hw
  have hstage_self : { s with log := s.log ++ events }.stage (s.workers i).workload =
      s.stage (s.workers i).workload + events.length := by
    rw [stage_append, hemits.history_self.1]
  have hstage : ∀ id ≠ (s.workers i).workload,
      { s with log := s.log ++ events }.stage id = s.stage id := by
    intro id hne
    rw [stage_append, hemits.history_other hne, List.length_nil, Nat.add_zero]
  refine { h with
    slot := ?_, held := ?_, injective := ?_, replaced := ?_, fresh := ?_, lifecycles := ?_
    commits := ?_, executes := ?_ }
  · intro j hj
    by_cases hji : j = i
    · subst hji
      have hview : CoordinatorState.view { s.setWorker j w with log := s.log ++ events } j =
          (s.view j).after w events := by
        simp only [view, setWorker, WorkerView.after, Function.update_self, hw]
        exact congrArg _ hstage_self
      rw [hview]
      exact hslot.work hagg hr
    · have hview : CoordinatorState.view { s.setWorker i w with log := s.log ++ events } j =
          s.view j := by
        simp only [view, setWorker, Function.update_of_ne hji]
        exact congrArg _ (hstage _ fun heq => hji (h.injective j hj i hi heq))
      rw [hview]
      exact h.slot j hj
  · intro j hj
    show ((s.setWorker i w).workers j).workload < s.workloadCount
    rw [hload]
    exact h.held j hj
  · intro j hj k hk heq
    refine h.injective j hj k hk ?_
    rw [← hload, ← hload]
    exact heq
  · intro id hid hfree
    have hfree : ∀ j < s.workerCount, (s.workers j).workload ≠ id :=
      fun j hj heq => hfree j hj ((hload j).trans heq)
    show { s with log := s.log ++ events }.stage id = 4 ∧ _
    rw [hstage id fun heq => hfree i hi heq.symm]
    exact h.replaced id hid hfree
  · intro id hid
    show { s with log := s.log ++ events }.stage id = 0
    rw [hstage id fun heq => Nat.not_le_of_lt (h.held i hi) (heq ▸ hid)]
    exact h.fresh id hid
  · intro id
    show history (s.log ++ events) id =
      lifecycle.take ({ s with log := s.log ++ events }.stage id)
    rw [history_append, h.lifecycles]
    by_cases hid : id = (s.workers i).workload
    · rw [hid, hstage_self, hemits.history_self.2]
    · rw [hstage id hid, hemits.history_other hid, List.append_nil]
  · intro id hid id' hid' hepoch
    refine hemits.precedes (h.commits id hid id' hid' hepoch) fun hmem => ?_
    have hown : id = (s.workers i).workload := hemits.workload_of_mem hmem
    subst hown
    -- the worker commits, so all workloads of the epoch have a worker that has executed
    obtain ⟨hplace, hcur⟩ := hslot.commit_of_run hr (hcommit hmem)
    have hcur' : (s.workloads id').epoch = s.currentEpoch := hepoch.trans hcur
    obtain ⟨j, hj, rfl⟩ := h.exists_worker hid' hcur'
    exact h.mem_log_iff.mpr ((h.slot j hj).stage_of_commit hplace hcur')
  · intro id hid id' hid' hepoch
    refine hemits.precedes (h.executes id hid id' hid' hepoch) fun _ => ?_
    have hlt : (s.workloads id').epoch < s.currentEpoch :=
      Nat.lt_of_lt_of_le hepoch (h.epoch_le hid).1
    rw [h.mem_log_iff, (h.epoch_le hid').2 hlt]
    decide

/-! ## Deployment -/

theorem Inv.not_mem_log {kind : WorkEventKind} (hk : s.stage id ≤ lifecycle.idxOf kind) :
    ⟨kind, id⟩ ∉ s.log := by
  rw [h.mem_log_iff]
  exact Nat.not_lt_of_le hk

/-- Worker `i`, which is idle or new, gets the next workload. -/
theorem Inv.deploy {workload : Workload} {w : WorkerInstance} {n : Nat}
    (hepoch : workload.epoch = s.currentEpoch)
    (hplain : mode = .aria → workload.aggregationWorkload = false)
    (hstage : ∀ j < s.workerCount, (s.workloads (s.workers j).workload).epoch = s.currentEpoch →
      s.stage (s.workers j).workload ≤ 2)
    (hn : s.workerCount ≤ n) (hi : i < n) (hother : ∀ j < n, j ≠ i → j < s.workerCount)
    (hold : i < s.workerCount → s.stage (s.workers i).workload = 4 ∧
      (s.workloads (s.workers i).workload).epoch < s.currentEpoch)
    (hw : w.workload = s.workloadCount)
    (hself : Slot mode s.currentEpoch pc i ⟨w, workload, 0⟩)
    (hslot : ∀ j < s.workerCount, j ≠ i → Slot mode s.currentEpoch pc j (s.view j))
    (hpending : ∀ t : CoordinatorState, t.Pending mode pc) :
    { (s.number workload).setWorker i w with workerCount := n, pc := pc }.Inv mode := by
  have hnew : s.stage s.workloadCount = 0 := h.fresh _ (Nat.le_refl _)
  have hload_self : (((s.number workload).setWorker i w).workers i).workload = s.workloadCount := by
    rw [← hw]
    exact congrArg _ (Function.update_self _ _ _)
  have hload : ∀ j ≠ i, ((s.number workload).setWorker i w).workers j = s.workers j :=
    fun j hj => Function.update_of_ne hj _ _
  have hworkload : ∀ id < s.workloadCount, (s.number workload).workloads id = s.workloads id :=
    fun id hid => Function.update_of_ne (Nat.ne_of_lt hid) _ _
  have hworkload_new : (s.number workload).workloads s.workloadCount = workload :=
    Function.update_self _ _ _
  have hcases : ∀ id < s.workloadCount + 1, id < s.workloadCount ∨ id = s.workloadCount :=
    fun id hid => Nat.lt_or_eq_of_le (Nat.le_of_lt_succ hid)
  refine ⟨?_, hpending _, ?_, ?_, ?_, ?_, h.lifecycles, ?_, ?_, ?_⟩
  · intro j hj
    by_cases hji : j = i
    · subst hji
      have hview : CoordinatorState.view
          { (s.number workload).setWorker j w with workerCount := n, pc := pc } j =
            ⟨w, workload, 0⟩ := by
        simp only [view, setWorker, Function.update_self, hw, hworkload_new]
        exact congrArg _ hnew
      rw [hview]
      exact hself
    · have hview : CoordinatorState.view
          { (s.number workload).setWorker i w with workerCount := n, pc := pc } j = s.view j := by
        have hheld := h.held j (hother j hj hji)
        simp only [view, setWorker, Function.update_of_ne hji]
        exact congrArg (fun workload => WorkerView.mk _ workload _) (hworkload _ hheld)
      rw [hview]
      exact hslot j (hother j hj hji) hji
  · intro j hj
    show (((s.number workload).setWorker i w).workers j).workload < s.workloadCount + 1
    by_cases hji : j = i
    · rw [hji, hload_self]
      exact Nat.lt_succ_self _
    · rw [hload j hji]
      exact Nat.lt_succ_of_lt (h.held j (hother j hj hji))
  · intro j hj k hk heq
    have heq : (((s.number workload).setWorker i w).workers j).workload =
        (((s.number workload).setWorker i w).workers k).workload := heq
    by_cases hji : j = i
    · by_cases hki : k = i
      · rw [hji, hki]
      · rw [hji, hload_self, hload k hki] at heq
        exact absurd heq.symm (Nat.ne_of_lt (h.held k (hother k hk hki)))
    · by_cases hki : k = i
      · rw [hki, hload_self, hload j hji] at heq
        exact absurd heq (Nat.ne_of_lt (h.held j (hother j hj hji)))
      · rw [hload j hji, hload k hki] at heq
        exact h.injective j (hother j hj hji) k (hother k hk hki) heq
  · intro id hid hfree
    rcases hcases id hid with hid | rfl
    · show s.stage id = 4 ∧ ((s.number workload).workloads id).epoch < s.currentEpoch
      rw [hworkload id hid]
      by_cases hheld : ∃ j < s.workerCount, (s.workers j).workload = id
      · obtain ⟨j, hj, rfl⟩ := hheld
        -- only worker `i` can have lost its workload
        by_cases hji : j = i
        · exact hji ▸ hold (hji ▸ hj)
        · exact absurd (congrArg _ (hload j hji)) (hfree j (Nat.lt_of_lt_of_le hj hn))
      · exact h.replaced id hid fun j hj heq => hheld ⟨j, hj, heq⟩
    · exact absurd hload_self (hfree i hi)
  · intro id hid
    exact h.fresh id (Nat.le_of_succ_le hid)
  · intro hm id hid
    show ((s.number workload).workloads id).aggregationWorkload = false
    rcases hcases id hid with hid | rfl
    · rw [hworkload id hid]
      exact h.plain hm id hid
    · rw [hworkload_new]
      exact hplain hm
  · intro id hid id' hid' heq
    have heq : ((s.number workload).workloads id').epoch =
      ((s.number workload).workloads id).epoch := heq
    show Precedes s.log ⟨.executeEnd, id'⟩ ⟨.commitStart, id⟩
    rcases hcases id hid with hid | rfl
    · rw [hworkload id hid] at heq
      rcases hcases id' hid' with hid' | rfl
      · rw [hworkload id' hid'] at heq
        exact h.commits id hid id' hid' heq
      · rw [hworkload_new, hepoch] at heq
        obtain ⟨j, hj, rfl⟩ := h.exists_worker hid heq.symm
        exact precedes_of_not_mem (h.not_mem_log (hstage j hj heq.symm))
    · exact precedes_of_not_mem (h.not_mem_log (hnew ▸ Nat.zero_le _))
  · intro id hid id' hid' hlt
    have hlt : ((s.number workload).workloads id').epoch <
      ((s.number workload).workloads id).epoch := hlt
    show Precedes s.log ⟨.commitEnd, id'⟩ ⟨.executeStart, id⟩
    rcases hcases id hid with hid | rfl
    · rw [hworkload id hid] at hlt
      rcases hcases id' hid' with hid' | rfl
      · rw [hworkload id' hid'] at hlt
        exact h.executes id hid id' hid' hlt
      · rw [hworkload_new, hepoch] at hlt
        exact absurd (h.epoch_le hid).1 (Nat.not_le_of_lt hlt)
    · exact precedes_of_not_mem (h.not_mem_log (hnew ▸ Nat.zero_le _))

theorem Inv.moveWorkload {workload : Workload} (hpc : s.pc = .move workload i) :
    ((s.moveWorkload workload i).goto (.signalRead i)).Inv mode := by
  have hslot := h.slot
  obtain ⟨hi, hepoch, hplain⟩ : s.Pending mode (.move workload i) := hpc ▸ h.pending
  rw [hpc] at hslot
  have hmoving := (hslot i hi).moving
  refine h.deploy hepoch hplain (fun j hj => (hslot j hj).stage_deploying_move) (Nat.le_refl _) hi
    (fun j hj _ => hj) (fun _ => ⟨hmoving.parked.stage, hmoving.epoch⟩) rfl ?_ ?_ fun _ => trivial
  · exact (hslot i hi).self_of_move hepoch
  · exact fun j hj hji => (hslot j hj).other_of_move hji

theorem Inv.newWorker {workload : Workload} (hpc : s.pc = .scan workload i) :
    ((s.newWorker workload).goto (.waitAssigned s.workerCount)).Inv mode := by
  have hslot := h.slot
  obtain ⟨hepoch, hplain⟩ : s.Pending mode (.scan workload i) := hpc ▸ h.pending
  rw [hpc] at hslot
  refine h.deploy hepoch hplain (fun j hj => (hslot j hj).stage_deploying_scan) (Nat.le_succ _)
    (Nat.lt_succ_self _) (fun j hj hne => ?_) (fun hlt => absurd hlt (Nat.lt_irrefl _)) rfl ?_ ?_
    fun _ => trivial
  · exact Nat.lt_of_le_of_ne (Nat.le_of_lt_succ hj) hne
  · exact slot_newWorker hepoch
  · exact fun j hj hji => (hslot j hj).other_of_scan hji

/-! ## All steps -/

theorem Inv.finish (hpc : s.pc = .finish) :
    { s.goto .loop with currentEpoch := s.currentEpoch + 1 }.Inv mode := by
  refine { h with slot := ?_, pending := trivial, replaced := ?_ }
  · intro i hi
    have hslot := h.slot i hi
    rw [hpc] at hslot
    exact hslot.to_loop
  · intro id hid hfree
    obtain ⟨hstage, hepoch⟩ := h.replaced id hid hfree
    exact ⟨hstage, Nat.lt_succ_of_lt hepoch⟩

theorem Inv.coordinate (hs : s.coordinate mode = some s') : s'.Inv mode := by
  have hslot := h.slot
  have hpending := h.pending
  unfold CoordinatorState.coordinate at hs
  cases hpc : s.pc with
  | loop => simp [hpc] at hs
  | assign => simp [hpc] at hs
  | destroyed => simp [hpc] at hs
  | scan workload i =>
      rw [hpc] at hs hslot hpending
      dsimp only at hs
      split_ifs at hs with hi hready
      · cases hs
        refine h.goto (fun j hj => (hslot j hj).to_setAssigned fun hji => ?_) ⟨hi, hpending⟩
        exact hji ▸ hready
      · cases hs
        exact h.goto hslot hpending
      · cases hs
        exact h.newWorker hpc
  | setAssigned workload i =>
      rw [hpc] at hs hslot hpending
      cases hs
      refine h.turn rfl (fun hi => ?_) (fun j hj hji => ?_) hpending
      · exact (hslot i hi).self_of_setAssigned
      · exact (hslot j hj).other_of_setAssigned hji
  | move workload i =>
      rw [hpc] at hs
      cases hs
      exact h.moveWorkload hpc
  | waitAssigned i =>
      rw [hpc] at hs hslot
      dsimp only at hs
      split_ifs at hs with hstate
      cases hs
      refine h.goto (fun j hj => (hslot j hj).to_signalRead fun hji => ?_) trivial
      exact hji ▸ hstate
  | signalRead i =>
      rw [hpc] at hs hslot
      cases hs
      refine h.turn rfl (fun hi => ?_) (fun j hj hji => ?_) trivial
      · exact (hslot i hi).self_of_signalRead
      · exact (hslot j hj).other_of_signalRead hji
  | broadcast phase i =>
      rw [hpc] at hs hslot
      dsimp only at hs
      split_ifs at hs with hi hready
      · cases hs
        refine h.goto (fun j hj => (hslot j hj).broadcast_next fun hji => ?_) trivial
        exact hji ▸ hready
      · cases hs
        refine h.goto (fun j hj => (hslot j hj).to_signal fun hji => ?_) trivial
        exact hji ▸ hready
      · cases hs
        refine h.goto (fun j hj => (hslot j hj).to_sync ?_) trivial
        exact Nat.lt_of_lt_of_le hj (Nat.le_of_not_lt hi)
  | signal phase i =>
      rw [hpc] at hs hslot
      cases hs
      refine h.turn rfl (fun hi => ?_) (fun j hj hji => ?_) trivial
      · exact (hslot i hi).self_of_signal
      · exact (hslot j hj).other_of_signal hji
  | sync phase i =>
      rw [hpc] at hs hslot
      dsimp only at hs
      split_ifs at hs with hi hready
      · cases hs
        refine h.goto (fun j hj => (hslot j hj).sync_next fun hji => ?_) trivial
        exact Or.inl (hji ▸ hready)
      · cases hs
        exact h.goto hslot trivial
      · have hlt : ∀ j < s.workerCount, j < i :=
          fun j hj => Nat.lt_of_lt_of_le hj (Nat.le_of_not_lt hi)
        cases hnext : phase.next mode with
        | some phase' =>
            rw [hnext] at hs
            cases hs
            exact h.goto (fun j hj => (hslot j hj).to_broadcast (hlt j hj) hnext) trivial
        | none =>
            rw [hnext] at hs
            cases hs
            exact h.goto (fun j hj => (hslot j hj).to_finish (hlt j hj) hnext) trivial
  | await phase i =>
      rw [hpc] at hs hslot
      dsimp only at hs
      split_ifs at hs with hstate
      cases hs
      refine h.goto (fun j hj => Slot.sync_next (hslot j hj) fun hji => ?_) trivial
      exact Or.inr (hji ▸ hstate)
  | finish =>
      rw [hpc] at hs
      cases hs
      exact h.finish hpc
  | broadcastExit i =>
      rw [hpc] at hs hslot
      dsimp only at hs
      split_ifs at hs with hi
      · cases hs
        refine h.turn rfl (fun hi => ?_) (fun j hj hji => ?_) trivial
        · exact (hslot i hi).self_of_broadcastExit
        · exact (hslot j hj).other_of_broadcastExit hji
      · cases hs
        refine h.goto (fun j hj => (hslot j hj).to_syncExit ?_) trivial
        exact Nat.lt_of_lt_of_le hj (Nat.le_of_not_lt hi)
  | syncExit i =>
      rw [hpc] at hs hslot
      dsimp only at hs
      split_ifs at hs with hi hstate
      · cases hs
        exact h.goto hslot trivial
      · cases hs
        exact h.goto hslot trivial

theorem Inv.step {a : CoordinatorAction} (hs : CoordinatorState.step mode s a = some s') :
    s'.Inv mode := by
  have hslot := h.slot
  unfold CoordinatorState.step at hs
  cases a with
  | test finishSignal =>
      dsimp only at hs
      split_ifs at hs with hpc hfinish
      · cases hs
        rw [hpc] at hslot
        exact h.goto (fun j hj => (hslot j hj).mono (by simp [places])) trivial
      · cases hs
        rw [hpc] at hslot
        exact h.goto (fun j hj => (hslot j hj).mono (by simp [places])) trivial
  | createWorkload workload =>
      cases workload with
      | none =>
          dsimp only at hs
          split_ifs at hs with hpc
          cases hs
          rw [hpc] at hslot
          refine h.goto (fun j hj => (hslot j hj).mono ?_) trivial
          simp [places, CoordinatorPhase.before]
      | some workload =>
          dsimp only at hs
          split_ifs at hs with hpc
          cases hs
          rw [hpc.1] at hslot
          exact h.goto hslot hpc.2
  | coordinate => exact h.coordinate hs
  | work i =>
      dsimp only at hs
      split_ifs at hs with hi
      exact h.work hi hs

end

end CoordinatorState

/-- What the coordinator owes to the executors. -/
structure PhasesSeparated (s : CoordinatorState) : Prop where
  /-- Calls are on deployed workloads. -/
  deployed : ∀ event ∈ s.log, event.workload < s.workloadCount
  /-- `executeList` and `commitList` at most once each, in this order. -/
  once : ∀ id, ∃ k ≤ 4, history s.log id = lifecycle.take k
  commits : ∀ id < s.workloadCount, ∀ id' < s.workloadCount,
    (s.workloads id').epoch = (s.workloads id).epoch →
      Precedes s.log ⟨.executeEnd, id'⟩ ⟨.commitStart, id⟩
  executes : ∀ id < s.workloadCount, ∀ id' < s.workloadCount,
    (s.workloads id').epoch < (s.workloads id).epoch →
      Precedes s.log ⟨.commitEnd, id'⟩ ⟨.executeStart, id⟩
  /-- A worker is in a call on the workload it has. -/
  own : ∀ i < s.workerCount, ∀ id, (s.workers i).pc = .executing id ∨
    (s.workers i).pc = .committing id → (s.workers i).workload = id

theorem CoordinatorState.Inv.deployed {mode : CoordinatorMode} {s : CoordinatorState}
    (h : s.Inv mode) : ∀ event ∈ s.log, event.workload < s.workloadCount := by
  intro event hmem
  by_contra hge
  have hfresh : s.stage event.workload = 0 := h.fresh _ (Nat.le_of_not_lt hge)
  have hlt : lifecycle.idxOf event.kind < s.stage event.workload := h.mem_log_iff.mp hmem
  rw [hfresh] at hlt
  exact Nat.not_lt_zero _ hlt

/-- In every reachable state, whatever the interleaving of the coordinator with its workers. -/
theorem phases_separated {mode : CoordinatorMode} {startupEpoch : Nat}
    {actions : List CoordinatorAction} {s : CoordinatorState}
    (h : run (CoordinatorState.step mode) (.initial startupEpoch) actions = some s) :
    PhasesSeparated s := by
  have hinv : s.Inv mode :=
    run_invariant (CoordinatorState.Inv mode) (fun _ _ _ hi hs => hi.step hs) h
      (CoordinatorState.inv_initial mode startupEpoch)
  refine ⟨hinv.deployed, fun id => ⟨s.stage id, hinv.stage_le id, hinv.lifecycles id⟩,
    hinv.commits, hinv.executes, ?_⟩
  intro i hi id hpc
  exact (hinv.slot i hi).own hpc

/-- Two workers and three workloads in aggregation mode: the first executes its workload while
    the second is still to be given one, and gets the workload of the next epoch. -/
def twoEpochs : List CoordinatorAction :=
  ([.test false,
    .createWorkload (some { epoch := 0, transactionList := [] }),
    .coordinate, .work 0, .coordinate, .coordinate,
    .work 0, .work 0, .work 0,
    .createWorkload (some { epoch := 0, transactionList := [], aggregationWorkload := true }),
    .coordinate, .coordinate, .work 1, .coordinate, .coordinate,
    .createWorkload none] : List CoordinatorAction) ++
  ([.work 0, .work 0, .work 1, .work 1, .work 1] : List CoordinatorAction) ++
  List.replicate 15 CoordinatorAction.coordinate ++
  List.replicate 4 (CoordinatorAction.work 1) ++
  List.replicate 10 CoordinatorAction.coordinate ++
  ([.work 0, .work 1, .work 0, .work 1, .work 0, .work 1, .work 0, .work 1] :
    List CoordinatorAction) ++
  List.replicate 4 CoordinatorAction.coordinate ++
  ([.test false, .createWorkload (some { epoch := 1, transactionList := [] })] :
    List CoordinatorAction) ++
  List.replicate 4 CoordinatorAction.coordinate ++ List.replicate 3 (CoordinatorAction.work 0)

theorem phases_separated_two : ∃ s, run (CoordinatorState.step .aggregation) (.initial 0) twoEpochs =
    some s ∧ s.workerCount = 2 ∧ s.workloadCount = 3 ∧ (s.workers 0).pc = .executing 2 ∧
      PhasesSeparated s := by
  have hrun : (run (CoordinatorState.step .aggregation) (.initial 0) twoEpochs).any
      (fun s => s.workerCount = 2 ∧ s.workloadCount = 3 ∧ (s.workers 0).pc = .executing 2) = true := by
    decide +kernel
  obtain ⟨s, hs, hworkers, hworkloads, hpc⟩ := exists_of_any hrun
  exact ⟨s, hs, hworkers, hworkloads, hpc, phases_separated hs⟩

end NeuChain.Server
