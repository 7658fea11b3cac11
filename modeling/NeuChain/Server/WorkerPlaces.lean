/-
  What the coordinator knows of its workers.

  The last signal determines where a worker can be in `run` (`RunAt`), and the position of the
  coordinator determines the last signal and how far each worker has come (`places`). A worker
  moves only while it is `Active`; otherwise it waits for another signal than the one it has
  (`Blocked`). So its steps change nothing of what the coordinator knows (`Slot.work`), and each
  step of the coordinator goes from one entry of `places` to the next.
-/
import NeuChain.Server.Coordinator

namespace NeuChain.Server

open NeuChain Lib

/-! ## Workers -/

/-- What happens to a workload, in order. -/
def lifecycle : List WorkEventKind := [.executeStart, .executeEnd, .commitStart, .commitEnd]

/-- Where a worker with workload `id` can be after a signal: its position in `run`, its state, and how
    much of the lifecycle of the workload is over. -/
inductive RunAt (mode : CoordinatorMode) (aggregationWorkload : Bool) (id : Nat) :
    AriaGlobalState → RunPc → WorkerState → Nat → Prop where
  | created : RunAt mode aggregationWorkload id .start .created .ready 0
  | started : RunAt mode aggregationWorkload id .start .waitRead .assigned 0
  | assigned : RunAt mode aggregationWorkload id .ariaRead .waitRead .assigned 0
  | branch (h : mode = .aggregation) : RunAt mode aggregationWorkload id .ariaRead .branch .assigned 0
  | execute (h : aggregationWorkload = false) :
      RunAt mode aggregationWorkload id .ariaRead .execute .assigned 0
  | executing (h : aggregationWorkload = false) :
      RunAt mode aggregationWorkload id .ariaRead (.executing id) .assigned 1
  | executed (h : aggregationWorkload = false) :
      RunAt mode aggregationWorkload id .ariaRead .executed .assigned 2
  | finished (h : aggregationWorkload = false) :
      RunAt mode aggregationWorkload id .ariaRead .waitCommit mode.finishState 2
  | finishRead (h : aggregationWorkload = true) (hm : mode = .aggregation) :
      RunAt mode aggregationWorkload id .ariaRead .finishRead .assigned 0
  | waiting (h : aggregationWorkload = true) (hm : mode = .aggregation) :
      RunAt mode aggregationWorkload id .ariaRead .waitAggregate .finishRead 0
  | aggregate (h : aggregationWorkload = true) (hm : mode = .aggregation) :
      RunAt mode aggregationWorkload id .aggregate .waitAggregate .finishRead 0
  | aggregateExecute (h : aggregationWorkload = true) (hm : mode = .aggregation) :
      RunAt mode aggregationWorkload id .aggregate .execute .finishRead 0
  | aggregateExecuting (h : aggregationWorkload = true) (hm : mode = .aggregation) :
      RunAt mode aggregationWorkload id .aggregate (.executing id) .finishRead 1
  | aggregateExecuted (h : aggregationWorkload = true) (hm : mode = .aggregation) :
      RunAt mode aggregationWorkload id .aggregate .executed .finishRead 2
  | aggregated : RunAt mode aggregationWorkload id .aggregate .waitCommit mode.finishState 2
  | waitCommit : RunAt mode aggregationWorkload id .ariaCommit .waitCommit mode.finishState 2
  | commit : RunAt mode aggregationWorkload id .ariaCommit .commit mode.finishState 2
  | committing : RunAt mode aggregationWorkload id .ariaCommit (.committing id) mode.finishState 3
  | committed : RunAt mode aggregationWorkload id .ariaCommit .committed mode.finishState 4
  | ready : RunAt mode aggregationWorkload id .ariaCommit .waitRead .ready 4
  | exit : RunAt mode aggregationWorkload id .exit .waitRead .ready 4
  | exiting : RunAt mode aggregationWorkload id .exit .exiting .ready 4
  | exited : RunAt mode aggregationWorkload id .exit .exited .exited 4

section

variable {mode : CoordinatorMode} {agg : Bool} {w w' : WorkerInstance} {events : List WorkEvent}
  {k : Nat}

/-- A step that does the next thing to the workload `id`, or nothing. -/
def Emits (id k : Nat) (events : List WorkEvent) : Prop :=
  events = [] ∨ ∃ kind, lifecycle[k]? = some kind ∧ events = [⟨kind, id⟩]

/-- A worker keeps to its positions. -/
theorem RunAt.run (hagg : mode = .aria → agg = false)
    (h : RunAt mode agg w.workload w.ariaGlobalState w.pc w.workerState k)
    (hr : w.run mode agg = some (w', events)) :
    w'.workload = w.workload ∧ w'.ariaGlobalState = w.ariaGlobalState ∧
      RunAt mode agg w'.workload w'.ariaGlobalState w'.pc w'.workerState (k + events.length) ∧
      Emits w.workload k events ∧
      (⟨.commitStart, w.workload⟩ ∈ events → w.ariaGlobalState = .ariaCommit) := by
  obtain ⟨id, state, signal, pc⟩ := w
  dsimp only at h ⊢
  cases h with
  | created => cases hr; exact ⟨rfl, rfl, .started, Or.inl rfl, by nofun⟩
  | started => cases hr
  | assigned =>
      cases mode with
      | aria => cases hr; exact ⟨rfl, rfl, .execute (hagg rfl), Or.inl rfl, by nofun⟩
      | aggregation => cases hr; exact ⟨rfl, rfl, .branch rfl, Or.inl rfl, by nofun⟩
  | branch hm =>
      cases hr
      cases agg with
      | false => exact ⟨rfl, rfl, .execute rfl, Or.inl rfl, by nofun⟩
      | true => exact ⟨rfl, rfl, .finishRead rfl hm, Or.inl rfl, by nofun⟩
  | execute h => cases hr; exact ⟨rfl, rfl, .executing h, Or.inr ⟨_, rfl, rfl⟩, by simp⟩
  | executing h => cases hr; exact ⟨rfl, rfl, .executed h, Or.inr ⟨_, rfl, rfl⟩, by simp⟩
  | executed h => cases hr; exact ⟨rfl, rfl, .finished h, Or.inl rfl, by nofun⟩
  | finished h => cases hr
  | finishRead h hm => cases hr; exact ⟨rfl, rfl, .waiting h hm, Or.inl rfl, by nofun⟩
  | waiting h hm => cases hr
  | aggregate h hm => cases hr; exact ⟨rfl, rfl, .aggregateExecute h hm, Or.inl rfl, by nofun⟩
  | aggregateExecute h hm =>
      cases hr; exact ⟨rfl, rfl, .aggregateExecuting h hm, Or.inr ⟨_, rfl, rfl⟩, by simp⟩
  | aggregateExecuting h hm =>
      cases hr; exact ⟨rfl, rfl, .aggregateExecuted h hm, Or.inr ⟨_, rfl, rfl⟩, by simp⟩
  | aggregateExecuted h hm =>
      cases hr
      cases hm
      exact ⟨rfl, rfl, .aggregated, Or.inl rfl, by nofun⟩
  | aggregated => cases hr
  | waitCommit => cases hr; exact ⟨rfl, rfl, .commit, Or.inl rfl, by nofun⟩
  | commit => cases hr; exact ⟨rfl, rfl, .committing, Or.inr ⟨_, rfl, rfl⟩, fun _ => rfl⟩
  | committing => cases hr; exact ⟨rfl, rfl, .committed, Or.inr ⟨_, rfl, rfl⟩, fun _ => rfl⟩
  | committed => cases hr; exact ⟨rfl, rfl, .ready, Or.inl rfl, by nofun⟩
  | ready => cases hr
  | exit => cases hr; exact ⟨rfl, rfl, .exiting, Or.inl rfl, by nofun⟩
  | exiting => cases hr; exact ⟨rfl, rfl, .exited, Or.inl rfl, by nofun⟩
  | exited => cases hr

end

/-! ## What the coordinator knows -/

/-- The calls on a workload so far. -/
def history (log : List WorkEvent) (id : Nat) : List WorkEventKind :=
  (log.filter fun event => event.workload = id).map WorkEvent.kind

def CoordinatorState.stage (s : CoordinatorState) (id : Nat) : Nat := (history s.log id).length

/-- A worker with its workload and how far that is. -/
structure WorkerView where
  worker : WorkerInstance
  workload : Workload
  stage : Nat

def CoordinatorState.view (s : CoordinatorState) (i : Nat) : WorkerView where
  worker := s.workers i
  workload := s.workloads (s.workers i).workload
  stage := s.stage (s.workers i).workload

/-- A worker that is in a wait. -/
structure Parked (pc : RunPc) (state : WorkerState) (stage : Nat) (v : WorkerView) : Prop where
  pc : v.worker.pc = pc
  state : v.worker.workerState = state
  stage : v.stage = stage

/-- A worker whose last workload is committed. -/
structure Idle (cur : Nat) (v : WorkerView) : Prop where
  signal : v.worker.ariaGlobalState = .ariaCommit
  parked : Parked .waitRead .ready 4 v
  epoch : v.workload.epoch < cur

/-- A worker that is about to get another workload. -/
structure Moving (cur : Nat) (v : WorkerView) : Prop where
  signal : v.worker.ariaGlobalState = .ariaCommit
  parked : Parked .waitRead .assigned 4 v
  epoch : v.workload.epoch < cur

/-- A worker that has a new workload and no signal yet. -/
structure Assigned (cur : Nat) (v : WorkerView) : Prop where
  signal : v.worker.ariaGlobalState = .start ∨ v.worker.ariaGlobalState = .ariaCommit
  parked : Parked .waitRead .assigned 0 v
  epoch : v.workload.epoch = cur

/-- A worker that has executed its workload and waits for the commit phase. -/
structure Executed (mode : CoordinatorMode) (cur : Nat) (v : WorkerView) : Prop where
  signal : v.worker.ariaGlobalState = .ariaRead ∨ v.worker.ariaGlobalState = .aggregate
  parked : Parked .waitCommit mode.finishState 2 v
  epoch : v.workload.epoch = cur

/-- A worker anywhere it can be after this signal. -/
structure Active (mode : CoordinatorMode) (signal : AriaGlobalState) (v : WorkerView) : Prop where
  signal : v.worker.ariaGlobalState = signal
  position : RunAt mode v.workload.aggregationWorkload v.worker.workload v.worker.ariaGlobalState
    v.worker.pc v.worker.workerState v.stage

/-- An active worker with a workload of this epoch. -/
def ActiveIn (mode : CoordinatorMode) (cur : Nat) (signal : AriaGlobalState) (v : WorkerView) : Prop :=
  Active mode signal v ∧ v.workload.epoch = cur

/-- A worker through with the read phase. -/
def ReadDone (mode : CoordinatorMode) (cur : Nat) (v : WorkerView) : Prop :=
  ActiveIn mode cur .ariaRead v ∧ v.worker.workerState ∈ CoordinatorPhase.states mode .read

/-- A worker whose coordinator is in the destructor. -/
def Stopping (mode : CoordinatorMode) (cur : Nat) (v : WorkerView) : Prop :=
  Active mode .exit v ∧ v.workload.epoch < cur

/-- What the coordinator can know of a worker. -/
inductive Place where
  | idle
  /-- Idle again, in this epoch. -/
  | finished
  | moving
  | assigned
  | active (signal : AriaGlobalState)
  | readDone
  | executed
  | stopping
deriving DecidableEq

def Place.Holds (mode : CoordinatorMode) (cur : Nat) : Place → WorkerView → Prop
  | .idle => Idle cur
  | .finished => Idle (cur + 1)
  | .moving => Moving cur
  | .assigned => Assigned cur
  | .active signal => ActiveIn mode cur signal
  | .readDone => ReadDone mode cur
  | .executed => Executed mode cur
  | .stopping => Stopping mode cur

/-- A worker that is not idle, before it is signalled in a phase. -/
def CoordinatorPhase.before : CoordinatorPhase → Place
  | .read => .active .ariaRead
  | .aggregate => .readDone
  | .commit => .executed

/-- A worker that is not idle, when it has been waited for. -/
def CoordinatorPhase.after : CoordinatorPhase → Place
  | .read => .readDone
  | .aggregate => .executed
  | .commit => .finished

/-- Where worker `j` can be while the coordinator is at `pc`. -/
def places (pc : CoordinatorPc) (j : Nat) : List Place :=
  match pc with
  | .loop => [.idle]
  | .assign | .scan _ _ => [.idle, .active .ariaRead]
  | .setAssigned _ i => if j = i then [.idle] else [.idle, .active .ariaRead]
  | .move _ i => if j = i then [.moving] else [.idle, .active .ariaRead]
  | .waitAssigned i => if j = i then [.active .start] else [.idle, .active .ariaRead]
  | .signalRead i => if j = i then [.assigned] else [.idle, .active .ariaRead]
  | .broadcast phase i => [.idle, if j < i then .active phase.signal else phase.before]
  | .signal phase i =>
      if j = i then [phase.before] else [.idle, if j < i then .active phase.signal else phase.before]
  | .sync phase i | .await phase i => [.idle, if j < i then phase.after else .active phase.signal]
  | .finish => [.finished]
  | .broadcastExit i => if j < i then [.stopping] else [.idle]
  | .syncExit _ | .destroyed => [.stopping]

def Slot (mode : CoordinatorMode) (cur : Nat) (pc : CoordinatorPc) (j : Nat) (v : WorkerView) :
    Prop :=
  ∃ p ∈ places pc j, p.Holds mode cur v

section

variable {mode : CoordinatorMode} {cur : Nat} {pc : CoordinatorPc} {phase : CoordinatorPhase}
  {i j : Nat} {v : WorkerView} {w : WorkerInstance} {events : List WorkEvent}
  {signal : AriaGlobalState}

theorem Idle.mono (h : Idle cur v) : Idle (cur + 1) v :=
  ⟨h.signal, h.parked, Nat.lt_succ_of_lt h.epoch⟩

/-- The state of a worker determines its position, where the coordinator relies on it. -/
theorem ReadDone.position (h : ReadDone mode cur v) :
    (mode = .aggregation ∧ v.workload.aggregationWorkload = true ∧
        Parked .waitAggregate .finishRead 0 v) ∨
      Parked .waitCommit mode.finishState 2 v := by
  obtain ⟨⟨⟨hsignal, hat⟩, -⟩, hstate⟩ := h
  obtain ⟨⟨id, state, signal, pc⟩, workload, stage⟩ := v
  dsimp only at hsignal hat hstate ⊢
  subst hsignal
  unfold CoordinatorPhase.states at hstate
  cases hat with
  | finished h => exact Or.inr ⟨rfl, rfl, rfl⟩
  | waiting h hm => exact Or.inl ⟨hm, h, rfl, rfl, rfl⟩
  | _ => cases mode <;> simp at hstate

theorem ReadDone.executed (h : ReadDone .aria cur v) : Executed .aria cur v := by
  rcases h.position with ⟨hm, -⟩ | hp
  · cases hm
  · exact ⟨Or.inl h.1.1.signal, hp, h.1.2⟩

theorem ActiveIn.assigned (h : ActiveIn mode cur .start v) (hstate : v.worker.workerState = .assigned) :
    Assigned cur v := by
  obtain ⟨⟨hsignal, hat⟩, hepoch⟩ := h
  obtain ⟨⟨id, state, signal, pc⟩, workload, stage⟩ := v
  dsimp only at hsignal hat hstate hepoch
  subst hsignal hstate
  cases hat
  exact ⟨Or.inl rfl, ⟨rfl, rfl, rfl⟩, hepoch⟩

theorem ActiveIn.executed (h : ActiveIn mode cur .aggregate v)
    (hstate : v.worker.workerState = .finishAggregate) : Executed mode cur v := by
  obtain ⟨⟨hsignal, hat⟩, hepoch⟩ := h
  obtain ⟨⟨id, state, signal, pc⟩, workload, stage⟩ := v
  dsimp only at hsignal hat hstate hepoch
  subst hsignal
  cases hat with
  | aggregated => exact ⟨Or.inr rfl, ⟨rfl, rfl, rfl⟩, hepoch⟩
  | _ => cases hstate

theorem ActiveIn.idle (h : ActiveIn mode cur .ariaCommit v)
    (hstate : v.worker.workerState = .ready) : Idle (cur + 1) v := by
  obtain ⟨⟨hsignal, hat⟩, hepoch⟩ := h
  obtain ⟨⟨id, state, signal, pc⟩, workload, stage⟩ := v
  dsimp only at hsignal hat hstate hepoch
  subst hsignal
  cases hat with
  | ready => exact ⟨rfl, ⟨rfl, rfl, rfl⟩, Nat.lt_succ_of_le (Nat.le_of_eq hepoch)⟩
  | _ => cases mode <;> cases hstate

/-- Until it is signalled to commit, a worker of the current epoch is not ready. -/
theorem ActiveIn.not_ready (h : ActiveIn mode cur signal v) (hs : signal = .ariaRead ∨ signal = .aggregate) :
    v.worker.workerState ≠ .ready := by
  obtain ⟨⟨hsignal, hat⟩, -⟩ := h
  obtain ⟨⟨id, state, signal, pc⟩, workload, stage⟩ := v
  dsimp only at hsignal hat ⊢
  subst hsignal
  rcases hs with rfl | rfl <;> cases hat <;> cases mode <;> nofun

theorem before_not_ready (h : phase.before.Holds mode cur v) : v.worker.workerState ≠ .ready := by
  cases phase with
  | read => exact ActiveIn.not_ready h (Or.inl rfl)
  | aggregate => exact ActiveIn.not_ready h.1 (Or.inl rfl)
  | commit =>
      rw [Executed.parked h |>.state]
      cases mode <;> nofun

/-- `syncAllWorker` goes on to the next worker. -/
theorem ActiveIn.after (h : ActiveIn mode cur phase.signal v)
    (hstate : v.worker.workerState = .ready ∨ v.worker.workerState ∈ phase.states mode) :
    phase.after.Holds mode cur v := by
  cases phase with
  | read => exact ⟨h, hstate.resolve_left (h.not_ready (Or.inl rfl))⟩
  | aggregate =>
      exact h.executed (List.mem_singleton.mp (hstate.resolve_left (h.not_ready (Or.inr rfl))))
  | commit => exact h.idle (hstate.elim id List.mem_singleton.mp)

/-- The next phase finds the workers as the last one has left them. -/
theorem before_of_after {phase' : CoordinatorPhase} (h : phase.after.Holds mode cur v)
    (hnext : phase.next mode = some phase') : phase'.before.Holds mode cur v := by
  cases phase with
  | read =>
      cases mode with
      | aria => cases hnext; exact ReadDone.executed h
      | aggregation => cases hnext; exact h
  | aggregate => cases hnext; exact h
  | commit => cases hnext

/-! ### The signals -/

/-- The worker with another signal. -/
def WorkerView.signalled (v : WorkerView) (signal : AriaGlobalState) : WorkerView :=
  { v with worker := { v.worker with ariaGlobalState := signal } }

theorem Parked.signalled {pc : RunPc} {state : WorkerState} {stage : Nat}
    (h : Parked pc state stage v) (hat : ∀ agg id, RunAt mode agg id signal pc state stage) :
    Active mode signal (v.signalled signal) := by
  obtain ⟨rfl, rfl, rfl⟩ := h
  exact ⟨rfl, hat _ _⟩

theorem before_signalled (h : phase.before.Holds mode cur v) :
    ActiveIn mode cur phase.signal (v.signalled phase.signal) := by
  cases phase with
  | read =>
      have h : ActiveIn mode cur .ariaRead v := h
      have hv : v.signalled .ariaRead = v := by
        unfold WorkerView.signalled
        rw [← h.1.signal]
      exact hv.symm ▸ h
  | aggregate =>
      have h : ReadDone mode cur v := h
      refine ⟨?_, h.1.2⟩
      rcases h.position with ⟨hm, hagg, hp⟩ | hp
      · obtain ⟨hpc, hstate, hstage⟩ := hp
        refine ⟨rfl, ?_⟩
        show RunAt mode v.workload.aggregationWorkload _ .aggregate v.worker.pc
          v.worker.workerState v.stage
        rw [hpc, hstate, hstage]
        exact .aggregate hagg hm
      · exact hp.signalled fun _ _ => .aggregated
  | commit =>
      have h : Executed mode cur v := h
      exact ⟨h.parked.signalled fun _ _ => .waitCommit, h.epoch⟩

theorem Assigned.signalled (h : Assigned cur v) :
    ActiveIn mode cur .ariaRead (v.signalled .ariaRead) :=
  ⟨h.parked.signalled fun _ _ => .assigned, h.epoch⟩

theorem Idle.signalled (h : Idle cur v) : Stopping mode cur (v.signalled .exit) :=
  ⟨h.parked.signalled fun _ _ => .exit, h.epoch⟩

/-! ### The steps of a worker -/

/-- The view after a step of the worker. -/
def WorkerView.after (v : WorkerView) (w : WorkerInstance) (events : List WorkEvent) : WorkerView :=
  { v with worker := w, stage := v.stage + events.length }

/-- The worker waits for another signal than the one it has. -/
def Blocked (mode : CoordinatorMode) (v : WorkerView) : Prop :=
  ∀ agg, v.worker.run mode agg = none

theorem Parked.blocked_waitRead {state : WorkerState} {stage : Nat}
    (h : Parked .waitRead state stage v) (hread : v.worker.ariaGlobalState ≠ .ariaRead)
    (hexit : v.worker.ariaGlobalState ≠ .exit) : Blocked mode v := by
  intro agg
  unfold WorkerInstance.run WorkerInstance.workerWait
  rw [h.pc]
  dsimp only
  rw [if_neg hread, if_neg hexit]

theorem Idle.blocked (h : Idle cur v) : Blocked mode v :=
  h.parked.blocked_waitRead (by rw [h.signal]; nofun) (by rw [h.signal]; nofun)

theorem Moving.blocked (h : Moving cur v) : Blocked mode v :=
  h.parked.blocked_waitRead (by rw [h.signal]; nofun) (by rw [h.signal]; nofun)

theorem Assigned.blocked (h : Assigned cur v) : Blocked mode v := by
  refine h.parked.blocked_waitRead ?_ ?_
  · rcases h.signal with hs | hs <;> rw [hs] <;> nofun
  · rcases h.signal with hs | hs <;> rw [hs] <;> nofun

theorem Executed.blocked (h : Executed mode cur v) : Blocked mode v := by
  intro agg
  unfold WorkerInstance.run WorkerInstance.workerWait
  rw [h.parked.pc]
  dsimp only
  rcases h.signal with hs | hs <;> rw [hs] <;> rfl

theorem ReadDone.blocked (h : ReadDone mode cur v) : Blocked mode v := by
  intro agg
  have hs : v.worker.ariaGlobalState = .ariaRead := h.1.1.signal
  unfold WorkerInstance.run WorkerInstance.workerWait
  rcases h.position with ⟨-, -, hp⟩ | hp <;> rw [hp.pc] <;> dsimp only <;> rw [hs] <;> rfl

/-- A worker moves only between a signal and the state it sets in answer. -/
theorem Place.Holds.active {p : Place} (h : p.Holds mode cur v) :
    Blocked mode v ∨ (∃ signal, p = .active signal) ∨ p = .stopping := by
  cases p with
  | idle => exact Or.inl (Idle.blocked h)
  | finished => exact Or.inl (Idle.blocked h)
  | moving => exact Or.inl (Moving.blocked h)
  | assigned => exact Or.inl (Assigned.blocked h)
  | active signal => exact Or.inr (Or.inl ⟨signal, rfl⟩)
  | readDone => exact Or.inl (ReadDone.blocked h)
  | executed => exact Or.inl (Executed.blocked h)
  | stopping => exact Or.inr (Or.inr rfl)

theorem Active.work (hagg : mode = .aria → v.workload.aggregationWorkload = false)
    (h : Active mode signal v)
    (hr : v.worker.run mode v.workload.aggregationWorkload = some (w, events)) :
    Active mode signal (v.after w events) := by
  obtain ⟨-, hsignal, hat, -⟩ := h.position.run hagg hr
  exact ⟨hsignal.trans h.signal, hat⟩

/-- A step of a worker changes nothing of what the coordinator knows. -/
theorem Place.Holds.work {p : Place} (hagg : mode = .aria → v.workload.aggregationWorkload = false)
    (h : p.Holds mode cur v)
    (hr : v.worker.run mode v.workload.aggregationWorkload = some (w, events)) :
    p.Holds mode cur (v.after w events) := by
  rcases h.active with hb | ⟨signal, rfl⟩ | rfl
  · rw [hb] at hr
    cases hr
  · exact ⟨Active.work hagg h.1 hr, h.2⟩
  · exact ⟨Active.work hagg h.1 hr, h.2⟩

theorem Slot.work (hagg : mode = .aria → v.workload.aggregationWorkload = false)
    (h : Slot mode cur pc j v)
    (hr : v.worker.run mode v.workload.aggregationWorkload = some (w, events)) :
    Slot mode cur pc j (v.after w events) := by
  obtain ⟨p, hp, hv⟩ := h
  exact ⟨p, hp, hv.work hagg hr⟩

/-! ### The steps of the coordinator -/

theorem slot_one {p : Place} (hp : places pc j = [p]) :
    Slot mode cur pc j v ↔ p.Holds mode cur v := by
  simp [Slot, hp]

theorem slot_two {p q : Place} (hp : places pc j = [p, q]) :
    Slot mode cur pc j v ↔ p.Holds mode cur v ∨ q.Holds mode cur v := by
  simp [Slot, hp]

theorem Slot.mono {pc' : CoordinatorPc} (h : Slot mode cur pc j v)
    (hsub : places pc j ⊆ places pc' j) : Slot mode cur pc' j v := by
  obtain ⟨p, hp, hv⟩ := h
  exact ⟨p, hsub hp, hv⟩

theorem Slot.to_setAssigned {workload : Workload} (h : Slot mode cur (.scan workload i) j v)
    (hstate : j = i → v.worker.workerState = .ready) :
    Slot mode cur (.setAssigned workload i) j v := by
  by_cases hj : j = i
  · have hp : places (.setAssigned workload i) j = [.idle] := if_pos hj
    rw [slot_one hp]
    refine ((slot_two rfl).mp h).resolve_right fun ha => ?_
    exact ActiveIn.not_ready ha (Or.inl rfl) (hstate hj)
  · exact h.mono (by simp [places, hj])

theorem Slot.broadcast_next (h : Slot mode cur (.broadcast phase i) j v)
    (hstate : j = i → v.worker.workerState = .ready) :
    Slot mode cur (.broadcast phase (i + 1)) j v := by
  rw [slot_two rfl] at h ⊢
  refine h.imp_right fun hv => ?_
  by_cases hlt : j < i
  · rw [if_pos hlt] at hv
    rwa [if_pos (Nat.lt_succ_of_lt hlt)]
  · rw [if_neg hlt] at hv
    by_cases hj : j = i
    · exact absurd (hstate hj) (before_not_ready hv)
    · rwa [if_neg (by omega)]

theorem Slot.to_signal (h : Slot mode cur (.broadcast phase i) j v)
    (hstate : j = i → v.worker.workerState ≠ .ready) : Slot mode cur (.signal phase i) j v := by
  by_cases hj : j = i
  · have hp : places (.signal phase i) j = [phase.before] := if_pos hj
    rw [slot_one hp]
    rcases (slot_two rfl).mp h with hv | hv
    · exact absurd (Idle.parked hv).state (hstate hj)
    · rwa [if_neg (by omega)] at hv
  · exact h.mono (by simp [places, hj])

theorem Slot.to_sync {n : Nat} (h : Slot mode cur (.broadcast phase n) j v) (hj : j < n) :
    Slot mode cur (.sync phase 0) j v := by
  rw [slot_two rfl] at h ⊢
  rw [if_pos hj] at h
  rwa [if_neg (Nat.not_lt_zero j)]

theorem Slot.sync_next (h : Slot mode cur (.sync phase i) j v)
    (hstate : j = i → v.worker.workerState = .ready ∨ v.worker.workerState ∈ phase.states mode) :
    Slot mode cur (.sync phase (i + 1)) j v := by
  rw [slot_two rfl] at h ⊢
  refine h.imp_right fun hv => ?_
  by_cases hlt : j < i
  · rw [if_pos hlt] at hv
    rwa [if_pos (Nat.lt_succ_of_lt hlt)]
  · rw [if_neg hlt] at hv
    by_cases hj : j = i
    · rw [if_pos (by omega)]
      exact ActiveIn.after hv (hstate hj)
    · rwa [if_neg (by omega)]

theorem Slot.to_broadcast {phase' : CoordinatorPhase} {n : Nat}
    (h : Slot mode cur (.sync phase n) j v) (hj : j < n) (hnext : phase.next mode = some phase') :
    Slot mode cur (.broadcast phase' 0) j v := by
  rw [slot_two rfl] at h ⊢
  rw [if_pos hj] at h
  rw [if_neg (Nat.not_lt_zero j)]
  exact h.imp_right fun hv => before_of_after hv hnext

theorem Slot.to_finish {n : Nat} (h : Slot mode cur (.sync phase n) j v) (hj : j < n)
    (hnext : phase.next mode = none) : Slot mode cur .finish j v := by
  rw [slot_one rfl]
  rw [slot_two rfl, if_pos hj] at h
  cases phase with
  | read => cases mode <;> cases hnext
  | aggregate => cases hnext
  | commit => exact h.elim Idle.mono id

/-- The epoch ends. -/
theorem Slot.to_loop (h : Slot mode cur .finish j v) : Slot mode (cur + 1) .loop j v := by
  rw [slot_one rfl] at h ⊢
  exact h

theorem Slot.to_signalRead (h : Slot mode cur (.waitAssigned i) j v)
    (hstate : j = i → v.worker.workerState = .assigned) : Slot mode cur (.signalRead i) j v := by
  by_cases hj : j = i
  · have hp : places (.waitAssigned i) j = [.active .start] := if_pos hj
    have hp' : places (.signalRead i) j = [.assigned] := if_pos hj
    rw [slot_one hp] at h
    rw [slot_one hp']
    exact ActiveIn.assigned h (hstate hj)
  · exact h.mono (by simp [places, hj])

/-! Where the coordinator changes a worker, its own view and those of the others apart. -/

theorem Slot.other_of_setAssigned {workload : Workload}
    (h : Slot mode cur (.setAssigned workload i) j v) (hj : j ≠ i) :
    Slot mode cur (.move workload i) j v :=
  h.mono (by simp [places, hj])

theorem Slot.self_of_setAssigned {workload : Workload}
    (h : Slot mode cur (.setAssigned workload i) i v) :
    Slot mode cur (.move workload i) i
      { v with worker := { v.worker with workerState := .assigned } } := by
  have hp : places (.setAssigned workload i) i = [.idle] := if_pos rfl
  have hp' : places (.move workload i) i = [.moving] := if_pos rfl
  rw [slot_one hp] at h
  rw [slot_one hp']
  have h : Idle cur v := h
  exact ⟨h.signal, ⟨h.parked.pc, rfl, h.parked.stage⟩, h.epoch⟩

theorem Slot.other_of_move {workload : Workload} (h : Slot mode cur (.move workload i) j v)
    (hj : j ≠ i) : Slot mode cur (.signalRead i) j v :=
  h.mono (by simp [places, hj])

theorem Slot.moving {workload : Workload} (h : Slot mode cur (.move workload i) i v) :
    Moving cur v := by
  have hp : places (.move workload i) i = [.moving] := if_pos rfl
  rw [slot_one hp] at h
  exact h

theorem Slot.self_of_move {workload : Workload} {id : Nat}
    (h : Slot mode cur (.move workload i) i v) (hepoch : workload.epoch = cur) :
    Slot mode cur (.signalRead i) i ⟨{ v.worker with workload := id }, workload, 0⟩ := by
  have hp : places (.signalRead i) i = [.assigned] := if_pos rfl
  rw [slot_one hp]
  exact ⟨Or.inr h.moving.signal, ⟨h.moving.parked.pc, h.moving.parked.state, rfl⟩, hepoch⟩

theorem Slot.other_of_scan {workload : Workload} (h : Slot mode cur (.scan workload i) j v)
    {n : Nat} (hj : j ≠ n) : Slot mode cur (.waitAssigned n) j v :=
  h.mono (by simp [places, hj])

theorem slot_newWorker {workload : Workload} {id n : Nat} (hepoch : workload.epoch = cur) :
    Slot mode cur (.waitAssigned n) n ⟨{ workload := id }, workload, 0⟩ := by
  have hp : places (.waitAssigned n) n = [.active .start] := if_pos rfl
  rw [slot_one hp]
  exact ⟨⟨rfl, .created⟩, hepoch⟩

theorem Slot.other_of_signalRead (h : Slot mode cur (.signalRead i) j v) (hj : j ≠ i) :
    Slot mode cur .assign j v :=
  h.mono (by simp [places, hj])

theorem Slot.self_of_signalRead (h : Slot mode cur (.signalRead i) i v) :
    Slot mode cur .assign i (v.signalled .ariaRead) := by
  have hp : places (.signalRead i) i = [.assigned] := if_pos rfl
  rw [slot_one hp] at h
  rw [slot_two rfl]
  exact Or.inr (Assigned.signalled h)

theorem Slot.other_of_signal (h : Slot mode cur (.signal phase i) j v) (hj : j ≠ i) :
    Slot mode cur (.broadcast phase (i + 1)) j v := by
  have hlt : j < i ↔ j < i + 1 := by omega
  exact h.mono (by simp [places, hj, hlt])

theorem Slot.self_of_signal (h : Slot mode cur (.signal phase i) i v) :
    Slot mode cur (.broadcast phase (i + 1)) i (v.signalled phase.signal) := by
  have hp : places (.signal phase i) i = [phase.before] := if_pos rfl
  rw [slot_one hp] at h
  rw [slot_two rfl, if_pos (Nat.lt_succ_self i)]
  exact Or.inr (before_signalled h)

theorem Slot.other_of_broadcastExit (h : Slot mode cur (.broadcastExit i) j v) (hj : j ≠ i) :
    Slot mode cur (.broadcastExit (i + 1)) j v := by
  have hlt : j < i ↔ j < i + 1 := by omega
  exact h.mono (by simp [places, hlt])

theorem Slot.self_of_broadcastExit (h : Slot mode cur (.broadcastExit i) i v) :
    Slot mode cur (.broadcastExit (i + 1)) i (v.signalled .exit) := by
  have hp : places (.broadcastExit i) i = [.idle] := if_neg (Nat.lt_irrefl i)
  have hp' : places (.broadcastExit (i + 1)) i = [.stopping] := if_pos (Nat.lt_succ_self i)
  rw [slot_one hp] at h
  rw [slot_one hp']
  exact Idle.signalled h

theorem Slot.to_syncExit {n : Nat} (h : Slot mode cur (.broadcastExit n) j v) (hj : j < n) :
    Slot mode cur (.syncExit 0) j v :=
  h.mono (by simp [places, hj])

/-! ### What follows about the workloads -/

theorem Active.stage_exit (h : Active mode .exit v) : v.stage = 4 := by
  obtain ⟨hsignal, hat⟩ := h
  obtain ⟨⟨id, state, signal, pc⟩, workload, stage⟩ := v
  dsimp only at hsignal hat ⊢
  subst hsignal
  cases hat <;> rfl

theorem Active.stage_ariaRead (h : Active mode .ariaRead v) : v.stage ≤ 2 := by
  obtain ⟨hsignal, hat⟩ := h
  obtain ⟨⟨id, state, signal, pc⟩, workload, stage⟩ := v
  dsimp only at hsignal hat ⊢
  subst hsignal
  cases hat <;> simp

theorem Active.stage_ariaCommit (h : Active mode .ariaCommit v) : 2 ≤ v.stage := by
  obtain ⟨hsignal, hat⟩ := h
  obtain ⟨⟨id, state, signal, pc⟩, workload, stage⟩ := v
  dsimp only at hsignal hat ⊢
  subst hsignal
  cases hat <;> simp

/-- No workload is of a later epoch, and those of earlier epochs are committed. -/
theorem Slot.epoch_le (h : Slot mode cur pc j v) :
    v.workload.epoch ≤ cur ∧ (v.workload.epoch < cur → v.stage = 4) := by
  obtain ⟨p, -, hv⟩ := h
  have hcur : v.workload.epoch = cur →
      v.workload.epoch ≤ cur ∧ (v.workload.epoch < cur → v.stage = 4) :=
    fun he => ⟨Nat.le_of_eq he, fun hlt => absurd he (Nat.ne_of_lt hlt)⟩
  cases p with
  | idle => exact ⟨Nat.le_of_lt (Idle.epoch hv), fun _ => (Idle.parked hv).stage⟩
  | finished => exact ⟨Nat.le_of_lt_succ (Idle.epoch hv), fun _ => (Idle.parked hv).stage⟩
  | moving => exact ⟨Nat.le_of_lt (Moving.epoch hv), fun _ => (Moving.parked hv).stage⟩
  | assigned => exact hcur (Assigned.epoch hv)
  | active => exact hcur hv.2
  | readDone => exact hcur hv.1.2
  | executed => exact hcur (Executed.epoch hv)
  | stopping =>
      exact ⟨Nat.le_of_lt hv.2, fun _ => hv.1.stage_exit⟩

/-! While workloads are deployed none of this epoch is committed. -/

theorem Slot.stage_deploying_scan {workload : Workload} (h : Slot mode cur (.scan workload i) j v)
    (hepoch : v.workload.epoch = cur) : v.stage ≤ 2 := by
  rcases (slot_two rfl).mp h with hv | hv
  · exact absurd hepoch (Nat.ne_of_lt (Idle.epoch hv))
  · exact hv.1.stage_ariaRead

theorem Slot.stage_deploying_move {workload : Workload} (h : Slot mode cur (.move workload i) j v)
    (hepoch : v.workload.epoch = cur) : v.stage ≤ 2 := by
  by_cases hj : j = i
  · subst hj
    exact absurd hepoch (Nat.ne_of_lt h.moving.epoch)
  · have hscan : Slot mode cur (.scan workload i) j v := h.mono (by simp [places, hj])
    exact hscan.stage_deploying_scan hepoch

/-- When a worker can commit, all have executed their workloads of this epoch. -/
theorem places_of_commit {p : Place} (h : .active .ariaCommit ∈ places pc i) (hp : p ∈ places pc j) :
    p = .idle ∨ p = .executed ∨ p = .active .ariaCommit ∨ p = .finished := by
  cases pc with
  | loop => simp [places] at h
  | assign => simp [places] at h
  | scan => simp [places] at h
  | setAssigned => grind [places]
  | move => grind [places]
  | waitAssigned => grind [places]
  | signalRead => grind [places]
  | broadcast phase =>
      cases phase <;> grind [places, CoordinatorPhase.signal, CoordinatorPhase.before]
  | signal phase =>
      cases phase <;> grind [places, CoordinatorPhase.signal, CoordinatorPhase.before]
  | sync phase =>
      cases phase <;> grind [places, CoordinatorPhase.signal, CoordinatorPhase.after]
  | await phase =>
      cases phase <;> grind [places, CoordinatorPhase.signal, CoordinatorPhase.after]
  | finish => simp [places] at h
  | broadcastExit => grind [places]
  | syncExit => simp [places] at h
  | destroyed => simp [places] at h

theorem Slot.stage_of_commit (h : Slot mode cur pc j v) (hc : .active .ariaCommit ∈ places pc i)
    (hepoch : v.workload.epoch = cur) : 2 ≤ v.stage := by
  obtain ⟨p, hp, hv⟩ := h
  rcases places_of_commit hc hp with rfl | rfl | rfl | rfl
  · exact absurd hepoch (Nat.ne_of_lt (Idle.epoch hv))
  · exact Nat.le_of_eq (Executed.parked hv).stage.symm
  · exact Active.stage_ariaCommit hv.1
  · rw [(Idle.parked hv).stage]
    decide

/-- A worker that moves after the signal to commit is one of the current epoch. -/
theorem Slot.commit_of_run (h : Slot mode cur pc j v)
    (hr : v.worker.run mode v.workload.aggregationWorkload = some (w, events))
    (hsignal : v.worker.ariaGlobalState = .ariaCommit) :
    .active .ariaCommit ∈ places pc j ∧ v.workload.epoch = cur := by
  obtain ⟨p, hp, hv⟩ := h
  rcases hv.active with hb | ⟨signal, rfl⟩ | rfl
  · rw [hb] at hr
    cases hr
  · have hs : signal = .ariaCommit := hv.1.signal.symm.trans hsignal
    exact ⟨hs ▸ hp, hv.2⟩
  · have hs : AriaGlobalState.exit = .ariaCommit := hv.1.signal.symm.trans hsignal
    cases hs

/-- A worker that moves emits the next events of its workload. -/
theorem Slot.emits (hagg : mode = .aria → v.workload.aggregationWorkload = false)
    (h : Slot mode cur pc j v)
    (hr : v.worker.run mode v.workload.aggregationWorkload = some (w, events)) :
    w.workload = v.worker.workload ∧ Emits v.worker.workload v.stage events ∧
      (⟨.commitStart, v.worker.workload⟩ ∈ events → v.worker.ariaGlobalState = .ariaCommit) := by
  obtain ⟨p, -, hv⟩ := h
  have hat : RunAt mode v.workload.aggregationWorkload v.worker.workload v.worker.ariaGlobalState
      v.worker.pc v.worker.workerState v.stage := by
    rcases hv.active with hb | ⟨signal, rfl⟩ | rfl
    · rw [hb] at hr
      cases hr
    · exact hv.1.position
    · exact hv.1.position
  obtain ⟨hw, -, -, hemits, hcommit⟩ := hat.run hagg hr
  exact ⟨hw, hemits, hcommit⟩

/-- A worker executes and commits the workload it has. -/
theorem Slot.own (h : Slot mode cur pc j v) {id : Nat}
    (hpc : v.worker.pc = .executing id ∨ v.worker.pc = .committing id) :
    v.worker.workload = id := by
  obtain ⟨p, -, hv⟩ := h
  have hparked : ∀ {pc state stage}, Parked pc state stage v → pc = .waitRead ∨ pc = .waitCommit →
      v.worker.workload = id := by
    intro pc state stage hp hw
    rw [hp.pc] at hpc
    rcases hw with rfl | rfl <;> simp at hpc
  have hactive : ∀ {signal}, Active mode signal v → v.worker.workload = id := by
    intro signal ha
    obtain ⟨-, hat⟩ := ha
    obtain ⟨⟨_, _, _, _⟩, _, _⟩ := v
    dsimp only at hat hpc ⊢
    cases hat <;> simp_all
  cases p with
  | idle => exact hparked (Idle.parked hv) (Or.inl rfl)
  | finished => exact hparked (Idle.parked hv) (Or.inl rfl)
  | moving => exact hparked (Moving.parked hv) (Or.inl rfl)
  | assigned => exact hparked (Assigned.parked hv) (Or.inl rfl)
  | active => exact hactive hv.1
  | readDone => exact hactive hv.1.1
  | executed => exact hparked (Executed.parked hv) (Or.inr rfl)
  | stopping => exact hactive hv.1

end

end NeuChain.Server
