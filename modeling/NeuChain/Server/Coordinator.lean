/-
  The coordinator thread and its workers: `AriaCoordinator` with `AriaWorker`, and
  `AggregationCoordinator` with `AggregationWorker`.

  They share a `WorkerInstance` per worker. The coordinator gives it a workload and sets
  `ariaGlobalState`, for which the worker waits; the worker sets `workerState`, for which the coordinator
  waits, and the coordinator sets that too when it assigns a workload. A wait is a step that is
  possible when its condition holds; both sides set their values under the lock of the wait. The
  coordinator reads `workerState` without the lock, one worker after the other, and each read
  is a step of its own.

  Workloads are numbered in the order of their deployment. What they hold and how they are cut is in
  `WorkloadPhase`. The log of calls is not in the source.

  `stop` is called before the coordinator thread is joined and the coordinator destroyed, so its
  destructor runs after `run`.
-/
import NeuChain.Lib.Run
import NeuChain.Server.WorkloadPhase
import Mathlib.Logic.Function.Basic

namespace NeuChain.Server

open NeuChain Lib

inductive AriaGlobalState where
  | start
  | ariaRead
  | ariaCommit
  | exit
  | aggregate
deriving DecidableEq, Repr

inductive WorkerState where
  | ready
  | assigned
  | finishRead
  | finishAggregate
  | exited
deriving DecidableEq, Repr

inductive CoordinatorMode where
  | aria
  | aggregation
deriving DecidableEq, Repr

/-! ## Workers -/

/-- Where a worker thread is in `run`. -/
inductive RunPc where
  /-- Before `setWorkerState(ASSIGNED)`. -/
  | created
  | waitRead
  /-- `AggregationWorker` looks at `aggregationWorkload`. -/
  | branch
  | finishRead
  | waitAggregate
  | execute
  | executing (workload : Nat)
  /-- `executeList` has returned. -/
  | executed
  | waitCommit
  | commit
  | committing (workload : Nat)
  /-- `commitList` has returned. -/
  | committed
  | exiting
  | exited
deriving DecidableEq, Repr

structure WorkerInstance where
  workload : Nat
  workerState : WorkerState := .ready
  ariaGlobalState : AriaGlobalState := .start
  pc : RunPc := .created
deriving DecidableEq, Repr

/-- The calls of `executeList` and `commitList`, and their returns. -/
inductive WorkEventKind where
  | executeStart
  | executeEnd
  | commitStart
  | commitEnd
deriving DecidableEq, Repr

structure WorkEvent where
  kind : WorkEventKind
  workload : Nat
deriving DecidableEq, Repr

/-- What a worker sets after `executeList`. -/
def CoordinatorMode.finishState : CoordinatorMode → WorkerState
  | .aria => .finishRead
  | .aggregation => .finishAggregate

/-- `workerWait(state)`, with `next` if it returns true. -/
def WorkerInstance.workerWait (w : WorkerInstance) (state : AriaGlobalState) (next : RunPc) :
    Option (WorkerInstance × List WorkEvent) :=
  if w.ariaGlobalState = state then some ({ w with pc := next }, [])
  else if w.ariaGlobalState = .exit then some ({ w with pc := .exiting }, [])
  else none

/-- The next step of a worker thread; `aggregationWorkload` is that of its workload. -/
def WorkerInstance.run (mode : CoordinatorMode) (aggregationWorkload : Bool) (w : WorkerInstance) :
    Option (WorkerInstance × List WorkEvent) :=
  match w.pc with
  | .created => some ({ w with workerState := .assigned, pc := .waitRead }, [])
  | .waitRead => w.workerWait .ariaRead (if mode = .aria then .execute else .branch)
  | .branch => some ({ w with pc := if aggregationWorkload then .finishRead else .execute }, [])
  | .finishRead => some ({ w with workerState := .finishRead, pc := .waitAggregate }, [])
  | .waitAggregate => w.workerWait .aggregate .execute
  | .execute =>
      some ({ w with pc := .executing w.workload }, [⟨.executeStart, w.workload⟩])
  | .executing workload => some ({ w with pc := .executed }, [⟨.executeEnd, workload⟩])
  | .executed => some ({ w with workerState := mode.finishState, pc := .waitCommit }, [])
  | .waitCommit => w.workerWait .ariaCommit .commit
  | .commit => some ({ w with pc := .committing w.workload }, [⟨.commitStart, w.workload⟩])
  | .committing workload => some ({ w with pc := .committed }, [⟨.commitEnd, workload⟩])
  | .committed => some ({ w with workerState := .ready, pc := .waitRead }, [])
  | .exiting => some ({ w with workerState := .exited, pc := .exited }, [])
  | .exited => none

/-! ## The coordinator -/

inductive CoordinatorPhase where
  | read
  | aggregate
  | commit
deriving DecidableEq, Repr

/-- What is broadcast in a phase. -/
def CoordinatorPhase.signal : CoordinatorPhase → AriaGlobalState
  | .read => .ariaRead
  | .aggregate => .aggregate
  | .commit => .ariaCommit

/-- What `syncAllWorker` waits for in a phase. -/
def CoordinatorPhase.states (mode : CoordinatorMode) : CoordinatorPhase → List WorkerState
  | .read => if mode = .aria then [.finishRead] else [.finishRead, .finishAggregate]
  | .aggregate => [.finishAggregate]
  | .commit => [.ready]

def CoordinatorPhase.next (mode : CoordinatorMode) : CoordinatorPhase → Option CoordinatorPhase
  | .read => if mode = .aria then some .commit else some .aggregate
  | .aggregate => some .commit
  | .commit => none

/-- Where the coordinator thread is. An index is that of the worker it turns to next. -/
inductive CoordinatorPc where
  /-- At the head of the loop of `run`. -/
  | loop
  | assign
  /-- In `deployWorkload`, which looks for a ready worker. -/
  | scan (workload : Workload) (i : Nat)
  | setAssigned (workload : Workload) (i : Nat)
  | move (workload : Workload) (i : Nat)
  /-- In `deployWorkloadWithNewWorker`, after the thread has been started. -/
  | waitAssigned (i : Nat)
  | signalRead (i : Nat)
  /-- In `broadcastToAllWorkers`, which reads the state and then sets the signal. -/
  | broadcast (phase : CoordinatorPhase) (i : Nat)
  | signal (phase : CoordinatorPhase) (i : Nat)
  /-- In `syncAllWorker`, which reads the state and then waits. -/
  | sync (phase : CoordinatorPhase) (i : Nat)
  | await (phase : CoordinatorPhase) (i : Nat)
  | finish
  /-- In the destructor. -/
  | broadcastExit (i : Nat)
  | syncExit (i : Nat)
  | destroyed
deriving DecidableEq, Repr

structure CoordinatorState where
  pc : CoordinatorPc := .loop
  currentEpoch : Nat
  workers : Nat → WorkerInstance
  workerCount : Nat := 0
  workloads : Nat → Workload
  workloadCount : Nat := 0
  log : List WorkEvent := []

inductive CoordinatorAction where
  /-- The test of `finishSignal`. -/
  | test (finishSignal : Bool)
  /-- `createWorkload` returns. -/
  | createWorkload (workload : Option Workload)
  /-- The coordinator thread goes on. -/
  | coordinate
  /-- A worker thread goes on. -/
  | work (i : Nat)

namespace CoordinatorState

def initial (startupEpoch : Nat) : CoordinatorState where
  currentEpoch := startupEpoch
  workers _ := { workload := 0 }
  workloads _ := { epoch := startupEpoch, transactionList := [] }

def setWorker (s : CoordinatorState) (i : Nat) (w : WorkerInstance) : CoordinatorState :=
  { s with workers := Function.update s.workers i w }

def setWorkerState (s : CoordinatorState) (i : Nat) (state : WorkerState) : CoordinatorState :=
  s.setWorker i { s.workers i with workerState := state }

def setCoordinatorState (s : CoordinatorState) (i : Nat) (state : AriaGlobalState) :
    CoordinatorState :=
  s.setWorker i { s.workers i with ariaGlobalState := state }

def goto (s : CoordinatorState) (pc : CoordinatorPc) : CoordinatorState := { s with pc := pc }

/-- The workload gets the next number. -/
def number (s : CoordinatorState) (workload : Workload) : CoordinatorState :=
  { s with
    workloads := Function.update s.workloads s.workloadCount workload
    workloadCount := s.workloadCount + 1 }

/-- `worker.workload = std::move(workload)`. -/
def moveWorkload (s : CoordinatorState) (workload : Workload) (i : Nat) : CoordinatorState :=
  (s.number workload).setWorker i { s.workers i with workload := s.workloadCount }

/-- A new worker with its workload. -/
def newWorker (s : CoordinatorState) (workload : Workload) : CoordinatorState :=
  { (s.number workload).setWorker s.workerCount { workload := s.workloadCount } with
    workerCount := s.workerCount + 1 }

def coordinate (mode : CoordinatorMode) (s : CoordinatorState) : Option CoordinatorState :=
  match s.pc with
  | .loop | .assign | .destroyed => none
  | .scan workload i =>
      if i < s.workerCount then
        if (s.workers i).workerState = .ready then some (s.goto (.setAssigned workload i))
        else some (s.goto (.scan workload (i + 1)))
      else some ((s.newWorker workload).goto (.waitAssigned s.workerCount))
  | .setAssigned workload i => some ((s.setWorkerState i .assigned).goto (.move workload i))
  | .move workload i => some ((s.moveWorkload workload i).goto (.signalRead i))
  | .waitAssigned i =>
      if (s.workers i).workerState = .assigned then some (s.goto (.signalRead i)) else none
  | .signalRead i => some ((s.setCoordinatorState i .ariaRead).goto .assign)
  | .broadcast phase i =>
      if i < s.workerCount then
        if (s.workers i).workerState = .ready then some (s.goto (.broadcast phase (i + 1)))
        else some (s.goto (.signal phase i))
      else some (s.goto (.sync phase 0))
  | .signal phase i =>
      some ((s.setCoordinatorState i phase.signal).goto (.broadcast phase (i + 1)))
  | .sync phase i =>
      if i < s.workerCount then
        if (s.workers i).workerState = .ready then some (s.goto (.sync phase (i + 1)))
        else some (s.goto (.await phase i))
      else
        match phase.next mode with
        | some phase' => some (s.goto (.broadcast phase' 0))
        | none => some (s.goto .finish)
  | .await phase i =>
      if (s.workers i).workerState ∈ phase.states mode then some (s.goto (.sync phase (i + 1)))
      else none
  | .finish => some { s.goto .loop with currentEpoch := s.currentEpoch + 1 }
  | .broadcastExit i =>
      if i < s.workerCount then
        some ((s.setCoordinatorState i .exit).goto (.broadcastExit (i + 1)))
      else some (s.goto (.syncExit 0))
  | .syncExit i =>
      if i < s.workerCount then
        if (s.workers i).workerState = .exited then some (s.goto (.syncExit (i + 1))) else none
      else some (s.goto .destroyed)

/-- A step of worker `i`. -/
def work (mode : CoordinatorMode) (s : CoordinatorState) (i : Nat) : Option CoordinatorState :=
  ((s.workers i).run mode (s.workloads (s.workers i).workload).aggregationWorkload).map
    fun (w, events) => { s.setWorker i w with log := s.log ++ events }

/-- One step. Workloads are those of `createWorkload`: of the current epoch, and aggregation
    workloads in aggregation mode only. -/
def step (mode : CoordinatorMode) (s : CoordinatorState) :
    CoordinatorAction → Option CoordinatorState
  | .test finishSignal =>
      if s.pc = .loop then some (s.goto (if finishSignal then .broadcastExit 0 else .assign)) else none
  | .createWorkload none => if s.pc = .assign then some (s.goto (.broadcast .read 0)) else none
  | .createWorkload (some workload) =>
      if s.pc = .assign ∧ workload.epoch = s.currentEpoch ∧
          (mode = .aria → workload.aggregationWorkload = false) then
        some (s.goto (.scan workload 0))
      else none
  | .coordinate => s.coordinate mode
  | .work i => if i < s.workerCount then s.work mode i else none

end CoordinatorState

end NeuChain.Server
