/-
  The commit phase, with the workers' writes interleaved one by one.

  Nothing the phase decides on can change while it runs: no instruction writes a register or the
  buffer, and a transaction's own object is touched by its worker alone. What does interleave
  are the writes to storage. The invariant `CommitInv` says that performing what is still
  pending, thread after thread, would end in the storage `F` that was predicted at the start;
  writes of different threads go to different cells, so the next write of any thread can be
  moved to the front.

  * `commitPhase_state`: every schedule ends in the same storage and gives each transaction the
    result `decision` names.
  * `commitPhase_completes`: no schedule gets stuck.
-/
import NeuChain.Server.EpochRun

namespace NeuChain.Server

open NeuChain.Lib

section CommitPhase

variable (rt : MockReserveTable) (o : Tid → Transaction)

/-- The transaction an instruction of the commit phase will give its result to. -/
def Instr.owner : Instr → Option Tid
  | .commitTransaction tid => some tid
  | .commitUpdate tid => some tid
  | .setResult tid _ => some tid
  | _ => none

/-- The writes it will make; `o` are the transactions before the phase. -/
def Instr.effects : Instr → List (Cell × Option Bytes)
  | .commitTransaction tid =>
      if decision rt (o tid) = .commit then (o tid).kvRWSet.writes.map writeEffect else []
  | .commitUpdate tid => (o tid).kvRWSet.writes.map writeEffect
  | .write w => [writeEffect w]
  | _ => []

/-- A bound on the steps it takes. -/
def Instr.commitWork : Instr → Nat
  | .commitTransaction tid => (o tid).kvRWSet.writes.length + 3
  | .commitUpdate tid => (o tid).kvRWSet.writes.length + 2
  | _ => 1

/-- Instructions of the commit phase; the expansions occur only where the decision is to commit. -/
def Instr.OfCommit : Instr → Prop
  | .commitTransaction _ => True
  | .commitUpdate tid => decision rt (o tid) = .commit
  | .write _ => True
  | .setResult tid result => decision rt (o tid) = .commit ∧ result = .commit
  | _ => False

/-- A transaction after the phase. -/
def committed (t : Transaction) : Transaction := t.setTransactionResult (decision rt t)

variable {rt o} {cc : Chaincode} {s s' : EpochState} {i : Instr} {next : List Instr}
  {spurious : Bool} {F : Storage}

theorem decision_eq_abortNoRetry {t : Transaction} (h : t.transactionResult = .abortNoRetry) :
    decision rt t = .abortNoRetry := by
  unfold decision
  rw [if_pos h]

theorem effects_map_write (ws : List KVWrite) :
    (ws.map Instr.write).flatMap (Instr.effects rt o) = ws.map writeEffect := by
  induction ws with
  | nil => rfl
  | cons w ws ih =>
      rw [List.map_cons, List.flatMap_cons, ih]
      rfl

theorem commitWork_map_write (ws : List KVWrite) :
    ((ws.map Instr.write).map (Instr.commitWork o)).sum = ws.length := by
  induction ws with
  | nil => rfl
  | cons w ws ih =>
      simp only [List.map_cons, List.sum_cons, ih, Instr.commitWork, List.length_cons]
      omega

theorem owner_map_write (ws : List KVWrite) :
    (ws.map Instr.write).filterMap Instr.owner = [] := by
  simp [List.filterMap_eq_nil_iff, Instr.owner]

/-- What an instruction of the commit phase does: it keeps the table and the buffer; it
    performs its write, or passes its writes on; it settles its transaction, or passes it
    on. -/
structure CommitStep (rt : MockReserveTable) (o : Tid → Transaction) (s : EpochState) (i : Instr)
    (s' : EpochState) (next : List Instr) : Prop where
  table : s'.reserveTable = s.reserveTable
  buffers : s'.db.rwSetBuffer = s.db.rwSetBuffer ∧ s'.db.tableListBuffer = s.db.tableListBuffer
  kind : ∀ j ∈ next, j.OfCommit rt o
  storage : (s'.db.storage = s.db.storage ∧ next.flatMap (Instr.effects rt o) = i.effects rt o) ∨
    ∃ w, s'.db.storage = put s.db.storage w ∧ i.effects rt o = [w] ∧ next = []
  txns : (s'.txns = s.txns ∧ next.filterMap Instr.owner = i.owner.toList) ∨
    ∃ tid, s'.txns = Function.update s.txns tid (committed rt (o tid)) ∧ i.owner = some tid ∧
      next = []
  work : (next.map (Instr.commitWork o)).sum < i.commitWork o

/-- What `commitList` relies on for the transaction of an instruction. -/
structure Settled (rt : MockReserveTable) (o : Tid → Transaction) (s : EpochState) (tid : Tid) :
    Prop where
  table : s.reserveTable = some rt
  txn : s.txns tid = o tid
  tid_eq : (o tid).tid = tid
  ready : Ready s.db (o tid)

/-- A transaction that is not committed gets its result, and nothing is written. -/
theorem CommitStep.of_not_commit {tid : Tid} (hdec : decision rt (o tid) ≠ .commit)
    (htable : s'.reserveTable = s.reserveTable)
    (hbuffers : s'.db.rwSetBuffer = s.db.rwSetBuffer ∧
      s'.db.tableListBuffer = s.db.tableListBuffer)
    (hstorage : s'.db.storage = s.db.storage)
    (htxns : s'.txns = Function.update s.txns tid (committed rt (o tid))) :
    CommitStep rt o s (.commitTransaction tid) s' [] where
  table := htable
  buffers := hbuffers
  kind := by simp
  storage := Or.inl ⟨hstorage, by simp [Instr.effects, hdec]⟩
  txns := Or.inr ⟨tid, htxns, rfl, rfl⟩
  work := by simp [Instr.commitWork]

theorem exec_commitTransaction {tid : Tid} (hw : Settled rt o s tid) :
    ∃ s' next, exec cc s (.commitTransaction tid) spurious = some (s', next) ∧
      CommitStep rt o s (.commitTransaction tid) s' next := by
  by_cases hres : (o tid).transactionResult = .abortNoRetry
  · have hdec : decision rt (o tid) = .abortNoRetry := decision_eq_abortNoRetry hres
    refine ⟨{ s with db := s.db.abortUpdate }, [], ?_,
      .of_not_commit (by rw [hdec]; nofun) rfl ⟨rfl, rfl⟩ rfl ?_⟩
    · simp only [exec, hw.txn, if_pos hres]
    · have hself : committed rt (o tid) = s.txns tid := by
        unfold committed
        rw [hdec, hw.txn, ← hres]
        rfl
      rw [hself, Function.update_eq_self]
  · have hdec : decision rt (o tid) =
        if (rt.dependencyAnalysis (o tid).kvRWSet tid).waw then .abort
        else if !(rt.dependencyAnalysis (o tid).kvRWSet tid).war ||
          !(rt.dependencyAnalysis (o tid).kvRWSet tid).raw then .commit else .abort := by
      unfold decision
      simp only [if_neg hres, hw.tid_eq]
    have hcommitted : decision rt (o tid) = .abort →
        committed rt (o tid) = (o tid).setTransactionResult .abort :=
      congrArg (o tid).setTransactionResult
    simp only [exec, hw.txn, hw.table, if_neg hres, Option.map_some]
    generalize rt.dependencyAnalysis (o tid).kvRWSet tid = dep at *
    by_cases hwaw : dep.waw = true
    · rw [if_pos hwaw] at hdec
      rw [if_pos hwaw]
      refine ⟨_, _, rfl, .of_not_commit (by rw [hdec]; nofun) rfl ⟨rfl, rfl⟩ rfl ?_⟩
      rw [hcommitted hdec]
      rfl
    · rw [if_neg hwaw] at hdec
      rw [if_neg hwaw]
      by_cases hok : (!dep.war || !dep.raw) = true
      · rw [if_pos hok] at hdec
        rw [if_pos hok]
        refine ⟨_, _, rfl, rfl, ⟨rfl, rfl⟩, by simpa [Instr.OfCommit] using hdec, Or.inl ⟨rfl, ?_⟩,
          Or.inl ⟨rfl, rfl⟩, by simp [Instr.commitWork]⟩
        simp [Instr.effects, hdec]
      · rw [if_neg hok] at hdec
        rw [if_neg hok]
        refine ⟨_, _, rfl, .of_not_commit (by rw [hdec]; nofun) rfl ⟨rfl, rfl⟩ rfl ?_⟩
        rw [hcommitted hdec]
        rfl

theorem exec_commit (hkind : i.OfCommit rt o) (hw : ∀ tid, i.owner = some tid → Settled rt o s tid) :
    ∃ s' next, exec cc s i spurious = some (s', next) ∧ CommitStep rt o s i s' next := by
  cases i with
  | commitTransaction tid => exact exec_commitTransaction (hw tid rfl)
  | commitUpdate tid =>
      obtain ⟨tableList, hbuf, htables⟩ := (hw tid rfl).ready
      rw [(hw tid rfl).tid_eq] at hbuf
      have hok : s.db.tablesOk tid = true := by
        unfold DatabaseImpl.tablesOk
        rw [hbuf.2, Option.getD_some, List.all_eq_true]
        intro table htable
        simpa using htables table htable
      simp only [exec, if_pos hok, hbuf.1, Option.map_some]
      refine ⟨_, _, rfl, rfl, ⟨rfl, rfl⟩, ?_, Or.inl ⟨rfl, ?_⟩, Or.inl ⟨rfl, ?_⟩, ?_⟩
      · intro j hj
        rcases List.mem_append.mp hj with hj | hj
        · obtain ⟨w, -, rfl⟩ := List.mem_map.mp hj
          trivial
        · rw [List.mem_singleton.mp hj]
          exact ⟨hkind, rfl⟩
      · rw [List.flatMap_append, effects_map_write]
        simp [Instr.effects]
      · rw [List.filterMap_append, owner_map_write]
        rfl
      · rw [List.map_append, List.sum_append, commitWork_map_write]
        simp only [Instr.commitWork, List.map_cons, List.map_nil, List.sum_cons, List.sum_nil]
        omega
  | write w => exact ⟨_, _, rfl, rfl, ⟨rfl, rfl⟩, by simp, Or.inr ⟨_, rfl, rfl, rfl⟩,
      Or.inl ⟨rfl, rfl⟩, by simp [Instr.commitWork]⟩
  | setResult tid result =>
      obtain ⟨hdec, rfl⟩ := hkind
      refine ⟨_, _, rfl, rfl, ⟨rfl, rfl⟩, by simp, Or.inl ⟨rfl, rfl⟩, Or.inr ⟨tid, ?_, rfl, rfl⟩,
        by simp [Instr.commitWork]⟩
      unfold committed
      rw [hdec, ← (hw tid rfl).txn]
      rfl
  | getReserveTable epoch => cases hkind
  | invokeChaincode tid => cases hkind
  | receiveNode tid result rwset => cases hkind
  | aggregate tid => cases hkind
  | load r => cases hkind
  | compareExchange r old => cases hkind
  | bufferUpdates b => cases hkind
  | clearBufferThreadSafe b => cases hkind
  | insertBuffer b => cases hkind

/-! ## The transactions -/

section

variable (rt o)

/-- What is still to be done, in any order, and the transactions it is done to: each is as
    before the phase until it has its result, then as in `fin`. -/
structure Committing (fin : Tid → Transaction) (s : EpochState) (is : List Instr) : Prop where
  kind : ∀ i ∈ is, i.OfCommit rt o
  table : ∀ i ∈ is, s.reserveTable = some rt
  nodup : (is.filterMap Instr.owner).Nodup
  ready : ∀ tid ∈ is.filterMap Instr.owner, (o tid).tid = tid ∧ Ready s.db (o tid)
  txns : ∀ tid, s.txns tid = if tid ∈ is.filterMap Instr.owner then o tid else fin tid
  outcome : ∀ tid ∈ is.filterMap Instr.owner, fin tid = committed rt (o tid)

end

variable {fin : Tid → Transaction} {is is' js : List Instr}

theorem Committing.perm (hp : is.Perm is') (h : Committing rt o fin s is) :
    Committing rt o fin s is' := by
  have hf := hp.filterMap Instr.owner
  refine ⟨fun i hi => h.kind i (hp.mem_iff.mpr hi), fun i hi => h.table i (hp.mem_iff.mpr hi),
    hf.nodup_iff.mp h.nodup, fun tid ht => h.ready tid (hf.mem_iff.mpr ht), fun tid => ?_,
    fun tid ht => h.outcome tid (hf.mem_iff.mpr ht)⟩
  rw [h.txns tid]
  simp only [hf.mem_iff]

theorem Committing.settled {tid : Tid} (h : Committing rt o fin s (i :: js))
    (hi : i.owner = some tid) : Settled rt o s tid := by
  have hown : tid ∈ (i :: js).filterMap Instr.owner :=
    List.mem_filterMap.mpr ⟨i, List.mem_cons_self, hi⟩
  have htxn := h.txns tid
  rw [if_pos hown] at htxn
  exact ⟨h.table i List.mem_cons_self, htxn, (h.ready tid hown).1, (h.ready tid hown).2⟩

theorem Committing.step (h : Committing rt o fin s (i :: js)) (hc : CommitStep rt o s i s' next) :
    Committing rt o fin s' (next ++ js) := by
  have hkind : ∀ j ∈ next ++ js, j.OfCommit rt o := by
    intro j hj
    rcases List.mem_append.mp hj with hj | hj
    · exact hc.kind j hj
    · exact h.kind j (List.mem_cons_of_mem _ hj)
  have htable : ∀ j ∈ next ++ js, s'.reserveTable = some rt :=
    fun _ _ => hc.table.trans (h.table i List.mem_cons_self)
  have hready : ∀ tid ∈ (i :: js).filterMap Instr.owner,
      (o tid).tid = tid ∧ Ready s'.db (o tid) := fun tid ht =>
    ⟨(h.ready tid ht).1, (h.ready tid ht).2.of_buffers hc.buffers.1 hc.buffers.2⟩
  rcases hc.txns with ⟨htx, hown⟩ | ⟨tid, htx, hown, rfl⟩
  · have heq : (next ++ js).filterMap Instr.owner = (i :: js).filterMap Instr.owner := by
      rw [List.filterMap_append, hown]
      cases hi : i.owner with
      | none => rw [List.filterMap_cons_none hi]; rfl
      | some tid => rw [List.filterMap_cons_some hi]; rfl
    exact ⟨hkind, htable, heq ▸ h.nodup, heq ▸ hready, fun tid => by rw [htx, heq, h.txns],
      heq ▸ h.outcome⟩
  · rw [List.nil_append] at *
    have heq : (i :: js).filterMap Instr.owner = tid :: js.filterMap Instr.owner :=
      List.filterMap_cons_some hown
    have hnd := h.nodup
    rw [heq, List.nodup_cons] at hnd
    refine ⟨hkind, htable, hnd.2, fun t ht => hready t (heq ▸ List.mem_cons_of_mem _ ht), ?_,
      fun t ht => h.outcome t (heq ▸ List.mem_cons_of_mem _ ht)⟩
    intro tid'
    rw [htx]
    by_cases ht : tid' = tid
    · subst ht
      rw [Function.update_self, if_neg hnd.1, h.outcome tid' (heq ▸ List.mem_cons_self)]
    · rw [Function.update_of_ne ht, h.txns tid', heq]
      simp [ht]

/-! ## The phase -/

section

variable (rt o F fin)

/-- The writes a thread will still make. -/
def pendingWrites (l : List Instr) : List (Cell × Option Bytes) := l.flatMap (Instr.effects rt o)

structure CommitInv (p : Pool EpochState Instr) : Prop where
  committing : Committing rt o fin p.shared p.threads.flatten
  storage : putAll p.shared.db.storage (p.threads.map (pendingWrites rt o)).flatten = F
  apart : (p.threads.map (pendingWrites rt o)).Pairwise Apart

end

variable {p p' : Pool EpochState Instr} {a : Nat × Bool}

/-- The pending writes before and after one instruction of a thread. -/
theorem CommitStep.pending {before after : List (List Instr)} {rest : List Instr}
    (hc : CommitStep rt o s i s' next)
    (hF : putAll s.db.storage
      ((before ++ (i :: rest) :: after).map (pendingWrites rt o)).flatten = F)
    (ha : ((before ++ (i :: rest) :: after).map (pendingWrites rt o)).Pairwise Apart) :
    putAll s'.db.storage
        ((before ++ (next ++ rest) :: after).map (pendingWrites rt o)).flatten = F ∧
      ((before ++ (next ++ rest) :: after).map (pendingWrites rt o)).Pairwise Apart := by
  rcases hc.storage with ⟨hst, heff⟩ | ⟨w, hst, heff, rfl⟩
  · have hsame : pendingWrites rt o (next ++ rest) = pendingWrites rt o (i :: rest) := by
      unfold pendingWrites
      rw [List.flatMap_append, List.flatMap_cons, heff]
    rw [hst, List.map_append, List.map_cons, hsame, ← List.map_cons, ← List.map_append]
    exact ⟨hF, ha⟩
  · have hcons : pendingWrites rt o (i :: rest) = w :: pendingWrites rt o rest := by
      unfold pendingWrites
      rw [List.flatMap_cons, heff]
      rfl
    rw [List.map_append, List.map_cons, hcons] at hF ha
    rw [List.nil_append, List.map_append, List.map_cons]
    obtain ⟨hbefore, hafter, hcross⟩ := List.pairwise_append.mp ha
    obtain ⟨hthread, hrest⟩ := List.pairwise_cons.mp hafter
    constructor
    · rw [← hF, hst, List.flatten_append, List.flatten_append, List.flatten_cons, List.flatten_cons,
        List.cons_append]
      refine (putAll_append_cons fun w' hw' => ?_).symm
      obtain ⟨ws, hws, hw'⟩ := List.mem_flatten.mp hw'
      exact (hcross ws hws _ List.mem_cons_self w' hw' w List.mem_cons_self).symm
    · refine List.pairwise_append.mpr ⟨hbefore, List.pairwise_cons.mpr ⟨?_, hrest⟩, ?_⟩
      · intro ws hws w' hw'
        exact hthread ws hws w' (List.mem_cons_of_mem _ hw')
      · intro ws hws ws' hws'
        rcases List.mem_cons.mp hws' with rfl | hws'
        · intro u hu u' hu'
          exact hcross ws hws _ List.mem_cons_self u hu u' (List.mem_cons_of_mem _ hu')
        · exact hcross ws hws ws' (List.mem_cons_of_mem _ hws')

/-- Any thread can move, and what it does is a `CommitStep`. -/
theorem CommitInv.moves (cc : Chaincode) (spurious : Bool) {before after : List (List Instr)}
    {rest : List Instr}
    (h : CommitInv rt o F fin { shared := s, threads := before ++ (i :: rest) :: after }) :
    ∃ s' next, exec cc s i spurious = some (s', next) ∧ CommitStep rt o s i s' next := by
  have hcom := h.committing.perm (flatten_thread_perm before after [i] rest)
  exact exec_commit (hcom.kind i List.mem_cons_self) fun tid => hcom.settled

theorem CommitInv.step (h : CommitInv rt o F fin p) (hstep : p.step (exec cc) a = some p') :
    CommitInv rt o F fin p' := by
  obtain ⟨before, i, rest, after, s', next, hth, -, hex, rfl⟩ := step_cases hstep
  obtain ⟨s, threads⟩ := p
  subst hth
  obtain ⟨s'', next', hex', hc⟩ := h.moves cc a.2
  rw [hex] at hex'
  cases hex'
  obtain ⟨hF, hapart⟩ := hc.pending h.storage h.apart
  have hcom := h.committing.perm (flatten_thread_perm before after [i] rest)
  exact ⟨(hcom.step hc).perm (flatten_thread_perm before after next rest).symm, hF, hapart⟩

variable {workloads : List (List Transaction)} {as : List (Nat × Bool)}

theorem owners_commitPrograms (workloads : List (List Transaction)) :
    (workloads.map commitProgram).flatten.filterMap Instr.owner =
      workloads.flatten.map Transaction.tid := by
  unfold commitProgram
  rw [← List.map_flatten, List.filterMap_map, ← List.filterMap_eq_map]
  rfl

/-- What the commit phase relies on, and the read phase provides. -/
structure CommitReady (rt : MockReserveTable) (s : EpochState) (workloads : List (List Transaction)) :
    Prop where
  table : ∀ t ∈ workloads.flatten, s.reserveTable = some rt
  tids : (workloads.flatten.map Transaction.tid).Nodup
  ready : ∀ t ∈ workloads.flatten, (s.txns t.tid).tid = t.tid ∧ Ready s.db (s.txns t.tid)
  apart : (workloads.map fun ts => pendingWrites rt s.txns (commitProgram ts)).Pairwise Apart

theorem CommitInv.start (h : CommitReady rt s workloads) :
    CommitInv rt s.txns
      (putAll s.db.storage (workloads.map fun ts => pendingWrites rt s.txns (commitProgram ts)).flatten)
      (fun tid => if tid ∈ workloads.flatten.map Transaction.tid then committed rt (s.txns tid)
        else s.txns tid)
      { shared := s, threads := workloads.map commitProgram } := by
  have hmem : ∀ i ∈ (workloads.map commitProgram).flatten,
      ∃ t ∈ workloads.flatten, i = .commitTransaction t.tid := by
    intro i hi
    unfold commitProgram at hi
    rw [← List.map_flatten] at hi
    obtain ⟨t, ht, rfl⟩ := List.mem_map.mp hi
    exact ⟨t, ht, rfl⟩
  refine ⟨⟨?_, ?_, ?_, ?_, ?_, ?_⟩, by simp only [List.map_map]; rfl, by
    simp only [List.map_map]; exact h.apart⟩
  · intro i hi
    obtain ⟨t, -, rfl⟩ := hmem i hi
    trivial
  · intro i hi
    obtain ⟨t, ht, -⟩ := hmem i hi
    exact h.table t ht
  · rw [owners_commitPrograms]
    exact h.tids
  · rw [owners_commitPrograms]
    intro tid ht
    obtain ⟨t, hmt, rfl⟩ := List.mem_map.mp ht
    exact h.ready t hmt
  · intro tid
    rw [owners_commitPrograms]
    by_cases ht : tid ∈ workloads.flatten.map Transaction.tid
    · rw [if_pos ht]
    · rw [if_neg ht, if_neg ht]
  · rw [owners_commitPrograms]
    intro tid ht
    rw [if_pos ht]

/-- Every schedule of the commit phase ends in the same storage and gives every
    transaction its result. -/
theorem commitPhase_state (h : CommitReady rt s workloads)
    (hrun : runPhase (exec cc) s (workloads.map commitProgram) as = some s') :
    s'.db.storage = putAll s.db.storage
        (workloads.map fun ts => pendingWrites rt s.txns (commitProgram ts)).flatten ∧
      ∀ tid, s'.txns tid = if tid ∈ workloads.flatten.map Transaction.tid
        then committed rt (s.txns tid) else s.txns tid := by
  obtain ⟨p, hinv, hidle, rfl⟩ := runPhase_invariant _
    (fun _ _ _ h hstep => CommitInv.step h hstep) hrun (CommitInv.start h)
  have hnil : ∀ l ∈ p.threads.map (pendingWrites rt s.txns), l = [] := by
    intro l hl
    obtain ⟨l', hl', rfl⟩ := List.mem_map.mp hl
    rw [hidle l' hl']
    rfl
  constructor
  · have hF := hinv.storage
    rw [List.flatten_eq_nil_iff.mpr hnil] at hF
    exact hF
  · intro tid
    have htx := hinv.committing.txns tid
    rw [hidle.flatten_eq_nil] at htx
    exact htx

/-- From wherever the commit phase has got to, it can be run to its end. -/
theorem commitPhase_completes (cc : Chaincode) (h : CommitReady rt s workloads)
    (hrun : run (Pool.step (exec cc)) { shared := s, threads := workloads.map commitProgram } as =
      some p) :
    ∃ as' s', runPhase (exec cc) s (workloads.map commitProgram) (as ++ as') = some s' := by
  refine runPhase_completes _ (Instr.commitWork s.txns)
    (fun _ _ _ hinv hstep => hinv.step hstep) (fun _ _ _ _ _ hinv => ?_) (CommitInv.start h) hrun
  obtain ⟨s', next, hex, hc⟩ := hinv.moves cc false
  exact .done false hex hc.work

end CommitPhase

end NeuChain.Server
