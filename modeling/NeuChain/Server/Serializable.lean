/-
  Serializability of one epoch.

  `runEpoch` gives every workload of the epoch to `executeList` and then to `commitList`. All
  reads are taken from the database the epoch starts with; the commit rule (abort on `waw`,
  or on `war` and `raw` together, otherwise commit) looks only at the reservations.

  `epoch_serializable`: the committed transactions have a serial order that starts from the
  same database, repeats every recorded read and write set and ends in the database the
  `commitUpdate` calls produced. The order is `Lib.Conflict.order` on the flags that
  `dependencyAnalysis` computes. Reservations of transactions that abort later only set more
  flags; the proof uses of a register no more than that it is non-zero and at most every id that
  reserved it (`HeldBy`), so it does not matter what the table held before the epoch.
-/
import NeuChain.Server.Executor
import NeuChain.Lib.Serial

namespace NeuChain.Server

open NeuChain.Lib

/-- `TransactionExecutorImpl::executeList` on one workload. -/
def executeList (cc : Chaincode) (s : ServerState) (ts : List Transaction) :
    ServerState × List Transaction :=
  match ts with
  | [] => (s, [])
  | t :: _ =>
      let r := executeLoop cc { db := s.db, rt := getReserveTable s.reserveTable t.epoch } ts
      ({ db := r.1.db, reserveTable := some r.1.rt }, r.2)

/-- `TransactionExecutor::commitList`. The executor's pointer to the reserve table is the one
    `executeList` fetched; without one there is nothing to dereference. -/
def commitList (s : ServerState) (ts : List Transaction) : Option (ServerState × List Transaction) :=
  match ts, s.reserveTable with
  | [], _ => some (s, [])
  | _ :: _, none => none
  | _ :: _, some rt =>
      (commitLoop { db := s.db, rt := rt } ts).map fun r =>
        ({ db := r.1.db, reserveTable := some r.1.rt }, r.2)

def executeLists (cc : Chaincode) : ServerState → List (List Transaction) →
    ServerState × List (List Transaction)
  | s, [] => (s, [])
  | s, ts :: rest =>
      let r := executeList cc s ts
      let r' := executeLists cc r.1 rest
      (r'.1, r.2 :: r'.2)

def commitLists : ServerState → List (List Transaction) →
    Option (ServerState × List (List Transaction))
  | s, [] => some (s, [])
  | s, ts :: rest =>
      (commitList s ts).bind fun r => (commitLists r.1 rest).map fun r' => (r'.1, r.2 :: r'.2)

/-- One epoch: the read phase on every workload, then the commit phase on every workload. -/
def runEpoch (cc : Chaincode) (s : ServerState) (workloads : List (List Transaction)) :
    Option (ServerState × List (List Transaction)) :=
  let r := executeLists cc s workloads
  commitLists r.1 r.2

/-! ## Workloads are only a grouping -/

section Grouping

variable {cc : Chaincode} {s : ServerState} {e : Epoch} {workloads : List (List Transaction)}

/-- Empty workloads return before they fetch a table. -/
theorem executeLists_of_flatten_nil (h : workloads.flatten = []) :
    executeLists cc s workloads = (s, workloads) := by
  induction workloads with
  | nil => rfl
  | cons ts rest ih =>
      rw [List.flatten_cons, List.append_eq_nil_iff] at h
      obtain ⟨rfl, h⟩ := h
      simp [executeLists, executeList, ih h]

/-- With one epoch throughout, the workloads run as one list on the epoch's reserve table. -/
theorem executeLists_eq (cc : Chaincode) (he : ∀ ts ∈ workloads, ∀ t ∈ ts, t.epoch = e)
    (hne : workloads.flatten ≠ []) :
    let r := executeLoop cc { db := s.db, rt := getReserveTable s.reserveTable e } workloads.flatten
    (executeLists cc s workloads).1 = { db := r.1.db, reserveTable := some r.1.rt } ∧
      (executeLists cc s workloads).2.flatten = r.2 := by
  induction workloads generalizing s with
  | nil => exact absurd rfl hne
  | cons ts rest ih =>
      have he' : ∀ ts ∈ rest, ∀ t ∈ ts, t.epoch = e := fun u hu => he u (List.mem_cons_of_mem _ hu)
      cases ts with
      | nil =>
          have hne' : rest.flatten ≠ [] := by simpa using hne
          have := ih (s := s) he' hne'
          simpa [executeLists, executeList] using this
      | cons t ts =>
          have het : t.epoch = e := he _ List.mem_cons_self t List.mem_cons_self
          simp only [executeLists, executeList, het, List.flatten_cons]
          rw [executeLoop_append]
          generalize hr : executeLoop cc
            { db := s.db, rt := getReserveTable s.reserveTable e } (t :: ts) = r
          have hep : r.1.rt.epoch = e := by
            rw [← hr, executeLoop_epoch, getReserveTable_epoch]
          by_cases hrest : rest.flatten = []
          · rw [executeLists_of_flatten_nil hrest, hrest]
            simp [executeLoop]
          · have := ih (s := { db := r.1.db, reserveTable := some r.1.rt }) he' hrest
            simp only [← hep, getReserveTable_self] at this
            exact ⟨this.1, by rw [this.2]⟩

theorem commitLists_eq {db : DatabaseImpl} {rt : MockReserveTable} {r : ExecState × List Transaction}
    (h : commitLoop { db := db, rt := rt } workloads.flatten = some r) :
    ∃ final, commitLists { db := db, reserveTable := some rt } workloads =
        some ({ db := r.1.db, reserveTable := some r.1.rt }, final) ∧ final.flatten = r.2 := by
  induction workloads generalizing db rt r with
  | nil =>
      simp only [List.flatten_nil, commitLoop, Option.some.injEq] at h
      subst h
      exact ⟨[], rfl, rfl⟩
  | cons ts rest ih =>
      rw [List.flatten_cons, commitLoop_append, Option.bind_eq_some_iff] at h
      obtain ⟨r1, h1, h⟩ := h
      rw [Option.map_eq_some_iff] at h
      obtain ⟨r2, h2, rfl⟩ := h
      obtain ⟨final, hf, hfl⟩ := ih h2
      refine ⟨r1.2 :: final, ?_, by rw [List.flatten_cons, hfl]⟩
      cases ts with
      | nil =>
          simp only [commitLoop, Option.some.injEq] at h1
          subst h1
          simp [commitLists, commitList, hf]
      | cons t ts => simp [commitLists, commitList, h1, hf]

theorem commitLists_of_flatten_nil (h : workloads.flatten = []) :
    commitLists s workloads = some (s, workloads) := by
  induction workloads with
  | nil => rfl
  | cons ts rest ih =>
      rw [List.flatten_cons, List.append_eq_nil_iff] at h
      obtain ⟨rfl, h⟩ := h
      simp [commitLists, commitList, ih h]

end Grouping

/-! ## Reservations of one epoch -/

section Reservations

variable {cc : Chaincode} {D : Storage} {ts : List Transaction} {t : Transaction}
  {rt : MockReserveTable}

theorem reserveExecuted_keeps (cc : Chaincode) (D : Storage) (rt : MockReserveTable) (tid : Tid)
    (c : Cell) (h0 : t.tid ≠ 0) :
    (HeldBy rt.readTableList tid c → HeldBy (reserveExecuted cc D rt t).readTableList tid c) ∧
    (HeldBy rt.writeTableList tid c → HeldBy (reserveExecuted cc D rt t).writeTableList tid c) := by
  unfold reserveExecuted
  split
  · exact reserveRWSet_keeps h0
  · exact ⟨id, id⟩

theorem foldl_reserveExecuted_keeps (cc : Chaincode) (D : Storage) (rt : MockReserveTable)
    (tid : Tid) (c : Cell) (h0 : ∀ t ∈ ts, t.tid ≠ 0) :
    (HeldBy rt.readTableList tid c →
      HeldBy (ts.foldl (reserveExecuted cc D) rt).readTableList tid c) ∧
    (HeldBy rt.writeTableList tid c →
      HeldBy (ts.foldl (reserveExecuted cc D) rt).writeTableList tid c) := by
  induction ts generalizing rt with
  | nil => exact ⟨id, id⟩
  | cons t ts ih =>
      have hk := reserveExecuted_keeps cc D rt tid c (h0 t List.mem_cons_self)
      have hr := ih (reserveExecuted cc D rt t) fun u hu => h0 u (List.mem_cons_of_mem _ hu)
      exact ⟨fun h => hr.1 (hk.1 h), fun h => hr.2 (hk.2 h)⟩

/-- After the read phase every cell of a successful transaction is held by its id or a
    smaller one. -/
theorem foldl_reserveExecuted_held (h0 : ∀ t ∈ ts, t.tid ≠ 0) (ht : t ∈ ts)
    (hret : (cc t D).ret = true) (c : Cell) :
    (c ∈ (cc t D).kvRWSet.reads.map KVRead.cell →
      HeldBy (ts.foldl (reserveExecuted cc D) rt).readTableList t.tid c) ∧
    (c ∈ (cc t D).kvRWSet.writes.map KVWrite.cell →
      HeldBy (ts.foldl (reserveExecuted cc D) rt).writeTableList t.tid c) := by
  induction ts generalizing rt with
  | nil => cases ht
  | cons t' ts ih =>
      have h0' : ∀ u ∈ ts, u.tid ≠ 0 := fun u hu => h0 u (List.mem_cons_of_mem _ hu)
      rcases List.mem_cons.mp ht with rfl | ht
      · have hk := foldl_reserveExecuted_keeps cc D (reserveExecuted cc D rt t) t.tid c h0'
        have htid := h0 t List.mem_cons_self
        have hself : reserveExecuted cc D rt t = rt.reserveRWSet (cc t D).kvRWSet t.tid := by
          unfold reserveExecuted
          rw [if_pos hret]
        refine ⟨fun hc => hk.1 ?_, fun hc => hk.2 ?_⟩
        · rw [hself]; exact reserveRWSet_read_le htid hc
        · rw [hself]; exact reserveRWSet_write_le htid hc
      · exact ih h0' ht

end Reservations

/-! ## A serial order of the committed transactions -/

/-- Chaincodes as programs on storage; a failed one writes nothing. -/
def chaincodePrograms (cc : Chaincode) : Programs Cell Bytes ChaincodeOutcome Transaction where
  exec := cc
  readsOf out := out.kvRWSet.reads.map KVRead.cell
  writesOf out := if out.ret then out.kvRWSet.writes.map writeEffect else []

section Serial

variable (cc : Chaincode) (D : Storage) (rt : MockReserveTable) (ts : List Transaction)

/-- `commitList` commits `t`, after `executeList` ran it on `D`. -/
def Commits (t : Transaction) : Prop := decision rt (executed cc D t) = .commit

instance (t : Transaction) : Decidable (Commits cc D rt t) :=
  inferInstanceAs (Decidable (_ = _))

variable {cc D rt ts} {t u : Transaction}

theorem Commits.ret (h : Commits cc D rt t) : (cc t D).ret = true := by
  unfold Commits decision at h
  by_contra hc
  rw [executed_result, if_neg hc] at h
  simp at h

/-- The two flag conditions of a commit. -/
theorem Commits.flags (h : Commits cc D rt t) :
    (rt.dependencyAnalysis (cc t D).kvRWSet t.tid).waw = false ∧
      ¬((rt.dependencyAnalysis (cc t D).kvRWSet t.tid).raw = true ∧
        (rt.dependencyAnalysis (cc t D).kvRWSet t.tid).war = true) := by
  unfold Commits decision at h
  simp only [executed_kvRWSet, executed_tid] at h
  split at h
  · cases h
  · split at h
    · cases h
    · split at h
      · rename_i hwaw hok
        refine ⟨by simpa using hwaw, ?_⟩
        rintro ⟨hraw, hwar⟩
        simp [hraw, hwar] at hok
      · cases h

/-- `rt` is the table after the read phase on `ts`, whatever it held before. -/
def Reserved (cc : Chaincode) (D : Storage) (ts : List Transaction) (rt : MockReserveTable) : Prop :=
  ∀ t ∈ ts, (cc t D).ret = true → ∀ c,
    (c ∈ (cc t D).kvRWSet.reads.map KVRead.cell → HeldBy rt.readTableList t.tid c) ∧
    (c ∈ (cc t D).kvRWSet.writes.map KVWrite.cell → HeldBy rt.writeTableList t.tid c)

/-- The conflicts between the successful transactions of an epoch, with the flags
    `dependencyAnalysis` computes for them. -/
def epochConflict (hr : Reserved cc D ts rt) : Conflict Transaction where
  num := Transaction.tid
  raw t := (rt.dependencyAnalysis (cc t D).kvRWSet t.tid).raw
  war t := (rt.dependencyAnalysis (cc t D).kvRWSet t.tid).war
  edge a b := a ∈ ts ∧ b ∈ ts ∧ (cc a D).ret = true ∧ (cc b D).ret = true ∧
    ∃ c, c ∈ (cc a D).kvRWSet.reads.map KVRead.cell ∧ c ∈ (cc b D).kvRWSet.writes.map KVWrite.cell
  raw_of_edge := by
    rintro a b ⟨-, hb, -, hbr, c, hca, hcb⟩ hlt
    exact List.any_eq_true.mpr ⟨c, hca, reservedBefore_of_held ((hr b hb hbr c).2 hcb) hlt⟩
  war_of_edge := by
    rintro a b ⟨ha, -, har, -, c, hca, hcb⟩ hlt
    exact List.any_eq_true.mpr ⟨c, hcb, reservedBefore_of_held ((hr a ha har c).1 hca) hlt⟩

/-- Two committed transactions never write the same cell: the larger one has `waw`. -/
theorem apart_of_commits (hr : Reserved cc D ts rt) (ht : t ∈ ts)
    (hct : Commits cc D rt t) (hcu : Commits cc D rt u) (hlt : t.tid < u.tid) :
    Apart ((cc t D).kvRWSet.writes.map writeEffect) ((cc u D).kvRWSet.writes.map writeEffect) := by
  intro w hw w' hw' he
  obtain ⟨v, hv, rfl⟩ := List.mem_map.mp hw
  obtain ⟨v', hv', rfl⟩ := List.mem_map.mp hw'
  have he' : v.cell = v'.cell := he
  have hheld := (hr t ht hct.ret v.cell).2 (List.mem_map_of_mem hv)
  have hwaw : (rt.dependencyAnalysis (cc u D).kvRWSet u.tid).waw = true := by
    refine List.any_eq_true.mpr ⟨v.cell, ?_, reservedBefore_of_held hheld hlt⟩
    rw [he']
    exact List.mem_map_of_mem hv'
  rw [hcu.flags.1] at hwaw
  cases hwaw

theorem pairwise_apart (hr : Reserved cc D ts rt) {cs : List Transaction}
    (hnd : (cs.map Transaction.tid).Nodup) (hcs : ∀ t ∈ cs, t ∈ ts ∧ Commits cc D rt t) :
    (cs.map fun t => (cc t D).kvRWSet.writes.map writeEffect).Pairwise Apart := by
  rw [List.pairwise_map]
  refine (List.pairwise_map.mp hnd).imp_of_mem ?_
  intro a b ha hb hne
  obtain ⟨hat, hac⟩ := hcs a ha
  obtain ⟨hbt, hbc⟩ := hcs b hb
  rcases Nat.lt_or_gt_of_ne hne with hlt | hgt
  · exact apart_of_commits hr hat hac hbc hlt
  · exact (apart_of_commits hr hbt hbc hac hgt).symm

/-- The serial order for the transactions of `cs`, all of which commit. -/
theorem serial_order (hloc : cc.LocalReads) (hr : Reserved cc D ts rt) {cs : List Transaction}
    (hnd : (cs.map Transaction.tid).Nodup) (hcs : ∀ t ∈ cs, t ∈ ts ∧ Commits cc D rt t) :
    ∃ order : List Transaction, order.Perm cs ∧
      (chaincodePrograms cc).serialRun D order =
        (putAll D (cs.flatMap fun t => (cc t D).kvRWSet.writes.map writeEffect),
          order.map fun t => cc t D) := by
  have hperm := (epochConflict hr).order_perm cs
  have hmem : ∀ t ∈ (epochConflict hr).order cs, t ∈ ts ∧ Commits cc D rt t :=
    fun t ht => hcs t (hperm.mem_iff.mp ht)
  have hwrites : ∀ t ∈ (epochConflict hr).order cs,
      (chaincodePrograms cc).writesOf (cc t D) = (cc t D).kvRWSet.writes.map writeEffect := by
    intro t ht
    show (if (cc t D).ret then _ else _) = _
    rw [if_pos (hmem t ht).2.ret]
  have hpw : ((epochConflict hr).order cs).Pairwise ((chaincodePrograms cc).Unread D) := by
    have hedge := (epochConflict hr).order_pairwise hnd fun t ht => (hcs t ht).2.flags.2
    refine hedge.imp_of_mem ?_
    intro a b ha hb hne k hk w hw heq
    rw [show (chaincodePrograms cc).exec a D = cc a D from rfl, hwrites a ha] at hw
    obtain ⟨v, hv, rfl⟩ := List.mem_map.mp hw
    refine hne ⟨(hmem b hb).1, (hmem a ha).1, (hmem b hb).2.ret, (hmem a ha).2.ret, k, hk, ?_⟩
    rw [← heq]
    exact List.mem_map_of_mem hv
  have hlocal : ∀ t ∈ (epochConflict hr).order cs, (chaincodePrograms cc).LocalProg t := by
    intro t _ E E' hE
    exact hloc t E E' fun r hrd => hE r.cell (List.mem_map_of_mem hrd)
  refine ⟨(epochConflict hr).order cs, hperm, ?_⟩
  rw [Programs.serialRun_eq hlocal hpw]
  refine Prod.ext ?_ rfl
  have happ := pairwise_apart hr hnd hcs
  show putAll D (((epochConflict hr).order cs).flatMap fun t =>
    (chaincodePrograms cc).writesOf (cc t D)) = _
  rw [List.flatMap_congr hwrites, List.flatMap_def, List.flatMap_def]
  exact (putAll_flatten_perm (hperm.map _).symm happ).symm

end Serial

/-! ## The epoch as a whole -/

/-- What the callers of an epoch promise: one epoch, distinct ids from 1 on, and no
    read-only transaction (`UserCollector` clears the flag; a read-only one is never buffered, so
    committing it dereferences null). -/
structure EpochBatch (e : Epoch) (ts : List Transaction) : Prop where
  epoch : ∀ t ∈ ts, t.epoch = e
  tids : (ts.map Transaction.tid).Nodup
  tid_ne_zero : ∀ t ∈ ts, t.tid ≠ 0
  writable : ∀ t ∈ ts, t.readOnlyFlag = false

theorem EpochBatch.perm {e : Epoch} {ts ts' : List Transaction} (h : EpochBatch e ts)
    (hp : ts.Perm ts') : EpochBatch e ts' :=
  ⟨fun t ht => h.epoch t (hp.mem_iff.mpr ht), (hp.map _).nodup_iff.mp h.tids,
    fun t ht => h.tid_ne_zero t (hp.mem_iff.mpr ht), fun t ht => h.writable t (hp.mem_iff.mpr ht)⟩

theorem EpochBatch.filter {e : Epoch} {ts : List Transaction} (h : EpochBatch e ts)
    (p : Transaction → Bool) : EpochBatch e (ts.filter p) :=
  ⟨fun t ht => h.epoch t (List.mem_of_mem_filter ht), h.tids.sublist (List.filter_sublist.map _),
    fun t ht => h.tid_ne_zero t (List.mem_of_mem_filter ht),
    fun t ht => h.writable t (List.mem_of_mem_filter ht)⟩

/-- A transaction after both phases, given the reservations of the read phase. -/
def finished (cc : Chaincode) (D : Storage) (rt : MockReserveTable) (t : Transaction) :
    Transaction :=
  (executed cc D t).setTransactionResult (decision rt (executed cc D t))

/-- The reserve table when the read phase of the epoch ends. -/
def reservations (cc : Chaincode) (s : ServerState) (e : Epoch) (ts : List Transaction) :
    MockReserveTable :=
  ts.foldl (reserveExecuted cc s.db.storage) (getReserveTable s.reserveTable e)

section Epoch

variable {cc : Chaincode} {s : ServerState} {e : Epoch} {workloads : List (List Transaction)}

theorem reserved_reservations {ts : List Transaction} (h0 : ∀ t ∈ ts, t.tid ≠ 0) :
    Reserved cc s.db.storage ts (reservations cc s e ts) :=
  fun _ ht hret c => foldl_reserveExecuted_held h0 ht hret c

theorem committedEffects_executed (D : Storage) (rt : MockReserveTable) (ts : List Transaction) :
    committedEffects rt (ts.map (executed cc D)) =
      (ts.filter (Commits cc D rt)).flatMap fun t => (cc t D).kvRWSet.writes.map writeEffect := by
  unfold committedEffects Commits
  rw [List.filter_map, List.flatMap_map]
  simp only [executed_kvRWSet]
  rfl

/-- An epoch runs to its end, and this is what it leaves. -/
theorem runEpoch_eq (htab : cc.TwoFieldTables) (hb : EpochBatch e workloads.flatten) :
    ∃ s' final, runEpoch cc s workloads = some (s', final) ∧
      final.flatten = workloads.flatten.map
        (finished cc s.db.storage (reservations cc s e workloads.flatten)) ∧
      s'.db.storage = putAll s.db.storage
        ((workloads.flatten.filter
          (Commits cc s.db.storage (reservations cc s e workloads.flatten))).flatMap
            fun t => (cc t s.db.storage).kvRWSet.writes.map writeEffect) := by
  by_cases hne : workloads.flatten = []
  · refine ⟨s, workloads, ?_, by rw [hne]; rfl, by rw [hne]; rfl⟩
    unfold runEpoch
    rw [executeLists_of_flatten_nil hne]
    exact commitLists_of_flatten_nil hne
  · have he : ∀ ts ∈ workloads, ∀ t ∈ ts, t.epoch = e :=
      fun ts hts t ht => hb.epoch t (List.mem_flatten.mpr ⟨ts, hts, ht⟩)
    obtain ⟨hs1, htx1⟩ := executeLists_eq (s := s) cc he hne
    generalize hr : executeLoop cc { db := s.db, rt := getReserveTable s.reserveTable e }
      workloads.flatten = r at hs1 htx1
    have hst : r.1.db.storage = s.db.storage := by rw [← hr, executeLoop_storage]
    have hrt : r.1.rt = reservations cc s e workloads.flatten := by rw [← hr, executeLoop_rt]; rfl
    have htx : r.2 = workloads.flatten.map (executed cc s.db.storage) := by
      rw [← hr, executeLoop_txns]
    have hready : ∀ t ∈ (executeLists cc s workloads).2.flatten, Ready r.1.db t := by
      intro t ht
      rw [htx1, htx] at ht
      obtain ⟨u, hu, rfl⟩ := List.mem_map.mp ht
      refine ⟨(cc u s.db.storage).tableList, ?_, htab u _⟩
      rw [executed_tid, executed_kvRWSet, ← hr]
      exact executeLoop_buffered hb.tids hb.writable hu
    obtain ⟨db', hloop, hst', -, -⟩ := commitLoop_eq (s := { db := r.1.db, rt := r.1.rt }) hready
    obtain ⟨final, hfin, hflat⟩ := commitLists_eq hloop
    refine ⟨{ db := db', reserveTable := some r.1.rt }, final, ?_, ?_, ?_⟩
    · unfold runEpoch
      simp only
      rw [hs1]
      exact hfin
    · rw [hflat, htx1, htx, List.map_map, hrt]
      rfl
    · rw [hst', hst, hrt, htx1, htx, committedEffects_executed]

theorem decision_ne_pending (rt : MockReserveTable) (t : Transaction) :
    decision rt t ≠ .pending := by
  unfold decision
  simp only
  split_ifs <;> simp

@[simp] theorem finished_kvRWSet {D : Storage} {rt : MockReserveTable} {t : Transaction} :
    (finished cc D rt t).kvRWSet = (cc t D).kvRWSet := executed_kvRWSet

@[simp] theorem finished_tid {D : Storage} {rt : MockReserveTable} {t : Transaction} :
    (finished cc D rt t).tid = t.tid := executed_tid

/-- `order` explains an epoch that took the database from `D` to `D'` and the transactions
    `ts` to `final`: it lists the committed transactions, each paired with what became of it,
    so that running their chaincodes one by one from `D` gives each of them the read and write
    set it recorded and ends in `D'`. -/
structure SerialOrder (cc : Chaincode) (D D' : Storage) (ts final : List Transaction)
    (order : List (Transaction × Transaction)) : Prop where
  perm : order.Perm ((ts.zip final).filter fun p => p.2.transactionResult = .commit)
  ends : ((chaincodePrograms cc).serialRun D (order.map Prod.fst)).1 = D'
  repeats : ((chaincodePrograms cc).serialRun D (order.map Prod.fst)).2.map
    (fun out => (out.ret, out.kvRWSet)) = order.map fun p => (true, p.2.kvRWSet)
  written : ∀ c, D' c ≠ D c → ∃ p ∈ order, c ∈ p.2.kvRWSet.writes.map KVWrite.cell

theorem serialOrder_map {D D' : Storage} {rt : MockReserveTable} {ts order : List Transaction}
    (hperm : order.Perm (ts.filter (Commits cc D rt)))
    (hser : (chaincodePrograms cc).serialRun D order = (D', order.map fun t => cc t D))
    (hD : D' = putAll D ((ts.filter (Commits cc D rt)).flatMap
      fun t => (cc t D).kvRWSet.writes.map writeEffect)) :
    SerialOrder cc D D' ts (ts.map (finished cc D rt))
      (order.map fun t => (t, finished cc D rt t)) := by
  have hfst : (order.map fun t => (t, finished cc D rt t)).map Prod.fst = order := by
    rw [List.map_map]
    exact List.map_id _
  refine ⟨?_, ?_, ?_, ?_⟩
  · rw [← List.map_prod_left_eq_zip, List.filter_map]
    exact hperm.map _
  · rw [hfst, hser]
  · rw [hfst, hser, List.map_map, List.map_map]
    refine List.map_congr_left fun t ht => ?_
    have hc : Commits cc D rt t := by simpa using (List.mem_filter.mp (hperm.mem_iff.mp ht)).2
    simp only [Function.comp_apply, hc.ret, finished_kvRWSet]
  · intro c hc
    rw [hD] at hc
    obtain ⟨w, hw, rfl⟩ := exists_write_of_putAll_ne hc
    obtain ⟨t, ht, hwt⟩ := List.mem_flatMap.mp hw
    obtain ⟨v, hv, rfl⟩ := List.mem_map.mp hwt
    refine ⟨(t, finished cc D rt t), List.mem_map_of_mem (hperm.mem_iff.mpr ht), ?_⟩
    simp only [finished_kvRWSet]
    exact List.mem_map_of_mem hv

/-- Every epoch is serializable: it runs to its end, every transaction has a final result,
    and the committed ones have a serial order. A transaction that is not in the order
    contributes no write. -/
theorem epoch_serializable (hloc : cc.LocalReads) (htab : cc.TwoFieldTables)
    (hb : EpochBatch e workloads.flatten) :
    ∃ s' final, runEpoch cc s workloads = some (s', final) ∧
      final.flatten.map Transaction.tid = workloads.flatten.map Transaction.tid ∧
      (∀ t ∈ final.flatten, t.transactionResult ≠ .pending) ∧
      ∃ order, SerialOrder cc s.db.storage s'.db.storage workloads.flatten final.flatten order := by
  obtain ⟨s', final, hrun, hfin, hst⟩ := runEpoch_eq (s := s) htab hb
  generalize hrt : reservations cc s e workloads.flatten = rt at hfin hst
  have hr : Reserved cc s.db.storage workloads.flatten rt :=
    hrt ▸ reserved_reservations hb.tid_ne_zero
  have hnd : ((workloads.flatten.filter (Commits cc s.db.storage rt)).map Transaction.tid).Nodup :=
    hb.tids.sublist (List.filter_sublist.map _)
  obtain ⟨order, hperm, hser⟩ := serial_order hloc hr hnd fun t ht => by
    simpa using List.mem_filter.mp ht
  refine ⟨s', final, hrun, ?_, ?_, order.map fun t => (t, finished cc s.db.storage rt t), ?_⟩
  · rw [hfin, List.map_map]
    exact List.map_congr_left fun t _ => finished_tid
  · intro t ht
    rw [hfin] at ht
    obtain ⟨u, -, rfl⟩ := List.mem_map.mp ht
    exact decision_ne_pending _ _
  · rw [hfin]
    exact serialOrder_map hperm (hst ▸ hser) hst

end Epoch

/-- Transaction `n` copies key `n` to key `n + 1`: an example in which later transactions
    read what earlier ones write. -/
def copyChaincode : Chaincode := fun t D =>
  let value := Storage.selectDB D [UInt8.ofNat t.tid] []
  { ret := true
    kvRWSet := {
      reads := [{ table := [], key := [UInt8.ofNat t.tid], value := value }]
      writes := [{ table := [], key := [UInt8.ofNat (t.tid + 1)], value := value }] } }

theorem copyChaincode_localReads : copyChaincode.LocalReads := by
  intro t D D' h
  have hval : Storage.selectDB D' [UInt8.ofNat t.tid] [] =
      Storage.selectDB D [UInt8.ofNat t.tid] [] :=
    congrArg (Option.getD · []) (h _ List.mem_cons_self)
  unfold copyChaincode
  simp only [hval]

theorem copyChaincode_twoFieldTables : copyChaincode.TwoFieldTables :=
  fun _ _ _ h => absurd h List.not_mem_nil

/-- Three transactions of epoch 5 for two workers, on the empty database. -/
def copyWorkloads : List (List Transaction) :=
  [[{ epoch := 5, tid := 2, readOnlyFlag := false }],
    [{ epoch := 5, tid := 1, readOnlyFlag := false },
      { epoch := 5, tid := 3, readOnlyFlag := false }]]

theorem copyWorkloads_batch : EpochBatch 5 copyWorkloads.flatten := by
  refine ⟨?_, ?_, ?_, ?_⟩ <;> decide

theorem epoch_serializable_copy :
    ∃ s' final, runEpoch copyChaincode { db := { storage := fun _ => none } } copyWorkloads =
        some (s', final) ∧
      final.flatten.map Transaction.tid = [2, 1, 3] ∧
      (∀ t ∈ final.flatten, t.transactionResult ≠ .pending) ∧
      ∃ order, SerialOrder copyChaincode (fun _ => none) s'.db.storage copyWorkloads.flatten
        final.flatten order :=
  epoch_serializable copyChaincode_localReads copyChaincode_twoFieldTables copyWorkloads_batch

end NeuChain.Server
