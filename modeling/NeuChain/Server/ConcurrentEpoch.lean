/-
  A whole epoch run by concurrent workers, and why it does not depend on the schedule.

  `runConcurrent` runs the read phase and then the commit phase of `EpochRun`, each under its own
  schedule. `EpochExecuted` is what any way of executing the epoch has to establish before
  the commit phase: the read phase of one server does (`execute_executed`), and so do the
  phases of aggregation mode.

  * `runConcurrent_eq`: the storage and the transactions any schedule ends with are those
    of the sequential `runEpoch` of the same transactions in any order: registers are minima
    of sets, so the decisions are functions of the set, and committed writes commute.
  * `runConcurrent_completes`: there is such a schedule, and none gets stuck on the way.
-/
import NeuChain.Server.ReadPhase
import NeuChain.Server.CommitPhase
import NeuChain.Server.Serializable
import Mathlib.Data.List.Nodup

namespace NeuChain.Server

open NeuChain.Lib

/-! ## Reservations of a set of transactions -/

section Registers

variable {cc : Chaincode} {D : Storage} {e : Epoch} {ts ts' : List Transaction} {t : Transaction}
  {rt rt' : MockReserveTable} {R R' : List Request}

/-- The registers the transactions ask for when executed on `D`. -/
def epochRequests (cc : Chaincode) (D : Storage) (ts : List Transaction) : List Request :=
  ts.flatMap fun t => if (cc t D).ret then reserveRequests (cc t D).kvRWSet t.tid else []

/-- Every register shows the smallest id that asked for it. -/
def ShowsLeast (rt : MockReserveTable) (R : List Request) : Prop :=
  ∀ side c, Least {tid | { side := side, cell := c, tid := tid } ∈ R} (rt.reg side c)

theorem ShowsLeast.congr (h : ShowsLeast rt R) (hR : ∀ r, r ∈ R ↔ r ∈ R') : ShowsLeast rt R' := by
  intro side c
  have := h side c
  simp only [hR] at this
  exact this

theorem showsLeast_new : ShowsLeast { epoch := e } [] := by
  intro side c
  cases side <;> exact Or.inl ⟨rfl, by simp⟩

/-- Tables that show the minima of the same requests decide alike. -/
theorem decision_congr (h : ShowsLeast rt R) (h' : ShowsLeast rt' R) (t : Transaction) :
    decision rt t = decision rt' t := by
  have hread : rt.readTableList = rt'.readTableList :=
    funext fun c => (h .read c).unique (h' .read c)
  have hwrite : rt.writeTableList = rt'.writeTableList :=
    funext fun c => (h .write c).unique (h' .write c)
  unfold decision MockReserveTable.dependencyAnalysis
  rw [hread, hwrite]

theorem mem_reserveRequests {rw : KVRWSet} {tid : Tid} {r : Request} :
    r ∈ reserveRequests rw tid ↔ r.tid = tid ∧
      ((r.side = .read ∧ r.cell ∈ rw.reads.map KVRead.cell) ∨
        (r.side = .write ∧ r.cell ∈ rw.writes.map KVWrite.cell)) := by
  obtain ⟨side, cell, m⟩ := r
  cases side <;> simp [reserveRequests] <;> grind

theorem ShowsLeast.reserveRWSet {rw : KVRWSet} {tid : Tid} (h : ShowsLeast rt R) (h0 : tid ≠ 0) :
    ShowsLeast (rt.reserveRWSet rw tid) (R ++ reserveRequests rw tid) := by
  have hl := reserveRWSet_least rw h0 (h .read) (h .write)
  intro side c
  cases side with
  | read =>
      show Least _ ((rt.reserveRWSet rw tid).readTableList c)
      convert (hl c).1 using 1
      ext m
      simp [mem_reserveRequests]
  | write =>
      show Least _ ((rt.reserveRWSet rw tid).writeTableList c)
      convert (hl c).2 using 1
      ext m
      simp [mem_reserveRequests]

theorem ShowsLeast.foldl (cc : Chaincode) (D : Storage) (h : ShowsLeast rt R)
    (h0 : ∀ t ∈ ts, t.tid ≠ 0) :
    ShowsLeast (ts.foldl (reserveExecuted cc D) rt) (R ++ epochRequests cc D ts) := by
  induction ts generalizing rt R with
  | nil => simpa [epochRequests] using h
  | cons t ts ih =>
      have ht : ShowsLeast (reserveExecuted cc D rt t)
          (R ++ if (cc t D).ret then reserveRequests (cc t D).kvRWSet t.tid else []) := by
        unfold reserveExecuted
        split
        · exact h.reserveRWSet (h0 t List.mem_cons_self)
        · simpa using h
      have := ih ht fun u hu => h0 u (List.mem_cons_of_mem _ hu)
      rw [List.append_assoc] at this
      exact this

theorem mem_epochRequests_perm (hp : ts.Perm ts') {r : Request} :
    r ∈ epochRequests cc D ts ↔ r ∈ epochRequests cc D ts' :=
  (hp.flatMap_right _).mem_iff

theorem ShowsLeast.reserved (h : ShowsLeast rt (epochRequests cc D ts)) : Reserved cc D ts rt := by
  intro t ht hret c
  have hmem : ∀ r ∈ reserveRequests (cc t D).kvRWSet t.tid, r ∈ epochRequests cc D ts := by
    intro r hr
    refine List.mem_flatMap.mpr ⟨t, ht, ?_⟩
    rw [if_pos hret]
    exact hr
  constructor
  · intro hc
    exact (h .read c).held (hmem _ (mem_reserveRequests.mpr ⟨rfl, Or.inl ⟨rfl, hc⟩⟩))
  · intro hc
    exact (h .write c).held (hmem _ (mem_reserveRequests.mpr ⟨rfl, Or.inr ⟨rfl, hc⟩⟩))

end Registers

/-! ## The commit phase of an executed epoch -/

section Commit

variable {cc : Chaincode} {D : Storage} {e : Epoch} {ts : List Transaction}
  {s s' : EpochState} {workloads : List (List Transaction)} {rt : MockReserveTable}
  {as : List (Nat × Bool)}

/-- Every transaction of the epoch is executed on `D`, its reservations made and its read-write
    set buffered. -/
structure EpochExecuted (cc : Chaincode) (D : Storage) (e : Epoch) (ts : List Transaction)
    (s : EpochState) : Prop where
  storage : s.db.storage = D
  least : ShowsLeast (s.table e) (epochRequests cc D ts)
  fetched : ts ≠ [] → s.Fetched e
  txns : ∀ t ∈ ts, s.txns t.tid = executed cc D t
  ready : ∀ t ∈ ts, Ready s.db (executed cc D t)

theorem EpochExecuted.perm {ts' : List Transaction} (h : EpochExecuted cc D e ts s)
    (hp : ts.Perm ts') : EpochExecuted cc D e ts' s := by
  refine ⟨h.storage, h.least.congr fun r => mem_epochRequests_perm hp, ?_,
    fun t ht => h.txns t (hp.mem_iff.mpr ht), fun t ht => h.ready t (hp.mem_iff.mpr ht)⟩
  intro hne
  refine h.fetched fun hnil => hne ?_
  rw [hnil] at hp
  exact List.nil_perm.mp hp

/-- The writes one transaction contributes. -/
def effectsOf (cc : Chaincode) (D : Storage) (rt : MockReserveTable) (t : Transaction) :
    List (Cell × Option Bytes) :=
  if Commits cc D rt t then (cc t D).kvRWSet.writes.map writeEffect else []

theorem flatMap_effectsOf (ts : List Transaction) :
    ts.flatMap (effectsOf cc D rt) = (ts.filter (Commits cc D rt)).flatMap
      fun t => (cc t D).kvRWSet.writes.map writeEffect := by
  induction ts with
  | nil => rfl
  | cons t ts ih =>
      rw [List.flatMap_cons, ih, List.filter_cons]
      unfold effectsOf
      by_cases hc : Commits cc D rt t <;> simp [hc]

theorem pairwise_apart_effectsOf (hr : Reserved cc D ts rt)
    (hnd : (ts.map Transaction.tid).Nodup) :
    (ts.map (effectsOf cc D rt)).Pairwise Apart := by
  rw [List.pairwise_map]
  refine (List.pairwise_map.mp hnd).imp_of_mem ?_
  intro a b ha hb hne
  unfold effectsOf
  split
  · split
    · rename_i hac hbc
      rcases Nat.lt_or_gt_of_ne hne with hlt | hgt
      · exact apart_of_commits hr ha hac hbc hlt
      · exact (apart_of_commits hr hb hbc hac hgt).symm
    · exact fun _ _ _ h => absurd h List.not_mem_nil
  · exact fun _ h => absurd h List.not_mem_nil

/-- Grouping transactions into workloads keeps their writes apart. -/
theorem pairwise_apart_workloads {f : Transaction → List (Cell × Option Bytes)}
    (h : (workloads.flatten.map f).Pairwise Apart) :
    (workloads.map fun ts => ts.flatMap f).Pairwise Apart := by
  rw [List.pairwise_map] at h ⊢
  obtain ⟨-, hcross⟩ := List.pairwise_flatten.mp h
  refine hcross.imp ?_
  intro l l' hll w hw w' hw'
  obtain ⟨t, ht, hwt⟩ := List.mem_flatMap.mp hw
  obtain ⟨t', ht', hwt'⟩ := List.mem_flatMap.mp hw'
  exact hll t ht t' ht' w hwt w' hwt'

theorem EpochExecuted.pendingWrites_eq (h : EpochExecuted cc D e ts s) {l : List Transaction}
    (hl : ∀ t ∈ l, t ∈ ts) :
    pendingWrites rt s.txns (commitProgram l) = l.flatMap (effectsOf cc D rt) := by
  induction l with
  | nil => rfl
  | cons t l ih =>
      have hrest := ih fun u hu => hl u (List.mem_cons_of_mem _ hu)
      unfold pendingWrites commitProgram at hrest ⊢
      rw [List.map_cons, List.flatMap_cons, List.flatMap_cons, hrest]
      simp only [Instr.effects, h.txns t (hl t List.mem_cons_self), executed_kvRWSet]
      rfl

theorem EpochExecuted.commitReady (h : EpochExecuted cc D e ts s) (hb : EpochBatch e ts)
    (hp : workloads.flatten.Perm ts) : CommitReady (s.table e) s workloads := by
  have hnd : (workloads.flatten.map Transaction.tid).Nodup := (hp.map _).nodup_iff.mpr hb.tids
  refine ⟨?_, hnd, ?_, ?_⟩
  · intro t ht
    exact (h.fetched (List.ne_nil_of_mem (hp.mem_iff.mp ht))).reserveTable_eq
  · intro t ht
    rw [h.txns t (hp.mem_iff.mp ht)]
    exact ⟨executed_tid, h.ready t (hp.mem_iff.mp ht)⟩
  · have heq : (workloads.map fun ts => pendingWrites (s.table e) s.txns (commitProgram ts)) =
        workloads.map fun ts => ts.flatMap (effectsOf cc D (s.table e)) := by
      refine List.map_congr_left fun l hl => h.pendingWrites_eq fun t ht => ?_
      exact hp.mem_iff.mp (List.mem_flatten.mpr ⟨l, hl, ht⟩)
    rw [heq]
    refine pairwise_apart_workloads (pairwise_apart_effectsOf ?_ hnd)
    intro t ht
    exact h.least.reserved t (hp.mem_iff.mp ht)

/-- What every schedule of the commit phase makes of an executed epoch, with the decisions
    read off any table that shows the minima. -/
theorem EpochExecuted.commit (h : EpochExecuted cc D e ts s) (hb : EpochBatch e ts)
    (hrt : ShowsLeast rt (epochRequests cc D ts)) (hp : workloads.flatten.Perm ts)
    (hrun : runPhase (exec cc) s (workloads.map commitProgram) as = some s') :
    s'.db.storage = putAll D (ts.flatMap (effectsOf cc D rt)) ∧
      ∀ t ∈ ts, s'.txns t.tid = finished cc D rt t := by
  obtain ⟨hst, htx⟩ := commitPhase_state (h.commitReady hb hp) hrun
  have heff : effectsOf cc D (s.table e) = effectsOf cc D rt := by
    funext t
    have hiff : Commits cc D (s.table e) t ↔ Commits cc D rt t := by
      unfold Commits
      rw [decision_congr h.least hrt]
    exact if_congr hiff rfl rfl
  constructor
  · have heq : (workloads.map fun ts => pendingWrites (s.table e) s.txns (commitProgram ts)) =
        workloads.map fun ts => ts.flatMap (effectsOf cc D rt) := by
      refine List.map_congr_left fun l hl => ?_
      rw [h.pendingWrites_eq fun t ht => hp.mem_iff.mp (List.mem_flatten.mpr ⟨l, hl, ht⟩), heff]
    have hflat : (workloads.map fun ts => ts.flatMap (effectsOf cc D rt)).flatten =
        (workloads.flatten.map (effectsOf cc D rt)).flatten := by
      rw [List.map_flatten, List.flatten_flatten, List.map_map]
      rfl
    have hperm : (workloads.flatten.map (effectsOf cc D rt)).Perm (ts.map (effectsOf cc D rt)) :=
      hp.map _
    rw [hst, heq, hflat, h.storage, List.flatMap_def]
    exact putAll_flatten_perm hperm (hperm.symm.pairwise
      (pairwise_apart_effectsOf hrt.reserved hb.tids) Apart.symm)
  · intro t ht
    rw [htx, if_pos (List.mem_map_of_mem (hp.mem_iff.mpr ht)), h.txns t ht]
    unfold committed finished
    rw [decision_congr h.least hrt]

end Commit

/-! ## The read phase of one server -/

section Execute

variable {cc : Chaincode} {D : Storage} {e : Epoch} {ts : List Transaction}
  {s s' : EpochState} {workloads : List (List Transaction)} {as : List (Nat × Bool)}

/-- The transactions, as the objects the workers share. -/
def txnsOf (ts : List Transaction) (tid : Tid) : Transaction :=
  (ts.find? fun t => t.tid = tid).getD {}

theorem txnsOf_tid {t : Transaction} (hnd : (ts.map Transaction.tid).Nodup) (ht : t ∈ ts) :
    txnsOf ts t.tid = t := by
  unfold txnsOf
  cases hfind : ts.find? fun u => u.tid = t.tid with
  | none => exact absurd (List.find?_eq_none.mp hfind t ht) (by simp)
  | some u =>
      have hu : u.tid = t.tid := by simpa using List.find?_some hfind
      exact List.inj_on_of_nodup_map hnd (List.mem_of_find?_eq_some hfind) ht hu

/-- A function that ignores the fetch, over the programs of all workers. -/
theorem flatMap_listPrograms {β : Type} (iteration : Tid → Instr) (f : Instr → List β)
    (hf : ∀ e, f (.getReserveTable e) = []) (workloads : List (List Transaction)) :
    (workloads.map (listProgram iteration)).flatten.flatMap f =
      workloads.flatten.flatMap fun t => f (iteration t.tid) := by
  induction workloads with
  | nil => rfl
  | cons ts rest ih =>
      rw [List.map_cons, List.flatten_cons, List.flatMap_append, ih, List.flatten_cons,
        List.flatMap_append]
      congr 1
      cases ts with
      | nil => rfl
      | cons t ts =>
          unfold listProgram
          rw [List.flatMap_cons, hf, List.nil_append, List.flatMap_map]

theorem mem_listPrograms {iteration : Tid → Instr} {i : Instr}
    (hi : i ∈ (workloads.map (listProgram iteration)).flatten) :
    ∃ t ∈ workloads.flatten, i = .getReserveTable t.epoch ∨ i = iteration t.tid := by
  obtain ⟨l, hl, hi⟩ := List.mem_flatten.mp hi
  obtain ⟨ts, hts, rfl⟩ := List.mem_map.mp hl
  cases ts with
  | nil => cases hi
  | cons t ts =>
      rcases List.mem_cons.mp hi with rfl | hi
      · exact ⟨t, List.mem_flatten.mpr ⟨_, hts, List.mem_cons_self⟩, Or.inl rfl⟩
      · obtain ⟨u, hu, rfl⟩ := List.mem_map.mp hi
        exact ⟨u, List.mem_flatten.mpr ⟨_, hts, hu⟩, Or.inr rfl⟩

theorem outcomes_listPrograms {o g : Tid → Transaction} {iteration : Tid → Instr}
    (hi : ∀ tid, (iteration tid).outcome cc D o = some (tid, g tid))
    (workloads : List (List Transaction)) :
    (workloads.map (listProgram iteration)).flatten.filterMap (Instr.outcome cc D o) =
      workloads.flatten.map fun t => (t.tid, g t.tid) := by
  have hlist := flatMap_listPrograms iteration
    (fun i => (Instr.outcome cc D o i).toList) (fun _ => rfl) workloads
  rw [List.filterMap_eq_flatMap_toList, hlist]
  simp only [hi, Option.toList_some]
  rw [List.map_eq_flatMap]

/-- The programs of workers whose workloads share no transaction. -/
theorem readPrograms_list (cc : Chaincode) (D : Storage) (o g : Tid → Transaction)
    (iteration : Tid → Instr) (he : ∀ t ∈ workloads.flatten, t.epoch = e)
    (hnd : (workloads.flatten.map Transaction.tid).Nodup)
    (hsrc : ∀ tid, (iteration tid).Source e)
    (hout : ∀ tid, (iteration tid).outcome cc D o = some (tid, g tid)) :
    ReadPrograms cc D o e
      (fun tid => if tid ∈ workloads.flatten.map Transaction.tid then g tid else o tid)
      (workloads.map (listProgram iteration)) := by
  have houts := outcomes_listPrograms hout workloads
  have htouched : touched cc D o (workloads.map (listProgram iteration)).flatten =
      workloads.flatten.map Transaction.tid := by
    unfold touched
    rw [houts, List.map_map]
    rfl
  refine ⟨?_, ?_, ?_, ?_, ?_⟩
  · intro i hi
    obtain ⟨t, ht, rfl | rfl⟩ := mem_listPrograms hi
    · exact he t ht
    · exact hsrc t.tid
  · intro l hl hu
    obtain ⟨ts, hts, rfl⟩ := List.mem_map.mp hl
    cases ts with
    | nil =>
        obtain ⟨i, hi, -⟩ := hu
        cases hi
    | cons t ts =>
        rw [← he t (List.mem_flatten.mpr ⟨_, hts, List.mem_cons_self⟩)]
        rfl
  · rw [htouched]
    exact hnd
  · intro p hp
    rw [houts] at hp
    obtain ⟨t, ht, rfl⟩ := List.mem_map.mp hp
    exact if_pos (List.mem_map_of_mem ht)
  · intro tid ht
    rw [htouched] at ht
    exact if_neg ht

/-- The programs of a non-empty epoch ask for its reserve table. -/
theorem mem_getReserveTable {iteration : Tid → Instr} (he : ∀ t ∈ workloads.flatten, t.epoch = e)
    (hne : workloads.flatten ≠ []) :
    .getReserveTable e ∈ (workloads.map (listProgram iteration)).flatten := by
  obtain ⟨t, ht⟩ := List.exists_mem_of_ne_nil _ hne
  obtain ⟨l, hl, htl⟩ := List.mem_flatten.mp ht
  refine List.mem_flatten.mpr ⟨listProgram iteration l, List.mem_map_of_mem hl, ?_⟩
  cases l with
  | nil => cases htl
  | cons u l =>
      rw [← he u (List.mem_flatten.mpr ⟨_, hl, List.mem_cons_self⟩)]
      exact List.mem_cons_self

/-- The read-write set of an executed transaction, as it is buffered. -/
def entryOf (cc : Chaincode) (D : Storage) (t : Transaction) : BufferEntry where
  tid := t.tid
  kvRWSet := (cc t D).kvRWSet
  tableList := (cc t D).tableList

theorem requests_executePrograms {o : Tid → Transaction}
    (ho : ∀ t ∈ workloads.flatten, o t.tid = t) :
    (workloads.map executeProgram).flatten.flatMap (Instr.requests cc D o) =
      epochRequests cc D workloads.flatten := by
  unfold executeProgram epochRequests
  rw [flatMap_listPrograms _ _ (fun _ => rfl), List.flatMap_def, List.flatMap_def]
  refine congrArg _ (List.map_congr_left fun t ht => ?_)
  simp only [Instr.requests, ho t ht]

theorem entries_executePrograms {o : Tid → Transaction}
    (ho : ∀ t ∈ workloads.flatten, o t.tid = t)
    (hw : ∀ t ∈ workloads.flatten, t.readOnlyFlag = false) :
    (workloads.map executeProgram).flatten.flatMap (Instr.entries cc D o) =
      workloads.flatten.map (entryOf cc D) := by
  unfold executeProgram
  rw [flatMap_listPrograms _ _ (fun _ => rfl), List.map_eq_flatMap, List.flatMap_def,
    List.flatMap_def]
  refine congrArg _ (List.map_congr_left fun t ht => ?_)
  simp [Instr.entries, ho t ht, hw t ht, entryOf]

theorem tid_of_mem_epochRequests {r : Request} (hr : r ∈ epochRequests cc D ts) :
    ∃ t ∈ ts, r.tid = t.tid := by
  obtain ⟨t, ht, hr⟩ := List.mem_flatMap.mp hr
  split at hr
  · exact ⟨t, ht, (mem_reserveRequests.mp hr).1⟩
  · cases hr

theorem requests_ne_zero (hb : EpochBatch e ts) : ∀ r ∈ epochRequests cc D ts, r.tid ≠ 0 := by
  intro r hr
  obtain ⟨t, ht, hrt⟩ := tid_of_mem_epochRequests hr
  rw [hrt]
  exact hb.tid_ne_zero t ht

theorem entryOf_injOn (hnd : (ts.map Transaction.tid).Nodup) :
    ∀ b ∈ ts.map (entryOf cc D), ∀ b' ∈ ts.map (entryOf cc D), b.tid = b'.tid → b = b' := by
  intro b hb b' hb' heq
  obtain ⟨t, ht, rfl⟩ := List.mem_map.mp hb
  obtain ⟨t', ht', rfl⟩ := List.mem_map.mp hb'
  rw [List.inj_on_of_nodup_map hnd ht ht' heq]

/-- No worker of epoch `e` has run before: the provider holds no table of it. -/
def ServerState.Fresh (s : ServerState) (e : Epoch) : Prop :=
  ∀ rt, s.reserveTable = some rt → rt.epoch ≠ e

theorem ServerState.Fresh.readState (h : s.Fresh e) : ReadState s.db.storage e [] [] s := by
  refine ⟨rfl, ?_, by simp, fun _ => rfl⟩
  have hnew : s.table e = { epoch := e } := by
    unfold EpochState.table getReserveTable
    split
    · rfl
    · rename_i rt hrt
      rw [if_pos (h rt hrt).symm]
  rw [hnew]
  exact showsLeast_new

/-- Before the epoch: the database, and the transactions the workers will share. -/
def ServerState.begin (s : ServerState) (ts : List Transaction) : EpochState :=
  { s with txns := txnsOf ts }

section OneServer

variable {s : ServerState} {m : EpochState} {p : Pool EpochState Instr}

/-- The workers may be given only some of the transactions `ts` of the epoch. -/
theorem execute_setup (cc : Chaincode) (hb : EpochBatch e workloads.flatten)
    (ho : ∀ t ∈ workloads.flatten, txnsOf ts t.tid = t) (hfresh : s.Fresh e) :
    ReadSetup cc s.db.storage e [] []
      (fun tid => if tid ∈ workloads.flatten.map Transaction.tid
        then executed cc s.db.storage (txnsOf ts tid) else txnsOf ts tid)
      (s.begin ts) (workloads.map executeProgram) := by
  have ho : ∀ t ∈ workloads.flatten, (s.begin ts).txns t.tid = t := ho
  refine ⟨ServerState.Fresh.readState (s := s.begin ts) hfresh,
    readPrograms_list cc _ _ _ _ hb.epoch hb.tids (fun _ => trivial) (fun _ => rfl), ?_, ?_⟩
  · rw [requests_executePrograms ho, List.nil_append]
    exact requests_ne_zero hb
  · rw [entries_executePrograms ho hb.writable, List.nil_append]
    exact entryOf_injOn hb.tids

theorem execute_state (hb : EpochBatch e workloads.flatten)
    (ho : ∀ t ∈ workloads.flatten, txnsOf ts t.tid = t) (hfresh : s.Fresh e)
    (hrun : runPhase (exec cc) (s.begin ts) (workloads.map executeProgram) as = some m) :
    ReadState s.db.storage e (epochRequests cc s.db.storage workloads.flatten)
        (workloads.flatten.map (entryOf cc s.db.storage)) m ∧
      (m.txns = fun tid => if tid ∈ workloads.flatten.map Transaction.tid
        then executed cc s.db.storage (txnsOf ts tid) else txnsOf ts tid) ∧
      (workloads.flatten ≠ [] → m.Fetched e) := by
  have hsetup := execute_setup cc hb ho hfresh
  have ho : ∀ t ∈ workloads.flatten, (s.begin ts).txns t.tid = t := ho
  obtain ⟨hstate, htxns⟩ := readPhase_state hsetup hrun
  rw [requests_executePrograms ho, entries_executePrograms ho hb.writable, List.nil_append,
    List.nil_append] at hstate
  refine ⟨hstate, htxns, fun hne => ?_⟩
  exact readPhase_fetched hsetup.plan.source (Or.inr (mem_getReserveTable hb.epoch hne)) hrun

/-- The read phase executes the epoch, on every schedule. -/
theorem execute_executed (htab : cc.TwoFieldTables) (hb : EpochBatch e workloads.flatten)
    (hfresh : s.Fresh e)
    (hrun : runPhase (exec cc) (s.begin workloads.flatten) (workloads.map executeProgram) as =
      some m) : EpochExecuted cc s.db.storage e workloads.flatten m := by
  obtain ⟨hstate, htxns, hfetched⟩ :=
    execute_state hb (fun t ht => txnsOf_tid hb.tids ht) hfresh hrun
  refine ⟨hstate.storage, hstate.least, hfetched, ?_, ?_⟩
  · intro t ht
    rw [htxns]
    simp only
    rw [if_pos (List.mem_map_of_mem ht), txnsOf_tid hb.tids ht]
  · intro t ht
    refine ⟨(cc t s.db.storage).tableList, ?_, htab t _⟩
    rw [executed_tid, executed_kvRWSet]
    exact hstate.buffered (entryOf cc s.db.storage t) (List.mem_map_of_mem ht)

end OneServer

end Execute

/-! ## The epoch -/

section Epoch

variable {cc : Chaincode} {e : Epoch} {s : ServerState} {s' : EpochState}
  {workloads : List (List Transaction)} {as as' : List (Nat × Bool)}

/-- One epoch on concurrent workers: `as` schedules the read phase, `as'` the commit phase. -/
def runConcurrent (cc : Chaincode) (s : ServerState) (workloads : List (List Transaction))
    (as as' : List (Nat × Bool)) : Option EpochState :=
  (runPhase (exec cc) (s.begin workloads.flatten) (workloads.map executeProgram) as).bind fun m =>
    runPhase (exec cc) m (workloads.map commitProgram) as'

theorem ServerState.Fresh.reservations_least (cc : Chaincode) {ts : List Transaction}
    (h : s.Fresh e) (h0 : ∀ t ∈ ts, t.tid ≠ 0) :
    ShowsLeast (reservations cc s e ts) (epochRequests cc s.db.storage ts) := by
  have hnew := (ServerState.Fresh.readState (s := s.begin ts) h).least
  have := ShowsLeast.foldl cc s.db.storage hnew h0
  rwa [List.nil_append] at this

/-- What any schedule leaves, in terms of any order of the transactions and any table that shows
    the minima for them. -/
theorem runConcurrent_eq (htab : cc.TwoFieldTables) (hb : EpochBatch e workloads.flatten)
    (hfresh : s.Fresh e) (hrun : runConcurrent cc s workloads as as' = some s')
    {ts : List Transaction} {rt : MockReserveTable} (hp : workloads.flatten.Perm ts)
    (hrt : ShowsLeast rt (epochRequests cc s.db.storage ts)) :
    s'.db.storage = putAll s.db.storage (ts.flatMap (effectsOf cc s.db.storage rt)) ∧
      ∀ t ∈ ts, s'.txns t.tid = finished cc s.db.storage rt t := by
  obtain ⟨m, hread, hcommit⟩ := Option.bind_eq_some_iff.mp hrun
  have hexec := (execute_executed htab hb hfresh hread).perm hp
  exact hexec.commit (hb.perm hp) hrt hp hcommit

/-- The concurrent epoch refines the sequential one: same storage, same transactions. -/
theorem runConcurrent_refines (htab : cc.TwoFieldTables) (hb : EpochBatch e workloads.flatten)
    (hfresh : s.Fresh e) (hrun : runConcurrent cc s workloads as as' = some s')
    {workloads' : List (List Transaction)} (hp : workloads.flatten.Perm workloads'.flatten) :
    ∃ r final, runEpoch cc s workloads' = some (r, final) ∧ s'.db.storage = r.db.storage ∧
      final.flatten = workloads'.flatten.map fun t => s'.txns t.tid := by
  have hb' := hb.perm hp
  obtain ⟨r, final, hseq, hfin, hst⟩ := runEpoch_eq (s := s) htab hb'
  obtain ⟨hst', htx⟩ := runConcurrent_eq htab hb hfresh hrun hp
    (hfresh.reservations_least cc hb'.tid_ne_zero)
  refine ⟨r, final, hseq, ?_, ?_⟩
  · rw [hst', hst, flatMap_effectsOf]
  · rw [hfin]
    exact List.map_congr_left fun t ht => (htx t ht).symm

/-- No schedule gets stuck: the read phase can be completed from anywhere, and the commit
    phase after it. -/
theorem runConcurrent_completes (htab : cc.TwoFieldTables) (hb : EpochBatch e workloads.flatten)
    (hfresh : s.Fresh e) {p : Pool EpochState Instr}
    (hrun : run (Pool.step (exec cc))
      { shared := s.begin workloads.flatten, threads := workloads.map executeProgram } as =
        some p) :
    ∃ bs as' s', runConcurrent cc s workloads (as ++ bs) as' = some s' := by
  have ho : ∀ t ∈ workloads.flatten, txnsOf workloads.flatten t.tid = t :=
    fun t ht => txnsOf_tid hb.tids ht
  obtain ⟨bs, m, hm⟩ := readPhase_completes (execute_setup cc hb ho hfresh) hrun
  have hready := (execute_executed htab hb hfresh hm).commitReady hb (List.Perm.refl _)
  obtain ⟨as', s', hs'⟩ := commitPhase_completes cc hready run_nil
  refine ⟨bs, [] ++ as', s', ?_⟩
  unfold runConcurrent
  rw [hm]
  exact hs'

end Epoch

end NeuChain.Server
