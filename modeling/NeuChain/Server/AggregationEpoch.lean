/-
  Aggregation mode does what the plain mode does.

  The phases of a server in aggregation mode reserve and buffer for the same transactions as
  the read phase of a server that executes them all: the local ones while they are executed, the
  others from the messages. So the epoch is executed in the sense of `EpochExecuted`, and the commit
  phase of the plain mode gives the rest.

  * `aggregation_equals_plain_iff`: every server of the cluster ends with the results, the
    read-write sets and the storage of a single server, on all schedules and for every order of
    messages, exactly if the read-write sets of the epoch are read back as they were.
  * `aggregation_loses_write`: protobuf does not read back a key that is not UTF-8.
-/
import NeuChain.Server.Aggregation
import NeuChain.Server.Chaincodes
import NeuChain.Server.WorkloadPhase

namespace NeuChain.Server

open NeuChain NeuChain.Lib

section

variable {cc : Chaincode} {msg : KVRWSetFormat} {c : AggregationCluster} {e : Epoch}
  {ts : List Transaction} {D : Storage} {ip ip' : Bytes} {srv srv' : AggregationServer}
  {m m' : EpochState} {as : List (Nat × Bool)} {t : Transaction}

/-! ## Before the epoch -/

/-- The server with address `ip` has storage `D`, has not broadcast epoch `e` before, and its
    coordinator has assigned all of `ts`. -/
structure AggregationServer.Prepared (c : AggregationCluster) (ip : Bytes) (e : Epoch)
    (ts : List Transaction) (D : Storage) (srv : AggregationServer) : Prop where
  storage : srv.state.db.storage = D
  fresh : srv.state.Fresh e
  broadcastEpoch : srv.broadcastEpoch < e
  workloads : srv.workloads.flatten.Perm (ts.filter (c.isLocalTransaction ip ·.tid))
  aggregationWorkloads :
    srv.aggregationWorkloads.flatten.Perm (ts.filter (!c.isLocalTransaction ip ·.tid))

/-- The coordinator prepares its server so, whatever it sees of its queue. -/
theorem prepared_of_assign {views : Nat → CoordinatorView} {u : Transaction}
    {more : List Transaction} {fuel : Nat} {ws : List Workload} {q q' : WorkloadPhase.State}
    (hmax : ∀ k m n, 0 < (views k).maxTxPerWorkload m n)
    (hcontents : q.queueWrapper.contents = ts ++ u :: more)
    (haside : q.registered.aggregationQueue = []) (he : ∀ t ∈ ts, t.epoch = e) (hu : e < u.epoch)
    (hfuel : ts.length < fuel)
    (hrun : WorkloadPhase.assignWorkloadPhase (WorkloadPhase.AggregationCoordinator.createWorkload
      views (c.isLocalTransaction ip) e) fuel q = some (ws, q'))
    (s : ServerState) (hs : s.Fresh e) {broadcastEpoch : Epoch} (hlast : broadcastEpoch < e) :
    AggregationServer.Prepared c ip e ts s.db.storage
      { state := s
        broadcastEpoch := broadcastEpoch
        workloads := (ws.filter fun w => w.aggregationWorkload = false).map Workload.transactionList
        aggregationWorkloads :=
          (ws.filter fun w => w.aggregationWorkload = true).map Workload.transactionList } := by
  have hnone : ∀ t ∈ q.registered.aggregationQueue, c.isLocalTransaction ip t.tid = false := by
    rw [haside]
    nofun
  obtain ⟨ws', q'', hphase, -, -, -, hlocal, hremote, -⟩ :=
    WorkloadPhase.assignWorkloadPhase_of_creates
      (WorkloadPhase.aggregation_creates (c.isLocalTransaction ip) hmax e) q hcontents
      (fun t ht => Nat.le_of_eq (he t ht)) hu hnone
  have hrun' := hphase fuel (by rwa [haside, List.length_nil, Nat.add_zero])
  obtain ⟨rfl, -⟩ : ws = ws' ∧ q' = q'' := Prod.ext_iff.mp (Option.some.inj (hrun.symm.trans hrun'))
  unfold assigned at hlocal hremote
  rw [List.flatMap_def] at hlocal hremote
  refine ⟨rfl, hs, hlast, ?_, ?_⟩
  · rw [hlocal]
  · rw [hremote, haside, List.nil_append]

/-- The ids of the transactions that pass a test on their ids. -/
theorem mem_map_tid {l : List Transaction} (P : Tid → Prop) (h : ∀ t, t ∈ l ↔ t ∈ ts ∧ P t.tid)
    {tid : Tid} : tid ∈ l.map Transaction.tid ↔ ∃ t ∈ ts, t.tid = tid ∧ P tid := by
  rw [List.mem_map]
  constructor
  · rintro ⟨t, ht, rfl⟩
    exact ⟨t, ((h t).mp ht).1, rfl, ((h t).mp ht).2⟩
  · rintro ⟨t, hts, rfl, hP⟩
    exact ⟨t, (h t).mpr ⟨hts, hP⟩, rfl⟩

namespace AggregationServer.Prepared

variable (h : Prepared c ip e ts D srv)

include h

theorem perm :
    (srv.workloads ++ srv.aggregationWorkloads).flatten.Perm ts := by
  rw [List.flatten_append]
  exact (h.workloads.append h.aggregationWorkloads).trans (List.filter_append_perm _ _)

theorem mem_workloads :
    t ∈ srv.workloads.flatten ↔ t ∈ ts ∧ c.isLocalTransaction ip t.tid = true := by
  rw [h.workloads.mem_iff, List.mem_filter]

theorem mem_aggregationWorkloads :
    t ∈ srv.aggregationWorkloads.flatten ↔ t ∈ ts ∧ c.isLocalTransaction ip t.tid = false := by
  rw [h.aggregationWorkloads.mem_iff, List.mem_filter, Bool.not_eq_true']

theorem mem_broadcastTransaction {tid : Tid} :
    tid ∈ srv.broadcastTransaction ↔
      ∃ t ∈ ts, t.tid = tid ∧ c.isLocalTransaction ip tid = true := by
  unfold AggregationServer.broadcastTransaction
  rw [(List.perm_insertionSort _ _).mem_iff]
  exact mem_map_tid (c.isLocalTransaction ip · = true) fun _ => h.mem_workloads

theorem mem_listenTransaction {tid : Tid} :
    tid ∈ srv.listenTransaction ↔
      ∃ t ∈ ts, t.tid = tid ∧ c.isLocalTransaction ip tid = false :=
  mem_map_tid (c.isLocalTransaction ip · = false) fun _ => h.mem_aggregationWorkloads

theorem batch (hb : EpochBatch e ts) :
    EpochBatch e srv.workloads.flatten ∧ EpochBatch e srv.aggregationWorkloads.flatten :=
  ⟨(hb.filter _).perm h.workloads.symm, (hb.filter _).perm h.aggregationWorkloads.symm⟩

theorem nodup_broadcastTransaction (hb : EpochBatch e ts) :
    srv.broadcastTransaction.Nodup :=
  (List.perm_insertionSort _ _).nodup_iff.mpr (h.batch hb).1.tids

end AggregationServer.Prepared

/-- Another server's transactions are among those this one listens for. -/
theorem mem_listen_of_broadcast (h : srv.Prepared c ip e ts D) (h' : srv'.Prepared c ip' e ts D)
    (hip : ip ∈ c.clusterIPs) (hip' : ip' ∈ c.clusterIPs) (hne : ip ≠ ip') {tid : Tid}
    (htid : tid ∈ srv'.broadcastTransaction) : tid ∈ srv.listenTransaction := by
  obtain ⟨t, ht, rfl, hlocal⟩ := h'.mem_broadcastTransaction.mp htid
  refine h.mem_listenTransaction.mpr ⟨t, ht, rfl, ?_⟩
  by_contra hc
  exact hne ((existsUnique_isLocalTransaction c t.tid).unique
    ⟨hip, Bool.eq_true_of_not_eq_false hc⟩ ⟨hip', hlocal⟩)

/-! ## The read phase -/

/-- The transactions with the given ids have been executed. -/
def executedOf (cc : Chaincode) (D : Storage) (ts : List Transaction) (ids : List Tid) (tid : Tid) :
    Transaction :=
  if tid ∈ ids then executed cc D (txnsOf ts tid) else txnsOf ts tid

theorem readPhase_txns (h : srv.Prepared c ip e ts D) (hb : EpochBatch e ts)
    (hrun : srv.readPhase cc ts as = some m) :
    ReadState D e (epochRequests cc D srv.workloads.flatten)
        (srv.workloads.flatten.map (entryOf cc D)) m ∧
      m.txns = executedOf cc D ts (srv.workloads.flatten.map Transaction.tid) ∧
      (srv.workloads.flatten ≠ [] → m.Fetched e) := by
  have ho : ∀ t ∈ srv.workloads.flatten, txnsOf ts t.tid = t :=
    fun t ht => txnsOf_tid hb.tids (h.mem_workloads.mp ht).1
  have := execute_state (h.batch hb).1 ho h.fresh hrun
  rw [h.storage] at this
  exact this

/-! ## The exchange -/

/-- The step by which a pool worker takes over a transaction with this read-write set. -/
def receiveSet (cc : Chaincode) (D : Storage) (ts : List Transaction) (sets : Transaction → KVRWSet)
    (tid : Tid) : Instr :=
  .receiveNode tid (executed cc D (txnsOf ts tid)).transactionResult (sets (txnsOf ts tid))

/-- What is left of the read-write set of a transaction that another server has executed. -/
def receivedSet (cc : Chaincode) (msg : KVRWSetFormat) (D : Storage) (t : Transaction) : KVRWSet :=
  (msg.parseFromString (msg.serializeAsString (cc t D).kvRWSet)).2

/-- The step if the set has come as it was sent. -/
def receiveOf (cc : Chaincode) (D : Storage) (ts : List Transaction) : Tid → Instr :=
  receiveSet cc D ts fun t => (cc t D).kvRWSet

/-- The read-write sets of the epoch are read back as they were. -/
def RoundTrip (cc : Chaincode) (msg : KVRWSetFormat) (D : Storage) (ts : List Transaction) : Prop :=
  ∀ t ∈ ts, receivedSet cc msg D t = (cc t D).kvRWSet

theorem executed_named (hnew : t.transactionResult = .pending) :
    (executed cc D t).transactionResult.Named := by
  rw [executed_result, hnew]
  split <;> nofun

theorem receiveProgram_exchange (h : srv.Prepared c ip e ts D) (h' : srv'.Prepared c ip' e ts D)
    (hb : EpochBatch e ts) (hnew : ∀ t ∈ ts, t.transactionResult = .pending)
    (hip : ip ∈ c.clusterIPs) (hip' : ip' ∈ c.clusterIPs) (hne : ip ≠ ip')
    (hrun : srv'.readPhase cc ts as = some m') :
    srv.receiveProgram msg e (srv'.exchange msg e m') =
      some (srv'.broadcastTransaction.map (receiveSet cc D ts (receivedSet cc msg D))) := by
  obtain ⟨-, htxns, -⟩ := readPhase_txns h' hb hrun
  have hlisten : ∀ node ∈ (srv'.exchange msg e m').node, node.tid ∈ srv.listenTransaction := by
    intro node hnode
    obtain ⟨tid, htid, rfl⟩ := List.mem_map.mp hnode
    exact mem_listen_of_broadcast h h' hip hip' hne htid
  unfold AggregationServer.receiveProgram
  rw [if_pos ⟨rfl, hlisten⟩]
  unfold AggregationServer.exchange
  rw [List.map_map]
  refine congrArg some (List.map_congr_left fun tid htid => ?_)
  obtain ⟨t, ht, rfl, hlocal⟩ := h'.mem_broadcastTransaction.mp htid
  have hmem : t.tid ∈ srv'.workloads.flatten.map Transaction.tid :=
    List.mem_map_of_mem (h'.mem_workloads.mpr ⟨ht, hlocal⟩)
  have htxn : m'.txns t.tid = executed cc D t := by
    rw [htxns]
    unfold executedOf
    rw [if_pos hmem, txnsOf_tid hb.tids ht]
  simp only [Function.comp_apply, receiveSet, receivedSet, htxn, txnsOf_tid hb.tids ht,
    executed_kvRWSet, TransactionResult.ofNat_toNat (executed_named (hnew t ht))]

theorem mapM_eq_some_map {α β γ : Type} {f : β → Option γ} {g : α → β} {k : α → γ} {l : List α}
    (h : ∀ x ∈ l, f (g x) = some (k x)) : (l.map g).mapM f = some (l.map k) := by
  induction l with
  | nil => rfl
  | cons x l ih =>
      rw [List.map_cons, List.mapM_cons, h x List.mem_cons_self,
        ih fun y hy => h y (List.mem_cons_of_mem x hy)]
      rfl

/-! ## Taking over the transactions of the others -/

/-- What a received transaction puts into the buffer: the tables it creates are not sent. -/
def receivedEntry (cc : Chaincode) (D : Storage) (ts : List Transaction) (tid : Tid) :
    BufferEntry where
  tid := tid
  kvRWSet := (cc (txnsOf ts tid) D).kvRWSet
  tableList := []

theorem touched_receive (o : Tid → Transaction) (ids : List Tid) :
    touched cc D o (ids.map (receiveOf cc D ts)) = ids := by
  unfold touched
  induction ids with
  | nil => rfl
  | cons tid ids ih => exact congrArg (tid :: ·) ih

theorem entries_receive (o : Tid → Transaction) (ids : List Tid) :
    (ids.map (receiveOf cc D ts)).flatMap (Instr.entries cc D o) = ids.map (receivedEntry cc D ts) := by
  induction ids with
  | nil => rfl
  | cons tid ids ih => exact congrArg (receivedEntry cc D ts tid :: ·) ih

theorem requests_receive (o : Tid → Transaction) (ids : List Tid) :
    (ids.map (receiveOf cc D ts)).flatMap (Instr.requests cc D o) = [] := by
  induction ids with
  | nil => rfl
  | cons tid ids ih => exact ih

/-- An executed transaction is determined by what is sent of it. -/
theorem executed_eq :
    { t with
      transactionResult := (executed cc D t).transactionResult
      kvRWSet := (cc t D).kvRWSet } = executed cc D t := by
  unfold executed
  dsimp only
  split <;> rfl

/-- No id is buffered twice: an id is either local or received. -/
theorem entries_injOn (h : srv.Prepared c ip e ts D) (hb : EpochBatch e ts) {ids : List Tid}
    (hids : ids.Perm srv.listenTransaction) :
    ∀ b ∈ srv.workloads.flatten.map (entryOf cc D) ++ ids.map (receivedEntry cc D ts),
      ∀ b' ∈ srv.workloads.flatten.map (entryOf cc D) ++ ids.map (receivedEntry cc D ts),
        b.tid = b'.tid → b = b' := by
  have hentry : ∀ b ∈ srv.workloads.flatten.map (entryOf cc D) ++ ids.map (receivedEntry cc D ts),
      b = if c.isLocalTransaction ip b.tid then entryOf cc D (txnsOf ts b.tid)
        else receivedEntry cc D ts b.tid := by
    intro b hmem
    rcases List.mem_append.mp hmem with hmem | hmem
    · obtain ⟨t, ht, rfl⟩ := List.mem_map.mp hmem
      obtain ⟨hts, hlocal⟩ := h.mem_workloads.mp ht
      show entryOf cc D t = if c.isLocalTransaction ip t.tid then entryOf cc D (txnsOf ts t.tid) else _
      rw [if_pos hlocal, txnsOf_tid hb.tids hts]
    · obtain ⟨tid, htid, rfl⟩ := List.mem_map.mp hmem
      obtain ⟨t, -, -, hremote⟩ := h.mem_listenTransaction.mp (hids.mem_iff.mp htid)
      show _ = if c.isLocalTransaction ip tid then _ else receivedEntry cc D ts tid
      rw [if_neg (by rw [hremote]; nofun)]
  intro b hmem b' hmem' htid
  rw [hentry b hmem, hentry b' hmem', htid]

theorem receive_setup (h : srv.Prepared c ip e ts D) (hb : EpochBatch e ts)
    (hstate : ReadState D e (epochRequests cc D srv.workloads.flatten)
      (srv.workloads.flatten.map (entryOf cc D)) m)
    (htxns : m.txns = executedOf cc D ts (srv.workloads.flatten.map Transaction.tid))
    {programs : List (List Instr)} {ids : List Tid}
    (hflat : programs.flatten = ids.map (receiveOf cc D ts)) (hids : ids.Perm srv.listenTransaction) :
    ReadSetup cc D e (epochRequests cc D srv.workloads.flatten)
      (srv.workloads.flatten.map (entryOf cc D)) (executedOf cc D ts (ts.map Transaction.tid)) m
      programs := by
  have hnone : ∀ i ∈ programs.flatten, ∃ tid ∈ ids, i = receiveOf cc D ts tid := by
    intro i hi
    rw [hflat] at hi
    obtain ⟨tid, htid, rfl⟩ := List.mem_map.mp hi
    exact ⟨tid, htid, rfl⟩
  refine ⟨hstate, ⟨?_, ?_, ?_, ?_, ?_⟩, ?_, ?_⟩
  · intro i hi
    obtain ⟨tid, -, rfl⟩ := hnone i hi
    trivial
  · rintro l hl ⟨i, hi, huses⟩
    obtain ⟨tid, -, rfl⟩ := hnone i (List.mem_flatten.mpr ⟨l, hl, hi⟩)
    exact huses.elim
  · rw [hflat, touched_receive]
    exact hids.nodup_iff.mpr (h.batch hb).2.tids
  · rw [hflat]
    intro p hp
    obtain ⟨i, hi, hout⟩ := List.mem_filterMap.mp hp
    obtain ⟨tid, htid, rfl⟩ := List.mem_map.mp hi
    cases hout
    obtain ⟨t, ht, rfl, hremote⟩ := h.mem_listenTransaction.mp (hids.mem_iff.mp htid)
    have hnot : t.tid ∉ srv.workloads.flatten.map Transaction.tid := by
      intro hmem
      obtain ⟨u, hu, heq⟩ := List.mem_map.mp hmem
      have hlocal := (h.mem_workloads.mp hu).2
      rw [heq, hremote] at hlocal
      cases hlocal
    rw [htxns]
    simp only [executedOf]
    rw [if_pos (List.mem_map_of_mem ht), if_neg hnot, txnsOf_tid hb.tids ht, executed_eq]
  · intro tid htid
    rw [hflat, touched_receive] at htid
    rw [htxns]
    unfold executedOf
    refine if_congr ⟨fun hmem => ?_, fun hmem => ?_⟩ rfl rfl
    · obtain ⟨t, ht, rfl⟩ := List.mem_map.mp hmem
      refine List.mem_map_of_mem (h.mem_workloads.mpr ⟨ht, ?_⟩)
      by_contra hc
      exact htid (hids.mem_iff.mpr (h.mem_listenTransaction.mpr
        ⟨t, ht, rfl, Bool.eq_false_of_not_eq_true hc⟩))
    · obtain ⟨t, ht, rfl⟩ := List.mem_map.mp hmem
      exact List.mem_map_of_mem (h.mem_workloads.mp ht).1
  · rw [hflat, requests_receive, List.append_nil]
    exact requests_ne_zero (h.batch hb).1
  · rw [hflat, entries_receive]
    exact entries_injOn h hb hids

/-! ## Reserving for them -/

theorem requests_aggregatePrograms {o : Tid → Transaction} {workloads : List (List Transaction)}
    (ho : ∀ t ∈ workloads.flatten, o t.tid = executed cc D t)
    (hnew : ∀ t ∈ workloads.flatten, t.transactionResult = .pending) :
    (workloads.map aggregateProgram).flatten.flatMap (Instr.requests cc D o) =
      epochRequests cc D workloads.flatten := by
  unfold aggregateProgram epochRequests
  rw [flatMap_listPrograms _ _ (fun _ => rfl), List.flatMap_def, List.flatMap_def]
  refine congrArg _ (List.map_congr_left fun t ht => ?_)
  simp only [Instr.requests, ho t ht, executed_result, executed_kvRWSet, hnew t ht]
  cases (cc t D).ret <;> simp

theorem entries_aggregatePrograms (o : Tid → Transaction) (workloads : List (List Transaction)) :
    (workloads.map aggregateProgram).flatten.flatMap (Instr.entries cc D o) = [] := by
  unfold aggregateProgram
  rw [flatMap_listPrograms _ _ (fun _ => rfl)]
  exact List.flatMap_eq_nil_iff.mpr fun _ _ => rfl

theorem aggregate_setup (h : srv.Prepared c ip e ts D) (hb : EpochBatch e ts)
    (hnew : ∀ t ∈ ts, t.transactionResult = .pending) {B : List BufferEntry}
    (hB : ∀ b ∈ B, ∀ b' ∈ B, b.tid = b'.tid → b = b')
    (hstate : ReadState D e (epochRequests cc D srv.workloads.flatten) B m)
    (htxns : m.txns = executedOf cc D ts (ts.map Transaction.tid)) :
    ReadSetup cc D e (epochRequests cc D srv.workloads.flatten) B m.txns m
        (srv.aggregationWorkloads.map aggregateProgram) ∧
      (srv.aggregationWorkloads.map aggregateProgram).flatten.flatMap
        (Instr.requests cc D m.txns) = epochRequests cc D srv.aggregationWorkloads.flatten := by
  obtain ⟨hlocal, hremote⟩ := h.batch hb
  have ho : ∀ t ∈ srv.aggregationWorkloads.flatten, m.txns t.tid = executed cc D t := by
    intro t ht
    have hts := (h.mem_aggregationWorkloads.mp ht).1
    rw [htxns]
    unfold executedOf
    rw [if_pos (List.mem_map_of_mem hts), txnsOf_tid hb.tids hts]
  have hreq := requests_aggregatePrograms ho fun t ht => hnew t (h.mem_aggregationWorkloads.mp ht).1
  have hplan := readPrograms_list cc D m.txns m.txns .aggregate hremote.epoch hremote.tids
    (fun _ => trivial) (fun _ => rfl)
  simp only [ite_self] at hplan
  refine ⟨⟨hstate, hplan, ?_, ?_⟩, hreq⟩
  · rw [hreq]
    intro r hr
    rcases List.mem_append.mp hr with hr | hr
    · exact requests_ne_zero hlocal r hr
    · exact requests_ne_zero hremote r hr
  · rw [entries_aggregatePrograms, List.append_nil]
    exact hB

section Cluster

variable {servers : Bytes → AggregationServer} {others : List Bytes}

/-- The others broadcast what this server listens for. -/
theorem broadcasts_perm_listen
    (h : ∀ ip ∈ c.clusterIPs, (servers ip).Prepared c ip e ts D) (hb : EpochBatch e ts)
    (hip : ip ∈ c.clusterIPs) (hothers : others.Perm (c.clusterIPs.erase ip)) :
    (others.flatMap fun ip' => (servers ip').broadcastTransaction).Perm
      (servers ip).listenTransaction := by
  have hmem : ∀ ip', ip' ∈ others ↔ ip' ≠ ip ∧ ip' ∈ c.clusterIPs := by
    intro ip'
    rw [hothers.mem_iff, c.unique.mem_erase_iff]
  refine (List.perm_ext_iff_of_nodup ?_ ?_).mpr fun tid => ?_
  · refine List.nodup_flatMap.mpr ⟨fun ip' hip' => ?_, ?_⟩
    · exact (h ip' ((hmem ip').mp hip').2).nodup_broadcastTransaction hb
    · have hnd : others.Nodup := hothers.nodup_iff.mpr (c.unique.erase ip)
      refine hnd.imp_of_mem fun {a b} ha hb' hab => ?_
      intro tid hta htb
      obtain ⟨-, -, -, hla⟩ := (h a ((hmem a).mp ha).2).mem_broadcastTransaction.mp hta
      obtain ⟨-, -, -, hlb⟩ := (h b ((hmem b).mp hb').2).mem_broadcastTransaction.mp htb
      exact hab ((existsUnique_isLocalTransaction c tid).unique ⟨((hmem a).mp ha).2, hla⟩
        ⟨((hmem b).mp hb').2, hlb⟩)
  · exact ((h ip hip).batch hb).2.tids
  · rw [List.mem_flatMap]
    constructor
    · rintro ⟨ip', hip', htid⟩
      obtain ⟨hne, hip'⟩ := (hmem ip').mp hip'
      exact mem_listen_of_broadcast (h ip hip) (h ip' hip') hip hip' (Ne.symm hne) htid
    · intro htid
      obtain ⟨t, ht, rfl, hremote⟩ := (h ip hip).mem_listenTransaction.mp htid
      obtain ⟨ip', ⟨hip', hlocal⟩, -⟩ := existsUnique_isLocalTransaction c t.tid
      have hne : ip' ≠ ip := by
        rintro rfl
        rw [hremote] at hlocal
        cases hlocal
      exact ⟨ip', (hmem ip').mpr ⟨hne, hip'⟩,
        (h ip' hip').mem_broadcastTransaction.mpr ⟨t, ht, rfl, hlocal⟩⟩

theorem flatten_receivePrograms (others : List Bytes) (step : Tid → Instr) :
    (others.map fun ip' => (servers ip').broadcastTransaction.map step).flatten =
      (others.flatMap fun ip' => (servers ip').broadcastTransaction).map step := by
  rw [← List.flatMap_def, List.map_flatMap]

/-! ## The epoch at one server -/

variable {read : Bytes → EpochState}

/-- What the servers have when their read phases have ended. -/
structure AfterRead (cc : Chaincode) (c : AggregationCluster) (e : Epoch) (ts : List Transaction)
    (D : Storage) (servers : Bytes → AggregationServer) (read : Bytes → EpochState) : Prop where
  batch : EpochBatch e ts
  pending : ∀ t ∈ ts, t.transactionResult = .pending
  prepared : ∀ ip ∈ c.clusterIPs, (servers ip).Prepared c ip e ts D
  readPhase : ∀ ip ∈ c.clusterIPs, ∃ as, (servers ip).readPhase cc ts as = some (read ip)

section

variable (h : AfterRead cc c e ts D servers read) (hip : ip ∈ c.clusterIPs)
  (hothers : others.Perm (c.clusterIPs.erase ip))

include h hip hothers

/-- The programs of the pool workers. -/
theorem AfterRead.programs (msg : KVRWSetFormat) :
    (others.map fun ip' => (servers ip').exchange msg e (read ip')).mapM
        ((servers ip).receiveProgram msg e) =
      some (others.map fun ip' => (servers ip').broadcastTransaction.map
        (receiveSet cc D ts (receivedSet cc msg D))) := by
  refine mapM_eq_some_map fun ip' hip' => ?_
  obtain ⟨hne, hmem⟩ := (c.unique.mem_erase_iff).mp (hothers.mem_iff.mp hip')
  obtain ⟨as, has⟩ := h.readPhase ip' hmem
  exact receiveProgram_exchange (h.prepared ip hip) (h.prepared ip' hmem) h.batch h.pending hip hmem
    (Ne.symm hne) has

theorem AfterRead.programs_of_roundTrip (hmsg : RoundTrip cc msg D ts) :
    (others.map fun ip' => (servers ip').exchange msg e (read ip')).mapM
        ((servers ip).receiveProgram msg e) =
      some (others.map fun ip' => (servers ip').broadcastTransaction.map (receiveOf cc D ts)) := by
  rw [h.programs hip hothers msg]
  refine congrArg some (List.map_congr_left fun ip' hip' => List.map_congr_left fun tid htid => ?_)
  have hmem := List.mem_of_mem_erase (hothers.mem_iff.mp hip')
  obtain ⟨t, ht, rfl, -⟩ := (h.prepared ip' hmem).mem_broadcastTransaction.mp htid
  simp only [receiveOf, receiveSet, txnsOf_tid h.batch.tids ht, hmsg t ht]

theorem AfterRead.receive_setup :
    ReadSetup cc D e (epochRequests cc D (servers ip).workloads.flatten)
      ((servers ip).workloads.flatten.map (entryOf cc D)) (executedOf cc D ts (ts.map Transaction.tid))
      (read ip)
      (others.map fun ip' => (servers ip').broadcastTransaction.map (receiveOf cc D ts)) := by
  obtain ⟨as, has⟩ := h.readPhase ip hip
  obtain ⟨hstate, htxns, -⟩ := readPhase_txns (h.prepared ip hip) h.batch has
  exact Server.receive_setup (h.prepared ip hip) h.batch hstate htxns
    (flatten_receivePrograms others _) (broadcasts_perm_listen h.prepared h.batch hip hothers)

/-- After `aggregateTransaction` everything has been executed, here or elsewhere. -/
theorem AfterRead.receive_state (hmsg : RoundTrip cc msg D ts)
    (hrun : (servers ip).aggregateTransaction cc msg e (read ip)
      (others.map fun ip' => (servers ip').exchange msg e (read ip')) as = some m) :
    ∃ ids : List Tid, ids.Perm (servers ip).listenTransaction ∧
      ReadState D e (epochRequests cc D (servers ip).workloads.flatten)
        ((servers ip).workloads.flatten.map (entryOf cc D) ++ ids.map (receivedEntry cc D ts)) m ∧
      m.txns = executedOf cc D ts (ts.map Transaction.tid) ∧
      ((servers ip).workloads.flatten ≠ [] → m.Fetched e) := by
  have hsetup := h.receive_setup hip hothers
  unfold AggregationServer.aggregateTransaction at hrun
  rw [if_neg (Nat.ne_of_lt (h.prepared ip hip).broadcastEpoch),
    h.programs_of_roundTrip hip hothers hmsg] at hrun
  obtain ⟨hstate, htxns⟩ := readPhase_state hsetup hrun
  rw [flatten_receivePrograms, requests_receive, entries_receive, List.append_nil] at hstate
  refine ⟨_, broadcasts_perm_listen h.prepared h.batch hip hothers, hstate, htxns, fun hne => ?_⟩
  obtain ⟨as', has⟩ := h.readPhase ip hip
  exact readPhase_fetched hsetup.plan.source
    (Or.inl ((readPhase_txns (h.prepared ip hip) h.batch has).2.2 hne)) hrun

/-- When the aggregation workers have reserved, the epoch is executed as on a single server. -/
theorem AfterRead.executed (htab : cc.TwoFieldTables) (hmsg : RoundTrip cc msg D ts)
    {as' : List (Nat × Bool)}
    (hreceive : (servers ip).aggregateTransaction cc msg e (read ip)
      (others.map fun ip' => (servers ip').exchange msg e (read ip')) as = some m)
    (haggregate : (servers ip).aggregatePhase cc m as' = some m') : EpochExecuted cc D e ts m' := by
  have hprep := h.prepared ip hip
  obtain ⟨ids, hids, hstate, htxns, hfetched⟩ := h.receive_state hip hothers hmsg hreceive
  obtain ⟨hsetup, hreq⟩ := aggregate_setup hprep h.batch h.pending
    (entries_injOn hprep h.batch hids) hstate htxns
  obtain ⟨hstate', htxns'⟩ := readPhase_state hsetup haggregate
  rw [hreq, entries_aggregatePrograms, List.append_nil] at hstate'
  refine ⟨hstate'.storage, ?_, fun hne => ?_, fun t ht => ?_, fun t ht => ?_⟩
  · have hleast : ShowsLeast (m'.table e) (epochRequests cc D (servers ip).workloads.flatten ++
        epochRequests cc D (servers ip).aggregationWorkloads.flatten) := hstate'.least
    refine hleast.congr fun r => ?_
    unfold epochRequests
    rw [← List.flatMap_append, ← List.flatten_append]
    exact mem_epochRequests_perm hprep.perm
  · refine readPhase_fetched hsetup.plan.source ?_ haggregate
    by_cases hlocal : (servers ip).workloads.flatten = []
    · right
      refine mem_getReserveTable (hprep.batch h.batch).2.epoch fun hremote => hne ?_
      have hperm := hprep.perm
      rw [List.flatten_append, hlocal, hremote] at hperm
      exact List.nil_perm.mp hperm
    · exact Or.inl (hfetched hlocal)
  · rw [htxns', htxns]
    unfold executedOf
    rw [if_pos (List.mem_map_of_mem ht), txnsOf_tid h.batch.tids ht]
  · unfold Ready
    rw [executed_tid, executed_kvRWSet]
    by_cases hlocal : c.isLocalTransaction ip t.tid = true
    · refine ⟨(cc t D).tableList, ?_, htab t D⟩
      exact hstate'.buffered (entryOf cc D t) (List.mem_append_left _
        (List.mem_map_of_mem (hprep.mem_workloads.mpr ⟨ht, hlocal⟩)))
    · refine ⟨[], ?_, by simp⟩
      have htid : t.tid ∈ ids := hids.mem_iff.mpr (hprep.mem_listenTransaction.mpr
        ⟨t, ht, rfl, Bool.eq_false_of_not_eq_true hlocal⟩)
      have := hstate'.buffered (receivedEntry cc D ts t.tid)
        (List.mem_append_right _ (List.mem_map_of_mem htid))
      unfold receivedEntry at this
      rwa [txnsOf_tid h.batch.tids ht] at this

end

/-- No server gets stuck after its read phase. -/
theorem AfterRead.completes (h : AfterRead cc c e ts D servers read) (htab : cc.TwoFieldTables)
    (hmsg : RoundTrip cc msg D ts) (hip : ip ∈ c.clusterIPs) :
    ∃ (others : List Bytes) (sched : AggregationSchedule) (s : EpochState),
      others.Perm (c.clusterIPs.erase ip) ∧ (servers ip).finishEpoch cc msg e (read ip)
        (others.map fun ip' => (servers ip').exchange msg e (read ip')) sched = some s := by
  have hprep := h.prepared ip hip
  have hothers := List.Perm.refl (c.clusterIPs.erase ip)
  obtain ⟨as₁, m₁, hm₁⟩ := readPhase_completes (h.receive_setup hip hothers) run_nil
  have hreceive : (servers ip).aggregateTransaction cc msg e (read ip)
      ((c.clusterIPs.erase ip).map fun ip' => (servers ip').exchange msg e (read ip'))
      ([] ++ as₁) = some m₁ := by
    unfold AggregationServer.aggregateTransaction
    rw [if_neg (Nat.ne_of_lt hprep.broadcastEpoch), h.programs_of_roundTrip hip hothers hmsg]
    exact hm₁
  obtain ⟨ids, hids, hstate, htxns, -⟩ := h.receive_state hip hothers hmsg hreceive
  obtain ⟨as₂, m₂, hm₂⟩ := readPhase_completes (aggregate_setup hprep h.batch h.pending
    (entries_injOn hprep h.batch hids) hstate htxns).1 run_nil
  have hready := (h.executed hip hothers htab hmsg hreceive hm₂).commitReady h.batch hprep.perm
  obtain ⟨as₃, s, hs⟩ := commitPhase_completes cc hready run_nil
  refine ⟨_, { receive := [] ++ as₁, aggregate := [] ++ as₂, commit := [] ++ as₃ }, s, hothers, ?_⟩
  unfold AggregationServer.finishEpoch
  rw [hreceive, Option.bind_some, show (servers ip).aggregatePhase cc m₁ _ = some m₂ from hm₂]
  exact hs

theorem exists_readPhase (cc : Chaincode) (h : srv.Prepared c ip e ts D) (hb : EpochBatch e ts) :
    ∃ as m, srv.readPhase cc ts as = some m := by
  have ho : ∀ t ∈ srv.workloads.flatten, txnsOf ts t.tid = t :=
    fun t ht => txnsOf_tid hb.tids (h.mem_workloads.mp ht).1
  obtain ⟨as, m, hm⟩ := readPhase_completes (execute_setup cc (h.batch hb).1 ho h.fresh) run_nil
  exact ⟨_, m, hm⟩

/-! ## What becomes of a read-write set -/

/-- The instruction leaves transaction `tid` its read-write set, or gives it `rw`. -/
def Instr.Keeps (tid : Tid) (rw : KVRWSet) : Instr → Prop
  | .invokeChaincode tid' => tid' ≠ tid
  | .receiveNode tid' _ rw' => tid' = tid → rw' = rw
  | _ => True

/-- Transaction `tid` has or will get `rw`. -/
structure SetComing (tid : Tid) (rw : KVRWSet) (s : EpochState) (todo : List Instr) : Prop where
  keeps : ∀ i ∈ todo, i.Keeps tid rw
  coming : (s.txns tid).kvRWSet = rw ∨ ∃ result, .receiveNode tid result rw ∈ todo

theorem setTxn_kvRWSet {s : EpochState} {tid tid' : Tid} (ht : t.kvRWSet = (s.txns tid').kvRWSet) :
    ((s.setTxn tid' t).txns tid).kvRWSet = (s.txns tid).kvRWSet := by
  by_cases htid : tid = tid'
  · subst htid
    simp [EpochState.setTxn, ht]
  · simp [EpochState.setTxn, htid]

theorem exec_setComing {tid : Tid} {rw : KVRWSet} {s s' : EpochState} {i : Instr} {spurious : Bool}
    {next rest : List Instr} (h : SetComing tid rw s (i :: rest))
    (hexec : exec cc s i spurious = some (s', next)) : SetComing tid rw s' (next ++ rest) := by
  have hrest : ∀ j ∈ rest, j.Keeps tid rw := fun j hj => h.keeps j (List.mem_cons_of_mem i hj)
  -- all but the two instructions that write a set
  have hkeep : (s'.txns tid).kvRWSet = (s.txns tid).kvRWSet → (∀ j ∈ next, j.Keeps tid rw) →
      (∀ result, i ≠ .receiveNode tid result rw) → SetComing tid rw s' (next ++ rest) := by
    intro htxn hnext hne
    refine ⟨fun j hj => (List.mem_append.mp hj).elim (hnext j) (hrest j), ?_⟩
    rcases h.coming with hset | ⟨result, hmem⟩
    · exact Or.inl (htxn.trans hset)
    · have hmem := (List.mem_cons.mp hmem).resolve_left (Ne.symm (hne result))
      exact Or.inr ⟨result, List.mem_append_right _ hmem⟩
  cases i with
  | receiveNode tid' result rw' =>
      cases hexec
      have hhead := h.keeps _ List.mem_cons_self
      by_cases htid : tid' = tid
      · obtain rfl := hhead htid
        subst htid
        refine ⟨List.forall_mem_cons.mpr ⟨trivial, hrest⟩, Or.inl ?_⟩
        simp [EpochState.setTxn]
      · refine hkeep ?_ (by simp [Instr.Keeps]) fun _ heq => htid (Instr.receiveNode.inj heq).1
        simp [EpochState.setTxn, Ne.symm htid]
  | invokeChaincode tid' =>
      cases hexec
      have hne : tid' ≠ tid := h.keeps _ List.mem_cons_self
      refine hkeep ?_ (fun j hj => ?_) (by simp)
      · simp [EpochState.setTxn, Ne.symm hne]
      · rcases List.mem_append.mp hj with hj | hj
        · split at hj
          · obtain ⟨r, -, rfl⟩ := List.mem_map.mp hj
            trivial
          · cases hj
        · split at hj
          · cases hj
          · cases List.mem_singleton.mp hj
            trivial
  | aggregate tid' =>
      cases hexec
      refine hkeep rfl (fun j hj => ?_) (by simp)
      split at hj
      · cases hj
      · obtain ⟨r, -, rfl⟩ := List.mem_map.mp hj
        trivial
  | load r =>
      obtain ⟨rt, -, heq⟩ := Option.map_eq_some_iff.mp hexec
      cases heq
      exact hkeep rfl (by simp [Instr.Keeps]) (by simp)
  | compareExchange r old =>
      obtain ⟨rt, -, heq⟩ := Option.map_eq_some_iff.mp hexec
      cases heq
      exact hkeep rfl (by simp [Instr.Keeps]) (by simp)
  | commitTransaction tid' =>
      unfold exec at hexec
      dsimp only at hexec
      split at hexec
      · cases hexec
        exact hkeep rfl (by simp) (by simp)
      · obtain ⟨rt, -, heq⟩ := Option.map_eq_some_iff.mp hexec
        split_ifs at heq <;> cases heq
        · exact hkeep (setTxn_kvRWSet rfl) (by simp) (by simp)
        · exact hkeep rfl (by simp [Instr.Keeps]) (by simp)
        · exact hkeep (setTxn_kvRWSet rfl) (by simp) (by simp)
  | commitUpdate tid' =>
      obtain ⟨-, hexec⟩ := Option.ite_none_right_eq_some.mp hexec
      obtain ⟨rw', -, heq⟩ := Option.map_eq_some_iff.mp hexec
      cases heq
      refine hkeep rfl (fun j hj => ?_) (by simp)
      rcases List.mem_append.mp hj with hj | hj
      · obtain ⟨w, -, rfl⟩ := List.mem_map.mp hj
        trivial
      · cases List.mem_singleton.mp hj
        trivial
  | bufferUpdates b =>
      cases hexec
      refine hkeep rfl (fun j hj => ?_) (by simp)
      rw [List.mem_singleton.mp hj]
      split <;> trivial
  | setResult tid' result => cases hexec; exact hkeep (setTxn_kvRWSet rfl) (by simp) (by simp)
  | getReserveTable epoch => cases hexec; exact hkeep rfl (by simp) (by simp)
  | clearBufferThreadSafe b => cases hexec; exact hkeep rfl (by simp [Instr.Keeps]) (by simp)
  | insertBuffer b => cases hexec; exact hkeep rfl (by simp) (by simp)
  | write w => cases hexec; exact hkeep rfl (by simp) (by simp)

/-- At the end of a phase the set has come. -/
theorem runPhase_kvRWSet {tid : Tid} {rw : KVRWSet} {programs : List (List Instr)}
    (h : SetComing tid rw m programs.flatten)
    (hrun : runPhase (exec cc) m programs as = some m') : (m'.txns tid).kvRWSet = rw := by
  have hend := runPhase_todo (SetComing tid rw)
    (fun _ _ _ hp h => ⟨fun i hi => h.keeps i (hp.mem_iff.mpr hi),
      h.coming.imp_right fun ⟨result, hmem⟩ => ⟨result, hp.mem_iff.mp hmem⟩⟩)
    (fun _ _ _ _ _ _ h hexec => exec_setComing h hexec) hrun h
  exact hend.coming.resolve_right fun ⟨_, hmem⟩ => absurd hmem List.not_mem_nil

/-- A transaction of another server keeps what was left of its set. -/
theorem AfterRead.kvRWSet_of_remote (h : AfterRead cc c e ts D servers read)
    (hip : ip ∈ c.clusterIPs) (hothers : others.Perm (c.clusterIPs.erase ip))
    {sched : AggregationSchedule}
    (hfinish : (servers ip).finishEpoch cc msg e (read ip)
      (others.map fun ip' => (servers ip').exchange msg e (read ip')) sched = some m')
    (ht : t ∈ ts) (hremote : c.isLocalTransaction ip t.tid = false) :
    (m'.txns t.tid).kvRWSet = receivedSet cc msg D t := by
  have hprep := h.prepared ip hip
  obtain ⟨m₁, hreceive, hrest⟩ := Option.bind_eq_some_iff.mp hfinish
  obtain ⟨m₂, haggregate, hcommit⟩ := Option.bind_eq_some_iff.mp hrest
  unfold AggregationServer.aggregateTransaction at hreceive
  rw [if_neg (Nat.ne_of_lt hprep.broadcastEpoch), h.programs hip hothers msg] at hreceive
  have hcoming : SetComing t.tid (receivedSet cc msg D t) (read ip)
      (others.map fun ip' => (servers ip').broadcastTransaction.map
        (receiveSet cc D ts (receivedSet cc msg D))).flatten := by
    rw [flatten_receivePrograms]
    refine ⟨fun i hi => ?_, Or.inr ⟨(Server.executed cc D t).transactionResult, ?_⟩⟩
    · obtain ⟨tid, -, rfl⟩ := List.mem_map.mp hi
      rintro rfl
      rw [txnsOf_tid h.batch.tids ht]
    · have hmem : t.tid ∈ others.flatMap fun ip' => (servers ip').broadcastTransaction :=
        (broadcasts_perm_listen h.prepared h.batch hip hothers).mem_iff.mpr
          (hprep.mem_listenTransaction.mpr ⟨t, ht, rfl, hremote⟩)
      have hstep : receiveSet cc D ts (receivedSet cc msg D) t.tid ∈ _ := List.mem_map_of_mem hmem
      rwa [receiveSet, txnsOf_tid h.batch.tids ht] at hstep
  -- the set comes with `aggregateTransaction`, and no instruction of the other phases writes one
  have h₁ := runPhase_kvRWSet hcoming hreceive
  have h₂ := runPhase_kvRWSet ⟨fun i hi => ?_, Or.inl h₁⟩ haggregate
  · refine runPhase_kvRWSet ⟨fun i hi => ?_, Or.inl h₂⟩ hcommit
    obtain ⟨l, hl, hi⟩ := List.mem_flatten.mp hi
    obtain ⟨ts', -, rfl⟩ := List.mem_map.mp hl
    obtain ⟨u, -, rfl⟩ := List.mem_map.mp hi
    trivial
  · obtain ⟨l, hl, hi⟩ := List.mem_flatten.mp hi
    obtain ⟨ts', -, rfl⟩ := List.mem_map.mp hl
    rcases ts' with _ | ⟨u, ts'⟩
    · cases hi
    · rcases List.mem_cons.mp hi with rfl | hi
      · trivial
      · obtain ⟨v, -, rfl⟩ := List.mem_map.mp hi
        trivial

/-! ## The two modes -/

/-- Aggregation mode equals the plain mode: `plain` runs all of `ts` by itself. -/
def AggregationEqualsPlain (cc : Chaincode) (msg : KVRWSetFormat) (c : AggregationCluster)
    (e : Epoch) (ts : List Transaction) (servers : Bytes → AggregationServer) (plain : ServerState)
    (workloads : List (List Transaction)) : Prop :=
  (∀ tid, ∃! ip, ip ∈ c.clusterIPs ∧ c.isLocalTransaction ip tid = true) ∧
  (∃ read final, ClusterRun cc msg c e ts servers read final) ∧
  (∃ as bs r, runConcurrent cc plain workloads as bs = some r) ∧
  ∀ read final as bs r, ClusterRun cc msg c e ts servers read final →
    runConcurrent cc plain workloads as bs = some r → ∀ ip ∈ c.clusterIPs,
      (∀ t ∈ ts, (final ip).txns t.tid = r.txns t.tid) ∧
      (final ip).db.storage = r.db.storage

variable {plain : ServerState} {workloads : List (List Transaction)}

theorem equalsPlain_of_roundTrip (htab : cc.TwoFieldTables) (hb : EpochBatch e ts)
    (hnew : ∀ t ∈ ts, t.transactionResult = .pending)
    (hservers : ∀ ip ∈ c.clusterIPs, (servers ip).Prepared c ip e ts plain.db.storage)
    (hplain : workloads.flatten.Perm ts) (hfresh : plain.Fresh e)
    (hmsg : RoundTrip cc msg plain.db.storage ts) :
    AggregationEqualsPlain cc msg c e ts servers plain workloads := by
  have hb' := hb.perm hplain.symm
  refine ⟨existsUnique_isLocalTransaction c, ?_, ?_, ?_⟩
  · -- one state for each server
    have hread : ∀ ip, ∃ m, ip ∈ c.clusterIPs → ∃ as, (servers ip).readPhase cc ts as = some m := by
      intro ip
      by_cases hip : ip ∈ c.clusterIPs
      · obtain ⟨as, m, hm⟩ := exists_readPhase cc (hservers ip hip) hb
        exact ⟨m, fun _ => ⟨as, hm⟩⟩
      · exact ⟨plain.begin ts, fun h => absurd h hip⟩
    choose read hread using hread
    have hafter : AfterRead cc c e ts plain.db.storage servers read :=
      ⟨hb, hnew, hservers, hread⟩
    have hfinal : ∀ ip, ∃ s, ip ∈ c.clusterIPs → ∃ (others : List Bytes)
        (sched : AggregationSchedule), others.Perm (c.clusterIPs.erase ip) ∧
        (servers ip).finishEpoch cc msg e (read ip)
          (others.map fun ip' => (servers ip').exchange msg e (read ip')) sched = some s := by
      intro ip
      by_cases hip : ip ∈ c.clusterIPs
      · obtain ⟨others, sched, s, hperm, hs⟩ := hafter.completes htab hmsg hip
        exact ⟨s, fun _ => ⟨others, sched, hperm, hs⟩⟩
      · exact ⟨plain.begin ts, fun h => absurd h hip⟩
    choose final hfinal using hfinal
    exact ⟨read, final, hread, hfinal⟩
  · obtain ⟨bs, as', r, hr⟩ := runConcurrent_completes htab hb' hfresh run_nil
    exact ⟨_, as', r, hr⟩
  · intro read final as bs r hcluster hrun ip hip
    have hafter : AfterRead cc c e ts plain.db.storage servers read :=
      ⟨hb, hnew, hservers, hcluster.readPhase⟩
    have hleast := hfresh.reservations_least cc hb.tid_ne_zero
    obtain ⟨hst, htx⟩ := runConcurrent_eq htab hb' hfresh hrun hplain hleast
    obtain ⟨others, sched, hothers, hfinish⟩ := hcluster.finishEpoch ip hip
    unfold AggregationServer.finishEpoch at hfinish
    obtain ⟨m₁, hreceive, hrest⟩ := Option.bind_eq_some_iff.mp hfinish
    obtain ⟨m₂, haggregate, hcommit⟩ := Option.bind_eq_some_iff.mp hrest
    obtain ⟨hst', htx'⟩ := (hafter.executed hip hothers htab hmsg hreceive haggregate).commit hb
      hleast (hservers ip hip).perm hcommit
    exact ⟨fun t ht => (htx' t ht).trans (htx t ht).symm, hst'.trans hst.symm⟩

/-- There is another server, and it has what was left of the set. -/
theorem roundTrip_of_equalsPlain (htab : cc.TwoFieldTables) (hb : EpochBatch e ts)
    (hnew : ∀ t ∈ ts, t.transactionResult = .pending)
    (hservers : ∀ ip ∈ c.clusterIPs, (servers ip).Prepared c ip e ts plain.db.storage)
    (hplain : workloads.flatten.Perm ts) (hfresh : plain.Fresh e)
    (h : AggregationEqualsPlain cc msg c e ts servers plain workloads) :
    RoundTrip cc msg plain.db.storage ts := by
  obtain ⟨-, ⟨read, final, hcluster⟩, ⟨as, bs, r, hrun⟩, hsame⟩ := h
  have hafter : AfterRead cc c e ts plain.db.storage servers read :=
    ⟨hb, hnew, hservers, hcluster.readPhase⟩
  have hleast := hfresh.reservations_least cc hb.tid_ne_zero
  obtain ⟨-, htx⟩ := runConcurrent_eq htab (hb.perm hplain.symm) hfresh hrun hplain hleast
  intro t ht
  obtain ⟨ip, hip, hremote⟩ := exists_remote c t.tid
  obtain ⟨others, sched, hothers, hfinish⟩ := hcluster.finishEpoch ip hip
  rw [← hafter.kvRWSet_of_remote hip hothers hfinish ht hremote,
    (hsame read final as bs r hcluster hrun ip hip).1 t ht, htx t ht, finished_kvRWSet]

/-- Aggregation mode equals the plain mode exactly if the read-write sets of the epoch are read back
    as they were. -/
theorem aggregation_equals_plain_iff (htab : cc.TwoFieldTables) (hb : EpochBatch e ts)
    (hnew : ∀ t ∈ ts, t.transactionResult = .pending)
    (hservers : ∀ ip ∈ c.clusterIPs, (servers ip).Prepared c ip e ts plain.db.storage)
    (hplain : workloads.flatten.Perm ts) (hfresh : plain.Fresh e) :
    AggregationEqualsPlain cc msg c e ts servers plain workloads ↔
      RoundTrip cc msg plain.db.storage ts :=
  ⟨roundTrip_of_equalsPlain htab hb hnew hservers hplain hfresh,
    equalsPlain_of_roundTrip htab hb hnew hservers hplain hfresh⟩

end Cluster

end

/-! ## Two servers -/

def twoServers : AggregationCluster where
  clusterIPs := [[2], [1]]
  count := by decide
  unique := by decide
  terminated := by decide

/-- The strings of a repeated field. -/
def repeatedBytes (number : Nat) (raw : Bytes) : List Bytes :=
  (mergeUntil (fun strings f =>
    match f.value with
    | .bytes data => (true, if f.number = number then strings ++ [data] else strings)
    | .varint _ => (true, strings)) [] raw).2

/-- The messages of `tpc-c.proto` on the wire; YCSB draws no random numbers. -/
def ycsbEnv : ChaincodeEnv where
  reads := repeatedBytes 1
  update := repeatedBytes 2
  values raw := (repeatedBytes 1 raw).map fun pair =>
    ((repeatedBytes 1 pair).getLastD [], (repeatedBytes 2 pair).getLastD [])
  serializeValues pairs := writeFields (pairs.map fun p =>
    { number := 1, value := .bytes (writeFields (bytesField 1 p.1 ++ bytesField 2 p.2)) })
  walk := id
  next _ _ := 0
  aString _ _ := []

def ycsbChaincode : Chaincode := chaincodeOf (invokeChaincode ycsbEnv .ycsb)

/-- A `write` of the field `f` under a key of one byte. -/
def ycsbWrite (tid : Tid) (key : UInt8) : Transaction where
  epoch := 5
  tid := tid
  readOnlyFlag := false
  transactionPayload :=
    { header := ascii "write"
      payload := writeFields [{ number := 1, value := .bytes [key] },
        { number := 1, value := .bytes (ycsbEnv.serializeValues [(ascii "f", ascii "x")]) }] }

/-- Server `[1]` executes transaction 2, server `[2]` transaction 1. -/
def ycsbEpoch (key : UInt8) : List Transaction := [ycsbWrite 1 0x61, ycsbWrite 2 key]

def ycsbServer (key : UInt8) (ip : Bytes) : AggregationServer where
  state := { db := { storage := fun _ => none } }
  broadcastEpoch := 4
  workloads := [(ycsbEpoch key).filter (twoServers.isLocalTransaction ip ·.tid)]
  aggregationWorkloads := [(ycsbEpoch key).filter (!twoServers.isLocalTransaction ip ·.tid)]

theorem ycsbServer_prepared (key : UInt8) : ∀ ip ∈ twoServers.clusterIPs,
    (ycsbServer key ip).Prepared twoServers ip 5 (ycsbEpoch key) fun _ => none := by
  intro ip _
  refine ⟨rfl, (fun _ h => by cases h), Nat.lt_succ_self 4, ?_, ?_⟩
  · exact List.Perm.of_eq (List.append_nil _)
  · exact List.Perm.of_eq (List.append_nil _)

theorem ycsbEpoch_batch (key : UInt8) :
    EpochBatch 5 (ycsbEpoch key) ∧ ∀ t ∈ ycsbEpoch key, t.transactionResult = .pending := by
  refine ⟨⟨?_, ?_, ?_, ?_⟩, ?_⟩ <;> simp [ycsbEpoch, ycsbWrite]

/-- Keys `a` and `b`. -/
theorem aggregation_equals_plain_ascii :
    AggregationEqualsPlain ycsbChaincode .protobuf twoServers 5 (ycsbEpoch 0x62) (ycsbServer 0x62)
      { db := { storage := fun _ => none } } [ycsbEpoch 0x62] := by
  have hstrings : ∀ t ∈ ycsbEpoch 0x62,
      ((∀ r ∈ (ycsbChaincode t fun _ => none).kvRWSet.reads,
          validUTF8 r.table = true ∧ validUTF8 r.key = true) ∧
        ∀ w ∈ (ycsbChaincode t fun _ => none).kvRWSet.writes,
          validUTF8 w.table = true ∧ validUTF8 w.key = true) ∧
      (ycsbChaincode t fun _ => none).kvRWSet.serializeAsString.length < 2 ^ 31 := by
    decide +kernel
  have hmsg : RoundTrip ycsbChaincode .protobuf (fun _ => none) (ycsbEpoch 0x62) := by
    intro t ht
    obtain ⟨⟨hreads, hwrites⟩, hlen⟩ := hstrings t ht
    exact congrArg Prod.snd (KVRWSet.parse_serialize ⟨hreads, hwrites⟩ hlen)
  exact (aggregation_equals_plain_iff (chaincodes_twoFieldTables ycsbEnv .ycsb)
    (ycsbEpoch_batch 0x62).1 (ycsbEpoch_batch 0x62).2 (ycsbServer_prepared 0x62)
    (List.Perm.of_eq (List.append_nil _)) (fun _ h => by cases h)).mpr hmsg

/-- Key `\xc8` is not UTF-8. Server `[2]` is left with the read, and commits without the write. -/
theorem aggregation_loses_write :
    (∀ ip ∈ twoServers.clusterIPs,
      (ycsbServer 0xC8 ip).Prepared twoServers ip 5 (ycsbEpoch 0xC8) fun _ => none) ∧
    EpochBatch 5 (ycsbEpoch 0xC8) ∧
    receivedSet ycsbChaincode .protobuf (fun _ => none) (ycsbWrite 2 0xC8) =
      { reads := [{ table := YCSB.ycsb, key := [0xC8], value := [] }], writes := [] } ∧
    (ycsbChaincode (ycsbWrite 2 0xC8) fun _ => none).kvRWSet.writes.map KVWrite.cell =
      [(YCSB.ycsb, [0xC8])] ∧
    ¬ AggregationEqualsPlain ycsbChaincode .protobuf twoServers 5 (ycsbEpoch 0xC8) (ycsbServer 0xC8)
      { db := { storage := fun _ => none } } [ycsbEpoch 0xC8] := by
  have hleft : receivedSet ycsbChaincode .protobuf (fun _ => none) (ycsbWrite 2 0xC8) =
      { reads := [{ table := YCSB.ycsb, key := [0xC8], value := [] }], writes := [] } := by
    decide +kernel
  have hwrites : (ycsbChaincode (ycsbWrite 2 0xC8) fun _ => none).kvRWSet.writes.map KVWrite.cell =
      [(YCSB.ycsb, [0xC8])] := by
    decide +kernel
  refine ⟨ycsbServer_prepared 0xC8, (ycsbEpoch_batch 0xC8).1, hleft, hwrites, fun hequal => ?_⟩
  have hback : receivedSet ycsbChaincode .protobuf (fun _ => none) (ycsbWrite 2 0xC8) =
      (ycsbChaincode (ycsbWrite 2 0xC8) fun _ => none).kvRWSet :=
    roundTrip_of_equalsPlain (chaincodes_twoFieldTables ycsbEnv .ycsb) (ycsbEpoch_batch 0xC8).1
      (ycsbEpoch_batch 0xC8).2 (ycsbServer_prepared 0xC8) (List.Perm.of_eq (List.append_nil _))
      (fun _ h => by cases h) hequal (ycsbWrite 2 0xC8) (List.mem_cons_of_mem _ List.mem_cons_self)
  rw [hleft] at hback
  rw [← hback] at hwrites
  cases hwrites

end NeuChain.Server
