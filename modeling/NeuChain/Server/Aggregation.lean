/-
  Aggregation mode: the servers of one organisation share the chaincodes of an epoch.

  A transaction is executed by the server whose `localID` is its id modulo the number of servers. After
  its read phase a server sends the results and read-write sets of its own transactions to the
  others, and takes theirs (`aggregateTransaction`): as many pool workers as there are other
  servers handle one message each. Aggregation workers then reserve for the transactions of the
  others, and the commit phase is as in the plain mode.

  The local message is built while the pool workers run. They touch other transactions, so it is
  what it would be at the end of the read phase. A read-write set travels as the string of its
  message; the receiver keeps what it could parse of it.

  * `existsUnique_isLocalTransaction`: every transaction is local to exactly one server.
-/
import NeuChain.Codec
import NeuChain.RWSetFormat
import NeuChain.Lib.Rank
import NeuChain.Server.ConcurrentEpoch
import Mathlib.Data.List.Lex
import Mathlib.Data.List.Sort

namespace NeuChain.Server

open NeuChain NeuChain.Lib

/-! ## Which server executes a transaction -/

/-- `strcmp(x.data(), y.data())`: after its last byte a string has a zero. -/
def strcmp : Bytes → Bytes → Int
  | [], [] => 0
  | [], b :: _ => 0 - b.toNat
  | a :: _, [] => a.toNat - 0
  | a :: as, b :: bs => if a = b ∧ a ≠ 0 then strcmp as bs else a.toNat - b.toNat

/-- `aggregation.cluster_ips` of the configuration, as the constructor of the broadcaster checks and
    assumes it. -/
structure AggregationCluster where
  clusterIPs : List Bytes
  count : 1 < clusterIPs.length
  unique : clusterIPs.Nodup
  terminated : ∀ ip ∈ clusterIPs, 0 ∉ ip

namespace AggregationCluster

variable (c : AggregationCluster)

/-- The `localID` of the server with this address. -/
def localID (localIP : Bytes) : Nat := c.clusterIPs.countP fun ip => strcmp ip localIP < 0

def isLocalTransaction (localIP : Bytes) (transactionID : Tid) : Bool :=
  transactionID % c.clusterIPs.length == c.localID localIP

end AggregationCluster

theorem strcmp_lt_zero_iff {x y : Bytes} (hx : 0 ∉ x) (hy : 0 ∉ y) :
    strcmp x y < 0 ↔ x.map UInt8.toNat < y.map UInt8.toNat := by
  induction x generalizing y with
  | nil =>
      cases y with
      | nil => simp [strcmp]
      | cons b y =>
          have hb : b.toNat ≠ 0 := by
            intro h0
            have hb0 : b = 0 := UInt8.toNat_inj.mp h0
            exact hy (by simp [hb0])
          simp only [strcmp, List.map_nil, List.map_cons, List.nil_lt_cons, iff_true]
          omega
  | cons a x ih =>
      cases y with
      | nil =>
          simp only [strcmp, List.map_nil, List.not_lt_nil, iff_false]
          omega
      | cons b y =>
          have ha : a ≠ 0 := fun h0 => hx (by simp [h0])
          have hx' : 0 ∉ x := fun h => hx (List.mem_cons_of_mem a h)
          have hy' : 0 ∉ y := fun h => hy (List.mem_cons_of_mem b h)
          unfold strcmp
          rw [List.map_cons, List.map_cons, List.cons_lt_cons_iff]
          by_cases hab : a = b
          · subst hab
            rw [if_pos ⟨rfl, ha⟩, ih hx' hy']
            simp
          · rw [if_neg fun hc => hab hc.1]
            have hne : a.toNat ≠ b.toNat := fun h => hab (UInt8.toNat_inj.mp h)
            simp only [hne, false_and, or_false]
            omega

theorem AggregationCluster.strictOn (c : AggregationCluster) :
    StrictOn (fun x y => strcmp x y < 0) c.clusterIPs := by
  refine ⟨fun x hx h => ?_, fun x hx y hy z hz hxy hyz => ?_, fun x hx y hy hne => ?_⟩
  · rw [strcmp_lt_zero_iff (c.terminated x hx) (c.terminated x hx)] at h
    exact lt_irrefl _ h
  · rw [strcmp_lt_zero_iff (c.terminated _ hx) (c.terminated _ hy)] at hxy
    rw [strcmp_lt_zero_iff (c.terminated _ hy) (c.terminated _ hz)] at hyz
    rw [strcmp_lt_zero_iff (c.terminated _ hx) (c.terminated _ hz)]
    exact hxy.trans hyz
  · rw [strcmp_lt_zero_iff (c.terminated _ hx) (c.terminated _ hy),
      strcmp_lt_zero_iff (c.terminated _ hy) (c.terminated _ hx)]
    refine lt_or_gt_of_ne fun heq => hne ?_
    exact List.map_injective_iff.mpr (fun a b => UInt8.toNat_inj.mp) heq

/-- The servers number themselves, each with another number. -/
theorem existsUnique_isLocalTransaction (c : AggregationCluster) (tid : Tid) :
    ∃! ip, ip ∈ c.clusterIPs ∧ c.isLocalTransaction ip tid = true := by
  have hlt : tid % c.clusterIPs.length < c.clusterIPs.length :=
    Nat.mod_lt _ (Nat.lt_trans Nat.zero_lt_one c.count)
  obtain ⟨ip, ⟨hip, hrank⟩, huniq⟩ := existsUnique_rank c.strictOn c.unique hlt
  refine ⟨ip, ⟨hip, beq_iff_eq.mpr hrank.symm⟩, ?_⟩
  rintro ip' ⟨hip', hlocal⟩
  exact huniq ip' ⟨hip', (beq_iff_eq.mp hlocal).symm⟩

/-- Some server has to get the transaction from another one. -/
theorem exists_remote (c : AggregationCluster) (tid : Tid) :
    ∃ ip ∈ c.clusterIPs, c.isLocalTransaction ip tid = false := by
  have hone := c.count
  have hzero : 0 < c.clusterIPs.length := Nat.lt_trans Nat.zero_lt_one hone
  by_cases hlocal : c.isLocalTransaction c.clusterIPs[0] tid = true
  · refine ⟨c.clusterIPs[1], List.getElem_mem hone, Bool.eq_false_of_not_eq_true fun hlocal' => ?_⟩
    have heq := (existsUnique_isLocalTransaction c tid).unique ⟨List.getElem_mem hzero, hlocal⟩
      ⟨List.getElem_mem hone, hlocal'⟩
    exact absurd (c.unique.getElem_inj_iff.mp heq) (by decide)
  · exact ⟨_, List.getElem_mem hzero, Bool.eq_false_of_not_eq_true hlocal⟩

/-! ## The exchange -/

structure AggregationNode where
  tid : Tid
  result : Nat
  rwset : Bytes
deriving DecidableEq, Repr

structure AggregationExchange where
  epoch : Epoch
  node : List AggregationNode
deriving DecidableEq, Repr

/-- What a server brings to the epoch. Its transactions are in `broadcastTransaction` if they are in a
    workload, and in `listenTransaction` if they are in an aggregation workload. -/
structure AggregationServer where
  state : ServerState
  broadcastEpoch : Epoch
  workloads : List (List Transaction)
  aggregationWorkloads : List (List Transaction)

namespace AggregationServer

variable (cc : Chaincode) (msg : KVRWSetFormat) (e : Epoch) (srv : AggregationServer)

/-- The keys of `broadcastTransaction[epoch]`, a `std::map`. -/
def broadcastTransaction : List Tid :=
  (srv.workloads.flatten.map Transaction.tid).insertionSort (· ≤ ·)

def listenTransaction : List Tid := srv.aggregationWorkloads.flatten.map Transaction.tid

def readPhase (ts : List Transaction) (as : List (Nat × Bool)) : Option EpochState :=
  runPhase (exec cc) (srv.state.begin ts) (srv.workloads.map executeProgram) as

/-- The message of the server after its read phase. -/
def exchange (s : EpochState) : AggregationExchange where
  epoch := e
  node := srv.broadcastTransaction.map fun tid =>
    { tid := tid
      result := (s.txns tid).transactionResult.toNat
      rwset := msg.serializeAsString (s.txns tid).kvRWSet }

/-- A pool worker with a message; `none` if a `CHECK` fails. What `ParseFromString` returns is not
    looked at; the transaction has what it leaves. -/
def receiveProgram (x : AggregationExchange) : Option (List Instr) :=
  if e = x.epoch ∧ ∀ node ∈ x.node, node.tid ∈ srv.listenTransaction then
    some (x.node.map fun node => .receiveNode node.tid (TransactionResult.ofNat node.result)
      (msg.parseFromString node.rwset).2)
  else none

/-- `aggregateTransaction(epoch)` with the messages of the other servers, in the order in which they
    are in `remoteRecvBuffer`. -/
def aggregateTransaction (s : EpochState) (exchanges : List AggregationExchange)
    (as : List (Nat × Bool)) : Option EpochState :=
  if srv.broadcastEpoch = e then some s
  else
    (exchanges.mapM (srv.receiveProgram msg e)).bind fun programs =>
      runPhase (exec cc) s programs as

def aggregatePhase (s : EpochState) (as : List (Nat × Bool)) : Option EpochState :=
  runPhase (exec cc) s (srv.aggregationWorkloads.map aggregateProgram) as

def commitPhase (s : EpochState) (as : List (Nat × Bool)) : Option EpochState :=
  runPhase (exec cc) s ((srv.workloads ++ srv.aggregationWorkloads).map commitProgram) as

end AggregationServer

/-- The schedules of the phases after the read phase. -/
structure AggregationSchedule where
  receive : List (Nat × Bool)
  aggregate : List (Nat × Bool)
  commit : List (Nat × Bool)

/-- From the end of the read phase to the end of the epoch. -/
def AggregationServer.finishEpoch (cc : Chaincode) (msg : KVRWSetFormat) (e : Epoch)
    (srv : AggregationServer) (s : EpochState) (exchanges : List AggregationExchange)
    (sched : AggregationSchedule) : Option EpochState :=
  (srv.aggregateTransaction cc msg e s exchanges sched.receive).bind fun s =>
    (srv.aggregatePhase cc s sched.aggregate).bind fun s => srv.commitPhase cc s sched.commit

/-- One epoch of all servers. Each sends one message, and receives those of the others in any
    order: a listener thread waits at a barrier until every other one has passed its message
    on. -/
structure ClusterRun (cc : Chaincode) (msg : KVRWSetFormat) (c : AggregationCluster) (e : Epoch)
    (ts : List Transaction) (servers : Bytes → AggregationServer)
    (read final : Bytes → EpochState) : Prop where
  readPhase : ∀ ip ∈ c.clusterIPs, ∃ as, (servers ip).readPhase cc ts as = some (read ip)
  finishEpoch : ∀ ip ∈ c.clusterIPs, ∃ (others : List Bytes) (sched : AggregationSchedule),
    others.Perm (c.clusterIPs.erase ip) ∧
    (servers ip).finishEpoch cc msg e (read ip)
      (others.map fun ip' => (servers ip').exchange msg e (read ip')) sched = some (final ip)

end NeuChain.Server
