/-
  The pool tasks of `aggregateTransaction`.

  `Inv` says how far a server is. After `a` calls of `aggregateTransaction` the messages of `a`
  rounds have been taken from its buffer, and the listeners push in rounds (`Lib.Rounds`). So the
  messages its tasks take in the next call are those of round `a`, each of another listener
  (`Inv.first`), and no `CHECK` fails (`Inv.workerStep`). What a task writes has not been written
  before in the call (`Inv.not_received`).
-/
import NeuChain.Server.ExchangeMessages

namespace NeuChain.Server

open NeuChain Lib

/-! ## Invariant -/

/-- The message a task has taken, with the listener that has brought it. -/
def PoolTask.message : PoolTask → Option (Nat × AggregationExchange)
  | .idle | .pop => none
  | .checkEpoch i x | .handle i x _ _ | .signalled i x => some (i, x)

/-- The nodes whose results a task has written. -/
def PoolTask.written : PoolTask → List AggregationNode
  | .handle _ _ handled _ => handled
  | .signalled _ x => x.node
  | _ => []

/-- The tasks of the call are there. -/
def AggregatePc.calling : AggregatePc → Bool
  | .sendReply | .waitMany => true
  | _ => false

/-- The call of this epoch is yet to come. -/
def AggregatePc.before : AggregatePc → Bool
  | .assign _ | .aggregateTransaction => true
  | _ => false

namespace Broadcaster

/-- How many calls of `aggregateTransaction` have returned. -/
def turn (cfg : ExchangeConfig) (b : Broadcaster) : Nat :=
  b.currentEpoch - cfg.startupEpoch + if b.pc = .returned then 1 else 0

/-- How many messages have been sent. -/
def sent (cfg : ExchangeConfig) (b : Broadcaster) : Nat :=
  b.currentEpoch - cfg.startupEpoch + if b.pc = .waitMany ∨ b.pc = .returned then 1 else 0

/-- How many messages listener `i` has received. -/
def taken (b : Broadcaster) (i : Nat) : Nat :=
  (b.barrier.party i).rounds + if b.listener i = .getReply then 0 else 1

def rounds (b : Broadcaster) : Rounds where
  barrier := b.barrier
  pushed i := b.listener i = .await
  history := b.pushed

/-- All transactions of the epoch that are not local are in `listenTransaction`. -/
def Listening (cfg : ExchangeConfig) (k : Nat) (b : Broadcaster) : Prop :=
  (b.listenTransaction b.currentEpoch).map Transaction.tid =
    (cfg.remoteMap k (cfg.transactions b.currentEpoch)).map Transaction.tid

/-- What is in the maps of the epoch. -/
def MapsAt (cfg : ExchangeConfig) (k : Nat) (b : Broadcaster) : AggregatePc → Prop
  | .assign queue => ∃ done, cfg.transactions b.currentEpoch = done ++ queue ∧
      b.broadcastTransaction b.currentEpoch = cfg.localMap k done ∧
      b.listenTransaction b.currentEpoch = cfg.remoteMap k done
  | .aggregateTransaction | .sendReply =>
      makeExchange cfg.msg b.currentEpoch (b.broadcastTransaction b.currentEpoch) =
        cfg.exchangeOf k b.currentEpoch ∧ Listening cfg k b
  | .waitMany => Listening cfg k b
  | .returned => True

/-- The message in an entry of `pushed`. -/
def entry (cfg : ExchangeConfig) (k : Nat) (x : Nat × Nat) : Nat × AggregationExchange :=
  (x.1, cfg.exchangeOf (peer k x.1) (cfg.startupEpoch + x.2))

/-- What a task has made of its message, given the pushes that have been taken, the records of
    `receivedFrom` and the transactions of `listenTransaction`. -/
structure TaskAt (cfg : ExchangeConfig) (k e : Nat) (popped : List (Nat × Nat))
    (receivedFrom : Tid → List Nat) (listen : List Transaction) (task : PoolTask) (i : Nat)
    (x : AggregationExchange) : Prop where
  listener : i < cfg.remoteAggregationBlockServerCount
  exchange : x = cfg.exchangeOf (peer k i) e
  taken : (i, e - cfg.startupEpoch) ∈ popped
  nodes : ∀ j y handled rest, task = .handle j y handled rest → handled ++ rest = x.node
  written : ∀ node ∈ task.written, receivedFrom node.tid = [peer k i] ∧
    ∀ t ∈ listen, t.tid = node.tid →
      t.transactionResult = TransactionResult.ofNat node.result ∧
        t.kvRWSet = (cfg.msg.parseFromString node.rwset).2

structure Inv (cfg : ExchangeConfig) (k : Nat) (b : Broadcaster) : Prop where
  aborted : b.aborted = false
  started : cfg.startupEpoch ≤ b.currentEpoch
  epoch_le : b.broadcastEpoch ≤ b.currentEpoch
  epoch_before : b.pc.before = true → b.broadcastEpoch < b.currentEpoch
  epoch_calling : b.pc.calling = true → b.broadcastEpoch = b.currentEpoch
  maps : MapsAt cfg k b b.pc
  later : ∀ e, b.currentEpoch < e → b.broadcastTransaction e = [] ∧ b.listenTransaction e = []
  rounds : b.rounds.Inv cfg.remoteAggregationBlockServerCount
  inHand : ∀ i < cfg.remoteAggregationBlockServerCount, ∀ x, b.listener i = .push x →
    x = cfg.exchangeOf (peer k i) (cfg.startupEpoch + (b.barrier.party i).rounds)
  buffer : b.remoteRecvBuffer = (b.pushed.drop b.popped).map (entry cfg k)
  popped_le : b.popped ≤ b.pushed.length
  popped : b.popped = b.turn cfg * cfg.remoteAggregationBlockServerCount +
    Nat.count (fun t => (b.workers t).message.isSome = true) cfg.remoteAggregationBlockServerCount
  idle : b.pc.calling = false → ∀ t, b.workers t = .idle
  busy : b.pc.calling = true → ∀ t < cfg.remoteAggregationBlockServerCount, b.workers t ≠ .idle
  tasks : ∀ t < cfg.remoteAggregationBlockServerCount, ∀ i x,
    (b.workers t).message = some (i, x) →
      TaskAt cfg k b.currentEpoch (b.pushed.take b.popped) b.receivedFrom
        (b.listenTransaction b.currentEpoch) (b.workers t) i x
  distinct : ∀ t < cfg.remoteAggregationBlockServerCount,
    ∀ u < cfg.remoteAggregationBlockServerCount, ∀ i x y,
      (b.workers t).message = some (i, x) → (b.workers u).message = some (i, y) → t = u
  received : b.pc.calling = true → ∀ tid, b.receivedFrom tid ≠ [] →
    ∃ t < cfg.remoteAggregationBlockServerCount, ∃ node ∈ (b.workers t).written, node.tid = tid

variable {cfg : ExchangeConfig} {k : Nat} {b b' : Broadcaster}

theorem Inv.initial (cfg : ExchangeConfig) (k : Nat) :
    Inv cfg k { currentEpoch := cfg.startupEpoch,
                pc := .assign (cfg.transactions cfg.startupEpoch) } where
  aborted := rfl
  started := le_rfl
  epoch_le := Nat.zero_le _
  epoch_before _ := Nat.succ_pos _
  epoch_calling h := by cases h
  maps := ⟨[], rfl, rfl, rfl⟩
  later _ _ := ⟨rfl, rfl⟩
  rounds := Rounds.inv_start _
  inHand _ _ _ h := by cases h
  buffer := rfl
  popped_le := le_rfl
  popped := by
    unfold turn
    dsimp only
    rw [if_neg (by nofun), Nat.sub_self, Nat.zero_mul, count_eq_zero fun _ _ => by nofun]
  idle _ _ := rfl
  busy h := by cases h
  tasks _ _ _ _ h := by cases h
  distinct _ _ _ _ _ _ _ h := by cases h
  received h := by cases h

/-! ## Pool tasks -/

section Pool

variable {t i : Nat} {x : AggregationExchange} {task : PoolTask} {node : AggregationNode}

theorem Inv.calling_of_busy (h : Inv cfg k b) (ht : b.workers t ≠ .idle) : b.pc.calling = true := by
  by_contra hc
  exact ht (h.idle (Bool.eq_false_iff.mpr hc) t)

theorem turn_of_ne (h : b.pc ≠ .returned) : b.turn cfg = b.currentEpoch - cfg.startupEpoch := by
  unfold turn
  rw [if_neg h, Nat.add_zero]

theorem turn_calling (h : b.pc.calling = true) :
    b.turn cfg = b.currentEpoch - cfg.startupEpoch :=
  turn_of_ne fun hc => by rw [hc] at h; cases h

theorem Inv.listening (h : Inv cfg k b) (hcall : b.pc.calling = true) : Listening cfg k b := by
  have hmaps := h.maps
  cases hpc : b.pc with
  | sendReply =>
      rw [hpc] at hmaps
      exact hmaps.2
  | waitMany =>
      rw [hpc] at hmaps
      exact hmaps
  | _ =>
      rw [hpc] at hcall
      cases hcall

/-- The first message in the buffer, if a task has yet to take one: it is of this epoch, and no
    other task has one of the same listener. -/
theorem Inv.first (h : Inv cfg k b) {rest : List (Nat × AggregationExchange)}
    (ht : t < cfg.remoteAggregationBlockServerCount) (hw : b.workers t = .pop)
    (hbuf : b.remoteRecvBuffer = (i, x) :: rest) :
    i < cfg.remoteAggregationBlockServerCount ∧ x = cfg.exchangeOf (peer k i) b.currentEpoch ∧
      b.popped < b.pushed.length ∧
      (i, b.currentEpoch - cfg.startupEpoch) ∉ b.pushed.take b.popped ∧
      b.pushed.take (b.popped + 1) =
        b.pushed.take b.popped ++ [(i, b.currentEpoch - cfg.startupEpoch)] ∧
      rest = (b.pushed.drop (b.popped + 1)).map (entry cfg k) := by
  have hcall : b.pc.calling = true := h.calling_of_busy (t := t) (by rw [hw]; nofun)
  have hlt := count_lt (P := fun t => (b.workers t).message.isSome = true) ht (by rw [hw]; nofun)
  have hbuffer := h.buffer
  rw [hbuf] at hbuffer
  obtain ⟨⟨i', r⟩, tail, hdrop, hhead, htail⟩ := List.map_eq_cons_iff.mp hbuffer.symm
  obtain ⟨rfl, rfl⟩ := Prod.mk.inj hhead
  have hget : b.pushed[b.popped]? = some (i', r) := by
    have := congrArg (fun l => l[0]?) hdrop
    rwa [List.getElem?_drop, Nat.add_zero] at this
  have hr : r = b.currentEpoch - cfg.startupEpoch := by
    rw [h.popped, turn_calling hcall] at hget
    exact h.rounds.round_of_turn hlt hget
  subst hr
  have hmem := (h.rounds.mem i' _).mp (List.mem_of_getElem? hget)
  have hepoch : cfg.startupEpoch + (b.currentEpoch - cfg.startupEpoch) = b.currentEpoch :=
    Nat.add_sub_cancel' h.started
  have hnodup : (b.pushed.take b.popped ++ b.pushed.drop b.popped).Nodup := by
    rw [List.take_append_drop]
    exact h.rounds.nodup
  refine ⟨hmem.1, by rw [hepoch], (List.getElem?_eq_some_iff.mp hget).1, fun hin => ?_, ?_, ?_⟩
  · rw [hdrop] at hnodup
    exact List.disjoint_of_nodup_append hnodup hin List.mem_cons_self
  · rw [List.take_add_one, hget]
    rfl
  · rw [← htail, ← List.drop_drop, hdrop]
    rfl

theorem Inv.pop (h : Inv cfg k b) {rest : List (Nat × AggregationExchange)}
    (ht : t < cfg.remoteAggregationBlockServerCount) (hw : b.workers t = .pop)
    (hbuf : b.remoteRecvBuffer = (i, x) :: rest) :
    Inv cfg k ({ b with remoteRecvBuffer := rest, popped := b.popped + 1 }.setTask t
      (.checkEpoch i x)) := by
  obtain ⟨hi, hx, hlt, hfresh, htake, hrest⟩ := h.first ht hw hbuf
  have hself : Function.update b.workers t (.checkEpoch i x) t = .checkEpoch i x :=
    Function.update_self _ _ _
  have hne : ∀ u, u ≠ t → Function.update b.workers t (.checkEpoch i x) u = b.workers u :=
    fun u hu => Function.update_of_ne hu _ _
  have hother : ∀ u < cfg.remoteAggregationBlockServerCount, ∀ y,
      (b.workers u).message ≠ some (i, y) :=
    fun u hu y hm => hfresh (h.tasks u hu i y hm).taken
  refine { h with
    buffer := hrest
    popped_le := hlt
    popped := ?_
    idle := fun hc => ?_
    busy := fun hc u hu => ?_
    tasks := fun u hu j y hm => ?_
    distinct := fun u hu v hv j y z hm hm' => ?_
    received := fun hc tid htid => ?_ }
  · have hcount := count_succ ht (P := fun u => (b.workers u).message.isSome = true)
      (Q := fun u => (Function.update b.workers t (.checkEpoch i x) u).message.isSome = true)
      (by rw [hw]; nofun) (by rw [hself]; rfl) fun u _ hu => by rw [hne u hu]
    show b.popped + 1 = b.turn cfg * _ + Nat.count
      (fun u => (Function.update b.workers t (.checkEpoch i x) u).message.isSome = true) _
    rw [hcount, h.popped, Nat.add_assoc]
  · have := h.calling_of_busy (t := t) (by rw [hw]; nofun)
    exact absurd (hc.symm.trans this) (by decide)
  · show Function.update b.workers t _ u ≠ .idle
    by_cases hut : u = t
    · rw [hut, hself]
      nofun
    · rw [hne u hut]
      exact h.busy hc u hu
  · replace hm : (Function.update b.workers t (.checkEpoch i x) u).message = some (j, y) := hm
    show TaskAt cfg k b.currentEpoch (b.pushed.take (b.popped + 1)) b.receivedFrom
      (b.listenTransaction b.currentEpoch) (Function.update b.workers t (.checkEpoch i x) u) j y
    rw [htake]
    by_cases hut : u = t
    · rw [hut, hself] at hm ⊢
      cases hm
      exact ⟨hi, hx, List.mem_append_right _ List.mem_cons_self, by nofun, by nofun⟩
    · rw [hne u hut] at hm ⊢
      have hold := h.tasks u hu j y hm
      exact { hold with taken := List.mem_append_left _ hold.taken }
  · replace hm : (Function.update b.workers t (.checkEpoch i x) u).message = some (j, y) := hm
    replace hm' : (Function.update b.workers t (.checkEpoch i x) v).message = some (j, z) := hm'
    by_cases hut : u = t
    · by_cases hvt : v = t
      · rw [hut, hvt]
      · rw [hut, hself] at hm
        rw [hne v hvt] at hm'
        cases hm
        exact absurd hm' (hother v hv z)
    · rw [hne u hut] at hm
      by_cases hvt : v = t
      · rw [hvt, hself] at hm'
        cases hm'
        exact absurd hm (hother u hu y)
      · rw [hne v hvt] at hm'
        exact h.distinct u hu v hv j y z hm hm'
  · obtain ⟨u, hu, n, hn, hid⟩ := h.received hc tid htid
    have hut : u ≠ t := by
      rintro rfl
      rw [hw] at hn
      cases hn
    refine ⟨u, hu, n, ?_, hid⟩
    show n ∈ (Function.update b.workers t (.checkEpoch i x) u).written
    rw [hne u hut]
    exact hn

/-- A task goes on with its message, and may write to what the server listens for. -/
theorem Inv.write {listen : Nat → List Transaction} {receivedFrom : Tid → List Nat}
    (h : Inv cfg k b) (hmsg : (b.workers t).message = some (i, x))
    (hmsg' : task.message = some (i, x))
    (hlisten : (listen b.currentEpoch).map Transaction.tid =
      (b.listenTransaction b.currentEpoch).map Transaction.tid)
    (hlater : ∀ e, b.currentEpoch < e → listen e = [])
    (htasks : ∀ u < cfg.remoteAggregationBlockServerCount, ∀ j y,
      (b.workers u).message = some (j, y) →
        TaskAt cfg k b.currentEpoch (b.pushed.take b.popped) receivedFrom (listen b.currentEpoch)
          (Function.update b.workers t task u) j y)
    (hreceived : ∀ tid, receivedFrom tid ≠ [] → ∃ u < cfg.remoteAggregationBlockServerCount,
      ∃ node ∈ (Function.update b.workers t task u).written, node.tid = tid) :
    Inv cfg k { b with
      listenTransaction := listen
      receivedFrom := receivedFrom
      workers := Function.update b.workers t task } := by
  have hsame : ∀ u, (Function.update b.workers t task u).message = (b.workers u).message := by
    intro u
    by_cases hut : u = t
    · rw [hut, Function.update_self, hmsg, hmsg']
    · rw [Function.update_of_ne hut]
  have hbusy : b.workers t ≠ .idle := fun hc => by rw [hc] at hmsg; cases hmsg
  have hcall := h.calling_of_busy hbusy
  have hlistening : Listening cfg k { b with
      listenTransaction := listen
      receivedFrom := receivedFrom
      workers := Function.update b.workers t task } := hlisten.trans (h.listening hcall)
  refine { h with
    maps := ?_
    later := fun e he => ⟨(h.later e he).1, hlater e he⟩
    popped := ?_
    idle := fun hc => absurd (hc.symm.trans hcall) (by decide)
    busy := fun _ u hu => ?_
    tasks := fun u hu j y hm => htasks u hu j y ((hsame u).symm.trans hm)
    distinct := fun u hu v hv j y z hm hm' =>
      h.distinct u hu v hv j y z ((hsame u).symm.trans hm) ((hsame v).symm.trans hm')
    received := fun _ => hreceived }
  · have hmaps := h.maps
    dsimp only
    cases hpc : b.pc with
    | sendReply =>
        rw [hpc] at hmaps
        exact ⟨hmaps.1, hlistening⟩
    | waitMany => exact hlistening
    | _ =>
        rw [hpc] at hcall
        cases hcall
  · show b.popped = b.turn cfg * _ + Nat.count
      (fun u => (Function.update b.workers t task u).message.isSome = true) _
    rw [h.popped]
    congr 1
    exact count_congr fun u _ => by rw [hsame u]
  · show Function.update b.workers t task u ≠ .idle
    by_cases hut : u = t
    · rw [hut, Function.update_self]
      intro hc
      rw [hc] at hmsg'
      cases hmsg'
    · rw [Function.update_of_ne hut]
      exact h.busy hcall u hu

/-- A task goes on without writing anything. -/
theorem Inv.advance (h : Inv cfg k b) (hmsg : (b.workers t).message = some (i, x))
    (hmsg' : task.message = some (i, x)) (hwritten : task.written = (b.workers t).written)
    (hnodes : ∀ j y handled rest, task = .handle j y handled rest → handled ++ rest = x.node) :
    Inv cfg k (b.setTask t task) := by
  have hold : ∀ u, (Function.update b.workers t task u).written = (b.workers u).written := by
    intro u
    by_cases hut : u = t
    · rw [hut, Function.update_self, hwritten]
    · rw [Function.update_of_ne hut]
  have hbusy : b.workers t ≠ .idle := fun hc => by rw [hc] at hmsg; cases hmsg
  refine h.write hmsg hmsg' rfl (fun e he => (h.later e he).2) (fun u hu j y hm => ?_)
    fun tid htid => ?_
  · have htask := h.tasks u hu j y hm
    refine { htask with nodes := fun j' y' handled rest heq => ?_, written := ?_ }
    · by_cases hut : u = t
      · rw [hut, Function.update_self] at heq
        rw [hut, hmsg] at hm
        cases hm
        exact hnodes j' y' handled rest heq
      · rw [Function.update_of_ne hut] at heq
        exact htask.nodes j' y' handled rest heq
    · rw [hold u]
      exact htask.written
  · obtain ⟨u, hu, n, hn, hid⟩ := h.received (h.calling_of_busy hbusy) tid htid
    exact ⟨u, hu, n, by rwa [hold u], hid⟩

theorem message_of_written (hn : node ∈ task.written) : ∃ i x, task.message = some (i, x) := by
  cases task with
  | idle => cases hn
  | pop => cases hn
  | checkEpoch i x => cases hn
  | handle i x handled rest => exact ⟨i, x, rfl⟩
  | signalled i x => exact ⟨i, x, rfl⟩

/-- What a task has written was in its message. -/
theorem TaskAt.mem_exchange {e : Nat} {popped : List (Nat × Nat)} {receivedFrom : Tid → List Nat}
    {listen : List Transaction} (h : TaskAt cfg k e popped receivedFrom listen task i x)
    (hmsg : task.message = some (i, x)) (hn : node ∈ task.written) : node ∈ x.node := by
  cases task with
  | idle => cases hn
  | pop => cases hn
  | checkEpoch j y => cases hn
  | handle j y handled rest =>
      rw [← h.nodes j y handled rest rfl]
      exact List.mem_append_left _ hn
  | signalled j y =>
      cases hmsg
      exact hn

/-- The transactions of a message are local to its sender. -/
theorem TaskAt.isLocal {e : Nat} {popped : List (Nat × Nat)} {receivedFrom : Tid → List Nat}
    {listen : List Transaction} (h : TaskAt cfg k e popped receivedFrom listen task i x)
    (hn : node ∈ x.node) : node.tid ∈ (cfg.transactions e).map Transaction.tid ∧
      cfg.isLocalTransaction (peer k i) node.tid = true := by
  rw [h.exchange] at hn
  exact ExchangeConfig.mem_exchangeOf.mp (List.mem_map_of_mem hn)

/-- The server listens for all transactions of the messages its tasks have taken. -/
theorem Inv.mem_listen (h : Inv cfg k b) (hk : k < cfg.totalServerCount)
    (ht : t < cfg.remoteAggregationBlockServerCount)
    (hmsg : (b.workers t).message = some (i, x)) (hn : node ∈ x.node) :
    node.tid ∈ (b.listenTransaction b.currentEpoch).map Transaction.tid := by
  have htask := h.tasks t ht i x hmsg
  have hbusy : b.workers t ≠ .idle := fun hc => by rw [hc] at hmsg; cases hmsg
  obtain ⟨hmem, hlocal⟩ := htask.isLocal hn
  rw [h.listening (h.calling_of_busy hbusy)]
  refine ExchangeConfig.mem_remoteMap.mpr ⟨hmem, Bool.eq_false_iff.mpr fun hc => ?_⟩
  exact peer_ne k i (ExchangeConfig.local_unique (peer_lt hk htask.listener) hk hlocal hc)

/-- A node that a task is about to write has not been written before. -/
theorem Inv.not_received (h : Inv cfg k b) (hk : k < cfg.totalServerCount)
    (ht : t < cfg.remoteAggregationBlockServerCount) {handled rest : List AggregationNode}
    (hw : b.workers t = .handle i x handled (node :: rest)) : b.receivedFrom node.tid = [] := by
  have hmsg : (b.workers t).message = some (i, x) := by rw [hw]; rfl
  have htask := h.tasks t ht i x hmsg
  have hnodes := htask.nodes i x handled (node :: rest) hw
  have hcall := h.calling_of_busy (t := t) (by rw [hw]; nofun)
  have hnode : node ∈ x.node := by
    rw [← hnodes]
    exact List.mem_append_right _ List.mem_cons_self
  by_contra hc
  obtain ⟨u, hu, n, hn, hid⟩ := h.received hcall node.tid hc
  obtain ⟨j, y, hm⟩ := message_of_written hn
  have htask' := h.tasks u hu j y hm
  -- the same server would have sent both, so it is the same message
  have hij : i = j := by
    have hlocal := (htask'.isLocal (htask'.mem_exchange hm hn)).2
    rw [hid] at hlocal
    exact peer_injective (ExchangeConfig.local_unique (peer_lt hk htask.listener)
      (peer_lt hk htask'.listener) (htask.isLocal hnode).2 hlocal)
  subst hij
  have hut : u = t := h.distinct u hu t ht i y x hm hmsg
  rw [hut, hw] at hn
  have hnodup := cfg.nodup_exchangeOf (peer k i) b.currentEpoch
  rw [← htask.exchange, ← hnodes, List.map_append] at hnodup
  refine List.disjoint_of_nodup_append hnodup (List.mem_map_of_mem hn) ?_
  rw [hid]
  exact List.mem_cons_self

theorem tid_receiveNode (msg : KVRWSetFormat) (node : AggregationNode) (u : Transaction) :
    (receiveNode msg node u).tid = u.tid := by
  unfold receiveNode
  split <;> rfl

theorem tids_receiveNode (msg : KVRWSetFormat) (node : AggregationNode) (l : List Transaction) :
    (l.map (receiveNode msg node)).map Transaction.tid = l.map Transaction.tid := by
  rw [List.map_map]
  exact List.map_congr_left fun u _ => tid_receiveNode msg node u

/-- Writing another node leaves what a task has written. -/
theorem TaskAt.handleNode {e j : Nat} {popped : List (Nat × Nat)} {receivedFrom : Tid → List Nat}
    {listen : List Transaction} (h : TaskAt cfg k e popped receivedFrom listen task i x)
    (hfresh : receivedFrom node.tid = []) :
    TaskAt cfg k e popped (Function.update receivedFrom node.tid [peer k j])
      (listen.map (receiveNode cfg.msg node)) task i x := by
  refine { h with written := fun n hn => ?_ }
  obtain ⟨hfrom, hset⟩ := h.written n hn
  have hne : n.tid ≠ node.tid := by
    intro hc
    rw [hc, hfresh] at hfrom
    cases hfrom
  refine ⟨by rw [Function.update_of_ne hne, hfrom], fun u' hu' hid => ?_⟩
  obtain ⟨u, hu, rfl⟩ := List.mem_map.mp hu'
  rw [tid_receiveNode] at hid
  have hsame : receiveNode cfg.msg node u = u := by
    unfold receiveNode
    rw [if_neg (by rw [hid]; exact hne)]
  rw [hsame]
  exact hset u hu hid

/-- The results of the next node are written. -/
theorem Inv.handleNode (h : Inv cfg k b) (hk : k < cfg.totalServerCount)
    (ht : t < cfg.remoteAggregationBlockServerCount) {handled rest : List AggregationNode}
    (hw : b.workers t = .handle i x handled (node :: rest)) :
    Inv cfg k ((b.handleNode cfg k i x node).setTask t
      (.handle i x (handled ++ [node]) rest)) := by
  have hmsg : (b.workers t).message = some (i, x) := by rw [hw]; rfl
  have hfresh := h.not_received hk ht hw
  have hcall := h.calling_of_busy (t := t) (by rw [hw]; nofun)
  have hepoch : x.epoch = b.currentEpoch := by rw [(h.tasks t ht i x hmsg).exchange]; rfl
  unfold Broadcaster.handleNode
  rw [hepoch, hfresh, List.nil_append]
  refine h.write hmsg rfl ?_ (fun e he => ?_) (fun u hu j y hm => ?_) fun tid htid => ?_
  · dsimp only
    rw [Function.update_self, tids_receiveNode]
  · dsimp only
    rw [Function.update_of_ne (Nat.ne_of_gt he), (h.later e he).2]
  · dsimp only
    rw [Function.update_self]
    have hold := (h.tasks u hu j y hm).handleNode (j := i) hfresh
    by_cases hut : u = t
    · rw [hut, hmsg] at hm
      cases hm
      rw [hut, hw] at hold
      rw [hut, Function.update_self]
      refine { hold with nodes := ?_, written := fun n hn => ?_ }
      · intro j' y' handled' rest' heq
        cases heq
        rw [List.append_assoc]
        exact hold.nodes _ _ _ _ rfl
      · rcases List.mem_append.mp hn with hn | hn
        · exact hold.written n hn
        · rw [List.mem_singleton.mp hn]
          refine ⟨Function.update_self _ _ _, fun v' hv' hid => ?_⟩
          obtain ⟨v, -, rfl⟩ := List.mem_map.mp hv'
          rw [tid_receiveNode] at hid
          unfold receiveNode
          rw [if_pos hid]
          exact ⟨rfl, rfl⟩
    · rw [Function.update_of_ne hut]
      exact hold
  · by_cases hid : tid = node.tid
    · refine ⟨t, ht, node, ?_, hid.symm⟩
      rw [Function.update_self]
      exact List.mem_append_right _ List.mem_cons_self
    · dsimp only at htid
      rw [Function.update_of_ne hid] at htid
      obtain ⟨u, hu, n, hn, hid⟩ := h.received hcall tid htid
      refine ⟨u, hu, n, ?_, hid⟩
      by_cases hut : u = t
      · rw [hut, hw] at hn
        rw [hut, Function.update_self]
        exact List.mem_append_left _ hn
      · rwa [Function.update_of_ne hut]

theorem Inv.workerStep (h : Inv cfg k b) (hk : k < cfg.totalServerCount)
    (ht : t < cfg.remoteAggregationBlockServerCount) (hs : b.workerStep cfg k t = some b') :
    Inv cfg k b' := by
  unfold Broadcaster.workerStep at hs
  cases hw : b.workers t with
  | idle => rw [hw] at hs; cases hs
  | signalled i x => rw [hw] at hs; cases hs
  | pop =>
      rw [hw] at hs
      dsimp only at hs
      split at hs <;> cases hs
      rename_i hbuf
      exact h.pop ht hw hbuf
  | checkEpoch i x =>
      rw [hw] at hs
      dsimp only at hs
      have hmsg : (b.workers t).message = some (i, x) := by rw [hw]; rfl
      have hcall := h.calling_of_busy (t := t) (by rw [hw]; nofun)
      have hepoch : b.broadcastEpoch = x.epoch := by
        rw [h.epoch_calling hcall, (h.tasks t ht i x hmsg).exchange]
        rfl
      rw [if_pos hepoch] at hs
      cases hs
      refine h.advance hmsg rfl (by rw [hw]; rfl) fun j y handled rest heq => ?_
      cases heq
      rfl
  | handle i x handled rest =>
      rw [hw] at hs
      have hmsg : (b.workers t).message = some (i, x) := by rw [hw]; rfl
      have hnodes := (h.tasks t ht i x hmsg).nodes i x handled rest hw
      cases rest with
      | nil =>
          cases hs
          refine h.advance hmsg rfl ?_ (by nofun)
          rw [hw, ← List.append_nil handled, hnodes]
          rfl
      | cons node rest =>
          dsimp only at hs
          have hnode : node ∈ x.node := by
            rw [← hnodes]
            exact List.mem_append_right _ List.mem_cons_self
          have hepoch : x.epoch = b.currentEpoch := by
            rw [(h.tasks t ht i x hmsg).exchange]
            rfl
          obtain ⟨u, hu, hid⟩ := List.mem_map.mp (h.mem_listen hk ht hmsg hnode)
          have hcheck : (b.listenTransaction x.epoch).any (·.tid = node.tid) = true := by
            rw [hepoch]
            exact List.any_eq_true.mpr ⟨u, hu, decide_eq_true hid⟩
          rw [if_pos hcheck] at hs
          cases hs
          exact h.handleNode hk ht hw

/-- A pool task does not touch the listeners and sends nothing. -/
theorem frame_workerStep (hs : b.workerStep cfg k t = some b') :
    b'.sent cfg = b.sent cfg ∧ ∀ j, b'.taken j = b.taken j := by
  unfold Broadcaster.workerStep at hs
  split at hs
  · split at hs <;> cases hs
    exact ⟨rfl, fun _ => rfl⟩
  · split at hs <;> cases hs <;> exact ⟨rfl, fun _ => rfl⟩
  · cases hs
    exact ⟨rfl, fun _ => rfl⟩
  · split at hs <;> cases hs <;> exact ⟨rfl, fun _ => rfl⟩
  · cases hs

end Pool

end Broadcaster

end NeuChain.Server
