/-
  The exchange of results stays in step.

  * `exchange_in_step`: in every run, on every server, no `CHECK` of the pool tasks fails. The
    messages the tasks take in a call of `aggregateTransaction` are those of its epoch, and when it
    can return, each transaction of `listenTransaction` has got its result and read-write set from
    the message of exactly one server.

  On each link are the messages that have been sent and not yet received, in the order of their
  epochs. How far the other servers are does not matter.
-/
import Mathlib.Data.Fintype.EquivFin
import NeuChain.Server.ExchangeSteps

namespace NeuChain.Server

open NeuChain Lib

/-! ## All servers -/

namespace ExchangeState

variable {cfg : ExchangeConfig} {s s' : ExchangeState} {a : ExchangeAction}
  {as : List ExchangeAction} {k : Nat}

/-- On each link are the messages that have been sent and not yet received, in order. -/
structure Inv (cfg : ExchangeConfig) (s : ExchangeState) : Prop where
  server : ∀ k < cfg.totalServerCount, (s.server k).Inv cfg k
  link : ∀ k < cfg.totalServerCount, ∀ i < cfg.remoteAggregationBlockServerCount, ∃ m,
    (s.server (peer k i)).sent cfg = (s.server k).taken i + m ∧
    s.link (peer k i) k = (List.range' ((s.server k).taken i) m).map
      fun r => cfg.exchangeOf (peer k i) (cfg.startupEpoch + r)

theorem Inv.initial (cfg : ExchangeConfig) : Inv cfg (initial cfg) := by
  refine ⟨fun k _ => Broadcaster.Inv.initial cfg k, fun k _ i _ => ⟨0, ?_, rfl⟩⟩
  show Broadcaster.sent cfg _ = 0
  unfold Broadcaster.sent ExchangeState.initial
  dsimp only
  rw [if_neg (by nofun), Nat.sub_self]

/-! ### One server changes -/

section Update

variable {b : Broadcaster}

theorem Inv.server_update (h : Inv cfg s) (hb : b.Inv cfg k) :
    ∀ j < cfg.totalServerCount, (Function.update s.server k b j).Inv cfg j := by
  intro j hj
  by_cases hjk : j = k
  · rw [hjk, Function.update_self]
    exact hb
  · rw [Function.update_of_ne hjk]
    exact h.server j hj

theorem sent_update (h : b.sent cfg = (s.server k).sent cfg) (j : Nat) :
    (Function.update s.server k b j).sent cfg = (s.server j).sent cfg := by
  by_cases hj : j = k
  · rw [hj, Function.update_self, h]
  · rw [Function.update_of_ne hj]

theorem taken_update {i : Nat} (h : b.taken i = (s.server k).taken i) (j : Nat) :
    (Function.update s.server k b j).taken i = (s.server j).taken i := by
  by_cases hj : j = k
  · rw [hj, Function.update_self, h]
  · rw [Function.update_of_ne hj]

/-- It sends nothing, and its listeners have received what they had. -/
theorem Inv.setServer (h : Inv cfg s) (hb : b.Inv cfg k)
    (hsent : b.sent cfg = (s.server k).sent cfg)
    (htaken : ∀ i, b.taken i = (s.server k).taken i) : Inv cfg (s.setServer k b) := by
  refine ⟨h.server_update hb, fun j hj i hi => ?_⟩
  obtain ⟨m, hm, hl⟩ := h.link j hj i hi
  refine ⟨m, ?_, ?_⟩
  · exact (sent_update hsent _).trans (hm.trans (by rw [← taken_update (htaken i) j]; rfl))
  · rw [← taken_update (htaken i) j] at hl
    exact hl

/-- It sends a message to all others. -/
theorem Inv.send {message : Option AggregationExchange} (h : Inv cfg s) (hb : b.Inv cfg k)
    (hsends : Broadcaster.Sends cfg k (s.server k) b message)
    (hsame : b.listener = (s.server k).listener ∧ b.barrier = (s.server k).barrier) :
    Inv cfg ((s.setServer k b).send k message) := by
  have htaken : ∀ i, b.taken i = (s.server k).taken i := by
    intro i
    unfold Broadcaster.taken
    rw [hsame.1, hsame.2]
  cases message with
  | none => exact h.setServer hb hsends htaken
  | some x =>
      obtain ⟨hsent, hx⟩ := hsends
      refine ⟨h.server_update hb, fun j hj i hi => ?_⟩
      obtain ⟨m, hm, hl⟩ := h.link j hj i hi
      show ∃ m, (Function.update s.server k b (peer j i)).sent cfg =
        (Function.update s.server k b j).taken i + m ∧
        Function.update s.link k (fun other => s.link k other ++ [x]) (peer j i) j =
          (List.range' ((Function.update s.server k b j).taken i) m).map _
      rw [taken_update (htaken i)]
      by_cases hp : peer j i = k
      · refine ⟨m + 1, ?_, ?_⟩
        · rw [hp, Function.update_self, hsent, ← hp, hm, Nat.add_assoc]
        · rw [hp, Function.update_self, List.range'_1_concat, List.map_append, ← hp, ← hl, hx,
            ← hp, hm]
          rfl
      · exact ⟨m, by rw [Function.update_of_ne hp, hm], by rw [Function.update_of_ne hp, hl]⟩

/-- Its listener `i` takes a step. -/
theorem Inv.setLink {i : Nat} {rest : List AggregationExchange} (h : Inv cfg s)
    (hb : b.Inv cfg k) (hsent : b.sent cfg = (s.server k).sent cfg)
    (htakes : Broadcaster.Takes i (s.link (peer k i) k) rest (s.server k) b) :
    Inv cfg ((s.setServer k b).setLink (peer k i) k rest) := by
  refine ⟨h.server_update hb, fun j hj l hl => ?_⟩
  obtain ⟨m, hm, heq⟩ := h.link j hj l hl
  show ∃ m, (Function.update s.server k b (peer j l)).sent cfg =
    (Function.update s.server k b j).taken l + m ∧
    Function.update s.link (peer k i) (Function.update (s.link (peer k i)) k rest) (peer j l) j =
      (List.range' ((Function.update s.server k b j).taken l) m).map _
  rw [sent_update hsent]
  by_cases hlink : j = k ∧ l = i
  · obtain ⟨rfl, rfl⟩ := hlink
    rw [Function.update_self, Function.update_self, Function.update_self]
    rcases htakes.2 with ⟨htaken, hrest⟩ | ⟨htaken, x, hrest⟩
    · exact ⟨m, by rw [htaken, hm], by rw [hrest, heq, htaken]⟩
    · -- the first of the messages has been received
      rw [heq] at hrest
      cases m with
      | zero => cases hrest
      | succ m =>
          refine ⟨m, by rw [htaken, hm]; omega, ?_⟩
          rw [List.range'_succ, List.map_cons] at hrest
          rw [htaken]
          exact (List.cons.inj hrest).2.symm
  · have hother : Function.update s.link (peer k i) (Function.update (s.link (peer k i)) k rest)
        (peer j l) j = s.link (peer j l) j := by
      by_cases hp : peer j l = peer k i
      · have hjk : j ≠ k := by
          rintro rfl
          exact hlink ⟨rfl, peer_injective hp⟩
        rw [hp, Function.update_self, Function.update_of_ne hjk]
      · rw [Function.update_of_ne hp]
    have htaken : (Function.update s.server k b j).taken l = (s.server j).taken l := by
      by_cases hjk : j = k
      · have hli : l ≠ i := fun hc => hlink ⟨hjk, hc⟩
        exact taken_update (htakes.1 l hli) j
      · rw [Function.update_of_ne hjk]
    exact ⟨m, by rw [htaken, hm], by rw [hother, htaken, heq]⟩

end Update

theorem Inv.step (h : Inv cfg s) (hs : ExchangeState.step cfg s a = some s') : Inv cfg s' := by
  cases a with
  | coordinator k =>
      unfold ExchangeState.step at hs
      dsimp only at hs
      split at hs
      · rename_i hc
        obtain ⟨⟨b, message⟩, hb, rfl⟩ := Option.map_eq_some_iff.mp hs
        obtain ⟨hinv, hsame, hsends⟩ := (h.server k hc.1).coordinatorStep hb
        exact h.send hinv hsends hsame
      · cases hs
  | listener k i =>
      unfold ExchangeState.step at hs
      dsimp only at hs
      split at hs
      · rename_i hc
        obtain ⟨⟨b, rest⟩, hb, rfl⟩ := Option.map_eq_some_iff.mp hs
        obtain ⟨m, -, hlink⟩ := h.link k hc.1 i hc.2.1
        have hfirst : ∀ x l, s.link (peer k i) k = x :: l →
            x = cfg.exchangeOf (peer k i) (cfg.startupEpoch + (s.server k).taken i) := by
          intro x l hl
          rw [hlink] at hl
          cases m with
          | zero => cases hl
          | succ m =>
              rw [List.range'_succ, List.map_cons] at hl
              exact (List.cons.inj hl).1.symm
        obtain ⟨hinv, hsent, htakes⟩ := (h.server k hc.1).listenerStep hc.2.1 hfirst hb
        exact h.setLink hinv hsent htakes
      · cases hs
  | worker k t =>
      unfold ExchangeState.step at hs
      dsimp only at hs
      split at hs
      · rename_i hc
        obtain ⟨b, hb, rfl⟩ := Option.map_eq_some_iff.mp hs
        obtain ⟨hsent, htaken⟩ := Broadcaster.frame_workerStep hb
        exact h.setServer ((h.server k hc.1).workerStep hc.1 hc.2.1 hb) hsent htaken
      · cases hs

theorem server_of_coordinator (hs : ExchangeState.step cfg s (.coordinator k) = some s') :
    ∃ b message, (s.server k).coordinatorStep cfg k = some (b, message) ∧ s'.server k = b := by
  unfold ExchangeState.step at hs
  dsimp only at hs
  split at hs
  · obtain ⟨⟨b, message⟩, hb, rfl⟩ := Option.map_eq_some_iff.mp hs
    refine ⟨b, message, hb, ?_⟩
    cases message with
    | none => exact Function.update_self _ _ _
    | some x => exact Function.update_self _ _ _
  · cases hs

theorem inv_of_run (h : run (ExchangeState.step cfg) (ExchangeState.initial cfg) as = some s) :
    Inv cfg s :=
  run_invariant (Inv cfg) (fun _ _ _ hi hs => hi.step hs) h (Inv.initial cfg)

end ExchangeState

namespace Broadcaster

variable {cfg : ExchangeConfig} {k : Nat} {b : Broadcaster}

/-- `aggregateTransaction` has nothing left to wait for. -/
def CanReturn (cfg : ExchangeConfig) (b : Broadcaster) : Prop :=
  b.pc = .waitMany ∧
    ∀ t < cfg.remoteAggregationBlockServerCount, (b.workers t).isSignalled = true

/-- The call returns only in this way: it is the first one for its epoch. -/
theorem Inv.canReturn {b' : Broadcaster} {message : Option AggregationExchange} (h : Inv cfg k b)
    (hs : b.coordinatorStep cfg k = some (b', message)) (hpc' : b'.pc = .returned) :
    CanReturn cfg b := by
  unfold Broadcaster.coordinatorStep at hs
  cases hpc : b.pc with
  | assign queue =>
      rw [hpc] at hs
      cases queue <;> cases hs <;> cases hpc'
  | aggregateTransaction =>
      have hlt := h.epoch_before (by rw [hpc]; rfl)
      rw [hpc] at hs
      cases hs
      unfold Broadcaster.aggregateTransaction at hpc'
      rw [if_neg (Nat.ne_of_lt hlt)] at hpc'
      cases hpc'
  | sendReply =>
      rw [hpc] at hs
      cases hs
      cases hpc'
  | waitMany =>
      rw [hpc] at hs
      dsimp only at hs
      split at hs
      · rename_i hall
        exact ⟨hpc, hall⟩
      · cases hs
  | returned =>
      rw [hpc] at hs
      cases hs
      cases hpc'

/-- When all tasks are done, each listener's message has been taken by one of them. -/
theorem Inv.exists_task (h : Inv cfg k b) (hret : CanReturn cfg b) {i : Nat}
    (hi : i < cfg.remoteAggregationBlockServerCount) :
    ∃ t < cfg.remoteAggregationBlockServerCount, ∃ x, b.workers t = .signalled i x := by
  have htask : ∀ t : Fin cfg.remoteAggregationBlockServerCount,
      ∃ (j : Fin cfg.remoteAggregationBlockServerCount) (x : AggregationExchange),
        b.workers t = .signalled j x := by
    intro t
    have hsig := hret.2 t t.isLt
    cases hw : b.workers t with
    | signalled j x =>
        have hm : (b.workers t).message = some (j, x) := by rw [hw]; rfl
        exact ⟨⟨j, (h.tasks t t.isLt j x hm).listener⟩, x, rfl⟩
    | _ =>
        rw [hw] at hsig
        cases hsig
  choose f x hf using htask
  have hinj : Function.Injective f := by
    intro t u htu
    have ht : (b.workers t).message = some (↑(f t), x t) := by rw [hf t]; rfl
    have hu : (b.workers u).message = some (↑(f t), x u) := by rw [hf u, htu]; rfl
    exact Fin.ext (h.distinct t t.isLt u u.isLt _ _ _ ht hu)
  obtain ⟨t, ht⟩ := Finite.injective_iff_surjective.mp hinj ⟨i, hi⟩
  exact ⟨t, t.isLt, x t, by rw [hf t, ht]⟩

/-- The message of exactly one other server has set a transaction when the call can return. -/
theorem Inv.received_once (h : Inv cfg k b) (hk : k < cfg.totalServerCount)
    (hret : CanReturn cfg b) {u : Transaction}
    (hu : u ∈ b.listenTransaction b.currentEpoch) :
    ∃ j < cfg.totalServerCount, j ≠ k ∧ b.receivedFrom u.tid = [j] ∧
      ∃ node ∈ (cfg.exchangeOf j b.currentEpoch).node, node.tid = u.tid ∧
        u.transactionResult = TransactionResult.ofNat node.result ∧
          u.kvRWSet = (cfg.msg.parseFromString node.rwset).2 := by
  have hlisten := h.listening (by rw [hret.1]; rfl)
  have hmem : u.tid ∈ (b.listenTransaction b.currentEpoch).map Transaction.tid :=
    List.mem_map_of_mem hu
  rw [hlisten, ExchangeConfig.mem_remoteMap] at hmem
  obtain ⟨j, hj, hlocal⟩ := cfg.exists_local u.tid
  have hjk : j ≠ k := by
    rintro rfl
    rw [hlocal] at hmem
    cases hmem.2
  obtain ⟨i, hi, rfl⟩ := exists_peer hk hj hjk
  obtain ⟨t, ht, x, hw⟩ := h.exists_task hret hi
  have htask := h.tasks t ht i x (by rw [hw]; rfl)
  obtain ⟨node, hnode, hid⟩ := List.mem_map.mp
    (ExchangeConfig.mem_exchangeOf.mpr ⟨hmem.1, hlocal⟩)
  have hwritten : node ∈ (b.workers t).written := by
    rw [hw]
    show node ∈ x.node
    rw [htask.exchange]
    exact hnode
  obtain ⟨hfrom, hset⟩ := htask.written node hwritten
  rw [hid] at hfrom
  exact ⟨peer k i, hj, hjk, hfrom, node, hnode, hid, hset u hu hid.symm⟩

end Broadcaster

/-- The exchange stays in step on every server, however far the others are. -/
theorem exchange_in_step (cfg : ExchangeConfig) (as : List ExchangeAction) (s : ExchangeState)
    (h : run (ExchangeState.step cfg) (ExchangeState.initial cfg) as = some s) (k : Nat)
    (hk : k < cfg.totalServerCount) :
    (s.server k).aborted = false ∧
    (∀ t < cfg.remoteAggregationBlockServerCount, ∀ i x,
      ((s.server k).workers t).message = some (i, x) →
        x = cfg.exchangeOf (peer k i) (s.server k).currentEpoch ∧
        x.epoch = (s.server k).broadcastEpoch ∧
        ∀ node ∈ x.node,
          node.tid ∈ ((s.server k).listenTransaction x.epoch).map Transaction.tid) ∧
    (∀ s', ExchangeState.step cfg s (.coordinator k) = some s' →
      (s'.server k).pc = .returned →
        ∀ u ∈ (s.server k).listenTransaction (s.server k).currentEpoch,
          ∃ j < cfg.totalServerCount, j ≠ k ∧ (s.server k).receivedFrom u.tid = [j] ∧
            ∃ node ∈ (cfg.exchangeOf j (s.server k).currentEpoch).node, node.tid = u.tid ∧
              u.transactionResult = TransactionResult.ofNat node.result ∧
                u.kvRWSet = (cfg.msg.parseFromString node.rwset).2) := by
  have hinv := (ExchangeState.inv_of_run h).server k hk
  refine ⟨hinv.aborted, fun t ht i x hm => ?_, fun s' hs hpc u hu => ?_⟩
  · have hbusy : (s.server k).workers t ≠ .idle := fun hc => by rw [hc] at hm; cases hm
    have hx := (hinv.tasks t ht i x hm).exchange
    have hepoch : x.epoch = (s.server k).currentEpoch := by rw [hx]; rfl
    refine ⟨hx, ?_, fun node hnode => ?_⟩
    · rw [hepoch, hinv.epoch_calling (hinv.calling_of_busy hbusy)]
    · rw [hepoch]
      exact hinv.mem_listen hk ht hm hnode
  · obtain ⟨b, message, hb, hserver⟩ := ExchangeState.server_of_coordinator hs
    rw [hserver] at hpc
    exact hinv.received_once hk (hinv.canReturn hb hpc) hu

/-! ## Three servers -/

def threeServers : ExchangeConfig where
  cluster :=
    { clusterIPs := [[1], [2], [3]]
      count := by decide
      unique := by decide
      terminated := by decide }
  msg := .protobuf
  latestSavedEpoch := 0
  transactions e := [{ epoch := e, tid := 7 }, { epoch := e, tid := 5 }, { epoch := e, tid := 3 }]
  epoch_eq := by
    intro e t ht
    simp only [List.mem_cons, List.not_mem_nil, or_false] at ht
    rcases ht with rfl | rfl | rfl <;> rfl
  executed _ _ := (.commit, {})

/-- Each server sends its message, and server 0 takes those of the others. -/
def threeServersRun : List ExchangeAction :=
  let send k := List.replicate 6 (ExchangeAction.coordinator k)
  let listen k i := List.replicate 3 (ExchangeAction.listener k i)
  let pool k t := List.replicate 4 (ExchangeAction.worker k t)
  send 1 ++ send 0 ++ listen 0 0 ++ pool 0 1 ++ send 2 ++ listen 0 1 ++ pool 0 0

theorem exchange_in_step_three : ∃ s s',
    run (ExchangeState.step threeServers) (ExchangeState.initial threeServers) threeServersRun =
      some s ∧
    ExchangeState.step threeServers s (.coordinator 0) = some s' ∧
    (s'.server 0).pc = .returned ∧
    ((s.server 0).listenTransaction (s.server 0).currentEpoch).map Transaction.tid = [5, 7] ∧
    ∀ u ∈ (s.server 0).listenTransaction (s.server 0).currentEpoch,
      ∃ j < 3, j ≠ 0 ∧ (s.server 0).receivedFrom u.tid = [j] := by
  have hany : (run (ExchangeState.step threeServers) (ExchangeState.initial threeServers)
      threeServersRun).any (fun s =>
        (ExchangeState.step threeServers s (.coordinator 0)).any
          (fun s' => (s'.server 0).pc = .returned) ∧
        ((s.server 0).listenTransaction (s.server 0).currentEpoch).map Transaction.tid = [5, 7]) =
      true := by decide +kernel
  obtain ⟨s, hs, hret, htids⟩ := exists_of_any hany
  obtain ⟨s', hs', hpc⟩ := exists_of_any hret
  refine ⟨s, s', hs, hs', hpc, htids, fun u hu => ?_⟩
  obtain ⟨-, -, hreceived⟩ := exchange_in_step threeServers threeServersRun s hs 0 (by decide)
  obtain ⟨j, hj, hj0, hfrom, -⟩ := hreceived s' hs' hpc u hu
  exact ⟨j, hj, hj0, hfrom⟩

end NeuChain.Server
