/-
  The coordinator and the listeners of a server in the exchange of results.

  Both keep `Inv`. The coordinator sends the message of the epoch it is in (`Sends`), and a
  listener receives the messages of its link one after the other (`Takes`).
-/
import NeuChain.Server.ExchangeTasks

namespace NeuChain.Server

open NeuChain Lib

namespace Broadcaster

variable {cfg : ExchangeConfig} {k : Nat} {b b' : Broadcaster}

/-! ## The coordinator -/

section Coordinator

theorem localMap_snoc (ts : List Transaction) (t : Transaction) : cfg.localMap k (ts ++ [t]) =
    if cfg.isLocalTransaction k t.tid = true then insertTransaction t (cfg.localMap k ts)
    else cfg.localMap k ts := by
  unfold ExchangeConfig.localMap
  rw [List.filter_append, List.filter_singleton]
  cases cfg.isLocalTransaction k t.tid with
  | true => exact mapOf_snoc _ t
  | false => exact congrArg mapOf (List.append_nil _)

theorem remoteMap_snoc (ts : List Transaction) (t : Transaction) : cfg.remoteMap k (ts ++ [t]) =
    if cfg.isLocalTransaction k t.tid = true then cfg.remoteMap k ts
    else insertTransaction t (cfg.remoteMap k ts) := by
  unfold ExchangeConfig.remoteMap
  rw [List.filter_append, List.filter_singleton]
  cases cfg.isLocalTransaction k t.tid with
  | true => exact congrArg mapOf (List.append_nil _)
  | false => exact mapOf_snoc _ t

/-- Only the maps and the place of the coordinator change, and no task is there. -/
theorem Inv.setMaps {pc : AggregatePc} {broadcast listen : Nat → List Transaction}
    (h : Inv cfg k b) (hpc : b.pc.before = true) (hpc' : pc.before = true)
    (hmaps : MapsAt cfg k { b with
      broadcastTransaction := broadcast, listenTransaction := listen, pc := pc } pc)
    (hlater : ∀ e, b.currentEpoch < e → broadcast e = [] ∧ listen e = []) :
    Inv cfg k { b with
      broadcastTransaction := broadcast, listenTransaction := listen, pc := pc } := by
  have hcall : ∀ {pc : AggregatePc}, pc.before = true → pc.calling = false ∧ pc ≠ .returned := by
    intro pc hpc
    cases pc with
    | assign queue => exact ⟨rfl, by nofun⟩
    | aggregateTransaction => exact ⟨rfl, by nofun⟩
    | _ => cases hpc
  have hidle := h.idle (hcall hpc).1
  have hcall' : pc.calling ≠ true := by
    rw [(hcall hpc').1]
    decide
  refine { h with
    epoch_before := fun _ => h.epoch_before hpc
    epoch_calling := fun hc => absurd hc hcall'
    maps := hmaps
    later := hlater
    popped := ?_
    idle := fun _ => hidle
    busy := fun hc => absurd hc hcall'
    tasks := fun t _ i x hm => ?_
    received := fun hc => absurd hc hcall' }
  · rw [turn_of_ne (hcall hpc').2, ← turn_of_ne (hcall hpc).2]
    exact h.popped
  · rw [show b.workers t = .idle from hidle t] at hm
    cases hm

theorem Inv.assign {t : Transaction} {queue : List Transaction} (h : Inv cfg k b)
    (hpc : b.pc = .assign (t :: queue)) :
    Inv cfg k { b.assign cfg k t with pc := .assign queue } := by
  have hmaps := h.maps
  rw [hpc] at hmaps
  obtain ⟨done, hall, hbroadcast, hlisten⟩ := hmaps
  have hepoch : t.epoch = b.currentEpoch := cfg.epoch_eq _ t (by rw [hall]; simp)
  have hall' : cfg.transactions b.currentEpoch = (done ++ [t]) ++ queue := by
    rw [hall, List.append_assoc]
    rfl
  have hbefore : b.pc.before = true := by rw [hpc]; rfl
  unfold Broadcaster.assign
  split
  · rename_i hlocal
    refine h.setMaps hbefore rfl ⟨done ++ [t], hall', ?_, ?_⟩ fun e he => ⟨?_, (h.later e he).2⟩
    · show Function.update b.broadcastTransaction t.epoch _ b.currentEpoch = _
      rw [hepoch, Function.update_self, hbroadcast, localMap_snoc, if_pos hlocal]
    · show b.listenTransaction b.currentEpoch = _
      rw [hlisten, remoteMap_snoc, if_pos hlocal]
    · show Function.update b.broadcastTransaction t.epoch _ e = []
      rw [hepoch, Function.update_of_ne (Nat.ne_of_gt he), (h.later e he).1]
  · rename_i hlocal
    refine h.setMaps hbefore rfl ⟨done ++ [t], hall', ?_, ?_⟩ fun e he => ⟨(h.later e he).1, ?_⟩
    · show b.broadcastTransaction b.currentEpoch = _
      rw [hbroadcast, localMap_snoc, if_neg hlocal]
    · show Function.update b.listenTransaction t.epoch _ b.currentEpoch = _
      rw [hepoch, Function.update_self, hlisten, remoteMap_snoc, if_neg hlocal]
    · show Function.update b.listenTransaction t.epoch _ e = []
      rw [hepoch, Function.update_of_ne (Nat.ne_of_gt he), (h.later e he).2]

theorem Inv.readPhase (h : Inv cfg k b) (hpc : b.pc = .assign []) :
    Inv cfg k { b.readPhase cfg k with pc := .aggregateTransaction } := by
  have hmaps := h.maps
  rw [hpc] at hmaps
  obtain ⟨done, hall, hbroadcast, hlisten⟩ := hmaps
  rw [List.append_nil] at hall
  refine h.setMaps (by rw [hpc]; rfl) rfl ⟨?_, ?_⟩ fun e he => ⟨?_, (h.later e he).2⟩
  · show makeExchange cfg.msg b.currentEpoch (Function.update b.broadcastTransaction b.currentEpoch
      _ b.currentEpoch) = _
    rw [Function.update_self, hbroadcast, ← hall]
    rfl
  · show (b.listenTransaction b.currentEpoch).map _ = _
    rw [hlisten, ← hall]
  · show Function.update b.broadcastTransaction b.currentEpoch _ e = []
    rw [Function.update_of_ne (Nat.ne_of_gt he), (h.later e he).1]

/-- Between two calls of `aggregateTransaction` whole rounds have been taken. -/
theorem Inv.popped_idle (h : Inv cfg k b) (hcall : b.pc.calling = false) :
    b.popped = b.turn cfg * cfg.remoteAggregationBlockServerCount := by
  rw [h.popped, count_eq_zero fun t _ => by rw [h.idle hcall t]; nofun, Nat.add_zero]

/-- The tasks are started. -/
theorem Inv.aggregateTransaction (h : Inv cfg k b) (hpc : b.pc = .aggregateTransaction) :
    Inv cfg k (b.aggregateTransaction cfg) := by
  have hmaps := h.maps
  rw [hpc] at hmaps
  have hlt := h.epoch_before (by rw [hpc]; rfl)
  have hidle := h.idle (by rw [hpc]; rfl)
  unfold Broadcaster.aggregateTransaction
  rw [if_neg (Nat.ne_of_lt hlt)]
  refine { h with
    epoch_le := le_rfl
    epoch_before := fun hc => by cases hc
    epoch_calling := fun _ => rfl
    maps := hmaps
    popped := ?_
    idle := fun hc => by cases hc
    busy := fun _ t ht => ?_
    tasks := fun t ht i x hm => ?_
    distinct := fun t ht u _ i x y hm => ?_
    received := fun _ tid htid => absurd rfl htid }
  · show b.popped = _
    rw [h.popped_idle (by rw [hpc]; rfl), turn_of_ne (by rw [hpc]; nofun), turn_of_ne (by nofun),
      count_eq_zero fun t ht => ?_, Nat.add_zero]
    dsimp only
    rw [if_pos ht]
    nofun
  · dsimp only
    rw [if_pos ht]
    nofun
  · dsimp only at hm
    rw [if_pos ht] at hm
    cases hm
  · dsimp only at hm
    rw [if_pos ht] at hm
    cases hm

theorem Inv.sendReply (h : Inv cfg k b) (hpc : b.pc = .sendReply) :
    Inv cfg k { b with
      broadcastTransaction := Function.update b.broadcastTransaction b.currentEpoch []
      pc := .waitMany } := by
  have hcall : b.pc.calling = true := by rw [hpc]; rfl
  refine { h with
    epoch_before := fun hc => by cases hc
    epoch_calling := fun _ => h.epoch_calling hcall
    maps := h.listening hcall
    later := fun e he => ⟨?_, (h.later e he).2⟩
    popped := ?_
    idle := fun hc => by cases hc
    busy := fun _ => h.busy hcall
    received := fun _ => h.received hcall }
  · show Function.update b.broadcastTransaction b.currentEpoch [] e = []
    rw [Function.update_of_ne (Nat.ne_of_gt he), (h.later e he).1]
  · rw [turn_of_ne (by nofun), ← turn_calling hcall]
    exact h.popped

theorem message_of_isSignalled {task : PoolTask} (h : task.isSignalled = true) :
    task.message.isSome = true := by
  cases task with
  | signalled i x => rfl
  | _ => cases h

/-- The call returns: all tasks have taken a message. -/
theorem Inv.waitMany (h : Inv cfg k b) (hpc : b.pc = .waitMany)
    (hall : ∀ t < cfg.remoteAggregationBlockServerCount, (b.workers t).isSignalled = true) :
    Inv cfg k { b with
      listenTransaction := Function.update b.listenTransaction b.broadcastEpoch []
      workers := fun _ => .idle
      pc := .returned } := by
  have hcall : b.pc.calling = true := by rw [hpc]; rfl
  refine { h with
    epoch_before := fun hc => by cases hc
    epoch_calling := fun hc => by cases hc
    maps := trivial
    later := fun e he => ⟨(h.later e he).1, ?_⟩
    popped := ?_
    idle := fun _ _ => rfl
    busy := fun hc => by cases hc
    tasks := fun _ _ _ _ hm => by cases hm
    distinct := fun _ _ _ _ _ _ _ hm => by cases hm
    received := fun hc => by cases hc }
  · show Function.update b.listenTransaction b.broadcastEpoch [] e = []
    rw [h.epoch_calling hcall, Function.update_of_ne (Nat.ne_of_gt he), (h.later e he).2]
  · have hfull : Nat.count (fun t => (b.workers t).message.isSome = true)
        cfg.remoteAggregationBlockServerCount = cfg.remoteAggregationBlockServerCount :=
      Nat.count_iff_forall.mpr fun t ht => message_of_isSignalled (hall t ht)
    have hturn : turn cfg { b with
        listenTransaction := Function.update b.listenTransaction b.broadcastEpoch []
        workers := fun _ => .idle
        pc := .returned } = b.currentEpoch - cfg.startupEpoch + 1 := rfl
    rw [hturn, count_eq_zero fun _ _ => by nofun, Nat.add_zero, Nat.succ_mul]
    show b.popped = _
    rw [h.popped, hfull, turn_calling hcall]

theorem Inv.returned (h : Inv cfg k b) (hpc : b.pc = .returned) :
    Inv cfg k { b with
      currentEpoch := b.currentEpoch + 1
      pc := .assign (cfg.transactions (b.currentEpoch + 1)) } := by
  have hidle := h.idle (by rw [hpc]; rfl)
  obtain ⟨hbroadcast, hlisten⟩ := h.later (b.currentEpoch + 1) (Nat.lt_succ_self _)
  refine { h with
    started := Nat.le_succ_of_le h.started
    epoch_le := Nat.le_succ_of_le h.epoch_le
    epoch_before := fun _ => Nat.lt_succ_of_le h.epoch_le
    epoch_calling := fun hc => by cases hc
    maps := ⟨[], rfl, hbroadcast, hlisten⟩
    later := fun e he => h.later e (Nat.lt_of_succ_lt he)
    popped := ?_
    idle := fun _ => hidle
    busy := fun hc => by cases hc
    tasks := fun t _ i x hm => ?_
    received := fun hc => by cases hc }
  · have hturn : b.turn cfg = b.currentEpoch - cfg.startupEpoch + 1 := by
      unfold turn
      rw [if_pos hpc]
    have hstart := h.started
    rw [turn_of_ne (by nofun)]
    show b.popped = (b.currentEpoch + 1 - cfg.startupEpoch) * _ + _
    rw [show b.currentEpoch + 1 - cfg.startupEpoch = b.turn cfg by omega]
    exact h.popped
  · rw [show b.workers t = .idle from hidle t] at hm
    cases hm

/-- What a step of the coordinator sends. -/
def Sends (cfg : ExchangeConfig) (k : Nat) (b b' : Broadcaster) :
    Option AggregationExchange → Prop
  | none => b'.sent cfg = b.sent cfg
  | some x => b'.sent cfg = b.sent cfg + 1 ∧ x = cfg.exchangeOf k (cfg.startupEpoch + b.sent cfg)

theorem sent_of_ne (h : b.pc ≠ .waitMany) (h' : b.pc ≠ .returned) :
    b.sent cfg = b.currentEpoch - cfg.startupEpoch := by
  unfold sent
  rw [if_neg fun hc => hc.elim h h', Nat.add_zero]

theorem Inv.coordinatorStep {message : Option AggregationExchange} (h : Inv cfg k b)
    (hs : b.coordinatorStep cfg k = some (b', message)) :
    Inv cfg k b' ∧ (b'.listener = b.listener ∧ b'.barrier = b.barrier) ∧
      Sends cfg k b b' message := by
  unfold Broadcaster.coordinatorStep at hs
  cases hpc : b.pc with
  | assign queue =>
      rw [hpc] at hs
      have hsent : b.sent cfg = b.currentEpoch - cfg.startupEpoch :=
        sent_of_ne (by rw [hpc]; nofun) (by rw [hpc]; nofun)
      cases queue with
      | nil =>
          cases hs
          exact ⟨h.readPhase hpc, ⟨rfl, rfl⟩, hsent.symm⟩
      | cons t queue =>
          cases hs
          refine ⟨h.assign hpc, ?_, ?_⟩
          · unfold Broadcaster.assign
            split <;> exact ⟨rfl, rfl⟩
          · unfold Broadcaster.assign
            split <;> exact hsent.symm
  | aggregateTransaction =>
      rw [hpc] at hs
      cases hs
      have hsent : b.sent cfg = b.currentEpoch - cfg.startupEpoch :=
        sent_of_ne (by rw [hpc]; nofun) (by rw [hpc]; nofun)
      refine ⟨h.aggregateTransaction hpc, ?_⟩
      unfold Broadcaster.aggregateTransaction
      rw [if_neg (Nat.ne_of_lt (h.epoch_before (by rw [hpc]; rfl)))]
      exact ⟨⟨rfl, rfl⟩, hsent.symm⟩
  | sendReply =>
      rw [hpc] at hs
      cases hs
      have hsent : b.sent cfg = b.currentEpoch - cfg.startupEpoch :=
        sent_of_ne (by rw [hpc]; nofun) (by rw [hpc]; nofun)
      have hmaps := h.maps
      rw [hpc] at hmaps
      refine ⟨h.sendReply hpc, ⟨rfl, rfl⟩, by rw [hsent]; rfl, ?_⟩
      rw [hsent, Nat.add_sub_cancel' h.started]
      exact hmaps.1
  | waitMany =>
      rw [hpc] at hs
      dsimp only at hs
      split at hs
      · rename_i hall
        cases hs
        refine ⟨h.waitMany hpc hall, ⟨rfl, rfl⟩, ?_⟩
        show _ = b.sent cfg
        unfold sent
        rw [if_pos (Or.inl hpc)]
        rfl
      · cases hs
  | returned =>
      rw [hpc] at hs
      cases hs
      refine ⟨h.returned hpc, ⟨rfl, rfl⟩, ?_⟩
      have hstart := h.started
      show b.currentEpoch + 1 - cfg.startupEpoch + 0 = b.sent cfg
      unfold sent
      rw [if_pos (Or.inr hpc)]
      omega

end Coordinator

/-! ## Listeners -/

section Listener

variable {i : Nat} {pc : ListenerPc} {x : AggregationExchange}
  {link rest : List AggregationExchange}

theorem rounds_setListener (b : Broadcaster) (i : Nat) (pc : ListenerPc) :
    (b.setListener i pc).rounds = { b.rounds with
      pushed := Function.update b.rounds.pushed i (decide (pc = .await)) } := by
  unfold Broadcaster.rounds
  congr 1
  funext j
  show decide (Function.update b.listener i pc j = .await) = _
  by_cases hj : j = i
  · rw [hj, Function.update_self, Function.update_self]
  · rw [Function.update_of_ne hj, Function.update_of_ne hj]

theorem Inv.getReply (h : Inv cfg k b) (hpc : b.listener i = .getReply)
    (hx : x = cfg.exchangeOf (peer k i) (cfg.startupEpoch + b.taken i)) :
    Inv cfg k (b.setListener i (.push x)) := by
  refine { h with rounds := ?_, inHand := fun j hj y hy => ?_ }
  · rw [rounds_setListener]
    have hsame : Function.update b.rounds.pushed i (decide (ListenerPc.push x = .await)) =
        b.rounds.pushed := by
      rw [Function.update_eq_self_iff]
      show decide (ListenerPc.push x = .await) = decide (b.listener i = .await)
      rw [hpc]
      rfl
    rw [hsame]
    exact h.rounds
  · replace hy : Function.update b.listener i (.push x) j = .push y := hy
    by_cases hji : j = i
    · rw [hji, Function.update_self] at hy
      cases hy
      rw [hji, hx]
      unfold taken
      rw [if_pos hpc]
      rfl
    · rw [Function.update_of_ne hji] at hy
      exact h.inHand j hj y hy

theorem Inv.pushMessage {r : Nat} (h : Inv cfg k b) (hi : i < cfg.remoteAggregationBlockServerCount)
    (hpc : b.listener i = .push x) (hparty : b.barrier.party i = .outside r) :
    Inv cfg k ({ b with
      remoteRecvBuffer := b.remoteRecvBuffer ++ [(i, x)]
      pushed := b.pushed ++ [(i, r)] }.setListener i .await) := by
  have hx := h.inHand i hi x hpc
  rw [hparty] at hx
  refine { h with
    rounds := ?_
    inHand := fun j hj y hy => ?_
    buffer := ?_
    popped_le := ?_
    tasks := fun t ht j y hm => ?_ }
  · rw [rounds_setListener]
    refine h.rounds.push hi hparty ?_
    show decide (b.listener i = .await) = false
    rw [hpc]
    rfl
  · replace hy : Function.update b.listener i .await j = .push y := hy
    by_cases hji : j = i
    · rw [hji, Function.update_self] at hy
      cases hy
    · rw [Function.update_of_ne hji] at hy
      exact h.inHand j hj y hy
  · show b.remoteRecvBuffer ++ [(i, x)] = ((b.pushed ++ [(i, r)]).drop b.popped).map (entry cfg k)
    rw [List.drop_append_of_le_length h.popped_le, List.map_append, ← h.buffer, hx]
    rfl
  · show b.popped ≤ (b.pushed ++ [(i, r)]).length
    rw [List.length_append]
    exact Nat.le_add_right_of_le h.popped_le
  · have hold := h.tasks t ht j y hm
    refine { hold with taken := ?_ }
    show _ ∈ (b.pushed ++ [(i, r)]).take b.popped
    rw [List.take_append_of_le_length h.popped_le]
    exact hold.taken

/-- Listener `i` goes on at the barrier. -/
theorem Inv.setBarrier {barrier : Barrier} {listener : Nat → ListenerPc} (h : Inv cfg k b)
    (hrounds : ({ b with barrier := barrier, listener := listener }).rounds.Inv
      cfg.remoteAggregationBlockServerCount)
    (hself : ∀ y, listener i ≠ .push y)
    (hother : ∀ j, j ≠ i →
      listener j = b.listener j ∧ barrier.party j = b.barrier.party j) :
    Inv cfg k { b with barrier := barrier, listener := listener } := by
  refine { h with rounds := hrounds, inHand := fun j hj y hy => ?_ }
  by_cases hji : j = i
  · subst hji
    exact absurd hy (hself y)
  · obtain ⟨hpc, hparty⟩ := hother j hji
    dsimp only at hy ⊢
    rw [hparty]
    exact h.inHand j hj y (hpc.symm.trans hy)

theorem taken_setListener (b : Broadcaster) {j : Nat} (hj : j ≠ i) :
    (b.setListener i pc).taken j = b.taken j := by
  show _ + (if Function.update b.listener i pc j = .getReply then 0 else 1) = b.taken j
  rw [Function.update_of_ne hj]
  rfl

theorem taken_setListener_self (b : Broadcaster) (i : Nat) (pc : ListenerPc) :
    (b.setListener i pc).taken i =
      (b.barrier.party i).rounds + if pc = .getReply then 0 else 1 := by
  show _ + (if Function.update b.listener i pc i = .getReply then 0 else 1) = _
  rw [Function.update_self]
  rfl

/-- What a listener has received, and what is left on its link. -/
def Takes (i : Nat) (link rest : List AggregationExchange) (b b' : Broadcaster) : Prop :=
  (∀ j, j ≠ i → b'.taken j = b.taken j) ∧
    ((b'.taken i = b.taken i ∧ rest = link) ∨
      (b'.taken i = b.taken i + 1 ∧ ∃ x, link = x :: rest))

/-- Listener `i` leaves the barrier. -/
theorem Inv.next {barrier : Barrier} {r : Nat} (h : Inv cfg k b)
    (hrounds : Rounds.Inv cfg.remoteAggregationBlockServerCount { b.rounds with
      barrier := barrier, pushed := Function.update b.rounds.pushed i false })
    (hparty : barrier.party = Function.update b.barrier.party i (.outside (r + 1)))
    (hpc : b.listener i = .await) (hr : (b.barrier.party i).rounds = r) :
    Inv cfg k ({ b with barrier := barrier }.setListener i .getReply) ∧
      Takes i link link b ({ b with barrier := barrier }.setListener i .getReply) := by
  refine ⟨h.setBarrier (i := i) ?_ ?_ fun j hj => ⟨?_, ?_⟩, fun j hj => ?_, Or.inl ⟨?_, rfl⟩⟩
  · have heq := rounds_setListener { b with barrier := barrier } i .getReply
    exact heq ▸ hrounds
  · intro y
    rw [Function.update_self]
    nofun
  · exact Function.update_of_ne hj _ _
  · rw [hparty, Function.update_of_ne hj]
  · rw [taken_setListener _ hj]
    show (barrier.party j).rounds + _ = (b.barrier.party j).rounds + _
    rw [hparty, Function.update_of_ne hj]
  · rw [taken_setListener_self, if_pos rfl]
    show (barrier.party i).rounds + 0 = b.taken i
    unfold taken
    rw [hparty, Function.update_self, hr, if_neg (by rw [hpc]; nofun)]
    rfl

theorem Inv.arrive {r : Nat} (h : Inv cfg k b) (hi : i < cfg.remoteAggregationBlockServerCount)
    (hpc : b.listener i = .await) (hparty : b.barrier.party i = .outside r) :
    Inv cfg k { b with barrier := b.barrier.arrive cfg.remoteAggregationBlockServerCount i r } ∧
      Takes i link link b
        { b with barrier := b.barrier.arrive cfg.remoteAggregationBlockServerCount i r } := by
  have hne : ∀ j, j ≠ i →
      (b.barrier.arrive cfg.remoteAggregationBlockServerCount i r).party j = b.barrier.party j :=
    fun j hj => Function.update_of_ne hj _ _
  have hpushed : b.rounds.pushed i = true := by
    show decide (b.listener i = .await) = true
    rw [hpc]
    rfl
  refine ⟨h.setBarrier (i := i) (h.rounds.arrive hi hparty hpushed) ?_ fun j hj => ⟨rfl, hne j hj⟩,
    fun j hj => ?_, Or.inl ⟨?_, rfl⟩⟩
  · rw [hpc]
    nofun
  · unfold taken
    dsimp only
    rw [hne j hj]
  · unfold taken
    dsimp only
    rw [hparty, Barrier.rounds_arrive]
    rfl

theorem Inv.listenerStep (h : Inv cfg k b) (hi : i < cfg.remoteAggregationBlockServerCount)
    (hlink : ∀ x l, link = x :: l →
      x = cfg.exchangeOf (peer k i) (cfg.startupEpoch + b.taken i))
    (hs : b.listenerStep cfg i link = some (b', rest)) :
    Inv cfg k b' ∧ b'.sent cfg = b.sent cfg ∧ Takes i link rest b b' := by
  unfold Broadcaster.listenerStep at hs
  split at hs
  · rename_i r hpc hparty
    split at hs <;> cases hs
    rename_i x
    refine ⟨h.getReply hpc (hlink x rest rfl), rfl, fun j hj => taken_setListener b hj, Or.inr ?_⟩
    refine ⟨?_, x, rfl⟩
    rw [taken_setListener_self, if_neg (by nofun)]
    unfold taken
    rw [if_pos hpc]
  · rename_i x r hpc hparty
    split at hs <;> cases hs
    refine ⟨h.pushMessage hi hpc hparty, rfl, fun j hj => taken_setListener _ hj, Or.inl ⟨?_, rfl⟩⟩
    rw [taken_setListener_self, if_neg (by nofun)]
    unfold taken
    rw [if_neg (by rw [hpc]; nofun)]
  · rename_i r hpc hparty
    cases hs
    obtain ⟨hinv, htakes⟩ := h.arrive hi hpc hparty
    exact ⟨hinv, rfl, htakes⟩
  · rename_i r hpc hparty
    cases hs
    obtain ⟨hinv, htakes⟩ := h.next (h.rounds.release hi hparty) rfl hpc (by rw [hparty]; rfl)
    exact ⟨hinv, rfl, htakes⟩
  · rename_i r generation hpc hparty
    split at hs
    · rename_i hlt
      cases hs
      obtain ⟨hinv, htakes⟩ := h.next (h.rounds.leave hi hparty hlt) rfl hpc (by rw [hparty]; rfl)
      exact ⟨hinv, rfl, htakes⟩
    · cases hs
  · cases hs

end Listener

end Broadcaster

end NeuChain.Server
