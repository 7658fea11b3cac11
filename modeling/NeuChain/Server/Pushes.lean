/-
  What the proxies of a server push to their buffers.

  A proxy pushes at most what has come in for it, in batches of local users or in messages, each
  transaction under its id: what has been pushed, what its receiver is about to push and what waits
  in its queue is part of that (`outstanding_le`). Nothing is assumed about the messages.
-/
import Mathlib.Algebra.Order.Group.Multiset
import NeuChain.Server.ProxyServer

namespace NeuChain.Server

open NeuChain Lib

/-! ## Batches and what is pushed for them -/

/-- The transactions of a batch as they are pushed, under their ids. -/
def stamped (env : ProxyEnv) (batch : Bytes × List Transaction) : List Transaction :=
  batch.2.map fun t => t.setTransactionID (env.transactionID batch.1 t)

/-- Signature and transactions of a batch that has been handed over with its response. -/
def signedBatch (env : ProxyEnv) (batch : Bytes × List Transaction) : Bytes × List Transaction :=
  ((env.responseFromString batch.1).signature, batch.2)

/-- The batch in a message, if there is one. -/
def setBatch (env : ProxyEnv) (m : TransactionsWithProof) : List (Bytes × List Transaction) :=
  if m.type = .con then []
  else [((env.responseFromString m.proof).signature, m.data.filterMap (makeTransaction env))]

def messageBatch (env : ProxyEnv) (messageRaw : Bytes) : List (Bytes × List Transaction) :=
  match env.setFromString messageRaw with
  | none => []
  | some m => setBatch env m

def pushes (ops : List BufferOp) : List Transaction :=
  ops.filterMap fun
    | .push t => some t
    | .asyncEmptyBuffer _ => none

theorem pushes_append (l l' : List BufferOp) : pushes (l ++ l') = pushes l ++ pushes l' :=
  List.filterMap_append

section Pushes

variable {env : ProxyEnv} {ip : Bytes}

theorem pushes_batchOps (env : ProxyEnv) (e : Epoch) (signature : Bytes)
    (txs : List Transaction) :
    pushes (batchOps env signature (ofEpoch e txs)) <+: stamped env (signature, txs) := by
  have hall : pushes (batchOps env signature (ofEpoch e txs)) =
      stamped env (signature, ofEpoch e txs) := by
    unfold pushes batchOps stamped
    rw [List.filterMap_map, ← List.filterMap_eq_map]
    rfl
  rw [hall]
  exact (List.takeWhile_prefix _).map _

theorem pushes_finishEpochs (env : ProxyEnv) (st : LocalState) (n : Nat) :
    pushes (bufferOps (finishEpochs env st n).1) = [] := by
  induction n generalizing st with
  | zero => rfl
  | succ n ih => exact ih { epoch := st.epoch + 1 }

theorem pushes_receiveBatch (env : ProxyEnv) (st : LocalState) (raw : Bytes)
    (txs : List Transaction) :
    pushes (bufferOps (receiveBatch env st raw txs).1) <+:
      stamped env (signedBatch env (raw, txs)) := by
  have hpush := fun e => pushes_batchOps env e (env.responseFromString raw).signature txs
  have hfinish := pushes_finishEpochs env st ((env.responseFromString raw).epoch - st.epoch)
  unfold receiveBatch
  dsimp only
  split
  · split <;> rename_i heq
    · rw [bufferOps_append, bufferOps_map_buffer, pushes_append, hfinish]
      exact ops_of_pushTransactions heq ▸ hpush _
    · rw [bufferOps_append, bufferOps_append, bufferOps_map_buffer, bufferOps_sendReply,
        List.append_nil, pushes_append, hfinish]
      exact ops_of_pushTransactions heq ▸ hpush _
  · rw [hfinish]
    exact List.nil_prefix

/-! ### The list the pool workers fill in -/

/-- Each entry that has been filled in is the transaction at its place. -/
def FilledFrom (env : ProxyEnv) (data : List Bytes) (list : List (Option Transaction)) : Prop :=
  list.length = data.length ∧
    ∀ (i : Nat) (t : Transaction), list[i]? = some (some t) →
      data[i]?.bind (makeTransaction env) = some t

theorem filledFrom_poolWorker {data : List Bytes} (indices : List Nat)
    {list list' : List (Option Transaction)} {valid : Bool} (h : FilledFrom env data list)
    (hw : poolWorker env ip data indices list = some (valid, list')) :
    FilledFrom env data list' := by
  induction indices generalizing list with
  | nil =>
      cases hw
      exact h
  | cons i indices ih =>
      obtain ⟨t, ht, hw⟩ := Option.bind_eq_some_iff.mp hw
      split at hw
      · refine ih ⟨(List.length_set).trans h.1, fun j u hu => ?_⟩ hw
        rw [List.getElem?_set] at hu
        split at hu
        · rename_i hij
          subst hij
          split at hu
          · cases hu
            exact ht
          · cases hu
        · exact h.2 j u hu
      · cases hw
        exact h

theorem filledFrom_deserializeBatch {data : List Bytes} {list : List (Option Transaction)}
    {valid : Bool} (h : deserializeBatch env ip data = some (valid, list)) :
    FilledFrom env data list := by
  have hnone : FilledFrom env data (List.replicate data.length none) := by
    refine ⟨List.length_replicate, fun i t ht => ?_⟩
    rw [List.getElem?_replicate] at ht
    split at ht <;> cases ht
  obtain ⟨⟨valid₁, list₁⟩, h₁, h⟩ := Option.bind_eq_some_iff.mp h
  obtain ⟨⟨valid₂, list₂⟩, h₂, h⟩ := Option.map_eq_some_iff.mp h
  cases h
  exact filledFrom_poolWorker _ (filledFrom_poolWorker _ hnone h₁) h₂

/-- A list without a null pointer has all transactions of the message. -/
theorem eq_of_filledFrom {data : List Bytes} {list : List (Option Transaction)}
    {txs : List Transaction} (h : FilledFrom env data list) (hall : list.mapM id = some txs) :
    txs = data.filterMap (makeTransaction env) := by
  induction list generalizing data txs with
  | nil =>
      cases hall
      rw [List.length_eq_zero_iff.mp h.1.symm]
      rfl
  | cons o list ih =>
      rw [List.mapM_cons] at hall
      obtain ⟨t, ht, hall⟩ := Option.bind_eq_some_iff.mp hall
      obtain ⟨ts, hts, hall⟩ := Option.bind_eq_some_iff.mp hall
      cases hall
      obtain rfl : o = some t := ht
      obtain ⟨raw, data, rfl⟩ := List.exists_cons_of_length_eq_add_one h.1.symm
      have hfirst : makeTransaction env raw = some t := h.2 0 t rfl
      rw [List.filterMap_cons_some hfirst]
      congr 1
      exact ih ⟨Nat.succ.inj h.1, fun i u hu => h.2 (i + 1) u hu⟩ hts

theorem pushes_receiveMessage (env : ProxyEnv) (ip : Bytes) (st : RemoteState) (raw : Bytes) :
    pushes (receiveMessage env ip st raw).1 <+: (messageBatch env raw).flatMap (stamped env) := by
  unfold receiveMessage messageBatch
  cases env.setFromString raw with
  | none => exact List.nil_prefix
  | some m =>
    dsimp only
    unfold setBatch
    split
    · unfold receiveProofSet
      split <;> exact List.nil_prefix
    · rw [List.flatMap_cons, List.flatMap_nil, List.append_nil]
      unfold receiveTransactionSet
      dsimp only
      split
      · exact List.nil_prefix
      · split
        · exact List.nil_prefix
        · exact List.nil_prefix
        · rename_i list hlist
          split
          · exact List.nil_prefix
          · rename_i txs htxs
            rw [← eq_of_filledFrom (filledFrom_deserializeBatch hlist) htxs]
            split
            · split <;> rename_i heq <;>
                exact ops_of_pushRemote heq ▸ pushes_batchOps env st.epoch _ txs
            · exact List.nil_prefix

theorem pushes_timeout (env : ProxyEnv) (ip : Bytes) (st : RemoteState) (bit : InvalidBit) :
    pushes (remoteStep env ip st (.timeout bit)).1 = [] := by
  unfold remoteStep
  dsimp only
  split <;> rfl

end Pushes

/-! ## What is pushed to a buffer -/

namespace ProxyState

variable {τ : Type*} {cfg : ProxyConfig τ} {s s' : ProxyState τ} {p : Nat} {t : τ} {e : Nat}
  {a : ProxyAction τ}

/-- Neither the worker nor the rest of a call pushes anything. -/
def SamePushed (s s' : ProxyState τ) : Prop :=
  ∀ q, (s'.proxies q).pushed = (s.proxies q).pushed

theorem samePushed_of_update {b : TransactionBuffer τ}
    (hs : s'.proxies = Function.update s.proxies p b) (hb : b.pushed = (s.proxies p).pushed) :
    SamePushed s s' := by
  intro q
  rw [hs]
  by_cases hq : q = p
  · subst hq
    rw [Function.update_self, hb]
  · rw [Function.update_of_ne hq]

theorem samePushed_syncEmptyBuffer (hs : s.syncEmptyBuffer cfg p e = some s') :
    SamePushed s s' := by
  unfold ProxyState.syncEmptyBuffer at hs
  split at hs
  · cases hs
  · split at hs <;> cases hs
    · exact samePushed_of_update rfl rfl
    · exact fun _ => rfl

theorem samePushed_continuePush (hs : s.continuePush cfg p = some s') : SamePushed s s' := by
  unfold ProxyState.continuePush at hs
  split at hs
  · cases hs
  · split at hs <;> cases hs <;> exact samePushed_of_update rfl rfl
  · split at hs
    · rename_i hsync
      cases hs
      exact samePushed_syncEmptyBuffer hsync
    · cases hs
      exact samePushed_of_update rfl rfl

theorem samePushed_work (hs : s.work cfg p = some s') : SamePushed s s' := by
  unfold ProxyState.work at hs
  dsimp only at hs
  split at hs
  · split at hs <;> cases hs
    exact samePushed_of_update rfl rfl
  · split at hs <;> cases hs
    exact samePushed_of_update rfl rfl
  · cases hs; exact samePushed_of_update rfl rfl
  · cases hs; exact samePushed_of_update rfl rfl
  · cases hs; exact samePushed_of_update rfl rfl
  · split at hs
    · split at hs
      · rename_i hsync
        cases hs
        exact samePushed_syncEmptyBuffer hsync
      · cases hs
        exact samePushed_of_update rfl rfl
    · cases hs
  · cases hs; exact samePushed_of_update rfl rfl

theorem pushed_push (cfg : ProxyConfig τ) (s : ProxyState τ) (p : Nat) (t : τ) (q : Nat) :
    ((s.pushTransactionToBuffer cfg p t).proxies q).pushed = (s.proxies q).pushed ∨
    (q = p ∧ ((s.pushTransactionToBuffer cfg p t).proxies q).pushed =
      (s.proxies q).pushed ++ [t]) := by
  have hset : ∀ b : TransactionBuffer τ, b.pushed = (s.proxies p).pushed ++ [t] →
      ((s.setProxy p b).proxies q).pushed = (s.proxies q).pushed ∨
        (q = p ∧ ((s.setProxy p b).proxies q).pushed = (s.proxies q).pushed ++ [t]) := by
    intro b hb
    show (Function.update s.proxies p b q).pushed = _ ∨
      (q = p ∧ (Function.update s.proxies p b q).pushed = _)
    by_cases hq : q = p
    · subst hq
      right
      exact ⟨rfl, by rw [Function.update_self, hb]⟩
    · left
      rw [Function.update_of_ne hq]
  unfold pushTransactionToBuffer
  dsimp only
  split
  · split
    · exact hset _ rfl
    · split
      · exact hset _ rfl
      · exact Or.inl rfl
  · exact hset _ rfl

theorem step_pushed (hs : step cfg s a = some s') (q : Nat) :
    (s'.proxies q).pushed = (s.proxies q).pushed ∨
      ∃ t, a = .push q t ∧ (s'.proxies q).pushed = (s.proxies q).pushed ++ [t] := by
  cases step_cases hs with
  | @push p t hp hpc ht hmax =>
      rcases pushed_push cfg s p t q with heq | ⟨rfl, heq⟩
      · exact Or.inl heq
      · exact Or.inr ⟨t, rfl, heq⟩
  | continuePush hp hs => exact Or.inl (samePushed_continuePush hs q)
  | @asyncEmptyBuffer p hp hpc =>
      refine Or.inl (samePushed_of_update (s := s) (p := p) rfl ?_ q)
      rfl
  | work hp hs => exact Or.inl (samePushed_work hs q)

/-- What a step pushes to the buffer of proxy `p`. -/
def pushedBy (p : Nat) : ProxyAction τ → List τ
  | .push q t => if q = p then [t] else []
  | _ => []

/-- A step pushes nothing but its own transaction. -/
theorem pushed_sublist_of_step (hs : ProxyState.step cfg s a = some s') (q : Nat) :
    (s'.proxies q).pushed.Sublist ((s.proxies q).pushed ++ pushedBy q a) := by
  rcases step_pushed hs q with heq | ⟨t, rfl, heq⟩
  · rw [heq]
    exact List.sublist_append_left _ _
  · rw [heq, pushedBy, if_pos rfl]

theorem mem_handledOf : t ∈ s.handledOf cfg p (cfg.getEpoch t) ↔ (p, t) ∈ s.handled := by
  unfold handledOf
  constructor
  · intro ht
    obtain ⟨x, hx, hxt⟩ := List.mem_map.mp ht
    obtain ⟨hx, hxp⟩ := List.mem_filter.mp hx
    have hpair : x = (p, t) := Prod.ext (of_decide_eq_true hxp).1 hxt
    exact hpair ▸ hx
  · intro ht
    exact List.mem_map.mpr ⟨(p, t), List.mem_filter.mpr ⟨ht, decide_eq_true ⟨rfl, rfl⟩⟩, rfl⟩

end ProxyState

/-! ## A server -/

namespace ProxyServer

/-- The batches an action brings in for proxy `p`. -/
def broughtBy (cfg : ProxyServerConfig) (p : Nat) : ServerAction → List (Bytes × List Transaction)
  | .arrive q messageRaw => if q = p then messageBatch cfg.env messageRaw else []
  | .batch responseRaw transactionList =>
      if cfg.localId = p then [signedBatch cfg.env (responseRaw, transactionList)] else []
  | _ => []

def brought (cfg : ProxyServerConfig) (p : Nat) (as : List ServerAction) :
    List (Bytes × List Transaction) := as.flatMap (broughtBy cfg p)

/-- The operations a receiver has yet to perform. -/
def Receiver.pending : Receiver → List BufferOp
  | .performing ops _ | .performingLocal ops _ => ops
  | _ => []

/-- What proxy `p` has pushed, is about to push and has in its queue. -/
def outstanding (cfg : ProxyServerConfig) (s : ProxyServer) (p : Nat) : Multiset Transaction :=
  ↑(s.core.proxies p).pushed + ↑(pushes (Receiver.pending (s.receiver p))) +
    ↑((s.remoteQueue p).flatMap fun raw => (messageBatch cfg.env raw).flatMap (stamped cfg.env))

variable {cfg : ProxyServerConfig} {s s' : ProxyServer} {p q : Nat} {a : ServerAction}
  {as : List ServerAction}

theorem outstanding_eq {pushed : List Transaction} {r : Receiver} {queue : List Bytes}
    (hpushed : (s.core.proxies p).pushed = pushed) (hr : s.receiver p = r)
    (hqueue : s.remoteQueue p = queue) :
    outstanding cfg s p = ↑pushed + ↑(pushes (Receiver.pending r)) +
      ↑(queue.flatMap fun raw => (messageBatch cfg.env raw).flatMap (stamped cfg.env)) := by
  unfold outstanding
  rw [hpushed, hr, hqueue]

/-- Two states compared part by part. -/
theorem outstanding_mono (hcore : (s'.core.proxies p).pushed.Sublist (s.core.proxies p).pushed)
    (hops : (pushes (Receiver.pending (s'.receiver p))).Sublist
      (pushes (Receiver.pending (s.receiver p))))
    (hqueue : s'.remoteQueue p = s.remoteQueue p) :
    outstanding cfg s' p ≤ outstanding cfg s p := by
  unfold outstanding
  rw [hqueue]
  exact add_le_add (add_le_add hcore.subperm hops.subperm) le_rfl

/-- Receiver `q` changes by itself, with nothing more to push. -/
theorem outstanding_setReceiver {r : Receiver} (p : Nat)
    (hr : (pushes (Receiver.pending r)).Sublist (pushes (Receiver.pending (s.receiver q)))) :
    outstanding cfg (s.setReceiver q r) p ≤ outstanding cfg s p := by
  refine outstanding_mono (List.Sublist.refl _) ?_ rfl
  show (pushes (Receiver.pending (Function.update s.receiver q r p))).Sublist _
  by_cases hp : p = q
  · subst hp
    rwa [Function.update_self]
  · rw [Function.update_of_ne hp]

/-- A step of the buffers that pushes nothing. -/
theorem outstanding_coreStep {b : ProxyAction Transaction} (hs : s.coreStep cfg b = some s')
    (hb : ProxyState.pushedBy p b = []) : outstanding cfg s' p ≤ outstanding cfg s p := by
  obtain ⟨core, hc, rfl⟩ := coreStep_eq_some hs
  have hpushed := ProxyState.pushed_sublist_of_step hc p
  rw [hb, List.append_nil] at hpushed
  exact outstanding_mono hpushed (List.Sublist.refl _) rfl

theorem pushedBy_action (op : BufferOp) :
    ProxyState.pushedBy p (BufferOp.action q op) = if q = p then pushes [op] else [] := by
  cases op with
  | push t => rfl
  | asyncEmptyBuffer k => exact (ite_self _).symm

/-- The next operation of receiver `q` is performed: what it pushes is no longer to be pushed. -/
theorem outstanding_performOp {op : BufferOp} {ops : List BufferOp} {r : Receiver}
    {core : ProxyState Transaction} (p : Nat) (hr : Receiver.pending (s.receiver q) = op :: ops)
    (hr' : Receiver.pending r = ops)
    (hc : ProxyState.step cfg.core s.core (BufferOp.action q op) = some core) :
    outstanding cfg ({ s with core := core }.setReceiver q r) p ≤ outstanding cfg s p := by
  have hpushed := ProxyState.pushed_sublist_of_step hc p
  rw [pushedBy_action] at hpushed
  by_cases hp : q = p
  · subst hp
    have hops : pushes (op :: ops) = pushes [op] ++ pushes ops := pushes_append [op] ops
    rw [if_pos rfl] at hpushed
    rw [outstanding_eq rfl (Function.update_self q r s.receiver) rfl, outstanding_eq rfl rfl rfl,
      hr', hr, hops, ← Multiset.coe_add (pushes [op]), ← add_assoc,
      Multiset.coe_add _ (pushes [op])]
    exact add_le_add (add_le_add hpushed.subperm le_rfl) le_rfl
  · rw [if_neg hp, List.append_nil] at hpushed
    refine outstanding_mono hpushed ?_ rfl
    show (pushes (Receiver.pending (Function.update s.receiver q r p))).Sublist _
    rw [Function.update_of_ne (Ne.symm hp)]

theorem outstanding_perform (p : Nat) (hs : s.perform cfg q = some s') :
    outstanding cfg s' p ≤ outstanding cfg s p := by
  cases performed_of_perform hs with
  | @resumes next hr =>
      have hdone : (pushes []).Sublist (pushes (Receiver.pending (s.receiver q))) :=
        List.nil_sublist _
      cases next with
      | receiving st => exact outstanding_setReceiver p hdone
      | invalidClientProxy e => exact outstanding_setReceiver p hdone
      | maliciousClientProxy e => exact outstanding_setReceiver p hdone
      | checkFailed => exact le_rfl
  | operates hr hc => exact outstanding_performOp p (congrArg Receiver.pending hr) rfl hc
  | aborts hr => exact le_rfl
  | waits hr => exact outstanding_setReceiver p (List.nil_sublist _)
  | operatesLocal hr hc => exact outstanding_performOp p (congrArg Receiver.pending hr) rfl hc

/-- A message is taken from the queue: what it lets the receiver push is part of its batch. -/
theorem outstanding_receive (p : Nat) (hs : s.receive cfg q = some s') :
    outstanding cfg s' p ≤ outstanding cfg s p := by
  obtain ⟨st, raw, rest, hr, hqueue, rfl⟩ := receive_eq_some hs
  by_cases hp : p = q
  · subst hp
    have hpush := (pushes_receiveMessage cfg.env (cfg.ips p) st raw).sublist
    have hnone : pushes (Receiver.pending (.receiving st)) = [] := rfl
    rw [outstanding_eq rfl (Function.update_self p _ s.receiver)
        (Function.update_self p rest s.remoteQueue), outstanding_eq rfl hr hqueue,
      List.flatMap_cons, ← Multiset.coe_add, ← add_assoc, hnone, Multiset.coe_nil, add_zero]
    exact add_le_add (add_le_add le_rfl hpush.subperm) le_rfl
  · refine outstanding_mono (List.Sublist.refl _) ?_ (Function.update_of_ne hp _ _)
    show (pushes (Receiver.pending (Function.update s.receiver q _ p))).Sublist _
    rw [Function.update_of_ne hp]

theorem outstanding_timeout (p : Nat) (hs : s.timeout cfg q = some s') :
    outstanding cfg s' p ≤ outstanding cfg s p := by
  obtain ⟨st, -, -, rfl⟩ := timeout_eq_some hs
  refine outstanding_setReceiver p ?_
  show (pushes (remoteStep cfg.env (cfg.ips q) st (.timeout (s.invalidBits q))).1).Sublist _
  rw [pushes_timeout]
  exact List.nil_sublist _

theorem outstanding_batch {raw : Bytes} {txs : List Transaction} (p : Nat)
    (hs : s.batch cfg raw txs = some s') :
    outstanding cfg s' p ≤ outstanding cfg s p +
      ↑((broughtBy cfg p (.batch raw txs)).flatMap (stamped cfg.env)) := by
  obtain ⟨st, hr, rfl⟩ := batch_eq_some hs
  unfold broughtBy
  dsimp only
  by_cases hp : cfg.localId = p
  · subst hp
    have hpush := (pushes_receiveBatch cfg.env st raw txs).sublist
    have hnone : pushes (Receiver.pending (.waitingLocal st)) = [] := rfl
    rw [if_pos rfl, List.flatMap_cons, List.flatMap_nil, List.append_nil,
      outstanding_eq rfl (Function.update_self cfg.localId _ s.receiver) rfl,
      outstanding_eq rfl hr rfl, hnone, Multiset.coe_nil, add_zero]
    exact le_trans (add_le_add (add_le_add le_rfl hpush.subperm) le_rfl) (add_right_comm _ _ _).le
  · refine le_trans (?_ : _ ≤ outstanding cfg s p) (Multiset.le_add_right _ _)
    refine outstanding_mono (List.Sublist.refl _) ?_ rfl
    show (pushes (Receiver.pending (Function.update s.receiver cfg.localId _ p))).Sublist _
    rw [Function.update_of_ne (Ne.symm hp)]

theorem outstanding_arrive (p : Nat) (raw : Bytes) :
    outstanding cfg { s with
        remoteQueue := Function.update s.remoteQueue q (s.remoteQueue q ++ [raw]) } p =
      outstanding cfg s p + ↑((broughtBy cfg p (.arrive q raw)).flatMap (stamped cfg.env)) := by
  unfold outstanding broughtBy
  dsimp only
  by_cases hp : q = p
  · subst hp
    rw [Function.update_self, if_pos rfl, List.flatMap_append, List.flatMap_cons, List.flatMap_nil,
      List.append_nil, ← Multiset.coe_add, ← add_assoc]
  · rw [Function.update_of_ne (Ne.symm hp), if_neg hp, List.flatMap_nil, Multiset.coe_nil, add_zero]

/-- A step adds at most what it brings in. -/
theorem outstanding_step (hs : ProxyServer.step cfg s a = some s') (p : Nat) :
    outstanding cfg s' p ≤
      outstanding cfg s p + ↑((broughtBy cfg p a).flatMap (stamped cfg.env)) := by
  have hquiet : outstanding cfg s' p ≤ outstanding cfg s p → outstanding cfg s' p ≤
      outstanding cfg s p + ↑((broughtBy cfg p a).flatMap (stamped cfg.env)) :=
    fun h => le_trans h (Multiset.le_add_right _ _)
  cases stepped_of_step hs with
  | @arrive q raw => exact (outstanding_arrive p raw).le
  | receive hq hs => exact hquiet (outstanding_receive p hs)
  | timeout hq hs => exact hquiet (outstanding_timeout p hs)
  | batch hs => exact outstanding_batch p hs
  | perform hq hs => exact hquiet (outstanding_perform p hs)
  | flush hr hs => exact hquiet (outstanding_coreStep hs rfl)
  | continuePush hs => exact hquiet (outstanding_coreStep hs rfl)
  | work hs => exact hquiet (outstanding_coreStep hs rfl)
  | setInvalidEpoch hvalid =>
      refine hquiet ?_
      unfold ProxyServer.setInvalidEpoch
      dsimp only
      split <;> exact le_rfl
  | setInvalid hvalid => exact hquiet le_rfl

/-- What a proxy pushes has come in for it. -/
theorem outstanding_le (h : run (ProxyServer.step cfg) (ProxyServer.initial cfg) as = some s)
    (p : Nat) : outstanding cfg s p ≤ ↑((brought cfg p as).flatMap (stamped cfg.env)) := by
  refine run_invariant_history
    (fun past s => outstanding cfg s p ≤ ↑((brought cfg p past).flatMap (stamped cfg.env)))
    (fun past s a s' hle hs => ?_) h ?_
  · unfold brought
    rw [List.flatMap_append, List.flatMap_append, ← Multiset.coe_add, List.flatMap_cons,
      List.flatMap_nil, List.append_nil]
    exact le_trans (outstanding_step hs p) (add_le_add hle le_rfl)
  · unfold outstanding ProxyServer.initial
    dsimp only
    split <;> exact le_rfl

end ProxyServer

end NeuChain.Server
