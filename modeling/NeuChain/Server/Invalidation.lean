/-
  What becomes of the transactions of an invalidated proxy.

  After the callback of `maliciousTarget(p, e)` the server should hand on nothing more of proxy `p` from
  epoch `e` on. The receiver looks at the bit only when it has waited for a message in vain, and nobody
  looks at it after that: what has been pushed by then is handed on as ever, and the receiver
  itself finishes the epochs in which it is (`invalid_handed_on`).

  * `invalid_excluded`: if nothing of `p` from epoch `e` on is on its way when the bits are set, and
    no such batch is taken afterwards, then nothing of it is ever handed on.
-/
import NeuChain.Server.ProxyReplay
import NeuChain.Server.Pushes

namespace NeuChain.Server

open NeuChain Lib

/-! ## What is pushed -/

namespace ProxyState

variable {τ : Type*} {cfg : ProxyConfig τ} {s s' : ProxyState τ} {p : Nat} {t : τ} {e : Nat}
  {a : ProxyAction τ}

/-- What has been pushed has been handed on, or is in a buffer, or in the hand of the proxy
    thread. -/
theorem Inv.mem_pushed_iff (h : Inv cfg s) : t ∈ (s.proxies p).pushed ↔
    (p, t) ∈ s.handled ∨ t ∈ (s.proxies p).buffer (cfg.getEpoch t) ∨
      t ∈ (s.proxies p).pushPc.inHand := by
  have hfilter : ∀ l : List τ, t ∈ l ↔ t ∈ l.filter (cfg.getEpoch · = cfg.getEpoch t) := by
    intro l
    rw [List.mem_filter, and_iff_left (decide_eq_true rfl)]
  rw [hfilter, ← (h.content p).conserved, List.mem_append, List.mem_append, mem_handledOf,
    ← hfilter, or_assoc]

end ProxyState

namespace ProxyServer

/-! ## Transactions on their way -/

/-- Nothing of proxy `p` from epoch `e` on has been handed on. -/
def Excluded (s : ProxyServer) (p : Nat) (e : Epoch) : Prop :=
  ∀ x ∈ s.core.handled, x.1 = p → x.2.epoch < e

instance (s : ProxyServer) (p : Nat) (e : Epoch) : Decidable (Excluded s p e) :=
  inferInstanceAs (Decidable (∀ x ∈ s.core.handled, x.1 = p → x.2.epoch < e))

/-- Nothing of proxy `p` from epoch `e` on is in a buffer or in the hand of the receiver. -/
structure Barred (s : ProxyServer) (p : Nat) (e : Epoch) : Prop where
  buffer : ∀ k, ∀ t ∈ (s.core.proxies p).buffer k, t.epoch < e
  inHand : ∀ t ∈ (s.core.proxies p).pushPc.inHand, t.epoch < e
  pending : ∀ t, .push t ∈ Receiver.pending (s.receiver p) → t.epoch < e

/-- While the bit of proxy `p` is set, its receiver takes no message, and no batch if it is the local
    one, of the epoch of the bit or a later one. -/
def Respects (cfg : ProxyServerConfig) (p : Nat) (s : ProxyServer) : ServerAction → Prop
  | .receive q => q = p → (s.invalidBits p).second = true →
      ∀ st, s.receiver p = .receiving st → st.epoch < (s.invalidBits p).first
  | .batch responseRaw _ => cfg.localId = p → (s.invalidBits p).second = true →
      (cfg.env.responseFromString responseRaw).epoch < (s.invalidBits p).first
  | _ => True

variable {env : ProxyEnv} {ip : Bytes} {cfg : ProxyServerConfig} {s s' : ProxyServer} {p : Nat}
  {e : Epoch} {a : ServerAction} {as bs : List ServerAction}

theorem push_batchOps {epoch : Epoch} {signature : Bytes} {txs : List Transaction}
    {t : Transaction} (ht : .push t ∈ batchOps env signature (ofEpoch epoch txs)) :
    t.epoch = epoch := by
  obtain ⟨u, hu, heq⟩ := List.mem_map.mp ht
  cases heq
  exact (epoch_of_mem_ofEpoch hu : u.epoch = epoch)

theorem push_receiveMessage {st : RemoteState} {raw : Bytes} {t : Transaction}
    (ht : .push t ∈ (receiveMessage env ip st raw).1) : t.epoch = st.epoch := by
  unfold receiveMessage at ht
  split at ht
  · cases ht
  · split at ht
    · unfold receiveProofSet at ht
      split at ht
      · cases List.mem_singleton.mp ht
      · cases ht
    · unfold receiveTransactionSet at ht
      dsimp only at ht
      split at ht
      · cases ht
      · split at ht
        · cases ht
        · cases ht
        · split at ht
          · cases ht
          · split at ht
            · split at ht
              · rename_i hpush
                exact push_batchOps (ops_of_pushRemote hpush ▸ ht)
              · rename_i hpush
                exact push_batchOps (ops_of_pushRemote hpush ▸ ht)
            · cases ht

theorem ops_timeout (env : ProxyEnv) (ip : Bytes) (st : RemoteState) (bit : InvalidBit) :
    (remoteStep env ip st (.timeout bit)).1 = [] := by
  unfold remoteStep
  dsimp only
  split <;> rfl

theorem push_finishEpochs (env : ProxyEnv) (st : LocalState) (n : Nat) (t : Transaction) :
    .push t ∉ bufferOps (finishEpochs env st n).1 := by
  induction n generalizing st with
  | zero => nofun
  | succ n ih =>
      intro ht
      rcases List.mem_cons.mp ht with heq | ht
      · cases heq
      · exact ih _ ht

theorem push_receiveBatch {st : LocalState} {raw : Bytes} {ts : List Transaction}
    {t : Transaction} (ht : .push t ∈ bufferOps (receiveBatch env st raw ts).1) :
    t.epoch = (env.responseFromString raw).epoch := by
  have hno := push_finishEpochs env st ((env.responseFromString raw).epoch - st.epoch) t
  unfold receiveBatch at ht
  dsimp only at ht
  split at ht
  · rename_i hepoch
    split at ht
    · rename_i hpush
      rw [bufferOps_append, bufferOps_map_buffer] at ht
      rw [ops_of_pushTransactions hpush] at ht
      exact (push_batchOps ((List.mem_append.mp ht).resolve_left hno)).trans hepoch
    · rename_i hpush
      rw [bufferOps_append, bufferOps_append, bufferOps_map_buffer, bufferOps_sendReply,
        List.append_nil] at ht
      rw [ops_of_pushTransactions hpush] at ht
      exact (push_batchOps ((List.mem_append.mp ht).resolve_left hno)).trans hepoch
  · exact absurd ht hno

/-! ## Steps that leave the bits alone -/

/-- A step in which proxy `p` takes a transaction `t`. -/
def Takes (cfg : ProxyServerConfig) (s : ProxyServer) (p : Nat) (t : Transaction) :
    ServerAction → Prop
  | .receive q => q = p ∧ ∃ st, s.receiver p = .receiving st ∧ t.epoch = st.epoch
  | .batch responseRaw _ =>
      cfg.localId = p ∧ t.epoch = (cfg.env.responseFromString responseRaw).epoch
  | _ => False

/-- A transaction is taken before it is pushed, and pushed before it is handed on. -/
structure Ordinary (cfg : ProxyServerConfig) (s : ProxyServer) (a : ServerAction)
    (s' : ProxyServer) : Prop where
  invalidBits : s'.invalidBits = s.invalidBits
  isValid : s'.isValid = s.isValid
  pushed : ∀ p, (s'.core.proxies p).pushed = (s.core.proxies p).pushed ∨
    ∃ t, .push t ∈ Receiver.pending (s.receiver p) ∧
      (s'.core.proxies p).pushed = (s.core.proxies p).pushed ++ [t]
  pending : ∀ p t, .push t ∈ Receiver.pending (s'.receiver p) →
    .push t ∈ Receiver.pending (s.receiver p) ∨ Takes cfg s p t a

/-- Only the receiver of proxy `p` changes. -/
theorem ordinary_setReceiver {r : Receiver} (hbits : s'.invalidBits = s.invalidBits)
    (hvalid : s'.isValid = s.isValid) (hcore : s'.core = s.core)
    (hrec : s'.receiver = Function.update s.receiver p r)
    (hr : ∀ t, .push t ∈ Receiver.pending r →
      .push t ∈ Receiver.pending (s.receiver p) ∨ Takes cfg s p t a) : Ordinary cfg s a s' := by
  refine ⟨hbits, hvalid, fun q => Or.inl (by rw [hcore]), fun q t ht => ?_⟩
  rw [hrec] at ht
  by_cases hq : q = p
  · subst hq
    rw [Function.update_self] at ht
    exact hr t ht
  · rw [Function.update_of_ne hq] at ht
    exact Or.inl ht

theorem ordinary_aborted : Ordinary cfg s a { s with aborted := true } :=
  ⟨rfl, rfl, fun _ => Or.inl rfl, fun _ _ ht => Or.inl ht⟩

/-- A step of the buffers that pushes nothing. -/
theorem ordinary_coreStep {b : ProxyAction Transaction} (hs : s.coreStep cfg b = some s')
    (hb : ∀ q t, b ≠ .push q t) : Ordinary cfg s a s' := by
  obtain ⟨core, hc, rfl⟩ := coreStep_eq_some hs
  refine ⟨rfl, rfl, fun q => ?_, fun _ _ ht => Or.inl ht⟩
  rcases ProxyState.step_pushed hc q with heq | ⟨t, hpush, -⟩
  · exact Or.inl heq
  · exact absurd hpush (hb q t)

/-- The receiver performs its next operation. -/
theorem ordinary_op {op : BufferOp} {r : Receiver} {core : ProxyState Transaction}
    (hop : Receiver.pending (s.receiver p) = op :: Receiver.pending r)
    (hc : ProxyState.step cfg.core s.core (BufferOp.action p op) = some core) :
    Ordinary cfg s a ({ s with core := core }.setReceiver p r) := by
  refine ⟨rfl, rfl, fun q => ?_, fun q t ht => Or.inl ?_⟩
  · rcases ProxyState.step_pushed hc q with heq | ⟨t, hpush, heq⟩
    · exact Or.inl heq
    · right
      cases op with
      | push u =>
          cases hpush
          exact ⟨t, by rw [hop]; exact List.mem_cons_self, heq⟩
      | asyncEmptyBuffer k => cases hpush
  · have ht : .push t ∈ Receiver.pending (Function.update s.receiver p r q) := ht
    by_cases hq : q = p
    · subst hq
      rw [Function.update_self] at ht
      rw [hop]
      exact List.mem_cons_of_mem _ ht
    · rw [Function.update_of_ne hq] at ht
      exact ht

theorem ordinary_perform (hs : s.perform cfg p = some s') : Ordinary cfg s a s' := by
  cases performed_of_perform hs with
  | @resumes next hr =>
      cases next with
      | checkFailed => exact ordinary_aborted
      | receiving st => exact ordinary_setReceiver rfl rfl rfl rfl (by nofun)
      | invalidClientProxy k => exact ordinary_setReceiver rfl rfl rfl rfl (by nofun)
      | maliciousClientProxy k => exact ordinary_setReceiver rfl rfl rfl rfl (by nofun)
  | operates hr hc => exact ordinary_op (congrArg Receiver.pending hr) hc
  | aborts hr => exact ordinary_aborted
  | waits hr => exact ordinary_setReceiver rfl rfl rfl rfl (by nofun)
  | operatesLocal hr hc => exact ordinary_op (congrArg Receiver.pending hr) hc

/-- Every step but the two stores of the callback. -/
theorem step_cases (hs : step cfg s a = some s') :
    (∃ q e, s.isValid q = true ∧ s' = s.setInvalidEpoch q e) ∨
    (∃ q, s.isValid q = false ∧ s' = s.setInvalid q) ∨ Ordinary cfg s a s' := by
  cases stepped_of_step hs with
  | arrive => exact Or.inr (Or.inr ⟨rfl, rfl, fun _ => Or.inl rfl, fun _ _ ht => Or.inl ht⟩)
  | receive hp hs =>
      obtain ⟨st, raw, rest, hr, -, rfl⟩ := receive_eq_some hs
      refine Or.inr (Or.inr (ordinary_setReceiver rfl rfl rfl rfl fun t ht => Or.inr ?_))
      exact ⟨rfl, st, hr, push_receiveMessage ht⟩
  | @timeout p _ hp hs =>
      obtain ⟨st, -, -, rfl⟩ := timeout_eq_some hs
      refine Or.inr (Or.inr (ordinary_setReceiver rfl rfl rfl rfl fun t ht => ?_))
      have hops := ops_timeout cfg.env (cfg.ips p) st (s.invalidBits p)
      have ht : .push t ∈ (remoteStep cfg.env (cfg.ips p) st (.timeout (s.invalidBits p))).1 := ht
      rw [hops] at ht
      cases ht
  | batch hs =>
      obtain ⟨st, -, rfl⟩ := batch_eq_some hs
      refine Or.inr (Or.inr (ordinary_setReceiver rfl rfl rfl rfl fun t ht => Or.inr ?_))
      exact ⟨rfl, push_receiveBatch ht⟩
  | perform hp hs => exact Or.inr (Or.inr (ordinary_perform hs))
  | flush hr hs => exact Or.inr (Or.inr (ordinary_coreStep hs (by nofun)))
  | continuePush hs => exact Or.inr (Or.inr (ordinary_coreStep hs (by nofun)))
  | work hs => exact Or.inr (Or.inr (ordinary_coreStep hs (by nofun)))
  | @setInvalidEpoch p e hvalid => exact Or.inl ⟨p, e, hvalid, rfl⟩
  | @setInvalid p hvalid => exact Or.inr (Or.inl ⟨p, hvalid, rfl⟩)

/-! ## After the invalidation -/

theorem invalidBits_setInvalidEpoch_of_ne {q : Nat} (hq : p ≠ q) (k : Epoch) :
    (s.setInvalidEpoch q k).invalidBits p = s.invalidBits p ∧
      (s.setInvalidEpoch q k).isValid p = s.isValid p ∧
      (s.setInvalidEpoch q k).core = s.core ∧
      (s.setInvalidEpoch q k).receiver = s.receiver := by
  unfold ProxyServer.setInvalidEpoch
  dsimp only
  split
  · exact ⟨rfl, Function.update_of_ne hq _ _, rfl, rfl⟩
  · exact ⟨Function.update_of_ne hq _ _, Function.update_of_ne hq _ _, rfl, rfl⟩

/-- Nothing of proxy `p` from epoch `e` on has been pushed, or will be. -/
structure Shut (cfg : ProxyServerConfig) (p : Nat) (e : Epoch) (s : ProxyServer) : Prop where
  inStep : InStep cfg s
  bit : s.invalidBits p = ⟨e, true⟩
  isValid : s.isValid p = false
  pushed : ∀ t ∈ (s.core.proxies p).pushed, t.epoch < e
  pending : ∀ t, .push t ∈ Receiver.pending (s.receiver p) → t.epoch < e

theorem Shut.excluded (h : Shut cfg p e s) : Excluded s p e := by
  rintro x hx rfl
  exact h.pushed _ (h.inStep.core.mem_pushed_iff.mpr (Or.inl hx))

theorem Shut.not_takes {t : Transaction} (h : Shut cfg p e s) (ha : Respects cfg p s a)
    (ht : Takes cfg s p t a) : t.epoch < e := by
  have hsecond : (s.invalidBits p).second = true := by rw [h.bit]
  have hfirst : (s.invalidBits p).first = e := by rw [h.bit]
  cases a with
  | receive q =>
      obtain ⟨rfl, st, hst, hepoch⟩ := ht
      rw [hepoch, ← hfirst]
      exact ha rfl hsecond st hst
  | batch raw ts =>
      obtain ⟨hlocal, hepoch⟩ := ht
      rw [hepoch, ← hfirst]
      exact ha hlocal hsecond
  | _ => exact ht.elim

theorem Shut.ordinary (h : Shut cfg p e s) (ha : Respects cfg p s a) (hs : InStep cfg s')
    (ho : Ordinary cfg s a s') : Shut cfg p e s' := by
  refine ⟨hs, by rw [ho.invalidBits, h.bit], by rw [ho.isValid, h.isValid], fun t ht => ?_,
    fun t ht => ?_⟩
  · rcases ho.pushed p with heq | ⟨u, hu, heq⟩
    · exact h.pushed t (heq ▸ ht)
    · rw [heq] at ht
      rcases List.mem_append.mp ht with ht | ht
      · exact h.pushed t ht
      · rw [List.mem_singleton.mp ht]
        exact h.pending u hu
  · rcases ho.pending p t ht with ht | ht
    · exact h.pending t ht
    · exact h.not_takes ha ht

theorem Shut.step (h : Shut cfg p e s) (ha : Respects cfg p s a)
    (hs : ProxyServer.step cfg s a = some s') : Shut cfg p e s' := by
  have hin := h.inStep.step hs
  rcases step_cases hs with ⟨q, k, hq, rfl⟩ | ⟨q, -, rfl⟩ | ho
  · -- the callback is called once for a proxy
    have hne : p ≠ q := by
      rintro rfl
      rw [h.isValid] at hq
      cases hq
    obtain ⟨hbit, hvalid, hcore, hrec⟩ := invalidBits_setInvalidEpoch_of_ne (s := s) hne k
    refine ⟨hin, hbit.trans h.bit, hvalid.trans h.isValid, ?_, ?_⟩
    · rw [hcore]
      exact h.pushed
    · rw [hrec]
      exact h.pending
  · refine ⟨hin, ?_, h.isValid, h.pushed, h.pending⟩
    show Function.update s.invalidBits q _ p = _
    by_cases hq : p = q
    · subst hq
      rw [Function.update_self, h.bit]
    · rw [Function.update_of_ne hq, h.bit]
  · exact h.ordinary ha hin ho

/-- A bit is set only after the control block has given the proxy up. -/
theorem isValid_of_second (h : run (ProxyServer.step cfg) (ProxyServer.initial cfg) as = some s)
    (hp : (s.invalidBits p).second = true) : s.isValid p = false := by
  refine run_invariant (fun u => (u.invalidBits p).second = true → u.isValid p = false) ?_ h
    (by nofun) hp
  intro u a u' hu hs hsecond
  rcases step_cases hs with ⟨q, k, hq, rfl⟩ | ⟨q, hq, rfl⟩ | ho
  · by_cases hpq : p = q
    · subst hpq
      unfold ProxyServer.setInvalidEpoch
      dsimp only
      split <;> exact Function.update_self _ _ _
    · obtain ⟨hbit, hvalid, -⟩ := invalidBits_setInvalidEpoch_of_ne (s := u) hpq k
      rw [hbit] at hsecond
      rw [hvalid]
      exact hu hsecond
  · by_cases hpq : p = q
    · rw [hpq]
      exact hq
    · have hsecond : (Function.update u.invalidBits q _ p).second = true := hsecond
      rw [Function.update_of_ne hpq] at hsecond
      exact hu hsecond
  · rw [ho.invalidBits] at hsecond
    rw [ho.isValid]
    exact hu hsecond

theorem excluded_and_barred_iff (h : InStep cfg s) : Excluded s p e ∧ Barred s p e ↔
    (∀ t ∈ (s.core.proxies p).pushed, t.epoch < e) ∧
      ∀ t, .push t ∈ Receiver.pending (s.receiver p) → t.epoch < e := by
  constructor
  · rintro ⟨hex, hbar⟩
    refine ⟨fun t ht => ?_, hbar.pending⟩
    rcases h.core.mem_pushed_iff.mp ht with hhandled | hbuffer | hhand
    · exact hex _ hhandled rfl
    · exact hbar.buffer _ t hbuffer
    · exact hbar.inHand t hhand
  · rintro ⟨hpushed, hpending⟩
    refine ⟨?_, fun k t ht => hpushed t ?_, fun t ht => hpushed t ?_, hpending⟩
    · rintro x hx rfl
      exact hpushed _ (h.core.mem_pushed_iff.mpr (Or.inl hx))
    · have hk : t.epoch = k := (h.core.content p).buffered k t ht
      subst hk
      exact h.core.mem_pushed_iff.mpr (Or.inr (Or.inl ht))
    · exact h.core.mem_pushed_iff.mpr (Or.inr (Or.inr ht))

/-- Once the bit of proxy `p` is set for epoch `e`. -/
theorem invalid_excluded (h : run (ProxyServer.step cfg) (ProxyServer.initial cfg) as = some s)
    (hbit : s.invalidBits p = ⟨e, true⟩) (hex : Excluded s p e) (hbar : Barred s p e)
    (hr : run (ProxyServer.step cfg) s bs = some s')
    (hm : Meets (ProxyServer.step cfg) (Respects cfg p) s bs) : Excluded s' p e := by
  have hin := inStep_of_run h
  have hvalid := isValid_of_second h (p := p) (by rw [hbit])
  obtain ⟨hpushed, hpending⟩ := (excluded_and_barred_iff hin).mp ⟨hex, hbar⟩
  have hshut : Shut cfg p e s' :=
    run_invariant_of_meets (Respects cfg p) (Shut cfg p e) (fun _ _ _ hi ha hs => hi.step ha hs) hr
      hm ⟨hin, hbit, hvalid, hpushed, hpending⟩
  exact hshut.excluded

/-! ## Two servers -/

/-- Messages of the other server: `[0]` ends epoch 1, any other is a batch with one transaction of
    epoch 1. -/
def invalidEnv : ProxyEnv where
  sha := sampleSHA256
  msg := sampleMessages
  setToString _ := []
  setFromString raw := if raw = [0] then some { epoch := 1, type := .con, data := [[3]] }
    else some { epoch := 1, type := .tx, proof := [1],
                data := [[0, 1, 1, 1, 1, 0, 1] ++ List.replicate 32 0] }
  responseFromString raw :=
    { epoch := if raw = [1] then 1 else 2
      request := { requestBatchSize := 1, batchHash := List.replicate 32 0 }
      signature := [3] }
  userVerify _ _ _ := true
  epochServerVerify _ _ := true
  localIp := [7]

def invalidServer : ProxyServerConfig where
  env := invalidEnv
  ips p := [UInt8.ofNat p]
  localId := 0
  blkSrvCnt := 2
  startWithEpoch := 1
  eagerSent := false

/-- The batch is received, and its transaction pushed. -/
def receiveOne : List ServerAction := [.arrive 1 [1], .receive 1, .perform 1, .perform 1]

/-- The local server finishes epoch 1. -/
def finishLocal : List ServerAction := [.batch [2] [], .perform 0, .perform 0]

/-- The worker of proxy 1 is the last at the barrier, and empties its buffer. -/
def emptyOne : List ServerAction := .work 0 :: List.replicate 6 (.work 1)

/-- Proxy 1 is invalidated from epoch 2 on, when all of epoch 1 has been received. -/
theorem invalid_excluded_two :
    ∃ s s', run (step invalidServer) (initial invalidServer)
        (receiveOne ++ [.arrive 1 [0], .receive 1, .perform 1, .perform 1, .setInvalidEpoch 1 2,
          .setInvalid 1]) = some s ∧
      run (step invalidServer) s
        ([.timeout 1, .perform 1, .flush 1] ++ finishLocal ++ emptyOne) = some s' ∧
      s'.core.handled.length = 1 ∧ Excluded s' 1 2 := by
  have hrun : (run (step invalidServer) (initial invalidServer)
      (receiveOne ++ ([.arrive 1 [0], .receive 1, .perform 1, .perform 1, .setInvalidEpoch 1 2,
        .setInvalid 1] : List ServerAction))).any fun s =>
      (s.invalidBits 1 = ⟨2, true⟩ ∧ (∀ t ∈ (s.core.proxies 1).pushed, t.epoch < 2) ∧
        Receiver.pending (s.receiver 1) = []) ∧
      (run (step invalidServer) s (([.timeout 1, .perform 1, .flush 1] : List ServerAction) ++
        finishLocal ++ emptyOne)).any fun s' => s'.core.handled.length = 1 := by
    decide +kernel
  obtain ⟨s, hs, ⟨hbit, hpushed, hpending⟩, h'⟩ := exists_of_any hrun
  obtain ⟨s', hs', hlen⟩ := exists_of_any h'
  obtain ⟨hex, hbar⟩ := (excluded_and_barred_iff (inStep_of_run hs)).mpr
    ⟨hpushed, by rw [hpending]; nofun⟩
  refine ⟨s, s', hs, hs', hlen, invalid_excluded hs hbit hex hbar hs' ?_⟩
  -- the only batch is one of the local proxy
  exact meets_of_forall fun u => by simp [finishLocal, emptyOne, Respects, invalidServer]

/-- Proxy 1 is invalidated from epoch 1 on, when a batch of epoch 1 has been pushed and nothing has
    been handed on. The receiver sees the bit and finishes the epoch, and the transaction is handed
    on. -/
theorem invalid_handed_on :
    ∃ s s', run (step invalidServer) (initial invalidServer)
        (receiveOne ++ [.setInvalidEpoch 1 1, .setInvalid 1]) = some s ∧
      s.invalidBits 1 = ⟨1, true⟩ ∧ Excluded s 1 1 ∧
      run (step invalidServer) s
        ([.timeout 1, .perform 1, .flush 1] ++ finishLocal ++ emptyOne) = some s' ∧
      ¬ Excluded s' 1 1 := by
  have hrun : (run (step invalidServer) (initial invalidServer)
      (receiveOne ++ ([.setInvalidEpoch 1 1, .setInvalid 1] : List ServerAction))).any fun s =>
      (s.invalidBits 1 = ⟨1, true⟩ ∧ Excluded s 1 1) ∧
      (run (step invalidServer) s (([.timeout 1, .perform 1, .flush 1] : List ServerAction) ++
        finishLocal ++ emptyOne)).any fun s' => ¬ Excluded s' 1 1 := by
    decide +kernel
  obtain ⟨s, hs, ⟨hbit, hex⟩, h'⟩ := exists_of_any hrun
  obtain ⟨s', hs', hnot⟩ := exists_of_any h'
  exact ⟨s, s', hs, hbit, hex, hs', hnot⟩

end ProxyServer

end NeuChain.Server
