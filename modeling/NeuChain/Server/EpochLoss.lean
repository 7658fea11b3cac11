/-
  Which transactions are lost on the way into the execution queue.

  When all workers are through with an epoch, each of its transactions has been handed on exactly
  once, exactly if transactions are not sent eagerly, or every proxy had an empty buffer when it
  finished the epoch (`delivered_once_iff`).

  What a proxy has put aside while it was ahead of the others is handed on before its next transaction
  of the epoch. If there is none, nobody takes it: the worker empties the buffer only if transactions
  are not sent eagerly (`eager_loses_parked`).
-/
import NeuChain.Server.EpochDelivery

namespace NeuChain.Server.ProxyState

open NeuChain Lib

variable {τ : Type*} {cfg : ProxyConfig τ} {s s' : ProxyState τ} {p : Nat} {t : τ} {e : Nat}
  {a : ProxyAction τ} {as : List (ProxyAction τ)}

/-! ## Buffers of finished epochs -/

/-- A step of a proxy or worker within an epoch: if transactions are sent eagerly, the buffers of
    finished epochs stay as they are. -/
def Keeps (cfg : ProxyConfig τ) (s s' : ProxyState τ) : Prop :=
  ∀ q, (s'.proxies q).epoch = (s.proxies q).epoch ∧
    (cfg.eagerSent = true → ∀ e < (s.proxies q).epoch,
      (s'.proxies q).buffer e = (s.proxies q).buffer e)

theorem keeps_of_update {b : TransactionBuffer τ}
    (hs : s'.proxies = Function.update s.proxies p b) (he : b.epoch = (s.proxies p).epoch)
    (hb : cfg.eagerSent = true → ∀ e < (s.proxies p).epoch, b.buffer e = (s.proxies p).buffer e) :
    Keeps cfg s s' := by
  intro q
  rw [hs]
  by_cases hq : q = p
  · subst hq
    rw [Function.update_self]
    exact ⟨he, hb⟩
  · rw [Function.update_of_ne hq]
    exact ⟨rfl, fun _ _ _ => rfl⟩

theorem Keeps.refl (hs : s'.proxies = s.proxies) : Keeps cfg s s' := by
  intro q
  rw [hs]
  exact ⟨rfl, fun _ _ _ => rfl⟩

theorem keeps_push (ht : cfg.getEpoch t = (s.proxies p).epoch) :
    Keeps cfg s (s.pushTransactionToBuffer cfg p t) := by
  have hpark : ∀ b : TransactionBuffer τ, b.epoch = (s.proxies p).epoch →
      b.buffer = (s.proxies p).buffer → Keeps cfg s (s.setProxy p (park b (cfg.getEpoch t) t)) := by
    intro b he hb
    refine keeps_of_update rfl he fun _ e hlt => ?_
    show Function.update b.buffer (cfg.getEpoch t) _ e = _
    rw [Function.update_of_ne (by omega), hb]
  unfold pushTransactionToBuffer
  dsimp only
  split
  · split
    · exact hpark _ rfl rfl
    · split
      · exact keeps_of_update rfl rfl fun _ _ _ => rfl
      · exact Keeps.refl rfl
  · exact hpark _ rfl rfl

theorem keeps_syncEmptyBuffer (he : cfg.eagerSent = true → e = (s.proxies p).epoch)
    (hs : s.syncEmptyBuffer cfg p e = some s') : Keeps cfg s s' := by
  unfold ProxyState.syncEmptyBuffer at hs
  split at hs
  · cases hs
  · split at hs <;> cases hs
    · refine keeps_of_update rfl rfl fun heager e' hlt => ?_
      have := he heager
      exact Function.update_of_ne (by omega) _ _
    · exact Keeps.refl rfl

theorem Inv.keeps_continuePush (h : Inv cfg s) (hp : p < cfg.blkSrvCnt)
    (hs : s.continuePush cfg p = some s') : Keeps cfg s s' := by
  have hgate := h.gate p hp
  unfold ProxyState.continuePush at hs
  split at hs
  · cases hs
  · rename_i t hpc
    obtain ⟨-, ht, -⟩ := hgate.loaded t hpc
    split at hs <;> cases hs
    · refine keeps_of_update rfl rfl fun _ e hlt => ?_
      show Function.update _ (cfg.getEpoch t) _ e = _
      rw [Function.update_of_ne (by omega)]
    · exact keeps_of_update rfl rfl fun _ _ _ => rfl
  · rename_i t hpc
    obtain ⟨-, ht, -⟩ := hgate.emptying t hpc
    split at hs
    · rename_i hsync
      cases hs
      exact keeps_syncEmptyBuffer (fun _ => ht) hsync
    · cases hs
      exact keeps_of_update rfl rfl fun _ _ _ => rfl

theorem Inv.keeps_work (h : Inv cfg s) (hp : p < cfg.blkSrvCnt) (hs : s.work cfg p = some s') :
    Keeps cfg s s' := by
  have hgate := h.gate p hp
  unfold ProxyState.work at hs
  cases hpc : (s.proxies p).workerPc with
  | idle =>
      rw [hpc] at hs
      dsimp only at hs
      split at hs <;> cases hs
      exact keeps_of_update rfl rfl fun _ _ _ => rfl
  | waiting e k =>
      rw [hpc] at hs
      dsimp only at hs
      split at hs <;> cases hs
      exact keeps_of_update rfl rfl fun _ _ _ => rfl
  | emptying e =>
      rw [hpc] at hs
      dsimp only at hs
      have heager := hgate.worker e hpc
      split at hs
      · split at hs
        · rename_i hsync
          cases hs
          refine keeps_syncEmptyBuffer (fun hc => ?_) hsync
          rw [heager] at hc
          cases hc
        · cases hs
          exact keeps_of_update rfl rfl fun _ _ _ => rfl
      · cases hs
  | storing e => rw [hpc] at hs; cases hs; exact keeps_of_update rfl rfl fun _ _ _ => rfl
  | adding e => rw [hpc] at hs; cases hs; exact keeps_of_update rfl rfl fun _ _ _ => rfl
  | releasing e => rw [hpc] at hs; cases hs; exact keeps_of_update rfl rfl fun _ _ _ => rfl
  | signalling e => rw [hpc] at hs; cases hs; exact keeps_of_update rfl rfl fun _ _ _ => rfl

theorem step_asyncEmptyBuffer (hs : step cfg s (.asyncEmptyBuffer p) = some s') :
    s' = s.asyncEmptyBuffer p := by
  cases step_cases hs with
  | asyncEmptyBuffer hp hpc => rfl

/-- What one step does to the epoch and the buffers of a proxy. -/
theorem Inv.step_keeps (h : Inv cfg s) (hs : ProxyState.step cfg s a = some s') (p : Nat) :
    ((s'.proxies p).epoch = (s.proxies p).epoch ∨
      (a = .asyncEmptyBuffer p ∧ (s'.proxies p).epoch = (s.proxies p).epoch + 1)) ∧
    (cfg.eagerSent = true → ∀ e < (s.proxies p).epoch,
      (s'.proxies p).buffer e = (s.proxies p).buffer e) := by
  have hkeeps : Keeps cfg s s' →
      ((s'.proxies p).epoch = (s.proxies p).epoch ∨
        (a = .asyncEmptyBuffer p ∧ (s'.proxies p).epoch = (s.proxies p).epoch + 1)) ∧
      (cfg.eagerSent = true → ∀ e < (s.proxies p).epoch,
        (s'.proxies p).buffer e = (s.proxies p).buffer e) :=
    fun hk => ⟨Or.inl (hk p).1, (hk p).2⟩
  cases step_cases hs with
  | push hq hpc ht hmax => exact hkeeps (keeps_push ht)
  | continuePush hq hs => exact hkeeps (h.keeps_continuePush hq hs)
  | @asyncEmptyBuffer q hq hpc =>
      unfold ProxyState.asyncEmptyBuffer ProxyState.setProxy
      by_cases hpq : p = q
      · subst hpq
        simp
      · simp [hpq]
  | work hq hs => exact hkeeps (h.keeps_work hq hs)

/-- If transactions are sent eagerly, the buffer of a finished epoch never changes again. -/
theorem Inv.run_keeps (h : Inv cfg s) (heager : cfg.eagerSent = true)
    (hr : run (ProxyState.step cfg) s as = some s') (he : e < (s.proxies p).epoch) :
    (s'.proxies p).buffer e = (s.proxies p).buffer e := by
  have hkept : Inv cfg s' ∧ e < (s'.proxies p).epoch ∧
      (s'.proxies p).buffer e = (s.proxies p).buffer e := by
    refine run_invariant (fun u => Inv cfg u ∧ e < (u.proxies p).epoch ∧
      (u.proxies p).buffer e = (s.proxies p).buffer e) ?_ hr ⟨h, he, rfl⟩
    rintro u a u' ⟨hu, hlt, hbuf⟩ hs
    obtain ⟨hepoch, hb⟩ := hu.step_keeps hs p
    refine ⟨hu.step hs, ?_, (hb heager e hlt).trans hbuf⟩
    rcases hepoch with heq | ⟨-, heq⟩ <;> omega
  exact hkept.2.2

/-- A proxy that has left epoch `e` has finished it in a step of the run. -/
theorem exists_finish (h : run (step cfg) (initial cfg) as = some s)
    (hstart : cfg.startWithEpoch ≤ e) (he : e < (s.proxies p).epoch) :
    ∃ as₁ as₂ s₁, as = as₁ ++ .asyncEmptyBuffer p :: as₂ ∧
      run (step cfg) (initial cfg) as₁ = some s₁ ∧ (s₁.proxies p).epoch = e := by
  obtain ⟨as₁, a, as₂, s₁, s₂, rfl, h₁, hs, -, hle, hlt⟩ :=
    exists_step_past (fun s => (s.proxies p).epoch) h hstart he
  rcases ((inv_of_run h₁).step_keeps hs p).1 with heq | ⟨rfl, heq⟩
  · omega
  · exact ⟨as₁, as₂, s₁, rfl, h₁, by omega⟩

/-- What is in the buffer when the epoch is finished stays there. -/
theorem buffer_of_finish {as₁ as₂ : List (ProxyAction τ)} {s₁ : ProxyState τ}
    (h : run (step cfg) (initial cfg) (as₁ ++ .asyncEmptyBuffer p :: as₂) = some s)
    (heager : cfg.eagerSent = true) (h₁ : run (step cfg) (initial cfg) as₁ = some s₁)
    (he : (s₁.proxies p).epoch = e) : (s.proxies p).buffer e = (s₁.proxies p).buffer e := by
  obtain ⟨u, s₂, hu, hs, hr⟩ := run_split h
  obtain rfl : u = s₁ := Option.some.inj (hu.symm.trans h₁)
  have hinv₂ := (inv_of_run h₁).step hs
  have hself := proxies_asyncEmptyBuffer u p
  rw [← step_asyncEmptyBuffer hs] at hself
  rw [hinv₂.run_keeps heager hr (by rw [hself]; show e < _ + 1; omega), hself]

/-- What a finished epoch has left in the buffer. -/
theorem Inv.conserved_of_lt (h : Inv cfg s) (hp : p < cfg.blkSrvCnt)
    (he : e < (s.proxies p).epoch) :
    s.handledOf cfg p e ++ (s.proxies p).buffer e = s.pushedOf cfg p e := by
  have hcons := (h.content p).conserved e
  have hhand : (s.proxies p).pushPc.inHand.filter (cfg.getEpoch · = e) = [] := by
    have hgate := h.gate p hp
    cases hpc : (s.proxies p).pushPc with
    | idle => rfl
    | loaded t =>
        have := (hgate.loaded t hpc).2.1
        have hne : ¬ cfg.getEpoch t = e := by omega
        simp [PushPc.inHand, hne]
    | emptying t =>
        have := (hgate.emptying t hpc).2.1
        have hne : ¬ cfg.getEpoch t = e := by omega
        simp [PushPc.inHand, hne]
  rw [hhand, List.append_nil] at hcons
  exact hcons

theorem Inv.perm_iff (h : Inv cfg s) (hp : p < cfg.blkSrvCnt) (he : e < (s.proxies p).epoch) :
    (s.handledOf cfg p e).Perm (s.pushedOf cfg p e) ↔ (s.proxies p).buffer e = [] := by
  rw [← h.conserved_of_lt hp he]
  constructor
  · intro hperm
    have hlen := hperm.length_eq
    rw [List.length_append] at hlen
    exact List.eq_nil_of_length_eq_zero (by omega)
  · intro hb
    rw [hb, List.append_nil]

/-- Each transaction of epoch `e` has been handed on exactly once. -/
def DeliveredOnce (cfg : ProxyConfig τ) (s : ProxyState τ) (e : Nat) : Prop :=
  ∀ p < cfg.blkSrvCnt, (s.handledOf cfg p e).Perm (s.pushedOf cfg p e)

/-- In the run `as`, proxy `p` finished epoch `e` with nothing of it left in its buffer. -/
def FinishedEmpty (cfg : ProxyConfig τ) (as : List (ProxyAction τ)) (p e : Nat) : Prop :=
  ∀ as₁ as₂ s₁, as = as₁ ++ .asyncEmptyBuffer p :: as₂ →
    run (step cfg) (initial cfg) as₁ = some s₁ → (s₁.proxies p).epoch = e →
    (s₁.proxies p).buffer e = []

/-- Once all workers are through with epoch `e`. Pushing to a buffer of an epoch from `MAX_EPOCH` on
    and emptying it are switched off in `step`. -/
theorem delivered_once_iff (h : run (step cfg) (initial cfg) as = some s)
    (hdone : ∀ p < cfg.blkSrvCnt, e ∈ (s.proxies p).completed) :
    DeliveredOnce cfg s e ↔
      (cfg.eagerSent = false ∨ ∀ p < cfg.blkSrvCnt, FinishedEmpty cfg as p e) := by
  have hinv := inv_of_run h
  have hlt : ∀ p < cfg.blkSrvCnt, cfg.startWithEpoch ≤ e ∧ e < (s.proxies p).epoch := by
    intro p hp
    have hmem := hinv.sync.tasks p hp
    have : e ∈ List.range' cfg.startWithEpoch ((s.proxies p).epoch - cfg.startWithEpoch) := by
      rw [← hmem]
      simp [hdone p hp]
    have := List.mem_range'_1.mp this
    omega
  cases heager : cfg.eagerSent with
  | false =>
      refine iff_of_true (fun p hp => ?_) (Or.inl rfl)
      rw [hinv.perm_iff hp (hlt p hp).2]
      exact (hinv.content p).drained heager e (Or.inl (hdone p hp))
  | true =>
      constructor
      · intro honce
        right
        rintro p hp as₁ as₂ s₁ rfl h₁ he
        rw [← buffer_of_finish h heager h₁ he]
        exact (hinv.perm_iff hp (hlt p hp).2).mp (honce p hp)
      · rintro (hc | hempty) p hp
        · cases hc
        · obtain ⟨hstart, hlt⟩ := hlt p hp
          obtain ⟨as₁, as₂, s₁, rfl, h₁, he⟩ := exists_finish h hstart hlt
          rw [hinv.perm_iff hp hlt, buffer_of_finish h heager h₁ he]
          exact hempty p hp as₁ as₂ s₁ rfl h₁ he

theorem delivered_once_iff_two :
    ∃ s, run (step twoProxies) (initial twoProxies) caughtUp = some s ∧
      (DeliveredOnce twoProxies s 2 ↔ (twoProxies.eagerSent = false ∨
        ∀ p < twoProxies.blkSrvCnt, FinishedEmpty twoProxies caughtUp p 2)) := by
  have hrun : (run (step twoProxies) (initial twoProxies) caughtUp).any fun s =>
      ∀ p < twoProxies.blkSrvCnt, 2 ∈ (s.proxies p).completed := by
    decide
  obtain ⟨s, hs, hdone⟩ := exists_of_any hrun
  exact ⟨s, hs, delivered_once_iff hs hdone⟩

/-- Proxy 0 finishes epoch 1 and pushes its only transaction of epoch 2 before proxy 1 has finished
    epoch 1. -/
def leftBehind : List (ProxyAction (Nat × Nat)) :=
  ([.asyncEmptyBuffer 0, .push 0 (2, 20), .asyncEmptyBuffer 0, .asyncEmptyBuffer 1] :
    List (ProxyAction (Nat × Nat))) ++ twoWorkers ++
  ([.asyncEmptyBuffer 1] : List (ProxyAction (Nat × Nat))) ++ twoWorkers

/-- The transaction stays in the buffer, though both workers are through with its epoch. -/
theorem eager_loses_parked :
    ∃ s, run (step twoProxies) (initial twoProxies) leftBehind = some s ∧
      (∀ p < twoProxies.blkSrvCnt, 2 ∈ (s.proxies p).completed) ∧
      s.pushedOf twoProxies 0 2 = [(2, 20)] ∧ s.handled = [] := by
  have hrun : (run (step twoProxies) (initial twoProxies) leftBehind).any fun s =>
      (∀ p < twoProxies.blkSrvCnt, 2 ∈ (s.proxies p).completed) ∧
        s.pushedOf twoProxies 0 2 = [(2, 20)] ∧ s.handled = [] := by
    decide
  obtain ⟨s, hs, h⟩ := exists_of_any hrun
  exact ⟨s, hs, h⟩

end NeuChain.Server.ProxyState
