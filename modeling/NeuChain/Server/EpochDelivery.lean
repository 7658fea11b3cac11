/-
  Which transactions reach the execution queue, and in which order.

  In every run of the proxies and their workers, with transactions sent eagerly or not:

  * `delivery_in_order`: the transactions passed to the handle have non-decreasing epochs, those
    of one proxy and epoch come in the order in which the proxy pushed them, and no `CHECK` fails.

  `Inv` adds to `Sync`, for each proxy, that what has been handed on, what is in the buffer and what
  the proxy thread has in hand is what was pushed (`Content`), and where the proxy thread can be
  (`Gate`).
-/
import NeuChain.Server.EpochSync

namespace NeuChain.Server

open NeuChain Lib

variable {τ : Type*}

/-! ## Invariant -/

def PushPc.inHand : PushPc τ → List τ
  | .idle => []
  | .loaded t | .emptying t => [t]

/-- What has been pushed, put aside and handed on for each epoch. -/
structure Content (cfg : ProxyConfig τ) (handled : Nat → List τ) (b : TransactionBuffer τ) :
    Prop where
  conserved : ∀ e, handled e ++ b.buffer e ++ b.pushPc.inHand.filter (cfg.getEpoch · = e) =
    b.pushed.filter (cfg.getEpoch · = e)
  buffered : ∀ e, ∀ t ∈ b.buffer e, cfg.getEpoch t = e
  drained : cfg.eagerSent = false → ∀ e, e ∈ b.completed ∨ b.workerPc = .signalling e →
    b.buffer e = []

/-- Where the two threads of a proxy can be, given the queue manager. -/
structure Gate (cfg : ProxyConfig τ) (m : EpochTxnQueueManager) (b : TransactionBuffer τ) :
    Prop where
  loaded : ∀ t, b.pushPc = .loaded t → cfg.eagerSent = true ∧ cfg.getEpoch t = b.epoch ∧
    m.globalProcessingEpoch = b.epoch
  emptying : ∀ t, b.pushPc = .emptying t → cfg.eagerSent = true ∧ cfg.getEpoch t = b.epoch ∧
    cfg.startWithEpoch + m.generation = b.epoch
  worker : ∀ e, b.workerPc = .emptying e → cfg.eagerSent = false

/-! ## One buffer -/

namespace Content

variable {cfg : ProxyConfig τ} {b : TransactionBuffer τ} {handled : Nat → List τ} {t : τ} {e : Nat}

/-- The epochs the worker is through with. -/
def Through (b : TransactionBuffer τ) (e : Nat) : Prop :=
  e ∈ b.completed ∨ b.workerPc = .signalling e

section

variable (h : Content cfg handled b)

include h

/-- Putting a transaction aside keeps what the buffers hold. -/
theorem buffered_park (pushed : List τ) :
    ∀ e, ∀ x ∈ (ProxyState.park { b with pushed := pushed } (cfg.getEpoch t) t).buffer e,
      cfg.getEpoch x = e := by
  intro e x hx
  simp only [ProxyState.park] at hx
  by_cases hte : e = cfg.getEpoch t
  · subst hte
    rw [Function.update_self, List.mem_append] at hx
    rcases hx with hx | hx
    · exact h.buffered _ x hx
    · rw [List.mem_singleton.mp hx]
  · rw [Function.update_of_ne hte] at hx
    exact h.buffered e x hx

theorem drained_park (pushed : List τ) (hlate : ∀ e, Through b e → e ≠ cfg.getEpoch t)
    (heager : cfg.eagerSent = false) :
    ∀ e, Through b e → (ProxyState.park { b with pushed := pushed } (cfg.getEpoch t) t).buffer e = [] := by
  intro e he
  simp only [ProxyState.park]
  rw [Function.update_of_ne (hlate e he)]
  exact h.drained heager e he

/-- A new transaction is taken in hand. -/
theorem take (hpc : b.pushPc = .idle) :
    Content cfg handled { b with pushed := b.pushed ++ [t], pushPc := .loaded t } := by
  refine ⟨fun e => ?_, h.buffered, h.drained⟩
  have hcons := h.conserved e
  rw [hpc] at hcons
  simp only [PushPc.inHand, List.filter_nil, List.append_nil] at hcons
  simp only [PushPc.inHand, List.filter_append, hcons]

/-- The transaction in hand is put aside. -/
theorem putAside (hpc : b.pushPc = .loaded t) (hlate : ∀ e, Through b e → e ≠ cfg.getEpoch t) :
    Content cfg handled (ProxyState.park b (cfg.getEpoch t) t) := by
  refine ⟨fun e => ?_, h.buffered_park b.pushed, fun heager => h.drained_park b.pushed hlate heager⟩
  have hcons := h.conserved e
  rw [hpc] at hcons
  simp only [PushPc.inHand] at hcons
  simp only [ProxyState.park, PushPc.inHand, List.filter_nil, List.append_nil, ← hcons]
  by_cases hte : e = cfg.getEpoch t
  · subst hte
    rw [Function.update_self]
    simp
  · have hte' : ¬ cfg.getEpoch t = e := fun h => hte h.symm
    rw [Function.update_of_ne hte]
    simp [hte']

/-- A new transaction is put aside. -/
theorem park (hpc : b.pushPc = .idle) (hlate : ∀ e, Through b e → e ≠ cfg.getEpoch t) :
    Content cfg handled
      (ProxyState.park { b with pushed := b.pushed ++ [t] } (cfg.getEpoch t) t) :=
  (h.take hpc).putAside rfl hlate

/-- The first transaction of a buffer is handed on. -/
theorem pop {rest : List τ} (hb : b.buffer e = t :: rest) :
    Content cfg (fun e => handled e ++ if cfg.getEpoch t = e then [t] else [])
      { b with buffer := Function.update b.buffer e rest } := by
  have hte : cfg.getEpoch t = e := h.buffered e t (by rw [hb]; exact List.mem_cons_self)
  refine ⟨fun e' => ?_, fun e' x hx => ?_, fun heager e' he' => ?_⟩
  · have hcons := h.conserved e'
    by_cases he : e' = e
    · subst he
      rw [hb] at hcons
      simp [hte, ← hcons]
    · have hne : ¬ cfg.getEpoch t = e' := fun hc => he (hc.symm.trans hte)
      simp [hne, he, ← hcons]
  · dsimp only at hx
    by_cases he : e' = e
    · subst he
      rw [Function.update_self] at hx
      exact h.buffered e' x (by rw [hb]; exact List.mem_cons_of_mem _ hx)
    · rw [Function.update_of_ne he] at hx
      exact h.buffered e' x hx
  · have hempty := h.drained heager e' he'
    have he : e' ≠ e := by
      rintro rfl
      rw [hb] at hempty
      cases hempty
    show Function.update b.buffer e rest e' = []
    rw [Function.update_of_ne he]
    exact hempty

/-- The transaction in hand is handed on, with nothing of its epoch left in the buffer. -/
theorem handOn (hpc : b.pushPc = .emptying t) (hb : b.buffer (cfg.getEpoch t) = []) :
    Content cfg (fun e => handled e ++ if cfg.getEpoch t = e then [t] else [])
      { b with pushPc := .idle } := by
  refine ⟨fun e => ?_, h.buffered, h.drained⟩
  have hcons := h.conserved e
  rw [hpc] at hcons
  simp only [PushPc.inHand] at hcons
  simp only [PushPc.inHand, List.filter_nil, List.append_nil, ← hcons]
  by_cases hte : cfg.getEpoch t = e
  · subst hte
    simp [hb]
  · simp [hte]

end

end Content

namespace ProxyState

/-- The transactions of proxy `p` and epoch `e` that have been handed on. -/
def handledOf (cfg : ProxyConfig τ) (s : ProxyState τ) (p e : Nat) : List τ :=
  (s.handled.filter fun x => x.1 = p ∧ cfg.getEpoch x.2 = e).map Prod.snd

/-- The transactions of proxy `p` and epoch `e` that have been pushed. -/
def pushedOf (cfg : ProxyConfig τ) (s : ProxyState τ) (p e : Nat) : List τ :=
  (s.proxies p).pushed.filter (cfg.getEpoch · = e)

/-- The first epoch of which nothing has been handed on. -/
def horizon (cfg : ProxyConfig τ) (s : ProxyState τ) : Nat :=
  cfg.startWithEpoch + s.queueMgr.generation + if cfg.eagerSent then 1 else 0

structure Inv (cfg : ProxyConfig τ) (s : ProxyState τ) : Prop where
  aborted : s.aborted = false
  sync : Sync cfg s
  gate : ∀ p < cfg.blkSrvCnt, Gate cfg s.queueMgr (s.proxies p)
  content : ∀ p, Content cfg (s.handledOf cfg p) (s.proxies p)
  bound : ∀ x ∈ s.handled, cfg.getEpoch x.2 < s.horizon cfg
  sorted : (s.handled.map fun x => cfg.getEpoch x.2).Pairwise (· ≤ ·)

variable {cfg : ProxyConfig τ} {s s' : ProxyState τ} {p : Nat} {t : τ} {e : Nat}
  {a : ProxyAction τ} {as : List (ProxyAction τ)}

theorem Inv.initial (cfg : ProxyConfig τ) : Inv cfg (initial cfg) := by
  refine ⟨rfl, Sync.initial cfg, fun p _ => ⟨?_, ?_, ?_⟩, fun p => ⟨?_, ?_, ?_⟩, ?_, ?_⟩
  · intro t h; cases h
  · intro t h; cases h
  · intro e h; cases h
  · intro e; rfl
  · intro e t h; cases h
  · intro _ e _; rfl
  · intro x h; cases h
  · exact List.Pairwise.nil

theorem handledOf_handle (q : Nat) : (s.handle p t).handledOf cfg q e =
    s.handledOf cfg q e ++ if q = p ∧ cfg.getEpoch t = e then [t] else [] := by
  unfold handledOf ProxyState.handle
  dsimp only
  rw [List.filter_append, List.map_append]
  congr 1
  by_cases h : q = p ∧ cfg.getEpoch t = e
  · rw [if_pos h]
    simp [h.1, h.2]
  · rw [if_neg h]
    have h' : ¬ (p = q ∧ cfg.getEpoch t = e) := fun hc => h ⟨hc.1.symm, hc.2⟩
    rw [List.filter_cons_of_neg (by simpa using h')]
    rfl

/-- A step of one proxy that leaves the counters and what its worker has to do. -/
theorem Inv.update {b : TransactionBuffer τ} (h : Inv cfg s) (hm : s'.queueMgr = s.queueMgr)
    (ha : s'.aborted = s.aborted) (hs : s'.proxies = Function.update s.proxies p b)
    (hother : ∀ q, q ≠ p → s'.handledOf cfg q = s.handledOf cfg q)
    (hbound : ∀ x ∈ s'.handled, cfg.getEpoch x.2 < s.horizon cfg)
    (hsorted : (s'.handled.map fun x => cfg.getEpoch x.2).Pairwise (· ≤ ·))
    (hctl : SameControl (s.proxies p) b) (hgate : Gate cfg s.queueMgr b)
    (hcont : Content cfg (s'.handledOf cfg p) b) : Inv cfg s' := by
  have hself : s'.proxies p = b := by rw [hs, Function.update_self]
  have hne : ∀ q, q ≠ p → s'.proxies q = s.proxies q :=
    fun q hq => by rw [hs, Function.update_of_ne hq]
  have hhor : s'.horizon cfg = s.horizon cfg := by unfold horizon; rw [hm]
  refine ⟨ha.trans h.aborted, h.sync.congr hm fun q => ?_, fun q hq => ?_, fun q => ?_,
    hhor ▸ hbound, hsorted⟩
  · by_cases hqp : q = p
    · subst hqp
      rw [hself]
      exact hctl
    · rw [hne q hqp]
      exact ⟨rfl, rfl, rfl, rfl⟩
  · rw [hm]
    by_cases hqp : q = p
    · subst hqp
      rw [hself]
      exact hgate
    · rw [hne q hqp]
      exact h.gate q hq
  · by_cases hqp : q = p
    · subst hqp
      rw [hself]
      exact hcont
    · rw [hne q hqp, hother q hqp]
      exact h.content q

/-- The step hands nothing on. -/
theorem Inv.setProxy {b : TransactionBuffer τ} (h : Inv cfg s) (hctl : SameControl (s.proxies p) b)
    (hgate : Gate cfg s.queueMgr b) (hcont : Content cfg (s.handledOf cfg p) b) :
    Inv cfg (s.setProxy p b) :=
  h.update rfl rfl rfl (fun _ _ => rfl) h.bound h.sorted hctl hgate hcont

/-- The step hands on a transaction of the latest epoch. -/
theorem Inv.handle {b : TransactionBuffer τ} (h : Inv cfg s)
    (ht : cfg.getEpoch t + 1 = s.horizon cfg) (hctl : SameControl (s.proxies p) b)
    (hgate : Gate cfg s.queueMgr b)
    (hcont : Content cfg (fun e => s.handledOf cfg p e ++
      if cfg.getEpoch t = e then [t] else []) b) :
    Inv cfg ((s.handle p t).setProxy p b) := by
  refine h.update rfl rfl rfl (fun q hq => ?_) (fun x hx => ?_) ?_ hctl hgate ?_
  · funext e
    show (s.handle p t).handledOf cfg q e = _
    rw [handledOf_handle, if_neg fun hc => hq hc.1, List.append_nil]
  · rcases List.mem_append.mp hx with hx | hx
    · exact h.bound x hx
    · rw [List.mem_singleton.mp hx]
      show cfg.getEpoch t < s.horizon cfg
      omega
  · show ((s.handled ++ [(p, t)]).map fun x => cfg.getEpoch x.2).Pairwise (· ≤ ·)
    rw [List.map_append, List.pairwise_append]
    refine ⟨h.sorted, List.pairwise_singleton _ _, ?_⟩
    intro e he e' he'
    obtain ⟨x, hx, rfl⟩ := List.mem_map.mp he
    have hlt := h.bound x hx
    obtain rfl : e' = cfg.getEpoch t := by simpa using he'
    omega
  · have hfun : ((s.handle p t).setProxy p b).handledOf cfg p = fun e => s.handledOf cfg p e ++
        if cfg.getEpoch t = e then [t] else [] := by
      funext e
      show (s.handle p t).handledOf cfg p e = _
      rw [handledOf_handle]
      simp
    rw [hfun]
    exact hcont

/-! ## The proxy thread -/

/-- The worker is not yet through with the epoch of its proxy. -/
theorem Sync.through_lt (h : Sync cfg s) (hp : p < cfg.blkSrvCnt)
    (he : Content.Through (s.proxies p) e) : e < (s.proxies p).epoch := by
  rcases he with he | he
  · exact h.mem_completed hp he
  · exact (h.current_eq hp (e := e) (by rw [he]; rfl)).2

theorem Inv.push (h : Inv cfg s) (hp : p < cfg.blkSrvCnt) (hpc : (s.proxies p).pushPc = .idle)
    (ht : cfg.getEpoch t = (s.proxies p).epoch) : Inv cfg (s.pushTransactionToBuffer cfg p t) := by
  have hgate := h.gate p hp
  have hcont := h.content p
  have hlate : ∀ e, Content.Through (s.proxies p) e → e ≠ cfg.getEpoch t := by
    intro e he
    have := h.sync.through_lt hp he
    omega
  have hparked : Inv cfg (s.setProxy p (park { s.proxies p with
      pushed := (s.proxies p).pushed ++ [t] } (cfg.getEpoch t) t)) :=
    h.setProxy ⟨rfl, rfl, rfl, rfl⟩
      ⟨fun _ hc => (by cases hc), fun _ hc => (by cases hc), hgate.worker⟩ (hcont.park hpc hlate)
  have hle := h.sync.le_epoch hp
  unfold pushTransactionToBuffer
  dsimp only
  split
  · rename_i heager
    split
    · exact hparked
    · split
      · rename_i heq
        refine h.setProxy ⟨rfl, rfl, rfl, rfl⟩ ⟨?_, fun _ hc => (by cases hc), hgate.worker⟩
          (hcont.take hpc)
        intro t' ht'
        cases ht'
        exact ⟨heager, ht, heq.symm.trans ht⟩
      · -- CHECK: the queue manager is not ahead of this proxy
        omega
  · exact hparked

/-- One turn of `syncEmptyBuffer`, for the latest epoch. -/
theorem Inv.syncEmptyBuffer (h : Inv cfg s) (hp : p < cfg.blkSrvCnt) (he : e + 1 = s.horizon cfg)
    (hs : s.syncEmptyBuffer cfg p e = some s') : Inv cfg s' := by
  have hgate := h.gate p hp
  have hcont := h.content p
  unfold ProxyState.syncEmptyBuffer at hs
  split at hs
  · cases hs
  · rename_i t rest hb
    have hte : cfg.getEpoch t = e := hcont.buffered e t (by rw [hb]; exact List.mem_cons_self)
    rw [if_pos hte] at hs
    cases hs
    exact h.handle (by omega) ⟨rfl, rfl, rfl, rfl⟩ ⟨hgate.loaded, hgate.emptying, hgate.worker⟩
      (hcont.pop hb)

theorem Inv.continuePush (h : Inv cfg s) (hp : p < cfg.blkSrvCnt)
    (hs : s.continuePush cfg p = some s') : Inv cfg s' := by
  have hgate := h.gate p hp
  have hcont := h.content p
  unfold ProxyState.continuePush at hs
  split at hs
  · cases hs
  · rename_i t hpc
    obtain ⟨heager, ht, hg⟩ := hgate.loaded t hpc
    split at hs
    · cases hs
      refine h.setProxy ⟨rfl, rfl, rfl, rfl⟩
        ⟨fun _ hc => (by cases hc), fun _ hc => (by cases hc), hgate.worker⟩
        (hcont.putAside hpc fun e he => ?_)
      have := h.sync.through_lt hp he
      omega
    · rename_i hcnt
      cases hs
      have hgen := h.sync.of_count hp hcnt
      refine h.setProxy ⟨rfl, rfl, rfl, rfl⟩ ⟨fun _ hc => (by cases hc), ?_, hgate.worker⟩
        ⟨fun e => ?_, hcont.buffered, hcont.drained⟩
      · intro t' ht'
        cases ht'
        exact ⟨heager, ht, hgen.symm.trans hg⟩
      · have := hcont.conserved e
        rw [hpc] at this
        exact this
  · rename_i t hpc
    obtain ⟨heager, ht, hgen⟩ := hgate.emptying t hpc
    have hhor : cfg.getEpoch t + 1 = s.horizon cfg := by
      unfold horizon
      rw [if_pos heager]
      omega
    split at hs
    · rename_i hsync
      cases hs
      exact h.syncEmptyBuffer hp hhor hsync
    · rename_i hsync
      cases hs
      have hb : (s.proxies p).buffer (cfg.getEpoch t) = [] := by
        unfold ProxyState.syncEmptyBuffer at hsync
        split at hsync
        · assumption
        · split at hsync <;> cases hsync
      exact h.handle hhor ⟨rfl, rfl, rfl, rfl⟩
        ⟨fun _ hc => (by cases hc), fun _ hc => (by cases hc), hgate.worker⟩ (hcont.handOn hpc hb)

theorem Inv.asyncEmptyBuffer (h : Inv cfg s) (hpc : (s.proxies p).pushPc = .idle) :
    Inv cfg (s.asyncEmptyBuffer p) := by
  have hself := s.proxies_asyncEmptyBuffer p
  have hne := fun q (hq : q ≠ p) => s.proxies_asyncEmptyBuffer_of_ne hq
  refine ⟨h.aborted, h.sync.asyncEmptyBuffer, fun q hq => ?_, fun q => ?_, h.bound, h.sorted⟩
  · by_cases hqp : q = p
    · subst hqp
      rw [hself]
      refine ⟨fun t hc => ?_, fun t hc => ?_, (h.gate q hq).worker⟩
      · rw [hpc] at hc
        cases hc
      · rw [hpc] at hc
        cases hc
    · rw [hne q hqp]
      exact h.gate q hq
  · have hcont := h.content q
    by_cases hqp : q = p
    · subst hqp
      rw [hself]
      exact ⟨hcont.conserved, hcont.buffered, hcont.drained⟩
    · rw [hne q hqp]
      exact hcont

/-! ## The worker thread -/

/-- A worker's step that hands nothing on. A proxy thread that has looked at the queue manager must not
    see it change. -/
theorem Inv.workStep {m : EpochTxnQueueManager} {pc : WorkerPc} (h : Inv cfg s)
    (hsync : Sync cfg (s.workStep p m pc)) (hgen : s.queueMgr.generation ≤ m.generation)
    (hloaded : ∀ q < cfg.blkSrvCnt, ∀ t, (s.proxies q).pushPc = .loaded t →
      m.globalProcessingEpoch = s.queueMgr.globalProcessingEpoch)
    (hemptying : ∀ q < cfg.blkSrvCnt, ∀ t, (s.proxies q).pushPc = .emptying t →
      m.generation = s.queueMgr.generation)
    (hworker : ∀ e, pc = .emptying e → cfg.eagerSent = false)
    (hdrained : cfg.eagerSent = false → ∀ e, pc = .signalling e → (s.proxies p).buffer e = []) :
    Inv cfg (s.workStep p m pc) := by
  refine ⟨h.aborted, hsync, fun q hq => ?_, fun q => ?_, fun x hx => ?_, h.sorted⟩
  · obtain ⟨hl, he, hw⟩ := h.gate q hq
    have hm : ∀ b : TransactionBuffer τ, b.pushPc = (s.proxies q).pushPc →
        b.epoch = (s.proxies q).epoch → (∀ e, b.workerPc = .emptying e → cfg.eagerSent = false) →
        Gate cfg m b := by
      intro b hpush hepoch hbw
      refine ⟨fun t ht => ?_, fun t ht => ?_, hbw⟩
      · rw [hpush] at ht
        rw [hepoch, hloaded q hq t ht]
        exact hl t ht
      · rw [hpush] at ht
        rw [hepoch, hemptying q hq t ht]
        exact he t ht
    show Gate cfg m _
    rw [workStep_proxies]
    split
    · rename_i hqp
      subst hqp
      exact hm _ rfl rfl hworker
    · exact hm _ rfl rfl hw
  · have hcont := h.content q
    show Content cfg (s.handledOf cfg q) _
    rw [workStep_proxies]
    split
    · rename_i hqp
      subst hqp
      refine ⟨hcont.conserved, hcont.buffered, fun heager e he => ?_⟩
      rcases he with he | he
      · exact hcont.drained heager e (Or.inl he)
      · exact hdrained heager e he
    · exact hcont
  · have hlt := h.bound x hx
    have hmono : s.horizon cfg ≤ (s.workStep p m pc).horizon cfg := by
      show cfg.startWithEpoch + s.queueMgr.generation + _ ≤ cfg.startWithEpoch + m.generation + _
      omega
    omega

theorem afterAwait_eq_emptying {e' : Nat} (h : afterAwait cfg e = .emptying e') :
    cfg.eagerSent = false := by
  unfold afterAwait at h
  cases heager : cfg.eagerSent with
  | false => rfl
  | true => rw [heager] at h; cases h

theorem afterAwait_ne_signalling (heager : cfg.eagerSent = false) (e e' : Nat) :
    afterAwait cfg e ≠ .signalling e' := by
  unfold afterAwait
  rw [heager]
  nofun

theorem Inv.await {rest : List Nat} (h : Inv cfg s) (hp : p < cfg.blkSrvCnt)
    (hpc : (s.proxies p).workerPc = .idle) (hw : (s.proxies p).workload = e :: rest) :
    Inv cfg (s.await cfg p e rest) := by
  obtain ⟨pc, hself, hpc'⟩ := await_self cfg s p e rest
  have hne : ∀ q, q ≠ p → (s.await cfg p e rest).proxies q = s.proxies q :=
    fun q hq => Function.update_of_ne hq _ _
  refine ⟨h.aborted, h.sync.await hp hpc hw, fun q hq => ?_, fun q => ?_, h.bound, h.sorted⟩
  · obtain ⟨hl, he, hwk⟩ := h.gate q hq
    by_cases hqp : q = p
    · subst hqp
      rw [hself]
      refine ⟨hl, he, fun e' he' => ?_⟩
      rcases hpc' with ⟨k, rfl⟩ | rfl <;> cases he'
    · rw [hne q hqp]
      exact ⟨hl, he, hwk⟩
  · have hcont := h.content q
    by_cases hqp : q = p
    · subst hqp
      rw [hself]
      refine ⟨hcont.conserved, hcont.buffered, fun heager e' he' => ?_⟩
      rcases he' with he' | he'
      · exact hcont.drained heager e' (Or.inl he')
      · rcases hpc' with ⟨k, rfl⟩ | rfl <;> cases he'
    · rw [hne q hqp]
      exact hcont

theorem Inv.signal (h : Inv cfg s) (hp : p < cfg.blkSrvCnt)
    (hpc : (s.proxies p).workerPc = .signalling e) :
    Inv cfg ({ s with queueMgr := { s.queueMgr with currentEpochPushedToQueueCnt :=
        s.queueMgr.currentEpochPushedToQueueCnt + 1 } }.setProxy p { s.proxies p with
          workerPc := .idle, completed := (s.proxies p).completed ++ [e] }) := by
  have hsync := h.sync.signal hp hpc
  refine ⟨h.aborted, hsync, fun q hq => ?_, fun q => ?_, h.bound, h.sorted⟩
  · obtain ⟨hl, he, hw⟩ := h.gate q hq
    simp only [ProxyState.setProxy]
    by_cases hqp : q = p
    · subst hqp
      rw [Function.update_self]
      exact ⟨hl, he, fun _ hc => (by cases hc)⟩
    · rw [Function.update_of_ne hqp]
      exact ⟨hl, he, hw⟩
  · have hcont := h.content q
    show Content cfg (s.handledOf cfg q) _
    simp only [ProxyState.setProxy]
    by_cases hqp : q = p
    · subst hqp
      rw [Function.update_self]
      refine ⟨hcont.conserved, hcont.buffered, fun heager e' he' => ?_⟩
      rcases he' with he' | he'
      · rcases List.mem_append.mp he' with he' | he'
        · exact hcont.drained heager e' (Or.inl he')
        · rw [List.mem_singleton.mp he']
          exact hcont.drained heager e (Or.inr hpc)
      · cases he'
    · rw [Function.update_of_ne hqp]
      exact hcont

theorem Inv.work (h : Inv cfg s) (hp : p < cfg.blkSrvCnt) (hs : s.work cfg p = some s') :
    Inv cfg s' := by
  have hgate := h.gate p hp
  have hcont := h.content p
  unfold ProxyState.work at hs
  cases hpc : (s.proxies p).workerPc with
  | idle =>
      rw [hpc] at hs
      dsimp only at hs
      split at hs
      · cases hs
      · rename_i e rest hw
        cases hs
        exact h.await hp hpc hw
  | waiting e k =>
      rw [hpc] at hs
      dsimp only at hs
      split at hs
      · rename_i hk
        cases hs
        exact h.workStep (h.sync.leave hp hpc hk) (Nat.le_refl _) (fun _ _ _ _ => rfl)
          (fun _ _ _ _ => rfl) (fun _ => afterAwait_eq_emptying)
          (fun heager e' he' => absurd he' (afterAwait_ne_signalling heager e e'))
      · cases hs
  | storing e =>
      rw [hpc] at hs
      cases hs
      exact h.workStep (h.sync.store hp hpc) (Nat.le_refl _) (fun _ _ _ _ => rfl)
        (fun _ _ _ _ => rfl) (fun _ hc => (by cases hc)) (fun _ _ hc => (by cases hc))
  | adding e =>
      rw [hpc] at hs
      cases hs
      have hreset : (s.proxies p).workerPc.reset = true := by rw [hpc]; rfl
      refine h.workStep (h.sync.add hp hpc) (Nat.le_refl _) (fun q hq t ht => ?_)
        (fun _ _ _ _ => rfl) (fun _ hc => (by cases hc)) (fun _ _ hc => (by cases hc))
      -- no proxy thread is between its two loads: its epoch is over
      have hlt := h.sync.lt_epoch_of_closing hp (Sync.closing_of_reset hreset) hq
      have hg := (h.gate q hq).loaded t ht
      have hopen := h.sync.epochOpen fun i hi => by
        by_cases hip : i = p
        · subst hip
          rw [hpc]
          rfl
        · exact (h.sync.others_quiet hp (Sync.closing_of_reset hreset) hi hip).2
      omega
  | releasing e =>
      rw [hpc] at hs
      cases hs
      have hreset : (s.proxies p).workerPc.reset = true := by rw [hpc]; rfl
      refine h.workStep (h.sync.release hp hpc) (Nat.le_succ _) (fun _ _ _ _ => rfl)
        (fun q hq t ht => ?_) (fun _ => afterAwait_eq_emptying)
        (fun heager e' he' => absurd he' (afterAwait_ne_signalling heager e e'))
      have hlt := h.sync.lt_epoch_of_closing hp (Sync.closing_of_reset hreset) hq
      have hgen := (h.gate q hq).emptying t ht
      omega
  | emptying e =>
      rw [hpc] at hs
      dsimp only at hs
      have heager := hgate.worker e hpc
      split at hs
      · split at hs
        · rename_i hsync
          cases hs
          refine h.syncEmptyBuffer hp ?_ hsync
          -- this worker is at the epoch of the generation released last
          have hcur := (h.sync.current_eq hp (e := e) (by rw [hpc]; rfl)).1
          have hround := h.sync.barrier.rounds p hp
          simp only [ProxyState.barrier, hpc, WorkerPc.party, Barrier.AtRound] at hround
          unfold horizon
          rw [heager]
          simp only [Bool.false_eq_true, if_false]
          omega
        · rename_i hsync
          cases hs
          refine h.workStep (h.sync.emptied hpc) (Nat.le_refl _) (fun _ _ _ _ => rfl)
            (fun _ _ _ _ => rfl) (fun _ hc => (by cases hc)) (fun _ e' he' => ?_)
          cases he'
          unfold ProxyState.syncEmptyBuffer at hsync
          split at hsync
          · assumption
          · split at hsync <;> cases hsync
      · cases hs
  | signalling e =>
      rw [hpc] at hs
      cases hs
      exact h.signal hp hpc

/-! ## Runs -/

theorem Inv.step (h : Inv cfg s) (hs : step cfg s a = some s') : Inv cfg s' := by
  cases step_cases hs with
  | push hp hpc ht hmax => exact h.push hp hpc ht
  | continuePush hp hs => exact h.continuePush hp hs
  | asyncEmptyBuffer hp hpc => exact h.asyncEmptyBuffer hpc
  | work hp hs => exact h.work hp hs

theorem inv_of_run (h : run (step cfg) (initial cfg) as = some s) : Inv cfg s :=
  run_invariant (Inv cfg) (fun _ _ _ hi hs => hi.step hs) h (Inv.initial cfg)

/-- What holds of the transactions handed on, in every state of every run. In these runs nothing is
    pushed to the buffer of an epoch from `MAX_EPOCH` on, and no such buffer is emptied: `step` has
    these steps switched off, where the code would index past the end of `buffer`. -/
theorem delivery_in_order (h : run (step cfg) (initial cfg) as = some s) :
    s.aborted = false ∧ (s.handled.map fun x => cfg.getEpoch x.2).Pairwise (· ≤ ·) ∧
      ∀ p e, s.handledOf cfg p e <+: s.pushedOf cfg p e := by
  have hinv := inv_of_run h
  refine ⟨hinv.aborted, hinv.sorted, fun p e => ?_⟩
  refine ⟨(s.proxies p).buffer e ++ (s.proxies p).pushPc.inHand.filter (cfg.getEpoch · = e), ?_⟩
  rw [← List.append_assoc]
  exact (hinv.content p).conserved e

/-- Two proxies that send eagerly. Transactions are pairs of an epoch and a name. -/
def twoProxies : ProxyConfig (Nat × Nat) where
  blkSrvCnt := 2
  startWithEpoch := 1
  eagerSent := true
  getEpoch := Prod.fst

/-- The workers of two proxies that have both finished an epoch: one waits, the other releases the
    barrier, and both signal. -/
def twoWorkers : List (ProxyAction (Nat × Nat)) :=
  [.work 0, .work 1, .work 1, .work 1, .work 1, .work 1, .work 0, .work 0]

/-- Proxy 0 is ahead of proxy 1 and puts a transaction of epoch 2 aside; its next one takes it
    along. -/
def caughtUp : List (ProxyAction (Nat × Nat)) :=
  ([.push 0 (1, 10), .continuePush 0, .continuePush 0, .asyncEmptyBuffer 0, .push 0 (2, 20),
    .push 1 (1, 11), .continuePush 1, .continuePush 1, .asyncEmptyBuffer 1] :
      List (ProxyAction (Nat × Nat))) ++ twoWorkers ++
  ([.push 0 (2, 21), .continuePush 0, .continuePush 0, .continuePush 0, .asyncEmptyBuffer 0,
    .asyncEmptyBuffer 1] : List (ProxyAction (Nat × Nat))) ++ twoWorkers

theorem delivery_in_order_two :
    ∃ s, run (step twoProxies) (initial twoProxies) caughtUp = some s ∧
      s.handled = [(0, (1, 10)), (1, (1, 11)), (0, (2, 20)), (0, (2, 21))] ∧
      s.aborted = false ∧ (s.handled.map fun x => x.2.1).Pairwise (· ≤ ·) ∧
      ∀ p e, s.handledOf twoProxies p e <+: s.pushedOf twoProxies p e := by
  have hrun : (run (step twoProxies) (initial twoProxies) caughtUp).any fun s =>
      s.handled = [(0, (1, 10)), (1, (1, 11)), (0, (2, 20)), (0, (2, 21))] := by
    decide
  obtain ⟨s, hs, hhandled⟩ := exists_of_any hrun
  exact ⟨s, hs, hhandled, delivery_in_order hs⟩

/-! ## The execution queue -/

/-- `CommController::transferTransaction` for one transaction it takes from the queue, with its static
    `currentEpoch`; `none` if the `CHECK` fails. -/
def transferOne (getEpoch : τ → Nat) (currentEpoch : Nat) (t : τ) : Option Nat :=
  let currentEpoch := if getEpoch t > currentEpoch then getEpoch t else currentEpoch
  if getEpoch t = currentEpoch then some currentEpoch else none

/-- The `CHECK` holds unless the epochs go back. -/
theorem transferOne_eq {getEpoch : τ → Nat} {currentEpoch : Nat} {t : τ}
    (h : currentEpoch ≤ getEpoch t) : transferOne getEpoch currentEpoch t = some (getEpoch t) := by
  unfold transferOne
  by_cases hlt : getEpoch t > currentEpoch
  · simp [hlt]
  · have heq : getEpoch t = currentEpoch := by omega
    simp [heq]

end ProxyState

end NeuChain.Server
