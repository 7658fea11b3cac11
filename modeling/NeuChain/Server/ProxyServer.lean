/-
  All client proxies of one server at work: the receivers of `client_proxy.cpp` on top of the buffers
  of `EpochBuffer`, and the bits by which a proxy is invalidated.

  A receiver thread takes a message, checks it and then performs its operations on its buffer
  one by one. While it has nothing to do it runs into timeouts, and only then does it look at its
  `invalidBits`. After an exception it finishes one epoch after the other. The local receiver takes
  batches and never looks at the bits. The callback of `maliciousTarget` sets the two parts of
  a pair one after the other.

  The receivers and the buffers agree about epochs (`InStep`): the operations a receiver has computed
  are such as the buffer expects, so none is ever refused but for the length of the buffer
  (`InStep.perform_enabled`).
-/
import NeuChain.Server.ClientProxy
import NeuChain.Server.EpochLoss

namespace NeuChain.Server

open NeuChain Lib

structure ProxyServerConfig where
  env : ProxyEnv
  ips : Nat → Bytes
  localId : Nat
  blkSrvCnt : Nat
  startWithEpoch : Epoch
  eagerSent : Bool

def ProxyServerConfig.core (cfg : ProxyServerConfig) : ProxyConfig Transaction where
  blkSrvCnt := cfg.blkSrvCnt
  startWithEpoch := cfg.startWithEpoch
  eagerSent := cfg.eagerSent
  getEpoch := Transaction.epoch

/-- Where a receiver thread is. -/
inductive Receiver where
  | receiving (st : RemoteState)
  | performing (ops : List BufferOp) (next : RemoteStatus)
  | waitingLocal (st : LocalState)
  | performingLocal (ops : List BufferOp) (next : Option LocalState)
  /-- After the loop: `while (!finishSignal) remoteTxBuffer.asyncEmptyBuffer(epoch++)`. -/
  | flushing

structure ProxyServer where
  core : ProxyState Transaction
  remoteQueue : Nat → List Bytes
  receiver : Nat → Receiver
  invalidBits : Nat → InvalidBit
  /-- `isValid` of the control block, which calls the callback once per proxy. -/
  isValid : Nat → Bool := fun _ => true
  /-- The calls of `broadcastMaliciousViewChange`. -/
  votes : List (Bytes × Epoch) := []
  aborted : Bool := false

inductive ServerAction where
  | arrive (proxy : Nat) (messageRaw : Bytes)
  | receive (proxy : Nat)
  | timeout (proxy : Nat)
  | batch (responseRaw : Bytes) (transactionList : List Transaction)
  /-- The receiver thread performs its next operation, or goes on after the last one. -/
  | perform (proxy : Nat)
  | flush (proxy : Nat)
  | continuePush (proxy : Nat)
  | work (proxy : Nat)
  /-- The two stores of the callback. -/
  | setInvalidEpoch (proxy : Nat) (epoch : Epoch)
  | setInvalid (proxy : Nat)

namespace ProxyServer

def initial (cfg : ProxyServerConfig) : ProxyServer where
  core := ProxyState.initial cfg.core
  remoteQueue _ := []
  receiver p := if p = cfg.localId then .waitingLocal { epoch := cfg.startWithEpoch }
    else .receiving { epoch := cfg.startWithEpoch }
  invalidBits _ := {}

def setReceiver (s : ProxyServer) (p : Nat) (r : Receiver) : ProxyServer :=
  { s with receiver := Function.update s.receiver p r }

/-- A step of the buffers. -/
def coreStep (cfg : ProxyServerConfig) (s : ProxyServer) (a : ProxyAction Transaction) :
    Option ProxyServer :=
  (ProxyState.step cfg.core s.core a).map fun core => { s with core := core }

/-- The call of the buffer for an operation of proxy `p`. -/
def BufferOp.action (p : Nat) : BufferOp → ProxyAction Transaction
  | .push t => .push p t
  | .asyncEmptyBuffer _ => .asyncEmptyBuffer p

/-- After the last operation for a message. -/
def resume (cfg : ProxyServerConfig) (s : ProxyServer) (p : Nat) : RemoteStatus → ProxyServer
  | .receiving st => s.setReceiver p (.receiving st)
  | .invalidClientProxy _ => s.setReceiver p .flushing
  | .maliciousClientProxy e =>
      { s with votes := s.votes ++ [(cfg.ips p, e)] }.setReceiver p .flushing
  | .checkFailed => { s with aborted := true }

def perform (cfg : ProxyServerConfig) (s : ProxyServer) (p : Nat) : Option ProxyServer :=
  match s.receiver p with
  | .performing [] next => some (s.resume cfg p next)
  | .performing (op :: ops) next =>
      (s.coreStep cfg (BufferOp.action p op)).map fun s => s.setReceiver p (.performing ops next)
  | .performingLocal [] none => some { s with aborted := true }
  | .performingLocal [] (some st) => some (s.setReceiver p (.waitingLocal st))
  | .performingLocal (op :: ops) next =>
      (s.coreStep cfg (BufferOp.action p op)).map fun s => s.setReceiver p (.performingLocal ops next)
  | _ => none

def receive (cfg : ProxyServerConfig) (s : ProxyServer) (p : Nat) : Option ProxyServer :=
  match s.receiver p, s.remoteQueue p with
  | .receiving st, messageRaw :: rest =>
      let (ops, next) := receiveMessage cfg.env (cfg.ips p) st messageRaw
      some ({ s with remoteQueue := Function.update s.remoteQueue p rest }.setReceiver p
        (.performing ops next))
  | _, _ => none

def timeout (cfg : ProxyServerConfig) (s : ProxyServer) (p : Nat) : Option ProxyServer :=
  match s.receiver p, s.remoteQueue p with
  | .receiving st, [] =>
      let (ops, next) := remoteStep cfg.env (cfg.ips p) st (.timeout (s.invalidBits p))
      some (s.setReceiver p (.performing ops next))
  | _, _ => none

def batch (cfg : ProxyServerConfig) (s : ProxyServer) (responseRaw : Bytes)
    (transactionList : List Transaction) : Option ProxyServer :=
  match s.receiver cfg.localId with
  | .waitingLocal st =>
      let (events, next) := receiveBatch cfg.env st responseRaw transactionList
      some (s.setReceiver cfg.localId (.performingLocal (bufferOps events) next))
  | _ => none

/-- The first store of the callback, after its check that it is not entered again. -/
def setInvalidEpoch (s : ProxyServer) (p : Nat) (e : Epoch) : ProxyServer :=
  let s := { s with isValid := Function.update s.isValid p false }
  if (s.invalidBits p).first ≠ 0 then { s with aborted := true }
  else { s with invalidBits := Function.update s.invalidBits p { s.invalidBits p with first := e } }

/-- The second store. -/
def setInvalid (s : ProxyServer) (p : Nat) : ProxyServer :=
  { s with invalidBits := Function.update s.invalidBits p { s.invalidBits p with second := true } }

def step (cfg : ProxyServerConfig) (s : ProxyServer) (a : ServerAction) : Option ProxyServer :=
  if s.aborted ∨ s.core.aborted then none
  else
    match a with
    | .arrive p messageRaw =>
        some { s with
          remoteQueue := Function.update s.remoteQueue p (s.remoteQueue p ++ [messageRaw]) }
    | .receive p => if p < cfg.blkSrvCnt then s.receive cfg p else none
    | .timeout p => if p < cfg.blkSrvCnt then s.timeout cfg p else none
    | .batch responseRaw transactionList => s.batch cfg responseRaw transactionList
    | .perform p => if p < cfg.blkSrvCnt then s.perform cfg p else none
    | .flush p =>
        match s.receiver p with
        | .flushing => s.coreStep cfg (.asyncEmptyBuffer p)
        | _ => none
    | .continuePush p => s.coreStep cfg (.continuePush p)
    | .work p => s.coreStep cfg (.work p)
    | .setInvalidEpoch p e => if s.isValid p then some (s.setInvalidEpoch p e) else none
    | .setInvalid p => if s.isValid p then none else some (s.setInvalid p)

/-! ## Receivers and buffers -/

/-- A buffer at epoch `e` expects these operations, after which it is at epoch `e'`. -/
def Expected : Epoch → List BufferOp → Epoch → Prop
  | e, [], e' => e = e'
  | e, .push t :: ops, e' => t.epoch = e ∧ Expected e ops e'
  | e, .asyncEmptyBuffer k :: ops, e' => k = e ∧ Expected (e + 1) ops e'

theorem Expected.append {e e' e'' : Epoch} {ops ops' : List BufferOp} (h : Expected e ops e')
    (h' : Expected e' ops' e'') : Expected e (ops ++ ops') e'' := by
  induction ops generalizing e with
  | nil => cases h; exact h'
  | cons op ops ih =>
      cases op with
      | push t => exact ⟨h.1, ih h.2⟩
      | asyncEmptyBuffer k => exact ⟨h.1, ih h.2⟩

/-- The epoch at which the receiver goes on. -/
def StatusAt (e : Epoch) : RemoteStatus → Prop
  | .receiving st => st.epoch = e
  | .invalidClientProxy k => k = e
  | .maliciousClientProxy k => k = e
  | .checkFailed => True

variable {env : ProxyEnv} {ip : Bytes}

theorem expected_batchOps (env : ProxyEnv) (e : Epoch) (signature : Bytes)
    (txs : List Transaction) : Expected e (batchOps env signature (ofEpoch e txs)) e := by
  have hall := fun t => @epoch_of_mem_ofEpoch e txs t
  generalize ofEpoch e txs = l at hall
  induction l with
  | nil => rfl
  | cons t l ih =>
      exact ⟨hall t List.mem_cons_self, ih fun u hu => hall u (List.mem_cons_of_mem t hu)⟩

theorem expected_receiveMessage (env : ProxyEnv) (ip : Bytes) (st : RemoteState) (raw : Bytes) :
    ∃ e, Expected st.epoch (receiveMessage env ip st raw).1 e ∧
      StatusAt e (receiveMessage env ip st raw).2 := by
  unfold receiveMessage
  split
  · exact ⟨_, rfl, trivial⟩
  · split
    · unfold receiveProofSet
      split
      · exact ⟨st.epoch + 1, ⟨rfl, rfl⟩, rfl⟩
      · exact ⟨_, rfl, trivial⟩
    · unfold receiveTransactionSet
      dsimp only
      split
      · exact ⟨_, rfl, rfl⟩
      · split
        · exact ⟨_, rfl, trivial⟩
        · exact ⟨_, rfl, rfl⟩
        · split
          · exact ⟨_, rfl, trivial⟩
          · split
            · split
              · rename_i hpush
                exact ⟨_, ops_of_pushRemote hpush ▸ expected_batchOps _ _ _ _, rfl⟩
              · rename_i hpush
                exact ⟨_, ops_of_pushRemote hpush ▸ expected_batchOps _ _ _ _, trivial⟩
            · exact ⟨_, rfl, rfl⟩

theorem expected_timeout (env : ProxyEnv) (ip : Bytes) (st : RemoteState) (bit : InvalidBit) :
    ∃ e, Expected st.epoch (remoteStep env ip st (.timeout bit)).1 e ∧
      StatusAt e (remoteStep env ip st (.timeout bit)).2 := by
  unfold remoteStep
  dsimp only
  split
  · exact ⟨_, rfl, rfl⟩
  · exact ⟨_, rfl, rfl⟩

theorem expected_finishEpochs (env : ProxyEnv) (st : LocalState) (n : Nat) :
    Expected st.epoch (bufferOps (finishEpochs env st n).1) (finishEpochs env st n).2.epoch := by
  induction n generalizing st with
  | zero => rfl
  | succ n ih => exact ⟨rfl, ih { epoch := st.epoch + 1 }⟩

theorem expected_receiveBatch (env : ProxyEnv) (st : LocalState) (raw : Bytes)
    (ts : List Transaction) :
    ∃ e, Expected st.epoch (bufferOps (receiveBatch env st raw ts).1) e ∧
      ∀ st', (receiveBatch env st raw ts).2 = some st' → st'.epoch = e := by
  have hfinish := expected_finishEpochs env st ((env.responseFromString raw).epoch - st.epoch)
  unfold receiveBatch
  dsimp only
  split
  · split
    · rename_i hpush
      refine ⟨(finishEpochs env st ((env.responseFromString raw).epoch - st.epoch)).2.epoch, ?_,
        fun st' h => by cases h⟩
      rw [bufferOps_append, bufferOps_map_buffer]
      exact hfinish.append (ops_of_pushTransactions hpush ▸ expected_batchOps _ _ _ _)
    · rename_i hpush
      refine ⟨(finishEpochs env st ((env.responseFromString raw).epoch - st.epoch)).2.epoch, ?_,
        fun st' h => by cases h; rfl⟩
      rw [bufferOps_append, bufferOps_append, bufferOps_map_buffer]
      show Expected _ (_ ++ []) _
      rw [List.append_nil]
      exact hfinish.append (ops_of_pushTransactions hpush ▸ expected_batchOps _ _ _ _)
  · exact ⟨_, hfinish, fun st' h => by cases h⟩

/-- A receiver whose buffer is at epoch `e`. -/
def ReceiverAt (e : Epoch) : Receiver → Prop
  | .receiving st => st.epoch = e
  | .performing ops next => ∃ e', Expected e ops e' ∧ StatusAt e' next
  | .waitingLocal st => st.epoch = e
  | .performingLocal ops next => ∃ e', Expected e ops e' ∧ ∀ st', next = some st' → st'.epoch = e'
  | .flushing => True

structure InStep (cfg : ProxyServerConfig) (s : ProxyServer) : Prop where
  core : ProxyState.Inv cfg.core s.core
  receivers : ∀ p < cfg.blkSrvCnt, ReceiverAt (s.core.proxies p).epoch (s.receiver p)

variable {cfg : ProxyServerConfig} {s s' : ProxyServer} {p : Nat} {a : ServerAction}
  {as : List ServerAction}

theorem InStep.initial (cfg : ProxyServerConfig) : InStep cfg (initial cfg) := by
  refine ⟨ProxyState.Inv.initial _, fun p _ => ?_⟩
  unfold ProxyServer.initial
  dsimp only
  split <;> rfl

/-- A receiver changes by itself. -/
theorem InStep.setReceiver {r : Receiver} (h : InStep cfg s) (hcore : s'.core = s.core)
    (hrec : s'.receiver = Function.update s.receiver p r)
    (hr : p < cfg.blkSrvCnt → ReceiverAt (s.core.proxies p).epoch r) : InStep cfg s' := by
  refine ⟨hcore ▸ h.core, fun q hq => ?_⟩
  rw [hcore, hrec]
  by_cases hqp : q = p
  · subst hqp
    rw [Function.update_self]
    exact hr hq
  · rw [Function.update_of_ne hqp]
    exact h.receivers q hq

theorem coreStep_eq_some {b : ProxyAction Transaction} (hs : s.coreStep cfg b = some s') :
    ∃ core, ProxyState.step cfg.core s.core b = some core ∧ s' = { s with core := core } := by
  obtain ⟨core, hc, rfl⟩ := Option.map_eq_some_iff.mp hs
  exact ⟨core, hc, rfl⟩

/-- What `perform` can do. -/
inductive Performed (cfg : ProxyServerConfig) (s : ProxyServer) (p : Nat) : ProxyServer → Prop
  | resumes {next : RemoteStatus} (hr : s.receiver p = .performing [] next) :
      Performed cfg s p (s.resume cfg p next)
  | operates {op : BufferOp} {ops : List BufferOp} {next : RemoteStatus}
      {core : ProxyState Transaction} (hr : s.receiver p = .performing (op :: ops) next)
      (hc : ProxyState.step cfg.core s.core (BufferOp.action p op) = some core) :
      Performed cfg s p ({ s with core := core }.setReceiver p (.performing ops next))
  | aborts (hr : s.receiver p = .performingLocal [] none) :
      Performed cfg s p { s with aborted := true }
  | waits {st : LocalState} (hr : s.receiver p = .performingLocal [] (some st)) :
      Performed cfg s p (s.setReceiver p (.waitingLocal st))
  | operatesLocal {op : BufferOp} {ops : List BufferOp} {next : Option LocalState}
      {core : ProxyState Transaction} (hr : s.receiver p = .performingLocal (op :: ops) next)
      (hc : ProxyState.step cfg.core s.core (BufferOp.action p op) = some core) :
      Performed cfg s p ({ s with core := core }.setReceiver p (.performingLocal ops next))

theorem performed_of_perform (hs : s.perform cfg p = some s') : Performed cfg s p s' := by
  unfold ProxyServer.perform at hs
  split at hs
  · rename_i next hr
    cases hs
    exact .resumes hr
  · rename_i op ops next hr
    obtain ⟨s₁, hs₁, rfl⟩ := Option.map_eq_some_iff.mp hs
    obtain ⟨core, hc, rfl⟩ := coreStep_eq_some hs₁
    exact .operates hr hc
  · rename_i hr
    cases hs
    exact .aborts hr
  · rename_i st hr
    cases hs
    exact .waits hr
  · rename_i op ops next hr
    obtain ⟨s₁, hs₁, rfl⟩ := Option.map_eq_some_iff.mp hs
    obtain ⟨core, hc, rfl⟩ := coreStep_eq_some hs₁
    exact .operatesLocal hr hc
  · cases hs

/-- A step of the buffers, and what it means for the receiver of proxy `p`. -/
theorem InStep.coreStep {b : ProxyAction Transaction} {core : ProxyState Transaction}
    (h : InStep cfg s) (hs : ProxyState.step cfg.core s.core b = some core) (r : Receiver)
    (hb : ∀ q, b = .asyncEmptyBuffer q → q = p)
    (hr : p < cfg.blkSrvCnt → ReceiverAt (core.proxies p).epoch r) :
    InStep cfg ({ s with core := core }.setReceiver p r) := by
  refine ⟨h.core.step hs, fun q hq => ?_⟩
  show ReceiverAt (core.proxies q).epoch (Function.update s.receiver p r q)
  by_cases hqp : q = p
  · subst hqp
    rw [Function.update_self]
    exact hr hq
  · rw [Function.update_of_ne hqp]
    rcases (h.core.step_keeps hs q).1 with heq | ⟨hasync, -⟩
    · rw [heq]
      exact h.receivers q hq
    · exact absurd (hb q hasync) hqp

/-- A step of the buffers within an epoch. -/
theorem InStep.coreStep_quiet {b : ProxyAction Transaction} (h : InStep cfg s)
    (hs : s.coreStep cfg b = some s') (hb : ∀ q, b ≠ .asyncEmptyBuffer q) : InStep cfg s' := by
  obtain ⟨core, hc, rfl⟩ := coreStep_eq_some hs
  refine ⟨h.core.step hc, fun q hq => ?_⟩
  rcases (h.core.step_keeps hc q).1 with heq | ⟨hasync, -⟩
  · show ReceiverAt (core.proxies q).epoch _
    rw [heq]
    exact h.receivers q hq
  · exact absurd hasync (hb q)

/-- Performing the next operation leaves the others. -/
theorem InStep.expected_op {op : BufferOp} {ops : List BufferOp} {e : Epoch}
    {core : ProxyState Transaction} (h : InStep cfg s)
    (hs : ProxyState.step cfg.core s.core (BufferOp.action p op) = some core)
    (he : Expected (s.core.proxies p).epoch (op :: ops) e) :
    Expected (core.proxies p).epoch ops e := by
  cases op with
  | push t =>
      rcases (h.core.step_keeps hs p).1 with heq | ⟨hc, -⟩
      · rw [heq]
        exact he.2
      · cases hc
  | asyncEmptyBuffer k =>
      rw [ProxyState.step_asyncEmptyBuffer hs, ProxyState.proxies_asyncEmptyBuffer]
      exact he.2

theorem action_eq_asyncEmptyBuffer {op : BufferOp} {q : Nat}
    (h : BufferOp.action p op = .asyncEmptyBuffer q) : q = p := by
  cases op with
  | push t => cases h
  | asyncEmptyBuffer k => cases h; rfl

theorem InStep.perform (h : InStep cfg s) (hp : p < cfg.blkSrvCnt)
    (hs : s.perform cfg p = some s') : InStep cfg s' := by
  have hat := h.receivers p hp
  cases performed_of_perform hs with
  | @resumes next hr =>
      rw [hr] at hat
      obtain ⟨e, hexp, hstatus⟩ := hat
      obtain rfl : _ = e := hexp
      cases next with
      | receiving st => exact h.setReceiver rfl rfl fun _ => hstatus
      | invalidClientProxy k => exact h.setReceiver rfl rfl fun _ => trivial
      | maliciousClientProxy k => exact h.setReceiver rfl rfl fun _ => trivial
      | checkFailed => exact ⟨h.core, h.receivers⟩
  | operates hr hc =>
      rw [hr] at hat
      obtain ⟨e, hexp, hstatus⟩ := hat
      exact h.coreStep hc _ (fun _ => action_eq_asyncEmptyBuffer)
        fun _ => ⟨e, h.expected_op hc hexp, hstatus⟩
  | aborts hr => exact ⟨h.core, h.receivers⟩
  | waits hr =>
      rw [hr] at hat
      obtain ⟨e, hexp, hstatus⟩ := hat
      obtain rfl : _ = e := hexp
      exact h.setReceiver rfl rfl fun _ => hstatus _ rfl
  | operatesLocal hr hc =>
      rw [hr] at hat
      obtain ⟨e, hexp, hstatus⟩ := hat
      exact h.coreStep hc _ (fun _ => action_eq_asyncEmptyBuffer)
        fun _ => ⟨e, h.expected_op hc hexp, hstatus⟩

/-- What a step can be. -/
inductive Stepped (cfg : ProxyServerConfig) (s : ProxyServer) : ServerAction → ProxyServer → Prop
  | arrive {p : Nat} {raw : Bytes} : Stepped cfg s (.arrive p raw)
      { s with remoteQueue := Function.update s.remoteQueue p (s.remoteQueue p ++ [raw]) }
  | receive {p : Nat} {s' : ProxyServer} (hp : p < cfg.blkSrvCnt)
      (hs : s.receive cfg p = some s') : Stepped cfg s (.receive p) s'
  | timeout {p : Nat} {s' : ProxyServer} (hp : p < cfg.blkSrvCnt)
      (hs : s.timeout cfg p = some s') : Stepped cfg s (.timeout p) s'
  | batch {raw : Bytes} {ts : List Transaction} {s' : ProxyServer}
      (hs : s.batch cfg raw ts = some s') : Stepped cfg s (.batch raw ts) s'
  | perform {p : Nat} {s' : ProxyServer} (hp : p < cfg.blkSrvCnt)
      (hs : s.perform cfg p = some s') : Stepped cfg s (.perform p) s'
  | flush {p : Nat} {s' : ProxyServer} (hr : s.receiver p = .flushing)
      (hs : s.coreStep cfg (.asyncEmptyBuffer p) = some s') : Stepped cfg s (.flush p) s'
  | continuePush {p : Nat} {s' : ProxyServer} (hs : s.coreStep cfg (.continuePush p) = some s') :
      Stepped cfg s (.continuePush p) s'
  | work {p : Nat} {s' : ProxyServer} (hs : s.coreStep cfg (.work p) = some s') :
      Stepped cfg s (.work p) s'
  | setInvalidEpoch {p : Nat} {e : Epoch} (hvalid : s.isValid p = true) :
      Stepped cfg s (.setInvalidEpoch p e) (s.setInvalidEpoch p e)
  | setInvalid {p : Nat} (hvalid : s.isValid p = false) :
      Stepped cfg s (.setInvalid p) (s.setInvalid p)

theorem stepped_of_step (h : ProxyServer.step cfg s a = some s') : Stepped cfg s a s' := by
  unfold ProxyServer.step at h
  split at h
  · cases h
  cases a with
  | arrive p raw =>
      cases h
      exact .arrive
  | receive p =>
      obtain ⟨hp, hs⟩ := Option.ite_none_right_eq_some.mp h
      exact .receive hp hs
  | timeout p =>
      obtain ⟨hp, hs⟩ := Option.ite_none_right_eq_some.mp h
      exact .timeout hp hs
  | batch raw ts => exact .batch h
  | perform p =>
      obtain ⟨hp, hs⟩ := Option.ite_none_right_eq_some.mp h
      exact .perform hp hs
  | flush p =>
      dsimp only at h
      split at h
      · rename_i hr
        exact .flush hr h
      · cases h
  | continuePush p => exact .continuePush h
  | work p => exact .work h
  | setInvalidEpoch p e =>
      obtain ⟨hvalid, hs⟩ := Option.ite_none_right_eq_some.mp h
      cases hs
      exact .setInvalidEpoch hvalid
  | setInvalid p =>
      obtain ⟨hvalid, hs⟩ := Option.ite_none_left_eq_some.mp h
      cases hs
      exact .setInvalid (Bool.eq_false_iff.mpr hvalid)

theorem receive_eq_some (hs : s.receive cfg p = some s') :
    ∃ st raw rest, s.receiver p = .receiving st ∧ s.remoteQueue p = raw :: rest ∧
      s' = { s with remoteQueue := Function.update s.remoteQueue p rest }.setReceiver p
        (.performing (receiveMessage cfg.env (cfg.ips p) st raw).1
          (receiveMessage cfg.env (cfg.ips p) st raw).2) := by
  unfold ProxyServer.receive at hs
  split at hs
  · rename_i st raw rest hr hqueue
    cases hs
    exact ⟨st, raw, rest, hr, hqueue, rfl⟩
  · cases hs

theorem timeout_eq_some (hs : s.timeout cfg p = some s') :
    ∃ st, s.receiver p = .receiving st ∧ s.remoteQueue p = [] ∧
      s' = s.setReceiver p
        (.performing (remoteStep cfg.env (cfg.ips p) st (.timeout (s.invalidBits p))).1
          (remoteStep cfg.env (cfg.ips p) st (.timeout (s.invalidBits p))).2) := by
  unfold ProxyServer.timeout at hs
  split at hs
  · rename_i st hr hqueue
    cases hs
    exact ⟨st, hr, hqueue, rfl⟩
  · cases hs

theorem batch_eq_some {raw : Bytes} {ts : List Transaction} (hs : s.batch cfg raw ts = some s') :
    ∃ st, s.receiver cfg.localId = .waitingLocal st ∧
      s' = s.setReceiver cfg.localId
        (.performingLocal (bufferOps (receiveBatch cfg.env st raw ts).1)
          (receiveBatch cfg.env st raw ts).2) := by
  unfold ProxyServer.batch at hs
  split at hs
  · rename_i st hr
    cases hs
    exact ⟨st, hr, rfl⟩
  · cases hs

theorem InStep.step (h : InStep cfg s) (hs : ProxyServer.step cfg s a = some s') :
    InStep cfg s' := by
  cases stepped_of_step hs with
  | arrive => exact ⟨h.core, h.receivers⟩
  | receive hp hs =>
      obtain ⟨st, raw, rest, hr, -, rfl⟩ := receive_eq_some hs
      have hat := h.receivers _ hp
      rw [hr] at hat
      refine h.setReceiver rfl rfl fun _ => ?_
      rw [← show st.epoch = _ from hat]
      exact expected_receiveMessage cfg.env _ st raw
  | timeout hp hs =>
      obtain ⟨st, hr, -, rfl⟩ := timeout_eq_some hs
      have hat := h.receivers _ hp
      rw [hr] at hat
      refine h.setReceiver rfl rfl fun _ => ?_
      rw [← show st.epoch = _ from hat]
      exact expected_timeout cfg.env _ st _
  | batch hs =>
      obtain ⟨st, hr, rfl⟩ := batch_eq_some hs
      refine h.setReceiver rfl rfl fun hp => ?_
      have hat := h.receivers _ hp
      rw [hr] at hat
      rw [← show st.epoch = _ from hat]
      exact expected_receiveBatch cfg.env st _ _
  | perform hp hs => exact h.perform hp hs
  | @flush p _ hr hs =>
      obtain ⟨core, hc, rfl⟩ := coreStep_eq_some hs
      have hset : ({ s with core := core } : ProxyServer) =
          { s with core := core }.setReceiver p .flushing := by
        unfold ProxyServer.setReceiver
        rw [← hr, Function.update_eq_self]
      rw [hset]
      exact h.coreStep hc _ (fun q hq => by cases hq; rfl) fun _ => trivial
  | continuePush hs => exact h.coreStep_quiet hs fun q => nofun
  | work hs => exact h.coreStep_quiet hs fun q => nofun
  | setInvalidEpoch hvalid =>
      unfold ProxyServer.setInvalidEpoch
      dsimp only
      split <;> exact ⟨h.core, h.receivers⟩
  | setInvalid hvalid => exact ⟨h.core, h.receivers⟩

theorem inStep_of_run (h : run (ProxyServer.step cfg) (ProxyServer.initial cfg) as = some s) :
    InStep cfg s :=
  run_invariant (InStep cfg) (fun _ _ _ hi hs => hi.step hs) h (InStep.initial cfg)

/-- The buffer takes every operation of its receiver, as long as it has room for the epoch. -/
theorem InStep.perform_enabled {op : BufferOp} {ops : List BufferOp} {next : RemoteStatus}
    (h : InStep cfg s) (hp : p < cfg.blkSrvCnt) (hr : s.receiver p = .performing (op :: ops) next)
    (hidle : (s.core.proxies p).pushPc = .idle) (hroom : (s.core.proxies p).epoch < MAX_EPOCH) :
    (s.perform cfg p).isSome := by
  have hat := h.receivers p hp
  rw [hr] at hat
  obtain ⟨e, hexp, -⟩ := hat
  have hstep : (ProxyState.step cfg.core s.core (BufferOp.action p op)).isSome := by
    unfold ProxyState.step
    rw [if_neg (by rw [h.core.aborted]; nofun)]
    cases op with
    | push t =>
        have ht : t.epoch = (s.core.proxies p).epoch := hexp.1
        have hcond : p < cfg.core.blkSrvCnt ∧ cfg.core.getEpoch t = (s.core.proxies p).epoch ∧
            cfg.core.getEpoch t < MAX_EPOCH := ⟨hp, ht, ht.trans_lt hroom⟩
        simp only [BufferOp.action, hidle]
        rw [if_pos hcond]
        rfl
    | asyncEmptyBuffer k =>
        have hcond : p < cfg.core.blkSrvCnt := hp
        simp only [BufferOp.action, hidle]
        rw [if_pos hcond]
        rfl
  obtain ⟨core, hc⟩ := Option.isSome_iff_exists.mp hstep
  unfold ProxyServer.perform ProxyServer.coreStep
  rw [hr]
  dsimp only
  rw [hc]
  rfl

end ProxyServer

end NeuChain.Server
