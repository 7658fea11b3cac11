/-
  How the coordinators cut an epoch into workloads (`assignWorkloadPhase`).

  `createWorkload` pops transactions of the current epoch as long as there are some, but at least one
  and not more than the maximum; `AggregationCoordinator` puts those of other servers aside and makes
  workloads of them later, and registers all of them at the broadcaster. `TransactionQueueWrapper`
  keeps the front apart once somebody has asked for it, and `front`, `pop` and `empty` may all take
  a transaction out of the queue. The limits are atomic variables that the producer changes; every
  evaluation of them may give other numbers (`views k` is what the `k`-th one sees).

  * `fill_succ`: `createWorkload` asks for the front before it asks whether the queue is empty, so
    the queue never is, and the minimum does not matter.
  * `workloads_partition_epoch`: the phase ends, each transaction of the epoch is in one workload
    and is registered once, and the next one in the queue is the first of a later epoch.
-/
import NeuChain.Types

namespace NeuChain.Server

open NeuChain

structure Workload where
  epoch : Epoch
  transactionList : List Transaction
  aggregationWorkload : Bool := false
deriving DecidableEq, Repr

/-- `getMinTxPerWorkload`, `getMaxTxPerWorkload` and `queueWrapper.empty()`, given the numbers of
    transactions left in `queueWrapper` and in `aggregationQueue`. -/
structure CoordinatorView where
  minTxPerWorkload : Nat → Nat → Nat
  maxTxPerWorkload : Nat → Nat → Nat
  empty : Nat → Nat → Bool

/-- What the workloads of one kind hold. -/
def assigned (kind : Bool) (workloads : List Workload) : List Transaction :=
  (workloads.filter fun w => w.aggregationWorkload = kind).flatMap Workload.transactionList

theorem assigned_cons (kind : Bool) (w : Workload) (ws : List Workload) :
    assigned kind (w :: ws) = assigned kind [w] ++ assigned kind ws := by
  unfold assigned
  rw [← List.flatMap_append, ← List.filter_append]
  rfl

theorem length_assigned_singleton (w : Workload) :
    (assigned false [w]).length + (assigned true [w]).length = w.transactionList.length := by
  cases h : w.aggregationWorkload <;> simp [assigned, h]

/-- `_queue` has the transactions in the order in which they are pushed, those included which have
    not been pushed yet; who dequeues one of these waits. -/
structure TransactionQueueWrapper where
  _queue : List Transaction
  _front : Option Transaction := none
deriving DecidableEq, Repr

namespace TransactionQueueWrapper

/-- `none` if it waits for ever. -/
def front (w : TransactionQueueWrapper) : Option (Transaction × TransactionQueueWrapper) :=
  match w._front, w._queue with
  | some value, _ => some (value, w)
  | none, value :: queue => some (value, { _queue := queue, _front := some value })
  | none, [] => none

def pop (w : TransactionQueueWrapper) : Option (Transaction × TransactionQueueWrapper) :=
  match w._front, w._queue with
  | some value, _ => some (value, { w with _front := none })
  | none, value :: queue => some (value, { w with _queue := queue })
  | none, [] => none

/-- `nothing`: the producer is late and `try_dequeue` does not get anything. -/
def empty (w : TransactionQueueWrapper) (nothing : Bool) : Bool × TransactionQueueWrapper :=
  match w._front, w._queue with
  | some _, _ => (false, w)
  | none, value :: queue =>
      if nothing then (true, w) else (false, { _queue := queue, _front := some value })
  | none, [] => (true, w)

def contents (w : TransactionQueueWrapper) : List Transaction := w._front.toList ++ w._queue

/-- The wrapper after `front`. -/
def loaded : List Transaction → TransactionQueueWrapper
  | [] => { _queue := [] }
  | t :: queue => { _queue := queue, _front := some t }

theorem contents_loaded (queue : List Transaction) : (loaded queue).contents = queue := by
  cases queue <;> rfl

theorem front_of_contents {w : TransactionQueueWrapper} {t : Transaction} {queue : List Transaction}
    (h : w.contents = t :: queue) : w.front = some (t, loaded (t :: queue)) := by
  obtain ⟨_ | t', _ | ⟨u, us⟩⟩ := w
  · cases h
  · cases h
    rfl
  · cases h
    rfl
  · cases h
    rfl

end TransactionQueueWrapper

namespace WorkloadPhase

/-- What happens to the transactions that are not put into the workload, and the calls of
    `addBroadcastTransaction` and `addListenTransaction`. -/
structure Registered where
  aggregationQueue : List Transaction := []
  broadcast : List Transaction := []
  listen : List Transaction := []
deriving DecidableEq, Repr

structure State where
  queueWrapper : TransactionQueueWrapper
  registered : Registered := {}
  /-- How often the limits have been evaluated. -/
  evaluations : Nat := 0
deriving DecidableEq, Repr

/-- The beginning of the body of the loop: what it does to `transactionList`, and besides. -/
abbrev Take := Transaction → List Transaction × Registered → List Transaction × Registered

def AriaCoordinator.take : Take := fun transaction p => (p.1 ++ [transaction], p.2)

def AggregationCoordinator.take (isLocal : Tid → Bool) : Take := fun transaction p =>
  if isLocal transaction.tid then
    (p.1 ++ [transaction], { p.2 with broadcast := p.2.broadcast ++ [transaction] })
  else
    (p.1, { p.2 with
      listen := p.2.listen ++ [transaction]
      aggregationQueue := p.2.aggregationQueue ++ [transaction] })

/-- The loop of `createWorkload`, in which `transaction` is at the front of the queue. -/
def fill (views : Nat → CoordinatorView) (take : Take) (currentEpoch : Epoch) :
    Nat → Transaction → List Transaction → State → Option (List Transaction × State)
  | 0, _, _, _ => none
  | fuel + 1, transaction, transactionList, s =>
      let (transactionList, registered) := take transaction (transactionList, s.registered)
      s.queueWrapper.pop.bind fun (_, queueWrapper) =>
        queueWrapper.front.bind fun (transaction, queueWrapper) =>
          let view := views s.evaluations
          let left := queueWrapper.contents.length
          let aside := registered.aggregationQueue.length
          -- `empty` is only called if there is a minimum of transactions
          let (isEmpty, queueWrapper) :=
            if transactionList.length ≤ view.minTxPerWorkload left aside then (false, queueWrapper)
            else queueWrapper.empty (view.empty left aside)
          let s : State :=
            { queueWrapper := queueWrapper
              registered := registered
              evaluations := s.evaluations + 1 }
          if isEmpty = false ∧ transaction.epoch ≤ currentEpoch ∧
              transactionList.length < view.maxTxPerWorkload left aside then
            fill views take currentEpoch fuel transaction transactionList s
          else some (transactionList, s)

/-- The loop of `createAggregationWorkload` in its `i`-th turn, after `k` evaluations: the workload,
    what is left and the number of evaluations. -/
def fillAggregation (views : Nat → CoordinatorView) (left : Nat) :
    Nat → Nat → List Transaction → List Transaction × List Transaction × Nat
  | _, k, [] => ([], [], k + 1)
  | i, k, transaction :: aggregationQueue =>
      if i < (views k).maxTxPerWorkload left (aggregationQueue.length + 1) then
        let (transactionList, rest, k') :=
          fillAggregation views left (i + 1) (k + 1) aggregationQueue
        (transaction :: transactionList, rest, k')
      else ([], transaction :: aggregationQueue, k + 1)

def createAggregationWorkload (views : Nat → CoordinatorView) (s : State) :
    Option Workload × State :=
  let (transactionList, rest, k) := fillAggregation views s.queueWrapper.contents.length 0
    s.evaluations s.registered.aggregationQueue
  let s : State :=
    { s with
      registered := { s.registered with aggregationQueue := rest }
      evaluations := k }
  (transactionList.head?.map fun transaction =>
    { epoch := transaction.epoch, transactionList := transactionList, aggregationWorkload := true },
    s)

def AriaCoordinator.createWorkload (views : Nat → CoordinatorView) (currentEpoch : Epoch)
    (s : State) : Option (Option Workload × State) :=
  s.queueWrapper.front.bind fun (transaction, queueWrapper) =>
    let s := { s with queueWrapper := queueWrapper }
    if transaction.epoch > currentEpoch then some (none, s)
    else
      (fill views AriaCoordinator.take currentEpoch queueWrapper.contents.length transaction []
        s).map fun (transactionList, s) =>
          (some { epoch := transaction.epoch, transactionList := transactionList }, s)

def AggregationCoordinator.createWorkload (views : Nat → CoordinatorView) (isLocal : Tid → Bool)
    (currentEpoch : Epoch) (s : State) : Option (Option Workload × State) :=
  s.queueWrapper.front.bind fun (transaction, queueWrapper) =>
    let s := { s with queueWrapper := queueWrapper }
    if transaction.epoch > currentEpoch then some (createAggregationWorkload views s)
    else
      (fill views (AggregationCoordinator.take isLocal) currentEpoch queueWrapper.contents.length
        transaction [] s).map fun (transactionList, s) =>
          if transactionList.isEmpty then createAggregationWorkload views s
          else (some { epoch := transaction.epoch, transactionList := transactionList }, s)

def assignWorkloadPhase (createWorkload : State → Option (Option Workload × State)) :
    Nat → State → Option (List Workload × State)
  | 0, _ => none
  | fuel + 1, s =>
      (createWorkload s).bind fun
        | (none, s') => some ([], s')
        | (some workload, s') =>
            (assignWorkloadPhase createWorkload fuel s').map fun (workloads, s'') =>
              (workload :: workloads, s'')

/-! ## The loop -/

open TransactionQueueWrapper (loaded)

variable {views : Nat → CoordinatorView} {take : Take} {isLocal : Tid → Bool} {e : Epoch}
  {u : Transaction} {ts more : List Transaction}

/-- One turn. The wrapper is loaded when `empty` is called. -/
theorem fill_succ (views : Nat → CoordinatorView) (take : Take) (e : Epoch) (n : Nat)
    (t t' : Transaction) (transactionList queue : List Transaction) (r : Registered) (k : Nat) :
    fill views take e (n + 1) t transactionList
        { queueWrapper := loaded (t :: t' :: queue), registered := r, evaluations := k } =
      let p := take t (transactionList, r)
      let s : State :=
        { queueWrapper := loaded (t' :: queue), registered := p.2, evaluations := k + 1 }
      if t'.epoch ≤ e ∧ p.1.length < (views k).maxTxPerWorkload (queue.length + 1)
          p.2.aggregationQueue.length then
        fill views take e n t' p.1 s
      else some (p.1, s) := by
  by_cases hmin : (take t (transactionList, r)).1.length ≤ (views k).minTxPerWorkload
      (queue.length + 1) (take t (transactionList, r)).2.aggregationQueue.length <;>
    simp only [fill, loaded, TransactionQueueWrapper.pop, TransactionQueueWrapper.front,
      TransactionQueueWrapper.empty, TransactionQueueWrapper.contents, Option.bind_some,
      Option.toList_some, List.singleton_append, List.length_cons, hmin, if_true, if_false,
      true_and]

/-- The loop takes at least one transaction and stops before the next epoch. -/
theorem fill_eq (views : Nat → CoordinatorView) (take : Take) (hu : e < u.epoch)
    (more : List Transaction) (t : Transaction) (transactionList : List Transaction)
    (r : Registered) (k : Nat) {n : Nat} (hn : ts.length < n) :
    ∃ ts₁ ts₂ k', t :: ts = ts₁ ++ ts₂ ∧ ts₁ ≠ [] ∧
      fill views take e n t transactionList
          { queueWrapper := loaded (t :: (ts ++ u :: more)), registered := r, evaluations := k } =
        some ((ts₁.foldl (fun p t => take t p) (transactionList, r)).1,
          { queueWrapper := loaded (ts₂ ++ u :: more)
            registered := (ts₁.foldl (fun p t => take t p) (transactionList, r)).2
            evaluations := k' }) := by
  induction ts generalizing t transactionList r k n with
  | nil =>
      obtain ⟨n, rfl⟩ := Nat.exists_eq_succ_of_ne_zero (Nat.ne_of_gt hn)
      refine ⟨[t], [], k + 1, rfl, by simp, ?_⟩
      rw [List.nil_append, fill_succ]
      exact if_neg fun hc => absurd hc.1 (Nat.not_le.mpr hu)
  | cons t' ts ih =>
      obtain ⟨n, rfl⟩ := Nat.exists_eq_succ_of_ne_zero (Nat.ne_of_gt (Nat.zero_lt_of_lt hn))
      rw [List.cons_append, fill_succ]
      dsimp only
      split
      · obtain ⟨ts₁, ts₂, k', hsplit, -, hrest⟩ := ih t' (take t (transactionList, r)).1
          (take t (transactionList, r)).2 (k + 1) (Nat.lt_of_succ_lt_succ hn)
        exact ⟨t :: ts₁, ts₂, k', by rw [hsplit, List.cons_append], by simp, hrest⟩
      · exact ⟨[t], t' :: ts, k + 1, rfl, by simp, rfl⟩

theorem foldl_aria_take (ts transactionList : List Transaction) (r : Registered) :
    ts.foldl (fun p t => AriaCoordinator.take t p) (transactionList, r) =
      (transactionList ++ ts, r) := by
  induction ts generalizing transactionList with
  | nil => simp
  | cons t ts ih =>
      rw [List.foldl_cons, AriaCoordinator.take, ih, List.append_assoc]
      rfl

/-- The local ones are put into the workload and broadcast, the others put aside and listened to. -/
theorem foldl_aggregation_take (isLocal : Tid → Bool) (ts transactionList : List Transaction)
    (r : Registered) :
    ts.foldl (fun p t => AggregationCoordinator.take isLocal t p) (transactionList, r) =
      (transactionList ++ ts.filter (isLocal ·.tid),
        { aggregationQueue := r.aggregationQueue ++ ts.filter (!isLocal ·.tid)
          broadcast := r.broadcast ++ ts.filter (isLocal ·.tid)
          listen := r.listen ++ ts.filter (!isLocal ·.tid) }) := by
  induction ts generalizing transactionList r with
  | nil => simp
  | cons t ts ih =>
      rw [List.foldl_cons]
      cases hlocal : isLocal t.tid with
      | false =>
          have htake : AggregationCoordinator.take isLocal t (transactionList, r) =
              (transactionList, { r with
                listen := r.listen ++ [t]
                aggregationQueue := r.aggregationQueue ++ [t] }) := if_neg (by simp [hlocal])
          rw [htake, ih]
          simp [hlocal]
      | true =>
          have htake : AggregationCoordinator.take isLocal t (transactionList, r) =
              (transactionList ++ [t], { r with broadcast := r.broadcast ++ [t] }) := if_pos hlocal
          rw [htake, ih]
          simp [hlocal]

/-! ## One workload -/

theorem fillAggregation_append (views : Nat → CoordinatorView) (left i k : Nat)
    (q : List Transaction) :
    (fillAggregation views left i k q).1 ++ (fillAggregation views left i k q).2.1 = q := by
  induction q generalizing i k with
  | nil => rfl
  | cons t q ih =>
      unfold fillAggregation
      split
      · exact congrArg (t :: ·) (ih (i + 1) (k + 1))
      · rfl

theorem fillAggregation_ne_nil (hmax : ∀ k m n, 0 < (views k).maxTxPerWorkload m n) {left k : Nat}
    {q : List Transaction} (hq : q ≠ []) : (fillAggregation views left 0 k q).1 ≠ [] := by
  cases q with
  | nil => exact absurd rfl hq
  | cons t q =>
      unfold fillAggregation
      rw [if_pos (hmax _ _ _)]
      simp

/-- A workload of what has been put aside, unless nothing has. -/
theorem createAggregationWorkload_cases (hmax : ∀ k m n, 0 < (views k).maxTxPerWorkload m n)
    (s : State) :
    ∃ k, (s.registered.aggregationQueue = [] ∧
        createAggregationWorkload views s = (none, { s with evaluations := k })) ∨
      ∃ w rest, w.transactionList ≠ [] ∧ w.aggregationWorkload = true ∧
        s.registered.aggregationQueue = w.transactionList ++ rest ∧
        createAggregationWorkload views s = (some w,
          { s with
            registered := { s.registered with aggregationQueue := rest }
            evaluations := k }) := by
  have happend := fillAggregation_append views s.queueWrapper.contents.length 0 s.evaluations
    s.registered.aggregationQueue
  have hne : s.registered.aggregationQueue ≠ [] → (fillAggregation views
      s.queueWrapper.contents.length 0 s.evaluations s.registered.aggregationQueue).1 ≠ [] :=
    fillAggregation_ne_nil hmax
  unfold createAggregationWorkload
  generalize fillAggregation views s.queueWrapper.contents.length 0 s.evaluations
    s.registered.aggregationQueue = r at happend hne
  obtain ⟨_ | ⟨t, us⟩, rest, k⟩ := r
  · have hnil : s.registered.aggregationQueue = [] := by
      by_contra h
      exact hne h rfl
    refine ⟨k, Or.inl ⟨hnil, ?_⟩⟩
    obtain rfl : rest = s.registered.aggregationQueue := happend
    rfl
  · exact ⟨k, Or.inr ⟨_, rest, List.cons_ne_nil t us, rfl, happend.symm, rfl⟩⟩

/-- One workload has taken the transactions `ts₁` off the queue, and some of those put aside. `loc`
    are the ones for normal workloads, `bc` and `li` those which are registered. -/
structure Created (loc bc li : Transaction → Bool) (s s' : State) (ts₁ : List Transaction)
    (w : Workload) : Prop where
  nonempty : w.transactionList ≠ []
  normal : assigned false [w] = ts₁.filter loc
  aggregation : assigned true [w] ++ s'.registered.aggregationQueue =
    s.registered.aggregationQueue ++ ts₁.filter (!loc ·)
  broadcast : s'.registered.broadcast = s.registered.broadcast ++ ts₁.filter bc
  listen : s'.registered.listen = s.registered.listen ++ ts₁.filter li

/-- What `createWorkload` does when the queue has the transactions `ts` of the epoch, then `u` of a
    later one. -/
def Creates (loc bc li : Transaction → Bool) (e : Epoch)
    (createWorkload : State → Option (Option Workload × State)) : Prop :=
  ∀ (s : State) (ts : List Transaction) (u : Transaction) (more : List Transaction),
    s.queueWrapper.contents = ts ++ u :: more → (∀ t ∈ ts, t.epoch ≤ e) → e < u.epoch →
    (∀ t ∈ s.registered.aggregationQueue, loc t = false) →
    (ts = [] ∧ s.registered.aggregationQueue = [] ∧ ∃ s', createWorkload s = some (none, s') ∧
      s'.queueWrapper = loaded (u :: more) ∧ s'.registered = s.registered) ∨
    ∃ w ts₁ ts₂ s', ts = ts₁ ++ ts₂ ∧ createWorkload s = some (some w, s') ∧
      s'.queueWrapper = loaded (ts₂ ++ u :: more) ∧ Created loc bc li s s' ts₁ w

theorem aria_creates (views : Nat → CoordinatorView) (e : Epoch) :
    Creates (fun _ => true) (fun _ => false) (fun _ => false) e
      (AriaCoordinator.createWorkload views e) := by
  intro s ts u more hcontents he hu haside
  have hnil : s.registered.aggregationQueue = [] :=
    List.eq_nil_iff_forall_not_mem.mpr fun t ht => Bool.noConfusion (haside t ht)
  unfold AriaCoordinator.createWorkload
  cases ts with
  | nil =>
      left
      rw [TransactionQueueWrapper.front_of_contents hcontents]
      exact ⟨rfl, hnil, _, if_pos hu, rfl, rfl⟩
  | cons t ts =>
      right
      rw [List.cons_append] at hcontents
      have hfuel : ts.length < (t :: (ts ++ u :: more)).length := by
        rw [List.length_cons, List.length_append]
        omega
      obtain ⟨ts₁, ts₂, k, hsplit, hne, hfill⟩ :=
        fill_eq views AriaCoordinator.take hu more t [] s.registered s.evaluations hfuel
      rw [TransactionQueueWrapper.front_of_contents hcontents, Option.bind_some]
      dsimp only
      rw [if_neg (Nat.not_lt.mpr (he t List.mem_cons_self)),
        TransactionQueueWrapper.contents_loaded,
        hfill, foldl_aria_take, List.nil_append]
      refine ⟨_, ts₁, ts₂, _, hsplit, rfl, rfl, hne, ?_, ?_, ?_, ?_⟩
      · simp [assigned]
      · simp [assigned]
      · simp
      · simp

theorem aggregation_creates (isLocal : Tid → Bool)
    (hmax : ∀ k m n, 0 < (views k).maxTxPerWorkload m n) (e : Epoch) :
    Creates (isLocal ·.tid) (isLocal ·.tid) (!isLocal ·.tid) e
      (AggregationCoordinator.createWorkload views isLocal e) := by
  intro s ts u more hcontents he hu haside
  unfold AggregationCoordinator.createWorkload
  cases ts with
  | nil =>
      rw [TransactionQueueWrapper.front_of_contents hcontents, Option.bind_some]
      dsimp only
      rw [if_pos hu]
      obtain ⟨k, ⟨hnil, hnone⟩ | ⟨w, rest, hne, hkind, hq, hsome⟩⟩ :=
        createAggregationWorkload_cases hmax { s with queueWrapper := loaded (u :: more) }
      · left
        exact ⟨rfl, hnil, _, congrArg some hnone, rfl, rfl⟩
      · right
        refine ⟨w, [], [], _, rfl, congrArg some hsome, rfl, hne, ?_, ?_, ?_, ?_⟩
        · simp [assigned, hkind]
        · rw [show s.registered.aggregationQueue = _ from hq]
          simp [assigned, hkind]
        · simp
        · simp
  | cons t ts =>
      right
      rw [List.cons_append] at hcontents
      have hfuel : ts.length < (t :: (ts ++ u :: more)).length := by
        rw [List.length_cons, List.length_append]
        omega
      obtain ⟨ts₁, ts₂, k, hsplit, hne, hfill⟩ :=
        fill_eq views (AggregationCoordinator.take isLocal) hu more t [] s.registered
          s.evaluations hfuel
      rw [TransactionQueueWrapper.front_of_contents hcontents, Option.bind_some]
      dsimp only
      rw [if_neg (Nat.not_lt.mpr (he t List.mem_cons_self)),
        TransactionQueueWrapper.contents_loaded,
        hfill, foldl_aggregation_take, List.nil_append, Option.map_some]
      dsimp only
      by_cases hlocal : ts₁.filter (isLocal ·.tid) = []
      · -- nothing of the epoch is local any more: a workload of what has been put aside
        have hremote : ts₁.filter (!isLocal ·.tid) ≠ [] := by
          intro hnil
          have hlen := List.length_eq_length_filter_add (l := ts₁) (isLocal ·.tid)
          rw [hlocal, hnil] at hlen
          exact hne (List.eq_nil_of_length_eq_zero hlen)
        rw [hlocal, if_pos List.isEmpty_nil]
        obtain ⟨k', ⟨hnil, -⟩ | ⟨w, rest, hw, hkind, hq, hsome⟩⟩ :=
          createAggregationWorkload_cases hmax
            { queueWrapper := loaded (ts₂ ++ u :: more)
              registered :=
                { aggregationQueue := s.registered.aggregationQueue ++ ts₁.filter (!isLocal ·.tid)
                  broadcast := s.registered.broadcast ++ []
                  listen := s.registered.listen ++ ts₁.filter (!isLocal ·.tid) }
              evaluations := k }
        · exact absurd (List.append_eq_nil_iff.mp hnil).2 hremote
        · refine ⟨w, ts₁, ts₂, _, hsplit, congrArg some hsome, rfl, hw, ?_, ?_, ?_, rfl⟩
          · rw [hlocal]
            simp [assigned, hkind]
          · rw [show s.registered.aggregationQueue ++ _ = _ from hq]
            simp [assigned, hkind]
          · rw [hlocal]
      · rw [if_neg (by rwa [List.isEmpty_iff])]
        refine ⟨_, ts₁, ts₂, _, hsplit, rfl, rfl, hlocal, ?_, ?_, rfl, rfl⟩
        · simp [assigned]
        · simp [assigned]

/-! ## The phase -/

/-- Every transaction of the epoch gets into one workload, and the phase ends. -/
theorem assignWorkloadPhase_of_creates {loc bc li : Transaction → Bool}
    {createWorkload : State → Option (Option Workload × State)}
    (hcreates : Creates loc bc li e createWorkload) (s : State)
    (hcontents : s.queueWrapper.contents = ts ++ u :: more) (he : ∀ t ∈ ts, t.epoch ≤ e)
    (hu : e < u.epoch) (haside : ∀ t ∈ s.registered.aggregationQueue, loc t = false) :
    ∃ ws s', (∀ fuel, ts.length + s.registered.aggregationQueue.length < fuel →
        assignWorkloadPhase createWorkload fuel s = some (ws, s')) ∧
      s'.queueWrapper = loaded (u :: more) ∧ s'.registered.aggregationQueue = [] ∧
      (∀ w ∈ ws, w.transactionList ≠ []) ∧ assigned false ws = ts.filter loc ∧
      assigned true ws = s.registered.aggregationQueue ++ ts.filter (!loc ·) ∧
      s'.registered.broadcast = s.registered.broadcast ++ ts.filter bc ∧
      s'.registered.listen = s.registered.listen ++ ts.filter li := by
  induction hn : ts.length + s.registered.aggregationQueue.length using Nat.strongRecOn
    generalizing ts s with
  | ind n ih =>
      rcases hcreates s ts u more hcontents he hu haside with
        ⟨rfl, hnil, s', hnone, hqueue, hregistered⟩ | ⟨w, ts₁, ts₂, s', rfl, hsome, hqueue, hw⟩
      · refine ⟨[], s', fun fuel hfuel => ?_, hqueue, ?_, by nofun, rfl, ?_, ?_, ?_⟩
        · obtain ⟨fuel, rfl⟩ :=
            Nat.exists_eq_succ_of_ne_zero (Nat.ne_of_gt (Nat.zero_lt_of_lt hfuel))
          simp only [assignWorkloadPhase, hnone, Option.bind_some]
        · rw [hregistered, hnil]
        · rw [hnil]
          rfl
        · rw [hregistered]
          simp
        · rw [hregistered]
          simp
      · have hlen : ts₂.length + s'.registered.aggregationQueue.length < n := by
          have h₁ := congrArg List.length hw.normal
          have h₂ := congrArg List.length hw.aggregation
          have h₃ := length_assigned_singleton w
          have h₄ := List.length_pos_of_ne_nil hw.nonempty
          have h₅ := List.length_eq_length_filter_add (l := ts₁) loc
          simp only [List.length_append] at h₂ hn
          omega
        have haside' : ∀ t ∈ s'.registered.aggregationQueue, loc t = false := by
          intro t ht
          have hmem : t ∈ s.registered.aggregationQueue ++ ts₁.filter (!loc ·) :=
            hw.aggregation ▸ List.mem_append_right _ ht
          rcases List.mem_append.mp hmem with hmem | hmem
          · exact haside t hmem
          · simpa using (List.mem_filter.mp hmem).2
        obtain ⟨ws, s'', hphase, hqueue', hnil, hne, hf, ht, hb, hl⟩ := ih _ hlen s'
          (hqueue ▸ TransactionQueueWrapper.contents_loaded _)
          (fun t ht => he t (List.mem_append_right _ ht)) haside' rfl
        refine ⟨w :: ws, s'', fun fuel hfuel => ?_, hqueue', hnil,
          List.forall_mem_cons.mpr ⟨hw.nonempty, hne⟩, ?_, ?_, ?_, ?_⟩
        · obtain ⟨fuel, rfl⟩ :=
            Nat.exists_eq_succ_of_ne_zero (Nat.ne_of_gt (Nat.zero_lt_of_lt hfuel))
          simp only [assignWorkloadPhase, hsome, Option.bind_some]
          rw [hphase fuel (by omega)]
          rfl
        · rw [assigned_cons, hf, hw.normal, List.filter_append]
        · rw [assigned_cons, ht, ← List.append_assoc, hw.aggregation, List.append_assoc,
            List.filter_append]
        · rw [hb, hw.broadcast, List.append_assoc, List.filter_append]
        · rw [hl, hw.listen, List.append_assoc, List.filter_append]

/-- The transactions of the epoch come first. -/
theorem split_epoch {content : List Transaction}
    (hsorted : content.Pairwise fun t t' => t.epoch ≤ t'.epoch) (hge : ∀ t ∈ content, e ≤ t.epoch)
    (hlater : ∃ t ∈ content, e < t.epoch) :
    ∃ u more, content = content.filter (·.epoch = e) ++ u :: more ∧ e < u.epoch ∧
      content.find? (e < ·.epoch) = some u := by
  induction content with
  | nil =>
      obtain ⟨t, ht, -⟩ := hlater
      cases ht
  | cons t content ih =>
      obtain ⟨hfirst, hsorted⟩ := List.pairwise_cons.mp hsorted
      by_cases heq : t.epoch = e
      · obtain ⟨t', ht', hlt⟩ := hlater
        have hmem : t' ∈ content := by
          rcases List.mem_cons.mp ht' with rfl | hmem
          · exact absurd heq (Nat.ne_of_gt hlt)
          · exact hmem
        obtain ⟨u, more, hsplit, hu, hfind⟩ :=
          ih hsorted (fun t ht => hge t (List.mem_cons_of_mem _ ht)) ⟨t', hmem, hlt⟩
        refine ⟨u, more, ?_, hu, ?_⟩
        · rw [List.filter_cons_of_pos (by simpa using heq), List.cons_append, ← hsplit]
        · rw [List.find?_cons_of_neg (by simp [heq]), hfind]
      · have hlt : e < t.epoch := Nat.lt_of_le_of_ne (hge t List.mem_cons_self) (Ne.symm heq)
        have hnone : (t :: content).filter (·.epoch = e) = [] := by
          refine List.filter_eq_nil_iff.mpr fun t' ht' => ?_
          rcases List.mem_cons.mp ht' with rfl | ht'
          · simpa using heq
          · simpa using Nat.ne_of_gt (Nat.lt_of_lt_of_le hlt (hfirst t' ht'))
        refine ⟨t, content, ?_, hlt, List.find?_cons_of_pos (by simpa using hlt)⟩
        rw [hnone, List.nil_append]

/-- If there are no aggregation workloads, the others are all of them. -/
theorem flatMap_eq_assigned {ws : List Workload} (hne : ∀ w ∈ ws, w.transactionList ≠ [])
    (hnil : assigned true ws = []) : ws.flatMap Workload.transactionList = assigned false ws := by
  have hkind : ∀ w ∈ ws, w.aggregationWorkload = false := by
    intro w hw
    by_contra hkind
    have hmem : w ∈ ws.filter fun w => w.aggregationWorkload = true := by
      simpa using ⟨hw, eq_true_of_ne_false hkind⟩
    exact hne w hw (List.flatMap_eq_nil_iff.mp hnil w hmem)
  unfold assigned
  rw [List.filter_eq_self.mpr fun w hw => decide_eq_true (hkind w hw)]

/-- Whatever the limits are and however they change, the phase ends. The workloads are not empty and
    hold the transactions of the epoch in the order of the queue, those of other servers in
    aggregation workloads; each is registered once, and what is left begins with the first
    transaction of a later epoch. -/
theorem workloads_partition_epoch (isLocal : Tid → Bool)
    (hmax : ∀ k m n, 1 ≤ (views k).maxTxPerWorkload m n) (s : State)
    (hsorted : s.queueWrapper.contents.Pairwise fun t t' => t.epoch ≤ t'.epoch)
    (hge : ∀ t ∈ s.queueWrapper.contents, e ≤ t.epoch)
    (hlater : ∃ t ∈ s.queueWrapper.contents, e < t.epoch)
    (haside : s.registered.aggregationQueue = []) :
    (∃ ws s', (∀ fuel, s.queueWrapper.contents.length ≤ fuel →
          assignWorkloadPhase (AriaCoordinator.createWorkload views e) fuel s = some (ws, s')) ∧
        (∀ w ∈ ws, w.transactionList ≠ []) ∧
        ws.flatMap Workload.transactionList = s.queueWrapper.contents.filter (·.epoch = e) ∧
        s'.queueWrapper.contents.head? = s.queueWrapper.contents.find? (e < ·.epoch)) ∧
      ∃ ws s', (∀ fuel, s.queueWrapper.contents.length ≤ fuel →
          assignWorkloadPhase (AggregationCoordinator.createWorkload views isLocal e) fuel s =
            some (ws, s')) ∧
        (∀ w ∈ ws, w.transactionList ≠ []) ∧
        assigned false ws =
          (s.queueWrapper.contents.filter (·.epoch = e)).filter (isLocal ·.tid) ∧
        assigned true ws =
          (s.queueWrapper.contents.filter (·.epoch = e)).filter (!isLocal ·.tid) ∧
        s'.registered.broadcast = s.registered.broadcast ++
          (s.queueWrapper.contents.filter (·.epoch = e)).filter (isLocal ·.tid) ∧
        s'.registered.listen = s.registered.listen ++
          (s.queueWrapper.contents.filter (·.epoch = e)).filter (!isLocal ·.tid) ∧
        s'.registered.aggregationQueue = [] ∧
        s'.queueWrapper.contents.head? = s.queueWrapper.contents.find? (e < ·.epoch) := by
  obtain ⟨u, more, hsplit, hu, hfind⟩ := split_epoch hsorted hge hlater
  have he : ∀ t ∈ s.queueWrapper.contents.filter (·.epoch = e), t.epoch ≤ e := fun t ht =>
    Nat.le_of_eq (of_decide_eq_true (List.mem_filter.mp ht).2)
  have hnone : ∀ (loc : Transaction → Bool),
      ∀ t ∈ s.registered.aggregationQueue, loc t = false := by
    rw [haside]
    nofun
  have hfuel : ∀ fuel, s.queueWrapper.contents.length ≤ fuel →
      (s.queueWrapper.contents.filter (·.epoch = e)).length +
        s.registered.aggregationQueue.length < fuel := by
    intro fuel hle
    have hlen := congrArg List.length hsplit
    rw [List.length_append, List.length_cons] at hlen
    rw [haside, List.length_nil]
    omega
  constructor
  · obtain ⟨ws, s', hphase, hqueue, -, hne, hf, ht, -, -⟩ := assignWorkloadPhase_of_creates
      (aria_creates views e) s hsplit he hu (hnone _)
    refine ⟨ws, s', fun fuel hle => hphase fuel (hfuel fuel hle), hne, ?_, ?_⟩
    · rw [flatMap_eq_assigned hne (by rw [ht, haside]; simp), hf, List.filter_true]
    · rw [hqueue, TransactionQueueWrapper.contents_loaded, hfind, List.head?_cons]
  · obtain ⟨ws, s', hphase, hqueue, hnil, hne, hf, ht, hb, hl⟩ := assignWorkloadPhase_of_creates
      (aggregation_creates isLocal hmax e) s hsplit he hu (hnone _)
    refine ⟨ws, s', fun fuel hle => hphase fuel (hfuel fuel hle), hne, hf, ?_, hb, hl, hnil, ?_⟩
    · rw [ht, haside, List.nil_append]
    · rw [hqueue, TransactionQueueWrapper.contents_loaded, hfind, List.head?_cons]

/-- The maximum goes up and down; the producer is always late. -/
def changingViews (k : Nat) : CoordinatorView where
  minTxPerWorkload _ _ := 0
  maxTxPerWorkload _ _ := 1 + k % 2
  empty _ _ := true

/-- Four transactions of epoch 5 and one of epoch 6. -/
def fiveTransactions : State where
  queueWrapper :=
    { _queue := [{ tid := 2, epoch := 5 }, { tid := 3, epoch := 5 }, { tid := 4, epoch := 5 },
        { tid := 5, epoch := 6 }]
      _front := some { tid := 1, epoch := 5 } }

theorem workloads_partition_five :
    (∃ ws s', assignWorkloadPhase (AriaCoordinator.createWorkload changingViews 5) 5
        fiveTransactions = some (ws, s') ∧
      ws.flatMap Workload.transactionList =
        fiveTransactions.queueWrapper.contents.filter (·.epoch = 5)) ∧
      ∃ ws s', assignWorkloadPhase
          (AggregationCoordinator.createWorkload changingViews (· % 2 = 1) 5) 5 fiveTransactions =
          some (ws, s') ∧ s'.registered.listen.map (·.tid) = [2, 4] ∧
        s'.queueWrapper.contents.head? = some { tid := 5, epoch := 6 } := by
  obtain ⟨⟨ws, s', haria, -, hall, -⟩, ws', s'', hphase, -, -, -, -, hl, -, hhead⟩ :=
    workloads_partition_epoch (e := 5) (· % 2 = 1)
      (show ∀ k m n, 1 ≤ (changingViews k).maxTxPerWorkload m n from
        fun _ _ _ => Nat.le_add_right 1 _)
      fiveTransactions (by decide) (by decide) (by decide) rfl
  refine ⟨⟨ws, s', haria 5 (by decide), hall⟩, ws', s'', hphase 5 (by decide), ?_, ?_⟩
  · rw [hl]
    decide
  · rw [hhead]
    decide

end WorkloadPhase

end NeuChain.Server
