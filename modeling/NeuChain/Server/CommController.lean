/-
  `CommController`: how the transactions that the proxies hand on get to the transaction manager.

  `getTransaction` takes transactions of the epoch asked for off `processedTransaction`, which
  `transferTransaction` fills from `broadcastTransactions`. The latter waits for one transaction and
  then takes what is there: `arrivals k` more in its `k`-th call, whatever that number is. The loop
  of `TransactionManagerImpl::run` calls `getTransaction` until it gets a null pointer, then goes on
  to the next epoch.

  `broadcastTransactions` has the transactions in the order in which they are pushed, those included
  which have not been pushed yet.

  * `fetching_preserves_stream`: what the calls return is the stream, in pieces.
  * `delivered_from_start`: the proxies hand on no transaction of an epoch before the first.
-/
import NeuChain.Server.Pushes
import NeuChain.Server.TransactionManager

namespace NeuChain.Server

open NeuChain Lib

/-- Why a call does not return. -/
inductive CommStop where
  /-- `broadcastTransactions.pop` waits for ever. -/
  | waiting
  /-- The `CHECK` of `transferTransaction`. -/
  | checkFailed
  /-- `front` of an empty queue. -/
  | noFront
deriving DecidableEq, Repr

structure CommController (τ : Type) where
  broadcastTransactions : List τ
  processedTransaction : List τ := []
  /-- What has been enqueued, in this order; `clearTransactionForEpoch` takes it out again. -/
  addingTxQueue : List τ := []
  /-- The static variable of `transferTransaction`. -/
  currentEpoch : Epoch := 0
  /-- The calls of `transferTransaction`. -/
  transfers : Nat := 0
deriving DecidableEq, Repr

namespace CommController

variable {τ : Type}

/-- What has not been returned. -/
def rest (c : CommController τ) : List τ := c.processedTransaction ++ c.broadcastTransactions

/-- Check and push a transaction that has been popped. -/
def pushProcessed (getEpoch : τ → Epoch) (c : CommController τ) (transaction : τ) :
    Except CommStop (CommController τ) :=
  match ProxyState.transferOne getEpoch c.currentEpoch transaction with
  | some currentEpoch =>
      .ok { c with
        currentEpoch := currentEpoch
        processedTransaction := c.processedTransaction ++ [transaction] }
  | none => .error .checkFailed

/-- The loop over `try_pop`, which is successful this many times at most. -/
def tryPop (getEpoch : τ → Epoch) : Nat → CommController τ → Except CommStop (CommController τ)
  | 0, c => .ok c
  | n + 1, c =>
      match c.broadcastTransactions with
      | [] => .ok c
      | transaction :: broadcastTransactions =>
          ({ c with broadcastTransactions := broadcastTransactions }.pushProcessed getEpoch
            transaction).bind (tryPop getEpoch n)

def transferTransaction (getEpoch : τ → Epoch) (arrivals : Nat → Nat) (c : CommController τ) :
    Except CommStop (CommController τ) :=
  let arrived := arrivals c.transfers
  let c := { c with transfers := c.transfers + 1 }
  if c.processedTransaction.isEmpty then
    match c.broadcastTransactions with
    | [] => .error .waiting
    | transaction :: broadcastTransactions =>
        ({ c with broadcastTransactions := broadcastTransactions }.pushProcessed getEpoch
          transaction).bind (tryPop getEpoch arrived)
  else tryPop getEpoch arrived c

/-- The loop of `getTransaction`, when there is room for `n` more. -/
def fill (getEpoch : τ → Epoch) (arrivals : Nat → Nat) (epoch : Epoch) (minSize : Nat) :
    Nat → List τ → CommController τ → Except CommStop (List τ × CommController τ)
  | 0, trWrapper, c => .ok (trWrapper, c)
  | n + 1, trWrapper, c =>
      match c.processedTransaction with
      | [] => .error .noFront
      | transaction :: processedTransaction =>
          if getEpoch transaction ≠ epoch then .ok (trWrapper, c)
          else
            let trWrapper := trWrapper ++ [transaction]
            let c := { c with
              processedTransaction := processedTransaction
              addingTxQueue := c.addingTxQueue ++ [transaction] }
            if processedTransaction.isEmpty then
              if trWrapper.length > minSize then .ok (trWrapper, c)
              else (c.transferTransaction getEpoch arrivals).bind
                (fill getEpoch arrivals epoch minSize n trWrapper)
            else fill getEpoch arrivals epoch minSize n trWrapper c

/-- `none` is the null pointer. -/
def getTransaction (getEpoch : τ → Epoch) (arrivals : Nat → Nat) (epoch : Epoch)
    (maxSize minSize : Nat) (c : CommController τ) :
    Except CommStop (Option (List τ) × CommController τ) :=
  (if c.processedTransaction.isEmpty then c.transferTransaction getEpoch arrivals
    else .ok c).bind fun c =>
      match c.processedTransaction with
      | [] => .error .noFront
      | transaction :: _ =>
          if getEpoch transaction ≠ epoch then .ok (none, c)
          else (fill getEpoch arrivals epoch minSize maxSize [] c).map fun r => (some r.1, r.2)

/-! ## One call -/

variable {getEpoch : τ → Epoch} {arrivals : Nat → Nat} {c c' : CommController τ} {e : Epoch}
  {minSize maxSize : Nat}

/-- The epochs do not decrease, and the static variable is not ahead of what is to come. -/
structure Fed (getEpoch : τ → Epoch) (c : CommController τ) : Prop where
  sorted : c.rest.Pairwise fun t u => getEpoch t ≤ getEpoch u
  current : ∀ t ∈ c.broadcastTransactions, c.currentEpoch ≤ getEpoch t

/-- Transactions are moved from one queue to the other. -/
structure Moved (getEpoch : τ → Epoch) (c c' : CommController τ) : Prop where
  fed : Fed getEpoch c'
  rest : c'.rest = c.rest
  addingTxQueue : c'.addingTxQueue = c.addingTxQueue
  processed : c.processedTransaction <+: c'.processedTransaction

theorem Moved.trans {c'' : CommController τ} (h : Moved getEpoch c c')
    (h' : Moved getEpoch c' c'') : Moved getEpoch c c'' :=
  ⟨h'.fed, h'.rest.trans h.rest, h'.addingTxQueue.trans h.addingTxQueue,
    h.processed.trans h'.processed⟩

/-- The `CHECK` holds for the next transaction. -/
theorem pushProcessed_eq {t : τ} {ts : List τ} (h : Fed getEpoch c)
    (hb : c.broadcastTransactions = t :: ts) :
    ∃ c', { c with broadcastTransactions := ts }.pushProcessed getEpoch t = .ok c' ∧
      Moved getEpoch c c' ∧ t ∈ c'.processedTransaction := by
  have hle : c.currentEpoch ≤ getEpoch t := h.current t (hb ▸ List.mem_cons_self)
  have hrest : c.rest = c.processedTransaction ++ [t] ++ ts := by
    rw [rest, hb, List.append_assoc]
    rfl
  have hsorted := h.sorted
  rw [hrest] at hsorted
  unfold pushProcessed
  dsimp only
  rw [ProxyState.transferOne_eq hle]
  refine ⟨_, rfl, ⟨⟨hsorted, fun u hu => ?_⟩, hrest.symm, rfl, List.prefix_append _ _⟩, by simp⟩
  exact (List.pairwise_append.mp hsorted).2.2 t (by simp) u hu

theorem tryPop_moved (n : Nat) (h : Fed getEpoch c) :
    ∃ c', tryPop getEpoch n c = .ok c' ∧ Moved getEpoch c c' := by
  induction n generalizing c with
  | zero => exact ⟨c, rfl, h, rfl, rfl, List.prefix_refl _⟩
  | succ n ih =>
      unfold tryPop
      split
      · exact ⟨c, rfl, h, rfl, rfl, List.prefix_refl _⟩
      · rename_i t ts hb
        obtain ⟨c₁, hpush, hmoved, -⟩ := pushProcessed_eq h hb
        obtain ⟨c₂, hpop, hmoved'⟩ := ih hmoved.fed
        rw [hpush]
        exact ⟨c₂, hpop, hmoved.trans hmoved'⟩

/-- It waits only if there is nothing left. -/
theorem transferTransaction_cases (arrivals : Nat → Nat) (h : Fed getEpoch c)
    (hempty : c.processedTransaction = []) :
    (c.rest = [] ∧ c.transferTransaction getEpoch arrivals = .error .waiting) ∨
    ∃ c', c.transferTransaction getEpoch arrivals = .ok c' ∧ Moved getEpoch c c' ∧
      c'.processedTransaction ≠ [] := by
  have hfed : Fed getEpoch { c with transfers := c.transfers + 1 } := ⟨h.sorted, h.current⟩
  unfold transferTransaction
  dsimp only
  rw [if_pos (by rw [hempty]; rfl)]
  cases hb : c.broadcastTransactions with
  | nil =>
      left
      exact ⟨by rw [rest, hempty, hb]; rfl, rfl⟩
  | cons t ts =>
      right
      obtain ⟨c₁, hpush, hmoved, ht⟩ := pushProcessed_eq hfed hb
      obtain ⟨c₂, hpop, hmoved'⟩ := tryPop_moved (arrivals c.transfers) hmoved.fed
      dsimp only at hpush ⊢
      rw [hpush]
      refine ⟨c₂, hpop, ⟨hmoved'.fed, hmoved'.rest.trans hmoved.rest,
        hmoved'.addingTxQueue.trans hmoved.addingTxQueue, hmoved.processed.trans hmoved'.processed⟩,
        List.ne_nil_of_mem (hmoved'.processed.subset ht)⟩

/-- The transactions `l` of epoch `e` have left the queues. -/
structure Taken (getEpoch : τ → Epoch) (e : Epoch) (l : List τ) (c c' : CommController τ) :
    Prop where
  fed : Fed getEpoch c'
  rest : c.rest = l ++ c'.rest
  addingTxQueue : c'.addingTxQueue = c.addingTxQueue ++ l
  epoch : ∀ t ∈ l, getEpoch t = e

theorem Fed.stay (h : Fed getEpoch c) : Taken getEpoch e [] c c :=
  ⟨h, rfl, (List.append_nil _).symm, by nofun⟩

theorem Moved.taken (h : Moved getEpoch c c') : Taken getEpoch e [] c c' :=
  ⟨h.fed, h.rest.symm, by rw [h.addingTxQueue, List.append_nil], by nofun⟩

theorem Taken.trans {c'' : CommController τ} {l l' : List τ} (h : Taken getEpoch e l c c')
    (h' : Taken getEpoch e l' c' c'') : Taken getEpoch e (l ++ l') c c'' where
  fed := h'.fed
  rest := by rw [h.rest, h'.rest, List.append_assoc]
  addingTxQueue := by rw [h'.addingTxQueue, h.addingTxQueue, List.append_assoc]
  epoch t ht := (List.mem_append.mp ht).elim (h.epoch t) (h'.epoch t)

/-- One turn of the loop. -/
theorem taken_front {t : τ} {ts : List τ} (h : Fed getEpoch c)
    (hp : c.processedTransaction = t :: ts) (hepoch : getEpoch t = e) :
    Taken getEpoch e [t] c
      { c with processedTransaction := ts, addingTxQueue := c.addingTxQueue ++ [t] } := by
  have hrest : c.rest = [t] ++ (ts ++ c.broadcastTransactions) := by
    rw [rest, hp]
    rfl
  refine ⟨⟨?_, h.current⟩, hrest, rfl, fun u hu => List.mem_singleton.mp hu ▸ hepoch⟩
  have hsorted := h.sorted
  rw [hrest] at hsorted
  exact (List.pairwise_append.mp hsorted).2.1

/-- What the loop comes to. It takes transactions of the epoch, if there is one at the front and
    room for `n`. It waits only if these are all and do not get it over the minimum. -/
def Filled (getEpoch : τ → Epoch) (e : Epoch) (minSize n : Nat) (trWrapper : List τ)
    (c : CommController τ) (r : Except CommStop (List τ × CommController τ)) : Prop :=
  (∃ l c', r = .ok (trWrapper ++ l, c') ∧ Taken getEpoch e l c c' ∧ l.length ≤ n ∧
    (0 < n → (∀ t ∈ c.processedTransaction.head?, getEpoch t = e) → l ≠ [])) ∨
  (r = .error .waiting ∧ (∀ t ∈ c.rest, getEpoch t = e) ∧
    trWrapper.length + c.rest.length ≤ minSize)

/-- After a turn that has taken `t`. -/
theorem Filled.cons {t : τ} {n : Nat} {trWrapper : List τ}
    {r : Except CommStop (List τ × CommController τ)} (ht : Taken getEpoch e [t] c c')
    (h : Filled getEpoch e minSize n (trWrapper ++ [t]) c' r) :
    Filled getEpoch e minSize (n + 1) trWrapper c r := by
  rcases h with ⟨l, c'', hr, hl, hlen, -⟩ | ⟨hr, hepoch, hlen⟩
  · left
    refine ⟨[t] ++ l, c'', ?_, ht.trans hl, ?_, fun _ _ => List.cons_ne_nil t l⟩
    · rw [hr, List.append_assoc]
    · rw [List.length_append, List.length_singleton]
      omega
  · right
    refine ⟨hr, fun u hu => ?_, ?_⟩
    · rw [ht.rest] at hu
      exact (List.mem_append.mp hu).elim (ht.epoch u) (hepoch u)
    · rw [ht.rest, List.length_append]
      rw [List.length_append] at hlen
      omega

theorem fill_filled (arrivals : Nat → Nat) (minSize n : Nat) (trWrapper : List τ)
    (h : Fed getEpoch c) (hne : c.processedTransaction ≠ []) :
    Filled getEpoch e minSize n trWrapper c
      (fill getEpoch arrivals e minSize n trWrapper c) := by
  induction n generalizing trWrapper c with
  | zero =>
      left
      exact ⟨[], c, by rw [List.append_nil]; rfl, h.stay, Nat.le_refl 0, by nofun⟩
  | succ n ih =>
      cases hp : c.processedTransaction with
      | nil => exact absurd hp hne
      | cons t ts =>
          unfold fill
          rw [hp]
          dsimp only
          by_cases hepoch : getEpoch t = e
          · have htaken := taken_front h hp hepoch
            rw [if_neg (not_not.mpr hepoch)]
            cases ts with
            | cons u us => exact (ih (trWrapper ++ [t]) htaken.fed (by simp)).cons htaken
            | nil =>
                rw [if_pos List.isEmpty_nil]
                split
                · left
                  exact ⟨[t], _, rfl, htaken, by simp, by simp⟩
                · rename_i hmin
                  rcases transferTransaction_cases arrivals htaken.fed rfl with
                    ⟨hnil, hwait⟩ | ⟨c₂, htransfer, hmoved, hne₂⟩
                  · right
                    rw [hwait]
                    have hrest : c.rest = [t] := by rw [htaken.rest, hnil, List.append_nil]
                    rw [List.length_append, List.length_singleton] at hmin
                    refine ⟨rfl, fun u hu => htaken.epoch u (hrest ▸ hu), ?_⟩
                    rw [hrest, List.length_singleton]
                    omega
                  · rw [htransfer]
                    exact (ih (trWrapper ++ [t]) hmoved.fed hne₂).cons
                      (htaken.trans hmoved.taken)
          · left
            rw [if_pos hepoch]
            exact ⟨[], c, by rw [List.append_nil], h.stay, Nat.zero_le _,
              fun _ hall => absurd (hall t (by rw [hp]; rfl)) hepoch⟩

/-- A call returns transactions of the epoch if there is one at the head, and a null pointer if
    there is one of another epoch. It waits only if the stream ends within the minimum. -/
theorem getTransaction_cases (arrivals : Nat → Nat) (e : Epoch) (minSize : Nat) (hmax : 0 < maxSize)
    (h : Fed getEpoch c) :
    (∃ l c', c.getTransaction getEpoch arrivals e maxSize minSize = .ok (some l, c') ∧
      Taken getEpoch e l c c' ∧ l.length ≤ maxSize ∧ l ≠ []) ∨
    (∃ t c', c.getTransaction getEpoch arrivals e maxSize minSize = .ok (none, c') ∧
      Taken getEpoch e [] c c' ∧ c.rest.head? = some t ∧ getEpoch t ≠ e) ∨
    (c.getTransaction getEpoch arrivals e maxSize minSize = .error .waiting ∧
      (∀ t ∈ c.rest, getEpoch t = e) ∧ c.rest.length ≤ minSize) := by
  have hloaded : (c.rest = [] ∧ (if c.processedTransaction.isEmpty then
        c.transferTransaction getEpoch arrivals else .ok c) = .error .waiting) ∨
      ∃ c', (if c.processedTransaction.isEmpty then
        c.transferTransaction getEpoch arrivals else .ok c) = .ok c' ∧ Moved getEpoch c c' ∧
        c'.processedTransaction ≠ [] := by
    by_cases hempty : c.processedTransaction = []
    · rw [if_pos (by rw [hempty]; rfl)]
      exact transferTransaction_cases arrivals h hempty
    · rw [if_neg (by rwa [List.isEmpty_iff])]
      exact Or.inr ⟨c, rfl, ⟨h, rfl, rfl, List.prefix_refl _⟩, hempty⟩
  unfold getTransaction
  rcases hloaded with ⟨hnil, hwait⟩ | ⟨c₁, hload, hmoved, hne⟩
  · right
    right
    rw [hwait, hnil]
    exact ⟨rfl, by nofun, Nat.zero_le _⟩
  · rw [hload]
    show _ ∨ _ ∨ _
    obtain ⟨t, ts, hp⟩ := List.exists_cons_of_ne_nil hne
    have hhead : c.rest.head? = some t := by
      rw [← hmoved.rest, rest, hp]
      rfl
    dsimp only [Except.bind]
    rw [hp]
    dsimp only
    by_cases hepoch : getEpoch t = e
    · rw [if_neg (not_not.mpr hepoch)]
      rcases fill_filled arrivals minSize maxSize [] hmoved.fed hne with
        ⟨l, c', hfill, htaken, hlen, hl⟩ | ⟨hfill, hall, hlen⟩
      · left
        rw [hfill]
        refine ⟨l, c', rfl, hmoved.taken.trans htaken, hlen, hl hmax fun u hu => ?_⟩
        rw [hp] at hu
        cases hu
        exact hepoch
      · right
        right
        rw [hfill]
        rw [hmoved.rest] at hall hlen
        exact ⟨rfl, hall, by simpa using hlen⟩
    · right
      left
      rw [if_pos hepoch]
      exact ⟨t, c₁, rfl, hmoved.taken, hhead, hepoch⟩

end CommController

/-! ## The calls of the transaction manager -/

/-- The loop of `TransactionManagerImpl::run`, and what `getTransaction` has returned for which
    epoch. -/
structure FetchLoop (τ : Type) where
  comm : CommController τ
  currentEpoch : Epoch
  calls : List (Epoch × Option (List τ)) := []
deriving DecidableEq, Repr

namespace FetchLoop

open CommController (Fed Taken)

variable {τ : Type}

def call (getEpoch : τ → Epoch) (arrivals : Nat → Nat) (maxSize minSize : Nat) (s : FetchLoop τ) :
    Except CommStop (FetchLoop τ) :=
  (s.comm.getTransaction getEpoch arrivals s.currentEpoch maxSize minSize).map fun r =>
    { comm := r.2
      currentEpoch := if r.1.isNone then s.currentEpoch + 1 else s.currentEpoch
      calls := s.calls ++ [(s.currentEpoch, r.1)] }

/-- The first `n` calls. -/
def fetch (getEpoch : τ → Epoch) (arrivals : Nat → Nat) (maxSize minSize : Nat) :
    Nat → FetchLoop τ → Except CommStop (FetchLoop τ)
  | 0, s => .ok s
  | n + 1, s =>
      (fetch getEpoch arrivals maxSize minSize n s).bind (call getEpoch arrivals maxSize minSize)

def start (stream : List τ) (startupEpoch : Epoch) : FetchLoop τ where
  comm := { broadcastTransactions := stream }
  currentEpoch := startupEpoch

/-- What these calls have returned, one after the other. -/
def returned (calls : List (Epoch × Option (List τ))) : List τ :=
  calls.flatMap fun call => call.2.getD []

variable {getEpoch : τ → Epoch} {arrivals : Nat → Nat} {maxSize minSize startupEpoch n : Nat}
  {stream : List τ} {s s' : FetchLoop τ}

/-- What a call is for, when `left` has not been returned before. -/
structure CallSpec (getEpoch : τ → Epoch) (maxSize : Nat) (fromStart : Prop) (left : List τ)
    (call : Epoch × Option (List τ)) : Prop where
  list : ∀ trWrapper, call.2 = some trWrapper → trWrapper ≠ [] ∧ trWrapper.length ≤ maxSize ∧
    ∀ t ∈ trWrapper, getEpoch t = call.1
  null : call.2 = none ↔ ∃ t, left.head? = some t ∧ getEpoch t ≠ call.1
  finished : fromStart → (call.2 = none ↔
    (∀ t ∈ left, getEpoch t ≠ call.1) ∧ ∃ t, left.head? = some t ∧ call.1 < getEpoch t)

structure Inv (getEpoch : τ → Epoch) (maxSize : Nat) (startupEpoch : Epoch) (stream : List τ)
    (s : FetchLoop τ) : Prop where
  fed : Fed getEpoch s.comm
  stream_eq : returned s.calls ++ s.comm.rest = stream
  addingTxQueue : s.comm.addingTxQueue = returned s.calls
  ahead : (∀ t ∈ stream, startupEpoch ≤ getEpoch t) → ∀ t ∈ s.comm.rest, s.currentEpoch ≤ getEpoch t
  calls : ∀ (i : Nat) (call : Epoch × Option (List τ)), s.calls[i]? = some call →
    CallSpec getEpoch maxSize (∀ t ∈ stream, startupEpoch ≤ getEpoch t)
      (stream.drop (returned (s.calls.take i)).length) call

theorem returned_append (calls calls' : List (Epoch × Option (List τ))) :
    returned (calls ++ calls') = returned calls ++ returned calls' := List.flatMap_append

theorem callSpec_some {l rest : List τ} {e : Epoch} {fromStart : Prop}
    (hne : l ≠ []) (hlen : l.length ≤ maxSize) (hepoch : ∀ t ∈ l, getEpoch t = e) :
    CallSpec getEpoch maxSize fromStart (l ++ rest) (e, some l) := by
  obtain ⟨t, ts, rfl⟩ := List.exists_cons_of_ne_nil hne
  have hhead : ∀ u, (t :: ts ++ rest).head? = some u → getEpoch u = e := by
    intro u hu
    cases hu
    exact hepoch t List.mem_cons_self
  refine ⟨fun _ h => ?_, ⟨nofun, ?_⟩, fun _ => ⟨nofun, ?_⟩⟩
  · cases h
    exact ⟨hne, hlen, hepoch⟩
  · rintro ⟨u, hu, hue⟩
    exact absurd (hhead u hu) hue
  · rintro ⟨-, u, hu, hlt⟩
    exact absurd (hhead u hu) (Nat.ne_of_gt hlt)

theorem callSpec_none {left : List τ} {t : τ} {e : Epoch} {fromStart : Prop}
    (hsorted : left.Pairwise fun t u => getEpoch t ≤ getEpoch u)
    (hahead : fromStart → ∀ t ∈ left, e ≤ getEpoch t) (hhead : left.head? = some t)
    (hepoch : getEpoch t ≠ e) : CallSpec getEpoch maxSize fromStart left (e, none) := by
  obtain ⟨us, rfl⟩ : ∃ us, left = t :: us := List.head?_eq_some_iff.mp hhead
  refine ⟨nofun, ⟨fun _ => ⟨t, rfl, hepoch⟩, fun _ => rfl⟩,
    fun hstart => ⟨fun _ => ?_, fun _ => rfl⟩⟩
  have hlt : e < getEpoch t :=
    Nat.lt_of_le_of_ne (hahead hstart t List.mem_cons_self) (Ne.symm hepoch)
  refine ⟨fun u hu => ?_, t, rfl, hlt⟩
  rcases List.mem_cons.mp hu with rfl | hu
  · exact hepoch
  · exact Nat.ne_of_gt (Nat.lt_of_lt_of_le hlt ((List.pairwise_cons.mp hsorted).1 u hu))

theorem Inv.left (h : Inv getEpoch maxSize startupEpoch stream s) :
    stream.drop (returned s.calls).length = s.comm.rest := by
  rw [← h.stream_eq, List.drop_left]

/-- A call is put at the end of the list of calls. -/
theorem Inv.snoc {l : Option (List τ)} {c' : CommController τ} {e' : Epoch}
    (h : Inv getEpoch maxSize startupEpoch stream s)
    (htaken : Taken getEpoch s.currentEpoch (l.getD []) s.comm c')
    (hcall : CallSpec getEpoch maxSize (∀ t ∈ stream, startupEpoch ≤ getEpoch t) s.comm.rest
      (s.currentEpoch, l))
    (hahead : (∀ t ∈ stream, startupEpoch ≤ getEpoch t) → ∀ t ∈ c'.rest, e' ≤ getEpoch t) :
    Inv getEpoch maxSize startupEpoch stream
      { comm := c', currentEpoch := e', calls := s.calls ++ [(s.currentEpoch, l)] } := by
  have hreturned : returned (s.calls ++ [(s.currentEpoch, l)]) = returned s.calls ++ l.getD [] := by
    rw [returned_append]
    simp [returned]
  refine ⟨htaken.fed, ?_, ?_, hahead, fun i call hget => ?_⟩
  · rw [hreturned, List.append_assoc, ← htaken.rest, h.stream_eq]
  · rw [hreturned, htaken.addingTxQueue, h.addingTxQueue]
  · dsimp only at hget ⊢
    by_cases hi : i < s.calls.length
    · rw [List.getElem?_append_left hi] at hget
      rw [List.take_append_of_le_length (Nat.le_of_lt hi)]
      exact h.calls i call hget
    · rw [List.getElem?_append_right (Nat.le_of_not_lt hi), List.getElem?_singleton] at hget
      split at hget
      · rename_i hzero
        cases hget
        have hlen : i = s.calls.length := by omega
        rw [hlen, List.take_left, h.left]
        exact hcall
      · cases hget

theorem Inv.call (arrivals : Nat → Nat) (minSize : Nat) (hmax : 0 < maxSize)
    (h : Inv getEpoch maxSize startupEpoch stream s) :
    (∃ s', s.call getEpoch arrivals maxSize minSize = .ok s' ∧
      Inv getEpoch maxSize startupEpoch stream s') ∨
    (s.call getEpoch arrivals maxSize minSize = .error .waiting ∧
      (∀ t ∈ s.comm.rest, getEpoch t = s.currentEpoch) ∧ s.comm.rest.length ≤ minSize) := by
  unfold FetchLoop.call
  rcases CommController.getTransaction_cases arrivals s.currentEpoch minSize hmax h.fed with
    ⟨l, c', hget, htaken, hlen, hne⟩ | ⟨t, c', hget, htaken, hhead, hepoch⟩ | ⟨hget, hwait⟩
  · left
    rw [hget]
    refine ⟨_, rfl, h.snoc htaken ?_ fun hstart t ht => ?_⟩
    · rw [htaken.rest]
      exact callSpec_some hne hlen htaken.epoch
    · exact h.ahead hstart t (htaken.rest ▸ List.mem_append_right _ ht)
  · left
    rw [hget]
    have hspec : CallSpec getEpoch maxSize (∀ t ∈ stream, startupEpoch ≤ getEpoch t) s.comm.rest
        (s.currentEpoch, none) := callSpec_none h.fed.sorted h.ahead hhead hepoch
    refine ⟨_, rfl, h.snoc htaken hspec fun hstart u hu => ?_⟩
    have hmem : u ∈ s.comm.rest := htaken.rest ▸ hu
    exact Nat.lt_of_le_of_ne (h.ahead hstart u hmem)
      (Ne.symm (((hspec.finished hstart).mp rfl).1 u hmem))
  · right
    rw [hget]
    exact ⟨rfl, hwait⟩

theorem inv_start (hsorted : stream.Pairwise fun t u => getEpoch t ≤ getEpoch u) :
    Inv getEpoch maxSize startupEpoch stream (start stream startupEpoch) where
  fed := ⟨hsorted, fun _ _ => Nat.zero_le _⟩
  stream_eq := rfl
  addingTxQueue := rfl
  ahead h := h
  calls i call hget := by cases hget

theorem fetch_inv (arrivals : Nat → Nat) (minSize : Nat) (hmax : 0 < maxSize)
    (hsorted : stream.Pairwise fun t u => getEpoch t ≤ getEpoch u) (n : Nat) :
    (∃ s, fetch getEpoch arrivals maxSize minSize n (start stream startupEpoch) = .ok s ∧
      Inv getEpoch maxSize startupEpoch stream s) ∨
    fetch getEpoch arrivals maxSize minSize n (start stream startupEpoch) = .error .waiting := by
  induction n with
  | zero => exact Or.inl ⟨_, rfl, inv_start hsorted⟩
  | succ n ih =>
      unfold fetch
      rcases ih with ⟨s, hfetch, hinv⟩ | hwait
      · rw [hfetch]
        rcases hinv.call arrivals minSize hmax with hok | ⟨hwait, -⟩
        · exact Or.inl hok
        · exact Or.inr hwait
      · rw [hwait]
        exact Or.inr rfl

/-- However the stream arrives: what the calls return is a beginning of the stream, cut into lists
    that are not empty nor too long and of the epoch asked for, and is enqueued in `addingTxQueue`
    in this order. A null pointer means that another epoch is at the head. If the stream has no
    transaction of an epoch before the first one asked for, it means that the epoch has been
    returned and a later one is at the head. No `CHECK` fails, and a call waits for ever only if
    there are at most `minSize` transactions left, of the epoch it asks for. -/
theorem fetching_preserves_stream (getEpoch : τ → Epoch) (arrivals : Nat → Nat)
    (hsizes : 1 ≤ minSize ∧ minSize < maxSize)
    (hsorted : (stream.map getEpoch).Pairwise (· ≤ ·)) (startupEpoch : Epoch) (n : Nat) :
    (∀ stop, fetch getEpoch arrivals maxSize minSize n (start stream startupEpoch) = .error stop →
      stop = .waiting) ∧
    ∀ s, fetch getEpoch arrivals maxSize minSize n (start stream startupEpoch) = .ok s →
      returned s.calls <+: stream ∧ s.comm.addingTxQueue = returned s.calls ∧
      (∀ (i : Nat) (call : Epoch × Option (List τ)), s.calls[i]? = some call →
        (∀ trWrapper, call.2 = some trWrapper → trWrapper ≠ [] ∧ trWrapper.length ≤ maxSize ∧
          ∀ t ∈ trWrapper, getEpoch t = call.1) ∧
        (call.2 = none ↔ ∃ t, (stream.drop (returned (s.calls.take i)).length).head? = some t ∧
          getEpoch t ≠ call.1) ∧
        ((∀ t ∈ stream, startupEpoch ≤ getEpoch t) → (call.2 = none ↔
          (∀ t ∈ stream.drop (returned (s.calls.take i)).length, getEpoch t ≠ call.1) ∧
            ∃ t, (stream.drop (returned (s.calls.take i)).length).head? = some t ∧
              call.1 < getEpoch t))) ∧
      ∀ stop, s.call getEpoch arrivals maxSize minSize = .error stop → stop = .waiting ∧
        (∀ t ∈ stream.drop (returned s.calls).length, getEpoch t = s.currentEpoch) ∧
        (stream.drop (returned s.calls).length).length ≤ minSize := by
  have hmax : 0 < maxSize := Nat.zero_lt_of_lt hsizes.2
  rcases fetch_inv arrivals minSize hmax (List.pairwise_map.mp hsorted) n with
    ⟨s, hfetch, hinv⟩ | hwait
  · rw [hfetch]
    refine ⟨nofun, fun s' hs' => ?_⟩
    cases hs'
    refine ⟨⟨s.comm.rest, hinv.stream_eq⟩, hinv.addingTxQueue, fun i call hget => ?_,
      fun stop hstop => ?_⟩
    · have hspec := hinv.calls i call hget
      exact ⟨hspec.list, hspec.null, hspec.finished⟩
    · rw [hinv.left]
      rcases hinv.call arrivals minSize hmax with ⟨s', hok, -⟩ | ⟨hwait, hrest⟩
      · rw [hok] at hstop
        cases hstop
      · rw [hwait] at hstop
        cases hstop
        exact ⟨rfl, hrest⟩
  · rw [hwait]
    exact ⟨fun stop hstop => (Except.error.inj hstop).symm, nofun⟩

/-- The epochs of five transactions. -/
def fiveEpochs (p : TxPtr) : Epoch := [1, 1, 2, 2, 4].getD p 0

/-- They arrive one or two at a time. -/
theorem fetching_preserves_five :
    ∃ s, fetch fiveEpochs (fun k => k % 2) 2 1 5 (start [0, 1, 2, 3, 4] 1) = .ok s ∧
      s.calls = [(1, some [0, 1]), (1, none), (2, some [2, 3]), (2, none), (3, none)] ∧
      returned s.calls <+: [0, 1, 2, 3, 4] ∧ s.comm.addingTxQueue = returned s.calls ∧
      ∀ (i : Nat) (call : Epoch × Option (List TxPtr)), s.calls[i]? = some call →
        (call.2 = none ↔ (∀ t ∈ [0, 1, 2, 3, 4].drop (returned (s.calls.take i)).length,
            fiveEpochs t ≠ call.1) ∧
          ∃ t, ([0, 1, 2, 3, 4].drop (returned (s.calls.take i)).length).head? = some t ∧
            call.1 < fiveEpochs t) := by
  have hfetch : (fetch fiveEpochs (fun k => k % 2) 2 1 5 (start [0, 1, 2, 3, 4] 1)).toOption.any
      (fun s => s.calls =
        [(1, some [0, 1]), (1, none), (2, some [2, 3]), (2, none), (3, none)]) = true := by
    decide
  cases hs : fetch fiveEpochs (fun k => k % 2) 2 1 5 (start [0, 1, 2, 3, 4] 1) with
  | error stop =>
      rw [hs] at hfetch
      cases hfetch
  | ok s =>
      rw [hs] at hfetch
      obtain ⟨hstream, hadding, hcalls, -⟩ := (fetching_preserves_stream fiveEpochs
        (fun k => k % 2) (by decide) (by decide) 1 5).2 s hs
      exact ⟨s, rfl, of_decide_eq_true hfetch, hstream, hadding,
        fun i call hget => (hcalls i call hget).2.2 (by decide)⟩

end FetchLoop

/-! ## The first epoch of the stream -/

namespace ProxyState

variable {τ : Type} {cfg : ProxyConfig τ} {s s' : ProxyState τ} {a : ProxyAction τ}
  {as : List (ProxyAction τ)} {p : Nat}

/-- A proxy pushes transactions of its own epoch. -/
theorem step_push {t : τ} (hs : step cfg s (.push p t) = some s') :
    p < cfg.blkSrvCnt ∧ cfg.getEpoch t = (s.proxies p).epoch := by
  cases step_cases hs with
  | push hp hpc ht hmax => exact ⟨hp, ht⟩

theorem pushed_fromStart (hinv : Inv cfg s) (hs : step cfg s a = some s')
    (h : ∀ p, ∀ t ∈ (s.proxies p).pushed, cfg.startWithEpoch ≤ cfg.getEpoch t) :
    ∀ p, ∀ t ∈ (s'.proxies p).pushed, cfg.startWithEpoch ≤ cfg.getEpoch t := by
  intro p t ht
  rcases step_pushed hs p with heq | ⟨u, rfl, heq⟩
  · exact h p t (heq ▸ ht)
  · rw [heq] at ht
    rcases List.mem_append.mp ht with ht | ht
    · exact h p t ht
    · cases List.mem_singleton.mp ht
      obtain ⟨hp, hepoch⟩ := step_push hs
      rw [hepoch]
      exact hinv.sync.start_le p hp

/-- `CommController` gets no transaction of an epoch before `startWithEpoch`, which is the epoch the
    transaction manager starts with. -/
theorem delivered_from_start (h : run (step cfg) (initial cfg) as = some s) :
    ∀ x ∈ s.handled, cfg.startWithEpoch ≤ cfg.getEpoch x.2 := by
  have hpushed := (run_invariant (fun s => Inv cfg s ∧ ∀ p, ∀ t ∈ (s.proxies p).pushed,
    cfg.startWithEpoch ≤ cfg.getEpoch t)
    (fun _ _ _ hi hs => ⟨hi.1.step hs, pushed_fromStart hi.1 hs hi.2⟩) h
    ⟨Inv.initial cfg, by nofun⟩).2
  intro x hx
  have hmem : x.2 ∈ s.handledOf cfg x.1 (cfg.getEpoch x.2) :=
    List.mem_map_of_mem (List.mem_filter.mpr ⟨hx, by simp⟩)
  have hconserved := ((inv_of_run h).content x.1).conserved (cfg.getEpoch x.2)
  have hin : x.2 ∈ (s.proxies x.1).pushed.filter (cfg.getEpoch · = cfg.getEpoch x.2) := by
    rw [← hconserved]
    exact List.mem_append_left _ (List.mem_append_left _ hmem)
  exact hpushed x.1 x.2 (List.mem_of_mem_filter hin)

theorem delivered_from_start_two :
    ∃ s, run (step twoProxies) (initial twoProxies) caughtUp = some s ∧ s.handled.length = 4 ∧
      ∀ x ∈ s.handled, 1 ≤ x.2.1 := by
  have hrun : (run (step twoProxies) (initial twoProxies) caughtUp).any fun s =>
      s.handled.length = 4 := by
    decide
  obtain ⟨s, hs, hlen⟩ := exists_of_any hrun
  exact ⟨s, hs, hlen, delivered_from_start hs⟩

end ProxyState

end NeuChain.Server
