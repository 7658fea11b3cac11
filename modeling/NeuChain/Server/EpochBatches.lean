/-
  Where the transactions of an epoch are while `TransactionManagerImpl` runs.

  The batch of an epoch is what comm delivered for it and what the epoch before has handed on
  (`carried`). The invariant counts, for every epoch and transaction:

  * batch = buffer + still to be enqueued, before the callback of the epoch,
  * batch = buffer + committed + handed on, during it,
  * batch = block + handed on, after it,
  * batch = sent + about to be sent, at any time.

  A batch holds a transaction at most once, since those handed on came in an earlier epoch. The thread
  of `run` is at most two epochs ahead when aborted transactions are used again, and sends what was
  handed on before it fetches the next epoch. So nothing is missing from a batch when its
  callback begins.
-/
import NeuChain.Server.TransactionManager
import Mathlib.Data.List.Count
import Mathlib.Data.List.GetD
import Mathlib.Data.List.Nodup
import Mathlib.Data.List.Perm.Basic
import Mathlib.Data.List.Range

namespace NeuChain.Server.TransactionManagerImpl

open NeuChain Lib

variable {cfg : TrManagerConfig} {stream : List Transaction} {s d : Nat}
  {carried : Nat → List Nat} {m m' : TransactionManagerImpl}

/-- The epoch with which comm delivers a transaction. -/
def epochOf (stream : List Transaction) (p : Nat) : Nat := (stream.getD p {}).epoch

/-- How often the first `d` transactions have `p` with epoch `e`. -/
def fresh (stream : List Transaction) (d e : Nat) (p : Nat) : Nat :=
  if p < d ∧ epochOf stream p = e then 1 else 0

/-- Fetched and not enqueued. -/
def todo (m : TransactionManagerImpl) : List Nat :=
  match m.fetch with
  | .adding todo _ => todo
  | _ => []

/-- Fetched and not sent. -/
def unsent (m : TransactionManagerImpl) : List Nat :=
  match m.fetch with
  | .adding _ trWrapper => trWrapper
  | _ => []

/-- Handed on and not sent again. -/
def retrying (m : TransactionManagerImpl) : List Nat :=
  match m.callback with
  | .categorizing trWrapper => trWrapper
  | _ => m.reuseTxWrapper.getD []

/-- The epoch for which they are. -/
def retryEpoch (m : TransactionManagerImpl) : Nat :=
  match m.callback with
  | .executing => m.processingEpoch
  | _ => m.processingEpoch + 1

/-- The first epoch without a block. -/
def closed (m : TransactionManagerImpl) : Nat :=
  match m.callback with
  | .finishing => m.processingEpoch + 1
  | _ => m.processingEpoch

theorem callback_categorizing {m : TransactionManagerImpl} {w : List Nat}
    (hcb : m.callback = .categorizing w) :
    m.retrying = w ∧ m.retryEpoch = m.processingEpoch + 1 ∧ m.closed = m.processingEpoch := by
  unfold retrying retryEpoch closed
  rw [hcb]
  exact ⟨rfl, rfl, rfl⟩

theorem callback_categorized {m : TransactionManagerImpl}
    (hcb : m.callback = .generating ∨ m.callback = .finishing) :
    m.retrying = m.reuseTxWrapper.getD [] ∧ m.retryEpoch = m.processingEpoch + 1 := by
  unfold retrying retryEpoch
  rcases hcb with hcb | hcb <;> rw [hcb] <;> exact ⟨rfl, rfl⟩

/-- How often `p` was sent with epoch `e`. -/
def sentCount (m : TransactionManagerImpl) (e : Nat) (p : Nat) : Nat :=
  m.sent.countP fun x => x.1 = p ∧ x.2.epoch = e

/-- How far the two threads are, and what was sent. -/
structure Paced (cfg : TrManagerConfig) (m : TransactionManagerImpl) : Prop where
  epoch_le : m.processingEpoch ≤ m.currentEpoch
  waiting : m.fetch = .waiting → m.processingEpoch < m.currentEpoch
  ahead : m.callback ≠ .executing → m.processingEpoch < m.currentEpoch ∧
    (m.fetch = .waiting → m.processingEpoch + 1 < m.currentEpoch)
  reuse_le : cfg.reusingAbortTransaction = true → m.currentEpoch ≤ m.processingEpoch + 2 ∧
    (m.fetch ≠ .waiting → m.currentEpoch ≤ m.processingEpoch + 1)
  no_wait : cfg.reusingAbortTransaction = false → m.fetch ≠ .waiting
  sent_le : ∀ x ∈ m.sent, x.2.epoch ≤ m.currentEpoch ∧
    (m.fetch = .waiting → x.2.epoch < m.currentEpoch)
  wrapper : cfg.reusingAbortTransaction = true → m.callback = .executing →
    m.reuseTxWrapper ≠ none → m.currentEpoch ≤ m.processingEpoch ∨
      m.currentEpoch = m.processingEpoch + 1 ∧ m.fetch = .waiting

structure Inv (cfg : TrManagerConfig) (stream : List Transaction) (s d : Nat)
    (carried : Nat → List Nat) (m : TransactionManagerImpl) : Prop extends Paced cfg m where
  -- comm has delivered the first `d` transactions
  delivered : d ≤ stream.length
  incoming : m.incoming = List.range' d (stream.length - d)
  original : ∀ p, d ≤ p → m.object p = stream.getD p {}
  start_le : s ≤ m.processingEpoch
  -- what was sent
  sorted : m.sent.Pairwise fun x y => x.2.epoch ≤ y.2.epoch
  sends : ∀ e (p : Nat), m.sentCount e p + (if e = m.currentEpoch then m.unsent.count p else 0) +
    (if e = m.retryEpoch then m.retrying.count p else 0) = fresh stream d e p + (carried e).count p
  snapshot : ∀ x ∈ m.sent, epochOf stream x.1 < x.2.epoch →
    x.2.kvRWSet = {} ∧ x.2.transactionResult = .pending
  -- what is handed on
  wrapper_off : cfg.reusingAbortTransaction = false → m.reuseTxWrapper.getD [] = []
  carried_mem : ∀ e (p : Nat), p ∈ carried e → p < d ∧ epochOf stream p < e ∧ s < e
  carried_count : ∀ e p, (carried e).count p ≤ 1
  carried_none : ∀ e, m.processingEpoch + 1 < e → carried e = []
  carried_next : carried (m.processingEpoch + 1) =
    if m.callback = .executing then [] else m.retrying
  carried_off : cfg.reusingAbortTransaction = false → ∀ e, carried e = []
  -- before, during and after the callback
  before : ∀ e p, m.processingEpoch < e ∨ e = m.processingEpoch ∧ m.callback = .executing →
    (m.epochTxBuffer e).count p + (if e = m.currentEpoch then m.todo.count p else 0) =
      fresh stream d e p + (carried e).count p
  during : m.callback ≠ .executing → m.callback ≠ .finishing → ∀ p,
    (m.epochTxBuffer m.processingEpoch).count p + m.committed.count p +
      (carried (m.processingEpoch + 1)).count p =
        fresh stream stream.length m.processingEpoch p + (carried m.processingEpoch).count p
  after : ∀ e b, (e, b) ∈ m.blocks → ∀ p, b.count p + (carried (e + 1)).count p =
    fresh stream stream.length e p + (carried e).count p
  numbers : m.blocks.map Prod.fst = List.range' s (m.closed - s)
  complete : m.callback ≠ .executing → ∀ p < stream.length,
    epochOf stream p ≤ m.processingEpoch → p < d
  emptied : m.callback = .generating → m.epochTxBuffer m.processingEpoch = []
  committed_nil : m.callback = .executing ∨ m.callback = .finishing → m.committed = []
  -- the objects
  unsent_epoch : ∀ p ∈ m.unsent,
    (m.object p).epoch = m.currentEpoch ∧ epochOf stream p = m.currentEpoch
  retrying_reset : ∀ p ∈ m.retrying, (m.object p).epoch = m.retryEpoch ∧
    (m.object p).kvRWSet = {} ∧ (m.object p).transactionResult = .pending
  final : ∀ w, m.callback = .categorizing w → ∀ p ∈ m.epochTxBuffer m.processingEpoch,
    (m.object p).transactionResult.isFinal = true
  -- the results
  aborted : ∀ e (p : Nat), p ∈ carried (e + 1) → m.outcome e p = some .abort
  in_block : ∀ e b, (e, b) ∈ m.blocks → ∀ p ∈ b, ∃ r, m.outcome e p = some r ∧
    (cfg.reusingAbortTransaction = true → r ≠ .abort)
  in_committed : ∀ p ∈ m.committed, ∃ r, m.outcome m.processingEpoch p = some r ∧
    (cfg.reusingAbortTransaction = true → r ≠ .abort)
  outcome_some : ∀ e p, m.outcome e p ≠ none → p ∈ carried (e + 1) ∨
    (∃ b, (e, b) ∈ m.blocks ∧ p ∈ b) ∨ e = m.processingEpoch ∧ p ∈ m.committed

/-! ## Counting -/

theorem fresh_le (stream : List Transaction) (d e p : Nat) : fresh stream d e p ≤ 1 := by
  unfold fresh
  split <;> omega

theorem fresh_pos {e : Nat} {p : Nat} (h : 0 < fresh stream d e p) :
    p < d ∧ epochOf stream p = e := by
  unfold fresh at h
  split at h
  · assumption
  · omega

theorem count_snoc (l : List Nat) (p q : Nat) :
    (l ++ [p]).count q = l.count q + if q = p then 1 else 0 := by
  rw [List.count_append, List.count_singleton]
  by_cases hq : q = p
  · simp [hq]
  · simp [hq, Ne.symm hq]

theorem count_range' (d n : Nat) (p : Nat) :
    (List.range' d n).count p = if d ≤ p ∧ p < d + n then 1 else 0 := by
  have hnd : (List.range' d n).Nodup := List.nodup_range'
  rw [hnd.count]
  simp only [List.mem_range'_1]

theorem count_eraseIdx {l : List Nat} {i p : Nat} (hget : l[i]? = some p) (q : Nat) :
    (l.eraseIdx i).count q + (if q = p then 1 else 0) = l.count q := by
  obtain ⟨hi, hp⟩ := List.getElem?_eq_some_iff.mp hget
  have hperm := (List.getElem_cons_eraseIdx_perm hi).count_eq q
  rw [hp, List.count_cons] at hperm
  rw [← hperm]
  by_cases hq : q = p
  · simp [hq]
  · simp [hq, Ne.symm hq]

theorem fresh_add {n C e : Nat} {p : Nat} (hep : ∀ q, d ≤ q → q < d + n → epochOf stream q = C) :
    fresh stream (d + n) e p =
      fresh stream d e p + if e = C then (List.range' d n).count p else 0 := by
  rw [count_range']
  unfold fresh
  by_cases hp : d ≤ p ∧ p < d + n
  · have hC := hep p hp.1 hp.2
    have hnot : ¬ (p < d ∧ epochOf stream p = e) := by omega
    rw [if_pos hp, if_neg hnot, Nat.zero_add]
    by_cases he : e = C
    · rw [if_pos ⟨hp.2, hC.trans he.symm⟩, if_pos he]
    · rw [if_neg (fun hand => he (hand.2.symm.trans hC)), if_neg he]
  · have hlt : p < d + n ∧ epochOf stream p = e ↔ p < d ∧ epochOf stream p = e := by omega
    rw [if_neg hp, ite_self, Nat.add_zero]
    exact if_congr hlt rfl rfl

theorem sentCount_append {e₀ e : Nat} {p : Nat} (sent : List (Nat × Transaction)) {w : List Nat}
    {object : Nat → Transaction} (hw : ∀ q ∈ w, (object q).epoch = e₀) :
    (sent ++ w.map fun q => (q, object q)).countP (fun x => x.1 = p ∧ x.2.epoch = e) =
      sent.countP (fun x => x.1 = p ∧ x.2.epoch = e) + if e = e₀ then w.count p else 0 := by
  rw [List.countP_append, List.countP_map]
  congr 1
  by_cases he : e = e₀
  · rw [if_pos he, List.count_eq_countP]
    apply List.countP_congr
    intro q hq
    simp [hw q hq, he]
  · rw [if_neg he, List.countP_eq_zero]
    intro q hq
    simp [hw q hq, Ne.symm he]

theorem sentCount_pos {e : Nat} {p : Nat} (h : 0 < m.sentCount e p) :
    ∃ x ∈ m.sent, x.1 = p ∧ x.2.epoch = e := by
  obtain ⟨x, hx, hp⟩ := List.countP_pos_iff.mp h
  exact ⟨x, hx, of_decide_eq_true hp⟩

theorem sentCount_pos_of_mem {x : Nat × Transaction} (hx : x ∈ m.sent) :
    0 < m.sentCount x.2.epoch x.1 :=
  List.countP_pos_iff.mpr ⟨x, hx, by simp⟩

/-- The batch of the next epoch gets one more. -/
def handOn (carried : Nat → List Nat) (e p : Nat) : Nat → List Nat :=
  Function.update carried e (carried e ++ [p])

theorem count_handOn (e p e' q : Nat) : (handOn carried e p e').count q =
    (carried e').count q + if e' = e ∧ q = p then 1 else 0 := by
  unfold handOn
  by_cases he : e' = e
  · subst he
    rw [Function.update_self, count_snoc]
    simp only [true_and]
  · rw [Function.update_of_ne he, if_neg fun hand => he hand.1, Nat.add_zero]

theorem mem_handOn {e p e' q : Nat} :
    q ∈ handOn carried e p e' ↔ q ∈ carried e' ∨ e' = e ∧ q = p := by
  unfold handOn
  by_cases he : e' = e
  · subst he
    simp
  · simp [he]

theorem Inv.start (cfg : TrManagerConfig) (stream : List Transaction) (s : Nat) :
    Inv cfg stream s 0 (fun _ => []) (start stream s) := by
  refine
    { delivered := Nat.zero_le stream.length
      incoming := ?_
      original := fun _ _ => rfl
      start_le := Nat.le_refl s
      epoch_le := Nat.le_refl s
      waiting := nofun
      ahead := fun h => absurd rfl h
      reuse_le := fun _ => ⟨Nat.le_add_right s 2, fun _ => Nat.le_add_right s 1⟩
      no_wait := fun _ => nofun
      sent_le := nofun
      sorted := List.Pairwise.nil
      sends := ?_
      snapshot := nofun
      wrapper := fun _ _ h => absurd rfl h
      wrapper_off := fun _ => rfl
      carried_mem := nofun
      carried_count := fun _ _ => Nat.zero_le 1
      carried_none := fun _ _ => rfl
      carried_next := rfl
      carried_off := fun _ _ => rfl
      before := ?_
      during := fun h => absurd rfl h
      after := nofun
      numbers := ?_
      complete := fun h => absurd rfl h
      emptied := nofun
      committed_nil := fun _ => rfl
      unsent_epoch := nofun
      retrying_reset := nofun
      final := nofun
      aborted := nofun
      in_block := nofun
      in_committed := nofun
      outcome_some := fun _ _ h => absurd rfl h }
  · rw [Nat.sub_zero]
    exact List.range_eq_range'
  · intro e p
    simp [sentCount, unsent, retrying, fresh, TransactionManagerImpl.start]
  · intro e p _
    simp [todo, fresh, TransactionManagerImpl.start]
  · simp [closed, TransactionManagerImpl.start]

section

variable (h : Inv cfg stream s d carried m)

include h

/-- A batch holds a transaction at most once. -/
theorem Inv.batch_le (d' e : Nat) (p : Nat) :
    fresh stream d' e p + (carried e).count p ≤ 1 := by
  have hcount := h.carried_count e p
  have hfresh := fresh_le stream d' e p
  by_contra hgt
  have hmem : p ∈ carried e := List.count_pos_iff.mp (by omega)
  have hlt := (h.carried_mem e p hmem).2.1
  have heq := (fresh_pos (show 0 < fresh stream d' e p by omega)).2
  omega

/-- What is sent next is of no earlier epoch. -/
theorem Inv.sorted_append {w : List Nat} {e₀ : Nat} (hle : ∀ x ∈ m.sent, x.2.epoch ≤ e₀)
    (hw : ∀ q ∈ w, (m.object q).epoch = e₀) :
    (m.sent ++ w.map fun q => (q, m.object q)).Pairwise fun x y => x.2.epoch ≤ y.2.epoch := by
  have hnew : ∀ x ∈ w.map fun q => (q, m.object q), x.2.epoch = e₀ := by
    intro x hx
    obtain ⟨q, hq, rfl⟩ := List.mem_map.mp hx
    exact hw q hq
  refine List.pairwise_append.mpr ⟨h.sorted, List.pairwise_of_forall_mem_list ?_, ?_⟩
  · exact fun x hx y hy => ((hnew x hx).trans (hnew y hy).symm).le
  · exact fun x hx y hy => (hle x hx).trans (hnew y hy).ge

end

/-! ## The thread of `run` -/

theorem todo_unsent_of_idle (hfetch : m.fetch = .fetching ∨ m.fetch = .waiting) :
    m.todo = [] ∧ m.unsent = [] := by
  unfold todo unsent
  rcases hfetch with hfetch | hfetch <;> rw [hfetch] <;> exact ⟨rfl, rfl⟩

/-- A step between two waits. -/
theorem Paced.fetching (h : Paced cfg m) (hfetch : m.fetch ≠ .waiting) (new : FetchState)
    (hnew : new ≠ .waiting) : Paced cfg { m with fetch := new } where
  epoch_le := h.epoch_le
  waiting hw := absurd hw hnew
  ahead hcb := ⟨(h.ahead hcb).1, fun hw => absurd hw hnew⟩
  reuse_le hreuse := ⟨(h.reuse_le hreuse).1, fun _ => (h.reuse_le hreuse).2 hfetch⟩
  no_wait _ := hnew
  sent_le x hx := ⟨(h.sent_le x hx).1, fun hw => absurd hw hnew⟩
  wrapper hreuse hcb hsome :=
    Or.inl ((h.wrapper hreuse hcb hsome).resolve_right fun hw => hfetch hw.2)

section

variable (h : Inv cfg stream s d carried m)

include h

theorem Inv.getTransaction {n : Nat} (hstep : m.step cfg (.getTransaction n) = some m') :
    Inv cfg stream s (d + n) carried m' := by
  simp only [TransactionManagerImpl.step] at hstep
  split_ifs at hstep with hguard
  obtain ⟨hfetch, -, -, hn, hall⟩ := hguard
  cases hstep
  have hd := h.delivered
  have hlen : m.incoming.length = stream.length - d := by
    rw [h.incoming, List.length_range']
  have htake : m.incoming.take n = List.range' d n := by
    rw [h.incoming, List.take_range'_of_length_ge (by omega)]
  have hep : ∀ q, d ≤ q → q < d + n → epochOf stream q = m.currentEpoch := by
    intro q hlow hhigh
    have hq : q ∈ m.incoming.take n := by
      rw [htake, List.mem_range'_1]
      exact ⟨hlow, hhigh⟩
    have hobj := of_decide_eq_true (List.all_eq_true.mp hall q hq)
    rw [h.original q hlow] at hobj
    exact hobj
  have hnone := todo_unsent_of_idle (Or.inl hfetch)
  have hpace := h.toPaced.fetching (by rw [hfetch]; nofun)
    (.adding (m.incoming.take n) (m.incoming.take n)) nofun
  refine { hpace, h with
    delivered := ?_, incoming := ?_, original := ?_, sends := ?_, carried_mem := ?_,
    before := ?_, complete := ?_, unsent_epoch := ?_ }
  · omega
  · change m.incoming.drop n = _
    rw [h.incoming, List.drop_range']
    congr 1
    · omega
    · omega
  · intro p hp
    exact h.original p (by omega)
  · intro e p
    have hsends := h.sends e p
    rw [hnone.2] at hsends
    rw [fresh_add hep]
    change m.sentCount e p + (if e = m.currentEpoch then (m.incoming.take n).count p else 0) +
      (if e = m.retryEpoch then m.retrying.count p else 0) = _
    rw [htake]
    simp only [List.count_nil, ite_self, Nat.add_zero] at hsends
    omega
  · intro e p hp
    obtain ⟨hlt, hrest⟩ := h.carried_mem e p hp
    exact ⟨by omega, hrest⟩
  · intro e p he
    have hbefore := h.before e p he
    rw [hnone.1] at hbefore
    rw [fresh_add hep]
    change (m.epochTxBuffer e).count p +
      (if e = m.currentEpoch then (m.incoming.take n).count p else 0) = _
    rw [htake]
    simp only [List.count_nil, ite_self, Nat.add_zero] at hbefore
    omega
  · intro hcb p hp hle
    have := h.complete hcb p hp hle
    omega
  · intro p hp
    have hp : p ∈ m.incoming.take n := hp
    rw [htake, List.mem_range'_1] at hp
    refine ⟨?_, hep p hp.1 hp.2⟩
    change (m.object p).epoch = m.currentEpoch
    rw [h.original p hp.1]
    exact hep p hp.1 hp.2

/-- `currentEpoch++`, in both settings. -/
theorem Inv.advance (hfetch : m.fetch = .fetching) {new : FetchState}
    (hidle : new = .fetching ∨ new = .waiting)
    (hwait : new = .waiting ↔ cfg.reusingAbortTransaction = true) :
    Inv cfg stream s d carried { m with currentEpoch := m.currentEpoch + 1, fetch := new } := by
  have hnone := todo_unsent_of_idle (Or.inl hfetch)
  have hnone' := @todo_unsent_of_idle
    { m with currentEpoch := m.currentEpoch + 1, fetch := new } hidle
  have hle := h.epoch_le
  refine { h with
    epoch_le := ?_, waiting := ?_, ahead := ?_, reuse_le := ?_, no_wait := ?_, sent_le := ?_,
    sends := ?_, wrapper := ?_, before := ?_, unsent_epoch := ?_ }
  · exact Nat.le_succ_of_le hle
  · intro _
    exact Nat.lt_succ_of_le hle
  · intro hcb
    have hlt := (h.ahead hcb).1
    exact ⟨Nat.lt_succ_of_lt hlt, fun _ => Nat.succ_lt_succ hlt⟩
  · intro hreuse
    have hone := (h.reuse_le hreuse).2 (by rw [hfetch]; nofun)
    exact ⟨Nat.succ_le_succ hone, fun hno => absurd (hwait.mpr hreuse) hno⟩
  · intro hoff hw
    rw [hwait.mp hw] at hoff
    cases hoff
  · intro x hx
    have hx' := (h.sent_le x hx).1
    exact ⟨Nat.le_succ_of_le hx', fun _ => Nat.lt_succ_of_le hx'⟩
  · intro hreuse hcb hsome
    rcases h.wrapper hreuse hcb hsome with hcur | ⟨-, hw⟩
    · have hcur : m.currentEpoch ≤ m.processingEpoch := hcur
      right
      exact ⟨by dsimp only; omega, hwait.mpr hreuse⟩
    · rw [hfetch] at hw
      cases hw
  · intro e p
    have hsends := h.sends e p
    rw [hnone.2] at hsends
    rw [hnone'.2]
    simp only [List.count_nil, ite_self] at hsends ⊢
    exact hsends
  · intro e p he
    have hbefore := h.before e p he
    rw [hnone.1] at hbefore
    rw [hnone'.1]
    simp only [List.count_nil, ite_self] at hbefore ⊢
    exact hbefore
  · intro p hp
    rw [hnone'.2] at hp
    cases hp

theorem Inv.nextEpoch (hstep : m.step cfg .nextEpoch = some m') :
    Inv cfg stream s d carried m' := by
  simp only [TransactionManagerImpl.step] at hstep
  split_ifs at hstep with hguard hreuse
  · cases hstep
    exact h.advance hguard.1 (Or.inr rfl) (iff_of_true rfl hreuse)
  · cases hstep
    exact h.advance hguard.1 (Or.inl rfl) (iff_of_false nofun hreuse)

theorem Inv.enqueue (hstep : m.step cfg .enqueue = some m') : Inv cfg stream s d carried m' := by
  simp only [TransactionManagerImpl.step] at hstep
  split at hstep
  · rename_i p₀ todo₀ trWrapper hfetch
    cases hstep
    have htodo : m.todo = p₀ :: todo₀ := by
      unfold todo
      rw [hfetch]
    have hunsent : m.unsent = trWrapper := by
      unfold unsent
      rw [hfetch]
    -- the callback works on an earlier epoch
    have hother : m.callback ≠ .executing → m.processingEpoch ≠ m.currentEpoch :=
      fun hcb => (h.ahead hcb).1.ne
    have hpace := h.toPaced.fetching (by rw [hfetch]; nofun) (.adding todo₀ trWrapper) nofun
    refine { hpace, h with
      sends := ?_, before := ?_, during := ?_, emptied := ?_, unsent_epoch := ?_, final := ?_ }
    · intro e p
      rw [← h.sends e p, hunsent]
      rfl
    · intro e p he
      have hbefore := h.before e p he
      rw [htodo] at hbefore
      change (Function.update m.epochTxBuffer m.currentEpoch
        (m.epochTxBuffer m.currentEpoch ++ [p₀]) e).count p +
          (if e = m.currentEpoch then todo₀.count p else 0) = _
      by_cases hcur : e = m.currentEpoch
      · subst hcur
        rw [if_pos rfl, List.count_cons] at hbefore
        rw [Function.update_self, if_pos rfl, List.count_append, List.count_singleton]
        omega
      · rw [if_neg hcur] at hbefore ⊢
        rw [Function.update_of_ne hcur]
        exact hbefore
    · intro hcb hfin p
      have hduring := h.during hcb hfin p
      dsimp only
      rw [Function.update_of_ne (hother hcb)]
      exact hduring
    · intro hgen
      dsimp only
      rw [Function.update_of_ne (hother (by rw [hgen]; nofun))]
      exact h.emptied hgen
    · intro p hp
      exact h.unsent_epoch p (hunsent ▸ hp)
    · intro w hw p hp
      dsimp only at hp
      rw [Function.update_of_ne (hother (by rw [hw]; nofun))] at hp
      exact h.final w hw p hp
  · cases hstep

theorem Inv.sendTransaction (hstep : m.step cfg .sendTransaction = some m') :
    Inv cfg stream s d carried m' := by
  simp only [TransactionManagerImpl.step] at hstep
  split at hstep
  · rename_i trWrapper hfetch
    cases hstep
    have htodo : m.todo = [] := by
      unfold todo
      rw [hfetch]
    have hunsent : m.unsent = trWrapper := by
      unfold unsent
      rw [hfetch]
    have hepoch : ∀ p ∈ trWrapper,
        (m.object p).epoch = m.currentEpoch ∧ epochOf stream p = m.currentEpoch :=
      fun p hp => h.unsent_epoch p (hunsent ▸ hp)
    have hmem : ∀ x ∈ m.sent ++ trWrapper.map (fun p => (p, m.object p)), x ∈ m.sent ∨
        x.2.epoch = m.currentEpoch ∧ epochOf stream x.1 = m.currentEpoch := by
      intro x hx
      rcases List.mem_append.mp hx with hold | hnew
      · exact Or.inl hold
      · obtain ⟨p, hp, rfl⟩ := List.mem_map.mp hnew
        exact Or.inr (hepoch p hp)
    have hpace := h.toPaced.fetching (by rw [hfetch]; nofun) .fetching nofun
    refine { hpace, h with
      sent_le := ?_, sorted := ?_, sends := ?_, snapshot := ?_, before := ?_,
      unsent_epoch := nofun }
    · intro x hx
      refine ⟨?_, nofun⟩
      rcases hmem x hx with hold | hnew
      · exact (h.sent_le x hold).1
      · exact hnew.1.le
    · exact h.sorted_append (fun x hx => (h.sent_le x hx).1) fun q hq => (hepoch q hq).1
    · intro e p
      have hsends := h.sends e p
      rw [hunsent] at hsends
      change (m.sent ++ trWrapper.map fun q => (q, m.object q)).countP _ +
        (if e = m.currentEpoch then ([] : List Nat).count p else 0) +
          (if e = m.retryEpoch then m.retrying.count p else 0) = _
      rw [sentCount_append m.sent fun q hq => (hepoch q hq).1]
      change m.sentCount e p + _ + _ + _ = _
      rw [List.count_nil, ite_self]
      exact hsends
    · intro x hx hlt
      rcases hmem x hx with hold | ⟨h₁, h₂⟩
      · exact h.snapshot x hold hlt
      · rw [h₁, h₂] at hlt
        exact absurd hlt (Nat.lt_irrefl _)
    · intro e p he
      rw [← h.before e p he, htodo]
      rfl
  · cases hstep

/-- When the wait is over, the coordinator is executing the epoch before. -/
theorem Inv.resuming (hfetch : m.fetch = .waiting) (hcur : m.currentEpoch ≤ m.processingEpoch + 1) :
    m.currentEpoch = m.processingEpoch + 1 ∧ m.callback = .executing ∧
      m.retrying = m.reuseTxWrapper.getD [] ∧ m.retryEpoch = m.processingEpoch := by
  have hlt := h.waiting hfetch
  have hexec : m.callback = .executing := by
    by_contra hcb
    have := (h.ahead hcb).2 hfetch
    omega
  refine ⟨by omega, hexec, ?_⟩
  unfold retrying retryEpoch
  rw [hexec]
  exact ⟨rfl, rfl⟩

theorem Inv.resume (hstep : m.step cfg .resume = some m') : Inv cfg stream s d carried m' := by
  simp only [TransactionManagerImpl.step] at hstep
  split_ifs at hstep with hguard
  obtain ⟨hfetch, hcur⟩ := hguard
  obtain ⟨hepoch, hexec, hretry⟩ := h.resuming hfetch hcur
  have hlt := h.waiting hfetch
  have hnone := todo_unsent_of_idle (Or.inr hfetch)
  split at hstep
  · rename_i hwrap
    cases hstep
    refine { h with
      waiting := nofun, ahead := ?_, reuse_le := ?_, no_wait := fun _ => nofun, sent_le := ?_,
      sends := ?_, wrapper := ?_, before := ?_, unsent_epoch := nofun }
    · intro hcb
      exact absurd hexec hcb
    · intro _
      exact ⟨by dsimp only; omega, fun _ => hepoch.le⟩
    · intro x hx
      exact ⟨(h.sent_le x hx).1, nofun⟩
    · intro _ _ hsome
      exact absurd hwrap hsome
    · intro e p
      rw [← h.sends e p, hnone.2]
      rfl
    · intro e p he
      rw [← h.before e p he, hnone.1]
      rfl
  · rename_i trWrapper hwrap
    cases hstep
    rw [hwrap, Option.getD_some] at hretry
    have hafter : ({ m.sendTransactionHandle trWrapper with
        fetch := .fetching, reuseTxWrapper := none } : TransactionManagerImpl).retrying = [] := by
      unfold retrying sendTransactionHandle
      dsimp only
      rw [hexec]
      rfl
    have hreset : ∀ p ∈ trWrapper, (m.object p).epoch = m.processingEpoch ∧
        (m.object p).kvRWSet = {} ∧ (m.object p).transactionResult = .pending := by
      intro p hp
      rw [← hretry.2]
      exact h.retrying_reset p (hretry.1 ▸ hp)
    have hmem : ∀ x ∈ m.sent ++ trWrapper.map (fun p => (p, m.object p)), x ∈ m.sent ∨
        x.2.epoch = m.processingEpoch ∧ x.2.kvRWSet = {} ∧ x.2.transactionResult = .pending := by
      intro x hx
      rcases List.mem_append.mp hx with hold | hnew
      · exact Or.inl hold
      · obtain ⟨p, hp, rfl⟩ := List.mem_map.mp hnew
        exact Or.inr (hreset p hp)
    refine { h with
      waiting := nofun, ahead := ?_, reuse_le := ?_, no_wait := fun _ => nofun, sent_le := ?_,
      sorted := ?_, sends := ?_, snapshot := ?_, wrapper := fun _ _ hsome => absurd rfl hsome,
      wrapper_off := fun _ => rfl, carried_next := ?_, before := ?_, unsent_epoch := nofun,
      retrying_reset := ?_ }
    · intro hcb
      exact absurd hexec hcb
    · intro _
      exact ⟨by change m.currentEpoch ≤ m.processingEpoch + 2; omega, fun _ => hepoch.le⟩
    · intro x hx
      refine ⟨?_, nofun⟩
      rcases hmem x hx with hold | hnew
      · exact (h.sent_le x hold).1
      · exact hnew.1.le.trans hlt.le
    · refine h.sorted_append (fun x hx => ?_) fun q hq => (hreset q hq).1
      have hx' := (h.sent_le x hx).2 hfetch
      rw [hepoch] at hx'
      exact Nat.le_of_lt_succ hx'
    · intro e p
      have hsends := h.sends e p
      rw [hretry.1, hretry.2, hnone.2] at hsends
      rw [hafter]
      change (m.sent ++ trWrapper.map fun q => (q, m.object q)).countP _ +
        (if e = m.currentEpoch then ([] : List Nat).count p else 0) + _ = _
      rw [sentCount_append m.sent fun q hq => (hreset q hq).1]
      change m.sentCount e p + _ + _ + _ = _
      simp only [List.count_nil, ite_self, Nat.add_zero] at hsends ⊢
      exact hsends
    · intro x hx hltx
      rcases hmem x hx with hold | hnew
      · exact h.snapshot x hold hltx
      · exact hnew.2
    · rw [hafter]
      exact h.carried_next.trans (by rw [if_pos hexec, ite_self])
    · intro e p he
      rw [← h.before e p he, hnone.1]
      rfl
    · intro p hp
      rw [hafter] at hp
      cases hp

end

/-! ## The coordinator's thread -/

/-- A transaction in the queue of the callback: nowhere else, and delivered by then. -/
structure Dequeued (stream : List Transaction) (d : Nat) (carried : Nat → List Nat)
    (m : TransactionManagerImpl) (p : Nat) : Prop where
  delivered : p < d
  epoch_le : epochOf stream p ≤ m.processingEpoch
  not_committed : p ∉ m.committed
  not_carried : p ∉ carried (m.processingEpoch + 1)
  once : (m.epochTxBuffer m.processingEpoch).count p = 1

/-- The queue without its `i`-th element, and its result noted. -/
def takeOut (m : TransactionManagerImpl) (i p : Nat) : TransactionManagerImpl :=
  { m with
    epochTxBuffer := Function.update m.epochTxBuffer m.processingEpoch
      ((m.epochTxBuffer m.processingEpoch).eraseIdx i)
    outcome := Function.update m.outcome m.processingEpoch
      (Function.update (m.outcome m.processingEpoch) p (some (m.object p).transactionResult)) }

theorem outcome_takeOut (i p e q : Nat) : (m.takeOut i p).outcome e q =
    if e = m.processingEpoch ∧ q = p then some (m.object p).transactionResult
    else m.outcome e q := by
  unfold takeOut
  dsimp only
  by_cases he : e = m.processingEpoch
  · subst he
    by_cases hq : q = p
    · subst hq
      rw [Function.update_self, Function.update_self, if_pos ⟨rfl, rfl⟩]
    · rw [Function.update_self, Function.update_of_ne hq, if_neg fun hand => hq hand.2]
  · rw [Function.update_of_ne he, if_neg fun hand => he hand.1]

/-- A transaction with a final result is committed or handed on. -/
theorem categorize_cases {w : List Nat} {p : Nat}
    (hfinal : (m.object p).transactionResult.isFinal = true) :
    (cfg.reusingAbortTransaction = true ∧ (m.object p).transactionResult = .abort ∧
      m.categorize cfg w p = { m with
        object := Function.update m.object p
          { (m.object p).resetTransaction with epoch := m.processingEpoch + 1 }
        epochTxBuffer := Function.update m.epochTxBuffer (m.processingEpoch + 1)
          (m.epochTxBuffer (m.processingEpoch + 1) ++ [p])
        callback := .categorizing (w ++ [p]) }) ∨
    ((cfg.reusingAbortTransaction = true → (m.object p).transactionResult ≠ .abort) ∧
      m.categorize cfg w p =
        { m with committed := m.committed ++ [p], callback := .categorizing w }) := by
  unfold categorize
  have hresult := of_decide_eq_true hfinal
  by_cases hreuse : cfg.reusingAbortTransaction = true
  · rcases hresult with hr | hr | hr
    · right
      exact ⟨fun _ => by rw [hr]; nofun, by simp [hr]⟩
    · left
      exact ⟨hreuse, hr, by simp [hr, hreuse]⟩
    · right
      exact ⟨fun _ => by rw [hr]; nofun, by simp [hr]⟩
  · right
    refine ⟨fun hr => absurd hr hreuse, ?_⟩
    rcases hresult with hr | hr | hr
    · simp [hr]
    · simp [hr, hreuse]
    · simp [hr]

section

variable (h : Inv cfg stream s d carried m)

include h

/-- What was sent for an epoch is in its batch, and not about to be sent again. -/
theorem Inv.sent_mem {x : Nat × Transaction} (hx : x ∈ m.sent) :
    x.1 < d ∧ (x.2.epoch = m.retryEpoch → x.1 ∉ m.retrying) := by
  have hpos := sentCount_pos_of_mem hx
  have hsends := h.sends x.2.epoch x.1
  have hle := h.batch_le d x.2.epoch x.1
  constructor
  · rcases Nat.eq_zero_or_pos (fresh stream d x.2.epoch x.1) with hzero | hfresh
    · have hmem : x.1 ∈ carried x.2.epoch := List.count_pos_iff.mp (by omega)
      exact (h.carried_mem _ _ hmem).1
    · exact (fresh_pos hfresh).1
  · intro he hmem
    have hcount := List.count_pos_iff.mpr hmem
    rw [if_pos he] at hsends
    omega

theorem Inv.execute {p₀ : Nat} {rwSet : KVRWSet} {result : TransactionResult}
    (hstep : m.step cfg (.execute p₀ rwSet result) = some m') :
    Inv cfg stream s d carried m' := by
  simp only [TransactionManagerImpl.step] at hstep
  split_ifs at hstep with hguard
  obtain ⟨hexec, hany⟩ := hguard
  cases hstep
  obtain ⟨x, hx, hp⟩ := List.any_eq_true.mp hany
  obtain ⟨rfl, hepoch⟩ := of_decide_eq_true hp
  obtain ⟨hlt, hretry⟩ := h.sent_mem hx
  have hretryEpoch : m.retryEpoch = m.processingEpoch := by
    unfold retryEpoch
    rw [hexec]
  have hnot : x.1 ∉ m.retrying := hretry (hepoch.trans hretryEpoch.symm)
  refine { h with original := ?_, unsent_epoch := ?_, retrying_reset := ?_, final := ?_ }
  · intro p hp
    dsimp only
    rw [Function.update_of_ne (lt_of_lt_of_le hlt hp).ne']
    exact h.original p hp
  · intro p hp
    refine ⟨?_, (h.unsent_epoch p hp).2⟩
    have hobj := (h.unsent_epoch p hp).1
    dsimp only
    by_cases hpx : p = x.1
    · subst hpx
      rw [Function.update_self]
      exact hobj
    · rw [Function.update_of_ne hpx]
      exact hobj
  · intro p hp
    have hpx : p ≠ x.1 := by
      rintro rfl
      exact hnot hp
    dsimp only
    rw [Function.update_of_ne hpx]
    exact h.retrying_reset p hp
  · intro w hw
    have hw : m.callback = .categorizing w := hw
    rw [hexec] at hw
    cases hw

theorem Inv.epochFinishedCallback (hsorted : stream.Pairwise fun t u => t.epoch ≤ u.epoch)
    (hstep : m.step cfg .epochFinishedCallback = some m') : Inv cfg stream s d carried m' := by
  simp only [TransactionManagerImpl.step] at hstep
  split_ifs at hstep with hguard
  obtain ⟨hexec, hover⟩ := hguard
  cases hstep
  obtain ⟨hall, hany⟩ := of_decide_eq_true hover
  obtain ⟨x, hx, hlater⟩ := List.any_eq_true.mp hany
  have hlater : m.processingEpoch < x.2.epoch := of_decide_eq_true hlater
  obtain ⟨hle, hwait⟩ := h.sent_le x hx
  have hahead : m.processingEpoch < m.currentEpoch := lt_of_lt_of_le hlater hle
  have hretrying : m.retrying = m.reuseTxWrapper.getD [] ∧ m.retryEpoch = m.processingEpoch := by
    unfold retrying retryEpoch
    rw [hexec]
    exact ⟨rfl, rfl⟩
  -- what was handed on has been sent
  have hwrap : m.reuseTxWrapper.getD [] = [] := by
    cases hreuse : cfg.reusingAbortTransaction with
    | false => exact h.wrapper_off hreuse
    | true =>
        cases hsome : m.reuseTxWrapper with
        | none => rfl
        | some w =>
            rcases h.wrapper hreuse hexec (by rw [hsome]; nofun) with hcur | ⟨hcur, hw⟩
            · omega
            · have := lt_of_lt_of_le hlater (Nat.le_of_lt_succ (hcur ▸ hwait hw))
              omega
  have hnext : carried (m.processingEpoch + 1) = [] := by
    rw [h.carried_next, if_pos hexec]
  -- the later transaction is a fresh one, and comm keeps the order
  have hcomplete : ∀ p < stream.length, epochOf stream p ≤ m.processingEpoch → p < d := by
    intro p hp hep
    have hpos := sentCount_pos_of_mem hx
    have hsends := h.sends x.2.epoch x.1
    have hcarried : carried x.2.epoch = [] := by
      by_cases hone : x.2.epoch = m.processingEpoch + 1
      · rw [hone]
        exact hnext
      · exact h.carried_none _ (lt_of_le_of_ne hlater (Ne.symm hone))
    rw [hcarried, List.count_nil] at hsends
    obtain ⟨hxd, hxe⟩ := fresh_pos (show 0 < fresh stream d x.2.epoch x.1 by omega)
    by_contra hge
    have hlt : x.1 < p := lt_of_lt_of_le hxd (Nat.le_of_not_lt hge)
    have hord := List.pairwise_iff_getElem.mp hsorted x.1 p (hlt.trans hp) hp hlt
    unfold epochOf at hxe hep
    rw [List.getD_eq_getElem _ _ (hlt.trans hp)] at hxe
    rw [List.getD_eq_getElem _ _ hp] at hep
    rw [hxe] at hord
    exact absurd (lt_of_lt_of_le hlater (hord.trans hep)) (Nat.lt_irrefl _)
  have hfresh : ∀ p, fresh stream d m.processingEpoch p =
      fresh stream stream.length m.processingEpoch p := by
    intro p
    unfold fresh
    have hd := h.delivered
    refine if_congr ⟨fun hp => ⟨by omega, hp.2⟩, fun hp => ⟨?_, hp.2⟩⟩ rfl rfl
    exact hcomplete p hp.1 hp.2.le
  refine { h with
    ahead := ?_, sends := ?_, wrapper := nofun, carried_next := ?_, before := ?_, during := ?_,
    numbers := ?_, complete := fun _ => hcomplete, emptied := nofun,
    committed_nil := fun _ => h.committed_nil (Or.inl hexec), retrying_reset := nofun,
    final := ?_ }
  · intro _
    refine ⟨hahead, fun hw => ?_⟩
    exact lt_of_le_of_lt hlater (hwait hw)
  · intro e p
    have hsends := h.sends e p
    rw [hretrying.1, hwrap] at hsends
    change m.sentCount e p + _ + (if e = m.processingEpoch + 1 then ([] : List Nat).count p else 0) = _
    simp only [List.count_nil, ite_self] at hsends ⊢
    exact hsends
  · rw [hnext]
    rfl
  · intro e p he
    rcases he with hlt | ⟨-, hcb⟩
    · exact h.before e p (Or.inl hlt)
    · cases hcb
  · intro _ _ p
    have hbefore := h.before m.processingEpoch p (Or.inr ⟨rfl, hexec⟩)
    rw [if_neg hahead.ne, hfresh p] at hbefore
    have hnil := h.committed_nil (Or.inl hexec)
    dsimp only
    rw [hnil, hnext, List.count_nil]
    exact hbefore
  · have hclosed := h.numbers
    unfold closed at hclosed ⊢
    rw [hexec] at hclosed
    exact hclosed
  · intro w _ p hp
    have hp : p ∈ m.epochTxBuffer m.processingEpoch := hp
    have hbefore := h.before m.processingEpoch p (Or.inr ⟨rfl, hexec⟩)
    have hsends := h.sends m.processingEpoch p
    have hcount := List.count_pos_iff.mpr hp
    rw [if_neg hahead.ne, hretrying.1, hwrap, List.count_nil, ite_self] at hsends
    obtain ⟨y, hy, rfl, hye⟩ := sentCount_pos (show 0 < m.sentCount m.processingEpoch p by omega)
    have hfinal := of_decide_eq_true (List.all_eq_true.mp hall y hy)
    exact hfinal.resolve_left fun hne => hne hye

theorem Inv.dequeued {w : List Nat} (hcb : m.callback = .categorizing w) {p : Nat}
    (hp : p ∈ m.epochTxBuffer m.processingEpoch) :
    Dequeued stream d carried m p := by
  have hne : m.callback ≠ .executing := by rw [hcb]; nofun
  have hduring := h.during hne (by rw [hcb]; nofun) p
  have hle := h.batch_le stream.length m.processingEpoch p
  have hpos := List.count_pos_iff.mpr hp
  have hwhere : p < d ∧ epochOf stream p ≤ m.processingEpoch := by
    rcases Nat.eq_zero_or_pos (fresh stream stream.length m.processingEpoch p) with hzero | hfresh
    · have hmem : p ∈ carried m.processingEpoch := List.count_pos_iff.mp (by omega)
      obtain ⟨hlt, hep, -⟩ := h.carried_mem _ _ hmem
      exact ⟨hlt, hep.le⟩
    · obtain ⟨hlt, hep⟩ := fresh_pos hfresh
      exact ⟨h.complete hne p hlt hep.le, hep.le⟩
  refine ⟨hwhere.1, hwhere.2, fun hmem => ?_, fun hmem => ?_, ?_⟩
  · have := List.count_pos_iff.mpr hmem
    omega
  · have := List.count_pos_iff.mpr hmem
    omega
  · omega

/-- The blocks so far are of earlier epochs. -/
theorem Inv.block_lt {e : Nat} {b : List Nat} (heb : (e, b) ∈ m.blocks) : e < m.closed := by
  have hmem : e ∈ m.blocks.map Prod.fst := List.mem_map.mpr ⟨(e, b), heb, rfl⟩
  rw [h.numbers, List.mem_range'_1] at hmem
  omega

/-- Taking a transaction out says nothing about an earlier epoch. -/
theorem Inv.in_block_takeOut {w : List Nat} (hcb : m.callback = .categorizing w) (i p e : Nat)
    (b : List Nat) (heb : (e, b) ∈ m.blocks) :
    ∀ q ∈ b, ∃ r, (m.takeOut i p).outcome e q = some r ∧
      (cfg.reusingAbortTransaction = true → r ≠ .abort) := by
  intro q hq
  obtain ⟨r, hr, hr'⟩ := h.in_block e b heb q hq
  have hlt := (callback_categorizing hcb).2.2 ▸ h.block_lt heb
  exact ⟨r, (outcome_takeOut i p e q).trans ((if_neg fun hand => hlt.ne hand.1).trans hr), hr'⟩

/-- Nor about one that has been committed. -/
theorem Inv.in_committed_takeOut {p : Nat} (hp : p ∉ m.committed) (i : Nat) :
    ∀ q ∈ m.committed, ∃ r, (m.takeOut i p).outcome m.processingEpoch q = some r ∧
      (cfg.reusingAbortTransaction = true → r ≠ .abort) := by
  intro q hq
  obtain ⟨r, hr, hr'⟩ := h.in_committed q hq
  have hqp : q ≠ p := fun heq => hp (heq ▸ hq)
  exact ⟨r, (outcome_takeOut i p _ q).trans ((if_neg fun hand => hqp hand.2).trans hr), hr'⟩

theorem Inv.commit {w : List Nat} {i p : Nat} (hcb : m.callback = .categorizing w)
    (hget : (m.epochTxBuffer m.processingEpoch)[i]? = some p)
    (hresult : cfg.reusingAbortTransaction = true → (m.object p).transactionResult ≠ .abort) :
    Inv cfg stream s d carried { m.takeOut i p with
      committed := m.committed ++ [p], callback := .categorizing w } := by
  have hne : m.callback ≠ .executing := by rw [hcb]; nofun
  have hdeq := h.dequeued hcb (List.mem_of_getElem? hget)
  have hout := @outcome_takeOut m i p
  have hsame : { m.takeOut i p with committed := m.committed ++ [p], callback := .categorizing w } =
      { m.takeOut i p with committed := m.committed ++ [p], callback := m.callback } := by
    rw [hcb]
  rw [hsame]
  refine { h with
    before := ?_, during := ?_, emptied := ?_, committed_nil := ?_, final := ?_, aborted := ?_,
    in_block := ?_, in_committed := ?_, outcome_some := ?_ }
  · intro e q he
    have hlt : m.processingEpoch ≠ e := by
      rcases he with hlt | ⟨-, hexec⟩
      · exact hlt.ne
      · exact absurd hexec hne
    have hbefore := h.before e q he
    dsimp only [takeOut]
    rw [Function.update_of_ne hlt.symm]
    exact hbefore
  · intro _ hfin q
    have hduring := h.during hne hfin q
    have hcount := count_eraseIdx hget q
    dsimp only [takeOut]
    rw [Function.update_self, count_snoc]
    omega
  · intro hgen
    have hgen : m.callback = .generating := hgen
    rw [hcb] at hgen
    cases hgen
  · rintro (hexec | hfin)
    · exact absurd hexec hne
    · have hfin : m.callback = .finishing := hfin
      rw [hcb] at hfin
      cases hfin
  · intro w' hw' q hq
    dsimp only [takeOut] at hq
    rw [Function.update_self] at hq
    exact h.final w' hw' q (List.mem_of_mem_eraseIdx hq)
  · intro e q hq
    have hnot : ¬ (e = m.processingEpoch ∧ q = p) := by
      rintro ⟨rfl, rfl⟩
      exact hdeq.not_carried hq
    exact (hout e q).trans ((if_neg hnot).trans (h.aborted e q hq))
  · exact h.in_block_takeOut hcb i p
  · intro q hq
    rcases List.mem_append.mp hq with hold | hnew
    · exact h.in_committed_takeOut hdeq.not_committed i q hold
    · obtain rfl := List.mem_singleton.mp hnew
      exact ⟨_, (hout _ q).trans (if_pos ⟨rfl, rfl⟩), hresult⟩
  · intro e q hsome
    by_cases hand : e = m.processingEpoch ∧ q = p
    · obtain ⟨rfl, rfl⟩ := hand
      exact Or.inr (Or.inr ⟨rfl, List.mem_append_right _ (List.mem_singleton_self _)⟩)
    · have hsome : (m.takeOut i p).outcome e q ≠ none := hsome
      rw [hout, if_neg hand] at hsome
      rcases h.outcome_some e q hsome with hcarried | hblock | ⟨he, hq⟩
      · exact Or.inl hcarried
      · exact Or.inr (Or.inl hblock)
      · exact Or.inr (Or.inr ⟨he, List.mem_append_left _ hq⟩)

theorem Inv.retry {w : List Nat} {i p : Nat} (hcb : m.callback = .categorizing w)
    (hget : (m.epochTxBuffer m.processingEpoch)[i]? = some p)
    (hreuse : cfg.reusingAbortTransaction = true)
    (hresult : (m.object p).transactionResult = .abort) :
    Inv cfg stream s d (handOn carried (m.processingEpoch + 1) p) { m.takeOut i p with
      object := Function.update m.object p
        { (m.object p).resetTransaction with epoch := m.processingEpoch + 1 }
      epochTxBuffer := Function.update (m.takeOut i p).epochTxBuffer (m.processingEpoch + 1)
        ((m.takeOut i p).epochTxBuffer (m.processingEpoch + 1) ++ [p])
      callback := .categorizing (w ++ [p]) } := by
  have hne : m.callback ≠ .executing := by rw [hcb]; nofun
  have hdeq := h.dequeued hcb (List.mem_of_getElem? hget)
  have hout := @outcome_takeOut m i p
  obtain ⟨hretrying, hretryEpoch, hclosed⟩ := callback_categorizing hcb
  have hnext : carried (m.processingEpoch + 1) = w := by
    rw [h.carried_next, if_neg hne, hretrying]
  have hbuf : ∀ e, e ≠ m.processingEpoch → Function.update (m.takeOut i p).epochTxBuffer
      (m.processingEpoch + 1) ((m.takeOut i p).epochTxBuffer (m.processingEpoch + 1) ++ [p]) e =
      if e = m.processingEpoch + 1 then m.epochTxBuffer e ++ [p] else m.epochTxBuffer e := by
    intro e he
    dsimp only [takeOut]
    by_cases hnext : e = m.processingEpoch + 1
    · subst hnext
      rw [Function.update_self, Function.update_of_ne (by omega), if_pos rfl]
    · rw [Function.update_of_ne hnext, Function.update_of_ne he, if_neg hnext]
  have hbufE : Function.update (m.takeOut i p).epochTxBuffer (m.processingEpoch + 1)
      ((m.takeOut i p).epochTxBuffer (m.processingEpoch + 1) ++ [p]) m.processingEpoch =
      (m.epochTxBuffer m.processingEpoch).eraseIdx i := by
    dsimp only [takeOut]
    rw [Function.update_of_ne (by omega), Function.update_self]
  have hobj : ∀ q, q ≠ p → Function.update m.object p
      { (m.object p).resetTransaction with epoch := m.processingEpoch + 1 } q = m.object q :=
    fun q hq => Function.update_of_ne hq _ _
  refine { h with
    original := ?_, ahead := fun _ => h.ahead hne, sends := ?_, wrapper := nofun,
    carried_mem := ?_, carried_count := ?_, carried_none := ?_, carried_next := ?_,
    carried_off := ?_, before := ?_, during := ?_, after := ?_, numbers := ?_,
    complete := fun _ => h.complete hne, emptied := nofun, committed_nil := ?_,
    unsent_epoch := ?_, retrying_reset := ?_, final := ?_, aborted := ?_, in_block := ?_,
    in_committed := ?_, outcome_some := ?_ }
  · intro q hq
    exact (hobj q (lt_of_lt_of_le hdeq.delivered hq).ne').trans (h.original q hq)
  · intro e q
    have hsends := h.sends e q
    rw [hretrying, hretryEpoch] at hsends
    rw [count_handOn]
    change m.sentCount e q + (if e = m.currentEpoch then m.unsent.count q else 0) +
      (if e = m.processingEpoch + 1 then (w ++ [p]).count q else 0) = _
    rw [count_snoc]
    by_cases he : e = m.processingEpoch + 1
    · simp only [he, if_true, true_and] at hsends ⊢
      omega
    · simp only [he, if_false, false_and] at hsends ⊢
      omega
  · intro e q hq
    rcases mem_handOn.mp hq with hold | ⟨rfl, rfl⟩
    · exact h.carried_mem e q hold
    · exact ⟨hdeq.delivered, Nat.lt_succ_of_le hdeq.epoch_le, Nat.lt_succ_of_le h.start_le⟩
  · intro e q
    rw [count_handOn]
    have hcount := h.carried_count e q
    split_ifs with hand
    · obtain ⟨rfl, rfl⟩ := hand
      have := List.count_eq_zero.mpr hdeq.not_carried
      omega
    · exact hcount
  · intro e he
    have he : m.processingEpoch + 1 < e := he
    unfold handOn
    rw [Function.update_of_ne (by omega)]
    exact h.carried_none e he
  · change handOn carried (m.processingEpoch + 1) p (m.processingEpoch + 1) = _
    rw [if_neg (by nofun)]
    change _ = w ++ [p]
    unfold handOn
    rw [Function.update_self, hnext]
  · intro hoff
    rw [hreuse] at hoff
    cases hoff
  · intro e q he
    have hlt : m.processingEpoch < e := by
      rcases he with hlt | ⟨-, hexec⟩
      · exact hlt
      · cases hexec
    have hbefore := h.before e q (Or.inl hlt)
    rw [count_handOn]
    dsimp only
    rw [hbuf e hlt.ne']
    change _ + (if e = m.currentEpoch then m.todo.count q else 0) = _
    by_cases he : e = m.processingEpoch + 1
    · rw [if_pos he, count_snoc]
      simp only [he, true_and] at hbefore ⊢
      omega
    · simp only [he, if_false, false_and, Nat.add_zero]
      exact hbefore
  · intro _ _ q
    have hduring := h.during hne (by rw [hcb]; nofun) q
    have hcount := count_eraseIdx hget q
    rw [count_handOn, count_handOn]
    change (Function.update (m.takeOut i p).epochTxBuffer (m.processingEpoch + 1) _
      m.processingEpoch).count q + m.committed.count q + _ = _
    rw [hbufE]
    change _ + ((carried (m.processingEpoch + 1)).count q +
      if m.processingEpoch + 1 = m.processingEpoch + 1 ∧ q = p then 1 else 0) =
        fresh stream stream.length m.processingEpoch q + ((carried m.processingEpoch).count q +
          if m.processingEpoch = m.processingEpoch + 1 ∧ q = p then 1 else 0)
    simp only [true_and, show ¬ m.processingEpoch = m.processingEpoch + 1 by omega, false_and,
      if_false, Nat.add_zero]
    omega
  · intro e b heb q
    have hlt := hclosed ▸ h.block_lt heb
    have hafter := h.after e b heb q
    rw [count_handOn, count_handOn, if_neg (by omega), if_neg (by omega)]
    exact hafter
  · have hnum := h.numbers
    rw [hclosed] at hnum
    exact hnum
  · rintro (hexec | hfin)
    · cases hexec
    · cases hfin
  · intro q hq
    obtain ⟨hepoch, hep⟩ := h.unsent_epoch q hq
    have hqp : q ≠ p := by
      rintro rfl
      have := hdeq.epoch_le
      have := (h.ahead hne).1
      omega
    refine ⟨?_, hep⟩
    dsimp only
    rw [hobj q hqp]
    exact hepoch
  · intro q hq
    have hq : q ∈ w ++ [p] := hq
    change (Function.update m.object p _ q).epoch = m.processingEpoch + 1 ∧ _
    rcases List.mem_append.mp hq with hold | hlast
    · have hqp : q ≠ p := by
        rintro rfl
        exact hdeq.not_carried (hnext ▸ hold)
      have hreset := h.retrying_reset q (hretrying ▸ hold)
      rw [hretryEpoch] at hreset
      dsimp only
      rw [hobj q hqp]
      exact hreset
    · obtain rfl := List.mem_singleton.mp hlast
      dsimp only
      rw [Function.update_self]
      exact ⟨rfl, rfl, rfl⟩
  · intro w' _ q hq
    have herase : q ∈ (m.epochTxBuffer m.processingEpoch).eraseIdx i := by
      rw [← hbufE]
      exact hq
    have hqp : q ≠ p := by
      intro heq
      have hcount := count_eraseIdx hget q
      have hpos := List.count_pos_iff.mpr herase
      have honce := hdeq.once
      rw [if_pos heq, heq] at hcount
      rw [heq] at hpos
      omega
    dsimp only
    rw [hobj q hqp]
    exact h.final w hcb q (List.mem_of_mem_eraseIdx herase)
  · intro e q hq
    rcases mem_handOn.mp hq with hold | ⟨he, rfl⟩
    · have hnot : ¬ (e = m.processingEpoch ∧ q = p) := by
        rintro ⟨rfl, rfl⟩
        exact hdeq.not_carried hold
      exact (hout e q).trans ((if_neg hnot).trans (h.aborted e q hold))
    · obtain rfl : e = m.processingEpoch := by omega
      exact (hout _ q).trans ((if_pos ⟨rfl, rfl⟩).trans (congrArg some hresult))
  · exact h.in_block_takeOut hcb i p
  · exact h.in_committed_takeOut hdeq.not_committed i
  · intro e q hsome
    by_cases hand : e = m.processingEpoch ∧ q = p
    · obtain ⟨rfl, rfl⟩ := hand
      exact Or.inl (mem_handOn.mpr (Or.inr ⟨rfl, rfl⟩))
    · have hsome : (m.takeOut i p).outcome e q ≠ none := hsome
      rw [hout, if_neg hand] at hsome
      rcases h.outcome_some e q hsome with hcarried | hblock | hcommitted
      · exact Or.inl (mem_handOn.mpr (Or.inl hcarried))
      · exact Or.inr (Or.inl hblock)
      · exact Or.inr (Or.inr hcommitted)

theorem Inv.tryDequeue {i : Nat} (hstep : m.step cfg (.tryDequeue i) = some m') :
    ∃ carried', Inv cfg stream s d carried' m' := by
  simp only [TransactionManagerImpl.step] at hstep
  split at hstep
  · rename_i w p hcb hget
    have hfinal := h.final w hcb p (List.mem_of_getElem? hget)
    have hm' : (m.takeOut i p).categorize cfg w p = m' := Option.some.inj hstep
    rcases @categorize_cases cfg (m.takeOut i p) w p hfinal with
      ⟨hreuse, habort, hcase⟩ | ⟨hresult, hcase⟩
    · rw [hcase] at hm'
      subst hm'
      exact ⟨_, h.retry hcb hget hreuse habort⟩
    · rw [hcase] at hm'
      subst hm'
      exact ⟨_, h.commit hcb hget hresult⟩
  · cases hstep

theorem Inv.endOfQueue (hstep : m.step cfg .endOfQueue = some m') :
    Inv cfg stream s d carried m' := by
  simp only [TransactionManagerImpl.step] at hstep
  split at hstep
  · rename_i trWrapper hcb hnil
    cases hstep
    have hne : m.callback ≠ .executing := by rw [hcb]; nofun
    obtain ⟨hretrying, hretryEpoch, -⟩ := callback_categorizing hcb
    have hnext : carried (m.processingEpoch + 1) = trWrapper := by
      rw [h.carried_next, if_neg hne, hretrying]
    -- without reuse nothing is handed on
    have hoff : cfg.reusingAbortTransaction = false → trWrapper = [] :=
      fun hreuse => hnext ▸ h.carried_off hreuse _
    have hwrap : (if cfg.categorizeTransaction = true ∨ cfg.reusingAbortTransaction = true then
        some trWrapper else m.reuseTxWrapper).getD [] = trWrapper := by
      split_ifs with hcase
      · rfl
      · have hreuse : cfg.reusingAbortTransaction = false :=
          Bool.eq_false_iff.mpr fun hr => hcase (Or.inr hr)
        rw [h.wrapper_off hreuse, hoff hreuse]
    refine { h with
      ahead := fun _ => h.ahead hne, sends := ?_, wrapper := nofun, wrapper_off := ?_,
      carried_next := ?_, before := ?_, during := fun _ _ => h.during hne (by rw [hcb]; nofun),
      numbers := ?_, complete := fun _ => h.complete hne, emptied := fun _ => hnil,
      committed_nil := ?_, retrying_reset := ?_, final := nofun }
    · intro e p
      have hsends := h.sends e p
      rw [hretrying, hretryEpoch] at hsends
      change m.sentCount e p + _ + (if e = m.processingEpoch + 1 then (Option.getD _ []).count p
        else 0) = _
      rw [hwrap]
      exact hsends
    · intro hreuse
      exact hwrap.trans (hoff hreuse)
    · exact hnext.trans (hwrap.symm.trans (if_neg nofun).symm)
    · intro e p he
      rcases he with hlt | ⟨-, hexec⟩
      · exact h.before e p (Or.inl hlt)
      · cases hexec
    · have hclosed := h.numbers
      unfold closed at hclosed ⊢
      rw [hcb] at hclosed
      exact hclosed
    · rintro (hexec | hfin)
      · cases hexec
      · cases hfin
    · intro p hp
      have hp : p ∈ Option.getD _ [] := hp
      rw [hwrap] at hp
      have hreset := h.retrying_reset p (hretrying ▸ hp)
      rw [hretryEpoch] at hreset
      exact hreset
  · cases hstep

theorem Inv.generateBlock (hstep : m.step cfg .generateBlock = some m') :
    Inv cfg stream s d carried m' := by
  simp only [TransactionManagerImpl.step] at hstep
  split_ifs at hstep with hcb
  cases hstep
  have hne : m.callback ≠ .executing := by rw [hcb]; nofun
  have hmem : ∀ e b, (e, b) ∈ m.blocks ++ [(m.processingEpoch, m.committed)] →
      (e, b) ∈ m.blocks ∨ e = m.processingEpoch ∧ b = m.committed := by
    intro e b heb
    rcases List.mem_append.mp heb with hold | hnew
    · exact Or.inl hold
    · exact Or.inr (Prod.mk.inj (List.mem_singleton.mp hnew))
  have hretry := callback_categorized (.inl hcb)
  refine { h with
    ahead := fun _ => h.ahead hne, sends := ?_, wrapper := nofun, carried_next := ?_,
    before := ?_, during := fun _ hfin => absurd rfl hfin, after := ?_, numbers := ?_,
    complete := fun _ => h.complete hne, emptied := nofun, committed_nil := fun _ => rfl,
    retrying_reset := ?_, final := nofun, in_block := ?_, in_committed := nofun,
    outcome_some := ?_ }
  · intro e p
    have hsends := h.sends e p
    rw [hretry.1, hretry.2] at hsends
    exact hsends
  · rw [h.carried_next, if_neg hne, hretry.1]
    rfl
  · intro e p he
    rcases he with hlt | ⟨-, hexec⟩
    · exact h.before e p (Or.inl hlt)
    · cases hexec
  · intro e b heb p
    rcases hmem e b heb with hold | ⟨rfl, rfl⟩
    · exact h.after e b hold p
    · have hduring := h.during hne (by rw [hcb]; nofun) p
      rw [h.emptied hcb, List.count_nil, Nat.zero_add] at hduring
      exact hduring
  · have hnum := h.numbers
    have hclosed : m.closed = m.processingEpoch := by
      unfold closed
      rw [hcb]
    have hs := h.start_le
    rw [hclosed] at hnum
    change (m.blocks ++ [(m.processingEpoch, m.committed)]).map Prod.fst =
      List.range' s (m.processingEpoch + 1 - s)
    rw [List.map_append, hnum, show m.processingEpoch + 1 - s = m.processingEpoch - s + 1 by omega,
      List.range'_concat, show s + 1 * (m.processingEpoch - s) = m.processingEpoch by omega]
    rfl
  · intro p hp
    have hreset := h.retrying_reset p (hretry.1 ▸ hp)
    rw [hretry.2] at hreset
    exact hreset
  · intro e b heb p hp
    rcases hmem e b heb with hold | ⟨rfl, rfl⟩
    · exact h.in_block e b hold p hp
    · exact h.in_committed p hp
  · intro e p hout
    rcases h.outcome_some e p hout with hcarried | ⟨b, heb, hp⟩ | ⟨rfl, hp⟩
    · exact Or.inl hcarried
    · exact Or.inr (Or.inl ⟨b, List.mem_append_left _ heb, hp⟩)
    · exact Or.inr (Or.inl ⟨m.committed, List.mem_append_right _ (List.mem_singleton_self _), hp⟩)

theorem Inv.finish (hstep : m.step cfg .finish = some m') : Inv cfg stream s d carried m' := by
  simp only [TransactionManagerImpl.step] at hstep
  split_ifs at hstep with hcb
  cases hstep
  have hne : m.callback ≠ .executing := by rw [hcb]; nofun
  obtain ⟨hahead, hwait⟩ := h.ahead hne
  have hretry := callback_categorized (.inr hcb)
  refine { h with
    start_le := Nat.le_succ_of_le h.start_le, epoch_le := hahead, waiting := hwait,
    ahead := fun hno => absurd rfl hno, reuse_le := ?_, sends := ?_, wrapper := ?_,
    carried_none := ?_, carried_next := ?_, before := ?_, during := fun hno => absurd rfl hno,
    numbers := ?_, complete := fun hno => absurd rfl hno, emptied := nofun,
    committed_nil := fun _ => h.committed_nil (Or.inr hcb), retrying_reset := ?_, final := nofun,
    in_committed := ?_, outcome_some := ?_ }
  · intro hreuse
    obtain ⟨htwo, hone⟩ := h.reuse_le hreuse
    exact ⟨Nat.le_succ_of_le htwo, fun hno => Nat.le_succ_of_le (hone hno)⟩
  · intro hreuse _ _
    obtain ⟨htwo, hone⟩ := h.reuse_le hreuse
    dsimp only
    by_cases hw : m.fetch = .waiting
    · have := hwait hw
      right
      exact ⟨by omega, hw⟩
    · left
      exact hone hw
  · intro e p
    have hsends := h.sends e p
    rw [hretry.1, hretry.2] at hsends
    exact hsends
  · intro e he
    exact h.carried_none e (Nat.lt_of_succ_lt he)
  · rw [if_pos rfl]
    exact h.carried_none _ (Nat.lt_succ_self _)
  · intro e p he
    have hlt : m.processingEpoch < e := by
      rcases he with hlt | ⟨rfl, -⟩
      · exact Nat.lt_of_succ_lt hlt
      · exact Nat.lt_succ_self _
    have hbefore := h.before e p (Or.inl hlt)
    dsimp only
    rw [Function.update_of_ne hlt.ne']
    exact hbefore
  · have hclosed := h.numbers
    unfold closed at hclosed ⊢
    rw [hcb] at hclosed
    exact hclosed
  · intro p hp
    have hreset := h.retrying_reset p (hretry.1 ▸ hp)
    rw [hretry.2] at hreset
    exact hreset
  · intro p hp
    have hp : p ∈ m.committed := hp
    rw [h.committed_nil (Or.inr hcb)] at hp
    cases hp
  · intro e p hout
    rcases h.outcome_some e p hout with hcarried | hblock | ⟨-, hp⟩
    · exact Or.inl hcarried
    · exact Or.inr (Or.inl hblock)
    · rw [h.committed_nil (Or.inr hcb)] at hp
      cases hp

end

end NeuChain.Server.TransactionManagerImpl
