/-
  Money is conserved by payments.

  * `money_is_conserved`: through any epochs of `sendPayment` and `amalgamate` transactions between
    the accounts of a set, on one worker or on several under any schedule, all balances of the set
    stay non-negative and their total stays what it was.

  A committed transaction reads the database its epoch started with, so the argument goes through the
  serial order of the committed ones (`Server.serial_order`): one after the other, each moves money between two
  balances (`transfer_moves`, `Sound.move`). Balances that hold less than `INT_MAX` together do not
  overflow when one of them is added to the other.
-/
import NeuChain.Server.ConcurrentEpoch
import NeuChain.Server.SmallBank
import Mathlib.Algebra.BigOperators.Group.Finset.Basic
import Mathlib.Algebra.Order.BigOperators.Group.Finset

namespace NeuChain.Server.SmallBank

open NeuChain.Lib Decimal

variable {reads : Bytes → List Bytes} {next : Nat → Nat} {S : Finset Bytes} {D D' : Storage}
  {t : Transaction} {writes : List KVWrite} {k k₁ k₂ : Bytes} {v₁ v₂ T : Int}

/-! ## Transfers -/

/-- `INT_MAX`. -/
def intMax : Int := 2 ^ 31 - 1

/-- A transaction that calls `sendPayment` or `amalgamate` for two accounts of `S`. -/
structure IsTransfer (reads : Bytes → List Bytes) (S : Finset Bytes) (t : Transaction) : Prop where
  kvRWSet : t.kvRWSet = {}
  call : ∃ a ∈ S, ∃ b ∈ S,
    (t.transactionPayload.header = ascii "sendPayment" ∧
      ∃ amount, reads t.transactionPayload.payload = [a, b, amount]) ∨
    (t.transactionPayload.header = ascii "amalgamate" ∧
      reads t.transactionPayload.payload = [a, b])

/-- The keys of the balances of `S`. -/
def keysOf (S : Finset Bytes) : Finset Bytes := S.image savingKey ∪ S.image checkingKey

/-- Two balances are written, and hold together what they held before. -/
structure Moves (D : Storage) (S : Finset Bytes) (writes : List KVWrite) (k₁ k₂ : Bytes)
    (v₁ v₂ : Int) : Prop where
  mem₁ : k₁ ∈ keysOf S
  mem₂ : k₂ ∈ keysOf S
  ne : k₁ ≠ k₂
  writes_eq : writes = [{ table := smallBank, key := k₁, value := Decimal.toString v₁ },
    { table := smallBank, key := k₂, value := Decimal.toString v₂ }]
  kept : 0 ≤ balance D k₁ → 0 ≤ balance D k₂ → balance D k₁ + balance D k₂ ≤ intMax →
    0 ≤ v₁ ∧ 0 ≤ v₂ ∧ v₁ + v₂ = balance D k₁ + balance D k₂

theorem savingKey_mem {a : Bytes} (ha : a ∈ S) : savingKey a ∈ keysOf S :=
  Finset.mem_union_left _ (Finset.mem_image_of_mem _ ha)

theorem checkingKey_mem {a : Bytes} (ha : a ∈ S) : checkingKey a ∈ keysOf S :=
  Finset.mem_union_right _ (Finset.mem_image_of_mem _ ha)

theorem moved_writes {h : CCORMHelper} (hw : h.kvRWSet = {}) :
    (moved D h k₁ k₂ v₁ v₂).kvRWSet.writes =
      [{ table := smallBank, key := k₁, value := Decimal.toString v₁ },
        { table := smallBank, key := k₂, value := Decimal.toString v₂ }] := by
  unfold moved recordWrite recordRead
  rw [hw]
  rfl

theorem moves_amalgamate {a b : Bytes} (ha : a ∈ S) (hb : b ∈ S) {h : CCORMHelper}
    (hro : h.readOnly = false) (hw : h.kvRWSet = {})
    (hret : ((amalgamate a b).exec D h).1.getD false = true) :
    ∃ k₁ k₂ v₁ v₂, Moves D S ((amalgamate a b).exec D h).2.kvRWSet.writes k₁ k₂ v₁ v₂ := by
  by_cases hab : a = b
  · unfold amalgamate at hret
    rw [if_pos hab] at hret
    cases hret
  · rw [exec_amalgamate hro (by rw [hw]) hab]
    refine ⟨_, _, _, _, savingKey_mem ha, checkingKey_mem hb, savingKey_ne_checkingKey a b,
      moved_writes hw, fun h₁ h₂ hsum => ?_⟩
    unfold intMax at hsum
    rw [int32_of_mem (by omega) (by omega)]
    omega

theorem moves_sendPayment {a b amountRaw : Bytes} (ha : a ∈ S) (hb : b ∈ S) {h : CCORMHelper}
    (hro : h.readOnly = false) (hw : h.kvRWSet = {})
    (hret : ((sendPayment a b amountRaw).exec D h).1.getD false = true) :
    ∃ k₁ k₂ v₁ v₂, Moves D S ((sendPayment a b amountRaw).exec D h).2.kvRWSet.writes k₁ k₂ v₁ v₂ := by
  by_cases hab : a = b
  · unfold sendPayment at hret
    rw [if_pos hab] at hret
    cases hret
  · rw [exec_sendPayment hro (by rw [hw]) hab] at hret ⊢
    dsimp only at hret ⊢
    split at hret
    · cases hret
    · rename_i hcheck
      rw [if_neg hcheck]
      refine ⟨_, _, _, _, checkingKey_mem ha, checkingKey_mem hb, checkingKey_injective.ne hab,
        moved_writes hw, fun h₁ h₂ hsum => ?_⟩
      unfold intMax at hsum
      have hamount : parseInt amountRaw < 2 ^ 31 := (int32_bounds (strtol amountRaw)).2
      -- the amount is not negative, so the difference does not overflow
      rw [int32_of_mem (by omega) (by omega)] at hcheck ⊢
      rw [int32_of_mem (by omega) (by omega)]
      omega

/-- What a successful transfer writes. -/
theorem transfer_moves (ht : IsTransfer reads S t) (hro : t.readOnlyFlag = false)
    (hret : (smallBankChaincode reads next t D).ret = true) :
    ∃ k₁ k₂ v₁ v₂,
      Moves D S (smallBankChaincode reads next t D).kvRWSet.writes k₁ k₂ v₁ v₂ := by
  obtain ⟨hset, a, ha, b, hb, hcall⟩ := ht
  unfold smallBankChaincode chaincodeOf at hret ⊢
  dsimp only at hret ⊢
  rcases hcall with ⟨hname, amount, hargs⟩ | ⟨hname, hargs⟩
  · have hinvoke : invokeChaincode reads next t.transactionPayload = sendPayment a b amount := by
      unfold invokeChaincode invokeFunction
      rw [hname, hargs]
      rfl
    rw [hinvoke] at hret ⊢
    exact moves_sendPayment ha hb hro hset hret
  · have hinvoke : invokeChaincode reads next t.transactionPayload = amalgamate a b := by
      unfold invokeChaincode invokeFunction
      rw [hname, hargs]
      rfl
    rw [hinvoke] at hret ⊢
    exact moves_amalgamate ha hb hro hset hret

/-! ## The total -/

/-- All the money of the accounts of `S`. -/
def total (S : Finset Bytes) (D : Storage) : Int :=
  ∑ a ∈ S, (balance D (savingKey a) + balance D (checkingKey a))

/-- No balance of `S` is negative, and together they are `T`. -/
structure Sound (S : Finset Bytes) (T : Int) (D : Storage) : Prop where
  nonneg : ∀ a ∈ S, 0 ≤ balance D (savingKey a) ∧ 0 ≤ balance D (checkingKey a)
  total_eq : total S D = T

theorem total_eq_sum_keysOf (S : Finset Bytes) (D : Storage) :
    total S D = ∑ k ∈ keysOf S, balance D k := by
  have hdisjoint : Disjoint (S.image savingKey) (S.image checkingKey) := by
    rw [Finset.disjoint_left]
    intro k hsaving hchecking
    obtain ⟨a, -, rfl⟩ := Finset.mem_image.mp hsaving
    obtain ⟨b, -, heq⟩ := Finset.mem_image.mp hchecking
    exact savingKey_ne_checkingKey a b heq.symm
  unfold total keysOf
  rw [Finset.sum_add_distrib, Finset.sum_union hdisjoint,
    Finset.sum_image savingKey_injective.injOn, Finset.sum_image checkingKey_injective.injOn]

theorem nonneg_iff_keysOf :
    (∀ a ∈ S, 0 ≤ balance D (savingKey a) ∧ 0 ≤ balance D (checkingKey a)) ↔
      ∀ k ∈ keysOf S, 0 ≤ balance D k := by
  constructor
  · intro hall k hk
    rcases Finset.mem_union.mp hk with hsaving | hchecking
    · obtain ⟨a, ha, rfl⟩ := Finset.mem_image.mp hsaving
      exact (hall a ha).1
    · obtain ⟨a, ha, rfl⟩ := Finset.mem_image.mp hchecking
      exact (hall a ha).2
  · exact fun hall a ha => ⟨hall _ (savingKey_mem ha), hall _ (checkingKey_mem ha)⟩

/-- Two terms taken out of a sum. -/
theorem sum_eq_two_add {K : Finset Bytes} {f : Bytes → Int} (h₁ : k₁ ∈ K) (h₂ : k₂ ∈ K)
    (hne : k₁ ≠ k₂) : ∑ k ∈ K, f k = f k₁ + f k₂ + ∑ k ∈ (K.erase k₁).erase k₂, f k := by
  have h₂' : k₂ ∈ K.erase k₁ := Finset.mem_erase.mpr ⟨hne.symm, h₂⟩
  rw [← Finset.add_sum_erase K f h₁, ← Finset.add_sum_erase (K.erase k₁) f h₂', add_assoc]

theorem balance_put_self {v : Int} (hlow : 0 ≤ v) (hhigh : v ≤ intMax) :
    balance (put D ((smallBank, k), some (Decimal.toString v))) k = v := by
  have hselect : Storage.selectDB (put D ((smallBank, k), some (Decimal.toString v))) k smallBank =
      Decimal.toString v := by
    unfold Storage.selectDB put
    rw [Function.update_self]
    rfl
  have hne : (Decimal.toString v).isEmpty = false :=
    List.isEmpty_eq_false_iff.mpr (Decimal.toString_ne_nil v)
  unfold balance balanceString
  rw [hselect, if_neg (by rw [hne]; exact Bool.false_ne_true)]
  unfold intMax at hhigh
  exact parseInt_toString (by omega) (by omega)

theorem balance_put_of_ne {k' value : Bytes} (hne : k ≠ k') :
    balance (put D ((smallBank, k'), some value)) k = balance D k := by
  have hselect : Storage.selectDB (put D ((smallBank, k'), some value)) k smallBank =
      D.selectDB k smallBank := by
    unfold Storage.selectDB
    rw [put_apply_of_ne]
    exact fun heq => hne (congrArg Prod.snd heq).symm
  unfold balance balanceString
  rw [hselect]

/-- Moving money between two balances keeps the total. -/
theorem Sound.move (h : Sound S T D) (hT : T ≤ intMax) (hm : Moves D S writes k₁ k₂ v₁ v₂) :
    Sound S T (putAll D (writes.map writeEffect)) := by
  have hnonneg := nonneg_iff_keysOf.mp h.nonneg
  have hsum := h.total_eq
  rw [total_eq_sum_keysOf, sum_eq_two_add hm.mem₁ hm.mem₂ hm.ne] at hsum
  have hrest : 0 ≤ ∑ k ∈ ((keysOf S).erase k₁).erase k₂, balance D k := by
    refine Finset.sum_nonneg fun k hk => hnonneg k ?_
    exact Finset.mem_of_mem_erase (Finset.mem_of_mem_erase hk)
  obtain ⟨hv₁, hv₂, hkept⟩ := hm.kept (hnonneg k₁ hm.mem₁) (hnonneg k₂ hm.mem₂) (by omega)
  have hD : putAll D (writes.map writeEffect) =
      put (put D ((smallBank, k₁), some (Decimal.toString v₁)))
        ((smallBank, k₂), some (Decimal.toString v₂)) := by
    rw [hm.writes_eq]
    rfl
  have hnew₂ : balance (putAll D (writes.map writeEffect)) k₂ = v₂ := by
    rw [hD]
    exact balance_put_self hv₂ (by omega)
  have hnew₁ : balance (putAll D (writes.map writeEffect)) k₁ = v₁ := by
    rw [hD, balance_put_of_ne hm.ne]
    exact balance_put_self hv₁ (by omega)
  have hother : ∀ k, k ≠ k₁ → k ≠ k₂ →
      balance (putAll D (writes.map writeEffect)) k = balance D k := by
    intro k hk₁ hk₂
    rw [hD, balance_put_of_ne hk₂, balance_put_of_ne hk₁]
  refine ⟨nonneg_iff_keysOf.mpr fun k hk => ?_, ?_⟩
  · by_cases hk₂ : k = k₂
    · rw [hk₂, hnew₂]
      exact hv₂
    · by_cases hk₁ : k = k₁
      · rw [hk₁, hnew₁]
        exact hv₁
      · rw [hother k hk₁ hk₂]
        exact hnonneg k hk
  · rw [total_eq_sum_keysOf, sum_eq_two_add hm.mem₁ hm.mem₂ hm.ne, hnew₁, hnew₂, hkept, ← hsum]
    congr 1
    refine Finset.sum_congr rfl fun k hk => ?_
    obtain ⟨hk₂, hk⟩ := Finset.mem_erase.mp hk
    exact hother k (Finset.ne_of_mem_erase hk) hk₂

/-! ## Epochs -/

theorem Sound.serialRun (hT : T ≤ intMax) {order : List Transaction}
    (horder : ∀ t ∈ order, IsTransfer reads S t ∧ t.readOnlyFlag = false) (h : Sound S T D) :
    Sound S T ((chaincodePrograms (smallBankChaincode reads next)).serialRun D order).1 := by
  induction order generalizing D with
  | nil => exact h
  | cons t order ih =>
      obtain ⟨ht, hro⟩ := horder t List.mem_cons_self
      refine ih (fun u hu => horder u (List.mem_cons_of_mem t hu)) ?_
      change Sound S T (putAll D (if (smallBankChaincode reads next t D).ret then
        (smallBankChaincode reads next t D).kvRWSet.writes.map writeEffect else []))
      split
      · rename_i hret
        obtain ⟨k₁, k₂, v₁, v₂, hm⟩ := transfer_moves ht hro hret
        exact h.move hT hm
      · exact h

theorem Sound.runEpoch (hT : T ≤ intMax) {e : Epoch} {s s' : ServerState}
    {workloads final : List (List Transaction)} (hb : EpochBatch e workloads.flatten)
    (ht : ∀ t ∈ workloads.flatten, IsTransfer reads S t) (h : Sound S T s.db.storage)
    (hrun : Server.runEpoch (smallBankChaincode reads next) s workloads = some (s', final)) :
    Sound S T s'.db.storage := by
  obtain ⟨s₁, final₁, hrun₁, -, hst⟩ := runEpoch_eq (smallBank_twoFieldTables reads next) hb
  rw [hrun₁] at hrun
  cases hrun
  have hr : Reserved (smallBankChaincode reads next) s.db.storage workloads.flatten
      (reservations (smallBankChaincode reads next) s e workloads.flatten) :=
    reserved_reservations hb.tid_ne_zero
  have hnd : ((workloads.flatten.filter (Commits (smallBankChaincode reads next) s.db.storage
      (reservations (smallBankChaincode reads next) s e workloads.flatten))).map
        Transaction.tid).Nodup := hb.tids.sublist (List.filter_sublist.map _)
  obtain ⟨order, hperm, hser⟩ := serial_order (smallBank_localReads reads next) hr hnd
    fun t ht => by simpa using List.mem_filter.mp ht
  have horder : ∀ t ∈ order, IsTransfer reads S t ∧ t.readOnlyFlag = false := by
    intro t hmem
    have hin := List.mem_of_mem_filter (hperm.mem_iff.mp hmem)
    exact ⟨ht t hin, hb.writable t hin⟩
  have hsound : Sound S T ((chaincodePrograms (smallBankChaincode reads next)).serialRun
      s.db.storage order).1 := h.serialRun hT horder
  rw [hser] at hsound
  rw [hst]
  exact hsound

/-- An epoch is executed: workload by workload, or by concurrent workers under some schedule. -/
inductive EpochRuns (cc : Chaincode) (workloads : List (List Transaction)) (s : ServerState) :
    ServerState → Prop where
  | sequential {s' : ServerState} {final : List (List Transaction)}
      (hrun : Server.runEpoch cc s workloads = some (s', final)) : EpochRuns cc workloads s s'
  | concurrent {e : Epoch} {as as' : List (Nat × Bool)} {m : EpochState} (hfresh : s.Fresh e)
      (hb : EpochBatch e workloads.flatten) (hrun : runConcurrent cc s workloads as as' = some m) :
      EpochRuns cc workloads s m.toServerState

/-- One epoch after the other. -/
inductive EpochsRun (cc : Chaincode) :
    ServerState → List (List (List Transaction)) → ServerState → Prop where
  | nil {s : ServerState} : EpochsRun cc s [] s
  | cons {s s₁ s' : ServerState} {workloads : List (List Transaction)}
      {rest : List (List (List Transaction))} (hfirst : EpochRuns cc workloads s s₁)
      (hrest : EpochsRun cc s₁ rest s') : EpochsRun cc s (workloads :: rest) s'

/-- An epoch of transfers between accounts of `S`. -/
def TransferEpoch (reads : Bytes → List Bytes) (S : Finset Bytes)
    (workloads : List (List Transaction)) : Prop :=
  (∃ e, EpochBatch e workloads.flatten) ∧ ∀ t ∈ workloads.flatten, IsTransfer reads S t

theorem Sound.epochRuns (hT : T ≤ intMax) {s s' : ServerState}
    {workloads : List (List Transaction)} (hw : TransferEpoch reads S workloads)
    (h : Sound S T s.db.storage)
    (hrun : EpochRuns (smallBankChaincode reads next) workloads s s') :
    Sound S T s'.db.storage := by
  obtain ⟨⟨e, hb⟩, ht⟩ := hw
  cases hrun with
  | sequential hrun => exact h.runEpoch hT hb ht hrun
  | concurrent hfresh hb' hrun =>
      -- any schedule leaves the storage that one worker would leave
      obtain ⟨r, final, hseq, hst, -⟩ := runConcurrent_refines
        (smallBank_twoFieldTables reads next) hb' hfresh hrun (List.Perm.refl _)
      rw [hst]
      exact h.runEpoch hT hb ht hseq

theorem Sound.epochsRun (hT : T ≤ intMax) {s s' : ServerState}
    {epochs : List (List (List Transaction))} (hepochs : ∀ w ∈ epochs, TransferEpoch reads S w)
    (h : Sound S T s.db.storage)
    (hrun : EpochsRun (smallBankChaincode reads next) s epochs s') : Sound S T s'.db.storage := by
  induction hrun with
  | nil => exact h
  | cons hfirst _ ih =>
      have hfirst' := h.epochRuns hT (hepochs _ List.mem_cons_self) hfirst
      exact ih (fun w hw => hepochs w (List.mem_cons_of_mem _ hw)) hfirst'

theorem epochsRun_exists (s : ServerState) {epochs : List (List (List Transaction))}
    (hepochs : ∀ w ∈ epochs, TransferEpoch reads S w) :
    ∃ s', EpochsRun (smallBankChaincode reads next) s epochs s' := by
  induction epochs generalizing s with
  | nil => exact ⟨s, .nil⟩
  | cons workloads rest ih =>
      obtain ⟨⟨e, hb⟩, -⟩ := hepochs workloads List.mem_cons_self
      obtain ⟨s₁, final, hrun, -⟩ := runEpoch_eq (smallBank_twoFieldTables reads next) hb
      obtain ⟨s', hrest⟩ := ih s₁ fun w hw => hepochs w (List.mem_cons_of_mem _ hw)
      exact ⟨s', .cons (.sequential hrun) hrest⟩

/-- Payments between the accounts of `S` never lose or make money, and no balance gets negative. -/
theorem money_is_conserved {s : ServerState} {epochs : List (List (List Transaction))}
    (hnonneg : ∀ a ∈ S, 0 ≤ balance s.db.storage (savingKey a) ∧
      0 ≤ balance s.db.storage (checkingKey a))
    (htotal : total S s.db.storage ≤ intMax)
    (hepochs : ∀ workloads ∈ epochs, TransferEpoch reads S workloads) :
    (∃ s', EpochsRun (smallBankChaincode reads next) s epochs s') ∧
      ∀ s', EpochsRun (smallBankChaincode reads next) s epochs s' →
        (∀ a ∈ S, 0 ≤ balance s'.db.storage (savingKey a) ∧
          0 ≤ balance s'.db.storage (checkingKey a)) ∧
        total S s'.db.storage = total S s.db.storage := by
  refine ⟨epochsRun_exists s hepochs, fun s' hrun => ?_⟩
  have hsound : Sound S (total S s.db.storage) s.db.storage := ⟨hnonneg, rfl⟩
  have hsound' := hsound.epochsRun htotal hepochs hrun
  exact ⟨hsound'.nonneg, hsound'.total_eq⟩

/-- A payload of one byte, for three fixed calls. -/
def threeCalls : Bytes → List Bytes
  | [0] => [[1], [2], ascii "300"]
  | [1] => [[2], [1], ascii " +50 and more"]
  | _ => [[1], [2]]

def callOf (epoch tid : Nat) (header : String) (i : UInt8) : Transaction :=
  { epoch := epoch
    tid := tid
    readOnlyFlag := false
    transactionPayload := { header := ascii header, payload := [i] } }

/-- Two payments that conflict, and an `amalgamate` in the next epoch. -/
def threePayments : List (List (List Transaction)) :=
  [[[callOf 1 1 "sendPayment" 0], [callOf 1 2 "sendPayment" 1]], [[callOf 2 3 "amalgamate" 2]]]

theorem threePayments_transfer :
    ∀ workloads ∈ threePayments, TransferEpoch threeCalls {[1], [2]} workloads := by
  have hone : ([1] : Bytes) ∈ ({[1], [2]} : Finset Bytes) := by decide
  have htwo : ([2] : Bytes) ∈ ({[1], [2]} : Finset Bytes) := by decide
  refine List.forall_mem_cons.mpr ⟨⟨⟨1, by decide, by decide, by decide, by decide⟩, ?_⟩,
    List.forall_mem_singleton.mpr ⟨⟨2, by decide, by decide, by decide, by decide⟩, ?_⟩⟩
  · refine List.forall_mem_cons.mpr ⟨⟨rfl, [1], hone, [2], htwo, Or.inl ⟨rfl, _, rfl⟩⟩,
      List.forall_mem_singleton.mpr ⟨rfl, [2], htwo, [1], hone, Or.inl ⟨rfl, _, rfl⟩⟩⟩
  · exact List.forall_mem_singleton.mpr ⟨rfl, [1], hone, [2], htwo, Or.inr ⟨rfl, rfl⟩⟩

theorem money_is_conserved_three :
    ∃ s', EpochsRun (smallBankChaincode threeCalls fun _ => 0)
        { db := { storage := fun _ => none } } threePayments s' ∧
      total {[1], [2]} s'.db.storage = 4000 := by
  have hbalance : ∀ k, balance (fun _ => none) k = 1000 := fun _ =>
    show parseInt (Decimal.toString 1000) = 1000 from parseInt_toString (by decide) (by decide)
  have htotal : total {[1], [2]} (fun _ => none) = 4000 := by
    unfold total
    simp only [hbalance]
    rfl
  obtain ⟨⟨s', hrun⟩, hall⟩ := @money_is_conserved threeCalls (fun _ => 0) {[1], [2]}
    { db := { storage := fun _ => none } } threePayments
    (fun a _ => by
      rw [hbalance, hbalance]
      decide)
    (by
      rw [htotal]
      decide)
    threePayments_transfer
  exact ⟨s', hrun, (hall s' hrun).2.trans htotal⟩

end NeuChain.Server.SmallBank
