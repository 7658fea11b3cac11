/-
  Which calls of `SmallBankChaincode` keep the balances in range.

  An operation on two numbers of type `int` is exact if the result is an `int`. The functions look
  at what they have computed, or negate the amount first, so a call in which something wraps around
  may still return true.

  * `balances_valid_iff`: a call is right, on balances in range, exactly if nothing that it writes
    would have to be above `INT_MAX`, and `INT_MIN` is not deposited.
-/
import NeuChain.Server.MoneyConservation

namespace NeuChain.Server.SmallBank

open NeuChain.Lib Decimal

/-- A call that may change a balance. -/
inductive Call where
  | updateBalance (fromAccount val : Bytes)
  | updateSaving (fromAccount val : Bytes)
  | sendPayment (fromAccount toAccount amountRaw : Bytes)
  | writeCheck (fromAccount amountRaw : Bytes)
  | amalgamate (fromAccount toAccount : Bytes)
deriving DecidableEq, Repr

namespace Call

def run : Call → CC Bool
  | .updateBalance a val => SmallBank.updateBalance a val
  | .updateSaving a val => SmallBank.updateSaving a val
  | .sendPayment a b amountRaw => SmallBank.sendPayment a b amountRaw
  | .writeCheck a amountRaw => SmallBank.writeCheck a amountRaw
  | .amalgamate a b => SmallBank.amalgamate a b

/-- The sums and differences that a call is to write, as integers. -/
def exact (D : Storage) : Call → List (Bytes × Int)
  | .updateBalance a val => [(checkingKey a, balance D (checkingKey a) + parseInt val)]
  | .updateSaving a val => [(savingKey a, balance D (savingKey a) + parseInt val)]
  | .sendPayment a b amountRaw =>
      [(checkingKey a, balance D (checkingKey a) - parseInt amountRaw),
        (checkingKey b, balance D (checkingKey b) + parseInt amountRaw)]
  | .writeCheck a amountRaw => [(checkingKey a, balance D (checkingKey a) - parseInt amountRaw)]
  | .amalgamate a b =>
      [(savingKey a, balance D (savingKey a) - balance D (savingKey a)),
        (checkingKey b, balance D (checkingKey b) + balance D (savingKey a))]

/-- `INT_MIN` is not deposited, and no sum that is written is above `INT_MAX`. -/
def Fits (D : Storage) : Call → Prop
  | .updateBalance a val =>
      parseInt val ≠ -2 ^ 31 ∧ balance D (checkingKey a) + parseInt val ≤ intMax
  | .updateSaving a val =>
      parseInt val ≠ -2 ^ 31 ∧ balance D (savingKey a) + parseInt val ≤ intMax
  | .sendPayment a b amountRaw =>
      a ≠ b → 0 ≤ parseInt amountRaw → parseInt amountRaw ≤ balance D (checkingKey a) →
        balance D (checkingKey b) + parseInt amountRaw ≤ intMax
  | .writeCheck _ _ => True
  | .amalgamate a b =>
      a ≠ b → balance D (checkingKey b) + balance D (savingKey a) ≤ intMax

end Call

def balanceWrite (row : Bytes × Int) : KVWrite :=
  { table := smallBank, key := row.1, value := Decimal.toString row.2 }

/-- Every balance that is stored is a decimal number of type `int` and not negative. -/
def ValidBalances (D : Storage) : Prop :=
  ∀ key, D.selectDB key smallBank = [] ∨
    (D.selectDB key smallBank).all isDigit = true ∧
      (number (D.selectDB key smallBank) : Int) ≤ intMax

/-- What a call is to do: write exact balances that are in range, or nothing. -/
structure Call.Valid (D : Storage) (h : CCORMHelper) (c : Call) : Prop where
  returnsTrue : ∀ h', c.run.exec D h = (some true, h') →
    h'.kvRWSet.writes = (c.exact D).map balanceWrite ∧
      ∀ row ∈ c.exact D, 0 ≤ row.2 ∧ row.2 ≤ intMax
  returnsFalse : ∀ h', c.run.exec D h = (some false, h') → h'.kvRWSet.writes = []

section

variable {D : Storage} {h : CCORMHelper}

theorem balance_bounds (hD : ValidBalances D) (key : Bytes) :
    0 ≤ balance D key ∧ balance D key ≤ intMax := by
  unfold balance balanceString
  rcases hD key with hnil | ⟨hdigits, hle⟩
  · rw [hnil]
    decide
  · split
    · decide
    · rename_i hne
      obtain ⟨c, s, hcs⟩ := List.exists_cons_of_ne_nil (fun hnil => hne (List.isEmpty_iff.mpr hnil))
      have hc : isDigit c = true := by
        rw [hcs] at hdigits
        exact List.all_eq_true.mp hdigits c List.mem_cons_self
      rw [hcs] at hle ⊢
      unfold intMax at hle ⊢
      unfold parseInt
      rw [strtol_of_digit hc, clamp_of_mem (by omega) (by omega),
        int32_of_mem (by omega) (by omega)]
      omega

/-! ## What a call does -/

/-- The writes of a call, if it returns true: the code's own arithmetic. -/
def Call.outcome (D : Storage) : Call → Option (List (Bytes × Int))
  | .updateBalance a val => deposit (checkingKey a) val
  | .updateSaving a val => deposit (savingKey a) val
  | .sendPayment a b amountRaw =>
      let bal₁ := int32 (balance D (checkingKey a) - parseInt amountRaw)
      if a = b ∨ bal₁ < 0 ∨ parseInt amountRaw < 0 then none
      else some [(checkingKey a, bal₁),
        (checkingKey b, int32 (balance D (checkingKey b) + parseInt amountRaw))]
  | .writeCheck a amountRaw =>
      let bal := int32 (balance D (checkingKey a) - parseInt amountRaw)
      if bal < 0 then none else some [(checkingKey a, bal)]
  | .amalgamate a b =>
      if a = b then none
      else some [(savingKey a, 0),
        (checkingKey b, int32 (balance D (checkingKey b) + balance D (savingKey a)))]
where
  deposit (key val : Bytes) : Option (List (Bytes × Int)) :=
    if parseInt val < 0 ∧ balance D key < int32 (-parseInt val) then none
    else some [(key, int32 (balance D key + parseInt val))]

/-- A balance that was read is written. -/
theorem exec_store (hro : h.readOnly = false) (hw : h.kvRWSet.writes = []) (key : Bytes)
    (value : Int) :
    (do updateLambda key value; return true : CC Bool).exec D (recordRead D h key) =
      (some true, recordWrite (recordRead D h key) key value) := by
  have hnew : ∀ w ∈ (recordRead D h key).kvRWSet.writes, w.key ≠ key := by simp [recordRead, hw]
  rw [CC.exec_bind, exec_updateLambda (h := recordRead D h key) hro hnew]
  rfl

theorem exec_addTo (hro : h.readOnly = false) (hw : h.kvRWSet.writes = []) (key val : Bytes) :
    (addTo key val).exec D h =
      if parseInt val < 0 ∧ balance D key < int32 (-parseInt val) then
        (some false, recordRead D h key)
      else
        (some true,
          recordWrite (recordRead D h key) key (int32 (balance D key + parseInt val))) := by
  unfold addTo
  rw [CC.exec_bind, exec_queryLambda]
  dsimp only
  rw [CC.exec_ite]
  exact if_congr Iff.rfl rfl (exec_store hro hw key _)

theorem exec_writeCheck (hro : h.readOnly = false) (hw : h.kvRWSet.writes = [])
    (a amountRaw : Bytes) :
    (writeCheck a amountRaw).exec D h =
      let bal := int32 (balance D (checkingKey a) - parseInt amountRaw)
      if bal < 0 then (some false, recordRead D h (checkingKey a))
      else (some true, recordWrite (recordRead D h (checkingKey a)) (checkingKey a) bal) := by
  unfold writeCheck
  rw [CC.exec_bind, exec_queryLambda]
  dsimp only
  rw [CC.exec_ite]
  exact if_congr Iff.rfl rfl (exec_store hro hw _ _)

/-- The writes after a call that has returned. -/
def Returns (h : CCORMHelper) (r : Option Bool × CCORMHelper)
    (outcome : Option (List (Bytes × Int))) : Prop :=
  r.1 = some outcome.isSome ∧
    r.2.kvRWSet.writes = h.kvRWSet.writes ++ (outcome.getD []).map balanceWrite

theorem returns_addTo (hro : h.readOnly = false) (hw : h.kvRWSet.writes = []) (key val : Bytes) :
    Returns h ((addTo key val).exec D h) (Call.outcome.deposit D key val) := by
  rw [exec_addTo hro hw]
  unfold Call.outcome.deposit
  split
  · exact ⟨rfl, (List.append_nil _).symm⟩
  · exact ⟨rfl, rfl⟩

/-- One lemma for all calls. -/
theorem returns_run (hro : h.readOnly = false) (hw : h.kvRWSet.writes = []) (c : Call) :
    Returns h (c.run.exec D h) (c.outcome D) := by
  cases c with
  | updateBalance a val => exact returns_addTo hro hw (checkingKey a) val
  | updateSaving a val => exact returns_addTo hro hw (savingKey a) val
  | sendPayment a b amountRaw =>
      simp only [Call.run, Call.outcome]
      by_cases hab : a = b
      · rw [if_pos (Or.inl hab)]
        unfold sendPayment
        rw [if_pos hab]
        exact ⟨rfl, (List.append_nil _).symm⟩
      · rw [exec_sendPayment hro hw hab]
        dsimp only
        by_cases hcheck : int32 (balance D (checkingKey a) - parseInt amountRaw) < 0 ∨
            parseInt amountRaw < 0
        · rw [if_pos hcheck, if_pos (Or.inr hcheck)]
          exact ⟨rfl, (List.append_nil _).symm⟩
        · rw [if_neg hcheck, if_neg (not_or.mpr ⟨hab, hcheck⟩)]
          exact ⟨rfl, List.append_assoc _ _ _⟩
  | writeCheck a amountRaw =>
      simp only [Call.run, Call.outcome]
      rw [exec_writeCheck hro hw]
      dsimp only
      split
      · exact ⟨rfl, (List.append_nil _).symm⟩
      · exact ⟨rfl, rfl⟩
  | amalgamate a b =>
      simp only [Call.run, Call.outcome]
      by_cases hab : a = b
      · rw [if_pos hab]
        unfold amalgamate
        rw [if_pos hab]
        exact ⟨rfl, (List.append_nil _).symm⟩
      · rw [if_neg hab, exec_amalgamate hro hw hab]
        exact ⟨rfl, List.append_assoc _ _ _⟩

/-! ## When the arithmetic is exact -/

theorem parseInt_bounds (s : Bytes) : -2 ^ 31 ≤ parseInt s ∧ parseInt s < 2 ^ 31 := int32_bounds _

/-- The outcome is what it should be, or there is none. -/
def Call.Exact (D : Storage) (c : Call) : Prop :=
  ∀ rows, c.outcome D = some rows →
    rows.map balanceWrite = (c.exact D).map balanceWrite ∧
      ∀ row ∈ c.exact D, 0 ≤ row.2 ∧ row.2 ≤ intMax

theorem valid_iff_exact (hro : h.readOnly = false) (hw : h.kvRWSet.writes = []) (c : Call) :
    c.Valid D h ↔ c.Exact D := by
  obtain ⟨hret, hwrites⟩ := returns_run (D := D) hro hw c
  rw [hw, List.nil_append] at hwrites
  constructor
  · rintro ⟨htrue, -⟩ rows hrows
    rw [hrows] at hret hwrites
    have hexec : c.run.exec D h = (some true, (c.run.exec D h).2) := Prod.ext hret rfl
    have hvalid := htrue _ hexec
    rw [hwrites] at hvalid
    exact hvalid
  · intro hexact
    constructor
    · intro h' hexec
      rw [hexec] at hret hwrites
      cases hrows : c.outcome D with
      | none =>
          rw [hrows] at hret
          cases hret
      | some rows =>
          rw [hrows] at hwrites
          dsimp only [Option.getD_some] at hwrites
          rw [hwrites]
          exact hexact rows hrows
    · intro h' hexec
      rw [hexec] at hret hwrites
      cases hrows : c.outcome D with
      | none =>
          rw [hrows] at hwrites
          exact hwrites
      | some rows =>
          rw [hrows] at hret
          cases hret

theorem exact_deposit_iff {key : Bytes} (val : Bytes)
    (hbal : 0 ≤ balance D key ∧ balance D key ≤ intMax) :
    (∀ rows, Call.outcome.deposit D key val = some rows →
      rows.map balanceWrite = [(key, balance D key + parseInt val)].map balanceWrite ∧
        ∀ row ∈ [(key, balance D key + parseInt val)], 0 ≤ row.2 ∧ row.2 ≤ intMax) ↔
    parseInt val ≠ -2 ^ 31 ∧ balance D key + parseInt val ≤ intMax := by
  have hamount := parseInt_bounds val
  unfold intMax at hbal ⊢
  unfold Call.outcome.deposit
  simp only [List.forall_mem_singleton]
  constructor
  · intro hexact
    by_cases hmin : parseInt val = -2 ^ 31
    · -- the negated amount is the amount, so nothing is refused
      have hneg : int32 (-parseInt val) = -2 ^ 31 := by
        rw [hmin]
        decide
      have hrange := (hexact _ (if_neg (by rw [hneg]; omega))).2
      omega
    · refine ⟨hmin, ?_⟩
      by_cases hrefused : parseInt val < 0 ∧ balance D key < int32 (-parseInt val)
      · omega
      · exact (hexact _ (if_neg hrefused)).2.2
  · rintro ⟨hmin, hsum⟩ rows hrows
    rw [int32_of_mem (z := -parseInt val) (by omega) (by omega)] at hrows
    split at hrows
    · cases hrows
    · cases hrows
      rw [int32_of_mem (by omega) (by omega)]
      exact ⟨rfl, by omega, hsum⟩

theorem exact_iff_fits (hD : ValidBalances D) (c : Call) : c.Exact D ↔ c.Fits D := by
  cases c with
  | updateBalance a val => exact exact_deposit_iff val (balance_bounds hD _)
  | updateSaving a val => exact exact_deposit_iff val (balance_bounds hD _)
  | sendPayment a b amountRaw =>
      have hamount := parseInt_bounds amountRaw
      have ha := balance_bounds hD (checkingKey a)
      have hb := balance_bounds hD (checkingKey b)
      unfold intMax at ha hb
      simp only [Call.Exact, Call.outcome, Call.exact, Call.Fits, List.forall_mem_cons,
        List.not_mem_nil, false_imp_iff, implies_true, and_true]
      unfold intMax
      constructor
      · intro hexact hab hpos henough
        have hbal : int32 (balance D (checkingKey a) - parseInt amountRaw) =
            balance D (checkingKey a) - parseInt amountRaw := int32_of_mem (by omega) (by omega)
        have hpass : ¬ (a = b ∨ int32 (balance D (checkingKey a) - parseInt amountRaw) < 0 ∨
            parseInt amountRaw < 0) := by
          rw [hbal]
          exact not_or.mpr ⟨hab, by omega⟩
        exact (hexact _ (if_neg hpass)).2.2.2
      · intro hfits rows hrows
        split at hrows
        · cases hrows
        · rename_i hpass
          obtain ⟨hab, hbal, hneg⟩ : a ≠ b ∧
              ¬ int32 (balance D (checkingKey a) - parseInt amountRaw) < 0 ∧
              ¬ parseInt amountRaw < 0 := by
            rw [not_or, not_or] at hpass
            exact hpass
          rw [int32_of_mem (by omega) (by omega)] at hbal hrows
          have hsum := hfits hab (by omega) (by omega)
          rw [int32_of_mem (by omega) (by omega)] at hrows
          cases hrows
          exact ⟨rfl, ⟨by omega, by omega⟩, by omega, hsum⟩
  | writeCheck a amountRaw =>
      have hamount := parseInt_bounds amountRaw
      have ha := balance_bounds hD (checkingKey a)
      unfold intMax at ha
      simp only [Call.Exact, Call.outcome, Call.exact, Call.Fits, List.forall_mem_singleton,
        iff_true]
      unfold intMax
      intro rows hrows
      split at hrows
      · cases hrows
      · rename_i hbal
        -- a difference above `INT_MAX` has become negative
        have hexact : int32 (balance D (checkingKey a) - parseInt amountRaw) =
            balance D (checkingKey a) - parseInt amountRaw ∧
            balance D (checkingKey a) - parseInt amountRaw < 2 ^ 31 := by
          unfold int32 at hbal ⊢
          rw [Int.bmod_def] at hbal ⊢
          omega
        rw [hexact.1] at hrows hbal
        cases hrows
        exact ⟨rfl, by omega, by omega⟩
  | amalgamate a b =>
      have ha := balance_bounds hD (savingKey a)
      have hb := balance_bounds hD (checkingKey b)
      unfold intMax at ha hb
      simp only [Call.Exact, Call.outcome, Call.exact, Call.Fits, List.forall_mem_cons,
        List.not_mem_nil, false_imp_iff, implies_true, and_true, Int.sub_self]
      unfold intMax
      constructor
      · intro hexact hab
        exact (hexact _ (if_neg hab)).2.2.2
      · intro hfits rows hrows
        split at hrows
        · cases hrows
        · rename_i hab
          have hsum := hfits hab
          rw [int32_of_mem (by omega) (by omega)] at hrows
          cases hrows
          exact ⟨rfl, ⟨by omega, by omega⟩, by omega, hsum⟩

end

/-- A call on balances in range writes exact balances in range, or returns false and writes nothing,
    exactly if nothing above `INT_MAX` is to be written and `INT_MIN` is not deposited. -/
theorem balances_valid_iff {D : Storage} {h : CCORMHelper} (hD : ValidBalances D)
    (hro : h.readOnly = false) (hw : h.kvRWSet.writes = []) (c : Call) :
    c.Valid D h ↔ c.Fits D := by
  rw [valid_iff_exact hro hw c]
  exact exact_iff_fits hD c

/-- In an empty database every account has 1000. -/
theorem validBalances_empty : ValidBalances fun _ => none := fun _ => Or.inl rfl

theorem balances_valid_withdrawal :
    Call.Valid (fun _ => none) { tid := 1, readOnly := false }
      (.updateBalance (ascii "7") (ascii "-300")) := by
  refine (balances_valid_iff validBalances_empty rfl rfl _).mpr ⟨?_, ?_⟩
  all_goals decide +kernel

/-- A withdrawal of `INT_MIN` and a deposit of `INT_MAX` return true and write negative balances. -/
theorem negative_balances_written :
    ValidBalances (fun _ => none) ∧
    (∀ x ∈ [(Call.updateBalance (ascii "7") (ascii "-2147483648"), ascii "-2147482648"),
        (Call.updateSaving (ascii "7") (ascii "2147483647"), ascii "-2147482649")],
      (x.1.run.exec (fun _ => none) { tid := 1, readOnly := false }).1 = some true ∧
        (x.1.run.exec (fun _ => none) { tid := 1, readOnly := false }).2.kvRWSet.writes.map
          KVWrite.value = [x.2]) ∧
    ¬ Call.Valid (fun _ => none) { tid := 1, readOnly := false }
        (.updateBalance (ascii "7") (ascii "-2147483648")) ∧
    ¬ Call.Valid (fun _ => none) { tid := 1, readOnly := false }
        (.updateSaving (ascii "7") (ascii "2147483647")) := by
  refine ⟨validBalances_empty, by decide +kernel, ?_, ?_⟩
  · intro hvalid
    have hrange := (hvalid.returnsTrue _ rfl).2 _ List.mem_cons_self
    exact absurd hrange (by decide +kernel)
  · intro hvalid
    have hrange := (hvalid.returnsTrue _ rfl).2 _ List.mem_cons_self
    exact absurd hrange (by decide +kernel)

end NeuChain.Server.SmallBank
