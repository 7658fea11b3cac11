/-
  `SmallBankChaincode`: accounts with a saving and a checking balance, kept as decimal strings.

  A balance that is missing, or stored as an empty string, is `BALANCE`. Balances and amounts go
  through `strtol` and a cast to `int`. Arithmetic on `int` is taken modulo `2^32`; where that
  happens with a negative amount, the function returns false whatever the difference is.

  The message with the arguments is parsed by protobuf and what `Random` returns is left open: both
  are parameters (`reads`, `next`).

  * `smallBank_localReads`: what a transaction does depends only on the balances it records as read.
  * `exec_sendPayment`, `exec_amalgamate`: what the two functions that move money do.
-/
import NeuChain.Server.ORM

namespace NeuChain.Server.SmallBank

open NeuChain.Lib Decimal

/-! ## The model -/

def BALANCE : Int := 1000

def savingTab : Bytes := ascii "saving"

def checkingTab : Bytes := ascii "checking"

/-- The table of the balances. -/
def smallBank : Bytes := ascii "small_bank"

def savingKey (account : Bytes) : Bytes := savingTab ++ ascii "_" ++ account

def checkingKey (account : Bytes) : Bytes := checkingTab ++ ascii "_" ++ account

/-- The value an `int` has after a cast or an operation. -/
def int32 (z : Int) : Int := z.bmod (2 ^ 32)

/-- `static_cast<int>(strtol(s.data(), nullptr, 10))`. -/
def parseInt (s : Bytes) : Int := int32 (strtol s)

def queryLambda (key : Bytes) : CC Bytes := selectOr smallBank (Decimal.toString BALANCE) key

def updateLambda (key : Bytes) (value : Int) : CC Unit :=
  insert smallBank key (Decimal.toString value)

def query (account : Bytes) : CC Bool := do
  let _ ← queryLambda (savingKey account)
  let _ ← queryLambda (checkingKey account)
  return true

def amalgamate (fromAccount toAccount : Bytes) : CC Bool := do
  if fromAccount = toAccount then return false
  else
    let srcBalStr ← queryLambda (savingKey fromAccount)
    let destBalStr ← queryLambda (checkingKey toAccount)
    updateLambda (savingKey fromAccount) 0
    updateLambda (checkingKey toAccount) (int32 (parseInt destBalStr + parseInt srcBalStr))
    return true

/-- `updateBalance` and `updateSaving`, which differ in the key. -/
def addTo (key : Bytes) (val : Bytes) : CC Bool := do
  let balStr ← queryLambda key
  let balance := parseInt balStr
  let amount := parseInt val
  if amount < 0 ∧ balance < int32 (-amount) then return false
  else
    updateLambda key (int32 (balance + amount))
    return true

def updateBalance (fromAccount val : Bytes) : CC Bool := addTo (checkingKey fromAccount) val

def updateSaving (fromAccount val : Bytes) : CC Bool := addTo (savingKey fromAccount) val

def sendPayment (fromAccount toAccount amountRaw : Bytes) : CC Bool := do
  if fromAccount = toAccount then return false
  else
    let balStr1 ← queryLambda (checkingKey fromAccount)
    let balStr2 ← queryLambda (checkingKey toAccount)
    let amount := parseInt amountRaw
    let bal1 := int32 (parseInt balStr1 - amount)
    if bal1 < 0 ∨ amount < 0 then return false
    else
      let bal2 := int32 (parseInt balStr2 + amount)
      updateLambda (checkingKey fromAccount) bal1
      updateLambda (checkingKey toAccount) bal2
      return true

def writeCheck (fromAccount amountRaw : Bytes) : CC Bool := do
  let balStr1 ← queryLambda (checkingKey fromAccount)
  let balance := int32 (parseInt balStr1 - parseInt amountRaw)
  if balance < 0 then return false
  else
    updateLambda (checkingKey fromAccount) balance
    return true

/-- `InitFunc`: first the checking balances, then the saving balances. -/
def initFunc (next : Nat → Nat) : CC Bool := do
  let balance (i : Nat) : Bytes := natToString (next i % 100)
  insertRows smallBank
    ((List.range 10000).map fun i => (checkingKey (natToString i), balance i))
  insertRows smallBank
    ((List.range 10000).map fun i => (savingKey (natToString i), balance (10000 + i)))
  return true

/-- `InvokeChaincode`, with the arguments that are left of the payload. -/
def invokeFunction (next : Nat → Nat) (chaincodeName : Bytes) (realArgs : List Bytes) : CC Bool :=
  let arg (i : Nat) : Bytes := realArgs.getD i []
  if chaincodeName = ascii "amalgamate" then amalgamate (arg 0) (arg 1)
  else if chaincodeName = ascii "getBalance" then query (arg 0)
  else if chaincodeName = ascii "updateBalance" then updateBalance (arg 0) (arg 1)
  else if chaincodeName = ascii "updateSaving" then updateSaving (arg 0) (arg 1)
  else if chaincodeName = ascii "sendPayment" then sendPayment (arg 0) (arg 1) (arg 2)
  else if chaincodeName = ascii "writeCheck" then writeCheck (arg 0) (arg 1)
  else if chaincodeName = ascii "create_data" then initFunc next
  else pure false

def invokeChaincode (reads : Bytes → List Bytes) (next : Nat → Nat)
    (payload : TransactionPayload) : CC Bool :=
  invokeFunction next payload.header (reads payload.payload)

def smallBankChaincode (reads : Bytes → List Bytes) (next : Nat → Nat) : Chaincode :=
  chaincodeOf (invokeChaincode reads next)

/-! ## Reading and writing a balance -/

section

variable {D : Storage} {h : CCORMHelper} {key account : Bytes} {value : Int}

/-- The string that `queryLambda` returns. -/
def balanceString (D : Storage) (key : Bytes) : Bytes :=
  if (D.selectDB key smallBank).isEmpty then Decimal.toString BALANCE
  else D.selectDB key smallBank

def balance (D : Storage) (key : Bytes) : Int := parseInt (balanceString D key)

def recordRead (D : Storage) (h : CCORMHelper) (key : Bytes) : CCORMHelper :=
  { h with kvRWSet := { h.kvRWSet with
      reads := h.kvRWSet.reads ++
        [{ table := smallBank, key := key, value := D.selectDB key smallBank }] } }

theorem exec_queryLambda :
    (queryLambda key).exec D h = (some (balanceString D key), recordRead D h key) :=
  exec_selectOr

def recordWrite (h : CCORMHelper) (key : Bytes) (value : Int) : CCORMHelper :=
  { h with kvRWSet := { h.kvRWSet with
      writes := h.kvRWSet.writes ++
        [{ table := smallBank, key := key, value := Decimal.toString value }] } }

theorem exec_updateLambda (hro : h.readOnly = false) (hnew : ∀ w ∈ h.kvRWSet.writes, w.key ≠ key) :
    (updateLambda key value).exec D h = (some (), recordWrite h key value) := by
  unfold updateLambda recordWrite
  rw [exec_insert, if_neg]
  rintro (htrue | hany)
  · rw [hro] at htrue
    cases htrue
  · obtain ⟨w, hw, heq⟩ := List.any_eq_true.mp hany
    exact hnew w hw (of_decide_eq_true heq)

/-- The keys of the two balances of an account. -/
theorem savingKey_ne_checkingKey (a b : Bytes) : savingKey a ≠ checkingKey b := by
  intro heq
  have hhead := congrArg List.head? heq
  cases hhead

theorem savingKey_injective : Function.Injective savingKey :=
  fun _ _ heq => List.append_cancel_left heq

theorem checkingKey_injective : Function.Injective checkingKey :=
  fun _ _ heq => List.append_cancel_left heq

end

/-! ## The functions are made of the calls of the helper -/

section

variable {P : (α : Type) → CC α → Prop} (hP : CC.Closed P)

include hP

theorem queryLambda_closed (key : Bytes) : P Bytes (queryLambda key) := hP.selectOr _ _ key

theorem updateLambda_closed (key : Bytes) (value : Int) : P Unit (updateLambda key value) :=
  hP.insert _ _ _

theorem addTo_closed (key val : Bytes) : P Bool (addTo key val) :=
  hP.bind (queryLambda_closed hP key) fun _ =>
    hP.ite (hP.pure false) (hP.bind (updateLambda_closed hP _ _) fun _ => hP.pure true)

theorem amalgamate_closed (a b : Bytes) : P Bool (amalgamate a b) :=
  hP.ite (hP.pure false) <|
    hP.bind (queryLambda_closed hP _) fun _ => hP.bind (queryLambda_closed hP _) fun _ =>
      hP.bind (updateLambda_closed hP _ _) fun _ =>
        hP.bind (updateLambda_closed hP _ _) fun _ => hP.pure true

theorem sendPayment_closed (a b amountRaw : Bytes) : P Bool (sendPayment a b amountRaw) :=
  hP.ite (hP.pure false) <|
    hP.bind (queryLambda_closed hP _) fun _ => hP.bind (queryLambda_closed hP _) fun _ =>
      hP.ite (hP.pure false) <|
        hP.bind (updateLambda_closed hP _ _) fun _ =>
          hP.bind (updateLambda_closed hP _ _) fun _ => hP.pure true

theorem writeCheck_closed (a amountRaw : Bytes) : P Bool (writeCheck a amountRaw) :=
  hP.bind (queryLambda_closed hP _) fun _ =>
    hP.ite (hP.pure false) (hP.bind (updateLambda_closed hP _ _) fun _ => hP.pure true)

theorem query_closed (account : Bytes) : P Bool (query account) :=
  hP.bind (queryLambda_closed hP _) fun _ => hP.bind (queryLambda_closed hP _) fun _ =>
    hP.pure true

theorem initFunc_closed (next : Nat → Nat) : P Bool (initFunc next) :=
  hP.bind (hP.insertRows _ _) fun _ => hP.bind (hP.insertRows _ _) fun _ => hP.pure true

theorem invokeFunction_closed (next : Nat → Nat) (chaincodeName : Bytes) (realArgs : List Bytes) :
    P Bool (invokeFunction next chaincodeName realArgs) := by
  unfold invokeFunction
  exact hP.ite (amalgamate_closed hP _ _) <| hP.ite (query_closed hP _) <|
    hP.ite (addTo_closed hP _ _) <| hP.ite (addTo_closed hP _ _) <|
      hP.ite (sendPayment_closed hP _ _ _) <| hP.ite (writeCheck_closed hP _ _) <|
        hP.ite (initFunc_closed hP next) (hP.pure false)

end

theorem invokeChaincode_proper (reads : Bytes → List Bytes) (next : Nat → Nat)
    (payload : TransactionPayload) : (invokeChaincode reads next payload).Proper :=
  invokeFunction_closed proper_closed next _ _

theorem smallBank_localReads (reads : Bytes → List Bytes) (next : Nat → Nat) :
    (smallBankChaincode reads next).LocalReads :=
  chaincodeOf_localReads (invokeChaincode_proper reads next)

theorem smallBank_twoFieldTables (reads : Bytes → List Bytes) (next : Nat → Nat) :
    (smallBankChaincode reads next).TwoFieldTables :=
  chaincodeOf_twoFieldTables (invokeChaincode_proper reads next)

/-! ## Moving money -/

section

variable {D : Storage} {h : CCORMHelper} {k₁ k₂ a b amountRaw : Bytes} {v₁ v₂ : Int}

/-- The helper after two balances were read and then written. -/
def moved (D : Storage) (h : CCORMHelper) (k₁ k₂ : Bytes) (v₁ v₂ : Int) : CCORMHelper :=
  recordWrite (recordWrite (recordRead D (recordRead D h k₁) k₂) k₁ v₁) k₂ v₂

theorem exec_moves (hro : h.readOnly = false) (hw : h.kvRWSet.writes = []) (hne : k₁ ≠ k₂) :
    (do updateLambda k₁ v₁; updateLambda k₂ v₂; return true : CC Bool).exec D h =
      (some true, recordWrite (recordWrite h k₁ v₁) k₂ v₂) := by
  have hfirst : (updateLambda k₁ v₁).exec D h = (some (), recordWrite h k₁ v₁) := by
    refine exec_updateLambda hro ?_
    rw [hw]
    nofun
  have hsecond : (updateLambda k₂ v₂).exec D (recordWrite h k₁ v₁) =
      (some (), recordWrite (recordWrite h k₁ v₁) k₂ v₂) := by
    refine exec_updateLambda hro fun w hmem => ?_
    have hlast : w ∈ h.kvRWSet.writes ++
        [{ table := smallBank, key := k₁, value := Decimal.toString v₁ }] := hmem
    rw [hw, List.nil_append] at hlast
    rw [List.mem_singleton.mp hlast]
    exact hne
  rw [CC.exec_bind, hfirst]
  dsimp only
  rw [CC.exec_bind, hsecond]
  rfl

theorem exec_amalgamate (hro : h.readOnly = false) (hw : h.kvRWSet.writes = []) (hne : a ≠ b) :
    (amalgamate a b).exec D h =
      (some true, moved D h (savingKey a) (checkingKey b) 0
        (int32 (balance D (checkingKey b) + balance D (savingKey a)))) := by
  unfold amalgamate
  rw [if_neg hne, CC.exec_bind, exec_queryLambda]
  dsimp only
  rw [CC.exec_bind, exec_queryLambda]
  exact exec_moves hro hw (savingKey_ne_checkingKey a b)

/-- Too little money, or a negative amount, and nothing is written. -/
theorem exec_sendPayment (hro : h.readOnly = false) (hw : h.kvRWSet.writes = []) (hne : a ≠ b) :
    (sendPayment a b amountRaw).exec D h =
      let bal₁ := int32 (balance D (checkingKey a) - parseInt amountRaw)
      if bal₁ < 0 ∨ parseInt amountRaw < 0 then
        (some false, recordRead D (recordRead D h (checkingKey a)) (checkingKey b))
      else
        (some true, moved D h (checkingKey a) (checkingKey b) bal₁
          (int32 (balance D (checkingKey b) + parseInt amountRaw))) := by
  unfold sendPayment
  rw [if_neg hne, CC.exec_bind, exec_queryLambda]
  dsimp only
  rw [CC.exec_bind, exec_queryLambda]
  dsimp only
  rw [CC.exec_ite]
  refine if_congr Iff.rfl rfl ?_
  exact exec_moves hro hw (checkingKey_injective.ne hne)

/-! ## Arithmetic on `int` -/

theorem int32_of_mem {z : Int} (hlow : -2 ^ 31 ≤ z) (hhigh : z < 2 ^ 31) : int32 z = z := by
  unfold int32
  rw [Int.bmod_def]
  omega

theorem int32_bounds (z : Int) : -2 ^ 31 ≤ int32 z ∧ int32 z < 2 ^ 31 := by
  unfold int32
  rw [Int.bmod_def]
  omega

theorem parseInt_toString {z : Int} (hlow : -2 ^ 31 ≤ z) (hhigh : z < 2 ^ 31) :
    parseInt (Decimal.toString z) = z := by
  unfold parseInt
  rw [strtol_toString (by omega) (by omega)]
  exact int32_of_mem hlow hhigh

end

end NeuChain.Server.SmallBank
