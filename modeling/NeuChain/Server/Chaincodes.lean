/-
  The chaincodes beside SmallBank, `YCSB_Chaincode` and `ORMTestChaincode`, and
  `ChaincodeManager`, which gives each transaction an object of the one type that the
  configuration names.

  What protobuf finds in a string, the order in which an `unordered_map` is walked and what
  `Random` returns are left open (`ChaincodeEnv`). An argument of a function is `realArgs[i]`,
  which is not checked in a release build; past the end the behaviour is undefined, and the
  program fails here. `SmallBank.invokeFunction` takes a missing argument for empty, so the check
  is put before it.

  * `quicksort_returns`: the sorting of `calculateConsume` ends, and stays inside its array.
  * `chaincodes_localReads`, `chaincodes_twoFieldTables`: what the executor needs of a chaincode
    holds of all three.
-/
import NeuChain.Server.SmallBank

namespace NeuChain.Server

open NeuChain.Lib

structure ChaincodeEnv where
  /-- `reads` of a `YCSB_PAYLOAD`, as far as it could be parsed. -/
  reads : Bytes → List Bytes
  /-- `update` of a `YCSB_PAYLOAD`. -/
  update : Bytes → List Bytes
  /-- The pairs of a `YCSB_FOR_BLOCK_BENCH`. -/
  values : Bytes → List (Bytes × Bytes)
  serializeValues : List (Bytes × Bytes) → Bytes
  /-- The order of a walk over a map. -/
  walk : List (Bytes × Bytes) → List (Bytes × Bytes)
  /-- The numbers of a generator, by its seed. -/
  next : Nat → Nat → Nat
  /-- The strings `a_string(10, 10)` of a generator, by its seed. -/
  aString : Nat → Nat → Bytes

/-- `realArgs[i]`. -/
def argument (realArgs : List Bytes) (i : Nat) : CC Bytes :=
  match realArgs[i]? with
  | some arg => pure arg
  | none => failure

/-! ## `YCSB_Chaincode` -/

namespace YCSB

def ycsb : Bytes := ascii "ycsb"

def defValue : Bytes := ascii "default_value"

def queryLambda (key : Bytes) : CC Bytes := selectOr ycsb defValue key

def updateLambda (key value : Bytes) : CC Unit := insert ycsb key value

/-- `tmp[key] = value`. -/
def assign (tmp : List (Bytes × Bytes)) (pair : Bytes × Bytes) : List (Bytes × Bytes) :=
  tmp.filter (fun old => old.1 ≠ pair.1) ++ [pair]

def write (env : ChaincodeEnv) (key val : Bytes) : CC Bool := do
  let old ← queryLambda key
  let tmp := (env.values old).foldl assign []
  let tmp := (env.values val).foldl assign tmp
  updateLambda key (env.serializeValues (env.walk tmp))
  return true

def del (key : Bytes) : CC Bool := do
  updateLambda key []
  return true

/-- Of the value and the filter, both parsed, nothing is used. -/
def readKey (key _filter : Bytes) : CC Bool := do
  let _ ← queryLambda key
  return true

/-- `InitFunc` returns 0. -/
def initFunc : CC Bool := pure false

def invokeFunction (env : ChaincodeEnv) (chaincodeName : Bytes) (realArgs : List Bytes) :
    CC Bool :=
  if chaincodeName = ascii "write" then do
    let key ← argument realArgs 0
    let val ← argument realArgs 1
    write env key val
  else if chaincodeName = ascii "del" then do
    let key ← argument realArgs 0
    del key
  else if chaincodeName = ascii "read" then do
    let key ← argument realArgs 0
    let filter ← argument realArgs 1
    readKey key filter
  else if chaincodeName = ascii "create_data" then initFunc
  else pure false

end YCSB

/-! ## `ORMTestChaincode` -/

def LevelDBResultsIterator.next (it : LevelDBResultsIterator) : LevelDBResultsIterator :=
  if it.hasNext then { it with index := it.index + 1 } else it

namespace ORMTest

def testTable : Bytes := ascii "test_table"

/-- `KEY_PER_PA`. -/
def keyPerPa : Nat := 200000

/-- `create_table`. -/
def initFunc : CC Bool := do
  createTable testTable [ascii "key", ascii "value"]
  return true

def createData (env : ChaincodeEnv) : CC Bool := do
  let h : CCORMHelper ← get
  insertRows testTable
    ((List.range keyPerPa).map fun i => (Decimal.natToString i, env.aString h.tid i))
  return true

/-- The loop over the results of a query, with so many turns at most. -/
def readRows : Nat → LevelDBResultsIterator → CC Unit
  | 0, _ => failure
  | turns + 1, it =>
      if it.hasNext then do
        let (_, it) ← it.getString (ascii "key")
        let (_, it) ← it.getString (ascii "value")
        readRows turns it.next
      else pure ()

/-- A query and the loop over its results. There is one, so the loop is left in its second turn. -/
def queryRows (key : Bytes) : CC Unit := do
  let r ← executeQuery testTable key
  readRows 2 r

def correctTest (key : Bytes) : CC Bool := do
  queryRows key
  let h : CCORMHelper ← get
  insert testTable key (Decimal.natToString h.tid)
  return true

def queryAll : List Bytes → CC Unit
  | [] => pure ()
  | key :: keys => do
      queryRows key
      queryAll keys

def mixed (env : ChaincodeEnv) (raw : Bytes) : CC Bool := do
  let h : CCORMHelper ← get
  insertRows testTable ((env.update raw).mapIdx fun i key =>
    (key, env.aString h.tid i ++ Decimal.natToString h.tid))
  queryAll (env.reads raw)
  return true

/-- It sleeps for 20 ms. -/
def timeConsume : CC Bool := pure true

/-- Two values change places; a place outside the array is undefined. -/
def swap (a : List Int) (i j : Nat) : Option (List Int) := do
  let x ← a[i]?
  let y ← a[j]?
  return (a.set i y).set j x

/-- The inner `if` of the loop. -/
def swapBack (a : List Int) (i pointer : Nat) : Option (List Int) :=
  if pointer ≠ i then swap a i pointer else some a

/-- The loop of `quicksort_r`, with so many turns left. -/
def partitionLoop (pivot : Int) : Nat → (i pointer : Nat) → List Int → Option (Nat × List Int)
  | 0, _, pointer, a => some (pointer, a)
  | turns + 1, i, pointer, a => do
      let x ← a[i]?
      if x < pivot then
        let a ← swapBack a i pointer
        partitionLoop pivot turns (i + 1) (pointer + 1) a
      else partitionLoop pivot turns (i + 1) pointer a

/-- `quicksort_r`, to a depth of calls. Its `end` is the last place and can be -1; `stop` is the
    place after it. -/
def quicksortR : Nat → List Int → (start stop : Nat) → Option (List Int)
  | 0, _, _, _ => none
  | depth + 1, a, start, stop =>
      if stop ≤ start + 1 then some a
      else do
        let pivot ← a[stop - 1]?
        let (pointer, a) ← partitionLoop pivot (stop - 1 - start) start start a
        let a ← swap a (stop - 1) pointer
        let a ← quicksortR depth a start pointer
        quicksortR depth a (pointer + 1) stop

def quicksort (data : List Int) : Option (List Int) :=
  quicksortR (data.length + 1) data 0 data.length

def sortData (data : List Int) : CC Bool :=
  match quicksort data with
  | some _ => pure true
  | none => failure

/-- `Random generator(2626345)`, its first 100000 numbers as `int`, and the sorting of them. -/
def calculateConsume (env : ChaincodeEnv) : CC Bool :=
  sortData ((List.range 100000).map fun i => SmallBank.int32 (env.next 2626345 i))

def invokeFunction (env : ChaincodeEnv) (chaincodeName arg : Bytes) : CC Bool :=
  if chaincodeName = ascii "correct_test" then correctTest arg
  else if chaincodeName = ascii "create_table" then initFunc
  else if chaincodeName = ascii "create_data" then createData env
  else if chaincodeName = ascii "mixed" then mixed env arg
  else if chaincodeName = ascii "time" then timeConsume
  else if chaincodeName = ascii "calculate" then calculateConsume env
  else pure false

end ORMTest

/-! ## `ChaincodeManager` -/

/-- How many of `realArgs` a function of SmallBank takes. -/
def SmallBank.argumentCount (chaincodeName : Bytes) : Nat :=
  if chaincodeName = ascii "amalgamate" then 2
  else if chaincodeName = ascii "getBalance" then 1
  else if chaincodeName = ascii "updateBalance" then 2
  else if chaincodeName = ascii "updateSaving" then 2
  else if chaincodeName = ascii "sendPayment" then 3
  else if chaincodeName = ascii "writeCheck" then 2
  else 0

/-- `ycsb`, `small_bank` and `test` in the configuration. -/
inductive CCType where
  | ycsb
  | smallBank
  | test
deriving DecidableEq, Repr

/-- `InvokeChaincode` of the instance for a transaction, with its payload. -/
def invokeChaincode (env : ChaincodeEnv) (ccType : CCType) (payload : TransactionPayload) :
    CC Bool :=
  match ccType with
  | .ycsb => YCSB.invokeFunction env payload.header (env.reads payload.payload)
  | .smallBank =>
      let realArgs := env.reads payload.payload
      if realArgs.length < SmallBank.argumentCount payload.header then failure
      else SmallBank.invokeFunction (env.next 0) payload.header realArgs
  | .test => ORMTest.invokeFunction env payload.header payload.payload

/-! ## The sorting returns -/

namespace ORMTest

section

variable {a : List Int} {i j pointer start stop : Nat}

theorem exists_swap (hi : i < a.length) (hj : j < a.length) :
    ∃ b, swap a i j = some b ∧ b.length = a.length := by
  have hlen : ∀ x y : Int, ((a.set i y).set j x).length = a.length := by simp
  unfold swap
  rw [List.getElem?_eq_getElem hi, List.getElem?_eq_getElem hj]
  exact ⟨_, rfl, hlen _ _⟩

theorem exists_swapBack (hi : i < a.length) (hp : pointer ≤ i) :
    ∃ b, swapBack a i pointer = some b ∧ b.length = a.length := by
  unfold swapBack
  split
  · exact exists_swap hi (by omega)
  · exact ⟨a, rfl, rfl⟩

/-- The pointer stays between where it was and where the loop ends. -/
theorem exists_partitionLoop (pivot : Int) (turns : Nat) (hp : pointer ≤ i)
    (hlen : i + turns ≤ a.length) :
    ∃ r, partitionLoop pivot turns i pointer a = some r ∧
      r.2.length = a.length ∧ pointer ≤ r.1 ∧ r.1 ≤ i + turns := by
  induction turns generalizing i pointer a with
  | zero => exact ⟨(pointer, a), rfl, rfl, Nat.le_refl _, hp⟩
  | succ turns ih =>
      have hi : i < a.length := by omega
      rw [partitionLoop, List.getElem?_eq_getElem hi]
      simp only [Option.bind_eq_bind, Option.bind_some]
      split
      · obtain ⟨b, hb, hblen⟩ := exists_swapBack hi hp
        have hnext : pointer + 1 ≤ i + 1 := by omega
        obtain ⟨r, hr, hrlen, hlow, hhigh⟩ := ih hnext (a := b) (by omega)
        rw [hb, Option.bind_some]
        exact ⟨r, hr, by omega, by omega, by omega⟩
      · have hnext : pointer ≤ i + 1 := by omega
        obtain ⟨r, hr, hrlen, hlow, hhigh⟩ := ih hnext (a := a) (by omega)
        exact ⟨r, hr, hrlen, hlow, by omega⟩

/-- One call more than the width of the range is deep enough. -/
theorem exists_quicksortR (depth : Nat) (hdepth : stop - start < depth) (hstop : stop ≤ a.length) :
    ∃ b, quicksortR depth a start stop = some b ∧ b.length = a.length := by
  induction depth generalizing a start stop with
  | zero => omega
  | succ depth ih =>
      rw [quicksortR]
      split
      · exact ⟨a, rfl, rfl⟩
      · have hlast : stop - 1 < a.length := by omega
        rw [List.getElem?_eq_getElem hlast]
        simp only [Option.bind_eq_bind, Option.bind_some]
        have hbound : start + (stop - 1 - start) ≤ a.length := by omega
        obtain ⟨⟨pointer, b⟩, hloop, hb, hlow, hhigh⟩ :=
          exists_partitionLoop a[stop - 1] (stop - 1 - start) (Nat.le_refl start) hbound
        dsimp only at hb hlow hhigh
        have hlast' : stop - 1 < b.length := by omega
        obtain ⟨c, hc, hclen⟩ := exists_swap hlast' (j := pointer) (by omega)
        -- both halves are shorter: the pivot is in neither
        have hleft : pointer - start < depth := by omega
        have hright : stop - (pointer + 1) < depth := by omega
        obtain ⟨d, hd, hdlen⟩ := ih hleft (a := c) (by omega)
        obtain ⟨e, he, helen⟩ := ih hright (a := d) (by omega)
        refine ⟨e, ?_, by omega⟩
        simp only [hloop, hc, hd, he, Option.bind_some]

theorem quicksort_returns (data : List Int) :
    ∃ sorted, quicksort data = some sorted ∧ sorted.length = data.length :=
  exists_quicksortR _ (by omega) (Nat.le_refl _)

end

end ORMTest

/-! ## What the programs do -/

section

variable {D : Storage} {h : CCORMHelper} {key : Bytes}

theorem ORMTest.sortData_eq (data : List Int) : sortData data = pure true := by
  obtain ⟨sorted, hsorted, -⟩ := quicksort_returns data
  unfold sortData
  rw [hsorted]

/-- The loop has one turn, which records one read. -/
theorem ORMTest.exec_queryRows : (queryRows key).exec D h = (some (), { h with
    kvRWSet := { h.kvRWSet with
      reads := h.kvRWSet.reads ++
        [{ table := testTable, key := key, value := D.selectDB key testTable }] } }) := by
  have hvalue : ascii "value" ≠ ascii "key" := by decide
  unfold queryRows
  rw [CC.exec_bind, exec_executeQuery]
  dsimp only
  rw [readRows, hasNext_new, if_pos rfl, CC.exec_bind, exec_getString]
  dsimp only
  rw [if_pos rfl, if_neg List.not_mem_nil]
  dsimp only
  rw [CC.exec_bind, exec_getString]
  dsimp only
  rw [if_neg hvalue, if_pos List.mem_cons_self]
  rfl

/-- The rows of a query are read like a value. -/
theorem ORMTest.queryRows_eq (key : Bytes) :
    queryRows key = (do let _ ← selectOr testTable [] key; pure ()) := by
  refine CC.ext fun D h => ?_
  rw [exec_queryRows, CC.exec_bind, exec_selectOr]
  rfl

end

section

variable {P : (α : Type) → CC α → Prop} (hP : CC.Closed P)

include hP

theorem argument_closed (realArgs : List Bytes) (i : Nat) : P Bytes (argument realArgs i) := by
  unfold argument
  cases realArgs[i]? with
  | some arg => exact hP.pure arg
  | none => exact hP.failure

theorem ORMTest.queryRows_closed (key : Bytes) : P Unit (queryRows key) := by
  rw [queryRows_eq]
  exact hP.bind (hP.selectOr _ _ _) fun _ => hP.pure ()

theorem ORMTest.queryAll_closed (keys : List Bytes) : P Unit (queryAll keys) := by
  induction keys with
  | nil => exact hP.pure ()
  | cons key keys ih => exact hP.bind (queryRows_closed hP key) fun _ => ih

theorem YCSB.invokeFunction_closed (env : ChaincodeEnv) (chaincodeName : Bytes)
    (realArgs : List Bytes) : P Bool (invokeFunction env chaincodeName realArgs) := by
  have hwrite : ∀ key val, P Bool (write env key val) := fun key val =>
    hP.bind (hP.selectOr _ _ key) fun _ => hP.bind (hP.insert _ _ _) fun _ => hP.pure true
  have hdel : ∀ key, P Bool (del key) := fun key =>
    hP.bind (hP.insert _ key _) fun _ => hP.pure true
  have hread : ∀ key filter, P Bool (readKey key filter) := fun key _ =>
    hP.bind (hP.selectOr _ _ key) fun _ => hP.pure true
  unfold invokeFunction
  refine hP.ite ?_ (hP.ite ?_ (hP.ite ?_ (hP.ite (hP.pure false) (hP.pure false))))
  · exact hP.bind (argument_closed hP _ _) fun key =>
      hP.bind (argument_closed hP _ _) fun val => hwrite key val
  · exact hP.bind (argument_closed hP _ _) fun key => hdel key
  · exact hP.bind (argument_closed hP _ _) fun key =>
      hP.bind (argument_closed hP _ _) fun filter => hread key filter

theorem ORMTest.invokeFunction_closed (env : ChaincodeEnv) (chaincodeName arg : Bytes) :
    P Bool (invokeFunction env chaincodeName arg) := by
  have hcorrect : P Bool (correctTest arg) :=
    hP.bind (queryRows_closed hP arg) fun _ => hP.bind hP.get fun _ =>
      hP.bind (hP.insert _ _ _) fun _ => hP.pure true
  have htable : P Bool initFunc := hP.bind (hP.createTable _ _ rfl) fun _ => hP.pure true
  have hdata : P Bool (createData env) :=
    hP.bind hP.get fun _ => hP.bind (hP.insertRows _ _) fun _ => hP.pure true
  have hmixed : P Bool (mixed env arg) :=
    hP.bind hP.get fun _ => hP.bind (hP.insertRows _ _) fun _ =>
      hP.bind (queryAll_closed hP _) fun _ => hP.pure true
  have hcalculate : P Bool (calculateConsume env) := by
    unfold calculateConsume
    rw [sortData_eq]
    exact hP.pure true
  unfold invokeFunction
  exact hP.ite hcorrect <| hP.ite htable <| hP.ite hdata <| hP.ite hmixed <|
    hP.ite (hP.pure true) <| hP.ite hcalculate (hP.pure false)

theorem invokeChaincode_closed (env : ChaincodeEnv) (ccType : CCType)
    (payload : TransactionPayload) : P Bool (invokeChaincode env ccType payload) := by
  cases ccType with
  | ycsb => exact YCSB.invokeFunction_closed hP env _ _
  | smallBank => exact hP.ite hP.failure (SmallBank.invokeFunction_closed hP _ _ _)
  | test => exact ORMTest.invokeFunction_closed hP env _ _

end

theorem chaincodes_localReads (env : ChaincodeEnv) (ccType : CCType) :
    (chaincodeOf (invokeChaincode env ccType)).LocalReads :=
  chaincodeOf_localReads fun payload => invokeChaincode_closed proper_closed env ccType payload

theorem chaincodes_twoFieldTables (env : ChaincodeEnv) (ccType : CCType) :
    (chaincodeOf (invokeChaincode env ccType)).TwoFieldTables :=
  chaincodeOf_twoFieldTables fun payload => invokeChaincode_closed proper_closed env ccType payload

end NeuChain.Server
