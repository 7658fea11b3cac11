/-
  Queries of keys: the `key_query` of `QueryController::run`, and
  `TransactionQueryExecutor::executeList`, which runs a chaincode for it.

  The transaction of a query is read-only, and the chaincode is the one the transactions of the
  epochs run, so a query can name any of its functions. A read-only helper leaves what the
  chaincode did out of the buffers (`execute`). It does not turn an insert away: `newInsert` ends
  the process.

  * `run_frame`: queries leave the database as it is, whatever they name.
  * `no_effect_iff`: a query returns if and only if it has its arguments and its function makes no
    insert on the stored data (`Answerable`).

  The storage a chaincode reads is fixed while it runs. Each function of SmallBank reads a balance
  once, so it can be taken as what those reads find while an epoch is committed next to it. Left
  out: the other commands, which read blocks only, and the warning about a dirty read.
-/
import NeuChain.Server.Chaincodes

namespace NeuChain.Server

open NeuChain.Lib

/-! ## The model -/

structure UserQueryRequest where
  type : Bytes
  payload : Bytes
  digest : Bytes
deriving DecidableEq, Repr

structure QueryEnv extends ChaincodeEnv where
  requestFromString : Bytes → Option UserQueryRequest
  /-- What `ParseFromString` leaves in the payload; its result is not looked at. -/
  payloadFromString : Bytes → TransactionPayload

/-- `CCORMHelper::execute`, which its destructor calls. -/
def CCORMHelper.execute (h : CCORMHelper) (db : DatabaseImpl) : DatabaseImpl :=
  if h.readOnly then db else db.bufferUpdates h.tid h.kvRWSet h.tableList

/-- The chaincode object of a transaction, from its constructor to its destructor: what
    `InvokeChaincode` returned and the transaction, unless the process has ended. -/
def invokeInstance (cc : TransactionPayload → CC Bool) (t : Transaction) (db : DatabaseImpl) :
    Option (Bool × Transaction) × DatabaseImpl :=
  match (cc t.transactionPayload).exec db.storage
    { tid := t.tid, readOnly := t.readOnlyFlag, kvRWSet := t.kvRWSet } with
  | (some ret, h) => (some (ret, { t with kvRWSet := h.kvRWSet }), h.execute db)
  | (none, _) => (none, db)

/-- `TransactionQueryExecutor::executeList`: what it returns and the transactions. -/
def queryExecuteList (cc : TransactionPayload → CC Bool) :
    List Transaction → DatabaseImpl → Option (Bool × List Transaction) × DatabaseImpl
  | [], db => (some (true, []), db)
  | t :: ts, db =>
      if !t.readOnlyFlag then
        let r := queryExecuteList cc ts db
        (r.1.map fun out => (out.1, t.setTransactionResult .abortNoRetry :: out.2), r.2)
      else
        match invokeInstance cc t db with
        | (none, db) => (none, db)
        -- the others are left as they are
        | (some (false, t), db) => (some (false, t.setTransactionResult .abortNoRetry :: ts), db)
        | (some (true, t), db) =>
            let r := queryExecuteList cc ts db
            (r.1.map fun out => (out.1, t.setTransactionResult .commit :: out.2), r.2)

namespace QueryController

variable (env : QueryEnv) (ccType : CCType)

/-- The payload with the digest of the request. -/
def requestPayload (request : UserQueryRequest) : TransactionPayload :=
  { env.payloadFromString request.payload with digest := request.digest }

/-- The `key_query` of a request: the transaction, whose reads are the reply. -/
def keyQuery (request : UserQueryRequest) (db : DatabaseImpl) :
    Option Transaction × DatabaseImpl :=
  let transaction : Transaction := { transactionPayload := requestPayload env request }
  let r := queryExecuteList (invokeChaincode env.toChaincodeEnv ccType) [transaction] db
  (r.1.map fun out => out.2.headD transaction, r.2)

/-- One turn of the loop in `run`: the reply, and whether the loop goes on. -/
def handle (buffer : Bytes) (db : DatabaseImpl) : Option (List KVRead × Bool) × DatabaseImpl :=
  match env.requestFromString buffer with
  | none => (some ([], true), db)
  | some request =>
      if request.type = ascii "exit" then (some ([], false), db)
      else if request.type = ascii "key_query" then
        let r := keyQuery env ccType request db
        (r.1.map fun transaction => (transaction.kvRWSet.reads, true), r.2)
      else (some ([], true), db)

/-- The replies to the requests that come in. -/
def run : List Bytes → DatabaseImpl → Option (List (List KVRead)) × DatabaseImpl
  | [], db => (some [], db)
  | buffer :: buffers, db =>
      match handle env ccType buffer db with
      | (none, db) => (none, db)
      | (some (reply, false), db) => (some [reply], db)
      | (some (reply, true), db) =>
          let r := run buffers db
          (r.1.map (reply :: ·), r.2)

/-- The query has no effect, and an end. -/
structure NoEffect (request : UserQueryRequest) (db : DatabaseImpl) : Prop where
  storage : (keyQuery env ccType request db).2.storage = db.storage
  rwSetBuffer : (keyQuery env ccType request db).2.rwSetBuffer = db.rwSetBuffer
  tableListBuffer : (keyQuery env ccType request db).2.tableListBuffer = db.tableListBuffer
  commitPhase : (keyQuery env ccType request db).2.commitPhase = db.commitPhase
  returns : ∃ t, (keyQuery env ccType request db).1 = some t ∧
    (t.transactionResult = .commit ∨ t.transactionResult = .abortNoRetry)

end QueryController

/-! ## Which queries are answered -/

/-- The functions of SmallBank as queries: no insert is made on this storage. -/
def SmallBank.Answerable (D : Storage) (chaincodeName : Bytes) (realArgs : List Bytes) : Prop :=
  let arg (i : Nat) : Bytes := realArgs.getD i []
  let checking := balance D (checkingKey (arg 0))
  let saving := balance D (savingKey (arg 0))
  let amount := parseInt (arg 1)
  if chaincodeName = ascii "amalgamate" then arg 0 = arg 1
  else if chaincodeName = ascii "getBalance" then True
  else if chaincodeName = ascii "updateBalance" then amount < 0 ∧ checking < int32 (-amount)
  else if chaincodeName = ascii "updateSaving" then amount < 0 ∧ saving < int32 (-amount)
  else if chaincodeName = ascii "sendPayment" then
    arg 0 = arg 1 ∨ int32 (checking - parseInt (arg 2)) < 0 ∨ parseInt (arg 2) < 0
  else if chaincodeName = ascii "writeCheck" then int32 (checking - amount) < 0
  else if chaincodeName = ascii "create_data" then False
  else True

def YCSB.Answerable (chaincodeName : Bytes) (realArgs : List Bytes) : Prop :=
  if chaincodeName = ascii "write" then False
  else if chaincodeName = ascii "del" then False
  else if chaincodeName = ascii "read" then 2 ≤ realArgs.length
  else True

def ORMTest.Answerable (env : ChaincodeEnv) (chaincodeName arg : Bytes) : Prop :=
  if chaincodeName = ascii "correct_test" then False
  else if chaincodeName = ascii "create_table" then True
  else if chaincodeName = ascii "create_data" then False
  else if chaincodeName = ascii "mixed" then env.update arg = []
  else True

def Answerable (env : ChaincodeEnv) (ccType : CCType) (D : Storage)
    (payload : TransactionPayload) : Prop :=
  match ccType with
  | .ycsb => YCSB.Answerable payload.header (env.reads payload.payload)
  | .smallBank =>
      SmallBank.argumentCount payload.header ≤ (env.reads payload.payload).length ∧
        SmallBank.Answerable D payload.header (env.reads payload.payload)
  | .test => ORMTest.Answerable env payload.header payload.payload

/-! ## The frame -/

/-- No program changes the flag of its helper. -/
theorem keepsReadOnly_closed :
    CC.Closed fun _ p => ∀ D h, (p.exec D h).2.readOnly = h.readOnly where
  pure _ _ _ := rfl
  failure _ _ := rfl
  get _ _ := rfl
  bind {α β p q} hp hq D h := by
    have hfirst := hp D h
    rw [CC.exec_bind]
    cases hrun : p.exec D h with
    | mk r h' =>
        rw [hrun] at hfirst
        cases r with
        | none => exact hfirst
        | some a => exact (hq a D h').trans hfirst
  selectOr _ _ _ D h := by
    rw [exec_selectOr]
  insert _ _ _ D h := by
    rw [exec_insert]
    split <;> rfl
  createTable _ _ _ _ _ := rfl

section

variable {env : QueryEnv} {ccType : CCType} {t : Transaction} {db : DatabaseImpl}

theorem invokeInstance_frame (env : QueryEnv) (ccType : CCType) (db : DatabaseImpl)
    (hro : t.readOnlyFlag = true) :
    (invokeInstance (invokeChaincode env.toChaincodeEnv ccType) t db).2 = db := by
  have hkeeps := invokeChaincode_closed keepsReadOnly_closed env.toChaincodeEnv ccType
    t.transactionPayload db.storage
    { tid := t.tid, readOnly := t.readOnlyFlag, kvRWSet := t.kvRWSet }
  unfold invokeInstance
  split
  · rename_i ret h heq
    rw [heq] at hkeeps
    unfold CCORMHelper.execute
    rw [if_pos (hkeeps.trans hro)]
  · rfl

/-- Also a transaction that is not read-only leaves the database as it is. -/
theorem queryExecuteList_frame (ts : List Transaction) :
    (queryExecuteList (invokeChaincode env.toChaincodeEnv ccType) ts db).2 = db := by
  induction ts with
  | nil => rfl
  | cons t ts ih =>
      rw [queryExecuteList]
      cases hro : t.readOnlyFlag with
      | false => exact ih
      | true =>
          have hframe := invokeInstance_frame env ccType db hro
          rw [if_neg (by decide)]
          cases hinv : invokeInstance (invokeChaincode env.toChaincodeEnv ccType) t db with
          | mk r db' =>
              rw [hinv] at hframe
              cases hframe
              rcases r with _ | ⟨_ | _, t'⟩
              · rfl
              · rfl
              · exact ih

theorem keyQuery_frame (env : QueryEnv) (ccType : CCType) (request : UserQueryRequest)
    (db : DatabaseImpl) : (QueryController.keyQuery env ccType request db).2 = db :=
  queryExecuteList_frame _

end

/-! ## Programs as queries -/

/-- With a read-only helper the program returns if and only if `A` holds. -/
def CC.Answers {α : Type} (p : CC α) (D : Storage) (A : Prop) : Prop :=
  ∀ h : CCORMHelper, h.readOnly = true → ((p.exec D h).1.isSome = true ↔ A)

namespace CC.Answers

variable {α β : Type} {p p' : CC α} {D : Storage} {A B : Prop} {table key value : Bytes}

theorem pure (a : α) : (Pure.pure a : CC α).Answers D True :=
  fun _ _ => iff_of_true rfl trivial

theorem failure : (Alternative.failure : CC α).Answers D False :=
  fun _ _ => iff_of_false Bool.false_ne_true id

theorem ite {c : Prop} [Decidable c] (hp : p.Answers D A) (hp' : p'.Answers D B) :
    (if c then p else p').Answers D (if c then A else B) := by
  split
  · exact hp
  · exact hp'

theorem congr (hp : p.Answers D A) (h : A ↔ B) : p.Answers D B :=
  fun helper hro => (hp helper hro).trans h

theorem get {q : CCORMHelper → CC β} (hq : ∀ h, (q h).Answers D A) :
    (MonadState.get >>= q).Answers D A := by
  intro h hro
  rw [CC.exec_bind, CC.exec_get]
  exact hq h h hro

/-- An insert is the end. -/
theorem insert {q : Unit → CC β} : (Server.insert table key value >>= q).Answers D False := by
  intro h hro
  rw [CC.exec_bind, exec_insert, if_pos (Or.inl hro)]
  exact iff_of_false Bool.false_ne_true id

theorem selectOr {default : Bytes} {q : Bytes → CC β}
    (hq : (q (if (D.selectDB key table).isEmpty then default else D.selectDB key table)).Answers
      D A) :
    (Server.selectOr table default key >>= q).Answers D A := by
  intro h hro
  rw [CC.exec_bind, exec_selectOr]
  exact hq _ hro

theorem createTable {fieldList : List Bytes} {q : Unit → CC β} (hq : (q ()).Answers D A) :
    (Server.createTable table fieldList >>= q).Answers D A := by
  intro h hro
  rw [CC.exec_bind]
  exact hq _ hro

theorem argument {realArgs : List Bytes} {i : Nat} {q : Bytes → CC β}
    (hq : ∀ arg, (q arg).Answers D A) :
    (Server.argument realArgs i >>= q).Answers D (i < realArgs.length ∧ A) := by
  unfold Server.argument
  by_cases hi : i < realArgs.length
  · rw [List.getElem?_eq_getElem hi]
    exact (hq _).congr (and_iff_right hi).symm
  · rw [List.getElem?_eq_none (Nat.le_of_not_lt hi)]
    exact fun _ _ => iff_of_false Bool.false_ne_true fun hboth => hi hboth.1

theorem insertRows {rows : List (Bytes × Bytes)} {q : Unit → CC β} (hq : (q ()).Answers D A) :
    (Server.insertRows table rows >>= q).Answers D (rows = [] ∧ A) := by
  cases rows with
  | nil => exact hq.congr (and_iff_right rfl).symm
  | cons row rows =>
      have hend : (Server.insertRows table (row :: rows) >>= q).Answers D False := by
        rw [Server.insertRows, bind_assoc]
        exact insert
      exact hend.congr (iff_of_false id fun hboth => List.cons_ne_nil _ _ hboth.1)

end CC.Answers

section

variable {env : QueryEnv} {ccType : CCType} {D : Storage} {db : DatabaseImpl}

namespace SmallBank

theorem amalgamate_answers (a b : Bytes) : (amalgamate a b).Answers D (a = b) := by
  have h : (amalgamate a b).Answers D (if a = b then True else False) :=
    .ite (.pure false) (.selectOr (.selectOr .insert))
  exact h.congr (by simp)

theorem query_answers (account : Bytes) : (query account).Answers D True :=
  .selectOr (.selectOr (.pure true))

theorem addTo_answers (key val : Bytes) : (addTo key val).Answers D
    (parseInt val < 0 ∧ balance D key < int32 (-parseInt val)) := by
  have h : (addTo key val).Answers D
      (if parseInt val < 0 ∧ balance D key < int32 (-parseInt val) then True else False) :=
    .selectOr (.ite (.pure false) .insert)
  exact h.congr (by simp)

theorem sendPayment_answers (a b amountRaw : Bytes) : (sendPayment a b amountRaw).Answers D
    (a = b ∨ int32 (balance D (checkingKey a) - parseInt amountRaw) < 0 ∨
      parseInt amountRaw < 0) := by
  have h : (sendPayment a b amountRaw).Answers D (if a = b then True else
      if int32 (balance D (checkingKey a) - parseInt amountRaw) < 0 ∨ parseInt amountRaw < 0 then
        True else False) :=
    .ite (.pure false) (.selectOr (.selectOr (.ite (.pure false) .insert)))
  refine h.congr ?_
  by_cases heq : a = b
  · simp [heq]
  · simp [heq]

theorem writeCheck_answers (a amountRaw : Bytes) : (writeCheck a amountRaw).Answers D
    (int32 (balance D (checkingKey a) - parseInt amountRaw) < 0) := by
  have h : (writeCheck a amountRaw).Answers D
      (if int32 (balance D (checkingKey a) - parseInt amountRaw) < 0 then True else False) :=
    .selectOr (.ite (.pure false) .insert)
  exact h.congr (by simp)

theorem initFunc_answers (next : Nat → Nat) : (initFunc next).Answers D False := by
  unfold initFunc
  dsimp only
  refine (CC.Answers.insertRows (CC.Answers.insertRows (.pure true))).congr ?_
  simp

theorem invokeFunction_answers (next : Nat → Nat) (chaincodeName : Bytes) (realArgs : List Bytes) :
    (invokeFunction next chaincodeName realArgs).Answers D
      (Answerable D chaincodeName realArgs) := by
  unfold invokeFunction Answerable
  exact .ite (amalgamate_answers _ _) <| .ite (query_answers _) <| .ite (addTo_answers _ _) <|
    .ite (addTo_answers _ _) <| .ite (sendPayment_answers _ _ _) <|
      .ite (writeCheck_answers _ _) <| .ite (initFunc_answers next) (.pure false)

end SmallBank

theorem YCSB.invokeFunction_answers (env : ChaincodeEnv) (chaincodeName : Bytes)
    (realArgs : List Bytes) : (invokeFunction env chaincodeName realArgs).Answers D
      (Answerable chaincodeName realArgs) := by
  have hwrite : ∀ key val, (write env key val).Answers D False := fun _ _ => .selectOr .insert
  have hdel : ∀ key, (del key).Answers D False := fun _ => .insert
  have hread : ∀ key filter, (readKey key filter).Answers D True := fun _ _ =>
    .selectOr (.pure true)
  unfold invokeFunction Answerable
  refine .ite ?_ (.ite ?_ (.ite ?_ ?_))
  · refine (CC.Answers.argument fun key => CC.Answers.argument fun val => hwrite key val).congr ?_
    simp
  · refine (CC.Answers.argument fun key => hdel key).congr ?_
    simp
  · refine (CC.Answers.argument fun key => CC.Answers.argument fun val => hread key val).congr ?_
    rw [and_true]
    omega
  · exact (CC.Answers.ite (.pure false) (.pure false)).congr (by simp)

namespace ORMTest

theorem queryRows_answers {β : Type} {A : Prop} {q : Unit → CC β} (key : Bytes)
    (hq : (q ()).Answers D A) : (queryRows key >>= q).Answers D A := by
  rw [queryRows_eq, bind_assoc]
  exact .selectOr hq

theorem queryAll_answers {β : Type} {A : Prop} {q : Unit → CC β} (keys : List Bytes)
    (hq : (q ()).Answers D A) : (queryAll keys >>= q).Answers D A := by
  induction keys with
  | nil => exact hq
  | cons key keys ih =>
      rw [queryAll, bind_assoc]
      exact queryRows_answers key ih

theorem createData_answers (env : ChaincodeEnv) : (createData env).Answers D False := by
  refine CC.Answers.get fun h => (CC.Answers.insertRows (.pure true)).congr ?_
  have hrows : keyPerPa ≠ 0 := by decide
  simp [hrows]

theorem mixed_answers (env : ChaincodeEnv) (raw : Bytes) :
    (mixed env raw).Answers D (env.update raw = []) := by
  refine CC.Answers.get fun h =>
    (CC.Answers.insertRows (queryAll_answers _ (.pure true))).congr ?_
  simp

theorem invokeFunction_answers (env : ChaincodeEnv) (chaincodeName arg : Bytes) :
    (invokeFunction env chaincodeName arg).Answers D (Answerable env chaincodeName arg) := by
  have hcorrect : (correctTest arg).Answers D False :=
    queryRows_answers arg (.get fun _ => .insert)
  have htable : initFunc.Answers D True := .createTable (.pure true)
  have hcalculate : (calculateConsume env).Answers D True := by
    unfold calculateConsume
    rw [sortData_eq]
    exact .pure true
  have hrest : (if chaincodeName = ascii "time" then timeConsume
      else if chaincodeName = ascii "calculate" then calculateConsume env
      else pure false).Answers D True :=
    (CC.Answers.ite (.pure true) (.ite hcalculate (.pure false))).congr (by simp)
  unfold invokeFunction Answerable
  exact .ite hcorrect <| .ite htable <| .ite (createData_answers env) <|
    .ite (mixed_answers env arg) hrest

end ORMTest

/-- As a query, a function of any of the chaincodes returns if and only if it is answerable. -/
theorem invokeChaincode_answers (env : ChaincodeEnv) (ccType : CCType)
    (payload : TransactionPayload) :
    (invokeChaincode env ccType payload).Answers D (Answerable env ccType D payload) := by
  cases ccType with
  | ycsb => exact YCSB.invokeFunction_answers env _ _
  | test => exact ORMTest.invokeFunction_answers env _ _
  | smallBank =>
      refine (CC.Answers.ite .failure (SmallBank.invokeFunction_answers _ _ _)).congr ?_
      by_cases hargs : (env.reads payload.payload).length < SmallBank.argumentCount payload.header
      · rw [if_pos hargs]
        exact iff_of_false id fun hboth => Nat.not_le_of_lt hargs hboth.1
      · rw [if_neg hargs]
        exact (and_iff_right (Nat.le_of_not_lt hargs)).symm

/-! ## The queries -/

namespace QueryController

/-- The transaction at the end of a query. -/
theorem keyQuery_fst (request : UserQueryRequest) :
    (keyQuery env ccType request db).1 =
      let r := (invokeChaincode env.toChaincodeEnv ccType (requestPayload env request)).exec
        db.storage { tid := 0, readOnly := true }
      r.1.map fun ret =>
        { transactionPayload := requestPayload env request
          kvRWSet := r.2.kvRWSet
          transactionResult := if ret then .commit else .abortNoRetry } := by
  unfold keyQuery
  dsimp only
  rw [queryExecuteList]
  dsimp only
  rw [if_neg (by decide), invokeInstance]
  dsimp only
  cases (invokeChaincode env.toChaincodeEnv ccType (requestPayload env request)).exec db.storage
    { tid := 0, readOnly := true } with
  | mk r h => rcases r with _ | _ | _ <;> rfl

theorem keyQuery_isSome_iff (env : QueryEnv) (ccType : CCType) (request : UserQueryRequest)
    (db : DatabaseImpl) :
    (keyQuery env ccType request db).1.isSome = true ↔
      Answerable env.toChaincodeEnv ccType db.storage (requestPayload env request) := by
  rw [keyQuery_fst, Option.isSome_map]
  exact invokeChaincode_answers _ _ _ _ rfl

/-- A query leaves the database as it is and is answered, if and only if it can be answered
    without an insert. -/
theorem no_effect_iff (env : QueryEnv) (ccType : CCType) (request : UserQueryRequest)
    (db : DatabaseImpl) :
    NoEffect env ccType request db ↔
      Answerable env.toChaincodeEnv ccType db.storage (requestPayload env request) := by
  rw [← keyQuery_isSome_iff]
  constructor
  · rintro ⟨-, -, -, -, t, ht, -⟩
    rw [ht]
    rfl
  · intro hsome
    have hframe := keyQuery_frame env ccType request db
    refine ⟨by rw [hframe], by rw [hframe], by rw [hframe], by rw [hframe], ?_⟩
    obtain ⟨t, ht⟩ := Option.isSome_iff_exists.mp hsome
    refine ⟨t, ht, ?_⟩
    rw [keyQuery_fst] at ht
    obtain ⟨ret, -, rfl⟩ := Option.map_eq_some_iff.mp ht
    cases ret with
    | true => exact Or.inl rfl
    | false => exact Or.inr rfl

theorem handle_frame (env : QueryEnv) (ccType : CCType) (buffer : Bytes) (db : DatabaseImpl) :
    (handle env ccType buffer db).2 = db := by
  unfold handle
  cases env.requestFromString buffer with
  | none => rfl
  | some request =>
      dsimp only
      split
      · rfl
      · split
        · exact keyQuery_frame env ccType request db
        · rfl

/-- Any requests leave the database as it is. -/
theorem run_frame (buffers : List Bytes) : (run env ccType buffers db).2 = db := by
  induction buffers with
  | nil => rfl
  | cons buffer buffers ih =>
      have hturn := handle_frame env ccType buffer db
      rw [run]
      rcases hrun : handle env ccType buffer db with ⟨_ | ⟨reply, _ | _⟩, db'⟩ <;>
        rw [hrun] at hturn <;> cases hturn
      · rfl
      · rfl
      · exact ih

/-! ## A query that ends the server -/

/-- The payload is the name of a function; its arguments are two strings. -/
def plainEnv : QueryEnv where
  reads _ := [[1], [2]]
  update _ := []
  values _ := []
  serializeValues _ := []
  walk pairs := pairs
  next _ _ := 0
  aString _ _ := []
  requestFromString _ := none
  payloadFromString name := { header := name }

/-- A `write` is asked for as a query, on an empty database. -/
def writeQuery : UserQueryRequest where
  type := ascii "key_query"
  payload := ascii "write"
  digest := []

theorem query_ends_server :
    (keyQuery plainEnv .ycsb writeQuery { storage := fun _ => none }).1 = none ∧
      ¬ NoEffect plainEnv .ycsb writeQuery { storage := fun _ => none } := by
  have hnone : (keyQuery plainEnv .ycsb writeQuery { storage := fun _ => none }).1 = none := by
    decide +kernel
  refine ⟨hnone, fun heffect => ?_⟩
  obtain ⟨t, ht, -⟩ := heffect.returns
  rw [hnone] at ht
  cases ht

end QueryController

end

end NeuChain.Server
