/-
The state store of `koinon-node`: the rows that it keeps in SQLite, and the
statements that write and read them.
-/
import Mathlib.Data.List.Sort
import Oikos.Lib.Effect
import Oikos.Lib.Decimal
import Oikos.Koinon.Block

namespace Oikos.Koinon

/-! ### Columns -/

inductive StoreError where
  | sqlite
  | toSqlConversion (value : UInt64)
  | fromSqlConversion (value : Int64)
deriving DecidableEq

/-- A `u64` as a value of an INTEGER column. -/
def toSql (n : UInt64) : Result StoreError Int64 :=
  if n.toNat < 2 ^ 63 then .ok n.toInt64 else .error (.err (.toSqlConversion n))

/-- The `u64` that an INTEGER column holds. -/
def fromSql (n : Int64) : Result StoreError UInt64 :=
  if 0 ≤ n then .ok n.toUInt64 else .error (.err (.fromSqlConversion n))

theorem toSql_of_lt {n : UInt64} (h : n.toNat < 2 ^ 63) : toSql n = .ok n.toInt64 :=
  if_pos h

theorem fromSql_of_toSql {n : UInt64} {k : Int64} (h : toSql n = .ok k) : fromSql k = .ok n := by
  unfold toSql at h
  split at h
  · next hlt =>
    obtain rfl := Except.ok.inj h
    have hpos : 0 ≤ n.toInt64 := by
      rw [Int64.le_iff_toInt_le]
      change (0 : Int) ≤ n.toBitVec.toInt
      rw [BitVec.toInt_eq_toNat_of_lt]
      · exact Int.natCast_nonneg _
      · change 2 * n.toNat < 2 ^ 64
        omega
    rw [fromSql, if_pos hpos]
    rfl
  · cases h

/-- A blob of another length reads as the zero digest. -/
def readDigest (blob : List UInt8) : Digest :=
  if h : blob.length = 32 then ⟨blob.toArray, by simpa using h⟩ else zeroDigest

def boolToSql (b : Bool) : Int32 :=
  if b then 1 else 0

/-- A text that is no number reads as zero. -/
def readOikos (text : String) : OikosAmount :=
  ⟨(parseUnsigned 128 text).getD 0⟩

def readKoin (text : String) : KoinAmount :=
  ⟨(parseSigned 128 text).getD 0⟩

/-! ### Rows -/

/-- A row of the table `accounts`. -/
structure AccountRow where
  oikosBalance : String
  koinBalance : String
  nonce : Int64

structure ValidatorRow where
  operatorDid : String
  stakedAmount : String
  rewardDebt : String
  active : Int32
  slashedAmount : String
  createdAt : Int64
  jailedUntil : Int64

structure MandateRow where
  principalDid : String
  agentDid : String
  oikosBudget : String
  koinBudget : String
  scopes : String
  timeBound : Option Int64
  active : Int32
  oikosSpent : String
  koinSpent : String

structure BlockRow where
  hash : List UInt8
  parentHash : List UInt8
  timestamp : Int64
  validatorId : Int64
  rewardAmount : String
  gasFees : String
  stateRoot : List UInt8

/-- The tables, and for each statement to come whether SQLite will fail on it;
past the end of the list none fails. -/
structure StateStore where
  accounts : Table Int64 AccountRow
  validators : Table Int64 ValidatorRow
  mandates : Table Int64 MandateRow
  blocks : Table Int64 BlockRow
  chainState : Table String String
  faults : List Bool

namespace StateStore

def empty (faults : List Bool) : StateStore :=
  ⟨.empty, .empty, .empty, .empty, .empty, faults⟩

/-- Run a statement on the tables, or fail on it. -/
def execute {α : Type} (statement : StateStore → α × StateStore) : Effect StateStore StoreError α :=
  fun store =>
    let rest := { store with faults := store.faults.tail }
    if store.faults.headD false then (.error (.err .sqlite), rest)
    else (.ok (statement rest).1, (statement rest).2)

variable {store store' : StateStore}

theorem execute_eq_ok {α : Type} {statement : StateStore → α × StateStore}
    {a : α} (h : execute statement store = (.ok a, store')) :
    statement { store with faults := store.faults.tail } = (a, store') := by
  unfold execute at h
  dsimp only at h
  split at h
  · cases h
  · cases h
    rfl

theorem execute_of_no_faults {α : Type} (statement : StateStore → α × StateStore)
    (h : store.faults = []) :
    execute statement store = (.ok (statement store).1, (statement store).2) := by
  have hrest : { store with faults := store.faults.tail } = store := by
    rw [h, List.tail_nil, ← h]
  rw [execute, hrest, h]
  rfl

/-- A statement that reads; it fails if a fault is due. -/
def query {α : Type} (read : StateStore → α) : Effect StateStore StoreError α :=
  execute fun store => (read store, store)

/-- A statement that writes; if a fault is due, nothing is written. -/
def write (change : StateStore → StateStore) : Effect StateStore StoreError Unit :=
  execute fun store => ((), change store)

theorem query_eq_ok {α : Type} {read : StateStore → α} {a : α}
    (h : query read store = (.ok a, store')) :
    read { store with faults := store.faults.tail } = a :=
  congrArg Prod.fst (execute_eq_ok h)

theorem write_cases {change : StateStore → StateStore} {r : Result StoreError Unit}
    (h : write change store = (r, store')) :
    r = .ok () ∧ store' = change { store with faults := store.faults.tail } ∨
      r = .error (.err .sqlite) ∧ store' = { store with faults := store.faults.tail } := by
  unfold write execute at h
  dsimp only at h
  split at h
  · cases h
    exact .inr ⟨rfl, rfl⟩
  · cases h
    exact .inl ⟨rfl, rfl⟩

/-- The rows in the order of the keys. -/
def scan {Row : Type} (table : Table Int64 Row) : List (Int64 × Row) :=
  table.entries.insertionSort fun a b => a.1 ≤ b.1

/-- The rows that can be read; the others are left out. -/
def readable {Row α : Type} (read : Int64 → Row → Result StoreError α) (table : Table Int64 Row) :
    List α :=
  (scan table).filterMap fun p => (read p.1 p.2).toOption

/-! ### Accounts -/

def readAccount (id : Int64) (row : AccountRow) : Result StoreError Account := do
  let id ← fromSql id
  let nonce ← fromSql row.nonce
  .ok ⟨id, readOikos row.oikosBalance, readKoin row.koinBalance, nonce⟩

def listAccounts : Effect StateStore StoreError (List Account) :=
  query fun store => readable readAccount store.accounts

/-! ### Validators -/

def validatorRow (v : Validator) : Result StoreError (Int64 × ValidatorRow) := do
  let id ← toSql v.id
  let createdAt ← toSql v.createdAt
  let jailedUntil ← toSql v.jailedUntil
  .ok (id, ⟨v.operatorDid, showUnsigned v.stakedAmount.units, showUnsigned v.rewardDebt,
    boolToSql v.active, showUnsigned v.slashedAmount.units, createdAt, jailedUntil⟩)

def readValidator (id : Int64) (row : ValidatorRow) : Result StoreError Validator := do
  let id ← fromSql id
  let createdAt ← fromSql row.createdAt
  let jailedUntil ← fromSql row.jailedUntil
  .ok ⟨id, row.operatorDid, readOikos row.stakedAmount, (parseUnsigned 128 row.rewardDebt).getD 0,
    row.active ≠ 0, readOikos row.slashedAmount, createdAt, jailedUntil⟩

/-- The parameters are converted before the statement runs. -/
def upsertValidator (v : Validator) : Effect StateStore StoreError Unit := do
  let (id, row) ← Effect.lift (validatorRow v)
  write fun store => { store with validators := store.validators.insert id row }

def listValidators : Effect StateStore StoreError (List Validator) :=
  query fun store => readable readValidator store.validators

/-! ### Chain state and blocks -/

def lastBlockHeightKey : String := "last_block_height"

def setChainState (key value : String) : Effect StateStore StoreError Unit :=
  write fun store => { store with chainState := store.chainState.insert key value }

def getChainState (key : String) : Effect StateStore StoreError (Option String) :=
  query fun store => store.chainState.get key

/-- The height on record, or zero. -/
def lastHeight (store : StateStore) : UInt64 :=
  ⟨((store.chainState.get lastBlockHeightKey).bind (parseUnsigned 64)).getD 0⟩

def getLastBlockHeight : Effect StateStore StoreError UInt64 := do
  let value ← getChainState lastBlockHeightKey
  pure ⟨(value.bind (parseUnsigned 64)).getD 0⟩

/-- The fees are added up with a panic on overflow. -/
def blockRow (block : Block) : Result StoreError (Int64 × BlockRow) := do
  let gasFees ← checkedI128 (block.reward.feeBurn.toInt + block.reward.feeValidator.toInt)
  let gasFees ← checkedI128 (gasFees.toInt + block.reward.feeTreasury.toInt)
  let height ← toSql block.height
  let timestamp ← toSql block.timestamp
  let validatorId ← toSql block.validatorId
  .ok (height, ⟨block.hash.toList, block.parentHash.toList, timestamp, validatorId,
    showUnsigned block.reward.baseReward.units, showSigned gasFees.units, block.stateRoot.toList⟩)

def applyBlock (block : Block) : Effect StateStore StoreError Unit := do
  let (height, row) ← Effect.lift (blockRow block)
  write fun store => { store with blocks := store.blocks.insert height row }
  setChainState lastBlockHeightKey (showUnsigned block.height.toBitVec)

def readBlock (height : Int64) (row : BlockRow) : Result StoreError Block := do
  let height ← fromSql height
  let timestamp ← fromSql row.timestamp
  let validatorId ← fromSql row.validatorId
  .ok ⟨height, readDigest row.hash, readDigest row.parentHash, timestamp, [], validatorId,
    ⟨0, 0, readOikos row.rewardAmount, .zero, .zero, .zero⟩, readDigest row.stateRoot⟩

def getBlock (height : UInt64) : Effect StateStore StoreError (Option Block) := do
  let key ← Effect.lift (toSql height)
  let row ← query fun store => store.blocks.get key
  match row with
  | none => pure none
  | some row =>
    let block ← Effect.lift (readBlock key row)
    pure (some block)

end StateStore

end Oikos.Koinon
