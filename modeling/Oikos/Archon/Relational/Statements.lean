/-
The statements of the relational engine.  A statement either panics or returns
the database together with its result; an error does not undo what the statement
has done before.
-/
import Oikos.Archon.Relational.Select

namespace Oikos.Archon.Relational

def emptyResultSet : ResultSet :=
  ⟨[], []⟩

/-- The columns of `CREATE TABLE`, after the implicit row id. -/
def CreateTableStatement.schema (ct : CreateTableStatement) : Schema :=
  ⟨"id" :: ct.columns.map ColumnDef.name, .int :: ct.columns.map ColumnDef.ctype⟩

namespace TableStorage

/-- The positions that an `INSERT` assigns. -/
def insertSlots (ts : TableStorage) (stmt : InsertStatement) : Result DbError (List Nat) :=
  if stmt.columns.isEmpty then .ok (List.range ts.schema.columns.length)
  else stmt.columns.mapM fun c =>
    match ts.schema.indexOf c with
    | some slot => .ok slot
    | none => .error (.err (.unknownColumn c))

def assignLiterals (schema : Schema) : Row → List (Nat × Literal) → Result DbError Row
  | row, [] => .ok row
  | row, (slot, lit) :: rest => do
    let v ← schema.literalToValue slot lit
    let row ← setAt row slot v
    assignLiterals schema row rest

/-- The positions and the row of an `INSERT`; columns it does not list are 0. -/
def insertRow (ts : TableStorage) (stmt : InsertStatement) : Result DbError (List Nat × Row) := do
  let cols ← ts.insertSlots stmt
  if stmt.values.length ≠ cols.length then .error (.err .arityMismatch)
  else do
    let row ← assignLiterals ts.schema (List.replicate ts.schema.columns.length (.int 0))
      (cols.zip stmt.values)
    .ok (cols, row)

/-- The row id goes into the first column, unless the statement assigns it. -/
def numberRow {E : Type} (cols : List Nat) (id : UInt64) (row : Row) : Result E Row :=
  if cols.contains 0 then .ok row else setAt row 0 (.int id.toInt64)

/-- The positions and literals of the assignments of an `UPDATE`.  The row id is
not assigned. -/
def applyAssignments (schema : Schema) : Row → List Assignment → Result DbError Row
  | row, [] => .ok row
  | row, a :: rest =>
    match schema.indexOf a.column with
    | none => .error (.err (.unknownColumn a.column))
    | some 0 => applyAssignments schema row rest
    | some slot => do
      let v ← schema.literalToValue slot a.value
      let row ← setAt row slot v
      applyAssignments schema row rest

def storeRow {E : Type} (ts : TableStorage) (id : UInt64) (row : Row) : Result E TableStorage :=
  { ts with tree := ts.tree.insert id (encodeRow row) }.maintainVectorIndexesForRow id row

def deleteRow (ts : TableStorage) (id : UInt64) : TableStorage :=
  { ts with tree := ts.tree.delete id }.maintainVectorIndexesOnDelete id

/-- A committed row, changed by `f` and encoded again. -/
def reencodeOne (ts : TableStorage) (f : Row → Result DbError Row) (id : UInt64) :
    Result DbError (Option (UInt64 × Bytes)) :=
  match ts.tree.get id with
  | none => .ok none
  | some bytes => do
    let values ← ofExcept (tryDecodeRow bytes)
    let values ← f values
    .ok (some (id, encodeRow values))

def reencode (ts : TableStorage) (f : Row → Result DbError Row) :
    Result DbError (List (UInt64 × Bytes)) :=
  collect (ts.reencodeOne f) (rowIds ts.nextRowId)

/-- Write back encoded rows. -/
def storeAll (ts : TableStorage) (rows : List (UInt64 × Bytes)) : TableStorage :=
  { ts with tree := rows.foldl (fun tree p => tree.insert p.1 p.2) ts.tree }

def alter (ts : TableStorage) : AlterTableOp → Result DbError TableStorage
  | .addColumn col =>
    if ts.schema.columns.any (· == col.name) then
      .error (.err (.unsupported ("column '" ++ col.name ++ "' already exists")))
    else do
      let rows ← ts.reencode fun values => .ok (values ++ [.null])
      .ok { ts.storeAll rows with
        schema := ⟨ts.schema.columns ++ [col.name], ts.schema.types ++ [col.ctype]⟩ }
  | .dropColumn name =>
    match ts.schema.indexOf name with
    | none => .error (.err (.unknownColumn name))
    | some 0 => .error (.err (.unsupported "cannot drop the implicit id column"))
    | some idx => do
      let rows ← ts.reencode fun values => do
        let (_, values) ← removeAt values idx
        .ok values
      let (_, columns) ← removeAt ts.schema.columns idx
      let (_, types) ← removeAt ts.schema.types idx
      .ok { ts.storeAll rows with schema := ⟨columns, types⟩ }
  | .renameColumn oldName newName =>
    match ts.schema.indexOf oldName with
    | none => .error (.err (.unknownColumn oldName))
    | some 0 => .error (.err (.unsupported "cannot rename the implicit id column"))
    | some idx =>
      if ts.schema.columns.any (· == newName) then
        .error (.err (.unsupported ("column '" ++ newName ++ "' already exists")))
      else do
        let columns ← setAt ts.schema.columns idx newName
        .ok { ts with schema := { ts.schema with columns := columns } }

def applyWrite (ts : TableStorage) (p : Key × Bytes) :
    Result Empty (TableStorage × Except DbError Unit) := do
  let (id, bytes) := p
  let tag ← index bytes 0
  if tag = mvccTombstone then .ok (ts.deleteRow id, .ok ())
  else
    let ts := { ts with tree := ts.tree.insert id (bytes.drop 1) }
    match decodeRowValidated id (bytes.drop 1) ts.schema.columns.length with
    | .error e => .ok (ts, .error e)
    | .ok row => do
      let ts ← ts.maintainVectorIndexesForRow id row
      .ok (ts, .ok ())

/-- Apply buffered writes, up to the first one that fails. -/
def applyWrites (ts : TableStorage) :
    List (Key × Bytes) → Result Empty (TableStorage × Except DbError Unit)
  | [] => .ok (ts, .ok ())
  | p :: rest => do
    let (ts, applied) ← ts.applyWrite p
    match applied with
    | .error e => .ok (ts, .error e)
    | .ok () => ts.applyWrites rest

def buildPending (ts : TableStorage) : Result Empty (TableStorage × Except DbError Unit) := do
  match ← catchErr ts.maybeBuildVectorIndexes with
  | .ok ts => .ok (ts, .ok ())
  | .error e => .ok (ts, .error e)

def commitTxn (name : String) (ts : TableStorage) (txn : Transaction) :
    Result Empty (TableStorage × Except DbError Unit) := do
  let (mvcc, committed) ← ts.mvcc.commit txn
  let ts := { ts with mvcc := mvcc }
  match committed with
  | .error .conflict =>
    .ok (ts, .error (.transactionError ("commit conflict on table '" ++ name ++ "'")))
  | .ok _ => do
    let (ts, applied) ← ts.applyWrites txn.writesIter
    match applied with
    | .error e => .ok (ts, .error e)
    | .ok () => ts.buildPending

end TableStorage

namespace Database

/-- What a statement returns. -/
abbrev Ret (α : Type) := Database × Except DbError α

def bufferWrite {E : Type} (db : Database) (name : String) (ts : TableStorage) (id : UInt64)
    (bytes : Bytes) : Result E Database :=
  match db.txn name with
  | none => .error .panic
  | some txn =>
    .ok { db with activeTxns := assocSet db.activeTxns name (ts.mvcc.write txn id bytes) }

def insertInto (db : Database) (name : String) (ts : TableStorage) (cols : List Nat) (row : Row) :
    Result Empty (Ret Unit) := do
  let id := ts.nextRowId
  let next ← checkedSucc ts.nextRowId
  let row ← TableStorage.numberRow cols id row
  let ts := { ts with nextRowId := next }
  if db.inTransaction then do
    let db ← (db.setTable name ts).bufferWrite name ts id (mvccWrapRow row)
    .ok (db, .ok ())
  else do
    let ts ← ts.storeRow id row
    let (ts, built) ← ts.buildPending
    .ok (db.setTable name ts, built)

def runInsertStmt (db : Database) (stmt : InsertStatement) : Result Empty (Ret Unit) := do
  let db := if db.inTransaction then db.ensureTxn stmt.table else db
  match db.table stmt.table with
  | none => .ok (db, .error (.unknownTable stmt.table))
  | some ts => do
    match ← catchErr (ts.insertRow stmt) with
    | .error e => .ok (db, .error e)
    | .ok (cols, row) => db.insertInto stmt.table ts cols row

def updateOne (stmt : UpdateStatement) (db : Database) (id : UInt64) : Result DbError Database := do
  let ts ← db.getTable stmt.table
  let txn := db.txn stmt.table
  match ← ts.visibleBytes txn id with
  | none =>
    -- a tombstone is passed over, a row that is nowhere is an error
    if (txn.bind fun t => t.getWrite id).isSome then .ok db
    else .error (.err (.rowNotFound id))
  | some bytes => do
    let row ← ofExcept (decodeRowValidated id bytes ts.schema.columns.length)
    let row ← TableStorage.applyAssignments ts.schema row stmt.assignments
    if db.inTransaction then db.bufferWrite stmt.table ts id (mvccWrapRow row)
    else do
      let ts ← ts.storeRow id row
      .ok (db.setTable stmt.table ts)

def runUpdate (db : Database) (fuel : Nat) (stmt : UpdateStatement) : Result Empty (Ret Unit) := do
  match ← catchErr (db.matchingRowIds fuel stmt.table stmt.filter) with
  | .error e => .ok (db, .error e)
  | .ok ids =>
    let db := if db.inTransaction then db.ensureTxn stmt.table else db
    forEach (updateOne stmt) db ids

def deleteOne (name : String) (db : Database) (id : UInt64) : Result DbError Database := do
  let ts ← db.getTable name
  if db.inTransaction then db.bufferWrite name ts id mvccWrapTombstone
  else .ok (db.setTable name (ts.deleteRow id))

def runDelete (db : Database) (fuel : Nat) (stmt : DeleteStatement) : Result Empty (Ret Unit) := do
  match ← catchErr (db.matchingRowIds fuel stmt.table stmt.filter) with
  | .error e => .ok (db, .error e)
  | .ok ids =>
    let db := if db.inTransaction then db.ensureTxn stmt.table else db
    match db.table stmt.table with
    | none => .ok (db, .error (.unknownTable stmt.table))
    | some _ => forEach (deleteOne stmt.table) db ids

def runCreateTable (db : Database) (ct : CreateTableStatement) : Ret Unit :=
  if (db.table ct.table).isSome then (db, .error (.tableAlreadyExists ct.table))
  else ({ db with tables := db.tables ++ [(ct.table, TableStorage.empty ct.schema)] }, .ok ())

def runCreateView (db : Database) (cv : CreateViewStatement) : Ret Unit :=
  if (db.table cv.name).isSome || db.views.any fun p => p.1 == cv.name then
    (db, .error (.viewAlreadyExists cv.name))
  else if selectReferencesTable cv.query cv.name then (db, .error (.recursiveView cv.name))
  else ({ db with views := db.views ++ [(cv.name, cv.query)] }, .ok ())

def runDropView (db : Database) (name : String) : Ret Unit :=
  match db.views.findIdx? fun p => p.1 == name with
  | none => (db, .error (.unknownView name))
  | some pos => ({ db with views := db.views.eraseIdx pos }, .ok ())

def runAlterTable (db : Database) (stmt : AlterTableStatement) : Result Empty (Ret Unit) :=
  match db.table stmt.table with
  | none => .ok (db, .error (.unknownTable stmt.table))
  | some ts => do
    match ← catchErr (ts.alter stmt.op) with
    | .error e => .ok (db, .error e)
    | .ok ts => .ok (db.setTable stmt.table ts, .ok ())

def runBegin (db : Database) : Ret Unit :=
  if db.inTransaction then (db, .error (.transactionError "transaction already in progress"))
  else ({ db with inTransaction := true, activeTxns := [] }, .ok ())

/-- Commit the transactions of the tables one after another, up to the first one
that fails. -/
def commitAll (db : Database) : List (String × Transaction) → Result Empty (Ret Unit)
  | [] => .ok (db, .ok ())
  | (name, txn) :: rest =>
    match db.table name with
    | none => .error .panic
    | some ts => do
      let (ts, committed) ← TableStorage.commitTxn name ts txn
      let db := db.setTable name ts
      match committed with
      | .error e => .ok (db, .error e)
      | .ok () => db.commitAll rest

def runCommit (db : Database) : Result Empty (Ret Unit) :=
  if !db.inTransaction then .ok (db, .error (.transactionError "no active transaction"))
  else { db with activeTxns := [], inTransaction := false }.commitAll db.activeTxns

def runRollback (db : Database) : Ret Unit :=
  if !db.inTransaction then (db, .error (.transactionError "no active transaction"))
  else ({ db with activeTxns := [], inTransaction := false }, .ok ())

/-- A statement without rows to return. -/
def ack (r : Ret Unit) : Ret ResultSet :=
  (r.1, r.2.map fun _ => emptyResultSet)

/-- Execute a statement; `fuel` bounds the depth of nested queries. -/
def execute (fuel : Nat) (db : Database) (stmt : Statement) (params : Params) :
    Result Empty (Ret ResultSet) :=
  match stmt with
  | .select s => do
    let r ← catchErr (db.runSelect fuel s params)
    .ok (db, r)
  | .insert i => (db.runInsertStmt i).map ack
  | .update u => (db.runUpdate fuel u).map ack
  | .delete d => (db.runDelete fuel d).map ack
  | .createTable ct => .ok (ack (db.runCreateTable ct))
  | .createView cv => .ok (ack (db.runCreateView cv))
  | .dropView name => .ok (ack (db.runDropView name))
  | .alterTable alter => (db.runAlterTable alter).map ack
  | .begin => .ok (ack db.runBegin)
  | .commit => (db.runCommit).map ack
  | .rollback => .ok (ack db.runRollback)

def run (fuel : Nat) (db : Database) :
    List (Statement × Params) → Result Empty (Database × List (Except DbError ResultSet))
  | [] => .ok (db, [])
  | (stmt, params) :: rest => do
    let (db, r) ← execute fuel db stmt params
    let (db, rs) ← run fuel db rest
    .ok (db, r :: rs)

/-- The databases that can be built. -/
inductive Reachable : Database → Prop
  | empty : Reachable Database.empty
  | new (schema : Schema) : Reachable (Database.new schema)
  | step {fuel : Nat} {db db' : Database} {stmt : Statement} {params : Params}
      {r : Except DbError ResultSet} : Reachable db →
      execute fuel db stmt params = .ok (db', r) → Reachable db'

end Database

end Oikos.Archon.Relational
