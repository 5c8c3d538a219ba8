/-
The state of the relational engine and the evaluation of queries against it: `WHERE` and
`HAVING` with subqueries, table references, joins, and top-k vector search.  The functions
take the evaluation of nested queries as the parameter `run`; `runSelectScoped` ties the
knot, with fuel for the depth of the nesting.
-/
import Oikos.Lib.Assoc
import Oikos.Archon.Mvcc
import Oikos.Archon.ValidTree
import Oikos.Archon.Relational.Codec
import Oikos.Archon.Relational.VectorIndex

namespace Oikos.Archon.Relational

open List

/-- Status tag of a buffered row. -/
def mvccLive : UInt8 := 0

/-- Status tag of a row deleted within the transaction. -/
def mvccTombstone : UInt8 := 1

structure TableStorage where
  schema : Schema
  tree : ValidTree Key Bytes
  nextRowId : UInt64
  mvcc : MvccStore
  vectorIndexes : List (String × IvfFlatIndex)

structure Database where
  tables : List (String × TableStorage)
  views : List (String × SelectStatement)
  inTransaction : Bool
  activeTxns : List (String × Transaction)

/-- `0..n`. -/
def rowIds (n : UInt64) : List UInt64 :=
  (List.range n.toNat).map UInt64.ofNat

theorem mem_rowIds {n id : UInt64} : id ∈ rowIds n ↔ id < n := by
  rw [rowIds, mem_map, UInt64.lt_iff_toNat_lt]
  constructor
  · rintro ⟨i, hi, rfl⟩
    have hlt := mem_range.mp hi
    rw [UInt64.toNat_ofNat_of_lt' (lt_trans hlt n.toNat_lt)]
    exact hlt
  · intro hlt
    exact ⟨id.toNat, mem_range.mpr hlt, UInt64.ofNat_toNat⟩

theorem nodup_rowIds (n : UInt64) : (rowIds n).Nodup := by
  rw [rowIds]
  refine (nodup_map_iff_inj_on nodup_range).mpr ?_
  intro i hi j hj heq
  have hi' := lt_trans (mem_range.mp hi) n.toNat_lt
  have hj' := lt_trans (mem_range.mp hj) n.toNat_lt
  rw [← UInt64.toNat_ofNat_of_lt' hi', ← UInt64.toNat_ofNat_of_lt' hj', heq]

theorem rowIds_append {n m : UInt64} (h : n ≤ m) :
    ∃ rest, rowIds m = rowIds n ++ rest ∧ ∀ id ∈ rest, n ≤ id := by
  have hle := UInt64.le_iff_toNat_le.mp h
  refine ⟨(range' n.toNat (m.toNat - n.toNat)).map UInt64.ofNat, ?_, ?_⟩
  · rw [rowIds, rowIds, ← map_append, range_eq_range', range_eq_range']
    have hlen : m.toNat = n.toNat + (m.toNat - n.toNat) := by omega
    conv_lhs => rw [hlen, ← range'_append_1]
    rw [zero_add]
  · intro id hid
    obtain ⟨i, hi, rfl⟩ := mem_map.mp hid
    obtain ⟨hlo, hhi⟩ := mem_range'_1.mp hi
    have hlt : i < 2 ^ 64 := lt_trans (by omega) m.toNat_lt
    rw [UInt64.le_iff_toNat_le, UInt64.toNat_ofNat_of_lt' hlt]
    exact hlo

def mvccWrapRow (values : Row) : Bytes :=
  mvccLive :: encodeRow values

def mvccWrapTombstone : Bytes :=
  [mvccTombstone]

def Schema.literalToValue (schema : Schema) (slot : Nat) (lit : Literal) :
    Result DbError Value := do
  let expected ← index schema.types slot
  match expected, lit with
  | _, .null => .ok .null
  | .int, .int i => .ok (.int i)
  | .text, .text t => .ok (.text t)
  | .vector, .vector v => .ok (.vector v)
  | _, _ => do
    let column ← index schema.columns slot
    .error (.err (.columnTypeMismatch column))

namespace TableStorage

/-- A table without rows. -/
def empty (schema : Schema) : TableStorage :=
  ⟨schema, ValidTree.new, 0, MvccStore.new, []⟩

def maintainIndex {E : Type} (schema : Schema) (id : UInt64) (row : Row)
    (p : String × IvfFlatIndex) : Result E (String × IvfFlatIndex) :=
  match schema.indexOf p.1 with
  | none => .ok (p.1, p.2.remove id)
  | some slot => do
    match ← index row slot with
    | .vector v => .ok (p.1, p.2.insert id v)
    | _ => .ok (p.1, p.2.remove id)

def maintainVectorIndexesForRow {E : Type} (ts : TableStorage) (id : UInt64) (row : Row) :
    Result E TableStorage := do
  let vectorIndexes ← ts.vectorIndexes.mapM (maintainIndex ts.schema id row)
  .ok { ts with vectorIndexes := vectorIndexes }

def maintainVectorIndexesOnDelete (ts : TableStorage) (id : UInt64) : TableStorage :=
  { ts with vectorIndexes := ts.vectorIndexes.map fun (name, ix) => (name, ix.remove id) }

def pendingCols (ts : TableStorage) : List (Nat × String) :=
  ((ts.schema.columns.zip ts.schema.types).mapIdx fun i p => (i, p)).filterMap
    fun (i, name, ctype) =>
      if ctype = .vector && !ts.vectorIndexes.any fun p => p.1 == name then some (i, name) else none

def committedRows (ts : TableStorage) : Result DbError (List (UInt64 × Row)) :=
  collect (fun id =>
    match ts.tree.get id with
    | none => .ok none
    | some bytes => do
      let row ← ofExcept (decodeRowValidated id bytes ts.schema.columns.length)
      .ok (some (id, row))) (rowIds ts.nextRowId)

def vectorsAt (rows : List (UInt64 × Row)) (slot : Nat) : List (UInt64 × List F32) :=
  rows.filterMap fun (id, row) =>
    match row[slot]? with
    | some (.vector v) => some (id, v)
    | _ => none

def maybeBuildVectorIndexes (ts : TableStorage) : Result DbError TableStorage :=
  if ts.nextRowId.toNat < minRowsForIndex then .ok ts
  else if ts.pendingCols.isEmpty then .ok ts
  else do
    let rows ← ts.committedRows
    let built := ts.pendingCols.filterMap fun (slot, name) =>
      let vectors := vectorsAt rows slot
      if vectors.isEmpty then none else some (name, IvfFlatIndex.build vectors)
    .ok { ts with vectorIndexes := ts.vectorIndexes ++ built }

def visibleBytes (ts : TableStorage) (txn : Option Transaction) (id : UInt64) :
    Result DbError (Option Bytes) :=
  match txn.bind fun t => t.getWrite id with
  | some buffered => do
    let tag ← index buffered 0
    .ok (if tag = mvccTombstone then none else some (buffered.drop 1))
  | none => .ok (ts.tree.get id)

def visibleRow (ts : TableStorage) (txn : Option Transaction) (id : UInt64) :
    Result DbError (Option Row) := do
  match ← ts.visibleBytes txn id with
  | none => .ok none
  | some bytes => do
    let row ← ofExcept (decodeRowValidated id bytes ts.schema.columns.length)
    .ok (some row)

end TableStorage

namespace Database

/-- A database without tables. -/
def empty : Database :=
  ⟨[], [], false, []⟩

/-- A database with one table `t`. -/
def new (schema : Schema) : Database :=
  { empty with tables := [("t", TableStorage.empty schema)] }

def table (db : Database) (name : String) : Option TableStorage :=
  assocGet db.tables name

/-- Write back a table found by `table`. -/
def setTable (db : Database) (name : String) (ts : TableStorage) : Database :=
  { db with tables := assocSet db.tables name ts }

/-- The transaction open on a table. -/
def txn (db : Database) (name : String) : Option Transaction :=
  assocGet db.activeTxns name

def ensureTxn (db : Database) (name : String) : Database :=
  if db.activeTxns.any fun p => p.1 == name then db
  else
    match db.table name with
    | none => db
    | some ts => { db with activeTxns := db.activeTxns ++ [(name, ts.mvcc.begin)] }

/-- A table that must exist. -/
def getTable (db : Database) (name : String) : Result DbError TableStorage :=
  match db.table name with
  | some ts => .ok ts
  | none => .error (.err (.unknownTable name))

def scanTable (db : Database) (name : String) : Result DbError (List String × List Row) := do
  let ts ← db.getTable name
  let rows ← collect (ts.visibleRow (db.txn name)) (rowIds ts.nextRowId)
  .ok (ts.schema.columns, rows)

end Database

abbrev Params := List (List F32)

/-- How a nested query is run: with parameters, enclosing rows and the common
table expressions in scope. -/
abbrev RunSelect :=
  SelectStatement → Params → List Scope → List CTE → Result DbError ResultSet

/-- The result of a subquery that does not depend on the row. -/
inductive CacheEntry where
  | uncached
  | exists (found : Bool)
  | in (vals : List Value)
  | scalar (value : Value)
deriving Repr, DecidableEq

/-! ### Correlation -/

/-- The name is found among the columns without walking outer scopes. -/
def columnResolvesLocally (name : String) (ownColumns : List String) : Bool :=
  if ownColumns.any (· == name) then true
  else if isQualified name then false
  else ownColumns.any fun c => unqualified c == name

/-- The part before the first dot, and what follows it. -/
def splitQualifier (name : String) : Option (String × String) :=
  if isQualified name then
    some (String.ofList (name.toList.takeWhile (· != '.')),
      String.ofList ((name.toList.dropWhile (· != '.')).drop 1))
  else none

/-- The columns visible from the `FROM` and `JOIN` clauses of a subquery, guessed
from those of its parent. -/
def resolveQueryOwnColumns (query : SelectStatement) (parentColumns : List String) :
    List String :=
  let fromCols :=
    match query.table with
    | .named name aliasName =>
      let qualifier := aliasName.getD name
      parentColumns.filterMap fun c =>
        match splitQualifier c with
        | some (base, rest) =>
          if base = name || aliasName = some base then some (qualifier ++ "." ++ rest)
          else none
        | none => some (qualifier ++ "." ++ c)
    | .subquery _ _ => parentColumns
  let joinCols := query.joins.flatMap fun join =>
    parentColumns.filterMap fun c =>
      match splitQualifier c with
      | some (base, rest) =>
        if base = join.table.tableName || base = join.table.name then
          some (join.table.name ++ "." ++ rest)
        else none
      | none => none
  let cols := fromCols ++ joinCols
  if cols.isEmpty then parentColumns else cols

theorem sizeOf_filter_lt {query : SelectStatement} {e : Expr} (h : query.filter = some e) :
    sizeOf e < sizeOf query := by
  cases query
  simp only at h
  subst h
  simp
  omega

def exprReferencesOuter (ownColumns : List String) : Expr → Bool
  | .cmp column _ _ => !columnResolvesLocally column ownColumns
  | .cmpColumn left _ right =>
    !columnResolvesLocally left ownColumns || !columnResolvesLocally right ownColumns
  | .isNull column _ => !columnResolvesLocally column ownColumns
  | .like column _ => !columnResolvesLocally column ownColumns
  | .inInt column _ => !columnResolvesLocally column ownColumns
  | .betweenInt column _ _ => !columnResolvesLocally column ownColumns
  | .and l r => exprReferencesOuter ownColumns l || exprReferencesOuter ownColumns r
  | .or l r => exprReferencesOuter ownColumns l || exprReferencesOuter ownColumns r
  | .not inner => exprReferencesOuter ownColumns inner
  | .agg _ _ => false
  | .exists query | .inSubquery _ query | .scalarCmp _ _ query =>
    match h : query.filter with
    | some w =>
      have := sizeOf_filter_lt h
      exprReferencesOuter (resolveQueryOwnColumns query ownColumns) w
    | none => false
termination_by e => e

/-! ### Predicates with subqueries -/

def cacheEntry (run : RunSelect) (ownColumns : List String) (params : Params)
    (outerCtes : List CTE) (node : Expr) : Result DbError CacheEntry :=
  if exprReferencesOuter ownColumns node then .ok .uncached
  else
    match node with
    | .exists query => do
      match ← catchErr (run query params [] outerCtes) with
      | .ok rs => .ok (.exists (!rs.rows.isEmpty))
      | .error _ => .ok .uncached
    | .inSubquery _ query => do
      match ← catchErr (run query params [] outerCtes) with
      | .ok rs => do
        let vals ← rs.rows.mapM fun row => index row 0
        .ok (.in vals)
      | .error _ => .ok .uncached
    | .scalarCmp _ _ query => do
      match ← catchErr (run query params [] outerCtes) with
      | .ok rs =>
        if rs.rows.length = 1 ∧ rs.columns.length = 1 then do
          let row ← index rs.rows 0
          let v ← index row 0
          .ok (.scalar v)
        else .ok .uncached
      | .error _ => .ok .uncached
    | _ => .ok .uncached

def buildSubqueryCache (run : RunSelect) (whereExpr : Expr) (ownColumns : List String)
    (params : Params) (outerCtes : List CTE) : Result DbError (List CacheEntry) :=
  whereExpr.subqueryNodes.mapM (cacheEntry run ownColumns params outerCtes)

/-- What the evaluation of a predicate on a row is given. -/
structure WhereEnv where
  columns : List String
  row : Row
  params : Params
  outer : List Scope
  outerCtes : List CTE
  scopeColumns : List String
  cache : List CacheEntry

/-- The scopes for a subquery; at most eight fit. -/
def WhereEnv.stack (env : WhereEnv) : Result DbError (List Scope) :=
  if 1 + env.outer.length ≤ 8 then .ok ((env.scopeColumns, env.row) :: env.outer)
  else .error .panic

/-- A column that must resolve. -/
def WhereEnv.column (env : WhereEnv) (name : String) : Result DbError Value := do
  match ← findValue name env.columns env.row env.outer with
  | some v => .ok v
  | none => .error (.err (.unknownColumn name))

/-- `NULL` compares with nothing. -/
def cmpValues (op : CmpOp) (lhs rhs : Value) : Bool :=
  if lhs.isNull || rhs.isNull then false else op.holds (lhs.cmp rhs)

def anyFirst (lhs : Value) : List Row → Result DbError Bool
  | [] => .ok false
  | row :: rows => do
    let v ← index row 0
    if v.eq lhs then .ok true else anyFirst lhs rows

def evalWhere (run : RunSelect) (env : WhereEnv) : Expr → Nat → Result DbError (Bool × Nat)
  | .and l r, counter => do
    let (b, counter) ← evalWhere run env l counter
    if b then evalWhere run env r counter else .ok (false, counter)
  | .or l r, counter => do
    let (b, counter) ← evalWhere run env l counter
    if b then .ok (true, counter) else evalWhere run env r counter
  | .not inner, counter => do
    let (b, counter) ← evalWhere run env inner counter
    .ok (!b, counter)
  | .exists query, counter =>
    match env.cache[counter]? with
    | some (.exists found) => .ok (found, counter + 1)
    | _ => do
      let stack ← env.stack
      let rs ← run query env.params stack env.outerCtes
      .ok (!rs.rows.isEmpty, counter + 1)
  | .inSubquery column query, counter => do
    let lhs ← env.column column
    match env.cache[counter]? with
    | some (.in vals) => .ok (vals.any fun v => v.eq lhs, counter + 1)
    | _ => do
      let stack ← env.stack
      let rs ← run query env.params stack env.outerCtes
      if rs.columns.length ≠ 1 then
        .error (.err (.subqueryCardinality
          ("IN subquery must return exactly one column, got " ++ toString rs.columns.length)))
      else do
        let b ← anyFirst lhs rs.rows
        .ok (b, counter + 1)
  | .scalarCmp column op query, counter => do
    let lhs ← env.column column
    match env.cache[counter]? with
    | some (.scalar rhs) => .ok (cmpValues op lhs rhs, counter + 1)
    | _ => do
      let stack ← env.stack
      let rs ← run query env.params stack env.outerCtes
      if rs.columns.length ≠ 1 ∨ rs.rows.length ≠ 1 then
        .error (.err (.subqueryCardinality
          ("scalar subquery must return exactly one row and one column, got " ++
            toString rs.rows.length ++ " row(s) and " ++ toString rs.columns.length ++
            " column(s)")))
      else do
        let row ← index rs.rows 0
        let rhs ← index row 0
        .ok (cmpValues op lhs rhs, counter + 1)
  | expr, counter => do
    let b ← mapErr DbError.ofExecError (evalExprScoped env.columns env.row env.outer expr)
    .ok (b, counter)

/-- The predicate holds of the row. -/
def whereHolds (run : RunSelect) (env : WhereEnv) (expr : Expr) : Result DbError Bool := do
  let (b, _) ← evalWhere run env expr 0
  .ok b

/-! ### Queries -/

/-- The clauses `FROM` and `JOIN` name the table. -/
def selectReferencesTable (stmt : SelectStatement) (name : String) : Bool :=
  let names := fun
    | TableRef.named n _ => n == name
    | TableRef.subquery _ _ => false
  names stmt.table || stmt.joins.any fun j => names j.table

namespace Database

def resolveTableRefWithCtes (db : Database) (run : RunSelect) (ctes : List CTE) :
    TableRef → Result DbError (List String × List Row)
  | .named name _ =>
    match ctes.find? fun c => c.name == name with
    | some cte => do
      let rs ← run cte.query [] [] ctes
      .ok (rs.columns, rs.rows)
    | none =>
      match assocGet db.views name with
      | some query => do
        let rs ← run query [] [] []
        .ok (rs.columns, rs.rows)
      | none => db.scanTable name
  | .subquery query aliasName => do
    let rs ← run query [] [] ctes
    .ok (rs.columns.map fun c => aliasName ++ "." ++ c, rs.rows)

def columnPosition (columns : List String) (name : String) : Result DbError Nat :=
  match columns.findIdx? (· == name) with
  | some idx => .ok idx
  | none => .error (.err (.unknownColumn name))

def joinTable (db : Database) (run : RunSelect) (ctes : List CTE)
    (source : List String × List Row) (join : Join) : Result DbError (List String × List Row) := do
  let (columns, rows) := source
  let (joinCols, joinRows) ← db.resolveTableRefWithCtes run ctes join.table
  let leftIdx ← columnPosition columns join.leftCol
  let rightIdx ← columnPosition joinCols join.rightCol
  let newRows ← collect (fun (p : Row × Row) => do
      let l ← index p.1 leftIdx
      let r ← index p.2 rightIdx
      .ok (if l.eq r then some (p.1 ++ p.2) else none))
    (rows.flatMap fun lrow => joinRows.map fun jrow => (lrow, jrow))
  .ok (columns ++ joinCols.map (fun c => join.table.name ++ "." ++ c), newRows)

/-- The common table expressions in scope: a query's own shadow the outer ones. -/
def mergeCtes (outerCtes own : List CTE) : List CTE :=
  own.foldl (fun merged cte => merged.filter (fun c => c.name != cte.name) ++ [cte]) outerCtes

def validateCte (db : Database) (cte : CTE) : Result DbError Unit :=
  if db.views.any fun p => p.1 == cte.name then .error (.err (.viewAlreadyExists cte.name))
  else if db.tables.any fun p => p.1 == cte.name then .error (.err (.viewAlreadyExists cte.name))
  else if selectReferencesTable cte.query cte.name then .error (.err (.recursiveView cte.name))
  else .ok ()

def topkCandidates (run : RunSelect) (columns : List String) (filter : Option Expr)
    (params : Params) (slot : Nat) (rows : List Row) : Result DbError (List (List F32 × Row)) :=
  collect (fun row => do
    let keep ← match filter with
      | none => .ok true
      | some expr => whereHolds run ⟨columns, row, params, [], [], columns, []⟩ expr
    if keep then
      match ← index row slot with
      | .vector v => .ok (some (v, row))
      | _ => .ok none
    else .ok none) rows

def topkResult (stmt : SelectStatement) (columns : List String) (query : List F32) (k : Nat)
    (candidates : List (List F32 × Row)) : ResultSet :=
  ⟨if stmt.star || stmt.columns.isEmpty then columns else stmt.columns,
    (vectorTopk (candidates.map Prod.fst) query k).filterMap fun i =>
      (candidates[i]?).map Prod.snd⟩

/-- `ORDER BY cosine`: rank a derived table, or the committed rows of a table,
found through its index if it has one. -/
def runVectorTopk (db : Database) (run : RunSelect) (stmt : SelectStatement)
    (ob : OrderByCosine) (params : Params) : Result DbError ResultSet := do
  let position ← if ob.param = 0 then .error .panic else .ok (ob.param - 1)
  let query ← match params[position]? with
    | some query => .ok query
    | none => .error (.err .missingParam)
  match stmt.table with
  | .subquery inner aliasName => do
    let (columns, rows) ← db.resolveTableRefWithCtes run [] (.subquery inner aliasName)
    let slot ← columnPosition columns ob.column
    let candidates ← topkCandidates run columns stmt.filter params slot rows
    .ok (topkResult stmt columns query ob.k.toNat candidates)
  | .named name _ => do
    let ts ← db.getTable name
    let slot ← columnPosition ts.schema.columns ob.column
    let ctype ← index ts.schema.types slot
    if ctype ≠ .vector then .error (.err (.notAVectorColumn ob.column))
    else do
      let ids := match assocGet ts.vectorIndexes ob.column with
        | some ix => ix.search query (Nat.max (ob.k.toNat * 4) ob.k.toNat) defaultNprobe
        | none => rowIds ts.nextRowId
      let candidates ← collect (fun id =>
        match ts.tree.get id with
        | none => .ok none
        | some bytes => do
          let row ← ofExcept (decodeRowValidated id bytes ts.schema.columns.length)
          let found ← topkCandidates run ts.schema.columns stmt.filter params slot [row]
          .ok found.head?) ids
      .ok (topkResult stmt ts.schema.columns query ob.k.toNat candidates)

def applyClause (run : RunSelect) (params : Params) (outer : List Scope) (ctes : List CTE)
    (scopeColumns : List String) (clause : Option Expr) (table : Table) : Result DbError Table :=
  match clause with
  | none => .ok table
  | some expr => do
    let cache ← buildSubqueryCache run expr table.columns params ctes
    let rows ← filterRows (fun row =>
      whereHolds run ⟨table.columns, row, params, outer, ctes, scopeColumns, cache⟩ expr)
      table.rows
    .ok { table with rows := rows }

/-- A query, given how nested queries are run. -/
def selectBody (db : Database) (run : RunSelect) : RunSelect := fun stmt params outer outerCtes =>
  match stmt.orderByCosine with
  | some ob => db.runVectorTopk run stmt ob params
  | none => do
    let ctes := mergeCtes outerCtes stmt.withCtes
    stmt.withCtes.forM db.validateCte
    let source ← db.resolveTableRefWithCtes run ctes stmt.table
    let (columns, rows) ← stmt.joins.foldlM (db.joinTable run ctes) source
    let table : Table := ⟨columns, rows⟩
    let scopeColumns := table.columns.map fun c =>
      if isQualified c then c else stmt.table.name ++ "." ++ c
    let table ← applyClause run params outer ctes scopeColumns stmt.filter table
    let table ←
      if !stmt.groupBy.isEmpty || !stmt.aggregates.isEmpty then do
        let rs ← mapErr DbError.ofExecError
          (aggregateTable table.columns table.rows stmt.groupBy stmt.aggregates)
        .ok (Table.mk rs.columns rs.rows)
      else .ok table
    let table ← applyClause run params outer ctes table.columns stmt.having table
    -- the clauses applied above are not planned again
    let planStmt := { stmt with groupBy := [], aggregates := [], having := none, filter := none }
    let plan ← planSelect planStmt ⟨table.rows.length⟩
    mapErr DbError.ofExecError (execute plan table)

/-- Run a query within enclosing rows; `fuel` bounds the depth of nested queries. -/
def runSelectScoped (db : Database) : Nat → RunSelect
  | 0 => fun _ _ _ _ => .error .fuel
  | fuel + 1 => db.selectBody (db.runSelectScoped fuel)

/-- Run a query of its own. -/
def runSelect (db : Database) (fuel : Nat) (stmt : SelectStatement) (params : Params) :
    Result DbError ResultSet :=
  db.runSelectScoped fuel stmt params [] []

def matchingRowIds (db : Database) (fuel : Nat) (name : String) (filter : Option Expr) :
    Result DbError (List UInt64) := do
  let run := db.runSelectScoped fuel
  let ts ← db.getTable name
  let columns := ts.schema.columns
  let cache ← match filter with
    | some expr => buildSubqueryCache run expr columns [] []
    | none => .ok []
  collect (fun id => do
    match ← ts.visibleRow (db.txn name) id with
    | none => .ok none
    | some row => do
      let keep ← match filter with
        | none => .ok true
        | some expr => whereHolds run ⟨columns, row, [], [], [], columns, cache⟩ expr
      .ok (if keep then some id else none)) (rowIds ts.nextRowId)

end Database

end Oikos.Archon.Relational
