/-
Rows match their schemas in every run of careful statements: every row that a statement
reads decodes, so that no statement of the run fails on a corrupt row.
-/
import Oikos.Lib.Errs
import Oikos.Archon.Relational.RowTypes

namespace Oikos.Archon.Relational

open List

section Queries

variable {ts ts' : TableStorage} {db db' : Database} {name : String} {run : RunSelect}

def Sound : DbError → Prop
  | .corruptRow _ => False
  | _ => True

theorem sound_ofExecError (e : ExecError) : Sound (.ofExecError e) := by
  cases e <;> trivial

/-- Nested queries report no corrupt row. -/
def SoundRun (run : RunSelect) : Prop :=
  ∀ stmt params outer ctes, Errs Sound (run stmt params outer ctes)

/-! ### Predicates -/

theorem filterRows_errs {p : Row → Result DbError Bool} {rows : List Row}
    (h : ∀ row ∈ rows, Errs Sound (p row)) : Errs Sound (filterRows p rows) := by
  induction rows with
  | nil => exact Errs.ok []
  | cons row rows ih =>
    refine Errs.bind (h row mem_cons_self) fun keep _ => ?_
    refine Errs.bind (ih fun x hx => h x (mem_cons_of_mem row hx)) fun rest _ => ?_
    exact Errs.ok _

theorem cacheEntry_errs (ownColumns : List String) (params : Params) (ctes : List CTE)
    (node : Expr) : Errs Sound (cacheEntry run ownColumns params ctes node) := by
  unfold cacheEntry
  split
  · exact Errs.ok _
  · split
    · refine Errs.bind Errs.catchErr fun r _ => ?_
      split <;> exact Errs.ok _
    · refine Errs.bind Errs.catchErr fun r _ => ?_
      split
      · exact Errs.bind (Errs.mapM fun row _ => Errs.index row 0) fun _ _ => Errs.ok _
      · exact Errs.ok _
    · refine Errs.bind Errs.catchErr fun r _ => ?_
      split
      · split
        · refine Errs.bind (Errs.index _ 0) fun row _ => ?_
          exact Errs.bind (Errs.index row 0) fun _ _ => Errs.ok _
        · exact Errs.ok _
      · exact Errs.ok _
    · exact Errs.ok _

theorem buildSubqueryCache_errs (expr : Expr) (ownColumns : List String) (params : Params)
    (ctes : List CTE) : Errs Sound (buildSubqueryCache run expr ownColumns params ctes) :=
  Errs.mapM fun node _ => cacheEntry_errs ownColumns params ctes node

theorem stack_errs (env : WhereEnv) : Errs Sound env.stack := by
  unfold WhereEnv.stack
  split
  · exact Errs.ok _
  · exact Errs.panic

theorem findValue_errs (name : String) (columns : List String) (row : Row) (outer : List Scope) :
    Errs Sound (findValue name columns row outer) := by
  simp only [findValue]
  split
  · exact Errs.ok _
  · exact Errs.bind (Errs.index _ _) fun _ _ => Errs.ok _

theorem column_errs (env : WhereEnv) (name : String) : Errs Sound (env.column name) := by
  refine Errs.bind (findValue_errs name _ _ _) fun v _ => ?_
  split
  · exact Errs.ok _
  · exact Errs.err trivial

theorem anyFirst_errs (lhs : Value) (rows : List Row) : Errs Sound (anyFirst lhs rows) := by
  induction rows with
  | nil => exact Errs.ok _
  | cons row rows ih =>
    refine Errs.bind (Errs.index row 0) fun v _ => ?_
    split
    · exact Errs.ok _
    · exact ih

theorem evalLeaf_errs (env : WhereEnv) (expr : Expr) (counter : Nat) :
    Errs Sound (do
      let b ← mapErr DbError.ofExecError (evalExprScoped env.columns env.row env.outer expr)
      .ok (b, counter)) :=
  Errs.bind (Errs.mapErr sound_ofExecError) fun _ _ => Errs.ok _

theorem evalWhere_errs (hrun : SoundRun run) (env : WhereEnv) :
    ∀ (expr : Expr) (counter : Nat), Errs Sound (evalWhere run env expr counter)
  | .and l r, counter => by
    refine Errs.bind (evalWhere_errs hrun env l counter) fun p _ => ?_
    obtain ⟨b, counter⟩ := p
    cases b with
    | true => exact evalWhere_errs hrun env r counter
    | false => exact Errs.ok _
  | .or l r, counter => by
    refine Errs.bind (evalWhere_errs hrun env l counter) fun p _ => ?_
    obtain ⟨b, counter⟩ := p
    cases b with
    | true => exact Errs.ok _
    | false => exact evalWhere_errs hrun env r counter
  | .not inner, counter =>
    Errs.bind (evalWhere_errs hrun env inner counter) fun _ _ => Errs.ok _
  | .exists query, counter => by
    unfold evalWhere
    split
    · exact Errs.ok _
    · refine Errs.bind (stack_errs env) fun stack _ => ?_
      exact Errs.bind (hrun query _ stack _) fun _ _ => Errs.ok _
  | .inSubquery column query, counter => by
    refine Errs.bind (column_errs env column) fun lhs _ => ?_
    split
    · exact Errs.ok _
    · refine Errs.bind (stack_errs env) fun stack _ => ?_
      refine Errs.bind (hrun query _ stack _) fun rs _ => ?_
      split
      · exact Errs.err trivial
      · exact Errs.bind (anyFirst_errs lhs rs.rows) fun _ _ => Errs.ok _
  | .scalarCmp column op query, counter => by
    refine Errs.bind (column_errs env column) fun lhs _ => ?_
    split
    · exact Errs.ok _
    · refine Errs.bind (stack_errs env) fun stack _ => ?_
      refine Errs.bind (hrun query _ stack _) fun rs _ => ?_
      split
      · exact Errs.err trivial
      · refine Errs.bind (Errs.index _ 0) fun row _ => ?_
        exact Errs.bind (Errs.index row 0) fun _ _ => Errs.ok _
  | .cmp .., counter => evalLeaf_errs env _ counter
  | .cmpColumn .., counter => evalLeaf_errs env _ counter
  | .isNull .., counter => evalLeaf_errs env _ counter
  | .like .., counter => evalLeaf_errs env _ counter
  | .inInt .., counter => evalLeaf_errs env _ counter
  | .betweenInt .., counter => evalLeaf_errs env _ counter
  | .agg .., counter => evalLeaf_errs env _ counter

theorem whereHolds_errs (hrun : SoundRun run) (env : WhereEnv) (expr : Expr) :
    Errs Sound (whereHolds run env expr) :=
  Errs.bind (evalWhere_errs hrun env expr 0) fun _ _ => Errs.ok _

/-! ### Rows -/

theorem decode_errs {bytes : Bytes} (id : UInt64) (h : typed.row ts.schema bytes) :
    Errs Sound (ofExcept (decodeRowValidated id bytes ts.schema.columns.length)) := by
  obtain ⟨row, rfl, hrow⟩ := h
  rw [hrow.decodeValidated]
  exact Errs.ok row

theorem visibleBytes_errs (ts : TableStorage) (txn : Option Transaction) (id : UInt64) :
    Errs Sound (ts.visibleBytes txn id) := by
  unfold TableStorage.visibleBytes
  split
  · exact Errs.bind (Errs.index _ 0) fun _ _ => Errs.ok _
  · exact Errs.ok _

theorem visibleRow_errs (h : DbOk typed db) (hts : db.table name = some ts) (id : UInt64) :
    Errs Sound (ts.visibleRow (db.txn name) id) := by
  refine Errs.bind (visibleBytes_errs ts _ id) fun seen hseen => ?_
  cases seen with
  | none => exact Errs.ok _
  | some bytes =>
    have hbytes := ((h.storage hts).visibleBytes (h.of_table hts) hseen).2
    exact Errs.bind (decode_errs id hbytes) fun _ _ => Errs.ok _

namespace Database

theorem getTable_errs (db : Database) (name : String) : Errs Sound (db.getTable name) := by
  unfold getTable
  split
  · exact Errs.ok _
  · exact Errs.err trivial

theorem scanTable_errs (h : DbOk typed db) (name : String) : Errs Sound (db.scanTable name) := by
  refine Errs.bind (getTable_errs db name) fun ts hts => ?_
  refine Errs.bind (Errs.collect fun id _ => ?_) fun rows _ => Errs.ok _
  exact visibleRow_errs h (getTable_eq_ok hts) id

/-! ### Queries -/

theorem applyClause_errs (hrun : SoundRun run) (params : Params) (outer : List Scope)
    (ctes : List CTE) (scopeColumns : List String) (clause : Option Expr) (table : Table) :
    Errs Sound (applyClause run params outer ctes scopeColumns clause table) := by
  cases clause with
  | none => exact Errs.ok _
  | some expr =>
    refine Errs.bind (buildSubqueryCache_errs expr _ params ctes) fun cache _ => ?_
    refine Errs.bind (filterRows_errs fun row _ => ?_) fun rows _ => Errs.ok _
    exact whereHolds_errs hrun _ expr

theorem resolveTableRef_errs (h : DbOk typed db) (hrun : SoundRun run) (ctes : List CTE)
    (ref : TableRef) : Errs Sound (db.resolveTableRefWithCtes run ctes ref) := by
  cases ref with
  | named name aliasName =>
    simp only [resolveTableRefWithCtes]
    split
    · exact Errs.bind (hrun _ [] [] ctes) fun _ _ => Errs.ok _
    · split
      · exact Errs.bind (hrun _ [] [] []) fun _ _ => Errs.ok _
      · exact scanTable_errs h name
  | subquery query aliasName => exact Errs.bind (hrun query [] [] ctes) fun _ _ => Errs.ok _

theorem columnPosition_errs (columns : List String) (name : String) :
    Errs Sound (columnPosition columns name) := by
  unfold columnPosition
  split
  · exact Errs.ok _
  · exact Errs.err trivial

theorem joinTable_errs (h : DbOk typed db) (hrun : SoundRun run) (ctes : List CTE)
    (source : List String × List Row) (join : Join) :
    Errs Sound (db.joinTable run ctes source join) := by
  refine Errs.bind (resolveTableRef_errs h hrun ctes join.table) fun p _ => ?_
  refine Errs.bind (columnPosition_errs _ _) fun left _ => ?_
  refine Errs.bind (columnPosition_errs _ _) fun right _ => ?_
  refine Errs.bind (Errs.collect fun q _ => ?_) fun rows _ => Errs.ok _
  refine Errs.bind (Errs.index q.1 left) fun l _ => ?_
  exact Errs.bind (Errs.index q.2 right) fun r _ => Errs.ok _

theorem validateCte_errs (db : Database) (cte : CTE) : Errs Sound (db.validateCte cte) := by
  unfold validateCte
  split
  · exact Errs.err trivial
  · split
    · exact Errs.err trivial
    · split
      · exact Errs.err trivial
      · exact Errs.ok _

theorem topkCandidates_errs (hrun : SoundRun run) (columns : List String) (filter : Option Expr)
    (params : Params) (slot : Nat) (rows : List Row) :
    Errs Sound (topkCandidates run columns filter params slot rows) := by
  refine Errs.collect fun row _ => ?_
  cases filter with
  | none =>
    simp only [ok_bind, if_true]
    refine Errs.bind (Errs.index row slot) fun v _ => ?_
    split <;> exact Errs.ok _
  | some expr =>
    refine Errs.bind (whereHolds_errs hrun _ expr) fun keep _ => ?_
    cases keep with
    | false => exact Errs.ok _
    | true =>
      refine Errs.bind (Errs.index row slot) fun v _ => ?_
      split <;> exact Errs.ok _

theorem runVectorTopk_errs (h : DbOk typed db) (hrun : SoundRun run) (stmt : SelectStatement)
    (ob : OrderByCosine) (params : Params) : Errs Sound (db.runVectorTopk run stmt ob params) := by
  unfold runVectorTopk
  by_cases hparam : ob.param = 0
  · simp only [hparam, if_true, error_bind]
    exact Errs.panic
  · simp only [hparam, if_false, ok_bind]
    cases params[ob.param - 1]? with
    | none => exact Errs.err (e := DbError.missingParam) trivial
    | some query =>
      cases stmt.table with
      | subquery inner aliasName =>
        refine Errs.bind (resolveTableRef_errs h hrun [] _) fun p _ => ?_
        refine Errs.bind (columnPosition_errs _ _) fun slot _ => ?_
        exact Errs.bind (topkCandidates_errs hrun _ _ _ _ _) fun _ _ => Errs.ok _
      | named name aliasName =>
        refine Errs.bind (getTable_errs db name) fun ts hts => ?_
        refine Errs.bind (columnPosition_errs _ _) fun slot _ => ?_
        refine Errs.bind (Errs.index _ slot) fun ctype _ => ?_
        split
        · exact Errs.err trivial
        · refine Errs.bind (Errs.collect fun id _ => ?_) fun _ _ => Errs.ok _
          split
          · exact Errs.ok _
          · next bytes hget =>
            have hbytes := ((h.storage (getTable_eq_ok hts)).row id bytes hget).2
            refine Errs.bind (decode_errs id hbytes) fun row _ => ?_
            exact Errs.bind (topkCandidates_errs hrun _ _ _ _ _) fun _ _ => Errs.ok _

theorem selectBody_errs (h : DbOk typed db) (hrun : SoundRun run) :
    SoundRun (db.selectBody run) := by
  intro stmt params outer outerCtes
  have hfinish : ∀ table : Table, Errs Sound (do
      let table ← applyClause run params outer (mergeCtes outerCtes stmt.withCtes) table.columns
        stmt.having table
      let plan ← planSelect
        { stmt with groupBy := [], aggregates := [], having := none, filter := none }
        ⟨table.rows.length⟩
      mapErr DbError.ofExecError (Relational.execute plan table)) := by
    intro table
    refine Errs.bind (applyClause_errs hrun _ _ _ _ _ _) fun final _ => ?_
    exact Errs.bind (Errs.ok _) fun plan _ => Errs.mapErr sound_ofExecError
  unfold selectBody
  split
  · exact runVectorTopk_errs h hrun stmt _ params
  · refine Errs.bind (Errs.forM fun cte _ => validateCte_errs db cte) fun _ _ => ?_
    refine Errs.bind (resolveTableRef_errs h hrun _ _) fun source _ => ?_
    refine Errs.bind (Errs.foldlM fun s join _ => joinTable_errs h hrun _ s join) fun p _ => ?_
    refine Errs.bind (applyClause_errs hrun _ _ _ _ _ _) fun table _ => ?_
    split
    · exact Errs.bind (Errs.mapErr sound_ofExecError) fun rs _ => hfinish ⟨rs.columns, rs.rows⟩
    · exact hfinish table

theorem runSelectScoped_errs (h : DbOk typed db) (fuel : Nat) :
    SoundRun (db.runSelectScoped fuel) := by
  induction fuel with
  | zero => exact fun _ _ _ _ => Errs.fuel
  | succ fuel ih => exact selectBody_errs h ih

theorem matchingRowIds_errs (h : DbOk typed db) (fuel : Nat) (name : String)
    (filter : Option Expr) : Errs Sound (db.matchingRowIds fuel name filter) := by
  have hrun := runSelectScoped_errs h fuel
  refine Errs.bind (getTable_errs db name) fun ts hts => ?_
  have hrow := visibleRow_errs h (getTable_eq_ok hts)
  cases filter with
  | none =>
    refine Errs.collect fun id _ => Errs.bind (hrow id) fun seen _ => ?_
    cases seen <;> exact Errs.ok _
  | some expr =>
    refine Errs.bind (buildSubqueryCache_errs expr _ _ _) fun cache _ => ?_
    refine Errs.collect fun id _ => Errs.bind (hrow id) fun seen _ => ?_
    cases seen with
    | none => exact Errs.ok _
    | some row => exact Errs.bind (whereHolds_errs hrun _ expr) fun keep _ => Errs.ok _

end Database

end Queries

section Statements

variable {ts ts' : TableStorage} {db db' : Database} {name : String}

/-! ### Errors of tables -/

namespace TableStorage

theorem literalToValue_errs (schema : Schema) (slot : Nat) (lit : Literal) :
    Errs Sound (schema.literalToValue slot lit) := by
  refine Errs.bind (Errs.index _ slot) fun expected _ => ?_
  split
  · exact Errs.ok _
  · exact Errs.ok _
  · exact Errs.ok _
  · exact Errs.ok _
  · exact Errs.bind (Errs.index _ slot) fun _ _ => Errs.err trivial

theorem assignLiterals_errs (schema : Schema) (row : Row) (pairs : List (Nat × Literal)) :
    Errs Sound (assignLiterals schema row pairs) := by
  induction pairs generalizing row with
  | nil => exact Errs.ok row
  | cons p pairs ih =>
    refine Errs.bind (literalToValue_errs schema p.1 p.2) fun v _ => ?_
    exact Errs.bind (Errs.setAt row p.1 v) fun row _ => ih row

theorem insertRow_errs (ts : TableStorage) (stmt : InsertStatement) :
    Errs Sound (ts.insertRow stmt) := by
  refine Errs.bind ?_ fun cols _ => ?_
  · unfold insertSlots
    split
    · exact Errs.ok _
    · refine Errs.mapM fun c _ => ?_
      split
      · exact Errs.ok _
      · exact Errs.err trivial
  · split
    · exact Errs.err trivial
    · exact Errs.bind (assignLiterals_errs _ _ _) fun _ _ => Errs.ok _

theorem applyAssignments_errs (schema : Schema) (row : Row) (assignments : List Assignment) :
    Errs Sound (applyAssignments schema row assignments) := by
  induction assignments generalizing row with
  | nil => exact Errs.ok row
  | cons a rest ih =>
    unfold applyAssignments
    split
    · exact Errs.err trivial
    · exact ih row
    · next slot _ _ =>
      refine Errs.bind (literalToValue_errs schema slot a.value) fun v _ => ?_
      exact Errs.bind (Errs.setAt row slot v) fun row _ => ih row

theorem storeRow_errs (ts : TableStorage) (id : UInt64) (row : Row) :
    Errs Sound (ts.storeRow id row) := by
  refine Errs.bind (Errs.mapM fun p _ => ?_) fun _ _ => Errs.ok _
  unfold maintainIndex
  split
  · exact Errs.ok _
  · refine Errs.bind (Errs.index row _) fun v _ => ?_
    split <;> exact Errs.ok _

variable {r : Except DbError Unit}

theorem buildPending_sound (h : StorageOk typed ts)
    (hbuild : ts.buildPending = .ok (ts', r)) : ∀ e, r = .error e → Sound e := by
  have herrs : Errs Sound ts.maybeBuildVectorIndexes := by
    unfold maybeBuildVectorIndexes
    split
    · exact Errs.ok _
    · split
      · exact Errs.ok _
      · refine Errs.bind (Errs.collect fun id _ => ?_) fun _ _ => Errs.ok _
        split
        · exact Errs.ok _
        · next bytes hget =>
          exact Errs.bind (decode_errs id (h.row id bytes hget).2) fun _ _ => Errs.ok _
  simp only [buildPending, bind_eq_ok] at hbuild
  obtain ⟨built, hbuilt, hres⟩ := hbuild
  intro e he
  rcases catchErr_eq_ok hbuilt with ⟨ts₁, rfl, _⟩ | ⟨e', rfl, hm⟩
  · cases hres
    cases he
  · cases hres
    cases he
    exact herrs e hm

theorem reencode_errs (h : StorageOk typed ts) {f : Row → Result DbError Row}
    (hf : ∀ values, Errs Sound (f values)) : Errs Sound (ts.reencode f) := by
  refine Errs.collect fun id _ => ?_
  unfold reencodeOne
  split
  · exact Errs.ok _
  · next bytes hget =>
    obtain ⟨_, row, rfl, hrow⟩ := h.row id bytes hget
    simp only [hrow.decode, ofExcept, ok_bind]
    exact Errs.bind (hf row) fun _ _ => Errs.ok _

theorem alter_errs (h : StorageOk typed ts) (op : AlterTableOp) : Errs Sound (ts.alter op) := by
  cases op with
  | addColumn col =>
    simp only [alter]
    split
    · exact Errs.err trivial
    · exact Errs.bind (reencode_errs h fun _ => Errs.ok _) fun _ _ => Errs.ok _
  | dropColumn col =>
    simp only [alter]
    split
    · exact Errs.err trivial
    · exact Errs.err trivial
    · next idx _ _ =>
      refine Errs.bind (reencode_errs h fun values => ?_) fun rows _ => ?_
      · exact Errs.bind (Errs.removeAt values idx) fun _ _ => Errs.ok _
      · refine Errs.bind (Errs.removeAt _ idx) fun _ _ => ?_
        exact Errs.bind (Errs.removeAt _ idx) fun _ _ => Errs.ok _
  | renameColumn oldName newName =>
    simp only [alter]
    split
    · exact Errs.err trivial
    · exact Errs.err trivial
    · split
      · exact Errs.err trivial
      · exact Errs.bind (Errs.setAt _ _ _) fun _ _ => Errs.ok _

/-- Buffered rows that obey the discipline are stored without an error. -/
theorem applyWrite_sound {p : Key × Bytes}
    (hw : WriteOk typed ts p.1 p.2) (happly : ts.applyWrite p = .ok (ts', r)) : r = .ok () := by
  obtain ⟨id, bytes⟩ := p
  simp only [applyWrite, bind_eq_ok] at happly
  obtain ⟨tag, htag, happly⟩ := happly
  rcases hw with rfl | ⟨b, rfl, _, row, rfl, hrow⟩
  · cases htag
    cases happly
    rfl
  · cases htag
    simp only [drop_succ_cons, drop_zero, hrow.decodeValidated] at happly
    rw [if_neg (by decide), bind_eq_ok] at happly
    obtain ⟨ts₁, _, hres⟩ := happly
    cases hres
    rfl

theorem applyWrites_sound {writes : List (Key × Bytes)}
    (h : StorageOk typed ts) (hw : ∀ p ∈ writes, WriteOk typed ts p.1 p.2)
    (happly : ts.applyWrites writes = .ok (ts', r)) : r = .ok () := by
  induction writes generalizing ts with
  | nil =>
    cases happly
    rfl
  | cons p writes ih =>
    simp only [applyWrites, bind_eq_ok] at happly
    obtain ⟨⟨ts₁, applied⟩, hone, hrest⟩ := happly
    obtain ⟨h₁, hschema, hnext⟩ := h.applyWrite (hw p mem_cons_self) hone
    obtain rfl := applyWrite_sound (hw p mem_cons_self) hone
    refine ih h₁ (fun q hq => ?_) hrest
    have := hw q (mem_cons_of_mem p hq)
    rwa [WriteOk, hschema, hnext]

theorem commitTxn_sound (h : StorageOk typed ts) {txn : Transaction}
    (htxn : TxnOk typed ts txn) (hcommit : commitTxn name ts txn = .ok (ts', r)) :
    ∀ e, r = .error e → Sound e := by
  simp only [commitTxn, bind_eq_ok] at hcommit
  obtain ⟨⟨mvcc, committed⟩, hmvcc, hcommit⟩ := hcommit
  have h₀ : StorageOk typed { ts with mvcc := mvcc } :=
    ⟨h.schema, h.row, h.versions.of_commit hmvcc⟩
  cases committed with
  | error e =>
    cases e
    cases hcommit
    intro e he
    cases he
    trivial
  | ok commitTs =>
    simp only [bind_eq_ok] at hcommit
    obtain ⟨⟨ts₁, applied⟩, happly, hrest⟩ := hcommit
    have hwrites : ∀ p ∈ txn.writesIter, WriteOk typed { ts with mvcc := mvcc } p.1 p.2 := by
      intro p hp
      exact htxn p.1 p.2 (Std.TreeMap.mem_toList_iff_getElem?_eq_some.mp hp)
    obtain rfl := applyWrites_sound h₀ hwrites happly
    exact buildPending_sound (h₀.applyWrites hwrites happly).1 hrest

end TableStorage

/-! ### Errors of statements -/

namespace Database

theorem bufferWrite_errs (db : Database) (name : String) (ts : TableStorage) (id : UInt64)
    (bytes : Bytes) : Errs Sound (db.bufferWrite name ts id bytes) := by
  unfold bufferWrite
  split
  · exact Errs.panic
  · exact Errs.ok _

variable {r : Except DbError Unit} {fuel : Nat}

theorem insert_sound {stmt : InsertStatement} (hdb' : DbOk typed db')
    (hins : db.runInsertStmt stmt = .ok (db', r)) : ∀ e, r = .error e → Sound e := by
  intro e he
  unfold runInsertStmt at hins
  generalize (if db.inTransaction then db.ensureTxn stmt.table else db) = db₀ at hins
  simp only at hins
  split at hins
  · cases hins
    cases he
    trivial
  · next ts hts =>
    simp only [bind_eq_ok] at hins
    obtain ⟨made, hmade, hins⟩ := hins
    rcases catchErr_eq_ok hmade with ⟨⟨cols, row⟩, rfl, _⟩ | ⟨e', rfl, herr⟩
    · simp only [insertInto, bind_eq_ok] at hins
      obtain ⟨next, _, row', _, hins⟩ := hins
      split at hins
      · simp only [bind_eq_ok] at hins
        obtain ⟨_, _, hres⟩ := hins
        cases hres
        cases he
      · simp only [bind_eq_ok] at hins
        obtain ⟨ts₁, _, ⟨ts₂, built⟩, hbuild, hres⟩ := hins
        cases hres
        -- the table that is indexed differs from the one written back in its indexes only
        obtain ⟨ixs, rfl⟩ := TableStorage.buildPending_eq hbuild
        have hok := hdb'.storage (table_setTable_self hts)
        have hok₁ : StorageOk typed ts₁ := ⟨hok.schema, hok.row, hok.versions⟩
        exact TableStorage.buildPending_sound hok₁ hbuild e he
    · cases hins
      cases he
      exact TableStorage.insertRow_errs ts stmt e herr

theorem updateOne_errs (h : DbOk typed db) (stmt : UpdateStatement) (id : UInt64) :
    Errs Sound (updateOne stmt db id) := by
  refine Errs.bind (getTable_errs db stmt.table) fun ts hts => ?_
  refine Errs.bind (visibleBytes_errs ts _ id) fun seen hseen => ?_
  have hts := getTable_eq_ok hts
  cases seen with
  | none =>
    simp only
    split
    · exact Errs.ok _
    · exact Errs.err trivial
  | some bytes =>
    have hbytes := ((h.storage hts).visibleBytes (h.of_table hts) hseen).2
    refine Errs.bind (decode_errs id hbytes) fun row _ => ?_
    refine Errs.bind (TableStorage.applyAssignments_errs _ row _) fun row' _ => ?_
    split
    · exact bufferWrite_errs db stmt.table ts id _
    · exact Errs.bind (TableStorage.storeRow_errs ts id row') fun _ _ => Errs.ok _

theorem update_sound (h : DbOk typed db) {stmt : UpdateStatement}
    (hfits : ∀ a ∈ stmt.assignments, a.value.Fits)
    (hup : db.runUpdate fuel stmt = .ok (db', r)) : ∀ e, r = .error e → Sound e := by
  intro e he
  simp only [runUpdate, bind_eq_ok] at hup
  obtain ⟨ids, hids, hup⟩ := hup
  rcases catchErr_eq_ok hids with ⟨ids, rfl, _⟩ | ⟨e', rfl, herr⟩
  · refine Errs.forEach (P := DbOk typed) ?_ ?_ (h.enter stmt.table) hup e he
    · intro s id s' hs hone
      have hone' := hone
      simp only [updateOne, bind_eq_ok] at hone'
      obtain ⟨ts, hts, _⟩ := hone'
      have hcareful : Careful s (.update stmt) := hfits
      exact (hs.updateOne (getTable_eq_ok hts) (hcareful.stmtOk hs ts (getTable_eq_ok hts)) hone).1
    · exact fun s id hs => updateOne_errs hs stmt id
  · cases hup
    cases he
    exact matchingRowIds_errs h fuel stmt.table stmt.filter e herr

theorem delete_sound (h : DbOk typed db) {stmt : DeleteStatement}
    (hdel : db.runDelete fuel stmt = .ok (db', r)) :
    ∀ e, r = .error e → Sound e := by
  intro e he
  simp only [runDelete, bind_eq_ok] at hdel
  obtain ⟨ids, hids, hdel⟩ := hdel
  rcases catchErr_eq_ok hids with ⟨ids, rfl, _⟩ | ⟨e', rfl, herr⟩
  · simp only at hdel
    split at hdel
    · cases hdel
      cases he
      trivial
    · refine Errs.forEach (P := DbOk typed) (fun s id s' hs hone => hs.deleteOne hone) ?_
        (h.enter stmt.table) hdel e he
      intro s id _
      refine Errs.bind (getTable_errs s stmt.table) fun ts _ => ?_
      split
      · exact bufferWrite_errs s stmt.table ts id _
      · exact Errs.ok _
  · cases hdel
    cases he
    exact matchingRowIds_errs h fuel stmt.table stmt.filter e herr

theorem alterTable_sound (h : DbOk typed db) {stmt : AlterTableStatement}
    (hrun : db.runAlterTable stmt = .ok (db', r)) :
    ∀ e, r = .error e → Sound e := by
  intro e he
  unfold runAlterTable at hrun
  split at hrun
  · cases hrun
    cases he
    trivial
  · next ts hts =>
    simp only [bind_eq_ok] at hrun
    obtain ⟨altered, haltered, hrun⟩ := hrun
    rcases catchErr_eq_ok haltered with ⟨ts', rfl, _⟩ | ⟨e', rfl, herr⟩
    · cases hrun
      cases he
    · cases hrun
      cases he
      exact TableStorage.alter_errs (h.storage hts) stmt.op e herr

theorem commitAll_sound (h : DbOk typed db) {txns : List (String × Transaction)}
    (htxns : ∀ p ∈ txns, ∃ ts, db.table p.1 = some ts ∧ TxnOk typed ts p.2)
    (hrun : db.commitAll txns = .ok (db', r)) : ∀ e, r = .error e → Sound e := by
  induction txns generalizing db with
  | nil =>
    cases hrun
    intro e he
    cases he
  | cons p txns ih =>
    obtain ⟨name, txn⟩ := p
    obtain ⟨ts, hts, htxn⟩ := htxns (name, txn) mem_cons_self
    simp only [commitAll, hts, bind_eq_ok] at hrun
    obtain ⟨⟨ts', committed⟩, hcommit, hrun⟩ := hrun
    cases committed with
    | error e =>
      cases hrun
      exact TableStorage.commitTxn_sound (h.storage hts) htxn hcommit
    | ok u =>
      obtain ⟨hdb, hrest⟩ := h.commitOne hts htxns hcommit
      exact ih hdb hrest hrun

theorem commit_sound (h : DbOk typed db)
    (hrun : db.runCommit = .ok (db', r)) : ∀ e, r = .error e → Sound e := by
  unfold runCommit at hrun
  split at hrun
  · cases hrun
    intro e he
    cases he
    trivial
  · have hdb : DbOk typed { db with activeTxns := [], inTransaction := false } :=
      ⟨h.tables, by simp, fun _ => rfl⟩
    exact commitAll_sound hdb h.txns hrun

theorem ack_sound (h : ∀ e, r = .error e → Sound e) :
    ∀ e, (r.map fun _ => emptyResultSet) = .error e → Sound e := by
  intro e he
  cases r with
  | ok u => cases he
  | error e' =>
    cases he
    exact h e rfl

theorem execute_sound (h : DbOk typed db) {stmt : Statement} {params : Params}
    {r : Except DbError ResultSet} (hcareful : Careful db stmt)
    (hexec : execute fuel db stmt params = .ok (db', r)) : ∀ e, r = .error e → Sound e := by
  have hdb' := h.execute (hcareful.stmtOk h) hexec
  cases stmt with
  | select s =>
    simp only [execute, bind_eq_ok] at hexec
    obtain ⟨r', hr', hres⟩ := hexec
    cases hres
    intro e he
    rcases catchErr_eq_ok hr' with ⟨rs, rfl, _⟩ | ⟨e', rfl, herr⟩
    · cases he
    · cases he
      exact runSelectScoped_errs h fuel s params [] [] e herr
  | insert i =>
    obtain ⟨r', hrun, rfl⟩ := map_ack_eq_ok hexec
    exact ack_sound (insert_sound hdb' hrun)
  | update u =>
    obtain ⟨r', hrun, rfl⟩ := map_ack_eq_ok hexec
    exact ack_sound (update_sound h hcareful hrun)
  | delete d =>
    obtain ⟨r', hrun, rfl⟩ := map_ack_eq_ok hexec
    exact ack_sound (delete_sound h hrun)
  | createTable ct =>
    cases hexec
    refine ack_sound ?_
    unfold runCreateTable
    split <;> intro e he <;> cases he
    trivial
  | createView cv =>
    cases hexec
    refine ack_sound ?_
    unfold runCreateView
    split
    · intro e he
      cases he
      trivial
    · split <;> intro e he <;> cases he
      trivial
  | dropView name =>
    cases hexec
    refine ack_sound ?_
    unfold runDropView
    split <;> intro e he <;> cases he
    trivial
  | alterTable alter =>
    obtain ⟨r', hrun, rfl⟩ := map_ack_eq_ok hexec
    exact ack_sound (alterTable_sound h hrun)
  | begin =>
    cases hexec
    refine ack_sound ?_
    unfold runBegin
    split <;> intro e he <;> cases he
    trivial
  | commit =>
    obtain ⟨r', hrun, rfl⟩ := map_ack_eq_ok hexec
    exact ack_sound (commit_sound h hrun)
  | rollback =>
    cases hexec
    refine ack_sound ?_
    unfold runRollback
    split <;> intro e he <;> cases he
    trivial

/-! ### Runs -/

def CarefulRun (fuel : Nat) (db : Database) : List (Statement × Params) → Prop
  | [] => True
  | (stmt, params) :: rest => Careful db stmt ∧
      ∀ db' r, execute fuel db stmt params = .ok (db', r) → CarefulRun fuel db' rest

/-- Stored rows have one value of the declared type, or `NULL`, for each column. -/
def RowsMatch (db : Database) : Prop :=
  ∀ p ∈ db.tables, p.2.schema.columns.length = p.2.schema.types.length ∧
    ∀ id bytes, p.2.tree.get id = some bytes → ∃ row, tryDecodeRow bytes = .ok row ∧
      row.length = p.2.schema.columns.length ∧
      ∀ (i : Nat) (v : Value), row[i]? = some v →
      ∃ ty, p.2.schema.types[i]? = some ty ∧ v.HasType ty

end Database

theorem DbOk.rowsMatch (h : DbOk typed db) : db.RowsMatch := by
  intro p hp
  have hok := h.tables p hp
  refine ⟨hok.schema.1, ?_⟩
  intro id bytes hget
  obtain ⟨_, row, rfl, hrow⟩ := hok.row id bytes hget
  exact ⟨row, hrow.decode, hrow.length, fun i v hv => (hrow.value i v hv).2⟩

namespace Database

theorem run_typed {fuel : Nat} {stmts : List (Statement × Params)}
    {rs : List (Except DbError ResultSet)} (h : DbOk typed db)
    (hcareful : CarefulRun fuel db stmts) (hrun : run fuel db stmts = .ok (db', rs)) :
    DbOk typed db' ∧ ∀ r ∈ rs, ∀ e, r = .error e → Sound e := by
  induction stmts generalizing db rs with
  | nil =>
    cases hrun
    exact ⟨h, by simp⟩
  | cons p stmts ih =>
    obtain ⟨stmt, params⟩ := p
    simp only [run, bind_eq_ok] at hrun
    obtain ⟨⟨db₁, r⟩, hexec, ⟨db₂, rs'⟩, hrest, hres⟩ := hrun
    cases hres
    obtain ⟨hstmt, hnext⟩ := hcareful
    obtain ⟨hdb, hsound⟩ := ih (h.execute (hstmt.stmtOk h) hexec) (hnext db₁ r hexec) hrest
    refine ⟨hdb, ?_⟩
    intro r' hr'
    rcases mem_cons.mp hr' with rfl | hr'
    · exact execute_sound h hstmt hexec
    · exact hsound r' hr'

theorem empty_typed : DbOk typed empty :=
  ⟨by simp [empty], by simp [empty], fun _ => rfl⟩

/-- In a run of careful statements rows match their schemas, and no statement
fails on a corrupt row. -/
theorem rows_match_of_careful {fuel : Nat} {stmts : List (Statement × Params)}
    {rs : List (Except DbError ResultSet)} (hcareful : CarefulRun fuel empty stmts)
    (hrun : run fuel empty stmts = .ok (db, rs)) :
    RowsMatch db ∧ ∀ r ∈ rs, ∀ id, r ≠ .error (.corruptRow id) := by
  obtain ⟨hdb, hsound⟩ := run_typed empty_typed hcareful hrun
  refine ⟨hdb.rowsMatch, ?_⟩
  intro r hr id hcorrupt
  exact hsound r hr _ hcorrupt

/-- A typed row, inserted into a new table. -/
theorem rows_match_of_careful_insert :
    ∃ db rs, run 1 empty [(.createTable ⟨"t", [⟨"b", .text⟩]⟩, []),
        (.insert ⟨"t", [], [.int 1, .text "x"]⟩, [])] = .ok (db, rs) ∧
      RowsMatch db ∧ ∀ r ∈ rs, ∀ id, r ≠ .error (.corruptRow id) := by
  obtain ⟨db, rs, hrun⟩ : ∃ db rs, run 1 empty [(.createTable ⟨"t", [⟨"b", .text⟩]⟩, []),
      (.insert ⟨"t", [], [.int 1, .text "x"]⟩, [])] = .ok (db, rs) := ⟨_, _, rfl⟩
  refine ⟨db, rs, hrun, rows_match_of_careful ?_ hrun⟩
  refine ⟨trivial, ?_⟩
  intro db₁ r₁ hexec
  cases hexec
  refine ⟨?_, fun _ _ _ => trivial⟩
  intro ts cols row hts hrow
  cases hts
  cases hrow
  refine ⟨by decide, ?_, ?_⟩
  · intro lit hlit
    rcases mem_cons.mp hlit with rfl | hlit
    · trivial
    · obtain rfl := mem_singleton.mp hlit
      show (utf8 "x").length < 2 ^ 32
      decide
  · intro slot ty hty _
    obtain ⟨hlt, _⟩ := List.getElem?_eq_some_iff.mp hty
    exact mem_range.mpr hlt

/-- A row buffered before `ALTER TABLE` is stored with too few values by `COMMIT`. -/
theorem commit_after_alter_corrupts :
    ∃ db rs, run 1 empty [(.createTable ⟨"t", [⟨"a", .int⟩]⟩, []), (.begin, []),
        (.insert ⟨"t", [], [.int 1, .int 2]⟩, []),
        (.alterTable ⟨"t", .addColumn ⟨"b", .text⟩⟩, []), (.commit, [])] = .ok (db, rs) ∧
      ¬ RowsMatch db ∧ .error (.corruptRow 0) ∈ rs := by
  refine ⟨_, _, rfl, ?_, mem_of_getElem? (i := 4) rfl⟩
  intro h
  obtain ⟨_, hrows⟩ := h _ mem_cons_self
  obtain ⟨row, hdecode, hlen, _⟩ := hrows 0 _ rfl
  cases hdecode
  cases hlen

end Database

end Statements

end Oikos.Archon.Relational
