/-
Vector indexes over whole runs.  They stay in step with their tables as long as
no statement drops or renames the column of an index, gives a vector column the
name of a column before it, or makes rows that cannot be read back.
-/
import Oikos.Archon.Relational.IndexInStep

namespace Oikos.Archon.Relational

open List

variable {ts ts' : TableStorage} {db db' : Database} {name : String} {row row' : Row}

namespace Database

def IndexesInStep (db : Database) : Prop :=
  ∀ p ∈ db.tables, p.2.IndexesInStep

def KeepsIndexes (db : Database) : Statement → Prop
  | .insert stmt => ∀ ts cols row, db.table stmt.table = some ts →
      ts.insertRow stmt = .ok (cols, row) →
      ts.schema.columns.length < 2 ^ 16 ∧ ∀ lit ∈ stmt.values, lit.Fits
  | .update stmt => ∀ a ∈ stmt.assignments, a.value.Fits
  | .createTable ct => db.table ct.table = none → VectorsFirst ct.schema
  | .alterTable ⟨name, .addColumn col⟩ => ∀ ts, db.table name = some ts →
      col.name ∉ ts.schema.columns →
      NoLiveWrites db name ∧
        ∀ id bytes, ts.tree.get id = some bytes → ts.schema.columns.length + 1 < 2 ^ 16
  | .alterTable ⟨name, .dropColumn col⟩ => ∀ ts idx, db.table name = some ts →
      ts.schema.indexOf col = some (idx + 1) →
      NoLiveWrites db name ∧ ∀ p ∈ ts.vectorIndexes, p.1 ≠ col
  | .alterTable ⟨name, .renameColumn oldName newName⟩ => ∀ ts, db.table name = some ts →
      oldName ∈ ts.schema.columns → newName ∉ ts.schema.columns →
      ∀ p ∈ ts.vectorIndexes, p.1 ≠ oldName
  | _ => True

theorem IndexesInStep.table (h : db.IndexesInStep) (hts : db.table name = some ts) :
    ts.IndexesInStep :=
  h _ (mem_of_assocGet hts)

theorem IndexesInStep.setTable (h : db.IndexesInStep) (hts : ts.IndexesInStep) :
    (db.setTable name ts).IndexesInStep := by
  intro p hp
  rcases mem_assocSet hp with hp | rfl
  · exact h p hp
  · exact hts

theorem IndexesInStep.of_tables (h : db.IndexesInStep) (htables : db'.tables = db.tables) :
    db'.IndexesInStep := by
  intro p hp
  exact h p (htables ▸ hp)

/-! ### Rows -/

variable {stmt : InsertStatement} {cols : List Nat} {id : UInt64} {r : Except DbError Unit}
  {fuel n : Nat} {stmts : List (Statement × Params)} {rs : List (Except DbError ResultSet)}

/-- The row of an `INSERT` can be read back. -/
theorem storable_of_insert
    (hcount : ts.schema.columns.length < 2 ^ 16) (hfits : ∀ lit ∈ stmt.values, lit.Fits)
    (hrow : ts.insertRow stmt = .ok (cols, row))
    (hnumber : (TableStorage.numberRow cols id row : Result Empty Row) = .ok row') :
    Storable ts.schema row' := by
  obtain ⟨hlen, hfit⟩ := insertRow_fits hfits hrow
  obtain ⟨hlen', hfit'⟩ := numberRow_fits hfit hnumber
  refine ⟨hlen'.trans hlen, ?_, hfit'⟩
  rw [hlen', hlen]
  exact hcount

/-- The row of an `UPDATE` can be read back. -/
theorem storable_of_update {schema : Schema} {assignments : List Assignment}
    {bytes : Bytes} (hfits : ∀ a ∈ assignments, a.value.Fits)
    (hbytes : indexable.row schema bytes)
    (hdecode : decodeRowValidated id bytes schema.columns.length = .ok row)
    (hassign : TableStorage.applyAssignments schema row assignments = .ok row') :
    Storable schema row' := by
  obtain ⟨row₀, rfl, hrow⟩ := hbytes
  obtain ⟨hread, _⟩ := decodeRowValidated_eq_ok.mp hdecode
  obtain rfl : row₀ = row := Except.ok.inj (hrow.decode.symm.trans hread)
  obtain ⟨hlen, hfit⟩ := applyAssignments_fits hfits hrow.fits hassign
  exact ⟨hlen.trans hrow.length, hlen ▸ hrow.count, hfit⟩

theorem updateOk_indexable {schema : Schema} {stmt : UpdateStatement}
    (hfits : ∀ a ∈ stmt.assignments, a.value.Fits) : DbOk.UpdateOk indexable schema stmt := by
  intro id bytes row row' hbytes hdecode hassign
  exact ⟨row', rfl, storable_of_update hfits hbytes hdecode hassign⟩

/-! ### Statements -/

theorem tables_bufferWrite {E : Type} {bytes : Bytes}
    (h : (db.bufferWrite name ts id bytes : Result E Database) = .ok db') :
    db'.tables = db.tables := by
  unfold bufferWrite at h
  split at h
  · cases h
  · cases h
    rfl

/-- The state in which a statement that writes starts. -/
theorem tables_enter (db : Database) (name : String) :
    (if db.inTransaction then db.ensureTxn name else db).tables = db.tables := by
  split
  · exact ensureTxn_tables db name
  · rfl

theorem IndexesInStep.insertInto (hok : DbOk indexable db) (h : db.IndexesInStep)
    (hts : db.table name = some ts)
    (hrow : ∀ row', (TableStorage.numberRow cols ts.nextRowId row : Result Empty Row) = .ok row' →
      Storable ts.schema row')
    (hins : db.insertInto name ts cols row = .ok (db', r)) : db'.IndexesInStep := by
  obtain ⟨next, hnext, hins⟩ := bind_eq_ok.mp hins
  obtain ⟨row', hrow', hins⟩ := bind_eq_ok.mp hins
  have hstorable := hrow row' hrow'
  have hstep := h.table hts
  have hstep₀ : { ts with nextRowId := next }.IndexesInStep := hstep.congr rfl rfl rfl
  split at hins
  · obtain ⟨db₁, hbuf, hres⟩ := bind_eq_ok.mp hins
    cases hres
    exact (h.setTable hstep₀).of_tables (tables_bufferWrite hbuf)
  · obtain ⟨ts₁, hstore, hins⟩ := bind_eq_ok.mp hins
    obtain ⟨⟨ts₂, built⟩, hbuild, hres⟩ := bind_eq_ok.mp hins
    cases hres
    have hstep₁ := hstep₀.storeRow hstorable hstore
    have hlt : ts.nextRowId < next := by
      rw [UInt64.lt_iff_toNat_lt, checkedSucc_eq_ok hnext]
      exact Nat.lt_succ_self _
    obtain ⟨ixs, rfl⟩ := TableStorage.storeRow_eq hstore
    have hok₁ := ((hok.storage hts).advance hlt).insert hlt ⟨row', rfl, hstorable⟩ ixs
    exact h.setTable (TableStorage.IndexesInStep.buildPending hok₁ hstep₁ hbuild)

theorem KeepsIndexes.storable
    (h : KeepsIndexes db (.insert stmt)) (hts : db.table stmt.table = some ts)
    (hrow : ts.insertRow stmt = .ok (cols, row))
    (hnumber : (TableStorage.numberRow cols ts.nextRowId row : Result Empty Row) = .ok row') :
    Storable ts.schema row' := by
  obtain ⟨hcount, hfits⟩ := h ts cols row hts hrow
  exact storable_of_insert hcount hfits hrow hnumber

theorem KeepsIndexes.dbOk_insert (h : KeepsIndexes db (.insert stmt)) (hok : DbOk indexable db)
    (hins : db.runInsertStmt stmt = .ok (db', r)) : DbOk indexable db' := by
  apply hok.insert _ hins
  intro ts cols row row' hts hrow hnumber
  exact ⟨row', rfl, h.storable hts hrow hnumber⟩

theorem IndexesInStep.insert (hok : DbOk indexable db) (h : db.IndexesInStep)
    (hkeep : KeepsIndexes db (.insert stmt))
    (hins : db.runInsertStmt stmt = .ok (db', r)) : DbOk indexable db' ∧ db'.IndexesInStep := by
  refine ⟨hkeep.dbOk_insert hok hins, ?_⟩
  have hok₀ := hok.enter stmt.table
  have h₀ := h.of_tables (tables_enter db stmt.table)
  have htable : ∀ n, (if db.inTransaction then db.ensureTxn stmt.table else db).table n =
      db.table n := by
    intro n
    rw [Database.table, tables_enter, Database.table]
  unfold runInsertStmt at hins
  generalize (if db.inTransaction then db.ensureTxn stmt.table else db) = db₀ at *
  simp only [htable] at hins
  split at hins
  · cases hins
    exact h₀
  · next ts hts =>
    obtain ⟨made, hmade, hins⟩ := bind_eq_ok.mp hins
    rcases catchErr_eq_ok hmade with ⟨⟨cols, row⟩, rfl, hi⟩ | ⟨e, rfl, _⟩
    · exact IndexesInStep.insertInto hok₀ h₀ ((htable _).trans hts)
        (fun row' hnumber => hkeep.storable hts hi hnumber) hins
    · cases hins
      exact h₀

theorem IndexesInStep.updateOne (hok : DbOk indexable db) (h : db.IndexesInStep)
    {stmt : UpdateStatement} (hfits : ∀ a ∈ stmt.assignments, a.value.Fits)
    (hup : updateOne stmt db id = .ok db') : DbOk indexable db' ∧ db'.IndexesInStep := by
  obtain ⟨ts, hts, hrest⟩ := bind_eq_ok.mp hup
  have hts := getTable_eq_ok hts
  refine ⟨(hok.updateOne hts (updateOk_indexable hfits) hup).1, ?_⟩
  obtain ⟨seen, hseen, hrest⟩ := bind_eq_ok.mp hrest
  cases seen with
  | none =>
    dsimp only at hrest
    split at hrest
    · cases hrest
      exact h
    · cases hrest
  | some bytes =>
    obtain ⟨_, hbytes⟩ := (hok.storage hts).visibleBytes (hok.of_table hts) hseen
    obtain ⟨row, hdecode, hrest⟩ := bind_eq_ok.mp hrest
    obtain ⟨row', hassign, hrest⟩ := bind_eq_ok.mp hrest
    have hrow := storable_of_update hfits hbytes (ofExcept_eq_ok hdecode) hassign
    split at hrest
    · exact h.of_tables (tables_bufferWrite hrest)
    · obtain ⟨ts₁, hstore, hres⟩ := bind_eq_ok.mp hrest
      cases hres
      exact h.setTable ((h.table hts).storeRow hrow hstore)

theorem IndexesInStep.update (hok : DbOk indexable db) (h : db.IndexesInStep)
    {stmt : UpdateStatement} (hkeep : KeepsIndexes db (.update stmt))
    (hup : db.runUpdate fuel stmt = .ok (db', r)) : DbOk indexable db' ∧ db'.IndexesInStep := by
  obtain ⟨ids, hids, hup⟩ := bind_eq_ok.mp hup
  rcases catchErr_eq_ok hids with ⟨ids, rfl, _⟩ | ⟨e, rfl, _⟩
  · have hstep : ∀ s (id : UInt64) s', DbOk indexable s ∧ s.IndexesInStep →
        Database.updateOne stmt s id = .ok s' → DbOk indexable s' ∧ s'.IndexesInStep := by
      rintro s id s' ⟨hs, hins⟩ hone
      exact IndexesInStep.updateOne hs hins hkeep hone
    exact forEach_preserve hstep
      ⟨hok.enter stmt.table, h.of_tables (tables_enter db stmt.table)⟩ hup
  · cases hup
    exact ⟨hok, h⟩

theorem IndexesInStep.deleteOne (h : db.IndexesInStep)
    (hdel : deleteOne name db id = .ok db') : db'.IndexesInStep := by
  obtain ⟨ts, hts, hdel⟩ := bind_eq_ok.mp hdel
  split at hdel
  · exact h.of_tables (tables_bufferWrite hdel)
  · cases hdel
    exact h.setTable ((h.table (getTable_eq_ok hts)).deleteRow id)

theorem IndexesInStep.delete (h : db.IndexesInStep) {stmt : DeleteStatement}
    (hdel : db.runDelete fuel stmt = .ok (db', r)) :
    db'.IndexesInStep := by
  have h₀ := h.of_tables (tables_enter db stmt.table)
  obtain ⟨ids, hids, hdel⟩ := bind_eq_ok.mp hdel
  rcases catchErr_eq_ok hids with ⟨ids, rfl, _⟩ | ⟨e, rfl, _⟩
  · dsimp only at hdel
    split at hdel
    · cases hdel
      exact h₀
    · exact forEach_preserve (fun s id s' hs hone => hs.deleteOne hone) h₀ hdel
  · cases hdel
    exact h

theorem IndexesInStep.createTable (hok : DbOk indexable db) (h : db.IndexesInStep)
    {ct : CreateTableStatement} (hkeep : KeepsIndexes db (.createTable ct)) :
    DbOk indexable (db.runCreateTable ct).1 ∧ (db.runCreateTable ct).1.IndexesInStep := by
  cases hts : db.table ct.table with
  | some ts =>
    have hsame : (db.runCreateTable ct).1 = db := by simp [runCreateTable, hts]
    rw [hsame]
    exact ⟨hok, h⟩
  | none =>
    refine ⟨hok.createTable ⟨by simp [CreateTableStatement.schema], hkeep hts⟩, ?_⟩
    intro p hp
    simp only [runCreateTable, hts] at hp
    rcases mem_append.mp hp with hp | hp
    · exact h p hp
    · obtain rfl := mem_singleton.mp hp
      intro q hq
      cases hq

theorem alter_keeps (hok : DbOk indexable db) (h : db.IndexesInStep) {stmt : AlterTableStatement}
    (hkeep : KeepsIndexes db (.alterTable stmt)) (hts : db.table stmt.table = some ts)
    (halter : ts.alter stmt.op = .ok ts') :
    StorageOk indexable ts' ∧ ts'.IndexesInStep ∧ ∀ p ∈ db.activeTxns, p.1 = stmt.table →
      TxnOk indexable ts p.2 → TxnOk indexable ts' p.2 := by
  obtain ⟨name, op⟩ := stmt
  have hokts := hok.storage hts
  have hstep := h.table hts
  cases op with
  | addColumn col =>
    by_cases hnew : col.name ∈ ts.schema.columns
    · have hany : ts.schema.columns.any (· == col.name) = true :=
        any_eq_true.mpr ⟨col.name, hnew, beq_self_eq_true _⟩
      simp only [TableStorage.alter, hany, if_true] at halter
      cases halter
    · obtain ⟨hwrites, hcount⟩ := hkeep ts hts hnew
      obtain ⟨hok', hstep'⟩ := TableStorage.alter_addColumn hokts hstep (fun _ => hcount) halter
      exact ⟨hok', hstep', fun p hp hname _ => hwrites.txnOk hp hname⟩
  | dropColumn col =>
    obtain ⟨hok', hstep'⟩ := TableStorage.alter_dropColumn hokts hstep
      (fun idx hidx => (hkeep ts idx hts hidx).2) halter
    refine ⟨hok', hstep', fun p hp hname _ => ?_⟩
    have hwrites : NoLiveWrites db name := by
      simp only [TableStorage.alter] at halter
      split at halter
      · cases halter
      · cases halter
      · next i hpos hi =>
        obtain ⟨k, rfl⟩ : ∃ k, i = k + 1 :=
          Nat.exists_eq_succ_of_ne_zero fun h0 => hpos (h0 ▸ rfl)
        exact (hkeep ts k hts hi).1
    exact hwrites.txnOk hp hname
  | renameColumn oldName newName =>
    obtain ⟨hok', hstep', htxns⟩ :=
      TableStorage.alter_renameColumn hokts hstep (hkeep ts hts) halter
    exact ⟨hok', hstep', fun p _ _ => htxns p.2⟩

theorem IndexesInStep.alterTable (hok : DbOk indexable db) (h : db.IndexesInStep)
    {stmt : AlterTableStatement}
    (hkeep : KeepsIndexes db (.alterTable stmt)) (hrun : db.runAlterTable stmt = .ok (db', r)) :
    DbOk indexable db' ∧ db'.IndexesInStep := by
  unfold runAlterTable at hrun
  split at hrun
  · cases hrun
    exact ⟨hok, h⟩
  · next ts hts =>
    obtain ⟨altered, haltered, hrun⟩ := bind_eq_ok.mp hrun
    rcases catchErr_eq_ok haltered with ⟨ts', rfl, hts'⟩ | ⟨e, rfl, _⟩
    · cases hrun
      obtain ⟨hok', hstep', htxns⟩ := alter_keeps hok h hkeep hts hts'
      exact ⟨hok.setTable hts hok' htxns, h.setTable hstep'⟩
    · cases hrun
      exact ⟨hok, h⟩

theorem IndexesInStep.commitAll (hok : DbOk indexable db) (h : db.IndexesInStep)
    {txns : List (String × Transaction)}
    (htxns : ∀ p ∈ txns, ∃ ts, db.table p.1 = some ts ∧ TxnOk indexable ts p.2)
    (hrun : db.commitAll txns = .ok (db', r)) : db'.IndexesInStep := by
  induction txns generalizing db with
  | nil =>
    cases hrun
    exact h
  | cons p txns ih =>
    obtain ⟨name, txn⟩ := p
    obtain ⟨ts, hts, htxn⟩ := htxns (name, txn) mem_cons_self
    simp only [Database.commitAll, hts, bind_eq_ok] at hrun
    obtain ⟨⟨ts', committed⟩, hcommit, hrun⟩ := hrun
    obtain ⟨hdb, hrest⟩ := hok.commitOne hts htxns hcommit
    have hstep : (db.setTable name ts').IndexesInStep := h.setTable
      (TableStorage.IndexesInStep.commitTxn (hok.storage hts) (h.table hts) htxn hcommit)
    cases committed with
    | error e =>
      cases hrun
      exact hstep
    | ok u => exact ih hdb hstep hrest hrun

theorem IndexesInStep.commit (hok : DbOk indexable db) (h : db.IndexesInStep)
    (hrun : db.runCommit = .ok (db', r)) : db'.IndexesInStep := by
  unfold runCommit at hrun
  split at hrun
  · cases hrun
    exact h
  · have hok₀ : DbOk indexable { db with activeTxns := [], inTransaction := false } :=
      ⟨hok.tables, by simp, fun _ => rfl⟩
    exact IndexesInStep.commitAll hok₀ (h.of_tables rfl) hok.txns hrun

theorem IndexesInStep.execute (hok : DbOk indexable db) (h : db.IndexesInStep)
    {stmt : Statement} {params : Params} {r : Except DbError ResultSet}
    (hkeep : KeepsIndexes db stmt) (hexec : execute fuel db stmt params = .ok (db', r)) :
    DbOk indexable db' ∧ db'.IndexesInStep := by
  cases stmt with
  | insert i =>
    obtain ⟨r', hrun, _⟩ := map_ack_eq_ok hexec
    exact IndexesInStep.insert hok h hkeep hrun
  | update u =>
    obtain ⟨r', hrun, _⟩ := map_ack_eq_ok hexec
    exact IndexesInStep.update hok h hkeep hrun
  | delete d =>
    obtain ⟨r', hrun, _⟩ := map_ack_eq_ok hexec
    exact ⟨hok.delete hrun, h.delete hrun⟩
  | createTable ct =>
    cases hexec
    exact IndexesInStep.createTable hok h hkeep
  | alterTable alter =>
    obtain ⟨r', hrun, _⟩ := map_ack_eq_ok hexec
    exact IndexesInStep.alterTable hok h hkeep hrun
  | commit =>
    obtain ⟨r', hrun, _⟩ := map_ack_eq_ok hexec
    exact ⟨hok.commit hrun, IndexesInStep.commit hok h hrun⟩
  | select s =>
    have hstmt : DbOk.StmtOk indexable db (.select s) := trivial
    refine ⟨hok.execute hstmt hexec, h.of_tables ?_⟩
    obtain ⟨_, _, hres⟩ := bind_eq_ok.mp hexec
    cases hres
    rfl
  | createView cv =>
    have hstmt : DbOk.StmtOk indexable db (.createView cv) := trivial
    refine ⟨hok.execute hstmt hexec, h.of_tables ?_⟩
    cases hexec
    simp only [runCreateView]
    split
    · rfl
    · split <;> rfl
  | dropView name =>
    have hstmt : DbOk.StmtOk indexable db (.dropView name) := trivial
    refine ⟨hok.execute hstmt hexec, h.of_tables ?_⟩
    cases hexec
    simp only [runDropView]
    split <;> rfl
  | begin =>
    have hstmt : DbOk.StmtOk indexable db .begin := trivial
    refine ⟨hok.execute hstmt hexec, h.of_tables ?_⟩
    cases hexec
    simp only [runBegin]
    split <;> rfl
  | rollback =>
    have hstmt : DbOk.StmtOk indexable db .rollback := trivial
    refine ⟨hok.execute hstmt hexec, h.of_tables ?_⟩
    cases hexec
    simp only [runRollback]
    split <;> rfl

/-! ### Runs -/

def RunMeets (condition : Database → Statement → Prop) (fuel : Nat) (db : Database) :
    List (Statement × Params) → Prop
  | [] => True
  | (stmt, params) :: rest => condition db stmt ∧
      ∀ db' r, execute fuel db stmt params = .ok (db', r) → RunMeets condition fuel db' rest

theorem run_preserves {condition : Database → Statement → Prop} {Inv : Database → Prop}
    (hstep : ∀ db stmt params db' r, Inv db → condition db stmt →
      execute fuel db stmt params = .ok (db', r) → Inv db')
    (hdb : Inv db)
    (hmeets : RunMeets condition fuel db stmts) (hrun : run fuel db stmts = .ok (db', rs)) :
    Inv db' := by
  induction stmts generalizing db rs with
  | nil =>
    cases hrun
    exact hdb
  | cons p stmts ih =>
    obtain ⟨stmt, params⟩ := p
    obtain ⟨⟨db₁, r⟩, hexec, hrun⟩ := bind_eq_ok.mp hrun
    obtain ⟨⟨db₂, rs'⟩, hrest, hres⟩ := bind_eq_ok.mp hrun
    cases hres
    exact ih (hstep db stmt params db₁ r hdb hmeets.1 hexec) (hmeets.2 db₁ r hexec) hrest

/-- A database as it is opened: without tables, or with one table whose vector
columns are the first of their names. -/
def Opened (db : Database) : Prop :=
  db = empty ∨ ∃ schema, indexable.schema schema ∧ db = new schema

theorem Opened.indexes (h : Opened db) : DbOk indexable db ∧ db.IndexesInStep := by
  rcases h with rfl | ⟨schema, hschema, rfl⟩
  · exact ⟨⟨by simp [empty], by simp [empty], fun _ => rfl⟩, by simp [IndexesInStep, empty]⟩
  · constructor
    · refine ⟨?_, by simp [new, empty], fun _ => rfl⟩
      intro p hp
      obtain rfl := mem_singleton.mp hp
      exact StorageOk.empty hschema
    · intro p hp
      obtain rfl := mem_singleton.mp hp
      intro q hq
      cases hq

/-- In a run of statements that leave the columns of the indexes alone, the vector
indexes are in step with their tables. -/
theorem indexes_in_step_of_run {db₀ : Database} (hopened : Opened db₀)
    (hmeets : RunMeets KeepsIndexes fuel db₀ stmts)
    (hrun : run fuel db₀ stmts = .ok (db, rs)) : db.IndexesInStep := by
  have hstep : ∀ db stmt params db' r, DbOk indexable db ∧ db.IndexesInStep →
      KeepsIndexes db stmt → execute fuel db stmt params = .ok (db', r) →
      DbOk indexable db' ∧ db'.IndexesInStep := by
    rintro db stmt params db' r ⟨hok, h⟩ hkeep hexec
    exact IndexesInStep.execute hok h hkeep hexec
  exact (run_preserves hstep hopened.indexes hmeets hrun).2

/-! ### A table of vectors -/

/-- `CREATE TABLE t (e VECTOR)`. -/
def createVectors : CreateTableStatement :=
  ⟨"t", [⟨"e", .vector⟩]⟩

/-- `INSERT INTO t (e) VALUES ([0])`. -/
def insertVector : InsertStatement :=
  ⟨"t", ["e"], [.vector [⟨0⟩]]⟩

/-- The database has one table `t`, into which `n` vectors have been inserted. -/
structure Filled (n : Nat) (db : Database) (ts : TableStorage) : Prop where
  tables : db.tables = [("t", ts)]
  idle : db.inTransaction = false
  schema : ts.schema = createVectors.schema
  next : ts.nextRowId.toNat = n
  ok : DbOk indexable db
  index : minRowsForIndex ≤ n → ∃ p ∈ ts.vectorIndexes, p.1 = "e"

theorem Filled.table (h : Filled n db ts) : db.table "t" = some ts := by
  rw [Database.table, h.tables]
  rfl

theorem insertRow_vector (h : ts.schema = createVectors.schema) :
    ts.insertRow insertVector = .ok ([1], [.int 0, .vector [⟨0⟩]]) := by
  have hsame : ts.insertRow insertVector =
      (TableStorage.empty createVectors.schema).insertRow insertVector := by
    simp only [TableStorage.insertRow, TableStorage.insertSlots, h, TableStorage.empty]
  rw [hsame]
  rfl

theorem vectorsFirst_createVectors : VectorsFirst createVectors.schema := by
  intro i name hname htype
  rcases i with _ | _ | i
  · cases htype
  · cases hname
    rfl
  · cases hname

theorem Filled.keeps (h : Filled n db ts) : KeepsIndexes db (.insert insertVector) := by
  intro ts' cols row hts' _
  obtain rfl : ts = ts' := Option.some.inj (h.table.symm.trans hts')
  rw [h.schema]
  refine ⟨by decide, ?_⟩
  intro lit hlit
  obtain rfl := mem_singleton.mp hlit
  show [(⟨0⟩ : F32)].length < 2 ^ 32
  decide

theorem StorageOk.decodable (h : StorageOk indexable ts) : Decodable ts := by
  intro id bytes hget
  obtain ⟨_, row, rfl, hrow⟩ := h.row id bytes hget
  exact ⟨row, hrow.decode, hrow.length⟩

theorem Filled.insert (h : Filled n db ts) (hn : n + 1 < 2 ^ 64) :
    ∃ db' ts' r, execute 0 db (.insert insertVector) [] = .ok (db', r) ∧
    Filled (n + 1) db' ts' := by
  obtain ⟨next, hnext⟩ : ∃ next, (checkedSucc ts.nextRowId : Result Empty UInt64) = .ok next :=
    ⟨_, if_pos (h.next ▸ hn)⟩
  have hnextNat := checkedSucc_eq_ok hnext
  have hlt : ts.nextRowId < next := by
    rw [UInt64.lt_iff_toNat_lt, hnextNat]
    exact Nat.lt_succ_self _
  obtain ⟨row, hrow⟩ : ∃ row, (TableStorage.numberRow [1] ts.nextRowId
      [.int 0, .vector [⟨0⟩]] : Result Empty Row) = .ok row ∧ row[1]? = some (.vector [⟨0⟩]) :=
    ⟨_, rfl, rfl⟩
  have hstorable := h.keeps.storable h.table (insertRow_vector h.schema) hrow.1
  obtain ⟨ixs, hstore, _⟩ := @TableStorage.storeRow_ok row Empty { ts with nextRowId := next }
    ts.nextRowId hstorable.length
  have hok₁ := ((h.ok.storage h.table).advance hlt).insert hlt ⟨row, rfl, hstorable⟩ ixs
  have hv := congrFun (@TableStorage.committedVector_insert { ts with nextRowId := next }
    ts.schema row ts.nextRowId hstorable 1) ts.nextRowId
  rw [Function.update_self, vectorAt, hrow.2] at hv
  obtain ⟨ts₂, hbuild, hschema, hnext₂⟩ : ∃ ts₂, TableStorage.buildPending
      { ts with
        nextRowId := next, tree := ts.tree.insert ts.nextRowId (encodeRow row),
        vectorIndexes := ixs } = .ok (ts₂, .ok ()) ∧
      ts₂.schema = ts.schema ∧ ts₂.nextRowId = next := by
    obtain ⟨ixs', hbuild⟩ :=
      TableStorage.buildPending_ok (Or.inr (Or.inr (StorageOk.decodable hok₁)))
    exact ⟨_, hbuild, rfl, rfl⟩
  have hins : db.runInsertStmt insertVector = .ok (db.setTable "t" ts₂, .ok ()) := by
    have htable : db.table insertVector.table = some ts := h.table
    simp only [runInsertStmt, h.idle, Bool.false_eq_true, if_false, htable,
      insertRow_vector h.schema, catchErr, ok_bind, insertInto, hnext, hrow.1, hstore, hbuild]
    rfl
  refine ⟨db.setTable "t" ts₂, ts₂, _, by rw [execute, hins]; rfl, ?_⟩
  constructor
  · simp [setTable, h.tables, assocSet]
  · exact h.idle
  · exact hschema.trans h.schema
  · rw [hnext₂, hnextNat, h.next]
  · exact h.keeps.dbOk_insert h.ok hins
  · intro hmin
    have hcolumn : ts.schema.columns[1]? = some "e" := by rw [h.schema]; rfl
    have htype : ts.schema.types[1]? = some .vector := by rw [h.schema]; rfl
    have hlarge : minRowsForIndex ≤ next.toNat := by
      rw [hnextNat, h.next]
      exact hmin
    exact TableStorage.exists_index_of_build hok₁ hlarge hcolumn htype hv hbuild

theorem Filled.run {k : Nat} (h : Filled k db ts) (n : Nat) (hn : k + n < 2 ^ 64) :
    ∃ db' ts' rs, run 0 db (replicate n (.insert insertVector, [])) = .ok (db', rs) ∧
      RunMeets KeepsIndexes 0 db (replicate n (.insert insertVector, [])) ∧
      Filled (k + n) db' ts' := by
  induction n generalizing k db ts with
  | zero => exact ⟨db, ts, [], rfl, trivial, h⟩
  | succ n ih =>
    obtain ⟨db₁, ts₁, r, hexec, h₁⟩ := h.insert (by omega)
    obtain ⟨db₂, ts₂, rs, hrun, hmeets, h₂⟩ := ih h₁ (by omega)
    refine ⟨db₂, ts₂, r :: rs, ?_, ⟨h.keeps, ?_⟩, by rwa [Nat.add_right_comm] at h₂⟩
    · rw [replicate_succ, Database.run, hexec, ok_bind]
      dsimp only
      rw [hrun, ok_bind]
    · intro db' r' hexec'
      obtain ⟨rfl, _⟩ := Prod.mk.inj (Except.ok.inj (hexec.symm.trans hexec'))
      exact hmeets

/-- `CREATE TABLE t (e VECTOR)`, and a thousand vectors. -/
def vectorRun : List (Statement × Params) :=
  (.createTable createVectors, []) :: List.replicate 1000 (.insert insertVector, [])

theorem vectorRun_filled : ∃ db ts rs, run 0 empty vectorRun = .ok (db, rs) ∧
    RunMeets KeepsIndexes 0 empty vectorRun ∧ Filled 1000 db ts := by
  have hok := @DbOk.createTable indexable empty (Opened.indexes (Or.inl rfl)).1 createVectors
    ⟨rfl, vectorsFirst_createVectors⟩
  have h : Filled 0 (empty.runCreateTable createVectors).1
      (TableStorage.empty createVectors.schema) :=
    ⟨rfl, rfl, rfl, rfl, hok, fun hmin => absurd hmin (by decide)⟩
  obtain ⟨db, ts, rs, hrun, hmeets, hfilled⟩ := h.run 1000 (by decide)
  refine ⟨db, ts, .ok emptyResultSet :: rs, ?_, ⟨?_, ?_⟩, by rwa [zero_add] at hfilled⟩
  · have hcreate : execute 0 empty (.createTable createVectors) [] =
        .ok ((empty.runCreateTable createVectors).1, .ok emptyResultSet) := rfl
    rw [vectorRun, run, hcreate, ok_bind]
    dsimp only
    rw [hrun, ok_bind]
  · exact fun _ => vectorsFirst_createVectors
  · intro db' r hexec
    cases hexec
    exact hmeets

/-- After a thousand inserts there is an index, and it is in step. -/
theorem indexes_in_step_of_vectors : ∃ db rs, run 0 empty vectorRun = .ok (db, rs) ∧
    (∃ p ∈ db.tables, ∃ q ∈ p.2.vectorIndexes, q.1 = "e") ∧ db.IndexesInStep := by
  obtain ⟨db, ts, rs, hrun, hmeets, hfilled⟩ := vectorRun_filled
  refine ⟨db, rs, hrun, ⟨("t", ts), ?_, hfilled.index (by decide)⟩, ?_⟩
  · rw [hfilled.tables]
    exact mem_singleton_self _
  · exact indexes_in_step_of_run (Or.inl rfl) hmeets hrun

theorem run_concat {db₀ : Database} {stmt : Statement} {params : Params}
    {r : Except DbError ResultSet} (hrun : run fuel db₀ stmts = .ok (db, rs))
    (hexec : execute fuel db stmt params = .ok (db', r)) :
    run fuel db₀ (stmts ++ [(stmt, params)]) = .ok (db', rs ++ [r]) := by
  induction stmts generalizing db₀ rs with
  | nil =>
    cases hrun
    rw [nil_append, run, hexec, ok_bind]
    rfl
  | cons p stmts ih =>
    obtain ⟨stmt₀, params₀⟩ := p
    obtain ⟨⟨db₁, r₁⟩, hfirst, hrun⟩ := bind_eq_ok.mp hrun
    obtain ⟨⟨db₂, rs'⟩, hrest, hres⟩ := bind_eq_ok.mp hrun
    cases hres
    rw [cons_append, run, hfirst, ok_bind]
    dsimp only
    rw [ih hrest, ok_bind]
    rfl

/-- `ALTER TABLE t RENAME COLUMN e TO f` leaves the index under the old name. -/
theorem rename_column_strands_index : ∃ db rs,
    run 0 empty (vectorRun ++ [(.alterTable ⟨"t", .renameColumn "e" "f"⟩, [])]) = .ok (db, rs) ∧
      ¬ db.IndexesInStep := by
  obtain ⟨db, ts, rs, hrun, _, hfilled⟩ := vectorRun_filled
  have halter : ts.alter (.renameColumn "e" "f") =
      .ok { ts with schema := ⟨["id", "f"], [.int, .vector]⟩ } := by
    simp only [TableStorage.alter, hfilled.schema]
    rfl
  have hexec : execute 0 db (.alterTable ⟨"t", .renameColumn "e" "f"⟩) [] =
      .ok (db.setTable "t" { ts with schema := ⟨["id", "f"], [.int, .vector]⟩ },
        .ok emptyResultSet) := by
    simp only [execute, runAlterTable, hfilled.table, halter]
    rfl
  refine ⟨_, _, run_concat hrun hexec, ?_⟩
  intro hstep
  obtain ⟨p, hp, hname⟩ := hfilled.index (by decide)
  obtain ⟨slot, hcolumn, _⟩ := hstep.table (table_setTable_self hfilled.table) p hp
  rw [hname] at hcolumn
  cases hcolumn

end Database

end Oikos.Archon.Relational
