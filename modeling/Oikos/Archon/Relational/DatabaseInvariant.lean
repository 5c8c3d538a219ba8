/-
An invariant of the stored rows, for any discipline of schemas and encoded rows: rows and
buffered writes have ids that were handed out, they obey the discipline under the schema of
their table, and no version is newer than its clock.  Each statement of a run keeps it,
provided that the rows it makes obey the discipline.
-/
import Oikos.Archon.Relational.Statements

namespace Oikos.Archon.Relational

section Tables

structure Discipline where
  schema : Schema → Prop
  row : Schema → Bytes → Prop

variable {D : Discipline} {ts ts' : TableStorage} {db db' : Database} {name : String}

structure StorageOk (D : Discipline) (ts : TableStorage) : Prop where
  schema : D.schema ts.schema
  row : ∀ id bytes, ts.tree.get id = some bytes → id < ts.nextRowId ∧ D.row ts.schema bytes
  versions : ts.mvcc.Timely

def WriteOk (D : Discipline) (ts : TableStorage) (id : Key) (bytes : Bytes) : Prop :=
  bytes = mvccWrapTombstone ∨
    ∃ b, bytes = mvccLive :: b ∧ id < ts.nextRowId ∧ D.row ts.schema b

def TxnOk (D : Discipline) (ts : TableStorage) (txn : Transaction) : Prop :=
  ∀ id bytes, txn.getWrite id = some bytes → WriteOk D ts id bytes

structure DbOk (D : Discipline) (db : Database) : Prop where
  tables : ∀ p ∈ db.tables, StorageOk D p.2
  txns : ∀ p ∈ db.activeTxns, ∃ ts, db.table p.1 = some ts ∧ TxnOk D ts p.2
  idle : db.inTransaction = false → db.activeTxns = []

theorem DbOk.storage (h : DbOk D db) (hts : db.table name = some ts) : StorageOk D ts :=
  h.tables _ (mem_of_assocGet hts)

theorem StorageOk.empty {schema : Schema} (h : D.schema schema) :
    StorageOk D (TableStorage.empty schema) :=
  ⟨h, fun id bytes hget => by simp [TableStorage.empty] at hget, MvccStore.timely_new⟩

variable {txn : Transaction} {bytes : Bytes} {r : Except DbError Unit}

theorem TxnOk.congr (h : TxnOk D ts txn) (hschema : ts'.schema = ts.schema)
    (hid : ts.nextRowId ≤ ts'.nextRowId) : TxnOk D ts' txn := by
  intro id bytes hget
  refine (h id bytes hget).imp_right ?_
  rintro ⟨b, hb, hlt, hrow⟩
  exact ⟨b, hb, UInt64.lt_of_lt_of_le hlt hid, by rwa [hschema]⟩

theorem TxnOk.begin (ts : TableStorage) (store : MvccStore) : TxnOk D ts store.begin := by
  intro id bytes hget
  simp [MvccStore.begin, Transaction.getWrite] at hget

theorem getWrite_write (store : MvccStore) (txn : Transaction) (id : Key) (bytes : Bytes)
    (k : Key) :
    (store.write txn id bytes).getWrite k = if k = id then some bytes else txn.getWrite k := by
  simp only [MvccStore.write, Transaction.getWrite, Std.TreeMap.getElem?_insert,
    Std.compare_eq_iff_eq]
  by_cases hk : k = id
  · simp [hk]
  · simp [hk, Ne.symm hk]

theorem TxnOk.write (h : TxnOk D ts txn) (store : MvccStore) {id : Key}
    (hw : WriteOk D ts id bytes) : TxnOk D ts (store.write txn id bytes) := by
  intro k b hget
  rw [getWrite_write] at hget
  split at hget
  · next hk =>
    obtain rfl : bytes = b := Option.some.inj hget
    rwa [hk]
  · exact h k b hget

theorem StorageOk.visibleBytes (h : StorageOk D ts) {txn : Option Transaction} {id : UInt64}
    (htxn : ∀ t, txn = some t → TxnOk D ts t)
    (hv : ts.visibleBytes txn id = .ok (some bytes)) :
    id < ts.nextRowId ∧ D.row ts.schema bytes := by
  unfold TableStorage.visibleBytes at hv
  split at hv
  · next buffered hbuf =>
    obtain ⟨t, rfl, hget⟩ := Option.bind_eq_some_iff.mp hbuf
    rcases htxn t rfl id buffered hget with rfl | ⟨b, rfl, hid, hrow⟩
    · cases hv
    · cases hv
      exact ⟨hid, hrow⟩
  · exact h.row id bytes (by simpa using hv)

/-! ### Tables -/

namespace TableStorage

theorem maintainVectorIndexesForRow_eq {E : Type} {id : UInt64} {row : Row}
    (h : (ts.maintainVectorIndexesForRow id row : Result E TableStorage) = .ok ts') :
    ∃ ixs, ts' = { ts with vectorIndexes := ixs } := by
  simp only [maintainVectorIndexesForRow, bind_eq_ok] at h
  obtain ⟨ixs, _, hres⟩ := h
  exact ⟨ixs, by simpa [eq_comm] using hres⟩

theorem storeRow_eq {E : Type} {id : UInt64} {row : Row}
    (h : (ts.storeRow id row : Result E TableStorage) = .ok ts') :
    ∃ ixs, ts' = { ts with tree := ts.tree.insert id (encodeRow row), vectorIndexes := ixs } :=
  maintainVectorIndexesForRow_eq h

theorem maybeBuildVectorIndexes_eq (h : ts.maybeBuildVectorIndexes = .ok ts') :
    ∃ ixs, ts' = { ts with vectorIndexes := ixs } := by
  unfold maybeBuildVectorIndexes at h
  split at h
  · cases h
    exact ⟨ts.vectorIndexes, rfl⟩
  · split at h
    · cases h
      exact ⟨ts.vectorIndexes, rfl⟩
    · simp only [bind_eq_ok] at h
      obtain ⟨rows, _, hres⟩ := h
      cases hres
      exact ⟨_, rfl⟩

theorem buildPending_eq {r : Except DbError Unit} (h : ts.buildPending = .ok (ts', r)) :
    ∃ ixs, ts' = { ts with vectorIndexes := ixs } := by
  simp only [buildPending, bind_eq_ok] at h
  obtain ⟨built, hbuilt, hres⟩ := h
  rcases catchErr_eq_ok hbuilt with ⟨ts₁, rfl, hm⟩ | ⟨e, rfl, _⟩
  · cases hres
    exact maybeBuildVectorIndexes_eq hm
  · cases hres
    exact ⟨ts.vectorIndexes, rfl⟩

theorem applyWrite_eq {p : Key × Bytes} {r : Except DbError Unit}
    (h : ts.applyWrite p = .ok (ts', r)) :
    (∃ ixs, p.2[0]? = some mvccTombstone ∧
      ts' = { ts with tree := ts.tree.delete p.1, vectorIndexes := ixs }) ∨
    (∃ tag ixs, p.2[0]? = some tag ∧ tag ≠ mvccTombstone ∧
      ts' = { ts with tree := ts.tree.insert p.1 (p.2.drop 1), vectorIndexes := ixs }) := by
  obtain ⟨id, bytes⟩ := p
  simp only [applyWrite, bind_eq_ok] at h
  obtain ⟨tag, htag, h⟩ := h
  have hget : bytes[0]? = some tag := by
    unfold index at htag
    split at htag
    · next x hx =>
      obtain rfl : x = tag := by simpa using htag
      exact hx
    · cases htag
  split at h
  · next htomb =>
    obtain ⟨rfl, _⟩ : _ = ts' ∧ _ = r := by simpa using h
    exact Or.inl ⟨_, by rw [hget, htomb], rfl⟩
  · next hlive =>
    refine Or.inr ⟨tag, ?_⟩
    split at h
    · cases h
      exact ⟨ts.vectorIndexes, hget, hlive, rfl⟩
    · simp only [bind_eq_ok] at h
      obtain ⟨ts₁, hmaintain, hres⟩ := h
      obtain ⟨rfl, _⟩ : ts₁ = ts' ∧ _ = r := by simpa using hres
      obtain ⟨ixs, rfl⟩ := maintainVectorIndexesForRow_eq hmaintain
      exact ⟨ixs, hget, hlive, rfl⟩

end TableStorage

theorem StorageOk.insert (h : StorageOk D ts) {id : Key}
    (hid : id < ts.nextRowId) (hrow : D.row ts.schema bytes)
    (ixs : List (String × IvfFlatIndex)) :
    StorageOk D { ts with tree := ts.tree.insert id bytes, vectorIndexes := ixs } := by
  refine ⟨h.schema, ?_, h.versions⟩
  intro k b hget
  simp only [ValidTree.get_insert] at hget
  split at hget
  · next hk =>
    obtain rfl : bytes = b := Option.some.inj hget
    exact ⟨hk ▸ hid, hrow⟩
  · exact h.row k b hget

theorem StorageOk.delete (h : StorageOk D ts) (id : Key) (ixs : List (String × IvfFlatIndex)) :
    StorageOk D { ts with tree := ts.tree.delete id, vectorIndexes := ixs } := by
  refine ⟨h.schema, ?_, h.versions⟩
  intro k b hget
  simp only [ValidTree.get_delete] at hget
  split at hget
  · cases hget
  · exact h.row k b hget

/-- Ids that have been handed out stay so. -/
theorem StorageOk.advance (h : StorageOk D ts) {next : UInt64} (hlt : ts.nextRowId < next) :
    StorageOk D { ts with nextRowId := next } := by
  refine ⟨h.schema, ?_, h.versions⟩
  intro id bytes hget
  obtain ⟨hid, hbytes⟩ := h.row id bytes hget
  exact ⟨UInt64.lt_trans hid hlt, hbytes⟩

/-- The tables differ only in rows and indexes. -/
structure SameFrame (ts ts' : TableStorage) : Prop where
  schema : ts'.schema = ts.schema
  nextRowId : ts'.nextRowId = ts.nextRowId

theorem StorageOk.applyWrite (h : StorageOk D ts) {p : Key × Bytes}
    (hw : WriteOk D ts p.1 p.2) (happly : ts.applyWrite p = .ok (ts', r)) :
    StorageOk D ts' ∧ SameFrame ts ts' := by
  rcases TableStorage.applyWrite_eq happly with ⟨ixs, _, rfl⟩ | ⟨tag, ixs, htag, hlive, rfl⟩
  · exact ⟨h.delete p.1 ixs, rfl, rfl⟩
  · rcases hw with htomb | ⟨b, hb, hid, hrow⟩
    · rw [htomb] at htag
      obtain rfl : mvccTombstone = tag := by simpa [mvccWrapTombstone] using htag
      exact absurd rfl hlive
    · refine ⟨h.insert hid ?_ ixs, rfl, rfl⟩
      rw [hb]
      exact hrow

theorem StorageOk.applyWrites {writes : List (Key × Bytes)}
    (h : StorageOk D ts) (hw : ∀ p ∈ writes, WriteOk D ts p.1 p.2)
    (happly : ts.applyWrites writes = .ok (ts', r)) : StorageOk D ts' ∧ SameFrame ts ts' := by
  induction writes generalizing ts with
  | nil =>
    obtain ⟨rfl, _⟩ : ts = ts' ∧ _ = r := by simpa [TableStorage.applyWrites] using happly
    exact ⟨h, rfl, rfl⟩
  | cons p writes ih =>
    simp only [TableStorage.applyWrites, bind_eq_ok] at happly
    obtain ⟨⟨ts₁, applied⟩, hone, hrest⟩ := happly
    obtain ⟨h₁, hschema, hnext⟩ := h.applyWrite (hw p List.mem_cons_self) hone
    cases applied with
    | error e =>
      obtain ⟨rfl, _⟩ : ts₁ = ts' ∧ _ = r := by simpa using hrest
      exact ⟨h₁, hschema, hnext⟩
    | ok u =>
      obtain ⟨h', hschema', hnext'⟩ := ih h₁ (fun q hq => by
        have := hw q (List.mem_cons_of_mem p hq)
        rwa [WriteOk, hschema, hnext]) hrest
      exact ⟨h', hschema'.trans hschema, hnext'.trans hnext⟩

theorem StorageOk.commitTxn (h : StorageOk D ts)
    (htxn : TxnOk D ts txn) (hcommit : TableStorage.commitTxn name ts txn = .ok (ts', r)) :
    StorageOk D ts' ∧ SameFrame ts ts' := by
  simp only [TableStorage.commitTxn, bind_eq_ok] at hcommit
  obtain ⟨⟨mvcc, committed⟩, hmvcc, hcommit⟩ := hcommit
  have h₀ : StorageOk D { ts with mvcc := mvcc } :=
    ⟨h.schema, h.row, h.versions.of_commit hmvcc⟩
  cases committed with
  | error e =>
    cases e
    obtain ⟨rfl, _⟩ : _ = ts' ∧ _ = r := by simpa using hcommit
    exact ⟨h₀, rfl, rfl⟩
  | ok ts' =>
    simp only [bind_eq_ok] at hcommit
    obtain ⟨⟨ts₁, applied⟩, happly, hrest⟩ := hcommit
    have hwrites : ∀ p ∈ txn.writesIter, WriteOk D { ts with mvcc := mvcc } p.1 p.2 := by
      intro p hp
      exact htxn p.1 p.2 (Std.TreeMap.mem_toList_iff_getElem?_eq_some.mp hp)
    obtain ⟨h₁, hschema, hnext⟩ := h₀.applyWrites hwrites happly
    cases applied with
    | error e =>
      obtain ⟨rfl, _⟩ : ts₁ = _ ∧ _ = r := by simpa using hrest
      exact ⟨h₁, hschema, hnext⟩
    | ok u =>
      obtain ⟨ixs, rfl⟩ := TableStorage.buildPending_eq hrest
      exact ⟨⟨h₁.schema, h₁.row, h₁.versions⟩, hschema, hnext⟩

end Tables

section Databases

variable {D : Discipline} {ts ts' : TableStorage} {db db' : Database} {name : String}

namespace Database

@[simp] theorem table_setTable (db : Database) (name : String) (ts : TableStorage) (n : String) :
    (db.setTable name ts).table n =
      if n = name then (db.table name).map fun _ => ts else db.table n :=
  assocGet_assocSet db.tables name ts n

theorem table_setTable_self (h : db.table name = some ts) :
    (db.setTable name ts').table name = some ts' := by
  rw [table_setTable, if_pos rfl, h]
  rfl

theorem ensureTxn_tables (db : Database) (name : String) :
    (db.ensureTxn name).tables = db.tables := by
  unfold ensureTxn
  split
  · rfl
  · split <;> rfl

@[simp] theorem table_ensureTxn (db : Database) (name n : String) :
    (db.ensureTxn name).table n = db.table n := by
  rw [table, ensureTxn_tables, table]

theorem getTable_of_some (h : db.table name = some ts) : db.getTable name = .ok ts := by
  rw [getTable, h]

theorem getTable_of_none (h : db.table name = none) :
    db.getTable name = .error (.err (.unknownTable name)) := by
  rw [getTable, h]

theorem getTable_eq_ok (h : db.getTable name = .ok ts) : db.table name = some ts := by
  unfold getTable at h
  split at h
  · next ts' hts =>
    obtain rfl : ts' = ts := by simpa using h
    exact hts
  · cases h

theorem map_ack_eq_ok {x : Result Empty (Ret Unit)} {r : Except DbError ResultSet}
    (h : x.map ack = .ok (db', r)) :
    ∃ r', x = .ok (db', r') ∧ r = r'.map fun _ => emptyResultSet := by
  cases x with
  | error e => cases h
  | ok p =>
    cases h
    exact ⟨p.2, rfl, rfl⟩

end Database

namespace DbOk

theorem setTable (h : DbOk D db) (hts : db.table name = some ts) (hok : StorageOk D ts')
    (htxn : ∀ p ∈ db.activeTxns, p.1 = name → TxnOk D ts p.2 → TxnOk D ts' p.2) :
    DbOk D (db.setTable name ts') where
  tables p hp := by
    rcases mem_assocSet hp with hp | rfl
    · exact h.tables p hp
    · exact hok
  txns p hp := by
    obtain ⟨ts₁, hts₁, hp₁⟩ := h.txns p hp
    rw [Database.table_setTable]
    by_cases hname : p.1 = name
    · rw [if_pos hname, hts]
      obtain rfl : ts = ts₁ := by
        rw [hname, hts] at hts₁
        exact Option.some.inj hts₁
      exact ⟨ts', rfl, htxn p hp hname hp₁⟩
    · rw [if_neg hname]
      exact ⟨ts₁, hts₁, hp₁⟩
  idle := h.idle

theorem setFrame (h : DbOk D db) (hts : db.table name = some ts) (hok : StorageOk D ts')
    (hschema : ts'.schema = ts.schema) (hnext : ts.nextRowId ≤ ts'.nextRowId) :
    DbOk D (db.setTable name ts') :=
  h.setTable hts hok fun _ _ _ htxn => htxn.congr hschema hnext

theorem ensureTxn (h : DbOk D db) (hin : db.inTransaction = true) (name : String) :
    DbOk D (db.ensureTxn name) := by
  unfold Database.ensureTxn
  split
  · exact h
  · split
    · exact h
    · next ts hts =>
      refine ⟨h.tables, ?_, fun hfalse => absurd (hin.symm.trans hfalse) (by decide)⟩
      intro p hp
      rcases List.mem_append.mp hp with hp | hp
      · exact h.txns p hp
      · obtain rfl : p = (name, ts.mvcc.begin) := by simpa using hp
        exact ⟨ts, hts, TxnOk.begin ts ts.mvcc⟩

/-- The state in which a statement that writes starts. -/
theorem enter (h : DbOk D db) (name : String) :
    DbOk D (if db.inTransaction then db.ensureTxn name else db) := by
  split
  · next hin => exact h.ensureTxn hin name
  · exact h

variable {id : UInt64} {r : Except DbError Unit} {fuel : Nat}

theorem bufferWrite {E : Type} (h : DbOk D db) {bytes : Bytes}
    (hts : db.table name = some ts) (hw : WriteOk D ts id bytes)
    (hin : db.inTransaction = true)
    (hbuf : (db.bufferWrite name ts id bytes : Result E Database) = .ok db') : DbOk D db' := by
  unfold Database.bufferWrite at hbuf
  split at hbuf
  · cases hbuf
  · next txn htxn =>
    cases hbuf
    refine ⟨h.tables, ?_, fun hfalse => absurd (hin.symm.trans hfalse) (by decide)⟩
    intro p hp
    rcases mem_assocSet hp with hp | rfl
    · exact h.txns p hp
    · obtain ⟨ts₁, hts₁, hok⟩ := h.txns _ (mem_of_assocGet htxn)
      obtain rfl : ts = ts₁ := Option.some.inj (hts.symm.trans hts₁)
      exact ⟨ts, hts, hok.write ts.mvcc hw⟩

/-! ### Statements -/

theorem insertInto (h : DbOk D db) {cols : List Nat} {row : Row} (hts : db.table name = some ts)
    (hrow : ∀ row', (TableStorage.numberRow cols ts.nextRowId row : Result Empty Row) = .ok row' →
      D.row ts.schema (encodeRow row'))
    (hins : db.insertInto name ts cols row = .ok (db', r)) : DbOk D db' := by
  simp only [Database.insertInto, bind_eq_ok] at hins
  obtain ⟨next, hnext, row', hrow', hins⟩ := hins
  have hrow' := hrow row' hrow'
  have hlt : ts.nextRowId < next := by
    rw [UInt64.lt_iff_toNat_lt, checkedSucc_eq_ok hnext]
    exact Nat.lt_succ_self _
  have hok := (h.storage hts).advance hlt
  split at hins
  · next hin =>
    simp only [bind_eq_ok] at hins
    obtain ⟨db₁, hbuf, hres⟩ := hins
    cases hres
    exact (h.setFrame hts hok rfl (UInt64.le_of_lt hlt)).bufferWrite
      (Database.table_setTable_self hts) (Or.inr ⟨_, rfl, hlt, hrow'⟩) hin hbuf
  · simp only [bind_eq_ok] at hins
    obtain ⟨ts₁, hstore, ⟨ts₂, built⟩, hbuild, hres⟩ := hins
    cases hres
    obtain ⟨ixs, rfl⟩ := TableStorage.storeRow_eq hstore
    obtain ⟨ixs', rfl⟩ := TableStorage.buildPending_eq hbuild
    exact h.setFrame hts (hok.insert hlt hrow' ixs') rfl (UInt64.le_of_lt hlt)

theorem insert (h : DbOk D db) {stmt : InsertStatement}
    (hrow : ∀ ts cols row row', db.table stmt.table = some ts →
      ts.insertRow stmt = .ok (cols, row) →
      (TableStorage.numberRow cols ts.nextRowId row : Result Empty Row) = .ok row' →
      D.row ts.schema (encodeRow row'))
    (hins : db.runInsertStmt stmt = .ok (db', r)) : DbOk D db' := by
  have hdb := h.enter stmt.table
  have htable : ∀ n, (if db.inTransaction then db.ensureTxn stmt.table else db).table n =
      db.table n := by
    intro n
    split
    · rw [Database.table_ensureTxn]
    · rfl
  unfold Database.runInsertStmt at hins
  generalize (if db.inTransaction then db.ensureTxn stmt.table else db) = db₀ at *
  simp only [htable] at hins
  split at hins
  · cases hins
    exact hdb
  · next ts hts =>
    simp only [bind_eq_ok] at hins
    obtain ⟨made, hmade, hins⟩ := hins
    rcases catchErr_eq_ok hmade with ⟨⟨cols, row⟩, rfl, hi⟩ | ⟨e, rfl, _⟩
    · exact hdb.insertInto ((htable _).trans hts)
        (fun row' hrow' => hrow ts cols row row' hts hi hrow') hins
    · cases hins
      exact hdb

theorem of_table (h : DbOk D db) (hts : db.table name = some ts) :
    ∀ t, db.txn name = some t → TxnOk D ts t := by
  intro t ht
  obtain ⟨ts₁, hts₁, hok⟩ := h.txns _ (mem_of_assocGet ht)
  obtain rfl : ts = ts₁ := Option.some.inj (hts.symm.trans hts₁)
  exact hok

/-- The rows an `UPDATE` makes from rows that obey the discipline obey it too. -/
def UpdateOk (D : Discipline) (schema : Schema) (stmt : UpdateStatement) : Prop :=
  ∀ id bytes row row', D.row schema bytes →
    decodeRowValidated id bytes schema.columns.length = .ok row →
    TableStorage.applyAssignments schema row stmt.assignments = .ok row' →
    D.row schema (encodeRow row')

theorem updateOne (h : DbOk D db) {stmt : UpdateStatement}
    (hts : db.table stmt.table = some ts) (hrow : UpdateOk D ts.schema stmt)
    (hup : Database.updateOne stmt db id = .ok db') :
    DbOk D db' ∧ ∃ ts', db'.table stmt.table = some ts' ∧ ts'.schema = ts.schema := by
  simp only [Database.updateOne, bind_eq_ok] at hup
  obtain ⟨ts₁, hts₁, seen, hseen, hup⟩ := hup
  obtain rfl : ts = ts₁ := Option.some.inj (hts.symm.trans (Database.getTable_eq_ok hts₁))
  cases seen with
  | none =>
    simp only at hup
    split at hup
    · cases hup
      exact ⟨h, ts, hts, rfl⟩
    · cases hup
  | some bytes =>
    obtain ⟨hid, hbytes⟩ := (h.storage hts).visibleBytes (h.of_table hts) hseen
    simp only [bind_eq_ok] at hup
    obtain ⟨row, hdecode, row', hassign, hup⟩ := hup
    have hrow' := hrow id bytes row row' hbytes (ofExcept_eq_ok hdecode) hassign
    split at hup
    · next hin =>
      have hdb := h.bufferWrite hts (Or.inr ⟨_, rfl, hid, hrow'⟩) hin hup
      refine ⟨hdb, ts, ?_, rfl⟩
      unfold Database.bufferWrite at hup
      split at hup
      · cases hup
      · cases hup
        exact hts
    · simp only [bind_eq_ok] at hup
      obtain ⟨ts₂, hstore, hres⟩ := hup
      cases hres
      obtain ⟨ixs, rfl⟩ := TableStorage.storeRow_eq hstore
      have hdb := h.setFrame hts ((h.storage hts).insert hid hrow' ixs) rfl (UInt64.le_refl _)
      exact ⟨hdb, _, Database.table_setTable_self hts, rfl⟩

theorem update (h : DbOk D db) {stmt : UpdateStatement}
    (hrow : ∀ ts, db.table stmt.table = some ts → UpdateOk D ts.schema stmt)
    (hup : db.runUpdate fuel stmt = .ok (db', r)) : DbOk D db' := by
  simp only [Database.runUpdate, bind_eq_ok] at hup
  obtain ⟨ids, hids, hup⟩ := hup
  rcases catchErr_eq_ok hids with ⟨ids, rfl, hmatch⟩ | ⟨e, rfl, _⟩
  · simp only [Database.matchingRowIds, bind_eq_ok] at hmatch
    obtain ⟨ts, hts, _⟩ := hmatch
    have hts := Database.getTable_eq_ok hts
    have hstep : ∀ s (id : UInt64) s',
        (DbOk D s ∧ ∃ t, s.table stmt.table = some t ∧ t.schema = ts.schema) →
        Database.updateOne stmt s id = .ok s' →
        DbOk D s' ∧ ∃ t, s'.table stmt.table = some t ∧ t.schema = ts.schema := by
      rintro s id s' ⟨hs, t, ht, hschema⟩ hone
      obtain ⟨hs', t', ht', hschema'⟩ := hs.updateOne ht (hschema ▸ hrow ts hts) hone
      exact ⟨hs', t', ht', hschema'.trans hschema⟩
    refine (forEach_preserve hstep ⟨h.enter stmt.table, ts, ?_, rfl⟩ hup).1
    split
    · rwa [Database.table_ensureTxn]
    · exact hts
  · cases hup
    exact h

theorem deleteOne (h : DbOk D db) (hdel : Database.deleteOne name db id = .ok db') :
    DbOk D db' := by
  simp only [Database.deleteOne, bind_eq_ok] at hdel
  obtain ⟨ts, hts, hdel⟩ := hdel
  have hts := Database.getTable_eq_ok hts
  split at hdel
  · next hin => exact h.bufferWrite hts (Or.inl rfl) hin hdel
  · cases hdel
    exact h.setFrame hts ((h.storage hts).delete id _) rfl (UInt64.le_refl _)

theorem delete (h : DbOk D db) {stmt : DeleteStatement}
    (hdel : db.runDelete fuel stmt = .ok (db', r)) : DbOk D db' := by
  simp only [Database.runDelete, bind_eq_ok] at hdel
  obtain ⟨ids, hids, hdel⟩ := hdel
  rcases catchErr_eq_ok hids with ⟨ids, rfl, _⟩ | ⟨e, rfl, _⟩
  · simp only at hdel
    split at hdel
    · cases hdel
      exact h.enter stmt.table
    · exact forEach_preserve (fun s id s' hs hone => hs.deleteOne hone) (h.enter stmt.table) hdel
  · cases hdel
    exact h

theorem createTable (h : DbOk D db) {ct : CreateTableStatement} (hschema : D.schema ct.schema) :
    DbOk D (db.runCreateTable ct).1 := by
  unfold Database.runCreateTable
  split
  · exact h
  · next hnone =>
    refine ⟨?_, ?_, h.idle⟩
    · intro p hp
      rcases List.mem_append.mp hp with hp | hp
      · exact h.tables p hp
      · obtain rfl : p = _ := by simpa using hp
        exact StorageOk.empty hschema
    · intro p hp
      obtain ⟨ts, hts, hok⟩ := h.txns p hp
      refine ⟨ts, ?_, hok⟩
      have htable : assocGet db.tables p.1 = some ts := hts
      simp only [Database.table, assocGet_concat, htable]
      rfl

/-- What an `ALTER TABLE` must keep. -/
def AlterOk (D : Discipline) (db : Database) (stmt : AlterTableStatement) : Prop :=
  ∀ ts ts', db.table stmt.table = some ts → StorageOk D ts → ts.alter stmt.op = .ok ts' →
    StorageOk D ts' ∧
      ∀ p ∈ db.activeTxns, p.1 = stmt.table → TxnOk D ts p.2 → TxnOk D ts' p.2

theorem alterTable (h : DbOk D db) {stmt : AlterTableStatement}
    (halter : AlterOk D db stmt) (hrun : db.runAlterTable stmt = .ok (db', r)) : DbOk D db' := by
  unfold Database.runAlterTable at hrun
  split at hrun
  · cases hrun
    exact h
  · next ts hts =>
    simp only [bind_eq_ok] at hrun
    obtain ⟨altered, haltered, hrun⟩ := hrun
    rcases catchErr_eq_ok haltered with ⟨ts', rfl, hts'⟩ | ⟨e, rfl, _⟩
    · cases hrun
      obtain ⟨hok, htxns⟩ := halter ts ts' hts (h.storage hts) hts'
      exact h.setTable hts hok htxns
    · cases hrun
      exact h

theorem commitOne (h : DbOk D db) {txn : Transaction} {txns : List (String × Transaction)}
    (hts : db.table name = some ts)
    (htxns : ∀ p ∈ (name, txn) :: txns, ∃ ts, db.table p.1 = some ts ∧ TxnOk D ts p.2)
    (hcommit : TableStorage.commitTxn name ts txn = .ok (ts', r)) :
    DbOk D (db.setTable name ts') ∧
      ∀ p ∈ txns, ∃ ts, (db.setTable name ts').table p.1 = some ts ∧ TxnOk D ts p.2 := by
  have hsame : ∀ ts₁ n, n = name → db.table n = some ts₁ → ts = ts₁ := by
    rintro ts₁ n rfl hts₁
    exact Option.some.inj (hts.symm.trans hts₁)
  obtain ⟨ts₁, hts₁, htxn⟩ := htxns (name, txn) List.mem_cons_self
  obtain rfl := hsame ts₁ name rfl hts₁
  obtain ⟨hok, hschema, hnext⟩ := (h.storage hts).commitTxn htxn hcommit
  refine ⟨h.setFrame hts hok hschema (UInt64.le_of_eq hnext.symm), ?_⟩
  intro q hq
  obtain ⟨ts₂, hts₂, hok₂⟩ := htxns q (List.mem_cons_of_mem _ hq)
  rw [Database.table_setTable]
  by_cases hname : q.1 = name
  · obtain rfl := hsame ts₂ q.1 hname hts₂
    rw [if_pos hname, hts]
    exact ⟨ts', rfl, hok₂.congr hschema (UInt64.le_of_eq hnext.symm)⟩
  · rw [if_neg hname]
    exact ⟨ts₂, hts₂, hok₂⟩

theorem commitAll (h : DbOk D db) {txns : List (String × Transaction)}
    (htxns : ∀ p ∈ txns, ∃ ts, db.table p.1 = some ts ∧ TxnOk D ts p.2)
    (hrun : db.commitAll txns = .ok (db', r)) : DbOk D db' := by
  induction txns generalizing db with
  | nil =>
    cases hrun
    exact h
  | cons p txns ih =>
    obtain ⟨name, txn⟩ := p
    obtain ⟨ts, hts, _⟩ := htxns (name, txn) List.mem_cons_self
    simp only [Database.commitAll, hts, bind_eq_ok] at hrun
    obtain ⟨⟨ts', committed⟩, hcommit, hrun⟩ := hrun
    obtain ⟨hdb, hrest⟩ := h.commitOne hts htxns hcommit
    cases committed with
    | error e =>
      cases hrun
      exact hdb
    | ok u => exact ih hdb hrest hrun

theorem commit (h : DbOk D db) (hrun : db.runCommit = .ok (db', r)) : DbOk D db' := by
  unfold Database.runCommit at hrun
  split at hrun
  · cases hrun
    exact h
  · have hdb : DbOk D { db with activeTxns := [], inTransaction := false } :=
      ⟨h.tables, by simp, fun _ => rfl⟩
    exact hdb.commitAll h.txns hrun

/-- What a statement must keep. -/
def StmtOk (D : Discipline) (db : Database) : Statement → Prop
  | .insert stmt => ∀ ts cols row row', db.table stmt.table = some ts →
      ts.insertRow stmt = .ok (cols, row) →
      (TableStorage.numberRow cols ts.nextRowId row : Result Empty Row) = .ok row' →
      D.row ts.schema (encodeRow row')
  | .update stmt => ∀ ts, db.table stmt.table = some ts → UpdateOk D ts.schema stmt
  | .createTable ct => D.schema ct.schema
  | .alterTable stmt => AlterOk D db stmt
  | _ => True

theorem begin (h : DbOk D db) : DbOk D db.runBegin.1 := by
  unfold Database.runBegin
  split
  · exact h
  · refine ⟨h.tables, by simp, ?_⟩
    intro hfalse
    cases hfalse

theorem rollback (h : DbOk D db) : DbOk D db.runRollback.1 := by
  unfold Database.runRollback
  split
  · exact h
  · exact ⟨h.tables, by simp, fun _ => rfl⟩

theorem withViews (h : DbOk D db) (views : List (String × SelectStatement)) :
    DbOk D { db with views := views } :=
  ⟨h.tables, h.txns, h.idle⟩

theorem execute (h : DbOk D db) {stmt : Statement} {params : Params}
    {r : Except DbError ResultSet} (hstmt : StmtOk D db stmt)
    (hexec : Database.execute fuel db stmt params = .ok (db', r)) : DbOk D db' := by
  cases stmt with
  | select s =>
    simp only [Database.execute, bind_eq_ok] at hexec
    obtain ⟨_, _, hres⟩ := hexec
    cases hres
    exact h
  | insert i =>
    obtain ⟨r', hrun, _⟩ := Database.map_ack_eq_ok hexec
    exact h.insert hstmt hrun
  | update u =>
    obtain ⟨r', hrun, _⟩ := Database.map_ack_eq_ok hexec
    exact h.update hstmt hrun
  | delete d =>
    obtain ⟨r', hrun, _⟩ := Database.map_ack_eq_ok hexec
    exact h.delete hrun
  | createTable ct =>
    cases hexec
    exact h.createTable hstmt
  | createView cv =>
    cases hexec
    simp only [Database.runCreateView]
    split
    · exact h
    · split
      · exact h
      · exact h.withViews _
  | dropView name =>
    cases hexec
    simp only [Database.runDropView]
    split
    · exact h
    · exact h.withViews _
  | alterTable stmt =>
    obtain ⟨r', hrun, _⟩ := Database.map_ack_eq_ok hexec
    exact h.alterTable hstmt hrun
  | begin =>
    cases hexec
    exact h.begin
  | commit =>
    obtain ⟨r', hrun, _⟩ := Database.map_ack_eq_ok hexec
    exact h.commit hrun
  | rollback =>
    cases hexec
    exact h.rollback

end DbOk

/-! ### Reachable databases -/

/-- No requirement: what is left of the invariant holds of every reachable
database. -/
def anyRow : Discipline :=
  ⟨fun _ => True, fun _ _ => True⟩

theorem reencodeOne_eq_some {f : Row → Result DbError Row} {id : UInt64} {p : UInt64 × Bytes}
    (h : ts.reencodeOne f id = .ok (some p)) :
    ∃ bytes values values', ts.tree.get id = some bytes ∧ tryDecodeRow bytes = .ok values ∧
      f values = .ok values' ∧ p = (id, encodeRow values') := by
  unfold TableStorage.reencodeOne at h
  split at h
  · cases h
  · next bytes hget =>
    simp only [bind_eq_ok] at h
    obtain ⟨values, hdecode, values', hf, hp⟩ := h
    cases hp
    exact ⟨bytes, values, values', hget, ofExcept_eq_ok hdecode, hf, rfl⟩

/-- A row after `reencode`: changed if it was there, else as before. -/
theorem storeAll_get {f : Row → Result DbError Row} {rows : List (UInt64 × Bytes)}
    (h : ts.reencode f = .ok rows) (id : Key) :
    (∃ bytes values values', ts.tree.get id = some bytes ∧ tryDecodeRow bytes = .ok values ∧
      f values = .ok values' ∧ (ts.storeAll rows).tree.get id = some (encodeRow values')) ∨
    (¬ (id < ts.nextRowId ∧ ∃ bytes, ts.tree.get id = some bytes) ∧
      (ts.storeAll rows).tree.get id = ts.tree.get id) := by
  have hstep : ∀ (t : ValidTree Key Bytes) (k : Key) (v : Bytes) (k' : Key),
      (t.insert k v).get k' = if k' = k then some v else t.get k' :=
    fun t k v k' => ValidTree.get_insert t k v k'
  by_cases hid : ∃ bytes, (id, bytes) ∈ rows
  · left
    obtain ⟨b, hmem⟩ := hid
    have hdistinct : rows.Pairwise fun p q => p.1 ≠ q.1 := by
      refine pairwise_collect h (nodup_rowIds _) ?_
      intro a a' p p' hne hp hp'
      obtain ⟨_, _, _, _, _, _, rfl⟩ := reencodeOne_eq_some hp
      obtain ⟨_, _, _, _, _, _, rfl⟩ := reencodeOne_eq_some hp'
      exact hne
    obtain ⟨a, _, ha⟩ := (mem_collect h _).mp hmem
    obtain ⟨bytes, values, values', hget, hdecode, hf, hp⟩ := reencodeOne_eq_some ha
    obtain ⟨rfl, rfl⟩ : id = a ∧ b = encodeRow values' := by simpa using hp
    refine ⟨bytes, values, values', hget, hdecode, hf, ?_⟩
    exact get_foldl_of_mem (g := fun _ v => some v) hstep hdistinct hmem ts.tree
  · right
    refine ⟨?_, ?_⟩
    · rintro ⟨hlt, bytes, hget⟩
      obtain ⟨r, hr⟩ := collect_ok h id (mem_rowIds.mpr hlt)
      unfold TableStorage.reencodeOne at hr
      rw [hget] at hr
      simp only [bind_eq_ok] at hr
      obtain ⟨values, hdecode, values', hf, hres⟩ := hr
      refine hid ⟨encodeRow values', (mem_collect h _).mpr ⟨id, mem_rowIds.mpr hlt, ?_⟩⟩
      simp [TableStorage.reencodeOne, hget, hdecode, hf]
    · refine get_foldl_of_not_mem (g := fun _ v => some v) hstep ?_ ts.tree
      rintro ⟨k, bytes⟩ hp rfl
      exact hid ⟨bytes, hp⟩

theorem alter_cases {op : AlterTableOp} (h : ts.alter op = .ok ts') :
    (∃ f rows, ts.reencode f = .ok rows ∧ ts' = { ts.storeAll rows with schema := ts'.schema }) ∨
    ts' = { ts with schema := ts'.schema } := by
  cases op with
  | addColumn col =>
    simp only [TableStorage.alter] at h
    split at h
    · cases h
    · simp only [bind_eq_ok] at h
      obtain ⟨rows, hrows, hres⟩ := h
      cases hres
      exact Or.inl ⟨_, rows, hrows, rfl⟩
  | dropColumn name =>
    simp only [TableStorage.alter] at h
    split at h
    · cases h
    · cases h
    · simp only [bind_eq_ok] at h
      obtain ⟨rows, hrows, ⟨_, columns⟩, _, ⟨_, types⟩, _, hres⟩ := h
      cases hres
      exact Or.inl ⟨_, rows, hrows, rfl⟩
  | renameColumn oldName newName =>
    simp only [TableStorage.alter] at h
    split at h
    · cases h
    · cases h
    · split at h
      · cases h
      · simp only [bind_eq_ok] at h
        obtain ⟨columns, _, hres⟩ := h
        cases hres
        exact Or.inr rfl

theorem alterOk_anyRow (db : Database) (stmt : AlterTableStatement) :
    DbOk.AlterOk anyRow db stmt := by
  intro ts ts' _ hok halter
  have hnext : ts'.nextRowId = ts.nextRowId := by
    rcases alter_cases halter with ⟨f, rows, _, heq⟩ | heq
    · rw [heq]
      rfl
    · rw [heq]
  have hrow : ∀ id bytes, ts'.tree.get id = some bytes → id < ts.nextRowId := by
    intro id bytes hget
    rcases alter_cases halter with ⟨f, rows, hrows, heq⟩ | heq
    · rw [heq] at hget
      rcases storeAll_get hrows id with ⟨b, _, _, hb, _⟩ | ⟨_, hsame⟩
      · exact (hok.row id b hb).1
      · exact (hok.row id bytes (hsame ▸ hget)).1
    · rw [heq] at hget
      exact (hok.row id bytes hget).1
  have hmvcc : ts'.mvcc = ts.mvcc := by
    rcases alter_cases halter with ⟨f, rows, _, heq⟩ | heq
    · rw [heq]
      rfl
    · rw [heq]
  refine ⟨⟨trivial, fun id bytes hget => ⟨hnext ▸ hrow id bytes hget, trivial⟩,
    hmvcc ▸ hok.versions⟩, ?_⟩
  intro p _ _ htxn id bytes hget
  rcases htxn id bytes hget with htomb | ⟨b, hb, hlt, _⟩
  · exact Or.inl htomb
  · exact Or.inr ⟨b, hb, hnext ▸ hlt, trivial⟩

theorem stmtOk_anyRow (db : Database) (stmt : Statement) : DbOk.StmtOk anyRow db stmt := by
  cases stmt with
  | alterTable alter => exact alterOk_anyRow db alter
  | insert i => exact fun _ _ _ _ _ _ _ => trivial
  | update u => exact fun _ _ _ _ _ _ _ _ _ => trivial
  | _ => trivial

theorem Database.Reachable.dbOk (h : Reachable db) : DbOk anyRow db := by
  induction h with
  | empty => exact ⟨by simp [Database.empty], by simp [Database.empty], fun _ => rfl⟩
  | new schema =>
    refine ⟨?_, by simp [Database.new, Database.empty], fun _ => rfl⟩
    intro p hp
    obtain rfl : p = _ := by simpa [Database.new] using hp
    exact StorageOk.empty trivial
  | step _ hexec ih => exact ih.execute (stmtOk_anyRow _ _) hexec

end Databases

end Oikos.Archon.Relational
