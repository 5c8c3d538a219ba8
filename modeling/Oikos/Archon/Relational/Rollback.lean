/-
Transactions that are rolled back.  While a transaction is open, statements that
read and write rows leave the stored rows alone; they only buffer writes and hand
out row ids.
-/
import Oikos.Archon.Relational.DatabaseInvariant
import Oikos.Archon.Relational.SelectFrame

namespace Oikos.Archon.Relational

/-- `SELECT`, `INSERT`, `UPDATE` and `DELETE`. -/
def Statement.isDml : Statement → Bool
  | .select _ => true
  | .insert _ => true
  | .update _ => true
  | .delete _ => true
  | _ => false

structure MoreIds (ts ts' : TableStorage) : Prop where
  same : ts' = { ts with nextRowId := ts'.nextRowId }
  nextRowId : ts.nextRowId ≤ ts'.nextRowId

theorem MoreIds.refl (ts : TableStorage) : MoreIds ts ts :=
  ⟨rfl, UInt64.le_refl _⟩

/-- A transaction is open on `db₀`: only row ids and buffered writes have changed. -/
structure Buffers (db₀ db : Database) : Prop where
  views : db.views = db₀.views
  tables : ∀ name, (db₀.table name = none ∧ db.table name = none) ∨
    ∃ ts₀ ts, db₀.table name = some ts₀ ∧ db.table name = some ts ∧ MoreIds ts₀ ts
  inTransaction : db.inTransaction = true

variable {db₀ db db' : Database} {ts ts' : TableStorage} {name : String}

namespace Buffers

theorem withTxns (h : Buffers db₀ db) (txns : List (String × Transaction)) :
    Buffers db₀ { db with activeTxns := txns } :=
  ⟨h.views, h.tables, h.inTransaction⟩

theorem ensureTxn (h : Buffers db₀ db) (name : String) : Buffers db₀ (db.ensureTxn name) := by
  unfold Database.ensureTxn
  split
  · exact h
  · split
    · exact h
    · exact h.withTxns _

variable {id : UInt64} {r : Except DbError Unit} {fuel : Nat}

theorem bufferWrite {E : Type} {bytes : Bytes} (h : Buffers db₀ db)
    (hbuf : (db.bufferWrite name ts id bytes : Result E Database) = .ok db') :
    Buffers db₀ db' := by
  unfold Database.bufferWrite at hbuf
  split at hbuf
  · cases hbuf
  · cases hbuf
    exact h.withTxns _

theorem setTable (h : Buffers db₀ db) (hts : db.table name = some ts) (hmore : MoreIds ts ts') :
    Buffers db₀ (db.setTable name ts') := by
  refine ⟨h.views, ?_, h.inTransaction⟩
  intro n
  rw [Database.table_setTable]
  by_cases hn : n = name
  · rw [hn, if_pos rfl, hts]
    rcases h.tables name with ⟨_, hnone⟩ | ⟨ts₀, ts₁, hts₀, hts₁, hrel⟩
    · rw [hts] at hnone
      cases hnone
    · obtain rfl : ts = ts₁ := Option.some.inj (hts.symm.trans hts₁)
      refine Or.inr ⟨ts₀, ts', hts₀, rfl, ?_, UInt64.le_trans hrel.nextRowId hmore.nextRowId⟩
      rw [hmore.same, hrel.same]
  · rw [if_neg hn]
    exact h.tables n

theorem insert {stmt : InsertStatement} (h : Buffers db₀ db)
    (hins : db.runInsertStmt stmt = .ok (db', r)) : Buffers db₀ db' := by
  have h₁ := h.ensureTxn stmt.table
  unfold Database.runInsertStmt at hins
  simp only [h.inTransaction, if_true] at hins
  split at hins
  · cases hins
    exact h₁
  · next ts hts =>
    simp only [bind_eq_ok] at hins
    obtain ⟨made, hmade, hins⟩ := hins
    rcases catchErr_eq_ok hmade with ⟨⟨cols, row⟩, rfl, _⟩ | ⟨e, rfl, _⟩
    · simp only [Database.insertInto, h₁.inTransaction, if_true, bind_eq_ok] at hins
      obtain ⟨next, hnext, row', _, db₂, hbuf, hres⟩ := hins
      cases hres
      refine (h₁.setTable hts ⟨rfl, ?_⟩).bufferWrite hbuf
      rw [UInt64.le_iff_toNat_le, checkedSucc_eq_ok hnext]
      exact Nat.le_succ _
    · cases hins
      exact h₁

theorem updateOne {stmt : UpdateStatement} (h : Buffers db₀ db)
    (hup : Database.updateOne stmt db id = .ok db') : Buffers db₀ db' := by
  simp only [Database.updateOne, bind_eq_ok] at hup
  obtain ⟨ts, _, seen, _, hup⟩ := hup
  cases seen with
  | none =>
    simp only at hup
    split at hup
    · cases hup
      exact h
    · cases hup
  | some bytes =>
    simp only [h.inTransaction, if_true, bind_eq_ok] at hup
    obtain ⟨row, _, row', _, hbuf⟩ := hup
    exact h.bufferWrite hbuf

theorem deleteOne (h : Buffers db₀ db)
    (hdel : Database.deleteOne name db id = .ok db') : Buffers db₀ db' := by
  simp only [Database.deleteOne, h.inTransaction, if_true, bind_eq_ok] at hdel
  obtain ⟨ts, _, hbuf⟩ := hdel
  exact h.bufferWrite hbuf

theorem update {stmt : UpdateStatement}
    (h : Buffers db₀ db) (hup : db.runUpdate fuel stmt = .ok (db', r)) : Buffers db₀ db' := by
  simp only [Database.runUpdate, h.inTransaction, if_true, bind_eq_ok] at hup
  obtain ⟨ids, hids, hup⟩ := hup
  rcases catchErr_eq_ok hids with ⟨ids, rfl, _⟩ | ⟨e, rfl, _⟩
  · exact forEach_preserve (fun s id s' hs hone => hs.updateOne hone) (h.ensureTxn stmt.table) hup
  · cases hup
    exact h

theorem delete {stmt : DeleteStatement}
    (h : Buffers db₀ db) (hdel : db.runDelete fuel stmt = .ok (db', r)) : Buffers db₀ db' := by
  simp only [Database.runDelete, h.inTransaction, if_true, bind_eq_ok] at hdel
  obtain ⟨ids, hids, hdel⟩ := hdel
  rcases catchErr_eq_ok hids with ⟨ids, rfl, _⟩ | ⟨e, rfl, _⟩
  · simp only at hdel
    split at hdel
    · cases hdel
      exact h.ensureTxn stmt.table
    · exact forEach_preserve (fun s id s' hs hone => hs.deleteOne hone) (h.ensureTxn stmt.table)
        hdel
  · cases hdel
    exact h

theorem execute {stmt : Statement} {params : Params} {r : Except DbError ResultSet}
    (h : Buffers db₀ db) (hdml : stmt.isDml = true)
    (hexec : Database.execute fuel db stmt params = .ok (db', r)) : Buffers db₀ db' := by
  cases stmt with
  | select s =>
    simp only [Database.execute, bind_eq_ok] at hexec
    obtain ⟨_, _, hres⟩ := hexec
    cases hres
    exact h
  | insert i =>
    obtain ⟨_, hrun, _⟩ := Database.map_ack_eq_ok hexec
    exact h.insert hrun
  | update u =>
    obtain ⟨_, hrun, _⟩ := Database.map_ack_eq_ok hexec
    exact h.update hrun
  | delete d =>
    obtain ⟨_, hrun, _⟩ := Database.map_ack_eq_ok hexec
    exact h.delete hrun
  | _ => cases hdml

theorem run {stmts : List (Statement × Params)}
    {rs : List (Except DbError ResultSet)} (h : Buffers db₀ db)
    (hdml : ∀ p ∈ stmts, p.1.isDml = true)
    (hrun : Database.run fuel db stmts = .ok (db', rs)) : Buffers db₀ db' := by
  induction stmts generalizing db rs with
  | nil =>
    cases hrun
    exact h
  | cons p stmts ih =>
    obtain ⟨stmt, params⟩ := p
    simp only [Database.run, bind_eq_ok] at hrun
    obtain ⟨⟨db₁, r⟩, hexec, ⟨db₂, rs'⟩, hrest, hres⟩ := hrun
    cases hres
    exact ih (h.execute (hdml (stmt, params) List.mem_cons_self) hexec)
      (fun q hq => hdml q (List.mem_cons_of_mem _ hq)) hrest

end Buffers

theorem MoreIds.collect_visibleRow (h : MoreIds ts ts')
    (hbound : ∀ id bytes, ts.tree.get id = some bytes → id < ts.nextRowId) :
    collect (ts'.visibleRow none) (rowIds ts'.nextRowId) =
      collect (ts.visibleRow none) (rowIds ts.nextRowId) := by
  have hrow : ts'.visibleRow none = ts.visibleRow none := by
    rw [h.same]
    rfl
  obtain ⟨rest, hrest, hbeyond⟩ := rowIds_append h.nextRowId
  have hnone : collect (ts.visibleRow none) rest = .ok [] := by
    apply collect_none
    intro id hid
    have hget : ts.tree.get id = none := by
      rw [Option.eq_none_iff_forall_not_mem]
      intro bytes hbytes
      exact absurd (hbound id bytes hbytes) (UInt64.not_lt.mpr (hbeyond id hid))
    simp [TableStorage.visibleRow, TableStorage.visibleBytes, hget]
  rw [hrow, hrest, collect_append, hnone]
  cases collect (ts.visibleRow none) (rowIds ts.nextRowId) <;> simp

theorem Buffers.sameView_discard (h : Buffers db₀ db) (hok : DbOk anyRow db₀)
    (hidle : db₀.inTransaction = false) :
    SameView { db with activeTxns := [], inTransaction := false } db₀ := by
  refine ⟨h.views, ?_, ?_⟩
  · intro name
    rw [← isSome_assocGet, ← isSome_assocGet]
    show (db.table name).isSome = (db₀.table name).isSome
    rcases h.tables name with ⟨hts₀, hts⟩ | ⟨ts₀, ts, hts₀, hts, _⟩
    · rw [hts₀, hts]
    · rw [hts₀, hts]
      rfl
  · intro name
    have htxn : db₀.txn name = none := by
      rw [Database.txn, hok.idle hidle]
      rfl
    rcases h.tables name with ⟨hts₀, hts⟩ | ⟨ts₀, ts, hts₀, hts, hmore⟩
    · have hnone : Database.table { db with activeTxns := [], inTransaction := false } name =
          none := hts
      rw [Database.scanTable, Database.scanTable, Database.getTable_of_none hts₀,
        Database.getTable_of_none hnone]
      rfl
    · have hbound := fun id bytes hget => ((hok.storage hts₀).row id bytes hget).1
      have hschema : ts.schema = ts₀.schema := by rw [hmore.same]
      have hsome : Database.table { db with activeTxns := [], inTransaction := false } name =
          some ts := hts
      rw [Database.scanTable, Database.scanTable, Database.getTable_of_some hts₀,
        Database.getTable_of_some hsome, htxn]
      show (collect (ts.visibleRow none) (rowIds ts.nextRowId) >>= fun rows =>
        Except.ok (ts.schema.columns, rows)) = _
      rw [hmore.collect_visibleRow hbound, hschema]
      rfl

namespace Database

theorem run_append (fuel : Nat) (db : Database) (stmts more : List (Statement × Params)) :
    run fuel db (stmts ++ more) =
      (run fuel db stmts >>= fun p => run fuel p.1 more >>= fun q => .ok (q.1, p.2 ++ q.2)) := by
  induction stmts generalizing db with
  | nil =>
    simp only [List.nil_append, run, ok_bind]
    cases run fuel db more <;> rfl
  | cons p stmts ih =>
    obtain ⟨stmt, params⟩ := p
    simp only [List.cons_append, run, ih]
    cases execute fuel db stmt params with
    | error e => rfl
    | ok x =>
      simp only [ok_bind]
      cases run fuel x.1 stmts with
      | error e => rfl
      | ok y =>
        simp only [ok_bind]
        cases run fuel y.1 more <;> rfl

theorem runBegin_of_idle (h : db.inTransaction = false) :
    db.runBegin = ({ db with inTransaction := true, activeTxns := [] }, .ok ()) := by
  simp [runBegin, h]

theorem runRollback_of_open (h : db.inTransaction = true) :
    db.runRollback = ({ db with activeTxns := [], inTransaction := false }, .ok ()) := by
  simp [runRollback, h]

/-- After `BEGIN`, statements that read and write rows, and `ROLLBACK`, every query
returns what it returned before, and nothing of the transaction is left. -/
theorem rollback_undoes {fuel : Nat} {stmts : List (Statement × Params)}
    {rs : List (Except DbError ResultSet)} (hreach : Reachable db)
    (hidle : db.inTransaction = false) (hdml : ∀ p ∈ stmts, p.1.isDml = true)
    (hrun : run fuel db ((.begin, []) :: stmts ++ [(.rollback, [])]) = .ok (db', rs)) :
    (∀ fuel s params, CosineFree s → db'.runSelect fuel s params = db.runSelect fuel s params) ∧
      db'.inTransaction = false ∧ db'.activeTxns = [] ∧
      (∀ name, (db'.table name).map TableStorage.mvcc = (db.table name).map TableStorage.mvcc) ∧
      ∃ mid, rs = .ok emptyResultSet :: mid ++ [.ok emptyResultSet] := by
  have hok := hreach.dbOk
  have hbegin : Buffers db { db with inTransaction := true, activeTxns := [] } := by
    refine ⟨rfl, ?_, rfl⟩
    intro name
    cases hts : db.table name with
    | none => exact Or.inl ⟨rfl, hts⟩
    | some ts => exact Or.inr ⟨ts, ts, rfl, hts, MoreIds.refl ts⟩
  rw [List.cons_append] at hrun
  simp only [run, execute, runBegin_of_idle hidle, run_append, ack, ok_bind, bind_eq_ok] at hrun
  obtain ⟨⟨db₁, rs₁⟩, ⟨⟨db₂, mid⟩, hmid, hres₁⟩, hres⟩ := hrun
  have hbuf := hbegin.run hdml hmid
  rw [runRollback_of_open hbuf.inTransaction] at hres₁
  cases hres₁
  cases hres
  refine ⟨?_, rfl, rfl, ?_, mid, rfl⟩
  · intro fuel s params hs
    exact runSelect_congr (hbuf.sameView_discard hok hidle) fuel (Or.inr hs)
  · intro name
    show (db₂.table name).map _ = _
    rcases hbuf.tables name with ⟨hts₀, hts⟩ | ⟨ts₀, ts, hts₀, hts, hmore⟩
    · rw [hts₀, hts]
    · rw [hts₀, hts, hmore.same]
      rfl

/-- An `INSERT` into an empty table, rolled back. -/
theorem rollback_undoes_insert :
    ∃ db' rs, run 1 (Database.new ⟨["id"], [.int]⟩)
        ((.begin, []) :: [(.insert ⟨"t", [], [.int 7]⟩, [])] ++ [(.rollback, [])]) =
          .ok (db', rs) ∧
      (∀ fuel s params, CosineFree s →
        db'.runSelect fuel s params = (Database.new ⟨["id"], [.int]⟩).runSelect fuel s params) ∧
      db'.activeTxns = [] := by
  have hdml : ∀ p ∈ [((.insert ⟨"t", [], [.int 7]⟩, []) : Statement × Params)],
      p.1.isDml = true := by
    intro p hp
    obtain rfl := List.mem_singleton.mp hp
    rfl
  obtain ⟨db', rs, hrun⟩ : ∃ db' rs, run 1 (Database.new ⟨["id"], [.int]⟩)
      ((.begin, []) :: [(.insert ⟨"t", [], [.int 7]⟩, [])] ++ [(.rollback, [])]) =
        .ok (db', rs) := ⟨_, _, rfl⟩
  obtain ⟨hselect, _, htxns, _⟩ := rollback_undoes (Reachable.new _) rfl hdml hrun
  exact ⟨db', rs, hrun, hselect, htxns⟩

end Database

end Oikos.Archon.Relational
