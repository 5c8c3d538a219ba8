/-
Transactions of a single session.  Statements executed within a transaction go
like the same statements executed directly, and `COMMIT` leaves the same rows.
-/
import Oikos.Lib.Alike
import Oikos.Archon.Relational.Overlay
import Oikos.Archon.Relational.Rollback

namespace Oikos.Archon.Relational

open List Option

variable {d₁ d₂ d₂' db : Database} {t₁ t₁' t₂ t₂' ts : TableStorage} {txn : Transaction}
  {name : String} {id : UInt64} {row row' : Row}

/-- `d₁` executes statements directly, `d₂` within a transaction. -/
structure Sim (d₁ d₂ : Database) : Prop where
  idle : d₁.inTransaction = false
  noTxns : d₁.activeTxns = []
  inTransaction : d₂.inTransaction = true
  views : d₁.views = d₂.views
  distinct : (d₂.activeTxns.map Prod.fst).Nodup
  tables : ∀ name, (d₁.table name = none ∧ d₂.table name = none ∧ d₂.txn name = none) ∨
    ∃ t₁ t₂, d₁.table name = some t₁ ∧ d₂.table name = some t₂ ∧ Overlay t₁ t₂ (d₂.txn name)

theorem SameRows.visibleRow {txn : Option Transaction} (h : SameRows t₁ t₂ txn) :
    t₂.visibleRow txn = t₁.visibleRow none := by
  funext id
  simp only [TableStorage.visibleRow, h.bytes, h.schema]
  rfl

namespace Sim

theorem table (h : Sim d₁ d₂) (h₁ : d₁.table name = some t₁) :
    ∃ t₂, d₂.table name = some t₂ ∧ Overlay t₁ t₂ (d₂.txn name) := by
  rcases h.tables name with ⟨hnone, _⟩ | ⟨t, t₂, ht, ht₂, hover⟩
  · rw [h₁] at hnone
    cases hnone
  · obtain rfl : t₁ = t := some.inj (h₁.symm.trans ht)
    exact ⟨t₂, ht₂, hover⟩

theorem txn_eq_none (h : Sim d₁ d₂) (name : String) : d₁.txn name = none := by
  rw [Database.txn, h.noTxns]
  rfl

/-! ### Reading -/

theorem scanTable (h : Sim d₁ d₂) (name : String) : d₁.scanTable name = d₂.scanTable name := by
  unfold Database.scanTable Database.getTable
  rw [h.txn_eq_none]
  rcases h.tables name with ⟨h₁, h₂, _⟩ | ⟨t₁, t₂, h₁, h₂, hover⟩
  · rw [h₁, h₂]
    rfl
  · rw [h₁, h₂]
    simp only [ok_bind, hover.visibleRow, hover.nextRowId, hover.schema]

theorem sameView (h : Sim d₁ d₂) : SameView d₁ d₂ := by
  refine ⟨h.views, ?_, h.scanTable⟩
  intro name
  rw [← isSome_assocGet, ← isSome_assocGet]
  show (d₁.table name).isSome = (d₂.table name).isSome
  rcases h.tables name with ⟨h₁, h₂, _⟩ | ⟨t₁, t₂, h₁, h₂, _⟩
  · rw [h₁, h₂]
  · rw [h₁, h₂]
    rfl

theorem matchingRowIds (h : Sim d₁ d₂) (fuel : Nat) (name : String) (filter : Option Expr) :
    d₁.matchingRowIds fuel name filter = d₂.matchingRowIds fuel name filter := by
  have hagree := Database.runSelectScoped_congr h.sameView fuel
  unfold Database.matchingRowIds Database.getTable
  rw [h.txn_eq_none]
  rcases h.tables name with ⟨h₁, h₂, _⟩ | ⟨t₁, t₂, h₁, h₂, hover⟩
  · rw [h₁, h₂]
    simp only [error_bind]
  · rw [h₁, h₂]
    simp only [ok_bind, hover.visibleRow, hover.nextRowId, hover.schema]
    cases filter with
    | none => rfl
    | some expr =>
      simp only [buildSubqueryCache_congr hagree fun _ _ => Or.inl rfl]
      congr 1
      funext cache
      apply collect_congr
      intro id _
      congr 1
      funext seen
      cases seen with
      | none => rfl
      | some row =>
        simp only
        rw [whereHolds_congr hagree]
        exact fun _ _ => Or.inl rfl

theorem decodable_of_matching (h : Sim d₁ d₂) {fuel : Nat} {filter : Option Expr}
    {ids : List UInt64} (h₁ : d₁.table name = some t₁)
    (hmatch : d₁.matchingRowIds fuel name filter = .ok ids) :
    Decodable t₁ ∧ ∀ id ∈ ids, (t₁.tree.get id).isSome := by
  obtain ⟨t₂, _, hover⟩ := h.table h₁
  simp only [Database.matchingRowIds, Database.getTable, h₁, h.txn_eq_none, ok_bind] at hmatch
  obtain ⟨p, hcollect⟩ : ∃ p : Row → Result DbError Bool,
      collect (fun id => t₁.visibleRow none id >>= fun seen => seen.elim (.ok none)
        fun row => p row >>= fun keep => .ok (if keep then some id else none))
        (rowIds t₁.nextRowId) = .ok ids := by
    cases filter with
    | none =>
      refine ⟨fun _ => .ok true, hmatch ▸ collect_congr fun id _ => ?_⟩
      congr 1
      funext seen
      cases seen <;> rfl
    | some expr =>
      simp only [bind_eq_ok] at hmatch
      obtain ⟨cache, _, hcollect⟩ := hmatch
      refine ⟨fun row => whereHolds (d₁.runSelectScoped fuel)
        ⟨t₁.schema.columns, row, [], [], [], t₁.schema.columns, cache⟩ expr,
        hcollect ▸ collect_congr fun id _ => ?_⟩
      congr 1
      funext seen
      cases seen <;> rfl
  refine ⟨?_, ?_⟩
  · intro id bytes hget
    obtain ⟨r, hr⟩ := collect_ok hcollect id (mem_rowIds.mpr (hover.bound id bytes hget))
    simp only [bind_eq_ok, TableStorage.visibleRow, TableStorage.visibleBytes, bind_none,
      hget, ok_bind] at hr
    obtain ⟨seen, ⟨row, hrow, _⟩, _⟩ := hr
    exact ⟨row, decodeRowValidated_eq_ok.mp (ofExcept_eq_ok hrow)⟩
  · intro id hid
    obtain ⟨a, _, ha⟩ := (mem_collect hcollect id).mp hid
    simp only [bind_eq_ok, TableStorage.visibleRow, TableStorage.visibleBytes, bind_none,
      ok_bind] at ha
    obtain ⟨seen, hseen, hres⟩ := ha
    cases hget : t₁.tree.get a with
    | none =>
      rw [hget] at hseen
      cases hseen
      cases hres
    | some bytes =>
      cases seen with
      | none => cases hres
      | some row =>
        simp only [elim_some, bind_eq_ok] at hres
        obtain ⟨keep, _, hkeep⟩ := hres
        obtain rfl : a = id := by
          cases keep <;> simp_all
        rw [hget]
        rfl

/-! ### Writing -/

theorem ensureTxn (h : Sim d₁ d₂) (name : String)
    (hopen : ∀ t₁ t₂, d₁.table name = some t₁ → d₂.table name = some t₂ →
      Overlay t₁ t₂ (d₂.txn name) → t₁.mvcc.clock + 1 < 2 ^ 64 ∧ Buildable t₁ t₂) :
    Sim d₁ (d₂.ensureTxn name) ∧
      ((d₁.table name).isSome → ((d₂.ensureTxn name).txn name).isSome) := by
  unfold Database.ensureTxn
  split
  · next hany =>
    refine ⟨h, fun _ => ?_⟩
    rw [Database.txn, isSome_assocGet]
    exact hany
  · next hany =>
    have hnone : d₂.txn name = none := by
      rw [Database.txn, ← not_isSome_iff_eq_none, isSome_assocGet]
      exact hany
    rcases h.tables name with ⟨h₁, h₂, _⟩ | ⟨t₁, t₂, h₁, h₂, hover⟩
    · rw [h₂]
      refine ⟨h, ?_⟩
      rw [h₁]
      intro hfalse
      cases hfalse
    · rw [h₂]
      obtain ⟨hclock, hbuild⟩ := hopen t₁ t₂ h₁ h₂ hover
      have htxn : ∀ n, Database.txn { d₂ with
          activeTxns := d₂.activeTxns ++ [(name, t₂.mvcc.begin)] } n =
            (d₂.txn n).or (if n = name then some t₂.mvcc.begin else none) :=
        fun n => assocGet_concat d₂.activeTxns name t₂.mvcc.begin n
      refine ⟨⟨h.idle, h.noTxns, h.inTransaction, h.views, ?_, ?_⟩, ?_⟩
      · rw [map_append, map_cons, map_nil, nodup_append]
        refine ⟨h.distinct, by simp, ?_⟩
        intro a ha b hb
        obtain rfl := mem_singleton.mp hb
        rintro rfl
        exact assocGet_eq_none_iff.mp hnone ha
      · intro n
        rw [htxn]
        by_cases hn : n = name
        · subst hn
          rw [if_pos rfl, hnone]
          rw [hnone] at hover
          exact Or.inr ⟨t₁, t₂, h₁, h₂, hover.begin hclock hbuild⟩
        · rw [if_neg hn, or_none]
          exact h.tables n
      · intro _
        rw [htxn, if_pos rfl, hnone]
        rfl

theorem write (h : Sim d₁ d₂) (h₁ : d₁.table name = some t₁) (htxn : d₂.txn name = some txn)
    {txn' : Transaction} (hover : Overlay t₁' t₂' (some txn'))
    (htables : ∀ n, d₂'.table n = if n = name then some t₂' else d₂.table n)
    (hviews : d₂'.views = d₂.views) (hin : d₂'.inTransaction = d₂.inTransaction)
    (htxns : d₂'.activeTxns = assocSet d₂.activeTxns name txn') :
    Sim (d₁.setTable name t₁') d₂' := by
  have htxn' : ∀ n, d₂'.txn n = if n = name then some txn' else d₂.txn n := by
    intro n
    rw [Database.txn, htxns, assocGet_assocSet]
    by_cases hn : n = name
    · rw [if_pos hn, if_pos hn]
      show (d₂.txn name).map _ = _
      rw [htxn]
      rfl
    · rw [if_neg hn, if_neg hn]
      rfl
  refine ⟨h.idle, h.noTxns, hin.trans h.inTransaction, h.views.trans hviews.symm, ?_, ?_⟩
  · rw [htxns, keys_assocSet]
    exact h.distinct
  · intro n
    rw [htables, htxn', Database.table_setTable]
    by_cases hn : n = name
    · rw [if_pos hn, if_pos hn, if_pos hn, h₁]
      exact Or.inr ⟨t₁', t₂', rfl, rfl, hover⟩
    · rw [if_neg hn, if_neg hn, if_neg hn]
      exact h.tables n

end Sim

theorem Database.bufferWrite_ok {E : Type} (htxn : db.txn name = some txn) (ts : TableStorage)
    (id : UInt64) (bytes : Bytes) :
    (db.bufferWrite name ts id bytes : Result E Database) =
      .ok { db with activeTxns := assocSet db.activeTxns name (ts.mvcc.write txn id bytes) } := by
  rw [bufferWrite, htxn]

theorem Database.txn_assocSet (htxn : db.txn name = some txn) (txn' : Transaction) :
    Database.txn { db with activeTxns := assocSet db.activeTxns name txn' } name = some txn' := by
  have hget : assocGet db.activeTxns name = some txn := htxn
  rw [Database.txn, assocGet_assocSet, if_pos rfl, hget]
  rfl

/-! ### Statements -/

/-- The statement keeps within what the row codec and the commit clock can hold,
and an `INSERT` does not index rows that are corrupt. -/
def Safe (db : Database) : Statement → Prop
  | .insert stmt => ∀ ts, db.table stmt.table = some ts →
      ts.mvcc.clock + 1 < 2 ^ 64 ∧ Indexable ts ∧
        ∀ cols row, ts.insertRow stmt = .ok (cols, row) →
          ts.schema.columns.length < 2 ^ 16 ∧ ∀ lit ∈ stmt.values, lit.Fits
  | .update stmt => ∀ ts, db.table stmt.table = some ts →
      ts.mvcc.clock + 1 < 2 ^ 64 ∧ FitRows ts ∧ ∀ a ∈ stmt.assignments, a.value.Fits
  | .delete stmt => ∀ ts, db.table stmt.table = some ts → ts.mvcc.clock + 1 < 2 ^ 64
  | _ => True

theorem insertRow_congr (h : t₂.schema = t₁.schema) (stmt : InsertStatement) :
    t₂.insertRow stmt = t₁.insertRow stmt := by
  simp only [TableStorage.insertRow, TableStorage.insertSlots, h]

namespace Sim

theorem insertInto (h : Sim d₁ d₂) (h₁ : d₁.table name = some t₁) (h₂ : d₂.table name = some t₂)
    (htxn : d₂.txn name = some txn) (hover : Overlay t₁ t₂ (some txn)) (hindex : Indexable t₁)
    (hcount : t₁.schema.columns.length < 2 ^ 16) (hlen : row.length = t₁.schema.columns.length)
    (hfits : ∀ v ∈ row, v.Fits) (cols : List Nat) :
    Alike (WithResult Sim) (d₁.insertInto name t₁ cols row) (d₂.insertInto name t₂ cols row) := by
  unfold Database.insertInto
  rw [hover.nextRowId]
  refine Alike.bind (Alike.refl _) ?_
  rintro next _ hnext _ rfl
  refine Alike.bind (Alike.refl _) ?_
  rintro row' _ hrow' _ rfl
  obtain ⟨hlen', hfits'⟩ := numberRow_fits hfits hrow'
  have hlen' := hlen'.trans hlen
  obtain ⟨t₁s, t₁', hstore, hbuild, hover'⟩ := hover.insert hindex (checkedSucc_eq_ok hnext) hlen'
    (decodable_encodeRow hlen' (hlen'.symm ▸ hcount) hfits')
  have htable : ∀ n, (d₂.setTable name { t₂ with nextRowId := next }).table n =
      if n = name then some { t₂ with nextRowId := next } else d₂.table n := by
    intro n
    rw [Database.table_setTable, h₂]
    rfl
  have htxn' : (d₂.setTable name { t₂ with nextRowId := next }).txn name = some txn := htxn
  simp only [h.idle, h.inTransaction, Bool.false_eq_true, if_false, if_true]
  rw [hstore, ok_bind, hbuild, ok_bind, Database.bufferWrite_ok htxn', ok_bind]
  exact Alike.ok ⟨h.write h₁ htxn hover' htable rfl rfl rfl, rfl⟩

theorem insert (h : Sim d₁ d₂) {stmt : InsertStatement} (hsafe : Safe d₁ (.insert stmt)) :
    Alike (WithResult Sim) (d₁.runInsertStmt stmt) (d₂.runInsertStmt stmt) := by
  obtain ⟨hsim, hopen⟩ := h.ensureTxn stmt.table (by
    intro t₁ t₂ h₁ _ hover
    obtain ⟨hclock, hindex, _⟩ := hsafe t₁ h₁
    exact ⟨hclock, hover.buildable hindex⟩)
  unfold Database.runInsertStmt
  simp only [h.idle, h.inTransaction, Bool.false_eq_true, if_false, if_true]
  rcases hsim.tables stmt.table with ⟨h₁, h₂, _⟩ | ⟨t₁, t₂, h₁, h₂, hover⟩
  · rw [h₁, h₂]
    exact Alike.ok ⟨hsim, rfl⟩
  · rw [h₁, h₂]
    simp only [insertRow_congr hover.schema]
    refine Alike.bind (Alike.refl _) ?_
    rintro made _ hmade _ rfl
    rcases catchErr_eq_ok hmade with ⟨⟨cols, row⟩, rfl, hrow⟩ | ⟨e, rfl, _⟩
    · obtain ⟨_, hindex, hfit⟩ := hsafe t₁ h₁
      obtain ⟨hcount, hfits⟩ := hfit cols row hrow
      obtain ⟨hlen, hvalues⟩ := insertRow_fits hfits hrow
      obtain ⟨txn, htxn⟩ := isSome_iff_exists.mp (hopen (by rw [h₁]; rfl))
      rw [htxn] at hover
      exact hsim.insertInto h₁ h₂ htxn hover hindex hcount hlen hvalues cols
    · exact Alike.ok ⟨hsim, rfl⟩

structure Updating (name : String) (ids : List UInt64) (d₁ d₂ : Database) : Prop where
  sim : Sim d₁ d₂
  rows : ∃ t₁, d₁.table name = some t₁ ∧ FitRows t₁ ∧ ∀ id ∈ ids, (t₁.tree.get id).isSome
  txn : ∃ t, d₂.txn name = some t

theorem updateOne {stmt : UpdateStatement} {ids : List UInt64}
    (h : Updating stmt.table ids d₁ d₂) (hfits : ∀ a ∈ stmt.assignments, a.value.Fits)
    (hid : id ∈ ids) :
    Alike (Updating stmt.table ids) (Database.updateOne stmt d₁ id)
      (Database.updateOne stmt d₂ id) := by
  obtain ⟨hsim, ⟨t₁, h₁, hfit, hseen⟩, ⟨txn, htxn⟩⟩ := h
  obtain ⟨t₂, h₂, hover⟩ := hsim.table h₁
  obtain ⟨bytes, hget⟩ := isSome_iff_exists.mp (hseen id hid)
  have hfirst : t₁.visibleBytes none id = .ok (t₁.tree.get id) := rfl
  unfold Database.updateOne Database.getTable
  rw [h₁, h₂]
  simp only [ok_bind, hsim.txn_eq_none, hfirst, hover.bytes, hget, hover.schema]
  rw [htxn] at hover
  refine Alike.bind (Alike.refl _) ?_
  rintro row _ hrow _ rfl
  have hrow := ofExcept_eq_ok hrow
  refine Alike.bind (Alike.refl _) ?_
  rintro row' _ hrow' _ rfl
  obtain ⟨hlen, hvalues⟩ := applyAssignments_fits hfits (hfit id bytes row hget hrow) hrow'
  obtain ⟨hdecode, hwidth⟩ := decodeRowValidated_eq_ok.mp hrow
  have hcount : row'.length < 2 ^ 16 := hlen.symm ▸ length_tryDecodeRow hdecode
  obtain ⟨ixs, hstore, hover'⟩ := hover.update (hover.bound id bytes hget) (hlen.trans hwidth)
    (decodable_encodeRow (hlen.trans hwidth) hcount hvalues)
  simp only [hsim.idle, hsim.inTransaction, Bool.false_eq_true, if_false, if_true]
  rw [hstore, ok_bind, Database.bufferWrite_ok htxn]
  refine Alike.ok ⟨?_, ?_, ?_⟩
  · refine hsim.write h₁ htxn hover' (fun n => ?_) rfl rfl rfl
    by_cases hn : n = stmt.table
    · rw [if_pos hn, hn]
      exact h₂
    · rw [if_neg hn]
      rfl
  · refine ⟨_, Database.table_setTable_self h₁, ?_, ?_⟩
    · intro k b r hb hr
      simp only [ValidTree.get_insert] at hb
      split at hb
      · cases hb
        have hself := tryDecodeRow_encodeRow hcount hvalues
        obtain rfl : row' = r := Except.ok.inj
          (hself.symm.trans (decodeRowValidated_eq_ok.mp hr).1)
        exact hvalues
      · exact hfit k b r hb hr
    · intro k hk
      simp only [ValidTree.get_insert]
      split
      · rfl
      · exact hseen k hk
  · exact ⟨_, Database.txn_assocSet htxn _⟩

theorem openMatched (h : Sim d₁ d₂) {fuel : Nat} {filter : Option Expr} {ids : List UInt64}
    (hclock : ∀ ts, d₁.table name = some ts → ts.mvcc.clock + 1 < 2 ^ 64)
    (hmatch : d₁.matchingRowIds fuel name filter = .ok ids) :
    ∃ t₁, d₁.table name = some t₁ ∧ (∀ id ∈ ids, (t₁.tree.get id).isSome) ∧
      Sim d₁ (d₂.ensureTxn name) ∧ ∃ t, (d₂.ensureTxn name).txn name = some t := by
  obtain ⟨t₁, h₁⟩ : ∃ t₁, d₁.table name = some t₁ := by
    simp only [Database.matchingRowIds, bind_eq_ok] at hmatch
    obtain ⟨t₁, h₁, _⟩ := hmatch
    exact ⟨t₁, Database.getTable_eq_ok h₁⟩
  obtain ⟨hrows, hseen⟩ := h.decodable_of_matching h₁ hmatch
  obtain ⟨hsim, hopen⟩ := h.ensureTxn name (by
    intro t₁' t₂ h₁' _ _
    obtain rfl : t₁ = t₁' := some.inj (h₁.symm.trans h₁')
    exact ⟨hclock t₁ h₁, Or.inr (Or.inr hrows)⟩)
  exact ⟨t₁, h₁, hseen, hsim, isSome_iff_exists.mp (hopen (by rw [h₁]; rfl))⟩

theorem update (h : Sim d₁ d₂) {fuel : Nat} {stmt : UpdateStatement}
    (hsafe : Safe d₁ (.update stmt)) :
    Alike (WithResult Sim) (d₁.runUpdate fuel stmt) (d₂.runUpdate fuel stmt) := by
  unfold Database.runUpdate
  rw [← h.matchingRowIds]
  refine Alike.bind (Alike.refl _) ?_
  rintro matched _ hmatched _ rfl
  rcases catchErr_eq_ok hmatched with ⟨ids, rfl, hmatch⟩ | ⟨e, rfl, _⟩
  · obtain ⟨t₁, h₁, hseen, hsim, htxn⟩ := h.openMatched (fun ts hts => (hsafe ts hts).1) hmatch
    obtain ⟨_, hfit, hfits⟩ := hsafe t₁ h₁
    simp only [h.idle, h.inTransaction, Bool.false_eq_true, if_false, if_true]
    have hstart : Updating stmt.table ids d₁ (d₂.ensureTxn stmt.table) :=
      ⟨hsim, ⟨t₁, h₁, hfit, hseen⟩, htxn⟩
    refine (Alike.forEach (fun id hid s t hst => ?_) hstart).mono fun p q hpq => ⟨hpq.1.sim, hpq.2⟩
    exact updateOne hst hfits hid
  · exact Alike.ok ⟨h, rfl⟩

theorem deleteOne (h : Sim d₁ d₂) (h₁ : d₁.table name = some t₁) (htxn : d₂.txn name = some txn)
    (id : UInt64) :
    Alike (fun s t => Sim s t ∧ (∃ t₁, s.table name = some t₁) ∧ ∃ t', t.txn name = some t')
      (Database.deleteOne name d₁ id) (Database.deleteOne name d₂ id) := by
  obtain ⟨t₂, h₂, hover⟩ := h.table h₁
  rw [htxn] at hover
  unfold Database.deleteOne Database.getTable
  rw [h₁, h₂]
  simp only [ok_bind, h.idle, h.inTransaction, Bool.false_eq_true, if_false, if_true]
  rw [Database.bufferWrite_ok htxn]
  refine Alike.ok ⟨?_, ⟨_, Database.table_setTable_self h₁⟩, ?_⟩
  · refine h.write h₁ htxn (hover.delete id) (fun n => ?_) rfl rfl rfl
    by_cases hn : n = name
    · rw [if_pos hn, hn]
      exact h₂
    · rw [if_neg hn]
      rfl
  · exact ⟨_, Database.txn_assocSet htxn _⟩

theorem delete (h : Sim d₁ d₂) {fuel : Nat} {stmt : DeleteStatement}
    (hsafe : Safe d₁ (.delete stmt)) :
    Alike (WithResult Sim) (d₁.runDelete fuel stmt) (d₂.runDelete fuel stmt) := by
  unfold Database.runDelete
  rw [← h.matchingRowIds]
  refine Alike.bind (Alike.refl _) ?_
  rintro matched _ hmatched _ rfl
  rcases catchErr_eq_ok hmatched with ⟨ids, rfl, hmatch⟩ | ⟨e, rfl, _⟩
  · obtain ⟨t₁, h₁, _, hsim, htxn⟩ := h.openMatched hsafe hmatch
    obtain ⟨t₂, h₂, _⟩ := hsim.table h₁
    simp only [h.idle, h.inTransaction, Bool.false_eq_true, if_false, if_true]
    rw [h₁, h₂]
    refine (Alike.forEach (R := fun s t => Sim s t ∧ (∃ t₁, s.table stmt.table = some t₁) ∧
      ∃ t', t.txn stmt.table = some t') ?_ ⟨hsim, ⟨t₁, h₁⟩, htxn⟩).mono
      fun p q hpq => ⟨hpq.1.1, hpq.2⟩
    rintro id _ s t ⟨hst, ⟨_, hs⟩, ⟨_, ht⟩⟩
    exact hst.deleteOne hs ht id
  · exact Alike.ok ⟨h, rfl⟩

theorem ack {x y : Result Empty (Database.Ret Unit)} (h : Alike (WithResult Sim) x y) :
    Alike (WithResult Sim) (x.map Database.ack) (y.map Database.ack) :=
  h.map fun _ _ hpq => ⟨hpq.1, congrArg (Except.map fun _ => emptyResultSet) hpq.2⟩

theorem execute (h : Sim d₁ d₂) {fuel : Nat} {stmt : Statement} {params : Params}
    (hdml : stmt.isDml = true) (hcosine : ∀ s, stmt = .select s → CosineFree s)
    (hsafe : Safe d₁ stmt) :
    Alike (WithResult Sim) (Database.execute fuel d₁ stmt params)
      (Database.execute fuel d₂ stmt params) := by
  cases stmt with
  | select s =>
    simp only [Database.execute,
      Database.runSelect_congr h.sameView fuel (Or.inr (hcosine s rfl) : Scans params s)]
    refine Alike.bind (Alike.refl _) ?_
    rintro r _ _ _ rfl
    exact Alike.ok ⟨h, rfl⟩
  | insert i => exact ack (h.insert hsafe)
  | update u => exact ack (h.update hsafe)
  | delete d => exact ack (h.delete hsafe)
  | _ => cases hdml

end Sim

namespace Database

def SafeRun (fuel : Nat) (db : Database) : List (Statement × Params) → Prop
  | [] => True
  | (stmt, params) :: rest => Safe db stmt ∧
      ∀ db' r, execute fuel db stmt params = .ok (db', r) → SafeRun fuel db' rest

end Database

theorem Sim.run (h : Sim d₁ d₂) {fuel : Nat} {stmts : List (Statement × Params)}
    (hdml : ∀ p ∈ stmts, p.1.isDml = true)
    (hcosine : ∀ p ∈ stmts, ∀ s, p.1 = .select s → CosineFree s)
    (hsafe : d₁.SafeRun fuel stmts) :
    Alike (WithResult Sim) (Database.run fuel d₁ stmts) (Database.run fuel d₂ stmts) := by
  induction stmts generalizing d₁ d₂ with
  | nil => exact Alike.ok ⟨h, rfl⟩
  | cons p stmts ih =>
    obtain ⟨stmt, params⟩ := p
    obtain ⟨hstmt, hrest⟩ := hsafe
    refine Alike.bind (h.execute (hdml _ mem_cons_self) (hcosine _ mem_cons_self)
      hstmt) ?_
    rintro ⟨d₁', r⟩ ⟨d₂', r'⟩ hexec _ ⟨hsim, hr⟩
    obtain rfl : r = r' := hr
    refine Alike.bind (ih hsim (fun q hq => hdml q (mem_cons_of_mem _ hq))
      (fun q hq => hcosine q (mem_cons_of_mem _ hq)) (hrest d₁' r hexec)) ?_
    rintro ⟨e₁, rs⟩ ⟨e₂, rs'⟩ _ _ ⟨hsim', hrs⟩
    obtain rfl : rs = rs' := hrs
    exact Alike.ok ⟨hsim', rfl⟩

/-! ### Commit -/

/-- The rows of `d₁` are those of `d` with the transactions laid over it. -/
def Settling (d₁ d : Database) (txns : List (String × Transaction)) : Prop :=
  ∀ name, (d₁.table name = none ∧ d.table name = none ∧ assocGet txns name = none) ∨
    ∃ t₁ t₂, d₁.table name = some t₁ ∧ d.table name = some t₂ ∧
      SameRows t₁ t₂ (assocGet txns name) ∧
      ∀ t, assocGet txns name = some t → Overlay t₁ t₂ (some t)

theorem Settling.commitAll {d : Database} {txns : List (String × Transaction)}
    (h : Settling d₁ d txns) (hdistinct : (txns.map Prod.fst).Nodup) :
    ∃ d', d.commitAll txns = .ok (d', .ok ()) ∧ d'.activeTxns = d.activeTxns ∧
      Settling d₁ d' [] := by
  induction txns generalizing d with
  | nil => exact ⟨d, rfl, rfl, h⟩
  | cons p txns ih =>
    obtain ⟨name, txn⟩ := p
    obtain ⟨hnew, hdistinct'⟩ := nodup_cons.mp hdistinct
    have hhead : assocGet ((name, txn) :: txns) name = some txn := by
      rw [assocGet_cons, if_pos rfl]
    rcases h name with ⟨_, _, hnone⟩ | ⟨t₁, t₂, h₁, h₂, _, hover⟩
    · rw [hhead] at hnone
      cases hnone
    · obtain ⟨t₂', hcommit, hrows⟩ := (hover txn hhead).commit name
      have hnext : Settling d₁ (d.setTable name t₂') txns := by
        intro n
        rw [Database.table_setTable]
        by_cases hn : n = name
        · have hnone : assocGet txns n = none := assocGet_eq_none_iff.mpr (hn ▸ hnew)
          rw [if_pos hn, h₂, hnone, hn]
          exact Or.inr ⟨t₁, t₂', h₁, rfl, hrows, by simp⟩
        · rw [if_neg hn]
          have hold := h n
          rw [assocGet_cons, if_neg (Ne.symm hn)] at hold
          exact hold
      obtain ⟨d', hrest, htxns, hsettled⟩ := ih hnext hdistinct'
      refine ⟨d', ?_, htxns, hsettled⟩
      rw [Database.commitAll, h₂]
      simp only [hcommit, ok_bind]
      exact hrest

theorem Sim.settling (h : Sim d₁ d₂) :
    Settling d₁ { d₂ with activeTxns := [], inTransaction := false } d₂.activeTxns := by
  intro name
  rcases h.tables name with ⟨h₁, h₂, hnone⟩ | ⟨t₁, t₂, h₁, h₂, hover⟩
  · exact Or.inl ⟨h₁, h₂, hnone⟩
  · refine Or.inr ⟨t₁, t₂, h₁, h₂, hover.toSameRows, ?_⟩
    intro t ht
    have hopen : d₂.txn name = some t := ht
    rwa [hopen] at hover

/-- `COMMIT` succeeds and leaves the rows of the direct run. -/
theorem Sim.commit (h : Sim d₁ d₂) :
    ∃ d', d₂.runCommit = .ok (d', .ok ()) ∧ ∀ name, d'.scanTable name = d₁.scanTable name := by
  obtain ⟨d', hcommit, htxns, hsettled⟩ := h.settling.commitAll h.distinct
  refine ⟨d', by rw [Database.runCommit, h.inTransaction]; exact hcommit, ?_⟩
  intro name
  have hnone : d'.txn name = none := by
    rw [Database.txn, htxns]
    rfl
  unfold Database.scanTable Database.getTable
  rw [h.txn_eq_none, hnone]
  rcases hsettled name with ⟨h₁, h', _⟩ | ⟨t₁, t', h₁, h', hrows, _⟩
  · rw [h₁, h']
  · have hrows : SameRows t₁ t' none := hrows
    rw [h₁, h']
    simp only [ok_bind, hrows.visibleRow, hrows.nextRowId, hrows.schema]

/-- `BEGIN` opens a transaction over the database. -/
theorem Sim.begin (hok : DbOk anyRow db) (hidle : db.inTransaction = false) :
    Sim db { db with inTransaction := true, activeTxns := [] } := by
  refine ⟨hidle, hok.idle hidle, rfl, rfl, nodup_nil, ?_⟩
  intro name
  cases hts : db.table name with
  | none => exact Or.inl ⟨rfl, hts, rfl⟩
  | some ts => exact Or.inr ⟨ts, ts, rfl, hts, Overlay.refl (hok.storage hts)⟩

namespace Database

/-- Executed between `BEGIN` and `COMMIT`, safe statements have the results that
they have without a transaction, `COMMIT` succeeds, and every table has the same
rows afterwards. -/
theorem transaction_transparent {fuel : Nat} {stmts : List (Statement × Params)}
    (hreach : Reachable db) (hidle : db.inTransaction = false)
    (hdml : ∀ p ∈ stmts, p.1.isDml = true)
    (hcosine : ∀ p ∈ stmts, ∀ s, p.1 = .select s → CosineFree s)
    (hsafe : db.SafeRun fuel stmts) :
    (∀ stop, run fuel db stmts = .error stop →
      run fuel db ((.begin, []) :: stmts ++ [(.commit, [])]) = .error stop) ∧
    ∀ d₁ rs, run fuel db stmts = .ok (d₁, rs) →
      ∃ d₂, run fuel db ((.begin, []) :: stmts ++ [(.commit, [])]) =
          .ok (d₂, .ok emptyResultSet :: rs ++ [.ok emptyResultSet]) ∧
        ∀ name, d₂.scanTable name = d₁.scanTable name := by
  have hboth := (Sim.begin hreach.dbOk hidle).run hdml hcosine hsafe
  rw [cons_append]
  simp only [run, execute, runBegin_of_idle hidle, run_append, ack, ok_bind]
  generalize run fuel db stmts = x at hboth ⊢
  generalize run fuel { db with inTransaction := true, activeTxns := [] } stmts = y at hboth ⊢
  cases hboth with
  | error e =>
    refine ⟨fun stop hstop => ?_, fun d₁ rs hok => ?_⟩
    · cases hstop
      rfl
    · cases hok
  | @ok p q hpq =>
    obtain ⟨d₁, rs⟩ := p
    obtain ⟨d₂, rs₂⟩ := q
    obtain ⟨hsim, hrs⟩ := hpq
    obtain rfl : rs = rs₂ := hrs
    obtain ⟨d', hcommit, hscan⟩ := hsim.commit
    have hcommit : d₂.runCommit = .ok (d', .ok ()) := hcommit
    refine ⟨fun stop hstop => ?_, fun e₁ rs' hok => ?_⟩
    · cases hstop
    cases hok
    refine ⟨d', ?_, hscan⟩
    simp only [ok_bind, hcommit, Except.map, ack]
    rfl

/-- One `INSERT` as a transaction of its own. -/
theorem transaction_transparent_insert :
    ∃ d₁ d₂ rs, run 1 (Database.new ⟨["id"], [.int]⟩) [(.insert ⟨"t", [], [.int 7]⟩, [])] =
        .ok (d₁, rs) ∧
      run 1 (Database.new ⟨["id"], [.int]⟩)
          ((.begin, []) :: [(.insert ⟨"t", [], [.int 7]⟩, [])] ++ [(.commit, [])]) =
        .ok (d₂, .ok emptyResultSet :: rs ++ [.ok emptyResultSet]) ∧
      ∀ name, d₂.scanTable name = d₁.scanTable name := by
  have hdml : ∀ p ∈ [((.insert ⟨"t", [], [.int 7]⟩, []) : Statement × Params)],
      p.1.isDml = true := by
    intro p hp
    obtain rfl := mem_singleton.mp hp
    rfl
  have hcosine : ∀ p ∈ [((.insert ⟨"t", [], [.int 7]⟩, []) : Statement × Params)],
      ∀ s, p.1 = .select s → CosineFree s := by
    intro p hp s hs
    obtain rfl := mem_singleton.mp hp
    cases hs
  have hsafe : SafeRun 1 (Database.new ⟨["id"], [.int]⟩)
      [(.insert ⟨"t", [], [.int 7]⟩, [])] := by
    refine ⟨?_, fun _ _ _ => trivial⟩
    intro ts hts
    cases hts
    refine ⟨by decide, Or.inl (by decide), ?_⟩
    intro cols row hrow
    cases hrow
    refine ⟨by decide, ?_⟩
    intro lit hlit
    obtain rfl := mem_singleton.mp hlit
    trivial
  obtain ⟨d₁, rs, hrun⟩ : ∃ d₁ rs, run 1 (Database.new ⟨["id"], [.int]⟩)
      [(.insert ⟨"t", [], [.int 7]⟩, [])] = .ok (d₁, rs) := ⟨_, _, rfl⟩
  obtain ⟨_, hok⟩ := transaction_transparent (Reachable.new _) rfl hdml hcosine hsafe
  obtain ⟨d₂, htxn, hscan⟩ := hok d₁ rs hrun
  exact ⟨d₁, d₂, rs, hrun, htxn, hscan⟩

end Database

/-! ### Rows that are too wide -/

theorem tryDecodeRow_wide {row : Row} (hlen : row.length = 65536) :
    tryDecodeRow (encodeRow row) = .ok [] := by
  have hcount : (leBytes 2 row.length).length = 2 := length_leBytes 2 _
  rw [tryDecodeRow, if_neg (not_length_encodeRow_lt row), encodeRow, take_left' hcount,
    leValue_leBytes, hlen]
  rfl

theorem insertRow_id {schema : Schema} {cs : List String} {tys : List ColumnType}
    (hcols : schema.columns = "id" :: cs) (htypes : schema.types = .int :: tys) :
    (TableStorage.empty schema).insertRow ⟨"t", ["id"], [.int 1]⟩ =
      .ok ([0], (replicate schema.columns.length (.int 0)).set 0 (.int 1)) := by
  have hslots : (TableStorage.empty schema).insertSlots ⟨"t", ["id"], [.int 1]⟩ = .ok [0] := by
    simp [TableStorage.insertSlots, TableStorage.empty, Schema.indexOf, hcols, findIdx?_cons]
  have hvalue : schema.literalToValue 0 (.int 1) = .ok (.int 1) := by
    simp [Schema.literalToValue, htypes, index]
  have hset : (setAt (replicate schema.columns.length (Value.int 0)) 0 (.int 1) :
      Result DbError Row) = .ok
      ((replicate schema.columns.length (.int 0)).set 0 (.int 1)) := by
    rw [setAt, if_pos (by simp [hcols])]
  simp only [TableStorage.insertRow, hslots, ok_bind]
  rw [if_neg (by simp)]
  simp only [TableStorage.empty, zip_cons_cons, zip_nil_right,
    TableStorage.assignLiterals, hvalue, hset, ok_bind]

namespace Database

theorem direct_insert {schema : Schema} {stmt : InsertStatement} {row : Row}
    (htable : stmt.table = "t")
    (hrow : (TableStorage.empty schema).insertRow stmt = .ok ([0], row)) :
    ∃ db', run 1 (Database.new schema) [(.insert stmt, [])] = .ok (db', [.ok emptyResultSet]) := by
  have hts : (Database.new schema).table "t" = some (TableStorage.empty schema) := rfl
  have hins : ∃ db', (Database.new schema).insertInto "t" (TableStorage.empty schema) [0] row =
      .ok (db', .ok ()) := ⟨_, rfl⟩
  obtain ⟨db', hins⟩ := hins
  refine ⟨db', ?_⟩
  have hrun : (Database.new schema).runInsertStmt stmt = .ok (db', .ok ()) := by
    have hidle : (Database.new schema).inTransaction = false := rfl
    simp only [runInsertStmt, hidle, htable, Bool.false_eq_true, if_false, hts, hrow]
    exact hins
  simp only [run, execute, hrun]
  rfl

theorem commitTxn_corrupt {ts : TableStorage} {row : Row} (hmvcc : ts.mvcc = MvccStore.new)
    (hcorrupt : decodeRowValidated 0 (encodeRow row) ts.schema.columns.length =
      .error (.corruptRow 0)) :
    ∃ ts', TableStorage.commitTxn "t" ts (ts.mvcc.write ts.mvcc.begin 0 (mvccWrapRow row)) =
      .ok (ts', .error (.corruptRow 0)) := by
  rw [hmvcc]
  obtain ⟨mvcc, hcommit⟩ : ∃ mvcc, MvccStore.new.commit
      (MvccStore.new.write MvccStore.new.begin 0 (mvccWrapRow row)) = .ok (mvcc, .ok 1) :=
    ⟨_, rfl⟩
  have hwrites : (MvccStore.new.write MvccStore.new.begin 0 (mvccWrapRow row)).writesIter =
      [(0, mvccWrapRow row)] := rfl
  obtain ⟨ts', happly⟩ : ∃ ts', ({ ts with mvcc := mvcc }).applyWrite (0, mvccWrapRow row) =
      .ok (ts', .error (.corruptRow 0)) := by
    refine ⟨{ ts with mvcc := mvcc, tree := ts.tree.insert 0 (encodeRow row) }, ?_⟩
    have htag : (index (mvccWrapRow row) 0 : Result Empty UInt8) = .ok mvccLive := rfl
    have hdrop : (mvccWrapRow row).drop 1 = encodeRow row := rfl
    simp only [TableStorage.applyWrite, htag, ok_bind, hdrop, hcorrupt]
    rfl
  refine ⟨ts', ?_⟩
  rw [TableStorage.commitTxn, hmvcc, hcommit]
  simp only [ok_bind, hwrites, TableStorage.applyWrites, happly]

theorem commit_corrupt {schema : Schema} {stmt : InsertStatement} {row : Row}
    (htable : stmt.table = "t")
    (hrow : (TableStorage.empty schema).insertRow stmt = .ok ([0], row))
    (hcorrupt : decodeRowValidated 0 (encodeRow row) schema.columns.length =
      .error (.corruptRow 0)) :
    ∃ db', run 1 (Database.new schema) [(.begin, []), (.insert stmt, []), (.commit, [])] =
      .ok (db', [.ok emptyResultSet, .ok emptyResultSet, .error (.corruptRow 0)]) := by
  obtain ⟨txn, htxn⟩ : ∃ txn, txn =
    MvccStore.new.write MvccStore.new.begin 0 (mvccWrapRow row) := ⟨_, rfl⟩
  have hbegin : execute 1 (Database.new schema) .begin [] =
      .ok (⟨[("t", TableStorage.empty schema)], [], true, []⟩, .ok emptyResultSet) := rfl
  have hinsert : execute 1 ⟨[("t", TableStorage.empty schema)], [], true, []⟩ (.insert stmt) [] =
      .ok (⟨[("t", ⟨schema, ValidTree.new, 1, MvccStore.new, []⟩)], [], true, [("t", txn)]⟩,
        .ok emptyResultSet) := by
    rw [execute, runInsertStmt, htable, htxn]
    show Except.map ack (catchErr ((TableStorage.empty schema).insertRow stmt) >>= _) = _
    rw [hrow]
    rfl
  obtain ⟨ts', hcommit⟩ : ∃ ts', TableStorage.commitTxn "t"
      ⟨schema, ValidTree.new, 1, MvccStore.new, []⟩ txn = .ok (ts', .error (.corruptRow 0)) :=
    htxn ▸ commitTxn_corrupt rfl hcorrupt
  have hcommit : execute 1 ⟨[("t", ⟨schema, ValidTree.new, 1, MvccStore.new, []⟩)], [], true,
      [("t", txn)]⟩ .commit [] = .ok (⟨[("t", ts')], [], false, []⟩, .error (.corruptRow 0)) := by
    show Except.map ack
      (TableStorage.commitTxn "t" ⟨schema, ValidTree.new, 1, MvccStore.new, []⟩ txn >>= _) = _
    rw [hcommit]
    rfl
  refine ⟨⟨[("t", ts')], [], false, []⟩, ?_⟩
  simp only [run, hbegin, hinsert, hcommit, ok_bind]

/-- A table of 65,536 integer columns. -/
def wideSchema : Schema :=
  ⟨"id" :: (List.range 65535).map fun i => "c" ++ toString i,
    .int :: List.replicate 65535 .int⟩

/-- A row of 65,536 values is stored outside a transaction, and rejected by
`COMMIT` within one. -/
theorem commit_rejects_wide_row :
    ∃ d₁ d₂, Reachable (Database.new wideSchema) ∧
      (Database.new wideSchema).inTransaction = false ∧
      run 1 (Database.new wideSchema) [(.insert ⟨"t", ["id"], [.int 1]⟩, [])] =
        .ok (d₁, [.ok emptyResultSet]) ∧
      run 1 (Database.new wideSchema)
          [(.begin, []), (.insert ⟨"t", ["id"], [.int 1]⟩, []), (.commit, [])] =
        .ok (d₂, [.ok emptyResultSet, .ok emptyResultSet, .error (.corruptRow 0)]) := by
  have hwidth : wideSchema.columns.length = 65536 := by
    rw [wideSchema, length_cons, length_map, length_range]
  obtain ⟨row, hlen, hrow⟩ : ∃ row : Row, row.length = 65536 ∧
      (TableStorage.empty wideSchema).insertRow ⟨"t", ["id"], [.int 1]⟩ = .ok ([0], row) :=
    ⟨_, by rw [length_set, length_replicate, hwidth], insertRow_id rfl rfl⟩
  have hcorrupt : decodeRowValidated 0 (encodeRow row) wideSchema.columns.length =
      .error (.corruptRow 0) := by
    rw [decodeRowValidated, tryDecodeRow_wide hlen, ok_bind, hwidth]
    rfl
  obtain ⟨d₁, hdirect⟩ := direct_insert rfl hrow
  obtain ⟨d₂, hcommit⟩ := commit_corrupt rfl hrow hcorrupt
  exact ⟨d₁, d₂, Reachable.new wideSchema, rfl, hdirect, hcommit⟩

end Database

end Oikos.Archon.Relational
