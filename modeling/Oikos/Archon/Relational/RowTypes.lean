/-
Rows that match their schema.  Statements keep the stored rows well typed as long
as they are careful: an `INSERT` assigns every column that is not an integer,
`ALTER TABLE` does not change the columns of a table with live buffered rows, and
counts and lengths fit the fields of the row codec.
-/
import Oikos.Archon.Relational.DatabaseInvariant

namespace Oikos.Archon.Relational

open List

variable {ts ts' : TableStorage} {db db' : Database} {name : String} {schema : Schema}
  {row row' : Row}

/-- The value has the type, or is `NULL`. -/
def Value.HasType : Value → ColumnType → Prop
  | .int _, .int => True
  | .text _, .text => True
  | .vector _, .vector => True
  | .null, _ => True
  | _, _ => False

def Literal.Fits : Literal → Prop
  | .text t => (utf8 t).length < 2 ^ 32
  | .vector v => v.length < 2 ^ 32
  | _ => True

/-- The value may stand in the column. -/
def SlotOk (schema : Schema) (i : Nat) (v : Value) : Prop :=
  v.Fits ∧ ∃ ty, schema.types[i]? = some ty ∧ v.HasType ty

structure RowOk (schema : Schema) (row : Row) : Prop where
  length : row.length = schema.columns.length
  count : row.length < 2 ^ 16
  value : ∀ i v, row[i]? = some v → SlotOk schema i v

def typed : Discipline where
  schema s := s.columns.length = s.types.length ∧ s.types.head? = some .int
  row s bytes := ∃ row, bytes = encodeRow row ∧ RowOk s row

theorem RowOk.decode (h : RowOk schema row) : tryDecodeRow (encodeRow row) = .ok row := by
  refine tryDecodeRow_encodeRow h.count ?_
  intro v hv
  obtain ⟨i, hi⟩ := mem_iff_getElem?.mp hv
  exact (h.value i v hi).1

theorem RowOk.decodeValidated (h : RowOk schema row) (id : UInt64) :
    decodeRowValidated id (encodeRow row) schema.columns.length = .ok row := by
  simp [decodeRowValidated, h.decode, h.length]

variable {i : Nat} {v : Value} {cols : List Nat}

theorem RowOk.set (h : RowOk schema row) (hv : SlotOk schema i v) :
    RowOk schema (row.set i v) := by
  refine ⟨by rw [length_set, h.length], by rw [length_set]; exact h.count, ?_⟩
  intro j w hw
  rw [getElem?_set] at hw
  split at hw
  · next hij =>
    split at hw
    · cases hw
      rwa [← hij]
    · cases hw
  · exact h.value j w hw

/-! ### Assignments -/

theorem literalToValue_slotOk {slot : Nat} {lit : Literal} (hfits : lit.Fits)
    (h : schema.literalToValue slot lit = .ok v) : SlotOk schema slot v := by
  simp only [Schema.literalToValue, bind_eq_ok] at h
  obtain ⟨ty, hty, h⟩ := h
  have hty := index_eq_ok_iff.mp hty
  split at h
  · cases h
    exact ⟨trivial, ty, hty, by cases ty <;> trivial⟩
  · cases h
    exact ⟨trivial, _, hty, trivial⟩
  · cases h
    exact ⟨hfits, _, hty, trivial⟩
  · cases h
    exact ⟨hfits, _, hty, trivial⟩
  · simp only [bind_eq_ok] at h
    obtain ⟨_, _, h⟩ := h
    cases h

theorem assignLiterals_get {pairs : List (Nat × Literal)}
    (h : TableStorage.assignLiterals schema row pairs = .ok row') :
    row'.length = row.length ∧ ∀ i v, row'[i]? = some v →
      (∃ lit, (i, lit) ∈ pairs ∧ schema.literalToValue i lit = .ok v) ∨
      (row[i]? = some v ∧ i ∉ pairs.map Prod.fst) := by
  induction pairs generalizing row with
  | nil =>
    cases h
    exact ⟨rfl, fun i v hv => Or.inr ⟨hv, by simp⟩⟩
  | cons p pairs ih =>
    obtain ⟨slot, lit⟩ := p
    simp only [TableStorage.assignLiterals, bind_eq_ok] at h
    obtain ⟨v₀, hv₀, row₁, hset, hrest⟩ := h
    obtain ⟨hslot, rfl⟩ := setAt_eq_ok hset
    obtain ⟨hlen, hget⟩ := ih hrest
    refine ⟨by rw [hlen, length_set], ?_⟩
    intro i v hv
    rcases hget i v hv with ⟨lit', hmem, hlit'⟩ | ⟨hold, hnot⟩
    · exact Or.inl ⟨lit', mem_cons_of_mem _ hmem, hlit'⟩
    · rw [getElem?_set] at hold
      split at hold
      · next hi =>
        subst hi
        cases hold
        exact Or.inl ⟨lit, mem_cons_self, hv₀⟩
      · next hi =>
        refine Or.inr ⟨hold, ?_⟩
        simp only [map_cons, mem_cons, not_or]
        exact ⟨Ne.symm hi, hnot⟩

theorem applyAssignments_rowOk {assignments : List Assignment}
    (hfits : ∀ a ∈ assignments, a.value.Fits) (hrow : RowOk schema row)
    (h : TableStorage.applyAssignments schema row assignments = .ok row') : RowOk schema row' := by
  induction assignments generalizing row with
  | nil =>
    cases h
    exact hrow
  | cons a rest ih =>
    have hrest := fun b hb => hfits b (mem_cons_of_mem a hb)
    unfold TableStorage.applyAssignments at h
    split at h
    · cases h
    · exact ih hrest hrow h
    · next slot _ _ =>
      simp only [bind_eq_ok] at h
      obtain ⟨v, hv, row₁, hset, hrun⟩ := h
      obtain ⟨_, rfl⟩ := setAt_eq_ok hset
      exact ih hrest
        (hrow.set (literalToValue_slotOk (hfits a mem_cons_self) hv)) hrun

theorem insertRow_rowOk {stmt : InsertStatement} {id : UInt64}
    (hschema : typed.schema ts.schema) (hcount : ts.schema.columns.length < 2 ^ 16)
    (hfits : ∀ lit ∈ stmt.values, lit.Fits)
    (hcols : ∀ slot ty, ts.schema.types[slot]? = some ty → ty ≠ .int → slot ∈ cols)
    (hrow : ts.insertRow stmt = .ok (cols, row))
    (hnumber : (TableStorage.numberRow cols id row : Result Empty Row) = .ok row') :
    RowOk ts.schema row' := by
  obtain ⟨hlens, hhead⟩ := hschema
  simp only [TableStorage.insertRow, bind_eq_ok] at hrow
  obtain ⟨cols', hslots, hrow⟩ := hrow
  split at hrow
  · cases hrow
  · next harity =>
    simp only [bind_eq_ok] at hrow
    obtain ⟨made, hmade, hres⟩ := hrow
    cases hres
    obtain ⟨hlen, hget⟩ := assignLiterals_get hmade
    rw [length_replicate] at hlen
    have hfst : (cols.zip stmt.values).map Prod.fst = cols := by
      rw [map_fst_zip]
      have := not_not.mp harity
      omega
    have hok : RowOk ts.schema row := by
      refine ⟨hlen, by rw [hlen]; exact hcount, ?_⟩
      intro i v hv
      rcases hget i v hv with ⟨lit, hmem, hlit⟩ | ⟨hold, hnot⟩
      · exact literalToValue_slotOk (hfits lit (of_mem_zip hmem).2) hlit
      · obtain ⟨hi, hzero⟩ : i < ts.schema.columns.length ∧ Value.int 0 = v := by
          simpa [getElem?_replicate] using hold
        obtain ⟨ty, hty⟩ : ∃ ty, ts.schema.types[i]? = some ty :=
          ⟨_, getElem?_eq_getElem (hlens ▸ hi)⟩
        rw [hfst] at hnot
        obtain rfl : ty = .int := by
          by_contra hne
          exact hnot (hcols i ty hty hne)
        exact ⟨hzero ▸ trivial, .int, hty, hzero ▸ trivial⟩
    unfold TableStorage.numberRow at hnumber
    split at hnumber
    · cases hnumber
      exact hok
    · obtain ⟨_, rfl⟩ := setAt_eq_ok hnumber
      refine hok.set ⟨trivial, .int, ?_, trivial⟩
      rw [← head?_eq_getElem?]
      exact hhead

/-! ### Rows that fit -/

theorem fits_of_set (hrow : ∀ w ∈ row, w.Fits) (hv : v.Fits) : ∀ w ∈ row.set i v, w.Fits := by
  intro w hw
  rcases mem_or_eq_of_mem_set hw with hw | rfl
  · exact hrow w hw
  · exact hv

theorem insertRow_fits {stmt : InsertStatement}
    (hfits : ∀ lit ∈ stmt.values, lit.Fits) (h : ts.insertRow stmt = .ok (cols, row)) :
    row.length = ts.schema.columns.length ∧ ∀ v ∈ row, v.Fits := by
  simp only [TableStorage.insertRow, bind_eq_ok] at h
  obtain ⟨slots, _, h⟩ := h
  split at h
  · cases h
  · simp only [bind_eq_ok] at h
    obtain ⟨made, hmade, hres⟩ := h
    cases hres
    obtain ⟨hlen, hget⟩ := assignLiterals_get hmade
    rw [length_replicate] at hlen
    refine ⟨hlen, ?_⟩
    intro v hv
    obtain ⟨i, hi⟩ := mem_iff_getElem?.mp hv
    rcases hget i v hi with ⟨lit, hmem, hlit⟩ | ⟨hold, _⟩
    · exact (literalToValue_slotOk (hfits lit (of_mem_zip hmem).2) hlit).1
    · obtain ⟨_, rfl⟩ : i < ts.schema.columns.length ∧ Value.int 0 = v := by
        simpa [getElem?_replicate] using hold
      trivial

theorem numberRow_fits {E : Type} {id : UInt64} (hrow : ∀ v ∈ row, v.Fits)
    (h : (TableStorage.numberRow cols id row : Result E Row) = .ok row') :
    row'.length = row.length ∧ ∀ v ∈ row', v.Fits := by
  unfold TableStorage.numberRow at h
  split at h
  · cases h
    exact ⟨rfl, hrow⟩
  · obtain ⟨_, rfl⟩ := setAt_eq_ok h
    exact ⟨length_set .., fits_of_set hrow trivial⟩

theorem applyAssignments_fits {assignments : List Assignment}
    (hfits : ∀ a ∈ assignments, a.value.Fits) (hrow : ∀ v ∈ row, v.Fits)
    (h : TableStorage.applyAssignments schema row assignments = .ok row') :
    row'.length = row.length ∧ ∀ v ∈ row', v.Fits := by
  induction assignments generalizing row with
  | nil =>
    cases h
    exact ⟨rfl, hrow⟩
  | cons a rest ih =>
    have hrest := fun b hb => hfits b (mem_cons_of_mem a hb)
    unfold TableStorage.applyAssignments at h
    split at h
    · cases h
    · exact ih hrest hrow h
    · simp only [bind_eq_ok] at h
      obtain ⟨v, hv, row₁, hset, hrun⟩ := h
      obtain ⟨_, rfl⟩ := setAt_eq_ok hset
      have hv := (literalToValue_slotOk (hfits a mem_cons_self) hv).1
      obtain ⟨hlen, hfit⟩ := ih hrest (fits_of_set hrow hv) hrun
      exact ⟨hlen.trans (length_set ..), hfit⟩

/-! ### Columns -/

theorem RowOk.congr {schema' : Schema} (h : RowOk schema row)
    (hcols : schema'.columns.length = schema.columns.length)
    (htypes : schema'.types = schema.types) : RowOk schema' row := by
  refine ⟨h.length.trans hcols.symm, h.count, ?_⟩
  intro i v hv
  obtain ⟨hfits, ty, hty, htype⟩ := h.value i v hv
  exact ⟨hfits, ty, htypes ▸ hty, htype⟩

theorem RowOk.addColumn (h : RowOk schema row) (hschema : typed.schema schema) {col : ColumnDef}
    (hcount : schema.columns.length + 1 < 2 ^ 16) :
    RowOk ⟨schema.columns ++ [col.name], schema.types ++ [col.ctype]⟩ (row ++ [.null]) := by
  have hlen := h.length
  refine ⟨by simp [hlen], ?_, ?_⟩
  · rw [length_append, hlen]
    exact hcount
  intro i v hv
  rw [getElem?_append] at hv
  split at hv
  · next hi =>
    obtain ⟨hfits, ty, hty, htype⟩ := h.value i v hv
    have hlt : i < schema.types.length := by
      rw [← hschema.1, ← hlen]
      exact hi
    exact ⟨hfits, ty, by rwa [getElem?_append_left hlt], htype⟩
  · next hi =>
    obtain ⟨hzero, rfl⟩ : i - row.length = 0 ∧ Value.null = v := by
      simpa [getElem?_singleton] using hv
    have hi : i = schema.types.length := by
      have := hschema.1
      omega
    refine ⟨trivial, col.ctype, ?_, trivial⟩
    rw [hi, getElem?_append_right (le_refl _)]
    simp

theorem RowOk.dropColumn (h : RowOk schema row) (hi : i < schema.columns.length) :
    RowOk ⟨schema.columns.eraseIdx i, schema.types.eraseIdx i⟩ (row.eraseIdx i) := by
  have hlen := h.length
  refine ⟨?_, ?_, ?_⟩
  · rw [length_eraseIdx_of_lt (hlen ▸ hi), length_eraseIdx_of_lt hi, hlen]
  · exact lt_of_le_of_lt (length_eraseIdx_le row i) h.count
  · intro j v hv
    rw [getElem?_eraseIdx] at hv
    simp only [SlotOk, getElem?_eraseIdx]
    split at hv
    · next hj =>
      rw [if_pos hj]
      exact h.value j v hv
    · next hj =>
      rw [if_neg hj]
      exact h.value (j + 1) v hv

/-- Rows written back by `ALTER TABLE`, for a discipline of encoded rows that can
be read back. -/
theorem StorageOk.reencoded {D : Discipline} {R : Schema → Row → Prop}
    {f : Row → Result DbError Row} {rows : List (UInt64 × Bytes)}
    (hD : ∀ s bytes, D.row s bytes ↔ ∃ row, bytes = encodeRow row ∧ R s row)
    (hR : ∀ s row, R s row → tryDecodeRow (encodeRow row) = .ok row)
    (h : StorageOk D ts) (hrows : ts.reencode f = .ok rows) (hschema : D.schema schema)
    (hrow : ∀ id values values', ts.tree.get id = some (encodeRow values) →
      R ts.schema values → f values = .ok values' → R schema values') :
    StorageOk D { ts.storeAll rows with schema := schema } := by
  refine ⟨hschema, ?_, h.versions⟩
  intro id bytes hget
  rcases storeAll_get hrows id with ⟨old, values, values', hold, hdecode, hf, hnew⟩ | ⟨hnot, hsame⟩
  · obtain ⟨hid, hdisciplined⟩ := h.row id old hold
    obtain ⟨row, rfl, hok⟩ := (hD _ _).mp hdisciplined
    obtain rfl : row = values := Except.ok.inj ((hR _ row hok).symm.trans hdecode)
    obtain rfl : encodeRow values' = bytes := Option.some.inj (hnew.symm.trans hget)
    exact ⟨hid, (hD _ _).mpr ⟨values', rfl, hrow id row values' hold hok hf⟩⟩
  · have hold : ts.tree.get id = some bytes := hsame ▸ hget
    exact absurd ⟨(h.row id bytes hold).1, bytes, hold⟩ hnot

theorem StorageOk.storeAll {f : Row → Result DbError Row} {rows : List (UInt64 × Bytes)}
    (h : StorageOk typed ts) (hrows : ts.reencode f = .ok rows) (hschema : typed.schema schema)
    (hrow : ∀ id values values', ts.tree.get id = some (encodeRow values) →
      RowOk ts.schema values → f values = .ok values' → RowOk schema values') :
    StorageOk typed { ts.storeAll rows with schema := schema } :=
  StorageOk.reencoded (fun _ _ => Iff.rfl) (fun _ _ hok => hok.decode) h hrows hschema hrow

/-- The open transaction has no live row buffered for the table. -/
def NoLiveWrites (db : Database) (name : String) : Prop :=
  ∀ p ∈ db.activeTxns, p.1 = name →
    ∀ id bytes, p.2.getWrite id = some bytes → bytes = mvccWrapTombstone

theorem NoLiveWrites.txnOk {D : Discipline} (h : NoLiveWrites db name) {p : String × Transaction}
    (hp : p ∈ db.activeTxns) (hname : p.1 = name) : TxnOk D ts p.2 :=
  fun id bytes hget => Or.inl (h p hp hname id bytes hget)

/-- The statement keeps within what the stored rows can hold. -/
def Careful (db : Database) : Statement → Prop
  | .insert stmt => ∀ ts cols row, db.table stmt.table = some ts →
      ts.insertRow stmt = .ok (cols, row) →
      ts.schema.columns.length < 2 ^ 16 ∧ (∀ lit ∈ stmt.values, lit.Fits) ∧
        ∀ slot ty, ts.schema.types[slot]? = some ty → ty ≠ .int → slot ∈ cols
  | .update stmt => ∀ a ∈ stmt.assignments, a.value.Fits
  | .alterTable ⟨name, .addColumn col⟩ => ∀ ts, db.table name = some ts →
      col.name ∉ ts.schema.columns →
      NoLiveWrites db name ∧
        ∀ id bytes, ts.tree.get id = some bytes → ts.schema.columns.length + 1 < 2 ^ 16
  | .alterTable ⟨name, .dropColumn col⟩ => ∀ ts idx, db.table name = some ts →
      ts.schema.indexOf col = some (idx + 1) → NoLiveWrites db name
  | _ => True

theorem indexOf_lt (h : schema.indexOf name = some i) : i < schema.columns.length := by
  rw [Schema.indexOf, findIdx?_eq_some_iff_findIdx_eq] at h
  exact h.1

theorem alterOk_addColumn {col : ColumnDef}
    (hcareful : Careful db (.alterTable ⟨name, .addColumn col⟩)) :
    DbOk.AlterOk typed db ⟨name, .addColumn col⟩ := by
  intro ts ts' hts hok halter
  simp only [TableStorage.alter] at halter
  split at halter
  · cases halter
  · next hnew =>
    simp only [bind_eq_ok] at halter
    obtain ⟨rows, hrows, hres⟩ := halter
    cases hres
    obtain ⟨hwrites, hcount⟩ := hcareful ts hts (by simpa using hnew)
    refine ⟨hok.storeAll hrows ?_ ?_, fun p hp hname _ => hwrites.txnOk hp hname⟩
    · obtain ⟨hlen, hhead⟩ := hok.schema
      exact ⟨by simp [hlen], by simp [hhead]⟩
    · intro id values values' hget hrow hf
      cases hf
      exact hrow.addColumn hok.schema (hcount id _ hget)

theorem alterOk_dropColumn {col : String}
    (hcareful : Careful db (.alterTable ⟨name, .dropColumn col⟩)) :
    DbOk.AlterOk typed db ⟨name, .dropColumn col⟩ := by
  intro ts ts' hts hok halter
  simp only [TableStorage.alter] at halter
  split at halter
  · cases halter
  · cases halter
  · next idx hpos hidx =>
    obtain ⟨i, rfl⟩ : ∃ i, idx = i + 1 := Nat.exists_eq_succ_of_ne_zero fun h0 => hpos (h0 ▸ rfl)
    have hwrites : NoLiveWrites db name := hcareful ts i hts hidx
    simp only [bind_eq_ok] at halter
    obtain ⟨rows, hrows, ⟨_, columns⟩, hcolumns, ⟨_, types⟩, htypes, hres⟩ := halter
    cases hres
    obtain ⟨_, rfl⟩ := removeAt_eq_ok hcolumns
    obtain ⟨_, rfl⟩ := removeAt_eq_ok htypes
    have hlt := indexOf_lt hidx
    refine ⟨hok.storeAll hrows ?_ ?_, fun p hp hname _ => hwrites.txnOk hp hname⟩
    · obtain ⟨hlen, hhead⟩ := hok.schema
      refine ⟨?_, ?_⟩
      · show (ts.schema.columns.eraseIdx (i + 1)).length = (ts.schema.types.eraseIdx (i + 1)).length
        rw [length_eraseIdx_of_lt hlt, length_eraseIdx_of_lt (hlen ▸ hlt), hlen]
      · show (ts.schema.types.eraseIdx (i + 1)).head? = some .int
        cases htys : ts.schema.types with
        | nil =>
          rw [htys] at hhead
          cases hhead
        | cons ty tys =>
          rw [htys] at hhead
          exact hhead
    · intro id values values' hget hrow hf
      simp only [bind_eq_ok] at hf
      obtain ⟨⟨_, kept⟩, hremove, hres⟩ := hf
      cases hres
      obtain ⟨_, rfl⟩ := removeAt_eq_ok hremove
      exact hrow.dropColumn hlt

theorem alterOk_renameColumn (db : Database) (name oldName newName : String) :
    DbOk.AlterOk typed db ⟨name, .renameColumn oldName newName⟩ := by
  intro ts ts' hts hok halter
  simp only [TableStorage.alter] at halter
  split at halter
  · cases halter
  · cases halter
  · next idx _ _ =>
    split at halter
    · cases halter
    · simp only [bind_eq_ok] at halter
      obtain ⟨columns, hcolumns, hres⟩ := halter
      cases hres
      obtain ⟨_, rfl⟩ := setAt_eq_ok hcolumns
      have hkeep : ∀ bytes, typed.row ts.schema bytes →
          typed.row { ts.schema with columns := ts.schema.columns.set idx newName } bytes := by
        rintro bytes ⟨row, hbytes, hrow⟩
        exact ⟨row, hbytes, hrow.congr (length_set ..) rfl⟩
      refine ⟨⟨?_, ?_, hok.versions⟩, ?_⟩
      · exact ⟨(length_set ..).trans hok.schema.1, hok.schema.2⟩
      · intro id bytes hget
        exact (hok.row id bytes hget).imp_right (hkeep bytes)
      · intro p _ _ htxn id bytes hget
        refine (htxn id bytes hget).imp_right ?_
        rintro ⟨b, hb, hid, hrow⟩
        exact ⟨b, hb, hid, hkeep b hrow⟩

theorem Careful.stmtOk {stmt : Statement} (h : Careful db stmt) (hdb : DbOk typed db) :
    DbOk.StmtOk typed db stmt := by
  cases stmt with
  | insert i =>
    intro ts cols row row' hts hrow hnumber
    obtain ⟨hcount, hfits, hcols⟩ := h ts cols row hts hrow
    exact ⟨row', rfl, insertRow_rowOk (hdb.storage hts).schema hcount hfits hcols hrow hnumber⟩
  | update u =>
    intro ts hts id bytes row row' hbytes hdecode hassign
    obtain ⟨row₀, rfl, hok⟩ := hbytes
    obtain rfl : row₀ = row := Except.ok.inj ((hok.decodeValidated id).symm.trans hdecode)
    exact ⟨row', rfl, applyAssignments_rowOk h hok hassign⟩
  | createTable ct => exact ⟨by simp [CreateTableStatement.schema], rfl⟩
  | alterTable alter =>
    obtain ⟨name, op⟩ := alter
    cases op with
    | addColumn col => exact alterOk_addColumn h
    | dropColumn col => exact alterOk_dropColumn h
    | renameColumn oldName newName => exact alterOk_renameColumn db name oldName newName
  | _ => trivial

end Oikos.Archon.Relational
