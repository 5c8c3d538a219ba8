/-
Vector indexes in step with their table: the column of an index is a vector
column, and the index tracks the vectors of the committed rows.  The writes of
rows keep them in step, and so does `ALTER TABLE` if it leaves the columns of the
indexes alone.
-/
import Oikos.Archon.Relational.Overlay
import Oikos.Archon.Relational.IndexTracks

namespace Oikos.Archon.Relational

open List Option

variable {ts ts' : TableStorage} {schema : Schema} {row row' : Row}

/-! ### Columns and rows -/

variable {name : String} {i j : Nat}

theorem indexOf_eq_some : schema.indexOf name = some i ↔
      schema.columns[i]? = some name ∧ ∀ j < i, schema.columns[j]? ≠ some name := by
  rw [Schema.indexOf, findIdx?_eq_some_iff_getElem]
  constructor
  · rintro ⟨hi, hname, hfirst⟩
    refine ⟨?_, ?_⟩
    · rw [getElem?_eq_getElem hi, eq_of_beq hname]
    · intro j hj hjname
      obtain ⟨hlt, hget⟩ := List.getElem?_eq_some_iff.mp hjname
      exact absurd (beq_iff_eq.mpr hget) (hfirst j hj)
  · rintro ⟨hget, hfirst⟩
    obtain ⟨hi, hname⟩ := List.getElem?_eq_some_iff.mp hget
    refine ⟨hi, beq_iff_eq.mpr hname, ?_⟩
    intro j hj hjname
    exact hfirst j hj (by rw [getElem?_eq_getElem (lt_trans hj hi), eq_of_beq hjname])

theorem indexOf_addColumn {col : ColumnDef} (h : schema.indexOf name = some i) :
    Schema.indexOf ⟨schema.columns ++ [col.name], schema.types ++ [col.ctype]⟩ name = some i := by
  obtain ⟨hget, hfirst⟩ := indexOf_eq_some.mp h
  obtain ⟨hlt, _⟩ := List.getElem?_eq_some_iff.mp hget
  apply indexOf_eq_some.mpr
  constructor
  · rw [getElem?_append_left hlt]
    exact hget
  · intro j hj
    rw [getElem?_append_left (lt_trans hj hlt)]
    exact hfirst j hj

/-- The position that becomes `j` when position `i` is removed. -/
def skip (i j : Nat) : Nat :=
  if j < i then j else j + 1

theorem getElem?_eraseIdx_skip {α : Type} (l : List α) (i j : Nat) :
    (l.eraseIdx i)[j]? = l[skip i j]? := by
  rw [getElem?_eraseIdx, skip]
  split <;> rfl

theorem skip_lt_skip {k : Nat} (h : j < k) : skip i j < skip i k := by
  unfold skip
  split <;> split <;> omega

theorem exists_skip {k : Nat} (h : k ≠ i) : ∃ j, skip i j = k := by
  by_cases hk : k < i
  · exact ⟨k, if_pos hk⟩
  · refine ⟨k - 1, ?_⟩
    rw [skip, if_neg (by omega)]
    omega

theorem indexOf_dropColumn {types : List ColumnType} (h : schema.indexOf name = some (skip i j)) :
    Schema.indexOf ⟨schema.columns.eraseIdx i, types⟩ name = some j := by
  obtain ⟨hget, hfirst⟩ := indexOf_eq_some.mp h
  apply indexOf_eq_some.mpr
  constructor
  · rw [getElem?_eraseIdx_skip]
    exact hget
  · intro k hk
    rw [getElem?_eraseIdx_skip]
    exact hfirst _ (skip_lt_skip hk)

theorem indexOf_renameColumn {newName : String} {types : List ColumnType}
    (h : schema.indexOf name = some j) (hij : i ≠ j) (hnew : name ≠ newName) :
    Schema.indexOf ⟨schema.columns.set i newName, types⟩ name = some j := by
  obtain ⟨hget, hfirst⟩ := indexOf_eq_some.mp h
  apply indexOf_eq_some.mpr
  constructor
  · rw [getElem?_set_ne hij]
    exact hget
  · intro k hk hname
    rw [getElem?_set] at hname
    split at hname
    · split at hname
      · exact hnew (some.inj hname).symm
      · cases hname
    · exact hfirst k hk hname

def VectorsFirst (schema : Schema) : Prop :=
  ∀ i name, schema.columns[i]? = some name → schema.types[i]? = some .vector →
    schema.indexOf name = some i

theorem VectorsFirst.addColumn (h : VectorsFirst schema) {col : ColumnDef}
    (hlen : schema.columns.length = schema.types.length) (hnew : col.name ∉ schema.columns) :
    VectorsFirst ⟨schema.columns ++ [col.name], schema.types ++ [col.ctype]⟩ := by
  intro i name hname htype
  by_cases hi : i < schema.columns.length
  · rw [getElem?_append_left hi] at hname
    rw [getElem?_append_left (hlen ▸ hi)] at htype
    exact indexOf_addColumn (h i name hname htype)
  · apply indexOf_eq_some.mpr
    refine ⟨hname, ?_⟩
    intro j hj hjname
    rw [getElem?_append_right (by omega)] at hname
    obtain ⟨hzero, rfl⟩ : i - schema.columns.length = 0 ∧ col.name = name := by
      simpa [getElem?_singleton] using hname
    rw [getElem?_append_left (by omega)] at hjname
    exact hnew (mem_of_getElem? hjname)

theorem VectorsFirst.dropColumn (h : VectorsFirst schema) (i : Nat) :
    VectorsFirst ⟨schema.columns.eraseIdx i, schema.types.eraseIdx i⟩ := by
  intro j name hname htype
  rw [getElem?_eraseIdx_skip] at hname htype
  exact indexOf_dropColumn (h _ name hname htype)

theorem VectorsFirst.renameColumn (h : VectorsFirst schema) {newName : String}
    (hnew : newName ∉ schema.columns) :
    VectorsFirst { schema with columns := schema.columns.set i newName } := by
  intro j name hname htype
  rw [getElem?_set] at hname
  split at hname
  · next hij =>
    split at hname
    · next hlt =>
      cases hname
      subst hij
      apply indexOf_eq_some.mpr
      constructor
      · rw [getElem?_set_self hlt]
      · intro k hk hk'
        rw [getElem?_set_ne (by omega)] at hk'
        exact hnew (mem_of_getElem? hk')
    · cases hname
  · next hij =>
    apply indexOf_renameColumn (h j name hname htype) hij
    rintro rfl
    exact hnew (mem_of_getElem? hname)

/-- The row can be encoded under the schema and read back. -/
structure Storable (schema : Schema) (row : Row) : Prop where
  length : row.length = schema.columns.length
  count : row.length < 2 ^ 16
  fits : ∀ v ∈ row, v.Fits

def indexable : Discipline where
  schema s := s.columns.length = s.types.length ∧ VectorsFirst s
  row s bytes := ∃ row, bytes = encodeRow row ∧ Storable s row

theorem Storable.decode (h : Storable schema row) : tryDecodeRow (encodeRow row) = .ok row :=
  tryDecodeRow_encodeRow h.count h.fits

def vectorAt (slot : Nat) (row : Row) : Option (List F32) :=
  match row[slot]? with
  | some (.vector v) => some v
  | _ => none

def storedVector (slot : Nat) (bytes : Bytes) : Option (List F32) :=
  match tryDecodeRow bytes with
  | .ok row => vectorAt slot row
  | .error _ => none

def TableStorage.committedVector (ts : TableStorage) (slot : Nat) (id : UInt64) :
    Option (List F32) :=
  (ts.tree.get id).bind (storedVector slot)

structure InStep (ts : TableStorage) (p : String × IvfFlatIndex) (slot : Nat) : Prop where
  column : ts.schema.indexOf p.1 = some slot
  ctype : ts.schema.types[slot]? = some .vector
  tracks : p.2.Tracks (ts.committedVector slot)

def TableStorage.IndexesInStep (ts : TableStorage) : Prop :=
  ∀ p ∈ ts.vectorIndexes, ∃ slot, InStep ts p slot

theorem storedVector_encodeRow (h : Storable schema row) (slot : Nat) :
    storedVector slot (encodeRow row) = vectorAt slot row := by
  rw [storedVector, h.decode]

namespace TableStorage

/-! ### Writes -/

theorem committedVector_insert (id : UInt64) (h : Storable schema row) (slot : Nat) :
    { ts with tree := ts.tree.insert id (encodeRow row) }.committedVector slot =
      Function.update (ts.committedVector slot) id (vectorAt slot row) := by
  funext id'
  by_cases hid : id' = id
  · subst hid
    simp only [committedVector, ValidTree.get_insert, if_true, bind_some,
      Function.update_self, storedVector_encodeRow h]
  · simp only [committedVector, ValidTree.get_insert, if_neg hid, Function.update_of_ne hid]

theorem committedVector_delete (id : UInt64) (slot : Nat) :
    { ts with tree := ts.tree.delete id }.committedVector slot =
      Function.update (ts.committedVector slot) id none := by
  funext id'
  by_cases hid : id' = id
  · subst hid
    simp only [committedVector, ValidTree.get_delete, if_true, bind_none,
      Function.update_self]
  · simp only [committedVector, ValidTree.get_delete, if_neg hid, Function.update_of_ne hid]

variable {slot : Nat} {id : UInt64} {r : Except DbError Unit} {rows : List (UInt64 × Row)}
  {name : String}

theorem maintainIndex_tracks {E : Type} {p p' : String × IvfFlatIndex}
    {m : UInt64 → Option (List F32)} (hcolumn : schema.indexOf p.1 = some slot)
    (htracks : p.2.Tracks m) (h : (maintainIndex schema id row p : Result E _) = .ok p') :
    p'.1 = p.1 ∧ p'.2.Tracks (Function.update m id (vectorAt slot row)) := by
  simp only [maintainIndex, hcolumn] at h
  obtain ⟨v, hv, h⟩ := bind_eq_ok.mp h
  have hget := index_eq_ok_iff.mp hv
  rw [vectorAt, hget]
  cases v with
  | vector v =>
    cases h
    exact ⟨rfl, htracks.insert id v⟩
  | int i =>
    cases h
    exact ⟨rfl, htracks.remove id⟩
  | text t =>
    cases h
    exact ⟨rfl, htracks.remove id⟩
  | null =>
    cases h
    exact ⟨rfl, htracks.remove id⟩

theorem IndexesInStep.storeRow {E : Type} (h : ts.IndexesInStep)
    (hrow : Storable ts.schema row)
    (hstore : (ts.storeRow id row : Result E TableStorage) = .ok ts') :
    ts'.IndexesInStep := by
  obtain ⟨ixs, hixs, hres⟩ := bind_eq_ok.mp hstore
  cases hres
  intro p' hp'
  obtain ⟨p, hp, hmaintain⟩ := exists_of_mem_mapM hixs hp'
  obtain ⟨slot, hstep⟩ := h p hp
  obtain ⟨hname, htracks⟩ := maintainIndex_tracks hstep.column hstep.tracks hmaintain
  refine ⟨slot, ?_, hstep.ctype, ?_⟩
  · rw [hname]
    exact hstep.column
  · rw [← committedVector_insert id hrow slot] at htracks
    exact htracks

theorem IndexesInStep.deleteRow (h : ts.IndexesInStep) (id : UInt64) :
    (ts.deleteRow id).IndexesInStep := by
  intro p' hp'
  obtain ⟨p, hp, rfl⟩ := mem_map.mp hp'
  obtain ⟨slot, hstep⟩ := h p hp
  refine ⟨slot, hstep.column, hstep.ctype, ?_⟩
  have htracks := hstep.tracks.remove id
  rw [← committedVector_delete id slot] at htracks
  exact htracks

theorem IndexesInStep.applyWrite (h : ts.IndexesInStep) {p : Key × Bytes}
    (hw : WriteOk indexable ts p.1 p.2)
    (happly : ts.applyWrite p = .ok (ts', r)) : ts'.IndexesInStep := by
  obtain ⟨id, bytes⟩ := p
  rcases hw with rfl | ⟨b, rfl, _, row, rfl, hrow⟩
  · cases happly
    exact h.deleteRow id
  · have hdecode : decodeRowValidated id (encodeRow row) ts.schema.columns.length = .ok row :=
      decodeRowValidated_eq_ok.mpr ⟨hrow.decode, hrow.length⟩
    obtain ⟨tag, htag, happly⟩ := bind_eq_ok.mp happly
    cases htag
    rw [if_neg (by decide)] at happly
    simp only [drop_succ_cons, drop_zero, hdecode] at happly
    obtain ⟨ts₁, hmaintain, hres⟩ := bind_eq_ok.mp happly
    cases hres
    exact h.storeRow hrow hmaintain

theorem IndexesInStep.applyWrites {writes : List (Key × Bytes)}
    (hok : StorageOk indexable ts) (h : ts.IndexesInStep)
    (hw : ∀ p ∈ writes, WriteOk indexable ts p.1 p.2)
    (happly : ts.applyWrites writes = .ok (ts', r)) : ts'.IndexesInStep := by
  induction writes generalizing ts with
  | nil =>
    cases happly
    exact h
  | cons p writes ih =>
    obtain ⟨⟨ts₁, applied⟩, hone, hrest⟩ := bind_eq_ok.mp happly
    have hp := hw p mem_cons_self
    obtain ⟨hok₁, hschema, hnext⟩ := hok.applyWrite hp hone
    have h₁ := h.applyWrite hp hone
    cases applied with
    | error e =>
      cases hrest
      exact h₁
    | ok u =>
      refine ih hok₁ h₁ ?_ hrest
      intro q hq
      have hq := hw q (mem_cons_of_mem p hq)
      rwa [WriteOk, hschema, hnext]

/-! ### Building -/

theorem mem_committedRows (h : ts.committedRows = .ok rows) : (id, row) ∈ rows ↔ id < ts.nextRowId ∧
    ∃ bytes, ts.tree.get id = some bytes ∧
      tryDecodeRow bytes = .ok row ∧ row.length = ts.schema.columns.length := by
  rw [mem_collect h]
  constructor
  · rintro ⟨id', hid', hrow⟩
    split at hrow
    · cases hrow
    · next bytes hget =>
      obtain ⟨row', hdecode, hres⟩ := bind_eq_ok.mp hrow
      cases hres
      exact ⟨mem_rowIds.mp hid', bytes, hget, decodeRowValidated_eq_ok.mp (ofExcept_eq_ok hdecode)⟩
  · rintro ⟨hlt, bytes, hget, hdecode⟩
    refine ⟨id, mem_rowIds.mpr hlt, ?_⟩
    have hvalid : decodeRowValidated id bytes ts.schema.columns.length = .ok row :=
      decodeRowValidated_eq_ok.mpr hdecode
    simp only [hget, hvalid, ofExcept, ok_bind]

theorem nodup_committedRows (h : ts.committedRows = .ok rows) : (rows.map Prod.fst).Nodup := by
  apply pairwise_map.mpr
  apply pairwise_collect h (nodup_rowIds _)
  intro id id' p p' hne hp hp'
  split at hp
  · cases hp
  · obtain ⟨row, _, hres⟩ := bind_eq_ok.mp hp
    cases hres
    split at hp'
    · cases hp'
    · obtain ⟨row', _, hres'⟩ := bind_eq_ok.mp hp'
      cases hres'
      exact hne

theorem vectorsAt_eq (rows : List (UInt64 × Row)) (slot : Nat) :
    vectorsAt rows slot = rows.filterMap fun p => (vectorAt slot p.2).map fun v => (p.1, v) := by
  unfold vectorsAt
  apply filterMap_congr
  intro p _
  unfold vectorAt
  dsimp only
  cases p.2[slot]? with
  | none => rfl
  | some v => cases v <;> rfl

theorem mem_vectorsAt {v : List F32} :
    (id, v) ∈ vectorsAt rows slot ↔ ∃ row, (id, row) ∈ rows ∧ vectorAt slot row = some v := by
  rw [vectorsAt_eq, mem_filterMap]
  constructor
  · rintro ⟨⟨id', row⟩, hmem, hv⟩
    obtain ⟨w, hw, heq⟩ := map_eq_some_iff.mp hv
    cases heq
    exact ⟨row, hmem, hw⟩
  · rintro ⟨row, hmem, hv⟩
    exact ⟨(id, row), hmem, by rw [hv]; rfl⟩

theorem nodup_vectorsAt (h : (rows.map Prod.fst).Nodup) (slot : Nat) :
    ((vectorsAt rows slot).map Prod.fst).Nodup := by
  rw [vectorsAt_eq]
  apply pairwise_map.mpr
  apply Pairwise.filterMap _ _ (pairwise_map.mp h)
  intro p p' hne q hq q' hq'
  obtain ⟨v, _, rfl⟩ := map_eq_some_iff.mp hq
  obtain ⟨v', _, rfl⟩ := map_eq_some_iff.mp hq'
  exact hne

theorem mem_pendingCols : (slot, name) ∈ ts.pendingCols ↔ ts.schema.columns[slot]? = some name ∧
      ts.schema.types[slot]? = some .vector ∧ ∀ p ∈ ts.vectorIndexes, p.1 ≠ name := by
  have hnone : ∀ n, (!ts.vectorIndexes.any fun p => p.1 == n) = true ↔
      ∀ p ∈ ts.vectorIndexes, p.1 ≠ n := by
    simp
  rw [pendingCols, mem_filterMap]
  constructor
  · rintro ⟨⟨i, name', ctype⟩, hmem, hpending⟩
    obtain ⟨j, hj, heq⟩ := mem_mapIdx.mp hmem
    dsimp only at hpending
    split at hpending
    · next hvector =>
      cases hpending
      obtain ⟨rfl, hzip⟩ := Prod.mk.inj heq
      have hget : (ts.schema.columns.zip ts.schema.types)[j]? = some (name, ctype) := by
        rw [getElem?_eq_getElem hj, hzip]
      obtain ⟨hname, htype⟩ := getElem?_zip_eq_some.mp hget
      obtain ⟨hctype, hunindexed⟩ := Bool.and_eq_true_iff.mp hvector
      exact ⟨hname, of_decide_eq_true hctype ▸ htype, (hnone name).mp hunindexed⟩
    · cases hpending
  · rintro ⟨hname, htype, hunindexed⟩
    have hget : (ts.schema.columns.zip ts.schema.types)[slot]? = some (name, .vector) :=
      getElem?_zip_eq_some.mpr ⟨hname, htype⟩
    obtain ⟨hlt, hzip⟩ := List.getElem?_eq_some_iff.mp hget
    refine ⟨(slot, name, .vector), mem_mapIdx.mpr ⟨slot, hlt, by rw [hzip]⟩, ?_⟩
    dsimp only
    rw [(hnone name).mpr hunindexed]
    rfl

theorem vectorMap_vectorsAt (hok : StorageOk indexable ts)
    (h : ts.committedRows = .ok rows) (slot : Nat) :
    ((vectorsAt rows slot).map Prod.fst).Nodup ∧
      IvfFlatIndex.vectorMap (vectorsAt rows slot) = ts.committedVector slot := by
  have hdistinct := nodup_vectorsAt (nodup_committedRows h) slot
  refine ⟨hdistinct, ?_⟩
  funext id
  apply Option.ext
  intro v
  rw [IvfFlatIndex.vectorMap_eq_some hdistinct, mem_vectorsAt, committedVector,
    bind_eq_some_iff]
  constructor
  · rintro ⟨row, hmem, hv⟩
    obtain ⟨_, bytes, hget, hdecode, _⟩ := (mem_committedRows h).mp hmem
    refine ⟨bytes, hget, ?_⟩
    rw [storedVector, hdecode]
    exact hv
  · rintro ⟨bytes, hget, hv⟩
    obtain ⟨hlt, row, rfl, hrow⟩ := hok.row id bytes hget
    rw [storedVector_encodeRow hrow] at hv
    exact ⟨row, (mem_committedRows h).mpr ⟨hlt, _, hget, hrow.decode, hrow.length⟩, hv⟩

theorem IndexesInStep.buildPending (hok : StorageOk indexable ts) (h : ts.IndexesInStep)
    (hbuild : ts.buildPending = .ok (ts', r)) : ts'.IndexesInStep := by
  obtain ⟨built, hbuilt, hres⟩ := bind_eq_ok.mp hbuild
  rcases catchErr_eq_ok hbuilt with ⟨ts₁, rfl, hm⟩ | ⟨e, rfl, _⟩
  · cases hres
    unfold maybeBuildVectorIndexes at hm
    split at hm
    · cases hm
      exact h
    · split at hm
      · cases hm
        exact h
      · obtain ⟨rows, hrows, hm⟩ := bind_eq_ok.mp hm
        cases hm
        intro p hp
        rcases mem_append.mp hp with hp | hp
        · obtain ⟨slot, hstep⟩ := h p hp
          exact ⟨slot, hstep.column, hstep.ctype, hstep.tracks⟩
        · obtain ⟨⟨slot, name⟩, hpending, hp⟩ := mem_filterMap.mp hp
          obtain ⟨hcolumn, htype, _⟩ := mem_pendingCols.mp hpending
          obtain ⟨hdistinct, hmap⟩ := vectorMap_vectorsAt hok hrows slot
          dsimp only at hp
          split at hp
          · cases hp
          · cases hp
            refine ⟨slot, hok.schema.2 slot name hcolumn htype, htype, ?_⟩
            have htracks := IvfFlatIndex.tracks_build hdistinct
            rw [hmap] at htracks
            exact htracks
  · cases hres
    exact h

theorem exists_index_of_build (hok : StorageOk indexable ts)
    (hmin : minRowsForIndex ≤ ts.nextRowId.toNat)
    {v : List F32} (hcolumn : ts.schema.columns[slot]? = some name)
    (htype : ts.schema.types[slot]? = some .vector) (hv : ts.committedVector slot id = some v)
    (hbuild : ts.buildPending = .ok (ts', .ok ())) : ∃ p ∈ ts'.vectorIndexes, p.1 = name := by
  obtain ⟨built, hbuilt, hres⟩ := bind_eq_ok.mp hbuild
  rcases catchErr_eq_ok hbuilt with ⟨ts₁, rfl, hm⟩ | ⟨e, rfl, _⟩
  · cases hres
    have hpending : (∃ p ∈ ts.vectorIndexes, p.1 = name) ∨ (slot, name) ∈ ts.pendingCols := by
      by_cases hindexed : ∃ p ∈ ts.vectorIndexes, p.1 = name
      · exact Or.inl hindexed
      · refine Or.inr (mem_pendingCols.mpr ⟨hcolumn, htype, ?_⟩)
        exact fun p hp hname => hindexed ⟨p, hp, hname⟩
    unfold maybeBuildVectorIndexes at hm
    split at hm
    · next hsmall => exact absurd hmin (not_le.mpr hsmall)
    · split at hm
      · next hempty =>
        cases hm
        refine hpending.resolve_right fun hmem => ?_
        rw [List.isEmpty_iff.mp hempty] at hmem
        cases hmem
      · obtain ⟨rows, hrows, hm⟩ := bind_eq_ok.mp hm
        cases hm
        rcases hpending with ⟨p, hp, hname⟩ | hmem
        · exact ⟨p, mem_append_left _ hp, hname⟩
        · obtain ⟨hdistinct, hmap⟩ := vectorMap_vectorsAt hok hrows slot
          have hentry : (id, v) ∈ vectorsAt rows slot := by
            rw [← IvfFlatIndex.vectorMap_eq_some hdistinct, hmap]
            exact hv
          have hsome : (vectorsAt rows slot).isEmpty = false := by
            rw [isEmpty_eq_false_iff]
            exact ne_nil_of_mem hentry
          refine ⟨(name, IvfFlatIndex.build (vectorsAt rows slot)), ?_, rfl⟩
          apply mem_append_right
          refine mem_filterMap.mpr ⟨(slot, name), hmem, ?_⟩
          simp only [hsome, Bool.false_eq_true, if_false]
  · cases hres

theorem IndexesInStep.congr (h : ts.IndexesInStep) (hschema : ts'.schema = ts.schema)
    (htree : ts'.tree = ts.tree) (hindexes : ts'.vectorIndexes = ts.vectorIndexes) :
    ts'.IndexesInStep := by
  intro p hp
  obtain ⟨slot, hstep⟩ := h p (hindexes ▸ hp)
  refine ⟨slot, hschema ▸ hstep.column, hschema ▸ hstep.ctype, ?_⟩
  have hmap : ts'.committedVector slot = ts.committedVector slot := by
    funext id
    rw [committedVector, committedVector, htree]
  rw [hmap]
  exact hstep.tracks

theorem IndexesInStep.commitTxn (hok : StorageOk indexable ts)
    (h : ts.IndexesInStep) {txn : Transaction}
    (htxn : TxnOk indexable ts txn)
    (hcommit : TableStorage.commitTxn name ts txn = .ok (ts', r)) : ts'.IndexesInStep := by
  obtain ⟨⟨mvcc, committed⟩, hmvcc, hcommit⟩ := bind_eq_ok.mp hcommit
  have hok₀ : StorageOk indexable { ts with mvcc := mvcc } :=
    ⟨hok.schema, hok.row, hok.versions.of_commit hmvcc⟩
  have h₀ : { ts with mvcc := mvcc }.IndexesInStep := h.congr rfl rfl rfl
  cases committed with
  | error e =>
    cases e
    cases hcommit
    exact h₀
  | ok _ =>
    obtain ⟨⟨ts₁, applied⟩, happly, hrest⟩ := bind_eq_ok.mp hcommit
    have hwrites : ∀ p ∈ txn.writesIter, WriteOk indexable { ts with mvcc := mvcc } p.1 p.2 := by
      intro p hp
      exact htxn p.1 p.2 (Std.TreeMap.mem_toList_iff_getElem?_eq_some.mp hp)
    have h₁ := IndexesInStep.applyWrites hok₀ h₀ hwrites happly
    cases applied with
    | error e =>
      cases hrest
      exact h₁
    | ok u => exact IndexesInStep.buildPending (hok₀.applyWrites hwrites happly).1 h₁ hrest

/-! ### Columns -/

/-- Rows written back by `ALTER TABLE` keep the vectors that are read elsewhere. -/
theorem committedVector_storeAll (hok : StorageOk indexable ts) {f : Row → Result DbError Row}
    {rows : List (UInt64 × Bytes)} (hrows : ts.reencode f = .ok rows) (slot slot' : Nat)
    (hf : ∀ id row row', ts.tree.get id = some (encodeRow row) → Storable ts.schema row →
      f row = .ok row' →
      Storable schema row' ∧ vectorAt slot' row' = vectorAt slot row) :
    { ts.storeAll rows with schema := schema }.committedVector slot' = ts.committedVector slot := by
  funext id
  simp only [committedVector]
  rcases storeAll_get hrows id with ⟨old, row, row', hold, hdecode, hrow', hnew⟩ | ⟨hnot, hsame⟩
  · obtain ⟨_, row₀, rfl, hstorable⟩ := hok.row id old hold
    obtain rfl : row₀ = row := Except.ok.inj (hstorable.decode.symm.trans hdecode)
    obtain ⟨hstorable', hvector⟩ := hf id row₀ row' hold hstorable hrow'
    rw [hold, hnew, bind_some, bind_some, storedVector_encodeRow hstorable,
      storedVector_encodeRow hstorable', hvector]
  · rw [hsame]
    cases hget : ts.tree.get id with
    | none => rfl
    | some bytes => exact absurd ⟨(hok.row id bytes hget).1, bytes, hget⟩ hnot

theorem storeAll_indexable (hok : StorageOk indexable ts) {f : Row → Result DbError Row}
    {rows : List (UInt64 × Bytes)} (hrows : ts.reencode f = .ok rows)
    (hschema : indexable.schema schema)
    (hrow : ∀ id row row', ts.tree.get id = some (encodeRow row) → Storable ts.schema row →
      f row = .ok row' → Storable schema row') :
    StorageOk indexable { ts.storeAll rows with schema := schema } :=
  StorageOk.reencoded (fun _ _ => Iff.rfl) (fun _ _ h => h.decode) hok hrows hschema hrow

theorem alter_addColumn (hok : StorageOk indexable ts) (h : ts.IndexesInStep) {col : ColumnDef}
    (hcount : col.name ∉ ts.schema.columns →
      ∀ id bytes, ts.tree.get id = some bytes → ts.schema.columns.length + 1 < 2 ^ 16)
    (halter : ts.alter (.addColumn col) = .ok ts') :
    StorageOk indexable ts' ∧ ts'.IndexesInStep := by
  simp only [alter] at halter
  split at halter
  · cases halter
  · next hany =>
    have hnew : col.name ∉ ts.schema.columns := by simpa using hany
    obtain ⟨rows, hrows, hres⟩ := bind_eq_ok.mp halter
    cases hres
    obtain ⟨hlen, hfirst⟩ := hok.schema
    have hrow : ∀ id row row', ts.tree.get id = some (encodeRow row) → Storable ts.schema row →
        (Except.ok (row ++ [.null]) : Result DbError Row) = .ok row' →
        Storable ⟨ts.schema.columns ++ [col.name], ts.schema.types ++ [col.ctype]⟩ row' := by
      intro id row row' hget hrow hf
      cases hf
      refine ⟨by simp [hrow.length], ?_, ?_⟩
      · rw [length_append, hrow.length]
        exact hcount hnew id _ hget
      · intro v hv
        rcases mem_append.mp hv with hv | hv
        · exact hrow.fits v hv
        · obtain rfl := mem_singleton.mp hv
          trivial
    refine ⟨storeAll_indexable hok hrows ⟨by simp [hlen], hfirst.addColumn hlen hnew⟩ hrow, ?_⟩
    intro p hp
    obtain ⟨slot, hstep⟩ := h p hp
    have hlt := indexOf_lt hstep.column
    refine ⟨slot, indexOf_addColumn hstep.column, ?_, ?_⟩
    · show (ts.schema.types ++ [col.ctype])[slot]? = some .vector
      rw [getElem?_append_left (hlen ▸ hlt)]
      exact hstep.ctype
    · rw [committedVector_storeAll hok hrows slot]
      · exact hstep.tracks
      · intro id row row' hget hstorable hf
        refine ⟨hrow id row row' hget hstorable hf, ?_⟩
        cases hf
        rw [vectorAt, vectorAt, getElem?_append_left (hstorable.length ▸ hlt)]

theorem alter_dropColumn (hok : StorageOk indexable ts) (h : ts.IndexesInStep) {col : String}
    (hindex : ∀ idx, ts.schema.indexOf col = some (idx + 1) → ∀ p ∈ ts.vectorIndexes, p.1 ≠ col)
    (halter : ts.alter (.dropColumn col) = .ok ts') :
    StorageOk indexable ts' ∧ ts'.IndexesInStep := by
  simp only [alter] at halter
  split at halter
  · cases halter
  · cases halter
  · next i hpos hi =>
    obtain ⟨k, rfl⟩ : ∃ k, i = k + 1 := Nat.exists_eq_succ_of_ne_zero fun h0 => hpos (h0 ▸ rfl)
    obtain ⟨rows, hrows, halter⟩ := bind_eq_ok.mp halter
    obtain ⟨⟨_, columns⟩, hcolumns, halter⟩ := bind_eq_ok.mp halter
    obtain ⟨⟨_, types⟩, htypes, hres⟩ := bind_eq_ok.mp halter
    cases hres
    obtain ⟨_, rfl⟩ := removeAt_eq_ok hcolumns
    obtain ⟨_, rfl⟩ := removeAt_eq_ok htypes
    obtain ⟨hlen, hfirst⟩ := hok.schema
    have hlt := indexOf_lt hi
    have hrow : ∀ id row row', ts.tree.get id = some (encodeRow row) → Storable ts.schema row →
        (removeAt row (k + 1) >>= fun p => Except.ok p.2 : Result DbError Row) = .ok row' →
        row' = row.eraseIdx (k + 1) ∧ Storable
          ⟨ts.schema.columns.eraseIdx (k + 1), ts.schema.types.eraseIdx (k + 1)⟩ row' := by
      intro id row row' _ hrow hf
      obtain ⟨⟨_, kept⟩, hremove, hres⟩ := bind_eq_ok.mp hf
      cases hres
      obtain ⟨_, rfl⟩ := removeAt_eq_ok hremove
      refine ⟨rfl, ?_, ?_, ?_⟩
      · rw [length_eraseIdx_of_lt (hrow.length ▸ hlt), length_eraseIdx_of_lt hlt,
          hrow.length]
      · exact lt_of_le_of_lt (length_eraseIdx_le row (k + 1)) hrow.count
      · intro v hv
        exact hrow.fits v (mem_of_mem_eraseIdx hv)
    refine ⟨storeAll_indexable hok hrows ⟨?_, hfirst.dropColumn (k + 1)⟩ ?_, ?_⟩
    · rw [length_eraseIdx_of_lt hlt, length_eraseIdx_of_lt (hlen ▸ hlt), hlen]
    · exact fun id row row' hget hstorable hf => (hrow id row row' hget hstorable hf).2
    · intro p hp
      obtain ⟨slot, hstep⟩ := h p hp
      have hslot : slot ≠ k + 1 := by
        rintro rfl
        have hname := (indexOf_eq_some.mp hstep.column).1
        rw [(indexOf_eq_some.mp hi).1] at hname
        exact hindex k hi p hp (some.inj hname).symm
      obtain ⟨j, rfl⟩ := exists_skip hslot
      refine ⟨j, indexOf_dropColumn hstep.column, ?_, ?_⟩
      · show (ts.schema.types.eraseIdx (k + 1))[j]? = some .vector
        rw [getElem?_eraseIdx_skip]
        exact hstep.ctype
      · rw [committedVector_storeAll hok hrows (skip (k + 1) j)]
        · exact hstep.tracks
        · intro id row row' hget hstorable hf
          obtain ⟨rfl, hstorable'⟩ := hrow id row row' hget hstorable hf
          refine ⟨hstorable', ?_⟩
          rw [vectorAt, vectorAt, getElem?_eraseIdx_skip]

theorem alter_renameColumn (hok : StorageOk indexable ts) (h : ts.IndexesInStep)
    {oldName newName : String}
    (hindex : oldName ∈ ts.schema.columns → newName ∉ ts.schema.columns →
      ∀ p ∈ ts.vectorIndexes, p.1 ≠ oldName)
    (halter : ts.alter (.renameColumn oldName newName) = .ok ts') :
    StorageOk indexable ts' ∧ ts'.IndexesInStep ∧
      ∀ txn, TxnOk indexable ts txn → TxnOk indexable ts' txn := by
  simp only [alter] at halter
  split at halter
  · cases halter
  · cases halter
  · next i _ hi =>
    split at halter
    · cases halter
    · next hany =>
      have hnew : newName ∉ ts.schema.columns := by simpa using hany
      obtain ⟨columns, hcolumns, hres⟩ := bind_eq_ok.mp halter
      cases hres
      obtain ⟨_, rfl⟩ := setAt_eq_ok hcolumns
      obtain ⟨hlen, hfirst⟩ := hok.schema
      have hold := (indexOf_eq_some.mp hi).1
      have hkeep : ∀ bytes, indexable.row ts.schema bytes →
          indexable.row { ts.schema with columns := ts.schema.columns.set i newName } bytes := by
        rintro bytes ⟨row, hbytes, hrow⟩
        refine ⟨row, hbytes, ?_, hrow.count, hrow.fits⟩
        rw [length_set]
        exact hrow.length
      refine ⟨⟨⟨?_, hfirst.renameColumn hnew⟩, ?_, hok.versions⟩, ?_, ?_⟩
      · rw [length_set]
        exact hlen
      · intro id bytes hget
        exact (hok.row id bytes hget).imp_right (hkeep bytes)
      · intro p hp
        obtain ⟨slot, hstep⟩ := h p hp
        have hname := (indexOf_eq_some.mp hstep.column).1
        have hslot : i ≠ slot := by
          rintro rfl
          rw [hold] at hname
          exact hindex (mem_of_getElem? hold) hnew p hp (some.inj hname).symm
        refine ⟨slot, indexOf_renameColumn hstep.column hslot ?_, hstep.ctype, hstep.tracks⟩
        intro heq
        exact hnew (heq ▸ mem_of_getElem? hname)
      · intro txn htxn id bytes hget
        refine (htxn id bytes hget).imp_right ?_
        rintro ⟨b, hb, hid, hrow⟩
        exact ⟨b, hb, hid, hkeep b hrow⟩

end TableStorage

end Oikos.Archon.Relational
