/-
A table written directly, and the same table with its writes buffered by a
transaction.  The buffered rows laid over the stored ones are the rows of the
other table, and committing the transaction stores them.
-/
import Oikos.Archon.Relational.RowTypes

namespace Oikos.Archon.Relational

open List

variable {ts ts' t₁ t₁' t₂ t₂' : TableStorage} {row row' : Row}

def decodable : Discipline where
  schema _ := True
  row s bytes := ∃ row, tryDecodeRow bytes = .ok row ∧ row.length = s.columns.length

theorem decodable_encodeRow {schema : Schema} (hlen : row.length = schema.columns.length)
    (hcount : row.length < 2 ^ 16) (hfits : ∀ v ∈ row, v.Fits) :
    decodable.row schema (encodeRow row) :=
  ⟨row, tryDecodeRow_encodeRow hcount hfits, hlen⟩

theorem length_decodeValues {n : Nat} {bytes : Bytes} {values : List Value}
    (h : decodeValues n bytes = .ok values) : values.length = n := by
  induction n generalizing bytes values with
  | zero =>
    cases h
    rfl
  | succ n ih =>
    simp only [decodeValues, bind_eq_ok] at h
    obtain ⟨⟨v, rest⟩, _, vs, hvs, hres⟩ := h
    cases hres
    rw [length_cons, ih hvs]

theorem length_tryDecodeRow {bytes : Bytes} (h : tryDecodeRow bytes = .ok row) :
    row.length < 2 ^ 16 := by
  unfold tryDecodeRow at h
  split at h
  · cases h
  · rw [length_decodeValues h]
    calc leValue (bytes.take 2)
        < 256 ^ (bytes.take 2).length := leValue_lt _
      _ ≤ 256 ^ 2 := Nat.pow_le_pow_right (by decide) (length_take_le 2 bytes)
      _ = 2 ^ 16 := by decide

def Decodable (ts : TableStorage) : Prop :=
  ∀ id bytes, ts.tree.get id = some bytes → decodable.row ts.schema bytes

/-- The values of rows that decode can be encoded again: decoding replaces ill-formed bytes,
and a text that grows by it may be too long for its 32-bit length. -/
def FitRows (ts : TableStorage) : Prop :=
  ∀ id bytes row, ts.tree.get id = some bytes →
    decodeRowValidated id bytes ts.schema.columns.length = .ok row → ∀ v ∈ row, v.Fits

/-! ### Vector indexes -/

theorem mapM_keys {E V : Type} {l : List (String × V)} {f : String × V → Result E (String × V)}
    (h : ∀ p ∈ l, ∃ q, f p = .ok q ∧ q.1 = p.1) :
    ∃ l', l.mapM f = .ok l' ∧ l'.map Prod.fst = l.map Prod.fst := by
  induction l with
  | nil => exact ⟨[], rfl, rfl⟩
  | cons p l ih =>
    obtain ⟨q, hq, hkey⟩ := h p mem_cons_self
    obtain ⟨l', hl', hkeys⟩ := ih fun x hx => h x (mem_cons_of_mem p hx)
    refine ⟨q :: l', ?_, by rw [map_cons, map_cons, hkey, hkeys]⟩
    rw [mapM_cons, hq, hl']
    rfl

namespace TableStorage

theorem pendingCols_congr (hschema : ts'.schema = ts.schema)
    (hnames : ts'.vectorIndexes.map Prod.fst = ts.vectorIndexes.map Prod.fst) :
    ts'.pendingCols = ts.pendingCols := by
  have hany : ∀ (l : List (String × IvfFlatIndex)) (name : String),
      (l.any fun p => p.1 == name) = (l.map Prod.fst).any (· == name) := by
    intro l name
    rw [any_map]
    rfl
  simp only [pendingCols, hany, hschema, hnames]

theorem maintainVectorIndexesForRow_ok {E : Type} (ts : TableStorage) (id : UInt64)
    (hlen : row.length = ts.schema.columns.length) :
    ∃ ixs, (ts.maintainVectorIndexesForRow id row : Result E TableStorage) =
        .ok { ts with vectorIndexes := ixs } ∧
      ixs.map Prod.fst = ts.vectorIndexes.map Prod.fst := by
  have hstep : ∀ p ∈ ts.vectorIndexes, ∃ q,
      (maintainIndex ts.schema id row p : Result E _) = .ok q ∧ q.1 = p.1 := by
    intro p _
    unfold maintainIndex
    split
    · exact ⟨_, rfl, rfl⟩
    · next slot hslot =>
      have hlt := indexOf_lt hslot
      obtain ⟨v, hv⟩ : ∃ v, row[slot]? = some v :=
        ⟨_, getElem?_eq_getElem (hlen.symm ▸ hlt)⟩
      rw [index_eq_ok hv, ok_bind]
      split <;> exact ⟨_, rfl, rfl⟩
  obtain ⟨ixs, hixs, hnames⟩ := mapM_keys hstep
  exact ⟨ixs, by rw [maintainVectorIndexesForRow, hixs]; rfl, hnames⟩

theorem storeRow_ok {E : Type} (ts : TableStorage) (id : UInt64)
    (hlen : row.length = ts.schema.columns.length) :
    ∃ ixs, (ts.storeRow id row : Result E TableStorage) =
        .ok { ts with tree := ts.tree.insert id (encodeRow row), vectorIndexes := ixs } ∧
      ixs.map Prod.fst = ts.vectorIndexes.map Prod.fst :=
  maintainVectorIndexesForRow_ok { ts with tree := ts.tree.insert id (encodeRow row) } id hlen

theorem deleteRow_eq (ts : TableStorage) (id : UInt64) :
    ∃ ixs, ts.deleteRow id = { ts with tree := ts.tree.delete id, vectorIndexes := ixs } ∧
      ixs.map Prod.fst = ts.vectorIndexes.map Prod.fst := by
  refine ⟨_, rfl, ?_⟩
  rw [map_map]
  rfl

theorem buildPending_ok
    (h : ts.nextRowId.toNat < minRowsForIndex ∨ ts.pendingCols = [] ∨ Decodable ts) :
    ∃ ixs, ts.buildPending = .ok ({ ts with vectorIndexes := ixs }, .ok ()) := by
  obtain ⟨ts', hts'⟩ : ∃ ts', ts.maybeBuildVectorIndexes = .ok ts' := by
    unfold maybeBuildVectorIndexes
    split
    · exact ⟨ts, rfl⟩
    · next hrows =>
      split
      · exact ⟨ts, rfl⟩
      · next hpending =>
        rcases h with hsmall | hnone | hdecode
        · exact absurd hsmall hrows
        · exact absurd (by rw [hnone]; rfl) hpending
        · obtain ⟨rows, hrows⟩ : ∃ rows, ts.committedRows = .ok rows := by
            apply collect_of_ok
            intro id _
            split
            · exact ⟨none, rfl⟩
            · next bytes hget =>
              obtain ⟨row, hrow, hlen⟩ := hdecode id bytes hget
              have hvalid : decodeRowValidated id bytes ts.schema.columns.length = .ok row :=
                decodeRowValidated_eq_ok.mpr ⟨hrow, hlen⟩
              exact ⟨some (id, row), by rw [hvalid]; rfl⟩
          exact ⟨_, by rw [hrows, ok_bind]⟩
  obtain ⟨ixs, rfl⟩ := maybeBuildVectorIndexes_eq hts'
  exact ⟨ixs, by rw [buildPending, hts']; rfl⟩

theorem buildPending_cases {r : Except DbError Unit}
    (hbound : ∀ id bytes, ts.tree.get id = some bytes → id < ts.nextRowId)
    (h : ts.buildPending = .ok (ts', r)) : ts' = ts ∨ Decodable ts := by
  simp only [buildPending, bind_eq_ok] at h
  obtain ⟨built, hbuilt, hres⟩ := h
  rcases catchErr_eq_ok hbuilt with ⟨ts₁, rfl, hm⟩ | ⟨e, rfl, _⟩
  · cases hres
    unfold maybeBuildVectorIndexes at hm
    split at hm
    · cases hm
      exact Or.inl rfl
    · split at hm
      · cases hm
        exact Or.inl rfl
      · simp only [bind_eq_ok] at hm
        obtain ⟨rows, hrows, _⟩ := hm
        right
        intro id bytes hget
        obtain ⟨r, hr⟩ := collect_ok hrows id (mem_rowIds.mpr (hbound id bytes hget))
        rw [hget] at hr
        simp only [bind_eq_ok] at hr
        obtain ⟨row, hrow, _⟩ := hr
        exact ⟨row, decodeRowValidated_eq_ok.mp (ofExcept_eq_ok hrow)⟩
  · cases hres
    exact Or.inl rfl

end TableStorage

/-! ### Buffered writes -/

/-- Both tables show the same rows, the second one through a transaction. -/
structure SameRows (t₁ t₂ : TableStorage) (txn : Option Transaction) : Prop where
  schema : t₂.schema = t₁.schema
  nextRowId : t₂.nextRowId = t₁.nextRowId
  bytes : ∀ id, t₂.visibleBytes txn id = .ok (t₁.tree.get id)

def Buildable (t₁ t₂ : TableStorage) : Prop :=
  t₁.nextRowId.toNat < minRowsForIndex ∨ t₂.pendingCols = [] ∨ Decodable t₁

structure Committable (t₁ t₂ : TableStorage) (txn : Transaction) : Prop where
  snapshot : txn.snapshot = t₂.mvcc.clock
  clock : t₂.mvcc.clock + 1 < 2 ^ 64
  writes : TxnOk decodable t₂ txn
  build : Buildable t₁ t₂

/-- The first table is written directly, the second through a transaction. -/
structure Overlay (t₁ t₂ : TableStorage) (txn : Option Transaction) : Prop
    extends SameRows t₁ t₂ txn where
  bound : ∀ id bytes, t₁.tree.get id = some bytes → id < t₁.nextRowId
  mvcc : t₂.mvcc = t₁.mvcc
  versions : t₂.mvcc.Timely
  pending : t₁.pendingCols = [] → t₂.pendingCols = [] ∨ Decodable t₁
  committable : ∀ t, txn = some t → Committable t₁ t₂ t

variable {txn : Transaction} {id : UInt64}

theorem Overlay.refl (h : StorageOk anyRow ts) : Overlay ts ts none where
  schema := rfl
  nextRowId := rfl
  bytes _ := rfl
  bound id bytes hget := (h.row id bytes hget).1
  mvcc := rfl
  versions := h.versions
  pending := Or.inl
  committable t ht := by cases ht

theorem Overlay.begin (h : Overlay t₁ t₂ none) (hclock : t₁.mvcc.clock + 1 < 2 ^ 64)
    (hbuild : Buildable t₁ t₂) : Overlay t₁ t₂ (some t₂.mvcc.begin) where
  schema := h.schema
  nextRowId := h.nextRowId
  bytes id := by
    rw [← h.bytes id]
    simp [TableStorage.visibleBytes, Transaction.getWrite, MvccStore.begin]
  bound := h.bound
  mvcc := h.mvcc
  versions := h.versions
  pending := h.pending
  committable t ht := by
    cases ht
    exact ⟨rfl, by rw [h.mvcc]; exact hclock, TxnOk.begin t₂ t₂.mvcc, hbuild⟩

def bufferedForm : Option Bytes → Bytes
  | some bytes => mvccLive :: bytes
  | none => mvccWrapTombstone

/-- The first table has a new row `w` at `id`, or none, and maybe more ids. -/
structure Written (t₁ t₁' : TableStorage) (id : UInt64) (w : Option Bytes) : Prop where
  schema : t₁'.schema = t₁.schema
  mvcc : t₁'.mvcc = t₁.mvcc
  nextRowId : t₁.nextRowId ≤ t₁'.nextRowId
  tree : ∀ k, t₁'.tree.get k = if k = id then w else t₁.tree.get k
  row : ∀ bytes, w = some bytes → id < t₁'.nextRowId ∧ decodable.row t₁.schema bytes

theorem Written.decodable {w : Option Bytes} (h : Written t₁ t₁' id w) (hrows : Decodable t₁) :
    Decodable t₁' := by
  intro k bytes hget
  rw [h.tree] at hget
  rw [h.schema]
  split at hget
  · exact (h.row bytes hget).2
  · exact hrows k bytes hget

theorem Overlay.write {w : Option Bytes} (h : Overlay t₁ t₂ (some txn))
    (hw : Written t₁ t₁' id w)
    (hbuild : Buildable t₁' t₂)
    (hpending : t₁'.pendingCols = [] → t₂.pendingCols = [] ∨ Decodable t₁') :
    Overlay t₁' { t₂ with nextRowId := t₁'.nextRowId }
      (some (t₂.mvcc.write txn id (bufferedForm w))) where
  schema := h.schema.trans hw.schema.symm
  nextRowId := rfl
  bytes k := by
    rw [hw.tree]
    have hold := h.bytes k
    simp only [TableStorage.visibleBytes, Option.bind_some, getWrite_write] at hold ⊢
    by_cases hk : k = id
    · rw [if_pos hk, if_pos hk]
      cases w <;> rfl
    · rw [if_neg hk, if_neg hk]
      exact hold
  bound k bytes hget := by
    rw [hw.tree] at hget
    split at hget
    · next hk => exact hk ▸ (hw.row bytes hget).1
    · exact UInt64.lt_of_lt_of_le (h.bound k bytes hget) hw.nextRowId
  mvcc := h.mvcc.trans hw.mvcc.symm
  versions := h.versions
  pending := hpending
  committable t ht := by
    cases ht
    obtain ⟨hsnap, hclock, hwrites, _⟩ := h.committable txn rfl
    refine ⟨hsnap, hclock, ?_, hbuild⟩
    have hmore : TxnOk decodable { t₂ with nextRowId := t₁'.nextRowId } txn :=
      hwrites.congr rfl (h.nextRowId ▸ hw.nextRowId)
    refine hmore.write _ ?_
    cases w with
    | none => exact Or.inl rfl
    | some bytes =>
      obtain ⟨hid, hrow⟩ := hw.row bytes rfl
      exact Or.inr ⟨bytes, rfl, hid, h.schema.symm ▸ hrow⟩

theorem Overlay.overwrite {w : Option Bytes} (h : Overlay t₁ t₂ (some txn))
    (hw : Written t₁ t₁' id w) (hnext : t₁'.nextRowId = t₁.nextRowId)
    (hnames : t₁'.vectorIndexes.map Prod.fst = t₁.vectorIndexes.map Prod.fst) :
    Overlay t₁' t₂ (some (t₂.mvcc.write txn id (bufferedForm w))) := by
  have hpending := TableStorage.pendingCols_congr hw.schema hnames
  have hover := h.write hw ?_ ?_
  · rw [hnext, ← h.nextRowId] at hover
    exact hover
  · rw [Buildable, hnext]
    exact (h.committable txn rfl).build.imp_right (Or.imp_right hw.decodable)
  · rw [hpending]
    exact fun hnone => (h.pending hnone).imp_right hw.decodable

theorem Overlay.delete (h : Overlay t₁ t₂ (some txn)) (id : UInt64) :
    Overlay (t₁.deleteRow id) t₂ (some (t₂.mvcc.write txn id mvccWrapTombstone)) := by
  obtain ⟨ixs, hdelete, hnames⟩ := TableStorage.deleteRow_eq t₁ id
  rw [hdelete]
  have hw : Written t₁ { t₁ with tree := t₁.tree.delete id, vectorIndexes := ixs } id none :=
    ⟨rfl, rfl, UInt64.le_refl _, ValidTree.get_delete t₁.tree id, by simp⟩
  exact h.overwrite hw rfl hnames

theorem Overlay.update {E : Type} (h : Overlay t₁ t₂ (some txn)) (hid : id < t₁.nextRowId)
    (hlen : row.length = t₁.schema.columns.length)
    (hrow : decodable.row t₁.schema (encodeRow row)) :
    ∃ ixs, (t₁.storeRow id row : Result E TableStorage) =
        .ok { t₁ with tree := t₁.tree.insert id (encodeRow row), vectorIndexes := ixs } ∧
      Overlay { t₁ with tree := t₁.tree.insert id (encodeRow row), vectorIndexes := ixs } t₂
        (some (t₂.mvcc.write txn id (mvccWrapRow row))) := by
  obtain ⟨ixs, hstore, hnames⟩ := TableStorage.storeRow_ok t₁ id hlen
  refine ⟨ixs, hstore, ?_⟩
  have hw : Written t₁ { t₁ with tree := t₁.tree.insert id (encodeRow row), vectorIndexes := ixs }
      id (some (encodeRow row)) := by
    refine ⟨rfl, rfl, UInt64.le_refl _, ValidTree.get_insert t₁.tree id _, ?_⟩
    intro bytes hbytes
    cases hbytes
    exact ⟨hid, hrow⟩
  exact h.overwrite hw rfl hnames

def Indexable (ts : TableStorage) : Prop :=
  ts.nextRowId.toNat + 1 < minRowsForIndex ∨ ts.pendingCols = [] ∨ Decodable ts

theorem Overlay.buildable {txn : Option Transaction} (h : Overlay t₁ t₂ txn)
    (hindex : Indexable t₁) : Buildable t₁ t₂ := by
  rcases hindex with hsmall | hnone | hrows
  · exact Or.inl (Nat.lt_of_succ_lt hsmall)
  · exact Or.inr (h.pending hnone)
  · exact Or.inr (Or.inr hrows)

theorem Overlay.insert (h : Overlay t₁ t₂ (some txn)) (hindex : Indexable t₁) {next : UInt64}
    (hnext : next.toNat = t₁.nextRowId.toNat + 1)
    (hlen : row.length = t₁.schema.columns.length)
    (hrow : decodable.row t₁.schema (encodeRow row)) :
    ∃ t₁s t₁', ({ t₁ with nextRowId := next }.storeRow t₁.nextRowId row :
        Result Empty TableStorage) = .ok t₁s ∧ t₁s.buildPending = .ok (t₁', .ok ()) ∧
      Overlay t₁' { t₂ with nextRowId := next }
        (some (t₂.mvcc.write txn t₁.nextRowId (mvccWrapRow row))) := by
  have hlt : t₁.nextRowId < next := by
    rw [UInt64.lt_iff_toNat_lt, hnext]
    exact Nat.lt_succ_self _
  obtain ⟨ixs, hstore, hnames⟩ :=
    TableStorage.storeRow_ok (E := Empty) { t₁ with nextRowId := next } t₁.nextRowId hlen
  have hw : ∀ ixs, Written t₁ { t₁ with
      nextRowId := next, tree := t₁.tree.insert t₁.nextRowId (encodeRow row),
      vectorIndexes := ixs } t₁.nextRowId (some (encodeRow row)) := by
    intro ixs
    refine ⟨rfl, rfl, UInt64.le_of_lt hlt, ValidTree.get_insert t₁.tree _ _, ?_⟩
    intro bytes hbytes
    cases hbytes
    exact ⟨hlt, hrow⟩
  have hpending : TableStorage.pendingCols { t₁ with
      nextRowId := next, tree := t₁.tree.insert t₁.nextRowId (encodeRow row),
      vectorIndexes := ixs } = t₁.pendingCols :=
    TableStorage.pendingCols_congr rfl hnames
  have hsmall : t₁.nextRowId.toNat + 1 < minRowsForIndex → next.toNat < minRowsForIndex := by
    rw [hnext]
    exact fun hlt => hlt
  obtain ⟨ixs', hbuild⟩ := TableStorage.buildPending_ok
    (hindex.imp hsmall (Or.imp hpending.trans (hw ixs).decodable))
  refine ⟨_, _, hstore, hbuild, h.write (hw ixs') ?_ ?_⟩
  · rcases hindex with hfew | hnone | hrows
    · exact Or.inl (hsmall hfew)
    · exact Or.inr ((h.pending hnone).imp_right (hw ixs').decodable)
    · exact Or.inr (Or.inr ((hw ixs').decodable hrows))
  · intro hnone
    have hbound : ∀ id bytes, (t₁.tree.insert t₁.nextRowId (encodeRow row)).get id = some bytes →
        id < next := by
      intro id bytes hget
      rw [ValidTree.get_insert] at hget
      split at hget
      · next hid => exact hid ▸ hlt
      · exact UInt64.lt_trans (h.bound id bytes hget) hlt
    rcases TableStorage.buildPending_cases hbound hbuild with hsame | hrows
    · rw [hsame, hpending] at hnone
      exact (h.pending hnone).imp_right (hw ixs').decodable
    · exact Or.inr hrows

/-! ### Commit -/

def writeBytes (tree : ValidTree Key Bytes) (p : Key × Bytes) : ValidTree Key Bytes :=
  if p.2 = mvccWrapTombstone then tree.delete p.1 else tree.insert p.1 (p.2.drop 1)

theorem get_writeBytes (tree : ValidTree Key Bytes) (k : Key) (v : Bytes) (k' : Key) :
    (writeBytes tree (k, v)).get k' =
      if k' = k then (if v = mvccWrapTombstone then none else some (v.drop 1))
      else tree.get k' := by
  unfold writeBytes
  by_cases hv : v = mvccWrapTombstone
  · rw [if_pos hv, if_pos hv]
    exact ValidTree.get_delete tree k k'
  · rw [if_neg hv, if_neg hv]
    exact ValidTree.get_insert tree k _ k'

namespace TableStorage

theorem applyWrite_ok {p : Key × Bytes} (hw : WriteOk decodable ts p.1 p.2) :
    ∃ ixs, ts.applyWrite p =
        .ok ({ ts with tree := writeBytes ts.tree p, vectorIndexes := ixs }, .ok ()) ∧
      ixs.map Prod.fst = ts.vectorIndexes.map Prod.fst := by
  obtain ⟨id, bytes⟩ := p
  rcases hw with rfl | ⟨b, rfl, _, row, hrow, hlen⟩
  · obtain ⟨ixs, hdelete, hnames⟩ := deleteRow_eq ts id
    refine ⟨ixs, ?_, hnames⟩
    show Except.ok (ts.deleteRow id, Except.ok ()) = _
    rw [hdelete]
    rfl
  · have hvalid : decodeRowValidated id b ts.schema.columns.length = .ok row :=
      decodeRowValidated_eq_ok.mpr ⟨hrow, hlen⟩
    obtain ⟨ixs, hixs, hnames⟩ := maintainVectorIndexesForRow_ok (E := Empty)
      { ts with tree := ts.tree.insert id b } id hlen
    refine ⟨ixs, ?_, hnames⟩
    have htag : (index (mvccLive :: b) 0 : Result Empty UInt8) = .ok mvccLive := rfl
    simp only [applyWrite, htag, ok_bind, drop_succ_cons, drop_zero, hvalid, hixs]
    rfl

theorem applyWrites_ok {writes : List (Key × Bytes)}
    (hw : ∀ p ∈ writes, WriteOk decodable ts p.1 p.2) :
    ∃ ixs, ts.applyWrites writes =
        .ok ({ ts with tree := writes.foldl writeBytes ts.tree, vectorIndexes := ixs }, .ok ()) ∧
      ixs.map Prod.fst = ts.vectorIndexes.map Prod.fst := by
  induction writes generalizing ts with
  | nil => exact ⟨ts.vectorIndexes, rfl, rfl⟩
  | cons p writes ih =>
    obtain ⟨ixs, hone, hnames⟩ := applyWrite_ok (hw p mem_cons_self)
    have hmore : ∀ q ∈ writes, WriteOk decodable
        { ts with tree := writeBytes ts.tree p, vectorIndexes := ixs } q.1 q.2 :=
      fun q hq => hw q (mem_cons_of_mem p hq)
    obtain ⟨ixs', hrest, hnames'⟩ := ih hmore
    refine ⟨ixs', ?_, hnames'.trans hnames⟩
    rw [applyWrites, hone, ok_bind]
    exact hrest

end TableStorage

theorem Overlay.commit (h : Overlay t₁ t₂ (some txn)) (name : String) :
    ∃ t₂', TableStorage.commitTxn name t₂ txn = .ok (t₂', .ok ()) ∧ SameRows t₁ t₂' none := by
  obtain ⟨hsnap, hclock, hwrites, hbuild⟩ := h.committable txn rfl
  obtain ⟨mvcc, hmvcc⟩ := h.versions.commit_ok hsnap hclock
  have hlist : ∀ p ∈ txn.writesIter, WriteOk decodable { t₂ with mvcc := mvcc } p.1 p.2 := by
    intro p hp
    exact hwrites p.1 p.2 (Std.TreeMap.mem_toList_iff_getElem?_eq_some.mp hp)
  obtain ⟨ixs, happly, hnames⟩ := TableStorage.applyWrites_ok hlist
  have hget : ∀ id, (txn.writesIter.foldl writeBytes t₂.tree).get id = t₁.tree.get id := by
    intro id
    have hfold := get_foldl_toList ValidTree.get writeBytes
      (fun _ v => if v = mvccWrapTombstone then none else some (v.drop 1)) get_writeBytes
      txn.writes t₂.tree id
    have hbytes := h.bytes id
    rw [Transaction.writesIter, hfold]
    simp only [TableStorage.visibleBytes, Option.bind_some, Transaction.getWrite] at hbytes
    cases hv : txn.writes[id]? with
    | none =>
      rw [hv] at hbytes
      exact Except.ok.inj hbytes
    | some v =>
      rw [hv] at hbytes
      rcases hwrites id v hv with rfl | ⟨b, rfl, _⟩
      · exact Except.ok.inj hbytes
      · exact Except.ok.inj hbytes
  obtain ⟨ixs', hbuilt⟩ : ∃ ixs', TableStorage.buildPending { t₂ with
      mvcc := mvcc, tree := txn.writesIter.foldl writeBytes t₂.tree, vectorIndexes := ixs } =
        .ok ({ t₂ with
          mvcc := mvcc, tree := txn.writesIter.foldl writeBytes t₂.tree, vectorIndexes := ixs' },
          .ok ()) := by
    refine TableStorage.buildPending_ok (hbuild.imp ?_ (Or.imp ?_ ?_))
    · intro hsmall
      exact h.nextRowId.symm ▸ hsmall
    · intro hnone
      rw [← hnone]
      exact TableStorage.pendingCols_congr rfl hnames
    · intro hrows id bytes hrow
      exact h.schema.symm ▸ hrows id bytes (hget id ▸ hrow)
  refine ⟨{ t₂ with
    mvcc := mvcc, tree := txn.writesIter.foldl writeBytes t₂.tree, vectorIndexes := ixs' }, ?_,
    h.schema, h.nextRowId, fun id => congrArg Except.ok (hget id)⟩
  rw [TableStorage.commitTxn, hmvcc, ok_bind]
  simp only [happly, ok_bind]
  exact hbuilt

end Oikos.Archon.Relational
