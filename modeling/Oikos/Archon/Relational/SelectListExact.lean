/-
When the select list of a query is honoured, exactly: tables that tell apart what
a label finds from what its item stands for.
-/
import Oikos.Archon.Relational.SelectListSound

namespace Oikos.Archon.Relational

open List

section Aggregation

variable {columns groupBy : List String} {rows : List Row} {aggregates : List Aggregate}

theorem aggregateTable_of_ok (heven : ∀ row ∈ rows, row.length = columns.length)
    (hgroupBy : ∀ name ∈ groupBy, name ∈ columns)
    (hcalls : ∀ g ∈ groupsOf columns groupBy rows, ∀ a ∈ aggregates, ∃ v,
      evalAggregate a.func a.column columns g = .ok v) :
    ∃ rs, aggregateTable columns rows groupBy aggregates = .ok rs := by
  unfold aggregateTable aggregateTableWith
  split
  · next hempty =>
    have hvalues := mapM_of_ok (hcalls rows (by rw [groupsOf, if_pos hempty]; simp))
    obtain ⟨values, hvalues⟩ := hvalues
    exact ⟨_, bind_eq_ok.mpr ⟨values, hvalues, rfl⟩⟩
  · next hne =>
    obtain ⟨indices, hindices⟩ := columnIndices_of_mem hgroupBy
    have hlt := columnIndices_lt hindices
    have hpositions := columnIndices_eq_ok hindices
    have hread : ∀ row ∈ rows, ∃ key,
        (indices.mapM fun i => (index row i : Result ExecError Value)) = .ok key := by
      intro row hrow
      apply mapM_of_ok
      intro i hi
      exact index_of_lt (heven row hrow ▸ hlt i hi)
    obtain ⟨keyed, hkeyed⟩ : ∃ keyed, (rows.mapM fun row => do
        let key ← indices.mapM fun i => (index row i : Result ExecError Value)
        .ok (key, row)) = .ok keyed := by
      apply mapM_of_ok
      intro row hrow
      obtain ⟨key, hkey⟩ := hread row hrow
      exact ⟨_, by rw [hkey, ok_bind]⟩
    rw [hindices, ok_bind, hkeyed, ok_bind]
    obtain ⟨rfl, hrows⟩ := keyed_eq hpositions hkeyed
    obtain ⟨ks, hks, hlist⟩ := @toList_foldl_gather _ _ (List.compareLex Value.cmp) _ _ _
      (rows.map fun row => (mapKey columns groupBy row, row))
    rw [map_map] at hks
    have hperm := groups_perm (Bool.eq_false_iff.mpr hne) hrows hks
    obtain ⟨outRows, hout⟩ : ∃ outRows, ((rows.map fun row =>
        (mapKey columns groupBy row, row)).foldl gather (∅ : Groups)).toList.mapM (fun p => do
        let first ← index p.2 0
        let key ← indices.mapM fun i => index first i
        let values ← aggregates.mapM fun (a : Aggregate) =>
          evalAggregate a.func a.column columns p.2
        .ok (key ++ values)) = .ok outRows := by
      apply mapM_of_ok
      rw [hlist]
      intro p hp
      obtain ⟨k, hk, rfl⟩ := mem_map.mp hp
      rw [valuesOf_map]
      have hgroup := hperm.subset (mem_map.mpr ⟨k, hk, rfl⟩)
      obtain ⟨row, hrow, hkey⟩ := mem_map.mp (mem_dedup.mp (hks.subset hk))
      have hmem : row ∈ rows.filter fun row => mapKey columns groupBy row = k :=
        mem_filter.mpr ⟨hrow, decide_eq_true hkey⟩
      obtain ⟨first, hfirst⟩ := index_of_lt (length_pos_of_mem hmem)
      have hfirstRow := mem_of_getElem? (index_eq_ok_iff.mp hfirst)
      obtain ⟨key, hkey⟩ := hread first (mem_of_mem_filter hfirstRow)
      obtain ⟨values, hvalues⟩ := mapM_of_ok (hcalls _ hgroup)
      exact ⟨_, bind_eq_ok.mpr ⟨first, hfirst, bind_eq_ok.mpr ⟨key, hkey,
        bind_eq_ok.mpr ⟨values, hvalues, rfl⟩⟩⟩⟩
    exact ⟨_, bind_eq_ok.mpr ⟨outRows, hout, rfl⟩⟩

end Aggregation

/-! ### Tables with given rows -/

def stored (rows : List Row) : ValidTree Key Bytes :=
  (rows.mapIdx fun i row => (UInt64.ofNat i, encodeRow row)).foldl
    (fun tree p => tree.insert p.1 p.2) ValidTree.new

theorem get_stored {rows : List Row} (hrows : rows.length < 2 ^ 64) {i : Nat}
    (hi : i < rows.length) :
    (stored rows).get (UInt64.ofNat i) = some (encodeRow rows[i]) := by
  refine @get_foldl_of_mem _ _ _ _ _ (fun (tree : ValidTree Key Bytes) k => tree.get k)
    (fun tree p => tree.insert p.1 p.2) (fun _ v => some v) ?_ _ ?_ _ _ ?_ ValidTree.new
  · intro tree k v k'
    exact ValidTree.get_insert tree k v k'
  · rw [pairwise_iff_getElem]
    intro a b ha hb hab heq
    simp only [length_mapIdx] at ha hb
    have hnat := congrArg UInt64.toNat heq
    simp only [getElem_mapIdx] at hnat
    rw [UInt64.toNat_ofNat_of_lt' (lt_trans ha hrows),
      UInt64.toNat_ofNat_of_lt' (lt_trans hb hrows)] at hnat
    omega
  · refine mem_iff_getElem.mpr ⟨i, by simpa using hi, ?_⟩
    simp only [getElem_mapIdx]

/-- A database with one table `t`, whose columns are all of one type. -/
def holding (columns : List String) (ctype : ColumnType) (rows : List Row) : Database :=
  { Database.empty with
    tables := [("t", ⟨⟨columns, columns.map fun _ => ctype⟩, stored rows,
      UInt64.ofNat rows.length, MvccStore.new, []⟩)] }

def FitsTable (columns : List String) (rows : List Row) : Prop :=
  rows.length < 2 ^ 64 ∧ columns.length < 2 ^ 16 ∧
    ∀ row ∈ rows, row.length = columns.length ∧ ∀ v ∈ row, v.Fits

section Holding

variable {columns : List String} {rows : List Row} {ctype : ColumnType}

theorem rows_of_ids (h : FitsTable columns rows) :
    List.Forall₂ (fun id row => (stored rows).get id = some (encodeRow row) ∧
      decodeRowValidated id (encodeRow row) columns.length = .ok row)
      (rowIds (UInt64.ofNat rows.length)) rows := by
  obtain ⟨hlen, hcols, hrows⟩ := h
  have hids : rowIds (UInt64.ofNat rows.length) = (range rows.length).map UInt64.ofNat := by
    rw [rowIds, UInt64.toNat_ofNat_of_lt' hlen]
  rw [hids, forall₂_map_left_iff, forall₂_iff_get]
  refine ⟨by simp, ?_⟩
  intro i _ hi
  obtain ⟨hrow, hfits⟩ := hrows rows[i] (getElem_mem hi)
  simp only [get_eq_getElem, getElem_range]
  exact ⟨get_stored hlen hi, hrow ▸ decodeRowValidated_encodeRow (hrow ▸ hcols) hfits _⟩

theorem collect_of_some {E A B : Type} {f : A → Result E (Option B)} {as : List A} {bs : List B}
    (h : List.Forall₂ (fun a b => f a = .ok (some b)) as bs) : collect f as = .ok bs := by
  induction h with
  | nil => rfl
  | cons hab _ ih => rw [collect, hab, ok_bind, ih, ok_bind]; rfl

theorem scanTable_holding (h : FitsTable columns rows) :
    (holding columns ctype rows).scanTable "t" = .ok (columns, rows) := by
  have hcollect : collect (TableStorage.visibleRow
    ⟨⟨columns, columns.map fun _ => ctype⟩, stored rows,
      UInt64.ofNat rows.length, MvccStore.new, []⟩ none) (rowIds (UInt64.ofNat rows.length)) =
      .ok rows := by
    refine collect_of_some ((rows_of_ids h).imp ?_)
    rintro id row ⟨hget, hdecode⟩
    unfold TableStorage.visibleRow
    change (Except.ok ((stored rows).get id) >>= _) = _
    rw [hget, ok_bind]
    change (ofExcept (decodeRowValidated id (encodeRow row) columns.length) >>= _) = _
    rw [hdecode]
    rfl
  rw [Database.scanTable]
  change (collect _ _ >>= fun rows => _) = _
  exact bind_eq_ok.mpr ⟨rows, hcollect, rfl⟩

end Holding

/-! ### Marked rows -/

/-- A row of `n` times the same value but for one place. -/
def mark (n : Nat) (d : Value) (p : Nat) (v : Value) : Row :=
  (List.replicate n d).set p v

section Mark

variable {n p q : Nat} {d v : Value}

@[simp] theorem length_mark : (mark n d p v).length = n := by
  rw [mark, length_set, length_replicate]

theorem mark_self (h : p < n) : (mark n d p v)[p]? = some v := by
  rw [mark, getElem?_set_self (by simpa using h)]

theorem mark_ne (h : q < n) (hne : p ≠ q) : (mark n d p v)[q]? = some d := by
  rw [mark, getElem?_set_ne hne, getElem?_replicate, if_pos h]

theorem mem_mark {w : Value} (h : w ∈ mark n d p v) : w = d ∨ w = v := by
  rcases mem_or_eq_of_mem_set h with hmem | rfl
  · exact Or.inl (eq_of_mem_replicate hmem)
  · exact Or.inr rfl

theorem fitsTable_marks {columns : List String} {vals : List Value}
    (hcols : columns.length < 2 ^ 16)
    (hvals : vals.length < 2 ^ 64) (hd : d.Fits) (hfits : ∀ v ∈ vals, v.Fits) :
    FitsTable columns (vals.map (mark columns.length d p)) := by
  refine ⟨by simpa using hvals, hcols, ?_⟩
  intro row hrow
  obtain ⟨v, hv, rfl⟩ := mem_map.mp hrow
  refine ⟨length_mark, ?_⟩
  intro w hw
  rcases mem_mark hw with rfl | rfl
  · exact hd
  · exact hfits w hv

end Mark

/-! ### Aggregates of marked rows -/

/-- An aggregate of the integers in a column. -/
def foldInts (func : AggregateFunc) (ints : List Int64) : Result ExecError Value :=
  match func with
  | .sum => do
    let total ← sumInts ints 0
    .ok (.int total)
  | .avg =>
    if ints.isEmpty then .ok (.int 0)
    else do
      let total ← sumInts ints 0
      .ok (.int (total / Int64.ofNat ints.length))
  | .min =>
    .ok (.int (ints.foldl (fun m i => some (m.elim i fun m => if i < m then i else m)) none
      |>.getD 0))
  | _ =>
    .ok (.int (ints.foldl (fun m i => some (m.elim i fun m => if m ≤ i then i else m)) none
      |>.getD 0))

def intOf : Value → Option Int64
  | .int i => some i
  | _ => none

section Folds

variable {columns : List String} {rows : List Row} {func : AggregateFunc} {arg : String}

theorem evalAggregate_eq_fold {i : Nat} (hfunc : func ≠ .count)
    (harg : columns.findIdx? (· == arg) = some i) :
    evalAggregate func arg columns rows = (columnInts rows i >>= foldInts func) := by
  cases func with
  | count => exact absurd rfl hfunc
  | _ =>
    simp only [evalAggregate, harg]
    rfl

theorem columnInts_eq {vs : List Value} {i : Nat}
    (h : rows.map (fun row => row[i]?) = vs.map some) :
    columnInts rows i = .ok (vs.filterMap intOf) := by
  have hread : (rows.mapM fun row => (index row i : Result ExecError Value)) = .ok vs := by
    rw [mapM_eq_ok]
    induction rows generalizing vs with
    | nil =>
      cases vs with
      | nil => exact .nil
      | cons v vs => cases h
    | cons row rows ih =>
      cases vs with
      | nil => cases h
      | cons v vs =>
        obtain ⟨hv, hrest⟩ := cons.inj h
        exact .cons (index_eq_ok hv) (ih hrest)
  rw [columnInts, hread, ok_bind]
  rfl

theorem evalAggregate_int {v : Value} (h : evalAggregate func arg columns rows = .ok v) :
    ∃ i, v = .int i := by
  by_cases hfunc : func = .count
  · subst hfunc
    cases h
    exact ⟨_, rfl⟩
  · cases harg : columns.findIdx? (· == arg) with
    | none =>
      cases func with
      | count => exact absurd rfl hfunc
      | _ =>
        simp only [evalAggregate, harg] at h
        cases h
    | some i =>
      rw [evalAggregate_eq_fold hfunc harg] at h
      obtain ⟨ints, _, hfold⟩ := bind_eq_ok.mp h
      cases func with
      | count => exact absurd rfl hfunc
      | sum =>
        obtain ⟨total, _, htotal⟩ := bind_eq_ok.mp hfold
        cases htotal
        exact ⟨_, rfl⟩
      | avg =>
        simp only [foldInts] at hfold
        split at hfold
        · cases hfold
          exact ⟨_, rfl⟩
        · obtain ⟨total, _, htotal⟩ := bind_eq_ok.mp hfold
          cases htotal
          exact ⟨_, rfl⟩
      | min =>
        cases hfold
        exact ⟨_, rfl⟩
      | max =>
        cases hfold
        exact ⟨_, rfl⟩

theorem columnInts_marks {n p q : Nat} {vals : List Value} (hq : q < n) :
    columnInts (vals.map (mark n (.int 0) p)) q = .ok 
      (if p = q then vals.filterMap intOf else vals.map fun _ => 0) := by
  by_cases hpq : p = q
  · subst hpq
    rw [if_pos rfl]
    refine columnInts_eq ?_
    rw [map_map]
    exact map_congr_left fun v _ => mark_self hq
  · rw [if_neg hpq]
    have h := @columnInts_eq (vals.map (mark n (.int 0) p)) (vals.map fun _ => .int 0) q (by
      rw [map_map, map_map]
      exact map_congr_left fun v _ => mark_ne hq hpq)
    rw [h, filterMap_map]
    exact congrArg Except.ok (congrFun (@filterMap_eq_map _ _ fun _ => 0) vals)

end Folds

/-- Contents of one column that tell the aggregates apart. -/
def probes : List (List Value) :=
  [[.null], [.int 1], [.int 2], [.int 1, .int 3, .int 11]]

theorem evalAggregate_marks_ok {columns : List String} {func : AggregateFunc} {arg : String}
    {p : Nat} {vals : List Value} (hvals : vals ∈ probes) (harg : func = .count ∨ arg ∈ columns) :
    ∃ v, evalAggregate func arg columns (vals.map (mark columns.length (.int 0) p)) = .ok v := by
  by_cases hfunc : func = .count
  · subst hfunc
    exact ⟨_, rfl⟩
  · obtain ⟨q, hq⟩ := findIdx?_of_mem (harg.resolve_left hfunc)
    rw [evalAggregate_eq_fold hfunc hq,
      columnInts_marks (findIdx?_eq_some_iff_getElem.mp hq).1, ok_bind]
    simp only [probes, mem_cons, not_mem_nil, or_false] at hvals
    split
    · rcases hvals with rfl | rfl | rfl | rfl
      all_goals cases func <;> exact ⟨_, rfl⟩
    · rcases hvals with rfl | rfl | rfl | rfl
      all_goals cases func <;> exact ⟨_, rfl⟩

/-! ### The query with only the list -/

/-- `SELECT items FROM t`, with `GROUP BY` and vector search if they are given. -/
def listed (items : List SelectItem) (groupBy : List String) (cosine : Option OrderByCosine) :
    SelectStatement :=
  ⟨items.map SelectItem.label, false, .named "t" none, none, [], groupBy,
    items.filterMap SelectItem.toAggregate, [], cosine, none, none, []⟩

theorem listed_single (items : List SelectItem) (groupBy : List String)
    (cosine : Option OrderByCosine) : SingleTable "t" (listed items groupBy cosine) :=
  ⟨⟨none, rfl⟩, rfl, rfl⟩

theorem listed_lists (items : List SelectItem) (groupBy : List String)
    (cosine : Option OrderByCosine) : Lists items (listed items groupBy cosine) :=
  ⟨rfl, rfl, rfl⟩

section Agree

open Database SelectStatement

variable {columns groupBy : List String} {items : List SelectItem} {rows : List Row}
  {before : Table}

theorem lookup_of_value {entries : List Entry} {label : String} {row : Row} {v : Value}
    (h : valueAt (entries.map Entry.label) label row = some v) :
    ∃ e, lookup entries label = some e := by
  obtain ⟨i, hi, _⟩ := Option.bind_eq_some_iff.mp h
  obtain ⟨hlt, hlabel, _⟩ := findIdx?_eq_some_iff_getElem.mp hi
  have hi : i < entries.length := by simpa using hlt
  refine Option.isSome_iff_exists.mp (find?_isSome.mpr ⟨entries[i], ?_, ?_⟩)
  · exact getElem_mem hi
  · simpa using hlabel

theorem exists_of_mem_forall₂ {A B : Type} {R : A → B → Prop} {as : List A} {bs : List B}
    (h : List.Forall₂ R as bs) {a : A} (ha : a ∈ as) : ∃ b ∈ bs, R a b := by
  induction h with
  | nil => cases ha
  | cons hab _ ih =>
    rcases mem_cons.mp ha with rfl | ha
    · exact ⟨_, mem_cons_self, hab⟩
    · obtain ⟨b, hb, hR⟩ := ih ha
      exact ⟨b, mem_cons_of_mem _ hb, hR⟩

theorem agree_of_returns (hstore : FitsTable columns rows)
    (hsources : sources columns groupBy (items.filterMap SelectItem.toAggregate) rows = [rows])
    (hgroup : (listed items groupBy none).groupTable ⟨columns, rows⟩ = .ok before)
    (hne : items ≠ [])
    (hret : ReturnsList (holding columns .int rows) 1 (listed items groupBy none) [[]] items) :
    ∀ item ∈ items, ∃ e v,
      lookup (header columns groupBy (items.filterMap SelectItem.toAggregate)) item.label = some e ∧
        e.Holds columns rows v ∧ ItemValue columns rows item v := by
  have hscan := @scanTable_holding columns rows .int hstore
  have hview : assocGet (holding columns .int rows).views "t" = none := rfl
  have hsource : (holding columns .int rows).runSelect 1 (listed items groupBy none).source [[]] =
      .ok ⟨columns, rows⟩ := by
    rw [@runSelect_single _ "t" (listed items groupBy none).source
      ⟨⟨none, rfl⟩, rfl, rfl⟩ rfl hview]
    exact bind_eq_ok.mpr ⟨_, hscan, rfl⟩
  have hwhole : (holding columns .int rows).runSelect 1 (listed items groupBy none).unlisted [[]] =
      .ok ⟨before.columns, before.rows⟩ := by
    rw [@runSelect_single _ "t" (listed items groupBy none).unlisted
      ⟨⟨none, rfl⟩, rfl, rfl⟩ rfl hview]
    exact bind_eq_ok.mpr ⟨_, hscan, bind_eq_ok.mpr ⟨⟨columns, rows⟩, rfl,
      bind_eq_ok.mpr ⟨before, mapErr_eq_ok.mpr hgroup, rfl⟩⟩⟩
  obtain ⟨rs, hrun, _, hlen, picked, hpicked, hvalues⟩ := hret _ _ hsource hwhole
  rw [runSelect_single (listed_single items groupBy none) rfl hview] at hrun
  obtain ⟨_, hscan', hrun⟩ := bind_eq_ok.mp hrun
  cases hscan.symm.trans hscan'
  obtain ⟨_, hkept, hrun⟩ := bind_eq_ok.mp hrun
  cases hkept
  obtain ⟨_, hbefore, hrun⟩ := bind_eq_ok.mp hrun
  cases (mapErr_eq_ok.mpr hgroup).symm.trans hbefore
  obtain ⟨_, hafter, hrun⟩ := bind_eq_ok.mp hrun
  cases hafter
  have hout : (listed items groupBy none).output before = .ok rs := mapErr_eq_ok.mp hrun
  -- the one source has one row in the table, which is projected to one row of the result
  obtain ⟨hheader, gs, hgs, hrows⟩ :=
    groupTable_header (fun row hrow => (hstore.2.2 row hrow).1) hgroup
  have hone : gs.Perm [rows] := hgs.trans (Perm.of_eq hsources)
  obtain rfl := perm_singleton.mp hone
  obtain ⟨row, rest, hrow, hrest, hbeforeRows⟩ := forall₂_cons_left_iff.mp hrows
  cases hrest
  obtain ⟨projected, hprojected, _, hsub, _⟩ := output_eq_ok hout
  obtain ⟨_, hall⟩ := project_eq_ok rfl (by simpa [listed] using hne) hprojected
  rw [hbeforeRows] at hall hlen
  obtain ⟨out, rest, hnames, hrest, hprojectedRows⟩ := forall₂_cons_left_iff.mp hall
  cases hrest
  rw [hprojectedRows] at hsub
  have hresult := perm_singleton.mp
    (hsub.perm_of_length_le (by rw [hlen]; exact le_refl 1))
  rw [hresult] at hvalues
  obtain ⟨group, rest, hitems, hrest, rfl⟩ := forall₂_cons_right_iff.mp hvalues
  cases hrest
  obtain rfl : group = rows := by
    have hgroupMem : group ∈ sources columns groupBy
      (items.filterMap SelectItem.toAggregate) rows :=
      hpicked.subset mem_cons_self
    rw [hsources] at hgroupMem
    exact mem_singleton.mp hgroupMem
  have hlabels := forall₂_map_left_iff.mp hnames
  rw [hheader] at hlabels
  intro item hitem
  obtain ⟨v, _, hv, hname⟩ := exists_of_mem_forall₂ (hitems.mp (fun _ _ => And.intro) hlabels) hitem
  obtain ⟨e, he⟩ := lookup_of_value hname
  obtain ⟨w, hw, hholds⟩ := hrow item.label e he
  obtain rfl := Option.some_inj.mp (hw.symm.trans hname)
  exact ⟨e, w, he, hholds, hv⟩

theorem groupsOf_same_key {key : List (Option Value)} (hne : rows ≠ [])
    (hkey : ∀ row ∈ rows, groupKey columns groupBy row = key) :
    groupsOf columns groupBy rows = [rows] := by
  unfold groupsOf
  split
  · rfl
  · have hkeys : rows.map (groupKey columns groupBy) = replicate rows.length key := by
      rw [← map_const]
      exact map_congr_left hkey
    have hlen : rows.length ≠ 0 := fun h => hne (eq_nil_of_length_eq_zero h)
    rw [hkeys, replicate_dedup hlen, map_singleton, filter_eq_self.mpr]
    exact fun row hrow => decide_eq_true (hkey row hrow)

structure WellNamed (columns groupBy : List String) (items : List SelectItem) : Prop where
  nonempty : items ≠ []
  listed : ∀ name aliasName, .column name aliasName ∈ items → ∃ i, denoted columns name = some i
  calls : ∀ func arg aliasName, .aggregate func arg aliasName ∈ items → func = .count ∨
    arg ∈ columns
  keys : ∀ name ∈ groupBy, name ∈ columns

def probeRows (columns : List String) (p : Nat) (vals : List Value) : List Row :=
  vals.map (mark columns.length (.int 0) p)

/-- The probe is one source: a single row, or rows that differ in no column of
`GROUP BY`. -/
def OneSource (columns groupBy : List String) (items : List SelectItem) (p : Nat)
    (vals : List Value) : Prop :=
  vals.length = 1 ∨ (listed items groupBy none).aggregating = true ∧
    ∀ name ∈ groupBy, columns.findIdx? (· == name) ≠ some p

theorem probe_fits {vals : List Value} (hvals : vals ∈ probes) :
    vals ≠ [] ∧ vals.length < 2 ^ 64 ∧ ∀ v ∈ vals, v.Fits := by
  simp only [probes, mem_cons, not_mem_nil, or_false] at hvals
  rcases hvals with rfl | rfl | rfl | rfl
  all_goals simp [Value.Fits]

theorem groupsOf_probe {vals : List Value} {p : Nat} (hkeys : ∀ name ∈ groupBy, name ∈ columns)
    (hvals : vals ∈ probes) (hone : OneSource columns groupBy items p vals) :
    groupsOf columns groupBy (probeRows columns p vals) = [probeRows columns p vals] := by
  have hne : probeRows columns p vals ≠ [] := by simpa [probeRows] using (probe_fits hvals).1
  rcases hone with hlen | ⟨_, hother⟩
  · obtain ⟨v, rfl⟩ := length_eq_one_iff.mp hlen
    refine @groupsOf_same_key _ _ _ (groupKey columns groupBy (mark columns.length (.int 0) p v))
      hne ?_
    intro row hrow
    rw [mem_singleton.mp hrow]
  · refine @groupsOf_same_key _ _ _ (groupBy.map fun _ => some (.int 0)) hne ?_
    intro row hrow
    obtain ⟨v, _, rfl⟩ := mem_map.mp hrow
    refine map_congr_left ?_
    intro name hname
    obtain ⟨q, hq⟩ := findIdx?_of_mem (hkeys name hname)
    rw [valueAt, hq, Option.bind_some, mark_ne (findIdx?_eq_some_iff_getElem.mp hq).1]
    rintro rfl
    exact hother name hname hq

theorem sources_probe {vals : List Value} {p : Nat} (hkeys : ∀ name ∈ groupBy, name ∈ columns)
    (hvals : vals ∈ probes) (hone : OneSource columns groupBy items p vals) :
    sources columns groupBy (items.filterMap SelectItem.toAggregate) (probeRows columns p vals) =
      [probeRows columns p vals] := by
  unfold sources
  split
  · exact groupsOf_probe hkeys hvals hone
  · next hagg =>
    rcases hone with hlen | ⟨htrue, _⟩
    · obtain ⟨v, rfl⟩ := length_eq_one_iff.mp hlen
      rfl
    · exact absurd htrue hagg

theorem groupTable_probe {vals : List Value} {p : Nat} (hnamed : WellNamed columns groupBy items)
    (hvals : vals ∈ probes) (hone : OneSource columns groupBy items p vals) :
    ∃ before, (listed items groupBy none).groupTable ⟨columns, probeRows columns p vals⟩ =
      .ok before := by
  have heven : ∀ row ∈ probeRows columns p vals, row.length = columns.length := by
    intro row hrow
    obtain ⟨v, _, rfl⟩ := mem_map.mp hrow
    exact length_mark
  unfold groupTable
  split
  · have hcalls : ∀ g ∈ groupsOf columns groupBy (probeRows columns p vals),
        ∀ a ∈ items.filterMap SelectItem.toAggregate, ∃ v,
          evalAggregate a.func a.column columns g = .ok v := by
      intro g hg a ha
      rw [groupsOf_probe hnamed.keys hvals hone] at hg
      rw [mem_singleton.mp hg]
      obtain ⟨item, hitem, hcall⟩ := mem_filterMap.mp ha
      cases item with
      | column name aliasName => cases hcall
      | aggregate func arg aliasName =>
        cases hcall
        exact evalAggregate_marks_ok hvals (hnamed.calls func arg aliasName hitem)
    obtain ⟨rs, hrs⟩ := aggregateTable_of_ok heven hnamed.keys hcalls
    exact ⟨_, bind_eq_ok.mpr ⟨rs, hrs, rfl⟩⟩
  · exact ⟨_, rfl⟩

theorem agree_on_probe (hnamed : WellNamed columns groupBy items) (hcols : columns.length < 2 ^ 16)
    (hret : ∀ rows, FitsTable columns rows →
      ReturnsList (holding columns .int rows) 1 (listed items groupBy none) [[]] items)
    {vals : List Value} {p : Nat} (hvals : vals ∈ probes)
    (hone : OneSource columns groupBy items p vals) :
    ∀ item ∈ items, ∃ e v,
      lookup (header columns groupBy (items.filterMap SelectItem.toAggregate)) item.label = some e ∧
        e.Holds columns (probeRows columns p vals) v ∧
        ItemValue columns (probeRows columns p vals) item v := by
  obtain ⟨_, hlen, hfit⟩ := probe_fits hvals
  have hfits : FitsTable columns (probeRows columns p vals) :=
    fitsTable_marks hcols hlen trivial hfit
  obtain ⟨before, hbefore⟩ := groupTable_probe hnamed hvals hone
  exact agree_of_returns hfits (sources_probe hnamed.keys hvals hone) hbefore hnamed.nonempty
    (hret _ hfits)

/-! ### Telling entries apart -/

theorem findIdx?_inj {a b : String} {i : Nat} (ha : columns.findIdx? (· == a) = some i)
    (hb : columns.findIdx? (· == b) = some i) : a = b := by
  obtain ⟨hlt, hnameA, _⟩ := findIdx?_eq_some_iff_getElem.mp ha
  obtain ⟨_, hnameB, _⟩ := findIdx?_eq_some_iff_getElem.mp hb
  exact (beq_iff_eq.mp hnameA).symm.trans (beq_iff_eq.mp hnameB)

section Probe

variable {p q : Nat} {v w : Value} {name arg : String} {func : AggregateFunc} {vals : List Value}

theorem holds_key_self (hname : columns.findIdx? (· == name) = some p)
    (h : (Entry.key name).Holds columns (probeRows columns p [v]) w) : w = v := by
  have hvalue := h _ mem_cons_self
  rw [valueAt, hname, Option.bind_some,
    mark_self (findIdx?_eq_some_iff_getElem.mp hname).1] at hvalue
  exact (Option.some_inj.mp hvalue).symm

theorem holds_key_other (hname : columns.findIdx? (· == name) = some q) (hne : p ≠ q)
    (h : (Entry.key name).Holds columns (probeRows columns p [v]) w) : w = .int 0 := by
  have hvalue := h _ mem_cons_self
  rw [valueAt, hname, Option.bind_some,
    mark_ne (findIdx?_eq_some_iff_getElem.mp hname).1 hne] at hvalue
  exact (Option.some_inj.mp hvalue).symm

theorem denoted_lt (h : denoted columns name = some p) : p < columns.length := by
  unfold denoted at h
  split at h
  · next i hi =>
    cases h
    exact (findIdx?_eq_some_iff_getElem.mp hi).1
  · exact (findIdx?_eq_some_iff_getElem.mp h).1

theorem itemValue_self {aliasName : Option String} (hname : denoted columns name = some p)
    (h : ItemValue columns (probeRows columns p [v]) (.column name aliasName) w) : w = v := by
  obtain ⟨i, hi, hvalue⟩ := column_eq_ok.mp (h _ mem_cons_self)
  cases hname.symm.trans hi
  rw [mark_self (denoted_lt hname)] at hvalue
  exact (Option.some_inj.mp hvalue).symm

theorem call_probe (hfunc : func ≠ .count) (harg : columns.findIdx? (· == arg) = some q)
    (h : evalAggregate func arg columns (probeRows columns p vals) = .ok w) :
    foldInts func (if p = q then vals.filterMap intOf else vals.map fun _ => 0) = .ok w := by
  rw [evalAggregate_eq_fold hfunc harg, probeRows,
    columnInts_marks (findIdx?_eq_some_iff_getElem.mp harg).1, ok_bind] at h
  exact h

theorem fold_two (hfunc : func ≠ .count) : foldInts func [2] ≠ .ok (.int 1) := by
  cases func with
  | count => exact absurd rfl hfunc
  | _ => decide

theorem fold_one_zero {func' : AggregateFunc} (hfunc : func ≠ .count) (hfunc' : func' ≠ .count)
    (h : foldInts func [1] = .ok w) : foldInts func' [0] ≠ .ok w := by
  have hw : w = .int 1 := by
    cases func with
    | count => exact absurd rfl hfunc
    | _ =>
      cases h
      rfl
  subst hw
  cases func' with
  | count => exact absurd rfl hfunc'
  | _ => decide

theorem fold_three {func' : AggregateFunc} (hfunc : func ≠ .count) (hfunc' : func' ≠ .count)
    (hne : func ≠ func') : foldInts func [1, 3, 11] ≠ foldInts func' [1, 3, 11] := by
  cases func with
  | count => exact absurd rfl hfunc
  | _ =>
    cases func' with
    | count => exact absurd rfl hfunc'
    | _ => first | exact absurd rfl hne | decide

end Probe

/-- No aggregate but `COUNT` is of a column of `GROUP BY`. -/
def KeysNotAggregated (groupBy : List String) (items : List SelectItem) : Prop :=
  ∀ func arg aliasName, .aggregate func arg aliasName ∈ items → func ≠ .count → arg ∉ groupBy

theorem mem_of_lookup {entries : List Entry} {label : String} {e : Entry}
    (h : lookup entries label = some e) : e ∈ entries :=
  mem_of_find?_eq_some h

theorem call_of_lookup {label : String} {a : Aggregate}
    (h : lookup (header columns groupBy (items.filterMap SelectItem.toAggregate)) label =
      some (.call a)) :
    (listed items groupBy none).aggregating = true ∧
      ∃ aliasName, .aggregate a.func a.column aliasName ∈ items := by
  have hmem := mem_of_lookup h
  unfold header at hmem
  split at hmem
  · next hagg =>
    refine ⟨hagg, ?_⟩
    rcases mem_append.mp hmem with hkey | hcall
    · obtain ⟨_, _, hkey⟩ := mem_map.mp hkey
      cases hkey
    · obtain ⟨a', ha', heq⟩ := mem_map.mp hcall
      cases heq
      obtain ⟨item, hitem, hcall⟩ := mem_filterMap.mp ha'
      cases item with
      | column name aliasName => cases hcall
      | aggregate func arg aliasName =>
        cases hcall
        exact ⟨aliasName, hitem⟩
  · obtain ⟨_, _, hkey⟩ := mem_map.mp hmem
    cases hkey

theorem key_of_lookup {label name : String} (hkeys : ∀ name ∈ groupBy, name ∈ columns)
    (h : lookup (header columns groupBy (items.filterMap SelectItem.toAggregate)) label =
      some (.key name)) : name ∈ columns := by
  have hmem := mem_of_lookup h
  unfold header at hmem
  split at hmem
  · rcases mem_append.mp hmem with hkey | hcall
    · obtain ⟨_, hname, heq⟩ := mem_map.mp hkey
      cases heq
      exact hkeys name hname
    · obtain ⟨_, _, hcall⟩ := mem_map.mp hcall
      cases hcall
  · obtain ⟨_, hname, heq⟩ := mem_map.mp hmem
    cases heq
    exact hname

theorem same_call {func func' : AggregateFunc} {arg arg' : String}
    (harg : func = .count ∨ arg ∈ columns) (harg' : func' = .count ∨ arg' ∈ columns)
    (hfree : func ≠ .count → arg ∉ groupBy)
    (hagg : (listed items groupBy none).aggregating = true)
    (hprobe : ∀ vals ∈ probes, ∀ p, OneSource columns groupBy items p vals → ∃ w,
      evalAggregate func arg columns (probeRows columns p vals) = .ok w ∧
        evalAggregate func' arg' columns (probeRows columns p vals) = .ok w) :
    func = func' ∧ (func' = .count ∨ arg = arg') := by
  have hsingle : ∀ v p, OneSource columns groupBy items p [v] := fun v p => Or.inl rfl
  by_cases hcount' : func' = .count
  · subst hcount'
    refine ⟨?_, Or.inl rfl⟩
    by_contra hcount
    obtain ⟨q, hq⟩ := findIdx?_of_mem (harg.resolve_left hcount)
    obtain ⟨w, hw, hw'⟩ := hprobe [.int 2] (by simp [probes]) q (hsingle _ _)
    cases hw'
    have hfold := call_probe hcount hq hw
    rw [if_pos rfl] at hfold
    exact fold_two hcount hfold
  · obtain ⟨q', hq'⟩ := findIdx?_of_mem (harg'.resolve_left hcount')
    have hcount : func ≠ .count := by
      rintro rfl
      obtain ⟨w, hw, hw'⟩ := hprobe [.int 2] (by simp [probes]) q' (hsingle _ _)
      cases hw
      have hfold := call_probe hcount' hq' hw'
      rw [if_pos rfl] at hfold
      exact fold_two hcount' hfold
    obtain ⟨q, hq⟩ := findIdx?_of_mem (harg.resolve_left hcount)
    have hsame : arg = arg' := by
      by_contra hne
      have hqne : q ≠ q' := by
        rintro rfl
        exact hne (findIdx?_inj hq hq')
      obtain ⟨w, hw, hw'⟩ := hprobe [.int 1] (by simp [probes]) q (hsingle _ _)
      have hfold := call_probe hcount hq hw
      have hfold' := call_probe hcount' hq' hw'
      rw [if_pos rfl] at hfold
      rw [if_neg hqne] at hfold'
      exact fold_one_zero hcount hcount' hfold hfold'
    subst hsame
    cases hq.symm.trans hq'
    refine ⟨?_, Or.inr rfl⟩
    by_contra hne
    have hone : OneSource columns groupBy items q' [.int 1, .int 3, .int 11] := by
      refine Or.inr ⟨hagg, ?_⟩
      intro name hname heq
      exact hfree hcount (findIdx?_inj heq hq ▸ hname)
    obtain ⟨w, hw, hw'⟩ := hprobe _ (by simp [probes]) q' hone
    have hfold := call_probe hcount hq hw
    have hfold' := call_probe hcount' hq hw'
    rw [if_pos rfl] at hfold hfold'
    exact fold_three hcount hcount' hne (hfold.trans hfold'.symm)

theorem honoured_of_returns (hnamed : WellNamed columns groupBy items)
    (hcols : columns.length < 2 ^ 16) (hfree : KeysNotAggregated groupBy items)
    (hret : ∀ rows, FitsTable columns rows →
      ReturnsList (holding columns .int rows) 1 (listed items groupBy none) [[]] items) :
    Honoured columns groupBy items false := by
  intro item hitem
  have hsingle : ∀ v p, OneSource columns groupBy items p [v] := fun v p => Or.inl rfl
  obtain ⟨e, _, he, _⟩ := agree_on_probe hnamed hcols hret (by simp [probes] : [.int 1] ∈ probes)
    (hsingle (.int 1) 0) item hitem
  have hprobe : ∀ vals ∈ probes, ∀ p, OneSource columns groupBy items p vals → ∃ w,
      e.Holds columns (probeRows columns p vals) w ∧
        ItemValue columns (probeRows columns p vals) item w := by
    intro vals hvals p hone
    obtain ⟨e', w, he', hw⟩ := agree_on_probe hnamed hcols hret hvals hone item hitem
    cases he.symm.trans he'
    exact ⟨w, hw⟩
  refine ⟨e, he, ?_⟩
  cases e with
  | key name =>
    obtain ⟨q, hq⟩ := findIdx?_of_mem (key_of_lookup hnamed.keys he)
    cases item with
    | column item aliasName =>
      obtain ⟨p, hp⟩ := hnamed.listed item aliasName hitem
      change columns.findIdx? (· == name) = denoted columns item
      rw [hq, hp]
      by_contra hne
      obtain ⟨w, hkey, hvalue⟩ := hprobe [.int 1] (by simp [probes]) p (hsingle _ _)
      rw [holds_key_other hq (fun heq => hne (heq ▸ rfl)) hkey] at hvalue
      cases itemValue_self hp hvalue
    | aggregate func arg aliasName =>
      obtain ⟨w, hkey, hvalue⟩ := hprobe [.null] (by simp [probes]) q (hsingle _ _)
      rw [holds_key_self hq hkey] at hvalue
      obtain ⟨i, hi⟩ := evalAggregate_int hvalue
      cases hi
  | call a =>
    obtain ⟨hagg, callAlias, hcall⟩ := call_of_lookup he
    cases item with
    | column item aliasName =>
      obtain ⟨p, hp⟩ := hnamed.listed item aliasName hitem
      obtain ⟨w, hkey, hvalue⟩ := hprobe [.null] (by simp [probes]) p (hsingle _ _)
      rw [itemValue_self hp hvalue] at hkey
      obtain ⟨i, hi⟩ := evalAggregate_int hkey
      cases hi
    | aggregate func arg aliasName =>
      exact same_call (hnamed.calls _ _ _ hcall) (hnamed.calls _ _ _ hitem) (hfree _ _ _ hcall)
        hagg hprobe

end Agree

/-! ### Vector search -/

theorem filterMap_getElem?_range {A B : Type} (f : A → B) (l : List A) :
    (range l.length).filterMap (fun i => l[i]?.map f) = l.map f := by
  induction l with
  | nil => rfl
  | cons a l ih =>
    rw [length_cons, range_succ_eq_map, filterMap_cons, filterMap_map,
      map_cons]
    simp only [getElem?_cons_zero, Option.map_some, Function.comp_def, Nat.succ_eq_add_one,
      getElem?_cons_succ, ih]

theorem topkResult_perm (stmt : SelectStatement) (columns : List String) (query : List F32)
    (candidates : List (List F32 × Row)) :
    (Database.topkResult stmt columns query candidates.length candidates).rows.Perm
      (candidates.map Prod.snd) := by
  have hpositions : (vectorTopk (candidates.map Prod.fst) query candidates.length).Perm
      (range candidates.length) := by
    unfold vectorTopk
    dsimp only
    rw [take_of_length_le
      (by rw [length_mergeSort, length_mapIdx, length_map])]
    refine ((mergeSort_perm _ _).map Prod.fst).trans (Perm.of_eq ?_)
    refine ext_getElem (by simp) ?_
    intro i _ _
    simp only [getElem_map, getElem_mapIdx, getElem_range]
  refine (hpositions.filterMap _).trans (Perm.of_eq ?_)
  exact filterMap_getElem?_range Prod.snd candidates

def VectorRow (row : Row) : Prop :=
  ∀ v ∈ row, ∃ x, v = .vector x

section Search

open Database SelectStatement

variable {columns groupBy : List String} {items : List SelectItem} {rows : List Row} {c : String}

def embedding (slot : Nat) (row : Row) : List F32 :=
  match row[slot]? with
  | some (.vector x) => x
  | _ => []

theorem search_holding (hfits : FitsTable columns rows) (hvectors : ∀ row ∈ rows, VectorRow row)
    (hc : c ∈ columns) (stmt : SelectStatement) (htable : stmt.table = .named "t" none)
    (hfilter : stmt.filter = none) (run : RunSelect) :
    ∃ rs, (holding columns .vector rows).runVectorTopk run stmt
        ⟨c, 1, UInt64.ofNat rows.length⟩ [[]] = .ok rs ∧ rs.rows.Perm rows := by
  obtain ⟨slot, hslot⟩ := findIdx?_of_mem hc
  have hlt := (findIdx?_eq_some_iff_getElem.mp hslot).1
  have hcollect : ∀ candidate : UInt64 → Result DbError (Option (List F32 × Row)),
      (∀ id row x, (stored rows).get id = some (encodeRow row) →
        decodeRowValidated id (encodeRow row) columns.length = .ok row →
        topkCandidates run columns none [[]] slot [row] = .ok [(x, row)] →
        candidate id = .ok (some (x, row))) →
      collect candidate (rowIds (UInt64.ofNat rows.length)) =
        .ok (rows.map fun row => (embedding slot row, row)) := by
    intro candidate hcandidate
    refine collect_of_some ?_
    rw [forall₂_map_right_iff]
    have hids := (forall₂_and_left _ _).mpr ⟨fun row hrow =>
      And.intro (hvectors row hrow) (hfits.2.2 row hrow).1, (rows_of_ids hfits).flip⟩
    refine (hids.imp ?_).flip
    rintro row id ⟨⟨hvector, hlen⟩, hget, hdecode⟩
    have hi : slot < row.length := hlen ▸ hlt
    obtain ⟨x, hx⟩ := hvector row[slot] (getElem_mem hi)
    have hrow : row[slot]? = some (.vector x) := by rw [getElem?_eq_getElem hi, hx]
    have hfound : topkCandidates run columns none [[]] slot [row] = .ok [(x, row)] := by
      simp only [topkCandidates, collect, ok_bind, if_true, index, hrow]
      rfl
    have hembedding : embedding slot row = x := by simp only [embedding, hrow]
    rw [flip, hembedding]
    exact hcandidate id row x hget hdecode hfound
  have hk : (UInt64.ofNat rows.length).toNat =
    (rows.map fun row => (embedding slot row, row)).length := by
    rw [UInt64.toNat_ofNat_of_lt' hfits.1, length_map]
  refine ⟨topkResult stmt columns [] (UInt64.ofNat rows.length).toNat
    (rows.map fun row => (embedding slot row, row)), ?_, ?_⟩
  · unfold runVectorTopk
    rw [htable, hfilter]
    have htype : (index (columns.map fun _ => ColumnType.vector) slot : Result DbError ColumnType) =
        .ok .vector := index_eq_ok (by rw [getElem?_map, getElem?_eq_getElem hlt]; rfl)
    have hposition : columnPosition columns c = .ok slot := by rw [columnPosition, hslot]
    change (columnPosition columns c >>= fun slot =>
      index (columns.map fun _ => ColumnType.vector) slot >>= fun ctype => _) = _
    rw [hposition, ok_bind, htype, ok_bind]
    refine bind_eq_ok.mpr ⟨_, hcollect _ ?_, rfl⟩
    intro id row x hget hdecode hfound
    simp only [hget, hdecode, ofExcept, ok_bind, hfound]
    rfl
  · rw [hk]
    refine (topkResult_perm stmt columns [] _).trans (Perm.of_eq ?_)
    rw [map_map]
    exact map_id rows

theorem agree_on_search (hfits : FitsTable columns rows) (hvectors : ∀ row ∈ rows, VectorRow row)
    (hc : c ∈ columns) (hret : ∀ k, ReturnsList (holding columns .vector rows) 1
      (listed items groupBy (some ⟨c, 1, k⟩)) [[]] items) :
    ∃ (out : List Row) (picked : List (List Row)), out.Perm rows ∧
      picked.Subperm (sources columns groupBy (items.filterMap SelectItem.toAggregate) out) ∧
      List.Forall₂ (fun group row => List.Forall₂ (ItemValue columns group) items row)
      picked out := by
  obtain ⟨stmt, hstmt⟩ : ∃ stmt, stmt =
      listed items groupBy (some ⟨c, 1, UInt64.ofNat rows.length⟩) := ⟨_, rfl⟩
  have hts : (holding columns .vector rows).table "t" =
    some ⟨⟨columns, columns.map fun _ => .vector⟩,
      stored rows, UInt64.ofNat rows.length, MvccStore.new, []⟩ := rfl
  have hcosine : stmt.orderByCosine = some ⟨c, 1, UInt64.ofNat rows.length⟩ := by rw [hstmt]; rfl
  have htable : stmt.table = .named "t" none := by rw [hstmt]; rfl
  obtain ⟨found, hfound, hperm⟩ := search_holding hfits hvectors hc stmt htable (by rw [hstmt]; rfl)
    ((holding columns .vector rows).runSelectScoped 0)
  have hsource := (runVectorTopk_rows htable (rfl : stmt.source.table = _) rfl hts hfound).2
  have hwhole := (runVectorTopk_rows htable (rfl : stmt.unlisted.table = _) rfl hts hfound).2
  have hself := (runVectorTopk_rows htable rfl rfl hts hfound).2
  have hlisted := hret (UInt64.ofNat rows.length)
  rw [← hstmt] at hlisted
  obtain ⟨rs, hrun, _, _, picked, hpicked, hvalues⟩ := hlisted _ _
    ((@runSelect_cosine _ stmt.source 0 _ _ hcosine).trans hsource)
    ((@runSelect_cosine _ stmt.unlisted 0 _ _ hcosine).trans hwhole)
  rw [runSelect_cosine hcosine, hself] at hrun
  cases hrun
  rw [hstmt] at hpicked
  exact ⟨found.rows, picked, hperm, hpicked, hvalues⟩

theorem vectorRow_mark {n p : Nat} {x y : List F32} :
    VectorRow (mark n (.vector x) p (.vector y)) := by
  intro v hv
  rcases mem_mark hv with rfl | rfl
  · exact ⟨x, rfl⟩
  · exact ⟨y, rfl⟩

theorem columns_of_returns (hc : c ∈ columns) (hcols : columns.length < 2 ^ 16)
    (hret : ∀ rows k, FitsTable columns rows → ReturnsList (holding columns .vector rows) 1
      (listed items groupBy (some ⟨c, 1, k⟩)) [[]] items) :
    Honoured columns groupBy items true := by
  have hagree : ∀ (p : Nat) (vals : List Value), vals.length < 2 ^ 64 →
      (∀ v ∈ vals, ∃ x, v = .vector x ∧ v.Fits) →
      ∃ (out : List Row) (picked : List (List Row)),
        out.Perm (vals.map (mark columns.length (.vector []) p)) ∧
        picked.Subperm (sources columns groupBy (items.filterMap SelectItem.toAggregate) out) ∧
        List.Forall₂ (fun group row => List.Forall₂ (ItemValue columns group) items row)
          picked out := by
    intro p vals hlen hvals
    have hfits : FitsTable columns (vals.map (mark columns.length (.vector []) p)) :=
      fitsTable_marks hcols hlen (by simp [Value.Fits]) fun v hv => (hvals v hv).choose_spec.2
    refine agree_on_search hfits ?_ hc fun k => hret _ k hfits
    intro row hrow
    obtain ⟨v, hv, rfl⟩ := mem_map.mp hrow
    obtain ⟨x, rfl, _⟩ := hvals v hv
    exact vectorRow_mark
  have hgroupBy : groupBy = [] := by
    by_contra hne
    obtain ⟨out, picked, hout, hpicked, hvalues⟩ := hagree 0 [.vector [], .vector []] (by simp)
      (by simp [Value.Fits])
    obtain rfl : out = replicate 2 (mark columns.length (.vector []) 0 (.vector [])) :=
      perm_replicate.mp hout
    -- two equal rows are one group, and the search returns both
    have hone := hpicked.length_le
    rw [sources, if_pos (by simp [hne]), groupsOf_same_key (by simp) fun row hrow => by
      rw [eq_of_mem_replicate hrow]] at hone
    rw [hvalues.length_eq] at hone
    simp at hone
  have hcalls : items.filterMap SelectItem.toAggregate = [] := by
    rw [filterMap_eq_nil_iff]
    intro item hitem
    cases item with
    | column name aliasName => rfl
    | aggregate func arg aliasName =>
      obtain ⟨out, picked, hout, _, hvalues⟩ :=
        hagree 0 [.vector []] (by simp) (by simp [Value.Fits])
      obtain rfl := perm_singleton.mp hout
      obtain ⟨group, _, hrow, _, _⟩ := forall₂_cons_right_iff.mp hvalues
      obtain ⟨v, hv, hcall⟩ := exists_of_mem_forall₂ hrow hitem
      obtain ⟨i, rfl⟩ := evalAggregate_int hcall
      obtain ⟨x, hx⟩ := vectorRow_mark _ hv
      cases hx
  have hvalues : ∀ p, List.Forall₂
      (ItemValue columns [mark columns.length (.vector []) p (.vector [⟨0⟩])]) items
      (mark columns.length (.vector []) p (.vector [⟨0⟩])) := by
    intro p
    obtain ⟨out, picked, hout, hpicked, hvalues⟩ := hagree p [.vector [⟨0⟩]] (by simp)
      (by simp [Value.Fits])
    obtain rfl := perm_singleton.mp hout
    obtain ⟨group, rest, hrow, hrest, rfl⟩ := forall₂_cons_right_iff.mp hvalues
    have hgroup := hpicked.subset mem_cons_self
    rw [sources, if_neg (by simp [hgroupBy, hcalls])] at hgroup
    rwa [mem_singleton.mp hgroup] at hrow
  have hlen : items.length = columns.length := by simpa using (hvalues 0).length_eq
  refine ⟨hgroupBy, ext_getElem (by simpa using hlen) ?_⟩
  intro i hi _
  have hitem : i < items.length := by simpa using hi
  have hlt : i < columns.length := hlen ▸ hitem
  have hvalue := (forall₂_iff_get.mp (hvalues i)).2 i hitem (by simpa using hlt)
  simp only [getElem_map, getElem_range, get_eq_getElem] at hvalue ⊢
  cases hat : items[i] with
  | column name aliasName =>
    rw [hat] at hvalue
    obtain ⟨j, hj, hread⟩ := column_eq_ok.mp (hvalue _ mem_cons_self)
    by_cases hij : i = j
    · rw [hij]
      exact hj
    · -- another column holds the empty vector
      rw [mark_ne (denoted_lt hj) hij] at hread
      have hself := getElem?_eq_getElem (l := mark columns.length (.vector []) i
        (.vector [⟨0⟩])) (by simpa using hlt)
      rw [mark_self hlt, ← hread] at hself
      cases hself
  | aggregate func arg aliasName =>
    have hnone := filterMap_eq_nil_iff.mp hcalls _ (getElem_mem hitem)
    rw [hat] at hnone
    cases hnone

end Search

/-! ### Every query with the list -/

namespace Database

variable {columns groupBy : List String} {items : List SelectItem}

/-- Every query of one table with these columns that has the list, the `GROUP BY` and
the vector search returns what the list says. -/
def AlwaysReturns (columns groupBy : List String) (items : List SelectItem)
    (cosine : Option String) : Prop :=
  ∀ (db : Database) name ts stmt fuel params, db.table name = some ts →
    ts.schema.columns = columns → assocGet db.views name = none → SingleTable name stmt →
    Lists items stmt → stmt.groupBy = groupBy →
    stmt.orderByCosine.map OrderByCosine.column = cosine → ReturnsList db fuel stmt params items

/-- A table of the probes is one of these tables. -/
theorem AlwaysReturns.holding {cosine : Option OrderByCosine} {ctype : ColumnType}
    (h : AlwaysReturns columns groupBy items (cosine.map OrderByCosine.column)) (rows : List Row) :
    ReturnsList (holding columns ctype rows) 1 (listed items groupBy cosine) [[]] items :=
  h _ "t" _ _ _ _ rfl rfl rfl (listed_single _ _ _) (listed_lists _ _ _) rfl rfl

/-- The queries with a list of existing columns and calls return what it says if the
list is honoured.  They do so only then, as far as rows of the table can be stored
and no `SUM`, `AVG`, `MIN` or `MAX` is of a column that the groups agree on. -/
theorem select_list_returned {cosine : Option String} (hnamed : WellNamed columns groupBy items)
    (hcosine : ∀ c, cosine = some c → c ∈ columns) :
    (Honoured columns groupBy items cosine.isSome → AlwaysReturns columns groupBy items cosine) ∧
      (columns.length < 2 ^ 16 → KeysNotAggregated groupBy items →
        AlwaysReturns columns groupBy items cosine →
          Honoured columns groupBy items cosine.isSome) ∧
      ∀ input stmt, Parsed input items stmt → Lists items stmt := by
  refine ⟨?_, ?_, fun input stmt h => h.lists⟩
  · intro hon db name ts stmt fuel params hts hcolumns hview hsingle hlists hgroupBy hcos
    refine returnsList_of_honoured hsingle hview hts hlists hnamed.nonempty ?_
    rw [hcolumns, hgroupBy]
    rwa [← hcos, Option.isSome_map] at hon
  · intro hcols hfree hret
    cases cosine with
    | none =>
      exact honoured_of_returns hnamed hcols hfree fun rows _ => AlwaysReturns.holding hret rows
    | some c =>
      exact columns_of_returns (hcosine c rfl) hcols fun rows k _ =>
        AlwaysReturns.holding hret rows

/-- `SELECT a` on a table with the columns `id` and `a`. -/
theorem select_list_returned_column :
    AlwaysReturns ["id", "a"] [] [.column "a" none] none := by
  refine (select_list_returned ⟨by simp, ?_, by simp, by simp⟩ (by simp)).1 ?_
  · intro name aliasName hmem
    cases mem_singleton.mp hmem
    exact ⟨1, rfl⟩
  · intro item hitem
    obtain rfl := mem_singleton.mp hitem
    exact ⟨.key "a", rfl, rfl⟩

end Database

/-! ### A list with two sums -/

/-- The text is read as nothing but the list on the table `t`. -/
def readsListed (fuel : Nat) (input : String) (items : List SelectItem) : Bool :=
  match nextTok (Lexer.new input), parseStatement (fuel + 1) input with
  | .ok (k, lx), .ok (.select ⟨columns, false, .named "t" none, none, [], [], aggregates, [], none,
      none, none, []⟩) =>
      k.isWord "select" && columns == items.map SelectItem.label &&
        aggregates == items.filterMap SelectItem.toAggregate &&
        match writtenList fuel lx with
        | .ok ((some items', _), _) => items' == items
        | _ => false
  | _, _ => false

theorem parsed_of_readsListed {fuel : Nat} {input : String} {items : List SelectItem}
    (h : readsListed fuel input items = true) : Parsed input items (listed items [] none) := by
  unfold readsListed at h
  split at h
  · rename_i k lx columns aggregates hk hparse
    simp only [Bool.and_eq_true, beq_iff_eq] at h
    obtain ⟨⟨⟨hselect, rfl⟩, rfl⟩, h⟩ := h
    split at h
    · rename_i items' t lx' hlist
      obtain rfl := beq_iff_eq.mp h
      exact ⟨fuel, k, t, lx, lx', hk, hselect, hlist, hparse⟩
    · cases h
  · cases h

/-- `SELECT SUM(a), SUM(b)`. -/
def twoSums : List SelectItem :=
  [.aggregate .sum "a" none, .aggregate .sum "b" none]

theorem twoSums_parsed :
    Parsed "SELECT SUM(a), SUM(b) FROM t" twoSums (listed twoSums [] none) :=
  @parsed_of_readsListed 8 _ _ (by decide +kernel)

namespace Database

/-- A column of two sums has the first one twice. -/
theorem second_sum_is_first :
    ∃ db rs, run 1 empty [(.createTable ⟨"t", [⟨"a", .int⟩, ⟨"b", .int⟩]⟩, []),
        (.insert ⟨"t", [], [.int 1, .int 2, .int 3]⟩, [])] = .ok (db, rs) ∧
      Parsed "SELECT SUM(a), SUM(b) FROM t" twoSums (listed twoSums [] none) ∧
      db.runSelect 1 (listed twoSums [] none) [[]] =
        .ok ⟨["sum", "sum"], [[.int 2, .int 2]]⟩ ∧
      ¬ db.ReturnsList 1 (listed twoSums [] none) [[]] twoSums := by
  refine ⟨_, _, rfl, twoSums_parsed, rfl, ?_⟩
  intro h
  obtain ⟨rs, hrun, _, _, picked, hpicked, hvalues⟩ :=
    h ⟨["id", "a", "b"], [[.int 1, .int 2, .int 3]]⟩ ⟨["sum", "sum"], [[.int 2, .int 3]]⟩ rfl rfl
  cases hrun
  obtain ⟨group, rest, hrow, hrest, rfl⟩ := forall₂_cons_right_iff.mp hvalues
  obtain rfl : group = [[.int 1, .int 2, .int 3]] :=
    mem_singleton.mp (hpicked.subset mem_cons_self)
  -- the second sum is that of `b`
  cases (forall₂_cons.mp (forall₂_cons.mp hrow).2).1

end Database

end Oikos.Archon.Relational
