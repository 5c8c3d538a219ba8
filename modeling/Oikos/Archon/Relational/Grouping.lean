/-
Aggregation seen as grouping: the order of values tells equal values from
different ones, so `GROUP BY` makes one row for every group of rows with the
same key.
-/
import Oikos.Lib.Groups
import Oikos.Archon.Relational.Executor

namespace Oikos.Archon.Relational

open List

/-! ### The order of values -/

namespace F32

/-- `to_bits` order, which tells all bit patterns apart. -/
def cmpBits (x y : F32) : Ordering :=
  compare x.bits y.bits

instance : Std.TransCmp cmpBits :=
  inferInstanceAs (Std.TransCmp (compareOn F32.bits))

instance : Std.LawfulEqCmp cmpBits where
  eq_of_compare {x y} h := by
    cases x
    cases y
    exact congrArg F32.mk (Std.LawfulEqOrd.eq_of_compare h)

end F32

/-- Shorter vectors first, then by the bits of the elements. -/
def cmpVectors : List F32 → List F32 → Ordering :=
  compareLex (compareOn List.length) (List.compareLex F32.cmpBits)

instance : Std.TransCmp cmpVectors :=
  inferInstanceAs (Std.TransCmp (compareLex _ _))

instance : Std.LawfulEqCmp cmpVectors where
  eq_of_compare h := Std.LawfulEqCmp.eq_of_compare (compareLex_eq_eq.mp h).2

/-- On vectors of one length the comparison of the code is the lexicographic one. -/
theorem find?_bits_eq_compareLex {a b : List F32} (h : a.length = b.length) :
    ((((a.zip b).map fun p => compare p.1.bits p.2.bits).find? (· != .eq)).getD .eq) =
      List.compareLex F32.cmpBits a b := by
  induction a generalizing b with
  | nil =>
    cases b with
    | nil => rfl
    | cons y b => cases h
  | cons x a ih =>
    cases b with
    | nil => cases h
    | cons y b =>
      rw [List.compareLex_cons_cons, ← ih (Nat.succ.inj h), zip_cons_cons, map_cons,
        find?_cons]
      cases hxy : F32.cmpBits x y with
      | eq =>
        rw [F32.cmpBits] at hxy
        simp [hxy]
      | lt =>
        rw [F32.cmpBits] at hxy
        simp only [hxy]
        rfl
      | gt =>
        rw [F32.cmpBits] at hxy
        simp only [hxy]
        rfl

namespace Value

/-- Vectors compare as `cmpVectors` says. -/
theorem cmp_vector (a b : List F32) : cmp (.vector a) (.vector b) = cmpVectors a b := by
  by_cases h : a.length = b.length
  · rw [cmpVectors, compareLex, ← find?_bits_eq_compareLex h]
    rfl
  · change (compare a.length b.length).then _ = (compare a.length b.length).then _
    generalize hlen : compare a.length b.length = ord
    cases ord with
    | eq => exact absurd (Nat.compare_eq_eq.mp hlen) h
    | lt => rfl
    | gt => rfl

instance : Std.OrientedCmp cmp where
  eq_swap {a b} := by
    cases a <;> cases b
    case int.int => exact Std.OrientedOrd.eq_swap
    case text.text => exact Std.OrientedOrd.eq_swap
    case vector.vector =>
      rw [cmp_vector, cmp_vector]
      exact Std.OrientedCmp.eq_swap
    all_goals rfl

instance : Std.TransCmp cmp where
  isLE_trans {a b c} hab hbc := by
    cases a <;> cases b <;> cases c
    case int.int.int => exact Std.TransOrd.isLE_trans hab hbc
    case text.text.text => exact Std.TransOrd.isLE_trans hab hbc
    case vector.vector.vector =>
      rw [cmp_vector] at hab hbc ⊢
      exact Std.TransCmp.isLE_trans hab hbc
    all_goals first | rfl | (cases hab; done) | cases hbc

instance : Std.LawfulEqCmp cmp where
  compare_self := Std.ReflCmp.compare_self
  eq_of_compare {a b} h := by
    cases a <;> cases b
    case int.int => exact congrArg Value.int (Std.LawfulEqOrd.eq_of_compare h)
    case text.text => exact congrArg Value.text (Std.LawfulEqOrd.eq_of_compare h)
    case vector.vector =>
      rw [cmp_vector] at h
      exact congrArg Value.vector (Std.LawfulEqCmp.eq_of_compare h)
    case null.null => rfl
    all_goals cases h

end Value

/-! ### Groups -/

/-- What a row has in the column of this name. -/
def valueAt (columns : List String) (name : String) (row : Row) : Option Value :=
  (columns.findIdx? (· == name)).bind fun i => row[i]?

theorem findIdx?_of_mem {columns : List String} {name : String} (h : name ∈ columns) :
    ∃ i, columns.findIdx? (· == name) = some i := by
  have hany : columns.any (· == name) = true :=
    any_eq_true.mpr ⟨name, h, beq_self_eq_true name⟩
  exact Option.isSome_iff_exists.mp (findIdx?_isSome.trans hany)

/-- What a row has in the columns of `GROUP BY`. -/
def groupKey (columns groupBy : List String) (row : Row) : List (Option Value) :=
  groupBy.map fun name => valueAt columns name row

/-- The groups of rows that agree on the columns of `GROUP BY`; without one all
rows are one group. -/
def groupsOf (columns groupBy : List String) (rows : List Row) : List (List Row) :=
  if groupBy.isEmpty then [rows]
  else (rows.map (groupKey columns groupBy)).dedup.map fun key =>
    rows.filter fun row => groupKey columns groupBy row = key

/-- A row of the result for a group: the key that all its rows share, then its
aggregates. -/
def GroupRow (columns groupBy : List String) (aggregates : List Aggregate) (group : List Row)
    (row : Row) : Prop :=
  ∃ key values, row = key ++ values ∧ key.length = groupBy.length ∧
    (∀ r ∈ group, groupKey columns groupBy r = key.map some) ∧
    aggregates.mapM (fun a => evalAggregate a.func a.column columns group) = .ok values

section Groups

variable {columns groupBy : List String} {rows : List Row} {aggregates : List Aggregate}
  {rs : ResultSet}

variable {indices : List Nat} {row key : Row}

theorem columnIndices_eq_ok {names : List String}
    (h : columnIndices columns names = .ok indices) :
    List.Forall₂ (fun name i => columns.findIdx? (· == name) = some i) names indices := by
  refine (mapM_eq_ok.mp h).imp ?_
  intro name i hi
  split at hi
  · next idx hidx =>
    cases hi
    exact hidx
  · cases hi

/-- Reading a row by the positions of columns is reading it by their names. -/
theorem values_of_indices {names : List String}
    (hindices : List.Forall₂ (fun name i => columns.findIdx? (· == name) = some i) names indices)
    (h : (indices.mapM fun i => (index row i : Result ExecError Value)) = .ok key) :
    List.Forall₂ (fun name v => valueAt columns name row = some v) names key := by
  have hkey := mapM_eq_ok.mp h
  clear h
  induction hindices generalizing key with
  | nil =>
    cases hkey
    exact .nil
  | cons hi _ ih =>
    cases hkey with
    | cons hv hrest =>
      refine .cons ?_ (ih hrest)
      rw [valueAt, hi, Option.bind_some, index_eq_ok_iff.mp hv]

theorem groupKey_of_values
    (h : List.Forall₂ (fun name v => valueAt columns name row = some v) groupBy key) :
    groupKey columns groupBy row = key.map some := by
  rw [groupKey]
  induction h with
  | nil => rfl
  | cons hv _ ih => rw [map_cons, map_cons, hv, ih]

/-- The key under which the code files a row. -/
def mapKey (columns groupBy : List String) (row : Row) : List Value :=
  (groupKey columns groupBy row).map fun v => v.getD .null

theorem mapKey_of_groupKey (h : groupKey columns groupBy row = key.map some) :
    mapKey columns groupBy row = key := by
  rw [mapKey, h, map_map]
  exact map_id key

/-- Every row is filed under its group key. -/
theorem keyed_eq {keyed : List (List Value × Row)}
    (hindices : List.Forall₂ (fun name i => columns.findIdx? (· == name) = some i) groupBy indices)
    (h : (rows.mapM fun row => do
      let key ← indices.mapM fun i => (index row i : Result ExecError Value)
      .ok (key, row)) = .ok keyed) :
    keyed = rows.map (fun row => (mapKey columns groupBy row, row)) ∧
      ∀ row ∈ rows, groupKey columns groupBy row = (mapKey columns groupBy row).map some := by
  have hall := mapM_eq_ok.mp h
  clear h
  induction hall with
  | nil => exact ⟨rfl, fun _ h => by cases h⟩
  | @cons row p rows keyed hp _ ih =>
    obtain ⟨key, hkey, hpair⟩ := bind_eq_ok.mp hp
    cases hpair
    have hgroup := groupKey_of_values (values_of_indices hindices hkey)
    have hmap := mapKey_of_groupKey hgroup
    obtain ⟨hkeyed, hrows⟩ := ih
    refine ⟨by rw [map_cons, hmap, hkeyed], ?_⟩
    intro r hr
    rcases mem_cons.mp hr with rfl | hr
    · rw [hgroup, hmap]
    · exact hrows r hr

/-- The groups of the code, in the order of their keys, are those of `groupsOf`. -/
theorem groups_perm {ks : List (List Value)} (hne : groupBy.isEmpty = false)
    (hrows : ∀ row ∈ rows, groupKey columns groupBy row = (mapKey columns groupBy row).map some)
    (hks : ks.Perm (rows.map (mapKey columns groupBy)).dedup) :
    (ks.map fun k => rows.filter fun row => mapKey columns groupBy row = k).Perm
      (groupsOf columns groupBy rows) := by
  have hinj : Function.Injective (map (some : Value → Option Value)) :=
    map_injective_iff.mpr (Option.some_injective Value)
  have hkeys : rows.map (groupKey columns groupBy) =
      (rows.map (mapKey columns groupBy)).map (map some) := by
    rw [map_map]
    exact map_congr_left hrows
  rw [groupsOf, hne, hkeys, dedup_map_of_injective hinj, map_map]
  simp only [Bool.false_eq_true, if_false]
  refine (hks.map _).trans (Perm.of_eq (map_congr_left ?_))
  intro k _
  refine filter_congr ?_
  intro row hrow
  simp only [hrows row hrow, decide_eq_decide]
  exact hinj.eq_iff.symm

/-- Aggregation answers with one row for each group. -/
theorem aggregateTable_groups (h : aggregateTable columns rows groupBy aggregates = .ok rs) :
    rs.columns = groupBy ++ aggregates.map Aggregate.aliasName ∧
      ∃ gs : List (List Row), gs.Perm (groupsOf columns groupBy rows) ∧
        List.Forall₂ (GroupRow columns groupBy aggregates) gs rs.rows := by
  unfold aggregateTable aggregateTableWith at h
  split at h
  · next hempty =>
    obtain ⟨values, hvalues, hrs⟩ := bind_eq_ok.mp h
    cases hrs
    obtain rfl := List.isEmpty_iff.mp hempty
    exact ⟨rfl, [rows], Perm.refl _,
      .cons ⟨[], values, rfl, rfl, fun _ _ => rfl, hvalues⟩ .nil⟩
  · next hne =>
    obtain ⟨indices, hindices, h⟩ := bind_eq_ok.mp h
    obtain ⟨keyed, hkeyed, h⟩ := bind_eq_ok.mp h
    obtain ⟨outRows, hout, h⟩ := bind_eq_ok.mp h
    cases h
    have hpositions := columnIndices_eq_ok hindices
    obtain ⟨rfl, hrows⟩ := keyed_eq hpositions hkeyed
    obtain ⟨ks, hks, hlist⟩ := @toList_foldl_gather _ _ (List.compareLex Value.cmp) _ _ _
      (rows.map fun row => (mapKey columns groupBy row, row))
    rw [map_map] at hks
    refine ⟨rfl, _, groups_perm (Bool.eq_false_iff.mpr hne) hrows hks, ?_⟩
    have hall := mapM_eq_ok.mp hout
    change List.Forall₂ _ (foldl gather _ _).toList _ at hall
    rw [hlist, forall₂_map_left_iff] at hall
    rw [forall₂_map_left_iff]
    refine hall.imp ?_
    intro k row hrow
    obtain ⟨first, hfirst, hrow⟩ := bind_eq_ok.mp hrow
    obtain ⟨key, hkey, hrow⟩ := bind_eq_ok.mp hrow
    obtain ⟨values, hvalues, hrow⟩ := bind_eq_ok.mp hrow
    cases hrow
    rw [valuesOf_map] at hfirst hvalues
    have hfirst := mem_of_getElem? (index_eq_ok_iff.mp hfirst)
    have hread := values_of_indices hpositions hkey
    have hk : k = key := by
      rw [← of_decide_eq_true (mem_filter.mp hfirst).2]
      exact mapKey_of_groupKey (groupKey_of_values hread)
    subst hk
    refine ⟨k, values, rfl, hread.length_eq.symm, ?_, hvalues⟩
    intro r hr
    obtain ⟨hmem, hkey⟩ := mem_filter.mp hr
    rw [hrows r hmem, of_decide_eq_true hkey]

end Groups

end Oikos.Archon.Relational
