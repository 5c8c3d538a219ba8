/-
`ORDER BY` as a plan executes it: the rows are sorted after the select list has
been applied, and a column that is not in the list is taken for its first one.
-/
import Mathlib.Data.List.TakeWhile
import Oikos.Lib.StableSort
import Oikos.Archon.Relational.Grouping
import Oikos.Archon.Relational.Pipelines

namespace Oikos.Archon.Relational

open List

/-! ### The order of rows -/

def cell (columns : List String) (name : String) (row : Row) : Value :=
  (valueAt columns name row).getD .null

/-- Compare two rows by one column of `ORDER BY`. -/
def cmpKey (columns : List String) (ob : OrderBy) (a b : Row) : Ordering :=
  let ord := (cell columns ob.column a).cmp (cell columns ob.column b)
  if ob.descending then ord.swap else ord

/-- Compare two rows by the columns of `ORDER BY`. -/
def cmpKeys (columns : List String) : List OrderBy → Row → Row → Ordering
  | [], _, _ => .eq
  | ob :: obs, a, b => (cmpKey columns ob a b).then (cmpKeys columns obs a b)

section Order

variable {columns : List String} {ob : OrderBy} {obs more : List OrderBy} {a b : Row}

theorem cmp_swap (v w : Value) : (v.cmp w).swap = w.cmp v :=
  Std.OrientedCmp.eq_swap.symm

instance (columns : List String) (ob : OrderBy) : Std.TransCmp (cmpKey columns ob) where
  eq_swap {a b} := by
    rw [cmpKey, cmpKey, apply_ite Ordering.swap, cmp_swap, cmp_swap, cmp_swap]
  isLE_trans {a b c} hab hbc := by
    rw [cmpKey] at hab hbc ⊢
    rw [cmp_swap] at hab hbc ⊢
    cases hdesc : ob.descending with
    | false =>
      rw [hdesc] at hab hbc
      exact @Std.TransCmp.isLE_trans _ Value.cmp _ _ _ _ hab hbc
    | true =>
      rw [hdesc] at hab hbc
      exact @Std.TransCmp.isLE_trans _ Value.cmp _ _ _ _ hbc hab

instance (columns : List String) (obs : List OrderBy) : Std.TransCmp (cmpKeys columns obs) := by
  induction obs with
  | nil => exact { eq_swap := rfl, isLE_trans := fun _ _ => rfl }
  | cons ob obs ih => exact inferInstanceAs (Std.TransCmp (compareLex _ _))

theorem cmpKey_eq : cmpKey columns ob a b = .eq ↔
    cell columns ob.column a = cell columns ob.column b := by
  unfold cmpKey
  split
  · rw [Ordering.swap_eq_eq, Std.LawfulEqCmp.compare_eq_iff_eq]
  · rw [Std.LawfulEqCmp.compare_eq_iff_eq]

theorem cmpKeys_eq : cmpKeys columns obs a b = .eq ↔
    ∀ ob ∈ obs, cell columns ob.column a = cell columns ob.column b := by
  induction obs with
  | nil => simp [cmpKeys]
  | cons ob obs ih => rw [cmpKeys, Ordering.then_eq_eq, cmpKey_eq, ih, forall_mem_cons]

theorem cmpKeys_append : cmpKeys columns (obs ++ more) a b =
    (cmpKeys columns obs a b).then (cmpKeys columns more a b) := by
  induction obs with
  | nil => rfl
  | cons ob obs ih => rw [cons_append, cmpKeys, cmpKeys, ih, Ordering.then_assoc]

theorem cmpKeys_congr {columns' : List String} {a' b' : Row}
    (h : ∀ ob ∈ obs, cell columns ob.column a = cell columns' ob.column a' ∧
      cell columns ob.column b = cell columns' ob.column b') :
    cmpKeys columns obs a b = cmpKeys columns' obs a' b' := by
  induction obs with
  | nil => rfl
  | cons ob obs ih =>
    obtain ⟨ha, hb⟩ := h ob mem_cons_self
    rw [cmpKeys, cmpKeys, ih fun o ho => h o (mem_cons_of_mem ob ho), cmpKey, cmpKey, ha, hb]

end Order

/-! ### The select list -/

namespace SelectStatement

/-- The query returns whole rows. -/
def whole (stmt : SelectStatement) : Bool :=
  stmt.star || stmt.columns.isEmpty

def outColumns (stmt : SelectStatement) (columns : List String) : List String :=
  if stmt.whole then columns else stmt.columns

def outRow (stmt : SelectStatement) (columns : List String) (row : Row) : Row :=
  if stmt.whole then row else stmt.columns.map fun c => cell columns c row

/-- The column by which the plan sorts: one that the result does not have is taken
for the first one that it has. -/
def planKey (out : List String) (ob : OrderBy) : OrderBy :=
  if ob.column ∈ out then ob else { ob with column := out.headD "" }

variable {stmt : SelectStatement} {columns out : List String} {rows : List Row} {row : Row}

theorem cell_of_findIdx {name : String} {i : Nat} {v : Value}
    (hi : columns.findIdx? (· == name) = some i) (hv : row[i]? = some v) :
    cell columns name row = v := by
  rw [cell, valueAt, hi, Option.bind_some, hv, Option.getD_some]

theorem getElem?_planKey (hne : out ≠ []) (hrow : row.length = out.length) (ob : OrderBy) :
    row[(out.findIdx? (· == ob.column)).getD 0]? = some (cell out (planKey out ob).column row) := by
  have hread : ∀ name i, out.findIdx? (· == name) = some i →
    row[i]? = some (cell out name row) := by
    intro name i hi
    have hlt : i < row.length := hrow ▸ (findIdx?_eq_some_iff_getElem.mp hi).1
    have hv := getElem?_eq_getElem hlt
    rw [cell_of_findIdx hi hv, hv]
  unfold planKey
  split
  · next hmem =>
    obtain ⟨i, hi⟩ := findIdx?_of_mem hmem
    rw [hi, Option.getD_some]
    exact hread _ i hi
  · next hmem =>
    have hnone : out.findIdx? (· == ob.column) = none := by
      rw [findIdx?_eq_none_iff]
      intro c hc
      exact beq_eq_false_iff_ne.mpr fun heq => hmem (heq ▸ hc)
    obtain ⟨c, rest, rfl⟩ := exists_cons_of_ne_nil hne
    rw [hnone, Option.getD_none]
    exact hread c 0 (by simp [findIdx?_cons])

theorem cmpRows_eq (obs : List OrderBy) {a b : Row} (hne : obs ≠ [] → out ≠ [])
    (ha : a.length = out.length) (hb : b.length = out.length) :
    cmpRows (obs.map fun ob => ((out.findIdx? (· == ob.column)).getD 0, ob.descending)) a b =
      some (cmpKeys out (obs.map (planKey out)) a b) := by
  induction obs with
  | nil => rfl
  | cons ob obs ih =>
    have hout := hne (cons_ne_nil _ _)
    have hdesc : (planKey out ob).descending = ob.descending := by
      unfold planKey
      split <;> rfl
    rw [map_cons, cmpRows, getElem?_planKey hout ha, getElem?_planKey hout hb,
      ih fun _ => hout, map_cons, cmpKeys, cmpKey, hdesc]
    simp only [Option.bind_eq_bind, Option.bind_some]
    generalize (if ob.descending = true then _ else _ : Ordering) = ord
    cases ord <;> rfl

theorem sortRows_eq {E : Type} (obs : List OrderBy) (hne : obs ≠ [] → out ≠ [])
    (hrows : ∀ row ∈ rows, row.length = out.length) :
    (sortRows (obs.map fun ob => ((out.findIdx? (· == ob.column)).getD 0, ob.descending)) rows :
      Result E (List Row)) = .ok (rows.mergeSort (leBy (cmpKeys out (obs.map (planKey out))))) := by
  have hcmp : ∀ a ∈ rows, ∀ b ∈ rows,
      cmpRows (obs.map fun ob => ((out.findIdx? (· == ob.column)).getD 0, ob.descending)) a b =
        some (cmpKeys out (obs.map (planKey out)) a b) := fun a ha b hb =>
    cmpRows_eq obs hne (hrows a ha) (hrows b hb)
  have hpair : rows.Pairwise fun a b => (cmpRows (obs.map fun ob =>
      ((out.findIdx? (· == ob.column)).getD 0, ob.descending)) a b).isSome := by
    apply Pairwise.imp_of_mem _ (pairwise_of_forall fun _ _ => trivial)
    intro a b ha hb _
    rw [hcmp a ha b hb]
    rfl
  rw [sortRows, if_pos hpair]
  have hmap := @map_mergeSort _ _ (fun a b => cmpRows (obs.map fun ob =>
      ((out.findIdx? (· == ob.column)).getD 0, ob.descending)) a b != some .gt)
    (leBy (cmpKeys out (obs.map (planKey out)))) id rows ?_
  · rw [map_id, map_id] at hmap
    rw [hmap]
  · intro a ha b hb
    rw [hcmp a ha b hb, leBy, id, id]
    cases cmpKeys out (obs.map (planKey out)) a b <;> rfl

/-! ### The output of a query -/

theorem cell_outRow {c : String} (hc : c ∈ stmt.outColumns columns) :
    cell (stmt.outColumns columns) c (stmt.outRow columns row) = cell columns c row := by
  unfold outColumns at hc ⊢
  unfold outRow
  split
  · rfl
  · next hwhole =>
    rw [if_neg hwhole] at hc
    obtain ⟨i, hi⟩ := findIdx?_of_mem hc
    obtain ⟨hlt, hname, _⟩ := findIdx?_eq_some_iff_getElem.mp hi
    apply cell_of_findIdx hi
    rw [getElem?_map, getElem?_eq_getElem hlt, Option.map_some, beq_iff_eq.mp hname]

theorem project_eq (hlist : stmt.Resolves columns) (heven : Table.Even ⟨columns, rows⟩) :
    executeNode ⟨columns, rows⟩ (.project stmt.columns stmt.star (.scan "" false)) =
      .ok ⟨stmt.outColumns columns, rows.map (stmt.outRow columns)⟩ := by
  simp only [executeNode, ok_bind]
  split
  · next hwhole =>
    have hrow : stmt.outRow columns = id := funext fun row => if_pos hwhole
    rw [hrow, map_id, outColumns, whole, if_pos hwhole]
  · next hwhole =>
    have hmem : ∀ c ∈ stmt.columns, c ∈ columns := by
      refine hlist.resolve_left fun hstar => hwhole ?_
      rw [hstar]
      rfl
    obtain ⟨indices, hindices⟩ := columnIndices_of_mem hmem
    have hread : ∀ row ∈ rows, (indices.mapM fun i => (index row i : Result ExecError Value)) =
        .ok (stmt.outRow columns row) := by
      intro row hrow
      have hvalues : ∀ i ∈ indices, ∃ v, (index row i : Result ExecError Value) = .ok v :=
        fun i hi => index_of_lt (heven row hrow ▸ columnIndices_lt hindices i hi)
      obtain ⟨key, hkey⟩ := mapM_of_ok hvalues
      have hall := values_of_indices (columnIndices_eq_ok hindices) hkey
      rw [hkey, outRow, whole, if_neg hwhole]
      refine congrArg _ (forall₂_eq_eq_eq ▸ ?_)
      rw [forall₂_map_right_iff]
      refine hall.flip.imp fun v c hv => ?_
      rw [cell, hv, Option.getD_some]
    rw [hindices, ok_bind, mapM_eq_map hread, ok_bind, outColumns, whole, if_neg hwhole]

theorem length_outRow (heven : Table.Even ⟨columns, rows⟩) (hrow : row ∈ rows) :
    (stmt.outRow columns row).length = (stmt.outColumns columns).length := by
  unfold outRow outColumns
  split
  · exact heven row hrow
  · exact length_map _

theorem planKey_mem (hne : out ≠ []) (ob : OrderBy) : (planKey out ob).column ∈ out := by
  unfold planKey
  split
  · next hmem => exact hmem
  · obtain ⟨c, rest, rfl⟩ := exists_cons_of_ne_nil hne
    exact mem_cons_self

/-- `LIMIT`. -/
def limitedRows (stmt : SelectStatement) (rows : List Row) : List Row :=
  stmt.limit.elim rows fun n => rows.take n.toNat

def planKeys (stmt : SelectStatement) (columns : List String) : List OrderBy :=
  stmt.orderBy.map (planKey (stmt.outColumns columns))

theorem output_eq (hlist : stmt.Resolves columns) (heven : Table.Even ⟨columns, rows⟩)
    (hne : stmt.orderBy ≠ [] → stmt.outColumns columns ≠ []) :
    stmt.output ⟨columns, rows⟩ = .ok ⟨stmt.outColumns columns, stmt.limitedRows
      ((rows.mergeSort (leBy (cmpKeys columns (stmt.planKeys columns)))).map
        (stmt.outRow columns))⟩ := by
  have hsort : executeNode ⟨columns, rows⟩ (if stmt.orderBy.isEmpty then
        .project stmt.columns stmt.star (.scan "" false)
      else .sort stmt.orderBy (.project stmt.columns stmt.star (.scan "" false))) =
      .ok ⟨stmt.outColumns columns,
        (rows.mergeSort (leBy (cmpKeys columns (stmt.planKeys columns)))).map
          (stmt.outRow columns)⟩ := by
    split
    · next hempty =>
      have hnil : stmt.planKeys columns = [] := by
        rw [planKeys, List.isEmpty_iff.mp hempty, map_nil]
      have hsame : rows.mergeSort (leBy (cmpKeys columns (stmt.planKeys columns))) = rows := by
        apply mergeSort_of_pairwise
        rw [hnil]
        exact pairwise_of_forall fun _ _ => rfl
      rw [hsame]
      exact project_eq hlist heven
    · next hempty =>
      have hout := hne fun hnil => hempty (List.isEmpty_iff.mpr hnil)
      have hlen : ∀ row ∈ rows.map (stmt.outRow columns),
          row.length = (stmt.outColumns columns).length := by
        intro row hrow
        obtain ⟨source, hsource, rfl⟩ := mem_map.mp hrow
        exact length_outRow heven hsource
      simp only [executeNode.eq_5, project_eq hlist heven, ok_bind]
      rw [sortRows_eq stmt.orderBy (fun _ => hout) hlen, ok_bind, ← planKeys,
        ← map_mergeSort]
      intro a _ b _
      have hcells : ∀ ob ∈ stmt.planKeys columns,
          cell columns ob.column a =
              cell (stmt.outColumns columns) ob.column (stmt.outRow columns a) ∧
            cell columns ob.column b =
              cell (stmt.outColumns columns) ob.column (stmt.outRow columns b) := by
        intro ob hob
        obtain ⟨ob, _, rfl⟩ := mem_map.mp hob
        have hmem := planKey_mem hout ob
        exact ⟨(cell_outRow hmem).symm, (cell_outRow hmem).symm⟩
      rw [leBy, leBy, cmpKeys_congr hcells]
  cases hlimit : stmt.limit with
  | none =>
    simpa only [output, outputNode, limitedRows, hlimit, Option.elim_none] using hsort
  | some n =>
    simp only [output, outputNode, limitedRows, hlimit, Option.elim_some, executeNode.eq_4, hsort,
      ok_bind]

/-! ### When the order is the listed one -/

/-- The rows that `WHERE` keeps, sorted stably by the columns of `ORDER BY`, are
returned under the select list; a column that the table does not have is an error. -/
def OrdersAsListed (stmt : SelectStatement) (stats : TableStats) (table : Table) : Prop :=
  if ∀ ob ∈ stmt.orderBy, ob.column ∈ table.columns then
    ∀ before, clauseRows stmt.filter table = .ok before → stmt.Resolves table.columns →
      ∃ sorted, StableSort (cmpKeys table.columns stmt.orderBy) before.rows sorted ∧
        stmt.planned stats table = .ok ⟨stmt.outColumns table.columns,
          stmt.limitedRows (sorted.map (stmt.outRow table.columns))⟩
  else ∃ e, stmt.planned stats table = .error (.err e)

/-- The columns of `ORDER BY` before the first one that the list does not have. -/
def shownKeys (stmt : SelectStatement) : List OrderBy :=
  stmt.orderBy.takeWhile fun ob => decide (ob.column ∈ stmt.columns)

/-- The columns of `ORDER BY` exist, and the query returns whole rows, or the list
has all of them, or else those before the first one that it does not have are all
that the list has. -/
def OrderShown (stmt : SelectStatement) (columns : List String) : Prop :=
  stmt.Resolves columns → (∀ ob ∈ stmt.orderBy, ob.column ∈ columns) ∧
    (stmt.whole = true ∨ (∀ ob ∈ stmt.orderBy, ob.column ∈ stmt.columns) ∨
      ∀ c ∈ stmt.columns, c ∈ stmt.shownKeys.map OrderBy.column)

section Shown

variable {stats : TableStats} {table : Table}

theorem planned_plain (hgroup : stmt.groupBy = []) (hagg : stmt.aggregates = [])
    (hplan : stmt.Plannable stats) (table : Table) :
    stmt.planned stats table = clauseRows stmt.filter table >>= stmt.output := by
  have haggregating : stmt.aggregating = false := by
    rw [aggregating, hgroup, hagg]
    rfl
  rw [planned_eq hplan, byPlan, grouped, bind_assoc]
  refine bind_congr_ok fun before _ => ?_
  rw [groupTable, haggregating]
  simp only [Bool.false_eq_true, if_false, ok_bind, plannedHaving, haggregating]

theorem columns_mem (hlist : stmt.Resolves columns) (hwhole : stmt.whole = false) :
    ∀ c ∈ stmt.columns, c ∈ columns := by
  refine hlist.resolve_left fun hstar => ?_
  rw [whole, hstar] at hwhole
  cases hwhole

theorem outColumns_eq (hwhole : stmt.whole = false) : stmt.outColumns columns = stmt.columns := by
  rw [outColumns, hwhole]
  rfl

theorem outRow_eq (hwhole : stmt.whole = false) :
    stmt.outRow columns row = stmt.columns.map fun c => cell columns c row := by
  rw [outRow, hwhole]
  rfl

theorem ordered_outRows {obs more : List OrderBy} (hwhole : stmt.whole = false)
    (hobs : ∀ ob ∈ obs, ob.column ∈ stmt.columns) (rows : List Row) :
    ((rows.mergeSort (leBy (cmpKeys columns (obs ++ more)))).map (stmt.outRow columns)).Pairwise
      fun x y => cmpKeys stmt.columns obs x y ≠ .gt := by
  rw [pairwise_map]
  refine (stableSort_mergeSort rows).ordered.imp ?_
  intro a b hab hgt
  have hcells : ∀ ob ∈ obs,
      cell stmt.columns ob.column (stmt.outRow columns a) = cell columns ob.column a ∧
        cell stmt.columns ob.column (stmt.outRow columns b) = cell columns ob.column b := by
    intro ob hob
    rw [← outColumns_eq hwhole]
    have hmem : ob.column ∈ stmt.outColumns columns := by
      rw [outColumns_eq hwhole]
      exact hobs ob hob
    exact ⟨cell_outRow hmem, cell_outRow hmem⟩
  rw [cmpKeys_congr hcells] at hgt
  rw [cmpKeys_append, hgt] at hab
  exact hab rfl

theorem sort_of_shownKeys (hwhole : stmt.whole = false)
    (hshown : ∀ c ∈ stmt.columns, c ∈ stmt.shownKeys.map OrderBy.column) (rows : List Row) :
    (rows.mergeSort (leBy (cmpKeys columns (stmt.planKeys columns)))).map (stmt.outRow columns) =
      (rows.mergeSort (leBy (cmpKeys columns stmt.orderBy))).map (stmt.outRow columns) := by
  have hkeys : ∀ ob ∈ stmt.shownKeys, ob.column ∈ stmt.columns := by
    intro ob hob
    simpa using mem_takeWhile_imp hob
  have hsplit : stmt.orderBy = stmt.shownKeys ++
      stmt.orderBy.dropWhile fun ob => decide (ob.column ∈ stmt.columns) :=
    takeWhile_append_dropWhile.symm
  have hplan : stmt.planKeys columns = stmt.shownKeys ++
      (stmt.orderBy.dropWhile fun ob => decide (ob.column ∈ stmt.columns)).map
        (planKey stmt.columns) := by
    have hfront : stmt.shownKeys.map (planKey stmt.columns) = stmt.shownKeys :=
      (map_congr_left (g := id) fun ob hob => if_pos (hkeys ob hob)).trans (map_id _)
    rw [planKeys, outColumns_eq hwhole, hsplit, map_append, hfront, ← hsplit]
  apply @eq_of_ordered _ (cmpKeys stmt.columns stmt.shownKeys)
  · exact ((mergeSort_perm rows _).trans (mergeSort_perm rows _).symm).map _
  · rw [hplan]
    exact ordered_outRows hwhole hkeys rows
  · rw [hsplit]
    exact ordered_outRows hwhole hkeys rows
  · intro x hx y hy htie
    obtain ⟨a, _, rfl⟩ := mem_map.mp hx
    obtain ⟨b, _, rfl⟩ := mem_map.mp hy
    rw [outRow_eq hwhole, outRow_eq hwhole]
    refine map_congr_left fun c hc => ?_
    obtain ⟨ob, hob, rfl⟩ := mem_map.mp (hshown c hc)
    have hmem : ob.column ∈ stmt.outColumns columns := by
      rw [outColumns_eq hwhole]
      exact hc
    have hcell := cmpKeys_eq.mp htie ob hob
    rw [← outColumns_eq hwhole, cell_outRow hmem, cell_outRow hmem] at hcell
    exact hcell

theorem sort_of_orderShown (hlist : stmt.Resolves columns) (h : stmt.OrderShown columns)
    (rows : List Row) :
    (rows.mergeSort (leBy (cmpKeys columns (stmt.planKeys columns)))).map (stmt.outRow columns) =
      (rows.mergeSort (leBy (cmpKeys columns stmt.orderBy))).map (stmt.outRow columns) := by
  obtain ⟨hexist, hshown⟩ := h hlist
  have hall : (∀ ob ∈ stmt.orderBy, ob.column ∈ stmt.outColumns columns) →
      stmt.planKeys columns = stmt.orderBy := by
    intro hmem
    refine (map_congr_left (g := id) fun ob hob => ?_).trans (map_id _)
    exact if_pos (hmem ob hob)
  cases hwhole : stmt.whole with
  | true =>
    have hout : stmt.outColumns columns = columns := by
      rw [outColumns, hwhole]
      rfl
    rw [hall (by rw [hout]; exact hexist)]
  | false =>
    rcases hshown with htrue | hmem | hshown
    · rw [hwhole] at htrue
      cases htrue
    · rw [hall (by rw [outColumns_eq hwhole]; exact hmem)]
    · exact sort_of_shownKeys hwhole hshown rows

theorem columnIndices_missing {names : List String} (h : ∃ c ∈ names, c ∉ columns) :
    ∃ e, columnIndices columns names = .error (.err e) := by
  induction names with
  | nil =>
    obtain ⟨c, hc, _⟩ := h
    cases hc
  | cons name names ih =>
    rw [columnIndices, mapM_cons]
    cases hfind : columns.findIdx? (· == name) with
    | none => exact ⟨_, rfl⟩
    | some idx =>
      obtain ⟨c, hc, hmissing⟩ := h
      have hin : name ∈ columns := by
        obtain ⟨hlt, hname, _⟩ := findIdx?_eq_some_iff_getElem.mp hfind
        exact beq_iff_eq.mp hname ▸ getElem_mem hlt
      have hrest : c ∈ names := (mem_cons.mp hc).resolve_left fun heq =>
        hmissing (heq ▸ hin)
      obtain ⟨e, he⟩ := ih ⟨c, hrest, hmissing⟩
      rw [columnIndices] at he
      exact ⟨e, by rw [he]; rfl⟩

theorem output_not_resolved (h : ¬ stmt.Resolves columns) (rows : List Row) :
    ∃ e, stmt.output ⟨columns, rows⟩ = .error (.err e) := by
  simp only [Resolves, not_or, not_forall] at h
  obtain ⟨hstar, c, hc, hmissing⟩ := h
  have hwhole : ¬ (stmt.star || stmt.columns.isEmpty) = true := by
    rw [Bool.or_eq_true, not_or]
    exact ⟨hstar, fun hempty => ne_nil_of_mem hc (List.isEmpty_iff.mp hempty)⟩
  obtain ⟨e, he⟩ := columnIndices_missing ⟨c, hc, hmissing⟩
  have hproject : executeNode ⟨columns, rows⟩
      (.project stmt.columns stmt.star (.scan "" false)) = .error (.err e) := by
    simp only [executeNode, ok_bind]
    rw [if_neg hwhole, he]
    rfl
  have hsort : executeNode ⟨columns, rows⟩ (if stmt.orderBy.isEmpty then
        .project stmt.columns stmt.star (.scan "" false)
      else .sort stmt.orderBy (.project stmt.columns stmt.star (.scan "" false))) =
      .error (.err e) := by
    split
    · exact hproject
    · rw [executeNode.eq_5, hproject]
      rfl
  refine ⟨e, ?_⟩
  cases hlimit : stmt.limit with
  | none => simpa only [output, outputNode, hlimit, Option.elim_none] using hsort
  | some n =>
    simp only [output, outputNode, hlimit, Option.elim_some, executeNode.eq_4, hsort]
    rfl

theorem ordersAsListed_of_orderShown (hgroup : stmt.groupBy = []) (hagg : stmt.aggregates = [])
    (hplan : stmt.Plannable stats) (heven : table.Even) (h : stmt.OrderShown table.columns) :
    stmt.OrdersAsListed stats table := by
  unfold OrdersAsListed
  rw [planned_plain hgroup hagg hplan]
  split
  · next hexist =>
    intro before hbefore hlist
    have hcolumns := (clauseRows_eq_ok hbefore).1
    have heven' : Table.Even ⟨table.columns, before.rows⟩ := by
      have hbeforeEven := clauseRows_even heven hbefore
      rw [Table.Even, hcolumns] at hbeforeEven
      exact hbeforeEven
    refine ⟨_, stableSort_mergeSort before.rows, ?_⟩
    have hne : stmt.orderBy ≠ [] → stmt.outColumns table.columns ≠ [] := by
      intro horder
      cases hwhole : stmt.whole with
      | true =>
        obtain ⟨ob, hob⟩ := exists_mem_of_ne_nil _ horder
        rw [outColumns, hwhole]
        exact ne_nil_of_mem (hexist ob hob)
      | false =>
        rw [outColumns_eq hwhole]
        intro hnil
        rw [whole, hnil, isEmpty_nil, Bool.or_true] at hwhole
        cases hwhole
    have houtput := output_eq hlist heven' hne
    rw [sort_of_orderShown hlist h] at houtput
    obtain ⟨cols, kept⟩ := before
    dsimp only at hcolumns
    subst hcolumns
    rw [hbefore, ok_bind]
    exact houtput
  · next hexist =>
    have hlist : ¬ stmt.Resolves table.columns := fun hlist => hexist (h hlist).1
    cases hfilter : clauseRows stmt.filter table with
    | error stop =>
      obtain ⟨e, rfl⟩ := clauseRows_errs_of_even heven stmt.filter stop hfilter
      exact ⟨e, rfl⟩
    | ok before =>
      obtain ⟨cols, kept⟩ := before
      obtain rfl : cols = table.columns := (clauseRows_eq_ok hfilter).1
      exact output_not_resolved hlist kept

/-! ### Rows that tell the orders apart -/

def rowOf (columns : List String) (value : String → Value) : Row :=
  columns.map value

theorem cell_rowOf {value : String → Value} {name : String} (h : name ∈ columns) :
    cell columns name (rowOf columns value) = value name := by
  obtain ⟨i, hi⟩ := findIdx?_of_mem h
  obtain ⟨hlt, hname, _⟩ := findIdx?_eq_some_iff_getElem.mp hi
  apply cell_of_findIdx hi
  rw [rowOf, getElem?_map, getElem?_eq_getElem hlt, Option.map_some, beq_iff_eq.mp hname]

/-- A row with two values that matter. -/
def markedRow (columns : List String) (shown hidden : String) (v w : Int64) : Row :=
  rowOf columns fun name =>
    if name = shown then .int v else if name = hidden then .int w else .null

theorem output_congr {rows' : List Row} (hlist : stmt.Resolves columns)
    (heven : Table.Even ⟨columns, rows⟩) (heven' : Table.Even ⟨columns, rows'⟩)
    (hsame : rows.map (stmt.outRow columns) = rows'.map (stmt.outRow columns)) :
    stmt.output ⟨columns, rows⟩ = stmt.output ⟨columns, rows'⟩ := by
  have hproject : executeNode ⟨columns, rows⟩ (.project stmt.columns stmt.star (.scan "" false)) =
      executeNode ⟨columns, rows'⟩ (.project stmt.columns stmt.star (.scan "" false)) := by
    rw [project_eq hlist heven, project_eq hlist heven', hsame]
  have hsort : executeNode ⟨columns, rows⟩ (if stmt.orderBy.isEmpty then
        .project stmt.columns stmt.star (.scan "" false)
      else .sort stmt.orderBy (.project stmt.columns stmt.star (.scan "" false))) =
      executeNode ⟨columns, rows'⟩ (if stmt.orderBy.isEmpty then
        .project stmt.columns stmt.star (.scan "" false)
      else .sort stmt.orderBy (.project stmt.columns stmt.star (.scan "" false))) := by
    split
    · exact hproject
    · rw [executeNode.eq_5, executeNode.eq_5, hproject]
  cases hlimit : stmt.limit with
  | none => simpa only [output, outputNode, hlimit, Option.elim_none] using hsort
  | some n => simp only [output, outputNode, hlimit, Option.elim_some, executeNode.eq_4, hsort]

/-- Without rows the query returns. -/
theorem output_nil (hlist : stmt.Resolves columns) : ∃ rs, stmt.output ⟨columns, []⟩ = .ok rs := by
  have heven : Table.Even ⟨columns, []⟩ := nofun
  have hnil : ∀ keys, (sortRows keys [] : Result ExecError (List Row)) = .ok [] := by
    intro keys
    rw [sortRows, if_pos Pairwise.nil, mergeSort_nil]
  have hsort : executeNode ⟨columns, []⟩ (if stmt.orderBy.isEmpty then
        .project stmt.columns stmt.star (.scan "" false)
      else .sort stmt.orderBy (.project stmt.columns stmt.star (.scan "" false))) =
      .ok ⟨stmt.outColumns columns, []⟩ := by
    split
    · exact project_eq hlist heven
    · rw [executeNode.eq_5, project_eq hlist heven]
      simp only [ok_bind, map_nil, hnil]
  cases hlimit : stmt.limit with
  | none => exact ⟨_, by simpa only [output, outputNode, hlimit, Option.elim_none] using hsort⟩
  | some n =>
    refine ⟨⟨stmt.outColumns columns, [].take n.toNat⟩, ?_⟩
    simp only [output, outputNode, hlimit, Option.elim_some, executeNode.eq_4, hsort, ok_bind]

theorem cmpKeys_markedRow {shown : String} {ob : OrderBy} {front back : List OrderBy}
    {v v' w w' : Int64} (hexist : ∀ ob' ∈ front ++ ob :: back, ob'.column ∈ columns)
    (hshown : ∀ ob' ∈ front, ob'.column ≠ shown) (hhidden : ∀ ob' ∈ front, ob'.column ≠ ob.column)
    (hne : ob.column ≠ shown) (hlt : compare w w' = .lt) :
    cmpKeys columns (front ++ ob :: back) (markedRow columns shown ob.column v w)
        (markedRow columns shown ob.column v' w') = if ob.descending then .gt else .lt := by
  have htie : cmpKeys columns front (markedRow columns shown ob.column v w)
      (markedRow columns shown ob.column v' w') = .eq := by
    refine cmpKeys_eq.mpr fun ob' hob' => ?_
    have hmem := hexist ob' (mem_append_left _ hob')
    rw [markedRow, markedRow, cell_rowOf hmem, cell_rowOf hmem]
    simp only [if_neg (hshown ob' hob'), if_neg (hhidden ob' hob')]
  have hmem := hexist ob (mem_append_right _ mem_cons_self)
  have hcmp : (Value.int w).cmp (.int w') = .lt := hlt
  rw [cmpKeys_append, htie, cmpKeys, cmpKey, markedRow, markedRow, cell_rowOf hmem, cell_rowOf hmem]
  simp only [if_neg hne, if_true, hcmp]
  cases ob.descending <;> rfl

theorem even_markedRows {shown hidden : String} {v v' w w' : Int64} :
    Table.Even ⟨columns, [markedRow columns shown hidden v w,
    markedRow columns shown hidden v' w']⟩ := by
  intro row hrow
  rcases mem_pair.mp hrow with rfl | rfl
  · exact length_map _
  · exact length_map _

theorem output_markedRows {shown : String} {ob : OrderBy} {front back : List OrderBy}
    {v v' w w' : Int64} (hgroup : stmt.groupBy = []) (hagg : stmt.aggregates = [])
    (hfilter : stmt.filter = none) (hlimit : stmt.limit = none) (hlist : stmt.Resolves columns)
    (horder : stmt.orderBy = front ++ ob :: back)
    (hexist : ∀ ob ∈ stmt.orderBy, ob.column ∈ columns)
    (hshown : ∀ ob' ∈ front, ob'.column ≠ shown) (hhidden : ∀ ob' ∈ front, ob'.column ≠ ob.column)
    (hne : ob.column ≠ shown) (hlt : compare w w' = .lt) {rows : List Row}
    (hrows : rows.Perm [markedRow columns shown ob.column v w,
      markedRow columns shown ob.column v' w'])
    (h : stmt.OrdersAsListed ⟨0⟩ ⟨columns, rows⟩) :
    stmt.output ⟨columns, rows⟩ = .ok ⟨stmt.outColumns columns,
      (if ob.descending then
        [markedRow columns shown ob.column v' w', markedRow columns shown ob.column v w]
      else [markedRow columns shown ob.column v w, markedRow columns shown ob.column v' w']).map
        (stmt.outRow columns)⟩ := by
  have hplan : stmt.Plannable ⟨0⟩ := by
    intro expr hexpr
    rw [hfilter] at hexpr
    cases hexpr
  have hbefore : clauseRows stmt.filter ⟨columns, rows⟩ = .ok ⟨columns, rows⟩ := by
    rw [hfilter]
    rfl
  rw [OrdersAsListed, if_pos hexist] at h
  obtain ⟨sorted, hsorted, hrun⟩ := h _ hbefore hlist
  rw [planned_plain hgroup hagg hplan, hbefore, ok_bind] at hrun
  have hcmp := @cmpKeys_markedRow columns shown ob front back v v' w w' (horder ▸ hexist) hshown
    hhidden hne hlt
  rw [← horder] at hcmp
  rw [hrun, limitedRows, hlimit, Option.elim_none]
  cases hdesc : ob.descending with
  | false =>
    rw [hdesc] at hcmp
    rw [hsorted.pair hrows hcmp]
    rfl
  | true =>
    rw [hdesc] at hcmp
    rw [hsorted.pair (hrows.trans (Perm.swap _ _ [])) (Std.OrientedCmp.lt_of_gt hcmp)]
    rfl

/-- The list does not see a column that it does not have. -/
theorem outRow_markedRow_hidden {shown hidden : String} (hlist : stmt.Resolves columns)
    (hwhole : stmt.whole = false) (hhidden : hidden ∉ stmt.columns) (v w w' : Int64) :
    stmt.outRow columns (markedRow columns shown hidden v w) =
      stmt.outRow columns (markedRow columns shown hidden v w') := by
  rw [outRow_eq hwhole, outRow_eq hwhole]
  refine map_congr_left fun c hc => ?_
  have hmem := columns_mem hlist hwhole c hc
  have hother : c ≠ hidden := fun heq => hhidden (heq ▸ hc)
  rw [markedRow, markedRow, cell_rowOf hmem, cell_rowOf hmem]
  simp only [if_neg hother]

theorem outRow_markedRow_inj {shown hidden : String} (hlist : stmt.Resolves columns)
    (hwhole : stmt.whole = false) (hshown : shown ∈ stmt.columns) {v v' w w' : Int64}
    (heq : stmt.outRow columns (markedRow columns shown hidden v w) =
      stmt.outRow columns (markedRow columns shown hidden v' w')) : v = v' := by
  rw [outRow_eq hwhole, outRow_eq hwhole] at heq
  have hcell := map_inj_left.mp heq shown hshown
  have hmem := columns_mem hlist hwhole shown hshown
  rw [markedRow, markedRow, cell_rowOf hmem, cell_rowOf hmem] at hcell
  simp only [if_true, Value.int.injEq] at hcell
  exact hcell

theorem orderShown_of_all (hgroup : stmt.groupBy = []) (hagg : stmt.aggregates = [])
    (hfilter : stmt.filter = none) (hlimit : stmt.limit = none)
    (h : ∀ rows, Table.Even ⟨columns, rows⟩ → stmt.OrdersAsListed ⟨0⟩ ⟨columns, rows⟩) :
    stmt.OrderShown columns := by
  intro hlist
  have hplan : stmt.Plannable ⟨0⟩ := by
    intro expr hexpr
    rw [hfilter] at hexpr
    cases hexpr
  have hexist : ∀ ob ∈ stmt.orderBy, ob.column ∈ columns := by
    by_contra hmissing
    have hnil := h [] nofun
    rw [OrdersAsListed, if_neg hmissing, planned_plain hgroup hagg hplan, hfilter] at hnil
    obtain ⟨e, he⟩ := hnil
    obtain ⟨rs, hrs⟩ := output_nil hlist
    cases hrs.symm.trans he
  refine ⟨hexist, ?_⟩
  by_contra hnot
  simp only [not_or, not_forall, Bool.not_eq_true] at hnot
  obtain ⟨hwhole, ⟨ob₀, hob₀, hhidden₀⟩, c, hc, hkeys⟩ := hnot
  -- the first column of `ORDER BY` that the list does not have
  obtain ⟨ob, back, hback⟩ : ∃ ob back,
      (stmt.orderBy.dropWhile fun ob => decide (ob.column ∈ stmt.columns)) = ob :: back := by
    apply exists_cons_of_ne_nil
    intro hnil
    exact hhidden₀ (of_decide_eq_true (dropWhile_eq_nil_iff.mp hnil ob₀ hob₀))
  have horder : stmt.orderBy = stmt.shownKeys ++ ob :: back := by
    rw [← hback, shownKeys, takeWhile_append_dropWhile]
  have hhidden : ob.column ∉ stmt.columns := by
    have hhead := head_dropWhile_not _ (hback ▸ cons_ne_nil ob back)
    simp only [hback, head_cons, decide_eq_false_iff_not] at hhead
    exact hhead
  have hfront : ∀ ob' ∈ stmt.shownKeys, ob'.column ∈ stmt.columns := by
    intro ob' hob'
    simpa using mem_takeWhile_imp hob'
  have hshownNe : ∀ ob' ∈ stmt.shownKeys, ob'.column ≠ c := fun ob' hob' heq =>
    hkeys (heq ▸ mem_map_of_mem hob')
  have hhiddenNe : ∀ ob' ∈ stmt.shownKeys, ob'.column ≠ ob.column := fun ob' hob' heq =>
    hhidden (heq ▸ hfront ob' hob')
  have hne : ob.column ≠ c := fun heq => hhidden (heq ▸ hc)
  set row := markedRow columns c ob.column
  -- the hidden column orders the two rows one way, and then the other
  have hup : stmt.output ⟨columns, [row 1 1, row 2 2]⟩ = .ok ⟨stmt.outColumns columns,
      (if ob.descending then [row 2 2, row 1 1] else [row 1 1, row 2 2]).map
        (stmt.outRow columns)⟩ :=
    output_markedRows hgroup hagg hfilter hlimit hlist horder hexist hshownNe hhiddenNe hne
      (by decide) (Perm.refl _) (h _ even_markedRows)
  have hdown : stmt.output ⟨columns, [row 1 2, row 2 1]⟩ = .ok ⟨stmt.outColumns columns,
      (if ob.descending then [row 1 2, row 2 1] else [row 2 1, row 1 2]).map
        (stmt.outRow columns)⟩ :=
    output_markedRows hgroup hagg hfilter hlimit hlist horder hexist hshownNe hhiddenNe hne
      (by decide) (Perm.swap _ _ []) (h _ even_markedRows)
  have hsame : stmt.output ⟨columns, [row 1 1, row 2 2]⟩ =
      stmt.output ⟨columns, [row 1 2, row 2 1]⟩ := by
    apply output_congr hlist even_markedRows even_markedRows
    have hhide : ∀ v w w', stmt.outRow columns (row v w) = stmt.outRow columns (row v w') :=
      outRow_markedRow_hidden hlist hwhole hhidden
    rw [map_cons, map_cons, map_cons, map_cons, hhide 1 1 2, hhide 2 2 1]
  rw [hup, hdown] at hsame
  cases hdesc : ob.descending with
  | true =>
    rw [hdesc] at hsame
    have heads := (cons.inj (ResultSet.mk.inj (Except.ok.inj hsame)).2).1
    exact absurd (outRow_markedRow_inj hlist hwhole hc heads) (by decide)
  | false =>
    rw [hdesc] at hsame
    have heads := (cons.inj (ResultSet.mk.inj (Except.ok.inj hsame)).2).1
    exact absurd (outRow_markedRow_inj hlist hwhole hc heads) (by decide)

/-- Whatever `WHERE`, `LIMIT` and the rows are, the rows come as listed by `ORDER BY`,
exactly if the list shows the order. -/
theorem order_by_iff (hgroup : stmt.groupBy = []) (hagg : stmt.aggregates = []) :
    (∀ filter limit stats rows,
        { stmt with filter := filter, limit := limit }.Plannable stats →
        Table.Even ⟨columns, rows⟩ →
        { stmt with filter := filter, limit := limit }.OrdersAsListed stats ⟨columns, rows⟩) ↔
      stmt.OrderShown columns := by
  constructor
  · intro h
    have hplain : SelectStatement.OrderShown
      { stmt with filter := none, limit := none } columns := by
      refine orderShown_of_all hgroup hagg rfl rfl fun rows heven => h none none ⟨0⟩ rows ?_ heven
      intro expr hexpr
      cases hexpr
    exact hplain
  · intro h filter limit stats rows hplan heven
    exact ordersAsListed_of_orderShown hgroup hagg hplan heven h

end Shown

/-- `SELECT a FROM t ORDER BY b`. -/
def orderedBy (b : String) : SelectStatement :=
  { selectAll (.named "t" none) with columns := ["a"], star := false, orderBy := [⟨b, false⟩] }

theorem order_by_iff_listed :
    (orderedBy "a").OrdersAsListed ⟨2⟩ ⟨["a", "b"], [[.int 2, .int 1], [.int 1, .int 2]]⟩ := by
  have hiff := @order_by_iff (orderedBy "a") ["a", "b"] rfl rfl
  refine hiff.mpr ?_ none none ⟨2⟩ _ ?_ ?_
  · intro _
    refine ⟨?_, Or.inr (Or.inl ?_)⟩
    · decide
    · decide
  · intro expr hexpr
    cases hexpr
  · simp [Table.Even]

/-- The rows on which `a` and `b` disagree about the order. -/
def opposed : List Row :=
  [[.int 1, .int 2], [.int 2, .int 1]]

theorem planned_orderedBy {b : String} (hb : b ≠ "a") :
    (orderedBy b).planned ⟨2⟩ ⟨["a", "b"], opposed⟩ = .ok ⟨["a"], [[.int 1], [.int 2]]⟩ := by
  have hplan : (orderedBy b).Plannable ⟨2⟩ := by
    intro expr hexpr
    cases hexpr
  have heven : Table.Even ⟨["a", "b"], opposed⟩ := by
    simp [Table.Even, opposed]
  have hlist : (orderedBy b).Resolves ["a", "b"] := by
    right
    intro c hc
    obtain rfl := mem_singleton.mp hc
    exact mem_cons_self
  have hkeys : (orderedBy b).planKeys ["a", "b"] = [⟨"a", false⟩] := by
    have hhidden : ¬ b ∈ ["a"] := by simpa using hb
    change [planKey ["a"] ⟨b, false⟩] = _
    rw [planKey, if_neg hhidden]
    rfl
  rw [planned_plain rfl rfl hplan]
  change (orderedBy b).output ⟨["a", "b"], opposed⟩ = _
  rw [output_eq hlist heven fun _ => nofun, hkeys, mergeSort_of_pairwise (by decide)]
  rfl

/-- `SELECT a FROM t ORDER BY b` returns the rows in the order of `a`, and so does
`ORDER BY c`, though there is no column `c`. -/
theorem hidden_column_is_not_sorted_by :
    (orderedBy "b").planned ⟨2⟩ ⟨["a", "b"], opposed⟩ = .ok ⟨["a"], [[.int 1], [.int 2]]⟩ ∧
      ¬ (orderedBy "b").OrdersAsListed ⟨2⟩ ⟨["a", "b"], opposed⟩ ∧
      (orderedBy "c").planned ⟨2⟩ ⟨["a", "b"], opposed⟩ = .ok ⟨["a"], [[.int 1], [.int 2]]⟩ ∧
      ¬ (orderedBy "c").OrdersAsListed ⟨2⟩ ⟨["a", "b"], opposed⟩ := by
  have hb := @planned_orderedBy "b" (by decide)
  have hc := @planned_orderedBy "c" (by decide)
  refine ⟨hb, ?_, hc, ?_⟩
  · intro h
    have hexist : ∀ ob ∈ (orderedBy "b").orderBy, ob.column ∈ ["a", "b"] := by decide
    rw [OrdersAsListed, if_pos hexist] at h
    obtain ⟨sorted, hsorted, hrun⟩ := h ⟨["a", "b"], opposed⟩ rfl (Or.inr (by decide))
    have hcmp : cmpKeys ["a", "b"] (orderedBy "b").orderBy [.int 2, .int 1]
      [.int 1, .int 2] = .lt := by
      decide
    rw [hsorted.pair (Perm.swap _ _ []) hcmp, hb] at hrun
    cases hrun
  · intro h
    have hmissing : ¬ ∀ ob ∈ (orderedBy "c").orderBy, ob.column ∈ ["a", "b"] := by decide
    rw [OrdersAsListed, if_neg hmissing, hc] at h
    obtain ⟨e, he⟩ := h
    cases he

end SelectStatement

end Oikos.Archon.Relational
