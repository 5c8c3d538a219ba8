/-
Queries that return what their select list says: where every label finds the
entry that its item stands for, each row of the result has the values of the
items for its source.
-/
import Oikos.Archon.Relational.SelectList

namespace Oikos.Archon.Relational

open List

/-! ### The output -/

namespace SelectStatement

variable {stmt : SelectStatement} {table : Table} {rs : ResultSet}

/-- How many of the rows `LIMIT` lets through. -/
def limited (stmt : SelectStatement) (n : Nat) : Nat :=
  stmt.limit.elim n fun k => min k.toNat n

theorem output_eq_ok (h : stmt.output table = .ok rs) :
    ∃ projected, executeNode table (.project stmt.columns stmt.star (.scan "" false)) =
        .ok projected ∧ rs.columns = projected.columns ∧ rs.rows.Subperm projected.rows ∧
      rs.rows.length = stmt.limited projected.rows.length := by
  have hsorted : ∀ {rs}, executeNode table (if stmt.orderBy.isEmpty then
        .project stmt.columns stmt.star (.scan "" false)
      else .sort stmt.orderBy (.project stmt.columns stmt.star (.scan "" false))) = .ok rs →
      ∃ projected, executeNode table (.project stmt.columns stmt.star (.scan "" false)) =
        .ok projected ∧ rs.columns = projected.columns ∧ rs.rows.Perm projected.rows := by
    intro rs h
    split at h
    · exact ⟨rs, h, rfl, Perm.refl _⟩
    · rw [executeNode.eq_5] at h
      obtain ⟨projected, hprojected, h⟩ := bind_eq_ok.mp h
      obtain ⟨sorted, hsort, h⟩ := bind_eq_ok.mp h
      cases h
      refine ⟨projected, hprojected, rfl, ?_⟩
      unfold sortRows at hsort
      split at hsort
      · cases hsort
        exact mergeSort_perm _ _
      · cases hsort
  unfold output outputNode at h
  unfold limited
  cases hlimit : stmt.limit with
  | none =>
    rw [hlimit] at h
    obtain ⟨projected, hprojected, hcolumns, hrows⟩ := hsorted h
    exact ⟨projected, hprojected, hcolumns, hrows.subperm, hrows.length_eq⟩
  | some n =>
    rw [hlimit] at h
    simp only [Option.elim_some, executeNode.eq_4] at h
    obtain ⟨sorted, hsort, h⟩ := bind_eq_ok.mp h
    cases h
    obtain ⟨projected, hprojected, hcolumns, hrows⟩ := hsorted hsort
    refine ⟨projected, hprojected, hcolumns, ?_, ?_⟩
    · exact (take_sublist _ _).subperm.trans hrows.subperm
    · rw [length_take, hrows.length_eq]
      rfl

def HasValues (columns names : List String) (row values : Row) : Prop :=
  List.Forall₂ (fun name v => valueAt columns name row = some v) names values

theorem project_eq_ok {projected : ResultSet} (hstar : stmt.star = false) (hne : stmt.columns ≠ [])
    (h : executeNode table (.project stmt.columns stmt.star (.scan "" false)) = .ok projected) :
    projected.columns = stmt.columns ∧
      List.Forall₂ (HasValues table.columns stmt.columns) table.rows projected.rows := by
  simp only [executeNode, ok_bind, hstar, Bool.false_or, isEmpty_eq_false_iff.mpr hne,
    Bool.false_eq_true, if_false] at h
  obtain ⟨indices, hindices, h⟩ := bind_eq_ok.mp h
  obtain ⟨rows, hmap, h⟩ := bind_eq_ok.mp h
  cases h
  refine ⟨rfl, (mapM_eq_ok.mp hmap).imp ?_⟩
  intro row out hout
  exact values_of_indices (columnIndices_eq_ok hindices) hout

theorem output_list (h : table.Even) (hstar : stmt.star = false) (hne : stmt.columns ≠ [])
    (hlist : ∀ c ∈ stmt.columns, c ∈ table.columns) :
    ∃ rs, stmt.output table = .ok rs ∧ rs.columns = stmt.columns ∧
      rs.rows.length = stmt.limited table.rows.length ∧
      ∃ picked : List Row, picked.Subperm table.rows ∧
        List.Forall₂ (HasValues table.columns stmt.columns) picked rs.rows := by
  have hcols : table.columns ≠ [] := by
    obtain ⟨c, rest, hc⟩ := exists_cons_of_ne_nil hne
    exact ne_nil_of_mem (hlist c (hc ▸ mem_cons_self))
  obtain ⟨rs, hrs, _⟩ := output_even h hcols (Or.inr hlist)
  obtain ⟨projected, hprojected, hcolumns, hrows, hlen⟩ := output_eq_ok hrs
  obtain ⟨hnames, hall⟩ := project_eq_ok hstar hne hprojected
  exact ⟨rs, hrs, hcolumns.trans hnames, by rw [hlen, hall.length_eq],
    exists_subperm_forall₂ hall hrows⟩

/-- With `*`, the result is the table, as far as `LIMIT` lets it through. -/
theorem output_star_length (hstar : stmt.star = true) (h : stmt.output table = .ok rs) :
    rs.rows.length = stmt.limited table.rows.length := by
  obtain ⟨projected, hprojected, _, _, hlen⟩ := output_eq_ok h
  simp only [executeNode, ok_bind, hstar, Bool.true_or, if_true] at hprojected
  cases hprojected
  exact hlen

/-- `SELECT *` with the source and the `WHERE` of the query, or with its vector
search. -/
def source (stmt : SelectStatement) : SelectStatement :=
  { stmt with
    columns := [], star := true, groupBy := [], aggregates := [], having := none, orderBy := [],
    limit := none }

/-- The query with `*` for its list. -/
def unlisted (stmt : SelectStatement) : SelectStatement :=
  { stmt with columns := [], star := true }

end SelectStatement

/-! ### The promise -/

def SelectItem.position (columns : List String) : SelectItem → Option Nat
  | .column name _ => denoted columns name
  | .aggregate _ _ _ => none

/-- Each label of the list finds the entry that its item stands for.  Vector
search has no entries but returns whole rows: there the list has to be that of
all columns, in their order and without `GROUP BY`. -/
def Honoured (columns groupBy : List String) (items : List SelectItem) (cosine : Bool) : Prop :=
  if cosine then
    groupBy = [] ∧ items.map (SelectItem.position columns) = (List.range columns.length).map some
  else ∀ item ∈ items, ∃ e,
    lookup (header columns groupBy (items.filterMap SelectItem.toAggregate)) item.label = some e ∧
      e.Gives columns item

namespace Database

open SelectStatement

variable {db : Database} {name : String} {ts : TableStorage} {stmt : SelectStatement}
  {items : List SelectItem} {fuel : Nat} {params : Params}

/-- The query returns what its list says: wherever the same query with `*` for its
list runs, it runs too, with one column for each item and as many rows, and each
row has the values of the items for a source of its own. -/
def ReturnsList (db : Database) (fuel : Nat) (stmt : SelectStatement) (params : Params)
    (items : List SelectItem) : Prop :=
  ∀ source whole, db.runSelect fuel stmt.source params = .ok source →
    db.runSelect fuel stmt.unlisted params = .ok whole →
    ∃ rs, db.runSelect fuel stmt params = .ok rs ∧ rs.columns = items.map SelectItem.label ∧
      rs.rows.length = whole.rows.length ∧
      ∃ picked : List (List Row),
        picked.Subperm (sources source.columns stmt.groupBy stmt.aggregates source.rows) ∧
        List.Forall₂ (fun group row => List.Forall₂ (ItemValue source.columns group) items row)
          picked rs.rows

theorem applyClause_eq_ok {run : RunSelect} {outer : List Scope} {ctes : List CTE}
    {scopeColumns : List String} {clause : Option Expr} {table kept : Table}
    (h : applyClause run params outer ctes scopeColumns clause table = .ok kept) :
    kept.columns = table.columns ∧ kept.rows.Sublist table.rows := by
  cases clause with
  | none =>
    cases h
    exact ⟨rfl, Sublist.refl _⟩
  | some expr =>
    obtain ⟨cache, _, h⟩ := bind_eq_ok.mp h
    obtain ⟨rows, hrows, h⟩ := bind_eq_ok.mp h
    cases h
    exact ⟨rfl, filterRows_sublist hrows⟩

theorem mapErr_eq_ok {E E' : Type} {α : Type} {g : E → E'} {x : Result E α} {a : α} :
    mapErr g x = .ok a ↔ x = .ok a := by
  cases x with
  | ok b => simp [mapErr]
  | error stop => cases stop <;> simp [mapErr]

theorem groupTable_even {table before : Table} (h : table.Even)
    (hgroup : stmt.groupTable table = .ok before) : before.Even := by
  unfold SelectStatement.groupTable at hgroup
  split at hgroup
  · obtain ⟨rs, hrs, hbefore⟩ := bind_eq_ok.mp hgroup
    cases hbefore
    exact (aggregateTable_even hrs).2
  · cases hgroup
    exact h

theorem returnsList_of_labels (h : SingleTable name stmt) (hcosine : stmt.orderByCosine = none)
    (hview : assocGet db.views name = none) (hts : db.table name = some ts)
    (hlists : Lists items stmt) (hne : items ≠ [])
    (hon : Honoured ts.schema.columns stmt.groupBy items false) :
    ReturnsList db fuel stmt params items := by
  intro source whole hsource hwhole
  cases fuel with
  | zero => cases hsource
  | succ fuel =>
    have hsingle : SingleTable name stmt.source := ⟨h.table, h.joins, h.ctes⟩
    have hunlisted : SingleTable name stmt.unlisted := ⟨h.table, h.joins, h.ctes⟩
    rw [runSelect_single hsingle hcosine hview] at hsource
    rw [runSelect_single hunlisted hcosine hview] at hwhole
    rw [runSelect_single h hcosine hview]
    obtain ⟨⟨columns, rows⟩, hscan, hsource⟩ := bind_eq_ok.mp hsource
    obtain ⟨kept, hkept, hsource⟩ := bind_eq_ok.mp hsource
    cases hsource
    have hcolumns : columns = ts.schema.columns := by
      obtain ⟨ts', hts', hrows⟩ := bind_eq_ok.mp hscan
      obtain ⟨rows', _, hrows⟩ := bind_eq_ok.mp hrows
      rw [getTable, hts] at hts'
      cases hts'
      cases hrows
      rfl
    subst hcolumns
    have hkeptEven : kept.Even := by
      obtain ⟨hcolumns, hsub⟩ := applyClause_eq_ok hkept
      intro row hrow
      rw [hcolumns]
      exact scanTable_even hscan row (hsub.subset hrow)
    obtain ⟨_, hscan', hwhole⟩ := bind_eq_ok.mp hwhole
    cases hscan.symm.trans hscan'
    obtain ⟨_, hkept', hwhole⟩ := bind_eq_ok.mp hwhole
    cases hkept.symm.trans hkept'
    obtain ⟨before, hbefore, hwhole⟩ := bind_eq_ok.mp hwhole
    obtain ⟨after, hafter, hwhole⟩ := bind_eq_ok.mp hwhole
    have hgroup : stmt.groupTable kept = .ok before := mapErr_eq_ok.mp hbefore
    obtain ⟨hafterCols, hafterRows⟩ := applyClause_eq_ok hafter
    have hafterEven : after.Even := by
      intro row hrow
      rw [hafterCols]
      exact groupTable_even hkeptEven hgroup row (hafterRows.subset hrow)
    obtain ⟨hheader, gs, hgs, hrows⟩ := groupTable_header hkeptEven hgroup
    have hfound : ∀ item ∈ items, ∃ e, lookup (header kept.columns stmt.groupBy stmt.aggregates)
        item.label = some e ∧ e.Gives kept.columns item := by
      rw [(applyClause_eq_ok hkept).1, hlists.aggregates]
      exact hon
    have hmem : ∀ c ∈ stmt.columns, c ∈ after.columns := by
      intro c hc
      rw [hlists.columns] at hc
      obtain ⟨item, hitem, rfl⟩ := mem_map.mp hc
      obtain ⟨e, he, _⟩ := hfound item hitem
      obtain ⟨i, hi, _⟩ := lookup_position he
      rw [hafterCols, hheader]
      obtain ⟨hlt, hlabel, _⟩ := findIdx?_eq_some_iff_getElem.mp hi
      exact beq_iff_eq.mp hlabel ▸ getElem_mem hlt
    obtain ⟨rs, hrs, hrsCols, hlen, picked, hpicked, hout⟩ := output_list hafterEven hlists.star
      (by rw [hlists.columns]; simpa using hne) hmem
    have hwholeRows : stmt.unlisted.output after = .ok whole := mapErr_eq_ok.mp hwhole
    obtain ⟨ds, hds, hsources⟩ :=
      exists_subperm_forall₂ hrows (hpicked.trans hafterRows.subperm)
    refine ⟨rs, bind_eq_ok.mpr ⟨_, hscan, bind_eq_ok.mpr ⟨_, hkept, bind_eq_ok.mpr ⟨_, hbefore,
      bind_eq_ok.mpr ⟨_, hafter, mapErr_eq_ok.mpr hrs⟩⟩⟩⟩, hrsCols.trans hlists.columns,
      hlen.trans (output_star_length rfl hwholeRows).symm, ds, hds.trans hgs.subperm, ?_⟩
    refine forall₂_through hsources hout fun group row out hrow hvalues => ?_
    rw [HasValues, hlists.columns, forall₂_map_left_iff] at hvalues
    refine ((forall₂_and_left _ _).mpr ⟨hfound, hvalues⟩).imp ?_
    rintro item v ⟨⟨e, he, hgives⟩, hv⟩
    obtain ⟨w, hw, hholds⟩ := hrow item.label e he
    rw [hafterCols, hheader, hw, Option.some_inj] at hv
    exact hv ▸ hgives.itemValue hholds

/-! ### Vector search -/

theorem mem_topkCandidates {run : RunSelect} {columns : List String} {filter : Option Expr}
    {slot : Nat} {rows : List Row} {found : List (List F32 × Row)}
    (h : topkCandidates run columns filter params slot rows = .ok found) {p : List F32 × Row}
    (hp : p ∈ found) : p.2 ∈ rows := by
  obtain ⟨row, hrow, hfound⟩ := (mem_collect h p).mp hp
  cases filter
  all_goals
    obtain ⟨keep, _, htake⟩ := bind_eq_ok.mp hfound
    cases keep with
    | false => cases htake
    | true =>
      obtain ⟨v, _, htake⟩ := bind_eq_ok.mp htake
      cases v with
      | vector v =>
        cases htake
        exact hrow
      | _ => cases htake

theorem runVectorTopk_rows {run : RunSelect} {stmt' : SelectStatement} {ob : OrderByCosine}
    {rs : ResultSet} {aliasName : Option String} (htable : stmt.table = .named name aliasName)
    (htable' : stmt'.table = stmt.table) (hfilter : stmt'.filter = stmt.filter)
    (hts : db.table name = some ts) (h : db.runVectorTopk run stmt ob params = .ok rs) :
    (∀ row ∈ rs.rows, row.length = ts.schema.columns.length) ∧
      db.runVectorTopk run stmt' ob params =
        .ok ⟨if stmt'.star || stmt'.columns.isEmpty then ts.schema.columns else stmt'.columns,
          rs.rows⟩ := by
  unfold runVectorTopk at h ⊢
  rw [htable'.trans htable, hfilter]
  rw [htable] at h
  have hparam : ob.param ≠ 0 := by
    intro hparam
    simp only [hparam, if_true, error_bind] at h
    cases h
  simp only [hparam, if_false, ok_bind] at h ⊢
  obtain ⟨query, hquery⟩ : ∃ query, params[ob.param - 1]? = some query := by
    cases hquery : params[ob.param - 1]? with
    | none =>
      rw [hquery] at h
      cases h
    | some query => exact ⟨query, rfl⟩
  simp only [hquery] at h ⊢
  obtain ⟨ts', hts', h⟩ := bind_eq_ok.mp h
  rw [getTable, hts] at hts'
  cases hts'
  obtain ⟨slot, hslot, h⟩ := bind_eq_ok.mp h
  obtain ⟨ctype, hctype, h⟩ := bind_eq_ok.mp h
  simp only [getTable, hts, ok_bind, hslot, hctype]
  split at h
  · cases h
  · next hvector =>
    obtain ⟨candidates, hcandidates, h⟩ := bind_eq_ok.mp h
    cases h
    rw [if_neg hvector, hcandidates, ok_bind]
    refine ⟨?_, rfl⟩
    intro row hrow
    obtain ⟨i, _, hi⟩ := mem_filterMap.mp hrow
    obtain ⟨p, hp, rfl⟩ := Option.map_eq_some_iff.mp hi
    obtain ⟨id, _, hid⟩ := (mem_collect hcandidates p).mp (mem_of_getElem? hp)
    split at hid
    · cases hid
    · obtain ⟨decoded, hdecoded, hid⟩ := bind_eq_ok.mp hid
      obtain ⟨found, hfound, hid⟩ := bind_eq_ok.mp hid
      have hhead : p ∈ found := mem_of_head? (Except.ok.inj hid)
      rw [mem_singleton.mp (mem_topkCandidates hfound hhead)]
      exact (decodeRowValidated_eq_ok.mp (ofExcept_eq_ok hdecoded)).2

theorem runSelect_cosine {ob : OrderByCosine} (h : stmt.orderByCosine = some ob) :
    db.runSelect (fuel + 1) stmt params =
      db.runVectorTopk (db.runSelectScoped fuel) stmt ob params := by
  rw [runSelect, runSelectScoped, selectBody, h]

theorem itemValues_of_positions {columns : List String} {row : Row}
    (h : items.map (SelectItem.position columns) = (range columns.length).map some)
    (hrow : row.length = columns.length) :
    List.Forall₂ (ItemValue columns [row]) items row := by
  have hlen : items.length = columns.length := by simpa using congrArg length h
  refine forall₂_iff_get.mpr ⟨hlen.trans hrow.symm, ?_⟩
  intro i hi hi'
  have hget := congrArg (fun l => l[i]?) h
  have hposition : items[i].position columns = some i := by
    simpa [getElem?_range (hlen ▸ hi : i < columns.length), hi] using hget
  simp only [get_eq_getElem]
  cases hitem : items[i] with
  | column item aliasName =>
    rw [hitem] at hposition
    intro r hr
    obtain rfl := mem_singleton.mp hr
    exact column_eq_ok.mpr ⟨i, hposition, getElem?_eq_getElem hi'⟩
  | aggregate func arg aliasName =>
    rw [hitem] at hposition
    cases hposition

theorem toAggregate_of_positions {columns : List String}
    (h : items.map (SelectItem.position columns) = (range columns.length).map some) :
    items.filterMap SelectItem.toAggregate = [] := by
  rw [filterMap_eq_nil_iff]
  intro item hitem
  have hmem : item.position columns ∈ (range columns.length).map some :=
    h ▸ mem_map.mpr ⟨item, hitem, rfl⟩
  obtain ⟨i, _, hi⟩ := mem_map.mp hmem
  cases item with
  | column item aliasName => rfl
  | aggregate func arg aliasName => cases hi

theorem returnsList_of_columns {ob : OrderByCosine} (h : SingleTable name stmt)
    (hcosine : stmt.orderByCosine = some ob) (hts : db.table name = some ts)
    (hlists : Lists items stmt) (hne : items ≠ [])
    (hon : Honoured ts.schema.columns stmt.groupBy items true) :
    ReturnsList db fuel stmt params items := by
  intro source whole hsource hwhole
  cases fuel with
  | zero => cases hsource
  | succ fuel =>
    obtain ⟨aliasName, htable⟩ := h.table
    rw [@runSelect_cosine db stmt.source fuel params ob hcosine] at hsource
    rw [@runSelect_cosine db stmt.unlisted fuel params ob hcosine] at hwhole
    rw [runSelect_cosine hcosine]
    have hfrom : stmt.source.table = .named name aliasName := htable
    obtain ⟨heven, hself⟩ := runVectorTopk_rows hfrom rfl rfl hts hsource
    have hcols : source.columns = ts.schema.columns :=
      congrArg ResultSet.columns (Except.ok.inj (hsource.symm.trans hself))
    rw [hcols]
    obtain ⟨_, hstar⟩ := @runVectorTopk_rows db name ts stmt.source params _ stmt.unlisted ob _
      aliasName hfrom rfl rfl hts hsource
    obtain ⟨_, hrun⟩ := @runVectorTopk_rows db name ts stmt.source params _ stmt ob _
      aliasName hfrom rfl rfl hts hsource
    obtain rfl := Except.ok.inj (hwhole.symm.trans hstar)
    obtain ⟨hgroup, hpositions⟩ := hon
    have hcolumns : stmt.columns.isEmpty = false := by
      rw [hlists.columns]
      simpa using hne
    rw [hlists.star, hcolumns] at hrun
    refine ⟨_, hrun, hlists.columns, rfl, source.rows.map fun row => [row], ?_, ?_⟩
    · rw [hlists.aggregates, toAggregate_of_positions hpositions, hgroup]
      exact List.Subperm.refl _
    · rw [forall₂_map_left_iff, forall₂_same]
      intro row hrow
      exact itemValues_of_positions hpositions (heven row hrow)

theorem returnsList_of_honoured (h : SingleTable name stmt) (hview : assocGet db.views name = none)
    (hts : db.table name = some ts) (hlists : Lists items stmt) (hne : items ≠ [])
    (hon : Honoured ts.schema.columns stmt.groupBy items stmt.orderByCosine.isSome) :
    ReturnsList db fuel stmt params items := by
  cases hcosine : stmt.orderByCosine with
  | none =>
    rw [hcosine] at hon
    exact returnsList_of_labels h hcosine hview hts hlists hne hon
  | some ob =>
    rw [hcosine] at hon
    exact returnsList_of_columns h hcosine hts hlists hne hon

end Database

end Oikos.Archon.Relational
