/-
The select list as it is written, and what the statement keeps of it: a label
for each item, and the aggregate calls.

What the items of a select list stand for, and what the engine reads for them:
the first entry of its table that bears the label of the item.
-/
import Oikos.Archon.Relational.Grammar
import Oikos.Archon.Relational.Grouping
import Oikos.Archon.Relational.Pipelines

namespace Oikos.Archon.Relational

open List

/-! ### Reading the list -/

/-- The alias after an aggregate call, if `tok` starts one. -/
def writtenAlias (fuel : Nat) (tok : Tok) : Parse (Option String) :=
  if tok.isWord "as" then do
    let aliasName ← expectIdent fuel "alias"
    pure (some aliasName)
  else do
    pushBack tok
    pure none

/-- An aggregate call, after its opening parenthesis, and whether the comma after
it has been read. -/
def writtenAggregate (fuel : Nat) (func : AggregateFunc) : Parse (SelectItem × Bool) := do
  let inner ← aggregateArgument fuel
  let tok ← nextTok
  let aliasName ← writtenAlias fuel tok
  let tok ← nextTok
  if tok = .comma then pure (.aggregate func inner aliasName, true)
  else
    pushBack tok
    pure (.aggregate func inner aliasName, false)

def writtenColumn (fuel : Nat) (name : String) : Parse (SelectItem × Bool) := do
  let (name, next) ← selectName fuel name
  if next.isWord "as" then
    let aliasName ← expectIdent fuel "alias"
    pure (.column name (some aliasName), false)
  else
    pushBack next
    pure (.column name none, false)

/-- An item that starts with `t`. -/
def writtenItem (fuel : Nat) (t : Tok) : Parse (SelectItem × Bool) :=
  match t with
  | .ident name =>
    match aggregateFunc name with
    | some func => do
      let next ← nextTok
      if next = .lparen then writtenAggregate fuel func
      else
        pushBack next
        pure (.column name none, false)
    | none => writtenColumn fuel name
  | _ => fail "expected column name"

/-- The items from the token `t` on. -/
def writtenItems (itemFuel : Nat) : Nat → Tok → List SelectItem → Parse (List SelectItem × Tok)
  | 0, _, _ => outOfFuel
  | fuel + 1, t, items => do
    let (item, comma) ← writtenItem itemFuel t
    if comma then
      let t ← nextTok
      writtenItems itemFuel fuel t (items ++ [item])
    else
      let t ← nextTok
      if t = .comma then
        let t ← nextTok
        writtenItems itemFuel fuel t (items ++ [item])
      else pure (items ++ [item], t)

/-- The items of a select list, or none for `*`, and the token after them. -/
def writtenList (fuel : Nat) : Parse (Option (List SelectItem) × Tok) := do
  let t ← nextTok
  if t = .star then
    let t ← nextTok
    pure (none, t)
  else
    let (items, t) ← writtenItems fuel fuel t []
    pure (some items, t)

/-! ### What the parser keeps -/

/-- What the parser keeps of an item. -/
def ListedItem.of (p : SelectItem × Bool) : ListedItem :=
  ⟨p.1.label, p.1.toAggregate, p.2⟩

section Kept

variable {fuel itemFuel : Nat}

theorem aggregateLabel_written (func : AggregateFunc) (tok : Tok) :
    aggregateLabel fuel func tok = (fun a => a.getD func.label) <$> writtenAlias fuel tok := by
  unfold aggregateLabel writtenAlias
  split
  · simp only [map_bind, map_pure, Option.getD_some, bind_pure]
  · simp only [map_bind, map_pure, Option.getD_none]

theorem selectAggregate_written (func : AggregateFunc) :
    selectAggregate fuel func = ListedItem.of <$> writtenAggregate fuel func := by
  unfold selectAggregate writtenAggregate
  simp only [aggregateLabel_written, map_bind, bind_map_left]
  refine bind_congr fun inner => bind_congr fun tok => bind_congr fun aliasName =>
    bind_congr fun tok => ?_
  split
  · rfl
  · simp only [map_bind, map_pure]
    rfl

theorem selectColumn_written (name : String) :
    selectColumn fuel name = ListedItem.of <$> writtenColumn fuel name := by
  unfold selectColumn writtenColumn
  simp only [map_bind]
  refine bind_congr fun p => ?_
  split
  · simp only [map_bind, map_pure]
    rfl
  · simp only [map_bind, map_pure]
    rfl

theorem selectItem_written (t : Tok) :
    selectItem fuel t = ListedItem.of <$> writtenItem fuel t := by
  cases t with
  | ident name =>
    simp only [selectItem, writtenItem]
    cases aggregateFunc name with
    | none => exact selectColumn_written name
    | some func =>
      simp only [map_bind]
      refine bind_congr fun next => ?_
      split
      · exact selectAggregate_written func
      · simp only [map_bind, map_pure]
        rfl
  | _ => rfl

theorem selectItems_written (t : Tok) (items : List SelectItem) :
    selectItems itemFuel fuel t (items.map SelectItem.label)
        (items.filterMap SelectItem.toAggregate) =
      (fun p => (p.1.map SelectItem.label, p.1.filterMap SelectItem.toAggregate, p.2)) <$>
        writtenItems itemFuel fuel t items := by
  induction fuel generalizing t items with
  | zero => rfl
  | succ fuel ih =>
    simp only [selectItems, writtenItems, selectItem_written, map_bind, bind_map_left]
    refine bind_congr fun p => ?_
    have hlabels : items.map SelectItem.label ++ [(ListedItem.of p).label] =
        (items ++ [p.1]).map SelectItem.label := by
      simp [ListedItem.of]
    have haggregates : items.filterMap SelectItem.toAggregate ++
        (ListedItem.of p).aggregate.toList =
        (items ++ [p.1]).filterMap SelectItem.toAggregate := by
      rw [filterMap_append]
      cases h : p.1.toAggregate <;> simp [ListedItem.of, h]
    simp only [hlabels, haggregates, ih]
    change (if p.2 = true then _ else _) = _ <$> (if p.2 = true then _ else _)
    split
    · simp only [map_bind]
    · simp only [map_bind]
      refine bind_congr fun t => ?_
      split
      · simp only [map_bind]
      · rfl

theorem parseSelectList_written :
    parseSelectList fuel = (fun p => (p.1.elim [] (map SelectItem.label), p.1.isNone,
      p.1.elim [] (filterMap SelectItem.toAggregate), p.2)) <$> writtenList fuel := by
  unfold parseSelectList writtenList
  simp only [map_bind]
  refine bind_congr fun t => ?_
  split
  · simp only [map_bind]
    rfl
  · have hitems := @selectItems_written fuel fuel t []
    simp only [map_nil, filterMap_nil] at hitems
    rw [hitems]
    simp only [map_bind, bind_map_left]
    rfl

structure KeepsList (stmt stmt' : SelectStatement) : Prop where
  columns : stmt'.columns = stmt.columns
  star : stmt'.star = stmt.star
  aggregates : stmt'.aggregates = stmt.aggregates

theorem KeepsList.after {stmt₁ stmt₂ stmt₃ : SelectStatement} (h' : KeepsList stmt₂ stmt₃)
    (h : KeepsList stmt₁ stmt₂) : KeepsList stmt₁ stmt₃ :=
  ⟨h'.columns.trans h.columns, h'.star.trans h.star, h'.aggregates.trans h.aggregates⟩

theorem parseOrderBy_keeps {stmt stmt' : SelectStatement} {lx lx' : Lexer}
    (h : parseOrderBy fuel stmt lx = .ok (stmt', lx')) : KeepsList stmt stmt' := by
  obtain ⟨⟨tok, lx₁⟩, _, h⟩ := bind_eq_ok.mp h
  cases tok with
  | ident name =>
    simp only at h
    split at h
    · obtain ⟨⟨cosine, lx₂⟩, _, h⟩ := bind_eq_ok.mp h
      cases h
      exact ⟨rfl, rfl, rfl⟩
    · obtain ⟨⟨descending, lx₂⟩, _, h⟩ := bind_eq_ok.mp h
      obtain ⟨⟨more, lx₃⟩, _, h⟩ := bind_eq_ok.mp h
      cases h
      exact ⟨rfl, rfl, rfl⟩
  | _ => cases h

theorem parseClauses_keeps {n : Nested} {t : Tok} {stmt stmt' : SelectStatement} {lx lx' : Lexer}
    (h : parseClauses itemFuel n fuel t stmt lx = .ok (stmt', lx')) : KeepsList stmt stmt' := by
  induction fuel generalizing t stmt lx with
  | zero => cases h
  | succ fuel ih =>
    unfold parseClauses at h
    split at h
    · split at h
      · cases h
      · obtain ⟨⟨e, lx₁⟩, _, h⟩ := bind_eq_ok.mp h
        obtain ⟨⟨t, lx₂⟩, _, h⟩ := bind_eq_ok.mp h
        exact (ih h).after ⟨rfl, rfl, rfl⟩
    · split at h
      · obtain ⟨⟨_, lx₁⟩, _, h⟩ := bind_eq_ok.mp h
        obtain ⟨⟨columns, lx₂⟩, _, h⟩ := bind_eq_ok.mp h
        obtain ⟨⟨t, lx₃⟩, _, h⟩ := bind_eq_ok.mp h
        exact (ih h).after ⟨rfl, rfl, rfl⟩
      · split at h
        · split at h
          · cases h
          · obtain ⟨⟨e, lx₁⟩, _, h⟩ := bind_eq_ok.mp h
            obtain ⟨⟨t, lx₂⟩, _, h⟩ := bind_eq_ok.mp h
            exact (ih h).after ⟨rfl, rfl, rfl⟩
        · split at h
          · obtain ⟨⟨_, lx₁⟩, _, h⟩ := bind_eq_ok.mp h
            obtain ⟨⟨ordered, lx₂⟩, hordered, h⟩ := bind_eq_ok.mp h
            obtain ⟨⟨t, lx₃⟩, _, h⟩ := bind_eq_ok.mp h
            exact (ih h).after (parseOrderBy_keeps hordered)
          · split at h
            · split at h
              · cases h
              · obtain ⟨⟨k, lx₁⟩, _, h⟩ := bind_eq_ok.mp h
                obtain ⟨⟨t, lx₂⟩, _, h⟩ := bind_eq_ok.mp h
                exact (ih h).after ⟨rfl, rfl, rfl⟩
            · cases h
              exact ⟨rfl, rfl, rfl⟩

structure Lists (items : List SelectItem) (stmt : SelectStatement) : Prop where
  columns : stmt.columns = items.map SelectItem.label
  star : stmt.star = false
  aggregates : stmt.aggregates = items.filterMap SelectItem.toAggregate

theorem parseSelectInner_lists {n : Nested} {stmt : SelectStatement} {items : List SelectItem}
    {t : Tok} {lx lx₁ lx' : Lexer} (hlist : writtenList fuel lx = .ok ((some items, t), lx₁))
    (h : parseSelectInner fuel n lx = .ok (stmt, lx')) : Lists items stmt := by
  unfold parseSelectInner at h
  rw [parseSelectList_written, bind_map_left] at h
  obtain ⟨⟨⟨list, t'⟩, lx₂⟩, hwritten, h⟩ := bind_eq_ok.mp h
  cases hlist.symm.trans hwritten
  simp only [Option.elim_some, Option.isNone_some] at h
  split at h
  · obtain ⟨⟨table, lx₂⟩, _, h⟩ := bind_eq_ok.mp h
    obtain ⟨⟨joins, lx₃⟩, _, h⟩ := bind_eq_ok.mp h
    obtain ⟨⟨t, lx₄⟩, _, h⟩ := bind_eq_ok.mp h
    obtain ⟨hcolumns, hstar, haggregates⟩ := parseClauses_keeps h
    exact ⟨hcolumns, hstar, haggregates⟩
  · cases h

end Kept

/-- The text is a `SELECT` with this list, and the statement is what it is parsed
to. -/
def Parsed (input : String) (items : List SelectItem) (stmt : SelectStatement) : Prop :=
  ∃ fuel k t lx lx', nextTok (Lexer.new input) = .ok (k, lx) ∧ k.isWord "select" = true ∧
    writtenList fuel lx = .ok ((some items, t), lx') ∧
    parseStatement (fuel + 1) input = .ok (.select stmt)

theorem not_with_of_select {k : Tok} (h : k.isWord "select" = true) : k.isWord "with" = false := by
  cases k with
  | ident s =>
    have hlen := (Bool.and_eq_true_iff.mp h).1
    have hselect : s.toList.length = 6 := beq_iff_eq.mp hlen
    change (s.toList.length == 4 && _) = false
    rw [hselect]
    rfl
  | _ => rfl

theorem Parsed.lists {input : String} {items : List SelectItem} {stmt : SelectStatement}
    (h : Parsed input items stmt) : Lists items stmt := by
  obtain ⟨fuel, k, t, lx, lx', hk, hselect, hlist, hparse⟩ := h
  obtain ⟨⟨stmt', lx₁⟩, hrun, hstmt⟩ := bind_eq_ok.mp hparse
  cases hstmt
  obtain ⟨⟨k', lx₂⟩, hk', hrun⟩ := bind_eq_ok.mp hrun
  cases hk.symm.trans hk'
  unfold parseStatementFrom at hrun
  simp only [not_with_of_select hselect, hselect, Bool.false_eq_true, if_false, if_true] at hrun
  obtain ⟨⟨query, lx₂⟩, hquery, hrun⟩ := bind_eq_ok.mp hrun
  obtain ⟨⟨_, lx₃⟩, _, hrun⟩ := bind_eq_ok.mp hrun
  cases hrun
  exact parseSelectInner_lists hlist hquery

/-! ### Names and columns -/

/-- The position of the column that a name stands for in `WHERE`: the column of
this name, or else one that has it apart from the qualifiers. -/
def denoted (columns : List String) (name : String) : Option Nat :=
  match columns.findIdx? (· == name) with
  | some i => some i
  | none => columns.findIdx? fun c => unqualified c == unqualified name

theorem unqualified_of_not_qualified {name : String} (h : isQualified name = false) :
    unqualified name = name := by
  have hall : ∀ c ∈ name.toList.reverse, (c != '.') = true := by
    intro c hc
    have hnot : '.' ∉ name.toList := by simpa [isQualified] using h
    simpa using fun heq : c = '.' => hnot (heq ▸ mem_reverse.mp hc)
  rw [unqualified, takeWhile_eq_self_iff.mpr hall, reverse_reverse, String.ofList_toList]

theorem column_eq_ok {name : String} {columns : List String} {row : Row} {v : Value} :
    column name columns row [] = .ok v ↔ ∃ i, denoted columns name = some i ∧ row[i]? = some v := by
  have hfind : (findValue name columns row [] : Result ExecError (Option Value)) =
      (denoted columns name).elim (.ok none) fun i => index row i >>= fun v => .ok (some v) := by
    unfold findValue denoted
    cases hexact : columns.findIdx? (· == name) with
    | some i => rfl
    | none =>
      cases hq : isQualified name with
      | true =>
        simp only [if_true, findInScopes]
        cases columns.findIdx? fun c => unqualified c == unqualified name <;> rfl
      | false =>
        simp only [Bool.false_eq_true, if_false, findInScopes, unqualified_of_not_qualified hq]
        cases columns.findIdx? fun c => unqualified c == name <;> rfl
  unfold column
  rw [hfind]
  cases denoted columns name with
  | none => simp
  | some i =>
    cases hrow : row[i]? with
    | none => simp [index, hrow]
    | some w => simp [index, hrow]

/-! ### Items and entries -/

def ItemValue (columns : List String) (group : List Row) (item : SelectItem) (v : Value) : Prop :=
  match item with
  | .column name _ => ∀ row ∈ group, column name columns row [] = .ok v
  | .aggregate func arg _ => evalAggregate func arg columns group = .ok v

/-- A column of the table that the select list is applied to: one of the source
or of `GROUP BY`, or an aggregate. -/
inductive Entry where
  | key (name : String)
  | call (a : Aggregate)
deriving DecidableEq

namespace Entry

def label : Entry → String
  | .key name => name
  | .call a => a.aliasName

def Holds (columns : List String) (group : List Row) (e : Entry) (v : Value) : Prop :=
  match e with
  | .key name => ∀ row ∈ group, valueAt columns name row = some v
  | .call a => evalAggregate a.func a.column columns group = .ok v

def Gives (columns : List String) : Entry → SelectItem → Prop
  | .key name, .column item _ => columns.findIdx? (· == name) = denoted columns item
  | .call a, .aggregate func arg _ => a.func = func ∧ (func = .count ∨ a.column = arg)
  | _, _ => False

theorem Gives.itemValue {columns : List String} {group : List Row} {e : Entry} {item : SelectItem}
    {v : Value} (h : e.Gives columns item) (hv : e.Holds columns group v) :
    ItemValue columns group item v := by
  cases e with
  | key name =>
    cases item with
    | column item aliasName =>
      intro row hrow
      obtain ⟨i, hi, hvalue⟩ := Option.bind_eq_some_iff.mp (hv row hrow)
      exact column_eq_ok.mpr ⟨i, h.symm.trans hi, hvalue⟩
    | aggregate func arg aliasName => cases h
  | call a =>
    cases item with
    | column item aliasName => cases h
    | aggregate func arg aliasName =>
      obtain ⟨rfl, hcount | rfl⟩ := h
      · simp only [ItemValue, Holds, evalAggregate, hcount] at hv ⊢
        exact hv
      · exact hv

end Entry

/-- The entries of the table that the select list is applied to. -/
def header (columns groupBy : List String) (aggregates : List Aggregate) : List Entry :=
  if !groupBy.isEmpty || !aggregates.isEmpty then groupBy.map .key ++ aggregates.map .call
  else columns.map .key

/-- The groups of rows that the rows of the result stand for: those of `GROUP BY`,
or each row for itself. -/
def sources (columns groupBy : List String) (aggregates : List Aggregate) (rows : List Row) :
    List (List Row) :=
  if !groupBy.isEmpty || !aggregates.isEmpty then groupsOf columns groupBy rows
  else rows.map fun row => [row]

def lookup (entries : List Entry) (label : String) : Option Entry :=
  entries.find? fun e => e.label == label

theorem lookup_position {entries : List Entry} {label : String} {e : Entry}
    (h : lookup entries label = some e) :
    ∃ i, (entries.map Entry.label).findIdx? (· == label) = some i ∧ entries[i]? = some e := by
  obtain ⟨hlabel, i, hi, rfl, hfirst⟩ := find?_eq_some_iff_getElem.mp h
  refine ⟨i, ?_, getElem?_eq_getElem hi⟩
  rw [findIdx?_eq_some_iff_getElem]
  refine ⟨by simpa using hi, by simpa using hlabel, ?_⟩
  intro j hj
  simpa using hfirst j hj

def HeaderRow (columns : List String) (entries : List Entry) (group : List Row)
    (row : Row) : Prop :=
  ∀ label e, lookup entries label = some e →
    ∃ v, valueAt (entries.map Entry.label) label row = some v ∧ e.Holds columns group v

section Header

variable {columns groupBy : List String} {aggregates : List Aggregate}
  {group : List Row} {row : Row}

theorem headerRow_single (h : row.length = columns.length) :
    HeaderRow columns (columns.map .key) [row] row := by
  intro label e he
  obtain ⟨i, hi, hentry⟩ := lookup_position he
  have hcolumns : (columns.map Entry.key).map Entry.label = columns := by
    rw [map_map]
    exact map_id columns
  rw [hcolumns] at hi ⊢
  obtain ⟨hlt, hlabel, _⟩ := findIdx?_eq_some_iff_getElem.mp hi
  have hltRow : i < row.length := h ▸ hlt
  have hrow := getElem?_eq_getElem hltRow
  have hvalue : valueAt columns label row = some row[i] := by
    rw [valueAt, hi, Option.bind_some, hrow]
  refine ⟨_, hvalue, ?_⟩
  have hname : e = .key label := by
    rw [getElem?_map, getElem?_eq_getElem hlt, Option.map_some, Option.some_inj] at hentry
    rw [← hentry, beq_iff_eq.mp hlabel]
  subst hname
  intro r hr
  obtain rfl := mem_singleton.mp hr
  exact hvalue

theorem headerRow_group (h : GroupRow columns groupBy aggregates group row) :
    HeaderRow columns (groupBy.map .key ++ aggregates.map .call) group row := by
  obtain ⟨key, values, rfl, hlen, hkey, hvalues⟩ := h
  intro label e he
  obtain ⟨i, hi, hentry⟩ := lookup_position he
  simp only [valueAt, hi, Option.bind_some]
  by_cases hlt : i < groupBy.length
  · have hltKey : i < key.length := hlen ▸ hlt
    refine ⟨key[i], by rw [getElem?_append_left hltKey, getElem?_eq_getElem hltKey], ?_⟩
    rw [getElem?_append_left (by simpa using hlt), getElem?_map,
      getElem?_eq_getElem hlt, Option.map_some, Option.some_inj] at hentry
    subst hentry
    intro r hr
    have hgroup := congrArg (fun l => l[i]?) (hkey r hr)
    simpa [groupKey, getElem?_eq_getElem hlt, getElem?_eq_getElem hltKey] using hgroup
  · have hle := Nat.le_of_not_lt hlt
    rw [getElem?_append_right (by simpa using hle), length_map,
      getElem?_map] at hentry
    obtain ⟨a, ha, rfl⟩ := Option.map_eq_some_iff.mp hentry
    rcases mapM_getElem? hvalues (i - groupBy.length) with ⟨hnone, _⟩ | ⟨a', v, ha', hv, hcall⟩
    · rw [ha] at hnone
      cases hnone
    · rw [ha] at ha'
      cases ha'
      exact ⟨v, by rw [getElem?_append_right (hlen ▸ hle), hlen, hv], hcall⟩

theorem groupTable_header {stmt : SelectStatement} {table before : Table} (h : table.Even)
    (hgroup : stmt.groupTable table = .ok before) :
    before.columns = (header table.columns stmt.groupBy stmt.aggregates).map Entry.label ∧
      ∃ gs : List (List Row), gs.Perm
      (sources table.columns stmt.groupBy stmt.aggregates table.rows) ∧
        List.Forall₂ (HeaderRow table.columns (header table.columns stmt.groupBy stmt.aggregates))
          gs before.rows := by
  unfold SelectStatement.groupTable SelectStatement.aggregating at hgroup
  unfold header sources
  split at hgroup
  · next hagg =>
    obtain ⟨rs, hrs, hbefore⟩ := bind_eq_ok.mp hgroup
    cases hbefore
    obtain ⟨hcolumns, gs, hgs, hrows⟩ := aggregateTable_groups hrs
    simp only [hagg, if_true]
    refine ⟨?_, gs, hgs, hrows.imp fun group row => headerRow_group⟩
    rw [hcolumns, map_append, map_map, map_map]
    exact congrArg₂ _ (map_id _).symm rfl
  · next hagg =>
    cases hgroup
    simp only [if_neg hagg]
    refine ⟨?_, _, Perm.refl _, ?_⟩
    · rw [map_map]
      exact (map_id _).symm
    · rw [forall₂_map_left_iff, forall₂_same]
      intro row hrow
      exact headerRow_single (h row hrow)

end Header

end Oikos.Archon.Relational
