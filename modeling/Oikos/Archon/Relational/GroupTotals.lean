/-
Counts and sums over groups.  Whether an addition that overflows panics or wraps
around depends on the build; where the sums fit, both builds return one row for
each key, the rows add up to the whole table, and their order is that of the keys.
-/
import Oikos.Archon.Relational.Grouping
import Oikos.Archon.Relational.Pipelines

namespace Oikos.Archon.Relational

open List

/-! ### Sums -/

/-- What an addition that overflows does: panic, or wrap around. -/
inductive Additions where
  | checked
  | wrapping
deriving Repr, DecidableEq

namespace Additions

/-- `ints.iter().sum()`. -/
def sum : Additions → List Int64 → Result ExecError Int64
  | .checked, ints => sumInts ints 0
  | .wrapping, ints => .ok (ints.foldl (fun acc i => acc + i) 0)

end Additions

def evalAggregateIn (additions : Additions) (func : AggregateFunc) (column : String)
    (columns : List String) (rows : List Row) : Result ExecError Value :=
  match func with
  | .sum =>
    match columns.findIdx? (· == column) with
    | none => .error (.err (.unknownColumn column))
    | some idx => do
      let ints ← columnInts rows idx
      let total ← additions.sum ints
      .ok (.int total)
  | .avg =>
    match columns.findIdx? (· == column) with
    | none => .error (.err (.unknownColumn column))
    | some idx => do
      let ints ← columnInts rows idx
      if ints.isEmpty then .ok (.int 0)
      else
        let total ← additions.sum ints
        .ok (.int (total / Int64.ofNat ints.length))
  | func => evalAggregate func column columns rows

/-- `GROUP BY` and aggregate projection in a build with these additions. -/
def aggregateTableIn (additions : Additions) (columns : List String) (rows : List Row)
    (groupBy : List String) (aggregates : List Aggregate) : Result ExecError ResultSet :=
  aggregateTableWith (fun rows a => evalAggregateIn additions a.func a.column columns rows) columns
    rows groupBy aggregates

theorem evalAggregateIn_checked (func : AggregateFunc) (column : String) (columns : List String)
    (rows : List Row) :
    evalAggregateIn .checked func column columns rows = evalAggregate func column columns rows := by
  cases func <;> rfl

/-- A build with checked additions aggregates as the executor does. -/
theorem aggregateTableIn_checked (columns : List String) (rows : List Row) (groupBy : List String)
    (aggregates : List Aggregate) :
    aggregateTableIn .checked columns rows groupBy aggregates =
      aggregateTable columns rows groupBy aggregates := by
  simp only [aggregateTableIn, aggregateTable, evalAggregateIn_checked]

/-- The number is an `i64`. -/
def InI64 (n : Int) : Prop :=
  -2 ^ 63 ≤ n ∧ n < 2 ^ 63

def total (ints : List Int64) : Int :=
  (ints.map Int64.toInt).sum

theorem total_cons (i : Int64) (ints : List Int64) : total (i :: ints) = i.toInt + total ints := by
  rw [total, map_cons, sum_cons]
  rfl

def Additions.Fits : Additions → List Int64 → Prop
  | .checked, ints => ∀ part, part <+: ints → InI64 (total part)
  | .wrapping, ints => InI64 (total ints)

section Sums

variable {additions : Additions} {ints : List Int64}

theorem Additions.Fits.total (h : additions.Fits ints) : InI64 (total ints) := by
  cases additions with
  | checked => exact h ints (prefix_refl ints)
  | wrapping => exact h

theorem toInt_ofInt_of_inI64 {n : Int} (h : InI64 n) : (Int64.ofInt n).toInt = n :=
  Int64.toInt_ofInt_of_le h.1 h.2

theorem sumInts_eq {n : Int} (h : ∀ part, part <+: ints → InI64 (n + total part)) :
    sumInts ints (Int64.ofInt n) = .ok (Int64.ofInt (n + total ints)) := by
  induction ints generalizing n with
  | nil => simp [sumInts, total]
  | cons i ints ih =>
    have hn : InI64 n := by simpa [total] using h [] nil_prefix
    have hnext : InI64 (n + i.toInt) := by
      simpa [total] using h [i] ⟨ints, rfl⟩
    have hrest : ∀ part, part <+: ints → InI64 (n + i.toInt + total part) := by
      intro part hpart
      have hcons := h (i :: part) (cons_prefix_cons.mpr ⟨rfl, hpart⟩)
      rwa [total_cons, ← add_assoc] at hcons
    rw [sumInts, toInt_ofInt_of_inI64 hn, if_pos (And.intro hnext.1 hnext.2), ih hrest, total_cons,
      add_assoc]

theorem foldl_add_eq (n : Int) :
    ints.foldl (fun acc i => acc + i) (Int64.ofInt n) = Int64.ofInt (n + total ints) := by
  induction ints generalizing n with
  | nil => simp [total]
  | cons i ints ih =>
    have hadd : Int64.ofInt n + i = Int64.ofInt (n + i.toInt) := by
      rw [Int64.ofInt_add, Int64.ofInt_toInt]
    rw [foldl_cons, hadd, ih, total_cons, add_assoc]

theorem Additions.sum_eq (h : additions.Fits ints) :
    additions.sum ints = .ok (Int64.ofInt (Relational.total ints)) := by
  cases additions with
  | checked =>
    have hzero := @sumInts_eq ints 0 fun part hpart => by
      rw [zero_add]
      exact h part hpart
    rwa [zero_add] at hzero
  | wrapping =>
    have hzero := @foldl_add_eq ints 0
    rw [zero_add] at hzero
    exact congrArg _ hzero

end Sums

/-! ### Aggregates of a group -/

section Aggregates

variable {additions : Additions} {columns groupBy : List String} {rows : List Row}
  {aggregates : List Aggregate} {a : Aggregate} {name : String}

def intAt (columns : List String) (name : String) (row : Row) : Option Int64 :=
  match valueAt columns name row with
  | some (.int i) => some i
  | _ => none

/-- The integers in a named column. -/
def intsAt (columns : List String) (name : String) (rows : List Row) : List Int64 :=
  rows.filterMap (intAt columns name)

def contribution (columns : List String) (a : Aggregate) (row : Row) : Int :=
  if a.func = .count then 1 else ((intAt columns a.column row).map Int64.toInt).getD 0

def exactTotal (columns : List String) (a : Aggregate) (rows : List Row) : Int :=
  (rows.map (contribution columns a)).sum

/-- A list of `COUNT(*)` and of `SUM` over existing columns. -/
def CountsAndSums (columns : List String) (aggregates : List Aggregate) : Prop :=
  ∀ a ∈ aggregates, a.func = .count ∨ a.func = .sum ∧ a.column ∈ columns

def SumsFit (additions : Additions) (columns : List String) (rows : List Row)
    (groupBy : List String) (aggregates : List Aggregate) : Prop :=
  ∀ a ∈ aggregates, a.func = .sum → additions.Fits (intsAt columns a.column rows) ∧
    ∀ key, additions.Fits
      (intsAt columns a.column (rows.filter fun row => mapKey columns groupBy row = key))

theorem total_intsAt (hfunc : a.func = .sum) (rows : List Row) :
    total (intsAt columns a.column rows) = exactTotal columns a rows := by
  have hcount : ¬ a.func = .count := by
    rw [hfunc]
    exact nofun
  induction rows with
  | nil => rfl
  | cons row rows ih =>
    rw [exactTotal, map_cons, sum_cons, ← exactTotal, ← ih, intsAt,
      filterMap_cons, contribution, if_neg hcount]
    cases hint : intAt columns a.column row with
    | none => exact (zero_add _).symm
    | some i => exact total_cons i _

theorem exactTotal_count (hfunc : a.func = .count) (rows : List Row) :
    exactTotal columns a rows = rows.length := by
  induction rows with
  | nil => rfl
  | cons row rows ih =>
    rw [exactTotal, map_cons, sum_cons, ← exactTotal, ih, contribution, if_pos hfunc,
      length_cons]
    omega

theorem columnInts_intsAt {idx : Nat} (hidx : columns.findIdx? (· == name) = some idx)
    (heven : Table.Even ⟨columns, rows⟩) :
    columnInts rows idx = .ok (intsAt columns name rows) := by
  have hlt := (findIdx?_eq_some_iff_getElem.mp hidx).1
  have hread : ∀ row ∈ rows, ∃ v, (index row idx : Result ExecError Value) = .ok v :=
    fun row hrow =>
    index_of_lt (heven row hrow ▸ hlt)
  obtain ⟨values, hvalues⟩ := mapM_of_ok hread
  rw [columnInts, hvalues, ok_bind]
  congr 1
  have hall := mapM_eq_ok.mp hvalues
  clear hvalues hread heven
  induction hall with
  | nil => rfl
  | @cons row v rows values hv _ ih =>
    have hvalue : valueAt columns name row = some v := by
      rw [valueAt, hidx, Option.bind_some]
      exact index_eq_ok_iff.mp hv
    rw [intsAt, filterMap_cons, filterMap_cons, intAt, hvalue, ih]
    cases v <;> rfl

theorem evalAggregateIn_eq (ha : a.func = .count ∨ a.func = .sum ∧ a.column ∈ columns)
    (heven : Table.Even ⟨columns, rows⟩)
    (hfit : a.func = .sum → additions.Fits (intsAt columns a.column rows)) :
    evalAggregateIn additions a.func a.column columns rows =
      .ok (.int (Int64.ofInt (exactTotal columns a rows))) := by
  rcases ha with hcount | ⟨hsum, hmem⟩
  · rw [exactTotal_count hcount, hcount, Int64.ofInt_eq_ofNat]
    rfl
  · obtain ⟨idx, hidx⟩ := findIdx?_of_mem hmem
    rw [hsum, evalAggregateIn]
    simp only [hidx]
    rw [columnInts_intsAt hidx heven, ok_bind, Additions.sum_eq (hfit hsum), ok_bind,
      total_intsAt hsum]

theorem exactTotal_perm {rows' : List Row} (h : rows'.Perm rows) (a : Aggregate) :
    exactTotal columns a rows' = exactTotal columns a rows :=
  (h.map _).sum_eq

/-! ### Groups -/

theorem readKey_eq {indices : List Nat} {row : Row} (hrow : row.length = columns.length)
    (hindices : columnIndices columns groupBy = .ok indices) :
    (indices.mapM fun i => (index row i : Result ExecError Value)) =
      .ok (mapKey columns groupBy row) := by
  have hread : ∀ i ∈ indices, ∃ v, (index row i : Result ExecError Value) = .ok v := fun i hi =>
    index_of_lt (hrow ▸ columnIndices_lt hindices i hi)
  obtain ⟨key, hkey⟩ := mapM_of_ok hread
  have hvalues := values_of_indices (columnIndices_eq_ok hindices) hkey
  rw [hkey, mapKey_of_groupKey (groupKey_of_values hvalues)]

def groupRow (columns groupBy : List String) (aggregates : List Aggregate) (rows : List Row)
    (key : List Value) : Row :=
  key ++ aggregates.map fun a =>
    .int (Int64.ofInt (exactTotal columns a
      (rows.filter fun row => mapKey columns groupBy row = key)))

theorem aggregateTableIn_eq (hne : groupBy ≠ []) (hkeys : ∀ c ∈ groupBy, c ∈ columns)
    (hlist : CountsAndSums columns aggregates) (heven : Table.Even ⟨columns, rows⟩)
    (hfit : SumsFit additions columns rows groupBy aggregates) :
    ∃ ks : List (List Value), ks.Perm (rows.map (mapKey columns groupBy)).dedup ∧
      ks.Pairwise (fun k l => List.compareLex Value.cmp k l = .lt) ∧
      aggregateTableIn additions columns rows groupBy aggregates =
        .ok ⟨groupBy ++ aggregates.map Aggregate.aliasName,
          ks.map (groupRow columns groupBy aggregates rows)⟩ := by
  obtain ⟨indices, hindices⟩ := columnIndices_of_mem hkeys
  have hkeyed : (rows.mapM fun row => do
      let key ← indices.mapM fun i => (index row i : Result ExecError Value)
      .ok (key, row)) = .ok (rows.map fun row => (mapKey columns groupBy row, row)) := by
    apply mapM_eq_map
    intro row hrow
    rw [readKey_eq (heven row hrow) hindices, ok_bind]
  obtain ⟨ks, hperm, hlistEq⟩ := @toList_foldl_gather _ _ (List.compareLex Value.cmp) _ _ _
    (rows.map fun row => (mapKey columns groupBy row, row))
  rw [map_map] at hperm
  have hsorted := @Std.TreeMap.ordered_keys_toList _ _ (List.compareLex Value.cmp)
    ((rows.map fun row => (mapKey columns groupBy row, row)).foldl gather ∅) _
  rw [hlistEq, pairwise_map] at hsorted
  refine ⟨ks, hperm, hsorted, ?_⟩
  have hout : ∀ k ∈ ks, (do
      let first ← (index (rows.filter fun row => mapKey columns groupBy row = k) 0 :
        Result ExecError Row)
      let key ← indices.mapM fun i => index first i
      let values ← aggregates.mapM fun a => evalAggregateIn additions a.func a.column columns
        (rows.filter fun row => mapKey columns groupBy row = k)
      .ok (key ++ values)) = (.ok (groupRow columns groupBy aggregates rows k) :
        Result ExecError Row) := by
    intro k hk
    obtain ⟨row, hrow, hrowkey⟩ := mem_map.mp (mem_dedup.mp (hperm.subset hk))
    have hmem : row ∈ rows.filter fun row => mapKey columns groupBy row = k :=
      mem_filter.mpr ⟨hrow, decide_eq_true hrowkey⟩
    obtain ⟨first, hfirst⟩ := @index_of_lt ExecError _ _ _ (length_pos_of_mem hmem)
    have hfirstMem := mem_of_getElem? (index_eq_ok_iff.mp hfirst)
    obtain ⟨hfirstRow, hfirstKey⟩ := mem_filter.mp hfirstMem
    have hvalues : (aggregates.mapM fun a => evalAggregateIn additions a.func a.column columns
        (rows.filter fun row => mapKey columns groupBy row = k)) =
        .ok (aggregates.map fun a => .int (Int64.ofInt (exactTotal columns a
          (rows.filter fun row => mapKey columns groupBy row = k)))) := by
      apply mapM_eq_map
      intro a ha
      exact evalAggregateIn_eq (hlist a ha)
        (fun row hrow => heven row (mem_filter.mp hrow).1)
        fun hsum => (hfit a ha hsum).2 k
    rw [hfirst, ok_bind, readKey_eq (heven first hfirstRow) hindices, ok_bind, hvalues, ok_bind,
      of_decide_eq_true hfirstKey, groupRow]
  rw [aggregateTableIn, aggregateTableWith, if_neg (by simpa using hne), hindices, ok_bind, hkeyed,
    ok_bind]
  dsimp only
  change (mapM _ (foldl gather _ _).toList >>= _) = _
  rw [hlistEq, mapM_map, mapM_eq_map (g := groupRow columns groupBy aggregates rows), ok_bind]
  intro k hk
  dsimp only [Function.comp]
  rw [valuesOf_map]
  exact hout k hk

theorem keys_unique {ks ks' : List (List Value)} (hperm : ks.Perm ks')
    (h : ks.Pairwise fun k l => List.compareLex Value.cmp k l = .lt)
    (h' : ks'.Pairwise fun k l => List.compareLex Value.cmp k l = .lt) : ks = ks' := by
  refine Perm.eq_of_pairwise ?_ h h' hperm
  intro k l _ _ hkl hlk
  exact absurd hlk (Std.OrientedCmp.not_lt_of_lt hkl)

theorem groupRow_perm {rows' : List Row} (h : rows'.Perm rows) :
    groupRow columns groupBy aggregates rows' = groupRow columns groupBy aggregates rows := by
  funext key
  rw [groupRow, groupRow]
  congr 1
  refine map_congr_left fun a _ => ?_
  rw [exactTotal_perm (h.filter _)]

/-- The result has one row for each key of the table, and its counts and sums add
up to those of the whole table, `totals`. -/
structure AddsUp (columns : List String) (rows : List Row) (groupBy : List String)
    (aggregates : List Aggregate) (rs : ResultSet) (totals : List Value) : Prop where
  distinct : (rs.rows.map fun out => out.take groupBy.length).Pairwise fun k l =>
    List.compareLex Value.cmp k l ≠ .eq
  complete : ∀ row ∈ rows, ∃ out ∈ rs.rows,
    List.compareLex Value.cmp (mapKey columns groupBy row) (out.take groupBy.length) = .eq
  sound : ∀ out ∈ rs.rows, ∃ row ∈ rows,
    List.compareLex Value.cmp (mapKey columns groupBy row) (out.take groupBy.length) = .eq
  adds : ∀ j a, aggregates[j]? = some a → ∃ (cells : List Int64) (whole : Int64),
    rs.rows.map (fun out => out[groupBy.length + j]?) = cells.map (fun c => some (.int c)) ∧
      totals[j]? = some (.int whole) ∧ total cells = whole.toInt ∧
      (a.func = .count → whole.toInt = rows.length)

theorem length_mapKey (row : Row) : (mapKey columns groupBy row).length = groupBy.length := by
  rw [mapKey, groupKey, length_map, length_map]

theorem exactTotal_inI64 (ha : a.func = .count ∨ a.func = .sum ∧ a.column ∈ columns)
    (hlen : rows.length < 2 ^ 63)
    (hfit : a.func = .sum → additions.Fits (intsAt columns a.column rows)) :
    InI64 (exactTotal columns a rows) := by
  rcases ha with hcount | ⟨hsum, _⟩
  · rw [exactTotal_count hcount]
    exact ⟨by omega, by omega⟩
  · rw [← total_intsAt hsum]
    exact (hfit hsum).total

theorem groupRows_addsUp {ks : List (List Value)} {names : List String}
    (hlist : CountsAndSums columns aggregates) (hlen : rows.length < 2 ^ 63)
    (hfit : SumsFit additions columns rows groupBy aggregates)
    (hperm : ks.Perm (rows.map (mapKey columns groupBy)).dedup) :
    AddsUp columns rows groupBy aggregates
      ⟨names, ks.map (groupRow columns groupBy aggregates rows)⟩
      (aggregates.map fun a => .int (Int64.ofInt (exactTotal columns a rows))) := by
  have hlength : ∀ k ∈ ks, k.length = groupBy.length := by
    intro k hk
    obtain ⟨row, _, rfl⟩ := mem_map.mp (mem_dedup.mp (hperm.subset hk))
    exact length_mapKey row
  have htake : ∀ k ∈ ks,
      (groupRow columns groupBy aggregates rows k).take groupBy.length = k := by
    intro k hk
    rw [groupRow, ← hlength k hk, take_left]
  have hnodup : ks.Nodup := hperm.nodup_iff.mpr (nodup_dedup _)
  constructor
  · have hkeys : (ks.map (groupRow columns groupBy aggregates rows)).map
        (fun out => out.take groupBy.length) = ks := by
      rw [map_map]
      exact (map_congr_left htake).trans (map_id ks)
    rw [hkeys]
    refine hnodup.imp ?_
    intro k l hne heq
    exact hne (Std.LawfulEqCmp.eq_of_compare heq)
  · intro row hrow
    have hk : mapKey columns groupBy row ∈ ks :=
      hperm.mem_iff.mpr (mem_dedup.mpr (mem_map_of_mem hrow))
    refine ⟨_, mem_map_of_mem hk, ?_⟩
    rw [htake _ hk]
    exact Std.ReflCmp.compare_self
  · intro out hout
    obtain ⟨k, hk, rfl⟩ := mem_map.mp hout
    obtain ⟨row, hrow, rfl⟩ := mem_map.mp (mem_dedup.mp (hperm.subset hk))
    refine ⟨row, hrow, ?_⟩
    rw [htake _ hk]
    exact Std.ReflCmp.compare_self
  · intro j a hj
    have ha := mem_of_getElem? hj
    refine ⟨ks.map fun k => Int64.ofInt (exactTotal columns a
      (rows.filter fun row => mapKey columns groupBy row = k)),
      Int64.ofInt (exactTotal columns a rows), ?_, ?_, ?_, ?_⟩
    · rw [map_map, map_map]
      refine map_congr_left fun k hk => ?_
      simp only [Function.comp_apply, groupRow]
      rw [← hlength k hk, getElem?_append_right (Nat.le_add_right _ _),
        Nat.add_sub_cancel_left, getElem?_map, hj]
      rfl
    · rw [getElem?_map, hj]
      rfl
    · have hgroups : (ks.map fun k => Int64.ofInt (exactTotal columns a
          (rows.filter fun row => mapKey columns groupBy row = k))).map Int64.toInt =
          ks.map fun k => ((rows.filter fun row => mapKey columns groupBy row = k).map
            (contribution columns a)).sum := by
        rw [map_map]
        refine map_congr_left fun k _ => ?_
        refine toInt_ofInt_of_inI64
          (exactTotal_inI64 (hlist a ha) ?_ fun hsum => (hfit a ha hsum).2 k)
        exact (length_filter_le _ _).trans_lt hlen
      have hall : ∀ row ∈ rows, mapKey columns groupBy row ∈ ks := fun row hrow =>
        hperm.mem_iff.mpr (mem_dedup.mpr (mem_map_of_mem hrow))
      rw [total, hgroups, sum_over_groups hnodup (contribution columns a) hall, ← exactTotal,
        toInt_ofInt_of_inI64 (exactTotal_inI64 (hlist a ha) hlen fun hsum => (hfit a ha hsum).1)]
    · intro hcount
      rw [toInt_ofInt_of_inI64 (exactTotal_inI64 (hlist a ha) hlen fun hsum => (hfit a ha hsum).1),
        exactTotal_count hcount]

/-- Counts and sums that fit are those of the groups: one row for each key, adding
up to the whole table, whatever the order of the rows. -/
theorem group_totals (hne : groupBy ≠ []) (hkeys : ∀ c ∈ groupBy, c ∈ columns)
    (hlist : CountsAndSums columns aggregates) (heven : Table.Even ⟨columns, rows⟩)
    (hlen : rows.length < 2 ^ 63) (hfit : SumsFit additions columns rows groupBy aggregates) :
    ∃ rs totals, aggregateTableIn additions columns rows groupBy aggregates = .ok rs ∧
      aggregateTableIn additions columns rows [] aggregates =
        .ok ⟨aggregates.map Aggregate.aliasName, [totals]⟩ ∧
      AddsUp columns rows groupBy aggregates rs totals ∧
      ∀ rows' : List Row, rows'.Perm rows →
        SumsFit additions columns rows' groupBy aggregates →
        aggregateTableIn additions columns rows' groupBy aggregates = .ok rs := by
  obtain ⟨ks, hperm, hsorted, hrun⟩ := aggregateTableIn_eq hne hkeys hlist heven hfit
  refine ⟨_, _, hrun, ?_, groupRows_addsUp hlist hlen hfit hperm, ?_⟩
  · have htotals : (aggregates.mapM fun a =>
        evalAggregateIn additions a.func a.column columns rows) =
        .ok (aggregates.map fun a => .int (Int64.ofInt (exactTotal columns a rows))) := by
      apply mapM_eq_map
      intro a ha
      exact evalAggregateIn_eq (hlist a ha) heven fun hsum => (hfit a ha hsum).1
    have hnil : ([] : List String).isEmpty = true := rfl
    rw [aggregateTableIn, aggregateTableWith, if_pos hnil, htotals, ok_bind]
  · intro rows' hrows' hfit'
    have heven' : Table.Even ⟨columns, rows'⟩ := fun row hrow => heven row (hrows'.subset hrow)
    obtain ⟨ks', hperm', hsorted', hrun'⟩ := aggregateTableIn_eq hne hkeys hlist heven' hfit'
    have hkeysPerm : ks'.Perm ks :=
      hperm'.trans (((hrows'.map _).dedup).trans hperm.symm)
    rw [hrun', keys_unique hkeysPerm hsorted' hsorted, groupRow_perm hrows']

end Aggregates

/-- `SELECT k, COUNT(*) AS n, SUM(v) AS s FROM t GROUP BY k` on two rows. -/
theorem group_totals_two_rows :
    ∃ rs totals,
      aggregateTableIn .checked ["k", "v"] [[.int 1, .int 10], [.int 1, .int 5]] ["k"]
        [⟨"n", .count, "*"⟩, ⟨"s", .sum, "v"⟩] = .ok rs ∧
      AddsUp ["k", "v"] [[.int 1, .int 10], [.int 1, .int 5]] ["k"]
        [⟨"n", .count, "*"⟩, ⟨"s", .sum, "v"⟩] rs totals := by
  have hall : ∀ part ∈ inits [(10 : Int64), 5],
      -2 ^ 63 ≤ total part ∧ total part < 2 ^ 63 := by
    decide
  have hfits : ∀ ints, ints <+: [(10 : Int64), 5] → Additions.checked.Fits ints :=
    fun ints hints part hpart => hall part ((mem_inits _ _).mpr (hpart.trans hints))
  have hsums : SumsFit .checked ["k", "v"] [[.int 1, .int 10], [.int 1, .int 5]] ["k"]
      [⟨"n", .count, "*"⟩, ⟨"s", .sum, "v"⟩] := by
    intro a ha hsum
    obtain rfl : a = ⟨"s", .sum, "v"⟩ := by
      rcases mem_cons.mp ha with rfl | ha
      · cases hsum
      · exact mem_singleton.mp ha
    refine ⟨hfits _ (prefix_refl _), ?_⟩
    intro key
    by_cases hkey : [.int 1] = key
    · subst hkey
      exact hfits _ (prefix_refl _)
    · have hempty : ([[.int 1, .int 10], [.int 1, .int 5]] : List Row).filter
          (fun row => mapKey ["k", "v"] ["k"] row = key) = [] := by
        refine filter_eq_nil_iff.mpr fun row hrow => ?_
        have hmap : mapKey ["k", "v"] ["k"] row = [.int 1] := by
          rcases mem_cons.mp hrow with rfl | hrow
          · rfl
          · obtain rfl := mem_singleton.mp hrow
            rfl
        rw [hmap]
        exact fun h => hkey (of_decide_eq_true h)
      rw [hempty]
      exact hfits _ nil_prefix
  obtain ⟨rs, totals, hrun, _, hadds, _⟩ := @group_totals .checked ["k", "v"] ["k"]
    [[.int 1, .int 10], [.int 1, .int 5]] [⟨"n", .count, "*"⟩, ⟨"s", .sum, "v"⟩] (by simp) (by simp)
    (by simp [CountsAndSums]) (by simp [Table.Even]) (by decide) hsums
  exact ⟨rs, totals, hrun, hadds⟩

end Oikos.Archon.Relational
