/-
The two ways to run a plain query: clause by clause, as the database does, and
as a plan.  They differ in what they make of `HAVING`, and in what the planner
estimates.
-/
import Oikos.Archon.Relational.SelectFrame
import Oikos.Archon.Relational.Statements

namespace Oikos.Archon.Relational

open List

/-! ### The clauses -/

namespace SelectStatement

/-- The query aggregates its rows. -/
def aggregating (stmt : SelectStatement) : Bool :=
  !stmt.groupBy.isEmpty || !stmt.aggregates.isEmpty

def clauseRows (clause : Option Expr) (table : Table) : Result ExecError Table :=
  match clause with
  | none => .ok table
  | some expr => do
    let rows ← filterRows (evalExpr expr table.columns) table.rows
    .ok ⟨table.columns, rows⟩

/-- The table that `GROUP BY` and the aggregates make. -/
def groupTable (stmt : SelectStatement) (table : Table) : Result ExecError Table :=
  if stmt.aggregating then do
    let rs ← aggregateTable table.columns table.rows stmt.groupBy stmt.aggregates
    .ok ⟨rs.columns, rs.rows⟩
  else .ok table

/-- What the query computes before `HAVING`. -/
def grouped (stmt : SelectStatement) (table : Table) : Result ExecError Table := do
  let table ← clauseRows stmt.filter table
  stmt.groupTable table

/-- The plan nodes above those of `WHERE` and `GROUP BY`. -/
def outputNode (stmt : SelectStatement) (node : PlanNode) : PlanNode :=
  let node := PlanNode.project stmt.columns stmt.star node
  let node := if stmt.orderBy.isEmpty then node else PlanNode.sort stmt.orderBy node
  stmt.limit.elim node fun n => PlanNode.limit n node

/-- The select list, `ORDER BY` and `LIMIT`. -/
def output (stmt : SelectStatement) (table : Table) : Result ExecError ResultSet :=
  executeNode table (stmt.outputNode (.scan "" false))

def holdsOrFails (expr : Expr) (columns : List String) (row : Row) : Result ExecError Bool := do
  let r ← catchErr (evalExpr expr columns row)
  .ok (match r with
    | .ok b => b
    | .error _ => false)

/-- `HAVING`, as a plan applies it: only to aggregates, and without errors. -/
def plannedHaving (stmt : SelectStatement) (table : Table) : Result ExecError Table :=
  if stmt.aggregating then
    stmt.having.elim (.ok table) fun hv => do
      let rows ← filterRows (holdsOrFails hv table.columns) table.rows
      .ok ⟨table.columns, rows⟩
  else .ok table

/-- The query as the database runs it. -/
def byClauses (stmt : SelectStatement) (table : Table) : Result ExecError ResultSet := do
  let table ← stmt.grouped table
  let table ← clauseRows stmt.having table
  stmt.output table

/-- The query as its plan runs it. -/
def byPlan (stmt : SelectStatement) (table : Table) : Result ExecError ResultSet := do
  let table ← stmt.grouped table
  let table ← stmt.plannedHaving table
  stmt.output table

def planned (stmt : SelectStatement) (stats : TableStats) (table : Table) :
    Result ExecError ResultSet := do
  let plan ← planSelect stmt stats
  execute plan table

/-- The estimate of the planner fits in 64 bits. -/
def Plannable (stmt : SelectStatement) (stats : TableStats) : Prop :=
  ∀ expr, stmt.filter = some expr → ∃ num den,
    (selectivity expr : Result ExecError (Nat × Nat)) = .ok (num, den) ∧
      stats.rowCount * num < 2 ^ 64

/-! ### Plans -/

section Plans

variable {stmt : SelectStatement} {stats : TableStats} {table : Table}

theorem executeNode_outputNode (stmt : SelectStatement) (table : Table) (node : PlanNode) :
    executeNode table (stmt.outputNode node) =
      (executeNode table node >>= fun rs => stmt.output ⟨rs.columns, rs.rows⟩) := by
  have hproject : ∀ columns star, executeNode table (.project columns star node) =
      (executeNode table node >>= fun rs =>
        executeNode ⟨rs.columns, rs.rows⟩ (.project columns star (.scan "" false))) := by
    intro columns star
    simp only [executeNode, ok_bind]
  have hsort : executeNode table (if stmt.orderBy.isEmpty then
        .project stmt.columns stmt.star node
      else .sort stmt.orderBy (.project stmt.columns stmt.star node)) =
      (executeNode table node >>= fun rs => executeNode ⟨rs.columns, rs.rows⟩
        (if stmt.orderBy.isEmpty then .project stmt.columns stmt.star (.scan "" false)
        else .sort stmt.orderBy (.project stmt.columns stmt.star (.scan "" false)))) := by
    split
    · exact hproject stmt.columns stmt.star
    · simp only [executeNode.eq_5, hproject, bind_assoc]
  cases hlimit : stmt.limit with
  | none => simpa only [output, outputNode, hlimit, Option.elim_none] using hsort
  | some n =>
    simp only [output, outputNode, hlimit, Option.elim_some, executeNode.eq_4, hsort, bind_assoc]

/-- The nodes of `WHERE` and `GROUP BY`. -/
def inputNode (stmt : SelectStatement) (node : PlanNode) : PlanNode :=
  let node := stmt.filter.elim node fun expr => PlanNode.filter expr node
  if stmt.aggregating then .aggregate stmt.groupBy stmt.aggregates stmt.having node else node

theorem executeNode_inputNode (stmt : SelectStatement) (table : Table) (name : String)
    (vectorized : Bool) :
    executeNode table (stmt.inputNode (.scan name vectorized)) =
      (stmt.grouped table >>= fun table => stmt.plannedHaving table >>= fun table =>
        .ok ⟨table.columns, table.rows⟩) := by
  have hfilter : executeNode table
      (stmt.filter.elim (.scan name vectorized) fun expr => .filter expr (.scan name vectorized)) =
      (clauseRows stmt.filter table >>= fun table => .ok ⟨table.columns, table.rows⟩) := by
    cases stmt.filter with
    | none => rfl
    | some expr =>
      simp only [Option.elim_some, executeNode, clauseRows, ok_bind, bind_assoc]
  cases hagg : stmt.aggregating with
  | false =>
    simp only [inputNode, hagg, Bool.false_eq_true, if_false, hfilter, grouped, groupTable,
      plannedHaving, bind_assoc, ok_bind]
  | true =>
    simp only [inputNode, hagg, if_true, executeNode.eq_6, hfilter, grouped, groupTable,
      plannedHaving, bind_assoc, ok_bind]
    refine bind_congr_ok fun t _ => bind_congr_ok fun rs _ => ?_
    cases stmt.having with
    | none => rfl
    | some hv =>
      simp only [Option.elim_some, bind_assoc, ok_bind]
      rfl

theorem planSelect_root {E : Type} (h : ∀ expr, stmt.filter = some expr → ∃ num den,
      (selectivity expr : Result E (Nat × Nat)) = .ok (num, den) ∧
        stats.rowCount * num < 2 ^ 64) :
    ∃ plan, (planSelect stmt stats : Result E Plan) = .ok plan ∧
      ∃ vectorized, plan.root =
        stmt.outputNode (stmt.inputNode (.scan stmt.table.name vectorized)) := by
  cases hfilter : stmt.filter with
  | none =>
    simp only [planSelect, hfilter, ok_bind]
    refine ⟨_, rfl, decide (stats.rowCount ≥ vectorizeRowThreshold), ?_⟩
    simp only [outputNode, inputNode, aggregating, hfilter, Option.elim_none]
    cases stmt.limit <;> cases !stmt.groupBy.isEmpty || !stmt.aggregates.isEmpty <;> rfl
  | some expr =>
    obtain ⟨num, den, hsel, hfit⟩ := h expr hfilter
    simp only [planSelect, hfilter, hsel, ok_bind, checkedU64, hfit, if_true]
    refine ⟨_, rfl, decide (stats.rowCount ≥ vectorizeRowThreshold), ?_⟩
    simp only [outputNode, inputNode, aggregating, hfilter, Option.elim_some]
    cases stmt.limit <;> cases !stmt.groupBy.isEmpty || !stmt.aggregates.isEmpty <;> rfl

theorem planned_eq (h : stmt.Plannable stats) (table : Table) :
    stmt.planned stats table = stmt.byPlan table := by
  obtain ⟨plan, hplan, vectorized, hroot⟩ := planSelect_root h
  rw [planned, hplan, ok_bind, execute, hroot, executeNode_outputNode,
    executeNode_inputNode, byPlan]
  simp only [bind_assoc, ok_bind]

def IsPanic (stop : Stop ExecError) : Prop :=
  stop = .panic

theorem checkedU64_panics (n : Nat) : Stops IsPanic (checkedU64 n) := by
  unfold checkedU64
  split
  · exact Stops.ok _
  · exact Stops.error rfl

theorem selectivity_panics : ∀ expr : Expr, Stops IsPanic (selectivity expr)
  | .and l r => by
    apply Stops.bind (selectivity_panics l)
    intro p _
    apply Stops.bind (selectivity_panics r)
    intro q _
    apply Stops.bind (checkedU64_panics _)
    intro num _
    exact Stops.bind (checkedU64_panics _) fun den _ => Stops.ok _
  | .or l r => by
    apply Stops.bind (selectivity_panics l)
    intro p _
    apply Stops.bind (selectivity_panics r)
    intro q _
    apply Stops.bind (checkedU64_panics _)
    intro ad _
    apply Stops.bind (checkedU64_panics _)
    intro cb _
    apply Stops.bind (checkedU64_panics _)
    intro total _
    apply Stops.bind (checkedU64_panics _)
    intro both _
    dsimp only
    split
    · rw [ok_bind]
      exact Stops.bind (checkedU64_panics _) fun den _ => Stops.ok _
    · exact Stops.error rfl
  | .not inner => Stops.bind (selectivity_panics inner) fun p _ => Stops.ok _
  | .cmp _ op _ => by cases op <;> exact Stops.ok _
  | .cmpColumn _ op _ => by cases op <;> exact Stops.ok _
  | .isNull .. => Stops.ok _
  | .like .. => Stops.ok _
  | .inInt .. => Stops.ok _
  | .betweenInt .. => Stops.ok _
  | .exists _ => Stops.ok _
  | .inSubquery .. => Stops.ok _
  | .scalarCmp .. => Stops.ok _
  | .agg .. => Stops.ok _

theorem planned_of_not_plannable (h : ¬ stmt.Plannable stats) (table : Table) :
    stmt.planned stats table = .error .panic := by
  simp only [Plannable, not_forall] at h
  obtain ⟨expr, hfilter, h⟩ := h
  simp only [planned, planSelect, hfilter]
  cases hsel : (selectivity expr : Result ExecError (Nat × Nat)) with
  | ok p =>
    have hfit : ¬ stats.rowCount * p.1 < 2 ^ 64 := fun hfit => h ⟨p.1, p.2, hsel, hfit⟩
    simp only [ok_bind, checkedU64, hfit, if_false, error_bind]
  | error stop =>
    simp only [error_bind]
    rw [selectivity_panics expr stop hsel]

end Plans

end SelectStatement

/-! ### Rows as long as the header -/

def Table.Even (table : Table) : Prop :=
  ∀ row ∈ table.rows, row.length = table.columns.length

def IsErr (stop : Stop ExecError) : Prop :=
  ∃ e, stop = .err e

section Even

variable {columns : List String} {row : Row} {rows kept : List Row} {table before : Table}
  {stmt : SelectStatement}

theorem findInScopes_single {p : String → Bool} {idx : Nat} {r : Row}
    (h : findInScopes p [(columns, row)] = some (idx, r)) : r = row ∧ idx < columns.length := by
  simp only [findInScopes] at h
  split at h
  · next i hi =>
    cases h
    exact ⟨rfl, (findIdx?_eq_some_iff_getElem.mp hi).1⟩
  · cases h

theorem findValue_even {E : Type} (h : row.length = columns.length) (name : String) :
    ∃ v, (findValue name columns row [] : Result E (Option Value)) = .ok v := by
  unfold findValue
  dsimp only
  split
  · exact ⟨none, rfl⟩
  · next idx r hfound =>
    have hin : r = row ∧ idx < columns.length := by
      split at hfound
      · next i hi =>
        cases hfound
        exact ⟨rfl, (findIdx?_eq_some_iff_getElem.mp hi).1⟩
      · split at hfound
        · exact findInScopes_single hfound
        · exact findInScopes_single hfound
    obtain ⟨rfl, hlt⟩ := hin
    obtain ⟨v, hv⟩ := index_of_lt (h ▸ hlt)
    exact ⟨some v, by rw [hv, ok_bind]⟩

theorem column_errs_of_even (h : row.length = columns.length) (name : String) :
    Stops IsErr (column name columns row []) := by
  obtain ⟨v, hv⟩ := findValue_even h name
  rw [column, hv, ok_bind]
  cases v with
  | none => exact Stops.error ⟨_, rfl⟩
  | some v => exact Stops.ok v

theorem evalExprScoped_errs_of_even (h : row.length = columns.length) :
    ∀ expr : Expr, Stops IsErr (evalExprScoped columns row [] expr)
  | .and l r => by
    apply Stops.bind (evalExprScoped_errs_of_even h l)
    intro b _
    cases b with
    | true => exact evalExprScoped_errs_of_even h r
    | false => exact Stops.ok false
  | .or l r => by
    apply Stops.bind (evalExprScoped_errs_of_even h l)
    intro b _
    cases b with
    | true => exact Stops.ok true
    | false => exact evalExprScoped_errs_of_even h r
  | .not inner => Stops.bind (evalExprScoped_errs_of_even h inner) fun b _ => Stops.ok _
  | .cmp name op value => by
    apply Stops.bind (column_errs_of_even h name)
    intro v _
    cases v <;> cases value <;> first | exact Stops.ok _ | exact Stops.error ⟨_, rfl⟩
  | .cmpColumn left op right => by
    apply Stops.bind (column_errs_of_even h left)
    intro v _
    apply Stops.bind (column_errs_of_even h right)
    intro w _
    cases v <;> cases w <;> first | exact Stops.ok _ | exact Stops.error ⟨_, rfl⟩
  | .isNull name negated => Stops.bind (column_errs_of_even h name) fun v _ => Stops.ok _
  | .like name pattern => by
    apply Stops.bind (column_errs_of_even h name)
    intro v _
    cases v <;> exact Stops.ok _
  | .inInt name values => by
    apply Stops.bind (column_errs_of_even h name)
    intro v _
    cases v <;> exact Stops.ok _
  | .betweenInt name low high => by
    apply Stops.bind (column_errs_of_even h name)
    intro v _
    cases v <;> exact Stops.ok _
  | .agg func name => Stops.bind (column_errs_of_even h _) fun v _ => Stops.ok _
  | .exists _ => Stops.error ⟨_, rfl⟩
  | .inSubquery .. => Stops.error ⟨_, rfl⟩
  | .scalarCmp .. => Stops.error ⟨_, rfl⟩

theorem filterRows_sublist {E : Type} {p : Row → Result E Bool} (h : filterRows p rows = .ok kept) :
    kept.Sublist rows := by
  induction rows generalizing kept with
  | nil =>
    cases h
    exact Sublist.refl []
  | cons row rows ih =>
    simp only [filterRows, bind_eq_ok] at h
    obtain ⟨keep, _, rest, hrest, hkept⟩ := h
    cases hkept
    cases keep with
    | true => exact (ih hrest).cons_cons row
    | false => exact (ih hrest).cons row

theorem aggregateTable_even {groupBy : List String} {aggregates : List Aggregate} {rs : ResultSet}
    (h : aggregateTable columns rows groupBy aggregates = .ok rs) :
    rs.columns = groupBy ++ aggregates.map Aggregate.aliasName ∧
      ∀ row ∈ rs.rows, row.length = rs.columns.length := by
  unfold aggregateTable aggregateTableWith at h
  split at h
  · next hempty =>
    obtain ⟨values, hvalues, hrs⟩ := bind_eq_ok.mp h
    cases hrs
    obtain rfl := List.isEmpty_iff.mp hempty
    constructor
    · rfl
    · intro row hrow
      obtain rfl := mem_singleton.mp hrow
      simp only [length_map, length_of_mapM hvalues]
  · obtain ⟨indices, hindices, h⟩ := bind_eq_ok.mp h
    obtain ⟨keyed, _, h⟩ := bind_eq_ok.mp h
    obtain ⟨outRows, hout, h⟩ := bind_eq_ok.mp h
    cases h
    constructor
    · rfl
    · intro row hrow
      obtain ⟨p, _, hp⟩ := exists_of_mem_mapM hout hrow
      obtain ⟨first, _, hp⟩ := bind_eq_ok.mp hp
      obtain ⟨key, hkey, hp⟩ := bind_eq_ok.mp hp
      obtain ⟨values, hvalues, hp⟩ := bind_eq_ok.mp hp
      cases hp
      simp only [length_append, length_map, length_of_mapM hkey, length_of_mapM hvalues,
        length_of_mapM hindices]

theorem clauseRows_eq_ok {clause : Option Expr}
    (h : SelectStatement.clauseRows clause table = .ok before) :
    before.columns = table.columns ∧ before.rows.Sublist table.rows := by
  cases clause with
  | none =>
    cases h
    exact ⟨rfl, Sublist.refl _⟩
  | some expr =>
    obtain ⟨kept, hkept, hbefore⟩ := bind_eq_ok.mp h
    cases hbefore
    exact ⟨rfl, filterRows_sublist hkept⟩

theorem clauseRows_even (h : table.Even) {clause : Option Expr}
    (hclause : SelectStatement.clauseRows clause table = .ok before) : before.Even := by
  obtain ⟨hcolumns, hsub⟩ := clauseRows_eq_ok hclause
  intro row hrow
  rw [hcolumns]
  exact h row (hsub.subset hrow)

theorem grouped_even (h : table.Even) (hcols : table.columns ≠ [])
    (hgroup : stmt.grouped table = .ok before) : before.Even ∧ before.columns ≠ [] := by
  obtain ⟨kept, hkept, hgroup⟩ := bind_eq_ok.mp hgroup
  unfold SelectStatement.groupTable at hgroup
  split at hgroup
  · next hagg =>
    obtain ⟨rs, hrs, hbefore⟩ := bind_eq_ok.mp hgroup
    cases hbefore
    obtain ⟨hcolumns, heven⟩ := aggregateTable_even hrs
    refine ⟨heven, ?_⟩
    simp only [hcolumns]
    intro hnil
    obtain ⟨hgroupBy, haggregates⟩ := append_eq_nil_iff.mp hnil
    simp [SelectStatement.aggregating, hgroupBy, map_eq_nil_iff.mp haggregates] at hagg
  · cases hgroup
    exact ⟨clauseRows_even h hkept, by rw [(clauseRows_eq_ok hkept).1]; exact hcols⟩

def SelectStatement.Resolves (stmt : SelectStatement) (columns : List String) : Prop :=
  stmt.star = true ∨ ∀ c ∈ stmt.columns, c ∈ columns

theorem columnIndices_of_mem {names : List String} (h : ∀ c ∈ names, c ∈ columns) :
    ∃ indices, columnIndices columns names = .ok indices := by
  apply mapM_of_ok
  intro c hc
  have hany : columns.any (· == c) = true :=
    any_eq_true.mpr ⟨c, h c hc, beq_self_eq_true c⟩
  obtain ⟨i, hi⟩ := Option.isSome_iff_exists.mp (findIdx?_isSome.trans hany)
  exact ⟨i, by rw [hi]⟩

theorem columnIndices_lt {names : List String} {indices : List Nat}
    (h : columnIndices columns names = .ok indices) : ∀ i ∈ indices, i < columns.length := by
  intro i hi
  obtain ⟨c, _, hc⟩ := exists_of_mem_mapM h hi
  split at hc
  · next idx hidx =>
    cases hc
    exact (findIdx?_eq_some_iff_getElem.mp hidx).1
  · cases hc

theorem project_even (h : table.Even) (hcols : table.columns ≠ [])
    (hlist : stmt.Resolves table.columns) :
    ∃ rs, executeNode table (.project stmt.columns stmt.star (.scan "" false)) = .ok rs ∧
      rs.rows.length = table.rows.length ∧ rs.columns ≠ [] ∧
      ∀ row ∈ rs.rows, row.length = rs.columns.length := by
  simp only [executeNode, ok_bind]
  split
  · exact ⟨_, rfl, rfl, hcols, h⟩
  · next hstar =>
    simp only [Bool.or_eq_true, not_or] at hstar
    obtain ⟨indices, hindices⟩ := columnIndices_of_mem (hlist.resolve_left hstar.1)
    have hread : ∀ row ∈ table.rows, ∃ values,
        (indices.mapM fun i => (index row i : Result ExecError Value)) = .ok values := by
      intro row hrow
      apply mapM_of_ok
      intro i hi
      exact index_of_lt (h row hrow ▸ columnIndices_lt hindices i hi)
    obtain ⟨rows, hrows⟩ := mapM_of_ok hread
    refine ⟨⟨stmt.columns, rows⟩, by rw [hindices, ok_bind, hrows, ok_bind], ?_, ?_, ?_⟩
    · exact length_of_mapM hrows
    · exact fun hnil => hstar.2 (List.isEmpty_iff.mpr hnil)
    · intro row hrow
      obtain ⟨source, _, hvalues⟩ := exists_of_mem_mapM hrows hrow
      rw [length_of_mapM hvalues, length_of_mapM hindices]

theorem cmpRows_even {keys : List (Nat × Bool)} {a b : Row} (ha : ∀ k ∈ keys, k.1 < a.length)
    (hb : ∀ k ∈ keys, k.1 < b.length) : (cmpRows keys a b).isSome := by
  induction keys with
  | nil => rfl
  | cons k keys ih =>
    have hx := getElem?_eq_getElem (ha k mem_cons_self)
    have hy := getElem?_eq_getElem (hb k mem_cons_self)
    have hrest := ih (fun k hk => ha k (mem_cons_of_mem _ hk))
      (fun k hk => hb k (mem_cons_of_mem _ hk))
    rw [cmpRows, hx, hy]
    simp only [Option.bind_eq_bind, Option.bind_some]
    generalize (if k.2 = true then _ else _ : Ordering) = ord
    split
    · exact hrest
    · rfl

theorem sortRows_even {keys : List (Nat × Bool)} {n : Nat} (hkeys : ∀ k ∈ keys, k.1 < n)
    (hrows : ∀ row ∈ rows, row.length = n) :
    ∃ sorted, (sortRows keys rows : Result ExecError (List Row)) = .ok sorted ∧
      sorted.length = rows.length := by
  have hpair : rows.Pairwise fun a b => (cmpRows keys a b).isSome := by
    apply Pairwise.imp_of_mem _ (pairwise_of_forall fun _ _ => trivial)
    intro a b ha hb _
    exact cmpRows_even (fun k hk => hrows a ha ▸ hkeys k hk) (fun k hk => hrows b hb ▸ hkeys k hk)
  exact ⟨_, if_pos hpair, length_mergeSort rows⟩

theorem output_even (h : table.Even) (hcols : table.columns ≠ [])
    (hlist : stmt.Resolves table.columns) :
    ∃ rs, stmt.output table = .ok rs ∧
      (stmt.limit = none → rs.rows.length = table.rows.length) := by
  obtain ⟨projected, hproject, hlen, hne, heven⟩ := project_even h hcols hlist
  have hsort : ∃ rs, executeNode table (if stmt.orderBy.isEmpty then
        .project stmt.columns stmt.star (.scan "" false)
      else .sort stmt.orderBy (.project stmt.columns stmt.star (.scan "" false))) = .ok rs ∧
      rs.rows.length = table.rows.length := by
    split
    · exact ⟨projected, hproject, hlen⟩
    · have hkeys : ∀ k ∈ stmt.orderBy.map fun ob =>
          ((projected.columns.findIdx? (· == ob.column)).getD 0, ob.descending),
          k.1 < projected.columns.length := by
        intro k hk
        obtain ⟨ob, _, rfl⟩ := mem_map.mp hk
        cases hfind : projected.columns.findIdx? (· == ob.column) with
        | none => exact length_pos_iff.mpr hne
        | some i => exact (findIdx?_eq_some_iff_getElem.mp hfind).1
      obtain ⟨sorted, hsorted, hlen'⟩ := sortRows_even hkeys heven
      refine ⟨⟨projected.columns, sorted⟩, ?_, hlen'.trans hlen⟩
      simp only [executeNode.eq_5, hproject, ok_bind, hsorted]
  obtain ⟨rs, hrs, hrslen⟩ := hsort
  cases hlimit : stmt.limit with
  | none =>
    refine ⟨rs, ?_, fun _ => hrslen⟩
    simpa only [SelectStatement.output, SelectStatement.outputNode, hlimit, Option.elim_none]
      using hrs
  | some n =>
    refine ⟨⟨rs.columns, rs.rows.take n.toNat⟩, ?_, fun hnone => by cases hnone⟩
    simp only [SelectStatement.output, SelectStatement.outputNode, hlimit, Option.elim_some,
      executeNode.eq_4, hrs, ok_bind]

end Even

/-! ### The database -/

section Clauses

variable {run : RunSelect}

theorem mapErr_bind {E E' : Type} {α β : Type} (g : E → E') (x : Result E α)
    (f : α → Result E β) : mapErr g (x >>= f) = (mapErr g x >>= fun a => mapErr g (f a)) := by
  cases x with
  | ok a => rfl
  | error stop => cases stop <;> rfl

theorem mapErr_filterRows {E E' : Type} (g : E → E') (p : Row → Result E Bool) (rows : List Row) :
    mapErr g (filterRows p rows) = filterRows (fun row => mapErr g (p row)) rows := by
  induction rows with
  | nil => rfl
  | cons row rows ih =>
    simp only [filterRows, mapErr_bind, ih]
    rfl

theorem evalWhere_plain {env : WhereEnv} : ∀ {expr : Expr} (counter : Nat), expr.subqueries = [] →
    evalWhere run env expr counter =
      (mapErr DbError.ofExecError (evalExprScoped env.columns env.row env.outer expr) >>=
        fun b => .ok (b, counter))
  | .and l r, counter, h => by
    obtain ⟨hl, hr⟩ := append_eq_nil_iff.mp h
    simp only [evalWhere, evalExprScoped, evalWhere_plain counter hl, mapErr_bind, bind_assoc,
      ok_bind]
    refine bind_congr_ok fun b _ => ?_
    cases b with
    | true => exact evalWhere_plain counter hr
    | false => rfl
  | .or l r, counter, h => by
    obtain ⟨hl, hr⟩ := append_eq_nil_iff.mp h
    simp only [evalWhere, evalExprScoped, evalWhere_plain counter hl, mapErr_bind, bind_assoc,
      ok_bind]
    refine bind_congr_ok fun b _ => ?_
    cases b with
    | true => rfl
    | false => exact evalWhere_plain counter hr
  | .not inner, counter, h => by
    have hinner : inner.subqueries = [] := h
    simp only [evalWhere, evalExprScoped, evalWhere_plain counter hinner, mapErr_bind, bind_assoc,
      ok_bind]
    rfl
  | .cmp .., _, _ => rfl
  | .cmpColumn .., _, _ => rfl
  | .isNull .., _, _ => rfl
  | .like .., _, _ => rfl
  | .inInt .., _, _ => rfl
  | .betweenInt .., _, _ => rfl
  | .agg .., _, _ => rfl
  | .exists _, _, h => by cases h
  | .inSubquery .., _, h => by cases h
  | .scalarCmp .., _, h => by cases h

theorem whereHolds_plain {env : WhereEnv} {expr : Expr} (h : expr.subqueries = []) :
    whereHolds run env expr =
      mapErr DbError.ofExecError (evalExprScoped env.columns env.row env.outer expr) := by
  rw [whereHolds, evalWhere_plain 0 h]
  cases mapErr DbError.ofExecError (evalExprScoped env.columns env.row env.outer expr) <;> rfl

theorem subqueryNodes_plain : ∀ {expr : Expr}, expr.subqueries = [] → expr.subqueryNodes = []
  | .and l r, h => by
    obtain ⟨hl, hr⟩ := append_eq_nil_iff.mp h
    rw [Expr.subqueryNodes, subqueryNodes_plain hl, subqueryNodes_plain hr, append_nil]
  | .or l r, h => by
    obtain ⟨hl, hr⟩ := append_eq_nil_iff.mp h
    rw [Expr.subqueryNodes, subqueryNodes_plain hl, subqueryNodes_plain hr, append_nil]
  | .not inner, h => by
    rw [Expr.subqueryNodes]
    exact subqueryNodes_plain h
  | .cmp .., _ => rfl
  | .cmpColumn .., _ => rfl
  | .isNull .., _ => rfl
  | .like .., _ => rfl
  | .inInt .., _ => rfl
  | .betweenInt .., _ => rfl
  | .agg .., _ => rfl
  | .exists _, h => by cases h
  | .inSubquery .., h => by cases h
  | .scalarCmp .., h => by cases h

def PlainClause (clause : Option Expr) : Prop :=
  ∀ expr, clause = some expr → expr.subqueries = []

theorem applyClause_plain {clause : Option Expr} (h : PlainClause clause) (params : Params)
    (ctes : List CTE) (scopeColumns : List String) (table : Table) :
    Database.applyClause run params [] ctes scopeColumns clause table =
      mapErr DbError.ofExecError (SelectStatement.clauseRows clause table) := by
  cases clause with
  | none => rfl
  | some expr =>
    have hplain := h expr rfl
    simp only [Database.applyClause, SelectStatement.clauseRows, buildSubqueryCache,
      subqueryNodes_plain hplain, mapM_nil, mapErr_bind, mapErr_filterRows,
      whereHolds_plain hplain]
    rfl

end Clauses

/-- A query of one table without joins, common table expressions, subqueries and
vector search. -/
structure PlainOn (name : String) (stmt : SelectStatement) : Prop where
  table : ∃ aliasName, stmt.table = .named name aliasName
  joins : stmt.joins = []
  ctes : stmt.withCtes = []
  cosine : stmt.orderByCosine = none
  filter : PlainClause stmt.filter
  having : PlainClause stmt.having

/-- A query of one table without joins and common table expressions. -/
structure SingleTable (name : String) (stmt : SelectStatement) : Prop where
  table : ∃ aliasName, stmt.table = .named name aliasName
  joins : stmt.joins = []
  ctes : stmt.withCtes = []

theorem PlainOn.single {name : String} {stmt : SelectStatement} (h : PlainOn name stmt) :
    SingleTable name stmt :=
  ⟨h.table, h.joins, h.ctes⟩

namespace Database

variable {db : Database} {name : String} {stmt : SelectStatement} {columns : List String}
  {rows : List Row}

theorem runSelect_single (h : SingleTable name stmt) (hcosine : stmt.orderByCosine = none)
    (hview : assocGet db.views name = none) (fuel : Nat) (params : Params) :
    db.runSelect (fuel + 1) stmt params =
      (db.scanTable name >>= fun source =>
        applyClause (db.runSelectScoped fuel) params [] []
          (source.1.map fun c => if isQualified c then c else stmt.table.name ++ "." ++ c)
          stmt.filter ⟨source.1, source.2⟩ >>= fun table =>
        mapErr DbError.ofExecError (stmt.groupTable table) >>= fun table =>
        applyClause (db.runSelectScoped fuel) params [] [] table.columns stmt.having table >>=
        fun table => mapErr DbError.ofExecError (stmt.output table)) := by
  have hfinish : ∀ table : Table, (do
      let plan ← planSelect
        { stmt with groupBy := [], aggregates := [], having := none, filter := none }
        ⟨table.rows.length⟩
      mapErr DbError.ofExecError (Relational.execute plan table)) =
      mapErr DbError.ofExecError (stmt.output table) := by
    intro table
    obtain ⟨plan, hplan, vectorized, hroot⟩ := @SelectStatement.planSelect_root
      { stmt with groupBy := [], aggregates := [], having := none, filter := none }
      ⟨table.rows.length⟩ DbError (fun expr h => by cases h)
    rw [hplan, ok_bind, Relational.execute, hroot]
    exact congrArg _ (SelectStatement.executeNode_outputNode stmt table _)
  obtain ⟨aliasName, htable⟩ := h.table
  have hsource : db.resolveTableRefWithCtes (db.runSelectScoped fuel) [] stmt.table =
      db.scanTable name := by
    rw [htable]
    simp only [resolveTableRefWithCtes, find?_nil, hview]
  rw [runSelect, runSelectScoped]
  simp only [← hfinish]
  unfold selectBody
  simp only [hcosine, h.ctes, h.joins]
  have hctes : mergeCtes [] [] = [] := rfl
  have hvalid : ([] : List CTE).forM db.validateCte = .ok () := rfl
  simp only [hctes, hvalid, hsource, foldlM_nil, pure, Except.pure, ok_bind]
  refine bind_congr_ok fun source _ => bind_congr_ok fun table _ => ?_
  unfold SelectStatement.groupTable SelectStatement.aggregating
  split
  · simp only [mapErr_bind, bind_assoc]
    rfl
  · rfl

theorem runSelect_plain (h : PlainOn name stmt) (hview : assocGet db.views name = none)
    (hscan : db.scanTable name = .ok (columns, rows)) (fuel : Nat) (params : Params) :
    db.runSelect (fuel + 1) stmt params =
      mapErr DbError.ofExecError (stmt.byClauses ⟨columns, rows⟩) := by
  rw [runSelect_single h.single h.cosine hview, hscan, ok_bind, SelectStatement.byClauses,
    SelectStatement.grouped]
  simp only [applyClause_plain h.filter, applyClause_plain h.having, mapErr_bind, bind_assoc]

theorem scanTable_even (hscan : db.scanTable name = .ok (columns, rows)) :
    Table.Even ⟨columns, rows⟩ := by
  obtain ⟨ts, _, h⟩ := bind_eq_ok.mp hscan
  obtain ⟨rows', hrows, h⟩ := bind_eq_ok.mp h
  cases h
  intro row hrow
  obtain ⟨id, _, hid⟩ := (mem_collect hrows row).mp hrow
  obtain ⟨seen, _, hid⟩ := bind_eq_ok.mp hid
  cases seen with
  | none => cases hid
  | some bytes =>
    obtain ⟨row', hdecode, hrow'⟩ := bind_eq_ok.mp hid
    cases hrow'
    exact (decodeRowValidated_eq_ok.mp (ofExcept_eq_ok hdecode)).2

end Database

/-! ### When they agree -/

namespace SelectStatement

variable {stmt : SelectStatement} {stats : TableStats} {table before : Table}

/-- `HAVING` does in the plan what it does in the database: it does not fail on a
group, and it keeps every row where there are no groups. -/
def HavingAgrees (stmt : SelectStatement) (before : Table) : Prop :=
  ∀ hv, stmt.having = some hv → ∀ row ∈ before.rows,
    if stmt.aggregating then ∃ b, evalExpr hv before.columns row = .ok b
    else evalExpr hv before.columns row = .ok true

/-- The estimate of the planner fits, and `HAVING` agrees on what the query
computes before it. -/
def Coincide (stmt : SelectStatement) (stats : TableStats) (table : Table) : Prop :=
  stmt.Plannable stats ∧ ∀ before, stmt.grouped table = .ok before → stmt.HavingAgrees before

theorem filterRows_true {E : Type} {p : Row → Result E Bool} {rows : List Row}
    (h : ∀ row ∈ rows, p row = .ok true) : filterRows p rows = .ok rows := by
  induction rows with
  | nil => rfl
  | cons row rows ih =>
    rw [filterRows, h row mem_cons_self, ok_bind,
      ih fun r hr => h r (mem_cons_of_mem row hr)]
    rfl

theorem clauseRows_of_agrees (h : stmt.HavingAgrees before) :
    clauseRows stmt.having before = stmt.plannedHaving before := by
  unfold plannedHaving clauseRows
  cases hhaving : stmt.having with
  | none => simp only [Option.elim_none, ite_self]
  | some hv =>
    have hrow := h hv hhaving
    cases hagg : stmt.aggregating with
    | true =>
      simp only [if_true, Option.elim_some]
      simp only [hagg, if_true] at hrow
      rw [filterRows_congr]
      intro row hr
      obtain ⟨b, hb⟩ := hrow row hr
      rw [holdsOrFails, hb]
      rfl
    | false =>
      simp only [Bool.false_eq_true, if_false]
      simp only [hagg, Bool.false_eq_true, if_false] at hrow
      rw [filterRows_true hrow, ok_bind]

theorem byClauses_of_coincide (h : stmt.Coincide stats table) :
    stmt.byClauses table = stmt.planned stats table := by
  rw [planned_eq h.1, byClauses, byPlan]
  refine bind_congr_ok fun before hbefore => ?_
  rw [clauseRows_of_agrees (h.2 before hbefore)]

theorem filterRows_eq_ok {E : Type} {p : Row → Result E Bool} {rows kept : List Row}
    (h : filterRows p rows = .ok kept) :
    (∀ row ∈ rows, ∃ b, p row = .ok b) ∧
      (kept.length = rows.length → ∀ row ∈ rows, p row = .ok true) := by
  induction rows generalizing kept with
  | nil => simp
  | cons row rows ih =>
    obtain ⟨keep, hkeep, h⟩ := bind_eq_ok.mp h
    obtain ⟨rest, hrest, hkept⟩ := bind_eq_ok.mp h
    obtain ⟨hall, htrue⟩ := ih hrest
    constructor
    · intro r hr
      rcases mem_cons.mp hr with rfl | hr
      · exact ⟨keep, hkeep⟩
      · exact hall r hr
    · intro hlen r hr
      have hle := (filterRows_sublist hrest).length_le
      cases hkept
      cases keep with
      | false =>
        simp only [Bool.false_eq_true, if_false, length_cons] at hlen
        omega
      | true =>
        simp only [if_true, length_cons, Nat.add_right_cancel_iff] at hlen
        rcases mem_cons.mp hr with rfl | hr
        · exact hkeep
        · exact htrue hlen r hr

theorem filterRows_of_ok {E : Type} {p : Row → Result E Bool} {rows : List Row}
    (h : ∀ row ∈ rows, ∃ b, p row = .ok b) : ∃ kept, filterRows p rows = .ok kept := by
  induction rows with
  | nil => exact ⟨[], rfl⟩
  | cons row rows ih =>
    obtain ⟨b, hb⟩ := h row mem_cons_self
    obtain ⟨kept, hkept⟩ := ih fun r hr => h r (mem_cons_of_mem row hr)
    exact ⟨_, by rw [filterRows, hb, ok_bind, hkept, ok_bind]⟩

theorem filterRows_stops {P : Stop ExecError → Prop} {p : Row → Result ExecError Bool}
    {rows : List Row} (h : ∀ row ∈ rows, Stops P (p row)) : Stops P (filterRows p rows) := by
  induction rows with
  | nil => exact Stops.ok []
  | cons row rows ih =>
    apply Stops.bind (h row mem_cons_self)
    intro keep _
    apply Stops.bind (ih fun r hr => h r (mem_cons_of_mem row hr))
    exact fun rest _ => Stops.ok _

theorem clauseRows_errs_of_even (h : before.Even) (clause : Option Expr) :
    Stops IsErr (clauseRows clause before) := by
  cases clause with
  | none => exact Stops.ok _
  | some expr =>
    apply Stops.bind
    · exact filterRows_stops fun row hrow => evalExprScoped_errs_of_even (h row hrow) expr
    · exact fun rows _ => Stops.ok _

/-- On rows of the right length the plan's `HAVING` does not fail. -/
theorem plannedHaving_even (h : before.Even) :
    ∃ after, stmt.plannedHaving before = .ok after ∧ after.Even ∧
      after.columns = before.columns := by
  have hself : ∃ after : Table, Except.ok before = (Except.ok after : Result ExecError Table) ∧
      after.Even ∧ after.columns = before.columns := ⟨before, rfl, h, rfl⟩
  unfold plannedHaving
  split
  · cases stmt.having with
    | none => exact hself
    | some hv =>
      have hholds : ∀ row ∈ before.rows, ∃ b, holdsOrFails hv before.columns row = .ok b := by
        intro row hrow
        have hstops := evalExprScoped_errs_of_even (h row hrow) hv
        rw [holdsOrFails, evalExpr]
        cases heval : evalExprScoped before.columns row [] hv with
        | ok b => exact ⟨b, rfl⟩
        | error stop =>
          obtain ⟨e, rfl⟩ := hstops stop heval
          exact ⟨false, rfl⟩
      obtain ⟨kept, hkept⟩ := filterRows_of_ok hholds
      refine ⟨⟨before.columns, kept⟩, by rw [Option.elim_some, hkept, ok_bind], ?_, rfl⟩
      exact fun row hrow => h row ((filterRows_sublist hkept).subset hrow)
  · exact hself

def answerKind : Except DbError ResultSet → Except Nat ResultSet :=
  Except.mapError DbError.ctorIdx

/-- What a caller sees of a computation of the executor. -/
def outcome (x : Result ExecError ResultSet) : Result Empty (Except Nat ResultSet) :=
  (catchErr (mapErr DbError.ofExecError x)).map answerKind

/-- Where the list resolves and there is no `LIMIT`, the condition is needed. -/
theorem coincide_of_outcome (heven : table.Even) (hcols : table.columns ≠ [])
    (hlimit : stmt.limit = none) (hgroup : stmt.grouped table = .ok before)
    (hlist : stmt.Resolves before.columns)
    (hsame : outcome (stmt.byClauses table) = outcome (stmt.planned stats table)) :
    stmt.Coincide stats table := by
  obtain ⟨hbefore, hne⟩ := grouped_even heven hcols hgroup
  rw [byClauses, hgroup, ok_bind] at hsame
  have hplan : stmt.Plannable stats := by
    by_contra hplan
    rw [planned_of_not_plannable hplan] at hsame
    cases hhaving : clauseRows stmt.having before with
    | ok after =>
      obtain ⟨rs, hrs, _⟩ := output_even (clauseRows_even hbefore hhaving)
        (by rw [(clauseRows_eq_ok hhaving).1]; exact hne)
        (by rw [(clauseRows_eq_ok hhaving).1]; exact hlist)
      rw [hhaving, ok_bind, hrs] at hsame
      cases hsame
    | error stop =>
      obtain ⟨e, rfl⟩ := clauseRows_errs_of_even hbefore stmt.having stop hhaving
      rw [hhaving] at hsame
      cases hsame
  refine ⟨hplan, ?_⟩
  intro before' hbefore'
  obtain rfl : before = before' := Except.ok.inj (hgroup.symm.trans hbefore')
  obtain ⟨planned, hplanned, hplannedEven, hplannedCols⟩ := @plannedHaving_even stmt before hbefore
  obtain ⟨rs, hrs, hrslen⟩ := output_even hplannedEven (by rw [hplannedCols]; exact hne)
    (by rw [hplannedCols]; exact hlist)
  rw [planned_eq hplan, byPlan, hgroup, ok_bind, hplanned, ok_bind, hrs] at hsame
  cases hhaving : clauseRows stmt.having before with
  | error stop =>
    obtain ⟨e, rfl⟩ := clauseRows_errs_of_even hbefore stmt.having stop hhaving
    rw [hhaving] at hsame
    cases hsame
  | ok after =>
    obtain ⟨hafterCols, _⟩ := clauseRows_eq_ok hhaving
    obtain ⟨rs', hrs', hrslen'⟩ := output_even (clauseRows_even hbefore hhaving)
      (by rw [hafterCols]; exact hne) (by rw [hafterCols]; exact hlist)
    rw [hhaving, ok_bind, hrs'] at hsame
    obtain rfl : rs' = rs := by
      cases hsame
      rfl
    intro hv hhv
    rw [hhv] at hhaving
    obtain ⟨kept, hkept, hafter⟩ := bind_eq_ok.mp hhaving
    cases hafter
    obtain ⟨hall, htrue⟩ := filterRows_eq_ok hkept
    cases hagg : stmt.aggregating with
    | true => simpa only [if_true] using hall
    | false =>
      simp only [Bool.false_eq_true, if_false]
      simp only [plannedHaving, hagg, Bool.false_eq_true, if_false] at hplanned
      cases hplanned
      exact htrue ((hrslen' hlimit).symm.trans (hrslen hlimit))

end SelectStatement

namespace Database

variable {db : Database} {name : String} {stmt : SelectStatement} {columns : List String}
  {rows : List Row}

def AnswersLikePlan (fuel : Nat) (db : Database) (stmt : SelectStatement) (params : Params)
    (stats : TableStats) (table : Table) : Prop :=
  (execute fuel db (.select stmt) params).map (fun p => SelectStatement.answerKind p.2) =
    SelectStatement.outcome (stmt.planned stats table)

theorem execute_select_outcome (h : PlainOn name stmt) (hview : assocGet db.views name = none)
    (hscan : db.scanTable name = .ok (columns, rows)) (fuel : Nat) (params : Params) :
    (execute (fuel + 1) db (.select stmt) params).map (fun p => SelectStatement.answerKind p.2) =
      SelectStatement.outcome (stmt.byClauses ⟨columns, rows⟩) := by
  simp only [execute, runSelect_plain h hview hscan, SelectStatement.outcome]
  cases stmt.byClauses ⟨columns, rows⟩ with
  | ok rs => rfl
  | error stop => cases stop <;> rfl

/-- A plain query is answered like its plan if the plan's estimate fits and
`HAVING` agrees; without `LIMIT`, where the query gets as far as `HAVING` and its
list resolves, only then. -/
theorem query_answers_like_plan (h : PlainOn name stmt) (hview : assocGet db.views name = none)
    (hscan : db.scanTable name = .ok (columns, rows)) (fuel : Nat) (params : Params)
    (stats : TableStats) :
    (stmt.Coincide stats ⟨columns, rows⟩ →
      AnswersLikePlan (fuel + 1) db stmt params stats ⟨columns, rows⟩) ∧
    (columns ≠ [] → stmt.limit = none →
      (∃ before, stmt.grouped ⟨columns, rows⟩ = .ok before ∧ stmt.Resolves before.columns) →
      AnswersLikePlan (fuel + 1) db stmt params stats ⟨columns, rows⟩ →
      stmt.Coincide stats ⟨columns, rows⟩) := by
  rw [AnswersLikePlan, execute_select_outcome h hview hscan]
  constructor
  · intro hcoincide
    rw [SelectStatement.byClauses_of_coincide hcoincide]
  · rintro hcols hlimit ⟨before, hgroup, hlist⟩ hsame
    exact SelectStatement.coincide_of_outcome (scanTable_even hscan) hcols hlimit hgroup hlist hsame

/-- `SELECT COUNT(*) AS n FROM t HAVING column = 0`. -/
def countHaving (column : String) : SelectStatement :=
  { selectAll (.named "t" none) with
    columns := ["n"], star := false, aggregates := [⟨"n", .count, "*"⟩],
    having := some (.cmp column .eq (.int 0)) }

/-- `CREATE TABLE t (v INT)` on an empty database. -/
def tableT : Database :=
  (empty.runCreateTable ⟨"t", [⟨"v", .int⟩]⟩).1

theorem countHaving_plain (column : String) : PlainOn "t" (countHaving column) where
  table := ⟨none, rfl⟩
  joins := rfl
  ctes := rfl
  cosine := rfl
  filter := by
    intro expr h
    cases h
  having := by
    intro expr h
    cases h
    rfl

theorem scanTable_tableT : tableT.scanTable "t" = .ok (["id", "v"], []) := rfl

/-- A count with `HAVING` on its own name. -/
theorem query_answers_like_plan_count :
    AnswersLikePlan 1 tableT (countHaving "n") [] ⟨0⟩ ⟨["id", "v"], []⟩ := by
  apply (query_answers_like_plan (countHaving_plain "n") rfl scanTable_tableT 0 [] ⟨0⟩).1
  constructor
  · intro expr h
    cases h
  · intro before hbefore hv hhv row hrow
    cases hbefore
    cases hhv
    obtain rfl := mem_singleton.mp hrow
    exact ⟨true, rfl⟩

/-- `SELECT COUNT(*) AS n FROM t HAVING v = 0`: there is no column `v` after the
aggregation, which the database reports and the plan takes for a group to drop. -/
theorem having_error_is_dropped_by_plan :
    Reachable tableT ∧ PlainOn "t" (countHaving "v") ∧
      tableT.scanTable "t" = .ok (["id", "v"], []) ∧
      execute 1 tableT (.select (countHaving "v")) [] =
        .ok (tableT, .error (.unknownColumn "v")) ∧
      (countHaving "v").planned ⟨0⟩ ⟨["id", "v"], []⟩ = .ok ⟨["n"], []⟩ ∧
      ¬ AnswersLikePlan 1 tableT (countHaving "v") [] ⟨0⟩ ⟨["id", "v"], []⟩ := by
  refine ⟨?_, countHaving_plain "v", rfl, rfl, rfl, ?_⟩
  · exact @Reachable.step 0 _ _ (.createTable ⟨"t", [⟨"v", .int⟩]⟩) [] _ Reachable.empty rfl
  · intro hsame
    cases hsame

end Database

end Oikos.Archon.Relational
