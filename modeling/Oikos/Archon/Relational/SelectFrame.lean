/-
What a query depends on.  Apart from `ORDER BY cosine`, which needs a parameter
and reads the committed rows itself, a query sees the database only through its
views, the names of its tables and the rows that `scanTable` returns.
-/
import Oikos.Archon.Relational.Select

namespace Oikos.Archon.Relational

open List

variable {d₁ d₂ : Database} {r₁ r₂ : RunSelect} {params : Params}

/-- Queries of the two databases cannot tell them apart. -/
structure SameView (d₁ d₂ : Database) : Prop where
  views : d₁.views = d₂.views
  names : ∀ name, (d₁.tables.any fun p => p.1 == name) = d₂.tables.any fun p => p.1 == name
  scan : ∀ name, d₁.scanTable name = d₂.scanTable name

/-- The query runs no vector search: without parameters a search fails before it
reads anything. -/
def Scans (params : Params) (stmt : SelectStatement) : Prop :=
  params = [] ∨ CosineFree stmt

/-- Nested queries have the same results. -/
def Agree (r₁ r₂ : RunSelect) : Prop :=
  ∀ stmt params outer ctes, Scans params stmt →
    r₁ stmt params outer ctes = r₂ stmt params outer ctes

theorem mapM_congr {α β ε : Type} {f g : α → Except ε β} {l : List α} (h : ∀ a ∈ l, f a = g a) :
    l.mapM f = l.mapM g := by
  induction l with
  | nil => rfl
  | cons a l ih =>
    rw [mapM_cons, mapM_cons, h a mem_cons_self,
      ih fun x hx => h x (mem_cons_of_mem a hx)]

theorem filterRows_congr {E : Type} {p q : Row → Result E Bool} {rows : List Row}
    (h : ∀ row ∈ rows, p row = q row) : filterRows p rows = filterRows q rows := by
  induction rows with
  | nil => rfl
  | cons row rows ih =>
    rw [filterRows, filterRows, h row mem_cons_self,
      ih fun x hx => h x (mem_cons_of_mem row hx)]

/-! ### Predicates -/

theorem mem_subqueries_of_node {node : Expr} {q : SelectStatement} (hq : q ∈ node.subqueries) :
    ∀ e : Expr, node ∈ e.subqueryNodes → q ∈ e.subqueries
  | .and l r, h => by
    rcases mem_append.mp h with h | h
    · exact mem_append_left _ (mem_subqueries_of_node hq l h)
    · exact mem_append_right _ (mem_subqueries_of_node hq r h)
  | .or l r, h => by
    rcases mem_append.mp h with h | h
    · exact mem_append_left _ (mem_subqueries_of_node hq l h)
    · exact mem_append_right _ (mem_subqueries_of_node hq r h)
  | .not inner, h => mem_subqueries_of_node hq inner h
  | .exists query, h => by
    obtain rfl : node = .exists query := by simpa [Expr.subqueryNodes] using h
    exact hq
  | .inSubquery column query, h => by
    obtain rfl : node = .inSubquery column query := by simpa [Expr.subqueryNodes] using h
    exact hq
  | .scalarCmp column op query, h => by
    obtain rfl : node = .scalarCmp column op query := by simpa [Expr.subqueryNodes] using h
    exact hq
  | .cmp .., h => by simp [Expr.subqueryNodes] at h
  | .cmpColumn .., h => by simp [Expr.subqueryNodes] at h
  | .isNull .., h => by simp [Expr.subqueryNodes] at h
  | .like .., h => by simp [Expr.subqueryNodes] at h
  | .inInt .., h => by simp [Expr.subqueryNodes] at h
  | .betweenInt .., h => by simp [Expr.subqueryNodes] at h
  | .agg .., h => by simp [Expr.subqueryNodes] at h

theorem cacheEntry_congr (hr : Agree r₁ r₂) {ownColumns : List String} {ctes : List CTE}
    {node : Expr} (hnode : ∀ q ∈ node.subqueries, Scans params q) :
    cacheEntry r₁ ownColumns params ctes node = cacheEntry r₂ ownColumns params ctes node := by
  unfold cacheEntry
  split
  · rfl
  · match node, hnode with
    | .exists query, hnode =>
      simp only [hr query params [] ctes (hnode query (by simp [Expr.subqueries]))]
    | .inSubquery column query, hnode =>
      simp only [hr query params [] ctes (hnode query (by simp [Expr.subqueries]))]
    | .scalarCmp column op query, hnode =>
      simp only [hr query params [] ctes (hnode query (by simp [Expr.subqueries]))]
    | .and .., _ | .or .., _ | .not .., _ | .cmp .., _ | .cmpColumn .., _ | .isNull .., _
    | .like .., _ | .inInt .., _ | .betweenInt .., _ | .agg .., _ => rfl

theorem buildSubqueryCache_congr (hr : Agree r₁ r₂) {expr : Expr} {ownColumns : List String}
    {ctes : List CTE} (hexpr : ∀ q ∈ expr.subqueries, Scans params q) :
    buildSubqueryCache r₁ expr ownColumns params ctes =
      buildSubqueryCache r₂ expr ownColumns params ctes := by
  apply mapM_congr
  intro node hnode
  exact cacheEntry_congr hr fun q hq => hexpr q (mem_subqueries_of_node hq expr hnode)

theorem evalWhere_congr (hr : Agree r₁ r₂) {env : WhereEnv} :
    ∀ (expr : Expr) (counter : Nat), (∀ q ∈ expr.subqueries, Scans env.params q) →
      evalWhere r₁ env expr counter = evalWhere r₂ env expr counter
  | .and l r, counter, h => by
    have hl := fun c => evalWhere_congr hr l c fun q hq => h q (mem_append_left _ hq)
    have hrr := fun c => evalWhere_congr hr r c fun q hq => h q (mem_append_right _ hq)
    simp only [evalWhere, hl, hrr]
  | .or l r, counter, h => by
    have hl := fun c => evalWhere_congr hr l c fun q hq => h q (mem_append_left _ hq)
    have hrr := fun c => evalWhere_congr hr r c fun q hq => h q (mem_append_right _ hq)
    simp only [evalWhere, hl, hrr]
  | .not inner, counter, h => by
    simp only [evalWhere, evalWhere_congr hr inner counter h]
  | .exists query, counter, h => by
    have hq := fun stack =>
      hr query env.params stack env.outerCtes (h query (by simp [Expr.subqueries]))
    simp only [evalWhere, hq]
  | .inSubquery column query, counter, h => by
    have hq := fun stack =>
      hr query env.params stack env.outerCtes (h query (by simp [Expr.subqueries]))
    simp only [evalWhere, hq]
  | .scalarCmp column op query, counter, h => by
    have hq := fun stack =>
      hr query env.params stack env.outerCtes (h query (by simp [Expr.subqueries]))
    simp only [evalWhere, hq]
  | .cmp .., _, _ => rfl
  | .cmpColumn .., _, _ => rfl
  | .isNull .., _, _ => rfl
  | .like .., _, _ => rfl
  | .inInt .., _, _ => rfl
  | .betweenInt .., _, _ => rfl
  | .agg .., _, _ => rfl

theorem whereHolds_congr (hr : Agree r₁ r₂) {env : WhereEnv} {expr : Expr}
    (hexpr : ∀ q ∈ expr.subqueries, Scans env.params q) :
    whereHolds r₁ env expr = whereHolds r₂ env expr := by
  simp only [whereHolds, evalWhere_congr hr expr 0 hexpr]

/-! ### Queries -/

namespace Database

theorem applyClause_congr (hr : Agree r₁ r₂) (outer : List Scope) (ctes : List CTE)
    (scopeColumns : List String) {clause : Option Expr} (table : Table)
    (hclause : ∀ e, clause = some e → ∀ q ∈ e.subqueries, Scans params q) :
    applyClause r₁ params outer ctes scopeColumns clause table =
      applyClause r₂ params outer ctes scopeColumns clause table := by
  cases clause with
  | none => rfl
  | some expr =>
    have hexpr := hclause expr rfl
    simp only [applyClause, buildSubqueryCache_congr hr hexpr]
    congr 1
    funext cache
    rw [filterRows_congr fun row _ => whereHolds_congr hr hexpr]

theorem resolveTableRef_congr (h : SameView d₁ d₂) (hr : Agree r₁ r₂) (ctes : List CTE)
    (ref : TableRef) :
    d₁.resolveTableRefWithCtes r₁ ctes ref = d₂.resolveTableRefWithCtes r₂ ctes ref := by
  have hrun := fun q ctes => hr q [] [] ctes (Or.inl rfl)
  cases ref with
  | named name aliasName => simp only [resolveTableRefWithCtes, hrun, h.views, h.scan]
  | subquery query aliasName => simp only [resolveTableRefWithCtes, hrun]

theorem joinTable_congr (h : SameView d₁ d₂) (hr : Agree r₁ r₂) (ctes : List CTE) :
    d₁.joinTable r₁ ctes = d₂.joinTable r₂ ctes := by
  funext source join
  simp only [joinTable, resolveTableRef_congr h hr]

theorem validateCte_congr (h : SameView d₁ d₂) : d₁.validateCte = d₂.validateCte := by
  funext cte
  simp only [validateCte, h.views, h.names]

theorem runVectorTopk_nil (db₁ db₂ : Database) (s₁ s₂ : RunSelect) (stmt : SelectStatement)
    (ob : OrderByCosine) :
    db₁.runVectorTopk s₁ stmt ob [] = db₂.runVectorTopk s₂ stmt ob [] := by
  unfold runVectorTopk
  by_cases hparam : ob.param = 0
  · simp [hparam]
  · simp [hparam]

theorem selectBody_congr (h : SameView d₁ d₂) (hr : Agree r₁ r₂) :
    Agree (d₁.selectBody r₁) (d₂.selectBody r₂) := by
  intro stmt params outer outerCtes hscans
  have hclauses : stmt.orderByCosine = none →
      (∀ e, stmt.filter = some e → ∀ q ∈ e.subqueries, Scans params q) ∧
      (∀ e, stmt.having = some e → ∀ q ∈ e.subqueries, Scans params q) := by
    intro _
    rcases hscans with rfl | ⟨_, hfilter, hhaving⟩
    · exact ⟨fun _ _ _ _ => Or.inl rfl, fun _ _ _ _ => Or.inl rfl⟩
    · exact ⟨fun e he q hq => Or.inr (hfilter e he q hq),
        fun e he q hq => Or.inr (hhaving e he q hq)⟩
  cases hcos : stmt.orderByCosine with
  | some ob =>
    rcases hscans with rfl | ⟨hnone, _, _⟩
    · simp only [selectBody, hcos]
      exact runVectorTopk_nil d₁ d₂ r₁ r₂ stmt ob
    · rw [hnone] at hcos
      cases hcos
  | none =>
    obtain ⟨hfilter, hhaving⟩ := hclauses hcos
    have hwhere := fun columns table => applyClause_congr hr outer
      (mergeCtes outerCtes stmt.withCtes) columns table hfilter
    have hafter := fun columns table => applyClause_congr hr outer
      (mergeCtes outerCtes stmt.withCtes) columns table hhaving
    simp only [selectBody, hcos, validateCte_congr h, resolveTableRef_congr h hr,
      joinTable_congr h hr, hwhere, hafter]

theorem runSelectScoped_congr (h : SameView d₁ d₂) (fuel : Nat) :
    Agree (d₁.runSelectScoped fuel) (d₂.runSelectScoped fuel) := by
  induction fuel with
  | zero => exact fun _ _ _ _ _ => rfl
  | succ fuel ih => exact selectBody_congr h ih

theorem runSelect_congr (h : SameView d₁ d₂) (fuel : Nat) {stmt : SelectStatement}
    (hscans : Scans params stmt) : d₁.runSelect fuel stmt params = d₂.runSelect fuel stmt params :=
  runSelectScoped_congr h fuel stmt params [] [] hscans

end Database

end Oikos.Archon.Relational
