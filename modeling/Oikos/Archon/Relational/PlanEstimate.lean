/-
The estimate of the planner of `tpt-archon-relational` and the text that
`EXPLAIN` makes of a plan.  A predicate keeps a fraction of the rows whose
numerator and denominator are multiplied up its tree without reduction, in
64-bit arithmetic.  Over the exact fraction the estimate has a closed form, and
the conditions under which it is made, and stays below the row count, are exact.
-/
import Oikos.Archon.Relational.Parser

namespace Oikos.Archon.Relational

universe u

variable {E : Type u}

/-! ### `EXPLAIN` -/

/-- A standalone `SELECT` with an optional `WITH` clause. -/
def parseSelect (fuel : Nat) (input : String) : Result ParseError SelectStatement := do
  let select : Parse SelectStatement := do
    let tok ← nextTok
    let ctes ←
      if tok.isWord "with" then parseWithClause fuel
      else do
        pushBack tok
        pure []
    let tok ← nextTok
    if tok.isWord "select" then
      let stmt ← parseSelectQuery fuel
      expectEof "trailing tokens after statement"
      pure { stmt with withCtes := ctes }
    else fail "expected SELECT"
  let (stmt, _) ← select (Lexer.new input)
  pure stmt

namespace AggregateFunc

/-- The derived debug text. -/
def debug : AggregateFunc → String
  | .count => "Count"
  | .sum => "Sum"
  | .avg => "Avg"
  | .min => "Min"
  | .max => "Max"

end AggregateFunc

def OrderBy.render (ob : OrderBy) : String :=
  ob.column ++ if ob.descending then " DESC" else " ASC"

def Aggregate.render (agg : Aggregate) : String :=
  agg.func.debug ++ "(" ++ agg.column ++ ") AS " ++ agg.aliasName

section Render

-- The text that the derived `Debug` makes of an expression.
variable (debug : Expr → String)

def renderIndent (depth : Nat) : String :=
  String.join (List.replicate depth "  ")

mutual

def renderNode : PlanNode → Nat → String
  | .scan table vectorized, depth =>
    renderIndent depth ++ "Scan \x7b table: " ++ table ++ ", vectorized: " ++
      (if vectorized then "true" else "false") ++ " \x7d\n"
  | .filter expr input, depth =>
    renderIndent depth ++ "Filter \x7b " ++ debug expr ++ " \x7d\n" ++ renderNode input (depth + 1)
  | .project columns star input, depth =>
    renderIndent depth ++ "Project \x7b " ++
      (if star then "*" else String.intercalate ", " columns) ++ " \x7d\n" ++
      renderNode input (depth + 1)
  | .limit n input, depth =>
    renderIndent depth ++ "Limit \x7b n: " ++ toString n ++ " \x7d\n" ++
      renderNode input (depth + 1)
  | .sort columns input, depth =>
    renderIndent depth ++ "Sort \x7b " ++ String.intercalate ", " (columns.map OrderBy.render) ++
      " \x7d\n" ++ renderNode input (depth + 1)
  | .aggregate groupBy aggregates having input, depth =>
    renderIndent depth ++ "Aggregate \x7b group_by: [" ++
      (if groupBy.isEmpty then "none" else String.intercalate ", " groupBy) ++ "], aggs: [" ++
      String.intercalate ", " (aggregates.map Aggregate.render) ++ "]" ++
      (having.elim "" fun e => ", having: " ++ debug e) ++ " \x7d\n" ++
      renderNode input (depth + 1)
  | .subqueryScan plan aliasName, depth =>
    renderIndent depth ++ "SubqueryScan \x7b alias: " ++ aliasName ++ " \x7d\n" ++
      renderPlan plan (depth + 1)

/-- The tree of a nested plan. -/
def renderPlan : Plan → Nat → String
  | ⟨root, _, _⟩, depth => renderNode root depth

end

def Dispatch.render : Dispatch → String
  | .cpu => "CPU"
  | .gpu => "GPU (TPTIR emission)"

/-- The physical plan of a `SELECT` as text. -/
def explainPlan (fuel : Nat) (sql : String) (stats : TableStats) : Result ParseError String := do
  let stmt ← parseSelect fuel sql
  let plan ← planSelect stmt stats
  .ok ("Plan:\n" ++ renderNode debug plan.root 1 ++
    "estimated_rows: " ++ toString plan.estimatedRows ++ "\n" ++
    "dispatch: " ++ plan.dispatch.render ++ "\n")

end Render

/-! ### The exact fraction of a predicate -/

namespace Expr

/-- The fraction of the rows that a predicate keeps, in unbounded numbers. -/
def odds : Expr → Nat × Nat
  | .cmp _ .eq _ => (1, 10)
  | .cmp _ .ne _ => (9, 10)
  | .cmp _ _ _ => (1, 3)
  | .isNull _ negated => if negated then (19, 20) else (1, 20)
  | .like _ _ => (1, 5)
  | .inInt _ values => (Nat.max values.length 1, 100)
  | .betweenInt _ _ _ => (1, 3)
  | .cmpColumn _ .eq _ => (1, 10)
  | .cmpColumn _ _ _ => (1, 3)
  | .and l r => (Nat.max (l.odds.1 * r.odds.1) 1, l.odds.2 * r.odds.2)
  | .or l r =>
    let kept := l.odds.1 * r.odds.2 + r.odds.1 * l.odds.2 - l.odds.1 * r.odds.1
    let all := l.odds.2 * r.odds.2
    if kept ≥ all then (1, 1) else (Nat.max kept 1, all)
  | .not inner => (Nat.max (inner.odds.2 - inner.odds.1) 1, inner.odds.2)
  | .exists _ => (1, 3)
  | .inSubquery _ _ => (1, 3)
  | .scalarCmp _ _ _ => (1, 3)
  | .agg _ _ => (1, 3)

/-- At no conjunction or disjunction does a product or the sum of two products
reach `2 ^ 64`, and no disjunction takes away more than its sum. -/
def Fits : Expr → Prop
  | .and l r => l.Fits ∧ r.Fits ∧ l.odds.1 * r.odds.1 < 2 ^ 64 ∧ l.odds.2 * r.odds.2 < 2 ^ 64
  | .or l r => l.Fits ∧ r.Fits ∧ l.odds.1 * r.odds.2 + r.odds.1 * l.odds.2 < 2 ^ 64 ∧
      l.odds.1 * r.odds.1 ≤ l.odds.1 * r.odds.2 + r.odds.1 * l.odds.2 ∧
      l.odds.2 * r.odds.2 < 2 ^ 64
  | .not inner => inner.Fits
  | _ => True

end Expr

theorem checkedU64_eq_ok {n m : Nat} : (checkedU64 n : Result E Nat) = .ok m ↔
    n < 2 ^ 64 ∧ m = n := by
  unfold checkedU64
  by_cases h : n < 2 ^ 64
  · rw [if_pos h, Except.ok.injEq]
    exact ⟨fun e => ⟨h, e.symm⟩, fun e => e.2.symm⟩
  · rw [if_neg h]
    constructor
    · intro hpanic
      cases hpanic
    · rintro ⟨hn, _⟩
      exact absurd hn h

theorem ok_iff_leaf {x p : Nat × Nat} : (Except.ok x : Result E (Nat × Nat)) = .ok p ↔
    True ∧ p = x := by
  rw [Except.ok.injEq, true_and, eq_comm]

theorem selectivity_eq_ok : ∀ (expr : Expr) (p : Nat × Nat),
    (selectivity expr : Result E (Nat × Nat)) = .ok p ↔ expr.Fits ∧ p = expr.odds
  | .and l r, p => by
    simp only [selectivity, bind_eq_ok, checkedU64_eq_ok, Expr.Fits, Expr.odds, Except.ok.injEq]
    constructor
    · rintro ⟨a, ha, c, hc, num, ⟨hnum, rfl⟩, den, ⟨hden, rfl⟩, rfl⟩
      obtain ⟨hl, rfl⟩ := (selectivity_eq_ok l a).mp ha
      obtain ⟨hr, rfl⟩ := (selectivity_eq_ok r c).mp hc
      exact ⟨⟨hl, hr, hnum, hden⟩, rfl⟩
    · rintro ⟨⟨hl, hr, hnum, hden⟩, rfl⟩
      exact ⟨_, (selectivity_eq_ok l _).mpr ⟨hl, rfl⟩, _, (selectivity_eq_ok r _).mpr ⟨hr, rfl⟩,
        _, ⟨hnum, rfl⟩, _, ⟨hden, rfl⟩, rfl⟩
  | .or l r, p => by
    simp only [selectivity, bind_eq_ok, checkedU64_eq_ok, Expr.Fits, Expr.odds]
    constructor
    · rintro ⟨a, ha, c, hc, ad, ⟨had, rfl⟩, cb, ⟨hcb, rfl⟩, total, ⟨htotal, rfl⟩, both,
        ⟨hboth, rfl⟩, hrest⟩
      obtain ⟨hl, rfl⟩ := (selectivity_eq_ok l a).mp ha
      obtain ⟨hr, rfl⟩ := (selectivity_eq_ok r c).mp hc
      split at hrest
      · rename_i hle
        simp only [ok_bind, bind_eq_ok, checkedU64_eq_ok, Except.ok.injEq] at hrest
        obtain ⟨den, ⟨hden, rfl⟩, rfl⟩ := hrest
        exact ⟨⟨hl, hr, htotal, hle, hden⟩, rfl⟩
      · cases hrest
    · rintro ⟨⟨hl, hr, htotal, hle, hden⟩, rfl⟩
      refine ⟨_, (selectivity_eq_ok l _).mpr ⟨hl, rfl⟩, _,
        (selectivity_eq_ok r _).mpr ⟨hr, rfl⟩, _, ⟨by omega, rfl⟩, _, ⟨by omega, rfl⟩, _,
        ⟨htotal, rfl⟩, _, ⟨by omega, rfl⟩, ?_⟩
      rw [if_pos hle, ok_bind, bind_eq_ok]
      exact ⟨_, checkedU64_eq_ok.mpr ⟨hden, rfl⟩, rfl⟩
  | .not inner, p => by
    simp only [selectivity, bind_eq_ok, Expr.Fits, Expr.odds, Except.ok.injEq]
    constructor
    · rintro ⟨a, ha, rfl⟩
      obtain ⟨hinner, rfl⟩ := (selectivity_eq_ok inner a).mp ha
      exact ⟨hinner, rfl⟩
    · rintro ⟨hinner, rfl⟩
      exact ⟨_, (selectivity_eq_ok inner _).mpr ⟨hinner, rfl⟩, rfl⟩
  | .cmp _ op _, p => by cases op <;> exact ok_iff_leaf
  | .cmpColumn _ op _, p => by cases op <;> exact ok_iff_leaf
  | .isNull .., p => ok_iff_leaf
  | .like .., p => ok_iff_leaf
  | .inInt .., p => ok_iff_leaf
  | .betweenInt .., p => ok_iff_leaf
  | .exists _, p => ok_iff_leaf
  | .inSubquery .., p => ok_iff_leaf
  | .scalarCmp .., p => ok_iff_leaf
  | .agg .., p => ok_iff_leaf

namespace Expr

/-- No predicate keeps a fraction of denominator zero. -/
theorem odds_pos : ∀ expr : Expr, 0 < expr.odds.2
  | .and l r => Nat.mul_pos l.odds_pos r.odds_pos
  | .or l r => by
    simp only [odds]
    split
    · exact Nat.one_pos
    · exact Nat.mul_pos l.odds_pos r.odds_pos
  | .not inner => inner.odds_pos
  | .cmp _ op _ => by cases op <;> exact Nat.succ_pos _
  | .cmpColumn _ op _ => by cases op <;> exact Nat.succ_pos _
  | .isNull _ negated => by cases negated <;> exact Nat.succ_pos _
  | .like .. => Nat.succ_pos _
  | .inInt .. => Nat.succ_pos _
  | .betweenInt .. => Nat.succ_pos _
  | .exists _ => Nat.succ_pos _
  | .inSubquery .. => Nat.succ_pos _
  | .scalarCmp .. => Nat.succ_pos _
  | .agg .. => Nat.succ_pos _

end Expr

/-! ### The estimate -/

namespace SelectStatement

variable (stmt : SelectStatement) (stats : TableStats)

/-- The fraction of the rows that the `WHERE` clause keeps. -/
def odds : Nat × Nat :=
  stmt.filter.elim (1, 1) Expr.odds

/-- The `WHERE` clause fits, and so does the row count times its numerator. -/
def Fits : Prop :=
  ∀ expr, stmt.filter = some expr → expr.Fits ∧ stats.rowCount * expr.odds.1 < 2 ^ 64

/-- The estimate before `LIMIT`. -/
def groupedEstimate : Nat :=
  let kept := divCeil (stats.rowCount * stmt.odds.1) stmt.odds.2
  if stmt.groupBy.isEmpty then kept else Nat.max (divCeil kept 10) 1

def estimate : Nat :=
  stmt.limit.elim (stmt.groupedEstimate stats) fun n => Nat.min (stmt.groupedEstimate stats) n.toNat

end SelectStatement

theorem divCeil_one (a : Nat) : divCeil a 1 = a := by
  simp only [divCeil, Nat.div_one, Nat.mod_one, if_true, add_zero]

/-- The rounded quotient is the least number that covers the dividend. -/
theorem divCeil_le_iff {a b : Nat} (hb : 0 < b) (k : Nat) : divCeil a b ≤ k ↔ a ≤ b * k := by
  unfold divCeil
  by_cases hzero : a % b = 0
  · have ha : b * (a / b) = a := Nat.mul_div_cancel' (Nat.dvd_of_mod_eq_zero hzero)
    rw [if_pos hzero, add_zero, ← Nat.mul_le_mul_left_iff hb, ha]
  · have hne : a ≠ k * b := by
      rintro rfl
      exact hzero (Nat.mul_mod_left k b)
    rw [if_neg hzero, Nat.succ_le_iff, Nat.div_lt_iff_lt_mul hb, mul_comm b k]
    omega

/-- The estimate of the planner, once the `WHERE` clause has been reckoned. -/
theorem planSelect_rows (stmt : SelectStatement) (stats : TableStats) {kept : Nat}
    (hnone : stmt.filter = none → kept = stats.rowCount)
    (hsome : ∀ expr, stmt.filter = some expr → ∃ p,
      (selectivity expr : Result E (Nat × Nat)) = .ok p ∧
        stats.rowCount * p.1 < 2 ^ 64 ∧ kept = divCeil (stats.rowCount * p.1) p.2) :
    ∃ plan, (planSelect stmt stats : Result E Plan) = .ok plan ∧
      plan.estimatedRows =
        let grouped := if stmt.groupBy.isEmpty then kept else Nat.max (divCeil kept 10) 1
        stmt.limit.elim grouped fun n => Nat.min grouped n.toNat := by
  cases hfilter : stmt.filter with
  | none =>
    simp only [planSelect, hfilter, ok_bind, ← hnone hfilter]
    refine ⟨_, rfl, ?_⟩
    cases stmt.limit <;> cases stmt.groupBy.isEmpty <;> cases stmt.aggregates.isEmpty <;> rfl
  | some expr =>
    obtain ⟨p, hsel, hfit, rfl⟩ := hsome expr hfilter
    simp only [planSelect, hfilter, hsel, ok_bind, checkedU64, hfit, if_true]
    refine ⟨_, rfl, ?_⟩
    cases stmt.limit <;> cases stmt.groupBy.isEmpty <;> cases stmt.aggregates.isEmpty <;> rfl

/-- A plan that is made has its `WHERE` clause reckoned without overflow. -/
theorem fits_of_planSelect {stmt : SelectStatement} {stats : TableStats} {plan : Plan}
    (h : (planSelect stmt stats : Result E Plan) = .ok plan) : stmt.Fits stats := by
  intro expr hfilter
  simp only [planSelect, hfilter] at h
  obtain ⟨p, hsel, hrest⟩ := bind_eq_ok.mp h
  obtain ⟨scaled, hscaled, _⟩ := bind_eq_ok.mp hrest
  obtain ⟨hfits, rfl⟩ := (selectivity_eq_ok expr p).mp hsel
  exact ⟨hfits, (checkedU64_eq_ok.mp hscaled).1⟩

theorem planSelect_of_fits {stmt : SelectStatement} {stats : TableStats} (h : stmt.Fits stats) :
    ∃ plan, (planSelect stmt stats : Result E Plan) = .ok plan ∧
      plan.estimatedRows = stmt.estimate stats := by
  apply planSelect_rows stmt stats
  · intro hfilter
    simp only [SelectStatement.odds, hfilter, Option.elim_none, mul_one, divCeil_one]
  · intro expr hfilter
    obtain ⟨hfits, hscaled⟩ := h expr hfilter
    refine ⟨expr.odds, (selectivity_eq_ok expr _).mpr ⟨hfits, rfl⟩, hscaled, ?_⟩
    simp only [SelectStatement.odds, hfilter, Option.elim_some]

namespace SelectStatement

variable (stmt : SelectStatement) (stats : TableStats)

theorem odds_pos : 0 < stmt.odds.2 := by
  unfold odds
  cases stmt.filter with
  | none => exact Nat.one_pos
  | some expr => exact expr.odds_pos

/-- `LIMIT` allows no more rows than the table has; or the rows that the `WHERE`
clause keeps, a tenth of them if they are grouped, are not more. -/
def Bounded : Prop :=
  (∃ n, stmt.limit = some n ∧ n.toNat ≤ stats.rowCount) ∨
  (stmt.groupBy = [] ∧ (stats.rowCount = 0 ∨ stmt.odds.1 ≤ stmt.odds.2)) ∨
  (stmt.groupBy ≠ [] ∧ 1 ≤ stats.rowCount ∧ stmt.odds.1 ≤ 10 * stmt.odds.2)

theorem kept_le_iff (k : Nat) :
    divCeil (stats.rowCount * stmt.odds.1) stmt.odds.2 ≤ k * stats.rowCount ↔
      stats.rowCount = 0 ∨ stmt.odds.1 ≤ k * stmt.odds.2 := by
  rw [divCeil_le_iff stmt.odds_pos, ← Nat.mul_assoc, mul_comm (stmt.odds.2 * k),
    mul_comm stmt.odds.2 k]
  constructor
  · intro h
    rcases Nat.eq_zero_or_pos stats.rowCount with hzero | hpos
    · exact .inl hzero
    · exact .inr (Nat.le_of_mul_le_mul_left h hpos)
  · rintro (hzero | h)
    · simp only [hzero, zero_mul, le_refl]
    · exact Nat.mul_le_mul_left _ h

theorem groupedEstimate_le_iff : stmt.groupedEstimate stats ≤ stats.rowCount ↔
    (stmt.groupBy = [] ∧ (stats.rowCount = 0 ∨ stmt.odds.1 ≤ stmt.odds.2)) ∨
    (stmt.groupBy ≠ [] ∧ 1 ≤ stats.rowCount ∧ stmt.odds.1 ≤ 10 * stmt.odds.2) := by
  have hkept := stmt.kept_le_iff stats
  unfold groupedEstimate
  cases hgroup : stmt.groupBy with
  | nil =>
    have h := hkept 1
    rw [one_mul, one_mul] at h
    simpa using h
  | cons column columns =>
    have h := hkept 10
    rw [← divCeil_le_iff (by decide : 0 < 10)] at h
    have hmax : Nat.max (divCeil (divCeil (stats.rowCount * stmt.odds.1) stmt.odds.2) 10) 1 ≤
        stats.rowCount ↔ _ ∧ 1 ≤ stats.rowCount := max_le_iff
    simp only [List.isEmpty_cons, Bool.false_eq_true, if_false, hmax, h, reduceCtorEq, ne_eq,
      not_false_eq_true, true_and, false_and, false_or]
    constructor
    · rintro ⟨hzero | hodds, hrows⟩
      · omega
      · exact ⟨hrows, hodds⟩
    · rintro ⟨hrows, hodds⟩
      exact ⟨.inr hodds, hrows⟩

theorem estimate_le_iff : stmt.estimate stats ≤ stats.rowCount ↔ stmt.Bounded stats := by
  rw [Bounded, ← groupedEstimate_le_iff]
  unfold estimate
  cases stmt.limit with
  | none => simp
  | some n =>
    have hmin : Nat.min (stmt.groupedEstimate stats) n.toNat ≤ stats.rowCount ↔
        stmt.groupedEstimate stats ≤ stats.rowCount ∨ n.toNat ≤ stats.rowCount := min_le_iff
    simp only [Option.elim_some, hmin, Option.some.injEq, exists_eq_left']
    exact or_comm

def Sound : Prop :=
  (∀ expr p, stmt.filter = some expr →
    (selectivity expr : Result ParseError (Nat × Nat)) = .ok p → 0 < p.2) ∧
  (∃ plan, (planSelect stmt stats : Result ParseError Plan) = .ok plan ∧
    plan.estimatedRows ≤ stats.rowCount) ∧
  ∀ debug fuel sql, parseSelect fuel sql = .ok stmt →
    ∃ text, explainPlan debug fuel sql stats = .ok text

/-- Planning is sound exactly when the products over the exact fractions fit in
64 bits and the fraction that is left is bounded. -/
theorem sound_iff : stmt.Sound stats ↔ stmt.Fits stats ∧ stmt.Bounded stats := by
  constructor
  · rintro ⟨_, ⟨plan, hplan, hle⟩, _⟩
    have hfits := fits_of_planSelect hplan
    obtain ⟨plan', hplan', hrows⟩ := planSelect_of_fits (E := ParseError) hfits
    rw [hplan', Except.ok.injEq] at hplan
    subst hplan
    rw [hrows] at hle
    exact ⟨hfits, (stmt.estimate_le_iff stats).mp hle⟩
  · rintro ⟨hfits, hbounded⟩
    obtain ⟨plan, hplan, hrows⟩ := planSelect_of_fits (E := ParseError) hfits
    refine ⟨?_, ⟨plan, hplan, ?_⟩, ?_⟩
    · intro expr p _ hsel
      rw [((selectivity_eq_ok expr p).mp hsel).2]
      exact expr.odds_pos
    · rw [hrows]
      exact (stmt.estimate_le_iff stats).mpr hbounded
    · intro debug fuel sql hparse
      simp only [explainPlan, hparse, hplan, ok_bind]
      exact ⟨_, rfl⟩

end SelectStatement

theorem not_sound_of_planned (rows : Result ParseError Nat) {fuel : Nat} {sql : String}
    {stats : TableStats}
    (h : (parseSelect fuel sql >>= fun stmt =>
      .ok (planSelect stmt stats >>= fun plan => .ok plan.estimatedRows)) = .ok rows)
    (hrows : ∀ n, rows = .ok n → stats.rowCount < n) :
    ∃ stmt, parseSelect fuel sql = .ok stmt ∧ ¬ stmt.Sound stats := by
  obtain ⟨stmt, hparse, hplanned⟩ := bind_eq_ok.mp h
  refine ⟨stmt, hparse, ?_⟩
  rintro ⟨_, ⟨plan, hplan, hle⟩, _⟩
  rw [hplan, ok_bind, Except.ok.injEq] at hplanned
  have hlt := hrows _ hplanned.symm
  omega

/-- Grouping an empty table is planned with one row, and ten `IN` lists under `AND`
multiply to a denominator of `100 ^ 10`. -/
theorem grouping_and_long_conjunction :
    (∃ stmt, parseSelect 20 "SELECT a FROM t GROUP BY a" = .ok stmt ∧ ¬ stmt.Sound ⟨0⟩) ∧
    ¬ SelectStatement.Sound
      { selectAll (.named "t" none) with
        filter := some ((List.replicate 9 (.inInt "a" [1])).foldl Expr.and (.inInt "a" [1])) }
      ⟨1⟩ := by
  constructor
  · apply not_sound_of_planned (.ok 1) (by decide +kernel)
    intro n hn
    cases hn
    decide
  · rw [SelectStatement.sound_iff]
    rintro ⟨hfits, _⟩
    have hproduct := (hfits _ rfl).1.2.2.2
    exact absurd hproduct (by decide)

end Oikos.Archon.Relational
