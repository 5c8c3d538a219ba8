/-
The planner and executor of `tpt-archon-relational`.  A `SELECT` becomes a tree of plan
nodes with an estimate of the rows it processes, made in 64-bit arithmetic that panics where
it overflows; the plan is executed on a table in memory.
-/
import Std.Data.TreeMap
import Oikos.Archon.Relational.Ast
import Oikos.Lib.Vec

namespace Oikos.Archon.Relational

section Planner

structure TableStats where
  rowCount : Nat
deriving Repr, DecidableEq

inductive Dispatch where
  | cpu
  | gpu
deriving Repr, DecidableEq

mutual

inductive PlanNode where
  | scan (table : String) (vectorized : Bool)
  | filter (expr : Expr) (input : PlanNode)
  | project (columns : List String) (star : Bool) (input : PlanNode)
  | limit (n : UInt64) (input : PlanNode)
  | sort (columns : List OrderBy) (input : PlanNode)
  | aggregate (groupBy : List String) (aggregates : List Aggregate) (having : Option Expr)
      (input : PlanNode)
  | subqueryScan (plan : Plan) (aliasName : String)

structure Plan where
  root : PlanNode
  estimatedRows : Nat
  dispatch : Dispatch

end

def vectorizeRowThreshold : Nat := 1024

universe u

variable {E : Type u}

/-- A 64-bit number, with a panic where it does not fit. -/
def checkedU64 (n : Nat) : Result E Nat :=
  if n < 2 ^ 64 then .ok n else .error .panic

/-- The fraction of rows kept by a predicate, as numerator and denominator. -/
def selectivity : Expr → Result E (Nat × Nat)
  | .cmp _ .eq _ => .ok (1, 10)
  | .cmp _ .ne _ => .ok (9, 10)
  | .cmp _ _ _ => .ok (1, 3)
  | .isNull _ negated => .ok (if negated then (19, 20) else (1, 20))
  | .like _ _ => .ok (1, 5)
  | .inInt _ values => .ok (Nat.max values.length 1, 100)
  | .betweenInt _ _ _ => .ok (1, 3)
  | .cmpColumn _ .eq _ => .ok (1, 10)
  | .cmpColumn _ _ _ => .ok (1, 3)
  | .and l r => do
    let (a, b) ← selectivity l
    let (c, d) ← selectivity r
    let num ← checkedU64 (a * c)
    let den ← checkedU64 (b * d)
    .ok (Nat.max num 1, den)
  | .or l r => do
    let (a, b) ← selectivity l
    let (c, d) ← selectivity r
    let ad ← checkedU64 (a * d)
    let cb ← checkedU64 (c * b)
    let total ← checkedU64 (ad + cb)
    let both ← checkedU64 (a * c)
    let num ← if both ≤ total then .ok (total - both) else .error .panic
    let den ← checkedU64 (b * d)
    .ok (if num ≥ den then (1, 1) else (Nat.max num 1, den))
  | .not inner => do
    let (a, b) ← selectivity inner
    .ok (Nat.max (b - a) 1, b)
  | .exists _ => .ok (1, 3)
  | .inSubquery _ _ => .ok (1, 3)
  | .scalarCmp _ _ _ => .ok (1, 3)
  | .agg _ _ => .ok (1, 3)

/-- `a.div_ceil(b)`. -/
def divCeil (a b : Nat) : Nat :=
  a / b + if a % b = 0 then 0 else 1

/-- Plan a `SELECT`.  The engine is built without the `gpu` feature. -/
def planSelect (stmt : SelectStatement) (stats : TableStats) : Result E Plan := do
  let node := PlanNode.scan stmt.table.name (decide (stats.rowCount ≥ vectorizeRowThreshold))
  let (node, estimated) ←
    match stmt.filter with
    | none => .ok (node, stats.rowCount)
    | some expr => do
      let (num, den) ← selectivity expr
      let scaled ← checkedU64 (stats.rowCount * num)
      .ok (PlanNode.filter expr node, divCeil scaled den)
  let (node, estimated) :=
    if !stmt.groupBy.isEmpty || !stmt.aggregates.isEmpty then
      (PlanNode.aggregate stmt.groupBy stmt.aggregates stmt.having node,
        if stmt.groupBy.isEmpty then estimated else Nat.max (divCeil estimated 10) 1)
    else (node, estimated)
  let node := PlanNode.project stmt.columns stmt.star node
  let node := if stmt.orderBy.isEmpty then node else PlanNode.sort stmt.orderBy node
  let (node, estimated) :=
    match stmt.limit with
    | none => (node, estimated)
    | some n => (PlanNode.limit n node, Nat.min estimated n.toNat)
  .ok ⟨node, estimated, .cpu⟩

end Planner

section Executor

inductive Value where
  | int (i : Int64)
  | text (t : String)
  | vector (v : List F32)
  | null
deriving Repr, DecidableEq

abbrev Row := List Value

structure Table where
  columns : List String
  rows : List Row
deriving Repr, DecidableEq

structure ResultSet where
  columns : List String
  rows : List Row
deriving Repr, DecidableEq

inductive ExecError where
  | unknownColumn (column : String)
  | typeMismatch
  | groupByColumnNotFound (column : String)
  | unresolvedSubquery
deriving Repr, DecidableEq

namespace F32

def toFloat (x : F32) : Float32 :=
  Float32.ofBits x.bits

def ofFloat (x : Float32) : F32 :=
  ⟨x.toBits⟩

end F32

namespace Value

/-- The derived equality: floats are compared as numbers, so a vector with a NaN
is not equal to itself. -/
def eq : Value → Value → Bool
  | .int a, .int b => a == b
  | .text a, .text b => a == b
  | .vector a, .vector b =>
    a.length == b.length && (a.zip b).all fun p => p.1.toFloat == p.2.toFloat
  | .null, .null => true
  | _, _ => false

/-- The total order of values; `NULL` comes last. -/
def cmp : Value → Value → Ordering
  | .int a, .int b => compare a b
  | .text a, .text b => compare a b
  | .vector a, .vector b =>
    (compare a.length b.length).then
      (((a.zip b).map fun p => compare p.1.bits p.2.bits).find? (· != .eq) |>.getD .eq)
  | .null, .null => .eq
  | .null, _ => .gt
  | _, .null => .lt
  | .int _, _ => .lt
  | _, .int _ => .gt
  | .text _, _ => .lt
  | _, .text _ => .gt

def isNull : Value → Bool
  | .null => true
  | _ => false

end Value

/-! ### Expressions -/

section Expressions

universe u

variable {E : Type u}

/-- The part of a column name after its last dot. -/
def unqualified (name : String) : String :=
  String.ofList ((name.toList.reverse.takeWhile (· != '.')).reverse)

def isQualified (name : String) : Bool :=
  name.toList.contains '.'

abbrev Scope := List String × Row

/-- The first column that satisfies `p`, in the innermost scope that has one. -/
def findInScopes (p : String → Bool) : List Scope → Option (Nat × Row)
  | [] => none
  | (columns, row) :: outer =>
    match columns.findIdx? p with
    | some idx => some (idx, row)
    | none => findInScopes p outer

def findValue (name : String) (columns : List String) (row : Row) (outer : List Scope) :
    Result E (Option Value) := do
  let found :=
    match columns.findIdx? (· == name) with
    | some idx => some (idx, row)
    | none =>
      if isQualified name then
        match findInScopes (· == name) outer with
        | some hit => some hit
        | none =>
          findInScopes (fun c => unqualified c == unqualified name) ((columns, row) :: outer)
      else findInScopes (fun c => unqualified c == name) ((columns, row) :: outer)
  match found with
  | none => .ok none
  | some (idx, row) =>
    let v ← index row idx
    .ok (some v)

/-- A column that must resolve. -/
def column (name : String) (columns : List String) (row : Row) (outer : List Scope) :
    Result ExecError Value := do
  match ← findValue name columns row outer with
  | some v => .ok v
  | none => .error (.err (.unknownColumn name))

/-- The operator holds of operands that compare like this. -/
def CmpOp.holds : CmpOp → Ordering → Bool
  | .eq, ord => ord == .eq
  | .ne, ord => ord != .eq
  | .lt, ord => ord == .lt
  | .le, ord => ord != .gt
  | .gt, ord => ord == .gt
  | .ge, ord => ord != .lt

def evalCmp {α : Type} [Ord α] (op : CmpOp) (lhs rhs : α) : Bool :=
  op.holds (compare lhs rhs)

/-- `LIKE` on bytes: `%` matches any sequence, `_` one byte. -/
def likeRecurse : List UInt8 → List UInt8 → Bool
  | text, [] => text.isEmpty
  | text, p :: pat =>
    if p = 37 then text.tails.any fun rest => likeRecurse rest pat
    else
      match text with
      | [] => false
      | t :: text => if p = 95 then likeRecurse text pat else t == p && likeRecurse text pat
termination_by _ pat => pat

/-- The UTF-8 bytes of a text. -/
def utf8 (s : String) : List UInt8 :=
  s.toByteArray.data.toList

def likeMatch (text pattern : String) : Bool :=
  likeRecurse (utf8 text) (utf8 pattern)

def aggDefaultAlias (func : AggregateFunc) (column : String) : String :=
  let tag := match func with
    | .count => "count"
    | .sum => "sum"
    | .avg => "avg"
    | .min => "min"
    | .max => "max"
  if column == "*" then tag else tag ++ "(" ++ column ++ ")"

def evalExprScoped (columns : List String) (row : Row) (outer : List Scope) :
    Expr → Result ExecError Bool
  | .cmp name op value => do
    let v ← column name columns row outer
    match v, value with
    | .null, _ => .ok false
    | _, .null => .ok false
    | .int v, .int rhs => .ok (evalCmp op v rhs)
    | .text v, .text rhs => .ok (evalCmp op v rhs)
    | _, _ => .error (.err .typeMismatch)
  | .cmpColumn left op right => do
    let lv ← column left columns row outer
    let rv ← column right columns row outer
    match lv, rv with
    | .null, _ => .ok false
    | _, .null => .ok false
    | .int l, .int r => .ok (evalCmp op l r)
    | .text l, .text r => .ok (evalCmp op l r)
    | _, _ => .error (.err .typeMismatch)
  | .isNull name negated => do
    let v ← column name columns row outer
    .ok (v.isNull != negated)
  | .like name pattern => do
    let v ← column name columns row outer
    match v with
    | .text t => .ok (likeMatch t pattern)
    | _ => .ok false
  | .inInt name values => do
    let v ← column name columns row outer
    match v with
    | .int v => .ok (values.contains v)
    | _ => .ok false
  | .betweenInt name low high => do
    let v ← column name columns row outer
    match v with
    | .int v => .ok (decide (low ≤ v) && decide (v ≤ high))
    | _ => .ok false
  | .and l r => do
    if ← evalExprScoped columns row outer l then evalExprScoped columns row outer r
    else .ok false
  | .or l r => do
    if ← evalExprScoped columns row outer l then .ok true
    else evalExprScoped columns row outer r
  | .not inner => do
    let b ← evalExprScoped columns row outer inner
    .ok !b
  | .agg func name => do
    let v ← column (aggDefaultAlias func name) columns row outer
    .ok !v.isNull
  | .exists _ => .error (.err .unresolvedSubquery)
  | .inSubquery _ _ => .error (.err .unresolvedSubquery)
  | .scalarCmp _ _ _ => .error (.err .unresolvedSubquery)

def evalExpr (expr : Expr) (columns : List String) (row : Row) : Result ExecError Bool :=
  evalExprScoped columns row [] expr

/-- Keep the rows on which the predicate holds, up to the first error. -/
def filterRows (p : Row → Result E Bool) : List Row → Result E (List Row)
  | [] => .ok []
  | row :: rows => do
    let keep ← p row
    let rest ← filterRows p rows
    .ok (if keep then row :: rest else rest)

end Expressions

/-! ### Aggregates -/

section Aggregates

def sumInts : List Int64 → Int64 → Result ExecError Int64
  | [], acc => .ok acc
  | i :: rest, acc =>
    let total := acc.toInt + i.toInt
    if -2 ^ 63 ≤ total ∧ total < 2 ^ 63 then sumInts rest (Int64.ofInt total)
    else .error .panic

def columnInts (rows : List Row) (idx : Nat) : Result ExecError (List Int64) := do
  let values ← rows.mapM fun row => index row idx
  .ok (values.filterMap fun
    | .int i => some i
    | _ => none)

def evalAggregate (func : AggregateFunc) (column : String) (columns : List String)
    (rows : List Row) : Result ExecError Value :=
  match func with
  | .count => .ok (.int (Int64.ofNat rows.length))
  | func =>
    match columns.findIdx? (· == column) with
    | none => .error (.err (.unknownColumn column))
    | some idx => do
      let ints ← columnInts rows idx
      match func with
      | .sum =>
        let total ← sumInts ints 0
        .ok (.int total)
      | .avg =>
        if ints.isEmpty then .ok (.int 0)
        else
          let total ← sumInts ints 0
          .ok (.int (total / Int64.ofNat ints.length))
      | .min =>
        .ok (.int (ints.foldl (fun m i => some (m.elim i fun m => if i < m then i else m))
          none |>.getD 0))
      | _ =>
        .ok (.int (ints.foldl (fun m i => some (m.elim i fun m => if m ≤ i then i else m))
          none |>.getD 0))

def columnIndices (columns : List String) (names : List String) :
    Result ExecError (List Nat) :=
  names.mapM fun name =>
    match columns.findIdx? (· == name) with
    | some idx => .ok idx
    | none => .error (.err (.unknownColumn name))

/-- Rows by key, in the order of the keys. -/
abbrev Groups := Std.TreeMap (List Value) (List Row) (List.compareLex Value.cmp)

/-- `GROUP BY` and aggregate projection with a way to evaluate aggregates. -/
def aggregateTableWith (evaluate : List Row → Aggregate → Result ExecError Value)
    (columns : List String) (rows : List Row) (groupBy : List String)
    (aggregates : List Aggregate) : Result ExecError ResultSet := do
  if groupBy.isEmpty then
    let row ← aggregates.mapM (evaluate rows)
    .ok ⟨aggregates.map Aggregate.aliasName, [row]⟩
  else
    let indices ← columnIndices columns groupBy
    let keyed ← rows.mapM fun row => do
      let key ← indices.mapM fun i => index row i
      .ok (key, row)
    let groups : Groups := keyed.foldl
      (fun groups p => groups.insert p.1 (groups.getD p.1 [] ++ [p.2])) ∅
    let outRows ← groups.toList.mapM fun p => do
      let first ← index p.2 0
      let key ← indices.mapM fun i => index first i
      let values ← aggregates.mapM (evaluate p.2)
      .ok (key ++ values)
    .ok ⟨groupBy ++ aggregates.map Aggregate.aliasName, outRows⟩

/-- `GROUP BY` and aggregate projection. -/
def aggregateTable (columns : List String) (rows : List Row) (groupBy : List String)
    (aggregates : List Aggregate) : Result ExecError ResultSet :=
  aggregateTableWith (fun rows a => evalAggregate a.func a.column columns rows) columns rows groupBy
    aggregates

end Aggregates

/-! ### Plans -/

section Plans

/-- Compare two rows by the sort keys; `none` if a key is outside a row. -/
def cmpRows : List (Nat × Bool) → Row → Row → Option Ordering
  | [], _, _ => some .eq
  | (idx, descending) :: keys, a, b => do
    let x ← a[idx]?
    let y ← b[idx]?
    let ord := if descending then (x.cmp y).swap else x.cmp y
    if ord = .eq then cmpRows keys a b else some ord

def sortRows {E : Type} (keys : List (Nat × Bool)) (rows : List Row) : Result E (List Row) :=
  if rows.Pairwise fun a b => (cmpRows keys a b).isSome then
    .ok (rows.mergeSort fun a b => cmpRows keys a b != some .gt)
  else .error .panic

def executeNode (table : Table) : PlanNode → Result ExecError ResultSet
  | .scan _ _ => .ok ⟨table.columns, table.rows⟩
  | .filter expr input => do
    let inner ← executeNode table input
    let rows ← filterRows (fun row => evalExpr expr inner.columns row) inner.rows
    .ok ⟨inner.columns, rows⟩
  | .project columns star input => do
    let inner ← executeNode table input
    if star || columns.isEmpty then .ok inner
    else
      let indices ← columnIndices inner.columns columns
      let rows ← inner.rows.mapM fun row => indices.mapM fun i => index row i
      .ok ⟨columns, rows⟩
  | .limit n input => do
    let inner ← executeNode table input
    .ok ⟨inner.columns, inner.rows.take n.toNat⟩
  | .sort columns input => do
    let inner ← executeNode table input
    let keys := columns.map fun ob =>
      ((inner.columns.findIdx? (· == ob.column)).getD 0, ob.descending)
    let rows ← sortRows keys inner.rows
    .ok ⟨inner.columns, rows⟩
  | .aggregate groupBy aggregates having input => do
    let inner ← executeNode table input
    let result ← aggregateTable inner.columns inner.rows groupBy aggregates
    match having with
    | none => .ok result
    | some hv =>
      -- a row on which the predicate fails is dropped
      let rows ← filterRows (fun row => do
        let r ← catchErr (evalExpr hv result.columns row)
        .ok (match r with
          | .ok b => b
          | .error _ => false)) result.rows
      .ok ⟨result.columns, rows⟩
  | .subqueryScan ⟨root, _, _⟩ aliasName => do
    let inner ← executeNode table root
    .ok ⟨inner.columns.map fun c => aliasName ++ "." ++ c, inner.rows⟩

def execute (plan : Plan) (table : Table) : Result ExecError ResultSet :=
  executeNode table plan.root

def dot (a b : List F32) : Float32 :=
  (a.zip b).foldl (fun sum p => sum + p.1.toFloat * p.2.toFloat) 0

/-- `partial_cmp`, with `Equal` for what cannot be compared. -/
def cmpFloat (a b : Float32) : Ordering :=
  if a < b then .lt else if b < a then .gt else .eq

/-- The positions of the `k` embeddings nearest to `query`. -/
def vectorTopk (embeddings : List (List F32)) (query : List F32) (k : Nat) : List Nat :=
  let scored := embeddings.mapIdx fun i e => (i, dot e query)
  let sorted := scored.mergeSort fun a b => cmpFloat b.2 a.2 != .gt
  (sorted.take k).map Prod.fst

end Plans

end Executor

end Oikos.Archon.Relational
