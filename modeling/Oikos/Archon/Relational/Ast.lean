/-
The syntax trees that the SQL parser of `tpt-archon-relational` hands to the
engine.
-/
import Mathlib.Algebra.Order.Ring.Nat

namespace Oikos.Archon.Relational

/-- A 32-bit float, kept as its bits: rows store and order floats by their bits,
and only arithmetic looks at their values. -/
structure F32 where
  bits : UInt32
deriving Repr, DecidableEq

inductive CmpOp where
  | eq
  | ne
  | lt
  | le
  | gt
  | ge
deriving Repr, DecidableEq

inductive Literal where
  | int (i : Int64)
  | text (t : String)
  | vector (v : List F32)
  | null
deriving Repr, DecidableEq

structure OrderBy where
  column : String
  descending : Bool
deriving Repr, DecidableEq

inductive AggregateFunc where
  | count
  | sum
  | avg
  | min
  | max
deriving Repr, DecidableEq

inductive ColumnType where
  | int
  | text
  | vector
deriving Repr, DecidableEq

structure ColumnDef where
  name : String
  ctype : ColumnType
deriving Repr, DecidableEq

inductive JoinType where
  | inner
deriving Repr, DecidableEq

/-- `ORDER BY cosine(column, ?) LIMIT k`; placeholders are numbered from 1. -/
structure OrderByCosine where
  column : String
  param : Nat
  k : UInt64
deriving Repr, DecidableEq

structure Aggregate where
  aliasName : String
  func : AggregateFunc
  column : String
deriving Repr, DecidableEq

mutual

/-- A boolean expression of a `WHERE` or `HAVING` clause. -/
inductive Expr where
  | cmp (column : String) (op : CmpOp) (value : Literal)
  | cmpColumn (left : String) (op : CmpOp) (right : String)
  | isNull (column : String) (negated : Bool)
  | like (column : String) (pattern : String)
  | inInt (column : String) (values : List Int64)
  | betweenInt (column : String) (low high : Int64)
  | and (l r : Expr)
  | or (l r : Expr)
  | not (inner : Expr)
  | exists (query : SelectStatement)
  | inSubquery (column : String) (query : SelectStatement)
  | scalarCmp (column : String) (op : CmpOp) (query : SelectStatement)
  | agg (func : AggregateFunc) (column : String)

inductive TableRef where
  | named (name : String) (aliasName : Option String)
  | subquery (query : SelectStatement) (aliasName : String)

structure Join where
  jtype : JoinType
  table : TableRef
  leftCol : String
  rightCol : String

structure SelectStatement where
  columns : List String
  star : Bool
  table : TableRef
  filter : Option Expr
  joins : List Join
  groupBy : List String
  aggregates : List Aggregate
  orderBy : List OrderBy
  orderByCosine : Option OrderByCosine
  limit : Option UInt64
  having : Option Expr
  withCtes : List CTE

/-- A common table expression. -/
structure CTE where
  name : String
  query : SelectStatement

end

namespace TableRef

/-- The name the reference is known by. -/
def name : TableRef → String
  | .named name aliasName => aliasName.getD name
  | .subquery _ aliasName => aliasName

def tableName : TableRef → String
  | .named name _ => name
  | .subquery _ aliasName => aliasName

end TableRef

/-- `SELECT * FROM ref`. -/
def selectAll (ref : TableRef) : SelectStatement :=
  ⟨[], true, ref, none, [], [], [], [], none, none, none, []⟩

namespace Expr

def subqueryNodes : Expr → List Expr
  | .and l r => l.subqueryNodes ++ r.subqueryNodes
  | .or l r => l.subqueryNodes ++ r.subqueryNodes
  | .not inner => inner.subqueryNodes
  | .exists query => [.exists query]
  | .inSubquery column query => [.inSubquery column query]
  | .scalarCmp column op query => [.scalarCmp column op query]
  | _ => []

def subqueries : Expr → List SelectStatement
  | .and l r => l.subqueries ++ r.subqueries
  | .or l r => l.subqueries ++ r.subqueries
  | .not inner => inner.subqueries
  | .exists query => [query]
  | .inSubquery _ query => [query]
  | .scalarCmp _ _ query => [query]
  | _ => []

end Expr

/-- Neither the query nor a subquery of its `WHERE` and `HAVING` clauses is
ordered by `cosine`. -/
inductive CosineFree : SelectStatement → Prop
  | mk {s : SelectStatement} : s.orderByCosine = none →
      (∀ e, s.filter = some e → ∀ q ∈ e.subqueries, CosineFree q) →
      (∀ e, s.having = some e → ∀ q ∈ e.subqueries, CosineFree q) → CosineFree s

structure Assignment where
  column : String
  value : Literal
deriving Repr, DecidableEq

structure InsertStatement where
  table : String
  columns : List String
  values : List Literal
deriving Repr, DecidableEq

structure UpdateStatement where
  table : String
  assignments : List Assignment
  filter : Option Expr

structure DeleteStatement where
  table : String
  filter : Option Expr

structure CreateTableStatement where
  table : String
  columns : List ColumnDef
deriving Repr, DecidableEq

structure CreateViewStatement where
  name : String
  query : SelectStatement

inductive AlterTableOp where
  | addColumn (col : ColumnDef)
  | dropColumn (name : String)
  | renameColumn (oldName newName : String)
deriving Repr, DecidableEq

structure AlterTableStatement where
  table : String
  op : AlterTableOp
deriving Repr, DecidableEq

inductive Statement where
  | select (s : SelectStatement)
  | insert (i : InsertStatement)
  | update (u : UpdateStatement)
  | delete (d : DeleteStatement)
  | createTable (ct : CreateTableStatement)
  | createView (cv : CreateViewStatement)
  | dropView (name : String)
  | alterTable (alter : AlterTableStatement)
  | begin
  | commit
  | rollback

end Oikos.Archon.Relational
