/-
The syntax trees of `telos-parser`.
-/
import Mathlib.Algebra.Order.Ring.Nat
import Mathlib.Data.String.Basic

namespace Oikos.Telos

def isNameStart (c : Char) : Bool :=
  c.isAlpha || c == '_'

def isNameChar (c : Char) : Bool :=
  c.isAlphanum || c == '_'

/-- A letter or an underscore, then letters, digits and underscores. -/
def isName (text : String) : Bool :=
  match text.toList with
  | [] => false
  | c :: cs => isNameStart c && cs.all isNameChar

/-- A word that the lexer takes for a name. -/
structure Name where
  text : String
  wf : isName text = true
deriving DecidableEq

/-- Where something stands in the source. -/
structure Span where
  line : Nat
  col : Nat
deriving Repr, DecidableEq

inductive Ty where
  | named (name : String)
  | generic (name : String) (args : List Ty)
  | tuple (elems : List Ty)
  | array (elem : Ty) (length : Nat)
  | slice (elem : Ty)

/-- The name under which the verifier looks a type up. -/
def Ty.name : Ty → String
  | .named s => s
  | .generic s _ => s
  | .tuple _ => "Tuple"
  | .array _ _ => "Array"
  | .slice _ => "Slice"

inductive UnOp where
  | neg
deriving Repr, DecidableEq

inductive BinOp where
  | add
  | sub
  | mul
  | div
  | eq
  | ne
  | lt
  | le
  | gt
  | ge
  | and
  | or
deriving Repr, DecidableEq

def BinOp.text : BinOp → String
  | .add => "+"
  | .sub => "-"
  | .mul => "*"
  | .div => "/"
  | .eq => "=="
  | .ne => "!="
  | .lt => "<"
  | .le => "<="
  | .gt => ">"
  | .ge => ">="
  | .and => "&&"
  | .or => "||"

inductive AggregateOp where
  | sum
  | min
  | max
  | count
deriving Repr, DecidableEq

def AggregateOp.opName : AggregateOp → String
  | .sum => "sum"
  | .min => "min"
  | .max => "max"
  | .count => "count"

inductive Pattern where
  | literal (n : Int)
  | var (name : Name)
  | constructor (name : Name) (fields : List Pattern)
  | wildcard

/-- The literal of `int` is a signed word of 64 bits. -/
inductive Expr where
  | int (n : Int)
  | var (name : Name)
  | field (base field : Name)
  | old (e : Expr)
  | unary (op : UnOp) (e : Expr)
  | bin (op : BinOp) (lhs rhs : Expr)
  | call (func : String) (args : List Expr)
  | methodCall (receiver : Expr) (method : Name) (args : List Expr)
  | index (receiver index : Expr)
  | ifThen (condition thenExpr elseExpr : Expr)
  | matchOn (scrutinee : Expr) (arms : List (Pattern × Expr))
  | tryOn (e : Expr)
  | forAll (var : Name) (varTy : Ty) (domain : Option Expr) (body : Expr)
  | aggregate (op : AggregateOp) (args : List Expr)
  | range (lo hi : Expr)

@[elab_as_elim] theorem Expr.operatorInduction {motive : Expr → Prop}
    (int : ∀ n, motive (.int n)) (var : ∀ v, motive (.var v)) (field : ∀ b f, motive (.field b f))
    (old : ∀ e, motive e → motive (.old e)) (unary : ∀ op e, motive e → motive (.unary op e))
    (bin : ∀ op lhs rhs, motive lhs → motive rhs → motive (.bin op lhs rhs))
    (call : ∀ func args, motive (.call func args))
    (methodCall : ∀ receiver method args, motive (.methodCall receiver method args))
    (index : ∀ receiver index, motive (.index receiver index))
    (ifThen : ∀ condition thenExpr elseExpr, motive (.ifThen condition thenExpr elseExpr))
    (matchOn : ∀ scrutinee arms, motive (.matchOn scrutinee arms))
    (tryOn : ∀ e, motive (.tryOn e))
    (forAll : ∀ v ty domain body, motive (.forAll v ty domain body))
    (aggregate : ∀ op args, motive (.aggregate op args))
    (range : ∀ lo hi, motive (.range lo hi)) : (e : Expr) → motive e
  | .int n => int n
  | .var v => var v
  | .field b f => field b f
  | .old e => old e (operatorInduction int var field old unary bin call methodCall index ifThen
      matchOn tryOn forAll aggregate range e)
  | .unary op e => unary op e (operatorInduction int var field old unary bin call methodCall index
      ifThen matchOn tryOn forAll aggregate range e)
  | .bin op lhs rhs => bin op lhs rhs
      (operatorInduction int var field old unary bin call methodCall index ifThen matchOn tryOn
        forAll aggregate range lhs)
      (operatorInduction int var field old unary bin call methodCall index ifThen matchOn tryOn
        forAll aggregate range rhs)
  | .call func args => call func args
  | .methodCall receiver method args => methodCall receiver method args
  | .index receiver i => index receiver i
  | .ifThen condition thenExpr elseExpr => ifThen condition thenExpr elseExpr
  | .matchOn scrutinee arms => matchOn scrutinee arms
  | .tryOn e => tryOn e
  | .forAll v ty domain body => forAll v ty domain body
  | .aggregate op args => aggregate op args
  | .range lo hi => range lo hi

inductive AssignOp where
  | set
  | add
  | sub
deriving Repr, DecidableEq

/-- An assignment, or one that adds to or takes from its target. -/
structure Assign where
  target : Expr
  op : AssignOp
  value : Expr

inductive Stmt where
  | mutateState (assigns : List Assign)
  | assign (a : Assign)
  | letIn (name : Name) (ty : Option Ty) (value : Expr)
  | ifThen (condition : Expr) (thenBody : List Stmt) (elseBody : Option (List Stmt))
  | matchOn (scrutinee : Expr) (arms : List (Pattern × List Stmt))
  | ret (value : Option Expr)

/-- What always holds of the values of a type. -/
structure Invariant where
  name : String
  constraints : List Expr
  span : Span
  constraintSpans : List Span

structure Param where
  name : Name
  ty : Ty

/-- What the verifier sees of a function. -/
structure Func where
  name : Name
  params : List Param
  requires : List Expr
  ensures : List Expr
  body : List Stmt
  /-- The body was left out, for the agent to provide. -/
  elided : Bool
  span : Span
  ensuresSpans : List Span

/-- What the verifier sees of an item. -/
inductive Item where
  | invariant (inv : Invariant)
  | func (f : Func)
  | other

structure Module where
  items : List Item

end Oikos.Telos
