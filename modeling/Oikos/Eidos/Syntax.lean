/-
The syntax trees of `tpt-eidos-parser`, and the texts that the kernel makes of them.
-/
import Oikos.Lib.Double

namespace Oikos.Eidos

inductive BinOp where
  | add
  | sub
  | mul
  | div
  | rem
  | lt
  | gt
  | le
  | ge
  | eq
  | ne
  | and
  | or
deriving Repr, DecidableEq

inductive UnOp where
  | neg
  | not
deriving Repr, DecidableEq

inductive Pattern where
  | var (name : String)
  | tuple (patterns : List Pattern)

mutual

/-- Types; a refinement binds a name in its predicate. -/
inductive Ty where
  | base (name : String)
  | array (elem : Ty) (length : UInt64)
  | refine (bind : String) (ty : Ty) (pred : Expr)
  | named (name : String)

/-- Expressions; a `lambda` occurs as the argument of a method only. -/
inductive Expr where
  | num (n : F64)
  | bool (b : Bool)
  | var (name : String)
  | arrayLit (elems : List Expr)
  | bin (op : BinOp) (a b : Expr)
  | un (op : UnOp) (a : Expr)
  | ifThen (cond then_ els : Expr)
  | letIn (name : String) (value body : Expr)
  | call (func : String) (args : List Expr)
  | method (recv : Expr) (name : String) (args : List Expr)
  | lambda (params : List Pattern) (body : Expr)
  | record (fields : List (String × Expr))
  | cast (value : Expr) (ty : Ty)
  | ret (value : Expr)

end

/-- A function with its contract. -/
structure Fun where
  name : String
  params : List (String × Ty)
  ret : Ty
  requires : Option Expr
  ensures : Option Expr
  body : Expr

inductive Item where
  | typeAlias (name : String) (ty : Ty)
  | fn (f : Fun)

structure Module where
  items : List Item

/-! ### Names -/

mutual

def patternBinds (params : List Pattern) (name : String) : Bool :=
  match params with
  | [] => false
  | p :: ps => patternBindsOne p name || patternBinds ps name

def patternBindsOne (p : Pattern) (name : String) : Bool :=
  match p with
  | .var v => v == name
  | .tuple ps => patternBinds ps name

end

mutual

/-- The variables that an expression reads from outside. -/
def Expr.freeVars : Expr → List String
  | .num _ | .bool _ => []
  | .var v => [v]
  | .arrayLit es => freeVarsAll es
  | .bin _ a b => a.freeVars ++ b.freeVars
  | .un _ a => a.freeVars
  | .ifThen cond then_ els => cond.freeVars ++ then_.freeVars ++ els.freeVars
  | .letIn name value body => value.freeVars ++ body.freeVars.filter fun v => v != name
  | .call _ args => freeVarsAll args
  | .method recv _ args => recv.freeVars ++ freeVarsAll args
  | .lambda params body => body.freeVars.filter fun v => !patternBinds params v
  | .record fields => freeVarsFields fields
  | .cast value _ => value.freeVars
  | .ret e => e.freeVars

def freeVarsAll : List Expr → List String
  | [] => []
  | e :: es => e.freeVars ++ freeVarsAll es

def freeVarsFields : List (String × Expr) → List String
  | [] => []
  | (_, e) :: fields => e.freeVars ++ freeVarsFields fields

end

theorem mem_freeVarsAll {es : List Expr} {v : String} :
    v ∈ freeVarsAll es ↔ ∃ e ∈ es, v ∈ e.freeVars := by
  induction es with
  | nil => simp [freeVarsAll]
  | cons e es ih => simp [freeVarsAll, ih]

theorem mem_freeVarsFields {fields : List (String × Expr)} {v : String} :
    v ∈ freeVarsFields fields ↔ ∃ p ∈ fields, v ∈ p.2.freeVars := by
  induction fields with
  | nil => simp [freeVarsFields]
  | cons p fields ih => simp [freeVarsFields, ih]

/-! ### Texts -/

def BinOp.text : BinOp → String
  | .add => "+"
  | .sub => "-"
  | .mul => "*"
  | .div => "/"
  | .rem => "%"
  | .lt => "<"
  | .gt => ">"
  | .le => "<="
  | .ge => ">="
  | .eq => "=="
  | .ne => "!="
  | .and => "&&"
  | .or => "||"

def UnOp.text : UnOp → String
  | .neg => "-"
  | .not => "!"

mutual

def patternTexts : List Pattern → List String
  | [] => []
  | p :: ps => patternToString p :: patternTexts ps

def patternToString : Pattern → String
  | .var v => v
  | .tuple ps => "(" ++ ", ".intercalate (patternTexts ps) ++ ")"

end

def patternsToString (params : List Pattern) : String :=
  ", ".intercalate (patternTexts params)

/-- What the standard library shows of floats, and the root that it takes. -/
structure Platform where
  display : F64 → String
  debugFloat : F64 → String
  debugString : String → String
  sqrt : F64 → F64

def Platform.plain : Platform where
  display _ := ""
  debugFloat _ := ""
  debugString s := s
  sqrt f := f

mutual

/-- The text of an expression. Bodies of lambdas, values of fields and all of casts,
returns, `if`s and `let`s are left out. -/
def exprToString (p : Platform) : Expr → String
  | .num n => p.display n
  | .bool b => if b then "true" else "false"
  | .var v => v
  | .bin op a b => "(" ++ exprToString p a ++ " " ++ op.text ++ " " ++ exprToString p b ++ ")"
  | .un op a => op.text ++ exprToString p a
  | .arrayLit es => "[" ++ ", ".intercalate (exprTexts p es) ++ "]"
  | .call func args => func ++ "(" ++ ", ".intercalate (exprTexts p args) ++ ")"
  | .method recv name args =>
    if args.isEmpty then exprToString p recv ++ "." ++ name
    else exprToString p recv ++ "." ++ name ++ "(" ++ ", ".intercalate (exprTexts p args) ++ ")"
  | .lambda params _ => "|" ++ patternsToString params ++ "| .."
  | .record fields => "\x7b" ++ ", ".intercalate (fields.map Prod.fst) ++ "\x7d"
  | .cast _ _ => "cast"
  | .ret _ => "return"
  | .ifThen _ _ _ => "if"
  | .letIn _ _ _ => "let"

def exprTexts (p : Platform) : List Expr → List String
  | [] => []
  | e :: es => exprToString p e :: exprTexts p es

end

def typeName : Ty → String
  | .base s => s
  | .named s => s
  | .array inner n => "Array<" ++ typeName inner ++ ", " ++ toString n.toNat ++ ">"
  | .refine bind ty _ => "\x7b " ++ bind ++ ": " ++ typeName ty ++ " | .. \x7d"

end Oikos.Eidos
