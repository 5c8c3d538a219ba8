/-
Proof erasure: refinements become structs, casts and contracts go, and every expression
is annotated with its erased type.
-/
import Oikos.Eidos.Kernel

namespace Oikos.Eidos

/-- A type with all refinement information stripped. -/
inductive CoreType where
  | base (name : String)
  | array (elem : CoreType) (length : UInt64)
  | named (name : String)
deriving Repr, DecidableEq

/-- A struct of the core language. -/
structure StructDef where
  name : String
  fields : List (String × CoreType)
deriving Repr, DecidableEq

mutual

inductive CExpr where
  | mk (ty : CoreType) (kind : CExprKind)

/-- The core expressions; refinements are gone. -/
inductive CExprKind where
  | num (n : F64)
  | bool (b : Bool)
  | var (name : String)
  | arrayLit (elems : List CExpr)
  | bin (op : BinOp) (a b : CExpr)
  | un (op : UnOp) (a : CExpr)
  | ifThen (cond then_ els : CExpr)
  | letIn (name : String) (value body : CExpr)
  | call (func : String) (args : List CExpr)
  | method (recv : CExpr) (name : String) (args : List CExpr)
  | lambda (params : List Pattern) (body : CExpr)
  | record (fields : List (String × CExpr))
  | ret (value : CExpr)

end

def CExpr.ty : CExpr → CoreType
  | .mk ty _ => ty

def CExpr.withType : CExpr → CoreType → CExpr
  | .mk _ kind, ty => .mk ty kind

/-- A function without its contract. -/
structure CoreFun where
  name : String
  params : List (String × CoreType)
  ret : CoreType
  body : CExpr

/-- What is left of a module. -/
structure CoreModule where
  structs : List StructDef
  fns : List CoreFun

/-- What the erasure has declared so far, and the types of the variables in scope. The
latest return type of a function comes first. -/
structure Eraser where
  structOf : List String
  structs : List StructDef
  retOf : List (String × CoreType)
  counter : Nat
  env : List (String × CoreType)

namespace Eraser

def empty : Eraser :=
  ⟨[], [], [], 0, []⟩

def bindVar (er : Eraser) (name : String) (ty : CoreType) : Eraser :=
  { er with env := (name, ty) :: er.env.filter fun p => p.1 != name }

def unbindVar (er : Eraser) (name : String) : Eraser :=
  { er with env := er.env.filter fun p => p.1 != name }

/-- A refinement in the middle of a type becomes a struct with a name of its own. -/
def freshStruct (er : Eraser) (bind : String) (ty : CoreType) : CoreType × Eraser :=
  let name := "_Ref" ++ toString er.counter
  (.named name,
    { er with counter := er.counter + 1, structs := er.structs ++ [⟨name, [(bind, ty)]⟩] })

/-- The struct with just these fields, by which a record is named. -/
def structFor (er : Eraser) (fields : List String) : Option StructDef :=
  er.structs.find? fun s => s.fields.map Prod.fst == fields

end Eraser

def Ty.isRefine : Ty → Bool
  | .refine _ _ _ => true
  | _ => false

section Erase

variable (aliases : List (String × Ty))

def eraseType : Nat → Ty → Eraser → Option (CoreType × Eraser)
  | fuel + 1, .named n, er =>
    match assocGet aliases n with
    | some aliased =>
      if aliased.isRefine && er.structOf.contains n then some (.named n, er)
      else eraseType fuel aliased er
    | none => some (.named n, er)
  | 0, .named _, _ => none
  | _, .base s, er => some (.base s, er)
  | fuel, .array inner n, er => do
    let (elem, er) ← eraseType fuel inner er
    some (.array elem n, er)
  | fuel, .refine bind base _, er => do
    let (field, er) ← eraseType fuel base er
    some (er.freshStruct bind field)

/-- An alias of a refinement becomes a struct under the alias's name. -/
def declareStructFor (fuel : Nat) (name : String) (ty : Ty) (er : Eraser) : Option Eraser :=
  match ty with
  | .refine bind base _ => do
    let (field, er) ← eraseType aliases fuel base er
    some { er with
      structs := er.structs ++ [⟨name, [(bind, field)]⟩]
      structOf := name :: er.structOf }
  | _ => some er

/-- The result types of the methods that the language knows. -/
def methodType (recv : CExpr) (name : String) : CoreType :=
  if name = "len" then .base "usize"
  else if name = "magnitude" then .base "f64"
  else if name = "map" then
    match recv.ty with
    | .array inner n => .array inner n
    | _ => .array (.base "f64") 0
  else if name = "zip" then
    match recv.ty with
    | .array _ n => .array (.base "f64") n
    | _ => .array (.base "f64") 0
  else .base "f64"

def BinOp.resultType : BinOp → CoreType
  | .lt | .gt | .le | .ge | .eq | .ne | .and | .or => .base "bool"
  | _ => .base "f64"

def UnOp.resultType : UnOp → CoreType
  | .neg => .base "f64"
  | .not => .base "bool"

/-- The type of an array literal's elements is that of the last one. -/
def elemType (es : List CExpr) : CoreType :=
  (es.getLast?.map CExpr.ty).getD (.base "_")

mutual

def eraseExpr (fuel : Nat) : Expr → Eraser → Option (CExpr × Eraser)
  | .num n, er => some (.mk (.base "f64") (.num n), er)
  | .bool b, er => some (.mk (.base "bool") (.bool b), er)
  | .var v, er => some (.mk ((assocGet er.env v).getD (.base "_")) (.var v), er)
  | .arrayLit es, er => do
    let (cs, er) ← eraseAll fuel es er
    some (.mk (.array (elemType cs) (UInt64.ofNat cs.length)) (.arrayLit cs), er)
  | .bin op a b, er => do
    let (ca, er) ← eraseExpr fuel a er
    let (cb, er) ← eraseExpr fuel b er
    some (.mk op.resultType (.bin op ca cb), er)
  | .un op a, er => do
    let (ca, er) ← eraseExpr fuel a er
    some (.mk op.resultType (.un op ca), er)
  | .ifThen cond then_ els, er => do
    let (cc, er) ← eraseExpr fuel cond er
    let (ct, er) ← eraseExpr fuel then_ er
    let (ce, er) ← eraseExpr fuel els er
    some (.mk ct.ty (.ifThen cc ct ce), er)
  -- an outer variable of the name is gone afterwards
  | .letIn name value body, er => do
    let (cv, er) ← eraseExpr fuel value er
    let (cb, er) ← eraseExpr fuel body (er.bindVar name cv.ty)
    some (.mk cb.ty (.letIn name cv cb), er.unbindVar name)
  | .call func args, er => do
    let (cs, er) ← eraseAll fuel args er
    some (.mk ((assocGet er.retOf func).getD (.base "_")) (.call func cs), er)
  | .method recv name args, er => do
    let (cr, er) ← eraseExpr fuel recv er
    let (cs, er) ← eraseAll fuel args er
    some (.mk (methodType cr name) (.method cr name cs), er)
  | .lambda params body, er => do
    let (cb, er) ← eraseExpr fuel body er
    some (.mk cb.ty (.lambda params cb), er)
  | .record fields, er => do
    let (cs, er) ← eraseFields fuel fields er
    let ty := ((er.structFor (fields.map Prod.fst)).map fun s => CoreType.named s.name).getD
      (.base "_")
    some (.mk ty (.record cs), er)
  | .cast value ty, er => do
    let (target, er) ← eraseType aliases fuel ty er
    let (cv, er) ← eraseExpr fuel value er
    some (cv.withType target, er)
  | .ret e, er => do
    let (ce, er) ← eraseExpr fuel e er
    some (.mk ce.ty (.ret ce), er)

def eraseAll (fuel : Nat) : List Expr → Eraser → Option (List CExpr × Eraser)
  | [], er => some ([], er)
  | e :: es, er => do
    let (c, er) ← eraseExpr fuel e er
    let (cs, er) ← eraseAll fuel es er
    some (c :: cs, er)

def eraseFields (fuel : Nat) : List (String × Expr) → Eraser →
    Option (List (String × CExpr) × Eraser)
  | [], er => some ([], er)
  | (f, e) :: fields, er => do
    let (c, er) ← eraseExpr fuel e er
    let (cs, er) ← eraseFields fuel fields er
    some ((f, c) :: cs, er)

end

def eraseParams (fuel : Nat) : List (String × Ty) → Eraser →
    Option (List (String × CoreType) × Eraser)
  | [], er => some ([], er)
  | (name, ty) :: params, er => do
    let (ct, er) ← eraseType aliases fuel ty er
    let (rest, er) ← eraseParams fuel params (er.bindVar name ct)
    some ((name, ct) :: rest, er)

/-- The return type is the latest one of the function's name. -/
def eraseFun (fuel : Nat) (f : Fun) (er : Eraser) : Option (CoreFun × Eraser) := do
  let (params, er) ← eraseParams aliases fuel f.params { er with env := [] }
  let (ret, er) ← match assocGet er.retOf f.name with
    | some ret => some (ret, er)
    | none => eraseType aliases fuel f.ret er
  let (body, er) ← eraseExpr aliases fuel f.body er
  some (⟨f.name, params, ret, body⟩, er)

def declareStructs (fuel : Nat) : List Item → Eraser → Option Eraser
  | [], er => some er
  | .typeAlias name ty :: items, er => do
    let er ← declareStructFor aliases fuel name ty er
    declareStructs fuel items er
  | .fn _ :: items, er => declareStructs fuel items er

def eraseReturns (fuel : Nat) : List Fun → Eraser → Option Eraser
  | [], er => some er
  | f :: fs, er => do
    let (ret, er) ← eraseType aliases fuel f.ret er
    eraseReturns fuel fs { er with retOf := (f.name, ret) :: er.retOf }

def eraseFuns (fuel : Nat) : List Fun → Eraser → Option (List CoreFun × Eraser)
  | [], er => some ([], er)
  | f :: fs, er => do
    let (c, er) ← eraseFun aliases fuel f er
    let (cs, er) ← eraseFuns fuel fs er
    some (c :: cs, er)

end Erase

/-- Structs first, then the result types of all functions, then their bodies. -/
def eraseWithin (fuel : Nat) (m : Module) : Option CoreModule := do
  let er ← declareStructs m.aliases fuel m.items .empty
  let er ← eraseReturns m.aliases fuel m.funs er
  let (fns, er) ← eraseFuns m.aliases fuel m.funs er
  some ⟨er.structs, fns⟩

/-- The computational core, unless aliases lead in a circle. -/
def erase (m : Module) : Option CoreModule :=
  eraseWithin (m.aliases.length + 1) m

end Oikos.Eidos
