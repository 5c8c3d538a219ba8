/-
The Rust text of modules: the types that are declared, the signature that all backends
make of a function, and the function, also when it is left to be edited behind a guard.

The Go and the Python text of modules.
-/
import Oikos.Lib.Table
import Oikos.Telos.Codegen
import Oikos.Telos.Source

namespace Oikos.Telos

def Ty.int : Ty :=
  .named "Int"

/-! ### Types -/

abbrev Fields :=
  List (Name × Ty)

/-- The fields that each struct is given. -/
abbrev TypeFields :=
  Table String Fields

/-- The order in which a hash map of structs is gone through. -/
structure TypeOrder where
  read : TypeFields → List (String × Fields)
  perm : ∀ types, (read types).Perm types.entries

/-- Keep the type that a field already has. -/
def Fields.push (entry : Fields) (f : Name × Ty) : Fields :=
  if entry.any (·.1 == f.1) then entry else entry ++ [f]

/-- Fields are added to those that the struct has already. -/
def TypeFields.add (types : TypeFields) (ty : String) (fields : Fields) : TypeFields :=
  types.insert ty (fields.foldl Fields.push ((types.get ty).getD []))

/-- The structs and enums that a module declares; an enum has no fields. -/
def declareType (types : TypeFields) : SourceItem → TypeFields
  | .struct sd => types.add sd.name.text (sd.fields.map fun fd => (fd.name, fd.ty))
  | .enum ed => types.add ed.name.text []
  | .invariant _ | .func _ => types

/-- `collect_fields` of `telos-codegen`. -/
def collectExprFields : Expr → List (Name × Name)
  | .field base field => [(base, field)]
  | .old e => collectExprFields e
  | .unary _ e => collectExprFields e
  | .bin _ lhs rhs => collectExprFields lhs ++ collectExprFields rhs
  | _ => []

/-- The assignments of a statement, without those of nested blocks. -/
def Stmt.ownAssigns : Stmt → List Assign
  | .mutateState assigns => assigns
  | .assign a => [a]
  | _ => []

def Assign.fieldRefs (a : Assign) : List (Name × Name) :=
  (match a.target with
    | .field base field => [(base, field)]
    | _ => []) ++ collectExprFields a.value

/-- The fields that a function's contract and body name. -/
def SourceFunc.usedFields (f : SourceFunc) : List (Name × Name) :=
  (f.requires ++ f.ensures).flatMap collectExprFields ++
    (f.body.flatMap Stmt.ownAssigns).flatMap Assign.fieldRefs

/-- The fields used of a base, in the order of a `BTreeSet`, as integers. -/
def fieldsOf (used : List (Name × Name)) (base : Name) : Fields :=
  ((((used.filter (·.1 == base)).map Prod.snd).dedup).mergeSort
    fun f g => decide (f.text ≤ g.text)).map fun f => (f, .int)

/-- Fields found under a parameter's name go to the parameter's type. -/
def repoint (acc : List (Name × Name) × TypeFields) (p : SourceParam) :
    List (Name × Name) × TypeFields :=
  if acc.1.any (·.1 == p.name) then
    (acc.1.filter (·.1 != p.name), acc.2.add p.ty.name (fieldsOf acc.1 p.name))
  else acc

/-- The structs of a module: declared ones, and what the fields in use say of them. -/
def collectTypes (m : SourceModule) (types : TypeFields) : TypeFields :=
  let declared := m.items.foldl declareType types
  let used := m.funcs.flatMap SourceFunc.usedFields
  let (rest, repointed) := (m.funcs.flatMap SourceFunc.params).foldl repoint (used, declared)
  (rest.map Prod.fst).dedup.foldl
    (fun types base => types.add base.text (fieldsOf rest base)) repointed

/-! ### Signatures -/

/-- A parameter of generated code: a number, or a struct with the fields in use. -/
inductive InputParam where
  | scalar (name : Name)
  | struct (name : Name) (ty : String) (mutated : Bool) (fields : List Name)

def InputParam.name : InputParam → Name
  | .scalar name => name
  | .struct name _ _ _ => name

/-- The inputs of a function, and the variable that it returns. -/
structure FuncAnalysis where
  inputs : List InputParam
  scalarOut : Option Name

/-- The parameter that an assignment to a field changes. -/
def Assign.mutated : Assign → Option Name
  | ⟨.field base _, _, _⟩ => some base
  | _ => none

def Assign.scalar : Assign → Option Name
  | ⟨.var v, _, _⟩ => some v
  | _ => none

/-- Parameters with fields are structs; the first assigned variable is the result. -/
def analyzeFunc (f : SourceFunc) (stmts : List Stmt) (types : TypeFields) : FuncAnalysis :=
  let assigns := stmts.flatMap Stmt.ownAssigns
  let mutated := assigns.filterMap Assign.mutated
  let scalarOut := assigns.findSome? Assign.scalar
  let input (p : SourceParam) : InputParam :=
    let fields := ((types.get p.ty.name).getD []).map Prod.fst
    if fields.isEmpty then .scalar p.name
    else .struct p.name p.ty.name (mutated.contains p.name) fields
  -- The scalar that is produced is no input.
  { inputs := (f.params.filter fun p => some p.name != scalarOut).map input
    scalarOut := scalarOut }

def renderParamsSig (f : SourceFunc) : String :=
  ", ".intercalate (f.params.map fun p => p.name.text ++ ": " ++ p.ty.name)

/-- The contract as comments above a function. -/
def contractDoc (mark : String) (f : SourceFunc) : String :=
  String.join (f.requires.map fun r => mark ++ " requires: " ++ renderExprDoc r ++ "\n") ++
    String.join (f.ensures.map fun e => mark ++ " ensures:  " ++ renderExprDoc e ++ "\n")

/-! ### Statements -/

mutual

def exprContainsTry : Expr → Bool
  | .tryOn _ => true
  | .unary _ e => exprContainsTry e
  | .bin _ lhs rhs => exprContainsTry lhs || exprContainsTry rhs
  | .call _ args => anyContainsTry args
  | .methodCall receiver _ args => exprContainsTry receiver || anyContainsTry args
  | .index receiver index => exprContainsTry receiver || exprContainsTry index
  | .ifThen condition thenExpr elseExpr =>
    exprContainsTry condition || exprContainsTry thenExpr || exprContainsTry elseExpr
  | .matchOn scrutinee arms => exprContainsTry scrutinee || armsContainTry arms
  | .old e => exprContainsTry e
  | .forAll _ _ _ body => exprContainsTry body
  | .aggregate _ args => anyContainsTry args
  | .int _ | .var _ | .field _ _ | .range _ _ => false

def anyContainsTry : List Expr → Bool
  | [] => false
  | e :: es => exprContainsTry e || anyContainsTry es

def armsContainTry : List (Pattern × Expr) → Bool
  | [] => false
  | (_, e) :: arms => exprContainsTry e || armsContainTry arms

end

mutual

def stmtContainsTry : Stmt → Bool
  | .mutateState assigns => assigns.any fun a => exprContainsTry a.value
  | .assign a => exprContainsTry a.value
  | .letIn _ _ value => exprContainsTry value
  | .ifThen condition thenBody none => exprContainsTry condition || stmtsContainTry thenBody
  | .ifThen condition thenBody (some elseBody) =>
    exprContainsTry condition || stmtsContainTry thenBody || stmtsContainTry elseBody
  | .matchOn scrutinee arms => exprContainsTry scrutinee || stmtArmsContainTry arms
  | .ret none => false
  | .ret (some e) => exprContainsTry e

def stmtsContainTry : List Stmt → Bool
  | [] => false
  | s :: ss => stmtContainsTry s || stmtsContainTry ss

def stmtArmsContainTry : List (Pattern × List Stmt) → Bool
  | [] => false
  | (_, body) :: arms => stmtsContainTry body || stmtArmsContainTry arms

end

/-- `pad` repeated. -/
def indentation (pad : String) (indent : Nat) : String :=
  String.join (List.replicate indent pad)

def letText (name : Name) (ty : Option Ty) (value : Expr) : String :=
  "let " ++ name.text ++ (match ty with
    | some t => ": " ++ renderType t
    | none => "") ++ " = " ++ renderExpr value ++ ";"

def returnText : Option Expr → String
  | some e => "return " ++ renderExpr e ++ ";"
  | none => "return;"

mutual

/-- The indentation stands before what is rendered, also where a statement inside of
another has some already. -/
def renderStmtIndented (indent : Nat) (s : Stmt) : String :=
  indentation "    " indent ++ renderStmtAt indent s ++ "\n"

def renderStmtAt (indent : Nat) : Stmt → String
  | .mutateState assigns =>
    "mutate state \x7b " ++ "; ".intercalate (assigns.map renderAssign) ++ " \x7d"
  | .assign a => renderAssign a
  | .letIn name ty value => letText name ty value
  | .ifThen condition thenBody none =>
    "if " ++ renderExpr condition ++ " \x7b\n" ++
      renderStmtsIndented (indentation "    " indent ++ "    ") (indent + 1) thenBody ++
        indentation "    " indent ++ "\x7d"
  | .ifThen condition thenBody (some elseBody) =>
    "if " ++ renderExpr condition ++ " \x7b\n" ++
      renderStmtsIndented (indentation "    " indent ++ "    ") (indent + 1) thenBody ++
        indentation "    " indent ++ "\x7d" ++ " else \x7b\n" ++
          renderStmtsIndented (indentation "    " indent ++ "    ") (indent + 1) elseBody ++
            indentation "    " indent ++ "\x7d"
  | .matchOn scrutinee arms =>
    "match " ++ renderExpr scrutinee ++ " \x7b\n" ++ renderArmsIndented indent arms ++
      indentation "    " indent ++ "\x7d"
  | .ret e => returnText e

def renderStmtsIndented (lead : String) (indent : Nat) : List Stmt → String
  | [] => ""
  | s :: ss =>
    lead ++ (indentation "    " indent ++ renderStmtAt indent s ++ "\n") ++
      renderStmtsIndented lead indent ss

def renderArmsIndented (indent : Nat) : List (Pattern × List Stmt) → String
  | [] => ""
  | (p, body) :: arms =>
    indentation "    " indent ++ "    " ++ renderPattern p ++ " => \x7b\n" ++
      renderStmtsIndented (indentation "    " indent ++ "        ") (indent + 2) body ++
        indentation "    " indent ++ "\x7d\n" ++ renderArmsIndented indent arms

end

/-- The statements of a nested block. -/
def blockText (indent : Nat) (body : List Stmt) : String :=
  String.join (body.map (renderStmtIndented indent))

def bodyStmtText (scalarOut : Option Name) : Stmt → String
  | .mutateState assigns => String.join (assigns.map fun a => "    " ++ renderAssign a ++ ";\n")
  | .assign a =>
    match a.scalar with
    | some v =>
      if scalarOut = some v then "    let " ++ v.text ++ " = " ++ renderExpr a.value ++ ";\n"
      else "    " ++ renderAssign a ++ ";\n"
    | none => "    " ++ renderAssign a ++ ";\n"
  | .letIn name ty value => "    " ++ letText name ty value ++ "\n"
  | .ifThen condition thenBody elseBody =>
    "    if " ++ renderExpr condition ++ " \x7b\n" ++ blockText 2 thenBody ++ "    \x7d" ++
      (match elseBody with
        | some body => " else \x7b\n" ++ blockText 2 body ++ "    \x7d"
        | none => "") ++ "\n"
  | .matchOn scrutinee arms =>
    "    match " ++ renderExpr scrutinee ++ " \x7b\n" ++
      String.join (arms.map fun arm =>
        "        " ++ renderPattern arm.1 ++ " => \x7b\n" ++ blockText 3 arm.2 ++
          "        \x7d\n") ++
          "    \x7d\n"
  | .ret e => "    " ++ returnText e ++ "\n"

/-! ### Functions -/

def rustParam : InputParam → String
  | .scalar name => name.text ++ ": i64"
  | .struct name ty mutated _ => name.text ++ ": " ++ (if mutated then "&mut " else "&") ++ ty

/-- `render_func` of a function under another name. -/
def renderFuncNamed (f : SourceFunc) (stmts : List Stmt) (types : TypeFields) (name : String) :
    String :=
  let analysis := analyzeFunc f stmts types
  let usesTry := stmts.any stmtContainsTry
  let ret :=
    match usesTry, analysis.scalarOut with
    | true, some _ => " -> Result<i64, String>"
    | true, none => " -> Result<(), String>"
    | false, some _ => " -> i64"
    | false, none => ""
  "/// " ++ name ++ "(" ++ renderParamsSig f ++ ")\n" ++ contractDoc "///" f ++
    "pub fn " ++ name ++ "(" ++ ", ".intercalate (analysis.inputs.map rustParam) ++ ")" ++
    ret ++ " \x7b\n" ++
      String.join (stmts.map (bodyStmtText analysis.scalarOut)) ++
        (match analysis.scalarOut with
          | some v => if usesTry then "    Ok(" ++ v.text ++ ")\n" else "    " ++ v.text ++ "\n"
          | none => "") ++ "\x7d\n"

def renderFunc (f : SourceFunc) (stmts : List Stmt) (types : TypeFields) : String :=
  renderFuncNamed f stmts types f.name.text

/-! ### The guard of an ejected function -/

/-- The arguments that the wrapper passes on. -/
def callArgs (analysis : FuncAnalysis) : String :=
  ", ".intercalate (analysis.inputs.map fun i => i.name.text)

/-- The fields read below `old`, in order. -/
def walkOld (inOld : Bool) (out : List (Name × Name)) : Expr → List (Name × Name)
  | .field base field =>
    if inOld && !out.contains (base, field) then out ++ [(base, field)] else out
  | .old e => walkOld true out e
  | .unary _ e => walkOld inOld out e
  | .bin _ lhs rhs => walkOld inOld (walkOld inOld out lhs) rhs
  | _ => out

/-- The fields under an `old`, each once. -/
def collectOldFields (clauses : List Expr) : List (Name × Name) :=
  clauses.foldl (walkOld false) []

def escape (s : String) : String :=
  String.ofList (s.toList.flatMap fun c =>
    if c = '\\' then ['\\', '\\'] else if c = '"' then ['\\', '"'] else [c])

/-- The check of a clause in the wrapper of an ejected function. -/
def rustAssertion (f : SourceFunc) (scalarOut : Option Name) (post : Bool) (clause : Expr) :
    String :=
  "    assert!(" ++ rustGuardExpr clause scalarOut post ++ ", \"telos: " ++
    (if post then "postcondition" else "precondition") ++ " violated in `" ++
    f.name.text ++ "`: " ++
      escape (renderExprDoc clause) ++ "\");\n"

/-- An ejected function: an opaque body, and a wrapper that checks its contract. -/
def renderRustEjected (f : SourceFunc) (stmts : List Stmt) (types : TypeFields) : String :=
  let analysis := analyzeFunc f stmts types
  let implName := f.name.text ++ "_impl"
  let call := implName ++ "(" ++ callArgs analysis ++ ");\n"
  "// ==== EJECTED (rust): trusted opaque block for `" ++ f.name.text ++
    "`. Edit this freely. ====\n" ++
    renderFuncNamed f stmts types implName ++ "\n" ++
    "// ==== Boundary contract guard for `" ++ f.name.text ++
    "` (generated; do not edit). ====\n" ++
    "/// " ++ f.name.text ++ "(" ++ renderParamsSig f ++ ")\n" ++ contractDoc "///" f ++
    "pub fn " ++ f.name.text ++ "(" ++ ", ".intercalate (analysis.inputs.map rustParam) ++ ")" ++
      (if analysis.scalarOut.isSome then " -> i64" else "") ++ " \x7b\n" ++
    String.join (f.requires.map (rustAssertion f analysis.scalarOut false)) ++
    String.join ((collectOldFields f.ensures).map fun (base, field) =>
      "    let __old_" ++ base.text ++ "_" ++ field.text ++ " = " ++ base.text ++ "." ++
        field.text ++ ";\n") ++
    (if analysis.scalarOut.isSome then "    let __ret = " ++ call else "    " ++ call) ++
    String.join (f.ensures.map (rustAssertion f analysis.scalarOut true)) ++
    (if analysis.scalarOut.isSome then "    __ret\n" else "") ++ "\x7d\n"

/-! ### Modules -/

/-- A module with the bodies that its functions are emitted with. -/
structure Emission where
  module : SourceModule
  functions : List (SourceFunc × List Stmt)

def bannerText (m : SourceModule) : String :=
  let route := route m.attributes
  "// ===== module " ++ m.name.text ++ " (target: " ++ route.target.text ++ ", storage: " ++
    (if route.storage = .persistent then "persistent" else "ephemeral") ++ ") =====\n"

/-- A struct without fields is not emitted. -/
def rustStruct (persistent : Bool) (entry : String × Fields) : String :=
  if entry.2.isEmpty then ""
  else
    (if persistent then "#[derive(serde::Serialize, serde::Deserialize)]\n" else "") ++
      "pub struct " ++ entry.1 ++ " \x7b\n" ++
        String.join (entry.2.map fun (f, fty) => "    pub " ++ f.text ++ ": " ++
        renderType fty ++ ",\n") ++
          "\x7d\n\n"

/-- The invariant of a type as a method. -/
def rustInvariant (inv : Invariant) : String :=
  "impl " ++ inv.name ++ " \x7b\n    pub fn satisfies_invariants(&self) -> bool \x7b\n        " ++
    " && ".intercalate (inv.constraints.map renderInv) ++ "\n    \x7d\n\x7d\n\n"

def rustFunction (types : TypeFields) (f : SourceFunc × List Stmt) : String :=
  (if f.1.isEjected then renderRustEjected f.1 f.2 types else renderFunc f.1 f.2 types) ++ "\n"

def generateModule (order : TypeOrder) (types : TypeFields) (e : Emission) : String :=
  let persistent := (route e.module.attributes).storage == .persistent
  bannerText e.module ++ String.join ((order.read types).map (rustStruct persistent)) ++
    String.join (e.module.invariants.map rustInvariant) ++
      String.join (e.functions.map (rustFunction types))

def structTypes (modules : List Emission) : TypeFields :=
  modules.foldl (fun types e => collectTypes e.module types) .empty

def renderRust (order : TypeOrder) (modules : List Emission) : String :=
  "// Generated by tpt-telos. Do not edit by hand.\n" ++
    "// Mathematical contracts were verified by the tpt-telos SMT core.\n" ++
    "#![allow(dead_code)]\n\n" ++
    String.join (modules.map fun e => generateModule order (structTypes modules) e ++ "\n")

/-! ### Go -/

/-- The first letter of a type, with which Go's methods call their receiver. -/
def receiver (ty : String) : Name :=
  let text :=
    match ty.toList with
    | c :: _ => String.singleton c.toLower
    | [] => "r"
  if h : isName text then ⟨text, h⟩ else ⟨"r", .refl true⟩

def lowerFirst (name : String) : String :=
  match name.toList with
  | c :: cs => String.ofList (c.toLower :: cs)
  | [] => ""

/-- `render_assign` of the Go backend. -/
def goRenderAssign (a : Assign) : String :=
  goRenderExpr a.target ++ " " ++ a.op.text ++ " " ++ goRenderExpr a.value

mutual

def renderGoPattern : Pattern → String
  | .literal n => toString n
  | .var v => v.text
  | .constructor name [] => exported name.text
  | .constructor name (p :: ps) =>
    exported name.text ++ "(" ++ ", ".intercalate (renderGoPattern p :: renderGoPatterns ps) ++ ")"
  | .wildcard => "_"

def renderGoPatterns : List Pattern → List String
  | [] => []
  | p :: ps => renderGoPattern p :: renderGoPatterns ps

end

mutual

def renderGoStmtIndented (indent : Nat) : Stmt → String
  | .mutateState assigns =>
    String.join (assigns.map fun a => indentation "\t" indent ++ goRenderAssign a ++ "\n")
  | .assign a => indentation "\t" indent ++ goRenderAssign a ++ "\n"
  | .letIn name ty value =>
    indentation "\t" indent ++ name.text ++ " := " ++ renderTypeGo (ty.getD .int) ++ "(" ++
      goRenderExpr value ++ ")\n"
  | .ifThen condition thenBody none =>
    indentation "\t" indent ++ "if " ++ goRenderExpr condition ++ " \x7b\n" ++
      renderGoStmtsIndented (indent + 1) thenBody ++ indentation "\t" indent ++ "\x7d\n"
  | .ifThen condition thenBody (some elseBody) =>
    indentation "\t" indent ++ "if " ++ goRenderExpr condition ++ " \x7b\n" ++
      renderGoStmtsIndented (indent + 1) thenBody ++ indentation "\t" indent ++
      "\x7d else \x7b\n" ++
        renderGoStmtsIndented (indent + 1) elseBody ++ indentation "\t" indent ++ "\x7d\n"
  | .matchOn scrutinee arms =>
    indentation "\t" indent ++ "switch " ++ goRenderExpr scrutinee ++ " \x7b\n" ++
      renderGoArmsIndented indent arms ++ indentation "\t" indent ++ "\x7d\n"
  | .ret (some e) => indentation "\t" indent ++ "return " ++ goRenderExpr e ++ "\n"
  | .ret none => indentation "\t" indent ++ "return\n"

def renderGoStmtsIndented (indent : Nat) : List Stmt → String
  | [] => ""
  | s :: ss => renderGoStmtIndented indent s ++ renderGoStmtsIndented indent ss

def renderGoArmsIndented (indent : Nat) : List (Pattern × List Stmt) → String
  | [] => ""
  | (p, body) :: arms =>
    indentation "\t" indent ++ "case " ++ renderGoPattern p ++ ":\n" ++
      renderGoStmtsIndented (indent + 1) body ++ renderGoArmsIndented indent arms

end

/-- A statement of the body of a function; the scalar that is produced is bound, and all
others are written as inside of one block. -/
def goBodyStmt (scalarOut : Option Name) (s : Stmt) : String :=
  match s with
  | .assign a =>
    match a.scalar with
    | some v =>
      if scalarOut = some v then "\t" ++ v.text ++ " := " ++ goRenderExpr a.value ++ "\n"
      else renderGoStmtIndented 1 s
    | none => renderGoStmtIndented 1 s
  | s => renderGoStmtIndented 1 s

def goParam : InputParam → String
  | .scalar name => name.text ++ " int64"
  | .struct name ty mutated _ => name.text ++ (if mutated then " *" else " ") ++ ty

/-- `render_func_named` of the Go backend. -/
def goRenderFuncNamed (f : SourceFunc) (stmts : List Stmt) (types : TypeFields) (name : String) :
    String :=
  let analysis := analyzeFunc f stmts types
  "// " ++ name ++ " implements " ++ f.name.text ++ "(" ++ renderParamsSig f ++ ")\n" ++
    contractDoc "//" f ++
    "func " ++ name ++ "(" ++ ", ".intercalate (analysis.inputs.map goParam) ++ ")" ++
      (if analysis.scalarOut.isSome then " int64" else "") ++ " \x7b\n" ++
    String.join (stmts.map (goBodyStmt analysis.scalarOut)) ++
    (match analysis.scalarOut with
      | some v => "\treturn " ++ v.text ++ "\n"
      | none => "") ++ "\x7d\n"

/-- `render_func` of the Go backend. -/
def goRenderFunc (f : SourceFunc) (stmts : List Stmt) (types : TypeFields) : String :=
  goRenderFuncNamed f stmts types (exported f.name.text)

def goAssertion (f : SourceFunc) (scalarOut : Option Name) (post : Bool) (clause : Expr) : String :=
  "\tif !(" ++ goGuardExpr clause scalarOut post ++ ") \x7b\n\t\tpanic(\"telos: " ++
    (if post then "postcondition" else "precondition") ++ " violated in " ++ f.name.text ++ ": " ++
      escape (renderExprDoc clause) ++ "\")\n\t\x7d\n"

/-- The same in Go; a broken contract panics. -/
def renderGoEjected (f : SourceFunc) (stmts : List Stmt) (types : TypeFields) : String :=
  let analysis := analyzeFunc f stmts types
  let implName := lowerFirst f.name.text ++ "Impl"
  let call := implName ++ "(" ++ callArgs analysis ++ ")\n"
  "// ==== EJECTED (go): trusted opaque block for `" ++ f.name.text ++
    "`. Edit this freely. ====\n" ++
    goRenderFuncNamed f stmts types implName ++ "\n" ++
    "// ==== Boundary contract guard for `" ++ f.name.text ++
    "` (generated; do not edit). ====\n" ++
    contractDoc "//" f ++
    "func " ++ exported f.name.text ++ "(" ++ ", ".intercalate
    (analysis.inputs.map goParam) ++ ")" ++
      (if analysis.scalarOut.isSome then " int64" else "") ++ " \x7b\n" ++
    String.join (f.requires.map (goAssertion f analysis.scalarOut false)) ++
    String.join ((collectOldFields f.ensures).map fun (base, field) =>
      "\t__old_" ++ base.text ++ "_" ++ field.text ++ " := " ++ base.text ++ "." ++
        exported field.text ++ "\n") ++
    (if analysis.scalarOut.isSome then "\t__ret := " ++ call else "\t" ++ call) ++
    String.join (f.ensures.map (goAssertion f analysis.scalarOut true)) ++
    (if analysis.scalarOut.isSome then "\treturn __ret\n" else "") ++ "\x7d\n"

def goStruct (persistent : Bool) (entry : String × Fields) : String :=
  if entry.2.isEmpty then ""
  else
    "type " ++ entry.1 ++ " struct \x7b\n" ++
      String.join (entry.2.map fun (f, fty) =>
        "\t" ++ exported f.text ++ " " ++ renderTypeGo fty ++
          (if persistent then " `json:\"" ++ f.text ++ "\"`" else "") ++ "\n") ++ "\x7d\n\n"

def goInvariant (inv : Invariant) : String :=
  let recv := receiver inv.name
  "// SatisfiesInvariants reports whether the " ++ inv.name ++ " invariant holds.\n" ++
    "func (" ++ recv.text ++ " *" ++ inv.name ++ ") SatisfiesInvariants() bool \x7b\n\treturn " ++
    " && ".intercalate (inv.constraints.map fun c => goRenderInv c recv) ++ "\n\x7d\n\n"

def goFunction (types : TypeFields) (f : SourceFunc × List Stmt) : String :=
  (if f.1.isEjected then renderGoEjected f.1 f.2 types else goRenderFunc f.1 f.2 types) ++ "\n"

/-- `generate_module` of the Go backend; types are sorted by name. -/
def goGenerateModule (types : TypeFields) (e : Emission) : String :=
  let persistent := (route e.module.attributes).storage == .persistent
  bannerText e.module ++
    String.join ((types.entries.mergeSort fun a b => decide (a.1 ≤ b.1)).map
    (goStruct persistent)) ++
    String.join (e.module.invariants.map goInvariant) ++ String.join
    (e.functions.map (goFunction types))

/-- One line break at the end. -/
def normalize (s : String) : String :=
  String.ofList (s.toList.reverse.dropWhile (· == '\n')).reverse ++ "\n"

def generateGoPackage (modules : List Emission) (package : String) : String :=
  normalize
    ("// Generated by tpt-telos. Do not edit by hand.\n" ++
      "// Mathematical contracts were verified by the tpt-telos SMT core.\n" ++
      "package " ++ package ++ "\n\n" ++
      String.join (modules.map fun e => goGenerateModule (structTypes modules) e ++ "\n"))

/-! ### Python -/

/-- The words that Python keeps to itself. -/
def pyKeywords : List String :=
  ["False", "None", "True", "and", "as", "assert", "async", "await", "break", "class", "continue",
    "def", "del", "elif", "else", "except", "finally", "for", "from", "global", "if", "import",
    "in", "is", "lambda", "nonlocal", "not", "or", "pass", "raise", "return", "try", "while",
    "with", "yield"]

/-- A name that is a keyword gets an underscore. -/
def pySafe (name : String) : String :=
  if pyKeywords.contains name then name ++ "_" else name

mutual

def renderPyType (intType : String) : Ty → String
  | .named s =>
    match s with
    | "Float32" => "float"
    | "Float64" => "float"
    | "Int" => intType
    | "PositiveInt" => intType
    | "Bool" => "bool"
    | "String" => "str"
    | other => other
  | .generic name args => name ++ "[" ++ ", ".intercalate (renderPyTypes intType args) ++ "]"
  | .tuple elems => "tuple[" ++ ", ".intercalate (renderPyTypes intType elems) ++ "]"
  | .array elem len => "list[" ++ renderPyType intType elem ++ "]  # length " ++ toString len
  | .slice elem => "list[" ++ renderPyType intType elem ++ "]"

def renderPyTypes (intType : String) : List Ty → List String
  | [] => []
  | t :: ts => renderPyType intType t :: renderPyTypes intType ts

end

def pyBinOp : BinOp → String
  | .div => "//"
  | .and => "and"
  | .or => "or"
  | op => op.text

def renderExprPy : Expr → String
  | .int n => toString n
  | .var v => pySafe v.text
  | .field base field => pySafe base.text ++ "." ++ field.text
  | .old e => renderExprPy e
  | .unary .neg e => "-(" ++ renderExprPy e ++ ")"
  | .bin op lhs rhs => renderExprPy lhs ++ " " ++ pyBinOp op ++ " " ++ renderExprPy rhs
  | e => renderExpr e

/-- A field under an `old` is read from what was kept of it. -/
def renderExprPyWithOld : Expr → String
  | .old (.field base field) => "__old_" ++ pySafe base.text ++ "_" ++ field.text
  | .old e => renderExprPyWithOld e
  | .int n => toString n
  | .var v => pySafe v.text
  | .field base field => pySafe base.text ++ "." ++ field.text
  | .unary .neg e => "-(" ++ renderExprPyWithOld e ++ ")"
  | .bin op lhs rhs =>
    renderExprPyWithOld lhs ++ " " ++ pyBinOp op ++ " " ++ renderExprPyWithOld rhs
  | e => renderExprPy e

def renderInvPy : Expr → String
  | .int n => toString n
  | .var v => "self." ++ v.text
  | .field _ field => "self." ++ field.text
  | .old e => renderInvPy e
  | .unary .neg e => "-(" ++ renderInvPy e ++ ")"
  | .bin op lhs rhs => renderInvPy lhs ++ " " ++ pyBinOp op ++ " " ++ renderInvPy rhs
  | e => renderExpr e

def renderAssignTargetPy : Expr → String
  | .var v => pySafe v.text
  | .field base field => pySafe base.text ++ "." ++ field.text
  | _ => "?"

def collectOldInExpr (out : List (Name × Name)) : Expr → List (Name × Name)
  | .old (.field base field) => if out.contains (base, field) then out else out ++ [(base, field)]
  | .bin _ lhs rhs => collectOldInExpr (collectOldInExpr out lhs) rhs
  | .unary _ e => collectOldInExpr out e
  | _ => out

/-- The fields whose old values the postconditions need. -/
def collectOldFieldsPy (f : SourceFunc) : List (Name × Name) :=
  f.ensures.foldl collectOldInExpr []

/-- Statements other than assignments are left out. -/
def pyBodyStmt (s : Stmt) : String :=
  String.join (s.ownAssigns.map fun a =>
    "    " ++ renderAssignTargetPy a.target ++ " " ++ a.op.text ++ " " ++
      renderExprPy a.value ++ "\n")

def pyParam (intType : String) : InputParam → String
  | .scalar name => pySafe name.text ++ ": " ++ intType
  | .struct name ty _ _ => pySafe name.text ++ ": " ++ ty

/-- A clause as an `assert`. -/
def pyAssertion (f : SourceFunc) (post : Bool) (clause : Expr) : String :=
  "    assert " ++ (if post then renderExprPyWithOld clause else renderExprPy clause) ++
    ", \"telos: " ++ (if post then "postcondition" else "precondition") ++ " violated in `" ++
      f.name.text ++ "`: " ++ renderExprDoc clause ++ "\"\n"

def renderPyFunc (f : SourceFunc) (stmts : List Stmt) (types : TypeFields) (intType : String) :
    String :=
  let analysis := analyzeFunc f stmts types
  let oldFields := collectOldFieldsPy f
  "def " ++ f.name.text ++ "(" ++ ", ".intercalate (analysis.inputs.map (pyParam intType)) ++ ")" ++
    (if analysis.scalarOut.isSome then " -> " ++ intType else " -> None") ++ " :\n" ++
    "    \"\"\"\n" ++ contractDoc "   " f ++ "    \"\"\"\n" ++
    String.join (f.requires.map (pyAssertion f false)) ++
    String.join (oldFields.map fun (base, field) =>
      "    __old_" ++ pySafe base.text ++ "_" ++ field.text ++ " = " ++ pySafe base.text ++ "." ++
        field.text ++ "\n") ++
    (if oldFields.isEmpty then "" else "\n") ++
    String.join (stmts.map pyBodyStmt) ++
    (if f.ensures.isEmpty then "" else "\n") ++
    String.join (f.ensures.map (pyAssertion f true)) ++
    (match analysis.scalarOut with
      | some v => "    return " ++ pySafe v.text ++ "\n"
      | none => "")

/-- A dataclass, whose invariant is checked after it is made. -/
def pyStruct (invariants : List Invariant) (intType : String) (entry : String × Fields) : String :=
  if entry.2.isEmpty then ""
  else
    "@dataclass\n" ++ "class " ++ entry.1 ++ ":\n" ++
      String.join (entry.2.map fun (f, fty) =>
        "    " ++ f.text ++ ": " ++ renderPyType intType fty ++ " = 0\n") ++ "\n" ++
      String.join ((invariants.filter (·.name == entry.1)).map fun inv =>
        "    def satisfies_invariants(self) -> bool:\n" ++
          "        return " ++ " and ".intercalate (inv.constraints.map renderInvPy) ++ "\n\n")

def generatePyModule (order : TypeOrder) (types : TypeFields) (useJax : Bool) (e : Emission) :
    String :=
  let intType := if useJax then "jnp.int64" else "int"
  "# ===== module " ++ e.module.name.text ++ " (target: python) =====\n\n" ++
    String.join ((order.read types).map (pyStruct e.module.invariants intType)) ++
      String.join (e.functions.map fun f => renderPyFunc f.1 f.2 types intType ++ "\n")

def generatePythonPackage (order : TypeOrder) (modules : List Emission) (useJax : Bool) : String :=
  "# Generated by tpt-telos. Do not edit by hand.\n" ++
    "# Mathematical contracts were verified by the tpt-telos SMT core.\n" ++
    "from __future__ import annotations\n" ++ "from dataclasses import dataclass, field\n" ++
    (if useJax then "import jax.numpy as jnp\n" else "") ++ "\n" ++
    String.join (modules.map fun e => generatePyModule order (structTypes modules) useJax e ++ "\n")

end Oikos.Telos
