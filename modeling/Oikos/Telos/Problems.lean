/-
The verification problems of a function: one for each way to meet its requires
clauses and each path through its body.
-/
import Oikos.Telos.Extract
import Mathlib.Data.List.ProdSigma

namespace Oikos.Telos

/-- Something to prove; conclusions with the same `orGroup` are alternatives. -/
structure Conclusion where
  description : String
  constraint : Constraint
  isEnsures : Bool
  isApproximation : Bool
  location : Span
  /-- Of the conclusions of one group at least one must be entailed. -/
  orGroup : Option Nat
deriving DecidableEq

/-- What may be assumed on one path through a function, and what is to be proved there. -/
structure VerificationProblem where
  funcName : String
  funcSpan : Span
  premises : List Constraint
  conclusions : List Conclusion
deriving DecidableEq

/-- A field of a variable. -/
abbrev FieldRef := Name × Name

/-! ### Fields and variables -/

mutual

/-- The fields that an expression names, in order. -/
def collectFields : Expr → List FieldRef
  | .field base field => [(base, field)]
  | .old e | .unary _ e => collectFields e
  | .bin _ lhs rhs => collectFields lhs ++ collectFields rhs
  | .index receiver index => collectFields receiver ++ collectFields index
  | .call _ args => collectFieldsAll args
  | .methodCall receiver _ args => collectFields receiver ++ collectFieldsAll args
  | .ifThen condition thenExpr elseExpr =>
    collectFields condition ++ collectFields thenExpr ++ collectFields elseExpr
  | .matchOn scrutinee arms => collectFields scrutinee ++ collectFieldsArms arms
  | _ => []

def collectFieldsAll : List Expr → List FieldRef
  | [] => []
  | e :: es => collectFields e ++ collectFieldsAll es

def collectFieldsArms : List (Pattern × Expr) → List FieldRef
  | [] => []
  | (_, e) :: arms => collectFields e ++ collectFieldsArms arms

end

mutual

/-- The variables that an expression names, in order. -/
def collectVars : Expr → List Name
  | .var v => [v]
  | .old e | .unary _ e => collectVars e
  | .bin _ lhs rhs => collectVars lhs ++ collectVars rhs
  | .index receiver index => collectVars receiver ++ collectVars index
  | .call _ args => collectVarsAll args
  | .methodCall receiver _ args => collectVars receiver ++ collectVarsAll args
  | .ifThen condition thenExpr elseExpr =>
    collectVars condition ++ collectVars thenExpr ++ collectVars elseExpr
  | .matchOn scrutinee arms => collectVars scrutinee ++ collectVarsArms arms
  | _ => []

def collectVarsAll : List Expr → List Name
  | [] => []
  | e :: es => collectVars e ++ collectVarsAll es

def collectVarsArms : List (Pattern × Expr) → List Name
  | [] => []
  | (_, e) :: arms => collectVars e ++ collectVarsArms arms

end

def Assign.fields (a : Assign) : List FieldRef :=
  collectFields a.value ++
    match a.target with
    | .field base field => [(base, field)]
    | _ => []

mutual

def collectBodyReferencedFields : List Stmt → List FieldRef
  | [] => []
  | s :: body => stmtReferencedFields s ++ collectBodyReferencedFields body

/-- The fields that a statement reads or assigns, nested blocks included. -/
def stmtReferencedFields : Stmt → List FieldRef
  | .mutateState assigns => assigns.flatMap Assign.fields
  | .assign a => a.fields
  | .ifThen _ thenBody none => collectBodyReferencedFields thenBody
  | .ifThen _ thenBody (some elseBody) =>
    collectBodyReferencedFields thenBody ++ collectBodyReferencedFields elseBody
  | .matchOn _ arms => armsReferencedFields arms
  | .letIn _ _ _ | .ret _ => []

def armsReferencedFields : List (Pattern × List Stmt) → List FieldRef
  | [] => []
  | (_, body) :: arms => collectBodyReferencedFields body ++ armsReferencedFields arms

end

/-! ### Paths through a body -/

/-- The relation that holds where this one does not. -/
def negateRelation : Relation → Relation
  | .eq => .ne
  | .ne => .eq
  | .le => .gt
  | .lt => .ge
  | .ge => .lt
  | .gt => .le

/-- A path: the conditions under which it is taken, the equations of its assignments
and the fields that these assign. -/
structure BodyBranch where
  extraPremises : List Constraint
  mutations : List Constraint
  assigned : List FieldRef
deriving DecidableEq

namespace BodyBranch

def start : BodyBranch :=
  ⟨[], [], []⟩

/-- One more equation about the state after the body. -/
def mutate (c : Constraint) (field : FieldRef) (b : BodyBranch) : BodyBranch :=
  { b with mutations := b.mutations ++ [c], assigned := b.assigned ++ [field] }

/-- One more premise about the state before it. -/
def assume (c : Constraint) (b : BodyBranch) : BodyBranch :=
  { b with extraPremises := b.extraPremises ++ [c] }

end BodyBranch

/-- An assignment as a form that is zero: its target afterwards against what it gets. -/
def assignTerms (op : AssignOp) (post pre value : Linear) : Result String Linear :=
  match op with
  | .set => post.sub value
  | .add => do (← post.sub pre).sub value
  | .sub => do (← post.sub pre).add value

/-- Only fields can be assigned; anything else is an error. -/
def assignConstraint (debug : Expr → String) (fieldFn : Naming) (a : Assign) :
    Result String (Constraint × FieldRef) :=
  match a.target with
  | .field base field => do
    let post := Linear.var (postField base.text field.text)
    let pre := Linear.var (preField base.text field.text)
    let value ← linearize fieldFn a.value
    let terms ← assignTerms a.op post pre value
    .ok (⟨terms, .eq⟩, (base, field))
  | other => fail ("assignment target must be a field, found " ++ debug other)

/-- An assignment is made on every path alike. -/
def processAssign (debug : Expr → String) (fieldFn : Naming) (branches : List BodyBranch)
    (a : Assign) : Result String (List BodyBranch) := do
  let (c, field) ← assignConstraint debug fieldFn a
  .ok (branches.map (BodyBranch.mutate c field))

/-- The single comparison that the condition of an `if` must be. -/
def bodyCondition (fieldFn : Naming) (condition : Expr) : Result String (Linear × Relation) :=
  let reject := fail ("`if` inside a function body must have a single comparison condition (found `" ++
    pretty condition ++ "`); compound (`&&`/`||`) conditions are not yet supported here")
  match condition with
  | .bin op lhs rhs =>
    match relationOf op with
    | some rel => do
      let l ← linearize fieldFn lhs
      let r ← linearize fieldFn rhs
      .ok (← l.sub r, rel)
    | none => reject
  | _ => reject

/-- The statements that may change the state. -/
def Stmt.mutates : Stmt → Bool
  | .mutateState _ | .assign _ | .ifThen _ _ _ | .matchOn _ _ => true
  | .letIn _ _ _ | .ret _ => false

mutual

/-- The paths through a body, from those that lead up to it. -/
def processBodyStmts (debug : Expr → String) (fieldFn : Naming) :
    List Stmt → List BodyBranch → Result String (List BodyBranch)
  | [], branches => .ok branches
  | s :: stmts, branches => do
    let branches ← processStmt debug fieldFn s branches
    processBodyStmts debug fieldFn stmts branches

def processStmt (debug : Expr → String) (fieldFn : Naming) :
    Stmt → List BodyBranch → Result String (List BodyBranch)
  | .mutateState assigns, branches => assigns.foldlM (processAssign debug fieldFn) branches
  | .assign a, branches => processAssign debug fieldFn branches a
  | .ifThen condition thenBody none, branches => do
    let (diff, rel) ← bodyCondition fieldFn condition
    let thenBranches ← processBodyStmts debug fieldFn thenBody
      (branches.map (BodyBranch.assume ⟨diff, rel⟩))
    let elseBranches := branches.map (BodyBranch.assume ⟨diff, negateRelation rel⟩)
    .ok (thenBranches ++ elseBranches)
  | .ifThen condition thenBody (some elseBody), branches => do
    let (diff, rel) ← bodyCondition fieldFn condition
    let thenBranches ← processBodyStmts debug fieldFn thenBody
      (branches.map (BodyBranch.assume ⟨diff, rel⟩))
    let elseBranches ← processBodyStmts debug fieldFn elseBody
      (branches.map (BodyBranch.assume ⟨diff, negateRelation rel⟩))
    .ok (thenBranches ++ elseBranches)
  | .matchOn scrutinee arms, branches =>
    if arms.any fun arm => arm.2.any Stmt.mutates then
      fail ("`match " ++ pretty scrutinee ++ "` has a state-mutating arm; `match` in a function " ++
        "body is not yet supported when any arm mutates state")
    else .ok branches
  -- neither binds a name nor ends the path
  | .letIn _ _ _, branches | .ret _, branches => .ok branches

end

/-! ### Problems -/

/-- What the items of a program say about names: the last invariant of a type, the
fields that its invariants mention, and the last function of a name. -/
structure Tables where
  invariants : String → Option Invariant
  invariantFields : String → List Name
  funcSpecs : String → Option Func

/-- The order in which a hash set of fields is gone through. -/
structure FieldOrder where
  list : List FieldRef → List FieldRef
  perm : ∀ fields, (list fields).Perm fields.dedup

def FieldOrder.first : FieldOrder :=
  ⟨List.dedup, fun _ => List.Perm.refl _⟩

def toConstraints (fieldFn : Naming) (e : Expr) : Result String (List Constraint) := do
  match ← toConstraintsDnf fieldFn e with
  | [branch] => .ok branch
  | _ => fail "disjunction (`||`) is not allowed in this position"

/-- The ensures clauses of a called function, its parameters replaced in turn by the
arguments of the call. -/
def calleeEnsures (fieldFn : Naming) (callee : Func) (args : List Expr) :
    Result String (List Constraint) :=
  callee.ensures.foldlM (fun premises ensures => do
    let substituted := (callee.params.zip args).foldl
      (fun e p => substituteVar p.1.name p.2 e) ensures
    let constraints ← toConstraints fieldFn substituted
    .ok (premises ++ constraints)) []

mutual

/-- The ensures clauses of the functions that an expression calls, each function once. -/
def collectCallEnsures (specs : String → Option Func) (fieldFn : Naming) :
    Expr → List Constraint × List String → Result String (List Constraint × List String)
  | .call func args, (premises, visited) =>
    match specs func with
    | none => .ok (premises, visited)
    | some callee => do
      let entered ← (if func ∈ visited then .ok (premises, visited) else do
        let more ← calleeEnsures fieldFn callee args
        .ok (premises ++ more, callee.name.text :: visited))
      collectCallEnsuresAll specs fieldFn args entered
  | .methodCall receiver _ args, acc => do
    let acc ← collectCallEnsures specs fieldFn receiver acc
    collectCallEnsuresAll specs fieldFn args acc
  | .bin _ lhs rhs, acc => do
    let acc ← collectCallEnsures specs fieldFn lhs acc
    collectCallEnsures specs fieldFn rhs acc
  | .unary _ e, acc | .old e, acc => collectCallEnsures specs fieldFn e acc
  | .ifThen condition thenExpr elseExpr, acc => do
    let acc ← collectCallEnsures specs fieldFn condition acc
    let acc ← collectCallEnsures specs fieldFn thenExpr acc
    collectCallEnsures specs fieldFn elseExpr acc
  | .forAll _ _ _ body, acc => collectCallEnsures specs fieldFn body acc
  | _, acc => .ok acc

def collectCallEnsuresAll (specs : String → Option Func) (fieldFn : Naming) :
    List Expr → List Constraint × List String → Result String (List Constraint × List String)
  | [], acc => .ok acc
  | e :: es, acc => do
    let acc ← collectCallEnsures specs fieldFn e acc
    collectCallEnsuresAll specs fieldFn es acc

end

/-- The ways to meet all the requires clauses. -/
def requiresDnf (requires : List Expr) : Result String (Dnf Constraint) :=
  requires.foldlM (fun dnf r => do
    let branches ← toConstraintsDnf preField r
    .ok (combineDnf dnf branches)) [[]]

/-- What the called functions ensure, assumed of the calls in the contract. -/
def callPremises (t : Tables) (func : Func) : Result String (List Constraint) := do
  let acc ← collectCallEnsuresAll t.funcSpecs preField func.requires ([], [])
  let (premises, _) ← collectCallEnsuresAll t.funcSpecs preField func.ensures acc
  .ok premises

/-- A parameter of a type `Positive…` is at least one. -/
def typeConstraints (params : List Param) : Result String (List Constraint) :=
  (params.filter fun p => "Positive".toList.isPrefixOf p.ty.name.toList).mapM fun p => do
    let ge ← (Linear.var p.name.text).sub (.constantOnly 1)
    .ok ⟨ge, .ge⟩

/-- The parameters whose types have an invariant. -/
def paramInvariants (t : Tables) (params : List Param) : List (Invariant × Param) :=
  params.filterMap fun p => (t.invariants p.ty.name).map fun inv => (inv, p)

/-- The invariants of the parameters, assumed of the state before the call. -/
def invConstraints (t : Tables) (params : List Param) : Result String (List Constraint) := do
  let all ← (paramInvariants t params).mapM fun (inv, p) =>
    inv.constraints.mapM fun c => toConstraints preField (instantiate p.name c)
  .ok (all.flatten.flatten)

/-- The fields that a problem has to speak about. -/
def referencedFields (t : Tables) (func : Func) : List FieldRef :=
  func.requires.flatMap collectFields ++ func.ensures.flatMap collectFields ++
    collectBodyReferencedFields func.body ++
      func.params.flatMap fun p => (t.invariantFields p.ty.name).map fun f => (p.name, f)

/-- Fields that a path does not assign stay as they are. -/
def frameAxioms (fields : List FieldRef) (b : BodyBranch) : Result String (List Constraint) :=
  (fields.filter fun f => f ∉ b.assigned).mapM fun f => do
    let diff ← (Linear.var (postField f.1.text f.2.text)).sub (.var (preField f.1.text f.2.text))
    .ok ⟨diff, .eq⟩

/-- The premises of one problem: one way to meet the requires clauses along one path. -/
def branchPremises (fields : List FieldRef) (premises : List Constraint) (b : BodyBranch) :
    Result String (List Constraint) := do
  let frame ← frameAxioms fields b
  .ok (premises ++ b.extraPremises ++ b.mutations ++ frame)

/-- The conclusions of an ensures clause with the branches `dnf`. -/
def clauseConclusions (e : Expr) (location : Span) (dnf : Dnf Constraint) (approx : Bool)
    (group : Nat) :
    List Conclusion × Nat :=
  match dnf with
  | [branch] =>
    (branch.map fun c => ⟨"ensures: " ++ pretty e, c, true, approx, location, none⟩, group)
  | _ =>
    -- all comparisons of all branches end up in one group
    (dnf.zipIdx.flatMap fun (branch, idx) => branch.map fun c =>
      ⟨"ensures: " ++ pretty e ++ " [branch " ++ toString idx ++ "]", c, true, approx, location,
        some group⟩, group + 1)

/-- The conclusions of the clauses, each with a group number of its own. -/
def ensuresConclusions (bounds : VarBounds) (func : Func) :
    List (Expr × Nat) → Nat → Result String (List Conclusion)
  | [], _ => .ok []
  | (e, i) :: es, group => do
    let (dnf, approx) ← toConstraintsBoundedDnf bounds postField e
    let location := func.ensuresSpans.getD i func.span
    let (conclusions, group) := clauseConclusions e location dnf approx group
    let rest ← ensuresConclusions bounds func es group
    .ok (conclusions ++ rest)

def invariantConclusions (bounds : VarBounds) (inv : Invariant) (p : Param) :
    List (Expr × Nat) → Result String (List Conclusion)
  | [] => .ok []
  | (c, j) :: cs => do
    let inst := instantiate p.name c
    let (constraints, approx) ← toConstraintsBounded bounds postField inst
    let location := inv.constraintSpans.getD j inv.span
    let rest ← invariantConclusions bounds inv p cs
    .ok ((constraints.map fun c2 => ⟨"invariant " ++ inv.name ++ " maintained: " ++ pretty inst,
      c2, false, approx, location, none⟩) ++ rest)

/-- The invariants of the parameters are to hold afterwards. -/
def exitConclusions (t : Tables) (bounds : VarBounds) (params : List Param) :
    Result String (List Conclusion) := do
  let all ← (paramInvariants t params).mapM fun (inv, p) =>
    invariantConclusions bounds inv p inv.constraints.zipIdx
  .ok all.flatten

/-- The problem of one path, from its premises. -/
def buildProblem (t : Tables) (func : Func) (funcName : String) (premises : List Constraint) :
    Result String VerificationProblem := do
  let bounds ← collectVarBounds premises
  let ensures ← ensuresConclusions bounds func func.ensures.zipIdx 0
  let invariants ← exitConclusions t bounds func.params
  .ok ⟨funcName, func.span, premises, ensures ++ invariants⟩

/-- One problem for each way to meet `requires` and each path through the body. -/
def buildProblems (debug : Expr → String) (order : FieldOrder) (t : Tables) (func : Func) :
    Result String (List VerificationProblem) := do
  let requires ← requiresDnf func.requires
  let calls ← callPremises t func
  let types ← typeConstraints func.params
  let invs ← invConstraints t func.params
  let fields := order.list (referencedFields t func)
  let branches ← processBodyStmts debug preField func.body [.start]
  let combined ← (requires.product branches).mapM fun (r, b) =>
    branchPremises fields (r ++ calls ++ types ++ invs) b
  combined.zipIdx.mapM fun (premises, idx) =>
    buildProblem t func
      (if combined.length = 1 then func.name.text
        else func.name.text ++ "[branch " ++ toString idx ++ "]") premises

/-! ### Programs -/

def allItems (modules : List Module) : List Item :=
  modules.flatMap Module.items

def allFuncs (modules : List Module) : List Func :=
  (allItems modules).filterMap fun
    | .func f => some f
    | _ => none

def allInvariants (modules : List Module) : List Invariant :=
  (allItems modules).filterMap fun
    | .invariant inv => some inv
    | _ => none

/-- What the verifier looks up by name; a later invariant hides an earlier one. -/
def tables (modules : List Module) : Tables where
  invariants name := (allInvariants modules).reverse.find? fun inv => inv.name = name
  invariantFields name :=
    ((allInvariants modules).filter fun inv => inv.name = name).flatMap fun inv =>
      inv.constraints.flatMap collectVars
  funcSpecs name := (allFuncs modules).reverse.find? fun f => f.name.text = name

/-- The problems of all functions, in order. -/
def extract (debug : Expr → String) (order : FieldOrder) (modules : List Module) :
    Result String (List VerificationProblem) := do
  let all ← (allFuncs modules).mapM (buildProblems debug order (tables modules))
  .ok all.flatten

end Oikos.Telos
