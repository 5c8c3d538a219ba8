/-
Extraction of verification problems from functions: requires clauses, type
constraints, entry invariants, assignments and frame axioms become premises, ensures
clauses and exit invariants become conclusions.
-/
import Oikos.Lib.Assoc
import Oikos.Lib.Dnf
import Oikos.Telos.Ir
import Oikos.Telos.Syntax
import Mathlib.Data.List.Dedup

namespace Oikos.Telos

/-- How the field of a base is called in a state. -/
abbrev Naming := String → String → String

def preField (base field : String) : String :=
  base ++ "." ++ field

def postField (base field : String) : String :=
  base ++ "." ++ field ++ "'"

def fail {α : Type} (message : String) : Result String α :=
  .error (.err message)

/-! ### Texts -/

mutual

def pretty : Expr → String
  | .int n => toString n
  | .var v => v.text
  | .field base field => base.text ++ "." ++ field.text
  | .old e => "old(" ++ pretty e ++ ")"
  | .unary .neg e => "-" ++ pretty e
  | .bin op lhs rhs => pretty lhs ++ " " ++ op.text ++ " " ++ pretty rhs
  | .call func args => func ++ "(" ++ ", ".intercalate (prettyAll args) ++ ")"
  | .methodCall receiver method args =>
    pretty receiver ++ "." ++ method.text ++ "(" ++ ", ".intercalate (prettyAll args) ++ ")"
  | .index receiver index => pretty receiver ++ "[" ++ pretty index ++ "]"
  | .ifThen condition thenExpr elseExpr =>
    "if " ++ pretty condition ++ " \x7b " ++ pretty thenExpr ++ " \x7d else \x7b " ++
      pretty elseExpr ++ " \x7d"
  | .matchOn scrutinee arms =>
    "match " ++ pretty scrutinee ++ " \x7b " ++ ", ".intercalate (prettyArms arms) ++ " \x7d"
  | .tryOn e => pretty e ++ "?"
  | .forAll var varTy _ body =>
    "forall " ++ var.text ++ ": " ++ varTy.name ++ " \x7b " ++ pretty body ++ " \x7d"
  | .aggregate op args => op.opName ++ "(" ++ ", ".intercalate (prettyAll args) ++ ")"
  | .range lo hi => pretty lo ++ ".." ++ pretty hi

def prettyAll : List Expr → List String
  | [] => []
  | e :: es => pretty e :: prettyAll es

def prettyArms : List (Pattern × Expr) → List String
  | [] => []
  | (_, e) :: arms => ("... => " ++ pretty e) :: prettyArms arms

end

/-! ### Rewriting expressions -/

/-- A type's invariant for one binding: its bare variables become the binding's fields. -/
def instantiate (base : Name) : Expr → Expr
  | .var v => .field base v
  | .unary op e => .unary op (instantiate base e)
  | .bin op lhs rhs => .bin op (instantiate base lhs) (instantiate base rhs)
  | other => other

mutual

/-- Replace a variable. Calls, indices, `if`s and `match`es stay as they are. -/
def substituteVar (var : Name) (replacement : Expr) : Expr → Expr
  | .var v => if v = var then replacement else .var v
  | .old e => .old (substituteVar var replacement e)
  | .unary op e => .unary op (substituteVar var replacement e)
  | .bin op lhs rhs =>
    .bin op (substituteVar var replacement lhs) (substituteVar var replacement rhs)
  | .forAll v ty none body => .forAll v ty none (substituteVar var replacement body)
  | .forAll v ty (some domain) body =>
    .forAll v ty (some (substituteVar var replacement domain)) (substituteVar var replacement body)
  | .aggregate op args => .aggregate op (substituteAll var replacement args)
  | .range lo hi => .range (substituteVar var replacement lo) (substituteVar var replacement hi)
  | other => other

def substituteAll (var : Name) (replacement : Expr) : List Expr → List Expr
  | [] => []
  | e :: es => substituteVar var replacement e :: substituteAll var replacement es

end

mutual

/-- How deep an expression is nested. -/
def Expr.height : Expr → Nat
  | .int _ | .var _ | .field _ _ => 0
  | .old e | .unary _ e | .tryOn e => e.height + 1
  | .bin _ lhs rhs => max lhs.height rhs.height + 1
  | .call _ args | .aggregate _ args => heightAll args + 1
  | .methodCall receiver _ args => max receiver.height (heightAll args) + 1
  | .index receiver index => max receiver.height index.height + 1
  | .ifThen condition thenExpr elseExpr =>
    max condition.height (max thenExpr.height elseExpr.height) + 1
  | .matchOn scrutinee arms => max scrutinee.height (heightArms arms) + 1
  | .forAll _ _ none body => body.height + 1
  | .forAll _ _ (some domain) body => max domain.height body.height + 1
  | .range lo hi => max lo.height hi.height + 1

def heightAll : List Expr → Nat
  | [] => 0
  | e :: es => max e.height (heightAll es)

def heightArms : List (Pattern × Expr) → Nat
  | [] => 0
  | (_, e) :: arms => max e.height (heightArms arms) + 1

end

mutual

/-- A number in place of a variable nests no deeper. -/
theorem height_substituteVar (var : Name) (n : Int) :
    (e : Expr) → (substituteVar var (.int n) e).height = e.height
  | .var v => by
    rw [substituteVar]
    split <;> rfl
  | .old e => by simp only [substituteVar, Expr.height, height_substituteVar var n e]
  | .unary _ e => by simp only [substituteVar, Expr.height, height_substituteVar var n e]
  | .bin _ lhs rhs => by
    simp only [substituteVar, Expr.height, height_substituteVar var n lhs,
      height_substituteVar var n rhs]
  | .forAll _ _ none body => by
    simp only [substituteVar, Expr.height, height_substituteVar var n body]
  | .forAll _ _ (some domain) body => by
    simp only [substituteVar, Expr.height, height_substituteVar var n domain,
      height_substituteVar var n body]
  | .aggregate _ args => by
    simp only [substituteVar, Expr.height, heightAll_substituteAll var n args]
  | .range lo hi => by
    simp only [substituteVar, Expr.height, height_substituteVar var n lo,
      height_substituteVar var n hi]
  | .int _ | .field _ _ | .call _ _ | .methodCall _ _ _ | .index _ _ | .ifThen _ _ _
  | .matchOn _ _ | .tryOn _ => by simp only [substituteVar]

theorem heightAll_substituteAll (var : Name) (n : Int) :
    (es : List Expr) → heightAll (substituteAll var (.int n) es) = heightAll es
  | [] => rfl
  | e :: es => by
    simp only [substituteAll, heightAll, height_substituteVar var n e,
      heightAll_substituteAll var n es]

end

/-! ### Linear expressions -/

def asInt : Expr → Option Int
  | .int n => some n
  | _ => none

/-- The remainder of truncated division, which panics where the quotient overflows. -/
def remI64 (n k : Int) : Result String Int := do
  let _ ← i64 (n.tdiv k)
  .ok (n.tmod k)

def divExact (n k : Int) : Result String Int := do
  let rem ← remI64 n k
  if rem ≠ 0 then fail "non-integer division in constraint" else .ok (n.tdiv k)

def scaleExact (l : Linear) (k : Int) : Result String Linear := do
  let constant ← divExact l.constant k
  let terms ← l.terms.mapM fun t => do
    let c ← divExact t.2 k
    .ok (t.1, c)
  .ok ⟨terms, constant⟩

def indexVar (fieldFn : Naming) (receiver index : Expr) : Result String Linear :=
  match asInt index with
  | none => fail "non-constant array index in contract is not supported"
  | some idx =>
    match receiver with
    | .field base _ => .ok (.var (fieldFn base.text (toString idx)))
    | .var name => .ok (.var (name.text ++ "." ++ toString idx))
    | _ => fail "array index receiver must be a field or variable"

/-- Lower an expression to a linear one. The flag tells that a product of two
unknowns, which `product` lowers, was approximated. -/
def linearizeWith (product : Naming → Expr → Expr → Result String Linear) (fieldFn : Naming) :
    Expr → Result String (Linear × Bool)
  | .int n => .ok (.constantOnly n, false)
  | .var name => .ok (.var name.text, false)
  | .field base field => .ok (.var (fieldFn base.text field.text), false)
  | .old e => linearizeWith product preField e
  | .unary .neg e => do
    let (l, approx) ← linearizeWith product fieldFn e
    .ok (← l.neg, approx)
  | .bin op lhs rhs => do
    let (l, approxL) ← linearizeWith product fieldFn lhs
    let (r, approxR) ← linearizeWith product fieldFn rhs
    let approx := approxL || approxR
    match op with
    | .add => .ok (← l.add r, approx)
    | .sub => .ok (← l.sub r, approx)
    | .mul =>
      match asInt rhs, asInt lhs with
      | some k, _ => .ok (← l.scale k, approx)
      | none, some k => .ok (← r.scale k, approx)
      | none, none => .ok (← product fieldFn lhs rhs, true)
    | .div =>
      match asInt rhs with
      | some k =>
        if k = 0 then fail "division by zero" else .ok (← scaleExact l k, approx)
      | none => fail "division must be by a constant in constraints"
    | _ => fail "expected arithmetic expression"
  | .index receiver index => do
    let l ← indexVar fieldFn receiver index
    .ok (l, false)
  | other => fail ("expression `" ++ pretty other ++ "` cannot be lowered to linear arithmetic")

def linearize (fieldFn : Naming) (e : Expr) : Result String Linear := do
  let (l, _) ← linearizeWith
    (fun _ _ _ => fail "non-linear multiplication is not supported in constraints") fieldFn e
  .ok l

/-! ### Interval bounds -/

/-- A lower and an upper bound of each variable, where they are known. -/
abbrev VarBounds := List (String × (Option Int × Option Int))

/-- The bounds that a constraint on a single variable gives. -/
def boundsOf (coeff c : Int) (rel : Relation) :
    Result String (Option (Option Int × Option Int)) := do
  if coeff = 1 then
    match rel with
    | .ge => .ok (some (some (← i64 (-c)), none))
    | .gt => .ok (some (some (← i64 ((← i64 (-c)) + 1)), none))
    | .le => .ok (some (none, some (← i64 (-c))))
    | .lt => .ok (some (none, some (← i64 ((← i64 (-c)) - 1))))
    | .eq => .ok (some (some (← i64 (-c)), some (← i64 (-c))))
    | .ne => .ok none
  else if coeff = -1 then
    match rel with
    | .ge => .ok (some (none, some c))
    | .gt => .ok (some (none, some (← i64 (c - 1))))
    | .le => .ok (some (some c, none))
    | .lt => .ok (some (some (← i64 (c + 1)), none))
    | _ => .ok none
  else .ok none

def tighten (pick : Int → Int → Int) : Option Int → Option Int → Option Int
  | some old, some new => some (pick old new)
  | none, new => new
  | old, none => old

def collectVarBound (bounds : VarBounds) (c : Constraint) : Result String VarBounds :=
  match c.lin.terms with
  | [(var, coeff)] => do
    match ← boundsOf coeff c.lin.constant c.rel with
    | none => .ok bounds
    | some (lo, hi) =>
      match assocGet bounds var with
      | some (oldLo, oldHi) =>
        .ok (assocSet bounds var (tighten max oldLo lo, tighten min oldHi hi))
      | none => .ok (bounds ++ [(var, (lo, hi))])
  | _ => .ok bounds

def collectVarBounds (premises : List Constraint) : Result String VarBounds :=
  premises.foldlM collectVarBound []

/-- The bounds of a variable; those of its value before where it has none of its own. -/
def lookupBounds (bounds : VarBounds) (var : String) : Option (Option Int × Option Int) :=
  match assocGet bounds var with
  | some b => some b
  | none =>
    if var.toList.getLast? = some '\'' then assocGet bounds (String.ofList var.toList.dropLast)
    else none

def exprVarName (fieldFn : Naming) : Expr → Option String
  | .var name => some name.text
  | .field base field => some (fieldFn base.text field.text)
  | _ => none

def saturatingMul (a b : Int) : Int :=
  max (-2 ^ 63) (min (2 ^ 63 - 1) (a * b))

def intervalProduct (bounds : VarBounds) (fieldFn : Naming) (lhs rhs : Expr) :
    Result String Linear :=
  let boundsOfExpr e := (exprVarName fieldFn e).bind (lookupBounds bounds)
  match boundsOfExpr lhs, boundsOfExpr rhs with
  | some (some aLo, some aHi), some (some bLo, some bHi) =>
    .ok (.constantOnly (max (max (saturatingMul aLo bLo) (saturatingMul aLo bHi))
      (max (saturatingMul aHi bLo) (saturatingMul aHi bHi))))
  | _, _ =>
    fail ("non-linear multiplication (" ++ pretty lhs ++ " * " ++ pretty rhs ++
      ") cannot be verified; add `requires` bounds on both variables to enable " ++
      "interval-bounding approximation")

def linearizeBounded (bounds : VarBounds) (fieldFn : Naming) (e : Expr) :
    Result String (Linear × Bool) :=
  linearizeWith (intervalProduct bounds) fieldFn e

/-! ### Boolean expressions -/

def relationOf : BinOp → Option Relation
  | .eq => some .eq
  | .ne => some .ne
  | .lt => some .lt
  | .le => some .le
  | .gt => some .gt
  | .ge => some .ge
  | _ => none

def combineDnf (a b : Dnf Constraint) : Dnf Constraint :=
  a.conjoin b

def compareBounded (bounds : VarBounds) (fieldFn : Naming) (rel : Relation) (lhs rhs : Expr) :
    Result String (Constraint × Bool) := do
  let (l, approxL) ← linearizeBounded bounds fieldFn lhs
  let (r, approxR) ← linearizeBounded bounds fieldFn rhs
  .ok (⟨← l.sub r, rel⟩, approxL || approxR)

def compare (fieldFn : Naming) (rel : Relation) (lhs rhs : Expr) : Result String Constraint := do
  let l ← linearize fieldFn lhs
  let r ← linearize fieldFn rhs
  .ok ⟨← l.sub r, rel⟩

def toConstraintsBounded (bounds : VarBounds) (fieldFn : Naming) :
    Expr → Result String (List Constraint × Bool)
  | .bin op lhs rhs =>
    match op, relationOf op with
    | .and, _ => do
      let (left, approxL) ← toConstraintsBounded bounds fieldFn lhs
      let (right, approxR) ← toConstraintsBounded bounds fieldFn rhs
      .ok (left ++ right, approxL || approxR)
    | _, some rel => do
      let (c, approx) ← compareBounded bounds fieldFn rel lhs rhs
      .ok ([c], approx)
    | _, none => fail "expected a boolean constraint (comparison or `&&`)"
  | _ => fail "expected a boolean constraint (comparison or `&&`)"

def toConstraintsBoundedDnf (bounds : VarBounds) (fieldFn : Naming) :
    Expr → Result String (Dnf Constraint × Bool)
  | .bin op lhs rhs =>
    match op, relationOf op with
    | .or, _ => do
      let (left, approxL) ← toConstraintsBoundedDnf bounds fieldFn lhs
      let (right, approxR) ← toConstraintsBoundedDnf bounds fieldFn rhs
      .ok (left ++ right, approxL || approxR)
    | .and, _ => do
      let (left, approxL) ← toConstraintsBoundedDnf bounds fieldFn lhs
      let (right, approxR) ← toConstraintsBoundedDnf bounds fieldFn rhs
      .ok (combineDnf left right, approxL || approxR)
    | _, some rel => do
      let (c, approx) ← compareBounded bounds fieldFn rel lhs rhs
      .ok ([[c]], approx)
    | _, none => fail "expected a boolean constraint (comparison, `&&`, or `||`)"
  | _ => fail "expected a boolean constraint (comparison, `&&`, or `||`)"

def evalConstExpr : Expr → Result String (Option Int)
  | .int n => .ok (some n)
  | .unary .neg e => do
    match ← evalConstExpr e with
    | some v => .ok (some (← i64 (-v)))
    | none => .ok none
  | .bin op lhs rhs => do
    match ← evalConstExpr lhs with
    | none => .ok none
    | some l =>
      match ← evalConstExpr rhs with
      | none => .ok none
      | some r =>
        match op with
        | .add => .ok (some (← i64 (l + r)))
        | .sub => .ok (some (← i64 (l - r)))
        | .mul => .ok (some (← i64 (l * r)))
        | .div => if r = 0 then .ok none else .ok (some (← i64 (l.tdiv r)))
        | _ => .ok none
  | _ => .ok none

def constBound (e : Expr) (message : String) : Result String Int := do
  match ← evalConstExpr e with
  | some v => .ok v
  | none => fail message

def instantiateForall (var : Name) (body : Expr) (value : Int) : Expr :=
  substituteVar var (.int value) body

/-- The numbers from `lo` on below `hi`. -/
def rangeInts (lo hi : Int) : List Int :=
  (List.range (hi - lo).toNat).map fun i : Nat => lo + i

def aggregateDnf (fieldFn : Naming) (op : AggregateOp) : List Expr → Result String (Dnf Constraint)
  | [.forAll var _ (some (.range lo hi)) body] => do
    let loVal ← constBound lo "aggregate range lower bound must be a constant"
    let hiVal ← constBound hi "aggregate range upper bound must be a constant"
    if hiVal ≤ loVal then .ok [[]]
    else do
      let _ ← (rangeInts loVal hiVal).foldlM (fun (acc : Option Linear) i => do
        let val ← linearize fieldFn (instantiateForall var body i)
        match op with
        | .sum => .ok (some (← match acc with | none => .ok val | some l => l.add val))
        | .min | .max =>
          fail (op.opName ++ " over ranges is not yet supported in contracts")
        | .count =>
          .ok (some (← match acc with
            | none => .ok (.constantOnly 1)
            | some l => l.add (.constantOnly 1)))) none
      fail "aggregate result must be used in a comparison (e.g. sum(...) == value)"
  | _ => fail "aggregate expressions are not fully supported in contracts"

mutual

def toConstraintsDnf (fieldFn : Naming) (e : Expr) : Result String (Dnf Constraint) :=
  match e with
  | .bin op lhs rhs =>
    match op, relationOf op with
    | .or, _ => do
      let left ← toConstraintsDnf fieldFn lhs
      let right ← toConstraintsDnf fieldFn rhs
      .ok (left ++ right)
    | .and, _ => do
      let left ← toConstraintsDnf fieldFn lhs
      let right ← toConstraintsDnf fieldFn rhs
      .ok (combineDnf left right)
    | _, some rel => do
      let c ← compare fieldFn rel lhs rhs
      .ok [[c]]
    | _, none => fail "expected a boolean constraint (comparison, `&&`, or `||`)"
  | .ifThen condition thenExpr elseExpr => do
    let condBranch ← toConstraintsDnf fieldFn condition
    let thenBranch ← toConstraintsDnf fieldFn thenExpr
    let elseBranch ← toConstraintsDnf fieldFn elseExpr
    -- the else branch goes without the negation of the condition
    .ok (combineDnf condBranch thenBranch ++ elseBranch)
  | .matchOn _ arms => do
    let out ← armsDnf fieldFn arms
    if out.isEmpty then .ok [[]] else .ok out
  | .forAll var _ (some (.range lo hi)) body => do
    let loVal ← constBound lo
      ("forall range lower bound `" ++ pretty lo ++ "` must be a constant")
    let hiVal ← constBound hi
      ("forall range upper bound `" ++ pretty hi ++ "` must be a constant")
    if hiVal ≤ loVal then .ok [[]]
    else
      (rangeInts loVal hiVal).foldlM (fun combined i => do
        let branch ← toConstraintsDnf fieldFn (instantiateForall var body i)
        .ok (combineDnf combined branch)) [[]]
  | .forAll _ _ (some domain) _ =>
    fail ("forall with non-range domain `" ++ pretty domain ++ "` is not supported in contracts")
  | .forAll _ _ none _ => fail "forall without domain is not supported in contracts"
  | .aggregate op args => aggregateDnf fieldFn op args
  | _ => fail "expected a boolean constraint (comparison, `&&`, or `||`)"
termination_by e.height
decreasing_by
  all_goals simp only [Expr.height, instantiateForall, height_substituteVar]
  all_goals omega

def armsDnf (fieldFn : Naming) (arms : List (Pattern × Expr)) : Result String (Dnf Constraint) :=
  match arms with
  | [] => .ok []
  | (_, e) :: arms => do
    let branch ← toConstraintsDnf fieldFn e
    let rest ← armsDnf fieldFn arms
    .ok (branch ++ rest)
termination_by heightArms arms
decreasing_by
  all_goals simp only [heightArms]
  all_goals omega

end

end Oikos.Telos
