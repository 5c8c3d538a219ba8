/-
The eidos kernel: the walk over a function that collects what holds on the way and
checks every division it meets, the obligations of casts and `ensures` clauses, and
the check of termination.
-/
import Oikos.Eidos.Solve

namespace Oikos.Eidos

open List

/-- How an obligation was discharged, if it was. -/
inductive ObligationStatus where
  | verified
  | trusted
  | unverified
deriving Repr, DecidableEq

/-- Something that the kernel had to show. -/
structure Obligation where
  description : String
  status : ObligationStatus
deriving Repr, DecidableEq

/-- The errors by their messages, and every obligation that came up. -/
structure Report where
  errors : List String
  obligations : List Obligation
deriving Repr, DecidableEq

namespace Report

def empty : Report :=
  ⟨[], []⟩

instance : Append Report :=
  ⟨fun r s => ⟨r.errors ++ s.errors, r.obligations ++ s.obligations⟩⟩

/-- The module was accepted. -/
def ok (r : Report) : Bool :=
  r.errors.isEmpty

def error (message : String) : Report :=
  ⟨[message], []⟩

def obligation (description : String) (status : ObligationStatus) : Report :=
  ⟨[], [⟨description, status⟩]⟩

/-- No obligation rests on a trusted lemma. -/
def NoneTrusted (r : Report) : Prop :=
  ∀ o ∈ r.obligations, o.status ≠ .trusted

@[simp] theorem ok_append {r s : Report} : (r ++ s).ok = true ↔ r.ok = true ∧ s.ok = true := by
  rw [ok, ok, ok, List.isEmpty_iff, List.isEmpty_iff, List.isEmpty_iff]
  exact append_eq_nil_iff

end Report

/-- A trusted rule: what it asks of the context to admit a predicate, if it applies. -/
structure Lemma where
  name : String
  apply : Expr → List Constraint → Option (List Constraint)

structure Checker where
  platform : Platform
  /-- The latest alias of a name comes first. -/
  aliases : List (String × Ty)
  lemmas : List Lemma
  ensures : Option Expr
  ret : Ty
  currentFn : String

namespace Checker

variable (c : Checker)

/-! ### Types -/

/-- Follow the aliases of a type; on a circle of them the fuel runs out. -/
def resolve : Nat → Ty → Option Ty
  | fuel + 1, .named n =>
    match assocGet c.aliases n with
    | some ty => resolve fuel ty
    | none => some (.named n)
  | 0, .named _ => none
  | _, ty => some ty

/-- The binder and the predicate of a type, if it resolves to a refinement. -/
def asRefine (ty : Ty) : Option (Option (String × Expr)) := do
  match ← c.resolve (c.aliases.length + 1) ty with
  | .refine bind _ pred => some (some (bind, pred))
  | _ => some none

/-- The declared length of an array type. -/
def arrayLenOf : Nat → Ty → Option (Option UInt64)
  | _, .array _ n => some (some n)
  | fuel, .refine _ ty _ => arrayLenOf fuel ty
  | fuel + 1, .named n =>
    match assocGet c.aliases n with
    | some ty => arrayLenOf fuel ty
    | none => some none
  | 0, .named _ => none
  | _, .base _ => some none

end Checker

/-! ### Predicates -/

def fieldOf (name : String) : Expr → Option Expr
  | .record fields => assocGet fields name
  | _ => none

/-- Replaces casts by their values and fields of written-out records by what they hold. -/
def simplify : Nat → Expr → Expr
  | 0, e => e
  | fuel + 1, .cast value _ => simplify fuel value
  | fuel + 1, .method recv name args =>
    match if args.isEmpty then fieldOf name (simplify fuel recv) else none with
    | some v => simplify fuel v
    | none => .method (simplify fuel recv) name (args.map (simplify fuel))
  | fuel + 1, .bin op a b => .bin op (simplify fuel a) (simplify fuel b)
  | fuel + 1, .un op a => .un op (simplify fuel a)
  | fuel + 1, .arrayLit es => .arrayLit (es.map (simplify fuel))
  | fuel + 1, .record fields => .record (fields.map fun f => (f.1, simplify fuel f.2))
  | fuel + 1, .ifThen cond then_ els =>
    .ifThen (simplify fuel cond) (simplify fuel then_) (simplify fuel els)
  | _ + 1, e => e

mutual

/-- Substitution leaves what stands behind `return` and `let` as it is. -/
def subst (var : String) (val : Expr) : Expr → Expr
  | .var v => if v = var then val else .var v
  | .num n => .num n
  | .bool b => .bool b
  | .bin op a b => .bin op (subst var val a) (subst var val b)
  | .un op a => .un op (subst var val a)
  | .ifThen cond then_ els => .ifThen (subst var val cond) (subst var val then_) (subst var val els)
  | .arrayLit es => .arrayLit (substAll var val es)
  | .method recv name args => .method (subst var val recv) name (substAll var val args)
  | .call func args => .call func (substAll var val args)
  | .lambda params body =>
    if patternBinds params var then .lambda params body else .lambda params (subst var val body)
  | .record fields => .record (substFields var val fields)
  | .cast value ty => .cast (subst var val value) ty
  | .ret e => .ret e
  | .letIn name value body => .letIn name value body

def substAll (var : String) (val : Expr) : List Expr → List Expr
  | [] => []
  | e :: es => subst var val e :: substAll var val es

def substFields (var : String) (val : Expr) : List (String × Expr) → List (String × Expr)
  | [] => []
  | (f, e) :: fields => (f, subst var val e) :: substFields var val fields

end

mutual

def Expr.size : Expr → Nat
  | .num _ | .bool _ | .var _ => 1
  | .arrayLit es => sizeAll es + 1
  | .bin _ a b => a.size + b.size + 1
  | .un _ a => a.size + 1
  | .ifThen cond then_ els => cond.size + then_.size + els.size + 1
  | .letIn _ value body => value.size + body.size + 1
  | .call _ args => sizeAll args + 1
  | .method recv _ args => recv.size + sizeAll args + 1
  | .lambda _ body => body.size + 1
  | .record fields => sizeFields fields + 1
  | .cast value _ => value.size + 1
  | .ret e => e.size + 1

def sizeAll : List Expr → Nat
  | [] => 0
  | e :: es => e.size + sizeAll es

def sizeFields : List (String × Expr) → Nat
  | [] => 0
  | (_, e) :: fields => e.size + sizeFields fields

end

theorem size_le_sizeAll {es : List Expr} {e : Expr} (h : e ∈ es) : e.size ≤ sizeAll es := by
  induction es with
  | nil => cases h
  | cons e' es ih =>
    rw [sizeAll]
    rcases mem_cons.mp h with rfl | h
    · omega
    · have := ih h
      omega

theorem size_le_sizeFields {fields : List (String × Expr)} {f : String × Expr} (h : f ∈ fields) :
    f.2.size ≤ sizeFields fields := by
  induction fields with
  | nil => cases h
  | cons f' fields ih =>
    obtain ⟨name, e⟩ := f'
    rw [sizeFields]
    rcases mem_cons.mp h with rfl | h
    · exact Nat.le_add_right _ _
    · have := ih h
      omega

theorem sizeAll_map_le {es : List Expr} {f : Expr → Expr} (h : ∀ e, (f e).size ≤ e.size) :
    sizeAll (es.map f) ≤ sizeAll es := by
  induction es with
  | nil => exact le_refl _
  | cons e es ih =>
    have := h e
    rw [map_cons, sizeAll, sizeAll]
    omega

theorem sizeFields_map_le {fields : List (String × Expr)} {f : Expr → Expr}
    (h : ∀ e, (f e).size ≤ e.size) :
    sizeFields (fields.map fun q => (q.1, f q.2)) ≤ sizeFields fields := by
  induction fields with
  | nil => exact le_refl _
  | cons q fields ih =>
    obtain ⟨name, e⟩ := q
    have := h e
    change (f e).size + sizeFields _ ≤ e.size + sizeFields fields
    omega

theorem size_fieldOf {name : String} {e v : Expr} (h : fieldOf name e = some v) :
    v.size < e.size := by
  cases e with
  | record fields => exact Nat.lt_succ_of_le (size_le_sizeFields (mem_of_assocGet h))
  | _ => cases h

theorem size_simplify_le (fuel : Nat) (e : Expr) : (simplify fuel e).size ≤ e.size := by
  induction fuel generalizing e with
  | zero => exact le_refl _
  | succ fuel ih =>
    cases e with
    | cast value ty => exact (ih value).trans (Nat.le_succ _)
    | method recv name args =>
      have hrecv := ih recv
      have hargs : sizeAll (args.map (simplify fuel)) ≤ sizeAll args := sizeAll_map_le ih
      unfold simplify
      split
      · next v hv =>
        have hfield : fieldOf name (simplify fuel recv) = some v := by
          split at hv
          · exact hv
          · cases hv
        have hlt := size_fieldOf hfield
        have hv := ih v
        rw [Expr.size]
        omega
      · rw [Expr.size, Expr.size]
        omega
    | bin op a b =>
      have ha := ih a
      have hb := ih b
      rw [simplify, Expr.size, Expr.size]
      omega
    | un op a => exact Nat.succ_le_succ (ih a)
    | arrayLit es => exact Nat.succ_le_succ (sizeAll_map_le ih)
    | record fields => exact Nat.succ_le_succ (sizeFields_map_le ih)
    | ifThen cond then_ els =>
      have hcond := ih cond
      have hthen := ih then_
      have hels := ih els
      rw [simplify, Expr.size, Expr.size]
      omega
    | _ => exact le_refl _

namespace Checker

variable (c : Checker)

/-! ### Obligations -/

/-- The first lemma that applies and whose demands the context entails. -/
def tryLemma (pred : Expr) (ctx : List Constraint) : List Lemma → Option String
  | [] => none
  | l :: lemmas =>
    match l.apply pred ctx with
    | some side => if side.all (entails ctx) then some l.name else tryLemma pred ctx lemmas
    | none => tryLemma pred ctx lemmas

/-- By the solver if it can express the predicate and entails it, else by a lemma. -/
def dischargeOne (pred : Expr) (ctx : List Constraint) (desc : String) : Report :=
  match toConstraint c.platform pred with
  | some con =>
    if entails ctx con then .obligation desc .verified
    else
      match tryLemma pred ctx c.lemmas with
      | some name => .obligation (desc ++ " (trusted lemma: " ++ name ++ ")") .trusted
      | none =>
        .error ("could not verify obligation: " ++ desc) ++ .obligation desc .unverified
  | none =>
    match tryLemma pred ctx c.lemmas with
    | some name => .obligation (desc ++ " (trusted lemma: " ++ name ++ ")") .trusted
    | none =>
      .error ("non-linear obligation not discharged by trusted lemmas: " ++ desc) ++
        .obligation desc .unverified

/-- The two sides of a conjunction are obligations of their own. -/
def discharge (pred : Expr) (ctx : List Constraint) (desc : String) : Report :=
  match _ : simplify pred.size pred with
  | .bin .and a b =>
    discharge a ctx (desc ++ " (conjunct 1)") ++ discharge b ctx (desc ++ " (conjunct 2)")
  | pred => c.dischargeOne pred ctx desc
termination_by pred.size
decreasing_by
  all_goals
    have hle := size_simplify_le pred.size pred
    rename_i h
    rw [h, Expr.size] at hle
    omega

def showModel (m : OrdMap String F64) : String :=
  "\x7b" ++ ", ".intercalate (m.entries.map fun e =>
    c.platform.debugString e.1 ++ ": " ++ c.platform.debugFloat e.2) ++ "\x7d"

/-- The divisor of every quotient and remainder is to be shown nonzero. -/
def checkDivision (denom : Expr) (ctx : List Constraint) (kind : String) : Report :=
  let desc := kind ++ " by zero: " ++ exprToString c.platform denom ++ " != 0"
  match linearize c.platform denom with
  | some d =>
    if unsat (ctx ++ [⟨.eq, d⟩]) then .obligation desc .verified
    else
      let detail := ((findModel (ctx ++ [⟨.eq, d⟩])).map fun m =>
        "counterexample: " ++ c.showModel m).getD ""
      .error ("possible " ++ kind ++ " by zero: denominator could be zero. " ++ detail) ++
        .obligation desc .unverified
  | none =>
    .error ("cannot prove denominator " ++ exprToString c.platform denom ++
      " is non-zero (non-linear); " ++ kind ++ " rejected") ++ .obligation desc .unverified

def checkOperand (op : BinOp) (b : Expr) (ctx : List Constraint) : Report :=
  match op with
  | .div => c.checkDivision b ctx "division"
  | .rem => c.checkDivision b ctx "remainder"
  | _ => .empty

/-! ### The walk -/

/-- A cast to a refinement owes its predicate. -/
def checkCast (value : Expr) (ty : Ty) (ctx : List Constraint) : Option Report := do
  match ← c.asRefine ty with
  | none => some .empty
  | some (bind, pred) =>
    let inst := subst bind ((fieldOf bind value).getD value) pred
    some (c.discharge inst ctx
      ("refinement " ++ typeName ty ++ ": " ++ exprToString c.platform inst))

/-- The length of a returned array, the cast of a refined result and the `ensures`
clause. -/
def checkReturn (e : Expr) (ctx : List Constraint) : Option Report := do
  let length ← match e with
    | .arrayLit es => do
      match ← c.arrayLenOf (c.aliases.length + 1) c.ret with
      | some n =>
        if es.length = n.toNat then some Report.empty
        else some (.error ("function " ++ "\x60" ++ c.currentFn ++ "\x60" ++
          " returns an array of length " ++ toString es.length ++
          " but its type requires length " ++ toString n.toNat))
      | none => some .empty
    | _ => some .empty
  let refined ← c.asRefine c.ret
  let cast := match e with
    | .cast _ _ => Report.empty
    | _ =>
      if refined.isSome then
        .error ("function " ++ "\x60" ++ c.currentFn ++ "\x60" ++
          " returns a refinement type; the return value must be introduced with " ++
          "\x60as\x60")
      else .empty
  let ensured := match c.ensures with
    | some (.lambda (.var p :: _) body) =>
      let inst := subst p e body
      c.discharge inst ctx ("ensures: " ++ exprToString c.platform inst)
    | _ => .empty
  some (length ++ cast ++ ensured)

mutual

/-- All obligations of an expression, each with what is known on the way to it. -/
def walk : Expr → List Constraint → Option Report
  | .num _, _ => some .empty
  | .bool _, _ => some .empty
  | .var _, _ => some .empty
  | .arrayLit es, ctx => walkAll es ctx
  | .bin op a b, ctx => do
    let ra ← walk a ctx
    let rb ← walk b ctx
    some (ra ++ rb ++ c.checkOperand op b ctx)
  | .un _ a, ctx => walk a ctx
  -- the condition itself is not walked
  | .ifThen cond then_ els, ctx => do
    let rthen ← walk then_ (ctx ++ pathConstraints c.platform cond)
    let rels ← walk els (ctx ++ (negateConstraints c.platform cond).getD [])
    some (rthen ++ rels)
  | .letIn name value body, ctx => do
    let rvalue ← walk value ctx
    let rbody ← walk body (ctx ++ cmp c.platform (.var name) value .eq)
    some (rvalue ++ rbody)
  | .call _ args, ctx => walkAll args ctx
  | .method recv _ args, ctx => do
    let rrecv ← walk recv ctx
    let rargs ← walkAll args ctx
    some (rrecv ++ rargs)
  | .lambda _ body, ctx => walk body ctx
  | .record fields, ctx => walkFields fields ctx
  | .cast value ty, ctx => do
    let rvalue ← walk value ctx
    let rcast ← c.checkCast value ty ctx
    some (rvalue ++ rcast)
  | .ret e, ctx => do
    let r ← walk e ctx
    let rreturn ← c.checkReturn e ctx
    some (r ++ rreturn)

def walkAll : List Expr → List Constraint → Option Report
  | [], _ => some .empty
  | e :: es, ctx => do
    let r ← walk e ctx
    let rs ← walkAll es ctx
    some (r ++ rs)

def walkFields : List (String × Expr) → List Constraint → Option Report
  | [], _ => some .empty
  | (_, e) :: fields, ctx => do
    let r ← walk e ctx
    let rs ← walkFields fields ctx
    some (r ++ rs)

end

end Checker

/-- The constraints of a `requires` clause. -/
def Fun.requiresConstraints (p : Platform) (f : Fun) : List Constraint :=
  (f.requires.map (pathConstraints p)).getD []

/-- The obligations of the body in the context of `requires`, which must not contradict itself. -/
def checkFun (p : Platform) (aliases : List (String × Ty)) (lemmas : List Lemma) (f : Fun) :
    Option Report := do
  let checker : Checker := ⟨p, aliases, lemmas, f.ensures, f.ret, f.name⟩
  let ctx := f.requiresConstraints p
  let contradictory : Report :=
    if !ctx.isEmpty && unsat ctx then
      .error "requires clause is contradictory (unsatisfiable)"
    else .empty
  let body ← checker.walk f.body ctx
  some (contradictory ++ body)

/-! ### Termination -/

mutual

def collectCalls : Expr → List (String × List Expr)
  | .bin _ a b => collectCalls a ++ collectCalls b
  | .un _ a => collectCalls a
  | .ifThen cond then_ els => collectCalls cond ++ collectCalls then_ ++ collectCalls els
  | .letIn _ value body => collectCalls value ++ collectCalls body
  | .call func args => (func, args) :: collectCallsAll args
  | .method recv _ args => collectCalls recv ++ collectCallsAll args
  | .lambda _ body => collectCalls body
  | .record fields => collectCallsFields fields
  | .cast value _ => collectCalls value
  | .ret e => collectCalls e
  | .num _ | .bool _ | .var _ | .arrayLit _ => []

def collectCallsAll : List Expr → List (String × List Expr)
  | [] => []
  | e :: es => collectCalls e ++ collectCallsAll es

def collectCallsFields : List (String × Expr) → List (String × List Expr)
  | [] => []
  | (_, e) :: fields => collectCalls e ++ collectCallsFields fields

end

/-- How often the search may still push a function. -/
def unexplored (callees : List (String × List String)) (seen : List String) : Nat :=
  ((callees.filter fun p => !seen.contains p.1).map fun p => p.2.length).sum

theorem unexplored_cons_self (callees : List (String × List String)) (seen : List String)
    (n : String) : unexplored callees (n :: seen) ≤ unexplored callees seen := by
  induction callees with
  | nil => exact le_refl _
  | cons p callees ih =>
    unfold unexplored at ih ⊢
    rw [filter_cons, filter_cons, contains_cons]
    cases p.1 == n <;> cases seen.contains p.1 <;>
      simp only [Bool.or_false, Bool.or_true, Bool.not_true, Bool.not_false, Bool.false_eq_true,
        if_true, if_false, map_cons, sum_cons] <;> omega

/-- Exploring a function takes away what it may push. -/
theorem unexplored_cons (callees : List (String × List String)) {seen : List String} {n : String}
    (hn : seen.contains n = false) :
    unexplored callees (n :: seen) + ((assocGet callees n).getD []).length ≤
      unexplored callees seen := by
  induction callees with
  | nil => simp [unexplored]
  | cons p callees ih =>
    have hrest := unexplored_cons_self callees seen n
    unfold unexplored at ih hrest ⊢
    rw [assocGet_cons, filter_cons, filter_cons, contains_cons]
    by_cases hp : p.1 = n
    · rw [hp, beq_self_eq_true, hn, if_pos rfl]
      simp only [Bool.true_or, Bool.not_true, Bool.not_false, Bool.false_eq_true, if_false, if_true,
        Option.getD_some, map_cons, sum_cons]
      omega
    · rw [beq_false_of_ne hp, if_neg hp, Bool.false_or]
      cases seen.contains p.1 <;>
        simp only [Bool.not_true, Bool.not_false, Bool.false_eq_true, if_false, if_true,
          map_cons, sum_cons] <;> omega

/-- The functions that calls lead to; the top of the stack comes first. -/
def reachableFrom (callees : List (String × List String)) (seen : List String) :
    List String → List String
  | [] => seen
  | n :: stack =>
    if seen.contains n then reachableFrom callees seen stack
    else
      reachableFrom callees (n :: seen)
        ((((assocGet callees n).getD []).filter fun f => !(n :: seen).contains f).reverse ++ stack)
termination_by stack => stack.length + unexplored callees seen
decreasing_by
  · rw [List.length_cons]
    omega
  · next h =>
    have hle := unexplored_cons callees (Bool.eq_false_iff.mpr h)
    have hfilter := List.length_filter_le (fun f => !(n :: seen).contains f)
      ((assocGet callees n).getD [])
    rw [List.length_append, List.length_reverse, List.length_cons]
    omega

/-- The functions that calls lead to, the start included. -/
def reachable (callees : List (String × List String)) (start : String) : List String :=
  reachableFrom callees [] [start]

/-- Whether an argument is provably less than the parameter. -/
def exprDecreases (p : Platform) (arg : Expr) (param : String) : Bool :=
  match linearize p arg with
  | some la => entails [] ⟨.lt, la.sub (.var param)⟩
  | none => false

def Module.funs (m : Module) : List Fun :=
  m.items.filterMap fun
    | .fn f => some f
    | .typeAlias _ _ => none

def Module.aliases (m : Module) : List (String × Ty) :=
  (m.items.filterMap fun
    | .typeAlias name ty => some (name, ty)
    | .fn _ => none).reverse

/-- A recursive call of the function without a decreasing argument. -/
def mayNotTerminate (p : Platform) (funs : List Fun) (f : Fun) : Bool :=
  let paramsOf := funs.reverse.map fun g => (g.name, g.params.map Prod.fst)
  let callsOf := funs.reverse.map fun g => (g.name, collectCalls g.body)
  let callees := callsOf.map fun g => (g.1, (g.2.map Prod.fst).eraseDups)
  let reach := reachable callees f.name
  reach.contains f.name && ((assocGet callsOf f.name).getD []).any fun call =>
    reach.contains call.1 &&
      match assocGet paramsOf call.1 with
      | none => false
      | some params => !(call.2.zip params).any fun q => exprDecreases p q.1 q.2

/-- An error for every function that may call itself without end. -/
def checkTermination (p : Platform) (m : Module) : Report :=
  ⟨m.funs.filterMap fun f =>
    if mayNotTerminate p m.funs f then
      some ("function " ++ "\x60" ++ f.name ++ "\x60" ++
        " may not terminate: a recursive call has " ++
        "no strictly-decreasing argument (no well-founded metric)")
    else none, []⟩

/-! ### Modules -/

def checkFuns (p : Platform) (aliases : List (String × Ty)) (lemmas : List Lemma) :
    List Fun → Option Report
  | [] => some .empty
  | f :: fs => do
    let r ← checkFun p aliases lemmas f
    let rs ← checkFuns p aliases lemmas fs
    some (r ++ rs)

def checkWith (p : Platform) (m : Module) (lemmas : List Lemma) : Option Report := do
  let report ← checkFuns p m.aliases lemmas m.funs
  some (report ++ checkTermination p m)

/-! ### The trusted lemma -/

/-- The rounded sum of the squares, if all elements are literals. -/
def sumSquares : List Expr → F64 → Option F64
  | [], sum => some sum
  | .num n :: es, sum => sumSquares es (sum.add (n.mul n))
  | _ :: _, _ => none

/-- A literal array's magnitude, compared up to `1e-9`. -/
def literalMagnitudeLe (p : Platform) (elems : List Expr) (bound : F64) : Bool :=
  match sumSquares elems ⟨0⟩ with
  | some sum => (p.sqrt sum).le (bound.add ⟨0x3E112E0BE826D695⟩)
  | none => false

def normalizedVectorShape (p : Platform) (x : Expr) (ctx : List Constraint) : Bool :=
  match x with
  | .arrayLit elems => literalMagnitudeLe p elems ⟨0x3FF0000000000000⟩
  | .method _ name (.lambda [_] (.bin .div _ b) :: _) =>
    name == "map" &&
      match linearize p b with
      | some mc => entails ctx ⟨.gt, mc⟩
      | none => false
  | _ => false

def lemmaNormalizedVector (p : Platform) (pred : Expr) (ctx : List Constraint) :
    Option (List Constraint) :=
  match pred with
  | .bin op (.method recv name args) (.num n) =>
    if (op = .le ∨ op = .lt) ∧ n = ⟨0x3FF0000000000000⟩ ∧ name = "magnitude" ∧ args.isEmpty ∧
        normalizedVectorShape p recv ctx then some []
    else none
  | _ => none

def defaultLemmas (p : Platform) : List Lemma :=
  [⟨"normalized_vector", lemmaNormalizedVector p⟩]

def check (p : Platform) (m : Module) : Option Report :=
  checkWith p m (defaultLemmas p)

end Oikos.Eidos
