/-
The division safety of accepted modules.  An evaluation comes to points: expressions with
the values of their variables, and with the facts that the kernel knows there.  What it
takes for known is wrong after a name is bound again and in some negations; a run that
keeps clear of these, and divides where the kernel walks, never divides by zero.
-/
import Mathlib.Data.List.Forall2
import Mathlib.Logic.Relation
import Oikos.Eidos.Valuation

namespace Oikos.Eidos

open List Option

section Points

/-- An expression that is about to be evaluated. No step depends on the facts. -/
structure Visit (p : Platform) where
  env : Env
  facts : List (Fact p)
  e : Expr

/-- The facts of a `requires` clause. -/
def Fun.requiresFacts (p : Platform) (f : Fun) : List (Fact p) :=
  (f.requires.map (pathFacts p)).getD []

theorem requiresFacts_constraints (p : Platform) (f : Fun) :
    (f.requiresFacts p).map Fact.constraint = f.requiresConstraints p := by
  rw [Fun.requiresFacts, Fun.requiresConstraints]
  cases f.requires with
  | none => rfl
  | some r => exact pathFacts_constraints r

section Steps

variable (funs : List Fun) (methods : Value → String → List Value → Option Value)

def Arrives (ρ : Env) (es : List Expr) (e : Expr) : Prop :=
  ∃ before after, es = before ++ e :: after ∧ ∀ x ∈ before, ∃ v, Evaluates funs methods ρ x v

inductive Step {p : Platform} : Visit p → Visit p → Prop
  | element {ρ : Env} {facts : List (Fact p)} {es : List Expr} {e : Expr}
      (h : Arrives funs methods ρ es e) : Step ⟨ρ, facts, .arrayLit es⟩ ⟨ρ, facts, e⟩
  | left {ρ : Env} {facts : List (Fact p)} {op : BinOp} {a b : Expr} :
      Step ⟨ρ, facts, .bin op a b⟩ ⟨ρ, facts, a⟩
  | right {ρ : Env} {facts : List (Fact p)} {op : BinOp} {a b : Expr} {va : Value}
      (ha : Evaluates funs methods ρ a va) (hskips : ¬Skips op va) :
      Step ⟨ρ, facts, .bin op a b⟩ ⟨ρ, facts, b⟩
  | operand {ρ : Env} {facts : List (Fact p)} {op : UnOp} {a : Expr} :
      Step ⟨ρ, facts, .un op a⟩ ⟨ρ, facts, a⟩
  | cond {ρ : Env} {facts : List (Fact p)} {cond then_ els : Expr} :
      Step ⟨ρ, facts, .ifThen cond then_ els⟩ ⟨ρ, facts, cond⟩
  | then_ {ρ : Env} {facts : List (Fact p)} {cond then_ els : Expr}
      (h : Evaluates funs methods ρ cond (.bool true)) :
      Step ⟨ρ, facts, .ifThen cond then_ els⟩ ⟨ρ, facts ++ pathFacts p cond, then_⟩
  | els {ρ : Env} {facts : List (Fact p)} {cond then_ els : Expr}
      (h : Evaluates funs methods ρ cond (.bool false)) :
      Step ⟨ρ, facts, .ifThen cond then_ els⟩ ⟨ρ, facts ++ (negateFacts p cond).getD [], els⟩
  | letValue {ρ : Env} {facts : List (Fact p)} {x : String} {value body : Expr} :
      Step ⟨ρ, facts, .letIn x value body⟩ ⟨ρ, facts, value⟩
  | letBody {ρ : Env} {facts : List (Fact p)} {x : String} {value body : Expr} {v : Value}
      (h : Evaluates funs methods ρ value v) :
      Step ⟨ρ, facts, .letIn x value body⟩
        ⟨(x, v) :: ρ, facts ++ cmpFacts p (.var x) value .eq, body⟩
  | argument {ρ : Env} {facts : List (Fact p)} {func : String} {args : List Expr} {e : Expr}
      (h : Arrives funs methods ρ args e) : Step ⟨ρ, facts, .call func args⟩ ⟨ρ, facts, e⟩
  | callee {ρ : Env} {facts : List (Fact p)} {func : String} {args : List Expr} {f : Fun}
      {vs : List Value} (hargs : List.Forall₂ (Evaluates funs methods ρ) args vs)
      (hf : Module.function funs func = some f) (hlen : f.params.length = vs.length) :
      Step ⟨ρ, facts, .call func args⟩ ⟨f.bindArgs vs, f.requiresFacts p, f.body⟩
  | receiver {ρ : Env} {facts : List (Fact p)} {recv : Expr} {name : String} {args : List Expr} :
      Step ⟨ρ, facts, .method recv name args⟩ ⟨ρ, facts, recv⟩
  | methodArgument {ρ : Env} {facts : List (Fact p)} {recv : Expr} {name : String}
      {args : List Expr} {e : Expr} {r : Value} (hrecv : Evaluates funs methods ρ recv r)
      (h : Arrives funs methods ρ args e) :
      Step ⟨ρ, facts, .method recv name args⟩ ⟨ρ, facts, e⟩
  | lambdaBody {ρ ρ' : Env} {facts : List (Fact p)} {params : List Pattern} {body : Expr}
      (h : ∀ x, patternBinds params x = false → assocGet ρ x = assocGet ρ' x) :
      Step ⟨ρ, facts, .lambda params body⟩ ⟨ρ', facts, body⟩
  | field {ρ : Env} {facts : List (Fact p)} {fields : List (String × Expr)} {e : Expr}
      (h : Arrives funs methods ρ (fields.map Prod.snd) e) :
      Step ⟨ρ, facts, .record fields⟩ ⟨ρ, facts, e⟩
  | cast {ρ : Env} {facts : List (Fact p)} {value : Expr} {ty : Ty} :
      Step ⟨ρ, facts, .cast value ty⟩ ⟨ρ, facts, value⟩
  | ret {ρ : Env} {facts : List (Fact p)} {e : Expr} : Step ⟨ρ, facts, .ret e⟩ ⟨ρ, facts, e⟩

/-- A division or a remainder whose divisor is zero. -/
def Visit.DividesByZero {p : Platform} (v : Visit p) : Prop :=
  ∃ op a b va, v.e = .bin op a b ∧ (op = .div ∨ op = .rem) ∧
    Evaluates funs methods v.env a va ∧ Evaluates funs methods v.env b (.real 0)

/-- The arguments satisfy the `requires` clause. -/
def Fun.Requires (f : Fun) (vs : List Value) : Prop :=
  ∀ r, f.requires = some r → Evaluates funs methods (f.bindArgs vs) r (.bool true)

/-- The call of a function. -/
def Fun.entry (f : Fun) (p : Platform) (vs : List Value) : Visit p :=
  ⟨f.bindArgs vs, f.requiresFacts p, f.body⟩

end Steps

variable {funs : List Fun} {methods : Value → String → List Value → Option Value} {ρ : Env}

theorem Arrives.mem {es : List Expr} {e : Expr} (h : Arrives funs methods ρ es e) : e ∈ es := by
  obtain ⟨before, after, rfl, _⟩ := h
  exact mem_append_right _ mem_cons_self

end Points

section Divisors

/-! ### Divisors -/

mutual

def Expr.divisors : Expr → List Expr
  | .num _ | .bool _ | .var _ => []
  | .arrayLit es => divisorsAll es
  | .bin op a b => a.divisors ++ b.divisors ++ if op = .div ∨ op = .rem then [b] else []
  | .un _ a => a.divisors
  | .ifThen cond then_ els => cond.divisors ++ then_.divisors ++ els.divisors
  | .letIn _ value body => value.divisors ++ body.divisors
  | .call _ args => divisorsAll args
  | .method recv _ args => recv.divisors ++ divisorsAll args
  | .lambda _ body => body.divisors
  | .record fields => divisorsFields fields
  | .cast value _ => value.divisors
  | .ret e => e.divisors

def divisorsAll : List Expr → List Expr
  | [] => []
  | e :: es => e.divisors ++ divisorsAll es

def divisorsFields : List (String × Expr) → List Expr
  | [] => []
  | (_, e) :: fields => e.divisors ++ divisorsFields fields

end

theorem divisors_sub_all {es : List Expr} {e : Expr} (h : e ∈ es) :
    e.divisors ⊆ divisorsAll es := by
  induction es with
  | nil => cases h
  | cons e' es ih =>
    rcases mem_cons.mp h with rfl | h
    · exact subset_append_left _ _
    · exact subset_append_of_subset_right _ (ih h)

theorem divisors_sub_fields {fields : List (String × Expr)} {e : Expr}
    (h : e ∈ fields.map Prod.snd) : e.divisors ⊆ divisorsFields fields := by
  induction fields with
  | nil => cases h
  | cons f fields ih =>
    rcases mem_cons.mp h with rfl | h
    · exact subset_append_left _ _
    · exact subset_append_of_subset_right _ (ih h)

/-- Every division and remainder in the expression is by a number that is not zero. -/
def Expr.DividesByLiterals (e : Expr) : Prop :=
  ∀ d ∈ e.divisors, ∃ k, d = .num k ∧ k.value ≠ 0

/-! ### What the walk accepts -/

def Accepted (x : Option Report) : Prop :=
  ∃ r, x = some r ∧ r.ok = true

theorem Accepted.both {x y : Option Report}
    (h : Accepted (x.bind fun rx => y.bind fun ry => some (rx ++ ry))) :
    Accepted x ∧ Accepted y := by
  obtain ⟨r, h, hok⟩ := h
  obtain ⟨rx, hx, h⟩ := bind_eq_some_iff.mp h
  obtain ⟨ry, hy, h⟩ := bind_eq_some_iff.mp h
  cases h
  obtain ⟨hokx, hoky⟩ := Report.ok_append.mp hok
  exact ⟨⟨rx, hx, hokx⟩, ry, hy, hoky⟩

section Walk

variable {c : Checker} {ctx : List Constraint} {e : Expr}

theorem accepted_of_walkAll {es : List Expr} (h : Accepted (c.walkAll es ctx)) (he : e ∈ es) :
    Accepted (c.walk e ctx) := by
  induction es with
  | nil => cases he
  | cons e' es ih =>
    obtain ⟨hfirst, hrest⟩ := Accepted.both h
    rcases mem_cons.mp he with rfl | he
    · exact hfirst
    · exact ih hrest he

theorem accepted_of_walkFields {fields : List (String × Expr)}
    (h : Accepted (c.walkFields fields ctx)) (he : e ∈ fields.map Prod.snd) :
    Accepted (c.walk e ctx) := by
  induction fields with
  | nil => cases he
  | cons f fields ih =>
    obtain ⟨hfirst, hrest⟩ := Accepted.both h
    rcases mem_cons.mp he with rfl | he
    · exact hfirst
    · exact ih hrest he

theorem accepted_bin {op : BinOp} {a b : Expr} (h : Accepted (c.walk (.bin op a b) ctx)) :
    Accepted (c.walk a ctx) ∧ Accepted (c.walk b ctx) ∧
      (op = .div ∨ op = .rem → ∃ kind, (c.checkDivision b ctx kind).ok = true) := by
  obtain ⟨r, h, hok⟩ := h
  obtain ⟨ra, ha, h⟩ := bind_eq_some_iff.mp h
  obtain ⟨rb, hb, h⟩ := bind_eq_some_iff.mp h
  cases h
  obtain ⟨hok, hdivision⟩ := Report.ok_append.mp hok
  obtain ⟨hoka, hokb⟩ := Report.ok_append.mp hok
  refine ⟨⟨ra, ha, hoka⟩, ⟨rb, hb, hokb⟩, ?_⟩
  rintro (rfl | rfl)
  · exact ⟨"division", hdivision⟩
  · exact ⟨"remainder", hdivision⟩

theorem accepted_arrayLit {es : List Expr} (h : Accepted (c.walk (.arrayLit es) ctx))
    (he : e ∈ es) : Accepted (c.walk e ctx) :=
  accepted_of_walkAll h he

theorem accepted_un {op : UnOp} (h : Accepted (c.walk (.un op e) ctx)) :
    Accepted (c.walk e ctx) :=
  h

theorem accepted_ifThen {cond then_ els : Expr}
    (h : Accepted (c.walk (.ifThen cond then_ els) ctx)) :
    Accepted (c.walk then_ (ctx ++ pathConstraints c.platform cond)) ∧
      Accepted (c.walk els (ctx ++ (negateConstraints c.platform cond).getD [])) :=
  Accepted.both h

theorem accepted_letIn {x : String} {value body : Expr}
    (h : Accepted (c.walk (.letIn x value body) ctx)) :
    Accepted (c.walk value ctx) ∧
      Accepted (c.walk body (ctx ++ cmp c.platform (.var x) value .eq)) :=
  Accepted.both h

theorem accepted_call {func : String} {args : List Expr}
    (h : Accepted (c.walk (.call func args) ctx)) (he : e ∈ args) : Accepted (c.walk e ctx) :=
  accepted_of_walkAll h he

theorem accepted_method {recv : Expr} {name : String} {args : List Expr}
    (h : Accepted (c.walk (.method recv name args) ctx)) :
    Accepted (c.walk recv ctx) ∧ ∀ e ∈ args, Accepted (c.walk e ctx) := by
  obtain ⟨hrecv, hargs⟩ := Accepted.both h
  exact ⟨hrecv, fun e he => accepted_of_walkAll hargs he⟩

theorem accepted_lambda {params : List Pattern} {body : Expr}
    (h : Accepted (c.walk (.lambda params body) ctx)) : Accepted (c.walk body ctx) :=
  h

theorem accepted_record {fields : List (String × Expr)}
    (h : Accepted (c.walk (.record fields) ctx)) (he : e ∈ fields.map Prod.snd) :
    Accepted (c.walk e ctx) :=
  accepted_of_walkFields h he

theorem accepted_cast {value : Expr} {ty : Ty} (h : Accepted (c.walk (.cast value ty) ctx)) :
    Accepted (c.walk value ctx) :=
  (Accepted.both h).1

theorem accepted_ret (h : Accepted (c.walk (.ret e) ctx)) : Accepted (c.walk e ctx) :=
  (Accepted.both h).1

end Walk

theorem negation_constraints (p : Platform) (cond : Expr) :
    ((negateFacts p cond).getD []).map Fact.constraint = (negateConstraints p cond).getD [] := by
  rw [← negateFacts_constraints]
  cases negateFacts p cond <;> rfl

/-! ### Runs that keep clear of what the walk leaves out -/

section Runs

variable (funs : List Fun) (methods : Value → String → List Value → Option Value)

/-- Called functions get arguments that satisfy their `requires` clauses. -/
def Visit.MeetsRequires {p : Platform} (v : Visit p) : Prop :=
  ∀ func args vs f, v.e = .call func args → List.Forall₂ (Evaluates funs methods v.env) args vs →
    Module.function funs func = some f → f.params.length = vs.length → f.Requires funs methods vs

/-- The divisor and the facts lose nothing to rounding, and no text stands for two of their
magnitudes. -/
def Visit.DivisionExact {p : Platform} (v : Visit p) : Prop :=
  ∀ op a b, v.e = .bin op a b → op = .div ∨ op = .rem →
    Exact p b ∧ (∀ f ∈ v.facts, f.Exact) ∧
      Faithful p (leaves b ++ v.facts.flatMap Fact.leaves)

/-- The condition of an `if` divides by numbers that are not zero only, and where it is false
its negation is right. -/
def Visit.ConditionWalked {p : Platform} (v : Visit p) : Prop :=
  ∀ cond then_ els, v.e = .ifThen cond then_ els →
    cond.DividesByLiterals ∧
      (Evaluates funs methods v.env cond (.bool false) →
        NegatesRight p funs methods v.env cond)

/-- No name that a fact mentions is bound again. -/
def Visit.NamesFresh {p : Platform} (v : Visit p) : Prop :=
  (∀ x value body, v.e = .letIn x value body →
    (linearize p value ≠ none → x ∉ value.freeVars) ∧ ∀ f ∈ v.facts, x ∉ f.freeVars) ∧
  ∀ params body, v.e = .lambda params body →
    ∀ f ∈ v.facts, ∀ x ∈ f.freeVars, patternBinds params x = false

/-- What the walk relies on without a check. Where no division is left but by numbers that
are not zero, it relies on nothing but the `requires` clauses of called functions. -/
def Visit.Careful {p : Platform} (v : Visit p) : Prop :=
  v.MeetsRequires funs methods ∧
    (v.e.DividesByLiterals ∨
      v.DivisionExact ∧ v.ConditionWalked funs methods ∧ v.NamesFresh)

/-- A step from a point where the walk may be relied on. -/
def CarefulStep {p : Platform} (v v' : Visit p) : Prop :=
  v.Careful funs methods ∧ Step funs methods v v'

def Visit.Walked {p : Platform} (v : Visit p) : Prop :=
  (∃ c : Checker, c.platform = p ∧ Accepted (c.walk v.e (v.facts.map Fact.constraint))) ∧
    ∀ f ∈ v.facts, f.Holds funs methods v.env

/-- The invariant: either the walk has come here, or no division is left that could go
wrong. -/
def Visit.Safe {p : Platform} (v : Visit p) : Prop :=
  v.e.DividesByLiterals ∨ v.Walked funs methods

end Runs

section Safety

variable {p : Platform} {funs : List Fun} {methods : Value → String → List Value → Option Value}
  {v v' : Visit p} {ρ ρ' : Env} {facts : List (Fact p)}

theorem hold_of_bound {x : String} {w : Value} (hfresh : ∀ f ∈ facts, x ∉ f.freeVars)
    (hfacts : ∀ f ∈ facts, f.Holds funs methods ρ) :
    ∀ f ∈ facts, f.Holds funs methods ((x, w) :: ρ) := by
  intro f hf
  refine (hfacts f hf).congr fun y hy => ?_
  rw [assocGet_cons, if_neg]
  rintro rfl
  exact hfresh f hf hy

/-- In the body of a `let` the name has the value that it is bound to. -/
theorem binding_holds {x : String} {value : Expr} {w : Value}
    (hfresh : linearize p value ≠ none → x ∉ value.freeVars)
    (hvalue : Evaluates funs methods ρ value w) :
    ∀ f ∈ cmpFacts p (.var x) value .eq, f.Holds funs methods ((x, w) :: ρ) := by
  intro f hf
  obtain ⟨hrel, ha, hb⟩ := mem_cmpFacts hf
  have hlinear : linearize p value ≠ none := by
    rw [← hb, f.linearize_b]
    exact Option.some_ne_none _
  have hvalue' : Evaluates funs methods ((x, w) :: ρ) value w := by
    refine hvalue.congr fun y hy => ?_
    rw [assocGet_cons, if_neg]
    rintro rfl
    exact hfresh hlinear hy
  have hx : Evaluates funs methods ((x, w) :: ρ) (.var x) w := by
    rw [evaluates_var, assocGet_cons, if_pos rfl]
  exact ⟨w, w, ha ▸ hx, hb ▸ hvalue', hrel ▸ rfl⟩

/-- The body of every function is accepted under its `requires` clause. -/
def BodiesAccepted (p : Platform) (funs : List Fun) : Prop :=
  ∀ f ∈ funs, ∃ c : Checker, c.platform = p ∧ Accepted (c.walk f.body (f.requiresConstraints p))

theorem safe_entry (hbodies : BodiesAccepted p funs) {f : Fun} (hf : f ∈ funs) {vs : List Value}
    (hrequires : f.Requires funs methods vs) : (f.entry p vs).Safe funs methods := by
  obtain ⟨c, hc, haccepted⟩ := hbodies f hf
  refine Or.inr ⟨⟨c, hc, ?_⟩, ?_⟩
  · rw [Fun.entry, requiresFacts_constraints]
    exact haccepted
  · change ∀ fact ∈ f.requiresFacts p, fact.Holds funs methods (f.bindArgs vs)
    rw [Fun.requiresFacts]
    cases hr : f.requires with
    | none => simp
    | some r => exact pathFacts_hold (hrequires r hr)

theorem safe_callee (hbodies : BodiesAccepted p funs) {func : String} {args : List Expr}
    {vs : List Value} {f : Fun}
    (hmeets : (⟨ρ, facts, .call func args⟩ : Visit p).MeetsRequires funs methods)
    (hargs : List.Forall₂ (Evaluates funs methods ρ) args vs)
    (hf : Module.function funs func = some f) (hlen : f.params.length = vs.length) :
    (f.entry p vs).Safe funs methods :=
  safe_entry hbodies (mem_of_find?_eq_some hf) (hmeets func args vs f rfl hargs hf hlen)

/-- A part of an expression has no divisors but those of the expression. -/
theorem Step.safe_of_literals (h : Step funs methods v v') (hbodies : BodiesAccepted p funs)
    (hmeets : v.MeetsRequires funs methods) (hliterals : v.e.DividesByLiterals) :
    v'.Safe funs methods := by
  have part : v'.e.divisors ⊆ v.e.divisors → v'.Safe funs methods :=
    fun hsub => Or.inl fun d hd => hliterals d (hsub hd)
  cases h with
  | element h => exact part (divisors_sub_all h.mem)
  | left => exact part fun d hd => mem_append_left _ (mem_append_left _ hd)
  | right ha hskips => exact part fun d hd => mem_append_left _ (mem_append_right _ hd)
  | operand => exact part fun d hd => hd
  | cond => exact part fun d hd => mem_append_left _ (mem_append_left _ hd)
  | then_ h => exact part fun d hd => mem_append_left _ (mem_append_right _ hd)
  | els h => exact part fun d hd => mem_append_right _ hd
  | letValue => exact part fun d hd => mem_append_left _ hd
  | letBody h => exact part fun d hd => mem_append_right _ hd
  | argument h => exact part (divisors_sub_all h.mem)
  | callee hargs hf hlen => exact safe_callee hbodies hmeets hargs hf hlen
  | receiver => exact part fun d hd => mem_append_left _ hd
  | methodArgument hrecv h =>
    exact part fun d hd => mem_append_right _ (divisors_sub_all h.mem hd)
  | lambdaBody h => exact part fun d hd => hd
  | field h => exact part (divisors_sub_fields h.mem)
  | cast => exact part fun d hd => hd
  | ret => exact part fun d hd => hd

theorem Step.safe_of_walked (h : Step funs methods v v') (hbodies : BodiesAccepted p funs)
    (hmeets : v.MeetsRequires funs methods) (hcondition : v.ConditionWalked funs methods)
    (hfresh : v.NamesFresh) (hwalked : v.Walked funs methods) : v'.Safe funs methods := by
  obtain ⟨⟨c, hc, haccepted⟩, hfacts⟩ := hwalked
  cases h with
  | element h => exact Or.inr ⟨⟨c, hc, accepted_arrayLit haccepted h.mem⟩, hfacts⟩
  | left => exact Or.inr ⟨⟨c, hc, (accepted_bin haccepted).1⟩, hfacts⟩
  | right ha hskips => exact Or.inr ⟨⟨c, hc, (accepted_bin haccepted).2.1⟩, hfacts⟩
  | operand => exact Or.inr ⟨⟨c, hc, accepted_un haccepted⟩, hfacts⟩
  | cond => exact Or.inl (hcondition _ _ _ rfl).1
  | then_ h =>
    have hthen := (accepted_ifThen haccepted).1
    rw [hc, ← pathFacts_constraints, ← map_append] at hthen
    exact Or.inr ⟨⟨c, hc, hthen⟩, forall_mem_append.mpr ⟨hfacts, pathFacts_hold h⟩⟩
  | els h =>
    have hels := (accepted_ifThen haccepted).2
    have hright := (hcondition _ _ _ rfl).2 h
    rw [hc, ← negation_constraints, ← map_append] at hels
    exact Or.inr ⟨⟨c, hc, hels⟩,
      forall_mem_append.mpr ⟨hfacts, negateFacts_hold hright h⟩⟩
  | letValue => exact Or.inr ⟨⟨c, hc, (accepted_letIn haccepted).1⟩, hfacts⟩
  | letBody h =>
    have hbody := (accepted_letIn haccepted).2
    obtain ⟨hvalue, hold⟩ := hfresh.1 _ _ _ rfl
    rw [hc, ← cmpFacts_constraints, ← map_append] at hbody
    exact Or.inr ⟨⟨c, hc, hbody⟩,
      forall_mem_append.mpr ⟨hold_of_bound hold hfacts, binding_holds hvalue h⟩⟩
  | argument h => exact Or.inr ⟨⟨c, hc, accepted_call haccepted h.mem⟩, hfacts⟩
  | callee hargs hf hlen => exact safe_callee hbodies hmeets hargs hf hlen
  | receiver => exact Or.inr ⟨⟨c, hc, (accepted_method haccepted).1⟩, hfacts⟩
  | methodArgument hrecv h =>
    exact Or.inr ⟨⟨c, hc, (accepted_method haccepted).2 _ h.mem⟩, hfacts⟩
  | lambdaBody h =>
    refine Or.inr ⟨⟨c, hc, accepted_lambda haccepted⟩, fun f hf => ?_⟩
    exact (hfacts f hf).congr fun x hx => h x (hfresh.2 _ _ rfl f hf x hx)
  | field h => exact Or.inr ⟨⟨c, hc, accepted_record haccepted h.mem⟩, hfacts⟩
  | cast => exact Or.inr ⟨⟨c, hc, accepted_cast haccepted⟩, hfacts⟩
  | ret => exact Or.inr ⟨⟨c, hc, accepted_ret haccepted⟩, hfacts⟩

theorem CarefulStep.safe (h : CarefulStep funs methods v v') (hbodies : BodiesAccepted p funs)
    (hsafe : v.Safe funs methods) : v'.Safe funs methods := by
  obtain ⟨⟨hmeets, hcareful⟩, hstep⟩ := h
  rcases hsafe with hliterals | hwalked
  · exact hstep.safe_of_literals hbodies hmeets hliterals
  · rcases hcareful with hliterals | ⟨_, hcondition, hfresh⟩
    · exact hstep.safe_of_literals hbodies hmeets hliterals
    · exact hstep.safe_of_walked hbodies hmeets hcondition hfresh hwalked

theorem not_divides_of_literals (h : v.e.DividesByLiterals) : ¬v.DividesByZero funs methods := by
  rintro ⟨op, a, b, va, he, hop, _, hzero⟩
  rw [he] at h
  have hdivisor : b ∈ (Expr.bin op a b).divisors := by
    refine mem_append_right _ ?_
    rw [if_pos hop]
    exact mem_singleton.mpr rfl
  obtain ⟨k, rfl, hk⟩ := h b hdivisor
  have hvalue := evaluates_num hzero
  simp only [Value.real.injEq] at hvalue
  exact hk (Rat.cast_eq_zero.mp hvalue.symm)

theorem not_divides_of_walked (hwalked : v.Walked funs methods) (hexact : v.DivisionExact) :
    ¬v.DividesByZero funs methods := by
  rintro ⟨op, a, b, va, he, hop, _, hzero⟩
  obtain ⟨⟨c, rfl, haccepted⟩, hfacts⟩ := hwalked
  rw [he] at haccepted
  obtain ⟨kind, hok⟩ := (accepted_bin haccepted).2.2 hop
  obtain ⟨hexactb, hexactf, hfaithful⟩ := hexact op a b he hop
  exact not_zero_of_checkDivision hok hfacts hexactf hexactb hfaithful hzero

theorem not_divides_of_safe (hsafe : v.Safe funs methods) (hcareful : v.Careful funs methods) :
    ¬v.DividesByZero funs methods := by
  rcases hsafe with hliterals | hwalked
  · exact not_divides_of_literals hliterals
  · rcases hcareful.2 with hliterals | ⟨hexact, _⟩
    · exact not_divides_of_literals hliterals
    · exact not_divides_of_walked hwalked hexact

theorem safe_of_run (hbodies : BodiesAccepted p funs) (hsafe : v.Safe funs methods)
    (hrun : Relation.ReflTransGen (CarefulStep funs methods) v v') : v'.Safe funs methods := by
  induction hrun with
  | refl => exact hsafe
  | tail _ hstep ih => exact hstep.safe hbodies ih

end Safety

/-! ### Accepted modules -/

section Modules

variable {p : Platform} {aliases : List (String × Ty)} {lemmas : List Lemma} {m : Module}

theorem Accepted.append {x : Option Report} {r : Report}
    (h : Accepted (x.bind fun rx => some (rx ++ r))) : Accepted x := by
  obtain ⟨r', h, hok⟩ := h
  obtain ⟨rx, hx, h⟩ := bind_eq_some_iff.mp h
  cases h
  exact ⟨rx, hx, (Report.ok_append.mp hok).1⟩

theorem accepted_of_checkFun {f : Fun} (h : Accepted (checkFun p aliases lemmas f)) :
    ∃ c : Checker, c.platform = p ∧ Accepted (c.walk f.body (f.requiresConstraints p)) := by
  obtain ⟨r, h, hok⟩ := h
  obtain ⟨body, hbody, h⟩ := bind_eq_some_iff.mp h
  cases h
  exact ⟨_, rfl, body, hbody, (Report.ok_append.mp hok).2⟩

theorem accepted_of_checkFuns {fs : List Fun} (h : Accepted (checkFuns p aliases lemmas fs)) :
    BodiesAccepted p fs := by
  induction fs with
  | nil =>
    intro f hf
    cases hf
  | cons f fs ih =>
    rw [checkFuns] at h
    obtain ⟨hfirst, hrest⟩ := h.both
    exact forall_mem_cons.mpr ⟨accepted_of_checkFun hfirst, ih hrest⟩

theorem bodiesAccepted_of_check (h : Accepted (check p m)) : BodiesAccepted p m.funs := by
  rw [check, checkWith] at h
  exact accepted_of_checkFuns h.append

/-- In an accepted module no run divides by zero that keeps clear of what the walk leaves
out, whatever the arguments and whatever the methods give. -/
theorem careful_run_never_divides_by_zero
    {methods : Value → String → List Value → Option Value} {report : Report}
    (hcheck : check p m = some report) (hok : report.ok = true) {f : Fun} (hf : f ∈ m.funs)
    {vs : List Value} (hrequires : f.Requires m.funs methods vs) {v : Visit p}
    (hrun : Relation.ReflTransGen (CarefulStep m.funs methods) (f.entry p vs) v)
    (hcareful : v.Careful m.funs methods) : ¬v.DividesByZero m.funs methods := by
  have hbodies : BodiesAccepted p m.funs := bodiesAccepted_of_check ⟨report, hcheck, hok⟩
  have hsafe : v.Safe m.funs methods :=
    safe_of_run hbodies (safe_entry hbodies hf hrequires) hrun
  exact not_divides_of_safe hsafe hcareful

end Modules

/-! ### A division under a condition, and one in a condition -/

/-- What the standard library shows of zero and one. -/
def unitPlatform : Platform where
  display f := if f.isZero then "0" else "1"
  debugFloat f := if f.isZero then "0.0" else "1.0"
  debugString s := "\"" ++ s ++ "\""
  sqrt f := f

def zeroLit : Expr :=
  .num ⟨0⟩

def oneLit : Expr :=
  .num ⟨0x3FF0000000000000⟩

def noMethods : Value → String → List Value → Option Value :=
  fun _ _ _ => none

/-- `fn f(a: f64) -> f64 { if a > 0.0 { return 1.0 / a; } else { return 0.0; } }` -/
def guardedReciprocal : Fun where
  name := "f"
  params := [("a", .base "f64")]
  ret := .base "f64"
  requires := none
  ensures := none
  body := .ifThen (.bin .gt (.var "a") zeroLit) (.ret (.bin .div oneLit (.var "a"))) (.ret zeroLit)

/-- `fn f(a: f64) -> f64 { if 1.0 / a > 0.0 { return 1.0; } else { return 0.0; } }` -/
def reciprocalGuard : Fun where
  name := "f"
  params := [("a", .base "f64")]
  ret := .base "f64"
  requires := none
  ensures := none
  body := .ifThen (.bin .gt (.bin .div oneLit (.var "a")) zeroLit) (.ret oneLit) (.ret zeroLit)

theorem check_guardedReciprocal : check unitPlatform ⟨[.fn guardedReciprocal]⟩ =
    some ⟨[], [⟨"division by zero: a != 0", .verified⟩]⟩ := by decide +kernel

theorem evaluates_positive {x : ℝ} (hx : 0 < x) :
    Evaluates [guardedReciprocal] noMethods [("a", .real x)] (.bin .gt (.var "a") zeroLit)
      (.bool true) := by
  have hzero : (F64.value ⟨0⟩ : ℝ) = 0 := by
    rw [F64.value_of_isZero rfl, Rat.cast_zero]
  have hlit : Evaluates [guardedReciprocal] noMethods [("a", .real x)] zeroLit (.real 0) :=
    hzero ▸ Evaluates.num rfl
  refine Evaluates.bin (evaluates_var.mpr rfl) ?_ hlit ?_
  · simp [Skips]
  · simp [applyBin, hx]

/-- A `return` needs no care of its own. -/
theorem careful_of_ret {p : Platform} {funs : List Fun}
    {methods : Value → String → List Value → Option Value} {ρ : Env} {facts : List (Fact p)}
    {e : Expr} : (⟨ρ, facts, .ret e⟩ : Visit p).Careful funs methods := by
  refine ⟨?_, Or.inr ⟨?_, ?_, ?_, ?_⟩⟩
  · intro func args vs f he
    cases he
  · intro op a b he
    cases he
  · intro cond then_ els he
    cases he
  · intro x value body he
    cases he
  · intro params body he
    cases he

theorem careful_guard : (guardedReciprocal.entry unitPlatform [.real 1]).Careful
    [guardedReciprocal] noMethods := by
  refine ⟨?_, Or.inr ⟨?_, ?_, ?_, ?_⟩⟩
  · intro func args vs f he
    cases he
  · intro op a b he
    cases he
  · intro cond then_ els he
    cases he
    refine ⟨?_, fun _ => trivial⟩
    simp [Expr.DividesByLiterals, Expr.divisors, zeroLit]
  · intro x value body he
    cases he
  · intro params body he
    cases he

theorem exact_positive {f : Fact unitPlatform}
    (hf : f ∈ pathFacts unitPlatform (.bin .gt (.var "a") zeroLit)) : f.Exact := by
  rw [pathFacts_gt] at hf
  obtain ⟨_, ha, hb⟩ := mem_cmpFacts hf
  have hla := f.linearize_a
  have hlb := f.linearize_b
  rw [ha] at hla
  rw [hb] at hlb
  have hconstant : F64.add ⟨0⟩ (F64.neg ⟨0⟩) = ⟨0⟩ := by decide +kernel
  have hadd : (LinExpr.var "a").add (LinExpr.ofConstant ⟨0⟩).neg = .var "a" :=
    congrArg (LinExpr.mk (LinExpr.var "a").coeffs) hconstant
  have hzero : (F64.value ⟨0⟩ : ℝ) = 0 := by
    rw [F64.value_of_isZero rfl, Rat.cast_zero]
  refine ⟨ha ▸ trivial, hb ▸ trivial, fun σ => ?_⟩
  rw [← some.inj hla, ← some.inj hlb, hadd, LinExpr.eval_neg,
    LinExpr.eval_ofConstant, hzero, neg_zero, add_zero]

theorem leaves_positive {f : Fact unitPlatform}
    (hf : f ∈ pathFacts unitPlatform (.bin .gt (.var "a") zeroLit)) : f.leaves = [.var "a"] := by
  rw [pathFacts_gt] at hf
  obtain ⟨_, ha, hb⟩ := mem_cmpFacts hf
  rw [Fact.leaves, ha, hb]
  rfl

theorem careful_division :
    (⟨[("a", .real 1)], pathFacts unitPlatform (.bin .gt (.var "a") zeroLit),
      .bin .div oneLit (.var "a")⟩ : Visit unitPlatform).Careful [guardedReciprocal] noMethods := by
  refine ⟨?_, Or.inr ⟨?_, ?_, ?_, ?_⟩⟩
  · intro func args vs f he
    cases he
  · intro op a b he hop
    cases he
    refine ⟨trivial, fun f hf => exact_positive hf, fun e he e' he' _ => ?_⟩
    have hleaf : ∀ e ∈ leaves (.var "a") ++
        (pathFacts unitPlatform (.bin .gt (.var "a") zeroLit)).flatMap Fact.leaves,
        e = .var "a" := by
      refine forall_mem_append.mpr ⟨fun e he => mem_singleton.mp he, fun e he => ?_⟩
      obtain ⟨f, hf, he⟩ := mem_flatMap.mp he
      rw [leaves_positive hf] at he
      exact mem_singleton.mp he
    rw [hleaf e he, hleaf e' he']
  · intro cond then_ els he
    cases he
  · intro x value body he
    cases he
  · intro params body he
    cases he

theorem careful_run_guardedReciprocal :
    Relation.ReflTransGen (CarefulStep [guardedReciprocal] noMethods)
      (guardedReciprocal.entry unitPlatform [.real 1])
      ⟨[("a", .real 1)], pathFacts unitPlatform (.bin .gt (.var "a") zeroLit),
        .bin .div oneLit (.var "a")⟩ :=
  (Relation.ReflTransGen.single ⟨careful_guard, .then_ (evaluates_positive one_pos)⟩).tail
    ⟨careful_of_ret, .ret⟩

theorem guardedReciprocal_never_divides_by_zero :
    ¬(⟨[("a", .real 1)], pathFacts unitPlatform (.bin .gt (.var "a") zeroLit),
      .bin .div oneLit (.var "a")⟩ : Visit unitPlatform).DividesByZero
        [guardedReciprocal] noMethods :=
  careful_run_never_divides_by_zero (m := ⟨[.fn guardedReciprocal]⟩) check_guardedReciprocal rfl
    (mem_singleton.mpr rfl) (fun r hr => by cases hr) careful_run_guardedReciprocal
    careful_division

def reciprocalModule : Module :=
  ⟨[.fn reciprocalGuard]⟩

/-- An accepted module, without a trusted obligation, whose one function divides by zero in the
condition of its `if`. -/
theorem condition_divides_by_zero :
    ∃ report, check unitPlatform reciprocalModule = some report ∧ report.ok = true ∧
      report.NoneTrusted ∧ reciprocalGuard ∈ reciprocalModule.funs ∧
      reciprocalGuard.Requires reciprocalModule.funs noMethods [.real 0] ∧
      ∃ v, Relation.ReflTransGen (Step reciprocalModule.funs noMethods)
        (reciprocalGuard.entry unitPlatform [.real 0]) v ∧
          v.DividesByZero reciprocalModule.funs noMethods := by
  have hrequires : reciprocalGuard.Requires reciprocalModule.funs noMethods [.real 0] := by
    intro r hr
    cases hr
  refine ⟨⟨[], []⟩, by decide +kernel, rfl, by simp [Report.NoneTrusted],
    mem_singleton.mpr rfl, hrequires, ⟨[("a", .real 0)], [], .bin .div oneLit (.var "a")⟩,
    ?_, ?_⟩
  · exact (Relation.ReflTransGen.single .cond).tail .left
  · exact ⟨.div, oneLit, .var "a", _, rfl, Or.inl rfl, Evaluates.num rfl, evaluates_var.mpr rfl⟩

end Divisors

end Oikos.Eidos
