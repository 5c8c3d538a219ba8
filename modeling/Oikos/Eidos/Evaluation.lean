/-
The evaluation of eidos expressions: call by value over the real numbers, with `&&`
and `||` that skip their second operand and `return` that leaves the function.
-/
import Oikos.Eidos.Syntax
import Oikos.Lib.Assoc
import Mathlib.Algebra.Order.Archimedean.Real.Basic

namespace Oikos.Eidos

open List Option

inductive Value where
  | real (x : ℝ)
  | bool (b : Bool)
  | array (elems : List Value)
  | record (fields : List (String × Value))
  | closure (captured : List (String × Value)) (params : List Pattern) (body : Expr)

abbrev Env :=
  List (String × Value)

/-- What an expression comes to: a value, or the result of the function. -/
inductive Outcome where
  | value (v : Value)
  | returned (v : Value)

def Outcome.result : Outcome → Outcome
  | .value v | .returned v => .value v

def andThen (x : Option Outcome) (f : Value → Option Outcome) : Option Outcome :=
  match x with
  | none => none
  | some (.returned v) => some (.returned v)
  | some (.value v) => f v

def evalAll (eval : Expr → Option Outcome) :
    List Expr → (List Value → Option Outcome) → Option Outcome
  | [], k => k []
  | e :: es, k => andThen (eval e) fun v => evalAll eval es fun vs => k (v :: vs)

open Classical in
/-- An operation on values; a division or a remainder by zero has no result. -/
noncomputable def applyBin : BinOp → Value → Value → Option Value
  | .add, .real x, .real y => some (.real (x + y))
  | .sub, .real x, .real y => some (.real (x - y))
  | .mul, .real x, .real y => some (.real (x * y))
  | .div, .real x, .real y => if y = 0 then none else some (.real (x / y))
  | .rem, .real x, .real y =>
    if y = 0 then none
    else if 0 ≤ x / y then some (.real (x - y * ⌊x / y⌋))
    else some (.real (x - y * ⌈x / y⌉))
  | .lt, .real x, .real y => some (.bool (decide (x < y)))
  | .gt, .real x, .real y => some (.bool (decide (y < x)))
  | .le, .real x, .real y => some (.bool (decide (x ≤ y)))
  | .ge, .real x, .real y => some (.bool (decide (y ≤ x)))
  | .eq, v, w => some (.bool (decide (v = w)))
  | .ne, v, w => some (.bool (!decide (v = w)))
  | .and, .bool x, .bool y => some (.bool (x && y))
  | .or, .bool x, .bool y => some (.bool (x || y))
  | _, _, _ => none

noncomputable def applyUn : UnOp → Value → Option Value
  | .neg, .real x => some (.real (-x))
  | .not, .bool b => some (.bool !b)
  | _, _ => none

/-- The first operand decides. -/
def Skips (op : BinOp) (v : Value) : Prop :=
  op = .and ∧ v = .bool false ∨ op = .or ∧ v = .bool true

/-- The variables that a lambda reads, with their values. -/
def capture (ρ : Env) (e : Expr) : Env :=
  e.freeVars.filterMap fun x => (assocGet ρ x).map fun v => (x, v)

def Module.function (funs : List Fun) (name : String) : Option Fun :=
  funs.find? fun f => f.name == name

def Fun.bindArgs (f : Fun) (vs : List Value) : Env :=
  (f.params.map Prod.fst).zip vs

section Eval

variable (funs : List Fun) (methods : Value → String → List Value → Option Value)

open Classical in
noncomputable def evalStep (eval : Env → Expr → Option Outcome) (ρ : Env) :
    Expr → Option Outcome
  | .num n => if n.isFinite then some (.value (.real n.value)) else none
  | .bool b => some (.value (.bool b))
  | .var x => (assocGet ρ x).map .value
  | .arrayLit es => evalAll (eval ρ) es fun vs => some (.value (.array vs))
  | .bin op a b =>
    andThen (eval ρ a) fun va =>
      if Skips op va then some (.value va)
      else andThen (eval ρ b) fun vb => (applyBin op va vb).map .value
  | .un op a => andThen (eval ρ a) fun va => (applyUn op va).map .value
  | .ifThen cond then_ els =>
    andThen (eval ρ cond) fun
      | .bool true => eval ρ then_
      | .bool false => eval ρ els
      | _ => none
  | .letIn x value body => andThen (eval ρ value) fun v => eval ((x, v) :: ρ) body
  | .call func args =>
    evalAll (eval ρ) args fun vs =>
      match Module.function funs func with
      | some f =>
        if f.params.length = vs.length then
          (eval (f.bindArgs vs) f.body).map Outcome.result
        else none
      | none => none
  | .method recv name args =>
    andThen (eval ρ recv) fun r =>
      evalAll (eval ρ) args fun vs => (methods r name vs).map .value
  | .lambda params body => some (.value (.closure (capture ρ (.lambda params body)) params body))
  | .record fields =>
    evalAll (eval ρ) (fields.map Prod.snd) fun vs =>
      some (.value (.record ((fields.map Prod.fst).zip vs)))
  | .cast value _ => eval ρ value
  | .ret e => andThen (eval ρ e) fun v => some (.returned v)

/-- The outcome of an expression within a number of nested steps. -/
noncomputable def eval : Nat → Env → Expr → Option Outcome
  | 0, _, _ => none
  | fuel + 1, ρ, e => evalStep funs methods (eval fuel) ρ e

def Evaluates (ρ : Env) (e : Expr) (v : Value) : Prop :=
  ∃ fuel, eval funs methods fuel ρ e = some (.value v)

end Eval

/-! ### Outcomes do not depend on the fuel -/

/-- What one gives, the other gives too. -/
def Upto (x y : Option Outcome) : Prop :=
  ∀ o, x = some o → y = some o

theorem Upto.refl (x : Option Outcome) : Upto x x :=
  fun _ h => h

theorem upto_none (x : Option Outcome) : Upto none x := by
  intro o h
  cases h

theorem upto_andThen {x y : Option Outcome} {f g : Value → Option Outcome} (hxy : Upto x y)
    (hfg : ∀ v, Upto (f v) (g v)) : Upto (andThen x f) (andThen y g) := by
  cases x with
  | none => exact upto_none _
  | some o =>
    rw [hxy o rfl]
    cases o with
    | value v => exact hfg v
    | returned v => exact Upto.refl _

theorem upto_evalAll {eval eval' : Expr → Option Outcome} (h : ∀ e, Upto (eval e) (eval' e))
    {k k' : List Value → Option Outcome} (hk : ∀ vs, Upto (k vs) (k' vs)) (es : List Expr) :
    Upto (evalAll eval es k) (evalAll eval' es k') := by
  induction es generalizing k k' with
  | nil => exact hk []
  | cons e es ih => exact upto_andThen (h e) fun v => ih fun vs => hk (v :: vs)

theorem evalAll_congr {eval eval' : Expr → Option Outcome} {es : List Expr}
    (h : ∀ e ∈ es, eval e = eval' e) (k : List Value → Option Outcome) :
    evalAll eval es k = evalAll eval' es k := by
  induction es generalizing k with
  | nil => rfl
  | cons e es ih =>
    rw [evalAll, evalAll, h e mem_cons_self]
    congr 1
    funext v
    exact ih (fun e' he' => h e' (mem_cons_of_mem e he')) _

section Lemmas

variable {funs : List Fun} {methods : Value → String → List Value → Option Value} {ρ ρ' : Env}
  {e a b : Expr} {v w : Value} {fuel : Nat}

theorem upto_succ (fuel : Nat) (ρ : Env) (e : Expr) :
    Upto (eval funs methods fuel ρ e) (eval funs methods (fuel + 1) ρ e) := by
  induction fuel generalizing ρ e with
  | zero => exact upto_none _
  | succ fuel ih =>
    change Upto (evalStep funs methods _ ρ e) (evalStep funs methods _ ρ e)
    cases e with
    | num n => exact Upto.refl _
    | bool b => exact Upto.refl _
    | var x => exact Upto.refl _
    | arrayLit es => exact upto_evalAll (ih ρ) (fun vs => Upto.refl _) es
    | bin op a b =>
      refine upto_andThen (ih ρ a) fun va => ?_
      split
      · exact Upto.refl _
      · exact upto_andThen (ih ρ b) fun vb => Upto.refl _
    | un op a => exact upto_andThen (ih ρ a) fun va => Upto.refl _
    | ifThen cond then_ els =>
      refine upto_andThen (ih ρ cond) fun vc => ?_
      cases vc with
      | bool b =>
        cases b with
        | true => exact ih ρ then_
        | false => exact ih ρ els
      | _ => exact upto_none _
    | letIn x value body => exact upto_andThen (ih ρ value) fun v => ih _ body
    | call func args =>
      refine upto_evalAll (ih ρ) (fun vs => ?_) args
      cases Module.function funs func with
      | none => exact upto_none _
      | some f =>
        dsimp only
        split
        · intro o ho
          obtain ⟨o', ho', rfl⟩ := map_eq_some_iff.mp ho
          rw [ih _ _ o' ho', map_some]
        · exact upto_none _
    | method recv name args =>
      exact upto_andThen (ih ρ recv) fun r => upto_evalAll (ih ρ) (fun vs => Upto.refl _) args
    | lambda params body => exact Upto.refl _
    | record fields => exact upto_evalAll (ih ρ) (fun vs => Upto.refl _) _
    | cast value ty => exact ih ρ value
    | ret e => exact upto_andThen (ih ρ e) fun v => Upto.refl _

theorem upto_of_le {fuel fuel' : Nat} (h : fuel ≤ fuel') (ρ : Env) (e : Expr) :
    Upto (eval funs methods fuel ρ e) (eval funs methods fuel' ρ e) := by
  induction h with
  | refl => exact Upto.refl _
  | step _ ih => exact fun o ho => upto_succ _ ρ e o (ih o ho)

/-- An expression has at most one value. -/
theorem Evaluates.unique (hv : Evaluates funs methods ρ e v) (hw : Evaluates funs methods ρ e w) :
    v = w := by
  obtain ⟨n, hn⟩ := hv
  obtain ⟨k, hk⟩ := hw
  have hn' := upto_of_le (Nat.le_max_left n k) ρ e _ hn
  have hk' := upto_of_le (Nat.le_max_right n k) ρ e _ hk
  rw [hn'] at hk'
  cases hk'
  rfl

/-! ### Values depend on free variables only -/

/-- The environments agree on the variables that the expression reads. -/
def Agree (ρ ρ' : Env) (e : Expr) : Prop :=
  ∀ x ∈ e.freeVars, assocGet ρ x = assocGet ρ' x

theorem capture_congr (h : Agree ρ ρ' e) : capture ρ e = capture ρ' e :=
  filterMap_congr fun x hx => by rw [h x hx]

theorem eval_congr (h : Agree ρ ρ' e) :
    eval funs methods fuel ρ e = eval funs methods fuel ρ' e := by
  induction fuel generalizing ρ ρ' e with
  | zero => rfl
  | succ fuel ih =>
    change evalStep funs methods _ ρ e = evalStep funs methods _ ρ' e
    cases e with
    | num n => rfl
    | bool b => rfl
    | var x => exact congrArg (Option.map Outcome.value) (h x (mem_singleton.mpr rfl))
    | arrayLit es =>
      exact evalAll_congr (fun e he => ih fun x hx => h x (mem_freeVarsAll.mpr ⟨e, he, hx⟩)) _
    | bin op a b =>
      have ha : Agree ρ ρ' a := fun x hx => h x (mem_append_left _ hx)
      have hb : Agree ρ ρ' b := fun x hx => h x (mem_append_right _ hx)
      rw [evalStep, evalStep, ih ha, ih hb]
    | un op a =>
      have ha : Agree ρ ρ' a := h
      rw [evalStep, evalStep, ih ha]
    | ifThen cond then_ els =>
      have hcond : Agree ρ ρ' cond := fun x hx =>
        h x (mem_append_left _ (mem_append_left _ hx))
      have hthen : Agree ρ ρ' then_ := fun x hx =>
        h x (mem_append_left _ (mem_append_right _ hx))
      have hels : Agree ρ ρ' els := fun x hx => h x (mem_append_right _ hx)
      rw [evalStep, evalStep, ih hcond, ih hthen, ih hels]
    | letIn x value body =>
      have hvalue : Agree ρ ρ' value := fun y hy => h y (mem_append_left _ hy)
      rw [evalStep, evalStep, ih hvalue]
      congr 1
      funext v
      refine ih fun y hy => ?_
      rw [assocGet_cons, assocGet_cons]
      split
      · rfl
      · next hne =>
        refine h y (mem_append_right _ (mem_filter.mpr ⟨hy, ?_⟩))
        exact bne_iff_ne.mpr fun heq => hne heq.symm
    | call func args =>
      exact evalAll_congr (fun e he => ih fun x hx => h x (mem_freeVarsAll.mpr ⟨e, he, hx⟩)) _
    | method recv name args =>
      have hrecv : Agree ρ ρ' recv := fun x hx => h x (mem_append_left _ hx)
      rw [evalStep, evalStep, ih hrecv]
      congr 1
      funext r
      exact evalAll_congr (fun e he => ih fun x hx =>
        h x (mem_append_right _ (mem_freeVarsAll.mpr ⟨e, he, hx⟩))) _
    | lambda params body =>
      rw [evalStep, evalStep, capture_congr h]
    | record fields =>
      refine evalAll_congr (fun e he => ih fun x hx => ?_) _
      obtain ⟨f, hf, rfl⟩ := mem_map.mp he
      exact h x (mem_freeVarsFields.mpr ⟨f, hf, hx⟩)
    | cast value ty =>
      have hvalue : Agree ρ ρ' value := h
      exact ih hvalue
    | ret e =>
      have he : Agree ρ ρ' e := h
      rw [evalStep, evalStep, ih he]

theorem Evaluates.congr (hv : Evaluates funs methods ρ e v) (h : Agree ρ ρ' e) :
    Evaluates funs methods ρ' e v := by
  obtain ⟨fuel, hfuel⟩ := hv
  exact ⟨fuel, eval_congr h ▸ hfuel⟩

/-! ### What the parts of an expression come to -/

theorem andThen_eq_value {x : Option Outcome} {f : Value → Option Outcome}
    (h : andThen x f = some (.value w)) : ∃ v, x = some (.value v) ∧ f v = some (.value w) := by
  cases x with
  | none => cases h
  | some o =>
    cases o with
    | value v => exact ⟨v, rfl, h⟩
    | returned v => cases h

theorem evaluates_bin {op : BinOp} (h : Evaluates funs methods ρ (.bin op a b) v) :
    ∃ va, Evaluates funs methods ρ a va ∧
      ((Skips op va ∧ v = va) ∨
        ∃ vb, Evaluates funs methods ρ b vb ∧ applyBin op va vb = some v) := by
  obtain ⟨fuel, h⟩ := h
  cases fuel with
  | zero => cases h
  | succ fuel =>
    obtain ⟨va, ha, h⟩ := andThen_eq_value h
    refine ⟨va, ⟨fuel, ha⟩, ?_⟩
    split at h
    · next hskips =>
      cases h
      exact Or.inl ⟨hskips, rfl⟩
    · obtain ⟨vb, hb, h⟩ := andThen_eq_value h
      obtain ⟨r, hr, heq⟩ := map_eq_some_iff.mp h
      cases heq
      exact Or.inr ⟨vb, ⟨fuel, hb⟩, hr⟩

theorem evaluates_un {op : UnOp} (h : Evaluates funs methods ρ (.un op a) v) :
    ∃ va, Evaluates funs methods ρ a va ∧ applyUn op va = some v := by
  obtain ⟨fuel, h⟩ := h
  cases fuel with
  | zero => cases h
  | succ fuel =>
    obtain ⟨va, ha, h⟩ := andThen_eq_value h
    obtain ⟨r, hr, heq⟩ := map_eq_some_iff.mp h
    cases heq
    exact ⟨va, ⟨fuel, ha⟩, hr⟩

theorem Evaluates.bin {op : BinOp} {va vb : Value} (ha : Evaluates funs methods ρ a va)
    (hskips : ¬Skips op va) (hb : Evaluates funs methods ρ b vb)
    (h : applyBin op va vb = some v) : Evaluates funs methods ρ (.bin op a b) v := by
  obtain ⟨n, ha⟩ := ha
  obtain ⟨k, hb⟩ := hb
  have ha' := upto_of_le (Nat.le_max_left n k) ρ a _ ha
  have hb' := upto_of_le (Nat.le_max_right n k) ρ b _ hb
  refine ⟨max n k + 1, ?_⟩
  rw [eval, evalStep, ha', andThen, if_neg hskips, hb', andThen, h]
  rfl

theorem Evaluates.num {n : F64} (h : n.isFinite = true) :
    Evaluates funs methods ρ (.num n) (.real n.value) :=
  ⟨1, by rw [eval, evalStep, if_pos h]⟩

theorem evaluates_num {n : F64} (h : Evaluates funs methods ρ (.num n) v) : v = .real n.value := by
  obtain ⟨fuel, h⟩ := h
  cases fuel with
  | zero => cases h
  | succ fuel =>
    rw [eval, evalStep] at h
    split at h
    · cases h
      rfl
    · cases h

theorem evaluates_var {x : String} :
    Evaluates funs methods ρ (.var x) v ↔ assocGet ρ x = some v := by
  constructor
  · rintro ⟨fuel, h⟩
    cases fuel with
    | zero => cases h
    | succ fuel =>
      obtain ⟨r, hr, heq⟩ := map_eq_some_iff.mp h
      cases heq
      exact hr
  · intro h
    exact ⟨1, congrArg (Option.map Outcome.value) h⟩

end Lemmas

end Oikos.Eidos
