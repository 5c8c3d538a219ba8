/-
What the constraints of a walk say of an evaluation: a fact compares two expressions,
and where it holds of their values the constraint made of it holds too, if no linear
form lost anything to rounding and no text stands for two magnitudes.
-/
import Oikos.Eidos.Kernel
import Oikos.Eidos.Evaluation

namespace Oikos.Eidos

open List

/-- A comparison of two expressions that have linear forms. -/
structure Fact (p : Platform) where
  rel : Rel
  a : Expr
  b : Expr
  la : LinExpr
  lb : LinExpr
  linearize_a : linearize p a = some la
  linearize_b : linearize p b = some lb

variable {p : Platform}

def Fact.constraint (f : Fact p) : Constraint :=
  ⟨f.rel, f.la.sub f.lb⟩

def Fact.freeVars (f : Fact p) : List String :=
  f.a.freeVars ++ f.b.freeVars

/-! ### The facts of conditions -/

def cmpFacts (p : Platform) (a b : Expr) (rel : Rel) : List (Fact p) :=
  match ha : linearize p a, hb : linearize p b with
  | some la, some lb => [⟨rel, a, b, la, lb, ha, hb⟩]
  | _, _ => []

def pathFacts (p : Platform) : Expr → List (Fact p)
  | .bin .and a b => pathFacts p a ++ pathFacts p b
  | .bin op a b =>
    match op.rel with
    | some rel => cmpFacts p a b rel
    | none => []
  | _ => []

def negateFacts (p : Platform) : Expr → Option (List (Fact p))
  | .bin .and a b => do
    let na ← negateFacts p a
    let nb ← negateFacts p b
    some (na ++ nb)
  | .bin .gt a b => some (cmpFacts p a b .le)
  | .bin .ge a b => some (cmpFacts p a b .lt)
  | .bin .lt a b => some (cmpFacts p a b .ge)
  | .bin .le a b => some (cmpFacts p a b .gt)
  | .bin .eq a b => some (cmpFacts p a b .lt ++ cmpFacts p a b .gt)
  | .bin .ne a b => some (cmpFacts p a b .eq)
  | .un .not a => some (pathFacts p a)
  | _ => none

theorem cmp_of_linearize {a b : Expr} {la lb : LinExpr} (ha : linearize p a = some la)
    (hb : linearize p b = some lb) (rel : Rel) : cmp p a b rel = [⟨rel, la.sub lb⟩] := by
  rw [cmp, ha, hb]

theorem cmpFacts_constraints (a b : Expr) (rel : Rel) :
    (cmpFacts p a b rel).map Fact.constraint = cmp p a b rel := by
  unfold cmpFacts
  split
  · next la lb ha hb => exact (cmp_of_linearize ha hb rel).symm
  · next hnone =>
    unfold cmp
    split
    · next la lb ha hb => exact absurd hb (hnone la lb ha)
    · rfl

theorem mem_cmpFacts {a b : Expr} {rel : Rel} {f : Fact p} (h : f ∈ cmpFacts p a b rel) :
    f.rel = rel ∧ f.a = a ∧ f.b = b := by
  unfold cmpFacts at h
  split at h
  · rw [mem_singleton.mp h]
    exact ⟨rfl, rfl, rfl⟩
  · cases h

theorem pathFacts_gt (a b : Expr) : pathFacts p (.bin .gt a b) = cmpFacts p a b .gt := by
  rw [pathFacts]
  · rfl
  · intro h
    cases h

theorem pathFacts_constraints (e : Expr) :
    (pathFacts p e).map Fact.constraint = pathConstraints p e := by
  fun_induction pathFacts p e with
  | case1 a b iha ihb => rw [map_append, iha, ihb, pathConstraints]
  | case2 op a b hop rel hrel => rw [pathConstraints, hrel, cmpFacts_constraints]; exact hop
  | case3 op a b hop hrel => rw [pathConstraints, hrel]; exacts [rfl, hop]
  | case4 e hbin hand =>
    unfold pathConstraints
    split
    · next a b => exact absurd rfl (hbin a b)
    · next op a b _ => exact absurd rfl (hand op a b)
    · rfl

theorem negateFacts_constraints (e : Expr) :
    (negateFacts p e).map (map Fact.constraint) = negateConstraints p e := by
  fun_induction negateFacts p e with
  | case1 a b iha ihb =>
    rw [negateConstraints, ← iha, ← ihb]
    cases negateFacts p a <;> cases negateFacts p b <;> simp
  | case2 a b => rw [negateConstraints, ← cmpFacts_constraints]; rfl
  | case3 a b => rw [negateConstraints, ← cmpFacts_constraints]; rfl
  | case4 a b => rw [negateConstraints, ← cmpFacts_constraints]; rfl
  | case5 a b => rw [negateConstraints, ← cmpFacts_constraints]; rfl
  | case6 a b =>
    rw [negateConstraints, ← cmpFacts_constraints, ← cmpFacts_constraints, ← map_append]
    rfl
  | case7 a b => rw [negateConstraints, ← cmpFacts_constraints]; rfl
  | case8 a => rw [negateConstraints, ← pathFacts_constraints]; rfl
  | case9 e h1 h2 h3 h4 h5 h6 h7 h8 =>
    unfold negateConstraints
    split <;> first | rfl | simp_all

/-! ### Facts that hold -/

/-- The number that a value is; other values count as zero. -/
def Value.toReal : Value → ℝ
  | .real x => x
  | _ => 0

def Rel.Relates : Rel → ℝ → ℝ → Prop
  | .le, x, y => x ≤ y
  | .lt, x, y => x < y
  | .ge, x, y => y ≤ x
  | .gt, x, y => y < x
  | .eq, x, y => x = y

section Holds

variable {funs : List Fun} {methods : Value → String → List Value → Option Value} {ρ ρ' : Env}

/-- Both sides have values, and they compare as the fact says. -/
def Fact.Holds (funs : List Fun) (methods : Value → String → List Value → Option Value) (ρ : Env)
    (f : Fact p) : Prop :=
  ∃ va vb, Evaluates funs methods ρ f.a va ∧ Evaluates funs methods ρ f.b vb ∧
    f.rel.Relates va.toReal vb.toReal

theorem Fact.Holds.congr {f : Fact p} (h : f.Holds funs methods ρ)
    (hagree : ∀ x ∈ f.freeVars, assocGet ρ x = assocGet ρ' x) : f.Holds funs methods ρ' := by
  obtain ⟨va, vb, ha, hb, hrel⟩ := h
  exact ⟨va, vb, ha.congr fun x hx => hagree x (mem_append_left _ hx),
    hb.congr fun x hx => hagree x (mem_append_right _ hx), hrel⟩

/-- The relation that a comparison has where it is false. -/
def BinOp.negRel : BinOp → Option Rel
  | .gt => some .le
  | .ge => some .lt
  | .lt => some .ge
  | .le => some .gt
  | .ne => some .eq
  | _ => none

variable {op : BinOp} {rel : Rel} {a b : Expr}

theorem relates_of_true {va vb : Value} (hrel : op.rel = some rel)
    (h : applyBin op va vb = some (.bool true)) : rel.Relates va.toReal vb.toReal := by
  cases op <;> cases hrel
  case eq =>
    have heq : va = vb := by simpa [applyBin] using h
    exact congrArg Value.toReal heq
  all_goals
    cases va <;> cases vb <;> first | cases h | skip
    simpa [applyBin, Rel.Relates, Value.toReal] using h

theorem relates_of_false {va vb : Value} (hrel : op.negRel = some rel)
    (h : applyBin op va vb = some (.bool false)) : rel.Relates va.toReal vb.toReal := by
  cases op <;> cases hrel
  case ne =>
    have heq : va = vb := by simpa [applyBin] using h
    exact congrArg Value.toReal heq
  all_goals
    cases va <;> cases vb <;> first | cases h | skip
    simpa [applyBin, Rel.Relates, Value.toReal] using h

theorem evaluates_comparison {v : Value} (hand : op ≠ .and)
    (hor : op ≠ .or) (h : Evaluates funs methods ρ (.bin op a b) v) :
    ∃ va vb, Evaluates funs methods ρ a va ∧ Evaluates funs methods ρ b vb ∧
      applyBin op va vb = some v := by
  obtain ⟨va, ha, ⟨hskips, _⟩ | ⟨vb, hb, hv⟩⟩ := evaluates_bin h
  · rcases hskips with ⟨rfl, _⟩ | ⟨rfl, _⟩
    · exact absurd rfl hand
    · exact absurd rfl hor
  · exact ⟨va, vb, ha, hb, hv⟩

theorem cmpFacts_hold {v : Value} (hand : op ≠ .and)
    (hor : op ≠ .or) (h : Evaluates funs methods ρ (.bin op a b) v)
    (hrel : ∀ va vb, applyBin op va vb = some v → rel.Relates va.toReal vb.toReal) :
    ∀ f ∈ cmpFacts p a b rel, f.Holds funs methods ρ := by
  intro f hf
  obtain ⟨hfrel, hfa, hfb⟩ := mem_cmpFacts hf
  obtain ⟨va, vb, ha, hb, happly⟩ := evaluates_comparison hand hor h
  exact ⟨va, vb, hfa ▸ ha, hfb ▸ hb, hfrel ▸ hrel va vb happly⟩

theorem evaluates_and_true (h : Evaluates funs methods ρ (.bin .and a b) (.bool true)) :
    Evaluates funs methods ρ a (.bool true) ∧ Evaluates funs methods ρ b (.bool true) := by
  obtain ⟨va, ha, ⟨hskips, hv⟩ | ⟨vb, hb, hv⟩⟩ := evaluates_bin h
  · rcases hskips with ⟨_, rfl⟩ | ⟨hop, _⟩
    · cases hv
    · cases hop
  · cases va <;> cases vb <;> first | cases hv | skip
    next x y =>
    have hxy : x = true ∧ y = true := by simpa [applyBin] using hv
    exact ⟨hxy.1 ▸ ha, hxy.2 ▸ hb⟩

theorem pathFacts_hold {e : Expr} (h : Evaluates funs methods ρ e (.bool true)) :
    ∀ f ∈ pathFacts p e, f.Holds funs methods ρ := by
  fun_induction pathFacts p e with
  | case1 a b iha ihb =>
    obtain ⟨ha, hb⟩ := evaluates_and_true h
    exact forall_mem_append.mpr ⟨iha ha, ihb hb⟩
  | case2 op a b hand rel hrel =>
    refine cmpFacts_hold hand ?_ h fun va vb => relates_of_true hrel
    rintro rfl
    cases hrel
  | case3 => simp
  | case4 => simp

/-- What the negation of a false condition gives need not hold for a conjunction and for
an equation: it is nothing there, or both conjuncts are false. -/
def NegatesRight (p : Platform) (funs : List Fun)
    (methods : Value → String → List Value → Option Value) (ρ : Env) : Expr → Prop
  | .bin .and a b =>
    (negateConstraints p (.bin .and a b)).getD [] = [] ∨
      (Evaluates funs methods ρ a (.bool false) ∧ NegatesRight p funs methods ρ a) ∧
        Evaluates funs methods ρ b (.bool false) ∧ NegatesRight p funs methods ρ b
  | .bin .eq a b => (negateConstraints p (.bin .eq a b)).getD [] = []
  | _ => True

theorem negateFacts_eq_nil {cond : Expr} (h : (negateConstraints p cond).getD [] = []) :
    (negateFacts p cond).getD [] = [] := by
  rw [← negateFacts_constraints] at h
  cases hfacts : negateFacts p cond with
  | none => rfl
  | some facts =>
    rw [hfacts] at h
    exact map_eq_nil_iff.mp h

theorem mem_negateFacts_and {f : Fact p} (h : f ∈ (negateFacts p (.bin .and a b)).getD []) :
    f ∈ (negateFacts p a).getD [] ∨ f ∈ (negateFacts p b).getD [] := by
  rw [negateFacts] at h
  cases ha : negateFacts p a with
  | none =>
    rw [ha] at h
    cases h
  | some na =>
    cases hb : negateFacts p b with
    | none =>
      rw [ha, hb] at h
      cases h
    | some nb =>
      rw [ha, hb] at h
      exact mem_append.mp h

theorem negateFacts_hold {cond : Expr} (hright : NegatesRight p funs methods ρ cond)
    (h : Evaluates funs methods ρ cond (.bool false)) :
    ∀ f ∈ (negateFacts p cond).getD [], f.Holds funs methods ρ := by
  fun_induction negateFacts p cond with
  | case1 a b iha ihb =>
    rcases hright with hnil | ⟨⟨ha, hna⟩, hb, hnb⟩
    · rw [← negateFacts, negateFacts_eq_nil hnil]
      simp
    · intro f hf
      rcases mem_negateFacts_and hf with hf | hf
      · exact iha hna ha f hf
      · exact ihb hnb hb f hf
  | case2 a b => exact cmpFacts_hold (by decide) (by decide) h fun va vb => relates_of_false rfl
  | case3 a b => exact cmpFacts_hold (by decide) (by decide) h fun va vb => relates_of_false rfl
  | case4 a b => exact cmpFacts_hold (by decide) (by decide) h fun va vb => relates_of_false rfl
  | case5 a b => exact cmpFacts_hold (by decide) (by decide) h fun va vb => relates_of_false rfl
  | case6 a b =>
    rw [← negateFacts, negateFacts_eq_nil hright]
    simp
  | case7 a b => exact cmpFacts_hold (by decide) (by decide) h fun va vb => relates_of_false rfl
  | case8 a =>
    obtain ⟨va, ha, happly⟩ := evaluates_un h
    refine pathFacts_hold ?_
    cases va <;> first | cases happly | skip
    next x =>
    have hx : x = true := by simpa [applyUn] using happly
    exact hx ▸ ha
  | case9 => simp

end Holds

end Oikos.Eidos
