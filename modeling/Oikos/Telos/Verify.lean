/-
The verifier of telos: every conclusion of a problem is checked against the premises by
Fourier-Motzkin elimination over the integers, the variables taken in whatever order the
hash maps list them, and a concrete assignment is looked for where one fails.
-/
import Mathlib.Tactic.Linarith
import Oikos.Lib.LinearForm
import Oikos.Telos.Problems

namespace Oikos.Telos

open List

section Solver

universe u

/-- The inequality that the sum of the terms is at most `c`. -/
structure LinIneq where
  coeffs : OrdMap String Int
  c : Int

def negTerms (terms : List (String × Int)) : OrdMap String Int :=
  .ofPairs (terms.map fun t => (t.1, -t.2))

/-- An equation is two inequalities; the strict ones move the bound by one. -/
def Constraint.toInequalities (c : Constraint) : List LinIneq :=
  let base := OrdMap.ofPairs c.lin.terms
  match c.rel with
  | .le => [⟨base, -c.lin.constant⟩]
  | .lt => [⟨base, -c.lin.constant - 1⟩]
  | .ge => [⟨negTerms c.lin.terms, c.lin.constant⟩]
  | .gt => [⟨negTerms c.lin.terms, c.lin.constant - 1⟩]
  | .eq => [⟨base, -c.lin.constant⟩, ⟨negTerms c.lin.terms, c.lin.constant⟩]
  -- a disequality is no premise
  | .ne => []

def toInequalities (cs : List Constraint) : List LinIneq :=
  cs.flatMap Constraint.toInequalities

/-- The variables of a system, each once. -/
def systemVars (ineqs : List LinIneq) : List String :=
  ineqs.foldl (fun vars ineq =>
    ineq.coeffs.keys.foldl (fun vars k => if k ∈ vars then vars else vars ++ [k]) vars) []

/-- The order in which a hash map of variables is gone through. -/
structure HashOrder where
  vars : List LinIneq → List String
  perm : ∀ ineqs, (vars ineqs).Perm (systemVars ineqs)

def HashOrder.sorted : HashOrder :=
  ⟨systemVars, fun _ => Perm.refl _⟩

/-- `factor * v` and the other terms, bounded by a number. -/
structure VarBound where
  factor : Int
  bound : Int
  others : OrdMap String Int

/-- The inequalities that bound a variable from above, from below, and not at all. -/
structure Split where
  uppers : List VarBound
  lowers : List VarBound
  rest : List LinIneq

def splitOne (v : String) (s : Split) (ineq : LinIneq) : Split :=
  match ineq.coeffs.get v with
  | none => { s with rest := s.rest ++ [ineq] }
  | some tv =>
    if 0 < tv then
      { s with uppers := s.uppers ++ [⟨tv, ineq.c, ineq.coeffs.erase v⟩] }
    else if tv < 0 then
      { s with lowers := s.lowers ++ [⟨-tv, -ineq.c, (ineq.coeffs.erase v).map fun c => -c⟩] }
    else { s with rest := s.rest ++ [ineq] }

def mergeKeys (a b : OrdMap String Int) : List String :=
  a.keys ++ b.keys.filter fun k => k ∉ a.keys

/-- What an upper and a lower bound on one variable say without it. -/
def combine (u l : VarBound) : LinIneq :=
  ⟨.tabulate (fun k => l.factor * u.others.coeff k - u.factor * l.others.coeff k)
      (mergeKeys u.others l.others),
    l.factor * u.bound - u.factor * l.bound⟩

/-- Every upper bound is combined with every lower one. -/
def eliminate (ineqs : List LinIneq) (v : String) : List LinIneq :=
  let s := ineqs.foldl (splitOne v) ⟨[], [], []⟩
  s.rest ++ (s.uppers.product s.lowers).map fun p => combine p.1 p.2

/-- An inequality without variables that does not hold. -/
def LinIneq.absurd (ineq : LinIneq) : Bool :=
  ineq.coeffs.entries.isEmpty && decide (ineq.c < 0)

/-- All variables are eliminated and something absurd is left. -/
def unsat (order : HashOrder) (cs : List Constraint) : Bool :=
  let ineqs := toInequalities cs
  ((order.vars ineqs).foldl eliminate ineqs).any LinIneq.absurd

def negate (concl : Constraint) : List (List Constraint) :=
  let branch rel := [(⟨concl.lin, rel⟩ : Constraint)]
  match concl.rel with
  | .eq => [branch .lt, branch .gt]
  | .ne => [branch .eq]
  | .le => [branch .gt]
  | .lt => [branch .ge]
  | .ge => [branch .lt]
  | .gt => [branch .le]

def entails (order : HashOrder) (premises : List Constraint) (concl : Constraint) : Bool :=
  (negate concl).all fun branch => unsat order (premises ++ branch)

/-! ### What a round says -/

section Meaning

variable {M : Type u} [CommRing M] [LinearOrder M] [IsStrictOrderedRing M] {σ : String → M}
  {v : String} {s : Split} {ineq : LinIneq} {ineqs : List LinIneq} {u l : VarBound}

def LinIneq.Holds (σ : String → M) (ineq : LinIneq) : Prop :=
  ineq.coeffs.dot σ ≤ (ineq.c : M)

def Meets (σ : String → M) (ineqs : List LinIneq) : Prop :=
  ∀ ineq ∈ ineqs, ineq.Holds σ

def VarBound.IsUpper (σ : String → M) (v : String) (u : VarBound) : Prop :=
  0 < u.factor ∧ u.factor * σ v + u.others.dot σ ≤ u.bound

def VarBound.IsLower (σ : String → M) (v : String) (l : VarBound) : Prop :=
  0 < l.factor ∧ (l.bound : M) ≤ l.factor * σ v + l.others.dot σ

def Split.Meets (σ : String → M) (v : String) (s : Split) : Prop :=
  (∀ u ∈ s.uppers, u.IsUpper σ v) ∧ (∀ l ∈ s.lowers, l.IsLower σ v) ∧ Telos.Meets σ s.rest

/-- A round sees an inequality as an upper bound, as a lower bound or as neither. -/
theorem splitOne_meets : (splitOne v s ineq).Meets σ v ↔ s.Meets σ v ∧ ineq.Holds σ := by
  have hkept : (Split.Meets σ v { s with rest := s.rest ++ [ineq] }) ↔
      s.Meets σ v ∧ ineq.Holds σ := by
    simp only [Split.Meets, Telos.Meets, forall_mem_append, forall_mem_singleton]
    tauto
  unfold splitOne
  cases hget : ineq.coeffs.get v with
  | none => exact hkept
  | some tv =>
    have hholds : ineq.Holds σ ↔ tv * σ v + (ineq.coeffs.erase v).dot σ ≤ ineq.c := by
      rw [LinIneq.Holds, OrdMap.dot_eq_add_erase hget, zsmul_eq_mul]
    dsimp only
    split
    · next hpos =>
      simp only [Split.Meets, forall_mem_append, forall_mem_singleton,
        VarBound.IsUpper, hholds]
      tauto
    · split
      · next hneg =>
        have hlower : VarBound.IsLower σ v
            ⟨-tv, -ineq.c, (ineq.coeffs.erase v).map fun c => -c⟩ ↔ ineq.Holds σ := by
          rw [hholds, VarBound.IsLower, OrdMap.dot_map_neg, Int.cast_neg, Int.cast_neg, neg_mul,
            ← neg_add, neg_le_neg_iff]
          exact and_iff_right (neg_pos.mpr hneg)
        simp only [Split.Meets, forall_mem_append, forall_mem_singleton, hlower]
        tauto
      · exact hkept

theorem foldl_splitOne_meets : (ineqs.foldl (splitOne v) s).Meets σ v ↔ s.Meets σ v ∧
    Meets σ ineqs := by
  induction ineqs generalizing s with
  | nil => simp [Meets]
  | cons ineq ineqs ih =>
    have hcons : Meets σ (ineq :: ineqs) ↔ ineq.Holds σ ∧ Meets σ ineqs := forall_mem_cons
    rw [foldl_cons, ih, splitOne_meets, hcons, and_assoc]

theorem split_meets : (ineqs.foldl (splitOne v) ⟨[], [], []⟩).Meets σ v ↔ Meets σ ineqs := by
  rw [foldl_splitOne_meets, and_iff_right_iff_imp]
  intro _
  simp [Split.Meets, Meets]

theorem nodup_mergeKeys (a b : OrdMap String Int) : (mergeKeys a b).Nodup := by
  have ha : a.keys.Nodup := a.nodup_keys
  have hb : b.keys.Nodup := b.nodup_keys
  refine ha.append (hb.filter _) ?_
  intro k hk hk'
  simpa [hk] using of_mem_filter hk'

theorem mem_mergeKeys {a b : OrdMap String Int} {k : String} :
    k ∈ mergeKeys a b ↔ k ∈ a.keys ∨ k ∈ b.keys := by
  by_cases hk : k ∈ a.keys <;> simp [mergeKeys, hk]

omit [IsStrictOrderedRing M] in
theorem combine_holds_iff : (combine u l).Holds σ ↔
    l.factor * u.others.dot σ - u.factor * l.others.dot σ ≤
      l.factor * (u.bound : M) - u.factor * l.bound := by
  have hnodup := nodup_mergeKeys u.others l.others
  have hu : ∀ k ∈ u.others.keys, k ∈ mergeKeys u.others l.others :=
    fun k hk => mem_mergeKeys.mpr (Or.inl hk)
  have hl : ∀ k ∈ l.others.keys, k ∈ mergeKeys u.others l.others :=
    fun k hk => mem_mergeKeys.mpr (Or.inr hk)
  rw [LinIneq.Holds, combine, OrdMap.dot_tabulate hnodup, sum_map_combination,
    ← OrdMap.dot_eq_sum_coeff hnodup hu, ← OrdMap.dot_eq_sum_coeff hnodup hl, zsmul_eq_mul,
    zsmul_eq_mul, Int.cast_sub, Int.cast_mul, Int.cast_mul]

/-- The variable cancels between a bound from above and one from below. -/
theorem combine_holds (hu : u.IsUpper σ v) (hl : l.IsLower σ v) : (combine u l).Holds σ := by
  obtain ⟨hupos, hu⟩ := hu
  obtain ⟨hlpos, hl⟩ := hl
  have hu := mul_le_mul_of_nonneg_left hu (Int.cast_nonneg (R := M) hlpos.le)
  have hl := mul_le_mul_of_nonneg_left hl (Int.cast_nonneg (R := M) hupos.le)
  rw [combine_holds_iff]
  linarith

/-- What satisfies a system satisfies it without the variable. -/
theorem eliminate_meets (h : Meets σ ineqs) : Meets σ (eliminate ineqs v) := by
  obtain ⟨huppers, hlowers, hrest⟩ := split_meets (v := v) |>.mpr h
  refine forall_mem_append.mpr ⟨hrest, forall_mem_map.mpr ?_⟩
  rintro ⟨u, l⟩ hp
  obtain ⟨hu, hl⟩ := mem_product.mp hp
  exact combine_holds (huppers u hu) (hlowers l hl)

theorem foldl_eliminate_meets {vars : List String} (h : Meets σ ineqs) :
    Meets σ (vars.foldl eliminate ineqs) := by
  induction vars generalizing ineqs with
  | nil => exact h
  | cons v vars ih => exact ih (eliminate_meets h)

theorem not_holds_of_absurd (h : ineq.absurd = true) : ¬ineq.Holds σ := by
  obtain ⟨hempty, hneg⟩ := Bool.and_eq_true_iff.mp h
  have hdot : ineq.coeffs.dot σ = 0 := by
    rw [OrdMap.dot, OrdMap.sum, List.isEmpty_iff.mp hempty, map_nil, sum_nil]
  rw [LinIneq.Holds, hdot, not_le, Int.cast_lt_zero]
  exact of_decide_eq_true hneg

/-- A system that elimination refutes has no solution. -/
theorem not_meets_of_unsat {order : HashOrder} {cs : List Constraint} (h : unsat order cs = true) :
    ¬Meets σ (toInequalities cs) := by
  intro hmeets
  obtain ⟨ineq, hineq, habsurd⟩ := any_eq_true.mp h
  exact not_holds_of_absurd habsurd (foldl_eliminate_meets hmeets ineq hineq)

end Meaning

section Inequalities

theorem dot_negTerms {M : Type u} [CommRing M] {σ : String → M} {terms : List (String × Int)}
    (h : (terms.map Prod.fst).Nodup) :
    (negTerms terms).dot σ = -(OrdMap.ofPairs terms).dot σ := by
  have hnodup : ((terms.map fun t => (t.1, -t.2)).map Prod.fst).Nodup := by
    rw [map_map]
    exact h
  rw [negTerms, OrdMap.dot_ofPairs hnodup, OrdMap.dot_ofPairs h, map_map]
  clear h hnodup
  induction terms with
  | nil => simp
  | cons t terms ih =>
    rw [map_cons, map_cons, sum_cons, sum_cons, ih, neg_add]
    simp

variable {σ : String → Int} {c : Constraint}

theorem dot_base (h : c.lin.DupFree) :
    (OrdMap.ofPairs c.lin.terms).dot σ = c.lin.eval σ - c.lin.constant := by
  rw [OrdMap.dot_ofPairs h, Linear.eval, add_sub_cancel_right]
  rfl

theorem toInequalities_meets (hdup : c.lin.DupFree) (h : c.Holds σ) :
    Meets σ c.toInequalities := by
  unfold Constraint.Holds at h
  unfold Constraint.toInequalities
  cases hrel : c.rel with
  | le | lt | ge | gt =>
    rw [hrel] at h
    refine forall_mem_singleton.mpr ?_
    simp only [LinIneq.Holds, dot_negTerms hdup, dot_base hdup, Relation.Holds, Int.cast_id] at h ⊢
    omega
  | eq =>
    rw [hrel] at h
    refine forall_mem_cons.mpr ⟨?_, forall_mem_singleton.mpr ?_⟩
    all_goals
      simp only [LinIneq.Holds, dot_negTerms hdup, dot_base hdup, Relation.Holds,
      Int.cast_id] at h ⊢
      omega
  | ne => exact fun _ h => absurd h not_mem_nil

end Inequalities

/-! ### Soundness -/

section Sound

variable {order : HashOrder} {σ : String → Int} {cs premises : List Constraint} {concl : Constraint}

theorem not_satisfies_of_unsat (hdup : DupFree cs) (h : unsat order cs = true) :
    ¬Satisfies σ cs := by
  intro hcs
  have hmeets : Meets σ (toInequalities cs) := by
    intro ineq hineq
    obtain ⟨c, hc, hineq⟩ := mem_flatMap.mp hineq
    exact toInequalities_meets (hdup c hc) (hcs c hc) ineq hineq
  exact not_meets_of_unsat h hmeets

theorem mem_negate {branch : List Constraint} (h : branch ∈ negate concl) {c : Constraint}
    (hc : c ∈ branch) : c.lin = concl.lin ∧ c.rel ≠ .ne := by
  unfold negate at h
  cases hrel : concl.rel <;> simp only [hrel, mem_cons, not_mem_nil, or_false] at h
  case eq =>
    rcases h with rfl | rfl <;> rw [mem_singleton.mp hc] <;> exact ⟨rfl, nofun⟩
  all_goals
    subst h
    rw [mem_singleton.mp hc]
    exact ⟨rfl, nofun⟩

theorem dupFree_negate (hdup : concl.lin.DupFree) {branch : List Constraint}
    (h : branch ∈ negate concl) : DupFree branch := by
  intro c hc
  rw [(mem_negate h hc).1]
  exact hdup

theorem exists_branch_of_not_holds (h : ¬concl.Holds σ) :
    ∃ branch ∈ negate concl, Satisfies σ branch := by
  unfold Constraint.Holds at h
  unfold negate
  cases hrel : concl.rel with
  | le | lt | ge | gt | ne =>
    rw [hrel] at h
    refine ⟨_, mem_singleton_self _, satisfies_singleton.mpr ?_⟩
    simp only [Constraint.Holds, Relation.Holds] at h ⊢
    omega
  | eq =>
    rw [hrel] at h
    rcases lt_or_gt_of_ne h with hlt | hgt
    · exact ⟨_, mem_cons_self, satisfies_singleton.mpr hlt⟩
    · exact ⟨_, mem_cons_of_mem _ mem_cons_self, satisfies_singleton.mpr hgt⟩

theorem holds_of_entails (hpremises : DupFree premises) (hdup : concl.lin.DupFree)
    (h : entails order premises concl = true) (hσ : Satisfies σ premises) : concl.Holds σ := by
  by_contra hnot
  obtain ⟨branch, hbranch, hsat⟩ := exists_branch_of_not_holds hnot
  have hunsat := all_eq_true.mp h branch hbranch
  refine not_satisfies_of_unsat ?_ hunsat (satisfies_append.mpr ⟨hσ, hsat⟩)
  exact forall_mem_append.mpr ⟨hpremises, dupFree_negate hdup hbranch⟩

end Sound

/-- The solver never proves a falsehood, whatever order the variables are eliminated in:
what it says is entailed holds wherever the premises do, and a system that it calls
unsatisfiable has no solution. -/
theorem solver_sound (order : HashOrder) (cs premises : List Constraint) (concl : Constraint)
    (hcs : DupFree cs) (hpremises : DupFree premises) (hconcl : concl.lin.DupFree) :
    (entails order premises concl = true → ∀ σ, Satisfies σ premises → concl.Holds σ) ∧
      (unsat order cs = true → ¬∃ σ, Satisfies σ cs) :=
  ⟨fun h _ => holds_of_entails hpremises hconcl h, fun h ⟨_, hσ⟩ => not_satisfies_of_unsat hcs h hσ⟩

/-- Premises `5 < x` and `x + 2 * y = 0` entail `y < -2`: strict bounds are tightened. -/
theorem solver_sound_tightened :
    let x : Linear := ⟨[("x", 1)], -5⟩
    let premises : List Constraint := [⟨x, .gt⟩, ⟨⟨[("x", 1), ("y", 2)], 0⟩, .eq⟩]
    let concl : Constraint := ⟨⟨[("y", 1)], 2⟩, .lt⟩
    (∀ σ, Satisfies σ premises → concl.Holds σ) ∧
      ¬∃ σ, Satisfies σ (premises ++ [⟨⟨[("y", 1)], 0⟩, .ge⟩]) :=
  have hsound := solver_sound .sorted
    [⟨⟨[("x", 1)], -5⟩, .gt⟩, ⟨⟨[("x", 1), ("y", 2)], 0⟩, .eq⟩, ⟨⟨[("y", 1)], 0⟩, .ge⟩]
    [⟨⟨[("x", 1)], -5⟩, .gt⟩, ⟨⟨[("x", 1), ("y", 2)], 0⟩, .eq⟩] ⟨⟨[("y", 1)], 2⟩, .lt⟩
    (by simp [DupFree, Linear.DupFree]) (by simp [DupFree, Linear.DupFree])
    (by simp [Linear.DupFree])
  ⟨hsound.1 (by decide), hsound.2 (by decide)⟩

end Solver

section Driver

/-! ### Models -/

/-- Values of variables. -/
abbrev Model := OrdMap String Int

structure Frac where
  num : Int
  den : Int
deriving DecidableEq

namespace Frac

def new (num den : Int) : Frac :=
  let (num, den) := if den < 0 then (-num, -den) else (num, den)
  let g : Int := Int.gcd num den
  if g = 0 then ⟨num, den⟩ else ⟨num / g, den / g⟩

def ceil (f : Frac) : Int :=
  if f.num % f.den = 0 then f.num / f.den else f.num / f.den + 1

def floor (f : Frac) : Int :=
  f.num / f.den

/-- The greater of two fractions, the later one where they are equal. -/
def pickGreater : Option Frac → Frac → Option Frac
  | none, f => some f
  | some x, f => some (if f.num * x.den ≥ x.num * f.den then f else x)

def pickLess : Option Frac → Frac → Option Frac
  | none, f => some f
  | some x, f => some (if f.num * x.den ≤ x.num * f.den then f else x)

end Frac

/-- `as i64`. -/
def asI64 (n : Int) : Int :=
  n.bmod (2 ^ 64)

/-- The value of a linear form; a variable without a value counts as zero. -/
def evalCoeffs (coeffs : OrdMap String Int) (model : Model) : Int :=
  coeffs.dot fun v => model.coeff v

def pickValue (s : Split) (model : Model) : Option Int :=
  let low := s.lowers.foldl (fun low l =>
    Frac.pickGreater low (.new (l.bound - evalCoeffs l.others model) l.factor)) none
  let high := s.uppers.foldl (fun high u =>
    Frac.pickLess high (.new (u.bound - evalCoeffs u.others model) u.factor)) none
  match low, high with
  | none, none => some 0
  | some l, none => some l.ceil
  | none, some h => some h.floor
  | some l, some h => if l.ceil > h.floor then none else some l.ceil

/-- Eliminate variables one after another and pick values on the way back. -/
def solveModel (order : HashOrder) : Nat → List LinIneq → Result String (Option Model)
  | 0, _ => .error .fuel
  | fuel + 1, ineqs =>
    match order.vars ineqs with
    | [] => .ok (if ineqs.any fun ineq => decide (ineq.c < 0) then none else some .empty)
    | v :: _ => do
      match ← solveModel order fuel (eliminate ineqs v) with
      | none => .ok none
      | some model =>
        let s := ineqs.foldl (splitOne v) ⟨[], [], []⟩
        .ok ((pickValue s model).map fun n => model.insert v (asI64 n))

def model (order : HashOrder) (cs : List Constraint) : Result String (Option Model) :=
  let ineqs := toInequalities cs
  solveModel order ((systemVars ineqs).length + 1) ineqs

def firstModel (order : HashOrder) (premises : List Constraint) :
    List (List Constraint) → Result String (Option Model)
  | [] => .ok none
  | branch :: branches => do
    match ← model order (premises ++ branch) with
    | some m => .ok (some m)
    | none => firstModel order premises branches

def counterexample (order : HashOrder) (premises : List Constraint) (concl : Constraint) :
    Result String (Option Model) :=
  firstModel order premises (negate concl)

/-! ### Checks -/

structure CheckResult where
  description : String
  passed : Bool
  isEnsures : Bool
  isApproximation : Bool
  counterexample : Option Model
  orGroup : Option Nat

structure VerificationResult where
  funcName : String
  checks : List CheckResult
  allPassed : Bool

structure VerifyOrder where
  solver : Nat → HashOrder
  groups : List Nat → List Nat
  perm : ∀ ids, (groups ids).Perm ids

def VerifyOrder.sorted : VerifyOrder :=
  ⟨fun _ => .sorted, id, fun _ => Perm.refl _⟩

def check (order : VerifyOrder) (premises : List Constraint) (concl : Conclusion) (i : Nat) :
    Result String CheckResult := do
  let passed := entails (order.solver i) premises concl.constraint
  let ce ← (if passed then .ok none else
    counterexample (order.solver i) premises concl.constraint)
  .ok ⟨concl.description, passed, concl.isEnsures, concl.isApproximation, ce, concl.orGroup⟩

def VerificationProblem.ofGroup (problem : VerificationProblem) (group : Option Nat) :
    List (Conclusion × Nat) :=
  problem.conclusions.zipIdx.filter fun p => p.1.orGroup = group

def VerificationProblem.groupIds (problem : VerificationProblem) : List Nat :=
  (problem.conclusions.filterMap Conclusion.orGroup).dedup

def verify (order : VerifyOrder) (problem : VerificationProblem) :
    Result String VerificationResult := do
  let checkAll conclusions :=
    conclusions.mapM fun (concl, i) => check order problem.premises concl i
  let checks ← checkAll (problem.ofGroup none)
  let groups ← (order.groups problem.groupIds).mapM fun g => checkAll (problem.ofGroup (some g))
  .ok ⟨problem.funcName, checks ++ groups.flatten,
    checks.all CheckResult.passed && groups.all fun group => group.any CheckResult.passed⟩

/-! ### What passing means -/

section Passed

variable {order : VerifyOrder} {problem : VerificationProblem} {result : VerificationResult}
  {premises : List Constraint} {concl : Conclusion} {i : Nat} {r : CheckResult}

theorem passed_of_check (h : check order premises concl i = .ok r) :
    r.passed = entails (order.solver i) premises concl.constraint := by
  obtain ⟨ce, _, h⟩ := bind_eq_ok.mp h
  cases h
  rfl

theorem passed_of_checks {conclusions : List (Conclusion × Nat)} {checks : List CheckResult}
    (h : (conclusions.mapM fun (concl, i) => check order premises concl i) = .ok checks) :
    checks.map CheckResult.passed =
      conclusions.map fun p => entails (order.solver p.2) premises p.1.constraint := by
  have hall := mapM_eq_ok.mp h
  clear h
  induction hall with
  | nil => rfl
  | cons hcheck _ ih => rw [map_cons, map_cons, passed_of_check hcheck, ih]

theorem all_passed {conclusions : List (Conclusion × Nat)} {checks : List CheckResult}
    (h : (conclusions.mapM fun (concl, i) => check order premises concl i) = .ok checks) :
    (checks.all CheckResult.passed =
      conclusions.all fun p => entails (order.solver p.2) premises p.1.constraint) ∧
      (checks.any CheckResult.passed =
        conclusions.any fun p => entails (order.solver p.2) premises p.1.constraint) := by
  have hpassed := passed_of_checks h
  constructor
  · have hall := congrArg (all · id) hpassed
    simpa [all_map, Function.comp_def] using hall
  · have hany := congrArg (any · id) hpassed
    simpa [any_map, Function.comp_def] using hany

theorem all_groups {ids : List Nat} {groups : List (List CheckResult)}
    (h : (ids.mapM fun g => (problem.ofGroup (some g)).mapM fun (concl, i) =>
      check order problem.premises concl i) = .ok groups) :
    (groups.all fun group => group.any CheckResult.passed) =
      ids.all fun g => (problem.ofGroup (some g)).any fun p =>
        entails (order.solver p.2) problem.premises p.1.constraint := by
  have hall := mapM_eq_ok.mp h
  clear h
  induction hall with
  | nil => rfl
  | cons hgroup _ ih => rw [all_cons, all_cons, (all_passed hgroup).2, ih]

theorem allPassed_iff (h : verify order problem = .ok result) :
    result.allPassed = true ↔
      (∀ p ∈ problem.ofGroup none,
        entails (order.solver p.2) problem.premises p.1.constraint = true) ∧
      ∀ g ∈ problem.groupIds, ∃ p ∈ problem.ofGroup (some g),
        entails (order.solver p.2) problem.premises p.1.constraint = true := by
  obtain ⟨checks, hchecks, h⟩ := bind_eq_ok.mp h
  obtain ⟨groups, hgroups, h⟩ := bind_eq_ok.mp h
  cases h
  dsimp only
  rw [Bool.and_eq_true, (all_passed hchecks).1, all_groups hgroups, all_eq_true,
    all_eq_true]
  refine and_congr Iff.rfl (forall_congr' fun g => ?_)
  rw [(order.perm _).mem_iff, any_eq_true]

theorem holds_of_verify (hpremises : DupFree problem.premises)
    (hconcl : ∀ c ∈ problem.conclusions, c.constraint.lin.DupFree)
    (h : verify order problem = .ok result) (hpass : result.allPassed = true)
    {σ : String → Int} (hσ : Satisfies σ problem.premises) :
    (∀ c ∈ problem.conclusions, c.orGroup = none → c.constraint.Holds σ) ∧
      ∀ g ∈ problem.groupIds,
        ∃ c ∈ problem.conclusions, c.orGroup = some g ∧ c.constraint.Holds σ := by
  obtain ⟨hsingle, hgroup⟩ := (allPassed_iff h).mp hpass
  refine ⟨fun c hc hnone => ?_, fun g hg => ?_⟩
  · obtain ⟨k, hk⟩ := getElem?_of_mem hc
    have hmem : (c, k) ∈ problem.ofGroup none :=
      mem_filter.mpr ⟨mem_zipIdx_iff_getElem?.mpr hk, by simpa using hnone⟩
    exact holds_of_entails hpremises (hconcl c hc) (hsingle _ hmem) hσ
  · obtain ⟨⟨c, k⟩, hp, hentails⟩ := hgroup g hg
    obtain ⟨hmem, hsome⟩ := mem_filter.mp hp
    have hc : c ∈ problem.conclusions :=
      mem_of_getElem? (mem_zipIdx_iff_getElem?.mp hmem)
    exact ⟨c, hc, by simpa using hsome, holds_of_entails hpremises (hconcl c hc) hentails hσ⟩

end Passed

end Driver

end Oikos.Telos
