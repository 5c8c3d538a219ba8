/-
Disjunctive ensures clauses: the verifier asks for one comparison of a clause, and so
proves the clause just where each of its comparisons does.
-/
import Oikos.Telos.Conclusions
import Oikos.Telos.SolverExact

namespace Oikos.Telos

open List

/-- The comparisons that a clause is put together from. -/
def Expr.comparisons : Expr → List Expr
  | .bin op lhs rhs =>
    match op with
    | .and | .or => lhs.comparisons ++ rhs.comparisons
    | _ => [.bin op lhs rhs]
  | e => [e]

def Expr.disjunctive : Expr → Bool
  | .bin op lhs rhs =>
    match op with
    | .or => true
    | .and => lhs.disjunctive || rhs.disjunctive
    | _ => false
  | _ => false

/-- An ensures clause in the states before and after that an assignment stands for. -/
abbrev Ensured (σ : String → Int) (e : Expr) : Prop :=
  Means (stateAt σ preField) (stateAt σ postField) e

/-- A clause without `||`, or one that each of its comparisons implies. -/
def Whole (e : Expr) : Prop :=
  e.disjunctive = true → ∀ c ∈ e.comparisons, ∀ σ, Ensured σ c → Ensured σ e

section Clauses

variable {bounds : VarBounds} {fieldFn : Naming} {e : Expr} {dnf : Dnf Constraint} {approx : Bool}
  {c : Constraint}

/-- A clause has a single branch just where there is no `||` in it. -/
theorem length_eq_one_iff (h : toConstraintsBoundedDnf bounds fieldFn e = .ok (dnf, approx)) :
    dnf.length = 1 ↔ e.disjunctive = false := by
  induction e using Expr.operatorInduction generalizing dnf approx with
  | bin op lhs rhs ihl ihr =>
    cases op with
    | or =>
      obtain ⟨⟨left, approxL⟩, hleft, h⟩ := bind_eq_ok.mp h
      obtain ⟨⟨right, approxR⟩, hright, h⟩ := bind_eq_ok.mp h
      cases h
      have hl := length_pos_of_ne_nil (toConstraintsBoundedDnf_nonempty hleft).1
      have hr := length_pos_of_ne_nil (toConstraintsBoundedDnf_nonempty hright).1
      simp only [length_append, Expr.disjunctive, Bool.true_eq_false, iff_false]
      omega
    | and =>
      obtain ⟨⟨left, approxL⟩, hleft, h⟩ := bind_eq_ok.mp h
      obtain ⟨⟨right, approxR⟩, hright, h⟩ := bind_eq_ok.mp h
      cases h
      rw [combineDnf, Dnf.length_conjoin, mul_eq_one, ihl hleft, ihr hright]
      simp [Expr.disjunctive]
    | eq | ne | lt | le | gt | ge =>
      obtain ⟨⟨c, approxC⟩, hc, h⟩ := bind_eq_ok.mp h
      cases h
      simp [Expr.disjunctive]
    | add | sub | mul | div => cases h
  | _ => cases h

def Says (fieldFn : Naming) (c : Constraint) (e : Expr) : Prop :=
  ∀ σ, c.Holds σ ↔ Means (stateAt σ preField) (stateAt σ fieldFn) e

theorem says_comparisons (haffine : e.affine = true)
    (h : toConstraintsBoundedDnf bounds fieldFn e = .ok (dnf, approx)) :
    (∀ c ∈ dnf.flatten, ∃ e' ∈ e.comparisons, Says fieldFn c e') ∧
      ∀ e' ∈ e.comparisons, ∃ c ∈ dnf.flatten, Says fieldFn c e' := by
  induction e using Expr.operatorInduction generalizing dnf approx with
  | bin op lhs rhs ihl ihr =>
    have hparts := Expr.affine_bin haffine
    have hboth : ∀ left right,
      (∃ approx, toConstraintsBoundedDnf bounds fieldFn lhs = .ok (left, approx)) →
        (∃ approx, toConstraintsBoundedDnf bounds fieldFn rhs = .ok (right, approx)) →
          (∀ c, c ∈ dnf.flatten ↔ c ∈ left.flatten ∨ c ∈ right.flatten) →
            (∀ c ∈ dnf.flatten, ∃ e' ∈ lhs.comparisons ++ rhs.comparisons, Says fieldFn c e') ∧
              ∀ e' ∈ lhs.comparisons ++ rhs.comparisons, ∃ c ∈ dnf.flatten, Says fieldFn c e' := by
      rintro left right ⟨_, hleft⟩ ⟨_, hright⟩ hmem
      obtain ⟨hl, hl'⟩ := ihl hparts.1 hleft
      obtain ⟨hr, hr'⟩ := ihr hparts.2 hright
      refine ⟨fun c hc => ?_, forall_mem_append.mpr ⟨fun e' he' => ?_, fun e' he' => ?_⟩⟩
      · rcases (hmem c).mp hc with hc | hc
        · obtain ⟨e', he', hsaid⟩ := hl c hc
          exact ⟨e', mem_append_left _ he', hsaid⟩
        · obtain ⟨e', he', hsaid⟩ := hr c hc
          exact ⟨e', mem_append_right _ he', hsaid⟩
      · obtain ⟨c, hc, hsaid⟩ := hl' e' he'
        exact ⟨c, (hmem c).mpr (Or.inl hc), hsaid⟩
      · obtain ⟨c, hc, hsaid⟩ := hr' e' he'
        exact ⟨c, (hmem c).mpr (Or.inr hc), hsaid⟩
    cases op with
    | or =>
      obtain ⟨⟨left, approxL⟩, hleft, h⟩ := bind_eq_ok.mp h
      obtain ⟨⟨right, approxR⟩, hright, h⟩ := bind_eq_ok.mp h
      cases h
      exact hboth left right ⟨_, hleft⟩ ⟨_, hright⟩ (by simp)
    | and =>
      obtain ⟨⟨left, approxL⟩, hleft, h⟩ := bind_eq_ok.mp h
      obtain ⟨⟨right, approxR⟩, hright, h⟩ := bind_eq_ok.mp h
      cases h
      refine hboth left right ⟨_, hleft⟩ ⟨_, hright⟩ fun c => ?_
      exact Dnf.mem_flatten_conjoin (toConstraintsBoundedDnf_nonempty hleft).1
        (toConstraintsBoundedDnf_nonempty hright).1
    | eq | ne | lt | le | gt | ge =>
      have hall := fun σ => holds_toConstraintsBoundedDnf (σ := σ) haffine h
      obtain ⟨⟨c, approxC⟩, hc, h⟩ := bind_eq_ok.mp h
      cases h
      have hsaid : Says fieldFn c _ := fun σ => by
        rw [← hall σ, Dnf.holds_singleton, forall_mem_singleton]
      exact ⟨by simpa [Expr.comparisons] using hsaid, by simpa [Expr.comparisons] using hsaid⟩
    | add | sub | mul | div => cases h
  | _ => cases h

end Clauses

/-! ### Sufficiency -/

section Sound

variable {σ : String → Int} {problem : VerificationProblem} {order : VerifyOrder}
  {result : VerificationResult} {dnf : Dnf Constraint} {bounds : VarBounds} {e : Expr}
  {approx : Bool}

/-- A clause that is lowered to no less than it says, comparison by comparison, follows
from the premises of a problem that passes. -/
theorem ensured_of_lowered (hpremises : DupFree problem.premises)
    (hconcl : ∀ c ∈ problem.conclusions, c.constraint.lin.DupFree)
    (h : verify order problem = .ok result) (hpass : result.allPassed = true)
    (hσ : Satisfies σ problem.premises) (hwhole : Whole e)
    (hdnf : toConstraintsBoundedDnf bounds postField e = .ok (dnf, approx))
    (hsound : dnf.Holds (Constraint.Holds σ) → Ensured σ e)
    (hcomparisons : ∀ c ∈ dnf.flatten, ∃ e' ∈ e.comparisons, c.Holds σ → Ensured σ e')
    (hcontributes : Contributes dnf problem.conclusions) : Ensured σ e := by
  obtain ⟨hsingle, hgroup⟩ := holds_of_verify hpremises hconcl h hpass hσ
  cases hcontributes with
  | single branch hbranch hall =>
    subst hbranch
    refine hsound (Dnf.holds_singleton.mpr fun c hc => ?_)
    obtain ⟨concl, hmem, hnone, rfl⟩ := hall c hc
    exact hsingle concl hmem hnone
  | group g hlength hall honly =>
    have hdisjunctive : e.disjunctive = true := by
      rw [← Bool.not_eq_false, ← length_eq_one_iff hdnf]
      exact hlength
    obtain ⟨hne, hbranches⟩ := toConstraintsBoundedDnf_nonempty hdnf
    obtain ⟨branch, hbranch⟩ := exists_mem_of_ne_nil _ hne
    obtain ⟨c, hc⟩ := exists_mem_of_ne_nil _ (hbranches branch hbranch)
    obtain ⟨concl, hmem, hg, _⟩ := hall branch hbranch c hc
    have hid : g ∈ problem.groupIds :=
      mem_dedup.mpr (mem_filterMap.mpr ⟨concl, hmem, hg⟩)
    -- the member of the group that is entailed is one of the comparisons
    obtain ⟨concl', hmem', hg', hholds⟩ := hgroup g hid
    obtain ⟨branch', hbranch', hc'⟩ := honly concl' hmem' hg'
    obtain ⟨e', he', himplies⟩ := hcomparisons _ (mem_flatten.mpr ⟨branch', hbranch', hc'⟩)
    exact hwhole hdisjunctive e' he' σ (himplies hholds)

theorem ensured_of_verify (hpremises : DupFree problem.premises)
    (hconcl : ∀ c ∈ problem.conclusions, c.constraint.lin.DupFree)
    (h : verify order problem = .ok result) (hpass : result.allPassed = true)
    (hσ : Satisfies σ problem.premises) (haffine : e.affine = true) (hwhole : Whole e)
    (hdnf : toConstraintsBoundedDnf bounds postField e = .ok (dnf, approx))
    (hcontributes : Contributes dnf problem.conclusions) : Ensured σ e := by
  refine ensured_of_lowered hpremises hconcl h hpass hσ hwhole hdnf
    (holds_toConstraintsBoundedDnf haffine hdnf).mp (fun c hc => ?_) hcontributes
  obtain ⟨e', he', hsaid⟩ := (says_comparisons haffine hdnf).1 c hc
  exact ⟨e', he', (hsaid σ).mp⟩

end Sound

/-! ### Necessity -/

section Necessary

variable {bounds : VarBounds} {e : Expr} {dnf : Dnf Constraint} {approx : Bool} {location : Span}
  {g : Nat}

theorem proper_dnf {fieldFn : Naming}
    (h : toConstraintsBoundedDnf bounds fieldFn e = .ok (dnf, approx)) :
    Proper dnf.flatten := by
  intro c hc
  obtain ⟨branch, hbranch, hc⟩ := mem_flatten.mp hc
  exact proper_toConstraintsBoundedDnf h branch hbranch c hc

def clauseProblem (funcName : String) (span : Span) (premises : List Constraint) (e : Expr)
    (location : Span) (dnf : Dnf Constraint) (approx : Bool) (g : Nat) : VerificationProblem :=
  ⟨funcName, span, premises, (clauseConclusions e location dnf approx g).1⟩

theorem allPassed_of_entails {order : VerifyOrder} {funcName : String} {span : Span}
    {premises : List Constraint} {result : VerificationResult} (hdnf : dnf.length ≠ 1)
    {c : Constraint}
    (hc : c ∈ dnf.flatten) (hentails : ∀ order, entails order premises c = true)
    (h : verify order (clauseProblem funcName span premises e location dnf approx g) = .ok result) :
    result.allPassed = true := by
  generalize hclause : clauseConclusions e location dnf approx g = clause
  obtain ⟨cs, next⟩ := clause
  obtain ⟨_, hall, hback⟩ := clauseConclusions_group hdnf hclause
  rw [allPassed_iff h]
  simp only [clauseProblem, hclause, VerificationProblem.ofGroup, VerificationProblem.groupIds]
  constructor
  · intro p hp
    obtain ⟨hmem, hnone⟩ := mem_filter.mp hp
    have hg := (hall p.1 (mem_of_getElem? (mem_zipIdx_iff_getElem?.mp hmem))).1
    rw [of_decide_eq_true hnone] at hg
    cases hg
  · intro g' hg'
    obtain ⟨concl, hconcl, hid⟩ := mem_filterMap.mp (mem_dedup.mp hg')
    obtain rfl : g = g' := Option.some.inj ((hall concl hconcl).1.symm.trans hid)
    obtain ⟨branch, hbranch, hc⟩ := mem_flatten.mp hc
    obtain ⟨concl', hconcl', rfl⟩ := hback branch hbranch c hc
    obtain ⟨k, hk⟩ := getElem?_of_mem hconcl'
    refine ⟨(concl', k), mem_filter.mpr ⟨mem_zipIdx_iff_getElem?.mpr hk, ?_⟩, hentails _⟩
    exact decide_eq_true (hall concl' hconcl').1

theorem exists_passing_of_not_whole (haffine : e.affine = true)
    (hdnf : toConstraintsBoundedDnf bounds postField e = .ok (dnf, approx)) (hwhole : ¬Whole e) :
    ∃ premises, DupFree premises ∧ (∃ σ, Satisfies σ premises ∧ ¬Ensured σ e) ∧
      ∀ order funcName span location g, ∃ result,
      verify order (clauseProblem funcName span premises e location dnf approx g) = .ok result ∧
        result.allPassed = true := by
  simp only [Whole, not_forall] at hwhole
  obtain ⟨hdisjunctive, e', he', σ, hσ, hnot⟩ := hwhole
  obtain ⟨c, hc, hsaid⟩ := (says_comparisons haffine hdnf).2 e' he'
  have hproper : Proper [c] := forall_mem_singleton.mpr (proper_dnf hdnf c hc)
  obtain ⟨premise, hlin, hholds, hentails⟩ := exists_premise hproper ((hsaid σ).mpr hσ)
  have hlength : dnf.length ≠ 1 := fun hone => by
    rw [length_eq_one_iff hdnf, hdisjunctive] at hone
    cases hone
  have hpremise : Proper [premise] := by
    intro c' hc'
    rw [mem_singleton.mp hc', hlin]
    exact proper_dnf hdnf c hc
  refine ⟨[premise], fun c hc => (hpremise c hc).1, ⟨σ, satisfies_singleton.mpr hholds, hnot⟩,
    fun order funcName span location g => ?_⟩
  generalize hclause : clauseConclusions e location dnf approx g = clause
  have hproblem : (clauseProblem funcName span [premise] e location dnf approx g).Proper := by
    constructor
    · exact hpremise
    · simp only [clauseProblem, hclause]
      refine forall_mem_map.mpr (forall_clauseConclusions
        (Q := fun c => c.lin.DupFree ∧ ∀ t ∈ c.lin.terms, t.2 ≠ 0) (fun branch hbranch c hc => ?_)
        hclause)
      exact proper_dnf hdnf c (mem_flatten.mpr ⟨branch, hbranch, hc⟩)
  obtain ⟨result, hresult⟩ := verify_ok order hproblem
  exact ⟨result, hresult, allPassed_of_entails hlength hc hentails hresult⟩

end Necessary

/-- Where a function passes, the premises of each of its problems entail its ensures
clauses without `||`, and those that each of their comparisons implies. Of any other
clause a single comparison is enough to pass, though it does not imply the clause. -/
theorem disjunctive_ensures_proved (e : Expr) (haffine : e.affine = true) :
    (∀ debug order t func problems, buildProblems debug order t func = .ok problems →
      (∀ problem ∈ problems, ∃ order result,
        verify order problem = .ok result ∧ result.allPassed = true) →
      e ∈ func.ensures → Whole e →
        ∀ problem ∈ problems, ∀ σ, Satisfies σ problem.premises → Ensured σ e) ∧
      ∀ bounds dnf approx,
        toConstraintsBoundedDnf bounds postField e = .ok (dnf, approx) →
        (Whole e ↔ ∀ premises, DupFree premises → ∀ order funcName span location g result,
          verify order (clauseProblem funcName span premises e location dnf approx g) = .ok result →
            result.allPassed = true → ∀ σ, Satisfies σ premises → Ensured σ e) := by
  constructor
  · intro debug fieldOrder t func problems hproblems hverified he hwhole problem hmem σ hσ
    obtain ⟨order, result, hresult, hpass⟩ := hverified problem hmem
    obtain ⟨parts, hparts, _⟩ := buildProblems_eq_ok hproblems
    obtain ⟨r, hr, b, hb, premises, funcName, hpremises, hbuild⟩ := hparts problem hmem
    obtain ⟨bounds, dnf, approx, _, hdnf, hcontributes⟩ :=
      (conclusions_of_buildProblem hbuild).1 e he
    have hdup : DupFree problem.premises := by
      rw [(buildProblem_eq_ok hbuild).1]
      exact (parts.proper hr hb hpremises).dupFree
    exact ensured_of_verify hdup (dupFree_conclusions hbuild) hresult hpass hσ haffine hwhole hdnf
      hcontributes
  · intro bounds dnf approx hdnf
    constructor
    · intro hwhole premises hpremises order funcName span location g result hresult hpass σ hσ
      have hcontributes : Contributes dnf (clauseConclusions e location dnf approx g).1 :=
        clause_contributes rfl
      refine ensured_of_verify hpremises ?_ hresult hpass hσ haffine hwhole hdnf hcontributes
      have hdup : ∀ branch ∈ dnf, DupFree branch := fun branch hbranch =>
        Proper.dupFree (proper_toConstraintsBoundedDnf hdnf branch hbranch)
      exact forall_clauseConclusions hdup rfl
    · intro hall
      by_contra hwhole
      obtain ⟨premises, hpremises, ⟨σ, hσ, hnot⟩, hpasses⟩ :=
        exists_passing_of_not_whole haffine hdnf hwhole
      obtain ⟨result, hresult, hpass⟩ := hpasses .sorted "" ⟨0, 0⟩ ⟨0, 0⟩ 0
      exact hnot (hall premises hpremises _ _ _ _ _ result hresult hpass σ hσ)

/-! ### Functions that pass for one comparison -/

def word (text : String) (wf : isName text = true) : Name :=
  ⟨text, wf⟩

/-- `w.f > 0` -/
def positive (f : Name) : Expr :=
  .bin .gt (.field (word "w" (.refl true)) f) (.int 0)

def aPositive : Expr :=
  positive (word "a" (by decide))

def bPositive : Expr :=
  positive (word "b" (by decide))

def cPositive : Expr :=
  positive (word "c" (by decide))

/-- A function that does nothing and requires `w.a > 0`. -/
def idleFunc (clause : Expr) : Func where
  name := word "f" (by decide)
  params := [⟨word "w" (.refl true), .named "Wallet"⟩]
  requires := [aPositive]
  ensures := [clause]
  body := []
  elided := false
  span := ⟨1, 1⟩
  ensuresSpans := []

/-- The premise, and the axiom that a field keeps its value. -/
def requiresPositive (f : String) : Constraint :=
  ⟨⟨[("w." ++ f, 1)], 0⟩, .gt⟩

def keeps (f : String) : Constraint :=
  ⟨⟨[("w." ++ f ++ "'", 1), ("w." ++ f, -1)], 0⟩, .eq⟩

def ensuresPositive (f : String) : Constraint :=
  ⟨⟨[("w." ++ f ++ "'", 1)], 0⟩, .gt⟩

/-- `w.a > 0 || w.c > 0` is whole. -/
theorem disjunctive_ensures_proved_whole :
    let e : Expr := .bin .or aPositive cPositive
    let premises := [requiresPositive "a", keeps "a", keeps "c"]
    let problem := clauseProblem "f" ⟨1, 1⟩ premises e ⟨1, 1⟩
      [[ensuresPositive "a"], [ensuresPositive "c"]] false 0
    extract pretty .first [⟨[.func (idleFunc e)]⟩] = .ok [problem] ∧
      ∀ σ, Satisfies σ problem.premises → Ensured σ e := by
  intro e premises problem
  have hbuild : buildProblems pretty .first (tables [⟨[.func (idleFunc e)]⟩]) (idleFunc e) =
      .ok [problem] := by decide +kernel
  have hproper : problem.Proper := by decide
  obtain ⟨result, hresult⟩ := verify_ok .sorted hproper
  refine ⟨by decide +kernel, fun σ hσ => ?_⟩
  refine (disjunctive_ensures_proved e rfl).1 _ _ _ _ _ hbuild
    (forall_mem_singleton.mpr ⟨.sorted,
    result, hresult, ?_⟩) (mem_singleton_self _) ?_ problem (mem_singleton_self _) σ hσ
  · refine allPassed_of_entails (c := ensuresPositive "a") (by decide) (by decide)
      (fun order => ?_) hresult
    have hsorted : entails .sorted premises (ensuresPositive "a") = true := by decide
    exact (entails_order hproper.1 (by decide)).trans hsorted
  · intro _ c hc σ hc'
    rcases mem_pair.mp hc with rfl | rfl
    · exact Or.inl hc'
    · exact Or.inr hc'

/-- `w.a > 0 && w.b > 0 || w.c > 0` passes since `w.a > 0` is entailed. -/
theorem loose_clause_passes :
    let e : Expr := .bin .or (.bin .and aPositive bPositive) cPositive
    let premises := [requiresPositive "a", keeps "a", keeps "b", keeps "c"]
    let problem := clauseProblem "f" ⟨1, 1⟩ premises e ⟨1, 1⟩
      [[ensuresPositive "a", ensuresPositive "b"], [ensuresPositive "c"]] false 0
    extract pretty .first [⟨[.func (idleFunc e)]⟩] = .ok [problem] ∧
      (∀ order, ∃ result, verify order problem = .ok result ∧ result.allPassed = true) ∧
        ∃ σ, Satisfies σ problem.premises ∧ ¬Ensured σ e := by
  intro e premises problem
  have hproper : problem.Proper := by decide
  refine ⟨by decide +kernel, fun order => ?_,
    fun name => if name = "w.a" ∨ name = "w.a'" then 1 else 0, ?_, ?_⟩
  · obtain ⟨result, hresult⟩ := verify_ok order hproper
    refine ⟨result, hresult, allPassed_of_entails (c := ensuresPositive "a") (by decide) (by decide)
      (fun order => ?_) hresult⟩
    have hsorted : entails .sorted premises (ensuresPositive "a") = true := by decide
    exact (entails_order hproper.1 (by decide)).trans hsorted
  · simp [problem, premises, clauseProblem, Satisfies, Constraint.Holds,
      Relation.Holds, Linear.eval,
      requiresPositive, keeps]
  · simp [e, Ensured, Means, relationOf, aPositive, bPositive, cPositive, positive, word, value,
      stateAt, Place.name, postField, Relation.Compares]

end Oikos.Telos
