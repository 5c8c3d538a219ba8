/-
What a lowered condition assumes: `forall`s are unrolled by putting numbers for their
variables, which assumes no more than was said as long as the numbers reach every place
that the body reads.
-/
import Oikos.Telos.Places

namespace Oikos.Telos

open List

theorem height_of_mem {arms : List (Pattern × Expr)} {arm : Pattern × Expr} (h : arm ∈ arms) :
    arm.2.height < heightArms arms := by
  induction arms with
  | nil => cases h
  | cons first arms ih =>
    rw [heightArms]
    rcases mem_cons.mp h with rfl | h
    · omega
    · have hrest := ih h
      omega

/-- Every number that a `forall` runs through reaches all that its body depends on, and
what an arm of a `match` binds is not read in the arm. -/
def Expr.Unrolls (e : Expr) : Prop :=
  match e with
  | .bin _ lhs rhs => lhs.Unrolls ∧ rhs.Unrolls
  | .ifThen condition thenExpr elseExpr =>
    condition.Unrolls ∧ thenExpr.Unrolls ∧ elseExpr.Unrolls
  | .forAll v _ (some (.range lo hi)) body =>
    ∀ a b, evalConstExpr lo = .ok (some a) → evalConstExpr hi = .ok (some b) →
      ∀ i ∈ rangeInts a b, body.Substitutes v ∧ (instantiateForall v body i).Unrolls
  | .matchOn _ arms =>
    ∀ arm, ∀ _ : arm ∈ arms, (∀ q ∈ arm.2.places, q.base ∉ arm.1.binds) ∧ arm.2.Unrolls
  | _ => True
termination_by e.height
decreasing_by
  all_goals simp only [Expr.height, instantiateForall, height_substituteVar]
  all_goals try have hheight := height_of_mem ‹_›
  all_goals omega

/-- Comparisons, `&&` and `||`. -/
def Expr.plain : Expr → Bool
  | .bin .and lhs rhs | .bin .or lhs rhs => lhs.plain && rhs.plain
  | .bin op _ _ => (relationOf op).isSome
  | _ => false

section Lowering

variable {fieldFn : Naming} {σ : String → Int} {e : Expr} {dnf : Dnf Constraint}

theorem evalConstExpr_of_constBound {message : String} {n : Int}
    (h : constBound e message = .ok n) :
    evalConstExpr e = .ok (some n) := by
  obtain ⟨m, hm, h⟩ := bind_eq_ok.mp h
  cases m with
  | none => cases h
  | some m =>
    cases h
    exact hm

theorem foldlM_of_forall {f : Int → Result String (Dnf Constraint)} {part : Int → Dnf Constraint}
    {is : List Int} (h : ∀ i ∈ is, f i = .ok (part i)) (start : Dnf Constraint) :
    is.foldlM (fun combined i => do
      let branch ← f i
      .ok (combineDnf combined branch)) start =
        (.ok (is.foldl (fun combined i => combined.conjoin (part i)) start) : Result String _) := by
  induction is generalizing start with
  | nil => rfl
  | cons i is ih =>
    have hparts := forall_mem_cons.mp h
    rw [foldlM_cons, hparts.1]
    exact ih hparts.2 _

/-- A `forall` over a range is lowered body by body. -/
theorem toConstraintsDnf_forAll {v : Name} {ty : Ty} {lo hi body : Expr} {a b : Int}
    (hlo : evalConstExpr lo = .ok (some a)) (hhi : evalConstExpr hi = .ok (some b))
    (part : Int → Dnf Constraint)
    (h : ∀ i ∈ rangeInts a b, toConstraintsDnf fieldFn (instantiateForall v body i) =
    .ok (part i)) :
    toConstraintsDnf fieldFn (.forAll v ty (some (.range lo hi)) body) =
      .ok ((rangeInts a b).foldl (fun combined i => combined.conjoin (part i)) [[]]) := by
  have hbound : ∀ {e : Expr} {n : Int} (message : String), evalConstExpr e = .ok (some n) →
      constBound e message = .ok n := by
    intro e n message he
    rw [constBound, he]
    rfl
  rw [toConstraintsDnf.eq_def]
  dsimp only
  rw [hbound _ hlo, hbound _ hhi]
  dsimp only [Bind.bind, Except.bind]
  split
  · next hle => rw [rangeInts_eq_nil hle, foldl_nil]
  · exact foldlM_of_forall h [[]]

/-- Some arm of a `match` means what the `match` does. -/
theorem exists_arm {pre s : State} {arms : List (Pattern × Expr)} (h : MeansArm pre s arms)
    (hbinds : ∀ arm ∈ arms, ∀ q ∈ arm.2.places, q.base ∉ arm.1.binds) :
    ∃ arm ∈ arms, Means pre s arm.2 := by
  induction arms with
  | nil => exact h.elim
  | cons arm arms ih =>
    obtain ⟨p, e⟩ := arm
    obtain ⟨hfirst, hrest⟩ := forall_mem_cons.mp hbinds
    rcases h with ⟨pre', s', hpre, hs, hmeans⟩ | h
    · have hsame : ∀ {s s' : State}, AgreeOff p.binds s s' → SameOn e.places s s' :=
        fun hs q hq => hs q (hfirst q hq)
      exact ⟨(p, e), mem_cons_self, (means_congr (hsame hpre) (hsame hs)).mpr hmeans⟩
    · obtain ⟨arm, harm, hmeans⟩ := ih h hrest
      exact ⟨arm, mem_cons_of_mem _ harm, hmeans⟩

theorem holds_of_unrolls (h : LowersTo fieldFn e dnf) (hunrolls : e.Unrolls)
    (hmeans : Means (stateAt σ preField) (stateAt σ fieldFn) e) :
    dnf.Holds (Constraint.Holds σ) := by
  induction h with
  | or _ _ ihl ihr =>
    rw [Expr.Unrolls] at hunrolls
    rw [Dnf.holds_append]
    exact hmeans.imp (ihl hunrolls.1) (ihr hunrolls.2)
  | and _ _ ihl ihr =>
    rw [Expr.Unrolls] at hunrolls
    rw [Dnf.holds_conjoin]
    exact ⟨ihl hunrolls.1 hmeans.1, ihr hunrolls.2 hmeans.2⟩
  | @compare op rel lhs rhs c hrel hc =>
    rw [Dnf.holds_singleton, forall_mem_singleton, (compare_eq_ok hc).1]
    cases op <;> cases hrel <;> exact hmeans
  | ifThen _ _ _ ihc iht ihe =>
    rw [Expr.Unrolls] at hunrolls
    rw [Dnf.holds_append, Dnf.holds_conjoin]
    rcases hmeans with ⟨hc, ht⟩ | ⟨_, he⟩
    · exact Or.inl ⟨ihc hunrolls.1 hc, iht hunrolls.2.1 ht⟩
    · exact Or.inr (ihe hunrolls.2.2 he)
  | matchOn part _ ih =>
    rw [Expr.Unrolls] at hunrolls
    obtain ⟨arm, harm, hmeans⟩ := exists_arm hmeans fun arm harm => (hunrolls arm harm).1
    obtain ⟨branch, hbranch, hall⟩ := ih arm harm (hunrolls arm harm).2 hmeans
    exact ⟨branch, mem_flatMap.mpr ⟨arm, harm, hbranch⟩, hall⟩
  | noArm | aggregate => exact ⟨[], mem_singleton_self _, fun _ h => absurd h not_mem_nil⟩
  | @forAll v ty lo hi body a b _ _ hlo hhi part _ ih =>
    rw [Expr.Unrolls] at hunrolls
    have hpart : ∀ i ∈ rangeInts a b, (part i).Holds (Constraint.Holds σ) := by
      intro i hi
      obtain ⟨hsubst, hrest⟩ := hunrolls a b (evalConstExpr_of_constBound hlo)
        (evalConstExpr_of_constBound hhi) i hi
      obtain ⟨ha, hb⟩ := mem_rangeInts hi
      have hbody := hmeans a b (constBound_eq_ok hlo _ _) (constBound_eq_ok hhi _ _) i ha hb
      exact ih i hi hrest ((means_substituteVar body hsubst _ _).mp hbody)
    exact Dnf.holds_foldl_conjoin hpart
      (Dnf.holds_singleton.mpr fun _ h => absurd h not_mem_nil)

theorem holds_iff_of_plain (h : LowersTo fieldFn e dnf) (hplain : e.plain = true) :
    dnf.Holds (Constraint.Holds σ) ↔ Means (stateAt σ preField) (stateAt σ fieldFn) e := by
  induction h with
  | or _ _ ihl ihr =>
    obtain ⟨hl, hr⟩ := Bool.and_eq_true_iff.mp hplain
    rw [Dnf.holds_append, ihl hl, ihr hr]
    exact Iff.rfl
  | and _ _ ihl ihr =>
    obtain ⟨hl, hr⟩ := Bool.and_eq_true_iff.mp hplain
    rw [Dnf.holds_conjoin, ihl hl, ihr hr]
    exact Iff.rfl
  | @compare op rel lhs rhs c hrel hc =>
    rw [Dnf.holds_singleton, forall_mem_singleton, (compare_eq_ok hc).1]
    cases op <;> cases hrel <;> exact Iff.rfl
  | _ => cases hplain

/-- A lowered condition holds wherever the condition does, if every `forall` unrolls; and
nowhere else, if there are only comparisons, `&&` and `||`. -/
theorem toConstraintsDnf_assumes (h : toConstraintsDnf fieldFn e = .ok dnf) :
    (e.Unrolls → Means (stateAt σ preField) (stateAt σ fieldFn) e →
      dnf.Holds (Constraint.Holds σ)) ∧
    (e.plain = true →
      (dnf.Holds (Constraint.Holds σ) ↔ Means (stateAt σ preField) (stateAt σ fieldFn) e)) :=
  ⟨holds_of_unrolls (lowersTo_of_toConstraintsDnf h),
    holds_iff_of_plain (lowersTo_of_toConstraintsDnf h)⟩

end Lowering

/-! ### Two clauses -/

def indexName : Name :=
  ⟨"i", by decide⟩

def xName : Name :=
  ⟨"x", .refl true⟩

/-- `forall i: Int in 0..2 { x >= i }` -/
def atLeastAll : Expr :=
  .forAll indexName (.named "Int") (some (.range (.int 0) (.int 2)))
    (.bin .ge (.var xName) (.var indexName))

theorem atLeastAll_unrolls : atLeastAll.Unrolls := by
  have hbody : ∀ i, instantiateForall indexName (.bin .ge (.var xName) (.var indexName)) i =
      .bin .ge (.var xName) (.int i) := fun _ => rfl
  simp [atLeastAll, Expr.Unrolls, Expr.Substitutes, hbody]

theorem toConstraintsDnf_atLeastAll :
    toConstraintsDnf preField atLeastAll =
      .ok [[⟨⟨[("x", 1)], 0⟩, .ge⟩, ⟨⟨[("x", 1)], -1⟩, .ge⟩]] := by
  refine toConstraintsDnf_forAll (a := 0) (b := 2) rfl rfl
    (fun i => [[⟨⟨[("x", 1)], -i⟩, .ge⟩]]) fun i hi => ?_
  have hrange := mem_rangeInts hi
  have hcases : i = 0 ∨ i = 1 := by omega
  rw [toConstraintsDnf.eq_def]
  rcases hcases with rfl | rfl <;> rfl

/-- Where `x` is `5`, what the clause is lowered to holds. -/
theorem atLeastAll_holds :
    ∃ dnf, toConstraintsDnf preField atLeastAll = .ok dnf ∧
      dnf.Holds (Constraint.Holds fun _ => 5) := by
  refine ⟨_, toConstraintsDnf_atLeastAll, ?_⟩
  refine (toConstraintsDnf_assumes toConstraintsDnf_atLeastAll).1 atLeastAll_unrolls ?_
  rintro _ _ ⟨⟩ ⟨⟩ i _ hi
  exact ⟨5, i, rfl, rfl, by change i ≤ 5; omega⟩

/-- `forall i: Int in 1..2 { if i > 0 { x >= 1 } else { x >= 5 } }` -/
def unreached : Expr :=
  .forAll indexName (.named "Int") (some (.range (.int 1) (.int 2)))
    (.ifThen (.bin .gt (.var indexName) (.int 0)) (.bin .ge (.var xName) (.int 1))
      (.bin .ge (.var xName) (.int 5)))

theorem toConstraintsDnf_unreached :
    toConstraintsDnf preField unreached =
      .ok [[⟨⟨[("i", 1)], 0⟩, .gt⟩, ⟨⟨[("x", 1)], -1⟩, .ge⟩], [⟨⟨[("x", 1)], -5⟩, .ge⟩]] := by
  refine toConstraintsDnf_forAll (a := 1) (b := 2) rfl rfl
    (fun _ => [[⟨⟨[("i", 1)], 0⟩, .gt⟩, ⟨⟨[("x", 1)], -1⟩, .ge⟩], [⟨⟨[("x", 1)], -5⟩, .ge⟩]])
    fun i _ => ?_
  have hcompare : ∀ op rel v n, relationOf op = some rel → op ≠ .or → op ≠ .and →
      toConstraintsDnf preField (.bin op (.var v) (.int n)) = (do
        let c ← compare preField rel (.var v) (.int n)
        .ok [[c]]) := by
    intro op rel v n hrel hor hand
    rw [toConstraintsDnf.eq_def]
    cases op <;> cases hrel <;> rfl
  change toConstraintsDnf preField (.ifThen _ _ _) = _
  rw [toConstraintsDnf.eq_def]
  dsimp only
  rw [hcompare .gt .gt _ _ rfl (by decide) (by decide),
    hcompare .ge .ge _ _ rfl (by decide) (by decide),
    hcompare .ge .ge _ _ rfl (by decide) (by decide)]
  rfl

/-- Where `x` is `1`, the clause says what is so; what it is lowered to does not hold where
a variable with the name of the index is not positive. -/
theorem unreached_assumes_too_much :
    ∃ dnf, toConstraintsDnf preField unreached = .ok dnf ∧
      ¬∀ σ, Means (stateAt σ preField) (stateAt σ preField) unreached →
        dnf.Holds (Constraint.Holds σ) := by
  refine ⟨_, toConstraintsDnf_unreached, fun h => ?_⟩
  obtain ⟨branch, hbranch, hall⟩ := h (fun v => if v = "x" then 1 else 0) (by
    rintro _ _ ⟨⟩ ⟨⟩ i hlo hhi
    obtain rfl : i = 1 := by omega
    exact .inl ⟨⟨1, 0, rfl, rfl, Int.one_pos⟩, 1, 1, rfl, rfl, le_refl 1⟩)
  rcases mem_cons.mp hbranch with rfl | hbranch
  · have hindex := hall _ mem_cons_self
    simp [Constraint.Holds, Relation.Holds, Linear.eval] at hindex
  · rw [mem_singleton.mp hbranch] at hall
    have hx := hall _ mem_cons_self
    simp [Constraint.Holds, Relation.Holds, Linear.eval] at hx

end Oikos.Telos
