/-
What telos expressions mean in a state before and a state after, and that lowering
them to linear constraints keeps the meaning.
-/
import Oikos.Telos.Problems

namespace Oikos.Telos

/-- What an expression reads of a state. -/
inductive Place where
  | var (v : Name)
  | field (base field : Name)
  | varElem (v : Name) (i : Int)
  | fieldElem (base field : Name) (i : Int)
deriving DecidableEq

namespace Place

def base : Place → Name
  | var v => v
  | field b _ => b
  | varElem v _ => v
  | fieldElem b _ _ => b

def name (fieldFn : Naming) : Place → String
  | var v => v.text
  | field b f => fieldFn b.text f.text
  | varElem v i => v.text ++ "." ++ toString i
  | fieldElem b _ i => fieldFn b.text (toString i)

end Place

abbrev State := Place → Int

/-- The state in which an assignment to variables reads the places under their names. -/
def stateAt (σ : String → Int) (fieldFn : Naming) : State :=
  fun p => σ (p.name fieldFn)

def elemPlace (receiver index : Expr) : Option Place :=
  match receiver, index with
  | .var v, .int i => some (.varElem v i)
  | .field b f, .int i => some (.fieldElem b f i)
  | _, _ => none

def BinOp.arith : BinOp → Int → Int → Option Int
  | .add, x, y => some (x + y)
  | .sub, x, y => some (x - y)
  | .mul, x, y => some (x * y)
  | .div, x, y => if y = 0 then none else some (x.tdiv y)
  | _, _, _ => none

/-- The number that an expression stands for, over unbounded integers; `old` reads
the state before. -/
def value (pre : State) : State → Expr → Option Int
  | _, .int n => some n
  | s, .var v => some (s (.var v))
  | s, .field b f => some (s (.field b f))
  | _, .old e => value pre pre e
  | s, .unary .neg e => (value pre s e).map (-·)
  | s, .bin op lhs rhs =>
    (value pre s lhs).bind fun x => (value pre s rhs).bind fun y => op.arith x y
  | s, .index receiver index => (elemPlace receiver index).map s
  | _, _ => none

def Relation.Compares : Relation → Int → Int → Prop
  | .le, x, y => x ≤ y
  | .lt, x, y => x < y
  | .ge, x, y => y ≤ x
  | .gt, x, y => y < x
  | .eq, x, y => x = y
  | .ne, x, y => x ≠ y

theorem Relation.holds_sub (rel : Relation) (x y : Int) : rel.Holds (x - y) ↔ rel.Compares x y := by
  cases rel <;> simp only [Relation.Holds, Relation.Compares] <;> omega

mutual

def Pattern.binds : Pattern → List Name
  | .var v => [v]
  | .constructor _ fields => bindsAll fields
  | .literal _ | .wildcard => []

def bindsAll : List Pattern → List Name
  | [] => []
  | p :: ps => p.binds ++ bindsAll ps

end

def State.bind (s : State) (v : Name) (n : Int) : State :=
  fun p => if p = .var v then n else s p

/-- Two states differ only in places of some names. -/
def AgreeOff (names : List Name) (s s' : State) : Prop :=
  ∀ p : Place, p.base ∉ names → s' p = s p

mutual

/-- The condition that an expression states. Any arm of a `match` may be the one that
is chosen, and what its pattern binds may be anything; what is no condition is no
restriction. -/
def Means : State → State → Expr → Prop
  | pre, s, .bin op lhs rhs =>
    match op, relationOf op with
    | .or, _ => Means pre s lhs ∨ Means pre s rhs
    | .and, _ => Means pre s lhs ∧ Means pre s rhs
    | _, some rel =>
      ∃ x y, value pre s lhs = some x ∧ value pre s rhs = some y ∧ rel.Compares x y
    | _, none => True
  | pre, s, .ifThen condition thenExpr elseExpr =>
    (Means pre s condition ∧ Means pre s thenExpr) ∨
      (¬Means pre s condition ∧ Means pre s elseExpr)
  | pre, s, .matchOn _ arms => MeansArm pre s arms
  | pre, s, .forAll v _ (some (.range lo hi)) body =>
    ∀ a b, value pre s lo = some a → value pre s hi = some b →
      ∀ i, a ≤ i → i < b → Means (pre.bind v i) (s.bind v i) body
  | _, _, _ => True

def MeansArm : State → State → List (Pattern × Expr) → Prop
  | _, _, [] => False
  | pre, s, (p, e) :: arms =>
    (∃ pre' s', AgreeOff p.binds pre pre' ∧ AgreeOff p.binds s s' ∧ Means pre' s' e) ∨
      MeansArm pre s arms

end

/-- Every product in an expression has a number for a factor. -/
def Expr.affine : Expr → Bool
  | .old e | .unary _ e => e.affine
  | .bin .mul lhs rhs =>
    ((asInt lhs).isSome || (asInt rhs).isSome) && lhs.affine && rhs.affine
  | .bin _ lhs rhs => lhs.affine && rhs.affine
  | _ => true

/-- What an assignment makes of the value of a field. -/
def AssignOp.apply : AssignOp → Int → Int → Int
  | .set, _, n => n
  | .add, old, n => old + n
  | .sub, old, n => old - n

theorem Expr.affine_bin {op : BinOp} {lhs rhs : Expr} (h : (Expr.bin op lhs rhs).affine = true) :
    lhs.affine = true ∧ rhs.affine = true := by
  cases op with
  | mul =>
    obtain ⟨hl, hr⟩ := Bool.and_eq_true_iff.mp h
    exact ⟨(Bool.and_eq_true_iff.mp hl).2, hr⟩
  | _ => exact Bool.and_eq_true_iff.mp h

/-! ### Linear expressions -/

section Linear

variable {product : Naming → Expr → Expr → Result String Linear} {fieldFn : Naming}
  {σ : String → Int} {e lhs rhs : Expr} {l r : Linear} {approx : Bool} {k n : Int}
  {rel : Relation} {c : Constraint} {bounds : VarBounds}

theorem asInt_eq_some (h : asInt e = some n) : e = .int n := by
  cases e <;> simp_all [asInt]

theorem divExact_eq_ok {m : Int} (h : divExact n k = .ok m) : n = m * k := by
  obtain ⟨rem, hrem, h⟩ := bind_eq_ok.mp h
  obtain ⟨quot, _, hrem⟩ := bind_eq_ok.mp hrem
  cases hrem
  split at h
  · cases h
  · next hzero =>
    cases h
    have hdvd : k ∣ n := Int.dvd_iff_tmod_eq_zero.mpr (not_not.mp hzero)
    exact (Int.tdiv_mul_cancel hdvd).symm

theorem divTerms_eq_ok {terms terms' : List (String × Int)}
    (h : List.Forall₂ (fun t t' => (do let c ← divExact t.2 k; .ok (t.1, c)) = .ok t')
    terms terms') :
    Linear.sumTerms σ terms = Linear.sumTerms σ terms' * k ∧
      terms'.map Prod.fst = terms.map Prod.fst := by
  induction h with
  | nil => simp
  | cons ht _ ih =>
    obtain ⟨c, hc, ht⟩ := bind_eq_ok.mp ht
    cases ht
    refine ⟨?_, by simp [ih.2]⟩
    rw [Linear.sumTerms_cons, Linear.sumTerms_cons, ih.1, divExact_eq_ok hc]
    ring

theorem scaleExact_eq_ok (h : scaleExact l k = .ok r) :
    l.eval σ = r.eval σ * k ∧ r.terms.map Prod.fst = l.terms.map Prod.fst := by
  obtain ⟨constant, hconstant, h⟩ := bind_eq_ok.mp h
  obtain ⟨terms, hterms, h⟩ := bind_eq_ok.mp h
  cases h
  obtain ⟨hsum, hnames⟩ := divTerms_eq_ok (σ := σ) (mapM_eq_ok.mp hterms)
  refine ⟨?_, hnames⟩
  rw [Linear.eval, Linear.eval, divExact_eq_ok hconstant, add_mul]
  exact congrArg (· + _) hsum

theorem indexVar_eq_ok {receiver index : Expr} (h : indexVar fieldFn receiver index = .ok l) :
    ∃ p, elemPlace receiver index = some p ∧ l = .var (p.name fieldFn) := by
  unfold indexVar at h
  split at h
  · cases h
  · next idx hidx =>
    obtain rfl := asInt_eq_some hidx
    split at h
    · next base field =>
      cases h
      exact ⟨.fieldElem base field idx, rfl, rfl⟩
    · next v =>
      cases h
      exact ⟨.varElem v idx, rfl, rfl⟩
    · cases h

theorem value_linearizeWith (haffine : e.affine = true)
    (h : linearizeWith product fieldFn e = .ok (l, approx)) :
    value (stateAt σ preField) (stateAt σ fieldFn) e = some (l.eval σ) ∧ approx = false := by
  induction e using Expr.operatorInduction generalizing fieldFn l approx with
  | int n =>
    cases h
    simp [value]
  | var v =>
    cases h
    simp [value, stateAt, Place.name]
  | field b f =>
    cases h
    simp [value, stateAt, Place.name]
  | old e ih => exact ih haffine h
  | unary op e ih =>
    cases op
    obtain ⟨⟨l', approx'⟩, hl', h⟩ := bind_eq_ok.mp h
    obtain ⟨neg, hneg, h⟩ := bind_eq_ok.mp h
    cases h
    obtain ⟨hvalue, happrox⟩ := ih haffine hl'
    refine ⟨?_, happrox⟩
    rw [value, hvalue, Option.map_some, Linear.eval_neg hneg]
  | bin op lhs rhs ihl ihr =>
    obtain ⟨⟨l₁, approxL⟩, hl₁, h⟩ := bind_eq_ok.mp h
    obtain ⟨⟨l₂, approxR⟩, hl₂, h⟩ := bind_eq_ok.mp h
    have hparts := Expr.affine_bin haffine
    obtain ⟨hvl, happl⟩ := ihl hparts.1 hl₁
    obtain ⟨hvr, happr⟩ := ihr hparts.2 hl₂
    subst happl happr
    rw [value, hvl, hvr, Option.bind_some, Option.bind_some]
    cases op with
    | add =>
      obtain ⟨sum, hsum, h⟩ := bind_eq_ok.mp h
      cases h
      exact ⟨by rw [BinOp.arith, Linear.eval_add hsum], rfl⟩
    | sub =>
      obtain ⟨diff, hdiff, h⟩ := bind_eq_ok.mp h
      cases h
      exact ⟨by rw [BinOp.arith, Linear.eval_sub hdiff], rfl⟩
    | mul =>
      dsimp only at h
      split at h
      · next k hk =>
        obtain ⟨scaled, hscaled, h⟩ := bind_eq_ok.mp h
        cases h
        obtain rfl := asInt_eq_some hk
        obtain rfl : k = l₂.eval σ := by simpa [value] using hvr
        exact ⟨by rw [BinOp.arith, Linear.eval_scale hscaled], rfl⟩
      · next k _ hk =>
        obtain ⟨scaled, hscaled, h⟩ := bind_eq_ok.mp h
        cases h
        obtain rfl := asInt_eq_some hk
        obtain rfl : k = l₁.eval σ := by simpa [value] using hvl
        exact ⟨by rw [BinOp.arith, Linear.eval_scale hscaled, mul_comm], rfl⟩
      · next hr hl => simp [Expr.affine, hl, hr] at haffine
    | div =>
      dsimp only at h
      split at h
      · next k hk =>
        split at h
        · cases h
        · next hzero =>
          obtain ⟨quot, hquot, h⟩ := bind_eq_ok.mp h
          cases h
          obtain rfl := asInt_eq_some hk
          obtain rfl : k = l₂.eval σ := by simpa [value] using hvr
          refine ⟨?_, rfl⟩
          rw [BinOp.arith, if_neg hzero, (scaleExact_eq_ok hquot).1,
            Int.mul_tdiv_cancel _ hzero]
      · cases h
    | _ => cases h
  | index receiver index =>
    obtain ⟨l', hl', h⟩ := bind_eq_ok.mp h
    cases h
    obtain ⟨p, hp, rfl⟩ := indexVar_eq_ok hl'
    exact ⟨by rw [value, hp, Option.map_some, Linear.eval_var, stateAt], rfl⟩
  | _ => cases h

theorem affine_of_linearizeWith (hproduct : ∀ fieldFn lhs rhs l, product fieldFn lhs rhs ≠ .ok l)
    (h : linearizeWith product fieldFn e = .ok (l, approx)) : e.affine = true := by
  induction e using Expr.operatorInduction generalizing fieldFn l approx with
  | old e ih => exact ih h
  | unary op e ih =>
    cases op
    obtain ⟨⟨l', approx'⟩, hl', h⟩ := bind_eq_ok.mp h
    exact ih hl'
  | bin op lhs rhs ihl ihr =>
    obtain ⟨⟨l₁, approxL⟩, hl₁, h⟩ := bind_eq_ok.mp h
    obtain ⟨⟨l₂, approxR⟩, hl₂, h⟩ := bind_eq_ok.mp h
    have hl := ihl hl₁
    have hr := ihr hl₂
    cases op with
    | mul =>
      dsimp only at h
      split at h
      · next hk => simp [Expr.affine, hl, hr, hk]
      · next hk => simp [Expr.affine, hl, hr, hk]
      · obtain ⟨l', hl', _⟩ := bind_eq_ok.mp h
        exact absurd hl' (hproduct _ _ _ _)
    | _ => simp [Expr.affine, hl, hr]
  | _ => rfl

theorem dupFree_linearizeWith
    (hproduct : ∀ fieldFn lhs rhs l, product fieldFn lhs rhs = .ok l → l.DupFree)
    (h : linearizeWith product fieldFn e = .ok (l, approx)) : l.DupFree := by
  induction e using Expr.operatorInduction generalizing fieldFn l approx with
  | int n =>
    cases h
    exact Linear.dupFree_constantOnly n
  | var v =>
    cases h
    exact Linear.dupFree_var v.text
  | field b f =>
    cases h
    exact Linear.dupFree_var _
  | old e ih => exact ih h
  | unary op e ih =>
    cases op
    obtain ⟨⟨l', approx'⟩, hl', h⟩ := bind_eq_ok.mp h
    obtain ⟨neg, hneg, h⟩ := bind_eq_ok.mp h
    cases h
    exact Linear.dupFree_neg (ih hl') hneg
  | bin op lhs rhs ihl ihr =>
    obtain ⟨⟨l₁, approxL⟩, hl₁, h⟩ := bind_eq_ok.mp h
    obtain ⟨⟨l₂, approxR⟩, hl₂, h⟩ := bind_eq_ok.mp h
    have hl := ihl hl₁
    have hr := ihr hl₂
    cases op with
    | add =>
      obtain ⟨sum, hsum, h⟩ := bind_eq_ok.mp h
      cases h
      exact Linear.dupFree_add hl hsum
    | sub =>
      obtain ⟨diff, hdiff, h⟩ := bind_eq_ok.mp h
      cases h
      exact Linear.dupFree_sub hl hdiff
    | mul =>
      dsimp only at h
      split at h
      · obtain ⟨scaled, hscaled, h⟩ := bind_eq_ok.mp h
        cases h
        exact Linear.dupFree_scale hl hscaled
      · obtain ⟨scaled, hscaled, h⟩ := bind_eq_ok.mp h
        cases h
        exact Linear.dupFree_scale hr hscaled
      · obtain ⟨l', hl', h⟩ := bind_eq_ok.mp h
        cases h
        exact hproduct _ _ _ _ hl'
    | div =>
      dsimp only at h
      split at h
      · split at h
        · cases h
        · obtain ⟨quot, hquot, h⟩ := bind_eq_ok.mp h
          cases h
          rw [Linear.DupFree, (scaleExact_eq_ok (σ := fun _ => 0) hquot).2]
          exact hl
      · cases h
    | _ => cases h
  | index receiver index =>
    obtain ⟨l', hl', h⟩ := bind_eq_ok.mp h
    cases h
    obtain ⟨p, _, rfl⟩ := indexVar_eq_ok hl'
    exact Linear.dupFree_var _
  | _ => cases h

theorem linearize_eq_ok (h : linearize fieldFn e = .ok l) :
    value (stateAt σ preField) (stateAt σ fieldFn) e = some (l.eval σ) ∧ l.DupFree := by
  obtain ⟨⟨l', approx⟩, hl', h⟩ := bind_eq_ok.mp h
  cases h
  have haffine : e.affine = true := by
    refine affine_of_linearizeWith ?_ hl'
    intro _ _ _ _ h
    cases h
  refine ⟨(value_linearizeWith haffine hl').1, dupFree_linearizeWith ?_ hl'⟩
  intro _ _ _ _ h
  cases h

theorem dupFree_intervalProduct (h : intervalProduct bounds fieldFn lhs rhs = .ok l) :
    l.DupFree := by
  unfold intervalProduct at h
  dsimp only at h
  split at h
  · cases h
    exact Linear.dupFree_constantOnly _
  · cases h

theorem dupFree_linearizeBounded (h : linearizeBounded bounds fieldFn e = .ok (l, approx)) :
    l.DupFree :=
  dupFree_linearizeWith (fun _ _ _ _ => dupFree_intervalProduct) h

theorem holds_sub_iff {pre s : State} {diff : Linear}
    (hl : value pre s lhs = some (l.eval σ)) (hr : value pre s rhs = some (r.eval σ))
    (hdiff : (l.sub r : Result String _) = .ok diff) :
    Constraint.Holds σ ⟨diff, rel⟩ ↔
      ∃ x y, value pre s lhs = some x ∧ value pre s rhs = some y ∧ rel.Compares x y := by
  rw [Constraint.Holds, Linear.eval_sub hdiff, Relation.holds_sub, hl, hr]
  simp

theorem compare_eq_ok (h : compare fieldFn rel lhs rhs = .ok c) :
    (c.Holds σ ↔ ∃ x y, value (stateAt σ preField) (stateAt σ fieldFn) lhs = some x ∧
      value (stateAt σ preField) (stateAt σ fieldFn) rhs = some y ∧ rel.Compares x y) ∧
      c.lin.Proper := by
  obtain ⟨l, hl, h⟩ := bind_eq_ok.mp h
  obtain ⟨r, hr, h⟩ := bind_eq_ok.mp h
  obtain ⟨diff, hdiff, h⟩ := bind_eq_ok.mp h
  cases h
  exact ⟨holds_sub_iff (linearize_eq_ok hl).1 (linearize_eq_ok hr).1 hdiff,
    Linear.proper_sub (linearize_eq_ok (σ := σ) hl).2 hdiff⟩

theorem compareBounded_proper (h : compareBounded bounds fieldFn rel lhs rhs = .ok (c, approx)) :
    c.lin.Proper := by
  obtain ⟨⟨l, approxL⟩, hl, h⟩ := bind_eq_ok.mp h
  obtain ⟨⟨r, approxR⟩, hr, h⟩ := bind_eq_ok.mp h
  obtain ⟨diff, hdiff, h⟩ := bind_eq_ok.mp h
  cases h
  exact Linear.proper_sub (dupFree_linearizeBounded hl) hdiff

theorem compareBounded_holds (hlhs : lhs.affine = true) (hrhs : rhs.affine = true)
    (h : compareBounded bounds fieldFn rel lhs rhs = .ok (c, approx)) :
    c.Holds σ ↔ ∃ x y, value (stateAt σ preField) (stateAt σ fieldFn) lhs = some x ∧
      value (stateAt σ preField) (stateAt σ fieldFn) rhs = some y ∧ rel.Compares x y := by
  obtain ⟨⟨l, approxL⟩, hl, h⟩ := bind_eq_ok.mp h
  obtain ⟨⟨r, approxR⟩, hr, h⟩ := bind_eq_ok.mp h
  obtain ⟨diff, hdiff, h⟩ := bind_eq_ok.mp h
  cases h
  exact holds_sub_iff (value_linearizeWith hlhs hl).1 (value_linearizeWith hrhs hr).1 hdiff

end Linear

/-! ### Conditions -/

section Conditions

variable {fieldFn : Naming} {σ : String → Int} {e : Expr} {bounds : VarBounds} {approx : Bool}
  {dnf : Dnf Constraint} {cs : List Constraint}

theorem holds_toConstraintsBoundedDnf (haffine : e.affine = true)
    (h : toConstraintsBoundedDnf bounds fieldFn e = .ok (dnf, approx)) :
    dnf.Holds (Constraint.Holds σ) ↔ Means (stateAt σ preField) (stateAt σ fieldFn) e := by
  induction e using Expr.operatorInduction generalizing dnf approx with
  | bin op lhs rhs ihl ihr =>
    have hparts := Expr.affine_bin haffine
    have hcompare : ∀ rel, (compareBounded bounds fieldFn rel lhs rhs >>= fun p =>
        .ok ([[p.1]], p.2)) = (.ok (dnf, approx) : Result String _) →
        (dnf.Holds (Constraint.Holds σ) ↔
          ∃ x y, value (stateAt σ preField) (stateAt σ fieldFn) lhs = some x ∧
            value (stateAt σ preField) (stateAt σ fieldFn) rhs = some y ∧ rel.Compares x y) := by
      intro rel h
      obtain ⟨⟨c, approxC⟩, hc, h⟩ := bind_eq_ok.mp h
      cases h
      rw [Dnf.holds_singleton, List.forall_mem_singleton]
      exact compareBounded_holds hparts.1 hparts.2 hc
    cases op with
    | or =>
      obtain ⟨⟨left, approxL⟩, hleft, h⟩ := bind_eq_ok.mp h
      obtain ⟨⟨right, approxR⟩, hright, h⟩ := bind_eq_ok.mp h
      cases h
      rw [Dnf.holds_append, ihl hparts.1 hleft, ihr hparts.2 hright]
      exact Iff.rfl
    | and =>
      obtain ⟨⟨left, approxL⟩, hleft, h⟩ := bind_eq_ok.mp h
      obtain ⟨⟨right, approxR⟩, hright, h⟩ := bind_eq_ok.mp h
      cases h
      rw [combineDnf, Dnf.holds_conjoin, ihl hparts.1 hleft, ihr hparts.2 hright]
      exact Iff.rfl
    | eq | ne | lt | le | gt | ge => exact hcompare _ h
    | add | sub | mul | div => cases h
  | _ => cases h

theorem forall_toConstraintsBoundedDnf {Q : Constraint → Prop}
    (hcompare : ∀ rel lhs rhs c approx,
      compareBounded bounds fieldFn rel lhs rhs = .ok (c, approx) → Q c)
    (h : toConstraintsBoundedDnf bounds fieldFn e = .ok (dnf, approx)) :
    ∀ branch ∈ dnf, ∀ c ∈ branch, Q c := by
  induction e using Expr.operatorInduction generalizing dnf approx with
  | bin op lhs rhs ihl ihr =>
    cases op with
    | or =>
      obtain ⟨⟨left, approxL⟩, hleft, h⟩ := bind_eq_ok.mp h
      obtain ⟨⟨right, approxR⟩, hright, h⟩ := bind_eq_ok.mp h
      cases h
      exact List.forall_mem_append.mpr ⟨ihl hleft, ihr hright⟩
    | and =>
      obtain ⟨⟨left, approxL⟩, hleft, h⟩ := bind_eq_ok.mp h
      obtain ⟨⟨right, approxR⟩, hright, h⟩ := bind_eq_ok.mp h
      cases h
      exact Dnf.forall_conjoin (ihl hleft) (ihr hright)
    | eq | ne | lt | le | gt | ge =>
      obtain ⟨⟨c, approxC⟩, hc, h⟩ := bind_eq_ok.mp h
      cases h
      exact List.forall_mem_singleton.mpr
        (List.forall_mem_singleton.mpr (hcompare _ _ _ _ _ hc))
    | add | sub | mul | div => cases h
  | _ => cases h

theorem proper_toConstraintsBoundedDnf
    (h : toConstraintsBoundedDnf bounds fieldFn e = .ok (dnf, approx)) :
    ∀ branch ∈ dnf, Proper branch :=
  forall_toConstraintsBoundedDnf (fun _ _ _ _ _ => compareBounded_proper) h

/-- A condition that `toConstraintsBounded` takes is the one branch of its disjunctive form. -/
theorem toConstraintsBoundedDnf_of_conj
    (h : toConstraintsBounded bounds fieldFn e = .ok (cs, approx)) :
    toConstraintsBoundedDnf bounds fieldFn e = .ok ([cs], approx) := by
  induction e using Expr.operatorInduction generalizing cs approx with
  | bin op lhs rhs ihl ihr =>
    cases op with
    | and =>
      obtain ⟨⟨left, approxL⟩, hleft, h⟩ := bind_eq_ok.mp h
      obtain ⟨⟨right, approxR⟩, hright, h⟩ := bind_eq_ok.mp h
      cases h
      exact bind_eq_ok.mpr ⟨_, ihl hleft, bind_eq_ok.mpr ⟨_, ihr hright, rfl⟩⟩
    | eq | ne | lt | le | gt | ge =>
      obtain ⟨⟨c, approxC⟩, hc, h⟩ := bind_eq_ok.mp h
      cases h
      exact bind_eq_ok.mpr ⟨_, hc, rfl⟩
    | or | add | sub | mul | div => cases h
  | _ => cases h

theorem holds_toConstraintsBounded (haffine : e.affine = true)
    (h : toConstraintsBounded bounds fieldFn e = .ok (cs, approx)) :
    Satisfies σ cs ↔ Means (stateAt σ preField) (stateAt σ fieldFn) e :=
  Dnf.holds_singleton.symm.trans
    (holds_toConstraintsBoundedDnf haffine (toConstraintsBoundedDnf_of_conj h))

theorem proper_toConstraintsBounded
    (h : toConstraintsBounded bounds fieldFn e = .ok (cs, approx)) : Proper cs :=
  proper_toConstraintsBoundedDnf (toConstraintsBoundedDnf_of_conj h) cs (List.mem_singleton_self cs)

end Conditions

end Oikos.Telos
