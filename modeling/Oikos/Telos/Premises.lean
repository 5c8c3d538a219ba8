/-
What is in the problems of a function: where their premises and conclusions come from,
and that the terms of all constraints are proper.
-/
import Oikos.Telos.Meaning
import Oikos.Telos.Paths

namespace Oikos.Telos

open List

/-! ### Induction over conditions -/

def Expr.connective : Expr → Bool
  | .bin _ _ _ | .ifThen _ _ _ | .matchOn _ _ | .forAll _ _ _ _ => true
  | _ => false

/-- Induction along the recursion that lowers a condition: the body of a `forall` is
lowered once for each number. -/
theorem conditionInduction {motive : Expr → Prop} {A : List (Pattern × Expr) → Prop}
    (leaf : ∀ e, e.connective = false → motive e)
    (bin : ∀ op lhs rhs, motive lhs → motive rhs → motive (.bin op lhs rhs))
    (ifThen : ∀ condition thenExpr elseExpr, motive condition → motive thenExpr →
      motive elseExpr → motive (.ifThen condition thenExpr elseExpr))
    (matchOn : ∀ scrutinee as, A as → motive (.matchOn scrutinee as))
    (forAll : ∀ v ty domain body, motive body → (∀ i, motive (instantiateForall v body i)) →
      motive (.forAll v ty domain body))
    (nil : A []) (cons : ∀ p e as, motive e → A as → A ((p, e) :: as)) (n : Nat) :
    (∀ e : Expr, e.height < n → motive e) ∧ ∀ as, heightArms as < n → A as := by
  induction n with
  | zero => exact ⟨fun _ h => absurd h (Nat.not_lt_zero _), fun _ h => absurd h (Nat.not_lt_zero _)⟩
  | succ n ih =>
    obtain ⟨ihe, iha⟩ := ih
    refine ⟨fun e he => ?_, fun as has => ?_⟩
    · cases e with
      | bin op lhs rhs =>
        rw [Expr.height] at he
        exact bin op lhs rhs (ihe lhs (by omega)) (ihe rhs (by omega))
      | ifThen condition thenExpr elseExpr =>
        rw [Expr.height] at he
        exact ifThen _ _ _ (ihe _ (by omega)) (ihe _ (by omega)) (ihe _ (by omega))
      | matchOn scrutinee as =>
        rw [Expr.height] at he
        exact matchOn _ _ (iha as (by omega))
      | forAll v ty domain body =>
        have hbody : body.height < n := by
          cases domain <;> rw [Expr.height] at he <;> omega
        refine forAll _ _ _ _ (ihe body hbody) fun i => ihe _ ?_
        rwa [instantiateForall, height_substituteVar]
      | _ => exact leaf _ rfl
    · cases as with
      | nil => exact nil
      | cons arm as =>
        obtain ⟨p, e⟩ := arm
        rw [heightArms] at has
        exact cons p e as (ihe e (by omega)) (iha as (by omega))

/-! ### Lowering as a relation -/

inductive LowersTo (fieldFn : Naming) : Expr → Dnf Constraint → Prop
  | or {lhs rhs left right} (hl : LowersTo fieldFn lhs left) (hr : LowersTo fieldFn rhs right) :
      LowersTo fieldFn (.bin .or lhs rhs) (left ++ right)
  | and {lhs rhs left right} (hl : LowersTo fieldFn lhs left) (hr : LowersTo fieldFn rhs right) :
      LowersTo fieldFn (.bin .and lhs rhs) (left.conjoin right)
  | compare {op rel lhs rhs c} (hrel : relationOf op = some rel)
      (h : Telos.compare fieldFn rel lhs rhs = .ok c) : LowersTo fieldFn (.bin op lhs rhs) [[c]]
  | ifThen {condition thenExpr elseExpr cond then_ else_} (hc : LowersTo fieldFn condition cond)
      (ht : LowersTo fieldFn thenExpr then_) (he : LowersTo fieldFn elseExpr else_) :
      LowersTo fieldFn (.ifThen condition thenExpr elseExpr) (cond.conjoin then_ ++ else_)
  | noArm {scrutinee arms} : LowersTo fieldFn (.matchOn scrutinee arms) [[]]
  | matchOn {scrutinee} {arms : List (Pattern × Expr)} (part : Expr → Dnf Constraint)
      (h : ∀ arm ∈ arms, LowersTo fieldFn arm.2 (part arm.2)) :
      LowersTo fieldFn (.matchOn scrutinee arms) (arms.flatMap fun arm => part arm.2)
  | forAll {v ty lo hi body a b} {loMessage hiMessage : String}
      (hlo : constBound lo loMessage = .ok a)
      (hhi : constBound hi hiMessage = .ok b) (part : Int → Dnf Constraint)
      (h : ∀ i ∈ rangeInts a b, LowersTo fieldFn (instantiateForall v body i) (part i)) :
      LowersTo fieldFn (.forAll v ty (some (.range lo hi)) body)
        ((rangeInts a b).foldl (fun combined i => combined.conjoin (part i)) [[]])
  | aggregate {op args} : LowersTo fieldFn (.aggregate op args) [[]]

section Lowers

variable {fieldFn : Naming} {e : Expr} {dnf : Dnf Constraint}

theorem rangeInts_eq_nil {a b : Int} (h : b ≤ a) : rangeInts a b = [] := by
  have hzero : (b - a).toNat = 0 := by omega
  rw [rangeInts, hzero, range_zero, map_nil]

theorem foldlM_conjoin {f : Int → Result String (Dnf Constraint)} {is : List Int}
    {start : Dnf Constraint}
    (h : is.foldlM (fun combined i => do
      let branch ← f i
      .ok (combineDnf combined branch)) start = .ok dnf) :
    ∃ part : Int → Dnf Constraint, (∀ i ∈ is, f i = .ok (part i)) ∧
      dnf = is.foldl (fun combined i => combined.conjoin (part i)) start := by
  refine ⟨fun i => match f i with | .ok branch => branch | .error _ => [], ?_⟩
  induction is generalizing start with
  | nil =>
    cases h
    simp
  | cons i is ih =>
    rw [foldlM_cons] at h
    obtain ⟨next, hnext, h⟩ := bind_eq_ok.mp h
    obtain ⟨branch, hbranch, hnext⟩ := bind_eq_ok.mp hnext
    cases hnext
    obtain ⟨hall, hdnf⟩ := ih h
    refine ⟨forall_mem_cons.mpr ⟨by simp only [hbranch], hall⟩, ?_⟩
    rw [hdnf, foldl_cons]
    simp only [hbranch, combineDnf]

theorem lowersTo_of_leaf (he : e.connective = false) (h : toConstraintsDnf fieldFn e = .ok dnf) :
    LowersTo fieldFn e dnf := by
  rw [toConstraintsDnf.eq_def] at h
  cases e with
  | aggregate op args =>
    dsimp only at h
    unfold aggregateDnf at h
    split at h
    · obtain ⟨lo, _, h⟩ := bind_eq_ok.mp h
      obtain ⟨hi, _, h⟩ := bind_eq_ok.mp h
      split at h
      · cases h
        exact .aggregate
      · obtain ⟨_, _, h⟩ := bind_eq_ok.mp h
        cases h
    · cases h
  | bin | ifThen | matchOn | forAll => cases he
  | _ => cases h

theorem lowersTo_of_bin {op : BinOp} {lhs rhs : Expr}
    (ihl : ∀ dnf, toConstraintsDnf fieldFn lhs = .ok dnf → LowersTo fieldFn lhs dnf)
    (ihr : ∀ dnf, toConstraintsDnf fieldFn rhs = .ok dnf → LowersTo fieldFn rhs dnf)
    (h : toConstraintsDnf fieldFn (.bin op lhs rhs) = .ok dnf) :
    LowersTo fieldFn (.bin op lhs rhs) dnf := by
  rw [toConstraintsDnf.eq_def] at h
  cases op with
  | or =>
    obtain ⟨left, hleft, h⟩ := bind_eq_ok.mp h
    obtain ⟨right, hright, h⟩ := bind_eq_ok.mp h
    cases h
    exact .or (ihl left hleft) (ihr right hright)
  | and =>
    obtain ⟨left, hleft, h⟩ := bind_eq_ok.mp h
    obtain ⟨right, hright, h⟩ := bind_eq_ok.mp h
    cases h
    exact .and (ihl left hleft) (ihr right hright)
  | eq | ne | lt | le | gt | ge =>
    obtain ⟨c, hc, h⟩ := bind_eq_ok.mp h
    cases h
    exact .compare rfl hc
  | add | sub | mul | div => cases h

theorem lowersTo_of_forAll {v : Name} {ty : Ty} {domain : Option Expr} {body : Expr}
    (ih : ∀ i dnf, toConstraintsDnf fieldFn (instantiateForall v body i) = .ok dnf →
      LowersTo fieldFn (instantiateForall v body i) dnf)
    (h : toConstraintsDnf fieldFn (.forAll v ty domain body) = .ok dnf) :
    LowersTo fieldFn (.forAll v ty domain body) dnf := by
  rw [toConstraintsDnf.eq_def] at h
  cases domain with
  | none => cases h
  | some domain =>
    cases domain with
    | range lo hi =>
      obtain ⟨a, ha, h⟩ := bind_eq_ok.mp h
      obtain ⟨b, hb, h⟩ := bind_eq_ok.mp h
      split at h
      · next hle =>
        cases h
        have hnil := rangeInts_eq_nil hle
        have hall : ∀ i ∈ rangeInts a b, LowersTo fieldFn (instantiateForall v body i) [] := by
          simp [hnil]
        have hlowers : LowersTo fieldFn (.forAll v ty (some (.range lo hi)) body) _ :=
          .forAll ha hb (fun _ => []) hall
        rwa [hnil] at hlowers
      · obtain ⟨part, hpart, rfl⟩ := foldlM_conjoin h
        exact .forAll ha hb part fun i hi => ih i _ (hpart i hi)
    | _ => cases h

/-- The branches that an expression is lowered to, if it is. -/
def loweredDnf (fieldFn : Naming) (e : Expr) : Dnf Constraint :=
  match toConstraintsDnf fieldFn e with
  | .ok dnf => dnf
  | .error _ => []

theorem lowersTo_of_toConstraintsDnf (h : toConstraintsDnf fieldFn e = .ok dnf) :
    LowersTo fieldFn e dnf := by
  refine (conditionInduction
    (motive := fun e => ∀ dnf, toConstraintsDnf fieldFn e = .ok dnf → LowersTo fieldFn e dnf)
    (A := fun as => ∀ dnf, armsDnf fieldFn as = .ok dnf →
      (∀ arm ∈ as, LowersTo fieldFn arm.2 (loweredDnf fieldFn arm.2)) ∧
        dnf = as.flatMap fun arm => loweredDnf fieldFn arm.2)
    (fun e he dnf h => lowersTo_of_leaf he h)
      (fun op lhs rhs ihl ihr dnf h => lowersTo_of_bin ihl ihr h)
    ?ifThen ?matchOn (fun v ty domain body _ ih dnf h => lowersTo_of_forAll ih h) ?nil ?cons
    (e.height + 1)).1 e (Nat.lt_succ_self _) dnf h
  case ifThen =>
    intro condition thenExpr elseExpr ihc iht ihe dnf h
    rw [toConstraintsDnf.eq_def] at h
    obtain ⟨cond, hcond, h⟩ := bind_eq_ok.mp h
    obtain ⟨then_, hthen, h⟩ := bind_eq_ok.mp h
    obtain ⟨else_, helse, h⟩ := bind_eq_ok.mp h
    cases h
    exact .ifThen (ihc cond hcond) (iht then_ hthen) (ihe else_ helse)
  case matchOn =>
    intro scrutinee as ih dnf h
    rw [toConstraintsDnf.eq_def] at h
    obtain ⟨out, hout, h⟩ := bind_eq_ok.mp h
    split at h
    · cases h
      exact .noArm
    · cases h
      obtain ⟨hpart, rfl⟩ := ih _ hout
      exact .matchOn _ hpart
  case nil =>
    intro dnf h
    rw [armsDnf.eq_def] at h
    cases h
    simp
  case cons =>
    intro p e as ihe iha dnf h
    rw [armsDnf.eq_def] at h
    obtain ⟨branch, hbranch, h⟩ := bind_eq_ok.mp h
    obtain ⟨rest, hrest, h⟩ := bind_eq_ok.mp h
    cases h
    obtain ⟨hall, rfl⟩ := iha rest hrest
    have hlowered : loweredDnf fieldFn e = branch := by simp only [loweredDnf, hbranch]
    refine ⟨forall_mem_cons.mpr ⟨?_, hall⟩, by rw [flatMap_cons, hlowered]⟩
    rw [hlowered]
    exact ihe branch hbranch

theorem LowersTo.forall {Q : Constraint → Prop}
    (hcompare : ∀ rel lhs rhs c, Telos.compare fieldFn rel lhs rhs = .ok c → Q c)
    (h : LowersTo fieldFn e dnf) : ∀ branch ∈ dnf, ∀ c ∈ branch, Q c := by
  induction h with
  | or _ _ ihl ihr => exact forall_mem_append.mpr ⟨ihl, ihr⟩
  | and _ _ ihl ihr => exact Dnf.forall_conjoin ihl ihr
  | compare _ hc =>
    exact forall_mem_singleton.mpr (forall_mem_singleton.mpr (hcompare _ _ _ _ hc))
  | ifThen _ _ _ ihc iht ihe =>
    exact forall_mem_append.mpr ⟨Dnf.forall_conjoin ihc iht, ihe⟩
  | noArm | aggregate => simp
  | matchOn part _ ih =>
    intro branch hbranch
    obtain ⟨arm, harm, hbranch⟩ := mem_flatMap.mp hbranch
    exact ih arm harm branch hbranch
  | @forAll v ty lo hi body a b _ _ _ _ part _ ih =>
    have hfold : ∀ (is : List Int) (start : Dnf Constraint), (∀ i ∈ is, i ∈ rangeInts a b) →
        (∀ branch ∈ start, ∀ c ∈ branch, Q c) → ∀ branch ∈
          is.foldl (fun combined i => combined.conjoin (part i)) start, ∀ c ∈ branch, Q c := by
      intro is
      induction is with
      | nil => exact fun _ _ hstart => hstart
      | cons i is ihis =>
        intro start hmem hstart
        obtain ⟨hi, his⟩ := forall_mem_cons.mp hmem
        exact ihis _ his (Dnf.forall_conjoin hstart (ih i hi))
    exact hfold _ _ (fun _ h => h) (by simp)

theorem proper_toConstraintsDnf (h : toConstraintsDnf fieldFn e = .ok dnf) :
    ∀ branch ∈ dnf, Proper branch :=
  (lowersTo_of_toConstraintsDnf h).forall fun _ _ _ _ hc => (compare_eq_ok (σ := fun _ => 0) hc).2

theorem proper_toConstraints {cs : List Constraint} (h : toConstraints fieldFn e = .ok cs) :
    Proper cs := by
  obtain ⟨dnf, hdnf, h⟩ := bind_eq_ok.mp h
  split at h
  · cases h
    exact proper_toConstraintsDnf hdnf _ (mem_singleton_self _)
  · cases h

end Lowers

/-! ### Premises -/

section Premises

variable {debug : Expr → String} {fieldFn : Naming} {t : Tables} {func : Func}
  {params : List Param} {cs : List Constraint} {b : BodyBranch}

/-- What holds at the start and is kept by every element holds after a loop. -/
theorem foldlM_preserve {A S : Type} {f : S → A → Result String S} {P : S → Prop}
    (hstep : ∀ s a s', P s → f s a = .ok s' → P s') {as : List A} {s s' : S} (hs : P s)
    (h : as.foldlM f s = .ok s') : P s' := by
  induction as generalizing s with
  | nil =>
    cases h
    exact hs
  | cons a as ih =>
    rw [foldlM_cons] at h
    obtain ⟨mid, hmid, h⟩ := bind_eq_ok.mp h
    exact ih (hstep s a mid hs hmid) h

theorem proper_requiresDnf {requires : List Expr} {dnf : Dnf Constraint}
    (h : requiresDnf requires = .ok dnf) : ∀ branch ∈ dnf, Proper branch := by
  refine foldlM_preserve (P := fun dnf : Dnf Constraint => ∀ branch ∈ dnf, Proper branch) ?_
    (by simp [Proper]) h
  intro dnf r dnf' hdnf h
  obtain ⟨branches, hbranches, h⟩ := bind_eq_ok.mp h
  cases h
  exact Dnf.forall_conjoin hdnf (proper_toConstraintsDnf hbranches)

theorem proper_calleeEnsures {callee : Func} {args : List Expr}
    (h : calleeEnsures fieldFn callee args = .ok cs) : Proper cs := by
  refine foldlM_preserve (P := Proper) ?_ (by simp [Proper]) h
  intro premises ensures premises' hpremises h
  obtain ⟨constraints, hconstraints, h⟩ := bind_eq_ok.mp h
  cases h
  exact forall_mem_append.mpr ⟨hpremises, proper_toConstraints hconstraints⟩

section Calls

variable {specs : String → Option Func}

mutual

theorem proper_collectCallEnsures : (e : Expr) → (acc out : List Constraint × List String) →
    collectCallEnsures specs fieldFn e acc = .ok out → Proper acc.1 → Proper out.1
  | .call callFunc args, (premises, visited), out, h, hacc => by
    rw [collectCallEnsures] at h
    split at h
    · cases h
      exact hacc
    · next callee _ =>
      obtain ⟨entered, hentered, h⟩ := bind_eq_ok.mp h
      refine proper_collectCallEnsuresAll args entered out h ?_
      split at hentered
      · cases hentered
        exact hacc
      · obtain ⟨more, hmore, hentered⟩ := bind_eq_ok.mp hentered
        cases hentered
        exact forall_mem_append.mpr ⟨hacc, proper_calleeEnsures hmore⟩
  | .methodCall receiver _ args, acc, out, h, hacc => by
    rw [collectCallEnsures] at h
    obtain ⟨mid, hmid, h⟩ := bind_eq_ok.mp h
    exact proper_collectCallEnsuresAll args mid out h
      (proper_collectCallEnsures receiver acc mid hmid hacc)
  | .bin _ lhs rhs, acc, out, h, hacc => by
    rw [collectCallEnsures] at h
    obtain ⟨mid, hmid, h⟩ := bind_eq_ok.mp h
    exact proper_collectCallEnsures rhs mid out h
      (proper_collectCallEnsures lhs acc mid hmid hacc)
  | .unary _ e, acc, out, h, hacc => by
    rw [collectCallEnsures] at h
    exact proper_collectCallEnsures e acc out h hacc
  | .old e, acc, out, h, hacc => by
    rw [collectCallEnsures] at h
    exact proper_collectCallEnsures e acc out h hacc
  | .ifThen condition thenExpr elseExpr, acc, out, h, hacc => by
    rw [collectCallEnsures] at h
    obtain ⟨mid, hmid, h⟩ := bind_eq_ok.mp h
    obtain ⟨mid', hmid', h⟩ := bind_eq_ok.mp h
    exact proper_collectCallEnsures elseExpr mid' out h
      (proper_collectCallEnsures thenExpr mid mid' hmid'
        (proper_collectCallEnsures condition acc mid hmid hacc))
  | .forAll _ _ _ body, acc, out, h, hacc => by
    rw [collectCallEnsures] at h
    exact proper_collectCallEnsures body acc out h hacc
  | .int _, acc, out, h, hacc | .var _, acc, out, h, hacc | .field _ _, acc, out, h, hacc
  | .index _ _, acc, out, h, hacc | .matchOn _ _, acc, out, h, hacc | .tryOn _, acc, out, h, hacc
  | .aggregate _ _, acc, out, h, hacc | .range _ _, acc, out, h, hacc => by
    rw [collectCallEnsures] at h
    · cases h
      exact hacc
    all_goals simp

theorem proper_collectCallEnsuresAll : (es : List Expr) →
    (acc out : List Constraint × List String) →
    collectCallEnsuresAll specs fieldFn es acc = .ok out → Proper acc.1 → Proper out.1
  | [], acc, out, h, hacc => by
    cases h
    exact hacc
  | e :: es, acc, out, h, hacc => by
    rw [collectCallEnsuresAll] at h
    obtain ⟨mid, hmid, h⟩ := bind_eq_ok.mp h
    exact proper_collectCallEnsuresAll es mid out h
      (proper_collectCallEnsures e acc mid hmid hacc)

end

end Calls

theorem proper_callPremises (h : callPremises t func = .ok cs) : Proper cs := by
  obtain ⟨acc, hacc, h⟩ := bind_eq_ok.mp h
  obtain ⟨⟨premises, visited⟩, hpremises, h⟩ := bind_eq_ok.mp h
  cases h
  exact proper_collectCallEnsuresAll _ _ _ hpremises
    (proper_collectCallEnsuresAll _ _ _ hacc (by simp [Proper]))

variable {c : Constraint}

theorem typeConstraints_eq_ok (h : typeConstraints params = .ok cs) (hc : c ∈ cs) :
    ∃ p ∈ params, "Positive".toList.isPrefixOf p.ty.name.toList = true ∧
      (∀ σ, c.Holds σ ↔ 1 ≤ σ p.name.text) ∧ c.lin.Proper := by
  obtain ⟨p, hp, h⟩ := exists_of_mem_mapM h hc
  obtain ⟨ge, hge, h⟩ := bind_eq_ok.mp h
  cases h
  obtain ⟨hmem, hpre⟩ := mem_filter.mp hp
  refine ⟨p, hmem, hpre, fun σ => ?_, Linear.proper_sub (Linear.dupFree_var _) hge⟩
  rw [Constraint.Holds, Linear.eval_sub hge, Linear.eval_var, Linear.eval_constantOnly,
    Relation.holds_sub, Relation.Compares]

theorem mem_invConstraints (h : invConstraints t params = .ok cs) (hc : c ∈ cs) :
    ∃ inv p, (inv, p) ∈ paramInvariants t params ∧ ∃ e ∈ inv.constraints, ∃ es,
      toConstraints preField (instantiate p.name e) = .ok es ∧ c ∈ es := by
  obtain ⟨all, hall, h⟩ := bind_eq_ok.mp h
  cases h
  obtain ⟨es, hes, hc⟩ := mem_flatten.mp hc
  obtain ⟨group, hgroup, hes⟩ := mem_flatten.mp hes
  obtain ⟨⟨inv, p⟩, hp, hgroup'⟩ := exists_of_mem_mapM hall hgroup
  obtain ⟨e, he, hes'⟩ := exists_of_mem_mapM hgroup' hes
  exact ⟨inv, p, hp, e, he, es, hes', hc⟩

theorem proper_invConstraints (h : invConstraints t params = .ok cs) : Proper cs := by
  intro c hc
  obtain ⟨inv, p, _, e, _, es, hes, hc⟩ := mem_invConstraints h hc
  exact proper_toConstraints hes c hc

theorem assignConstraint_eq_ok {a : Assign} {field : FieldRef}
    (h : assignConstraint debug fieldFn a = .ok (c, field)) :
    a.target = .field field.1 field.2 ∧ c.lin.Proper ∧ ∃ l, linearize fieldFn a.value = .ok l ∧
      ∀ σ, c.Holds σ ↔ σ (postField field.1.text field.2.text) =
        a.op.apply (σ (preField field.1.text field.2.text)) (l.eval σ) := by
  unfold assignConstraint at h
  split at h
  · next base f htarget =>
    obtain ⟨l, hl, h⟩ := bind_eq_ok.mp h
    obtain ⟨terms, hterms, h⟩ := bind_eq_ok.mp h
    cases h
    unfold assignTerms at hterms
    cases hop : a.op with
    | set =>
      rw [hop] at hterms
      refine ⟨htarget, Linear.proper_sub (Linear.dupFree_var _) hterms, l, hl, fun σ => ?_⟩
      rw [Constraint.Holds, Linear.eval_sub hterms, Linear.eval_var, Relation.Holds, sub_eq_zero,
        AssignOp.apply]
    | add =>
      rw [hop] at hterms
      obtain ⟨diff, hdiff, hterms⟩ := bind_eq_ok.mp hterms
      have hdup := Linear.dupFree_sub (Linear.dupFree_var _) hdiff
      refine ⟨htarget, Linear.proper_sub hdup hterms, l, hl, fun σ => ?_⟩
      rw [Constraint.Holds, Linear.eval_sub hterms, Linear.eval_sub hdiff, Linear.eval_var,
        Linear.eval_var, Relation.Holds, sub_sub, sub_eq_zero, AssignOp.apply]
    | sub =>
      rw [hop] at hterms
      obtain ⟨diff, hdiff, hterms⟩ := bind_eq_ok.mp hterms
      have hdup := Linear.dupFree_sub (Linear.dupFree_var _) hdiff
      refine ⟨htarget, Linear.proper_add hdup hterms, l, hl, fun σ => ?_⟩
      rw [Constraint.Holds, Linear.eval_add hterms, Linear.eval_sub hdiff, Linear.eval_var,
        Linear.eval_var, Relation.Holds, AssignOp.apply]
      dsimp only
      omega
  · cases h

/-- The comparison that the condition of an `if` is, and the one that its negation is. -/
theorem bodyCondition_eq_ok {condition : Expr} {diff : Linear} {rel : Relation}
    (h : bodyCondition fieldFn condition = .ok (diff, rel)) :
    diff.Proper ∧ ∀ σ,
      (Constraint.Holds σ ⟨diff, rel⟩ ↔
        Means (stateAt σ preField) (stateAt σ fieldFn) condition) ∧
      (Constraint.Holds σ ⟨diff, negateRelation rel⟩ ↔
        ¬Means (stateAt σ preField) (stateAt σ fieldFn) condition) := by
  unfold bodyCondition at h
  dsimp only at h
  split at h
  · next op lhs rhs =>
    split at h
    · next rel' hrel =>
      obtain ⟨l, hl, h⟩ := bind_eq_ok.mp h
      obtain ⟨r, hr, h⟩ := bind_eq_ok.mp h
      obtain ⟨diff', hdiff, h⟩ := bind_eq_ok.mp h
      cases h
      have hdup := (linearize_eq_ok (σ := fun _ => 0) hl).2
      refine ⟨Linear.proper_sub hdup hdiff, fun σ => ?_⟩
      have hmeans : Constraint.Holds σ ⟨diff, rel⟩ ↔
          Means (stateAt σ preField) (stateAt σ fieldFn) (.bin op lhs rhs) := by
        rw [holds_sub_iff (linearize_eq_ok hl).1 (linearize_eq_ok hr).1 hdiff]
        cases op <;> cases hrel <;> rfl
      refine ⟨hmeans, ?_⟩
      rw [← hmeans]
      cases rel <;> simp only [Constraint.Holds, negateRelation, Relation.Holds] <;> omega
    · cases h
  · cases h

/-- The constraints of a path are proper. -/
def BodyBranch.Proper (b : BodyBranch) : Prop :=
  Telos.Proper b.extraPremises ∧ Telos.Proper b.mutations

theorem Path.proper {stmts : List Stmt} {b' : BodyBranch} (h : Path debug fieldFn stmts b b')
    (hb : b.Proper) : b'.Proper := by
  refine h.preserves ?_ ?_ hb
  · intro a c field b hc hb
    exact ⟨hb.1, forall_mem_append.mpr
      ⟨hb.2, forall_mem_singleton.mpr (assignConstraint_eq_ok hc).2.1⟩⟩
  · intro condition diff rel b hcond hb
    have hdiff := (bodyCondition_eq_ok hcond).1
    exact ⟨⟨forall_mem_append.mpr ⟨hb.1, forall_mem_singleton.mpr hdiff⟩, hb.2⟩,
      ⟨forall_mem_append.mpr ⟨hb.1, forall_mem_singleton.mpr hdiff⟩, hb.2⟩⟩

theorem frameAxioms_eq_ok {fields : List FieldRef} (h : frameAxioms fields b = .ok cs)
    (hc : c ∈ cs) :
    ∃ f ∈ fields, f ∉ b.assigned ∧ c.lin.Proper ∧
      ∀ σ, c.Holds σ ↔ σ (postField f.1.text f.2.text) = σ (preField f.1.text f.2.text) := by
  obtain ⟨f, hf, h⟩ := exists_of_mem_mapM h hc
  obtain ⟨diff, hdiff, h⟩ := bind_eq_ok.mp h
  cases h
  obtain ⟨hmem, hassigned⟩ := mem_filter.mp hf
  refine ⟨f, hmem, by simpa using hassigned, Linear.proper_sub (Linear.dupFree_var _) hdiff,
    fun σ => ?_⟩
  rw [Constraint.Holds, Linear.eval_sub hdiff, Linear.eval_var, Linear.eval_var, Relation.holds_sub,
    Relation.Compares]

end Premises

/-! ### Problems -/

section Problems

variable {debug : Expr → String} {order : FieldOrder} {t : Tables} {func : Func}
  {problems : List VerificationProblem} {problem : VerificationProblem} {bounds : VarBounds}

/-- The parts that the problems of a function are put together from. -/
structure Parts (debug : Expr → String) (t : Tables) (func : Func) where
  requires : Dnf Constraint
  calls : List Constraint
  types : List Constraint
  invs : List Constraint
  branches : List BodyBranch
  hrequires : requiresDnf func.requires = .ok requires
  hcalls : callPremises t func = .ok calls
  htypes : typeConstraints func.params = .ok types
  hinvs : invConstraints t func.params = .ok invs
  hbranches : processBodyStmts debug preField func.body [.start] = .ok branches

def Parts.Premises (parts : Parts debug t func) (order : FieldOrder) (r : List Constraint)
    (b : BodyBranch) (premises : List Constraint) : Prop :=
  branchPremises (order.list (referencedFields t func))
    (r ++ parts.calls ++ parts.types ++ parts.invs)
    b = .ok premises

theorem buildProblems_eq_ok (h : buildProblems debug order t func = .ok problems) :
    ∃ parts : Parts debug t func,
      (∀ problem ∈ problems, ∃ r ∈ parts.requires, ∃ b ∈ parts.branches, ∃ premises funcName,
        parts.Premises order r b premises ∧ buildProblem t func funcName premises = .ok problem) ∧
      ∀ r ∈ parts.requires, ∀ b ∈ parts.branches, ∃ problem ∈ problems, ∃ premises funcName,
        parts.Premises order r b premises ∧
        buildProblem t func funcName premises = .ok problem := by
  obtain ⟨requires, hrequires, h⟩ := bind_eq_ok.mp h
  obtain ⟨calls, hcalls, h⟩ := bind_eq_ok.mp h
  obtain ⟨types, htypes, h⟩ := bind_eq_ok.mp h
  obtain ⟨invs, hinvs, h⟩ := bind_eq_ok.mp h
  obtain ⟨branches, hbranches, h⟩ := bind_eq_ok.mp h
  obtain ⟨combined, hcombined, h⟩ := bind_eq_ok.mp h
  refine ⟨⟨requires, calls, types, invs, branches, hrequires, hcalls, htypes, hinvs, hbranches⟩,
    fun problem hproblem => ?_, fun r hr b hb => ?_⟩
  · obtain ⟨⟨premises, idx⟩, hmem, hbuild⟩ := exists_of_mem_mapM h hproblem
    have hpremises := mem_of_getElem? (mem_zipIdx_iff_getElem?.mp hmem)
    obtain ⟨⟨r, b⟩, hrb, hpremises⟩ := exists_of_mem_mapM hcombined hpremises
    obtain ⟨hr, hb⟩ := mem_product.mp hrb
    exact ⟨r, hr, b, hb, premises, _, hpremises, hbuild⟩
  · obtain ⟨k, hk⟩ := getElem?_of_mem (mem_product.mpr ⟨hr, hb⟩)
    have hk : (requires.product branches)[k]? = some (r, b) := hk
    rcases mapM_getElem? hcombined k with ⟨hnone, _⟩ | ⟨rb, premises, hrb, hget, hpremises⟩
    · rw [hk] at hnone
      cases hnone
    · rw [hk] at hrb
      cases hrb
      have hzip : combined.zipIdx[k]? = some (premises, k) := by
        rw [getElem?_zipIdx, hget]
        simp
      rcases mapM_getElem? h k with ⟨hnone, _⟩ | ⟨p, problem, hp, hproblem, hbuild⟩
      · rw [hzip] at hnone
        cases hnone
      · rw [hzip] at hp
        cases hp
        exact ⟨problem, mem_of_getElem? hproblem, premises, _, hpremises, hbuild⟩

theorem Parts.premises_eq {parts : Parts debug t func} {r : List Constraint} {b : BodyBranch}
    {premises : List Constraint} (h : parts.Premises order r b premises) :
    ∃ frame, frameAxioms (order.list (referencedFields t func)) b = .ok frame ∧
      premises = r ++ parts.calls ++ parts.types ++ parts.invs ++ b.extraPremises ++ b.mutations ++
        frame := by
  obtain ⟨frame, hframe, h⟩ := bind_eq_ok.mp h
  cases h
  exact ⟨frame, hframe, rfl⟩

theorem Parts.proper {parts : Parts debug t func} {r : List Constraint} {b : BodyBranch}
    {premises : List Constraint} (hr : r ∈ parts.requires) (hb : b ∈ parts.branches)
    (h : parts.Premises order r b premises) : Proper premises := by
  obtain ⟨frame, hframe, rfl⟩ := parts.premises_eq h
  obtain ⟨b₀, hb₀, hpath⟩ := (mem_processBodyStmts _ _ _ parts.hbranches b).mp hb
  obtain rfl := mem_singleton.mp hb₀
  have hbranch : b.Proper := hpath.proper (by simp [BodyBranch.Proper, BodyBranch.start, Proper])
  have htypes : Proper parts.types := fun c hc => by
    obtain ⟨_, _, _, _, hdup⟩ := typeConstraints_eq_ok parts.htypes hc
    exact hdup
  have hframes : Proper frame := fun c hc => by
    obtain ⟨_, _, _, hdup, _⟩ := frameAxioms_eq_ok hframe hc
    exact hdup
  simp only [Proper, forall_mem_append]
  exact ⟨⟨⟨⟨⟨⟨proper_requiresDnf parts.hrequires r hr, proper_callPremises parts.hcalls⟩, htypes⟩,
    proper_invConstraints parts.hinvs⟩, hbranch.1⟩, hbranch.2⟩, hframes⟩

end Problems

end Oikos.Telos
