/-
What the constraints of a condition and of its negation say of the branch that is taken,
for real numbers in place of the variables and of the magnitudes. The negation of a
conjunction asks for both operands to be false, and that of an equation for two strict
comparisons that exclude each other.
-/
import Oikos.Eidos.Valuation

namespace Oikos.Eidos

/-- Reals for the variables and for the texts of magnitudes, and what expressions of any
other form come to. -/
structure Reading where
  σ : String → ℝ
  number : Expr → Option ℝ
  truth : Expr → Option Bool

/-- What a comparison says of two numbers. -/
def BinOp.Compares : BinOp → ℝ → ℝ → Prop
  | .lt, x, y => x < y
  | .gt, x, y => y < x
  | .le, x, y => x ≤ y
  | .ge, x, y => y ≤ x
  | .eq, x, y => x = y
  | .ne, x, y => x ≠ y
  | _, _, _ => False

def BinOp.isComparison : BinOp → Bool
  | .lt | .gt | .le | .ge | .eq | .ne => true
  | _ => false

/-- The remainder of a division that is cut off towards zero. -/
noncomputable def remReal (x y : ℝ) : ℝ :=
  if 0 ≤ x / y then x - y * ⌊x / y⌋ else x - y * ⌈x / y⌉

noncomputable def BinOp.arith (op : BinOp) (x y other : Option ℝ) : Option ℝ :=
  match op, x, y with
  | .add, some x, some y => some (x + y)
  | .sub, some x, some y => some (x - y)
  | .mul, some x, some y => some (x * y)
  | .div, some x, some y => if y = 0 then none else some (x / y)
  | .rem, some x, some y => if y = 0 then none else some (remReal x y)
  | _, _, _ => other

open Classical in
/-- The comparison of two numbers, or else something other. -/
noncomputable def BinOp.decides (op : BinOp) (x y : Option ℝ) (other : Option Bool) : Option Bool :=
  match op.isComparison, x, y with
  | true, some x, some y => some (decide (op.Compares x y))
  | _, _, _ => other

namespace Reading

variable (r : Reading) (p : Platform)

/-- The number that an expression comes to. -/
noncomputable def real : Expr → Option ℝ
  | .num n => if n.isFinite then some n.value else none
  | .var v => some (r.σ v)
  | .un .neg a => (real a).map (-·)
  | .bin op a b => op.arith (real a) (real b) (r.number (.bin op a b))
  | .method recv name args =>
    if name = "magnitude" ∧ args.isEmpty then some (r.σ (exprToString p (.method recv name args)))
    else r.number (.method recv name args)
  | e => r.number e

/-- Whether a condition is true; `&&` and `||` skip their second operand. -/
noncomputable def evaluate : Expr → Option Bool
  | .bool b => some b
  | .un .not a => (evaluate a).map not
  | .bin .and a b =>
    match evaluate a with
    | some true => evaluate b
    | x => x
  | .bin .or a b =>
    match evaluate a with
    | some false => evaluate b
    | x => x
  | .bin op a b => op.decides (r.real p a) (r.real p b) (r.truth (.bin op a b))
  | e => r.truth e

def BranchesHold (cond : Expr) : Prop :=
  (r.evaluate p cond = some true → Satisfies r.σ (pathConstraints p cond)) ∧
    (r.evaluate p cond = some false → ∀ cs, negateConstraints p cond = some cs →
      Satisfies r.σ cs)

end Reading

/-! ### The comparisons behind the constraints -/

/-- What is said of the operands of each comparison that a condition is read for. -/
def AlongPath (Q : BinOp → Expr → Expr → Prop) : Expr → Prop
  | .bin .and a b => AlongPath Q a ∧ AlongPath Q b
  | .bin op a b => op.rel.isSome = true → Q op a b
  | _ => True

/-- What is said of the comparisons that a negated condition is read for; those below a
`!` are read as they are. -/
def AlongNegation (Q N : BinOp → Expr → Expr → Prop) : Expr → Prop
  | .bin .and a b => AlongNegation Q N a ∧ AlongNegation Q N b
  | .bin op a b => op.isComparison = true → N op a b
  | .un .not a => AlongPath Q a
  | _ => True

/-- There is no negation. -/
def givesUp : Expr → Bool
  | .bin .and a b => givesUp a || givesUp b
  | .bin op _ _ => !op.isComparison
  | .un .not _ => false
  | _ => true

section Comparisons

variable {p : Platform} {σ : String → ℝ} {a b cond : Expr} {op : BinOp} {rel : Rel}

/-- Both sides have linear forms, and something is said of their difference and zero. -/
def Through (p : Platform) (σ : String → ℝ) (P : ℝ → ℝ → Prop) (a b : Expr) : Prop :=
  ∀ la lb, linearize p a = some la → linearize p b = some lb → P ((la.sub lb).eval σ) 0

def ReadsTrue (p : Platform) (σ : String → ℝ) (op : BinOp) (a b : Expr) : Prop :=
  Through p σ op.Compares a b

def ReadsFalse (p : Platform) (σ : String → ℝ) (op : BinOp) (a b : Expr) : Prop :=
  Through p σ (fun x y => op ≠ .eq ∧ ¬op.Compares x y) a b

theorem constraint_holds_iff (rel : Rel) (e : LinExpr) :
    Constraint.Holds σ ⟨rel, e⟩ ↔ rel.Relates (e.eval σ) 0 := by
  cases rel <;> exact Iff.rfl

theorem satisfies_cmp : Satisfies σ (cmp p a b rel) ↔ Through p σ rel.Relates a b := by
  unfold cmp Through
  cases ha : linearize p a with
  | none => simp [Satisfies]
  | some la =>
    cases hb : linearize p b with
    | none => simp [Satisfies]
    | some lb =>
      simp only [Satisfies, List.forall_mem_singleton, constraint_holds_iff]
      constructor
      · rintro h la' lb' hla hlb
        cases hla
        cases hlb
        exact h
      · exact fun h => h la lb rfl rfl

theorem relates_of_rel (h : op.rel = some rel) : rel.Relates = op.Compares := by
  cases op <;> cases h <;> rfl

theorem relates_of_negRel (h : op.negRel = some rel) (x y : ℝ) :
    rel.Relates x y ↔ op ≠ .eq ∧ ¬op.Compares x y := by
  cases op <;> cases h <;> simp [Rel.Relates, BinOp.Compares]

theorem satisfies_pathConstraints :
    Satisfies σ (pathConstraints p cond) ↔ AlongPath (ReadsTrue p σ) cond := by
  fun_induction pathConstraints p cond with
  | case1 a b iha ihb => rw [AlongPath, satisfies_append, iha, ihb]
  | case2 op a b hand rel hrel =>
    rw [AlongPath, satisfies_cmp, relates_of_rel hrel, hrel]
    · simp [ReadsTrue]
    · exact hand
  | case3 op a b hand hrel =>
    rw [AlongPath, hrel]
    · simp [Satisfies]
    · exact hand
  | case4 e hand hbin =>
    have htrivial : AlongPath (ReadsTrue p σ) e := by
      unfold AlongPath
      split
      · next a b => exact absurd rfl (hand a b)
      · next op a b _ => exact absurd rfl (hbin op a b)
      · trivial
    simp [Satisfies, htrivial]

/-- The two strict comparisons of a negated equation exclude each other. -/
theorem satisfies_negated_eq :
    Satisfies σ (cmp p a b .lt ++ cmp p a b .gt) ↔ ReadsFalse p σ .eq a b := by
  rw [satisfies_append, satisfies_cmp, satisfies_cmp]
  constructor
  · rintro ⟨hlt, hgt⟩ la lb hla hlb
    exact absurd (hlt la lb hla hlb) (lt_asymm (hgt la lb hla hlb))
  · intro h
    exact ⟨fun la lb hla hlb => absurd rfl (h la lb hla hlb).1,
      fun la lb hla hlb => absurd rfl (h la lb hla hlb).1⟩

theorem satisfies_negated (hneg : op.negRel = some rel) :
    Satisfies σ (cmp p a b rel) ↔ ReadsFalse p σ op a b := by
  rw [satisfies_cmp, ReadsFalse, Through, Through]
  simp only [relates_of_negRel hneg]

theorem negateConstraints_eq_none : negateConstraints p cond = none ↔ givesUp cond = true := by
  fun_induction negateConstraints p cond with
  | case1 a b iha ihb =>
    rw [givesUp, Bool.or_eq_true, ← iha, ← ihb]
    cases negateConstraints p a <;> cases negateConstraints p b <;> simp
  | case9 e h1 h2 h3 h4 h5 h6 h7 h8 =>
    refine ⟨fun _ => ?_, fun _ => rfl⟩
    unfold givesUp
    split <;> first | rfl | simp_all
    next op a b _ =>
      cases op <;> first | rfl | simp_all
  | _ => simp [givesUp, BinOp.isComparison]

theorem alongNegation_comparison {Q N : BinOp → Expr → Expr → Prop}
    (hop : op.isComparison = true) : AlongNegation Q N (.bin op a b) ↔ N op a b := by
  rw [AlongNegation, hop]
  · simp
  · rintro rfl
    cases hop

theorem satisfies_negateConstraints {cs : List Constraint}
    (h : negateConstraints p cond = some cs) :
    Satisfies σ cs ↔ AlongNegation (ReadsTrue p σ) (ReadsFalse p σ) cond := by
  fun_induction negateConstraints p cond generalizing cs with
  | case1 a b iha ihb =>
    obtain ⟨na, hna, h⟩ := Option.bind_eq_some_iff.mp h
    obtain ⟨nb, hnb, h⟩ := Option.bind_eq_some_iff.mp h
    cases h
    rw [AlongNegation, satisfies_append, iha hna, ihb hnb]
  | case6 a b =>
    cases h
    exact satisfies_negated_eq.trans (alongNegation_comparison rfl).symm
  | case8 a =>
    cases h
    exact satisfies_pathConstraints
  | case9 => cases h
  | _ =>
    cases h
    refine Iff.trans ?_ (alongNegation_comparison rfl).symm
    exact satisfies_negated rfl

theorem branchesHold_iff {r : Reading} :
    r.BranchesHold p cond ↔
      (r.evaluate p cond = some true → AlongPath (ReadsTrue p r.σ) cond) ∧
        (r.evaluate p cond = some false →
          givesUp cond = true ∨ AlongNegation (ReadsTrue p r.σ) (ReadsFalse p r.σ) cond) := by
  rw [Reading.BranchesHold, satisfies_pathConstraints, ← negateConstraints_eq_none (p := p)]
  refine and_congr_right fun _ => imp_congr_right fun _ => ?_
  cases h : negateConstraints p cond with
  | none => simp
  | some cs => simp [satisfies_negateConstraints h]

end Comparisons

/-! ### Without loss to rounding -/

section Lossless

variable {r : Reading} {p : Platform} {a b cond : Expr} {op : BinOp}

/-- The literals that a linear form is made of are numbers. -/
def FiniteLiterals : Expr → Prop
  | .num n => n.isFinite = true
  | .un _ a => FiniteLiterals a
  | .bin _ a b => FiniteLiterals a ∧ FiniteLiterals b
  | _ => True

/-- The linear forms of both sides, and their difference, lose nothing to rounding. -/
def LosslessPair (p : Platform) (a b : Expr) : Prop :=
  (Exact p a ∧ FiniteLiterals a) ∧ (Exact p b ∧ FiniteLiterals b) ∧
    ∀ la lb, linearize p a = some la → linearize p b = some lb → la.AddsExactly lb.neg

/-- No comparison of a condition loses anything to rounding. -/
def Lossless (p : Platform) : Expr → Prop
  | .bin .and a b => Lossless p a ∧ Lossless p b
  | .bin op a b => op.isComparison = true → LosslessPair p a b
  | .un .not a => Lossless p a
  | _ => True

theorem value_ne_zero_of_lt {k : F64} (hk : k.isFinite = true)
    (h : F64.lt ⟨0x3D719799812DEA11⟩ k.abs = true) : k.value ≠ 0 := by
  intro hzero
  rw [F64.value, if_pos hk, mul_eq_zero, mul_eq_zero] at hzero
  have hmantissa : k.mantissa = 0 := by
    rcases hzero with (hsign | hmantissa) | hpow
    · split at hsign <;> norm_num at hsign
    · exact Nat.cast_eq_zero.mp hmantissa
    · exact absurd hpow (zpow_ne_zero _ two_ne_zero)
  have hbits : k.bits.toNat % 2 ^ 63 = 0 := by
    rw [F64.mantissa, F64.exponentBits, F64.fraction] at hmantissa
    split at hmantissa <;> omega
  have habs : k.abs = ⟨0⟩ := by
    rw [F64.abs, hbits]
    rfl
  rw [habs] at h
  revert h
  decide

theorem real_of_linearize {e : Expr} {l : LinExpr} (hl : linearize p e = some l)
    (hexact : Exact p e) (hfinite : FiniteLiterals e) : r.real p e = some (l.eval r.σ) := by
  fun_induction linearize p e generalizing l with
  | case1 n =>
    have hn : n.isFinite = true := hfinite
    cases hl
    rw [Reading.real, if_pos hn, LinExpr.eval_ofConstant]
  | case2 x =>
    cases hl
    rw [Reading.real, LinExpr.eval_var]
  | case3 a ih =>
    obtain ⟨la, hla, rfl⟩ := Option.map_eq_some_iff.mp hl
    rw [Reading.real, ih hla hexact hfinite, LinExpr.eval_neg]
    rfl
  | case4 op a b iha ihb =>
    have hbin : linearize p (.bin op a b) = some l := by
      rw [linearize]
      exact hl
    obtain ⟨la, lb, hla, hlb, hshape⟩ := linearize_bin hbin
    obtain ⟨hexacta, hexactb, hexacts⟩ := hexact
    obtain ⟨hadd, hsub, hmul, hmul', hdiv⟩ := hexacts la lb hla hlb
    have hx := iha hla hexacta hfinite.1
    have hy := ihb hlb hexactb hfinite.2
    have hnum : ∀ {k : F64} {lk : LinExpr}, linearize p (.num k) = some lk →
        lk.eval r.σ = k.value := by
      intro k lk h
      cases h
      exact LinExpr.eval_ofConstant k
    rw [Reading.real, hx, hy]
    rcases hshape with ⟨rfl, rfl⟩ | ⟨rfl, rfl⟩ | ⟨k, rfl, rfl, rfl⟩ | ⟨k, rfl, rfl, rfl⟩ |
      ⟨k, rfl, rfl, hlt, rfl⟩
    · rw [hadd rfl, BinOp.arith]
    · rw [LinExpr.eval_sub (hsub rfl), BinOp.arith]
    · rw [hmul k rfl rfl, hnum hla, mul_comm, BinOp.arith]
    · rw [hmul' k rfl rfl, hnum hlb, BinOp.arith]
    · have hk : (k.value : ℝ) ≠ 0 := Rat.cast_ne_zero.mpr (value_ne_zero_of_lt hfinite.2 hlt)
      rw [hdiv k rfl rfl, hnum hlb, BinOp.arith, if_neg hk, Rat.cast_inv, div_eq_mul_inv]
  | case5 recv name args hmagnitude =>
    cases hl
    rw [Reading.real, if_pos hmagnitude, LinExpr.eval_var]
  | case6 => cases hl
  | case7 => cases hl

/-- Both sides of a comparison have linear forms. -/
def Linear (p : Platform) (a b : Expr) : Prop :=
  (linearize p a).isSome = true ∧ (linearize p b).isSome = true

def IsTrue (r : Reading) (p : Platform) (op : BinOp) (a b : Expr) : Prop :=
  Linear p a b → r.evaluate p (.bin op a b) = some true

def IsFalse (r : Reading) (p : Platform) (op : BinOp) (a b : Expr) : Prop :=
  Linear p a b → op ≠ .eq ∧ r.evaluate p (.bin op a b) = some false

theorem decides_eq_some (hop : op.isComparison = true) (x y : ℝ) (other : Option Bool) (t : Bool) :
    op.decides (some x) (some y) other = some t ↔ (op.Compares x y ↔ t = true) := by
  rw [BinOp.decides]
  · cases t <;> simp
  · exact hop

theorem evaluate_comparison (hop : op.isComparison = true) {x y : ℝ} (hx : r.real p a = some x)
    (hy : r.real p b = some y) (t : Bool) :
    r.evaluate p (.bin op a b) = some t ↔ (op.Compares x y ↔ t = true) := by
  rw [Reading.evaluate, hx, hy]
  · exact decides_eq_some hop x y _ t
  · rintro rfl
    cases hop
  · rintro rfl
    cases hop

theorem compares_sub (x y : ℝ) : op.Compares (x - y) 0 ↔ op.Compares x y := by
  cases op <;> simp [BinOp.Compares, sub_eq_zero]

theorem through_iff (h : LosslessPair p a b) {P : ℝ → ℝ → Prop} {Q : Prop}
    (hPQ : ∀ x y, r.real p a = some x → r.real p b = some y → (P (x - y) 0 ↔ Q)) :
    Through p r.σ P a b ↔ (Linear p a b → Q) := by
  obtain ⟨⟨hexacta, hfinitea⟩, ⟨hexactb, hfiniteb⟩, hsub⟩ := h
  have heval : ∀ la lb, linearize p a = some la → linearize p b = some lb →
      (P ((la.sub lb).eval r.σ) 0 ↔ Q) := by
    intro la lb hla hlb
    rw [LinExpr.eval_sub (hsub la lb hla hlb)]
    exact hPQ _ _ (real_of_linearize hla hexacta hfinitea) (real_of_linearize hlb hexactb hfiniteb)
  constructor
  · rintro h ⟨ha, hb⟩
    obtain ⟨la, hla⟩ := Option.isSome_iff_exists.mp ha
    obtain ⟨lb, hlb⟩ := Option.isSome_iff_exists.mp hb
    exact (heval la lb hla hlb).mp (h la lb hla hlb)
  · intro h la lb hla hlb
    exact (heval la lb hla hlb).mpr (h ⟨by rw [hla]; rfl, by rw [hlb]; rfl⟩)

theorem readsTrue_iff (hop : op.isComparison = true) (h : LosslessPair p a b) :
    ReadsTrue p r.σ op a b ↔ IsTrue r p op a b := by
  refine through_iff h fun x y hx hy => ?_
  rw [compares_sub, evaluate_comparison hop hx hy]
  simp

theorem readsFalse_iff (hop : op.isComparison = true) (h : LosslessPair p a b) :
    ReadsFalse p r.σ op a b ↔ IsFalse r p op a b := by
  refine through_iff h fun x y hx hy => ?_
  rw [compares_sub, evaluate_comparison hop hx hy]
  simp

theorem isComparison_of_rel (h : op.rel.isSome = true) : op.isComparison = true := by
  cases op <;> first | rfl | cases h

theorem alongPath_reads : (cond : Expr) → Lossless p cond →
    (AlongPath (ReadsTrue p r.σ) cond ↔ AlongPath (IsTrue r p) cond)
  | .bin op a b, h => by
    have hleaf : op ≠ .and → (AlongPath (ReadsTrue p r.σ) (.bin op a b) ↔
        AlongPath (IsTrue r p) (.bin op a b)) := by
      intro hand
      rw [AlongPath, AlongPath]
      · refine imp_congr_right fun hrel => readsTrue_iff (isComparison_of_rel hrel) ?_
        rw [Lossless] at h
        · exact h (isComparison_of_rel hrel)
        · exact hand
      · exact hand
      · exact hand
    by_cases hand : op = .and
    · subst hand
      exact and_congr (alongPath_reads a h.1) (alongPath_reads b h.2)
    · exact hleaf hand
  | .num _, _ | .bool _, _ | .var _, _ | .arrayLit _, _ | .un _ _, _ | .ifThen _ _ _, _
  | .letIn _ _ _, _ | .call _ _, _ | .method _ _ _, _ | .lambda _ _, _ | .record _, _
  | .cast _ _, _ | .ret _, _ => Iff.rfl

theorem alongNegation_reads : (cond : Expr) → Lossless p cond →
    (AlongNegation (ReadsTrue p r.σ) (ReadsFalse p r.σ) cond ↔
      AlongNegation (IsTrue r p) (IsFalse r p) cond)
  | .bin op a b, h => by
    by_cases hand : op = .and
    · subst hand
      exact and_congr (alongNegation_reads a h.1) (alongNegation_reads b h.2)
    · rw [AlongNegation, AlongNegation]
      · refine imp_congr_right fun hop => readsFalse_iff hop ?_
        rw [Lossless] at h
        · exact h hop
        · exact hand
      · exact hand
      · exact hand
  | .un .not a, h => alongPath_reads a h
  | .un .neg _, _ => Iff.rfl
  | .num _, _ | .bool _, _ | .var _, _ | .arrayLit _, _ | .ifThen _ _ _, _ | .letIn _ _ _, _
  | .call _ _, _ | .method _ _ _, _ | .lambda _ _, _ | .record _, _ | .cast _ _, _
  | .ret _, _ => Iff.rfl

theorem evaluate_and {t : Bool} (h : r.evaluate p (.bin .and a b) = some t) (ht : t = true) :
    r.evaluate p a = some true ∧ r.evaluate p b = some true := by
  subst ht
  rw [Reading.evaluate] at h
  split at h
  · next ha => exact ⟨ha, h⟩
  · next hne => exact absurd h hne

theorem alongPath_of_true : (cond : Expr) → r.evaluate p cond = some true →
    AlongPath (IsTrue r p) cond
  | .bin op a b, h => by
    by_cases hand : op = .and
    · subst hand
      obtain ⟨ha, hb⟩ := evaluate_and h rfl
      exact ⟨alongPath_of_true a ha, alongPath_of_true b hb⟩
    · rw [AlongPath]
      · exact fun _ _ => h
      · exact hand
  | .num _, _ | .bool _, _ | .var _, _ | .arrayLit _, _ | .un _ _, _ | .ifThen _ _ _, _
  | .letIn _ _ _, _ | .call _ _, _ | .method _ _ _, _ | .lambda _ _, _ | .record _, _
  | .cast _ _, _ | .ret _, _ => trivial

theorem branchesHold_of_lossless (h : Lossless p cond) :
    r.BranchesHold p cond ↔ (r.evaluate p cond = some false →
      givesUp cond = true ∨ AlongNegation (IsTrue r p) (IsFalse r p) cond) := by
  rw [branchesHold_iff, alongPath_reads cond h, alongNegation_reads cond h]
  exact and_iff_right (alongPath_of_true cond)

/-- The branches of a condition start from what is true where its comparisons are read
right, which is exact; and where nothing is lost to rounding, that is a matter of the
second branch and of the truth of the comparisons alone. -/
theorem branches_iff (p : Platform) (r : Reading) (cond : Expr) :
    (r.BranchesHold p cond ↔
      (r.evaluate p cond = some true → AlongPath (ReadsTrue p r.σ) cond) ∧
        (r.evaluate p cond = some false →
          givesUp cond = true ∨ AlongNegation (ReadsTrue p r.σ) (ReadsFalse p r.σ) cond)) ∧
      (Lossless p cond → (r.BranchesHold p cond ↔ (r.evaluate p cond = some false →
        givesUp cond = true ∨ AlongNegation (IsTrue r p) (IsFalse r p) cond))) :=
  ⟨branchesHold_iff, branchesHold_of_lossless⟩

end Lossless

theorem order_addsExactly : (LinExpr.var "a").AddsExactly (LinExpr.var "b").neg := by
  intro σ
  have hentries : ((LinExpr.var "a").add (LinExpr.var "b").neg).coeffs.entries =
      [("a", ⟨0x3FF0000000000000⟩), ("b", ⟨0xBFF0000000000000⟩)] := by decide +kernel
  have hconstant : ((LinExpr.var "a").add (LinExpr.var "b").neg).constant.value = 0 := by
    decide +kernel
  have hminus : (⟨0xBFF0000000000000⟩ : F64).value = -1 := by decide +kernel
  rw [LinExpr.eval, OrdMap.sum, hentries, hconstant, LinExpr.eval_neg, LinExpr.eval_var,
    LinExpr.eval_var]
  simp [value_one, hminus]

/-- `if a < b`, with `1` for `a` and `0` for `b`. -/
theorem branches_of_order :
    Reading.BranchesHold ⟨fun v => if v = "a" then 1 else 0, fun _ => none, fun _ => none⟩ .plain
      (.bin .lt (.var "a") (.var "b")) := by
  have hlossless : Lossless .plain (.bin .lt (.var "a") (.var "b")) := fun _ =>
    ⟨⟨trivial, trivial⟩, ⟨trivial, trivial⟩, by rintro _ _ ⟨⟩ ⟨⟩; exact order_addsExactly⟩
  refine ((branches_iff _ _ _).2 hlossless).mpr fun hfalse => Or.inr fun _ _ => ?_
  exact ⟨nofun, hfalse⟩

/-- The second branch of `if a == b`, with `1` for `a` and `0` for `b`. -/
theorem equation_branch_contradictory : ∃ r : Reading, ∃ cond : Expr, ∀ p,
    r.evaluate p cond = some false ∧ ∃ cs, negateConstraints p cond = some cs ∧
      ¬∃ σ : String → ℝ, Satisfies σ cs := by
  refine ⟨⟨fun v => if v = "a" then 1 else 0, fun _ => none, fun _ => none⟩,
    .bin .eq (.var "a") (.var "b"), fun p => ⟨?_, _, rfl, ?_⟩⟩
  · rw [evaluate_comparison rfl rfl rfl]
    simp [BinOp.Compares]
  · rintro ⟨σ, hσ⟩
    exact absurd rfl (satisfies_negated_eq.mp hσ _ _ rfl rfl).1

end Oikos.Eidos
