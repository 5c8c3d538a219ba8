/-
Linear forms and the values of expressions: where nothing is lost to rounding and no
text stands for two expressions, the values of the variables and of the magnitudes
give a linear form the value of its expression.
-/
import Oikos.Eidos.Facts

namespace Oikos.Eidos

open List

/-! ### Linear forms over the reals -/

namespace LinExpr

variable {σ : String → ℝ} {e e' : LinExpr} {k : F64}

theorem eval_ofConstant (n : F64) : (ofConstant n).eval σ = n.value := by
  rw [eval, ofConstant, OrdMap.sum_empty, zero_add]

theorem eval_var (v : String) : (var v).eval σ = σ v := by
  have hzero : (⟨0⟩ : F64).value = 0 := F64.value_of_isZero rfl
  rw [eval, var, hzero]
  change (map (fun q : String × F64 => (q.2.value : ℝ) * σ q.1)
    [(v, ⟨0x3FF0000000000000⟩)]).sum + _ = σ v
  simp [value_one]

theorem eval_neg : e.neg.eval σ = -e.eval σ := by
  have hterm : ∀ (k : String) (v : F64), (v.neg.value : ℝ) * σ k = -((v.value : ℝ) * σ k) := by
    intro k v
    rw [F64.value_neg, Rat.cast_neg, neg_mul]
  rw [eval, neg, OrdMap.sum_map]
  simp only [hterm]
  rw [OrdMap.sum_neg, F64.value_neg, Rat.cast_neg, eval, neg_add]

/-- The sum loses nothing to rounding. -/
def AddsExactly (e e' : LinExpr) : Prop :=
  ∀ σ : String → ℝ, (e.add e').eval σ = e.eval σ + e'.eval σ

/-- The multiple, which is to be by `q`, loses nothing to rounding. -/
def ScalesExactly (e : LinExpr) (k : F64) (q : ℚ) : Prop :=
  ∀ σ : String → ℝ, (e.scale k).eval σ = e.eval σ * q

theorem eval_sub (h : e.AddsExactly e'.neg) : (e.sub e').eval σ = e.eval σ - e'.eval σ := by
  rw [sub, h σ, eval_neg, sub_eq_add_neg]

end LinExpr

/-! ### Expressions whose linear forms are exact -/

section Exact

variable (p : Platform)

/-- No sum and no multiple in the linear form of the expression loses anything to
rounding. -/
def Exact : Expr → Prop
  | .un _ a => Exact a
  | .bin op a b =>
    Exact a ∧ Exact b ∧ ∀ la lb, linearize p a = some la → linearize p b = some lb →
      (op = .add → la.AddsExactly lb) ∧ (op = .sub → la.AddsExactly lb.neg) ∧
      (∀ k, op = .mul → a = .num k → lb.ScalesExactly k k.value) ∧
      (∀ k, op = .mul → b = .num k → la.ScalesExactly k k.value) ∧
      ∀ k, op = .div → b = .num k →
        la.ScalesExactly (F64.div ⟨0x3FF0000000000000⟩ k) k.value⁻¹
  | _ => True

/-- The variables and magnitudes that a linear form is made of. -/
def leaves : Expr → List Expr
  | .var v => [.var v]
  | .un _ a => leaves a
  | .bin _ a b => leaves a ++ leaves b
  | .method recv name args => [.method recv name args]
  | _ => []

/-- No text stands for two of the expressions. -/
def Faithful (es : List Expr) : Prop :=
  ∀ e ∈ es, ∀ e' ∈ es, exprToString p e = exprToString p e' → e = e'

end Exact

variable {p : Platform}

theorem linearize_bin {op : BinOp} {a b : Expr} {l : LinExpr}
    (h : linearize p (.bin op a b) = some l) :
    ∃ la lb, linearize p a = some la ∧ linearize p b = some lb ∧
      (op = .add ∧ l = la.add lb ∨ op = .sub ∧ l = la.sub lb ∨
        (∃ k, op = .mul ∧ a = .num k ∧ l = lb.scale k) ∨
        (∃ k, op = .mul ∧ b = .num k ∧ l = la.scale k) ∨
        ∃ k, op = .div ∧ b = .num k ∧ F64.lt ⟨0x3D719799812DEA11⟩ k.abs = true ∧
          l = la.scale (F64.div ⟨0x3FF0000000000000⟩ k)) := by
  rw [linearize] at h
  obtain ⟨la, ha, h⟩ := Option.bind_eq_some_iff.mp h
  obtain ⟨lb, hb, h⟩ := Option.bind_eq_some_iff.mp h
  refine ⟨la, lb, ha, hb, ?_⟩
  split at h
  · cases h
    exact Or.inl ⟨rfl, rfl⟩
  · cases h
    exact Or.inr (Or.inl ⟨rfl, rfl⟩)
  · split at h
    · cases h
      exact Or.inr (Or.inr (Or.inl ⟨_, rfl, rfl, rfl⟩))
    · cases h
      exact Or.inr (Or.inr (Or.inr (Or.inl ⟨_, rfl, rfl, rfl⟩)))
    · cases h
  · split at h
    · split at h
      · next hlt =>
        cases h
        exact Or.inr (Or.inr (Or.inr (Or.inr ⟨_, rfl, rfl, hlt, rfl⟩)))
      · cases h
    · cases h
  · cases h

section Values

variable {funs : List Fun} {methods : Value → String → List Value → Option Value} {ρ : Env}
  {σ : String → ℝ}

/-- The assignment gives the text of an expression the value of the expression. -/
def Assigns (p : Platform) (funs : List Fun)
    (methods : Value → String → List Value → Option Value) (ρ : Env) (σ : String → ℝ) (e : Expr) :
    Prop :=
  ∀ v, Evaluates funs methods ρ e v → σ (exprToString p e) = v.toReal

theorem reals_of_arithmetic {op : BinOp} {va vb v : Value}
    (hop : op = .add ∨ op = .sub ∨ op = .mul ∨ op = .div) (h : applyBin op va vb = some v) :
    ∃ x y, va = .real x ∧ vb = .real y := by
  rcases hop with rfl | rfl | rfl | rfl <;> cases va <;> cases vb <;>
    first | exact ⟨_, _, rfl, rfl⟩ | cases h

theorem eval_linearize_bin {op : BinOp} {a b : Expr} {l : LinExpr} {v : Value}
    (hl : linearize p (.bin op a b) = some l) (hexact : Exact p (.bin op a b))
    (hv : Evaluates funs methods ρ (.bin op a b) v)
    (iha : ∀ la va, linearize p a = some la → Evaluates funs methods ρ a va →
      la.eval σ = va.toReal)
    (ihb : ∀ lb vb, linearize p b = some lb → Evaluates funs methods ρ b vb →
      lb.eval σ = vb.toReal) :
    l.eval σ = v.toReal := by
  obtain ⟨la, lb, hla, hlb, hshape⟩ := linearize_bin hl
  obtain ⟨_, _, hexacts⟩ := hexact
  obtain ⟨hadd, hsub, hmul, hmul', hdiv⟩ := hexacts la lb hla hlb
  have harith : op = .add ∨ op = .sub ∨ op = .mul ∨ op = .div := by
    rcases hshape with ⟨h, _⟩ | ⟨h, _⟩ | ⟨k, h, _⟩ | ⟨k, h, _⟩ | ⟨k, h, _⟩ <;> simp [h]
  have hand : op ≠ .and := by
    rintro rfl
    simp at harith
  have hor : op ≠ .or := by
    rintro rfl
    simp at harith
  obtain ⟨va, vb, ha, hb, happly⟩ := evaluates_comparison hand hor hv
  obtain ⟨x, y, rfl, rfl⟩ := reals_of_arithmetic harith happly
  have hx : la.eval σ = x := iha la _ hla ha
  have hy : lb.eval σ = y := ihb lb _ hlb hb
  rcases hshape with ⟨rfl, rfl⟩ | ⟨rfl, rfl⟩ | ⟨k, rfl, rfl, rfl⟩ | ⟨k, rfl, rfl, rfl⟩ |
    ⟨k, rfl, rfl, _, rfl⟩
  · cases happly
    rw [hadd rfl σ, hx, hy]
    rfl
  · cases happly
    rw [LinExpr.eval_sub (hsub rfl), hx, hy]
    rfl
  · cases happly
    have hk : x = k.value := by
      have := evaluates_num ha
      cases this
      rfl
    rw [hmul k rfl rfl σ, hy, ← hk, mul_comm]
    rfl
  · cases happly
    have hk : y = k.value := by
      have := evaluates_num hb
      cases this
      rfl
    rw [hmul' k rfl rfl σ, hx, ← hk]
    rfl
  · have hk : y = k.value := by
      have := evaluates_num hb
      cases this
      rfl
    rw [applyBin] at happly
    split at happly
    · cases happly
    · cases happly
      rw [hdiv k rfl rfl σ, hx, Rat.cast_inv, ← hk]
      exact (div_eq_mul_inv x y).symm

theorem eval_linearize {e : Expr} {l : LinExpr} {v : Value} (hl : linearize p e = some l)
    (hexact : Exact p e) (hσ : ∀ leaf ∈ leaves e, Assigns p funs methods ρ σ leaf)
    (hv : Evaluates funs methods ρ e v) : l.eval σ = v.toReal := by
  fun_induction linearize p e generalizing l v with
  | case1 n =>
    cases hl
    rw [LinExpr.eval_ofConstant, evaluates_num hv]
    rfl
  | case2 x =>
    cases hl
    rw [LinExpr.eval_var]
    exact hσ _ (mem_singleton.mpr rfl) v hv
  | case3 a ih =>
    obtain ⟨la, hla, rfl⟩ := Option.map_eq_some_iff.mp hl
    obtain ⟨va, ha, happly⟩ := evaluates_un hv
    rw [LinExpr.eval_neg, ih hla hexact hσ ha]
    cases va with
    | real x =>
      cases happly
      rfl
    | _ => cases happly
  | case4 op a b iha ihb =>
    have hbin : linearize p (.bin op a b) = some l := by
      rw [linearize]
      exact hl
    refine eval_linearize_bin hbin hexact hv (fun la va hla ha => ?_) fun lb vb hlb hb => ?_
    · exact iha hla hexact.1 (fun leaf h => hσ leaf (mem_append_left _ h)) ha
    · exact ihb hlb hexact.2.1 (fun leaf h => hσ leaf (mem_append_right _ h)) hb
  | case5 recv name args hmagnitude =>
    cases hl
    rw [LinExpr.eval_var]
    exact hσ _ (mem_singleton.mpr rfl) v hv
  | case6 => cases hl
  | case7 => cases hl

/-! ### Facts and constraints -/

variable (funs methods ρ) in
/-- Where no text stands for two of the expressions, one assignment gives all of their
texts the values of the expressions. -/
theorem exists_assigns {es : List Expr} (h : Faithful p es) :
    ∃ σ : String → ℝ, ∀ e ∈ es, Assigns p funs methods ρ σ e := by
  have hvalue : ∀ k : String, ∃ x : ℝ, ∀ e ∈ es, exprToString p e = k →
      ∀ v, Evaluates funs methods ρ e v → x = v.toReal := by
    intro k
    by_cases hk : ∃ e ∈ es, exprToString p e = k ∧ ∃ v, Evaluates funs methods ρ e v
    · obtain ⟨e, he, hek, v, hv⟩ := hk
      refine ⟨v.toReal, fun e' he' hek' w hw => ?_⟩
      have heq : e = e' := h e he e' he' (hek.trans hek'.symm)
      rw [hv.unique (heq ▸ hw)]
    · exact ⟨0, fun e he hek v hv => absurd ⟨e, he, hek, v, hv⟩ hk⟩
  choose σ hσ using hvalue
  exact ⟨σ, fun e he v hv => hσ _ e he rfl v hv⟩

/-- The linear forms of a fact, and their difference, lose nothing to rounding. -/
def Fact.Exact (f : Fact p) : Prop :=
  Eidos.Exact p f.a ∧ Eidos.Exact p f.b ∧ f.la.AddsExactly f.lb.neg

def Fact.leaves (f : Fact p) : List Expr :=
  Eidos.leaves f.a ++ Eidos.leaves f.b

theorem Fact.Holds.constraint {f : Fact p} (h : f.Holds funs methods ρ) (hexact : f.Exact)
    (hσ : ∀ leaf ∈ f.leaves, Assigns p funs methods ρ σ leaf) : f.constraint.Holds σ := by
  obtain ⟨va, vb, ha, hb, hrel⟩ := h
  obtain ⟨hexacta, hexactb, hsub⟩ := hexact
  have hla : f.la.eval σ = va.toReal :=
    eval_linearize f.linearize_a hexacta (fun leaf h => hσ leaf (mem_append_left _ h)) ha
  have hlb : f.lb.eval σ = vb.toReal :=
    eval_linearize f.linearize_b hexactb (fun leaf h => hσ leaf (mem_append_right _ h)) hb
  have heval : f.constraint.e.eval σ = va.toReal - vb.toReal := by
    rw [Fact.constraint, LinExpr.eval_sub hsub, hla, hlb]
  rw [Constraint.Holds, heval, Fact.constraint]
  cases hr : f.rel <;> rw [hr] at hrel <;> dsimp only
  case le => exact sub_nonpos.mpr hrel
  case lt => exact sub_neg.mpr hrel
  case ge => exact sub_nonneg.mpr hrel
  case gt => exact sub_pos.mpr hrel
  case eq => exact sub_eq_zero.mpr hrel

theorem not_zero_of_checkDivision {c : Checker} {facts : List (Fact c.platform)} {e : Expr}
    {kind : String} (hok : (c.checkDivision e (facts.map Fact.constraint) kind).ok = true)
    (hfacts : ∀ f ∈ facts, f.Holds funs methods ρ) (hexact : ∀ f ∈ facts, f.Exact)
    (hexacte : Exact c.platform e)
    (hfaithful : Faithful c.platform (leaves e ++ facts.flatMap Fact.leaves)) :
    ¬Evaluates funs methods ρ e (.real 0) := by
  intro hzero
  obtain ⟨σ, hσ⟩ := exists_assigns funs methods ρ hfaithful
  unfold Checker.checkDivision at hok
  split at hok
  · next d hd =>
    split at hok
    · next hunsat =>
      refine not_satisfies_of_unsat (σ := σ) hunsat
        (satisfies_append.mpr ⟨?_, satisfies_singleton.mpr ?_⟩)
      · intro con hcon
        obtain ⟨f, hf, rfl⟩ := mem_map.mp hcon
        exact (hfacts f hf).constraint (hexact f hf) fun leaf hleaf =>
          hσ leaf (mem_append_right _ (mem_flatMap.mpr ⟨f, hf, hleaf⟩))
      · exact eval_linearize hd hexacte
          (fun leaf hleaf => hσ leaf (mem_append_left _ hleaf)) hzero
    · cases hok
  · cases hok

end Values

end Oikos.Eidos
