/-
Products that are replaced by the greatest product of the bounds of their factors: a
comparison that is lowered so still says enough where every product stands on the side on
which more is harder.
-/
import Oikos.Telos.Meaning
import Mathlib.Tactic.Linarith

namespace Oikos.Telos

/-! ### Collected bounds -/

section Bounds

variable {σ : String → Int} {bounds : VarBounds} {premises : List Constraint}

/-- A value lies between two bounds, as far as there are any. -/
def Between (lo hi : Option Int) (x : Int) : Prop :=
  (∀ a, lo = some a → a ≤ x) ∧ ∀ b, hi = some b → x ≤ b

def Bounded (σ : String → Int) (bounds : VarBounds) : Prop :=
  ∀ x lo hi, assocGet bounds x = some (lo, hi) → Between lo hi (σ x)

theorem between_lo {a x : Int} (h : a ≤ x) : Between (some a) none x := by
  refine ⟨?_, fun _ h => nomatch h⟩
  rintro _ ⟨⟩
  exact h

theorem between_hi {b x : Int} (h : x ≤ b) : Between none (some b) x := by
  refine ⟨fun _ h => (nomatch h), ?_⟩
  rintro _ ⟨⟩
  exact h

theorem between_boundsOf {coeff c x : Int} {rel : Relation} {lo hi : Option Int}
    (h : boundsOf coeff c rel = .ok (some (lo, hi))) (hx : rel.Holds (coeff * x + c)) :
    Between lo hi x := by
  unfold boundsOf at h
  split at h
  · next hone =>
    subst hone
    rw [one_mul] at hx
    cases rel with
    | ge =>
      obtain ⟨v, hv, h⟩ := bind_eq_ok.mp h
      cases h
      rw [i64_eq_ok hv]
      exact between_lo (by simp only [Relation.Holds] at hx; omega)
    | gt =>
      obtain ⟨v, hv, h⟩ := bind_eq_ok.mp h
      obtain ⟨w, hw, h⟩ := bind_eq_ok.mp h
      cases h
      rw [i64_eq_ok hw, i64_eq_ok hv]
      exact between_lo (by simp only [Relation.Holds] at hx; omega)
    | le =>
      obtain ⟨v, hv, h⟩ := bind_eq_ok.mp h
      cases h
      rw [i64_eq_ok hv]
      exact between_hi (by simp only [Relation.Holds] at hx; omega)
    | lt =>
      obtain ⟨v, hv, h⟩ := bind_eq_ok.mp h
      obtain ⟨w, hw, h⟩ := bind_eq_ok.mp h
      cases h
      rw [i64_eq_ok hw, i64_eq_ok hv]
      exact between_hi (by simp only [Relation.Holds] at hx; omega)
    | eq =>
      obtain ⟨v, hv, h⟩ := bind_eq_ok.mp h
      obtain ⟨w, hw, h⟩ := bind_eq_ok.mp h
      cases h
      rw [i64_eq_ok hw, i64_eq_ok hv]
      have heq : x = -c := by simp only [Relation.Holds] at hx; omega
      exact ⟨(between_lo (le_of_eq heq.symm)).1, (between_hi (le_of_eq heq)).2⟩
    | ne => cases h
  · split at h
    · next hneg =>
      subst hneg
      cases rel with
      | ge =>
        cases h
        exact between_hi (by simp only [Relation.Holds] at hx; omega)
      | gt =>
        obtain ⟨v, hv, h⟩ := bind_eq_ok.mp h
        cases h
        rw [i64_eq_ok hv]
        exact between_hi (by simp only [Relation.Holds] at hx; omega)
      | le =>
        cases h
        exact between_lo (by simp only [Relation.Holds] at hx; omega)
      | lt =>
        obtain ⟨v, hv, h⟩ := bind_eq_ok.mp h
        cases h
        rw [i64_eq_ok hv]
        exact between_lo (by simp only [Relation.Holds] at hx; omega)
      | eq => cases h
      | ne => cases h
    · cases h

theorem between_tighten {lo hi lo' hi' : Option Int} {x : Int} (h : Between lo hi x)
    (h' : Between lo' hi' x) : Between (tighten max lo lo') (tighten min hi hi') x := by
  constructor
  · intro a ha
    cases lo with
    | none =>
      cases lo' <;> exact h'.1 a ha
    | some old =>
      cases lo' with
      | none => exact h.1 a ha
      | some new =>
        cases ha
        exact max_le (h.1 old rfl) (h'.1 new rfl)
  · intro b hb
    cases hi with
    | none =>
      cases hi' <;> exact h'.2 b hb
    | some old =>
      cases hi' with
      | none => exact h.2 b hb
      | some new =>
        cases hb
        exact le_min (h.2 old rfl) (h'.2 new rfl)

theorem bounded_collectVarBound {c : Constraint} {bounds' : VarBounds}
    (h : collectVarBound bounds c = .ok bounds') (hbounds : Bounded σ bounds)
    (hc : c.Holds σ) : Bounded σ bounds' := by
  unfold collectVarBound at h
  split at h
  · next x coeff hterms =>
    have hx : c.rel.Holds (coeff * σ x + c.lin.constant) := by
      rw [Constraint.Holds, Linear.eval, hterms] at hc
      simpa using hc
    obtain ⟨found, hfound, h⟩ := bind_eq_ok.mp h
    cases found with
    | none =>
      cases h
      exact hbounds
    | some b =>
      obtain ⟨lo, hi⟩ := b
      have hnew : Between lo hi (σ x) := between_boundsOf hfound hx
      dsimp only at h
      split at h
      · next oldLo oldHi hold =>
        cases h
        intro y lo' hi' hget
        rw [assocGet_assocSet] at hget
        split at hget
        · next heq =>
          subst heq
          rw [hold] at hget
          cases hget
          exact between_tighten (hbounds _ _ _ hold) hnew
        · exact hbounds y lo' hi' hget
      · next hnone =>
        cases h
        intro y lo' hi' hget
        rw [assocGet_concat] at hget
        cases hold : assocGet bounds y with
        | some b =>
          rw [hold] at hget
          cases hget
          exact hbounds y lo' hi' hold
        | none =>
          rw [hold, Option.none_or] at hget
          split at hget
          · next heq =>
            subst heq
            cases hget
            exact hnew
          · cases hget
  · cases h
    exact hbounds

theorem bounded_foldlM {cs : List Constraint} {bounds' : VarBounds}
    (h : cs.foldlM collectVarBound bounds = .ok bounds') (hbounds : Bounded σ bounds)
    (hcs : Satisfies σ cs) : Bounded σ bounds' := by
  induction cs generalizing bounds with
  | nil =>
    cases h
    exact hbounds
  | cons c cs ih =>
    rw [List.foldlM_cons] at h
    obtain ⟨next, hnext, h⟩ := bind_eq_ok.mp h
    have hparts := List.forall_mem_cons.mp hcs
    exact ih h (bounded_collectVarBound hnext hbounds hparts.1) hparts.2

theorem bounded_collectVarBounds (h : collectVarBounds premises = .ok bounds)
    (hpremises : Satisfies σ premises) : Bounded σ bounds :=
  bounded_foldlM h (fun _ _ _ h => nomatch h) hpremises

end Bounds

/-! ### Products -/

section Products

variable {a b lo hi lo' hi' : Int}

theorem mul_le_max_mul (h : lo ≤ a) (h' : a ≤ hi) (b : Int) : a * b ≤ max (lo * b) (hi * b) := by
  rcases le_total 0 b with hb | hb
  · exact (mul_le_mul_of_nonneg_right h' hb).trans (le_max_right _ _)
  · exact (mul_le_mul_of_nonpos_right h hb).trans (le_max_left _ _)

/-- A product is at most the greatest product of bounds of its factors. -/
theorem mul_le_corners (ha : lo ≤ a) (ha' : a ≤ hi) (hb : lo' ≤ b) (hb' : b ≤ hi') :
    a * b ≤ max (max (lo * lo') (lo * hi')) (max (hi * lo') (hi * hi')) := by
  have hcorner : ∀ c : Int, c * b ≤ max (c * lo') (c * hi') := by
    intro c
    rw [mul_comm c b, mul_comm c lo', mul_comm c hi']
    exact mul_le_max_mul hb hb' c
  refine (mul_le_max_mul ha ha' b).trans (max_le ?_ ?_)
  · exact (hcorner lo).trans (le_max_left _ _)
  · exact (hcorner hi).trans (le_max_right _ _)

/-- Saturation at the greatest word is all that can take away from a product. -/
theorem le_saturatingMul (h : a * b ≤ 2 ^ 63 - 1) : a * b ≤ saturatingMul a b := by
  unfold saturatingMul
  omega

/-- The greatest product of the bounds of two variables is a word. -/
def CornersFit (bounds : VarBounds) (x y : String) : Prop :=
  ∀ lo hi lo' hi', lookupBounds bounds x = some (some lo, some hi) →
    lookupBounds bounds y = some (some lo', some hi') →
      lo * lo' ≤ 2 ^ 63 - 1 ∧ lo * hi' ≤ 2 ^ 63 - 1 ∧ hi * lo' ≤ 2 ^ 63 - 1 ∧ hi * hi' ≤ 2 ^ 63 - 1

def LooksUp (σ : String → Int) (bounds : VarBounds) (x : String) : Prop :=
  ∀ lo hi, lookupBounds bounds x = some (lo, hi) → Between lo hi (σ x)

theorem looksUp_of_own {σ : String → Int} {bounds : VarBounds} {x : String}
    (hbounds : Bounded σ bounds) (h : (assocGet bounds x).isSome = true) : LooksUp σ bounds x := by
  intro lo hi hlookup
  obtain ⟨own, hown⟩ := Option.isSome_iff_exists.mp h
  rw [lookupBounds, hown] at hlookup
  cases hlookup
  exact hbounds x lo hi hown

theorem value_exprVarName {σ : String → Int} {fieldFn : Naming} {e : Expr} {x : String}
    {pre : State}
    (h : exprVarName fieldFn e = some x) : value pre (stateAt σ fieldFn) e = some (σ x) := by
  cases e with
  | var v =>
    cases h
    rfl
  | field base f =>
    cases h
    rfl
  | _ => cases h

theorem intervalProduct_eq_ok {σ : String → Int} {bounds : VarBounds} {fieldFn : Naming}
    {lhs rhs : Expr} {l : Linear} {pre : State} (h : intervalProduct bounds fieldFn lhs rhs = .ok l)
    (hfactors : ∀ x y, exprVarName fieldFn lhs = some x → exprVarName fieldFn rhs = some y →
      LooksUp σ bounds x ∧ LooksUp σ bounds y ∧ CornersFit bounds x y) :
    ∃ m n, value pre (stateAt σ fieldFn) lhs = some m ∧ value pre (stateAt σ fieldFn) rhs = some n ∧
      m * n ≤ l.eval σ := by
  unfold intervalProduct at h
  dsimp only at h
  split at h
  · next lo hi lo' hi' hlhs hrhs =>
    cases h
    obtain ⟨x, hx, hlookupX⟩ := Option.bind_eq_some_iff.mp hlhs
    obtain ⟨y, hy, hlookupY⟩ := Option.bind_eq_some_iff.mp hrhs
    obtain ⟨hboundX, hboundY, hcorners⟩ := hfactors x y hx hy
    have hbetweenX := hboundX _ _ hlookupX
    have hbetweenY := hboundY _ _ hlookupY
    obtain ⟨h₁, h₂, h₃, h₄⟩ := hcorners lo hi lo' hi' hlookupX hlookupY
    refine ⟨σ x, σ y, value_exprVarName hx, value_exprVarName hy, ?_⟩
    rw [Linear.eval_constantOnly]
    refine (mul_le_corners (hbetweenX.1 lo rfl) (hbetweenX.2 hi rfl) (hbetweenY.1 lo' rfl)
      (hbetweenY.2 hi' rfl)).trans ?_
    exact max_le_max (max_le_max (le_saturatingMul h₁) (le_saturatingMul h₂))
      (max_le_max (le_saturatingMul h₃) (le_saturatingMul h₄))
  · cases h

end Products

/-! ### Sides -/

/-- The second value is not below the first (`up`), or not above it. -/
def Side (up : Bool) (m n : Int) : Prop :=
  if up then m ≤ n else n ≤ m

/-- The side that a factor or a divisor turns to another. -/
def flip (k : Int) (up : Bool) : Bool :=
  if 0 < k then up else !up

namespace Side

variable {up : Bool} {m n m' n' k : Int}

theorem refl (up : Bool) (m : Int) : Side up m m := by
  cases up <;> exact le_refl m

theorem eq (h : Side true m n) (h' : Side false m n) : m = n :=
  Int.le_antisymm h h'

theorem neg (h : Side (!up) m n) : Side up (-m) (-n) := by
  cases up <;> exact Int.neg_le_neg h

theorem add (h : Side up m n) (h' : Side up m' n') : Side up (m + m') (n + n') := by
  cases up <;> exact Int.add_le_add h h'

theorem sub (h : Side up m n) (h' : Side (!up) m' n') : Side up (m - m') (n - n') := by
  cases up <;> exact Int.sub_le_sub h h'

theorem mul (h : Side (flip k up) m n) : Side up (m * k) (n * k) := by
  unfold flip at h
  split at h
  · next hpos => cases up <;> exact mul_le_mul_of_nonneg_right h (le_of_lt hpos)
  · next hpos => cases up <;> exact mul_le_mul_of_nonpos_right h (not_lt.mp hpos)

theorem scale (leans : Bool → Bool) (h : (k == 0 || leans (flip k up)) = true)
    (hside : leans (flip k up) = true → Side (flip k up) m n) : Side up (m * k) (n * k) := by
  rcases Bool.or_eq_true_iff.mp h with hzero | hleans
  · rw [beq_iff_eq.mp hzero, mul_zero, mul_zero]
    exact .refl up 0
  · exact (hside hleans).mul

theorem tdiv (hk : k ≠ 0) (h : Side (flip k up) m (n * k)) : Side up (m.tdiv k) n := by
  have hexact : (n * k).tdiv k = n := Int.mul_tdiv_cancel n hk
  unfold flip at h
  split at h
  · next hpos =>
    cases up
    · have hle := Int.tdiv_le_tdiv hpos h
      rwa [hexact] at hle
    · have hle := Int.tdiv_le_tdiv hpos h
      rwa [hexact] at hle
  · next hpos =>
    have hneg : 0 < -k := by omega
    cases up
    · have hle := Int.tdiv_le_tdiv hneg h
      rw [Int.tdiv_neg, Int.tdiv_neg, hexact] at hle
      exact Int.neg_le_neg_iff.mp hle
    · have hle := Int.tdiv_le_tdiv hneg h
      rw [Int.tdiv_neg, Int.tdiv_neg, hexact] at hle
      exact Int.neg_le_neg_iff.mp hle

end Side

/-- The side of its linear form that an expression may lie on; of a product of unknowns the
form is never below. -/
def Expr.leans : Bool → Expr → Bool
  | up, .old e => e.leans up
  | up, .unary .neg e => e.leans !up
  | up, .bin op lhs rhs =>
    match op with
    | .add => lhs.leans up && rhs.leans up
    | .sub => lhs.leans up && rhs.leans !up
    | .mul =>
      match asInt rhs, asInt lhs with
      | some k, _ => k == 0 || lhs.leans (flip k up)
      | none, some k => k == 0 || rhs.leans (flip k up)
      | none, none => up
    | .div =>
      match asInt rhs with
      | some k => lhs.leans (flip k up)
      | none => true
    | _ => true
  | _, _ => true

/-- What is so of the variables of every product of unknowns. -/
def Expr.Factors (Q : String → String → Prop) : Naming → Expr → Prop
  | _, .old e => e.Factors Q preField
  | fieldFn, .unary _ e => e.Factors Q fieldFn
  | fieldFn, .bin op lhs rhs =>
    lhs.Factors Q fieldFn ∧ rhs.Factors Q fieldFn ∧
      (op = .mul → asInt lhs = none → asInt rhs = none →
        ∀ x y, exprVarName fieldFn lhs = some x → exprVarName fieldFn rhs = some y → Q x y)
  | _, _ => True

section Leaning

variable {σ : String → Int} {bounds : VarBounds} {fieldFn : Naming} {e : Expr} {l : Linear}
  {approx : Bool}

theorem side_linearizeBounded (h : linearizeBounded bounds fieldFn e = .ok (l, approx))
    (hfactors : e.Factors (fun x y => LooksUp σ bounds x ∧ LooksUp σ bounds y ∧
    CornersFit bounds x y)
      fieldFn) :
    ∃ n, value (stateAt σ preField) (stateAt σ fieldFn) e = some n ∧
      ∀ up, e.leans up = true → Side up n (l.eval σ) := by
  unfold linearizeBounded at h
  induction e using Expr.operatorInduction generalizing fieldFn l approx with
  | int n =>
    cases h
    exact ⟨n, rfl, fun up _ => by rw [Linear.eval_constantOnly]; exact .refl up n⟩
  | var v =>
    cases h
    exact ⟨σ v.text, rfl, fun up _ => by rw [Linear.eval_var]; exact .refl up _⟩
  | field b f =>
    cases h
    exact ⟨_, rfl, fun up _ => by rw [Linear.eval_var]; exact .refl up _⟩
  | old e ih => exact ih h hfactors
  | unary op e ih =>
    cases op
    obtain ⟨⟨l', approx'⟩, hl', h⟩ := bind_eq_ok.mp h
    obtain ⟨neg, hneg, h⟩ := bind_eq_ok.mp h
    cases h
    obtain ⟨n, hn, hside⟩ := ih hl' hfactors
    refine ⟨-n, by rw [value, hn]; rfl, fun up hup => ?_⟩
    rw [Linear.eval_neg hneg]
    exact (hside _ hup).neg
  | bin op lhs rhs ihl ihr =>
    obtain ⟨⟨l₁, approxL⟩, hl₁, h⟩ := bind_eq_ok.mp h
    obtain ⟨⟨l₂, approxR⟩, hl₂, h⟩ := bind_eq_ok.mp h
    obtain ⟨hfl, hfr, hproduct⟩ := hfactors
    obtain ⟨m, hm, hsideL⟩ := ihl hl₁ hfl
    obtain ⟨n, hn, hsideR⟩ := ihr hl₂ hfr
    have hvalue : ∀ r, op.arith m n = some r →
        value (stateAt σ preField) (stateAt σ fieldFn) (.bin op lhs rhs) = some r := by
      intro r hr
      rw [value, hm, hn, Option.bind_some, Option.bind_some, hr]
    cases op with
    | add =>
      obtain ⟨sum, hsum, h⟩ := bind_eq_ok.mp h
      cases h
      refine ⟨m + n, hvalue _ rfl, fun up hup => ?_⟩
      obtain ⟨hupL, hupR⟩ := Bool.and_eq_true_iff.mp hup
      rw [Linear.eval_add hsum]
      exact (hsideL up hupL).add (hsideR up hupR)
    | sub =>
      obtain ⟨diff, hdiff, h⟩ := bind_eq_ok.mp h
      cases h
      refine ⟨m - n, hvalue _ rfl, fun up hup => ?_⟩
      obtain ⟨hupL, hupR⟩ := Bool.and_eq_true_iff.mp hup
      rw [Linear.eval_sub hdiff]
      exact (hsideL up hupL).sub (hsideR _ hupR)
    | mul =>
      dsimp only at h
      split at h
      · next k hk =>
        obtain ⟨scaled, hscaled, h⟩ := bind_eq_ok.mp h
        cases h
        obtain rfl := asInt_eq_some hk
        obtain rfl : k = n := by simpa [value] using hn
        refine ⟨m * k, hvalue _ rfl, fun up hup => ?_⟩
        rw [Linear.eval_scale hscaled]
        exact Side.scale (fun up => lhs.leans up) hup (hsideL _)
      · next k hr hk =>
        obtain ⟨scaled, hscaled, h⟩ := bind_eq_ok.mp h
        cases h
        obtain rfl := asInt_eq_some hk
        obtain rfl : k = m := by simpa [value] using hm
        refine ⟨k * n, hvalue _ rfl, fun up hup => ?_⟩
        rw [Linear.eval_scale hscaled, mul_comm]
        rw [Expr.leans, hr] at hup
        exact Side.scale (fun up => rhs.leans up) hup (hsideR _)
      · next hr hl =>
        obtain ⟨l', hl', h⟩ := bind_eq_ok.mp h
        cases h
        obtain ⟨m', n', hm', hn', hle⟩ := intervalProduct_eq_ok hl' (hproduct rfl hl hr)
        rw [hm] at hm'
        rw [hn] at hn'
        cases hm'
        cases hn'
        refine ⟨m * n, hvalue _ rfl, fun up hup => ?_⟩
        rw [Expr.leans, hl, hr] at hup
        obtain rfl : up = true := hup
        exact hle
    | div =>
      dsimp only at h
      split at h
      · next k hk =>
        split at h
        · cases h
        · next hzero =>
          obtain ⟨quot, hquot, h⟩ := bind_eq_ok.mp h
          cases h
          obtain rfl := asInt_eq_some hk
          obtain rfl : k = n := by simpa [value] using hn
          refine ⟨m.tdiv k, hvalue _ (by rw [BinOp.arith, if_neg hzero]), fun up hup => ?_⟩
          refine Side.tdiv hzero ?_
          rw [← (scaleExact_eq_ok hquot).1]
          exact hsideL _ hup
      · cases h
    | _ => cases h
  | index receiver index =>
    obtain ⟨l', hl', h⟩ := bind_eq_ok.mp h
    cases h
    obtain ⟨p, hp, rfl⟩ := indexVar_eq_ok hl'
    refine ⟨σ (p.name fieldFn), by rw [value, hp]; rfl, fun up _ => ?_⟩
    rw [Linear.eval_var]
    exact .refl up _
  | _ => cases h

/-- Where more is harder on the side of every product, and nothing else is asked of one. -/
def Relation.Conservative (rel : Relation) (lhs rhs : Expr) : Bool :=
  match rel with
  | .le | .lt => lhs.leans true && rhs.leans false
  | .ge | .gt => lhs.leans false && rhs.leans true
  | .eq | .ne => (lhs.leans true && lhs.leans false) && (rhs.leans true && rhs.leans false)

/-- Every comparison has its products on the side where more is harder. -/
def Expr.conservative : Expr → Bool
  | .bin op lhs rhs =>
    match op, relationOf op with
    | .and, _ | .or, _ => lhs.conservative && rhs.conservative
    | _, some rel => rel.Conservative lhs rhs
    | _, none => true
  | _ => true

theorem compares_of_side {rel : Relation} {lhs rhs : Expr} {m n x y : Int}
    (h : rel.Conservative lhs rhs = true) (hl : ∀ up, lhs.leans up = true → Side up m x)
    (hr : ∀ up, rhs.leans up = true → Side up n y) (hcompares : rel.Compares x y) :
    rel.Compares m n := by
  cases rel with
  | le | lt =>
    obtain ⟨hleft, hright⟩ := Bool.and_eq_true_iff.mp h
    have hm : m ≤ x := hl true hleft
    have hn : y ≤ n := hr false hright
    simp only [Relation.Compares] at hcompares ⊢
    omega
  | ge | gt =>
    obtain ⟨hleft, hright⟩ := Bool.and_eq_true_iff.mp h
    have hm : x ≤ m := hl false hleft
    have hn : n ≤ y := hr true hright
    simp only [Relation.Compares] at hcompares ⊢
    omega
  | eq | ne =>
    obtain ⟨hleft, hright⟩ := Bool.and_eq_true_iff.mp h
    obtain ⟨hleft, hleft'⟩ := Bool.and_eq_true_iff.mp hleft
    obtain ⟨hright, hright'⟩ := Bool.and_eq_true_iff.mp hright
    rw [(hl true hleft).eq (hl false hleft'), (hr true hright).eq (hr false hright')]
    exact hcompares

variable {rel : Relation} {lhs rhs : Expr} {c : Constraint}

theorem compares_of_compareBounded (h : compareBounded bounds fieldFn rel lhs rhs = .ok (c, approx))
    (hl : lhs.Factors (fun x y => LooksUp σ bounds x ∧ LooksUp σ bounds y ∧ CornersFit bounds x y)
      fieldFn)
    (hr : rhs.Factors (fun x y => LooksUp σ bounds x ∧ LooksUp σ bounds y ∧ CornersFit bounds x y)
      fieldFn)
    (hconservative : rel.Conservative lhs rhs = true) (hc : c.Holds σ) :
    ∃ x y, value (stateAt σ preField) (stateAt σ fieldFn) lhs = some x ∧
      value (stateAt σ preField) (stateAt σ fieldFn) rhs = some y ∧ rel.Compares x y := by
  obtain ⟨⟨l, approxL⟩, hleft, h⟩ := bind_eq_ok.mp h
  obtain ⟨⟨r, approxR⟩, hright, h⟩ := bind_eq_ok.mp h
  obtain ⟨diff, hdiff, h⟩ := bind_eq_ok.mp h
  cases h
  obtain ⟨m, hm, hsideL⟩ := side_linearizeBounded hleft hl
  obtain ⟨n, hn, hsideR⟩ := side_linearizeBounded hright hr
  rw [Constraint.Holds, Linear.eval_sub hdiff, Relation.holds_sub] at hc
  exact ⟨m, n, hm, hn, compares_of_side hconservative hsideL hsideR hc⟩

theorem means_of_branches {dnf : Dnf Constraint} (hconservative : e.conservative = true)
    (hfactors : e.Factors (fun x y => LooksUp σ bounds x ∧ LooksUp σ bounds y ∧
    CornersFit bounds x y)
      fieldFn)
    (h : toConstraintsBoundedDnf bounds fieldFn e = .ok (dnf, approx))
    (hdnf : dnf.Holds (Constraint.Holds σ)) : Means (stateAt σ preField) (stateAt σ fieldFn) e := by
  induction e using Expr.operatorInduction generalizing dnf approx with
  | bin op lhs rhs ihl ihr =>
    obtain ⟨hl, hr, _⟩ := hfactors
    have hcompare : ∀ rel, rel.Conservative lhs rhs = true →
      (compareBounded bounds fieldFn rel lhs rhs >>= fun p =>
        .ok ([[p.1]], p.2)) = (.ok (dnf, approx) : Result String _) →
        ∃ x y, value (stateAt σ preField) (stateAt σ fieldFn) lhs = some x ∧
          value (stateAt σ preField) (stateAt σ fieldFn) rhs = some y ∧ rel.Compares x y := by
      intro rel hrel h
      obtain ⟨⟨c, approxC⟩, hc, h⟩ := bind_eq_ok.mp h
      cases h
      rw [Dnf.holds_singleton, List.forall_mem_singleton] at hdnf
      exact compares_of_compareBounded hc hl hr hrel hdnf
    cases op with
    | or =>
      obtain ⟨⟨left, approxL⟩, hleft, h⟩ := bind_eq_ok.mp h
      obtain ⟨⟨right, approxR⟩, hright, h⟩ := bind_eq_ok.mp h
      cases h
      obtain ⟨hcl, hcr⟩ := Bool.and_eq_true_iff.mp hconservative
      exact (Dnf.holds_append.mp hdnf).imp (ihl hcl hl hleft) (ihr hcr hr hright)
    | and =>
      obtain ⟨⟨left, approxL⟩, hleft, h⟩ := bind_eq_ok.mp h
      obtain ⟨⟨right, approxR⟩, hright, h⟩ := bind_eq_ok.mp h
      cases h
      obtain ⟨hcl, hcr⟩ := Bool.and_eq_true_iff.mp hconservative
      obtain ⟨hdl, hdr⟩ := Dnf.holds_conjoin.mp hdnf
      exact ⟨ihl hcl hl hleft hdl, ihr hcr hr hright hdr⟩
    | eq | ne | lt | le | gt | ge => exact hcompare _ hconservative h
    | add | sub | mul | div => cases h
  | _ => cases h

theorem means_of_constraints {cs : List Constraint} (hconservative : e.conservative = true)
    (hfactors : e.Factors (fun x y => LooksUp σ bounds x ∧ LooksUp σ bounds y ∧
    CornersFit bounds x y)
      fieldFn)
    (h : toConstraintsBounded bounds fieldFn e = .ok (cs, approx)) (hcs : Satisfies σ cs) :
    Means (stateAt σ preField) (stateAt σ fieldFn) e :=
  means_of_branches hconservative hfactors (toConstraintsBoundedDnf_of_conj h)
    (Dnf.holds_singleton.mpr hcs)

end Leaning

/-! ### Clauses and their premises -/

def Kept (premises : List Constraint) (bounds : VarBounds) (x : String) : Prop :=
  (assocGet bounds x).isSome = true ∨ ∀ σ, Satisfies σ premises → LooksUp σ bounds x

def Covered (premises : List Constraint) (bounds : VarBounds) (x y : String) : Prop :=
  Kept premises bounds x ∧ Kept premises bounds y ∧ CornersFit bounds x y

theorem Expr.Factors.imp {P Q : String → String → Prop} (h : ∀ x y, P x y → Q x y) :
    (e : Expr) → (fieldFn : Naming) → e.Factors P fieldFn → e.Factors Q fieldFn
  | .old e, _, hP => Factors.imp h e preField hP
  | .unary _ e, fieldFn, hP => Factors.imp h e fieldFn hP
  | .bin _ lhs rhs, fieldFn, hP =>
    ⟨Factors.imp h lhs fieldFn hP.1, Factors.imp h rhs fieldFn hP.2.1,
      fun hop hl hr x y hx hy => h x y (hP.2.2 hop hl hr x y hx hy)⟩
  | .int _, _, _ | .var _, _, _ | .field _ _, _, _ | .call _ _, _, _ | .methodCall _ _ _, _, _
  | .index _ _, _, _ | .ifThen _ _ _, _, _ | .matchOn _ _, _, _ | .tryOn _, _, _
  | .forAll _ _ _ _, _, _ | .aggregate _ _, _, _ | .range _ _, _, _ => trivial

theorem Expr.Factors.looksUp {premises : List Constraint} {bounds : VarBounds} {fieldFn : Naming}
    {e : Expr} {σ : String → Int} (hfactors : e.Factors (Covered premises bounds) fieldFn)
    (hbounds : collectVarBounds premises = .ok bounds) (hpremises : Satisfies σ premises) :
    e.Factors (fun x y => LooksUp σ bounds x ∧ LooksUp σ bounds y ∧ CornersFit bounds x y)
      fieldFn := by
  have hkept : ∀ x, Kept premises bounds x → LooksUp σ bounds x := by
    intro x hx
    rcases hx with hown | hall
    · exact looksUp_of_own (bounded_collectVarBounds hbounds hpremises) hown
    · exact hall σ hpremises
  exact Expr.Factors.imp (fun x y h => ⟨hkept x h.1, hkept y h.2.1, h.2.2⟩) e fieldFn hfactors

/-- What satisfies the premises and the lowered clause satisfies the clause, if all of its
products stand on the side where more is harder, their factors keep to the bounds that are
looked up for them and no product of bounds is greater than the greatest word. -/
theorem toConstraintsBounded_sound {premises : List Constraint} {bounds : VarBounds}
    {fieldFn : Naming} {e : Expr} (hbounds : collectVarBounds premises = .ok bounds)
    (hconservative : e.conservative = true) (hfactors : e.Factors (Covered premises bounds) fieldFn)
    {σ : String → Int} (hpremises : Satisfies σ premises) :
    (∀ cs approx, toConstraintsBounded bounds fieldFn e = .ok (cs, approx) → Satisfies σ cs →
      Means (stateAt σ preField) (stateAt σ fieldFn) e) ∧
    ∀ dnf approx, toConstraintsBoundedDnf bounds fieldFn e = .ok (dnf, approx) →
      dnf.Holds (Constraint.Holds σ) → Means (stateAt σ preField) (stateAt σ fieldFn) e := by
  have hproducts := hfactors.looksUp hbounds hpremises
  exact ⟨fun _ _ => means_of_constraints hconservative hproducts,
    fun _ _ => means_of_branches hconservative hproducts⟩

/-! ### A product on either side -/

def widthName : Name :=
  ⟨"w", by decide⟩

def heightName : Name :=
  ⟨"h", by decide⟩

/-- Both numbers are from `0` to `3`. -/
def sizePremises : List Constraint :=
  [⟨⟨[("w", 1)], 0⟩, .ge⟩, ⟨⟨[("w", 1)], -3⟩, .le⟩, ⟨⟨[("h", 1)], 0⟩, .ge⟩, ⟨⟨[("h", 1)], -3⟩, .le⟩]

def sizeBounds : VarBounds :=
  [("w", (some 0, some 3)), ("h", (some 0, some 3))]

theorem collectVarBounds_size : collectVarBounds sizePremises = .ok sizeBounds :=
  rfl

def area : Expr :=
  .bin .mul (.var widthName) (.var heightName)

theorem sizePremises_satisfied (σ : String → Int) (hw : 0 ≤ σ "w" ∧ σ "w" ≤ 3)
    (hh : 0 ≤ σ "h" ∧ σ "h" ≤ 3) : Satisfies σ sizePremises := by
  simp [Satisfies, sizePremises, Constraint.Holds, Relation.Holds, Linear.eval]
  omega

/-- An area that is at most `9` by its bounds is at most `9`. -/
theorem area_at_most :
    Means (stateAt (fun _ => 2) preField) (stateAt (fun _ => 2) preField)
    (.bin .le area (.int 9)) := by
  have hfactors : (Expr.bin .le area (.int 9)).Factors
    (Covered sizePremises sizeBounds) preField := by
    refine ⟨⟨trivial, trivial, fun _ _ _ x y hx hy => ?_⟩, trivial, fun h => nomatch h⟩
    cases hx
    cases hy
    refine ⟨.inl rfl, .inl rfl, ?_⟩
    rintro _ _ _ _ ⟨⟩ ⟨⟩
    decide
  refine (toConstraintsBounded_sound (σ := fun _ => 2) collectVarBounds_size (by decide) hfactors
    (sizePremises_satisfied _ (by decide) (by decide))).1 [⟨⟨[], 0⟩, .le⟩] true rfl ?_
  simp [Satisfies, Constraint.Holds, Relation.Holds, Linear.eval]

/-- By its bounds an area is at least `6`, whatever it is. -/
theorem area_at_least :
    ∃ bounds cs approx, collectVarBounds sizePremises = .ok bounds ∧
      toConstraintsBounded bounds preField (.bin .ge area (.int 6)) = .ok (cs, approx) ∧
      Satisfies (fun _ => 0) sizePremises ∧ Satisfies (fun _ => 0) cs ∧
      ¬Means (stateAt (fun _ => 0) preField) (stateAt (fun _ => 0) preField)
        (.bin .ge area (.int 6)) := by
  refine ⟨sizeBounds, [⟨⟨[], 3⟩, .ge⟩], true, collectVarBounds_size, rfl,
    sizePremises_satisfied _ (by decide) (by decide), ?_, ?_⟩
  · simp [Satisfies, Constraint.Holds, Relation.Holds, Linear.eval]
  · rintro ⟨_, _, ⟨⟩, ⟨⟩, h⟩
    exact absurd h (by simp [Relation.Compares, stateAt])

end Oikos.Telos
