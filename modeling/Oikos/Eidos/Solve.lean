/-
The search for a model of the eidos verifier: the elimination of `fm_unsat`, and on
the way back a value for each variable between its bounds.

What the eidos kernel takes from expressions to the verifier: their linear forms, and
the constraints of conditions and of their negations.
-/
import Oikos.Eidos.Fits
import Oikos.Eidos.Syntax

namespace Oikos.Eidos

open List Option

/-- The least (`wanted` is `.lt`) or greatest (`.gt`) value of the bounds and of the
best one so far. -/
def bestValue (wanted : Ordering) (model : OrdMap String Rat) :
    List (RatExpr × Bool) → Option Rat → Option (Option Rat)
  | [], best => some best
  | (e, _) :: bounds, none => do
    let val ← e.evaluate model
    bestValue wanted model bounds (some val)
  | (e, _) :: bounds, some cur => do
    let val ← e.evaluate model
    let order ← val.checkedCmp cur
    bestValue wanted model bounds (some (if order = wanted then val else cur))

/-- The value of the eliminated variable. -/
def Split.choose (s : Split) (model : OrdMap String Rat) : Option Rat := do
  let upper ← bestValue .lt model s.uppers none
  let lower ← bestValue .gt model s.lowers none
  let one ← Rat.fromF64 ⟨0x3FF0000000000000⟩
  let half ← Rat.fromF64 ⟨0x3FE0000000000000⟩
  match upper, lower with
  | some u, some l => do
    let sum ← u.checkedAdd l
    sum.checkedMul half
  | some u, none => u.checkedSub one
  | none, some l => l.checkedAdd one
  | none, none => some Rat.zero

def constantHolds (c : NormRel × RatExpr) : Bool :=
  match c.1 with
  | .le => !c.2.constant.isPos
  | .lt => c.2.constant.isNeg

def solve (exprs : Norm) : Option (OrdMap String Rat) :=
  if h : (collectVars exprs).Nonempty then
    match _ : eliminate ((collectVars exprs).min' h) exprs with
    | none => none
    | some (s, next) => do
      let model ← solve next
      let value ← s.choose model
      some (model.insert ((collectVars exprs).min' h) value)
  else if exprs.all constantHolds then some .empty
  else none
termination_by (collectVars exprs).card
decreasing_by exact card_collectVars_next (Finset.min'_mem _ h) ‹_›

def findModel (constraints : List Constraint) : Option (OrdMap String F64) := do
  let norm ← normalizeAll constraints
  let model ← solve norm
  some (model.map Rat.toF64)

def counterexample (premises : List Constraint) (conclusion : Constraint) :
    Option (OrdMap String F64) :=
  match conclusion.rel with
  | .eq =>
    match findModel (premises ++ [⟨.lt, conclusion.e⟩]) with
    | some m => some m
    | none => findModel (premises ++ [⟨.gt, conclusion.e⟩])
  | _ => findModel (premises ++ negate conclusion)

/-! ### The chosen value -/

section Choice

variable {wanted : Ordering} {model : OrdMap String Rat}
  {bounds : List (RatExpr × Bool)} {s : Split}

/-- `a` is at least as good as `b`. -/
def Before (wanted : Ordering) (a b : ℚ) : Prop :=
  if wanted = .lt then a ≤ b else b ≤ a

theorem before_refl (a : ℚ) : Before wanted a a := by
  unfold Before
  split <;> exact le_refl a

theorem Before.trans {a b c : ℚ} (hab : Before wanted a b) (hbc : Before wanted b c) :
    Before wanted a c := by
  unfold Before at *
  split at hab
  · next h =>
    rw [if_pos h] at hbc ⊢
    exact hab.trans hbc
  · next h =>
    rw [if_neg h] at hbc ⊢
    exact hbc.trans hab

theorem before_better (hwanted : wanted = .lt ∨ wanted = .gt) (a b : ℚ) :
    Before wanted (if compare a b = wanted then a else b) a ∧
      Before wanted (if compare a b = wanted then a else b) b := by
  rcases hwanted with rfl | rfl
  · split
    · next h => exact ⟨before_refl a, le_of_lt (compare_lt_iff_lt.mp h)⟩
    · next h => exact ⟨not_lt.mp fun hlt => h (compare_lt_iff_lt.mpr hlt), before_refl b⟩
  · split
    · next h => exact ⟨before_refl a, le_of_lt (compare_gt_iff_gt.mp h)⟩
    · next h => exact ⟨not_lt.mp fun hlt => h (compare_gt_iff_gt.mpr hlt), before_refl b⟩

def values (model : OrdMap String Rat) (bounds : List (RatExpr × Bool)) : List (ℚ × Bool) :=
  bounds.map fun b => (b.1.eval (assign model), b.2)

variable {best : Option Rat}

theorem bestValue_some (hwanted : wanted = .lt ∨ wanted = .gt) {cur : Rat}
    (h : bestValue wanted model bounds (some cur) = some best) :
    ∃ r, best = some r ∧ Before wanted r.value cur.value ∧
      (∀ b ∈ values model bounds, Before wanted r.value b.1) ∧
        (r.value = cur.value ∨ ∃ b ∈ values model bounds, b.1 = r.value) := by
  induction bounds generalizing cur with
  | nil =>
    cases h
    exact ⟨cur, rfl, before_refl _, by simp [values], Or.inl rfl⟩
  | cons b bounds ih =>
    obtain ⟨val, hval, h⟩ := bind_eq_some_iff.mp h
    obtain ⟨order, horder, h⟩ := bind_eq_some_iff.mp h
    obtain ⟨r, rfl, hcur, hall, hmem⟩ := ih h
    have hval : val.value = b.1.eval (assign model) := RatExpr.value_of_evaluate hval
    rw [Rat.checkedCmp_eq horder, apply_ite Rat.value] at hcur hmem
    obtain ⟨hbetter, hbetter'⟩ := before_better hwanted val.value cur.value
    refine ⟨r, rfl, hcur.trans hbetter', ?_, ?_⟩
    · intro q hq
      rcases mem_cons.mp hq with rfl | hq
      · change Before wanted r.value (b.1.eval (assign model))
        rw [← hval]
        exact hcur.trans hbetter
      · exact hall q hq
    · rcases hmem with hmem | ⟨q, hq, hqr⟩
      · split at hmem
        · exact Or.inr ⟨_, mem_cons_self, hmem ▸ hval.symm⟩
        · exact Or.inl hmem
      · exact Or.inr ⟨q, mem_cons_of_mem _ hq, hqr⟩

theorem bestValue_none (hwanted : wanted = .lt ∨ wanted = .gt)
    (h : bestValue wanted model bounds none = some best) :
    (best = none ∧ bounds = []) ∨
      ∃ r, best = some r ∧ (∃ b ∈ values model bounds, b.1 = r.value) ∧
        ∀ b ∈ values model bounds, Before wanted r.value b.1 := by
  cases bounds with
  | nil =>
    cases h
    exact Or.inl ⟨rfl, rfl⟩
  | cons b bounds =>
    obtain ⟨val, hval, h⟩ := bind_eq_some_iff.mp h
    have hval : val.value = b.1.eval (assign model) := RatExpr.value_of_evaluate hval
    obtain ⟨r, rfl, hcur, hall, hmem⟩ := bestValue_some hwanted h
    refine Or.inr ⟨r, rfl, ?_, ?_⟩
    · rcases hmem with hmem | ⟨q, hq, hqr⟩
      · exact ⟨_, mem_cons_self, hval.symm.trans hmem.symm⟩
      · exact ⟨q, mem_cons_of_mem _ hq, hqr⟩
    · intro q hq
      rcases mem_cons.mp hq with rfl | hq
      · change Before wanted r.value (b.1.eval (assign model))
        rw [← hval]
        exact hcur
      · exact hall q hq

theorem leastBound_bestValue (h : bestValue .lt model bounds none = some best) :
    LeastBound (values model bounds) (best.map Rat.value) := by
  rcases bestValue_none (Or.inl rfl) h with ⟨rfl, rfl⟩ | ⟨r, rfl, hmem, hall⟩
  · rfl
  · exact ⟨hmem, hall⟩

theorem greatestBound_bestValue (h : bestValue .gt model bounds none = some best) :
    GreatestBound (values model bounds) (best.map Rat.value) := by
  rcases bestValue_none (Or.inr rfl) h with ⟨rfl, rfl⟩ | ⟨r, rfl, hmem, hall⟩
  · rfl
  · exact ⟨hmem, hall⟩

theorem value_one : (⟨0x3FF0000000000000⟩ : F64).value = 1 := by
  decide +kernel

theorem value_half : (⟨0x3FE0000000000000⟩ : F64).value = 1 / 2 := by
  decide +kernel

theorem choose_eq_some {value : Rat} (h : s.choose model = some value) :
    ∃ upper lower, LeastBound (values model s.uppers) upper ∧
      GreatestBound (values model s.lowers) lower ∧ value.value = pick upper lower := by
  obtain ⟨upper, hupper, h⟩ := bind_eq_some_iff.mp h
  obtain ⟨lower, hlower, h⟩ := bind_eq_some_iff.mp h
  obtain ⟨one, hone, h⟩ := bind_eq_some_iff.mp h
  obtain ⟨half, hhalf, h⟩ := bind_eq_some_iff.mp h
  have hone : one.value = 1 := (Rat.value_of_fromF64 hone).trans value_one
  have hhalf : half.value = 1 / 2 := (Rat.value_of_fromF64 hhalf).trans value_half
  refine ⟨_, _, leastBound_bestValue hupper, greatestBound_bestValue hlower, ?_⟩
  cases upper with
  | none =>
    cases lower with
    | none =>
      cases h
      exact Rat.value_zero
    | some l => exact (Rat.value_of_checkedAdd h).trans (hone ▸ rfl)
  | some u =>
    cases lower with
    | none => exact (Rat.value_of_checkedSub h).trans (hone ▸ rfl)
    | some l =>
      obtain ⟨sum, hsum, h⟩ := bind_eq_some_iff.mp h
      rw [Rat.value_of_checkedMul h, Rat.value_of_checkedAdd hsum, hhalf]
      rfl

end Choice

/-! ### Models are genuine -/

section Model

variable {exprs next : Norm} {model : OrdMap String Rat} {s : Split} {v : String} {value : Rat}

theorem assign_insert_self : assign (model.insert v value) v = value.value := by
  rw [assign, OrdMap.get_insert, if_pos rfl, getD_some]

theorem eval_assign_insert {e : RatExpr} {vars : Finset String} (he : Without v vars e) :
    e.eval (assign (model.insert v value)) = e.eval (assign model) := by
  refine RatExpr.eval_congr fun k hk => ?_
  rw [assign, assign, OrdMap.get_insert, if_neg (he k hk).1]

theorem meets_insert (helim : eliminate v exprs = some (s, next))
    (hmodel : Meets (assign model) next) (hvalue : s.choose model = some value) :
    Meets (assign (model.insert v value)) exprs := by
  obtain ⟨huppers, hlowers, hrest⟩ := eliminate_without helim
  obtain ⟨hmeets, hcompatible⟩ := (next_meets (eliminate_eq_some helim).2).mp hmodel
  obtain ⟨upper, lower, hupper, hlower, hpick⟩ := choose_eq_some hvalue
  have hcompatible' : ∀ u ∈ values model s.uppers, ∀ l ∈ values model s.lowers,
      Below (u.2 || l.2) l.1 u.1 := by
    intro u hu l hl
    obtain ⟨b, hb, rfl⟩ := mem_map.mp hu
    obtain ⟨c, hc, rfl⟩ := mem_map.mp hl
    exact hcompatible b hb c hc
  obtain ⟨hbelow, habove⟩ := pick_meets hupper hlower hcompatible'
  rw [← hpick] at hbelow habove
  refine (eliminate_split helim).mp ⟨fun u hu => ?_, fun l hl => ?_, fun c hc => ?_⟩
  · rw [assign_insert_self, eval_assign_insert (huppers u hu)]
    exact hbelow _ (mem_map_of_mem hu)
  · rw [assign_insert_self, eval_assign_insert (hlowers l hl)]
    exact habove _ (mem_map_of_mem hl)
  · rw [eval_assign_insert (hrest c hc)]
    exact hmeets c hc

theorem constantHolds_eq (c : NormRel × RatExpr) : constantHolds c = !constantFails c := by
  unfold constantHolds constantFails
  cases c.1 with
  | le => rfl
  | lt => exact (Bool.not_not _).symm

theorem all_constantHolds (exprs : Norm) : exprs.all constantHolds = !exprs.any constantFails := by
  rw [not_any_eq_all_not, funext constantHolds_eq]

theorem meets_constants (hvars : ¬(collectVars exprs).Nonempty)
    (h : exprs.all constantHolds = true) (σ : String → ℚ) : Meets σ exprs := by
  intro c hc
  have hholds := all_eq_true.mp h c hc
  by_contra hnot
  rw [constantHolds_eq, (constantFails_iff hvars hc).mpr hnot] at hholds
  cases hholds

theorem meets_of_solve (h : solve exprs = some model) : Meets (assign model) exprs := by
  induction exprs using solve.induct generalizing model with
  | case1 exprs hvars helim =>
    rw [solve, dif_pos hvars] at h
    split at h
    · cases h
    · next hsome =>
      rw [helim] at hsome
      cases hsome
  | case2 exprs hvars s next helim ih =>
    rw [solve, dif_pos hvars] at h
    split at h
    · cases h
    · next hsome =>
      rw [helim] at hsome
      cases hsome
      obtain ⟨model', hmodel', h⟩ := bind_eq_some_iff.mp h
      obtain ⟨value, hvalue, h⟩ := bind_eq_some_iff.mp h
      cases h
      exact meets_insert helim (ih hmodel') hvalue
  | case3 exprs hvars hall =>
    exact meets_constants hvars hall _
  | case4 exprs hvars hall =>
    rw [solve, dif_neg hvars, if_neg hall] at h
    cases h

end Model

/-! ### The two eliminations agree -/

theorem solve_constants {norm : Norm} {model : OrdMap String Rat} (h : ¬(collectVars norm).Nonempty)
    (hsolve : solve norm = some model) : model = .empty := by
  rw [solve, dif_neg h] at hsolve
  split at hsolve
  · exact (some.inj hsolve).symm
  · cases hsolve

/-- The terms of an expression and their partial sums fit. -/
def RatExpr.EvaluateFits (model : OrdMap String Rat) : List (String × Rat) → ℚ → Prop
  | [], _ => True
  | (k, r) :: l, s => MulFits r.value (assign model k) ∧
      AddFits s (r.value * assign model k) ∧
        EvaluateFits model l (s + r.value * assign model k)

instance RatExpr.decidableEvaluateFits (model : OrdMap String Rat) :
    (l : List (String × Rat)) → (s : ℚ) → Decidable (EvaluateFits model l s)
  | [], _ => inferInstanceAs (Decidable True)
  | (k, r) :: l, s =>
    have := decidableEvaluateFits model l (s + r.value * assign model k)
    inferInstanceAs (Decidable (_ ∧ _ ∧ _))

/-- The values of the bounds fit, and so do their differences to the best one so far. -/
def BestFits (wanted : Ordering) (model : OrdMap String Rat) :
    List (RatExpr × Bool) → Option ℚ → Prop
  | [], _ => True
  | (e, _) :: bounds, none => RatExpr.EvaluateFits model e.coeffs.entries e.constant.value ∧
      BestFits wanted model bounds (some (e.eval (assign model)))
  | (e, _) :: bounds, some cur => RatExpr.EvaluateFits model e.coeffs.entries e.constant.value ∧
      SubFits (e.eval (assign model)) cur ∧ BestFits wanted model bounds
        (some (if compare (e.eval (assign model)) cur = wanted then e.eval (assign model) else cur))

instance decidableBestFits (wanted : Ordering) (model : OrdMap String Rat) :
    (bounds : List (RatExpr × Bool)) → (best : Option ℚ) →
    Decidable (BestFits wanted model bounds best)
  | [], _ => inferInstanceAs (Decidable True)
  | (e, _) :: bounds, none =>
    have := decidableBestFits wanted model bounds (some (e.eval (assign model)))
    inferInstanceAs (Decidable (_ ∧ _))
  | (e, _) :: bounds, some cur =>
    have := decidableBestFits wanted model bounds (some
      (if compare (e.eval (assign model)) cur = wanted then e.eval (assign model) else cur))
    inferInstanceAs (Decidable (_ ∧ _ ∧ _))

/-- The number between the best bounds fits. -/
def PickFits : Option ℚ → Option ℚ → Prop
  | some u, some l => AddFits u l ∧ MulFits (u + l) (1 / 2)
  | some u, none => SubFits u 1
  | none, some l => AddFits l 1
  | none, none => True

structure Split.ChooseFits (s : Split) (model : OrdMap String Rat) : Prop where
  uppers : BestFits .lt model s.uppers none
  lowers : BestFits .gt model s.lowers none
  value : ∀ upper lower, LeastBound (values model s.uppers) upper →
    GreatestBound (values model s.lowers) lower → PickFits upper lower

/-- No arithmetic overflows and no round is over the limit, in the elimination and on the
way back. -/
inductive Completes : Norm → Prop
  | constants {exprs : Norm} : ¬(collectVars exprs).Nonempty → Completes exprs
  | round {exprs : Norm} (h : (collectVars exprs).Nonempty) :
      RoundFits ((collectVars exprs).min' h) exprs →
        (∀ s next, eliminate ((collectVars exprs).min' h) exprs = some (s, next) →
          Completes next) →
        (∀ s next model, eliminate ((collectVars exprs).min' h) exprs = some (s, next) →
          solve next = some model → s.ChooseFits model) → Completes exprs

section Choice

variable {model : OrdMap String Rat} {s : Split}

theorem RatExpr.exists_evaluateFrom {l : List (String × Rat)} {r : Rat}
    (h : EvaluateFits model l r.value) : ∃ t, evaluateFrom model l r = some t := by
  induction l generalizing r with
  | nil => exact ⟨r, rfl⟩
  | cons p l ih =>
    obtain ⟨hmul, hadd, hrest⟩ := h
    obtain ⟨term, hterm⟩ := Rat.exists_checkedMul hmul
    have hvalue : term.value = p.2.value * assign model p.1 := Rat.value_of_checkedMul hterm
    rw [← hvalue] at hadd hrest
    obtain ⟨sum, hsum⟩ := Rat.exists_checkedAdd hadd
    rw [← Rat.value_of_checkedAdd hsum] at hrest
    obtain ⟨t, ht⟩ := ih hrest
    exact ⟨t, bind_eq_some_iff.mpr ⟨term, hterm,
      bind_eq_some_iff.mpr ⟨sum, hsum, ht⟩⟩⟩

theorem exists_bestValue {wanted : Ordering} {bounds : List (RatExpr × Bool)} (best : Option Rat)
    (h : BestFits wanted model bounds (best.map Rat.value)) :
    ∃ r, bestValue wanted model bounds best = some r := by
  induction bounds generalizing best with
  | nil => exact ⟨best, rfl⟩
  | cons b bounds ih =>
    cases best with
    | none =>
      obtain ⟨val, hval⟩ := RatExpr.exists_evaluateFrom h.1
      have hrest := h.2
      rw [← RatExpr.value_of_evaluate hval] at hrest
      obtain ⟨r, hr⟩ := ih (some val) hrest
      exact ⟨r, bind_eq_some_iff.mpr ⟨val, hval, hr⟩⟩
    | some cur =>
      obtain ⟨hfits, hsub, hrest⟩ := h
      obtain ⟨val, hval⟩ := RatExpr.exists_evaluateFrom hfits
      rw [← RatExpr.value_of_evaluate hval] at hsub hrest
      obtain ⟨order, horder⟩ := Rat.exists_checkedCmp hsub
      rw [← Rat.checkedCmp_eq horder, ← apply_ite Rat.value] at hrest
      obtain ⟨r, hr⟩ := ih (some (if order = wanted then val else cur)) hrest
      exact ⟨r, bind_eq_some_iff.mpr ⟨val, hval,
        bind_eq_some_iff.mpr ⟨order, horder, hr⟩⟩⟩

/-- Where the numbers fit the variable is given a value. -/
theorem isSome_choose (h : s.ChooseFits model) : (s.choose model).isSome = true := by
  obtain ⟨upper, hupper⟩ := exists_bestValue none h.uppers
  obtain ⟨lower, hlower⟩ := exists_bestValue none h.lowers
  have hfits := h.value _ _ (leastBound_bestValue hupper) (greatestBound_bestValue hlower)
  obtain ⟨one, hone⟩ := Rat.exists_fromF64 (f := ⟨0x3FF0000000000000⟩) (by decide)
  obtain ⟨half, hhalf⟩ := Rat.exists_fromF64 (f := ⟨0x3FE0000000000000⟩) (by decide)
  have hone' : one.value = 1 := (Rat.value_of_fromF64 hone).trans value_one
  have hhalf' : half.value = 1 / 2 := (Rat.value_of_fromF64 hhalf).trans value_half
  rw [Split.choose, hupper, hlower, hone, hhalf]
  cases upper with
  | none =>
    cases lower with
    | none => rfl
    | some l =>
      obtain ⟨t, ht⟩ := Rat.exists_checkedAdd (r := l) (s := one) (by rw [hone']; exact hfits)
      exact isSome_of_eq_some ht
  | some u =>
    cases lower with
    | none =>
      obtain ⟨t, ht⟩ := Rat.exists_checkedSub (r := u) (s := one) (by rw [hone']; exact hfits)
      exact isSome_of_eq_some ht
    | some l =>
      obtain ⟨sum, hsum⟩ := Rat.exists_checkedAdd hfits.1
      obtain ⟨t, ht⟩ := Rat.exists_checkedMul (r := sum) (s := half) (by
        rw [hhalf', Rat.value_of_checkedAdd hsum]
        exact hfits.2)
      have hmid : (u.checkedAdd l >>= (·.checkedMul half)) = some t :=
        bind_eq_some_iff.mpr ⟨sum, hsum, ht⟩
      exact isSome_of_eq_some hmid

end Choice

section Agree

variable {exprs next : Norm} {s : Split}

theorem fmUnsat_of_eliminate (h : (collectVars exprs).Nonempty)
    (helim : eliminate ((collectVars exprs).min' h) exprs = some (s, next)) :
    fmUnsat exprs = fmUnsat next := by
  rw [fmUnsat, dif_pos h]
  split
  · next hnone =>
    rw [helim] at hnone
    cases hnone
  · next hsome =>
    rw [helim] at hsome
    cases hsome
    rfl

theorem solve_of_eliminate (h : (collectVars exprs).Nonempty)
    (helim : eliminate ((collectVars exprs).min' h) exprs = some (s, next)) :
    solve exprs = (solve next).bind fun model =>
      (s.choose model).map (model.insert ((collectVars exprs).min' h)) := by
  rw [solve, dif_pos h]
  split
  · next hnone =>
    rw [helim] at hnone
    cases hnone
  · next hsome =>
    rw [helim] at hsome
    cases hsome
    exact Option.bind_congr fun model _ => Option.map_eq_bind.symm

theorem isSome_solve_iff (h : Completes exprs) :
    (solve exprs).isSome = true ↔ fmUnsat exprs = false := by
  induction h with
  | @constants exprs hvars =>
    rw [solve, dif_neg hvars, fmUnsat, dif_neg hvars, all_constantHolds]
    cases exprs.any _ <;> simp
  | @round exprs hvars hfits _ hchoose ih =>
    obtain ⟨s, next, helim⟩ := exists_eliminate hfits
    rw [fmUnsat_of_eliminate hvars helim, ← ih s next helim, solve_of_eliminate hvars helim]
    cases hsolve : solve next with
    | none => rfl
    | some model =>
      rw [bind_some, isSome_map, isSome_choose (hchoose s next model helim hsolve)]
      rfl

/-- No arithmetic overflows and no round gives up while a system is solved. -/
def NoOverflow (cs : List Constraint) : Prop :=
  (∀ c ∈ cs, c.NormalizeFits) ∧ ∀ norm, normalizeAll cs = some norm → Completes norm

theorem solve_iff_of_noOverflow {cs : List Constraint} (h : NoOverflow cs) :
    ∃ norm, normalizeAll cs = some norm ∧ ((solve norm).isSome = true ↔ unsat cs = false) := by
  obtain ⟨norm, hnorm⟩ := exists_normalizeAll h.1
  refine ⟨norm, hnorm, ?_⟩
  rw [unsat, hnorm]
  exact isSome_solve_iff (h.2 norm hnorm)

theorem isSome_findModel_iff {cs : List Constraint} (h : NoOverflow cs) :
    (findModel cs).isSome = true ↔ unsat cs = false := by
  obtain ⟨norm, hnorm, hiff⟩ := solve_iff_of_noOverflow h
  rw [← hiff, findModel, hnorm]
  change ((solve norm).bind (some ∘ fun model => model.map Rat.toF64)).isSome = true ↔ _
  rw [← Option.map_eq_bind, isSome_map]

/-- The systems that an entailment is decided with are solved without overflow; the
second one for an equation only where the first has no solution. -/
def EntailsNoOverflow (premises : List Constraint) (c : Constraint) : Prop :=
  if c.rel = .eq then
    NoOverflow (premises ++ [⟨.lt, c.e⟩]) ∧
      (unsat (premises ++ [⟨.lt, c.e⟩]) = true → NoOverflow (premises ++ [⟨.gt, c.e⟩]))
  else NoOverflow (premises ++ negate c)

theorem counterexample_eq_of_ne {premises : List Constraint} {c : Constraint} (hrel : c.rel ≠ .eq) :
    counterexample premises c = findModel (premises ++ negate c) := by
  unfold counterexample
  split
  · next h => exact absurd h hrel
  · rfl

theorem isSome_counterexample_iff {premises : List Constraint} {c : Constraint}
    (h : EntailsNoOverflow premises c) :
    (counterexample premises c).isSome = true ↔ entails premises c = false := by
  unfold EntailsNoOverflow at h
  split at h
  · next hrel =>
    obtain ⟨hlt, hgt⟩ := h
    have hfirst := isSome_findModel_iff hlt
    rw [counterexample, entails, hrel]
    dsimp only
    cases hunsat : unsat (premises ++ [⟨.lt, c.e⟩]) with
    | false =>
      obtain ⟨m, hm⟩ := isSome_iff_exists.mp (hfirst.mpr hunsat)
      rw [hm]
      simp
    | true =>
      have hnone : findModel (premises ++ [⟨.lt, c.e⟩]) = none := by
        rw [hunsat] at hfirst
        simpa using hfirst
      rw [hnone, Bool.true_and]
      exact isSome_findModel_iff (hgt hunsat)
  · next hrel =>
    rw [counterexample_eq_of_ne hrel, entails_eq_of_ne hrel]
    exact isSome_findModel_iff h

end Agree

/-- The search for a model is right and complete: with `0` for the variables that it
leaves out a model satisfies every constraint, and where nothing overflows there is a
model exactly if the system is not unsatisfiable, and a counterexample exactly if the
conclusion is not entailed. -/
theorem solve_sound_complete (cs premises : List Constraint) (c : Constraint) :
    (∀ norm model, normalizeAll cs = some norm → solve norm = some model →
        Satisfies (assign model) cs) ∧
      (NoOverflow cs → ∃ norm, normalizeAll cs = some norm ∧
        ((solve norm).isSome = true ↔ unsat cs = false)) ∧
        (EntailsNoOverflow premises c →
          ((counterexample premises c).isSome = true ↔ entails premises c = false)) := by
  refine ⟨fun norm model hnorm hmodel => ?_, solve_iff_of_noOverflow, isSome_counterexample_iff⟩
  exact (meets_normalizeAll hnorm).mp (meets_of_solve hmodel)

/-- `x` and the float with these bits come to at most zero. -/
def atMost (bits : UInt64) : Constraint :=
  ⟨.le, ⟨OrdMap.empty.insert "x" ⟨0x3FF0000000000000⟩, ⟨bits⟩⟩⟩

/-- What is at most five need not be at most three. -/
theorem solve_sound_complete_between :
    EntailsNoOverflow [atMost 0xC014000000000000] (atMost 0xC008000000000000) ∧
      (counterexample [atMost 0xC014000000000000] (atMost 0xC008000000000000)).isSome = true := by
  have hround : ∀ norm ∈ normalizeAll [atMost 0xC014000000000000,
      ⟨.gt, (atMost 0xC008000000000000).e⟩], collectVars norm = {"x"} ∧ RoundFits "x" norm ∧
      ∀ p ∈ eliminate "x" norm, collectVars p.2 = ∅ ∧ values .empty p.1.uppers = [(5, false)] ∧
        values .empty p.1.lowers = [(3, true)] ∧ BestFits .lt .empty p.1.uppers none ∧
          BestFits .gt .empty p.1.lowers none := by
    decide +kernel
  have hfits : EntailsNoOverflow [atMost 0xC014000000000000] (atMost 0xC008000000000000) := by
    refine ⟨by decide +kernel, fun norm hnorm => ?_⟩
    obtain ⟨hvars, hfits, hnext⟩ := hround norm hnorm
    have hne : (collectVars norm).Nonempty := hvars ▸ Finset.singleton_nonempty "x"
    have hmin : (collectVars norm).min' hne = "x" :=
      Finset.mem_singleton.mp (hvars ▸ Finset.min'_mem _ hne)
    have hconstants : ∀ s next, eliminate "x" norm = some (s, next) →
      ¬(collectVars next).Nonempty := by
      intro s next helim
      rw [(hnext _ helim).1]
      exact Finset.not_nonempty_empty
    refine Completes.round hne (hmin ▸ hfits) (hmin ▸ fun s next helim =>
      .constants (hconstants s next helim)) (hmin ▸ fun s next model helim hmodel => ?_)
    obtain rfl := solve_constants (hconstants s next helim) hmodel
    obtain ⟨_, hupper, hlower, hbest, hbest'⟩ := hnext _ helim
    refine ⟨hbest, hbest', ?_⟩
    rw [hupper, hlower]
    rintro (_ | u) (_ | l) hu hl
    · cases hu
    · cases hu
    · cases hl
    · have hu : 5 = u ∧ u ≤ 5 := by simpa [LeastBound] using hu
      have hl : 3 = l ∧ 3 ≤ l := by simpa [GreatestBound] using hl
      rw [← hu.1, ← hl.1]
      exact (by decide +kernel : AddFits 5 3 ∧ MulFits (5 + 3) (1 / 2))
  refine ⟨hfits, ((solve_sound_complete [] _ _).2.2 hfits).mpr ?_⟩
  rw [Bool.eq_false_iff]
  intro h
  have hfour : Satisfies (fun _ => (4 : ℚ)) [atMost 0xC014000000000000] :=
    satisfies_singleton.mpr (show (atMost _).e.eval (fun _ => (4 : ℚ)) ≤ 0 by decide +kernel)
  have hnot : ¬(atMost 0xC008000000000000).e.eval (fun _ => (4 : ℚ)) ≤ 0 := by decide +kernel
  exact hnot (holds_of_entails h hfour)

/-! ### Linear forms of expressions -/

variable (p : Platform)

def linearize : Expr → Option LinExpr
  | .num n => some (.ofConstant n)
  | .var v => some (.var v)
  | .un .neg a => (linearize a).map LinExpr.neg
  | .bin op a b => do
    let la ← linearize a
    let lb ← linearize b
    match op with
    | .add => some (la.add lb)
    | .sub => some (la.sub lb)
    | .mul =>
      match a, b with
      | .num k, _ => some (lb.scale k)
      | _, .num k => some (la.scale k)
      | _, _ => none
    | .div =>
      match b with
      | .num k =>
        if F64.lt ⟨0x3D719799812DEA11⟩ k.abs then
          some (la.scale (F64.div ⟨0x3FF0000000000000⟩ k))
        else none
      | _ => none
    | _ => none
  | .method recv name args =>
    if name = "magnitude" ∧ args.isEmpty then some (.var (exprToString p (.method recv name args)))
    else none
  | _ => none

/-- The relation of a comparison, if the verifier has it. -/
def BinOp.rel : BinOp → Option Rel
  | .gt => some .gt
  | .ge => some .ge
  | .lt => some .lt
  | .le => some .le
  | .eq => some .eq
  | _ => none

def toConstraint : Expr → Option Constraint
  | .bin op a b => do
    let la ← linearize p a
    let lb ← linearize p b
    let rel ← op.rel
    some ⟨rel, la.sub lb⟩
  | _ => none

def cmp (a b : Expr) (rel : Rel) : List Constraint :=
  match linearize p a, linearize p b with
  | some la, some lb => [⟨rel, la.sub lb⟩]
  | _, _ => []

def pathConstraints : Expr → List Constraint
  | .bin .and a b => pathConstraints a ++ pathConstraints b
  | .bin op a b =>
    match op.rel with
    | some rel => cmp p a b rel
    | none => []
  | _ => []

/-- The constraints of a negated condition: both negations for a conjunction, and
both strict comparisons for an inequality. -/
def negateConstraints : Expr → Option (List Constraint)
  | .bin .and a b => do
    let na ← negateConstraints a
    let nb ← negateConstraints b
    some (na ++ nb)
  | .bin .gt a b => some (cmp p a b .le)
  | .bin .ge a b => some (cmp p a b .lt)
  | .bin .lt a b => some (cmp p a b .ge)
  | .bin .le a b => some (cmp p a b .gt)
  | .bin .eq a b => some (cmp p a b .lt ++ cmp p a b .gt)
  | .bin .ne a b => some (cmp p a b .eq)
  | .un .not a => some (pathConstraints p a)
  | _ => none

end Oikos.Eidos
