/-
Fourier-Motzkin elimination as the eidos verifier runs it: a round solves the
constraints for the least variable, and what is left says that every lower bound of
the variable is below every upper one.
-/
import Oikos.Eidos.Linear
import Oikos.Lib.Partial
import Mathlib.Data.Finset.Max
import Mathlib.Data.List.ProdSigma

namespace Oikos.Eidos

open List Option

universe u

/-- A round that would make more constraints than this gives up. -/
def maxConstraints : Nat :=
  200000

def collectVars (exprs : Norm) : Finset String :=
  exprs.foldr (fun c vars => c.2.coeffs.keys.toFinset ∪ vars) ∅

/-- The bounds on a variable, each with whether it is strict, and the constraints
without the variable. -/
structure Split where
  uppers : List (RatExpr × Bool)
  lowers : List (RatExpr × Bool)
  rest : Norm

/-- The bound on a variable from an expression in which it has a coefficient. -/
def boundOn (v : String) (cv : Rat) (e : RatExpr) : Option RatExpr := do
  let inv ← cv.recip
  let neg ← (e.remove v).checkedNeg
  neg.checkedScale inv

def splitOne (v : String) (s : Split) (c : NormRel × RatExpr) : Option Split :=
  let cv := (c.2.coeffs.get v).getD Rat.zero
  if cv.isZero then some { s with rest := s.rest ++ [c] }
  else do
    let bound ← boundOn v cv c.2
    if cv.isPos then some { s with uppers := s.uppers ++ [(bound, c.1.strict)] }
    else some { s with lowers := s.lowers ++ [(bound, c.1.strict)] }

/-- One lower bound is below one upper bound. -/
def combine (u l : RatExpr × Bool) : Option (NormRel × RatExpr) := do
  let combined ← l.1.checkedSub u.1
  some (if u.2 || l.2 then .lt else .le, combined)

def combineAll : List ((RatExpr × Bool) × (RatExpr × Bool)) → Option Norm
  | [] => some []
  | p :: ps => do
    let c ← combine p.1 p.2
    let cs ← combineAll ps
    some (c :: cs)

def Split.next (s : Split) : Option Norm :=
  if maxConstraints < s.rest.length + s.uppers.length * s.lowers.length then none
  else do
    let combined ← combineAll (s.uppers.product s.lowers)
    some (s.rest ++ combined)

/-- A round of the elimination, which `fm_unsat` and `solve` have in common. -/
def eliminate (v : String) (exprs : Norm) : Option (Split × Norm) := do
  let s ← perform (splitOne v) ⟨[], [], []⟩ exprs
  let next ← s.next
  some (s, next)

/-- A constraint without the variable is kept, and any other is a bound on it. -/
theorem splitOne_cases {v : String} {s s' : Split} {c : NormRel × RatExpr}
    (h : splitOne v s c = some s') :
    (((c.2.coeffs.get v).getD Rat.zero).isZero = true ∧ s' = { s with rest := s.rest ++ [c] }) ∨
      ∃ cv bound, c.2.coeffs.get v = some cv ∧ boundOn v cv c.2 = some bound ∧
        (0 < cv.value ∧ s' = { s with uppers := s.uppers ++ [(bound, c.1.strict)] } ∨
          cv.value < 0 ∧ s' = { s with lowers := s.lowers ++ [(bound, c.1.strict)] }) := by
  unfold splitOne at h
  dsimp only at h
  split at h
  · next hzero =>
    cases h
    exact Or.inl ⟨hzero, rfl⟩
  · next hzero =>
    obtain ⟨bound, hbound, h⟩ := bind_eq_some_iff.mp h
    cases hget : c.2.coeffs.get v with
    | none =>
      rw [hget] at hzero
      exact absurd rfl hzero
    | some cv =>
      rw [hget, getD_some] at hzero hbound h
      rw [Rat.isZero_iff] at hzero
      refine Or.inr ⟨cv, bound, rfl, hbound, ?_⟩
      split at h
      · next hpos =>
        cases h
        exact Or.inl ⟨Rat.isPos_iff.mp hpos, rfl⟩
      · next hpos =>
        cases h
        have hle : cv.value ≤ 0 := not_lt.mp fun hlt => hpos (Rat.isPos_iff.mpr hlt)
        exact Or.inr ⟨lt_of_le_of_ne hle hzero, rfl⟩

/-! ### What a round says -/

section Meaning

variable {K : Type u} [Field K] [LinearOrder K] {σ : String → K}

def Split.Meets (σ : String → K) (v : String) (s : Split) : Prop :=
  (∀ u ∈ s.uppers, Below u.2 (σ v) (u.1.eval σ)) ∧
    (∀ l ∈ s.lowers, Below l.2 (l.1.eval σ) (σ v)) ∧ Eidos.Meets σ s.rest

def Split.Compatible (σ : String → K) (s : Split) : Prop :=
  ∀ u ∈ s.uppers, ∀ l ∈ s.lowers, Below (u.2 || l.2) (l.1.eval σ) (u.1.eval σ)

variable [IsStrictOrderedRing K] {v : String} {s s' : Split} {c : NormRel × RatExpr}
  {exprs next : Norm} {u l : RatExpr × Bool}

omit [LinearOrder K] [IsStrictOrderedRing K] in
theorem eval_boundOn [CharZero K] {cv : Rat} {e bound : RatExpr} (h : boundOn v cv e = some bound) :
    bound.eval σ = -(e.remove v).eval σ * (cv.value : K)⁻¹ := by
  obtain ⟨inv, hinv, h⟩ := bind_eq_some_iff.mp h
  obtain ⟨neg, hneg, h⟩ := bind_eq_some_iff.mp h
  rw [RatExpr.eval_of_checkedScale h, RatExpr.eval_of_checkedNeg hneg, Rat.value_of_recip hinv,
    Rat.cast_inv]

theorem splitOne_meets (h : splitOne v s c = some s') :
    s'.Meets σ v ↔ s.Meets σ v ∧ Below c.1.strict (c.2.eval σ) 0 := by
  obtain ⟨_, rfl⟩ | ⟨cv, bound, hget, hbound, ⟨hpos, rfl⟩ | ⟨hneg, rfl⟩⟩ := splitOne_cases h
  · unfold Split.Meets
    rw [meets_append, meets_singleton]
    tauto
  · have hpos : (0 : K) < cv.value := Rat.cast_pos.mpr hpos
    have hbelow : Below c.1.strict (c.2.eval σ) 0 ↔ Below c.1.strict (σ v) (bound.eval σ) := by
      rw [RatExpr.eval_eq_add_remove hget, eval_boundOn hbound]
      exact below_mul_add_of_pos hpos
    unfold Split.Meets
    rw [hbelow, forall_mem_append, forall_mem_singleton]
    tauto
  · have hneg : (cv.value : K) < 0 := Rat.cast_lt_zero.mpr hneg
    have hbelow : Below c.1.strict (c.2.eval σ) 0 ↔ Below c.1.strict (bound.eval σ) (σ v) := by
      rw [RatExpr.eval_eq_add_remove hget, eval_boundOn hbound]
      exact below_mul_add_of_neg hneg
    unfold Split.Meets
    rw [hbelow, forall_mem_append, forall_mem_singleton]
    tauto

theorem perform_splitOne_meets (h : perform (splitOne v) s exprs = some s') :
    s'.Meets σ v ↔ s.Meets σ v ∧ Meets σ exprs := by
  induction exprs generalizing s with
  | nil =>
    cases h
    simp [Meets]
  | cons c exprs ih =>
    obtain ⟨mid, hmid, h⟩ := perform_cons_eq_some.mp h
    have hcons : Meets σ (c :: exprs) ↔ Below c.1.strict (c.2.eval σ) 0 ∧ Meets σ exprs :=
      forall_mem_cons
    rw [ih h, splitOne_meets hmid, hcons, and_assoc]

theorem combine_meets (h : combine u l = some c) :
    Below c.1.strict (c.2.eval σ) 0 ↔ Below (u.2 || l.2) (l.1.eval σ) (u.1.eval σ) := by
  obtain ⟨combined, hcombined, h⟩ := bind_eq_some_iff.mp h
  cases h
  rw [RatExpr.eval_of_checkedSub hcombined, below_sub]
  cases u.2 || l.2 <;> rfl

theorem combineAll_meets {ps : List ((RatExpr × Bool) × (RatExpr × Bool))}
    (h : combineAll ps = some next) :
    Meets σ next ↔ ∀ p ∈ ps, Below (p.1.2 || p.2.2) (p.2.1.eval σ) (p.1.1.eval σ) := by
  induction ps generalizing next with
  | nil =>
    cases h
    simp [Meets]
  | cons p ps ih =>
    obtain ⟨c, hc, h⟩ := bind_eq_some_iff.mp h
    obtain ⟨cs, hcs, h⟩ := bind_eq_some_iff.mp h
    cases h
    rw [forall_mem_cons, ← ih hcs, ← combine_meets hc]
    exact forall_mem_cons

theorem next_eq_some (h : s.next = some next) :
    ∃ combined, combineAll (s.uppers.product s.lowers) = some combined ∧
      next = s.rest ++ combined := by
  unfold Split.next at h
  split at h
  · cases h
  · obtain ⟨combined, hcombined, h⟩ := bind_eq_some_iff.mp h
    cases h
    exact ⟨combined, hcombined, rfl⟩

theorem next_meets (h : s.next = some next) :
    Meets σ next ↔ Meets σ s.rest ∧ s.Compatible σ := by
  obtain ⟨combined, hcombined, rfl⟩ := next_eq_some h
  rw [meets_append, combineAll_meets hcombined]
  refine and_congr_right' ⟨fun hall u hu l hl => hall (u, l) (mem_product.mpr ⟨hu, hl⟩), ?_⟩
  rintro hall ⟨u, l⟩ hp
  obtain ⟨hu, hl⟩ := mem_product.mp hp
  exact hall u hu l hl

theorem eliminate_eq_some (h : eliminate v exprs = some (s, next)) :
    perform (splitOne v) ⟨[], [], []⟩ exprs = some s ∧ s.next = some next := by
  obtain ⟨s', hs', h⟩ := bind_eq_some_iff.mp h
  obtain ⟨next', hnext', h⟩ := bind_eq_some_iff.mp h
  cases h
  exact ⟨hs', hnext'⟩

theorem eliminate_split (h : eliminate v exprs = some (s, next)) :
    s.Meets σ v ↔ Meets σ exprs := by
  rw [perform_splitOne_meets (eliminate_eq_some h).1, and_iff_right_iff_imp]
  intro _
  simp [Split.Meets, Meets]

theorem meets_next (h : eliminate v exprs = some (s, next)) (hmeets : Meets σ exprs) :
    Meets σ next := by
  obtain ⟨huppers, hlowers, hrest⟩ := (eliminate_split h).mpr hmeets
  refine (next_meets (eliminate_eq_some h).2).mpr ⟨hrest, fun u hu l hl => ?_⟩
  rw [Bool.or_comm]
  exact (hlowers l hl).trans (huppers u hu)

end Meaning

/-! ### The variables of a round -/

section Variables

variable {v k : String} {s s' : Split} {c : NormRel × RatExpr} {exprs next : Norm}
  {vars : Finset String}

theorem mem_collectVars : k ∈ collectVars exprs ↔ ∃ c ∈ exprs, k ∈ c.2.coeffs.keys := by
  induction exprs with
  | nil => simp [collectVars]
  | cons c exprs ih =>
    rw [exists_mem_cons_iff, ← ih, collectVars, foldr_cons, Finset.mem_union,
      List.mem_toFinset]
    rfl

/-- The variables of an expression are among some, and not the one eliminated. -/
def Without (v : String) (vars : Finset String) (e : RatExpr) : Prop :=
  ∀ k ∈ e.coeffs.keys, k ≠ v ∧ k ∈ vars

def Split.Without (v : String) (vars : Finset String) (s : Split) : Prop :=
  (∀ u ∈ s.uppers, Eidos.Without v vars u.1) ∧ (∀ l ∈ s.lowers, Eidos.Without v vars l.1) ∧
    ∀ c ∈ s.rest, Eidos.Without v vars c.2

theorem without_of_isZero {e : RatExpr} (hzero : ((e.coeffs.get v).getD Rat.zero).isZero = true)
    (he : ∀ k ∈ e.coeffs.keys, k ∈ vars) : Without v vars e := by
  intro k hk
  refine ⟨?_, he k hk⟩
  rintro rfl
  cases hget : e.coeffs.get k with
  | none => exact OrdMap.get_eq_none.mp hget hk
  | some r =>
    rw [hget, getD_some, e.get_nonzero hget] at hzero
    cases hzero

theorem without_boundOn {cv : Rat} {e bound : RatExpr} (h : boundOn v cv e = some bound)
    (he : ∀ k ∈ e.coeffs.keys, k ∈ vars) : Without v vars bound := by
  obtain ⟨inv, _, h⟩ := bind_eq_some_iff.mp h
  obtain ⟨neg, hneg, h⟩ := bind_eq_some_iff.mp h
  intro k hk
  have hremove : k ∈ (e.remove v).coeffs.keys :=
    RatExpr.keys_checkedNeg hneg ▸ RatExpr.keys_checkedScale h hk
  obtain ⟨hne, hk⟩ := OrdMap.mem_keys_erase hremove
  exact ⟨hne, he k hk⟩

theorem splitOne_without (hs : s.Without v vars) (hc : ∀ k ∈ c.2.coeffs.keys, k ∈ vars)
    (h : splitOne v s c = some s') : s'.Without v vars := by
  obtain ⟨huppers, hlowers, hrest⟩ := hs
  obtain ⟨hzero, rfl⟩ | ⟨cv, bound, _, hbound, ⟨_, rfl⟩ | ⟨_, rfl⟩⟩ := splitOne_cases h
  · refine ⟨huppers, hlowers, forall_mem_append.mpr ⟨hrest, ?_⟩⟩
    exact forall_mem_singleton.mpr (without_of_isZero hzero hc)
  · refine ⟨forall_mem_append.mpr ⟨huppers, ?_⟩, hlowers, hrest⟩
    exact forall_mem_singleton.mpr (without_boundOn hbound hc)
  · refine ⟨huppers, forall_mem_append.mpr ⟨hlowers, ?_⟩, hrest⟩
    exact forall_mem_singleton.mpr (without_boundOn hbound hc)

theorem perform_splitOne_without (hs : s.Without v vars)
    (hexprs : ∀ c ∈ exprs, ∀ k ∈ c.2.coeffs.keys, k ∈ vars)
    (h : perform (splitOne v) s exprs = some s') : s'.Without v vars := by
  induction exprs generalizing s with
  | nil =>
    cases h
    exact hs
  | cons c exprs ih =>
    obtain ⟨mid, hmid, h⟩ := perform_cons_eq_some.mp h
    obtain ⟨hc, hexprs⟩ := forall_mem_cons.mp hexprs
    exact ih (splitOne_without hs hc hmid) hexprs h

theorem eliminate_without (h : eliminate v exprs = some (s, next)) :
    s.Without v (collectVars exprs) := by
  refine perform_splitOne_without ?_ ?_ (eliminate_eq_some h).1
  · simp [Split.Without]
  · intro c hc k hk
    exact mem_collectVars.mpr ⟨c, hc, hk⟩

theorem combineAll_without {ps : List ((RatExpr × Bool) × (RatExpr × Bool))}
    (hps : ∀ p ∈ ps, Without v vars p.1.1 ∧ Without v vars p.2.1) (h : combineAll ps = some next) :
    ∀ c ∈ next, Without v vars c.2 := by
  induction ps generalizing next with
  | nil =>
    cases h
    simp
  | cons p ps ih =>
    obtain ⟨c, hc, h⟩ := bind_eq_some_iff.mp h
    obtain ⟨cs, hcs, h⟩ := bind_eq_some_iff.mp h
    obtain ⟨combined, hcombined, hc⟩ := bind_eq_some_iff.mp hc
    obtain ⟨⟨hu, hl⟩, hps⟩ := forall_mem_cons.mp hps
    cases h
    cases hc
    refine forall_mem_cons.mpr ⟨fun k hk => ?_, ih hps hcs⟩
    exact (RatExpr.keys_checkedSub hcombined hk).elim (hl k) (hu k)

theorem next_without (h : eliminate v exprs = some (s, next)) :
    ∀ c ∈ next, Without v (collectVars exprs) c.2 := by
  obtain ⟨huppers, hlowers, hrest⟩ := eliminate_without h
  obtain ⟨combined, hcombined, rfl⟩ := next_eq_some (eliminate_eq_some h).2
  refine forall_mem_append.mpr ⟨hrest, combineAll_without ?_ hcombined⟩
  rintro ⟨u, l⟩ hp
  obtain ⟨hu, hl⟩ := mem_product.mp hp
  exact ⟨huppers u hu, hlowers l hl⟩

theorem collectVars_next (h : eliminate v exprs = some (s, next)) :
    collectVars next ⊆ (collectVars exprs).erase v := by
  intro k hk
  obtain ⟨c, hc, hk⟩ := mem_collectVars.mp hk
  exact Finset.mem_erase.mpr (next_without h c hc k hk)

theorem card_collectVars_next (hv : v ∈ collectVars exprs)
    (h : eliminate v exprs = some (s, next)) :
    (collectVars next).card < (collectVars exprs).card :=
  (Finset.card_le_card (collectVars_next h)).trans_lt (Finset.card_erase_lt_of_mem hv)

end Variables

/-! ### Deciding unsatisfiability -/

/-- A constraint without variables that does not hold. -/
def constantFails (c : NormRel × RatExpr) : Bool :=
  match c.1 with
  | .le => c.2.constant.isPos
  | .lt => !c.2.constant.isNeg

def fmUnsat (exprs : Norm) : Bool :=
  if h : (collectVars exprs).Nonempty then
    match _ : eliminate ((collectVars exprs).min' h) exprs with
    | none => false
    | some (_, next) => fmUnsat next
  else exprs.any constantFails
termination_by (collectVars exprs).card
decreasing_by exact card_collectVars_next (Finset.min'_mem _ h) ‹_›

def unsat (constraints : List Constraint) : Bool :=
  match normalizeAll constraints with
  | some norm => fmUnsat norm
  | none => false

def negate (c : Constraint) : List Constraint :=
  match c.rel with
  | .le => [⟨.gt, c.e⟩]
  | .lt => [⟨.ge, c.e⟩]
  | .ge => [⟨.lt, c.e⟩]
  | .gt => [⟨.le, c.e⟩]
  | .eq => [⟨.lt, c.e⟩, ⟨.gt, c.e⟩]

def entails (premises : List Constraint) (conclusion : Constraint) : Bool :=
  match conclusion.rel with
  | .eq => unsat (premises ++ [⟨.lt, conclusion.e⟩]) && unsat (premises ++ [⟨.gt, conclusion.e⟩])
  | _ => unsat (premises ++ negate conclusion)

/-! ### Soundness -/

section Sound

variable {K : Type u} [Field K] {σ : String → K} {exprs : Norm}

theorem eval_of_collectVars (h : ¬(collectVars exprs).Nonempty) {c : NormRel × RatExpr}
    (hc : c ∈ exprs) : c.2.eval σ = c.2.constant.value := by
  have hkeys : c.2.coeffs.entries = [] := by
    refine eq_nil_iff_forall_not_mem.mpr fun p hp => h ⟨p.1, ?_⟩
    exact mem_collectVars.mpr ⟨c, hc, OrdMap.mem_keys_of_mem hp⟩
  rw [RatExpr.eval, OrdMap.sum, hkeys, map_nil, sum_nil, zero_add]

variable [LinearOrder K]

theorem satisfies_append {cs cs' : List Constraint} :
    Satisfies σ (cs ++ cs') ↔ Satisfies σ cs ∧ Satisfies σ cs' :=
  forall_mem_append

theorem satisfies_singleton {c : Constraint} : Satisfies σ [c] ↔ c.Holds σ :=
  forall_mem_singleton

theorem satisfies_negate {c : Constraint} (hrel : c.rel ≠ .eq) :
    Satisfies σ (negate c) ↔ ¬c.Holds σ := by
  unfold negate Constraint.Holds
  cases h : c.rel with
  | le => exact satisfies_singleton.trans not_le.symm
  | lt => exact satisfies_singleton.trans not_lt.symm
  | ge => exact satisfies_singleton.trans not_le.symm
  | gt => exact satisfies_singleton.trans not_lt.symm
  | eq => exact absurd h hrel

variable [IsStrictOrderedRing K]

theorem constantFails_iff (h : ¬(collectVars exprs).Nonempty) {c : NormRel × RatExpr}
    (hc : c ∈ exprs) : constantFails c = true ↔ ¬Below c.1.strict (c.2.eval σ) 0 := by
  rw [eval_of_collectVars h hc, constantFails]
  cases c.1 with
  | le =>
    change c.2.constant.isPos = true ↔ ¬(c.2.constant.value : K) ≤ 0
    rw [Rat.isPos_iff, Rat.cast_nonpos, not_le]
  | lt =>
    change (!c.2.constant.isNeg) = true ↔ ¬(c.2.constant.value : K) < 0
    rw [Bool.not_eq_true', ← Bool.not_eq_true, Rat.isNeg_iff, Rat.cast_lt_zero]

theorem not_meets_of_fmUnsat (h : fmUnsat exprs = true) : ¬Meets σ exprs := by
  induction exprs using fmUnsat.induct with
  | case1 exprs hvars helim =>
    rw [fmUnsat, dif_pos hvars] at h
    split at h
    · cases h
    · next hsome =>
      rw [helim] at hsome
      cases hsome
  | case2 exprs hvars s next helim ih =>
    rw [fmUnsat, dif_pos hvars] at h
    split at h
    · cases h
    · next hsome =>
      rw [helim] at hsome
      cases hsome
      exact fun hmeets => ih h (meets_next helim hmeets)
  | case3 exprs hvars =>
    rw [fmUnsat, dif_neg hvars] at h
    obtain ⟨c, hc, hfails⟩ := any_eq_true.mp h
    exact fun hmeets => (constantFails_iff hvars hc).mp hfails (hmeets c hc)

theorem not_satisfies_of_unsat {cs : List Constraint} (h : unsat cs = true) : ¬Satisfies σ cs := by
  unfold unsat at h
  split at h
  · next norm hnorm => exact fun hcs => not_meets_of_fmUnsat h ((meets_normalizeAll hnorm).mpr hcs)
  · cases h

theorem entails_eq_of_ne {premises : List Constraint} {c : Constraint} (hrel : c.rel ≠ .eq) :
    entails premises c = unsat (premises ++ negate c) := by
  unfold entails
  split
  · next h => exact absurd h hrel
  · rfl

theorem holds_of_entails {premises : List Constraint} {c : Constraint}
    (h : entails premises c = true) (hpremises : Satisfies σ premises) : c.Holds σ := by
  by_cases hrel : c.rel = .eq
  · rw [entails, hrel] at h
    obtain ⟨hlt, hgt⟩ := Bool.and_eq_true_iff.mp h
    have hge : ¬c.e.eval σ < 0 := fun hlt' => not_satisfies_of_unsat hlt
      (satisfies_append.mpr ⟨hpremises, satisfies_singleton.mpr hlt'⟩)
    have hle : ¬0 < c.e.eval σ := fun hgt' => not_satisfies_of_unsat hgt
      (satisfies_append.mpr ⟨hpremises, satisfies_singleton.mpr hgt'⟩)
    rw [Constraint.Holds, hrel]
    exact le_antisymm (not_lt.mp hle) (not_lt.mp hge)
  · rw [entails_eq_of_ne hrel] at h
    by_contra hnot
    exact not_satisfies_of_unsat h
      (satisfies_append.mpr ⟨hpremises, (satisfies_negate hrel).mpr hnot⟩)

end Sound

/-- The decision procedure is sound: a system that it calls unsatisfiable has no
solution, what it says is entailed is so, and its arithmetic is exact where it does
not give up. -/
theorem unsat_entails_sound (cs premises : List Constraint) (c : Constraint) :
    (unsat cs = true → ¬∃ σ : String → ℚ, Satisfies σ cs) ∧
      (entails premises c = true → ∀ σ : String → ℚ, Satisfies σ premises → c.Holds σ) ∧
        ∀ (r s : Rat) (f : F64), Rat.Exact r s f :=
  ⟨fun h ⟨_, hσ⟩ => not_satisfies_of_unsat h hσ, fun h _ => holds_of_entails h, Rat.exact⟩

example : unsat [⟨.lt, (LinExpr.var "x").sub (.var "y")⟩, ⟨.lt, (LinExpr.var "y").sub (.var "z")⟩,
    ⟨.lt, (LinExpr.var "z").sub (.var "x")⟩] = true := by decide +kernel

end Oikos.Eidos
