/-
The arithmetic of the solver, which is done with 128 bits and never checked: it is exact as
long as in every round the products of two bounds on the variable of the round are small.
-/
import Oikos.Telos.SearchOrder
import Mathlib.Algebra.Order.BigOperators.Group.List
import Mathlib.Algebra.Order.Group.Int

namespace Oikos.Telos

open List

/-! ### The numbers that are computed -/

/-- A result that is exact as an `i128`. -/
def FitsI128 (n : Int) : Prop :=
  -2 ^ 127 ≤ n ∧ n < 2 ^ 127

/-- The results of some operations, as integers; up to the first that does not fit they are
those of the machine. -/
def Exact (results : List Int) : Prop :=
  ∀ n ∈ results, FitsI128 n

instance decidableExact (results : List Int) : Decidable (Exact results) :=
  inferInstanceAs (Decidable (∀ n ∈ results, -2 ^ 127 ≤ n ∧ n < 2 ^ 127))

/-- In which order the hash map of a linear form lists its terms. -/
structure EntryOrder where
  entries : OrdMap String Int → List (String × Int)
  perm : ∀ m, (entries m).Perm m.entries

def EntryOrder.sorted : EntryOrder :=
  ⟨OrdMap.entries, fun _ => Perm.refl _⟩

def negTermsArith (terms : List (String × Int)) : List Int :=
  terms.map fun t => -t.2

def Constraint.toArith (c : Constraint) : List Int :=
  match c.rel with
  | .le => [-c.lin.constant]
  | .lt => [-c.lin.constant, -c.lin.constant - 1]
  | .ge => negTermsArith c.lin.terms
  | .gt => negTermsArith c.lin.terms ++ [c.lin.constant - 1]
  | .eq => -c.lin.constant :: negTermsArith c.lin.terms
  | .ne => []

def toArith (cs : List Constraint) : List Int :=
  cs.flatMap Constraint.toArith

/-- `a * x - b * y`. -/
def crossArith (a x b y : Int) : List Int :=
  [a * x, b * y, a * x - b * y]

/-- A round: its variable and the system before it. -/
structure Round where
  var : String
  ineqs : List LinIneq

def Round.split (r : Round) : Split :=
  r.ineqs.foldl (splitOne r.var) ⟨[], [], []⟩

/-! #### Refutation -/

/-- Every number of a lower bound is negated. -/
def VarBound.negArith (l : VarBound) : List Int :=
  l.factor :: l.bound :: l.others.entries.map Prod.snd

def combineArith (u l : VarBound) : List Int :=
  ((mergeKeys u.others l.others).flatMap fun k =>
    crossArith l.factor (u.others.coeff k) u.factor (l.others.coeff k)) ++
    crossArith l.factor u.bound u.factor l.bound

def Round.unsatArith (r : Round) : List Int :=
  r.split.lowers.flatMap VarBound.negArith ++
    (r.split.uppers.product r.split.lowers).flatMap fun p => combineArith p.1 p.2

/-- The rounds of a refutation, whose variables are listed before the first. -/
def unsatRounds : List String → List LinIneq → List Round
  | [], _ => []
  | v :: vs, ineqs => ⟨v, ineqs⟩ :: unsatRounds vs (eliminate ineqs v)

def refutation (order : HashOrder) (cs : List Constraint) : List Round :=
  unsatRounds (order.vars (toInequalities cs)) (toInequalities cs)

def unsatArith (order : HashOrder) (cs : List Constraint) : List Int :=
  toArith cs ++ (refutation order cs).flatMap Round.unsatArith

/-- The branches up to the first that is not refuted. -/
def triedBranches (order : HashOrder) (premises : List Constraint) :
    List (List Constraint) → List (List Constraint)
  | [] => []
  | branch :: branches =>
    branch :: if unsat order (premises ++ branch) then triedBranches order premises branches else []

def entailsArith (order : HashOrder) (premises : List Constraint) (concl : Constraint) : List Int :=
  (triedBranches order premises (negate concl)).flatMap fun branch =>
    unsatArith order (premises ++ branch)

def entailment (order : HashOrder) (premises : List Constraint) (concl : Constraint) : List Round :=
  (triedBranches order premises (negate concl)).flatMap fun branch =>
    refutation order (premises ++ branch)

/-! #### Models -/

/-- A lower bound as its inequality has it. -/
def VarBound.asWritten (l : VarBound) : VarBound :=
  ⟨-l.factor, -l.bound, l.others.map fun c => -c⟩

/-- The search for a model keeps the signs of its lower bounds. -/
def combineSearchArith (u l : VarBound) : List Int :=
  ((mergeKeys u.others l.others).flatMap fun k =>
    crossArith u.factor (l.others.coeff k) l.factor (u.others.coeff k)) ++
    crossArith u.factor l.bound l.factor u.bound

def Round.combineArith (r : Round) : List Int :=
  (r.split.uppers.product r.split.lowers).flatMap fun p => combineSearchArith p.1 p.2.asWritten

/-- The products and the sums of them so far. -/
def evalArith (entryOrder : EntryOrder) (coeffs : OrdMap String Int) (model : Model) : List Int :=
  let products := (entryOrder.entries coeffs).map fun p => p.2 * model.coeff p.1
  products ++ products.scanl (· + ·) 0

namespace Frac

def newArith (num den : Int) : List Int :=
  (if den < 0 then [-num, -den] else []) ++ [(Frac.new num den).num, (Frac.new num den).den]

def ceilArith (f : Frac) : List Int :=
  [f.num / f.den, f.num % f.den] ++ if f.num % f.den = 0 then [] else [f.num / f.den + 1]

def floorArith (f : Frac) : List Int :=
  [f.num / f.den]

def compareArith : Option Frac → Frac → List Int
  | none, _ => []
  | some x, f => [f.num * x.den, x.num * f.den]

end Frac

def VarBound.frac (model : Model) (b : VarBound) : Frac :=
  .new (b.bound - evalCoeffs b.others model) b.factor

/-- For a lower bound the numerator is found as `lc_val - c2` and the denominator as `-b`. -/
def VarBound.lowerArith (entryOrder : EntryOrder) (model : Model) (l : VarBound) : List Int :=
  evalArith entryOrder l.asWritten.others model ++
    [evalCoeffs l.asWritten.others model - l.asWritten.bound, -l.asWritten.factor] ++
    Frac.newArith (l.bound - evalCoeffs l.others model) l.factor

def VarBound.upperArith (entryOrder : EntryOrder) (model : Model) (u : VarBound) : List Int :=
  evalArith entryOrder u.others model ++ [u.bound - evalCoeffs u.others model] ++
    Frac.newArith (u.bound - evalCoeffs u.others model) u.factor

def bestArith (pick : Option Frac → Frac → Option Frac) (model : Model)
    (arith : VarBound → List Int) :
    Option Frac → List VarBound → List Int
  | _, [] => []
  | best, b :: bs =>
    arith b ++ Frac.compareArith best (b.frac model) ++
      bestArith pick model arith (pick best (b.frac model)) bs

def bestFrac (pick : Option Frac → Frac → Option Frac) (model : Model) (bs : List VarBound) :
    Option Frac :=
  bs.foldl (fun best b => pick best (b.frac model)) none

def Round.valueArith (entryOrder : EntryOrder) (model : Model) (r : Round) : List Int :=
  bestArith Frac.pickGreater model (VarBound.lowerArith entryOrder model) none r.split.lowers ++
    bestArith Frac.pickLess model (VarBound.upperArith entryOrder model) none r.split.uppers ++
    ((bestFrac Frac.pickGreater model r.split.lowers).elim [] Frac.ceilArith ++
      (bestFrac Frac.pickLess model r.split.uppers).elim [] Frac.floorArith)

def searchRounds (order : HashOrder) : Nat → List LinIneq → List Round
  | 0, _ => []
  | fuel + 1, ineqs =>
    match order.vars ineqs with
    | [] => []
    | v :: _ => ⟨v, ineqs⟩ :: searchRounds order fuel (eliminate ineqs v)

def solveModelArith (order : HashOrder) (entryOrder : EntryOrder) : Nat → List LinIneq → List Int
  | 0, _ => []
  | fuel + 1, ineqs =>
    match order.vars ineqs with
    | [] => []
    | v :: _ =>
      let r : Round := ⟨v, ineqs⟩
      r.combineArith ++ solveModelArith order entryOrder fuel (eliminate ineqs v) ++
        match solveModel order fuel (eliminate ineqs v) with
        | .ok (some model) => r.valueArith entryOrder model
        | _ => []

def modelArith (order : HashOrder) (entryOrder : EntryOrder) (fuel : Nat) (cs : List Constraint) :
    List Int :=
  toArith cs ++ solveModelArith order entryOrder fuel (toInequalities cs)

/-! ### Rounds that stay small -/

/-- The coefficients and constants are 64-bit integers. -/
def Words (cs : List Constraint) : Prop :=
  ∀ c ∈ cs, (-2 ^ 63 ≤ c.lin.constant ∧ c.lin.constant < 2 ^ 63) ∧
    ∀ t ∈ c.lin.terms, -2 ^ 63 ≤ t.2 ∧ t.2 < 2 ^ 63

/-- Two products and their difference are within a limit: the products are, and where their
signs differ they are together. -/
def Joined (limit x y : Int) : Prop :=
  |x| ≤ limit ∧ |y| ≤ limit ∧ (x * y < 0 → |x| + |y| ≤ limit)

def Combines (limit : Int) (u l : VarBound) : Prop :=
  (∀ k ∈ mergeKeys u.others l.others,
    Joined limit (l.factor * u.others.coeff k) (u.factor * l.others.coeff k)) ∧
    Joined limit (l.factor * u.bound) (u.factor * l.bound)

/-- How large a bound can get where the others have 64-bit values. -/
def VarBound.reach (b : VarBound) : Int :=
  |b.bound| + (b.others.sum fun _ c => |c|) * 2 ^ 63

/-- Two bounds from the same side can be compared. -/
def Compares (bs : List VarBound) : Prop :=
  ∀ b ∈ bs, ∀ b' ∈ bs, b.reach * b'.factor < 2 ^ 127

def Round.Combines (limit : Int) (r : Round) : Prop :=
  ∀ u ∈ r.split.uppers, ∀ l ∈ r.split.lowers, Telos.Combines limit u l

def Round.Compares (r : Round) : Prop :=
  Telos.Compares r.split.lowers ∧ Telos.Compares r.split.uppers

instance decidableWords (cs : List Constraint) : Decidable (Words cs) :=
  inferInstanceAs (Decidable (∀ c ∈ cs, (_ ∧ _) ∧ ∀ t ∈ c.lin.terms, _ ∧ _))

instance Round.decidableCombines (limit : Int) (r : Round) : Decidable (r.Combines limit) :=
  inferInstanceAs (Decidable (∀ u ∈ r.split.uppers, ∀ l ∈ r.split.lowers,
    (∀ k ∈ mergeKeys u.others l.others, _ ∧ _ ∧ (_ → _)) ∧ _ ∧ _ ∧ (_ → _)))

instance Round.decidableCompares (r : Round) : Decidable r.Compares :=
  inferInstanceAs (Decidable ((∀ b ∈ r.split.lowers, ∀ b' ∈ r.split.lowers, _) ∧
    ∀ b ∈ r.split.uppers, ∀ b' ∈ r.split.uppers, _))

/-! ### Systems of small numbers -/

section Small

variable {a x b y n : Int} {m : OrdMap String Int} {u l : VarBound} {ineq : LinIneq}
  {ineqs : List LinIneq} {r : Round} {vs : List String} {cs : List Constraint} {order : HashOrder}

theorem fitsI128_of_abs (h : |n| < 2 ^ 127) : FitsI128 n :=
  ⟨(abs_lt.mp h).1.le, (abs_lt.mp h).2⟩

theorem exact_append {results results' : List Int} :
    Exact (results ++ results') ↔ Exact results ∧ Exact results' :=
  forall_mem_append

theorem exact_flatMap {α : Type} {xs : List α} {arith : α → List Int} :
    Exact (xs.flatMap arith) ↔ ∀ x ∈ xs, Exact (arith x) := by
  constructor
  · exact fun h x hx n hn => h n (mem_flatMap_of_mem hx hn)
  · intro h n hn
    obtain ⟨x, hx, hn⟩ := mem_flatMap.mp hn
    exact h x hx n hn

theorem Joined.abs_sub_le {limit : Int} (h : Joined limit x y) : |x - y| ≤ limit := by
  obtain ⟨hx, hy, hdiffer⟩ := h
  rcases lt_or_ge (x * y) 0 with hneg | hpos
  · exact (abs_sub x y).trans (hdiffer hneg)
  · rw [abs_le] at hx hy ⊢
    rcases mul_nonneg_iff.mp hpos with ⟨_, _⟩ | ⟨_, _⟩
    · exact ⟨by omega, by omega⟩
    · exact ⟨by omega, by omega⟩

theorem Joined.neg_swap {limit : Int} (h : Joined limit x y) : Joined limit (-y) (-x) := by
  obtain ⟨hx, hy, hdiffer⟩ := h
  rw [Joined, abs_neg, abs_neg, neg_mul_neg, mul_comm, add_comm]
  exact ⟨hy, hx, hdiffer⟩

theorem joined_of_fits (hx : FitsI128 x) (hy : FitsI128 y) (hsub : FitsI128 (x - y)) :
    Joined (2 ^ 127) x y := by
  obtain ⟨hxlow, hxhigh⟩ := hx
  obtain ⟨hylow, hyhigh⟩ := hy
  obtain ⟨hlow, hhigh⟩ := hsub
  refine ⟨abs_le.mpr ⟨hxlow, hxhigh.le⟩, abs_le.mpr ⟨hylow, hyhigh.le⟩, fun hneg => ?_⟩
  rcases mul_neg_iff.mp hneg with ⟨hpos, hneg⟩ | ⟨hneg, hpos⟩
  · rw [abs_of_pos hpos, abs_of_neg hneg]
    omega
  · rw [abs_of_neg hneg, abs_of_pos hpos]
    omega

theorem exact_crossArith (h : Joined (2 ^ 127 - 1) (a * x) (b * y)) :
    Exact (crossArith a x b y) := by
  have hsub := h.abs_sub_le
  obtain ⟨hx, hy, -⟩ := h
  exact forall_mem_cons.mpr ⟨fitsI128_of_abs (by omega), forall_mem_cons.mpr
    ⟨fitsI128_of_abs (by omega), forall_mem_singleton.mpr (fitsI128_of_abs (by omega))⟩⟩

theorem joined_of_crossArith (h : Exact (crossArith a x b y)) : Joined (2 ^ 127) (a * x) (b * y) :=
  joined_of_fits (h _ (by simp [crossArith])) (h _ (by simp [crossArith]))
    (h _ (by simp [crossArith]))

/-- The numbers of an inequality can be negated. -/
def LinIneq.Small (ineq : LinIneq) : Prop :=
  |ineq.c| < 2 ^ 127 ∧ ∀ k, |ineq.coeffs.coeff k| < 2 ^ 127

def Small (ineqs : List LinIneq) : Prop :=
  ∀ ineq ∈ ineqs, ineq.Small

theorem small_combine (h : Combines (2 ^ 127 - 1) u l) : (combine u l).Small := by
  refine ⟨Int.lt_of_le_sub_one h.2.abs_sub_le, fun k => ?_⟩
  rcases (combine u l).coeffs.mem_or_coeff_eq_zero k with hmem | hzero
  · obtain ⟨hk, hvalue, -⟩ := OrdMap.mem_tabulate hmem
    have hle := (h.1 k hk).abs_sub_le
    rw [← hvalue] at hle
    exact Int.lt_of_le_sub_one hle
  · rw [hzero, abs_zero]
    decide

theorem small_eliminate (hs : Small r.ineqs) (h : r.Combines (2 ^ 127 - 1)) :
    Small (eliminate r.ineqs r.var) := by
  obtain ⟨-, -, hrest⟩ := @mem_split r.var r.ineqs
  refine forall_mem_append.mpr ⟨fun ineq hineq => hs ineq ((hrest ineq).mp hineq).1,
    forall_mem_map.mpr ?_⟩
  rintro ⟨u, l⟩ hp
  obtain ⟨hu, hl⟩ := mem_product.mp hp
  exact small_combine (h u hu l hl)

theorem exact_negArith (h : ineq.Small) (v : String) : Exact (ineq.lower v).negArith := by
  refine forall_mem_cons.mpr ⟨?_, forall_mem_cons.mpr ⟨?_, forall_mem_map.mpr ?_⟩⟩
  · exact fitsI128_of_abs ((abs_neg _).trans_lt (h.2 v))
  · exact fitsI128_of_abs ((abs_neg _).trans_lt h.1)
  · intro p hp
    obtain ⟨q, hq, rfl⟩ := mem_map.mp hp
    have hlt := h.2 q.1
    rw [OrdMap.coeff_of_mem (OrdMap.mem_erase.mp hq).1] at hlt
    exact fitsI128_of_abs ((abs_neg _).trans_lt hlt)

theorem exact_combineArith (h : Combines (2 ^ 127 - 1) u l) : Exact (combineArith u l) :=
  exact_append.mpr ⟨exact_flatMap.mpr fun k hk => exact_crossArith (h.1 k hk), exact_crossArith h.2⟩

theorem combines_of_exact (h : Exact (combineArith u l)) : Combines (2 ^ 127) u l := by
  obtain ⟨hcoeffs, hbounds⟩ := exact_append.mp h
  exact ⟨fun k hk => joined_of_crossArith (exact_flatMap.mp hcoeffs k hk),
    joined_of_crossArith hbounds⟩

theorem Round.exact_unsatArith (hs : Small r.ineqs) (h : r.Combines (2 ^ 127 - 1)) :
    Exact r.unsatArith := by
  refine exact_append.mpr ⟨exact_flatMap.mpr fun l hl => ?_, exact_flatMap.mpr fun p hp => ?_⟩
  · obtain ⟨ineq, hineq, -, rfl⟩ := ((@mem_split r.var r.ineqs).2.1 l).mp hl
    exact exact_negArith (hs ineq hineq) r.var
  · obtain ⟨hu, hl⟩ := mem_product.mp hp
    exact exact_combineArith (h p.1 hu p.2 hl)

theorem Round.combines_of_exact (h : Exact r.unsatArith) : r.Combines (2 ^ 127) := fun u hu l hl =>
  Telos.combines_of_exact (exact_flatMap.mp (exact_append.mp h).2 (u, l)
    (mem_product.mpr ⟨hu, hl⟩))

theorem exact_unsatRounds (hs : Small ineqs)
    (h : ∀ r ∈ unsatRounds vs ineqs, r.Combines (2 ^ 127 - 1)) :
    Exact ((unsatRounds vs ineqs).flatMap Round.unsatArith) := by
  induction vs generalizing ineqs with
  | nil => exact nofun
  | cons v vs ih =>
    obtain ⟨hround, hrounds⟩ := forall_mem_cons.mp h
    have hsmall := @small_eliminate ⟨v, ineqs⟩ hs hround
    exact exact_append.mpr ⟨Round.exact_unsatArith hs hround, ih hsmall hrounds⟩

/-! #### Constraints of 64-bit numbers -/

theorem small_of_words (h : Words cs) : Small (toInequalities cs) := by
  intro ineq hineq
  obtain ⟨c, hc, hineq⟩ := mem_flatMap.mp hineq
  obtain ⟨hconstant, hterms⟩ := h c hc
  have hbase : ∀ k, |(OrdMap.ofPairs c.lin.terms).coeff k| < 2 ^ 127 := by
    intro k
    rcases (OrdMap.ofPairs c.lin.terms).mem_or_coeff_eq_zero k with hmem | hzero
    · have hterm := hterms _ (OrdMap.mem_ofPairs hmem)
      dsimp only at hterm
      exact abs_lt.mpr ⟨by omega, by omega⟩
    · rw [hzero, abs_zero]
      decide
  have hneg : ∀ k, |(negTerms c.lin.terms).coeff k| < 2 ^ 127 := by
    intro k
    rcases (negTerms c.lin.terms).mem_or_coeff_eq_zero k with hmem | hzero
    · obtain ⟨t, ht, heq⟩ := mem_map.mp (OrdMap.mem_ofPairs hmem)
      have hterm := hterms t ht
      have hvalue := congrArg Prod.snd heq
      dsimp only at hvalue
      exact abs_lt.mpr ⟨by omega, by omega⟩
    · rw [hzero, abs_zero]
      decide
  have hle : |-c.lin.constant| < 2 ^ 127 := abs_lt.mpr ⟨by omega, by omega⟩
  have hlt : |-c.lin.constant - 1| < 2 ^ 127 := abs_lt.mpr ⟨by omega, by omega⟩
  have hge : |c.lin.constant| < 2 ^ 127 := abs_lt.mpr ⟨by omega, by omega⟩
  have hgt : |c.lin.constant - 1| < 2 ^ 127 := abs_lt.mpr ⟨by omega, by omega⟩
  unfold Constraint.toInequalities at hineq
  cases hrel : c.rel <;> simp only [hrel, mem_cons, not_mem_nil, or_false] at hineq
  case eq =>
    rcases hineq with rfl | rfl
    · exact ⟨hle, hbase⟩
    · exact ⟨hge, hneg⟩
  all_goals subst hineq
  case le => exact ⟨hle, hbase⟩
  case lt => exact ⟨hlt, hbase⟩
  case ge => exact ⟨hge, hneg⟩
  case gt => exact ⟨hgt, hneg⟩

theorem exact_toArith (h : Words cs) : Exact (toArith cs) := by
  refine exact_flatMap.mpr fun c hc => ?_
  obtain ⟨hconstant, hterms⟩ := h c hc
  have hneg : Exact (negTermsArith c.lin.terms) :=
    forall_mem_map.mpr fun t ht => by
      have hterm := hterms t ht
      exact ⟨by omega, by omega⟩
  have hle : FitsI128 (-c.lin.constant) := ⟨by omega, by omega⟩
  have hlt : FitsI128 (-c.lin.constant - 1) := ⟨by omega, by omega⟩
  have hgt : FitsI128 (c.lin.constant - 1) := ⟨by omega, by omega⟩
  unfold Constraint.toArith
  cases c.rel with
  | le => exact forall_mem_singleton.mpr hle
  | lt => exact forall_mem_cons.mpr ⟨hle, forall_mem_singleton.mpr hlt⟩
  | ge => exact hneg
  | gt => exact exact_append.mpr ⟨hneg, forall_mem_singleton.mpr hgt⟩
  | eq => exact forall_mem_cons.mpr ⟨hle, hneg⟩
  | ne => exact nofun

theorem exact_unsatArith (hwords : Words cs)
    (h : ∀ r ∈ refutation order cs, r.Combines (2 ^ 127 - 1)) : Exact (unsatArith order cs) :=
  exact_append.mpr ⟨exact_toArith hwords, exact_unsatRounds (small_of_words hwords) h⟩

theorem combines_of_unsatArith (h : Exact (unsatArith order cs)) :
    ∀ r ∈ refutation order cs, r.Combines (2 ^ 127) := fun r hr =>
  Round.combines_of_exact (exact_flatMap.mp (exact_append.mp h).2 r hr)

end Small

/-! ### Values that stay small -/

section Sums

variable {x a : Int} {xs : List Int}

theorem abs_le_of_mem_scanl (h : x ∈ xs.scanl (· + ·) a) : |x| ≤ |a| + (xs.map abs).sum := by
  induction xs generalizing a with
  | nil =>
    obtain rfl := mem_singleton.mp h
    simp
  | cons y xs ih =>
    rw [map_cons, sum_cons]
    have hsum : 0 ≤ (xs.map abs).sum := sum_nonneg (by simp)
    have hy := abs_nonneg y
    rcases mem_cons.mp (scanl_cons ▸ h) with rfl | h
    · omega
    · have hle := ih h
      have hadd := abs_add_le a y
      omega

theorem sum_mem_scanl (xs : List Int) (a : Int) : a + xs.sum ∈ xs.scanl (· + ·) a := by
  induction xs generalizing a with
  | nil => simp
  | cons y xs ih =>
    rw [scanl_cons, sum_cons, ← add_assoc]
    exact mem_cons_of_mem _ (ih (a + y))

theorem abs_le_sum (h : x ∈ xs) : |x| ≤ (xs.map abs).sum :=
  single_le_sum (by simp) _ (mem_map_of_mem h)

end Sums

section Values

variable {fuel : Nat} {ineqs : List LinIneq} {model : Model} {order : HashOrder}
  {entryOrder : EntryOrder} {coeffs : OrdMap String Int} {n num den : Int} {b u l : VarBound}

def Model.InWords (model : Model) : Prop :=
  ∀ v, |model.value v| ≤ 2 ^ 63

theorem abs_asI64 (n : Int) : |asI64 n| ≤ 2 ^ 63 := by
  have hlow := @Int.le_bmod n (2 ^ 64) (by decide)
  have hhigh := @Int.bmod_lt n (2 ^ 64) (by decide)
  exact abs_le.mpr ⟨by unfold asI64; omega, by unfold asI64; omega⟩

theorem inWords_of_solveModel (h : solveModel order fuel ineqs = .ok (some model)) :
    model.InWords := by
  induction fuel generalizing ineqs model with
  | zero => cases h
  | succ fuel ih =>
    cases hvars : order.vars ineqs with
    | nil =>
      rw [solveModel, hvars] at h
      have hempty := Except.ok.inj h
      split at hempty
      · cases hempty
      · obtain rfl := Option.some.inj hempty
        exact fun v => (@abs_zero Int _ _ _).trans_le (by decide)
    | cons v vars =>
      rw [solveModel_of_vars hvars] at h
      obtain ⟨r, hrest, h⟩ := bind_eq_ok.mp h
      cases r with
      | none => cases h
      | some m =>
        obtain ⟨n, -, rfl⟩ := Option.map_eq_some_iff.mp (Except.ok.inj h)
        intro k
        rw [value_insert, Function.update_apply]
        split
        · exact abs_asI64 n
        · exact ih hrest k

theorem sum_products_le (hm : model.InWords) :
    (((entryOrder.entries coeffs).map fun p => p.2 * model.coeff p.1).map abs).sum ≤
      (coeffs.sum fun _ c => |c|) * 2 ^ 63 := by
  have hentry : ∀ p : String × Int, |p.2 * model.coeff p.1| ≤ |p.2| * 2 ^ 63 := fun p => by
    rw [abs_mul]
    exact mul_le_mul_of_nonneg_left (hm p.1) (abs_nonneg _)
  rw [OrdMap.sum, ← sum_map_mul_right, map_map,
    ((entryOrder.perm coeffs).map _).sum_eq]
  exact sum_le_sum fun p _ => hentry p

theorem abs_evalCoeffs_le (coeffs : OrdMap String Int) (hm : model.InWords) :
    |evalCoeffs coeffs model| ≤ (coeffs.sum fun _ c => |c|) * 2 ^ 63 := by
  have hmem := sum_mem_scanl (coeffs.entries.map fun p => p.2 * model.coeff p.1) 0
  have hle := abs_le_of_mem_scanl hmem
  rw [zero_add, abs_zero, zero_add] at hle
  exact hle.trans (@sum_products_le model .sorted coeffs hm)

theorem exact_evalArith (hm : model.InWords) (h : (coeffs.sum fun _ c => |c|) * 2 ^ 63 < 2 ^ 127) :
    Exact (evalArith entryOrder coeffs model) := by
  have hsum := @sum_products_le model entryOrder coeffs hm
  refine exact_append.mpr ⟨fun n hn => fitsI128_of_abs ?_, fun n hn => fitsI128_of_abs ?_⟩
  · exact ((abs_le_sum hn).trans hsum).trans_lt h
  · have hle := abs_le_of_mem_scanl hn
    rw [abs_zero, zero_add] at hle
    exact (hle.trans hsum).trans_lt h

/-! #### Fractions -/

/-- The numbers of a fraction are no larger than those of a bound. -/
structure Frac.Within (f : Frac) (b : VarBound) : Prop where
  num_le : |f.num| ≤ b.reach
  den_pos : 0 < f.den
  den_le : f.den ≤ b.factor

theorem abs_num_le (b : VarBound) (hm : model.InWords) :
    |b.bound - evalCoeffs b.others model| ≤ b.reach :=
  (abs_sub _ _).trans (add_le_add_right (abs_evalCoeffs_le b.others hm) _)

theorem frac_within (hb : 0 < b.factor) (hm : model.InWords) : (b.frac model).Within b := by
  obtain ⟨hnew, hgcd⟩ := @Frac.new_of_pos (b.bound - evalCoeffs b.others model) b.factor hb
  refine ⟨?_, Frac.den_new_pos hb, ?_⟩
  · rw [VarBound.frac, hnew]
    exact (Int.abs_ediv_le_abs _ _).trans (abs_num_le b hm)
  · rw [VarBound.frac, hnew]
    exact Int.ediv_le_self _ hb.le

variable {bs bs' : List VarBound} {f x : Frac} {best : Option Frac}
  {pick : Option Frac → Frac → Option Frac} {arith : VarBound → List Int}

theorem sum_abs_nonneg (coeffs : OrdMap String Int) : 0 ≤ coeffs.sum fun _ c => |c| :=
  sum_nonneg (forall_mem_map.mpr fun p _ => abs_nonneg p.2)

theorem sum_abs_le_reach (b : VarBound) : (b.others.sum fun _ c => |c|) * 2 ^ 63 ≤ b.reach :=
  le_add_of_nonneg_left (abs_nonneg _)

theorem reach_nonneg (b : VarBound) : 0 ≤ b.reach :=
  (mul_nonneg (sum_abs_nonneg b.others) (by decide)).trans (sum_abs_le_reach b)

theorem Compares.reach_lt (h : Compares bs) (hb : b ∈ bs) (hpos : 0 < b.factor) :
    b.reach < 2 ^ 127 :=
  (le_mul_of_one_le_right (reach_nonneg b) hpos).trans_lt (h b hb b hb)

theorem exact_newArith (hnum : |num| < 2 ^ 127) (hpos : 0 < den) (hden : den < 2 ^ 127) :
    Exact (Frac.newArith num den) := by
  obtain ⟨hnew, -⟩ := @Frac.new_of_pos num den hpos
  rw [Frac.newArith, if_neg (by omega), hnew]
  refine forall_mem_cons.mpr ⟨?_, forall_mem_singleton.mpr ?_⟩
  · exact fitsI128_of_abs ((Int.abs_ediv_le_abs _ _).trans_lt hnum)
  · refine fitsI128_of_abs ((Int.abs_ediv_le_abs _ _).trans_lt ?_)
    rwa [abs_of_pos hpos]

theorem exact_upperArith (hm : model.InWords) (hpos : 0 < u.factor) (hfactor : u.factor < 2 ^ 127)
    (hreach : u.reach < 2 ^ 127) : Exact (u.upperArith entryOrder model) := by
  have hnum := (abs_num_le u hm).trans_lt hreach
  refine exact_append.mpr ⟨exact_append.mpr ⟨?_, ?_⟩, exact_newArith hnum hpos hfactor⟩
  · exact exact_evalArith hm ((sum_abs_le_reach u).trans_lt hreach)
  · exact forall_mem_singleton.mpr (fitsI128_of_abs hnum)

theorem exact_lowerArith (hm : model.InWords) (hpos : 0 < l.factor) (hfactor : l.factor < 2 ^ 127)
    (hreach : l.reach < 2 ^ 127) : Exact (l.lowerArith entryOrder model) := by
  have hnum := (abs_num_le l hm).trans_lt hreach
  refine exact_append.mpr ⟨exact_append.mpr ⟨?_, ?_⟩, exact_newArith hnum hpos hfactor⟩
  · refine exact_evalArith hm (((sum_abs_le_reach l).trans_lt hreach).trans_le' ?_)
    rw [VarBound.asWritten, OrdMap.sum_map]
    simp only [abs_neg, le_refl]
  · have heval : evalCoeffs l.asWritten.others model = -evalCoeffs l.others model :=
      OrdMap.dot_map_neg
    refine forall_mem_cons.mpr ⟨fitsI128_of_abs ?_, forall_mem_singleton.mpr ?_⟩
    · rw [heval, VarBound.asWritten, sub_neg_eq_add, neg_add_eq_sub]
      exact hnum
    · rw [VarBound.asWritten, neg_neg]
      exact ⟨by omega, hfactor⟩

theorem exact_compareArith {b' : VarBound} (hf : f.Within b) (hx : x.Within b')
    (h : b.reach * b'.factor < 2 ^ 127) (h' : b'.reach * b.factor < 2 ^ 127) :
    Exact (Frac.compareArith (some x) f) := by
  have hcross : ∀ {f x : Frac} {b b' : VarBound}, f.Within b → x.Within b' →
      |f.num * x.den| ≤ b.reach * b'.factor := by
    intro f x b b' hf hx
    rw [abs_mul, abs_of_pos hx.den_pos]
    exact mul_le_mul hf.num_le hx.den_le hx.den_pos.le (reach_nonneg b)
  exact forall_mem_cons.mpr ⟨fitsI128_of_abs ((hcross hf hx).trans_lt h),
    forall_mem_singleton.mpr (fitsI128_of_abs ((hcross hx hf).trans_lt h'))⟩

/-- A first fraction is picked, and later ones or those before them. -/
def Picks (pick : Option Frac → Frac → Option Frac) : Prop :=
  (∀ f, pick none f = some f) ∧ ∀ x f, pick (some x) f = some f ∨ pick (some x) f = some x

theorem picks_greater : Picks Frac.pickGreater := by
  refine ⟨fun f => rfl, fun x f => ?_⟩
  rw [Frac.pickGreater]
  split
  · exact Or.inl rfl
  · exact Or.inr rfl

theorem picks_less : Picks Frac.pickLess := by
  refine ⟨fun f => rfl, fun x f => ?_⟩
  rw [Frac.pickLess]
  split
  · exact Or.inl rfl
  · exact Or.inr rfl

def Among (bs : List VarBound) (best : Option Frac) : Prop :=
  ∀ x ∈ best, ∃ b ∈ bs, x.Within b

theorem among_pick (hpick : Picks pick) (hbest : Among bs best) (hb : b ∈ bs) (hf : f.Within b) :
    Among bs (pick best f) := by
  have hnew : Among bs (some f) := fun _ hx => ⟨b, hb, Option.mem_some.mp hx ▸ hf⟩
  cases best with
  | none => rwa [hpick.1]
  | some x =>
    rcases hpick.2 x f with heq | heq
    · rwa [heq]
    · rwa [heq]

theorem among_foldl (hpick : Picks pick) (hm : model.InWords) (hpos : ∀ b ∈ bs, 0 < b.factor)
    (hsub : bs' ⊆ bs) (hbest : Among bs best) :
    Among bs (bs'.foldl (fun best b => pick best (b.frac model)) best) := by
  induction bs' generalizing best with
  | nil => exact hbest
  | cons b bs' ih =>
    obtain ⟨hb, hsub⟩ := cons_subset.mp hsub
    exact ih hsub (among_pick hpick hbest hb (frac_within (hpos b hb) hm))

theorem exact_bestArith (hpick : Picks pick) (hm : model.InWords) (hpos : ∀ b ∈ bs, 0 < b.factor)
    (hcompares : Compares bs) (harith : ∀ b ∈ bs, Exact (arith b)) (hsub : bs' ⊆ bs)
    (hbest : Among bs best) : Exact (bestArith pick model arith best bs') := by
  induction bs' generalizing best with
  | nil => exact nofun
  | cons b bs' ih =>
    obtain ⟨hb, hsub⟩ := cons_subset.mp hsub
    have hf := frac_within (hpos b hb) hm
    have hcompare : Exact (Frac.compareArith best (b.frac model)) := by
      cases best with
      | none => exact nofun
      | some x =>
        obtain ⟨b', hb', hx⟩ := hbest x rfl
        exact exact_compareArith hf hx (hcompares b hb b' hb') (hcompares b' hb' b hb)
    exact exact_append.mpr ⟨exact_append.mpr ⟨harith b hb, hcompare⟩,
      ih hsub (among_pick hpick hbest hb hf)⟩

theorem exact_floorArith (hnum : |f.num| < 2 ^ 127) : Exact f.floorArith :=
  forall_mem_singleton.mpr (fitsI128_of_abs ((Int.abs_ediv_le_abs _ _).trans_lt hnum))

theorem exact_ceilArith (hnum : |f.num| < 2 ^ 127) (hpos : 0 < f.den) (hden : f.den < 2 ^ 127) :
    Exact f.ceilArith := by
  have hdiv := (Int.abs_ediv_le_abs f.num f.den).trans_lt hnum
  have hmod := Int.emod_lt_of_pos f.num hpos
  have hmod' := Int.emod_nonneg f.num hpos.ne'
  refine exact_append.mpr ⟨forall_mem_cons.mpr ⟨fitsI128_of_abs hdiv,
    forall_mem_singleton.mpr ⟨by omega, by omega⟩⟩, ?_⟩
  split
  · exact nofun
  · next hne =>
    -- the quotient is below the numerator where something remains
    have hlt : f.num / f.den < 2 ^ 127 - 1 := by
      by_contra hge
      have hmul : f.num / f.den ≤ f.den * (f.num / f.den) :=
        le_mul_of_one_le_left (by omega) hpos
      have hsum := Int.mul_ediv_add_emod f.num f.den
      have hnum' := (abs_lt.mp hnum).2
      omega
    exact forall_mem_singleton.mpr ⟨by have := (abs_lt.mp hdiv).1; omega, by omega⟩

theorem best_fits (hpick : Picks pick) (hm : model.InWords) (hcompares : Compares bs)
    (hfactor : ∀ b ∈ bs, 0 < b.factor ∧ b.factor < 2 ^ 127) (h : bestFrac pick model bs = some f) :
    |f.num| < 2 ^ 127 ∧ 0 < f.den ∧ f.den < 2 ^ 127 := by
  have hamong := among_foldl hpick hm (fun b hb => (hfactor b hb).1) (List.Subset.refl bs)
    (show Among bs none from nofun)
  obtain ⟨b, hb, hwithin⟩ := hamong f h
  obtain ⟨hpos, hlt⟩ := hfactor b hb
  exact ⟨hwithin.num_le.trans_lt (hcompares.reach_lt hb hpos), hwithin.den_pos,
    hwithin.den_le.trans_lt hlt⟩

end Values

section Search

variable {fuel : Nat} {ineqs : List LinIneq} {model : Model} {order : HashOrder}
  {entryOrder : EntryOrder} {u l : VarBound} {r : Round} {cs : List Constraint}

theorem factor_of_small (hs : Small r.ineqs) :
    (∀ l ∈ r.split.lowers, 0 < l.factor ∧ l.factor < 2 ^ 127) ∧
      ∀ u ∈ r.split.uppers, 0 < u.factor ∧ u.factor < 2 ^ 127 := by
  obtain ⟨huppers, hlowers, -⟩ := @mem_split r.var r.ineqs
  refine ⟨fun l hl => ?_, fun u hu => ?_⟩
  · obtain ⟨ineq, hineq, hneg, rfl⟩ := (hlowers l).mp hl
    exact ⟨neg_pos.mpr hneg, (neg_le_abs _).trans_lt ((hs ineq hineq).2 r.var)⟩
  · obtain ⟨ineq, hineq, hpos, rfl⟩ := (huppers u).mp hu
    exact ⟨hpos, (le_abs_self _).trans_lt ((hs ineq hineq).2 r.var)⟩

theorem Round.exact_valueArith (hs : Small r.ineqs) (hm : model.InWords) (h : r.Compares) :
    Exact (r.valueArith entryOrder model) := by
  obtain ⟨hlowers, huppers⟩ := factor_of_small hs
  obtain ⟨hcompares, hcompares'⟩ := h
  refine exact_append.mpr ⟨exact_append.mpr ⟨?_, ?_⟩, exact_append.mpr ⟨?_, ?_⟩⟩
  · refine exact_bestArith picks_greater hm (fun l hl => (hlowers l hl).1) hcompares
      (fun l hl => ?_)
      (List.Subset.refl _) nofun
    obtain ⟨hpos, hlt⟩ := hlowers l hl
    exact exact_lowerArith hm hpos hlt (hcompares.reach_lt hl hpos)
  · refine exact_bestArith picks_less hm (fun u hu => (huppers u hu).1) hcompares' (fun u hu => ?_)
      (List.Subset.refl _) nofun
    obtain ⟨hpos, hlt⟩ := huppers u hu
    exact exact_upperArith hm hpos hlt (hcompares'.reach_lt hu hpos)
  · cases hbest : bestFrac Frac.pickGreater model r.split.lowers with
    | none => exact nofun
    | some f =>
      obtain ⟨hnum, hpos, hden⟩ := best_fits picks_greater hm hcompares hlowers hbest
      exact exact_ceilArith hnum hpos hden
  · cases hbest : bestFrac Frac.pickLess model r.split.uppers with
    | none => exact nofun
    | some f => exact exact_floorArith (best_fits picks_less hm hcompares' huppers hbest).1

theorem exact_combineSearchArith (h : Combines (2 ^ 127 - 1) u l) :
    Exact (combineSearchArith u l.asWritten) := by
  have hkeys : l.asWritten.others.keys = l.others.keys := OrdMap.keys_map
  refine exact_append.mpr ⟨exact_flatMap.mpr fun k hk => exact_crossArith ?_, exact_crossArith ?_⟩
  · have hk : k ∈ mergeKeys u.others l.others := by
      rwa [mem_mergeKeys, hkeys, ← mem_mergeKeys] at hk
    rw [VarBound.asWritten, coeff_map_neg, mul_neg, neg_mul]
    exact (h.1 k hk).neg_swap
  · rw [VarBound.asWritten, mul_neg, neg_mul]
    exact h.2.neg_swap

theorem combines_of_combineSearchArith (h : Exact (combineSearchArith u l.asWritten)) :
    Combines (2 ^ 127) u l := by
  obtain ⟨hcoeffs, hbounds⟩ := exact_append.mp h
  constructor
  · intro k hk
    have hk : k ∈ mergeKeys u.others l.asWritten.others := by
      rwa [mem_mergeKeys, VarBound.asWritten, OrdMap.keys_map, ← mem_mergeKeys]
    have hjoined := (joined_of_crossArith (exact_flatMap.mp hcoeffs k hk)).neg_swap
    rwa [VarBound.asWritten, coeff_map_neg, mul_neg, neg_mul, neg_neg, neg_neg] at hjoined
  · have hjoined := (joined_of_crossArith hbounds).neg_swap
    rwa [VarBound.asWritten, mul_neg, neg_mul, neg_neg, neg_neg] at hjoined

theorem Round.exact_combineArith (h : r.Combines (2 ^ 127 - 1)) : Exact r.combineArith := by
  refine exact_flatMap.mpr fun p hp => ?_
  obtain ⟨hu, hl⟩ := mem_product.mp hp
  exact exact_combineSearchArith (h p.1 hu p.2 hl)

theorem exact_solveModelArith (hs : Small ineqs) (h : ∀ r ∈ searchRounds order fuel ineqs,
    r.Combines (2 ^ 127 - 1) ∧ (Feasible r.ineqs → r.Compares)) :
    Exact (solveModelArith order entryOrder fuel ineqs) := by
  induction fuel generalizing ineqs with
  | zero => exact nofun
  | succ fuel ih =>
    unfold solveModelArith
    cases hvars : order.vars ineqs with
    | nil => exact nofun
    | cons v vars =>
      rw [searchRounds, hvars] at h
      obtain ⟨⟨hcombines, hcompares⟩, hrounds⟩ := forall_mem_cons.mp h
      have hsmall := @small_eliminate ⟨v, ineqs⟩ hs hcombines
      refine exact_append.mpr ⟨exact_append.mpr ⟨Round.exact_combineArith hcombines,
        ih hsmall hrounds⟩, ?_⟩
      split
      · next model hrest =>
        have hfeasible := feasible_eliminate.mp ((isSome_iff hrest).mp rfl).1
        exact @Round.exact_valueArith model entryOrder ⟨v, ineqs⟩ hs
          (inWords_of_solveModel hrest) (hcompares hfeasible)
      · exact nofun

theorem combines_of_solveModelArith (h : Exact (solveModelArith order entryOrder fuel ineqs)) :
    ∀ r ∈ searchRounds order fuel ineqs, r.Combines (2 ^ 127) := by
  induction fuel generalizing ineqs with
  | zero => exact nofun
  | succ fuel ih =>
    unfold solveModelArith at h
    unfold searchRounds
    cases hvars : order.vars ineqs with
    | nil => exact nofun
    | cons v vars =>
      rw [hvars] at h
      obtain ⟨hround, hrounds⟩ := exact_append.mp (exact_append.mp h).1
      refine forall_mem_cons.mpr ⟨fun u hu l hl => ?_, ih hrounds⟩
      exact combines_of_combineSearchArith
        (exact_flatMap.mp hround (u, l) (mem_product.mpr ⟨hu, hl⟩))

theorem words_negate {concl : Constraint} (h : Words (concl :: cs)) {branch : List Constraint}
    (hbranch : branch ∈ negate concl) : Words (cs ++ branch) := by
  obtain ⟨hconcl, hcs⟩ := forall_mem_cons.mp h
  refine forall_mem_append.mpr ⟨hcs, fun c hc => ?_⟩
  rw [(mem_negate hbranch hc).1]
  exact hconcl

theorem mem_negate_of_tried {premises branch : List Constraint} {branches : List (List Constraint)}
    (h : branch ∈ triedBranches order premises branches) : branch ∈ branches := by
  induction branches with
  | nil => cases h
  | cons b branches ih =>
    rcases mem_cons.mp h with rfl | h
    · exact mem_cons_self
    · split at h
      · exact mem_cons_of_mem b (ih h)
      · cases h

theorem exact_entailsArith {concl : Constraint} (hwords : Words (concl :: cs))
    (h : ∀ r ∈ entailment order cs concl, r.Combines (2 ^ 127 - 1)) :
    Exact (entailsArith order cs concl) := by
  refine exact_flatMap.mpr fun branch hbranch => ?_
  have hbranch' := mem_negate_of_tried hbranch
  exact exact_unsatArith (words_negate hwords hbranch') fun r hr =>
    h r (mem_flatMap_of_mem hbranch hr)

theorem combines_of_entailsArith {concl : Constraint} (h : Exact (entailsArith order cs concl)) :
    ∀ r ∈ entailment order cs concl, r.Combines (2 ^ 127) := by
  intro r hr
  obtain ⟨branch, hbranch, hr⟩ := mem_flatMap.mp hr
  exact combines_of_unsatArith (exact_flatMap.mp h branch hbranch) r hr

end Search

/-- The arithmetic of the solver is exact if in every round the products that are subtracted
from one another are below the limit, and where a value is picked for the variable the bounds
can be compared. Only if the products do not exceed the limit is it exact at all. -/
theorem arithmetic_exact (order : HashOrder) (entryOrder : EntryOrder) (fuel : Nat)
    (cs : List Constraint) (concl : Constraint) (hwords : Words (concl :: cs)) :
    (((∀ r ∈ refutation order cs, r.Combines (2 ^ 127 - 1)) → Exact (unsatArith order cs)) ∧
        (Exact (unsatArith order cs) → ∀ r ∈ refutation order cs, r.Combines (2 ^ 127))) ∧
      (((∀ r ∈ entailment order cs concl, r.Combines (2 ^ 127 - 1)) →
          Exact (entailsArith order cs concl)) ∧
        (Exact (entailsArith order cs concl) →
          ∀ r ∈ entailment order cs concl, r.Combines (2 ^ 127))) ∧
      ((∀ r ∈ searchRounds order fuel (toInequalities cs),
          r.Combines (2 ^ 127 - 1) ∧ (Feasible r.ineqs → r.Compares)) →
        Exact (modelArith order entryOrder fuel cs)) ∧
      (Exact (modelArith order entryOrder fuel cs) →
        ∀ r ∈ searchRounds order fuel (toInequalities cs), r.Combines (2 ^ 127)) := by
  have hcs : Words cs := (forall_mem_cons.mp hwords).2
  refine ⟨⟨exact_unsatArith hcs, combines_of_unsatArith⟩,
    ⟨exact_entailsArith hwords, combines_of_entailsArith⟩, fun h => ?_, fun h => ?_⟩
  · exact exact_append.mpr ⟨exact_toArith hcs, exact_solveModelArith (small_of_words hcs) h⟩
  · exact combines_of_solveModelArith (exact_append.mp h).2

/-- A number at the end of the 64-bit integers follows from itself, exactly. -/
theorem arithmetic_exact_max :
    let pre : List Constraint := [⟨⟨[("x", 1)], -(2 ^ 63 - 1)⟩, .eq⟩]
    let concl : Constraint := ⟨⟨[("x", 1)], -(2 ^ 63 - 1)⟩, .ge⟩
    Words (concl :: pre) ∧ Exact (unsatArith .sorted pre) ∧ Exact (entailsArith .sorted pre concl) ∧
      Exact (modelArith .sorted .sorted 2 pre) := by
  intro pre concl
  have hwords : Words (concl :: pre) := by decide
  obtain ⟨⟨hunsat, -⟩, ⟨hentails, -⟩, hmodel, -⟩ :=
    arithmetic_exact .sorted .sorted 2 pre concl hwords
  refine ⟨hwords, hunsat (by decide), hentails (by decide), hmodel fun r hr => ?_⟩
  have hround : ∀ r ∈ searchRounds .sorted 2 (toInequalities pre),
      r.Combines (2 ^ 127 - 1) ∧ r.Compares := by decide
  exact ⟨(hround r hr).1, fun _ => (hround r hr).2⟩

/-- From a variable below minus one and one that is one or more, with the least coefficients
there are, a constant is combined that does not fit. -/
theorem arithmetic_not_exact :
    let below : Constraint := ⟨⟨[("x", -2 ^ 63)], -2 ^ 63⟩, .gt⟩
    let above : Constraint := ⟨⟨[("x", -2 ^ 63)], 2 ^ 63 - 1⟩, .lt⟩
    Words [below, above] ∧ ¬Exact (unsatArith .sorted [below, above]) := by
  intro below above
  refine ⟨by decide, fun h => ?_⟩
  have hmem : -2 ^ 127 - 2 ^ 63 ∈ unsatArith .sorted [below, above] := by decide
  exact absurd (h _ hmem).1 (by decide)

end Oikos.Telos
