/-
Linear expressions and constraints of the eidos verifier: the ones over floats that
it is given, and the ones over exact fractions that it works with.
-/
import Oikos.Eidos.Rational
import Oikos.Lib.Bounds
import Oikos.Lib.OrdMap
import Mathlib.Algebra.BigOperators.Ring.List
import Mathlib.Data.String.Basic

namespace Oikos.Eidos

open List Option

universe u

/-! ### Over floats -/

/-- A sum of variables with float coefficients and a constant. -/
structure LinExpr where
  coeffs : OrdMap String F64
  constant : F64

namespace LinExpr

/-- A variable with the coefficient `1.0`. -/
def var (name : String) : LinExpr :=
  ⟨OrdMap.empty.insert name ⟨0x3FF0000000000000⟩, ⟨0⟩⟩

def ofConstant (v : F64) : LinExpr :=
  ⟨.empty, v⟩

/-- Add the coefficients one by one, in the order of the names. -/
def addEntries : List (String × F64) → OrdMap String F64 → OrdMap String F64
  | [], coeffs => coeffs
  | (k, v) :: l, coeffs => addEntries l (coeffs.insert k (((coeffs.get k).getD ⟨0⟩).add v))

def add (e e' : LinExpr) : LinExpr :=
  ⟨addEntries e'.coeffs.entries e.coeffs, e.constant.add e'.constant⟩

def neg (e : LinExpr) : LinExpr :=
  ⟨e.coeffs.map F64.neg, e.constant.neg⟩

def sub (e e' : LinExpr) : LinExpr :=
  e.add e'.neg

def scale (e : LinExpr) (s : F64) : LinExpr :=
  ⟨e.coeffs.map (·.mul s), e.constant.mul s⟩

end LinExpr

/-- How a constraint compares its expression with zero. -/
inductive Rel where
  | le
  | lt
  | ge
  | gt
  | eq
deriving Repr, DecidableEq

/-- An expression compared with zero. -/
structure Constraint where
  rel : Rel
  e : LinExpr

/-! ### Over exact fractions -/

/-- The comparisons that are left after normalization. -/
inductive NormRel where
  | le
  | lt
deriving Repr, DecidableEq

/-- A sum of variables with exact coefficients, none of which is zero. -/
structure RatExpr where
  coeffs : OrdMap String Rat
  constant : Rat
  nonzero : ∀ p ∈ coeffs.entries, p.2.isZero = false

namespace RatExpr

/-- Drops the coefficients that are zero. -/
def retain (coeffs : OrdMap String Rat) (constant : Rat) : RatExpr :=
  ⟨coeffs.filter fun _ r => !r.isZero, constant, fun _ hp => by
    simpa using (OrdMap.mem_filter.mp hp).2⟩

/-- The exact form, unless a coefficient is no number or too large. -/
def fromLin (e : LinExpr) : Option RatExpr := do
  let coeffs ← e.coeffs.traverse Rat.fromF64
  let constant ← Rat.fromF64 e.constant
  some (retain coeffs constant)

/-- Add the coefficients one by one, as long as the sums fit. -/
def addEntries : List (String × Rat) → OrdMap String Rat → Option (OrdMap String Rat)
  | [], coeffs => some coeffs
  | (k, v) :: l, coeffs => do
    let sum ← ((coeffs.get k).getD Rat.zero).checkedAdd v
    addEntries l (coeffs.insert k sum)

def checkedAdd (e e' : RatExpr) : Option RatExpr := do
  let coeffs ← addEntries e'.coeffs.entries e.coeffs
  let constant ← e.constant.checkedAdd e'.constant
  some (retain coeffs constant)

theorem isZero_checkedNeg {r s : Rat} (h : r.checkedNeg = some s) : s.isZero = r.isZero := by
  rw [Bool.eq_iff_iff, Rat.isZero_iff, Rat.isZero_iff, Rat.value_of_checkedNeg h, neg_eq_zero]

/-- Negation keeps coefficients from being zero, so none is dropped. -/
def checkedNeg (e : RatExpr) : Option RatExpr :=
  match h : e.coeffs.traverse Rat.checkedNeg with
  | none => none
  | some coeffs => do
    let constant ← e.constant.checkedNeg
    some ⟨coeffs, constant, fun _ hq => by
      obtain ⟨_, hr, hneg⟩ := OrdMap.mem_traverse h hq
      rw [isZero_checkedNeg hneg]
      exact e.nonzero _ hr⟩

def checkedSub (e e' : RatExpr) : Option RatExpr := do
  e.checkedAdd (← e'.checkedNeg)

def checkedScale (e : RatExpr) (s : Rat) : Option RatExpr := do
  let coeffs ← e.coeffs.traverse (·.checkedMul s)
  let constant ← e.constant.checkedMul s
  some (retain coeffs constant)

/-- An expression without one of its variables. -/
def remove (e : RatExpr) (v : String) : RatExpr :=
  ⟨e.coeffs.erase v, e.constant, fun p hp => e.nonzero p (OrdMap.mem_erase.mp hp).1⟩

/-- Add up the terms, as long as the sums fit; variables without a value count as zero. -/
def evaluateFrom (model : OrdMap String Rat) : List (String × Rat) → Rat → Option Rat
  | [], s => some s
  | (k, v) :: l, s => do
    let term ← v.checkedMul ((model.get k).getD Rat.zero)
    evaluateFrom model l (← s.checkedAdd term)

def evaluate (e : RatExpr) (model : OrdMap String Rat) : Option Rat :=
  evaluateFrom model e.coeffs.entries e.constant

end RatExpr

/-- Constraints in normal form. -/
abbrev Norm :=
  List (NormRel × RatExpr)

/-- A constraint as comparisons with zero from below. -/
def Constraint.normalize (c : Constraint) : Option Norm := do
  let re ← RatExpr.fromLin c.e
  match c.rel with
  | .le => some [(.le, re)]
  | .lt => some [(.lt, re)]
  | .ge => do
    let neg ← re.checkedNeg
    some [(.le, neg)]
  | .gt => do
    let neg ← re.checkedNeg
    some [(.lt, neg)]
  | .eq => do
    let neg ← re.checkedNeg
    some [(.le, re), (.le, neg)]

/-- All constraints in normal form, unless one has none. -/
def normalizeAll : List Constraint → Option Norm
  | [] => some []
  | c :: cs => do
    let first ← c.normalize
    let rest ← normalizeAll cs
    some (first ++ rest)

/-! ### What they say of an assignment -/

section Meaning

variable {K : Type u} [Field K] {σ τ : String → K}

/-- The exact value of a float expression over any field. -/
def LinExpr.eval (σ : String → K) (e : LinExpr) : K :=
  e.coeffs.sum (fun k c => (c.value : K) * σ k) + e.constant.value

/-- The value of an exact expression over any field. -/
def RatExpr.eval (σ : String → K) (e : RatExpr) : K :=
  e.coeffs.sum (fun k r => (r.value : K) * σ k) + e.constant.value

/-- What a constraint says of an assignment. -/
def Constraint.Holds [LinearOrder K] (σ : String → K) (c : Constraint) : Prop :=
  match c.rel with
  | .le => c.e.eval σ ≤ 0
  | .lt => c.e.eval σ < 0
  | .ge => 0 ≤ c.e.eval σ
  | .gt => 0 < c.e.eval σ
  | .eq => c.e.eval σ = 0

def Satisfies [LinearOrder K] (σ : String → K) (cs : List Constraint) : Prop :=
  ∀ c ∈ cs, c.Holds σ

/-- Whether zero itself is excluded. -/
def NormRel.strict (r : NormRel) : Bool :=
  r == .lt

/-- What constraints in normal form say of an assignment. -/
def Meets [LinearOrder K] (σ : String → K) (exprs : Norm) : Prop :=
  ∀ c ∈ exprs, Below c.1.strict (c.2.eval σ) 0

/-- The assignment of a model, with `0` for the variables that it leaves out. -/
def assign (model : OrdMap String Rat) (v : String) : ℚ :=
  ((model.get v).getD Rat.zero).value

namespace RatExpr

variable {e e' t : RatExpr} {v : String} {r : Rat}

/-- The value depends on the variables of the expression only. -/
theorem eval_congr (h : ∀ k ∈ e.coeffs.keys, σ k = τ k) : e.eval σ = e.eval τ := by
  have hsum : e.coeffs.sum (fun k r => (r.value : K) * σ k) =
      e.coeffs.sum fun k r => (r.value : K) * τ k := by
    refine OrdMap.sum_congr fun p hp => ?_
    rw [h p.1 (OrdMap.mem_keys_of_mem hp)]
  rw [eval, eval, hsum]

theorem eval_retain (coeffs : OrdMap String Rat) (constant : Rat) :
    (retain coeffs constant).eval σ =
      coeffs.sum (fun k r => (r.value : K) * σ k) + constant.value := by
  have hzero : ∀ p ∈ coeffs.entries, (!p.2.isZero) = false → (p.2.value : K) * σ p.1 = 0 := by
    intro p _ hp
    rw [Rat.isZero_iff.mp (by simpa using hp), Rat.cast_zero, zero_mul]
  rw [eval, retain, OrdMap.sum_filter hzero]

/-- The exact form has the value of the float expression. -/
theorem eval_of_fromLin {l : LinExpr} (h : fromLin l = some e) : e.eval σ = l.eval σ := by
  obtain ⟨coeffs, hcoeffs, h⟩ := bind_eq_some_iff.mp h
  obtain ⟨constant, hconstant, h⟩ := bind_eq_some_iff.mp h
  cases h
  have hsum : coeffs.sum (fun k r => (r.value : K) * σ k) =
      l.coeffs.sum fun k c => (c.value : K) * σ k := by
    refine OrdMap.sum_traverse hcoeffs fun k c r hr => ?_
    rw [Rat.value_of_fromF64 hr]
  rw [eval_retain, LinExpr.eval, Rat.value_of_fromF64 hconstant, hsum]

/-- A variable's term and the rest. -/
theorem eval_eq_add_remove (h : e.coeffs.get v = some r) :
    e.eval σ = (r.value : K) * σ v + (e.remove v).eval σ := by
  rw [eval, OrdMap.sum_eq_add_erase h, add_assoc]
  rfl

theorem checkedNeg_eq_some (h : e.checkedNeg = some t) :
    e.coeffs.traverse Rat.checkedNeg = some t.coeffs ∧ e.constant.checkedNeg = some t.constant := by
  unfold checkedNeg at h
  split at h
  · cases h
  · next coeffs hcoeffs =>
    obtain ⟨constant, hconstant, h⟩ := bind_eq_some_iff.mp h
    cases h
    exact ⟨hcoeffs, hconstant⟩

theorem eval_of_checkedNeg (h : e.checkedNeg = some t) : t.eval σ = -e.eval σ := by
  obtain ⟨hcoeffs, hconstant⟩ := checkedNeg_eq_some h
  have hsum : t.coeffs.sum (fun k r => (r.value : K) * σ k) =
      e.coeffs.sum fun k r => -((r.value : K) * σ k) := by
    refine OrdMap.sum_traverse hcoeffs fun k r s hs => ?_
    rw [Rat.value_of_checkedNeg hs, Rat.cast_neg, neg_mul]
  rw [eval, hsum, eval, Rat.value_of_checkedNeg hconstant, Rat.cast_neg, neg_add, OrdMap.sum_neg]

section Exact

variable [CharZero K]

/-- Adding entries adds up their values. -/
theorem sum_of_addEntries {l : List (String × Rat)} {m m' : OrdMap String Rat}
    (h : addEntries l m = some m') :
    m'.sum (fun k r => (r.value : K) * σ k) =
      m.sum (fun k r => (r.value : K) * σ k) + (l.map fun p => (p.2.value : K) * σ p.1).sum := by
  induction l generalizing m with
  | nil =>
    cases h
    simp
  | cons p l ih =>
    obtain ⟨sum, hsum, h⟩ := bind_eq_some_iff.mp h
    rw [ih h, map_cons, sum_cons, ← add_assoc]
    congr 1
    have hinsert := m.sum_insert p.1 sum (fun k r => (r.value : K) * σ k)
    rw [Rat.value_of_checkedAdd hsum] at hinsert
    cases hget : m.get p.1 with
    | none =>
      rw [hget] at hinsert
      simpa using hinsert
    | some old =>
      rw [hget] at hinsert
      simp only [elim_some, getD_some, Rat.cast_add, add_mul] at hinsert
      exact add_right_cancel (hinsert.trans (by ring))

theorem eval_of_checkedAdd (h : e.checkedAdd e' = some t) : t.eval σ = e.eval σ + e'.eval σ := by
  obtain ⟨coeffs, hcoeffs, h⟩ := bind_eq_some_iff.mp h
  obtain ⟨constant, hconstant, h⟩ := bind_eq_some_iff.mp h
  cases h
  rw [eval_retain, sum_of_addEntries hcoeffs, Rat.value_of_checkedAdd hconstant, eval, eval,
    Rat.cast_add, OrdMap.sum, OrdMap.sum]
  exact add_add_add_comm _ _ _ _

theorem eval_of_checkedSub (h : e.checkedSub e' = some t) : t.eval σ = e.eval σ - e'.eval σ := by
  obtain ⟨neg, hneg, h⟩ := bind_eq_some_iff.mp h
  rw [eval_of_checkedAdd h, eval_of_checkedNeg hneg, sub_eq_add_neg]

theorem eval_of_checkedScale (h : e.checkedScale r = some t) :
    t.eval σ = e.eval σ * (r.value : K) := by
  obtain ⟨coeffs, hcoeffs, h⟩ := bind_eq_some_iff.mp h
  obtain ⟨constant, hconstant, h⟩ := bind_eq_some_iff.mp h
  cases h
  have hsum : coeffs.sum (fun k r => (r.value : K) * σ k) =
      e.coeffs.sum fun k s => (s.value : K) * σ k * (r.value : K) := by
    refine OrdMap.sum_traverse hcoeffs fun k s t ht => ?_
    rw [Rat.value_of_checkedMul ht, Rat.cast_mul, mul_right_comm]
  rw [eval_retain, hsum, eval, Rat.value_of_checkedMul hconstant, Rat.cast_mul, add_mul, OrdMap.sum,
    OrdMap.sum, sum_map_mul_right]

end Exact

theorem value_of_evaluateFrom {model : OrdMap String Rat} {l : List (String × Rat)} {s t : Rat}
    (h : evaluateFrom model l s = some t) :
    t.value = (l.map fun p => p.2.value * assign model p.1).sum + s.value := by
  induction l generalizing s with
  | nil =>
    cases h
    simp
  | cons p l ih =>
    obtain ⟨term, hterm, h⟩ := bind_eq_some_iff.mp h
    obtain ⟨sum, hsum, h⟩ := bind_eq_some_iff.mp h
    rw [ih h, Rat.value_of_checkedAdd hsum, Rat.value_of_checkedMul hterm, map_cons,
      sum_cons, assign]
    ring

/-- An evaluation that fits computes the exact value. -/
theorem value_of_evaluate {model : OrdMap String Rat} (h : e.evaluate model = some r) :
    r.value = e.eval (assign model) := by
  rw [value_of_evaluateFrom h, eval, OrdMap.sum]
  simp

/-! #### Variables -/

theorem keys_retain (coeffs : OrdMap String Rat) (constant : Rat)
    (h : v ∈ (retain coeffs constant).coeffs.keys) :
    v ∈ coeffs.keys :=
  OrdMap.mem_keys_filter h

/-- A sum has no variables but those of its terms. -/
theorem keys_addEntries {l : List (String × Rat)} {m m' : OrdMap String Rat}
    (h : addEntries l m = some m') (hv : v ∈ m'.keys) : v ∈ m.keys ∨ v ∈ l.map Prod.fst := by
  induction l generalizing m with
  | nil =>
    cases h
    exact Or.inl hv
  | cons p l ih =>
    obtain ⟨sum, _, h⟩ := bind_eq_some_iff.mp h
    rcases ih h with hm | hl
    · rcases OrdMap.mem_keys_insert hm with rfl | hm
      · exact Or.inr mem_cons_self
      · exact Or.inl hm
    · exact Or.inr (mem_cons_of_mem _ hl)

theorem keys_checkedNeg (h : e.checkedNeg = some t) : t.coeffs.keys = e.coeffs.keys :=
  OrdMap.keys_traverse (checkedNeg_eq_some h).1

theorem keys_checkedSub (h : e.checkedSub e' = some t) (hv : v ∈ t.coeffs.keys) :
    v ∈ e.coeffs.keys ∨ v ∈ e'.coeffs.keys := by
  obtain ⟨neg, hneg, h⟩ := bind_eq_some_iff.mp h
  obtain ⟨coeffs, hcoeffs, h⟩ := bind_eq_some_iff.mp h
  obtain ⟨constant, _, h⟩ := bind_eq_some_iff.mp h
  cases h
  exact (keys_addEntries hcoeffs (keys_retain _ _ hv)).imp_right fun h => keys_checkedNeg hneg ▸ h

theorem keys_checkedScale (h : e.checkedScale r = some t) (hv : v ∈ t.coeffs.keys) :
    v ∈ e.coeffs.keys := by
  obtain ⟨coeffs, hcoeffs, h⟩ := bind_eq_some_iff.mp h
  obtain ⟨constant, _, h⟩ := bind_eq_some_iff.mp h
  cases h
  exact OrdMap.keys_traverse hcoeffs ▸ keys_retain _ _ hv

theorem get_nonzero (h : e.coeffs.get v = some r) : r.isZero = false :=
  e.nonzero _ (OrdMap.get_eq_some_iff.mp h)

end RatExpr

/-! ### Normal forms say the same -/

section

variable [LinearOrder K]

theorem meets_append {exprs exprs' : Norm} :
    Meets σ (exprs ++ exprs') ↔ Meets σ exprs ∧ Meets σ exprs' :=
  forall_mem_append

theorem meets_singleton {c : NormRel × RatExpr} :
    Meets σ [c] ↔ Below c.1.strict (c.2.eval σ) 0 :=
  forall_mem_singleton

end

variable [LinearOrder K] [IsStrictOrderedRing K]

/-- The normal form says what the constraint says. -/
theorem meets_normalize {c : Constraint} {norm : Norm} (h : c.normalize = some norm) :
    Meets σ norm ↔ c.Holds σ := by
  obtain ⟨re, hre, h⟩ := bind_eq_some_iff.mp h
  have heval : re.eval σ = c.e.eval σ := RatExpr.eval_of_fromLin hre
  unfold Constraint.Holds
  cases hrel : c.rel with
  | le =>
    rw [hrel] at h
    cases h
    rw [meets_singleton, heval]
    rfl
  | lt =>
    rw [hrel] at h
    cases h
    rw [meets_singleton, heval]
    rfl
  | ge =>
    rw [hrel] at h
    obtain ⟨neg, hneg, h⟩ := bind_eq_some_iff.mp h
    cases h
    rw [meets_singleton, RatExpr.eval_of_checkedNeg hneg, heval]
    exact neg_nonpos
  | gt =>
    rw [hrel] at h
    obtain ⟨neg, hneg, h⟩ := bind_eq_some_iff.mp h
    cases h
    rw [meets_singleton, RatExpr.eval_of_checkedNeg hneg, heval]
    exact neg_lt_zero
  | eq =>
    rw [hrel] at h
    obtain ⟨neg, hneg, h⟩ := bind_eq_some_iff.mp h
    cases h
    rw [← singleton_append, meets_append, meets_singleton, meets_singleton,
      RatExpr.eval_of_checkedNeg hneg, heval]
    exact (and_congr_right' neg_nonpos).trans le_antisymm_iff.symm

theorem meets_normalizeAll {cs : List Constraint} {norm : Norm} (h : normalizeAll cs = some norm) :
    Meets σ norm ↔ Satisfies σ cs := by
  induction cs generalizing norm with
  | nil =>
    cases h
    simp [Meets, Satisfies]
  | cons c cs ih =>
    obtain ⟨first, hfirst, h⟩ := bind_eq_some_iff.mp h
    obtain ⟨rest, hrest, h⟩ := bind_eq_some_iff.mp h
    cases h
    rw [meets_append, meets_normalize hfirst, ih hrest]
    exact forall_mem_cons.symm

end Meaning

end Oikos.Eidos
