/-
Polynomials given by the list of their coefficients, lowest first: evaluation
after Horner, and the one polynomial that takes given values at given points.
-/
import Mathlib.LinearAlgebra.Lagrange

namespace Oikos

open Polynomial

universe u

variable {F : Type u} [Field F]

/-- The value at `x` of the polynomial with these coefficients. -/
def horner (coeffs : List F) (x : F) : F :=
  coeffs.foldr (fun c result => result * x + c) 0

theorem horner_cons_zero (c : F) (coeffs : List F) : horner (c :: coeffs) 0 = c := by
  change horner coeffs 0 * 0 + c = c
  rw [mul_zero, zero_add]

/-- The polynomial with these coefficients. -/
noncomputable def ofCoeffs : List F → F[X]
  | [] => 0
  | c :: coeffs => ofCoeffs coeffs * X + C c

theorem eval_ofCoeffs (coeffs : List F) (x : F) : (ofCoeffs coeffs).eval x = horner coeffs x := by
  induction coeffs with
  | nil => exact eval_zero
  | cons c coeffs ih =>
    rw [ofCoeffs, eval_add, eval_mul, eval_X, eval_C, ih]
    rfl

theorem coeff_ofCoeffs (coeffs : List F) (k : Nat) :
    (ofCoeffs coeffs).coeff k = coeffs[k]?.getD 0 := by
  induction coeffs generalizing k with
  | nil => exact coeff_zero k
  | cons c coeffs ih =>
    rw [ofCoeffs, coeff_add]
    cases k with
    | zero => simp
    | succ k => simp [coeff_mul_X, coeff_C_succ, ih]

theorem degree_ofCoeffs_lt (coeffs : List F) : (ofCoeffs coeffs).degree < coeffs.length := by
  rw [degree_lt_iff_coeff_zero]
  intro k hk
  rw [coeff_ofCoeffs, List.getElem?_eq_none hk]
  rfl

theorem ofCoeffs_inj {cs cs' : List F} (hlen : cs.length = cs'.length)
    (h : ofCoeffs cs = ofCoeffs cs') : cs = cs' := by
  apply List.ext_getElem hlen
  intro k hk hk'
  have hcoeff := congrArg (fun p => p.coeff k) h
  simpa only [coeff_ofCoeffs, List.getElem?_eq_getElem hk, List.getElem?_eq_getElem hk',
    Option.getD_some] using hcoeff

theorem exists_ofCoeffs {p : F[X]} {n : Nat} (h : p.degree < n) :
    ∃ cs : List F, cs.length = n ∧ ofCoeffs cs = p := by
  refine ⟨(List.range n).map p.coeff, by simp, ?_⟩
  ext k
  rw [coeff_ofCoeffs]
  by_cases hk : k < n
  · simp [hk]
  · rw [List.getElem?_eq_none (by simpa using hk), (degree_lt_iff_coeff_zero p n).mp h k (by omega)]
    rfl

section Nodes

variable {ι : Type} [Fintype ι] [DecidableEq ι] {v : ι → F}

theorem eval_zero_eq_sum (hv : Function.Injective v) {p : F[X]} (hp : p.degree < Fintype.card ι) :
    p.eval 0 = ∑ i, p.eval (v i) * ∏ j ∈ Finset.univ.erase i, (v i - v j)⁻¹ * (0 - v j) := by
  conv_lhs => rw [Lagrange.eq_interpolate (s := Finset.univ) hv.injOn hp]
  rw [Lagrange.interpolate_apply, eval_finsetSum]
  apply Finset.sum_congr rfl
  intro i _
  rw [eval_mul, eval_C, Lagrange.basis, eval_prod]
  congr 1
  apply Finset.prod_congr rfl
  intro j _
  rw [Lagrange.basisDivisor, eval_mul, eval_C, eval_sub, eval_X, eval_C]

/-- As many points as coefficients fix the coefficients. -/
theorem existsUnique_horner (hv : Function.Injective v) (y : ι → F) :
    ∃! cs : List F, cs.length = Fintype.card ι ∧ ∀ i, horner cs (v i) = y i := by
  have hinj : Set.InjOn v (Finset.univ : Finset ι) := hv.injOn
  obtain ⟨cs, hcs, hp⟩ := exists_ofCoeffs (Lagrange.degree_interpolate_lt y hinj)
  refine ⟨cs, ⟨hcs, ?_⟩, ?_⟩
  · intro i
    rw [← eval_ofCoeffs, hp]
    exact Lagrange.eval_interpolate_at_node y hinj (Finset.mem_univ i)
  · rintro cs' ⟨hcs', hy⟩
    apply ofCoeffs_inj (hcs'.trans hcs.symm)
    rw [hp]
    apply Lagrange.eq_interpolate_of_eval_eq y hinj
    · have hdegree := degree_ofCoeffs_lt cs'
      rwa [hcs'] at hdegree
    · intro i _
      rw [eval_ofCoeffs]
      exact hy i

end Nodes

end Oikos
