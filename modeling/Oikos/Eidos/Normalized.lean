/-
The trusted lemma on normalized vectors, for real numbers and arrays of them. It asks that
the divisor of a mapped quotient be positive, not that it be the magnitude of what is
divided, and of a literal array that its rounded magnitude be at most a little over `1`.
-/
import Oikos.Eidos.Branches
import Mathlib.Analysis.Real.Sqrt

namespace Oikos.Eidos

open List

/-- The arrays of the variables, and what expressions come to whose form is not modelled,
for the numbers of the variables. -/
structure World where
  arrays : String → Option (List ℝ)
  number : (String → ℝ) → Expr → Option ℝ
  array : (String → ℝ) → Expr → Option (List ℝ)

def squares (xs : List ℝ) : ℝ :=
  (xs.map fun x => x ^ 2).sum

noncomputable def magnitude (xs : List ℝ) : ℝ :=
  Real.sqrt (squares xs)

/-- The sum of the squares of quotients, from the numerators and the divisors. -/
noncomputable def squaredQuotients (qs : List (ℝ × ℝ)) : ℝ :=
  squares (qs.map fun q => q.1 / q.2)

/-- The variable has the number, and the others keep theirs. -/
def bindReal (σ : String → ℝ) (x : String) (v : ℝ) : String → ℝ :=
  fun y => if y = x then v else σ y

namespace World

variable (w : World)

mutual

/-- The number that an expression comes to. -/
noncomputable def real : Expr → (String → ℝ) → Option ℝ
  | .num n, _ => if n.isFinite then some n.value else none
  | .var v, σ => some (σ v)
  | .un .neg a, σ => (real a σ).map (-·)
  | .bin op a b, σ => op.arith (real a σ) (real b σ) none
  | .method recv name args, σ =>
    if name = "magnitude" ∧ args.isEmpty then (reals recv σ).map magnitude
    else w.number σ (.method recv name args)
  | e, σ => w.number σ e

/-- The array that an expression comes to. -/
noncomputable def reals : Expr → (String → ℝ) → Option (List ℝ)
  | .arrayLit es, σ => realAll es σ
  | .var v, _ => w.arrays v
  | .method recv name [.lambda [.var x] body], σ =>
    if name = "map" then (reals recv σ).bind fun xs => xs.mapM fun v => real body (bindReal σ x v)
    else w.array σ (.method recv name [.lambda [.var x] body])
  | .method recv name args, σ =>
    -- numbers are mapped by functions of one name only
    if name = "map" then none else w.array σ (.method recv name args)
  | e, σ => w.array σ e

noncomputable def realAll : List Expr → (String → ℝ) → Option (List ℝ)
  | [], _ => some []
  | e :: es, σ => do
    let x ← real e σ
    let xs ← realAll es σ
    some (x :: xs)

end

/-- What an obligation on a magnitude says: of the sum of the squares. -/
def Holds (σ : String → ℝ) : Expr → Prop
  | .bin op (.method recv _ _) _ => ∀ xs, w.reals recv σ = some xs → op.Compares (squares xs) 1
  | _ => True

/-- The assignment gives a name that is the text of a magnitude the magnitude of an array
with that text, and any other name the number of the variable. -/
def Agrees (p : Platform) (σ τ : String → ℝ) : Prop :=
  ∀ name, (∃ recv xs, exprToString p (.method recv "magnitude" []) = name ∧
      w.reals recv σ = some xs ∧ τ name = magnitude xs) ∨
    τ name = σ name ∧
      ∀ recv, exprToString p (.method recv "magnitude" []) = name → w.reals recv σ = none

def Satisfied (p : Platform) (σ : String → ℝ) (cs : List Constraint) : Prop :=
  ∃ τ, w.Agrees p σ τ ∧ Satisfies τ cs

/-- The numerator and the divisor of a quotient, if it has a value. -/
noncomputable def quotient (a b : Expr) (τ : String → ℝ) : Option (ℝ × ℝ) := do
  let n ← w.real a τ
  let d ← w.real b τ
  if d = 0 then none else some (n, d)

/-- The numerators and the divisors of a mapped quotient. -/
noncomputable def quotients (x : String) (a b : Expr) (σ : String → ℝ) (xs : List ℝ) :
    Option (List (ℝ × ℝ)) :=
  xs.mapM fun v => w.quotient a b (bindReal σ x v)

end World

/-! ### When the lemma is a true fact -/

/-- The context holds in some environment. -/
def Consistent (p : Platform) (ctx : List Constraint) : Prop :=
  ∃ (w : World) (σ : String → ℝ), w.Satisfied p σ ctx

/-- The exact squares of the literals add up to at most `1` (to less for `<`). -/
def LiteralsWithin (op : BinOp) (es : List Expr) : Prop :=
  ∀ ns : List F64, es = ns.map .num → (∀ n ∈ ns, n.isFinite = true) →
    op.Compares ((ns.map fun n => n.value ^ 2).sum : ℚ) 1

/-- The divisors cover what they divide: every square of a numerator is within a share of the
square of its divisor, and the shares add up to at most `1` (to less for `<`). -/
def Covers (op : BinOp) (qs : List (ℝ × ℝ)) : Prop :=
  ∃ shares : List ℝ, List.Forall₂ (fun q share => q.1 ^ 2 ≤ share * q.2 ^ 2) qs shares ∧
    op.Compares shares.sum 1

/-- Of what the lemma matches, the literals are within the bound, unless the context is
contradictory, and the context entails that a divisor covers what it divides. -/
def Warranted (p : Platform) (ctx : List Constraint) (pred : Expr) : Prop :=
  ∀ op recv, pred = .bin op (.method recv "magnitude" []) (.num ⟨0x3FF0000000000000⟩) →
    op = .le ∨ op = .lt →
      match recv with
      | .arrayLit es => literalMagnitudeLe p es ⟨0x3FF0000000000000⟩ = true → Consistent p ctx →
          LiteralsWithin op es
      | .method r name [.lambda [.var x] (.bin .div a b)] => name = "map" →
          (∃ mc, linearize p b = some mc ∧ entails ctx ⟨.gt, mc⟩ = true) →
            ∀ (w : World) (σ : String → ℝ) xs qs, w.Satisfied p σ ctx → w.reals r σ = some xs →
              w.quotients x a b σ xs = some qs → Covers op qs
      | _ => True

namespace World

variable {w : World} {p : Platform} {σ : String → ℝ} {op : BinOp} {recv a b pred : Expr}
  {ctx sides : List Constraint} {xs : List ℝ}

theorem exists_agrees (w : World) (p : Platform) (σ : String → ℝ) : ∃ τ, w.Agrees p σ τ := by
  have hvalue : ∀ name, ∃ v, (∃ recv xs, exprToString p (.method recv "magnitude" []) = name ∧
      w.reals recv σ = some xs ∧ v = magnitude xs) ∨ v = σ name ∧
        ∀ recv, exprToString p (.method recv "magnitude" []) = name → w.reals recv σ = none := by
    intro name
    by_cases h : ∃ recv xs, exprToString p (.method recv "magnitude" []) = name ∧
        w.reals recv σ = some xs
    · obtain ⟨recv, xs, hname, hxs⟩ := h
      exact ⟨magnitude xs, Or.inl ⟨recv, xs, hname, hxs, rfl⟩⟩
    · refine ⟨σ name, Or.inr ⟨rfl, fun recv hname => ?_⟩⟩
      exact Option.eq_none_iff_forall_ne_some.mpr fun xs hxs => h ⟨recv, xs, hname, hxs⟩
  choose τ hτ using hvalue
  exact ⟨τ, hτ⟩

/-! ### What the lemma matches -/

theorem squaredQuotients_le {qs : List (ℝ × ℝ)} {shares : List ℝ} (hqs : ∀ q ∈ qs, q.2 ≠ 0)
    (h : List.Forall₂ (fun q share => q.1 ^ 2 ≤ share * q.2 ^ 2) qs shares) :
    squaredQuotients qs ≤ shares.sum := by
  unfold squaredQuotients squares
  induction h with
  | nil => exact le_refl _
  | cons hshare _ ih =>
    obtain ⟨hd, hqs⟩ := forall_mem_cons.mp hqs
    simp only [map_cons, sum_cons]
    rw [div_pow]
    exact add_le_add ((div_le_iff₀ (sq_pos_iff.mpr hd)).mpr hshare) (ih hqs)

theorem covers_iff {qs : List (ℝ × ℝ)} (hop : op = .le ∨ op = .lt) (hqs : ∀ q ∈ qs, q.2 ≠ 0) :
    Covers op qs ↔ op.Compares (squaredQuotients qs) 1 := by
  constructor
  · rintro ⟨shares, hall, hsum⟩
    have hle := squaredQuotients_le hqs hall
    rcases hop with rfl | rfl
    · exact le_trans hle hsum
    · exact lt_of_le_of_lt hle hsum
  · intro h
    refine ⟨qs.map fun q => (q.1 / q.2) ^ 2, ?_, ?_⟩
    · rw [forall₂_map_right_iff, forall₂_same]
      intro q hq
      rw [← mul_pow, div_mul_cancel₀ _ (hqs q hq)]
    · rw [squaredQuotients, squares, map_map] at h
      exact h

/-- One divisor covers its numerators exactly if its square reaches the sum of theirs. -/
theorem covers_same {qs : List (ℝ × ℝ)} {d : ℝ} (hop : op = .le ∨ op = .lt)
    (hd : d ≠ 0) (hqs : ∀ q ∈ qs, q.2 = d) :
    Covers op qs ↔ op.Compares (squares (qs.map Prod.fst)) (d ^ 2) := by
  rw [covers_iff hop fun q hq => hqs q hq ▸ hd]
  have hsum : squaredQuotients qs = squares (qs.map Prod.fst) / d ^ 2 := by
    unfold squaredQuotients squares
    induction qs with
    | nil => simp
    | cons q qs ih =>
      obtain ⟨hq, hqs⟩ := forall_mem_cons.mp hqs
      simp only [map_cons, sum_cons]
      rw [ih hqs, hq, add_div, div_pow]
  have hpos : 0 < d ^ 2 := by positivity
  rw [hsum]
  rcases hop with rfl | rfl
  · exact div_le_one hpos
  · exact div_lt_one hpos

/-- A vector divided by its own magnitude, as the documentation of the lemma has it, is
covered in every context. -/
theorem warranted_of_own_magnitude (p : Platform) (ctx : List Constraint) (v x : String) :
    Warranted p ctx (.bin .le (.method (.method (.var v) "map"
      [.lambda [.var x] (.bin .div (.var x) (.method (.var v) "magnitude" []))]) "magnitude" [])
        (.num ⟨0x3FF0000000000000⟩)) := by
  rintro op recv hpred hop
  cases hpred
  rintro _ _ w σ xs qs - hxs hqs
  have hdivisor : ∀ u, w.quotient (.var x) (.method (.var v) "magnitude" []) (bindReal σ x u) =
      if magnitude xs = 0 then none else some (u, magnitude xs) := by
    intro u
    have hreals : w.reals (.var v) (bindReal σ x u) = some xs := hxs
    simp [quotient, real, hreals, bindReal]
  unfold quotients at hqs
  simp only [hdivisor] at hqs
  by_cases hzero : magnitude xs = 0
  · cases xs with
    | nil =>
      cases hqs
      exact ⟨[], .nil, zero_le_one⟩
    | cons u xs => simp [hzero] at hqs
  · simp only [if_neg hzero] at hqs
    obtain rfl := Option.some_inj.mp (mapM_pure.symm.trans hqs)
    refine (covers_same hop hzero fun q hq => ?_).mpr ?_
    · obtain ⟨u, _, rfl⟩ := mem_map.mp hq
      rfl
    · have hnonneg : 0 ≤ squares xs := sum_nonneg (by simpa using fun u _ => sq_nonneg u)
      rw [map_map, magnitude, Real.sq_sqrt hnonneg]
      exact le_of_eq (congrArg squares (map_id xs))

end World

end Oikos.Eidos
