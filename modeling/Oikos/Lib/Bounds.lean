/-
Bounds on one number of an ordered field, each strict or not: where every lower
bound is below every upper one, a number that meets all of them can be picked from
the least upper and the greatest lower bound.
-/
import Mathlib.Algebra.Order.Field.Basic
import Mathlib.Tactic.Linarith
import Mathlib.Tactic.Ring

namespace Oikos

universe u

variable {K : Type u} [Field K] [LinearOrder K] [IsStrictOrderedRing K]

/-- `a < b`, or also `a = b` if not strict. -/
def Below (strict : Bool) (a b : K) : Prop :=
  if strict then a < b else a ≤ b

section Below

variable {s t : Bool} {a b c : K}

omit [Field K] [IsStrictOrderedRing K] in
@[simp] theorem below_true : Below true a b ↔ a < b := Iff.rfl

omit [Field K] [IsStrictOrderedRing K] in
@[simp] theorem below_false : Below false a b ↔ a ≤ b := Iff.rfl

omit [Field K] [IsStrictOrderedRing K] in
theorem Below.le (h : Below s a b) : a ≤ b := by
  cases s with
  | true => exact le_of_lt h
  | false => exact h

omit [Field K] [IsStrictOrderedRing K] in
theorem below_of_lt (h : a < b) : Below s a b := by
  cases s with
  | true => exact h
  | false => exact le_of_lt h

omit [Field K] [IsStrictOrderedRing K] in
theorem Below.trans (hab : Below s a b) (hbc : Below t b c) : Below (s || t) a c := by
  cases s with
  | true => exact lt_of_lt_of_le hab hbc.le
  | false =>
    cases t with
    | true => exact lt_of_le_of_lt hab hbc
    | false => exact le_trans hab hbc

theorem below_sub : Below s (a - b) 0 ↔ Below s a b := by
  cases s with
  | true => exact sub_neg
  | false => exact sub_nonpos

/-- A bound by a multiple of a number bounds the number. -/
theorem below_mul_add_of_pos (h : 0 < c) : Below s (c * a + b) 0 ↔ Below s a (-b * c⁻¹) := by
  have hdiv : -b * c⁻¹ = -b / c := (div_eq_mul_inv _ _).symm
  cases s with
  | true =>
    rw [below_true, below_true, hdiv, lt_div_iff₀ h]
    constructor <;> intro <;> linarith
  | false =>
    rw [below_false, below_false, hdiv, le_div_iff₀ h]
    constructor <;> intro <;> linarith

theorem below_mul_add_of_neg (h : c < 0) : Below s (c * a + b) 0 ↔ Below s (-b * c⁻¹) a := by
  have hdiv : -b * c⁻¹ = -b / c := (div_eq_mul_inv _ _).symm
  cases s with
  | true =>
    rw [below_true, below_true, hdiv, div_lt_iff_of_neg h]
    constructor <;> intro <;> linarith
  | false =>
    rw [below_false, below_false, hdiv, div_le_iff_of_neg h]
    constructor <;> intro <;> linarith

end Below

def LeastBound (bounds : List (K × Bool)) : Option K → Prop
  | none => bounds = []
  | some a => (∃ b ∈ bounds, b.1 = a) ∧ ∀ b ∈ bounds, a ≤ b.1

def GreatestBound (bounds : List (K × Bool)) : Option K → Prop
  | none => bounds = []
  | some a => (∃ b ∈ bounds, b.1 = a) ∧ ∀ b ∈ bounds, b.1 ≤ a

/-- A number between the least upper and the greatest lower bound. -/
def pick : Option K → Option K → K
  | some upper, some lower => (upper + lower) * (1 / 2)
  | some upper, none => upper - 1
  | none, some lower => lower + 1
  | none, none => 0

variable {uppers lowers : List (K × Bool)} {upper lower : Option K}

theorem pick_meets (hupper : LeastBound uppers upper) (hlower : GreatestBound lowers lower)
    (h : ∀ u ∈ uppers, ∀ l ∈ lowers, Below (u.2 || l.2) l.1 u.1) :
    (∀ u ∈ uppers, Below u.2 (pick upper lower) u.1) ∧
      ∀ l ∈ lowers, Below l.2 l.1 (pick upper lower) := by
  cases upper with
  | none =>
    obtain rfl : uppers = [] := hupper
    cases lower with
    | none =>
      obtain rfl : lowers = [] := hlower
      simp
    | some low =>
      refine ⟨by simp, fun l hl => below_of_lt ?_⟩
      exact lt_of_le_of_lt (hlower.2 l hl) (lt_add_one low)
  | some up =>
    cases lower with
    | none =>
      obtain rfl : lowers = [] := hlower
      refine ⟨fun u hu => below_of_lt ?_, by simp⟩
      exact lt_of_lt_of_le (sub_one_lt up) (hupper.2 u hu)
    | some low =>
      obtain ⟨⟨u₀, hu₀, rfl⟩, hleast⟩ := hupper
      obtain ⟨⟨l₀, hl₀, rfl⟩, hgreatest⟩ := hlower
      rcases lt_or_eq_of_le (h u₀ hu₀ l₀ hl₀).le with hlt | heq
      · have hmid : pick (some u₀.1) (some l₀.1) < u₀.1 := by
          change (u₀.1 + l₀.1) * (1 / 2) < u₀.1
          linarith
        have hmid' : l₀.1 < pick (some u₀.1) (some l₀.1) := by
          change l₀.1 < (u₀.1 + l₀.1) * (1 / 2)
          linarith
        exact ⟨fun u hu => below_of_lt (hmid.trans_le (hleast u hu)),
          fun l hl => below_of_lt ((hgreatest l hl).trans_lt hmid')⟩
      · have hmid : pick (some u₀.1) (some l₀.1) = u₀.1 := by
          change (u₀.1 + l₀.1) * (1 / 2) = u₀.1
          linarith
        rw [hmid]
        refine ⟨fun u hu => ?_, fun l hl => ?_⟩
        · have hbelow := h u hu l₀ hl₀
          rw [heq] at hbelow
          cases hs : u.2 with
          | true =>
            rw [hs] at hbelow
            exact hbelow
          | false => exact hbelow.le
        · have hbelow := h u₀ hu₀ l hl
          cases hs : l.2 with
          | true =>
            rw [hs, Bool.or_true] at hbelow
            exact hbelow
          | false => exact hbelow.le

end Oikos
