/-
The exact rational numbers of the eidos decision procedure: fractions of 128-bit
integers in lowest terms, whose operations give up where a number does not fit.
-/
import Oikos.Lib.Double
import Mathlib.Tactic.FieldSimp

namespace Oikos.Eidos

/-- The integers of 128 bits. -/
abbrev I128 :=
  { z : Int // -2 ^ 127 ≤ z ∧ z < 2 ^ 127 }

namespace I128

/-- An integer, if it fits. -/
def checked (z : Int) : Option I128 :=
  if h : -2 ^ 127 ≤ z ∧ z < 2 ^ 127 then some ⟨z, h⟩ else none

theorem checked_eq_some {z : Int} {n : I128} : checked z = some n ↔ n.val = z := by
  unfold checked
  split
  · rw [Option.some_inj, Subtype.ext_iff, eq_comm]
  · next h =>
    constructor
    · intro hnone
      cases hnone
    · rintro rfl
      exact absurd n.property h

/-- The quotient by a divisor of a positive number; it fits. -/
def quot (n : I128) (g : Nat) : I128 :=
  ⟨n.val.tdiv g, by
    have habs := Int.natAbs_tdiv_le_natAbs n.val g
    have hn := n.property
    rcases Nat.eq_zero_or_pos g with rfl | hg
    · simp
    · rcases le_total 0 n.val with hpos | hneg
      · have := Int.tdiv_nonneg hpos (Int.natCast_nonneg g)
        omega
      · have : (n.val.tdiv g) ≤ 0 := by
          rw [← Int.neg_nonneg, ← Int.neg_tdiv]
          exact Int.tdiv_nonneg (by omega) (Int.natCast_nonneg g)
        omega⟩

theorem quot_mul {n : I128} {g : Nat} (h : g ∣ n.val.natAbs) : (n.quot g).val * g = n.val :=
  Int.tdiv_mul_cancel (Int.natCast_dvd.mpr h)

theorem quot_pos {n : I128} {g : Nat} (h : g ∣ n.val.natAbs) (hg : 0 < g) (hn : 0 < n.val) :
    0 < (n.quot g).val := by
  rw [← quot_mul h] at hn
  exact (mul_pos_iff_of_pos_right (Int.natCast_pos.mpr hg)).mp hn

end I128

/-- The loop of the greatest common divisor. -/
def gcdLoop (a b : Nat) : Nat :=
  if b = 0 then a else gcdLoop b (a % b)
termination_by b
decreasing_by exact Nat.mod_lt a (by omega)

def gcd (a b : Nat) : Nat :=
  if gcdLoop a b = 0 then 1 else gcdLoop a b

theorem gcdLoop_eq (a b : Nat) : gcdLoop a b = Nat.gcd a b := by
  induction a, b using gcdLoop.induct with
  | case1 a => rw [gcdLoop, if_pos rfl, Nat.gcd_zero_right]
  | case2 a b hb ih =>
    rw [gcdLoop, if_neg hb, ih, Nat.gcd_comm a b, Nat.gcd_rec b a]
    exact Nat.gcd_comm _ _

theorem gcd_eq {a b : Nat} (h : 0 < b) : gcd a b = Nat.gcd a b := by
  have hpos := Nat.gcd_pos_of_pos_right a h
  rw [gcd, gcdLoop_eq, if_neg hpos.ne']

structure Rat where
  num : I128
  den : I128
  den_pos : 0 < den.val
  coprime : Nat.Coprime num.val.natAbs den.val.natAbs

namespace Rat

/-- The number that a fraction stands for. -/
def value (r : Rat) : ℚ :=
  r.num.val / r.den.val

def zero : Rat :=
  ⟨⟨0, by decide⟩, ⟨1, by decide⟩, by decide, by decide⟩

/-- A fraction with a positive denominator, in lowest terms. -/
def reduce (n d : I128) (h : 0 < d.val) : Rat :=
  if n.val = 0 then zero
  else
    { num := n.quot (gcd n.val.natAbs d.val.natAbs)
      den := d.quot (gcd n.val.natAbs d.val.natAbs)
      den_pos := by
        have hd : 0 < d.val.natAbs := Int.natAbs_pos.mpr h.ne'
        rw [gcd_eq hd]
        exact I128.quot_pos (Nat.gcd_dvd_right _ _) (Nat.gcd_pos_of_pos_right _ hd) h
      coprime := by
        have hd : 0 < d.val.natAbs := Int.natAbs_pos.mpr h.ne'
        rw [gcd_eq hd]
        change Nat.Coprime (Int.natAbs (n.val.tdiv _)) (Int.natAbs (d.val.tdiv _))
        rw [Int.natAbs_tdiv, Int.natAbs_tdiv, Int.natAbs_natCast]
        exact Nat.coprime_div_gcd_div_gcd (Nat.gcd_pos_of_pos_right _ hd) }

def new (num den : I128) : Option Rat :=
  if hzero : den.val = 0 then none
  else if hneg : den.val < 0 then do
    let n ← I128.checked (-num.val)
    if h : -2 ^ 127 ≤ -den.val ∧ -den.val < 2 ^ 127 then
      some (reduce n ⟨-den.val, h⟩ (Int.neg_pos.mpr hneg))
    else none
  else some (reduce num den (by omega))

/-- The fraction that a finite float stands for, if its parts fit. -/
def fromF64 (f : F64) : Option Rat :=
  if !f.isFinite then none
  else if f.isZero then some zero
  else do
    let sign : Int := if f.negative then -1 else 1
    let mantissa : Nat := if f.exponentBits = 0 then f.fraction else 2 ^ 52 + f.fraction
    let exp : Int := if f.exponentBits = 0 then -1074 else f.exponentBits - 1075
    let signedMantissa ← I128.checked (sign * mantissa)
    if 0 ≤ exp then do
      let factor ← I128.checked (2 ^ exp.toNat)
      let num ← I128.checked (signedMantissa.val * factor.val)
      new num ⟨1, by decide⟩
    else do
      let den ← I128.checked (2 ^ (-exp).toNat)
      new signedMantissa den

/-- The float nearest to the quotient of the floats nearest to the parts. -/
def toF64 (r : Rat) : F64 :=
  (F64.ofInt r.num.val).div (F64.ofInt r.den.val)

def isZero (r : Rat) : Bool :=
  r.num.val == 0

def isPos (r : Rat) : Bool :=
  decide (0 < r.num.val)

def isNeg (r : Rat) : Bool :=
  decide (r.num.val < 0)

def checkedNeg (r : Rat) : Option Rat :=
  if h : -2 ^ 127 ≤ -r.num.val ∧ -r.num.val < 2 ^ 127 then
    some ⟨⟨-r.num.val, h⟩, r.den, r.den_pos, by simpa using r.coprime⟩
  else none

def checkedAdd (r s : Rat) : Option Rat := do
  let g := gcd r.den.val.natAbs s.den.val.natAbs
  let selfDenOverG := r.den.quot g
  let otherDenOverG := s.den.quot g
  let left ← I128.checked (r.num.val * otherDenOverG.val)
  let right ← I128.checked (s.num.val * selfDenOverG.val)
  let num ← I128.checked (left.val + right.val)
  let den ← I128.checked (selfDenOverG.val * s.den.val)
  new num den

def checkedSub (r s : Rat) : Option Rat := do
  r.checkedAdd (← s.checkedNeg)

def checkedMul (r s : Rat) : Option Rat := do
  let g₁ := gcd r.num.val.natAbs s.den.val.natAbs
  let g₂ := gcd s.num.val.natAbs r.den.val.natAbs
  let num ← I128.checked ((r.num.quot g₁).val * (s.num.quot g₂).val)
  let den ← I128.checked ((r.den.quot g₂).val * (s.den.quot g₁).val)
  new num den

def recip (r : Rat) : Option Rat :=
  if r.num.val = 0 then none else new r.den r.num

def checkedCmp (r s : Rat) : Option Ordering := do
  let diff ← r.checkedSub s
  some (if diff.isPos then .gt else if diff.isNeg then .lt else .eq)

variable {r s t : Rat} {n d : I128}

/-! ### Every operation gives the exact result or none -/

theorem den_ne_zero (r : Rat) : (r.den.val : ℚ) ≠ 0 :=
  Int.cast_ne_zero.mpr r.den_pos.ne'

theorem natAbs_den_pos (r : Rat) : 0 < r.den.val.natAbs :=
  Int.natAbs_pos.mpr r.den_pos.ne'

@[simp] theorem value_zero : zero.value = 0 := by
  simp [value, zero]

theorem value_reduce (h : 0 < d.val) : (reduce n d h).value = n.val / d.val := by
  unfold reduce
  split
  · next hn => rw [value_zero, hn, Int.cast_zero, zero_div]
  · have hd : 0 < d.val.natAbs := Int.natAbs_pos.mpr h.ne'
    have hg : ((Nat.gcd n.val.natAbs d.val.natAbs : Nat) : ℚ) ≠ 0 :=
      Nat.cast_ne_zero.mpr (Nat.gcd_pos_of_pos_right _ hd).ne'
    have hn := I128.quot_mul (n := n) (Nat.gcd_dvd_left n.val.natAbs d.val.natAbs)
    have hd' := I128.quot_mul (n := d) (Nat.gcd_dvd_right n.val.natAbs d.val.natAbs)
    change ((n.quot (gcd n.val.natAbs d.val.natAbs)).val : ℚ) /
      (d.quot (gcd n.val.natAbs d.val.natAbs)).val = _
    rw [gcd_eq hd, ← mul_div_mul_right _ _ hg, ← Int.cast_natCast, ← Int.cast_mul, ← Int.cast_mul,
      hn, hd']

theorem value_of_new (h : new n d = some r) : r.value = n.val / d.val := by
  unfold new at h
  split at h
  · cases h
  · split at h
    · obtain ⟨m, hm, h⟩ := Option.bind_eq_some_iff.mp h
      split at h
      · cases h
        rw [value_reduce, I128.checked_eq_some.mp hm, Int.cast_neg, Int.cast_neg, neg_div_neg_eq]
      · cases h
    · cases h
      exact value_reduce _

theorem value_of_fromF64 {f : F64} (h : fromF64 f = some r) : r.value = f.value := by
  unfold fromF64 at h
  split at h
  · cases h
  · next hfinite =>
    split at h
    · next hzero =>
      cases h
      rw [value_zero, F64.value_of_isZero hzero]
    · obtain ⟨m, hm, h⟩ := Option.bind_eq_some_iff.mp h
      have hm := I128.checked_eq_some.mp hm
      have hvalue : f.value = m.val * 2 ^ f.exponent := by
        rw [F64.value, if_pos (by simpa using hfinite), hm, F64.mantissa]
        cases f.negative <;> simp
      rw [hvalue]
      change (if 0 ≤ f.exponent then _ else _) = _ at h
      split at h
      · next hexp =>
        obtain ⟨factor, hfactor, h⟩ := Option.bind_eq_some_iff.mp h
        obtain ⟨num, hnum, h⟩ := Option.bind_eq_some_iff.mp h
        rw [value_of_new h, I128.checked_eq_some.mp hnum, I128.checked_eq_some.mp hfactor]
        obtain ⟨e, he⟩ := Int.eq_ofNat_of_zero_le hexp
        change ((m.val * 2 ^ f.exponent.toNat : Int) : ℚ) / (1 : Int) = _
        rw [he]
        simp
      · next hexp =>
        obtain ⟨den, hden, h⟩ := Option.bind_eq_some_iff.mp h
        rw [value_of_new h, I128.checked_eq_some.mp hden]
        obtain ⟨e, he⟩ := Int.eq_ofNat_of_zero_le (a := -f.exponent) (by omega)
        change (m.val : ℚ) / ((2 ^ (-f.exponent).toNat : Int) : ℚ) = _
        rw [he, ← neg_neg f.exponent, he]
        simp [div_eq_mul_inv]

theorem value_of_checkedNeg (h : r.checkedNeg = some t) : t.value = -r.value := by
  unfold checkedNeg at h
  split at h
  · cases h
    rw [value, value, Int.cast_neg, neg_div]
  · cases h

theorem value_of_checkedAdd (h : r.checkedAdd s = some t) : t.value = r.value + s.value := by
  obtain ⟨left, hleft, h⟩ := Option.bind_eq_some_iff.mp h
  obtain ⟨right, hright, h⟩ := Option.bind_eq_some_iff.mp h
  obtain ⟨num, hnum, h⟩ := Option.bind_eq_some_iff.mp h
  obtain ⟨den, hden, h⟩ := Option.bind_eq_some_iff.mp h
  rw [value_of_new h, I128.checked_eq_some.mp hnum, I128.checked_eq_some.mp hden,
    I128.checked_eq_some.mp hleft, I128.checked_eq_some.mp hright, gcd_eq s.natAbs_den_pos]
  have hr := I128.quot_mul (n := r.den) (Nat.gcd_dvd_left r.den.val.natAbs s.den.val.natAbs)
  have hs := I128.quot_mul (n := s.den) (Nat.gcd_dvd_right r.den.val.natAbs s.den.val.natAbs)
  generalize hg : Nat.gcd r.den.val.natAbs s.den.val.natAbs = g at hr hs ⊢
  have hrden := r.den_ne_zero
  have hsden := s.den_ne_zero
  rw [value, value]
  rw [← hr, Int.cast_mul] at hrden
  rw [← hs, Int.cast_mul] at hsden
  rw [← hr, ← hs]
  push_cast at hrden hsden ⊢
  have hr₀ := left_ne_zero_of_mul hrden
  have hs₀ := left_ne_zero_of_mul hsden
  have hg₀ := right_ne_zero_of_mul hrden
  field_simp

theorem value_of_checkedSub (h : r.checkedSub s = some t) : t.value = r.value - s.value := by
  obtain ⟨m, hm, h⟩ := Option.bind_eq_some_iff.mp h
  rw [value_of_checkedAdd h, value_of_checkedNeg hm, sub_eq_add_neg]

theorem value_of_checkedMul (h : r.checkedMul s = some t) : t.value = r.value * s.value := by
  obtain ⟨num, hnum, h⟩ := Option.bind_eq_some_iff.mp h
  obtain ⟨den, hden, h⟩ := Option.bind_eq_some_iff.mp h
  rw [value_of_new h, I128.checked_eq_some.mp hnum, I128.checked_eq_some.mp hden,
    gcd_eq s.natAbs_den_pos, gcd_eq r.natAbs_den_pos]
  have hrn := I128.quot_mul (n := r.num) (Nat.gcd_dvd_left r.num.val.natAbs s.den.val.natAbs)
  have hsd := I128.quot_mul (n := s.den) (Nat.gcd_dvd_right r.num.val.natAbs s.den.val.natAbs)
  have hsn := I128.quot_mul (n := s.num) (Nat.gcd_dvd_left s.num.val.natAbs r.den.val.natAbs)
  have hrd := I128.quot_mul (n := r.den) (Nat.gcd_dvd_right s.num.val.natAbs r.den.val.natAbs)
  generalize Nat.gcd r.num.val.natAbs s.den.val.natAbs = g₁ at hrn hsd ⊢
  generalize Nat.gcd s.num.val.natAbs r.den.val.natAbs = g₂ at hsn hrd ⊢
  have hrden := r.den_ne_zero
  have hsden := s.den_ne_zero
  rw [value, value]
  rw [← hrd, Int.cast_mul] at hrden
  rw [← hsd, Int.cast_mul] at hsden
  rw [← hrn, ← hsd, ← hsn, ← hrd]
  push_cast at hrden hsden ⊢
  have hr₀ := left_ne_zero_of_mul hrden
  have hs₀ := left_ne_zero_of_mul hsden
  have hg₁ := right_ne_zero_of_mul hsden
  have hg₂ := right_ne_zero_of_mul hrden
  field_simp

theorem value_of_recip (h : r.recip = some t) : t.value = r.value⁻¹ := by
  unfold recip at h
  split at h
  · cases h
  · rw [value_of_new h, value, inv_div]

theorem isPos_iff : r.isPos = true ↔ 0 < r.value := by
  have hden : (0 : ℚ) < r.den.val := Int.cast_pos.mpr r.den_pos
  rw [isPos, decide_eq_true_iff, value, lt_div_iff₀ hden, zero_mul, Int.cast_pos]

theorem isNeg_iff : r.isNeg = true ↔ r.value < 0 := by
  have hden : (0 : ℚ) < r.den.val := Int.cast_pos.mpr r.den_pos
  rw [isNeg, decide_eq_true_iff, value, div_lt_iff₀ hden, zero_mul, Int.cast_lt_zero]

theorem isZero_iff : r.isZero = true ↔ r.value = 0 := by
  rw [isZero, beq_iff_eq, value, div_eq_zero_iff, or_iff_left r.den_ne_zero, Int.cast_eq_zero]

/-- Every fraction of a number is the one in lowest terms with a positive denominator. -/
theorem num_den_value (r : Rat) : r.num.val = r.value.num ∧ r.den.val = r.value.den :=
  ⟨(Rat.num_div_eq_of_coprime r.den_pos r.coprime).symm,
    (Rat.den_div_eq_of_coprime r.den_pos r.coprime).symm⟩

/-- Either no result, or a number as the fraction in lowest terms with a positive
denominator. -/
def IsExact (q : ℚ) (result : Option Rat) : Prop :=
  ∀ r, result = some r → r.num.val = q.num ∧ r.den.val = q.den

theorem isExact_of_value {q : ℚ} {result : Option Rat} (h : ∀ r, result = some r → r.value = q) :
    IsExact q result := by
  intro r hr
  rw [← h r hr]
  exact r.num_den_value

theorem checkedCmp_eq {o : Ordering} (h : r.checkedCmp s = some o) :
    o = compare r.value s.value := by
  obtain ⟨diff, hdiff, h⟩ := Option.bind_eq_some_iff.mp h
  have hvalue := value_of_checkedSub hdiff
  cases h
  split
  · next hpos =>
    rw [isPos_iff, hvalue, sub_pos] at hpos
    exact (compare_gt_iff_gt.mpr hpos).symm
  · next hpos =>
    split
    · next hneg =>
      rw [isNeg_iff, hvalue, sub_neg] at hneg
      exact (compare_lt_iff_lt.mpr hneg).symm
    · next hneg =>
      rw [isPos_iff, hvalue, sub_pos, not_lt] at hpos
      rw [isNeg_iff, hvalue, sub_neg, not_lt] at hneg
      exact (compare_eq_iff_eq.mpr (le_antisymm hpos hneg)).symm

/-- What the operations on fractions keep to. -/
structure Exact (r s : Rat) (f : F64) : Prop where
  fromF64 : IsExact f.value (fromF64 f)
  neg : IsExact (-r.value) r.checkedNeg
  add : IsExact (r.value + s.value) (r.checkedAdd s)
  sub : IsExact (r.value - s.value) (r.checkedSub s)
  mul : IsExact (r.value * s.value) (r.checkedMul s)
  recip : IsExact r.value⁻¹ r.recip
  cmp : ∀ o, r.checkedCmp s = some o → o = compare r.value s.value

theorem exact (r s : Rat) (f : F64) : Exact r s f where
  fromF64 := isExact_of_value fun _ => value_of_fromF64
  neg := isExact_of_value fun _ => value_of_checkedNeg
  add := isExact_of_value fun _ => value_of_checkedAdd
  sub := isExact_of_value fun _ => value_of_checkedSub
  mul := isExact_of_value fun _ => value_of_checkedMul
  recip := isExact_of_value fun _ => value_of_recip
  cmp := fun _ => checkedCmp_eq

end Rat

end Oikos.Eidos
