/-
Double-precision floats, kept as their bits: the rationals that they stand for, and
the arithmetic that rounds to the nearest of them.
-/
import Mathlib.Data.Rat.Cast.Order
import Mathlib.Algebra.Order.Field.Rat
import Mathlib.Algebra.Order.Field.Power
import Mathlib.Data.UInt

namespace Oikos

structure F64 where
  bits : UInt64
deriving Repr, DecidableEq

namespace F64

def negative (f : F64) : Bool :=
  f.bits.toNat / 2 ^ 63 == 1

def exponentBits (f : F64) : Nat :=
  f.bits.toNat / 2 ^ 52 % 2 ^ 11

def fraction (f : F64) : Nat :=
  f.bits.toNat % 2 ^ 52

def isFinite (f : F64) : Bool :=
  f.exponentBits != 2047

def isNan (f : F64) : Bool :=
  f.exponentBits == 2047 && f.fraction != 0

/-- Either of the two zeros. -/
def isZero (f : F64) : Bool :=
  f.exponentBits == 0 && f.fraction == 0

/-- The significand, with the leading bit that normal floats leave out. -/
def mantissa (f : F64) : Nat :=
  if f.exponentBits = 0 then f.fraction else 2 ^ 52 + f.fraction

def exponent (f : F64) : Int :=
  if f.exponentBits = 0 then -1074 else f.exponentBits - 1075

/-- The number that a finite float stands for. -/
def value (f : F64) : ℚ :=
  if f.isFinite then (if f.negative then -1 else 1) * f.mantissa * 2 ^ f.exponent else 0

def infinity (negative : Bool) : F64 :=
  ⟨if negative then 0xFFF0000000000000 else 0x7FF0000000000000⟩

def nan : F64 :=
  ⟨0x7FF8000000000000⟩

/-! ### Rounding -/

/-- The exponent of the last place of the float nearest to `n / d`. -/
def placeExponent (n d : Nat) : Int :=
  let e : Int := Nat.log2 n - Nat.log2 d
  let floor := if (2 : ℚ) ^ e * d ≤ n then e else e - 1
  max (floor - 52) (-1074)

/-- The integer nearest to `n / d`, the even one of two. -/
def nearest (n d : Nat) : Nat :=
  if 2 * (n % d) < d then n / d
  else if d < 2 * (n % d) then n / d + 1
  else n / d + n / d % 2

/-- The float nearest to a number; a zero gets the sign that is asked for. A
significand that rounds up to the next power of two carries into the exponent. -/
def round (zeroNegative : Bool) (q : ℚ) : F64 :=
  let n := q.num.natAbs
  let place := placeExponent n q.den
  let significand :=
    if 0 ≤ place then nearest n (q.den * 2 ^ place.toNat)
    else nearest (n * 2 ^ (-place).toNat) q.den
  let magnitude := min (2047 * 2 ^ 52) ((place + 1074).toNat * 2 ^ 52 + significand)
  let negative := if q = 0 then zeroNegative else decide (q < 0)
  ⟨UInt64.ofNat ((if negative then 2 ^ 63 else 0) + if q = 0 then 0 else magnitude)⟩

def ofInt (z : Int) : F64 :=
  round false z

/-! ### Arithmetic -/

/-- The sign bit flips: adding it wraps around. -/
def neg (f : F64) : F64 :=
  ⟨f.bits + 0x8000000000000000⟩

def add (f g : F64) : F64 :=
  if f.isNan || g.isNan then nan
  else if f.isFinite && g.isFinite then round (f.negative && g.negative) (f.value + g.value)
  else if f.isFinite then g
  else if g.isFinite || f.negative == g.negative then f
  else nan

def mul (f g : F64) : F64 :=
  if f.isNan || g.isNan then nan
  else if f.isFinite && g.isFinite then round (f.negative != g.negative) (f.value * g.value)
  else if f.isZero || g.isZero then nan
  else infinity (f.negative != g.negative)

def div (f g : F64) : F64 :=
  if f.isNan || g.isNan then nan
  else if !f.isFinite then
    if g.isFinite then infinity (f.negative != g.negative) else nan
  else if !g.isFinite then round (f.negative != g.negative) 0
  else if g.isZero then
    if f.isZero then nan else infinity (f.negative != g.negative)
  else round (f.negative != g.negative) (f.value / g.value)

/-- Without the sign bit. -/
def abs (f : F64) : F64 :=
  ⟨UInt64.ofNat (f.bits.toNat % 2 ^ 63)⟩

/-- The place of a float in the order of the numbers, with both zeros at `0`. -/
def rank (f : F64) : Int :=
  if f.negative then -(f.bits.toNat % 2 ^ 63 : Nat) else (f.bits.toNat % 2 ^ 63 : Nat)

def lt (f g : F64) : Bool :=
  !f.isNan && !g.isNan && decide (f.rank < g.rank)

def le (f g : F64) : Bool :=
  !f.isNan && !g.isNan && decide (f.rank ≤ g.rank)

variable {f : F64}

theorem toNat_neg (f : F64) : f.neg.bits.toNat = (f.bits.toNat + 2 ^ 63) % 2 ^ 64 := by
  rw [neg, UInt64.toNat_add]
  rfl

@[simp] theorem exponentBits_neg : f.neg.exponentBits = f.exponentBits := by
  rw [exponentBits, exponentBits, toNat_neg]
  have := f.bits.toNat_lt
  omega

@[simp] theorem fraction_neg : f.neg.fraction = f.fraction := by
  rw [fraction, fraction, toNat_neg]
  have := f.bits.toNat_lt
  omega

@[simp] theorem negative_neg : f.neg.negative = !f.negative := by
  rw [negative, negative, toNat_neg, Bool.eq_iff_iff, Bool.not_eq_true', beq_eq_false_iff_ne,
    beq_iff_eq]
  have := f.bits.toNat_lt
  omega

@[simp] theorem value_neg : f.neg.value = -f.value := by
  have hfinite : f.neg.isFinite = f.isFinite := by rw [isFinite, isFinite, exponentBits_neg]
  have hmantissa : f.neg.mantissa = f.mantissa := by
    rw [mantissa, mantissa, exponentBits_neg, fraction_neg]
  have hexponent : f.neg.exponent = f.exponent := by rw [exponent, exponent, exponentBits_neg]
  rw [value, value, hfinite, hmantissa, hexponent, negative_neg]
  cases f.isFinite with
  | false => simp
  | true => cases f.negative <;> simp

theorem value_of_isZero (h : f.isZero = true) : f.value = 0 := by
  rw [isZero, Bool.and_eq_true, beq_iff_eq, beq_iff_eq] at h
  rw [value, mantissa, if_pos h.1, h.2]
  simp

end F64

end Oikos
