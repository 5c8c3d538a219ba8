/-
Machine words: their order, the increment that panics on overflow, unsigned arithmetic
that reports overflow or stops at the end of the range, and little-endian encoding.
-/
import Mathlib.Order.Defs.LinearOrder
import Mathlib.Data.Nat.Basic
import Oikos.Lib.Run

namespace Oikos

section Words

instance linearOrderUInt64 : LinearOrder UInt64 where
  le_refl := UInt64.le_refl
  le_trans _ _ _ := UInt64.le_trans
  le_antisymm _ _ := UInt64.le_antisymm
  le_total := UInt64.le_total
  lt_iff_le_not_ge a b := by
    simp only [UInt64.le_iff_toNat_le, UInt64.lt_iff_toNat_lt]
    omega
  toDecidableLE := inferInstance
  toDecidableLT := inferInstance
  toDecidableEq := inferInstance
  min_def _ _ := rfl
  max_def _ _ := rfl
  compare_eq_compareOfLessAndEq _ _ := rfl

universe u

/-- `n + 1`, with a panic where it does not fit. -/
def checkedSucc {E : Type u} (n : UInt64) : Result E UInt64 :=
  if n.toNat + 1 < 2 ^ 64 then .ok (n + 1) else .error .panic

theorem checkedSucc_eq_ok {E : Type u} {n m : UInt64}
    (h : (checkedSucc n : Result E UInt64) = .ok m) : m.toNat = n.toNat + 1 := by
  unfold checkedSucc at h
  split at h
  · next hlt =>
    obtain rfl : n + 1 = m := by simpa using h
    rw [UInt64.toNat_add, UInt64.toNat_one, Nat.mod_eq_of_lt hlt]
  · cases h

end Words

section Encoding

/-- The `w` low bytes of `n`, lowest first. -/
def leBytes : Nat → Nat → List UInt8
  | 0, _ => []
  | w + 1, n => UInt8.ofNat n :: leBytes w (n / 256)

/-- The number with the given bytes, lowest first. -/
def leValue : List UInt8 → Nat
  | [] => 0
  | b :: bs => b.toNat + 256 * leValue bs

@[simp] theorem length_leBytes (w n : Nat) : (leBytes w n).length = w := by
  induction w generalizing n with
  | zero => rfl
  | succ w ih => simp [leBytes, ih]

theorem leValue_lt (bs : List UInt8) : leValue bs < 256 ^ bs.length := by
  induction bs with
  | nil => exact Nat.one_pos
  | cons b bs ih =>
    have hb := b.toNat_lt
    rw [leValue, List.length_cons, Nat.pow_succ]
    omega

theorem leValue_leBytes (w n : Nat) : leValue (leBytes w n) = n % 256 ^ w := by
  induction w generalizing n with
  | zero => simp [leBytes, leValue, Nat.mod_one]
  | succ w ih =>
    simp only [leBytes, leValue, ih, UInt8.toNat_ofNat']
    rw [Nat.pow_succ 256 w, mul_comm (256 ^ w), Nat.mod_mul]

theorem leValue_leBytes_of_lt {w n : Nat} (h : n < 256 ^ w) : leValue (leBytes w n) = n := by
  rw [leValue_leBytes, Nat.mod_eq_of_lt h]

theorem leBytes_leValue (bs : List UInt8) : leBytes bs.length (leValue bs) = bs := by
  induction bs with
  | nil => rfl
  | cons b bs ih =>
    have hb := b.toNat_lt
    have hrest : (b.toNat + 256 * leValue bs) / 256 = leValue bs := by omega
    have hhead : UInt8.ofNat (b.toNat + 256 * leValue bs) = b := by
      rw [← UInt8.toNat_inj, UInt8.toNat_ofNat']
      omega
    rw [List.length_cons, leValue, leBytes, hrest, ih, hhead]

variable {w : Nat}

def checkedAdd (a b : BitVec w) : Option (BitVec w) :=
  if a.toNat + b.toNat < 2 ^ w then some (a + b) else none

def checkedSub (a b : BitVec w) : Option (BitVec w) :=
  if b.toNat ≤ a.toNat then some (a - b) else none

def checkedMul (a b : BitVec w) : Option (BitVec w) :=
  if a.toNat * b.toNat < 2 ^ w then some (a * b) else none

def saturatingAdd (a b : BitVec w) : BitVec w :=
  if a.toNat + b.toNat < 2 ^ w then a + b else BitVec.allOnes w

def saturatingSub (a b : BitVec w) : BitVec w :=
  if b.toNat ≤ a.toNat then a - b else 0#w

def saturatingMul (a b : BitVec w) : BitVec w :=
  if a.toNat * b.toNat < 2 ^ w then a * b else BitVec.allOnes w

variable {a b c : BitVec w}

theorem checkedAdd_eq_some : checkedAdd a b = some c ↔ c.toNat = a.toNat + b.toNat := by
  unfold checkedAdd
  have hc := c.isLt
  split
  · next hlt =>
    rw [Option.some_inj, ← BitVec.toNat_inj, BitVec.toNat_add, Nat.mod_eq_of_lt hlt]
    exact eq_comm
  · next hge =>
    constructor
    · intro h
      cases h
    · intro h
      omega

theorem checkedAdd_eq_none : checkedAdd a b = none ↔ 2 ^ w ≤ a.toNat + b.toNat := by
  unfold checkedAdd
  split
  · next hlt => simpa using hlt
  · next hge => simpa using hge

theorem checkedSub_eq_some : checkedSub a b = some c ↔ a.toNat = c.toNat + b.toNat := by
  unfold checkedSub
  split
  · next hle =>
    rw [Option.some_inj, ← BitVec.toNat_inj, BitVec.toNat_sub_of_le hle]
    omega
  · next hlt =>
    constructor
    · intro h
      cases h
    · intro h
      omega

theorem checkedSub_eq_none : checkedSub a b = none ↔ a.toNat < b.toNat := by
  unfold checkedSub
  split
  · next hle => simpa using hle
  · next hlt => simpa using hlt

theorem checkedMul_eq_some : checkedMul a b = some c ↔ c.toNat = a.toNat * b.toNat := by
  unfold checkedMul
  have hc := c.isLt
  split
  · next hlt =>
    rw [Option.some_inj, ← BitVec.toNat_inj, BitVec.toNat_mul, Nat.mod_eq_of_lt hlt]
    exact eq_comm
  · next hge =>
    constructor
    · intro h
      cases h
    · intro h
      omega

theorem checkedMul_eq_none : checkedMul a b = none ↔ 2 ^ w ≤ a.toNat * b.toNat := by
  unfold checkedMul
  split
  · next hlt => simpa using hlt
  · next hge => simpa using hge

theorem toNat_saturatingAdd (a b : BitVec w) :
    (saturatingAdd a b).toNat = min (a.toNat + b.toNat) (2 ^ w - 1) := by
  unfold saturatingAdd
  split
  · next hlt =>
    rw [BitVec.toNat_add, Nat.mod_eq_of_lt hlt]
    omega
  · next hge =>
    rw [BitVec.toNat_allOnes]
    omega

theorem toNat_saturatingSub (a b : BitVec w) :
    (saturatingSub a b).toNat = a.toNat - b.toNat := by
  unfold saturatingSub
  split
  · next hle => exact BitVec.toNat_sub_of_le hle
  · next hlt =>
    rw [BitVec.toNat_ofNat, Nat.zero_mod]
    omega

/-! ### Widths -/

/-- `as u128` on a `u64`. -/
def asU128 (x : UInt64) : BitVec 128 :=
  x.toBitVec.setWidth 128

/-- `as u64` on a `u128`, which keeps the low half. -/
def asU64 (x : BitVec 128) : UInt64 :=
  ⟨x.setWidth 64⟩

@[simp] theorem toNat_asU128 (x : UInt64) : (asU128 x).toNat = x.toNat := by
  rw [asU128, BitVec.toNat_setWidth, Nat.mod_eq_of_lt]
  · rfl
  · exact x.toNat_lt.trans (Nat.pow_lt_pow_right (by decide) (by decide))

theorem toNat_asU64 {x : BitVec 128} (h : x.toNat < 2 ^ 64) : (asU64 x).toNat = x.toNat := by
  change (x.setWidth 64).toNat = x.toNat
  rw [BitVec.toNat_setWidth, Nat.mod_eq_of_lt h]

/-- The product of two `u64` fits in a `u128`. -/
theorem toNat_asU128_mul (x y : UInt64) :
    (asU128 x * asU128 y).toNat = x.toNat * y.toNat := by
  rw [BitVec.toNat_mul, toNat_asU128, toNat_asU128, Nat.mod_eq_of_lt]
  calc x.toNat * y.toNat < 2 ^ 64 * 2 ^ 64 := Nat.mul_lt_mul'' x.toNat_lt y.toNat_lt
    _ = 2 ^ 128 := (Nat.pow_add 2 64 64).symm

def saturatingSub64 (x y : UInt64) : UInt64 :=
  ⟨saturatingSub x.toBitVec y.toBitVec⟩

@[simp] theorem toNat_saturatingSub64 (x y : UInt64) :
    (saturatingSub64 x y).toNat = x.toNat - y.toNat :=
  toNat_saturatingSub x.toBitVec y.toBitVec

end Encoding

end Oikos
