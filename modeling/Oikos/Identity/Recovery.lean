/-
The arithmetic on bytes of the recovery package is the field with 256 elements.
Multiplication is additive in both arguments, so its laws need to be checked on
the eight powers of two only.

Guardian recovery: secrets are split byte by byte with polynomials over the
field of 256 elements and put together again by interpolation at zero.
-/
import Mathlib.Algebra.Field.Defs
import Mathlib.Algebra.CharP.Lemmas
import Mathlib.Algebra.CharP.Two
import Mathlib.Tactic.Ring
import Oikos.Lib.Vec
import Oikos.Lib.Interpolation

namespace Oikos.Identity

open List

/-- The rounds that are left of the loop of `gfMul`. -/
def gfMulLoop : Nat → UInt8 → UInt8 → UInt8 → UInt8
  | 0, p, _, _ => p
  | rounds + 1, p, a, b =>
    let p := if b &&& 1 ≠ 0 then p ^^^ a else p
    let hi := a &&& 0x80
    let a := a <<< 1
    let a := if hi ≠ 0 then a ^^^ 0x1b else a
    gfMulLoop rounds p a (b >>> 1)

def gfMul (a b : UInt8) : UInt8 :=
  gfMulLoop 8 0 a b

/-- The loop of `gfInv`: a byte that was shifted right eight times is zero. -/
def gfInvLoop : Nat → UInt8 → UInt8 → UInt8 → UInt8
  | 0, result, _, _ => result
  | rounds + 1, result, a, exp =>
    if exp > 0 then
      let result := if exp &&& 1 ≠ 0 then gfMul result a else result
      gfInvLoop rounds result (gfMul a a) (exp >>> 1)
    else result

def gfInv (a : UInt8) : UInt8 :=
  if a = 0 then 0 else gfInvLoop 8 1 a 254

/-- A property of all bytes that is checked one by one. -/
theorem forall_byte {P : UInt8 → Prop} (h : ∀ n : Fin 256, P (.ofNat n)) (a : UInt8) : P a := by
  have ha := h ⟨a.toNat, a.toNat_lt⟩
  rwa [UInt8.ofNat_toNat] at ha

section Additive

/-- What a round of `gfMul` does to its first argument. -/
def double (a : UInt8) : UInt8 :=
  if a &&& 0x80 ≠ 0 then (a <<< 1) ^^^ 0x1b else a <<< 1

theorem gfMulLoop_succ (rounds : Nat) (p a b : UInt8) :
    gfMulLoop (rounds + 1) p a b =
      gfMulLoop rounds (if b &&& 1 ≠ 0 then p ^^^ a else p) (double a) (b >>> 1) := rfl

theorem xor_xor_xor_comm (a b c d : UInt8) : a ^^^ b ^^^ (c ^^^ d) = a ^^^ c ^^^ (b ^^^ d) := by
  ac_rfl

theorem topBit (a : UInt8) : a &&& 0x80 = 0 ∨ a &&& 0x80 = 0x80 :=
  forall_byte (P := fun a => a &&& 0x80 = 0 ∨ a &&& 0x80 = 0x80) (by decide +kernel) a

theorem topBit_xor (a c : UInt8) : (a ^^^ c) &&& 0x80 = (a &&& 0x80) ^^^ (c &&& 0x80) := by
  apply UInt8.toBitVec_inj.mp
  ext i
  simp [Bool.and_xor_distrib_right]

theorem double_xor (a c : UInt8) : double (a ^^^ c) = double a ^^^ double c := by
  simp only [double, topBit_xor, UInt8.shiftLeft_xor]
  rcases topBit a with ha | ha <;> rcases topBit c with hc | hc <;> simp [ha, hc]
  · ac_rfl
  · ac_rfl
  · rw [xor_xor_xor_comm]
    simp

theorem gfMulLoop_xor (rounds : Nat) (p q a c b : UInt8) :
    gfMulLoop rounds (p ^^^ q) (a ^^^ c) b = gfMulLoop rounds p a b ^^^ gfMulLoop rounds q c b := by
  induction rounds generalizing p q a c b with
  | zero => rfl
  | succ rounds ih =>
    simp only [gfMulLoop_succ, double_xor]
    by_cases hb : b &&& 1 ≠ 0
    · rw [if_pos hb, if_pos hb, if_pos hb, xor_xor_xor_comm]
      exact ih (p ^^^ a) (q ^^^ c) (double a) (double c) (b >>> 1)
    · rw [if_neg hb, if_neg hb, if_neg hb]
      exact ih p q (double a) (double c) (b >>> 1)

theorem xor_gfMul (a c b : UInt8) : gfMul (a ^^^ c) b = gfMul a b ^^^ gfMul c b :=
  gfMulLoop_xor 8 0 0 a c b

theorem map_zero_of_xor {f : UInt8 → UInt8} (hxor : ∀ a c, f (a ^^^ c) = f a ^^^ f c) :
    f 0 = 0 := by
  have h := hxor 0 0
  rwa [UInt8.xor_self, UInt8.xor_self] at h

theorem map_gfMulLoop {f : UInt8 → UInt8} (hxor : ∀ a c, f (a ^^^ c) = f a ^^^ f c)
    (hdouble : ∀ a, f (double a) = double (f a)) (rounds : Nat) (p a b : UInt8) :
    f (gfMulLoop rounds p a b) = gfMulLoop rounds (f p) (f a) b := by
  induction rounds generalizing p a b with
  | zero => rfl
  | succ rounds ih =>
    rw [gfMulLoop_succ, gfMulLoop_succ, ih, hdouble]
    congr 1
    by_cases hb : b &&& 1 ≠ 0
    · rw [if_pos hb, if_pos hb, hxor]
    · rw [if_neg hb, if_neg hb]

theorem map_gfMul {f : UInt8 → UInt8} (hxor : ∀ a c, f (a ^^^ c) = f a ^^^ f c)
    (hdouble : ∀ a, f (double a) = double (f a)) (a b : UInt8) : f (gfMul a b) = gfMul (f a) b := by
  rw [gfMul, map_gfMulLoop hxor hdouble, map_zero_of_xor hxor]
  rfl

theorem double_gfMul (a b : UInt8) : gfMul (double a) b = double (gfMul a b) :=
  (map_gfMul double_xor (fun _ => rfl) a b).symm

theorem gfMul_right_comm (a b c : UInt8) : gfMul (gfMul a b) c = gfMul (gfMul a c) b :=
  map_gfMul (f := (gfMul · c)) (xor_gfMul · · c) (double_gfMul · c) a b

end Additive

theorem one_gfMul (a : UInt8) : gfMul 1 a = a :=
  forall_byte (P := fun a => gfMul 1 a = a) (by decide +kernel) a

theorem gfMul_comm (a b : UInt8) : gfMul a b = gfMul b a := by
  calc
    gfMul a b = gfMul (gfMul 1 a) b := by rw [one_gfMul]
    _ = gfMul (gfMul 1 b) a := gfMul_right_comm 1 a b
    _ = gfMul b a := by rw [one_gfMul]

theorem gfMul_assoc (a b c : UInt8) : gfMul (gfMul a b) c = gfMul a (gfMul b c) := by
  calc
    gfMul (gfMul a b) c = gfMul (gfMul b a) c := by rw [gfMul_comm a b]
    _ = gfMul (gfMul b c) a := gfMul_right_comm b a c
    _ = gfMul a (gfMul b c) := gfMul_comm (gfMul b c) a

theorem gfMul_xor (a b c : UInt8) : gfMul a (b ^^^ c) = gfMul a b ^^^ gfMul a c := by
  rw [gfMul_comm a (b ^^^ c), xor_gfMul, gfMul_comm b a, gfMul_comm c a]

theorem gfMul_zero (a : UInt8) : gfMul a 0 = 0 :=
  map_zero_of_xor (gfMul_xor a)

/-- A byte as an element of the field. -/
@[ext]
structure GF where
  byte : UInt8
deriving DecidableEq

namespace GF

instance : Zero GF := ⟨⟨0⟩⟩
instance : One GF := ⟨⟨1⟩⟩
instance : Add GF := ⟨fun a b => ⟨a.byte ^^^ b.byte⟩⟩
instance : Mul GF := ⟨fun a b => ⟨gfMul a.byte b.byte⟩⟩
instance : Neg GF := ⟨id⟩
instance : Inv GF := ⟨fun a => ⟨gfInv a.byte⟩⟩

@[simp] theorem byte_zero : (0 : GF).byte = 0 := rfl
@[simp] theorem byte_one : (1 : GF).byte = 1 := rfl
@[simp] theorem byte_add (a b : GF) : (a + b).byte = a.byte ^^^ b.byte := rfl
@[simp] theorem byte_mul (a b : GF) : (a * b).byte = gfMul a.byte b.byte := rfl
@[simp] theorem neg_eq (a : GF) : -a = a := rfl
@[simp] theorem byte_inv (a : GF) : a⁻¹.byte = gfInv a.byte := rfl

instance : CommRing GF where
  add_assoc a b c := GF.ext (UInt8.xor_assoc a.byte b.byte c.byte)
  zero_add _ := GF.ext UInt8.zero_xor
  add_zero _ := GF.ext UInt8.xor_zero
  add_comm a b := GF.ext (UInt8.xor_comm a.byte b.byte)
  mul_assoc a b c := GF.ext (gfMul_assoc a.byte b.byte c.byte)
  mul_comm a b := GF.ext (gfMul_comm a.byte b.byte)
  one_mul a := GF.ext (one_gfMul a.byte)
  mul_one a := GF.ext ((gfMul_comm a.byte 1).trans (one_gfMul a.byte))
  left_distrib a b c := GF.ext (gfMul_xor a.byte b.byte c.byte)
  right_distrib a b c := GF.ext (xor_gfMul a.byte b.byte c.byte)
  zero_mul a := GF.ext ((gfMul_comm 0 a.byte).trans (gfMul_zero a.byte))
  mul_zero a := GF.ext (gfMul_zero a.byte)
  neg_add_cancel _ := GF.ext UInt8.xor_self
  nsmul := nsmulRec
  zsmul := zsmulRec

instance : Nontrivial GF := ⟨0, 1, by decide⟩

instance : CharP GF 2 := CharTwo.of_one_ne_zero_of_two_eq_zero one_ne_zero (by decide)

theorem two_pow : (⟨2⟩ : GF) ^ 256 = ⟨2⟩ := by
  have h : ∀ (a : GF) (k : Nat), a ^ 2 ^ k = (fun a => a * a)^[k] a := by
    intro a k
    induction k with
    | zero => exact pow_one a
    | succ k ih => rw [Function.iterate_succ_apply', ← ih, ← pow_two, ← pow_mul, pow_succ 2 k]
  rw [show 256 = 2 ^ 8 by rfl, h]
  decide +kernel

theorem double_eq (a : UInt8) : double a = gfMul 2 a :=
  forall_byte (P := fun a => double a = gfMul 2 a) (by decide +kernel) a

/-- The 256th power is additive and keeps the powers of two, so it keeps every byte. -/
theorem pow_256 (a : GF) : a ^ 256 = a := by
  let f : UInt8 → UInt8 := fun b => ((⟨b⟩ : GF) ^ 256).byte
  have hxor : ∀ b c, f (b ^^^ c) = f b ^^^ f c := by
    intro b c
    have h : ((⟨b⟩ : GF) + ⟨c⟩) ^ 2 ^ 8 = ⟨b⟩ ^ 2 ^ 8 + ⟨c⟩ ^ 2 ^ 8 := add_pow_char_pow _ _ 2 8
    exact congrArg byte h
  have hdouble : ∀ b, f (double b) = double (f b) := by
    intro b
    have h : ((⟨2⟩ : GF) * ⟨b⟩) ^ 256 = ⟨2⟩ * ⟨b⟩ ^ 256 := by rw [mul_pow, two_pow]
    rw [double_eq, double_eq]
    exact congrArg byte h
  have hone : f 1 = 1 := congrArg byte (one_pow 256 : (1 : GF) ^ 256 = 1)
  apply GF.ext
  calc
    f a.byte = f (gfMul 1 a.byte) := by rw [one_gfMul]
    _ = gfMul (f 1) a.byte := map_gfMul hxor hdouble 1 a.byte
    _ = a.byte := by rw [hone, one_gfMul]

/-- A field has no other idempotents. -/
theorem eq_zero_or_one {a : GF} (h : a * a = a) : a = 0 ∨ a = 1 := by
  have hall : ∀ b : UInt8, gfMul b b = b → b = 0 ∨ b = 1 :=
    forall_byte (by decide +kernel)
  rcases hall a.byte (congrArg byte h) with h | h
  · exact Or.inl (GF.ext h)
  · exact Or.inr (GF.ext h)

theorem pow_255 {a : GF} (ha : a ≠ 0) : a ^ 255 = 1 := by
  have hidem : a ^ 255 * a ^ 255 = a ^ 255 := by
    calc
      a ^ 255 * a ^ 255 = a ^ 256 * a ^ 254 := by ring
      _ = a * a ^ 254 := by rw [pow_256]
      _ = a ^ 255 := by ring
  rcases eq_zero_or_one hidem with h | h
  · refine absurd ?_ ha
    calc
      a = a ^ 256 := (pow_256 a).symm
      _ = a ^ 255 * a := pow_succ a 255
      _ = 0 := by rw [h, zero_mul]
  · exact h

end GF

theorem toNat_shiftRight_one (exp : UInt8) : (exp >>> 1).toNat = exp.toNat / 2 := by
  rw [UInt8.toNat_shiftRight]
  exact Nat.shiftRight_eq_div_pow exp.toNat 1

theorem and_one_ne_zero (exp : UInt8) : exp &&& 1 ≠ 0 ↔ exp.toNat % 2 = 1 := by
  rw [ne_eq, ← UInt8.toNat_inj, UInt8.toNat_and]
  change ¬exp.toNat &&& 1 = 0 ↔ _
  rw [Nat.and_one_is_mod]
  omega

/-- Exponentiation by repeated squaring. -/
theorem gfInvLoop_eq (rounds : Nat) (result a exp : UInt8) (h : exp.toNat < 2 ^ rounds) :
    (⟨gfInvLoop rounds result a exp⟩ : GF) = ⟨result⟩ * ⟨a⟩ ^ exp.toNat := by
  induction rounds generalizing result a exp with
  | zero =>
    rw [gfInvLoop, show exp.toNat = 0 by omega, pow_zero, mul_one]
  | succ rounds ih =>
    rw [gfInvLoop]
    by_cases hexp : exp > 0
    · have hhalf : (exp >>> 1).toNat < 2 ^ rounds := by
        rw [toNat_shiftRight_one]
        omega
      have hsquare : (⟨gfMul a a⟩ : GF) ^ (exp >>> 1).toNat = ⟨a⟩ ^ (2 * (exp.toNat / 2)) := by
        rw [toNat_shiftRight_one, pow_mul, pow_two]
        rfl
      rw [if_pos hexp, ih _ _ _ hhalf, hsquare]
      by_cases hodd : exp &&& 1 ≠ 0
      · have hone := (and_one_ne_zero exp).mp hodd
        rw [if_pos hodd]
        change (⟨result⟩ * ⟨a⟩ : GF) * _ = _
        rw [mul_assoc, ← pow_succ']
        congr 2
        omega
      · have hone := mt (and_one_ne_zero exp).mpr hodd
        rw [if_neg hodd]
        congr 2
        omega
    · have hzero : exp.toNat = 0 := by
        have := UInt8.lt_iff_toNat_lt.not.mp hexp
        simpa using this
      rw [if_neg hexp, hzero, pow_zero, mul_one]

theorem gfInv_eq {a : GF} (ha : a ≠ 0) : a⁻¹ = a ^ 254 := by
  have hbyte : a.byte ≠ 0 := fun h => ha (GF.ext h)
  have h := gfInvLoop_eq 8 1 a.byte 254 (by decide)
  change (⟨gfInv a.byte⟩ : GF) = _
  rw [gfInv, if_neg hbyte, h]
  exact one_mul _

instance : Field GF where
  inv_zero := rfl
  mul_inv_cancel a ha := by
    calc
      a * a⁻¹ = a * a ^ 254 := by rw [gfInv_eq ha]
      _ = a ^ 255 := (pow_succ' a 254).symm
      _ = 1 := GF.pow_255 ha
  exists_pair_ne := ⟨0, 1, zero_ne_one⟩
  nnqsmul := _
  qsmul := _

/-- A guardian's piece: the values of the polynomials at its index. -/
structure Share where
  index : UInt8
  value : List UInt8
deriving Repr, DecidableEq

/-- The bytes that the random source will give, and its error once there are no more. -/
structure Rand where
  bytes : List UInt8
  fault : String
deriving Repr, DecidableEq

def Rand.read (rand : Rand) (k : Nat) : Result String (List UInt8 × Rand) :=
  if k ≤ rand.bytes.length then .ok (rand.bytes.take k, { rand with bytes := rand.bytes.drop k })
  else .error (.err rand.fault)

def gfPolyEval (coeffs : List UInt8) (x : UInt8) : UInt8 :=
  coeffs.foldr (fun c result => gfMul result x ^^^ c) 0

/-- A round of the inner loop of `gfLagrange`: numerator and denominator of a weight. -/
def gfWeightRound (i : Nat) (xi : UInt8) : UInt8 × UInt8 → UInt8 × Nat → UInt8 × UInt8
  | (num, den), (xj, j) => if i = j then (num, den) else (gfMul num xj, gfMul den (xi ^^^ xj))

/-- What `gfLagrange` multiplies the value at `xs[i]` by. -/
def gfWeight (xs : List UInt8) (i : Nat) (xi : UInt8) : UInt8 :=
  let (num, den) := xs.zipIdx.foldl (gfWeightRound i xi) (1, 1)
  gfMul num (gfInv den)

def gfLagrange (xs ys : List UInt8) : Result String UInt8 :=
  xs.zipIdx.foldlM (fun result (xi, i) => do
    let yi ← index ys i
    .ok (result ^^^ gfMul yi (gfWeight xs i xi))) 0

def Share.fill (coefficients : List UInt8) (byteIdx : Nat) (shares : List Share) (sh : Share) :
    Result String (List Share) := do
  let target ← Oikos.index shares (sh.index - 1).toNat
  let value ← setAt target.value byteIdx (gfPolyEval coefficients sh.index)
  setAt shares (sh.index - 1).toNat { target with value }

def splitByte (threshold : Nat) : Rand × List Share → UInt8 × Nat →
    Result String (Rand × List Share)
  | (rand, shares), (byte, byteIdx) => do
    let (tail, rand) ← mapErr ("recovery: generate coefficients: " ++ ·) (rand.read (threshold - 1))
    let shares ← shares.foldlM (Share.fill (byte :: tail) byteIdx) shares
    .ok (rand, shares)

def split (rand : Rand) (secret : List UInt8) (threshold n : Int) : Result String (List Share) :=
  if secret.length = 0 then .error (.err "recovery: secret must not be empty")
  else if threshold < 2 ∨ threshold > n ∨ n > 255 then
    .error (.err s!"recovery: invalid parameters (threshold={threshold}, n={n})")
  else do
    let shares := (List.range n.toNat).map fun i =>
      (⟨.ofNat (i + 1), List.replicate secret.length 0⟩ : Share)
    let (_, shares) ← secret.zipIdx.foldlM (splitByte threshold.toNat) (rand, shares)
    .ok shares

def combine (shares : List Share) : Result String (List UInt8) :=
  if shares.length < 2 then .error (.err "recovery: need at least 2 shares")
  else do
    let first ← index shares 0
    if (shares.drop 1).any (·.value.length != first.value.length) then
      .error (.err "recovery: shares have inconsistent lengths")
    else
      (List.range first.value.length).mapM fun byteIdx => do
        let ys ← shares.mapM fun s => index s.value byteIdx
        gfLagrange (shares.map Share.index) ys

section Evaluation

theorem gfPolyEval_eq (coeffs : List UInt8) (x : UInt8) :
    (⟨gfPolyEval coeffs x⟩ : GF) = horner (coeffs.map GF.mk) ⟨x⟩ := by
  induction coeffs with
  | nil => rfl
  | cons c coeffs ih =>
    change (⟨gfPolyEval coeffs x⟩ : GF) * ⟨x⟩ + ⟨c⟩ = horner (coeffs.map GF.mk) ⟨x⟩ * ⟨x⟩ + ⟨c⟩
    rw [ih]

theorem gfPolyEval_eq_iff {coeffs : List UInt8} {x y : UInt8} :
    gfPolyEval coeffs x = y ↔ horner (coeffs.map GF.mk) ⟨x⟩ = ⟨y⟩ := by
  rw [← gfPolyEval_eq, GF.mk.injEq]

end Evaluation

section Interpolation

variable {xs : List UInt8}

/-- Numerator and denominator are products over the other points. -/
theorem foldl_gfWeightRound (xs : List UInt8) (i k : Nat) (xi num den : UInt8) :
    ((⟨((xs.zipIdx k).foldl (gfWeightRound i xi) (num, den)).1⟩ : GF) =
        ⟨num⟩ * ((xs.zipIdx k).map fun p => if i = p.2 then 1 else (⟨p.1⟩ : GF)).prod) ∧
      (⟨((xs.zipIdx k).foldl (gfWeightRound i xi) (num, den)).2⟩ : GF) =
        ⟨den⟩ * ((xs.zipIdx k).map fun p => if i = p.2 then 1 else (⟨xi⟩ - ⟨p.1⟩ : GF)).prod := by
  induction xs generalizing k num den with
  | nil => exact ⟨(mul_one _).symm, (mul_one _).symm⟩
  | cons x xs ih =>
    simp only [zipIdx_cons, foldl_cons, map_cons, prod_cons]
    by_cases hi : i = k
    · simpa only [gfWeightRound, if_pos hi, one_mul] using ih (k + 1) num den
    · simp only [gfWeightRound, if_neg hi, ← mul_assoc]
      exact ih (k + 1) (gfMul num x) (gfMul den (xi ^^^ x))

theorem prod_zipIdx (xs : List UInt8) (f : UInt8 → GF) (i : Fin xs.length) :
    (xs.zipIdx.map fun p => if i.val = p.2 then 1 else f p.1).prod =
      ∏ j ∈ Finset.univ.erase i, f xs[j] := by
  have hmap : (xs.zipIdx.map fun p => if i.val = p.2 then 1 else f p.1) =
      ofFn fun j : Fin xs.length => if j = i then 1 else f xs[j] := by
    apply ext_getElem (by simp)
    intro j _ _
    simp [Fin.ext_iff, eq_comm]
  rw [hmap, prod_ofFn, ← Finset.mul_prod_erase Finset.univ _ (Finset.mem_univ i), if_pos rfl,
    one_mul]
  exact Finset.prod_congr rfl fun j hj => if_neg (Finset.ne_of_mem_erase hj)

/-- The weight of the value at an index, whose differences to the others are divided by. -/
def weightAt (xs : List UInt8) (i : Fin xs.length) : GF :=
  ∏ j ∈ Finset.univ.erase i, ((⟨xs[i]⟩ : GF) - ⟨xs[j]⟩)⁻¹ * (0 - ⟨xs[j]⟩)

theorem gfWeight_eq (xs : List UInt8) (i : Fin xs.length) :
    (⟨gfWeight xs i xs[i]⟩ : GF) = weightAt xs i := by
  obtain ⟨hnum, hden⟩ := foldl_gfWeightRound xs i 0 xs[i] 1 1
  rw [prod_zipIdx xs GF.mk i] at hnum
  rw [prod_zipIdx xs (fun x => (⟨xs[i]⟩ : GF) - ⟨x⟩) i] at hden
  let w := xs.zipIdx.foldl (gfWeightRound i xs[i]) (1, 1)
  calc
    (⟨gfWeight xs i xs[i]⟩ : GF) = ⟨w.1⟩ * ⟨w.2⟩⁻¹ := rfl
    _ = (∏ j ∈ Finset.univ.erase i, (⟨xs[j]⟩ : GF)) *
        (∏ j ∈ Finset.univ.erase i, ((⟨xs[i]⟩ : GF) - ⟨xs[j]⟩))⁻¹ := by
      rw [hnum, hden]
      change (1 * _) * (1 * _)⁻¹ = _
      rw [one_mul, one_mul]
    _ = _ := by
      rw [← Finset.prod_inv_distrib, mul_comm, ← Finset.prod_mul_distrib, weightAt]
      simp only [zero_sub, GF.neg_eq]

theorem weightAt_eq_zero {i j : Fin xs.length} (hij : j ≠ i) (h : xs[j] = xs[i]) :
    weightAt xs i = 0 := by
  apply Finset.prod_eq_zero (Finset.mem_erase.mpr ⟨hij, Finset.mem_univ j⟩)
  rw [h, sub_self, inv_zero, zero_mul]

/-- The indices that are submitted just once. -/
def unrepeated (xs : List UInt8) : List UInt8 :=
  xs.filter fun x => xs.count x = 1

theorem nodup_unrepeated (xs : List UInt8) : (unrepeated xs).Nodup := by
  rw [nodup_iff_count_le_one]
  intro x
  by_cases hx : xs.count x = 1
  · exact (filter_sublist.count_le x).trans hx.le
  · rw [count_eq_zero_of_not_mem fun h => hx (by simpa using (mem_filter.mp h).2)]
    exact Nat.zero_le 1

theorem exists_repetition {i : Fin xs.length} (h : xs[i] ∉ unrepeated xs) :
    ∃ j : Fin xs.length, j ≠ i ∧ xs[j] = xs[i] := by
  have hmem : xs[i] ∈ xs := getElem_mem i.isLt
  have hcount : xs.count xs[i] ≠ 1 :=
    fun hone => h (mem_filter.mpr ⟨hmem, by simpa using hone⟩)
  have htwo : 2 ≤ xs.count xs[i] := by
    have := one_le_count_iff.mpr hmem
    omega
  obtain ⟨n, m, hnm, hn, hm⟩ :=
    duplicate_iff_exists_distinct_get.mp (duplicate_iff_two_le_count.mpr htwo)
  by_cases hi : n = i
  · exact ⟨m, fun hm' => hnm.ne (hi.trans hm'.symm), hm.symm⟩
  · exact ⟨n, hi, hn.symm⟩

theorem sum_eq_zero_of_unrepeated {f : UInt8 → GF} (h : ∀ x ∈ unrepeated xs, f x = 0) :
    ∑ i : Fin xs.length, f xs[i] * weightAt xs i = 0 := by
  apply Finset.sum_eq_zero
  intro i _
  by_cases hi : xs[i] ∈ unrepeated xs
  · rw [h xs[i] hi, zero_mul]
  · obtain ⟨j, hj, heq⟩ := exists_repetition hi
    rw [weightAt_eq_zero hj heq, mul_zero]

/-- The weighted sum of a power is the power of zero. -/
def Reproduces (t : Nat) (xs : List UInt8) : Prop :=
  ∀ k < t, ∑ i : Fin xs.length, (⟨xs[i]⟩ : GF) ^ k * weightAt xs i = 0 ^ k

theorem foldlM_xor {A : Type} {step : UInt8 → A → Result String UInt8} {g : A → UInt8} {as : List A}
    (h : ∀ a ∈ as, ∀ r, step r a = .ok (r ^^^ g a)) (r : UInt8) :
    as.foldlM step r = .ok ((⟨r⟩ : GF) + (as.map fun a => (⟨g a⟩ : GF)).sum).byte := by
  induction as generalizing r with
  | nil => exact congrArg Except.ok (congrArg GF.byte (add_zero (⟨r⟩ : GF))).symm
  | cons a as ih =>
    rw [foldlM_cons, h a (by simp), ok_bind, ih fun b hb => h b (by simp [hb])]
    rw [map_cons, sum_cons, ← add_assoc]
    rfl

theorem gfLagrange_sum (xs : List UInt8) (f : UInt8 → UInt8) :
    gfLagrange xs (xs.map f) =
      .ok (∑ i : Fin xs.length, (⟨f xs[i]⟩ : GF) * weightAt xs i).byte := by
  have hmap : (xs.zipIdx.map fun p => (⟨gfMul (f p.1) (gfWeight xs p.2 p.1)⟩ : GF)) =
      ofFn fun i : Fin xs.length => (⟨f xs[i]⟩ : GF) * weightAt xs i := by
    apply ext_getElem (by simp)
    intro i _ _
    simp only [getElem_map, getElem_zipIdx, List.getElem_ofFn, zero_add,
      ← gfWeight_eq]
    rfl
  rw [gfLagrange, foldlM_xor (g := fun p => gfMul (f p.1) (gfWeight xs p.2 p.1)) ?_ 0, hmap,
    sum_ofFn]
  · exact congrArg (fun a : GF => Except.ok a.byte) (zero_add _)
  · intro p hp result
    have hy : (xs.map f)[p.2]? = some (f p.1) := by
      rw [getElem?_map, mem_zipIdx_iff_getElem?.mp hp]
      rfl
    simp only [index_eq_ok hy, ok_bind]

/-- The interpolation at zero of the values of a polynomial of low degree. -/
theorem gfLagrange_eq (hxs : xs.Nodup) {coeffs : List UInt8} (hlen : coeffs.length ≤ xs.length) :
    gfLagrange xs (xs.map (gfPolyEval coeffs)) = .ok (gfPolyEval coeffs 0) := by
  have hinj : Function.Injective fun i : Fin xs.length => (⟨xs[i]⟩ : GF) := fun i j h =>
    nodup_iff_injective_get.mp hxs (GF.mk.inj h)
  have hdegree : (ofCoeffs (coeffs.map GF.mk)).degree < Fintype.card (Fin xs.length) := by
    rw [Fintype.card_fin]
    refine (degree_ofCoeffs_lt _).trans_le ?_
    rw [length_map]
    exact_mod_cast hlen
  have hsum : ∑ i : Fin xs.length, (⟨gfPolyEval coeffs xs[i]⟩ : GF) * weightAt xs i =
      ⟨gfPolyEval coeffs 0⟩ := by
    calc
      _ = (ofCoeffs (coeffs.map GF.mk)).eval 0 := by
        rw [eval_zero_eq_sum hinj hdegree]
        simp only [eval_ofCoeffs, gfPolyEval_eq, weightAt]
      _ = ⟨gfPolyEval coeffs 0⟩ := by
        rw [eval_ofCoeffs, gfPolyEval_eq]
        rfl
  rw [gfLagrange_sum, hsum]

end Interpolation

section Split

def Placed (shares : List Share) : Prop :=
  ∀ (k : Nat) (sh : Share), shares[k]? = some sh → (sh.index - 1).toNat = k

def Share.set (coefficients : List UInt8) (byteIdx : Nat) (sh : Share) : Share :=
  { sh with value := sh.value.set byteIdx (gfPolyEval coefficients sh.index) }

theorem foldlM_fill {coefficients : List UInt8} {byteIdx : Nat} (l r : List Share)
    (hplaced : Placed (l ++ r)) (hlen : ∀ sh ∈ r, byteIdx < sh.value.length) :
    r.foldlM (Share.fill coefficients byteIdx) (l.map (Share.set coefficients byteIdx) ++ r) =
      .ok ((l ++ r).map (Share.set coefficients byteIdx)) := by
  induction r generalizing l with
  | nil => simp only [append_nil, foldlM_nil]; rfl
  | cons sh r ih =>
    have hslot : (sh.index - 1).toNat = (l.map (Share.set coefficients byteIdx)).length := by
      rw [length_map]
      exact hplaced l.length sh (by simp)
    have hfill : Share.fill coefficients byteIdx
        (l.map (Share.set coefficients byteIdx) ++ sh :: r) sh =
          .ok ((l ++ [sh]).map (Share.set coefficients byteIdx) ++ r) := by
      rw [Share.fill, hslot, index_append_length, ok_bind, setAt, if_pos (hlen sh (by simp)),
        ok_bind, setAt_append_length]
      simp [Share.set]
    rw [foldlM_cons, hfill, ok_bind]
    have hrest := ih (l ++ [sh]) (by simpa using hplaced) fun sh' h => hlen sh' (by simp [h])
    simpa using hrest

/-- The shares of the bytes whose polynomials are given, with room for more bytes. -/
def sharesOf (n : Nat) (rows : List (List UInt8)) (rest : Nat) : List Share :=
  (List.range n).map fun i =>
    ⟨.ofNat (i + 1), rows.map (gfPolyEval · (.ofNat (i + 1))) ++ List.replicate rest 0⟩

theorem toNat_ofNat_succ {n i : Nat} (hn : n ≤ 255) (hi : i < n) :
    (UInt8.ofNat (i + 1)).toNat = i + 1 := by
  rw [UInt8.toNat_ofNat']
  exact Nat.mod_eq_of_lt (by omega)

theorem placed_sharesOf {n : Nat} (hn : n ≤ 255) (rows : List (List UInt8)) (rest : Nat) :
    Placed (sharesOf n rows rest) := by
  intro k sh h
  rw [sharesOf, getElem?_map, Option.map_eq_some_iff] at h
  obtain ⟨i, hi, rfl⟩ := h
  obtain ⟨hk, rfl⟩ := List.getElem?_eq_some_iff.mp hi
  rw [length_range] at hk
  have hval := toNat_ofNat_succ hn hk
  rw [getElem_range, UInt8.toNat_sub_of_le]
  · rw [hval]
    rfl
  · rw [UInt8.le_iff_toNat_le, hval]
    exact Nat.le_add_left 1 k

/-- The polynomials that a secret is split with. -/
def coefficientRows (k : Nat) : List UInt8 → List UInt8 → List (List UInt8)
  | [], _ => []
  | byte :: secret, bytes => (byte :: bytes.take k) :: coefficientRows k secret (bytes.drop k)

theorem splitByte_eq {n k rest : Nat} (hn : n ≤ 255) {rand : Rand} (hrand : k ≤ rand.bytes.length)
    (rows : List (List UInt8)) (byte : UInt8) :
    splitByte (k + 1) (rand, sharesOf n rows (rest + 1)) (byte, rows.length) =
      .ok ({ rand with bytes := rand.bytes.drop k },
        sharesOf n (rows ++ [byte :: rand.bytes.take k]) rest) := by
  have hlen : ∀ sh ∈ sharesOf n rows (rest + 1), rows.length < sh.value.length := by
    intro sh hsh
    obtain ⟨i, _, rfl⟩ := mem_map.mp hsh
    simp
  have hfill : (sharesOf n rows (rest + 1)).foldlM
      (Share.fill (byte :: rand.bytes.take k) rows.length) (sharesOf n rows (rest + 1)) =
        .ok ((sharesOf n rows (rest + 1)).map
          (Share.set (byte :: rand.bytes.take k) rows.length)) :=
    foldlM_fill [] _ (placed_sharesOf hn rows (rest + 1)) hlen
  have hset : (sharesOf n rows (rest + 1)).map (Share.set (byte :: rand.bytes.take k) rows.length) =
      sharesOf n (rows ++ [byte :: rand.bytes.take k]) rest := by
    rw [sharesOf, sharesOf, map_map]
    apply map_congr_left
    intro i _
    simp [Share.set, replicate_succ]
  rw [splitByte, Nat.add_sub_cancel, Rand.read, if_pos hrand]
  simp only [mapErr, ok_bind]
  rw [hfill, hset]
  rfl

theorem foldlM_splitByte {n k : Nat} (hn : n ≤ 255) {rand : Rand} (secret : List UInt8)
    (hrand : secret.length * k ≤ rand.bytes.length) (rows : List (List UInt8)) :
    ∃ rand' : Rand, (secret.zipIdx rows.length).foldlM (splitByte (k + 1))
        (rand, sharesOf n rows secret.length) =
      .ok (rand', sharesOf n (rows ++ coefficientRows k secret rand.bytes) 0) := by
  induction secret generalizing rand rows with
  | nil => exact ⟨rand, by rw [coefficientRows, append_nil]; rfl⟩
  | cons byte secret ih =>
    rw [length_cons, Nat.succ_mul] at hrand
    have hrest : secret.length * k ≤ (rand.bytes.drop k).length := by
      rw [length_drop]
      omega
    obtain ⟨rand', h⟩ := @ih { rand with bytes := rand.bytes.drop k } hrest
      (rows ++ [byte :: rand.bytes.take k])
    refine ⟨rand', ?_⟩
    rw [zipIdx_cons, foldlM_cons, length_cons, splitByte_eq hn (by omega), ok_bind]
    rw [length_append] at h
    rwa [append_assoc] at h

/-- What `split` returns, once the random source has enough bytes. -/
theorem split_eq {rand : Rand} {secret : List UInt8} {t n : Nat} (hsecret : secret ≠ [])
    (ht : 2 ≤ t) (htn : t ≤ n) (hn : n ≤ 255)
    (hrand : secret.length * (t - 1) ≤ rand.bytes.length) :
    split rand secret t n = .ok (sharesOf n (coefficientRows (t - 1) secret rand.bytes) 0) := by
  obtain ⟨rand', h⟩ := foldlM_splitByte hn secret hrand []
  rw [Nat.sub_add_cancel (by omega)] at h
  have hlen : ¬secret.length = 0 := fun h => hsecret (length_eq_zero_iff.mp h)
  rw [split, if_neg hlen, if_neg (by omega)]
  change (secret.zipIdx.foldlM (splitByte t) (rand, sharesOf n [] secret.length) >>=
    fun (_, shares) => (.ok shares : Result String (List Share))) = _
  rw [length_nil] at h
  rw [h]
  rfl

end Split

end Oikos.Identity
