/-
Where the exact arithmetic of the eidos verifier overflows: conditions on exact rational
numbers under which its operations have results, from single fractions up to a round of
the elimination.
-/
import Oikos.Eidos.Elimination

namespace Oikos.Eidos

open List Option

/-- An integer of 128 bits. -/
def Fits (z : Int) : Prop :=
  -2 ^ 127 ≤ z ∧ z < 2 ^ 127
deriving Decidable

theorem I128.checked_of_fits {z : Int} (h : Fits z) : checked z = some ⟨z, h⟩ :=
  dif_pos h

/-! ### Fractions -/

def NegFits (p : ℚ) : Prop :=
  Fits (-p.num)
deriving Decidable

/-- The products over the common divisor, their sum and the denominator. -/
def AddFits (p q : ℚ) : Prop :=
  let g := Nat.gcd p.den q.den
  Fits (p.num * (q.den : Int).tdiv g) ∧ Fits (q.num * (p.den : Int).tdiv g) ∧
    Fits (p.num * (q.den : Int).tdiv g + q.num * (p.den : Int).tdiv g) ∧
    Fits ((p.den : Int).tdiv g * q.den)
deriving Decidable

def SubFits (p q : ℚ) : Prop :=
  NegFits q ∧ AddFits p (-q)
deriving Decidable

/-- The numerator and the denominator after the parts are divided crosswise. -/
def MulFits (p q : ℚ) : Prop :=
  let g₁ := Nat.gcd p.num.natAbs q.den
  let g₂ := Nat.gcd q.num.natAbs p.den
  Fits (p.num.tdiv g₁ * q.num.tdiv g₂) ∧ Fits ((p.den : Int).tdiv g₂ * (q.den : Int).tdiv g₁)
deriving Decidable

/-- The parts of a float that is not zero, as powers of two and their products. -/
def FromFits (f : F64) : Prop :=
  f.isFinite = true ∧ (f.isZero = false →
    if 0 ≤ f.exponent then Fits (2 ^ f.exponent.toNat) ∧
      Fits ((if f.negative then -1 else 1) * f.mantissa * 2 ^ f.exponent.toNat)
    else Fits (2 ^ (-f.exponent).toNat))
deriving Decidable

namespace Rat

variable {r s : Rat} {n d : I128} {f : F64}

theorem natAbs_den (r : Rat) : r.den.val.natAbs = r.value.den := by
  rw [r.num_den_value.2, Int.natAbs_natCast]

theorem value_ne_zero (h : r.isZero = false) : r.value ≠ 0 := fun hzero =>
  absurd (isZero_iff.mpr hzero) (Bool.eq_false_iff.mp h)

theorem exists_new (h : 0 < d.val) : ∃ t, new n d = some t := by
  unfold new
  rw [dif_neg h.ne', dif_neg (not_lt.mpr h.le)]
  exact ⟨_, rfl⟩

theorem exists_new_of_neg (h : d.val < 0) (hn : Fits (-n.val)) (hd : Fits (-d.val)) :
    ∃ t, new n d = some t := by
  unfold new
  rw [dif_neg h.ne, dif_pos h, I128.checked_of_fits hn]
  exact ⟨_, dif_pos hd⟩

theorem exists_checkedNeg (h : NegFits r.value) : ∃ t, r.checkedNeg = some t := by
  unfold NegFits at h
  rw [← r.num_den_value.1] at h
  exact ⟨_, dif_pos h⟩

theorem exists_checkedAdd (h : AddFits r.value s.value) : ∃ t, r.checkedAdd s = some t := by
  have hgcd : gcd r.den.val.natAbs s.den.val.natAbs = Nat.gcd r.value.den s.value.den := by
    rw [gcd_eq s.natAbs_den_pos, natAbs_den, natAbs_den]
  obtain ⟨hleft, hright, hnum, hden⟩ := h
  rw [← hgcd, ← r.num_den_value.1, ← s.num_den_value.2] at hleft
  rw [← hgcd, ← s.num_den_value.1, ← r.num_den_value.2] at hright
  rw [← hgcd, ← r.num_den_value.1, ← s.num_den_value.2, ← s.num_den_value.1,
    ← r.num_den_value.2] at hnum
  rw [← hgcd, ← r.num_den_value.2, ← s.num_den_value.2] at hden
  have hpos : 0 < (r.den.val.tdiv (gcd r.den.val.natAbs s.den.val.natAbs)) * s.den.val := by
    refine Int.mul_pos ?_ s.den_pos
    rw [gcd_eq s.natAbs_den_pos]
    exact I128.quot_pos (Nat.gcd_dvd_left _ _)
      (Nat.gcd_pos_of_pos_left _ r.natAbs_den_pos) r.den_pos
  obtain ⟨t, ht⟩ := exists_new (n := ⟨_, hnum⟩) (d := ⟨_, hden⟩) hpos
  refine ⟨t, ?_⟩
  rw [checkedAdd]
  refine bind_eq_some_iff.mpr ⟨_, I128.checked_of_fits hleft, ?_⟩
  refine bind_eq_some_iff.mpr ⟨_, I128.checked_of_fits hright, ?_⟩
  refine bind_eq_some_iff.mpr ⟨_, I128.checked_of_fits hnum, ?_⟩
  exact bind_eq_some_iff.mpr ⟨_, I128.checked_of_fits hden, ht⟩

theorem exists_checkedSub (h : SubFits r.value s.value) : ∃ t, r.checkedSub s = some t := by
  obtain ⟨m, hm⟩ := exists_checkedNeg h.1
  have hadd := h.2
  rw [← value_of_checkedNeg hm] at hadd
  obtain ⟨t, ht⟩ := exists_checkedAdd hadd
  exact ⟨t, bind_eq_some_iff.mpr ⟨m, hm, ht⟩⟩

theorem exists_checkedMul (h : MulFits r.value s.value) : ∃ t, r.checkedMul s = some t := by
  have hcross : ∀ r s : Rat, gcd r.num.val.natAbs s.den.val.natAbs =
      Nat.gcd r.value.num.natAbs s.value.den := by
    intro r s
    rw [gcd_eq s.natAbs_den_pos, natAbs_den, r.num_den_value.1]
  obtain ⟨hnum, hden⟩ := h
  rw [← hcross, ← hcross, ← r.num_den_value.1, ← s.num_den_value.1] at hnum
  rw [← hcross, ← hcross, ← r.num_den_value.2, ← s.num_den_value.2] at hden
  have hquot : ∀ r s : Rat, 0 < (r.den.quot (gcd s.num.val.natAbs r.den.val.natAbs)).val := by
    intro r s
    rw [gcd_eq r.natAbs_den_pos]
    exact I128.quot_pos (Nat.gcd_dvd_right _ _) (Nat.gcd_pos_of_pos_right _ r.natAbs_den_pos)
      r.den_pos
  obtain ⟨t, ht⟩ := exists_new (n := ⟨_, hnum⟩) (d := ⟨_, hden⟩)
    (Int.mul_pos (hquot r s) (hquot s r))
  refine ⟨t, ?_⟩
  rw [checkedMul]
  refine bind_eq_some_iff.mpr ⟨_, I128.checked_of_fits hnum, ?_⟩
  exact bind_eq_some_iff.mpr ⟨_, I128.checked_of_fits hden, ht⟩

theorem exists_recip (hne : r.value ≠ 0) (hneg : r.value < 0 → NegFits r.value) :
    ∃ t, r.recip = some t := by
  have hnum : r.num.val ≠ 0 := by
    rw [r.num_den_value.1]
    exact Rat.num_ne_zero.mpr hne
  unfold recip
  rw [if_neg hnum]
  rcases lt_or_gt_of_ne hnum with hlt | hgt
  · have hvalue : r.value < 0 := isNeg_iff.mp (decide_eq_true hlt)
    have hfits := hneg hvalue
    unfold NegFits at hfits
    rw [← r.num_den_value.1] at hfits
    have hden := r.den.property
    exact exists_new_of_neg hlt ⟨by omega, by have := r.den_pos; omega⟩ hfits
  · exact exists_new hgt

theorem exists_checkedCmp (h : SubFits r.value s.value) : ∃ o, r.checkedCmp s = some o := by
  obtain ⟨diff, hdiff⟩ := exists_checkedSub h
  exact ⟨_, bind_eq_some_iff.mpr ⟨diff, hdiff, rfl⟩⟩

theorem exists_fromF64 (h : FromFits f) : ∃ t, fromF64 f = some t := by
  obtain ⟨hfinite, hfits⟩ := h
  unfold fromF64
  rw [hfinite, Bool.not_true, if_neg Bool.false_ne_true]
  cases hzero : f.isZero with
  | true => exact ⟨zero, rfl⟩
  | false =>
    have hmantissa : Fits ((if f.negative then -1 else 1) * (f.mantissa : Int)) := by
      have hfraction : f.fraction < 2 ^ 52 := Nat.mod_lt _ (by decide)
      have hlt : f.mantissa < 2 ^ 53 := by
        unfold F64.mantissa
        split <;> omega
      unfold Fits
      split <;> omega
    have hfits := hfits hzero
    rw [if_neg Bool.false_ne_true]
    by_cases hexp : 0 ≤ f.exponent
    · rw [if_pos hexp] at hfits
      obtain ⟨t, ht⟩ := exists_new (n := ⟨_, hfits.2⟩) (d := ⟨1, by decide⟩) (by decide)
      refine ⟨t, bind_eq_some_iff.mpr ⟨_, I128.checked_of_fits hmantissa, ?_⟩⟩
      refine (if_pos hexp).trans (bind_eq_some_iff.mpr ⟨_, I128.checked_of_fits hfits.1, ?_⟩)
      exact bind_eq_some_iff.mpr ⟨_, I128.checked_of_fits hfits.2, ht⟩
    · rw [if_neg hexp] at hfits
      obtain ⟨t, ht⟩ := exists_new (n := ⟨_, hmantissa⟩) (d := ⟨_, hfits⟩) (by positivity)
      refine ⟨t, bind_eq_some_iff.mpr ⟨_, I128.checked_of_fits hmantissa, ?_⟩⟩
      exact (if_neg hexp).trans (bind_eq_some_iff.mpr ⟨_, I128.checked_of_fits hfits, ht⟩)

end Rat

/-! ### Expressions -/

namespace RatExpr

variable {e e' t : RatExpr} {r cv : Rat} {v : String}

/-- The constant and the coefficients of an expression. -/
def numbers (e : RatExpr) : List Rat :=
  e.constant :: e.coeffs.entries.map Prod.snd

/-- Numbers are subtracted where the second expression has one. -/
def SubFits (e e' : RatExpr) : Prop :=
  (∀ p ∈ e'.coeffs.entries, Eidos.SubFits ((e.coeffs.get p.1).getD Rat.zero).value p.2.value) ∧
    Eidos.SubFits e.constant.value e'.constant.value
deriving Decidable

/-- The numbers that the bound on a variable with coefficient `cv` is made of: the others
change their signs and are multiplied by the inverse. -/
def BoundFits (v : String) (cv : Rat) (e : RatExpr) : Prop :=
  (cv.value < 0 → NegFits cv.value) ∧
    ∀ x ∈ (e.remove v).numbers, NegFits x.value ∧ MulFits (-x.value) cv.value⁻¹
deriving Decidable

theorem exists_checkedNeg (h : ∀ x ∈ e.numbers, NegFits x.value) : ∃ t, e.checkedNeg = some t := by
  obtain ⟨coeffs, hcoeffs⟩ : ∃ m, e.coeffs.traverse Rat.checkedNeg = some m :=
    OrdMap.exists_traverse fun p hp => Rat.exists_checkedNeg
      (h p.2 (mem_cons_of_mem _ (mem_map_of_mem hp)))
  obtain ⟨constant, hconstant⟩ := Rat.exists_checkedNeg (h e.constant mem_cons_self)
  unfold checkedNeg
  split
  · next hnone =>
    rw [hcoeffs] at hnone
    cases hnone
  · next hsome => exact ⟨_, bind_eq_some_iff.mpr ⟨constant, hconstant, rfl⟩⟩

theorem numbers_checkedNeg (h : e.checkedNeg = some t) {x : Rat} (hx : x ∈ t.numbers) :
    ∃ y ∈ e.numbers, x.value = -y.value := by
  obtain ⟨hcoeffs, hconstant⟩ := checkedNeg_eq_some h
  rcases mem_cons.mp hx with rfl | hx
  · exact ⟨e.constant, mem_cons_self, Rat.value_of_checkedNeg hconstant⟩
  · obtain ⟨q, hq, rfl⟩ := mem_map.mp hx
    obtain ⟨y, hy, hneg⟩ := OrdMap.mem_traverse hcoeffs hq
    exact ⟨y, mem_cons_of_mem _ (mem_map.mpr ⟨_, hy, rfl⟩), Rat.value_of_checkedNeg hneg⟩

theorem exists_checkedScale (h : ∀ x ∈ e.numbers, MulFits x.value r.value) :
    ∃ t, e.checkedScale r = some t := by
  obtain ⟨coeffs, hcoeffs⟩ : ∃ m, e.coeffs.traverse (·.checkedMul r) = some m :=
    OrdMap.exists_traverse fun p hp => Rat.exists_checkedMul
      (h p.2 (mem_cons_of_mem _ (mem_map_of_mem hp)))
  obtain ⟨constant, hconstant⟩ := Rat.exists_checkedMul (h e.constant mem_cons_self)
  exact ⟨_, bind_eq_some_iff.mpr ⟨coeffs, hcoeffs,
    bind_eq_some_iff.mpr ⟨constant, hconstant, rfl⟩⟩⟩

theorem exists_addEntries {l : List (String × Rat)} {m : OrdMap String Rat}
    (hkeys : (l.map Prod.fst).Nodup)
    (h : ∀ p ∈ l, AddFits ((m.get p.1).getD Rat.zero).value p.2.value) :
    ∃ m', addEntries l m = some m' := by
  induction l generalizing m with
  | nil => exact ⟨m, rfl⟩
  | cons p l ih =>
    obtain ⟨sum, hsum⟩ := Rat.exists_checkedAdd (h p mem_cons_self)
    obtain ⟨hp, hl⟩ := nodup_cons.mp hkeys
    obtain ⟨m', hm'⟩ := ih (m := m.insert p.1 sum) hl fun q hq => by
      have hne : q.1 ≠ p.1 := fun heq => hp (heq ▸ mem_map_of_mem hq)
      rw [OrdMap.get_insert, if_neg hne]
      exact h q (mem_cons_of_mem p hq)
    exact ⟨m', bind_eq_some_iff.mpr ⟨sum, hsum, hm'⟩⟩

theorem exists_checkedSub (h : e.SubFits e') : ∃ t, e.checkedSub e' = some t := by
  obtain ⟨neg, hneg⟩ : ∃ t, e'.checkedNeg = some t := exists_checkedNeg fun x hx => by
    rcases mem_cons.mp hx with rfl | hx
    · exact h.2.1
    · obtain ⟨p, hp, rfl⟩ := mem_map.mp hx
      exact (h.1 p hp).1
  obtain ⟨hcoeffs, hconstant⟩ := checkedNeg_eq_some hneg
  obtain ⟨coeffs, hadd⟩ : ∃ m, addEntries neg.coeffs.entries e.coeffs = some m :=
    exists_addEntries neg.coeffs.nodup_keys fun q hq => by
      obtain ⟨y, hy, hq⟩ := OrdMap.mem_traverse hcoeffs hq
      rw [Rat.value_of_checkedNeg hq]
      exact (h.1 (q.1, y) hy).2
  obtain ⟨constant, hsum⟩ : ∃ r, e.constant.checkedAdd neg.constant = some r :=
    Rat.exists_checkedAdd (by rw [Rat.value_of_checkedNeg hconstant]; exact h.2.2)
  exact ⟨_, bind_eq_some_iff.mpr ⟨neg, hneg, bind_eq_some_iff.mpr ⟨coeffs, hadd,
    bind_eq_some_iff.mpr ⟨constant, hsum, rfl⟩⟩⟩⟩

theorem exists_boundOn (hzero : cv.value ≠ 0) (h : e.BoundFits v cv) :
    ∃ bound, boundOn v cv e = some bound := by
  obtain ⟨inv, hinv⟩ := Rat.exists_recip hzero h.1
  obtain ⟨neg, hneg⟩ := exists_checkedNeg fun x hx => (h.2 x hx).1
  obtain ⟨bound, hbound⟩ : ∃ t, neg.checkedScale inv = some t := exists_checkedScale fun x hx => by
    obtain ⟨y, hy, hvalue⟩ := numbers_checkedNeg hneg hx
    rw [hvalue, Rat.value_of_recip hinv]
    exact (h.2 y hy).2
  exact ⟨bound, bind_eq_some_iff.mpr ⟨inv, hinv,
    bind_eq_some_iff.mpr ⟨neg, hneg, hbound⟩⟩⟩

end RatExpr

/-! ### Systems -/

/-- The floats of a constraint are taken over exactly, and change their signs where the
relation is turned around. -/
def Constraint.NormalizeFits (c : Constraint) : Prop :=
  ∀ f ∈ c.e.constant :: c.e.coeffs.entries.map Prod.snd, FromFits f ∧
    (c.rel = .ge ∨ c.rel = .gt ∨ c.rel = .eq → NegFits f.value)
deriving Decidable

theorem exists_normalize {c : Constraint} (h : c.NormalizeFits) :
    ∃ norm, c.normalize = some norm := by
  obtain ⟨coeffs, hcoeffs⟩ : ∃ m, c.e.coeffs.traverse Rat.fromF64 = some m :=
    OrdMap.exists_traverse fun p hp => Rat.exists_fromF64
      (h p.2 (mem_cons_of_mem _ (mem_map_of_mem hp))).1
  obtain ⟨constant, hconstant⟩ := Rat.exists_fromF64 (h c.e.constant mem_cons_self).1
  have hlin : RatExpr.fromLin c.e = some (RatExpr.retain coeffs constant) :=
    bind_eq_some_iff.mpr ⟨coeffs, hcoeffs,
      bind_eq_some_iff.mpr ⟨constant, hconstant, rfl⟩⟩
  have hneg : c.rel = .ge ∨ c.rel = .gt ∨ c.rel = .eq →
      ∃ neg, (RatExpr.retain coeffs constant).checkedNeg = some neg := by
    refine fun hrel => RatExpr.exists_checkedNeg fun x hx => ?_
    rcases mem_cons.mp hx with hx | hx
    · obtain rfl : x = constant := hx
      rw [Rat.value_of_fromF64 hconstant]
      exact (h c.e.constant mem_cons_self).2 hrel
    · obtain ⟨q, hq, rfl⟩ := mem_map.mp hx
      obtain ⟨f, hf, hfrom⟩ := OrdMap.mem_traverse hcoeffs (OrdMap.mem_filter.mp hq).1
      rw [Rat.value_of_fromF64 hfrom]
      exact (h f (mem_cons_of_mem _ (mem_map.mpr ⟨_, hf, rfl⟩))).2 hrel
  unfold Constraint.normalize
  rw [hlin]
  cases hrel : c.rel with
  | le => exact ⟨_, rfl⟩
  | lt => exact ⟨_, rfl⟩
  | ge | gt | eq =>
    obtain ⟨neg, hneg⟩ := hneg (by simp [hrel])
    exact ⟨_, bind_eq_some_iff.mpr ⟨_, rfl, bind_eq_some_iff.mpr ⟨neg, hneg, rfl⟩⟩⟩

theorem exists_normalizeAll {cs : List Constraint} (h : ∀ c ∈ cs, c.NormalizeFits) :
    ∃ norm, normalizeAll cs = some norm := by
  induction cs with
  | nil => exact ⟨[], rfl⟩
  | cons c cs ih =>
    obtain ⟨first, hfirst⟩ := exists_normalize (h c mem_cons_self)
    obtain ⟨rest, hrest⟩ := ih fun d hd => h d (mem_cons_of_mem c hd)
    exact ⟨first ++ rest, bind_eq_some_iff.mpr ⟨first, hfirst,
      bind_eq_some_iff.mpr ⟨rest, hrest, rfl⟩⟩⟩

/-- The bounds of a round on a variable and their differences fit, and there are not more
constraints than the limit. -/
def RoundFits (v : String) (exprs : Norm) : Prop :=
  (∀ c ∈ exprs, ∀ cv ∈ c.2.coeffs.get v, c.2.BoundFits v cv) ∧
    ∀ s ∈ perform (splitOne v) ⟨[], [], []⟩ exprs,
      s.rest.length + s.uppers.length * s.lowers.length ≤ maxConstraints ∧
        ∀ u ∈ s.uppers, ∀ l ∈ s.lowers, l.1.SubFits u.1
deriving Decidable

theorem exists_splitOne {v : String} {c : NormRel × RatExpr} (s : Split)
    (h : ∀ cv ∈ c.2.coeffs.get v, c.2.BoundFits v cv) : ∃ s', splitOne v s c = some s' := by
  unfold splitOne
  cases hget : c.2.coeffs.get v with
  | none => exact ⟨_, rfl⟩
  | some cv =>
    have hzero := RatExpr.get_nonzero hget
    obtain ⟨bound, hbound⟩ := RatExpr.exists_boundOn (Rat.value_ne_zero hzero) (h cv hget)
    simp only [getD_some, hzero, Bool.false_eq_true, if_false, hbound, Option.bind_eq_bind,
      bind_some]
    split <;> exact ⟨_, rfl⟩

theorem exists_combineAll {ps : List ((RatExpr × Bool) × (RatExpr × Bool))}
    (h : ∀ p ∈ ps, p.2.1.SubFits p.1.1) : ∃ cs, combineAll ps = some cs := by
  induction ps with
  | nil => exact ⟨[], rfl⟩
  | cons p ps ih =>
    obtain ⟨combined, hcombined⟩ := RatExpr.exists_checkedSub (h p mem_cons_self)
    obtain ⟨cs, hcs⟩ := ih fun q hq => h q (mem_cons_of_mem p hq)
    exact ⟨_ :: cs, bind_eq_some_iff.mpr ⟨_, bind_eq_some_iff.mpr
      ⟨combined, hcombined, rfl⟩, bind_eq_some_iff.mpr ⟨cs, hcs, rfl⟩⟩⟩

/-- A round whose numbers fit gives a system. -/
theorem exists_eliminate {v : String} {exprs : Norm} (h : RoundFits v exprs) :
    ∃ s next, eliminate v exprs = some (s, next) := by
  have hperform : ∀ (cs : Norm) (s : Split),
      (∀ c ∈ cs, ∀ cv ∈ c.2.coeffs.get v, c.2.BoundFits v cv) →
        ∃ s', perform (splitOne v) s cs = some s' := by
    intro cs s hcs
    induction cs generalizing s with
    | nil => exact ⟨s, rfl⟩
    | cons c cs ih =>
      obtain ⟨s₁, hs₁⟩ := exists_splitOne s (hcs c mem_cons_self)
      obtain ⟨s₂, hs₂⟩ := ih s₁ fun d hd => hcs d (mem_cons_of_mem c hd)
      exact ⟨s₂, perform_cons_eq_some.mpr ⟨s₁, hs₁, hs₂⟩⟩
  obtain ⟨s, hs⟩ := hperform exprs ⟨[], [], []⟩ h.1
  obtain ⟨combined, hcombined⟩ : ∃ cs, combineAll (s.uppers.product s.lowers) = some cs :=
    exists_combineAll fun p hp => (h.2 s hs).2 p.1 (mem_product.mp hp).1 p.2
      (mem_product.mp hp).2
  have hnext : s.next = some (s.rest ++ combined) := by
    rw [Split.next, if_neg (not_lt.mpr (h.2 s hs).1), hcombined]
    rfl
  exact ⟨s, _, bind_eq_some_iff.mpr ⟨s, hs, bind_eq_some_iff.mpr ⟨_, hnext, rfl⟩⟩⟩

end Oikos.Eidos
