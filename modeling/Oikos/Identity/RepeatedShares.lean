/-
Shares that are submitted more than once: a repeated index takes its share out of
the sum and changes the weights of the others.
-/
import Oikos.Identity.Guardians

namespace Oikos.Identity

open List

section Weights

variable {xs : List UInt8}

theorem Reproduces.sum_horner {t : Nat} (h : Reproduces t xs) (cs : List GF) {m : Nat}
    (hlen : cs.length + m ≤ t) :
    ∑ i : Fin xs.length, horner cs ⟨xs[i]⟩ * (⟨xs[i]⟩ ^ m * weightAt xs i) =
    horner cs 0 * 0 ^ m := by
  induction cs generalizing m with
  | nil => simp [horner]
  | cons c cs ih =>
    rw [length_cons] at hlen
    have hrest := @ih (m + 1) (by omega)
    calc
      _ = ∑ i : Fin xs.length, (horner cs ⟨xs[i]⟩ * (⟨xs[i]⟩ ^ (m + 1) * weightAt xs i) +
          c * (⟨xs[i]⟩ ^ m * weightAt xs i)) := by
        apply Finset.sum_congr rfl
        intro i _
        change (horner cs ⟨xs[i]⟩ * ⟨xs[i]⟩ + c) * _ = _
        ring
      _ = horner cs 0 * 0 ^ (m + 1) + c * 0 ^ m := by
        rw [Finset.sum_add_distrib, hrest, ← Finset.mul_sum, h m (by omega)]
      _ = horner (c :: cs) 0 * 0 ^ m := by
        rw [horner_cons_zero, pow_succ, mul_zero, mul_zero, zero_add]

/-- Interpolation reads the constant terms of the polynomials of low degree. -/
theorem Reproduces.gfLagrange_eq {t : Nat} (h : Reproduces t xs) (coeffs : List UInt8)
    (hlen : coeffs.length ≤ t) :
    gfLagrange xs (xs.map (gfPolyEval coeffs)) = .ok (gfPolyEval coeffs 0) := by
  have hsum := h.sum_horner (coeffs.map GF.mk) (m := 0) (by simpa using hlen)
  simp only [pow_zero, one_mul, mul_one] at hsum
  rw [gfLagrange_sum]
  simp only [gfPolyEval_eq, hsum]
  rw [show (0 : GF) = ⟨0⟩ from rfl, ← gfPolyEval_eq]

/-- The coefficients of a power. -/
def monomial (t k : Nat) : List UInt8 :=
  List.replicate k 0 ++ 1 :: List.replicate (t - k - 1) 0

theorem horner_replicate_zero (n : Nat) (x : GF) : horner (replicate n 0) x = 0 := by
  induction n with
  | zero => rfl
  | succ n ih =>
    change horner (replicate n 0) x * x + 0 = 0
    rw [ih, zero_mul, zero_add]

theorem gfPolyEval_monomial (t k : Nat) (x : UInt8) :
    (⟨gfPolyEval (monomial t k) x⟩ : GF) = ⟨x⟩ ^ k := by
  rw [gfPolyEval_eq, monomial]
  induction k generalizing t with
  | zero =>
    have hmap : (replicate (t - 0 - 1) (0 : UInt8)).map GF.mk = replicate (t - 0 - 1) 0 :=
      map_replicate
    change horner ((replicate (t - 0 - 1) (0 : UInt8)).map GF.mk) ⟨x⟩ * ⟨x⟩ + 1 = 1
    rw [hmap, horner_replicate_zero, zero_mul, zero_add]
  | succ k ih =>
    have hrest := ih (t - 1)
    rw [show t - 1 - k - 1 = t - (k + 1) - 1 by omega] at hrest
    rw [pow_succ, ← hrest, replicate_succ]
    exact add_zero _

theorem length_monomial {t k : Nat} (hk : k < t) : (monomial t k).length = t := by
  rw [monomial, length_append, length_cons, length_replicate, length_replicate]
  omega

theorem reproduces_of_gfLagrange {t : Nat}
    (h : ∀ k < t, gfLagrange xs (xs.map (gfPolyEval (monomial t k))) =
      .ok (gfPolyEval (monomial t k) 0)) : Reproduces t xs := by
  intro k hk
  have hk' := h k hk
  rw [gfLagrange_sum] at hk'
  have hsum := GF.ext (Except.ok.inj hk' : _ = (⟨gfPolyEval (monomial t k) 0⟩ : GF).byte)
  simp only [gfPolyEval_monomial] at hsum
  exact hsum

end Weights

section Recovery

variable {t n : Nat} {points : List UInt8}

theorem Reproduces.of_nodup (hnodup : points.Nodup) (ht : t ≤ points.length) :
    Reproduces t points :=
  reproduces_of_gfLagrange fun k hk =>
    Identity.gfLagrange_eq hnodup (by rw [length_monomial hk]; exact ht)

/-- A polynomial with the constant term one vanishes at fewer indices than its coefficients. -/
theorem not_reproduces (hzero : 0 ∉ points) (hfew : (unrepeated points).length < t) :
    ¬Reproduces t points := by
  intro h
  obtain ⟨tail, ⟨hlen, hval⟩, _⟩ := existsUnique_tail (nodup_unrepeated points)
    (fun hmem => hzero (mem_of_mem_filter hmem)) 1 fun _ => 0
  have hsum := h.gfLagrange_eq (1 :: tail) (by rw [length_cons, hlen]; exact hfew)
  rw [gfPolyEval_zero, gfLagrange_sum, sum_eq_zero_of_unrepeated
    (f := fun x => ⟨gfPolyEval (1 :: tail) x⟩) fun x hx => by rw [hval x hx]; rfl] at hsum
  exact absurd hsum (by decide)

theorem splitByte_ok {k : Nat} {rand rand' : Rand} {shares shares' : List Share}
    {p : UInt8 × Nat} (h : splitByte (k + 1) (rand, shares) p = .ok (rand', shares')) :
    k ≤ rand.bytes.length ∧ rand'.bytes = rand.bytes.drop k := by
  obtain ⟨byte, byteIdx⟩ := p
  rw [splitByte, Nat.add_sub_cancel, Rand.read] at h
  by_cases hk : k ≤ rand.bytes.length
  · rw [if_pos hk] at h
    simp only [mapErr, ok_bind] at h
    obtain ⟨filled, _, hfilled⟩ := bind_eq_ok.mp h
    cases hfilled
    exact ⟨hk, rfl⟩
  · rw [if_neg hk] at h
    cases h

theorem length_le_of_foldlM_splitByte {k : Nat} {rand : Rand} {shares : List Share}
    {secret : List UInt8} {m : Nat} {final : Rand × List Share}
    (h : (secret.zipIdx m).foldlM (splitByte (k + 1)) (rand, shares) = .ok final) :
    secret.length * k ≤ rand.bytes.length := by
  induction secret generalizing rand shares m with
  | nil => simp
  | cons byte secret ih =>
    rw [zipIdx_cons, foldlM_cons] at h
    obtain ⟨⟨rand', shares'⟩, hbyte, hrest⟩ := bind_eq_ok.mp h
    obtain ⟨hk, hdrop⟩ := splitByte_ok hbyte
    have hle := ih hrest
    rw [hdrop, length_drop] at hle
    rw [length_cons, Nat.succ_mul]
    omega

theorem split_ok {rand : Rand} {secret : List UInt8} {threshold n : Int} {shares : List Share}
    (h : split rand secret threshold n = .ok shares) :
    secret ≠ [] ∧ secret.length * (threshold.toNat - 1) ≤ rand.bytes.length := by
  rw [split] at h
  by_cases hsecret : secret.length = 0
  · rw [if_pos hsecret] at h
    cases h
  rw [if_neg hsecret] at h
  by_cases hparams : threshold < 2 ∨ threshold > n ∨ n > 255
  · rw [if_pos hparams] at h
    cases h
  rw [if_neg hparams] at h
  obtain ⟨final, hfold, _⟩ := bind_eq_ok.mp h
  rw [show threshold.toNat = threshold.toNat - 1 + 1 by omega] at hfold
  exact ⟨fun hnil => hsecret (by rw [hnil]; rfl), length_le_of_foldlM_splitByte hfold⟩

def Recovers (threshold n : Int) (points : List UInt8) : Prop :=
  ∀ (rand : Rand) (secret : List UInt8) (shares picked : List Share),
    split rand secret threshold n = .ok shares → (∀ sh ∈ picked, sh ∈ shares) →
      picked.map Share.index = points →
        combine picked = .ok secret ∨ ∃ message, combine picked = .error (.err message)

theorem Reproduces.recovers (ht : 2 ≤ t) (htn : t ≤ n) (hn : n ≤ 255) (hlen : 2 ≤ points.length)
    (h : Reproduces t points) : Recovers t n points := by
  intro rand secret shares picked hsplit hmem hpoints
  obtain ⟨hsecret, hrand⟩ := split_ok hsplit
  rw [split_eq hsecret ht htn hn hrand, Except.ok.injEq] at hsplit
  subst hsplit hpoints
  rw [length_map] at hlen
  refine Or.inl ?_
  have hresult : ∀ row ∈ coefficientRows (t - 1) secret rand.bytes,
      gfLagrange (picked.map Share.index) ((picked.map Share.index).map (gfPolyEval row)) =
        .ok (gfPolyEval row 0) := by
    intro row hrow
    apply h.gfLagrange_eq
    rw [length_of_mem_coefficientRows hrand hrow]
    exact (Nat.sub_add_cancel (by omega)).le
  rw [combine_eq_of_gfLagrange hlen (fun sh hsh => ((mem_sharesOf hn).mp (hmem sh hsh)).2) hresult]
  exact congrArg Except.ok (map_zero_coefficientRows hrand)

theorem Recovers.reproduces (ht : 2 ≤ t) (htn : t ≤ n) (hn : n ≤ 255) (hlen : 2 ≤ points.length)
    (hpoints : ∀ x ∈ points, 1 ≤ x.toNat ∧ x.toNat ≤ n) (h : Recovers t n points) :
    Reproduces t points := by
  apply reproduces_of_gfLagrange
  intro k hk
  obtain ⟨byte, tail, hrow⟩ := exists_cons_of_length_pos
    (show 0 < (monomial t k).length by rw [length_monomial hk]; omega)
  have htail : tail.length = t - 1 := by
    have := length_monomial hk
    rw [hrow, length_cons] at this
    omega
  have hrows : coefficientRows (t - 1) [byte] tail = [monomial t k] := by
    rw [coefficientRows, coefficientRows, hrow, take_of_length_le htail.le]
  have hsplit : split ⟨tail, "EOF"⟩ [byte] t n = .ok (sharesOf n [monomial t k] 0) := by
    rw [split_eq (cons_ne_nil _ _) ht htn hn, hrows]
    rw [length_singleton, one_mul, htail]
  let picked := points.map fun x => (⟨x, [gfPolyEval (monomial t k) x]⟩ : Share)
  have hindices : picked.map Share.index = points := by
    rw [map_map]
    exact map_id points
  have hmem : ∀ sh ∈ picked, sh ∈ sharesOf n [monomial t k] 0 := by
    intro sh hsh
    obtain ⟨x, hx, rfl⟩ := mem_map.mp hsh
    exact (mem_sharesOf hn).mpr ⟨hpoints x hx, rfl⟩
  let sum : List UInt8 → UInt8 := fun row =>
    (∑ i : Fin points.length, (⟨gfPolyEval row points[i]⟩ : GF) * weightAt points i).byte
  have hcombine : combine picked = .ok [sum (monomial t k)] := by
    refine @combine_eq_of_gfLagrange [monomial t k] picked sum (by rwa [length_map]) ?_ ?_
    · exact fun sh hsh => ((mem_sharesOf hn).mp (hmem sh hsh)).2
    · intro row _
      rw [hindices]
      exact gfLagrange_sum points (gfPolyEval row)
  have hsecret : gfPolyEval (monomial t k) 0 = byte := by rw [hrow, gfPolyEval_zero]
  rw [gfLagrange_sum, hsecret]
  rcases h _ _ _ picked hsplit hmem hindices with hok | ⟨message, herr⟩
  · rw [hcombine] at hok
    exact congrArg Except.ok (cons.inj (Except.ok.inj hok)).1
  · rw [hcombine] at herr
    cases herr

/-- Shares with known indices recover every secret exactly when the weights of the
indices reproduce the powers below the threshold; they do when no index is repeated,
and do not when fewer indices than the threshold are submitted once. -/
theorem recovers_iff {threshold n : Int} (ht : 2 ≤ threshold) (htn : threshold ≤ n) (hn : n ≤ 255)
    {points : List UInt8} (hpoints : ∀ x ∈ points, 1 ≤ x.toNat ∧ (x.toNat : Int) ≤ n)
    (hdistinct : threshold ≤ points.dedup.length) :
    (Recovers threshold n points ↔ Reproduces threshold.toNat points) ∧
      (points.Nodup → Recovers threshold n points) ∧
      (((unrepeated points).length : Int) < threshold → ¬Recovers threshold n points) := by
  obtain ⟨t, rfl⟩ := Int.eq_ofNat_of_zero_le (show 0 ≤ threshold by omega)
  obtain ⟨m, rfl⟩ := Int.eq_ofNat_of_zero_le (show 0 ≤ n by omega)
  have hlen : t ≤ points.length := by
    have := (dedup_sublist points).length_le
    omega
  have hrange : ∀ x ∈ points, 1 ≤ x.toNat ∧ x.toNat ≤ m := fun x hx =>
    ⟨(hpoints x hx).1, by have := (hpoints x hx).2; omega⟩
  have hiff : Recovers t m points ↔ Reproduces t points :=
    ⟨Recovers.reproduces (by omega) (by omega) (by omega) (by omega) hrange,
      Reproduces.recovers (by omega) (by omega) (by omega) (by omega)⟩
  refine ⟨hiff, fun hnodup => hiff.mpr (Reproduces.of_nodup hnodup hlen), fun hfew => ?_⟩
  have hzero : 0 ∉ points := fun h => absurd (hpoints 0 h).1 (by decide)
  exact fun h => not_reproduces hzero (by omega) (hiff.mp h)

/-- Three shares of two. -/
theorem recovers_two_of_three : Recovers 2 3 [3, 1, 2] :=
  (@recovers_iff 2 3 (by decide) (by decide) (by decide) [3, 1, 2] (by simp) (by decide)).2.1
    (by decide)

/-- The first share, submitted twice, leaves one of the other. -/
theorem combine_repeated_share :
    split ⟨[7], "EOF"⟩ [83] 2 2 = .ok [⟨1, [84]⟩, ⟨2, [93]⟩] ∧
      combine [⟨1, [84]⟩, ⟨1, [84]⟩, ⟨2, [93]⟩] = .ok [183] :=
  ⟨by decide +kernel, by decide +kernel⟩

end Recovery

end Oikos.Identity
