/-
What shares of a secret tell: the threshold of them gives it back, fewer of them
are the outcome of as many random choices for every other secret.
-/
import Oikos.Identity.Recovery
import Mathlib.Data.Set.Card

namespace Oikos.Identity

open List

section Rows

variable {k n : Nat} {secret bytes : List UInt8}

theorem length_coefficientRows (k : Nat) (secret bytes : List UInt8) :
    (coefficientRows k secret bytes).length = secret.length := by
  induction secret generalizing bytes with
  | nil => rfl
  | cons b secret ih => rw [coefficientRows, length_cons, ih, length_cons]

theorem gfPolyEval_zero (byte : UInt8) (tail : List UInt8) :
    gfPolyEval (byte :: tail) 0 = byte := by
  change gfMul (gfPolyEval tail 0) 0 ^^^ byte = byte
  rw [gfMul_zero, UInt8.zero_xor]

theorem mem_sharesOf (hn : n ≤ 255) {rows : List (List UInt8)} {sh : Share} :
    sh ∈ sharesOf n rows 0 ↔
      (1 ≤ sh.index.toNat ∧ sh.index.toNat ≤ n) ∧ sh.value = rows.map (gfPolyEval · sh.index) := by
  constructor
  · intro h
    obtain ⟨i, hi, rfl⟩ := mem_map.mp h
    have hval := toNat_ofNat_succ hn (mem_range.mp hi)
    have hlt := mem_range.mp hi
    refine ⟨⟨?_, ?_⟩, append_nil _⟩
    · rw [hval]
      omega
    · rw [hval]
      omega
  · rintro ⟨⟨hpos, hle⟩, hvalue⟩
    refine mem_map.mpr ⟨sh.index.toNat - 1, mem_range.mpr (by omega), ?_⟩
    have hindex : UInt8.ofNat (sh.index.toNat - 1 + 1) = sh.index := by
      rw [Nat.sub_add_cancel hpos, UInt8.ofNat_toNat]
    rw [hindex, replicate_zero, append_nil, ← hvalue]

end Rows

section Reconstruction

/-- What every byte of the shares interpolates to. -/
theorem combine_eq_of_gfLagrange {rows : List (List UInt8)} {picked : List Share}
    {result : List UInt8 → UInt8} (hpicked : 2 ≤ picked.length)
    (hvalues : ∀ sh ∈ picked, sh.value = rows.map (gfPolyEval · sh.index))
    (hresult : ∀ row ∈ rows, gfLagrange (picked.map Share.index)
      ((picked.map Share.index).map (gfPolyEval row)) = .ok (result row)) :
    combine picked = .ok (rows.map result) := by
  have hlen : ∀ sh ∈ picked, sh.value.length = rows.length := by
    intro sh hsh
    rw [hvalues sh hsh, length_map]
  have hsecret : (range rows.length).mapM (fun byteIdx => (do
      let ys ← picked.mapM fun s => index s.value byteIdx
      gfLagrange (picked.map Share.index) ys : Result String UInt8)) =
        .ok (rows.map result) := by
    refine mapM_eq_ok.mpr (forall₂_iff_get.mpr ⟨by simp, ?_⟩)
    intro i hi _
    have hi' : i < rows.length := by simpa using hi
    have hys : picked.mapM (fun s => (index s.value i : Result String UInt8)) =
        .ok ((picked.map Share.index).map (gfPolyEval rows[i])) := by
      rw [map_map]
      refine mapM_eq_ok.mpr (forall₂_map_right_iff.mpr (forall₂_same.mpr ?_))
      intro sh hsh
      apply index_eq_ok
      rw [hvalues sh hsh, getElem?_map, getElem?_eq_getElem hi']
      rfl
    simp only [get_eq_getElem, getElem_range, getElem_map, hys, ok_bind]
    exact hresult rows[i] (getElem_mem hi')
  cases picked with
  | nil => simp at hpicked
  | cons first picked =>
    rw [combine, if_neg (by omega)]
    have hany : (picked.any (·.value.length != first.value.length)) = false := by
      simp only [any_eq_false, bne_iff_ne, not_not]
      intro sh hsh
      rw [hlen sh (by simp [hsh]), hlen first (by simp)]
    change (if picked.any (·.value.length != first.value.length) then _ else _) = _
    rw [hany, if_neg Bool.false_ne_true, hlen first (by simp)]
    exact hsecret

theorem map_zero_coefficientRows (h : secret.length * k ≤ bytes.length) :
    (coefficientRows k secret bytes).map (gfPolyEval · 0) = secret := by
  induction secret generalizing bytes with
  | nil => rfl
  | cons byte secret ih =>
    rw [length_cons, Nat.succ_mul] at h
    rw [coefficientRows, map_cons, gfPolyEval_zero, ih (by rw [length_drop]; omega)]

theorem length_of_mem_coefficientRows (h : secret.length * k ≤ bytes.length) {row : List UInt8}
    (hrow : row ∈ coefficientRows k secret bytes) : row.length = k + 1 := by
  induction secret generalizing bytes with
  | nil => exact absurd hrow not_mem_nil
  | cons byte secret ih =>
    rw [length_cons, Nat.succ_mul] at h
    rcases mem_cons.mp hrow with rfl | hrow
    · rw [length_cons, length_take_of_le (by omega)]
    · exact ih (by rw [length_drop]; omega) hrow

theorem combine_sharesOf (hk : 1 ≤ k) (hn : n ≤ 255) (hbytes : secret.length * k ≤ bytes.length)
    {picked : List Share}
    (hmem : ∀ sh ∈ picked, sh ∈ sharesOf n (coefficientRows k secret bytes) 0)
    (hnodup : (picked.map Share.index).Nodup) (hpicked : k + 1 ≤ picked.length) :
    combine picked = .ok secret := by
  have hvalues : ∀ sh ∈ picked, sh.value = (coefficientRows k secret bytes).map
      (gfPolyEval · sh.index) := fun sh hsh => ((mem_sharesOf hn).mp (hmem sh hsh)).2
  have hresult : ∀ row ∈ coefficientRows k secret bytes, gfLagrange (picked.map Share.index)
      ((picked.map Share.index).map (gfPolyEval row)) = .ok (gfPolyEval row 0) := by
    intro row hrow
    apply gfLagrange_eq hnodup
    rw [length_map, length_of_mem_coefficientRows hbytes hrow]
    exact hpicked
  rw [combine_eq_of_gfLagrange (by omega) hvalues hresult, map_zero_coefficientRows hbytes]

theorem map_index_sharesOf (hn : n ≤ 255) (rows : List (List UInt8)) :
    (sharesOf n rows 0).map (·.index.toNat) = (range n).map (· + 1) := by
  rw [sharesOf, map_map]
  apply map_congr_left
  intro i hi
  exact toNat_ofNat_succ hn (mem_range.mp hi)

/-- `n` shares with the indices from 1 to `n` come out, and at least as many different
ones of them as the threshold give the secret back. -/
theorem combine_split {rand : Rand} {secret : List UInt8} {threshold n : Int}
    (hsecret : secret ≠ [])
    (ht : 2 ≤ threshold) (htn : threshold ≤ n) (hn : n ≤ 255)
    (hrand : secret.length * (threshold.toNat - 1) ≤ rand.bytes.length) :
    ∃ shares, split rand secret threshold n = .ok shares ∧
      shares.map (·.index.toNat) = (range n.toNat).map (· + 1) ∧
      ∀ picked : List Share, (∀ sh ∈ picked, sh ∈ shares) → (picked.map Share.index).Nodup →
        threshold ≤ picked.length → combine picked = .ok secret := by
  obtain ⟨t, rfl⟩ := Int.eq_ofNat_of_zero_le (show 0 ≤ threshold by omega)
  obtain ⟨m, rfl⟩ := Int.eq_ofNat_of_zero_le (show 0 ≤ n by omega)
  refine ⟨_, split_eq hsecret (by omega) (by omega) (by omega) hrand,
    map_index_sharesOf (by omega) _, ?_⟩
  intro picked hmem hnodup hlen
  exact combine_sharesOf (by omega) (by omega) hrand hmem hnodup (by omega)

end Reconstruction

/-- Two of three shares, the later one first. -/
theorem combine_split_two_of_three :
    split ⟨[7], "EOF"⟩ [83] 2 3 = .ok [⟨1, [84]⟩, ⟨2, [93]⟩, ⟨3, [90]⟩] ∧
      combine [⟨3, [90]⟩, ⟨1, [84]⟩] = .ok [83] := by
  have hsplit : split ⟨[7], "EOF"⟩ [83] 2 3 = .ok [⟨1, [84]⟩, ⟨2, [93]⟩, ⟨3, [90]⟩] := by
    decide +kernel
  obtain ⟨shares, hshares, _, hcombine⟩ :=
    @combine_split ⟨[7], "EOF"⟩ [83] 2 3 (by decide) (by decide) (by decide) (by decide)
      (by decide)
  obtain rfl := Except.ok.inj (hshares.symm.trans hsplit)
  exact ⟨hsplit, hcombine _ (by decide) (by decide) (by decide)⟩

section Secrecy

variable {k : Nat}

theorem map_byte_map_mk (coeffs : List GF) : (coeffs.map GF.byte).map GF.mk = coeffs := by
  rw [map_map]
  exact map_id _

variable {points : List UInt8}

theorem existsUnique_coeffs (hnodup : points.Nodup) (y : UInt8 → UInt8) :
    ∃! coeffs : List UInt8, coeffs.length = points.length ∧
      ∀ x ∈ points, gfPolyEval coeffs x = y x := by
  have hinj : Function.Injective fun i : Fin points.length => (⟨points[i]⟩ : GF) :=
    fun i j h => nodup_iff_injective_get.mp hnodup (GF.mk.inj h)
  obtain ⟨cs, ⟨hlen, hval⟩, huniq⟩ := existsUnique_horner hinj fun i => ⟨y points[i]⟩
  rw [Fintype.card_fin] at hlen
  refine ⟨cs.map GF.byte, ⟨by rwa [length_map], ?_⟩, ?_⟩
  · intro x hx
    obtain ⟨i, hi, rfl⟩ := mem_iff_getElem.mp hx
    rw [gfPolyEval_eq_iff, map_byte_map_mk]
    exact hval ⟨i, hi⟩
  · rintro coeffs ⟨hlen', hval'⟩
    have h := huniq (coeffs.map GF.mk) ⟨by rw [length_map, hlen', Fintype.card_fin], fun i =>
      gfPolyEval_eq_iff.mp (hval' points[i] (getElem_mem i.isLt))⟩
    rw [← h, map_map]
    exact (map_id coeffs).symm

/-- One polynomial has a given constant term and given values at the other points. -/
theorem existsUnique_tail (hnodup : points.Nodup) (hzero : 0 ∉ points)
    (byte : UInt8) (y : UInt8 → UInt8) :
    ∃! tail : List UInt8, tail.length = points.length ∧
      ∀ x ∈ points, gfPolyEval (byte :: tail) x = y x := by
  have hne : ∀ x ∈ points, x ≠ 0 := fun x hx h => hzero (h ▸ hx)
  obtain ⟨coeffs, ⟨hlen, hval⟩, huniq⟩ :=
    existsUnique_coeffs (nodup_cons.mpr ⟨hzero, hnodup⟩) (Function.update y 0 byte)
  obtain ⟨c, tail, rfl⟩ := exists_cons_of_length_eq_add_one hlen
  have hc : c = byte := by
    have h := hval 0 (by simp)
    rwa [gfPolyEval_zero, Function.update_self] at h
  subst hc
  refine ⟨tail, ⟨Nat.succ_inj.mp hlen, fun x hx => ?_⟩, ?_⟩
  · rw [hval x (by simp [hx]), Function.update_of_ne (hne x hx)]
  · rintro tail' ⟨hlen', hval'⟩
    have h := huniq (c :: tail') ⟨congrArg Nat.succ hlen', fun x hx => ?_⟩
    · exact (cons.inj h).2
    · rcases mem_cons.mp hx with rfl | hx
      · rw [gfPolyEval_zero, Function.update_self]
      · rw [hval' x hx, Function.update_of_ne (hne x hx)]

/-- Byte by byte, one choice of coefficients leads to given shares. -/
theorem existsUnique_bytes (hnodup : points.Nodup) (hzero : 0 ∉ points)
    (secret : List UInt8) {y : UInt8 → List UInt8}
    (hy : ∀ x ∈ points, (y x).length = secret.length) :
    ∃! bytes : List UInt8, bytes.length = secret.length * points.length ∧
      ∀ x ∈ points, y x = (coefficientRows points.length secret bytes).map (gfPolyEval · x) := by
  induction secret generalizing y with
  | nil =>
    refine ⟨[], ⟨by simp, fun x hx => length_eq_zero_iff.mp (hy x hx)⟩, ?_⟩
    rintro bytes ⟨hlen, _⟩
    exact length_eq_zero_iff.mp (hlen.trans (zero_mul _))
  | cons byte secret ih =>
    have hcons : ∀ x ∈ points, y x = (y x).headD 0 :: (y x).tail := by
      intro x hx
      obtain ⟨b, bs, h⟩ := exists_cons_of_length_eq_add_one (hy x hx)
      rw [h]
      rfl
    have htail : ∀ x ∈ points, ((y x).tail).length = secret.length := fun x hx => by
      rw [length_tail, hy x hx, length_cons, Nat.add_sub_cancel]
    obtain ⟨first, ⟨hfirst, hval⟩, hfirstUniq⟩ :=
      existsUnique_tail hnodup hzero byte fun x => (y x).headD 0
    obtain ⟨rest, ⟨hrest, hrows⟩, hrestUniq⟩ := ih htail
    have hlen : (byte :: secret).length * points.length =
        points.length + secret.length * points.length := by
      rw [length_cons, Nat.succ_mul, add_comm]
    refine ⟨first ++ rest, ⟨?_, ?_⟩, ?_⟩
    · rw [length_append, hfirst, hrest, hlen]
    · intro x hx
      rw [coefficientRows, take_left' hfirst, drop_left' hfirst, map_cons, hval x hx,
        ← hrows x hx]
      exact hcons x hx
    · rintro bytes ⟨hbytes, hall⟩
      have hsplit : ∀ x ∈ points, gfPolyEval (byte :: bytes.take points.length) x = (y x).headD 0 ∧
          (y x).tail = (coefficientRows points.length secret (bytes.drop points.length)).map
            (gfPolyEval · x) := by
        intro x hx
        have h := hall x hx
        rw [coefficientRows, map_cons, hcons x hx] at h
        exact ⟨(cons.inj h).1.symm, (cons.inj h).2⟩
      rw [hlen] at hbytes
      have htake := hfirstUniq (bytes.take points.length)
        ⟨length_take_of_le (by omega), fun x hx => (hsplit x hx).1⟩
      have hdrop := hrestUniq (bytes.drop points.length)
        ⟨by rw [length_drop]; omega, fun x hx => (hsplit x hx).2⟩
      rw [← htake, ← hdrop, take_append_drop]

/-- The random bytes with which `split` hands out the share `y x` at every index `x`. -/
def choices (fault : String) (secret : List UInt8) (threshold n : Int) (points : List UInt8)
    (y : UInt8 → List UInt8) : Set (List UInt8) :=
  {bytes | bytes.length = secret.length * (threshold.toNat - 1) ∧
    ∃ shares, split ⟨bytes, fault⟩ secret threshold n = .ok shares ∧
    ∀ x ∈ points, ⟨x, y x⟩ ∈ shares}

theorem choices_eq {fault : String} {secret : List UInt8} {t n : Nat} {y : UInt8 → List UInt8}
    (hsecret : secret ≠ []) (ht : 2 ≤ t) (htn : t ≤ n) (hn : n ≤ 255)
    (hpoints : ∀ x ∈ points, 1 ≤ x.toNat ∧ x.toNat ≤ n) :
    choices fault secret t n points y = {bytes | bytes.length = secret.length * (t - 1) ∧
      ∀ x ∈ points, y x = (coefficientRows (t - 1) secret bytes).map (gfPolyEval · x)} := by
  ext bytes
  simp only [choices, Set.mem_ofPred_eq, Int.toNat_natCast]
  refine and_congr_right fun hbytes => ?_
  rw [split_eq hsecret ht htn hn (le_of_eq hbytes.symm)]
  simp only [Except.ok.injEq, exists_eq_left', mem_sharesOf hn]
  exact forall₂_congr fun x hx => and_iff_right (hpoints x hx)

/-- One share less than the threshold is the outcome of exactly one choice of the
other coefficients for every secret byte, and of as many choices of the random
bytes for all secrets of one length. -/
theorem shares_reveal_nothing {threshold n : Int} (ht : 2 ≤ threshold) (htn : threshold ≤ n)
    (hn : n ≤ 255) (hnodup : points.Nodup)
    (hlen : (points.length : Int) = threshold - 1)
    (hpoints : ∀ x ∈ points, 1 ≤ x.toNat ∧ (x.toNat : Int) ≤ n) :
    (∀ (byte : UInt8) (y : UInt8 → UInt8), ∃! tail : List UInt8,
      (tail.length : Int) = threshold - 1 ∧ ∀ x ∈ points, gfPolyEval (byte :: tail) x = y x) ∧
    ∀ (fault : String) (secret other : List UInt8) (y : UInt8 → List UInt8), secret ≠ [] →
      secret.length = other.length →
        (choices fault secret threshold n points y).ncard =
          (choices fault other threshold n points y).ncard ∧
        ((∀ x ∈ points, (y x).length = secret.length) →
          (choices fault secret threshold n points y).ncard = 1) := by
  obtain ⟨t, rfl⟩ := Int.eq_ofNat_of_zero_le (show 0 ≤ threshold by omega)
  obtain ⟨m, rfl⟩ := Int.eq_ofNat_of_zero_le (show 0 ≤ n by omega)
  have hk : t - 1 = points.length := by omega
  have hzero : 0 ∉ points := fun h => absurd (hpoints 0 h).1 (by decide)
  have hrange : ∀ x ∈ points, 1 ≤ x.toNat ∧ x.toNat ≤ m := fun x hx =>
    ⟨(hpoints x hx).1, by have := (hpoints x hx).2; omega⟩
  refine ⟨fun byte y => ?_, fun fault secret other y hsecret hsame => ?_⟩
  · rw [← hlen]
    simpa only [Nat.cast_inj] using existsUnique_tail hnodup hzero byte y
  have hone : ∀ s : List UInt8, s ≠ [] → (∀ x ∈ points, (y x).length = s.length) →
      (choices fault s t m points y).ncard = 1 := by
    intro s hs hy
    obtain ⟨bytes, hbytes, huniq⟩ := existsUnique_bytes hnodup hzero s hy
    rw [choices_eq hs (by omega) (by omega) (by omega) hrange, hk]
    exact Set.ncard_eq_one.mpr ⟨bytes, Set.eq_singleton_iff_unique_mem.mpr ⟨hbytes, huniq⟩⟩
  have hnone : ∀ s : List UInt8, s ≠ [] → (∃ x ∈ points, (y x).length ≠ s.length) →
      choices fault s t m points y = ∅ := by
    rintro s hs ⟨x, hx, hne⟩
    rw [choices_eq hs (by omega) (by omega) (by omega) hrange]
    apply Set.eq_empty_of_forall_notMem
    rintro bytes ⟨_, hall⟩
    exact hne (by rw [hall x hx, length_map, length_coefficientRows])
  have hother : other ≠ [] := by
    intro h
    rw [h] at hsame
    exact hsecret (length_eq_zero_iff.mp hsame)
  refine ⟨?_, hone secret hsecret⟩
  by_cases hy : ∀ x ∈ points, (y x).length = secret.length
  · rw [hone secret hsecret hy, hone other hother (by rwa [← hsame])]
  · push Not at hy
    rw [hnone secret hsecret hy, hnone other hother (by rwa [← hsame])]

theorem shares_reveal_nothing_two_of_three :
    (∀ (byte : UInt8) (y : UInt8 → UInt8), ∃! tail : List UInt8,
      (tail.length : Int) = 2 - 1 ∧ ∀ x ∈ [3], gfPolyEval (byte :: tail) x = y x) ∧
    ∀ (fault : String) (secret other : List UInt8) (y : UInt8 → List UInt8), secret ≠ [] →
      secret.length = other.length →
        (choices fault secret 2 3 [3] y).ncard = (choices fault other 2 3 [3] y).ncard ∧
        ((∀ x ∈ [3], (y x).length = secret.length) →
          (choices fault secret 2 3 [3] y).ncard = 1) :=
  shares_reveal_nothing (by decide) (by decide) (by decide) (by decide) (by decide)
    (forall_mem_singleton.mpr (by decide))

end Secrecy

end Oikos.Identity
