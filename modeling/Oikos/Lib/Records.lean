/-
Sequences of records that all have the same width.
-/
import Oikos.Lib.Table
import Oikos.Lib.Bits
import Mathlib.Data.List.Sort

namespace Oikos

open List

universe u v

section Width

variable {α : Type u} {β : Type v} {γ : Type*} {f : α → List β} {width : Nat}
  {l l' : List α} {t t' : List β}

theorem length_flatMap_of_width (hwidth : ∀ a, (f a).length = width) (l : List α) :
    (l.flatMap f).length = l.length * width := by
  induction l with
  | nil => simp
  | cons a l ih =>
    rw [flatMap_cons, length_append, hwidth, ih, length_cons, Nat.succ_mul]
    omega

/-- As many records in front of a rest are read back one by one. -/
theorem flatMap_append_inj_of_width (view : α → γ) (hwidth : ∀ a, (f a).length = width)
    (hinj : ∀ a b, f a = f b → view a = view b) (hlength : l.length = l'.length)
    (h : l.flatMap f ++ t = l'.flatMap f ++ t') : l.map view = l'.map view ∧ t = t' := by
  induction l generalizing l' with
  | nil =>
    obtain rfl : l' = [] := eq_nil_of_length_eq_zero hlength.symm
    exact ⟨rfl, h⟩
  | cons a l ih =>
    cases l' with
    | nil => cases hlength
    | cons a' l' =>
      rw [flatMap_cons, flatMap_cons, append_assoc, append_assoc] at h
      obtain ⟨hhead, htail⟩ := append_inj h ((hwidth a).trans (hwidth a').symm)
      obtain ⟨hrest, hend⟩ := ih (Nat.succ.inj hlength) htail
      rw [map_cons, map_cons, hinj a a' hhead, hrest]
      exact ⟨rfl, hend⟩

end Width

theorem leBytes_inj {w n m : Nat} (hn : n < 256 ^ w) (hm : m < 256 ^ w)
    (h : leBytes w n = leBytes w m) : n = m := by
  rw [← leValue_leBytes_of_lt hn, h, leValue_leBytes_of_lt hm]

/-- The bytes of a number are those of its low part, then those of its high part. -/
theorem leBytes_add (w w' n : Nat) :
    leBytes (w + w') n = leBytes w n ++ leBytes w' (n / 256 ^ w) := by
  induction w generalizing n with
  | zero => simp [leBytes]
  | succ w ih =>
    rw [Nat.succ_add, leBytes, leBytes, ih, Nat.div_div_eq_div_mul, Nat.pow_succ',
      cons_append]

theorem leBytes_pow_mul (w n : Nat) : leBytes w (256 ^ w * n) = leBytes w 0 := by
  induction w with
  | zero => rfl
  | succ w ih =>
    have hdiv : 256 ^ (w + 1) * n / 256 = 256 ^ w * n := by
      rw [Nat.pow_succ', Nat.mul_assoc, Nat.mul_div_cancel_left _ (by decide)]
    have hmod : UInt8.ofNat (256 ^ (w + 1) * n) = UInt8.ofNat 0 := by
      apply UInt8.toNat_inj.mp
      rw [UInt8.toNat_ofNat', UInt8.toNat_ofNat', Nat.pow_succ', Nat.mul_assoc,
        Nat.mul_mod_right]
    rw [leBytes, leBytes, hdiv, hmod, ih]

theorem toNat_ofNat_of_lt_pow {n : Nat} (h : n < 2 ^ 64) : (UInt64.ofNat n).toNat = n :=
  UInt64.toNat_ofNat_of_lt' h

/-! ### Tables in the order of their keys -/

namespace Table

variable {K : Type u} {V : Type v} [LinearOrder K]

/-- The entries in the order of their keys. -/
def sorted (t : Table K V) : List (K × V) :=
  (t.keys.mergeSort (· ≤ ·)).filterMap fun k => (t.get k).map (k, ·)

variable {t : Table K V} {k : K} {v : V}

theorem mem_sorted : (k, v) ∈ t.sorted ↔ t.get k = some v := by
  rw [sorted, mem_filterMap]
  constructor
  · rintro ⟨k', _, h⟩
    obtain ⟨v', hget, heq⟩ := Option.map_eq_some_iff.mp h
    cases heq
    exact hget
  · intro h
    exact ⟨k, mem_mergeSort.mpr (mem_keys_of_get h), by rw [h]; rfl⟩

theorem length_sorted (t : Table K V) : t.sorted.length = t.keys.length := by
  have hsome : ∀ k ∈ t.keys.mergeSort (· ≤ ·), ((t.get k).map (k, ·)).isSome = true := by
    intro k hk
    obtain ⟨v, hv⟩ := get_of_mem_keys (mem_mergeSort.mp hk)
    rw [hv]
    rfl
  rw [sorted, length_filterMap_eq_countP, countP_eq_length.mpr hsome,
    length_mergeSort]

theorem sorted_of_pairwise (h : t.keys.Pairwise (· < ·)) : t.sorted = t.entries := by
  have hkeys : t.keys.mergeSort (· ≤ ·) = t.keys := by
    apply mergeSort_of_pairwise
    exact h.imp fun hlt => decide_eq_true (le_of_lt hlt)
  have hget : ∀ p ∈ t.entries, (t.get p.1).map (p.1, ·) = some p := by
    intro p hp
    rw [get, assocGet_of_mem t.nodup hp]
    rfl
  rw [sorted, hkeys, keys, filterMap_map]
  calc t.entries.filterMap ((fun k => (t.get k).map (k, ·)) ∘ Prod.fst)
      = t.entries.filterMap some := filterMap_congr hget
    _ = t.entries := filterMap_some

/-- Tables whose entries look alike in order give alike answers. -/
theorem get_map_eq_of_sorted {W : Type v} {t' : Table K V} {view : V → W}
    (h : t.sorted.map (fun p => (p.1, view p.2)) = t'.sorted.map (fun p => (p.1, view p.2)))
    (k : K) : (t.get k).map view = (t'.get k).map view := by
  have hmem : ∀ (t : Table K V) (w : W),
      (t.get k).map view = some w ↔ (k, w) ∈ t.sorted.map (fun p => (p.1, view p.2)) := by
    intro t w
    rw [Option.map_eq_some_iff, mem_map]
    constructor
    · rintro ⟨v, hv, rfl⟩
      exact ⟨(k, v), mem_sorted.mpr hv, rfl⟩
    · rintro ⟨⟨k', v⟩, hp, heq⟩
      cases heq
      exact ⟨v, mem_sorted.mp hp, rfl⟩
  apply Option.ext
  intro w
  rw [hmem t, hmem t', h]

/-! ### Tables with consecutive keys -/

/-- One entry for each number from `start` on. -/
def numbered (start count : Nat) (h : start + count ≤ 2 ^ 64) (f : Nat → V) : Table UInt64 V :=
  ⟨(List.range' start count).map fun i => (UInt64.ofNat i, f i), by
    rw [List.map_map]
    apply Nodup.map_on _ List.nodup_range'
    intro i hi j hj heq
    rw [List.mem_range'_1] at hi hj
    have heq' := congrArg UInt64.toNat heq
    rwa [Function.comp_apply, Function.comp_apply, toNat_ofNat_of_lt_pow (by omega),
      toNat_ofNat_of_lt_pow (by omega)] at heq'⟩

variable {start count : Nat} {h : start + count ≤ 2 ^ 64} {f : Nat → V}

theorem keys_numbered :
    (numbered start count h f).keys = (range' start count).map UInt64.ofNat := by
  rw [keys, numbered, map_map]
  rfl

@[simp] theorem length_keys_numbered : (numbered start count h f).keys.length = count := by
  rw [keys_numbered, length_map, length_range']

end Table

end Oikos
