/-
Ordered maps from variables to coefficients, read as linear forms over a module.
-/
import Oikos.Lib.OrdMap
import Mathlib.Algebra.BigOperators.Group.Finset.Basic
import Mathlib.Algebra.BigOperators.Ring.List
import Mathlib.Algebra.Module.Basic
import Mathlib.Tactic.Abel

namespace Oikos

open List

universe u v w

variable {K : Type u} {R : Type v} {M : Type w} [LinearOrder K] [CommRing R] [AddCommGroup M]
  [Module R M]

namespace OrdMap

/-- The coefficient of a variable; a variable without an entry has coefficient zero. -/
def coeff (m : OrdMap K R) (k : K) : R :=
  (m.get k).getD 0

/-- The value of a linear form under an assignment. -/
def dot (m : OrdMap K R) (σ : K → M) : M :=
  m.sum fun k c => c • σ k

def ofPairs (pairs : List (K × R)) : OrdMap K R :=
  pairs.foldl (fun m p => m.insert p.1 p.2) .empty

/-- The nonzero values of a function at some keys. -/
def tabulate [DecidableEq R] (f : K → R) (ks : List K) : OrdMap K R :=
  ks.foldl (fun m k => if f k ≠ 0 then m.insert k (f k) else m) .empty

variable {m : OrdMap K R} {σ : K → M} {k : K} {c : R} {ks : List K}

theorem coeff_eq (h : m.get k = some c) : m.coeff k = c := by
  rw [coeff, h, Option.getD_some]

theorem coeff_eq_zero (h : k ∉ m.keys) : m.coeff k = 0 := by
  rw [coeff, get_eq_none.mpr h, Option.getD_none]

variable {p : K × R} {l : List (K × R)} {f : K → R}

theorem coeff_of_mem (h : p ∈ m.entries) : m.coeff p.1 = p.2 :=
  coeff_eq (get_eq_some_iff.mpr h)

theorem mem_or_coeff_eq_zero (m : OrdMap K R) (k : K) :
    (k, m.coeff k) ∈ m.entries ∨ m.coeff k = 0 := by
  by_cases hk : k ∈ m.keys
  · obtain ⟨p, hp, rfl⟩ := mem_map.mp hk
    exact Or.inl (by rwa [coeff_of_mem hp])
  · exact Or.inr (coeff_eq_zero hk)

@[simp] theorem dot_empty : (empty : OrdMap K R).dot σ = 0 := rfl

theorem dot_insert (h : m.get k = none) : (m.insert k c).dot σ = m.dot σ + c • σ k := by
  have hsum := sum_insert m k c fun k c => c • σ k
  rwa [h, Option.elim_none, add_zero] at hsum

theorem dot_eq_add_erase (h : m.get k = some c) : m.dot σ = c • σ k + (m.erase k).dot σ :=
  sum_eq_add_erase h

theorem dot_map_neg : (m.map fun c => -c).dot σ = -m.dot σ := by
  rw [dot, sum_map, dot, ← sum_neg]
  simp only [neg_smul]

theorem dot_eq_sum_coeff (hks : ks.Nodup) (hsub : ∀ k ∈ m.keys, k ∈ ks) :
    m.dot σ = (ks.map fun k => m.coeff k • σ k).sum := by
  have hkeys : m.dot σ = (m.keys.map fun k => m.coeff k • σ k).sum := by
    rw [dot, sum, keys, map_map]
    refine congrArg List.sum (map_congr_left fun p hp => ?_)
    rw [Function.comp_apply, coeff_eq (get_eq_some_iff.mpr hp)]
  have hnodup : m.keys.Nodup := m.nodup_keys
  rw [hkeys, ← sum_toFinset _ hnodup, ← sum_toFinset _ hks]
  refine Finset.sum_subset (fun k hk => ?_) fun k _ hk => ?_
  · exact mem_toFinset.mpr (hsub k (mem_toFinset.mp hk))
  · rw [coeff_eq_zero (fun h => hk (List.mem_toFinset.mpr h)), zero_smul]

theorem dot_foldl_insert (hl : (l.map Prod.fst).Nodup) (hfresh : ∀ p ∈ l, p.1 ∉ m.keys) :
    (l.foldl (fun m p => m.insert p.1 p.2) m).dot σ =
      m.dot σ + (l.map fun p => p.2 • σ p.1).sum := by
  induction l generalizing m with
  | nil => simp
  | cons p l ih =>
    obtain ⟨hp, hl⟩ := nodup_cons.mp hl
    obtain ⟨hnew, hfresh⟩ := forall_mem_cons.mp hfresh
    have hrest : ∀ q ∈ l, q.1 ∉ (m.insert p.1 p.2).keys := by
      intro q hq hmem
      rcases mem_keys_insert hmem with heq | hmem
      · exact hp (heq ▸ mem_map_of_mem hq)
      · exact hfresh q hq hmem
    rw [foldl_cons, ih hl hrest, dot_insert (get_eq_none.mpr hnew), map_cons,
      sum_cons, add_assoc]

theorem dot_congr {σ' : K → M} (h : ∀ k ∈ m.keys, σ k = σ' k) : m.dot σ = m.dot σ' :=
  sum_congr fun p hp => by rw [h p.1 (mem_keys_of_mem hp)]

omit [CommRing R] in
theorem mem_foldl_insert
    (h : p ∈ (l.foldl (fun m p => m.insert p.1 p.2) m).entries) : p ∈ m.entries ∨ p ∈ l := by
  induction l generalizing m with
  | nil => exact Or.inl h
  | cons q l ih =>
    rcases ih h with h | h
    · rcases mem_insert h with rfl | h
      · exact Or.inr mem_cons_self
      · exact Or.inl h
    · exact Or.inr (mem_cons_of_mem q h)

omit [CommRing R] in
theorem mem_ofPairs (h : p ∈ (ofPairs l).entries) : p ∈ l := by
  rcases mem_foldl_insert h with h | h
  · cases h
  · exact h

theorem dot_ofPairs (hl : (l.map Prod.fst).Nodup) :
    (ofPairs l).dot σ = (l.map fun p => p.2 • σ p.1).sum := by
  rw [ofPairs, dot_foldl_insert hl (by simp [empty, keys]), dot_empty, zero_add]

theorem dot_foldl_tabulate [DecidableEq R] (hks : ks.Nodup) (hfresh : ∀ k ∈ ks, k ∉ m.keys) :
    (ks.foldl (fun m k => if f k ≠ 0 then m.insert k (f k) else m) m).dot σ =
      m.dot σ + (ks.map fun k => f k • σ k).sum := by
  induction ks generalizing m with
  | nil => simp
  | cons k ks ih =>
    obtain ⟨hk, hks⟩ := nodup_cons.mp hks
    obtain ⟨hnew, hfresh⟩ := forall_mem_cons.mp hfresh
    rw [foldl_cons, map_cons, sum_cons]
    by_cases hzero : f k = 0
    · rw [if_neg (by simpa using hzero), ih hks hfresh, hzero, zero_smul, zero_add]
    · have hrest : ∀ k' ∈ ks, k' ∉ (m.insert k (f k)).keys := by
        intro k' hk' hmem
        rcases mem_keys_insert hmem with rfl | hmem
        · exact hk hk'
        · exact hfresh k' hk' hmem
      rw [if_pos hzero, ih hks hrest, dot_insert (get_eq_none.mpr hnew), add_assoc]

theorem dot_tabulate [DecidableEq R] (hks : ks.Nodup) :
    (tabulate f ks).dot σ = (ks.map fun k => f k • σ k).sum := by
  rw [tabulate, dot_foldl_tabulate hks (by simp [empty, keys]), dot_empty, zero_add]

theorem mem_foldl_tabulate [DecidableEq R]
    (h : p ∈ (ks.foldl (fun m k => if f k ≠ 0 then m.insert k (f k) else m) m).entries) :
    p ∈ m.entries ∨ p.1 ∈ ks ∧ p.2 = f p.1 ∧ f p.1 ≠ 0 := by
  induction ks generalizing m with
  | nil => exact Or.inl h
  | cons k ks ih =>
    rcases ih h with h | ⟨hk, hvalue⟩
    · dsimp only at h
      split at h
      · next hne =>
        rcases mem_insert h with rfl | h
        · exact Or.inr ⟨mem_cons_self, rfl, hne⟩
        · exact Or.inl h
      · exact Or.inl h
    · exact Or.inr ⟨mem_cons_of_mem k hk, hvalue⟩

theorem mem_tabulate [DecidableEq R] (h : p ∈ (tabulate f ks).entries) :
    p.1 ∈ ks ∧ p.2 = f p.1 ∧ f p.1 ≠ 0 := by
  rcases mem_foldl_tabulate h with h | h
  · cases h
  · exact h

end OrdMap

omit [LinearOrder K] in
theorem sum_map_combination {a b : R} {f g : K → R} {h : K → M} (ks : List K) :
    (ks.map fun k => (a * f k - b * g k) • h k).sum =
      a • (ks.map fun k => f k • h k).sum - b • (ks.map fun k => g k • h k).sum := by
  induction ks with
  | nil => simp
  | cons k ks ih =>
    rw [map_cons, map_cons, map_cons, sum_cons, sum_cons, sum_cons,
      ih, smul_add, smul_add, sub_smul, mul_smul, mul_smul]
    abel

end Oikos
