/-
Loops over the pairs of an ordered map whose body touches only the place of
the pair's key.
-/
import Std.Data.TreeMap.Lemmas
import Mathlib.Tactic.Common
import Mathlib.Algebra.Order.Ring.Nat

namespace Oikos

universe u v w x

variable {S : Type u} {K : Type v} {V : Type w} {W : Type x} [DecidableEq K]
  {get : S → K → W} {step : S → K × V → S} {g : W → V → W}

theorem get_foldl_of_not_mem
    (hstep : ∀ s k v k', get (step s (k, v)) k' = if k' = k then g (get s k) v else get s k')
    {l : List (K × V)} {k : K} (hk : ∀ p ∈ l, p.1 ≠ k) (s : S) :
    get (l.foldl step s) k = get s k := by
  induction l generalizing s with
  | nil => rfl
  | cons p l ih =>
    rw [List.foldl_cons, ih (fun q hq => hk q (List.mem_cons_of_mem p hq)), hstep,
      if_neg (hk p List.mem_cons_self).symm]

theorem get_foldl_of_mem
    (hstep : ∀ s k v k', get (step s (k, v)) k' = if k' = k then g (get s k) v else get s k')
    {l : List (K × V)} (hl : l.Pairwise fun p q => p.1 ≠ q.1) {k : K} {v : V} (hk : (k, v) ∈ l)
    (s : S) : get (l.foldl step s) k = g (get s k) v := by
  induction l generalizing s with
  | nil => simp at hk
  | cons p l ih =>
    obtain ⟨hp, hl'⟩ := List.pairwise_cons.mp hl
    rw [List.foldl_cons]
    rcases List.mem_cons.mp hk with rfl | hk
    · rw [get_foldl_of_not_mem hstep (fun q hq => (hp q hq).symm), hstep, if_pos rfl]
    · rw [ih hl' hk, hstep, if_neg (hp _ hk).symm]

variable [Ord K] [Std.TransOrd K] [Std.LawfulEqOrd K]

omit [DecidableEq K] in
theorem pairwise_ne_toList (m : Std.TreeMap K V) :
    m.toList.Pairwise fun p q => p.1 ≠ q.1 := by
  refine m.distinct_keys_toList.imp ?_
  intro p q hne heq
  exact hne (Std.LawfulEqOrd.compare_eq_iff_eq.mpr heq)

/-- Folding over an ordered map gates exactly the places of its keys. -/
theorem get_foldl_toList (get : S → K → W) (step : S → K × V → S) (g : W → V → W)
    (hstep : ∀ s k v k', get (step s (k, v)) k' = if k' = k then g (get s k) v else get s k')
    (m : Std.TreeMap K V) (s : S) (k : K) :
    get (m.toList.foldl step s) k = (m[k]?).elim (get s k) (g (get s k)) := by
  cases hv : m[k]? with
  | some v =>
    exact get_foldl_of_mem hstep (pairwise_ne_toList m)
      (Std.TreeMap.mem_toList_iff_getElem?_eq_some.mpr hv) s
  | none =>
    refine get_foldl_of_not_mem hstep ?_ s
    rintro ⟨k', v⟩ hp rfl
    rw [Std.TreeMap.mem_toList_iff_getElem?_eq_some, hv] at hp
    cases hp

end Oikos
