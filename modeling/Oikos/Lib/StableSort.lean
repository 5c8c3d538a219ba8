/-
Stable sorting by a comparison: what it means, that merge sort does it, and when
sorting by two comparisons looks the same.
-/
import Mathlib.Data.List.Perm.Basic
import Mathlib.Order.Basic

namespace Oikos

universe u v

variable {A : Type u} {B : Type v} {cmp : A → A → Ordering}

structure StableSort (cmp : A → A → Ordering) (as sorted : List A) : Prop where
  perm : sorted.Perm as
  ordered : sorted.Pairwise fun a b => cmp a b ≠ .gt
  stable : ∀ part : List A, part.Sublist as → (part.Pairwise fun a b => cmp a b = .eq) →
    part.Sublist sorted

/-- The first element does not come after the second one. -/
def leBy (cmp : A → A → Ordering) (a b : A) : Bool :=
  cmp a b != .gt

theorem leBy_iff {a b : A} : leBy cmp a b = true ↔ cmp a b ≠ .gt := by
  rw [leBy, bne_iff_ne]

theorem leBy_trans [Std.TransCmp cmp] (a b c : A) (hab : leBy cmp a b) (hbc : leBy cmp b c) :
    leBy cmp a c := by
  rw [leBy_iff] at hab hbc ⊢
  exact Ordering.isLE_iff_ne_gt.mp (Std.TransCmp.isLE_trans (Ordering.isLE_iff_ne_gt.mpr hab)
    (Ordering.isLE_iff_ne_gt.mpr hbc))

theorem leBy_total [Std.OrientedCmp cmp] (a b : A) : leBy cmp a b || leBy cmp b a := by
  rw [Bool.or_eq_true, leBy_iff, leBy_iff]
  by_contra h
  simp only [not_or, not_not] at h
  exact absurd (Std.OrientedCmp.lt_of_gt h.1) (by rw [h.2]; exact nofun)

theorem stableSort_mergeSort [Std.TransCmp cmp] (as : List A) :
    StableSort cmp as (as.mergeSort (leBy cmp)) where
  perm := List.mergeSort_perm as _
  ordered := (List.pairwise_mergeSort leBy_trans leBy_total as).imp leBy_iff.mp
  stable part hpart hties := by
    refine List.sublist_mergeSort leBy_trans leBy_total (hties.imp ?_) hpart
    intro a b htie
    rw [leBy_iff, htie]
    exact nofun

theorem eq_of_ordered [Std.OrientedCmp cmp] {as bs : List A} (hperm : as.Perm bs)
    (has : as.Pairwise fun a b => cmp a b ≠ .gt) (hbs : bs.Pairwise fun a b => cmp a b ≠ .gt)
    (hties : ∀ a ∈ as, ∀ b ∈ bs, cmp a b = .eq → a = b) : as = bs := by
  refine List.Perm.eq_of_pairwise ?_ has hbs hperm
  intro a b ha hb hab hba
  apply hties a ha b hb
  cases h : cmp a b with
  | lt => exact absurd (Std.OrientedCmp.gt_of_lt h) hba
  | eq => rfl
  | gt => exact absurd h hab

/-- The order of two elements that do not tie. -/
theorem StableSort.pair [Std.OrientedCmp cmp] {a b : A} {as sorted : List A}
    (h : StableSort cmp as sorted) (has : as.Perm [a, b]) (hlt : cmp a b = .lt) :
    sorted = [a, b] := by
  refine eq_of_ordered (h.perm.trans has) h.ordered ?_ ?_
  · refine List.pairwise_pair.mpr ?_
    rw [hlt]
    exact nofun
  · intro x hx y hy htie
    have hx : x = a ∨ x = b := by simpa using (h.perm.trans has).subset hx
    have hy : y = a ∨ y = b := by simpa using hy
    rcases hx with rfl | rfl <;> rcases hy with rfl | rfl
    · rfl
    · exact absurd (hlt.symm.trans htie) nofun
    · exact absurd ((Std.OrientedCmp.gt_of_lt hlt).symm.trans htie) nofun
    · rfl

end Oikos
