/-
Texts in which one symbol opens what another one closes.
-/
import Mathlib.Data.List.Basic
import Mathlib.Data.List.Infix

namespace Oikos

open List

universe u

variable {τ : Type u}

theorem prefix_append_split {front xs ys : List τ} (h : front <+: xs ++ ys) :
    front <+: xs ∨ ∃ more, front = xs ++ more ∧ more <+: ys := by
  rcases prefix_or_prefix_of_prefix h (prefix_append xs ys) with hshort | ⟨more, rfl⟩
  · exact Or.inl hshort
  · exact Or.inr ⟨more, rfl, (prefix_append_right_inj xs).mp h⟩

variable [DecidableEq τ] {l r : τ} {xs ys : List τ}

/-- No prefix closes more than it opens. -/
def KeepsOpen (l r : τ) (xs : List τ) : Prop :=
  ∀ front, front <+: xs → front.count r ≤ front.count l

/-- What is opened is closed again, and nothing else is. -/
structure Bracketed (l r : τ) (xs : List τ) : Prop where
  keeps : KeepsOpen l r xs
  settled : xs.count l = xs.count r

namespace Bracketed

theorem nil : Bracketed l r [] where
  keeps front hfront := by
    rw [prefix_nil.mp hfront]
    exact le_rfl
  settled := rfl

theorem append (hx : Bracketed l r xs) (hy : Bracketed l r ys) : Bracketed l r (xs ++ ys) where
  keeps front hfront := by
    rcases prefix_append_split hfront with hshort | ⟨more, rfl, hmore⟩
    · exact hx.keeps front hshort
    · rw [count_append, count_append, hx.settled]
      exact Nat.add_le_add_left (hy.keeps more hmore) _
  settled := by
    rw [count_append, count_append, hx.settled, hy.settled]

/-- A symbol that neither opens nor closes. -/
theorem cons {x : τ} (hl : x ≠ l) (hr : x ≠ r) (h : Bracketed l r xs) :
    Bracketed l r (x :: xs) where
  keeps front hfront := by
    rcases prefix_cons_iff.mp hfront with rfl | ⟨more, rfl, hmore⟩
    · exact le_rfl
    · rw [count_cons_of_ne hl, count_cons_of_ne hr]
      exact h.keeps more hmore
  settled := by
    rw [count_cons_of_ne hl, count_cons_of_ne hr, h.settled]

theorem wrap (hne : l ≠ r) (h : Bracketed l r xs) : Bracketed l r (l :: (xs ++ [r])) where
  keeps front hfront := by
    rcases prefix_cons_iff.mp hfront with rfl | ⟨more, rfl, hmore⟩
    · exact le_rfl
    · rw [count_cons_of_ne hne, count_cons_self]
      rcases prefix_append_split hmore with hshort | ⟨last, rfl, hlast⟩
      · exact (h.keeps more hshort).trans (Nat.le_succ _)
      · have hone : last.count r ≤ 1 := by
          rcases prefix_cons_iff.mp hlast with rfl | ⟨none, rfl, hnone⟩
          · exact Nat.zero_le 1
          · rw [prefix_nil.mp hnone, count_cons_self, count_nil]
        rw [count_append, count_append, h.settled]
        omega
  settled := by
    rw [count_cons_self, count_cons_of_ne hne, count_append, count_append,
      h.settled, count_cons_self, count_cons_of_ne hne.symm, count_nil,
      count_nil]

/-- What closes after it has settled closes too much. -/
theorem not_keepsOpen (hne : l ≠ r) (h : Bracketed l r xs) : ¬KeepsOpen l r (xs ++ r :: ys) := by
  intro hkeeps
  have hfront := hkeeps (xs ++ [r]) ⟨ys, by simp⟩
  rw [count_append, count_append, h.settled, count_cons_self,
    count_cons_of_ne hne.symm, count_nil, count_nil] at hfront
  omega

end Bracketed

end Oikos
