/-
A set that forgets its oldest elements: the elements are also kept in the order
in which they came, and the front of the order is dropped beyond a bound.
-/
import Mathlib.Data.Finset.Basic
import Mathlib.Algebra.Order.Ring.Nat

namespace Oikos

universe u

namespace Recent

variable {A : Type u} [DecidableEq A]

def prune (max : Nat) : Finset A → List A → Finset A × List A
  | set, [] => (set, [])
  | set, a :: order =>
    if max < (a :: order).length then prune max (set.erase a) order else (set, a :: order)

/-- Add an element at the end, unless it is there. -/
def mark (max : Nat) (set : Finset A) (order : List A) (a : A) : Finset A × List A :=
  if a ∈ set then (set, order) else prune max (insert a set) (order ++ [a])

variable {max : Nat} {set : Finset A} {order : List A} {a b : A}

structure Lists (set : Finset A) (order : List A) : Prop where
  nodup : order.Nodup
  mem_iff : ∀ a, a ∈ set ↔ a ∈ order

theorem Lists.concat (h : Lists set order) (ha : a ∉ set) :
    Lists (insert a set) (order ++ [a]) where
  nodup := by
    refine List.nodup_append.mpr ⟨h.nodup, by simp, ?_⟩
    rintro b hb c hc rfl
    obtain rfl : b = a := by simpa using hc
    exact ha ((h.mem_iff b).mpr hb)
  mem_iff b := by
    rw [Finset.mem_insert, h.mem_iff, List.mem_append, List.mem_singleton]
    exact Or.comm

theorem Lists.tail (h : Lists set (a :: order)) : Lists (set.erase a) order where
  nodup := (List.nodup_cons.mp h.nodup).2
  mem_iff b := by
    have hnot := (List.nodup_cons.mp h.nodup).1
    rw [Finset.mem_erase, h.mem_iff, List.mem_cons]
    constructor
    · rintro ⟨hne, heq | hmem⟩
      · exact absurd heq hne
      · exact hmem
    · intro hmem
      exact ⟨fun heq => hnot (heq ▸ hmem), Or.inr hmem⟩

theorem prune_of_le (h : order.length ≤ max) : prune max set order = (set, order) := by
  cases order with
  | nil => rfl
  | cons a order => rw [prune, if_neg (not_lt.mpr h)]

theorem Lists.prune (h : Lists set order) :
    Lists (Recent.prune max set order).1 (Recent.prune max set order).2 ∧
      (Recent.prune max set order).2.length ≤ max := by
  induction order generalizing set with
  | nil => exact ⟨h, Nat.zero_le _⟩
  | cons a order ih =>
    unfold Recent.prune
    split
    · exact ih h.tail
    · next hle => exact ⟨h, Nat.le_of_not_lt hle⟩

theorem Lists.mark (h : Lists set order) (hle : order.length ≤ max) (a : A) :
    Lists (Recent.mark max set order a).1 (Recent.mark max set order a).2 ∧
      (Recent.mark max set order a).2.length ≤ max := by
  unfold Recent.mark
  split
  · exact ⟨h, hle⟩
  · next ha => exact (h.concat ha).prune

/-- While there is room, nothing is forgotten. -/
theorem mark_of_lt (ha : a ∉ set) (h : order.length < max) :
    mark max set order a = (insert a set, order ++ [a]) := by
  rw [mark, if_neg ha]
  exact prune_of_le (by rw [List.length_append]; exact h)

end Recent

end Oikos
