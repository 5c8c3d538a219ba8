/-
Association lists in which a key stands for its first entry.
-/
import Mathlib.Data.List.Basic
import Mathlib.Algebra.Order.Ring.Nat

namespace Oikos

open List

universe u v

variable {K : Type u} {V : Type v} [DecidableEq K]

/-- The value of the first entry for a key. -/
def assocGet (l : List (K × V)) (k : K) : Option V :=
  (l.find? fun p => p.1 == k).map Prod.snd

/-- Replace the value of the first entry for a key, if there is one. -/
def assocSet : List (K × V) → K → V → List (K × V)
  | [], _, _ => []
  | p :: l, k, v => if p.1 = k then (p.1, v) :: l else p :: assocSet l k v

variable {l : List (K × V)} {k k' : K} {v v' : V} {p : K × V}

@[simp] theorem assocGet_nil : assocGet ([] : List (K × V)) k = none := rfl

theorem assocGet_cons : assocGet (p :: l) k = if p.1 = k then some p.2 else assocGet l k := by
  by_cases h : p.1 = k
  · simp [assocGet, h]
  · simp [assocGet, h]

theorem isSome_assocGet (l : List (K × V)) (k : K) :
    (assocGet l k).isSome = l.any fun p => p.1 == k := by
  rw [assocGet, Option.isSome_map, Bool.eq_iff_iff, find?_isSome, any_eq_true]

theorem mem_of_assocGet (h : assocGet l k = some v) : (k, v) ∈ l := by
  induction l with
  | nil => cases h
  | cons p l ih =>
    rw [assocGet_cons] at h
    split at h
    · next hp =>
      obtain rfl : p.2 = v := Option.some.inj h
      rw [← hp]
      exact mem_cons_self
    · exact mem_cons_of_mem p (ih h)

@[simp] theorem assocGet_assocSet (l : List (K × V)) (k : K) (v : V) (k' : K) :
    assocGet (assocSet l k v) k' =
      if k' = k then (assocGet l k).map fun _ => v else assocGet l k' := by
  induction l with
  | nil => simp [assocSet]
  | cons p l ih =>
    by_cases hp : p.1 = k
    · by_cases hk : k' = k
      · simp [assocSet, assocGet_cons, hp, hk]
      · simp [assocSet, assocGet_cons, hp, hk, Ne.symm hk]
    · by_cases hk : k' = k
      · subst hk
        simp [assocSet, assocGet_cons, hp, ih]
      · simp [assocSet, assocGet_cons, hp, hk, ih]

theorem mem_assocSet (h : p ∈ assocSet l k v) : p ∈ l ∨ p = (k, v) := by
  induction l with
  | nil => cases h
  | cons q l ih =>
    unfold assocSet at h
    split at h
    · next hq =>
      rcases mem_cons.mp h with rfl | h
      · exact Or.inr (by rw [hq])
      · exact Or.inl (mem_cons_of_mem q h)
    · rcases mem_cons.mp h with rfl | h
      · exact Or.inl mem_cons_self
      · exact (ih h).imp_left (mem_cons_of_mem q)

theorem assocGet_concat (l : List (K × V)) (k : K) (v : V) (k' : K) :
    assocGet (l ++ [(k, v)]) k' = (assocGet l k').or (if k' = k then some v else none) := by
  induction l with
  | nil => simp [assocGet_cons, eq_comm]
  | cons p l ih =>
    rw [cons_append, assocGet_cons, assocGet_cons, ih]
    split <;> rfl

theorem keys_assocSet (l : List (K × V)) (k : K) (v : V) :
    (assocSet l k v).map Prod.fst = l.map Prod.fst := by
  induction l with
  | nil => rfl
  | cons p l ih =>
    unfold assocSet
    split
    · rfl
    · rw [map_cons, ih, map_cons]

theorem assocGet_of_mem (h : (l.map Prod.fst).Nodup) (hp : p ∈ l) : assocGet l p.1 = some p.2 := by
  induction l with
  | nil => cases hp
  | cons q l ih =>
    obtain ⟨hnot, hnodup⟩ := nodup_cons.mp h
    rw [assocGet_cons]
    rcases mem_cons.mp hp with rfl | hp
    · exact if_pos rfl
    · rw [if_neg, ih hnodup hp]
      intro heq
      exact hnot (heq ▸ mem_map_of_mem hp)

theorem assocGet_eq_none_iff : assocGet l k = none ↔ k ∉ l.map Prod.fst := by
  induction l with
  | nil => simp
  | cons p l ih =>
    rw [assocGet_cons]
    by_cases hp : p.1 = k
    · simp [hp]
    · simp [hp, ih, Ne.symm hp]

end Oikos
