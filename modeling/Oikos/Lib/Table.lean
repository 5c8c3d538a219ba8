/-
Finite maps with an order of iteration: a key has one entry, which keeps its
place when its value changes.
-/
import Oikos.Lib.Assoc
import Mathlib.Algebra.Order.BigOperators.Group.List

namespace Oikos

open List

universe u v

structure Table (K : Type u) (V : Type v) where
  entries : List (K × V)
  nodup : (entries.map Prod.fst).Nodup

namespace Table

variable {K : Type u} {V : Type v}

def empty : Table K V :=
  ⟨[], List.nodup_nil⟩

def keys (t : Table K V) : List K :=
  t.entries.map Prod.fst

def values (t : Table K V) : List V :=
  t.entries.map Prod.snd

def total (t : Table K V) (f : V → Nat) : Nat :=
  (t.values.map f).sum

theorem total_eq (t : Table K V) (g : V → Nat) :
    t.total g = (t.entries.map fun p => g p.2).sum := by
  rw [total, values, map_map]
  rfl

@[simp] theorem total_empty {g : V → Nat} : (empty : Table K V).total g = 0 := rfl

@[ext] theorem ext {t t' : Table K V} (h : t.entries = t'.entries) : t = t' := by
  cases t
  cases t'
  cases h
  rfl

variable [DecidableEq K]

def get (t : Table K V) (k : K) : Option V :=
  assocGet t.entries k

/-- Change the value of a key, if it has one. -/
def modify (t : Table K V) (k : K) (f : V → V) : Table K V :=
  match t.get k with
  | some v => ⟨assocSet t.entries k (f v), by rw [keys_assocSet]; exact t.nodup⟩
  | none => t

/-- Give a key a value; a new key comes last. -/
def insert (t : Table K V) (k : K) (v : V) : Table K V :=
  if h : k ∈ t.keys then ⟨assocSet t.entries k v, by rw [keys_assocSet]; exact t.nodup⟩
  else ⟨t.entries ++ [(k, v)], by
    rw [List.map_append]
    exact List.nodup_append.mpr ⟨t.nodup, by simp, by
      rintro a ha b hb rfl
      obtain rfl : a = k := by simpa using hb
      exact h ha⟩⟩

def filter (t : Table K V) (keep : K → V → Bool) : Table K V :=
  ⟨t.entries.filter fun p => keep p.1 p.2, (List.filter_sublist.map Prod.fst).nodup t.nodup⟩

variable {t : Table K V} {k k' : K} {v : V} {f : V → V} {g : V → Nat}

@[simp] theorem get_empty : (empty : Table K V).get k = none := rfl

theorem get_eq_none : t.get k = none ↔ k ∉ t.keys :=
  assocGet_eq_none_iff

theorem mem_keys_of_get (h : t.get k = some v) : k ∈ t.keys := by
  by_contra hk
  rw [get_eq_none.mpr hk] at h
  cases h

theorem get_of_mem_keys (h : k ∈ t.keys) : ∃ v, t.get k = some v := by
  cases hget : t.get k with
  | none => exact absurd h (get_eq_none.mp hget)
  | some v => exact ⟨v, rfl⟩

theorem modify_of_none (h : t.get k = none) : t.modify k f = t := by
  unfold modify
  split
  · next v hv =>
    rw [h] at hv
    cases hv
  · rfl

theorem entries_modify (h : t.get k = some v) :
    (t.modify k f).entries = assocSet t.entries k (f v) := by
  unfold modify
  split
  · next v' hv =>
    rw [h] at hv
    cases hv
    rfl
  · next hv =>
    rw [h] at hv
    cases hv

theorem get_modify (t : Table K V) (k : K) (f : V → V) (k' : K) :
    (t.modify k f).get k' = if k' = k then (t.get k).map f else t.get k' := by
  cases hv : t.get k with
  | none =>
    rw [modify_of_none hv]
    split
    · next heq => rw [heq, hv, Option.map_none]
    · rfl
  | some v =>
    rw [get, entries_modify hv]
    change assocGet t.entries k = some v at hv
    rw [assocGet_assocSet, hv]
    rfl

@[simp] theorem keys_modify (t : Table K V) (k : K) (f : V → V) : (t.modify k f).keys = t.keys := by
  unfold modify
  split
  · exact keys_assocSet t.entries k _
  · rfl

theorem get_insert (t : Table K V) (k : K) (v : V) (k' : K) :
    (t.insert k v).get k' = if k' = k then some v else t.get k' := by
  unfold insert
  split
  · next hk =>
    obtain ⟨old, hold⟩ := get_of_mem_keys hk
    change assocGet t.entries k = some old at hold
    change assocGet (assocSet t.entries k v) k' = _
    rw [assocGet_assocSet, hold]
    rfl
  · next hk =>
    change assocGet (t.entries ++ [(k, v)]) k' = _
    rw [assocGet_concat]
    split
    · next heq =>
      rw [heq, assocGet_eq_none_iff.mpr hk]
      rfl
    · exact Option.or_none

theorem get_eq_some_iff : t.get k = some v ↔ (k, v) ∈ t.entries :=
  ⟨mem_of_assocGet, fun h => assocGet_of_mem t.nodup h⟩

theorem get_filter {keep : K → V → Bool} :
    (t.filter keep).get k = some v ↔ t.get k = some v ∧ keep k v = true := by
  rw [get_eq_some_iff, get_eq_some_iff]
  exact mem_filter

theorem mem_keys_insert : k' ∈ (t.insert k v).keys ↔ k' = k ∨ k' ∈ t.keys := by
  rw [← not_iff_not, ← get_eq_none, get_insert, not_or, ← get_eq_none]
  split
  · next heq => simp [heq]
  · next hne => simp [hne]

theorem get_foldl_insert {entries : List (K × V)} (h : (entries.map Prod.fst).Nodup) (t : Table K V)
    (k : K) :
    (entries.foldl (fun t p => t.insert p.1 p.2) t).get k = (assocGet entries k).or (t.get k) := by
  induction entries generalizing t with
  | nil => rfl
  | cons p entries ih =>
    obtain ⟨hnot, hnodup⟩ := nodup_cons.mp h
    rw [foldl_cons, ih hnodup, get_insert, assocGet_cons]
    by_cases hk : p.1 = k
    · rw [if_pos hk, if_pos hk.symm, assocGet_eq_none_iff.mpr (hk ▸ hnot)]
      rfl
    · rw [if_neg hk, if_neg (Ne.symm hk)]

/-! ### Sums -/

theorem sum_assocSet {l : List (K × V)} (g : V → Nat) {old : V} (h : assocGet l k = some old) :
    ((assocSet l k v).map fun p => g p.2).sum + g old = (l.map fun p => g p.2).sum + g v := by
  induction l with
  | nil => cases h
  | cons p l ih =>
    rw [assocGet_cons] at h
    unfold assocSet
    split at h
    · next hp =>
      cases h
      rw [if_pos hp, map_cons, map_cons, sum_cons, sum_cons]
      dsimp only
      omega
    · next hp =>
      rw [if_neg hp, map_cons, map_cons, sum_cons, sum_cons]
      have := ih h
      omega

/-- Changing one value changes the sum by the difference. -/
theorem total_modify (g : V → Nat) (h : t.get k = some v) :
    (t.modify k f).total g + g v = t.total g + g (f v) := by
  rw [total_eq, total_eq, entries_modify h]
  exact sum_assocSet g h

theorem total_modify_of_keep (h : ∀ v, g (f v) = g v) : (t.modify k f).total g = t.total g := by
  cases hv : t.get k with
  | none => rw [modify_of_none hv]
  | some v =>
    have hsum := total_modify (f := f) g hv
    rw [h v] at hsum
    exact Nat.add_right_cancel hsum

theorem total_insert_of_notMem (g : V → Nat) (h : k ∉ t.keys) :
    (t.insert k v).total g = t.total g + g v := by
  rw [total_eq, total_eq, insert, dif_neg h]
  simp

theorem total_eq_sum_keys (t : Table K V) (g : V → Nat) :
    t.total g = (t.keys.map fun k => ((t.get k).map g).getD 0).sum := by
  have hget : ∀ p ∈ t.entries, t.get p.1 = some p.2 := fun p => assocGet_of_mem t.nodup
  rw [total_eq, keys, map_map]
  congr 1
  apply map_congr_left
  intro p hp
  rw [Function.comp_apply, hget p hp]
  rfl

theorem le_total (g : V → Nat) (h : t.get k = some v) : g v ≤ t.total g := by
  rw [total_eq]
  exact single_le_sum (by simp) _
    (mem_map_of_mem (f := fun p => g p.2) (mem_of_assocGet h))

end Table

end Oikos
