/-
Grouping: pairs gathered by their keys in an ordered map; and what is picked from
one of two lists whose elements correspond.
-/
import Std.Data.TreeMap.Lemmas
import Mathlib.Data.List.Dedup
import Mathlib.Data.List.Perm.Subperm
import Mathlib.Data.List.Forall2
import Mathlib.Algebra.BigOperators.Group.List.Basic
import Mathlib.Algebra.Ring.Int.Defs

namespace Oikos

open List

universe u v

variable {K : Type u} {V : Type v} {cmp : K → K → Ordering}

/-- Put a value behind those already gathered under its key. -/
def gather (m : Std.TreeMap K (List V) cmp) (p : K × V) : Std.TreeMap K (List V) cmp :=
  m.insert p.1 (m.getD p.1 [] ++ [p.2])

/-- The values under a key, in their order. -/
def valuesOf [DecidableEq K] (l : List (K × V)) (k : K) : List V :=
  l.filterMap fun p => if p.1 = k then some p.2 else none

section Gather

variable [DecidableEq K]

theorem valuesOf_cons (p : K × V) (l : List (K × V)) (k : K) :
    valuesOf (p :: l) k = if p.1 = k then p.2 :: valuesOf l k else valuesOf l k := by
  unfold valuesOf
  rw [filterMap_cons]
  split <;> simp_all

theorem valuesOf_of_not_mem {l : List (K × V)} {k : K} (h : k ∉ l.map Prod.fst) :
    valuesOf l k = [] := by
  rw [valuesOf, filterMap_eq_nil_iff]
  intro p hp
  exact if_neg fun heq => h (mem_map.mpr ⟨p, hp, heq⟩)

theorem valuesOf_map {A : Type v} (key : A → K) (l : List A) (k : K) :
    valuesOf (l.map fun a => (key a, a)) k = l.filter fun a => key a = k := by
  induction l with
  | nil => rfl
  | cons a l ih =>
    rw [map_cons, valuesOf_cons, ih, filter_cons]
    simp only [decide_eq_true_eq]

variable [Std.TransCmp cmp] [Std.LawfulEqCmp cmp]

theorem getElem?_foldl_gather (l : List (K × V)) (m : Std.TreeMap K (List V) cmp) (k : K) :
    (l.foldl gather m)[k]? =
      if k ∈ l.map Prod.fst then some (m.getD k [] ++ valuesOf l k) else m[k]? := by
  induction l generalizing m with
  | nil => simp
  | cons p l ih =>
    rw [foldl_cons, ih, valuesOf_cons, map_cons]
    have hget : (gather m p)[k]? =
        if p.1 = k then some (m.getD p.1 [] ++ [p.2]) else m[k]? := by
      rw [gather, Std.TreeMap.getElem?_insert]
      simp only [Std.LawfulEqCmp.compare_eq_iff_eq]
    have hgetD : (gather m p).getD k [] = (gather m p)[k]?.getD [] :=
      Std.TreeMap.getD_eq_getD_getElem?
    by_cases hp : p.1 = k
    · subst hp
      simp only [if_true] at hget
      simp only [hgetD, hget, mem_cons, true_or, if_true, Option.getD_some,
        append_assoc, singleton_append]
      split
      · rfl
      · next hl => rw [valuesOf_of_not_mem hl]
    · have hp' : ¬ k = p.1 := fun h => hp h.symm
      simp only [if_neg hp] at hget
      simp only [hgetD, hget, if_neg hp, mem_cons, hp', false_or,
        Std.TreeMap.getD_eq_getD_getElem?]

theorem toList_foldl_gather (l : List (K × V)) :
    ∃ ks : List K, ks.Perm (l.map Prod.fst).dedup ∧
      (l.foldl gather (∅ : Std.TreeMap K (List V) cmp)).toList =
      ks.map fun k => (k, valuesOf l k) := by
  have hmem : ∀ p, p ∈ (l.foldl gather (∅ : Std.TreeMap K (List V) cmp)).toList ↔
      p.1 ∈ l.map Prod.fst ∧ p.2 = valuesOf l p.1 := by
    rintro ⟨k, vs⟩
    rw [Std.TreeMap.mem_toList_iff_getElem?_eq_some, getElem?_foldl_gather]
    split
    · next hk => simp [hk, eq_comm]
    · next hk => simp [hk]
  refine ⟨(l.foldl gather (∅ : Std.TreeMap K (List V) cmp)).toList.map Prod.fst, ?_, ?_⟩
  · refine (perm_ext_iff_of_nodup ?_ (nodup_dedup _)).mpr ?_
    · refine pairwise_map.mpr (Std.TreeMap.distinct_keys_toList.imp ?_)
      intro p q hne heq
      exact hne (Std.LawfulEqCmp.compare_eq_iff_eq.mpr heq)
    · intro k
      rw [mem_map, mem_dedup]
      constructor
      · rintro ⟨p, hp, rfl⟩
        exact ((hmem p).mp hp).1
      · intro hk
        exact ⟨(k, valuesOf l k), (hmem _).mpr ⟨hk, rfl⟩, rfl⟩
  · rw [map_map]
    refine (map_id _).symm.trans (map_congr_left ?_)
    intro p hp
    exact Prod.ext rfl ((hmem p).mp hp).2

end Gather

section Totals

variable [DecidableEq K] {A : Type v} {key : A → K} {ks : List K}

theorem sum_map_ite_key (k : K) (n : Int) (hks : ks.Nodup) :
    (ks.map fun k' => if k = k' then n else 0).sum = if k ∈ ks then n else 0 := by
  induction ks with
  | nil => rfl
  | cons k' ks ih =>
    obtain ⟨hnot, hks⟩ := nodup_cons.mp hks
    rw [map_cons, sum_cons, ih hks]
    by_cases hk : k = k'
    · subst hk
      simp [hnot]
    · simp [hk]

theorem sum_over_groups (hks : ks.Nodup) (weight : A → Int) {as : List A}
    (hall : ∀ a ∈ as, key a ∈ ks) :
    (ks.map fun k => ((as.filter fun a => key a = k).map weight).sum).sum =
      (as.map weight).sum := by
  induction as with
  | nil => simp
  | cons a as ih =>
    have hsplit : (fun k => (((a :: as).filter fun a => key a = k).map weight).sum) =
        fun k => (if key a = k then weight a else 0) +
          ((as.filter fun a => key a = k).map weight).sum := by
      funext k
      by_cases hk : key a = k
      · simp [hk]
      · simp [hk]
    rw [hsplit, sum_map_add, ih fun x hx => hall x (mem_cons_of_mem a hx),
      sum_map_ite_key _ _ hks, if_pos (hall a mem_cons_self), map_cons, sum_cons]

end Totals

section Picked

variable {A : Type u} {B : Type v} {R : A → B → Prop} {as : List A} {bs cs : List B}

theorem exists_sublist_forall₂ (h : List.Forall₂ R as bs) (hcs : cs.Sublist bs) :
    ∃ ds, ds.Sublist as ∧ List.Forall₂ R ds cs := by
  induction hcs generalizing as with
  | slnil => exact ⟨[], nil_sublist as, .nil⟩
  | cons b _ ih =>
    cases h with
    | @cons a as _ _ _ hrest =>
      obtain ⟨ds, hds, hR⟩ := ih hrest
      exact ⟨ds, hds.cons a, hR⟩
  | cons_cons b _ ih =>
    cases h with
    | @cons a as _ _ hab hrest =>
      obtain ⟨ds, hds, hR⟩ := ih hrest
      exact ⟨a :: ds, hds.cons_cons a, .cons hab hR⟩

theorem exists_perm_forall₂ (h : List.Forall₂ R as bs) (hcs : cs.Perm bs) :
    ∃ ds, ds.Perm as ∧ List.Forall₂ R ds cs := by
  obtain ⟨ds, hR, hds⟩ := perm_comp_forall₂ hcs h.flip
  exact ⟨ds, hds, hR.flip⟩

theorem exists_subperm_forall₂ (h : List.Forall₂ R as bs) (hcs : cs.Subperm bs) :
    ∃ ds : List A, ds.Subperm as ∧ List.Forall₂ R ds cs := by
  obtain ⟨bs', hperm, hsub⟩ := hcs
  obtain ⟨as', hsub', hR⟩ := exists_sublist_forall₂ h hsub
  obtain ⟨ds, hds, hR⟩ := exists_perm_forall₂ hR hperm.symm
  exact ⟨ds, hds.subperm.trans hsub'.subperm, hR⟩

theorem forall₂_through {C : Type*} {S : B → C → Prop} {T : A → C → Prop} {zs : List C}
    (h : List.Forall₂ R as bs) (hS : List.Forall₂ S bs zs)
    (hT : ∀ a b c, R a b → S b c → T a c) : List.Forall₂ T as zs := by
  induction h generalizing zs with
  | nil =>
    cases hS
    exact .nil
  | cons hab _ ih =>
    cases hS with
    | cons hbc hrest => exact .cons (hT _ _ _ hab hbc) (ih hrest)

end Picked

end Oikos
