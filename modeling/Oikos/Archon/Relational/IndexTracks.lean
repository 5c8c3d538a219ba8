/-
What a vector index holds, as a map from row ids to vectors: each row is in one
cluster, with its vector.  Removing, inserting and building act on the map.
-/
import Oikos.Archon.Relational.VectorIndex
import Mathlib.Data.List.Nodup
import Mathlib.Logic.Function.Basic

namespace Oikos.Archon.Relational

open List

namespace IvfFlatIndex

variable {ix : IvfFlatIndex} {m : UInt64 → Option (List F32)}

/-- The entries of a cluster for a row. -/
def entries (ix : IvfFlatIndex) (c : Nat) (id : UInt64) : List (UInt64 × List F32) :=
  (ix.lists.getD c []).filter fun p => p.1 == id

/-- The index holds exactly the vectors of the map: a row of the map is in one
cluster, once and with its vector, and other rows are in none. -/
structure Tracks (ix : IvfFlatIndex) (m : UInt64 → Option (List F32)) : Prop where
  tracked : ∀ id, (∃ c, ix.idToList[id]? = some c) ↔ ∃ v, m id = some v
  stored : ∀ id c, ix.entries c id =
    if ix.idToList[id]? = some c then ((m id).map fun v => (id, v)).toList else []

theorem getD_modify {α : Type} (l : List α) (c c' : Nat) (f : α → α) (d : α) (hc : c < l.length) :
    (l.modify c f).getD c' d = if c = c' then f (l.getD c' d) else l.getD c' d := by
  simp only [getD_eq_getElem?_getD, getElem?_modify]
  split
  · next heq =>
    subst heq
    rw [getElem?_eq_getElem hc]
    rfl
  · simp

variable {id : UInt64} {vectors : List (UInt64 × List F32)}

theorem Tracks.absent (h : ix.Tracks m) (hid : ix.idToList[id]? = none) : m id = none := by
  cases hm : m id with
  | none => rfl
  | some v =>
    obtain ⟨c, hc⟩ := (h.tracked id).mpr ⟨v, hm⟩
    rw [hid] at hc
    cases hc

theorem Tracks.untracked (h : ix.Tracks m) (hid : m id = none) : ix.idToList[id]? = none := by
  cases hc : ix.idToList[id]? with
  | none => rfl
  | some c =>
    obtain ⟨v, hv⟩ := (h.tracked id).mp ⟨c, hc⟩
    rw [hid] at hv
    cases hv

theorem remove_of_some {c : Nat} (h : ix.idToList[id]? = some c) :
    (ix.remove id).lists = ix.lists.modify c (fun rows => rows.filter fun p => p.1 != id) ∧
      (ix.remove id).idToList = ix.idToList.erase id := by
  unfold remove
  split
  · next hnone =>
    rw [h] at hnone
    cases hnone
  · next c' hc =>
    obtain rfl : c = c' := Option.some.inj (h.symm.trans hc)
    exact ⟨rfl, rfl⟩

theorem remove_of_none (h : ix.idToList[id]? = none) : ix.remove id = ix := by
  unfold remove
  split
  · rfl
  · next c hc =>
    rw [h] at hc
    cases hc

theorem Tracks.remove (h : ix.Tracks m) (id : UInt64) :
    (ix.remove id).Tracks (Function.update m id none) := by
  cases hid : ix.idToList[id]? with
  | none =>
    rw [remove_of_none hid, ← h.absent hid, Function.update_eq_self]
    exact h
  | some c =>
    obtain ⟨hlists, hmap⟩ := remove_of_some hid
    have hc := ix.assigned id c hid
    have hget : ∀ id', (ix.remove id).idToList[id']? =
        if id = id' then none else ix.idToList[id']? := by
      intro id'
      rw [hmap, Std.TreeMap.getElem?_erase]
      simp only [Std.compare_eq_iff_eq]
    constructor
    · intro id'
      by_cases heq : id = id'
      · subst heq
        simp [hget]
      · rw [hget, if_neg heq, Function.update_of_ne (Ne.symm heq)]
        exact h.tracked id'
    · intro id' c'
      have hstored := h.stored id' c'
      rw [entries] at hstored
      rw [hget, entries, hlists, getD_modify _ _ _ _ _ hc]
      by_cases heq : id = id'
      · subst heq
        simp only [if_true, Function.update_self]
        split
        · rw [filter_filter]
          simp
        · next hne =>
          rw [hstored, hid, if_neg fun hcc => hne (Option.some.inj hcc)]
          simp
      · rw [if_neg heq, Function.update_of_ne (Ne.symm heq), ← hstored]
        split
        · rw [filter_filter]
          apply filter_congr
          intro p _
          by_cases hp : p.1 = id'
          · simp [hp, Ne.symm heq]
          · simp [hp]
        · rfl

theorem Tracks.add (h : ix.Tracks m) (hnew : m id = none) (v unitV : List F32) :
    (ix.add id v unitV).Tracks (Function.update m id (some v)) := by
  have hlt : nearestCluster ix.centroids unitV < ix.lists.length := by
    rw [ix.size]
    exact nearestCluster_lt ix.nonempty unitV
  have hget : ∀ id', (ix.add id v unitV).idToList[id']? =
      if id = id' then some (nearestCluster ix.centroids unitV) else ix.idToList[id']? := by
    intro id'
    simp only [IvfFlatIndex.add, Std.TreeMap.getElem?_insert, Std.compare_eq_iff_eq]
  constructor
  · intro id'
    by_cases heq : id = id'
    · subst heq
      simp [hget]
    · rw [hget, if_neg heq, Function.update_of_ne (Ne.symm heq)]
      exact h.tracked id'
  · intro id' c'
    have hstored := h.stored id' c'
    rw [entries] at hstored
    rw [hget, entries]
    simp only [IvfFlatIndex.add]
    rw [getD_modify _ _ _ _ _ hlt]
    by_cases heq : id = id'
    · subst heq
      rw [h.untracked hnew] at hstored
      simp only [if_true, Function.update_self, Option.some.injEq]
      split
      · rw [filter_append, hstored]
        simp
      · simpa using hstored
    · rw [if_neg heq, Function.update_of_ne (Ne.symm heq), ← hstored]
      split
      · rw [filter_append]
        simp [heq]
      · rfl

theorem Tracks.insert (h : ix.Tracks m) (id : UInt64) (v : List F32) :
    (ix.insert id v).Tracks (Function.update m id (some v)) := by
  have hadd := (h.remove id).add (Function.update_self id none m) v (normalize v)
  rwa [Function.update_idem] at hadd

/-! ### Building -/

def vectorMap (vectors : List (UInt64 × List F32)) (id : UInt64) : Option (List F32) :=
  (vectors.find? fun p => p.1 == id).map Prod.snd

theorem vectorMap_eq_none (h : id ∉ vectors.map Prod.fst) : vectorMap vectors id = none := by
  have hfind : (vectors.find? fun p => p.1 == id) = none := by
    apply find?_eq_none.mpr
    intro p hp hid
    exact h (mem_map.mpr ⟨p, hp, eq_of_beq hid⟩)
  rw [vectorMap, hfind]
  rfl

theorem vectorMap_eq_some {v : List F32} (hdistinct : (vectors.map Prod.fst).Nodup) :
    vectorMap vectors id = some v ↔ (id, v) ∈ vectors := by
  rw [vectorMap, Option.map_eq_some_iff]
  constructor
  · rintro ⟨p, hp, rfl⟩
    have hid := find?_some hp
    obtain rfl : p.1 = id := eq_of_beq hid
    exact mem_of_find?_eq_some hp
  · intro hmem
    cases hfind : vectors.find? fun p => p.1 == id with
    | none => exact absurd (beq_self_eq_true id) (find?_eq_none.mp hfind (id, v) hmem)
    | some p =>
      have hid := find?_some hfind
      have hp : p.1 = id := eq_of_beq hid
      have heq := inj_on_of_nodup_map hdistinct (mem_of_find?_eq_some hfind) hmem hp
      exact ⟨p, rfl, by rw [heq]⟩

theorem vectorMap_concat {p : UInt64 × List F32} (hnew : p.1 ∉ vectors.map Prod.fst) :
    vectorMap (vectors ++ [p]) = Function.update (vectorMap vectors) p.1 (some p.2) := by
  funext id
  by_cases hid : id = p.1
  · subst hid
    rw [Function.update_self, vectorMap, find?_append, Option.map_or]
    have hnone := vectorMap_eq_none hnew
    rw [vectorMap] at hnone
    simp [hnone]
  · rw [Function.update_of_ne hid, vectorMap, find?_append]
    simp [vectorMap, Ne.symm hid]

theorem Tracks.foldl_add {done todo : List (UInt64 × List F32)} (h : ix.Tracks (vectorMap done))
    (hdistinct : ((done ++ todo).map Prod.fst).Nodup) :
    ((todo.zip (todo.map fun p => normalize p.2)).foldl
      (fun ix p => ix.add p.1.1 p.1.2 p.2) ix).Tracks (vectorMap (done ++ todo)) := by
  induction todo generalizing ix done with
  | nil => simpa using h
  | cons p todo ih =>
    have hassoc : done ++ p :: todo = (done ++ [p]) ++ todo := by simp
    have hnew : p.1 ∉ done.map Prod.fst := by
      intro hmem
      rw [map_append, map_cons] at hdistinct
      exact (nodup_append.mp hdistinct).2.2 p.1 hmem p.1 mem_cons_self rfl
    have hadd := h.add (vectorMap_eq_none hnew) p.2 (normalize p.2)
    rw [← vectorMap_concat hnew] at hadd
    rw [hassoc] at hdistinct ⊢
    exact ih hadd hdistinct

theorem tracks_build
    (hdistinct : (vectors.map Prod.fst).Nodup) : (build vectors).Tracks (vectorMap vectors) := by
  unfold build
  refine @Tracks.foldl_add _ [] vectors ?_ hdistinct
  constructor
  · intro id
    simp [vectorMap]
  · intro id c
    simp only [entries]
    rw [getD_eq_getElem?_getD, getElem?_replicate]
    split <;> simp

end IvfFlatIndex

end Oikos.Archon.Relational
