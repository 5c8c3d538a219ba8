/-
Finite maps in the order of their keys.
-/
import Oikos.Lib.Assoc
import Mathlib.Order.Defs.LinearOrder
import Mathlib.Algebra.BigOperators.Group.List.Basic

namespace Oikos

open List

universe u v w x

structure OrdMap (K : Type u) (V : Type v) [LinearOrder K] where
  entries : List (K × V)
  sorted : (entries.map Prod.fst).Pairwise (· < ·)

namespace OrdMap

variable {K : Type u} {V : Type v} {W : Type w} {M : Type x} [LinearOrder K]

/-- Put an entry at its place, over the entry of the same key if there is one. -/
def insertEntry (k : K) (v : V) : List (K × V) → List (K × V)
  | [] => [(k, v)]
  | p :: l =>
    if k < p.1 then (k, v) :: p :: l
    else if p.1 < k then p :: insertEntry k v l
    else (k, v) :: l

variable {l : List (K × V)} {f : V → Option W} {t : OrdMap K W}

theorem mem_insertEntry {k : K} {v : V} {p : K × V}
    (h : p ∈ insertEntry k v l) : p = (k, v) ∨ p ∈ l := by
  induction l with
  | nil => exact Or.inl (mem_singleton.mp h)
  | cons q l ih =>
    unfold insertEntry at h
    split at h
    · exact (mem_cons.mp h)
    · split at h
      · rcases mem_cons.mp h with rfl | h
        · exact Or.inr mem_cons_self
        · exact (ih h).imp_right (mem_cons_of_mem q)
      · exact (mem_cons.mp h).imp_right (mem_cons_of_mem q)

theorem sorted_insertEntry {k : K} {v : V} (h : (l.map Prod.fst).Pairwise (· < ·)) :
    ((insertEntry k v l).map Prod.fst).Pairwise (· < ·) := by
  induction l with
  | nil => simp [insertEntry]
  | cons q l ih =>
    obtain ⟨hq, hl⟩ := pairwise_cons.mp h
    unfold insertEntry
    split
    · next hlt =>
      refine pairwise_cons.mpr ⟨?_, h⟩
      intro k' hk'
      rcases mem_cons.mp hk' with rfl | hk'
      · exact hlt
      · exact hlt.trans (hq k' hk')
    · next hge =>
      split
      · next hgt =>
        refine pairwise_cons.mpr ⟨?_, ih hl⟩
        intro k' hk'
        obtain ⟨p, hp, rfl⟩ := mem_map.mp hk'
        rcases mem_insertEntry hp with rfl | hp
        · exact hgt
        · exact hq p.1 (mem_map_of_mem hp)
      · next hle =>
        obtain rfl : k = q.1 := le_antisymm (le_of_not_gt hle) (le_of_not_gt hge)
        exact h

def empty : OrdMap K V :=
  ⟨[], Pairwise.nil⟩

def keys (m : OrdMap K V) : List K :=
  m.entries.map Prod.fst

def get (m : OrdMap K V) (k : K) : Option V :=
  assocGet m.entries k

def insert (m : OrdMap K V) (k : K) (v : V) : OrdMap K V :=
  ⟨insertEntry k v m.entries, sorted_insertEntry m.sorted⟩

def filter (m : OrdMap K V) (keep : K → V → Bool) : OrdMap K V :=
  ⟨m.entries.filter fun p => keep p.1 p.2, m.sorted.sublist (List.filter_sublist.map Prod.fst)⟩

def erase (m : OrdMap K V) (k : K) : OrdMap K V :=
  m.filter fun k' _ => k' ≠ k

def map (m : OrdMap K V) (f : V → W) : OrdMap K W :=
  ⟨m.entries.map fun p => (p.1, f p.2), by
    rw [List.map_map]
    exact m.sorted⟩

/-- The entries with new values, unless one of them has none. -/
def traverseEntries (f : V → Option W) : List (K × V) → Option (List (K × W))
  | [] => some []
  | p :: l => (f p.2).bind fun w => (traverseEntries f l).map ((p.1, w) :: ·)

omit [LinearOrder K] in
theorem traverseEntries_eq_some {l' : List (K × W)} :
    traverseEntries f l = some l' ↔
    List.Forall₂ (fun p q => q.1 = p.1 ∧ f p.2 = some q.2) l l' := by
  induction l generalizing l' with
  | nil => simp [traverseEntries, eq_comm]
  | cons p l ih =>
    rw [forall₂_cons_left_iff]
    constructor
    · intro h
      obtain ⟨w, hw, h⟩ := Option.bind_eq_some_iff.mp h
      obtain ⟨rest, hrest, rfl⟩ := Option.map_eq_some_iff.mp h
      exact ⟨(p.1, w), rest, ⟨rfl, hw⟩, ih.mp hrest, rfl⟩
    · rintro ⟨q, rest, ⟨hkey, hw⟩, hrest, rfl⟩
      rw [traverseEntries, hw, Option.bind_some, ih.mpr hrest, Option.map_some, ← hkey]

omit [LinearOrder K] in
theorem keys_traverseEntries {l' : List (K × W)}
    (h : traverseEntries f l = some l') : l'.map Prod.fst = l.map Prod.fst := by
  have hkeys := traverseEntries_eq_some.mp h
  clear h
  induction hkeys with
  | nil => rfl
  | cons hp _ ih => rw [map_cons, map_cons, ih, hp.1]

def traverse (m : OrdMap K V) (f : V → Option W) : Option (OrdMap K W) :=
  match h : traverseEntries f m.entries with
  | none => none
  | some l => some ⟨l, keys_traverseEntries h ▸ m.sorted⟩

variable {m m' : OrdMap K V} {k k' : K} {v v' : V} {p : K × V}

@[ext] theorem ext (h : m.entries = m'.entries) : m = m' := by
  cases m
  cases m'
  cases h
  rfl

theorem nodup_keys (m : OrdMap K V) : (m.entries.map Prod.fst).Nodup :=
  m.sorted.imp ne_of_lt

/-! ### Entries -/

theorem get_eq_some_iff : m.get k = some v ↔ (k, v) ∈ m.entries :=
  ⟨mem_of_assocGet, fun h => assocGet_of_mem m.nodup_keys h⟩

theorem get_eq_none : m.get k = none ↔ k ∉ m.keys :=
  assocGet_eq_none_iff

theorem mem_keys_of_mem (h : p ∈ m.entries) : p.1 ∈ m.keys :=
  mem_map_of_mem h

@[simp] theorem get_empty : (empty : OrdMap K V).get k = none := rfl

@[simp] theorem keys_map {f : V → W} : (m.map f).keys = m.keys := by
  rw [keys, map, map_map]
  rfl

theorem get_map {f : V → W} : (m.map f).get k = (m.get k).map f := by
  cases hget : m.get k with
  | none =>
    rw [Option.map_none, get_eq_none, keys_map]
    exact get_eq_none.mp hget
  | some v => exact get_eq_some_iff.mpr (mem_map_of_mem (get_eq_some_iff.mp hget))

theorem mem_insert (h : p ∈ (m.insert k v).entries) : p = (k, v) ∨ p ∈ m.entries :=
  mem_insertEntry h

theorem mem_keys_insert (h : k' ∈ (m.insert k v).keys) : k' = k ∨ k' ∈ m.keys := by
  obtain ⟨p, hp, rfl⟩ := mem_map.mp h
  exact (mem_insert hp).imp (congrArg Prod.fst) mem_keys_of_mem

theorem assocGet_insertEntry (h : (l.map Prod.fst).Pairwise (· < ·)) :
    assocGet (insertEntry k v l) k' = if k' = k then some v else assocGet l k' := by
  induction l with
  | nil => simp [insertEntry, assocGet_cons, eq_comm]
  | cons q l ih =>
    obtain ⟨_, hl⟩ := pairwise_cons.mp h
    unfold insertEntry
    split
    · rw [assocGet_cons]
      simp only [eq_comm]
    · next hge =>
      split
      · next hgt =>
        rw [assocGet_cons, assocGet_cons, ih hl]
        by_cases hq : q.1 = k'
        · rw [if_pos hq, if_neg (hq ▸ hgt.ne), if_pos hq]
        · rw [if_neg hq, if_neg hq]
      · next hle =>
        obtain rfl : k = q.1 := le_antisymm (le_of_not_gt hle) (le_of_not_gt hge)
        rw [assocGet_cons, assocGet_cons]
        by_cases hk : k' = q.1
        · rw [if_pos hk.symm, if_pos hk]
        · rw [if_neg (Ne.symm hk), if_neg hk, if_neg (Ne.symm hk)]

theorem get_insert (m : OrdMap K V) (k : K) (v : V) (k' : K) :
    (m.insert k v).get k' = if k' = k then some v else m.get k' :=
  assocGet_insertEntry m.sorted

theorem perm_insertEntry (h : k ∉ l.map Prod.fst) : (insertEntry k v l).Perm ((k, v) :: l) := by
  induction l with
  | nil => exact .rfl
  | cons q l ih =>
    obtain ⟨hq, hl⟩ := not_or.mp fun hk => h (mem_cons.mpr hk)
    unfold insertEntry
    split
    · exact .rfl
    · split
      · exact ((ih hl).cons q).trans (.swap (k, v) q l)
      · next hge hle => exact absurd (le_antisymm (le_of_not_gt hle) (le_of_not_gt hge)) hq

theorem perm_foldl_insert (m : OrdMap K V)
    (h : (m.entries.map Prod.fst ++ l.map Prod.fst).Nodup) :
    (l.foldl (fun m q => m.insert q.1 q.2) m).entries.Perm (m.entries ++ l) := by
  induction l generalizing m with
  | nil => rw [append_nil, foldl_nil]
  | cons q l ih =>
    have hmiddle : (q.1 :: (m.entries.map Prod.fst ++ l.map Prod.fst)).Nodup :=
      perm_middle.nodup_iff.mp h
    have hnot : q.1 ∉ m.entries.map Prod.fst := fun hq =>
      (nodup_cons.mp hmiddle).1 (mem_append_left _ hq)
    have hinsert : (m.insert q.1 q.2).entries.Perm (q :: m.entries) := perm_insertEntry hnot
    have hkeys := (hinsert.map Prod.fst).append_right (l.map Prod.fst)
    exact (ih (m.insert q.1 q.2) (hkeys.nodup_iff.mpr hmiddle)).trans
      ((hinsert.append_right l).trans perm_middle.symm)

theorem mem_filter {keep : K → V → Bool} :
    p ∈ (m.filter keep).entries ↔ p ∈ m.entries ∧ keep p.1 p.2 = true :=
  List.mem_filter

theorem mem_erase : p ∈ (m.erase k).entries ↔ p ∈ m.entries ∧ p.1 ≠ k := by
  rw [erase, mem_filter, decide_eq_true_iff]

theorem mem_keys_erase (h : k' ∈ (m.erase k).keys) : k' ≠ k ∧ k' ∈ m.keys := by
  obtain ⟨p, hp, rfl⟩ := mem_map.mp h
  exact ⟨(mem_erase.mp hp).2, mem_keys_of_mem (mem_erase.mp hp).1⟩

theorem mem_keys_filter {keep : K → V → Bool} (h : k ∈ (m.filter keep).keys) : k ∈ m.keys := by
  obtain ⟨p, hp, rfl⟩ := mem_map.mp h
  exact mem_keys_of_mem (mem_filter.mp hp).1

theorem traverse_eq_some : m.traverse f = some t ↔
      List.Forall₂ (fun p q => q.1 = p.1 ∧ f p.2 = some q.2) m.entries t.entries := by
  rw [← traverseEntries_eq_some]
  unfold traverse
  split
  · next h => simp [h]
  · next l h =>
    rw [Option.some_inj, OrdMap.ext_iff]
    exact ⟨fun hl => h.trans (congrArg some hl), fun ht => Option.some.inj (h.symm.trans ht)⟩

theorem keys_traverse (h : m.traverse f = some t) : t.keys = m.keys :=
  keys_traverseEntries (traverseEntries_eq_some.mpr (traverse_eq_some.mp h))

theorem exists_traverse (h : ∀ p ∈ m.entries, ∃ w, f p.2 = some w) :
    ∃ t, m.traverse f = some t := by
  obtain ⟨l, hl⟩ : ∃ l, traverseEntries f m.entries = some l := by
    generalize m.entries = l at h
    induction l with
    | nil => exact ⟨[], rfl⟩
    | cons p l ih =>
      obtain ⟨w, hw⟩ := h p mem_cons_self
      obtain ⟨rest, hrest⟩ := ih fun q hq => h q (mem_cons_of_mem p hq)
      exact ⟨(p.1, w) :: rest, by rw [traverseEntries, hw, Option.bind_some, hrest]; rfl⟩
  exact ⟨⟨l, keys_traverseEntries hl ▸ m.sorted⟩,
    traverse_eq_some.mpr (traverseEntries_eq_some.mp hl)⟩

theorem mem_traverse (h : m.traverse f = some t) {q : K × W}
    (hq : q ∈ t.entries) : ∃ v, (q.1, v) ∈ m.entries ∧ f v = some q.2 := by
  have hall := traverse_eq_some.mp h
  clear h
  revert hq
  generalize m.entries = l at hall
  generalize t.entries = l' at hall
  induction hall with
  | nil => simp
  | @cons p q' l l' hp _ ih =>
    intro hq
    rcases mem_cons.mp hq with rfl | hq
    · exact ⟨p.2, hp.1 ▸ mem_cons_self, hp.2⟩
    · obtain ⟨v, hv, hf⟩ := ih hq
      exact ⟨v, mem_cons_of_mem p hv, hf⟩

/-! ### Sums -/

section Sum

variable [AddCommMonoid M] {g g' : K → V → M}

/-- The sum of a term for each entry. -/
def sum (m : OrdMap K V) (g : K → V → M) : M :=
  (m.entries.map fun p => g p.1 p.2).sum

@[simp] theorem sum_empty : (empty : OrdMap K V).sum g = 0 := rfl

theorem sum_congr (h : ∀ p ∈ m.entries, g p.1 p.2 = g' p.1 p.2) : m.sum g = m.sum g' := by
  rw [sum, sum, map_congr_left h]

omit [LinearOrder K] in
theorem sum_entries_filter {keep : K × V → Bool} {f : K × V → M} {l : List (K × V)}
    (h : ∀ p ∈ l, keep p = false → f p = 0) : ((l.filter keep).map f).sum = (l.map f).sum := by
  induction l with
  | nil => rfl
  | cons p l ih =>
    have hl := ih fun q hq => h q (mem_cons_of_mem p hq)
    cases hp : keep p with
    | true => rw [filter_cons_of_pos hp, map_cons, map_cons, sum_cons,
        sum_cons, hl]
    | false =>
      rw [filter_cons_of_neg (by simp [hp]), hl, map_cons, sum_cons,
        h p mem_cons_self hp, zero_add]

theorem sum_filter {keep : K → V → Bool}
    (h : ∀ p ∈ m.entries, keep p.1 p.2 = false → g p.1 p.2 = 0) :
    (m.filter keep).sum g = m.sum g :=
  sum_entries_filter h

theorem sum_traverse {f : V → Option W} {t : OrdMap K W} {g' : K → W → M}
    (h : m.traverse f = some t)
    (hterm : ∀ k v w, f v = some w → g' k w = g k v) : t.sum g' = m.sum g := by
  have hall := traverse_eq_some.mp h
  unfold sum
  clear h
  generalize m.entries = l at hall ⊢
  generalize t.entries = l' at hall ⊢
  induction hall with
  | nil => rfl
  | cons hp _ ih => rw [map_cons, map_cons, sum_cons, sum_cons, ih, hp.1,
      hterm _ _ _ hp.2]

theorem sum_neg {M : Type x} [AddCommGroup M] {g : K → V → M} :
    m.sum (fun k v => -g k v) = -m.sum g := by
  unfold sum
  generalize m.entries = l
  induction l with
  | nil => simp
  | cons p l ih => rw [map_cons, map_cons, sum_cons, sum_cons, ih, neg_add]

theorem sum_map {f : V → W} {g' : K → W → M} : (m.map f).sum g' = m.sum fun k v => g' k (f v) := by
  rw [sum, map, map_map]
  rfl

theorem sum_insertEntry {l : List (K × V)} (f : K × V → M)
    (h : (l.map Prod.fst).Pairwise (· < ·)) :
    ((insertEntry k v l).map f).sum + ((assocGet l k).elim 0 fun old => f (k, old)) =
      (l.map f).sum + f (k, v) := by
  induction l with
  | nil => simp [insertEntry]
  | cons q l ih =>
    obtain ⟨hq, hl⟩ := pairwise_cons.mp h
    unfold insertEntry
    split
    · next hlt =>
      have hnone : assocGet (q :: l) k = none := by
        refine assocGet_eq_none_iff.mpr fun hk => ?_
        rcases mem_cons.mp hk with rfl | hk
        · exact lt_irrefl _ hlt
        · exact lt_asymm hlt (hq k hk)
      rw [hnone, map_cons, sum_cons, Option.elim_none, add_zero, add_comm]
    · next hge =>
      split
      · next hgt =>
        rw [assocGet_cons, if_neg hgt.ne, map_cons, map_cons, sum_cons,
          sum_cons, add_assoc, ih hl, add_assoc]
      · next hle =>
        obtain rfl : k = q.1 := le_antisymm (le_of_not_gt hle) (le_of_not_gt hge)
        rw [assocGet_cons, if_pos rfl, map_cons, map_cons, sum_cons, sum_cons,
          Option.elim_some, add_assoc, add_comm]
        rw [add_comm (f q), add_comm]

theorem sum_insert (m : OrdMap K V) (k : K) (v : V) (g : K → V → M) :
    (m.insert k v).sum g + ((m.get k).elim 0 (g k)) = m.sum g + g k v :=
  sum_insertEntry (fun p => g p.1 p.2) m.sorted

theorem sum_entries_erase {l : List (K × V)} (f : K × V → M)
    (h : (l.map Prod.fst).Nodup) (hv : (k, v) ∈ l) :
    (l.map f).sum = f (k, v) + ((l.filter fun p => p.1 ≠ k).map f).sum := by
  induction l with
  | nil => cases hv
  | cons q l ih =>
    obtain ⟨hq, hl⟩ := nodup_cons.mp h
    rw [map_cons, sum_cons]
    rcases mem_cons.mp hv with rfl | hv
    · rw [filter_cons_of_neg (by simp), filter_eq_self.mpr]
      intro p hp
      rw [decide_eq_true_iff]
      rintro rfl
      exact hq (mem_map.mpr ⟨p, hp, rfl⟩)
    · have hne : q.1 ≠ k := by
        rintro rfl
        exact hq (mem_map.mpr ⟨_, hv, rfl⟩)
      rw [filter_cons_of_pos (by simpa using hne), map_cons, sum_cons, ih hl hv,
        add_left_comm]

theorem sum_eq_add_erase (h : m.get k = some v) : m.sum g = g k v + (m.erase k).sum g :=
  sum_entries_erase (fun p => g p.1 p.2) m.nodup_keys (get_eq_some_iff.mp h)

end Sum

end OrdMap

end Oikos
