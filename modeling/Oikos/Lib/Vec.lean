/-
Growable arrays with bounds checks, modelled by lists: every access outside
the array panics.  Sorted arrays are searched by `binarySearch`.
-/
import Oikos.Lib.Run
import Mathlib.Order.Basic
import Mathlib.Data.List.Basic

namespace Oikos

open List

universe u v

section Access

variable {E : Type u} {α : Type v}

/-- `xs[i]`. -/
def index (xs : List α) (i : Nat) : Result E α :=
  match xs[i]? with
  | some x => .ok x
  | none => .error .panic

/-- `xs[i] = x`. -/
def setAt (xs : List α) (i : Nat) (x : α) : Result E (List α) :=
  if i < xs.length then .ok (xs.set i x) else .error .panic

/-- `xs.insert(i, x)`. -/
def insertAt (xs : List α) (i : Nat) (x : α) : Result E (List α) :=
  if i ≤ xs.length then .ok (xs.insertIdx i x) else .error .panic

/-- `xs.remove(i)`: the removed element and what is left. -/
def removeAt (xs : List α) (i : Nat) : Result E (α × List α) :=
  match xs[i]? with
  | some x => .ok (x, xs.eraseIdx i)
  | none => .error .panic

/-- `xs.split_off(i)`: the part that stays and the part split off. -/
def splitOff (xs : List α) (i : Nat) : Result E (List α × List α) :=
  if i ≤ xs.length then .ok (xs.take i, xs.drop i) else .error .panic

theorem index_eq_ok {xs : List α} {i : Nat} {x : α} (h : xs[i]? = some x) :
    (index xs i : Result E α) = .ok x := by
  simp [index, h]

theorem index_eq_ok_iff {xs : List α} {i : Nat} {x : α} :
    (index xs i : Result E α) = .ok x ↔ xs[i]? = some x := by
  unfold index
  cases xs[i]? <;> simp

theorem index_of_lt {xs : List α} {i : Nat} (h : i < xs.length) :
    ∃ x, (index xs i : Result E α) = .ok x :=
  ⟨xs.get ⟨i, h⟩, index_eq_ok (getElem?_eq_getElem h)⟩

theorem setAt_eq_ok {xs ys : List α} {i : Nat} {x : α}
    (h : (setAt xs i x : Result E (List α)) = .ok ys) : i < xs.length ∧ ys = xs.set i x := by
  unfold setAt at h
  split at h
  · next hi =>
    cases h
    exact ⟨hi, rfl⟩
  · cases h

theorem removeAt_eq_ok {xs ys : List α} {i : Nat} {x : α}
    (h : (removeAt xs i : Result E (α × List α)) = .ok (x, ys)) :
    xs[i]? = some x ∧ ys = xs.eraseIdx i := by
  unfold removeAt at h
  split at h
  · next y hy =>
    cases h
    exact ⟨hy, rfl⟩
  · cases h

@[simp] theorem index_append_length (l r : List α) (x : α) :
    (index (l ++ x :: r) l.length : Result E α) = .ok x :=
  index_eq_ok (by simp)

@[simp] theorem setAt_append_length (l r : List α) (x y : α) :
    (setAt (l ++ y :: r) l.length x : Result E (List α)) = .ok (l ++ x :: r) := by
  simp [setAt]

@[simp] theorem insertAt_append_length (l r : List α) (x : α) :
    (insertAt (l ++ r) l.length x : Result E (List α)) = .ok (l ++ x :: r) := by
  induction l with
  | nil => simp [insertAt]
  | cons a l ih => simpa [insertAt] using ih

@[simp] theorem removeAt_append_length (l r : List α) (x : α) :
    (removeAt (l ++ x :: r) l.length : Result E (α × List α)) = .ok (x, l ++ r) := by
  simp [removeAt, eraseIdx_append_of_length_le]

@[simp] theorem splitOff_append_length (l r : List α) :
    (splitOff (l ++ r) l.length : Result E (List α × List α)) = .ok (l, r) := by
  simp [splitOff]

theorem exists_cut {xs : List α} {i : Nat} (h : i < xs.length) :
    ∃ l x r, xs = l ++ x :: r ∧ l.length = i := by
  refine ⟨xs.take i, xs[i], xs.drop (i + 1), ?_, length_take_of_le (Nat.le_of_lt h)⟩
  rw [← drop_eq_getElem_cons h, take_append_drop]

end Access

section Search

variable {K : Type u} [LinearOrder K] {keys : List K} {key : K} {i : Nat}

/-- The first position whose key is not below `key`. -/
def lowerBound (keys : List K) (key : K) : Nat :=
  keys.findIdx fun k => decide (key ≤ k)

/-- `binary_search` on a sorted array: the position of `key`, or the position
where it would have to be inserted. -/
def binarySearch (keys : List K) (key : K) : Except Nat Nat :=
  if keys[lowerBound keys key]? = some key then .ok (lowerBound keys key)
  else .error (lowerBound keys key)

theorem binarySearch_ok (h : binarySearch keys key = .ok i) :
    ∃ l r, keys = l ++ key :: r ∧ l.length = i := by
  unfold binarySearch at h
  split at h
  · rename_i hget
    obtain rfl : _ = i := by simpa using h
    obtain ⟨hlt, hkey⟩ := List.getElem?_eq_some_iff.mp hget
    refine ⟨keys.take _, keys.drop (lowerBound keys key + 1), ?_,
      length_take_of_le (Nat.le_of_lt hlt)⟩
    have hdrop : keys.drop (lowerBound keys key) = key :: keys.drop (lowerBound keys key + 1) := by
      rw [drop_eq_getElem_cons hlt, hkey]
    rw [← hdrop, take_append_drop]
  · simp at h

/-- The insertion point separates the smaller keys from the larger ones. -/
theorem binarySearch_error (hsorted : keys.Pairwise (· < ·))
    (h : binarySearch keys key = .error i) :
    ∃ l r, keys = l ++ r ∧ l.length = i ∧ (∀ x ∈ l, x < key) ∧ ∀ x ∈ r, key < x := by
  unfold binarySearch at h
  split at h
  · simp at h
  · rename_i hget
    obtain rfl : _ = i := by simpa using h
    set j := lowerBound keys key
    have hj : j = keys.findIdx fun k => decide (key ≤ k) := rfl
    have hle : j ≤ keys.length := findIdx_le_length
    refine ⟨keys.take j, keys.drop j, (take_append_drop j keys).symm,
      length_take_of_le hle, ?_, ?_⟩
    · intro x hx
      obtain ⟨n, hn, rfl⟩ := mem_iff_getElem.mp hx
      rw [length_take] at hn
      rw [getElem_take]
      have hnot := @not_of_lt_findIdx _ (fun k => decide (key ≤ k)) keys
        n (by omega)
      simpa using hnot
    · intro x hx
      obtain ⟨n, hn, rfl⟩ := mem_iff_getElem.mp hx
      rw [length_drop] at hn
      rw [getElem_drop]
      have hjlt : j < keys.length := by omega
      have hfirst : key ≤ keys[j] := by
        have := @findIdx_getElem _ (fun k => decide (key ≤ k)) keys hjlt
        simpa [← hj] using this
      have hne : key ≠ keys[j] := by
        intro heq
        exact hget (by rw [getElem?_eq_getElem hjlt, ← heq])
      have hlt : key < keys[j] := lt_of_le_of_ne hfirst hne
      rcases Nat.eq_zero_or_pos n with rfl | hpos
      · simpa using hlt
      · exact hlt.trans (pairwise_iff_getElem.mp hsorted j (j + n) hjlt (by omega) (by omega))

theorem not_mem_of_binarySearch_error (hsorted : keys.Pairwise (· < ·))
    (h : binarySearch keys key = .error i) : key ∉ keys := by
  obtain ⟨l, r, rfl, _, hl, hr⟩ := binarySearch_error hsorted h
  intro hmem
  rcases mem_append.mp hmem with hmem | hmem
  · exact lt_irrefl key (hl key hmem)
  · exact lt_irrefl key (hr key hmem)

theorem binarySearch_gap {l r : List K} (hl : ∀ x ∈ l, x < key) (hr : ∀ x ∈ r, key < x) :
    binarySearch (l ++ r) key = .error l.length := by
  have hidx : lowerBound (l ++ r) key = l.length := by
    rw [lowerBound, findIdx_append, findIdx_eq_length_of_false]
    · cases r with
      | nil => simp
      | cons y r => simp [findIdx_cons, (hr y mem_cons_self).le]
    · intro x hx
      simpa using hl x hx
  unfold binarySearch
  rw [hidx]
  have hget : (l ++ r)[l.length]? ≠ some key := by
    cases r with
    | nil => simp
    | cons y r =>
      have := (hr y mem_cons_self).ne'
      simpa using this
  simp [hget]

/-- A key put into the gap where it belongs keeps an array sorted. -/
theorem pairwise_insert {l r : List K} (hsorted : (l ++ r).Pairwise (· < ·))
    (hl : ∀ x ∈ l, x < key) (hr : ∀ x ∈ r, key < x) :
    (l ++ key :: r).Pairwise (· < ·) := by
  rw [pairwise_append] at hsorted ⊢
  obtain ⟨hsl, hsr, hcross⟩ := hsorted
  refine ⟨hsl, pairwise_cons.mpr ⟨hr, hsr⟩, ?_⟩
  intro x hx y hy
  rcases mem_cons.mp hy with rfl | hy
  · exact hl x hx
  · exact hcross x hx y hy

end Search

/-- An entry of a list with one more element is an old entry or the new element. -/
theorem getElem?_concat_cases {α : Type u} {l : List α} {x y : α} {k : Nat}
    (h : (l ++ [x])[k]? = some y) : l[k]? = some y ∨ (k = l.length ∧ y = x) := by
  rw [getElem?_append] at h
  split at h
  · exact Or.inl h
  · obtain ⟨hlt, hlast⟩ := List.getElem?_eq_some_iff.mp h
    rw [length_singleton] at hlt
    refine Or.inr ⟨by omega, ?_⟩
    rw [← hlast, getElem_singleton]

theorem getElem?_set_cases {α : Type u} {l : List α} {x y : α} {i j : Nat}
    (h : (l.set i x)[j]? = some y) : (i = j ∧ x = y) ∨ (j ≠ i ∧ l[j]? = some y) := by
  by_cases hij : j = i
  · subst hij
    obtain ⟨hlt, hset⟩ := List.getElem?_eq_some_iff.mp h
    rw [getElem_set_self] at hset
    exact Or.inl ⟨rfl, hset⟩
  · rw [getElem?_set_ne (Ne.symm hij)] at h
    exact Or.inr ⟨hij, h⟩

end Oikos
