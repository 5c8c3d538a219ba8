/-
Trees that are known to be in order, with operations that cannot fail, and what
the operations do to the stored pairs.
-/
import Oikos.Archon.BTreeInsert

namespace Oikos.Archon

/-- A B-Link tree that satisfies its invariant. -/
structure ValidTree (K V : Type) [LinearOrder K] where
  tree : BTree K V
  valid : ∃ g, tree.Inv g

namespace ValidTree

variable {K V : Type} [LinearOrder K]

def new : ValidTree K V :=
  ⟨BTree.new, _, BTree.inv_new⟩

def get (t : ValidTree K V) (key : K) : Option V :=
  match h : t.tree.get key with
  | .ok r => r
  | .error _ => absurd h (by
      obtain ⟨g, hg⟩ := t.valid
      obtain ⟨r, hr, _⟩ := hg.get_spec key
      simp [hr])

def insert (t : ValidTree K V) (key : K) (value : V) : ValidTree K V :=
  match h : t.tree.insert key value with
  | .ok t' => ⟨t', by
      obtain ⟨g, hg⟩ := t.valid
      obtain ⟨t₁, g₁, hcall, hinv, _⟩ := hg.insert_spec key value
      obtain rfl : t₁ = t' := by
        have heq := hcall.symm.trans h
        simpa using heq
      exact ⟨g₁, hinv⟩⟩
  | .error _ => absurd h (by
      obtain ⟨g, hg⟩ := t.valid
      obtain ⟨t₁, g₁, hcall, _⟩ := hg.insert_spec key value
      simp [hcall])

/-- The tree that `delete` leaves. -/
def delete (t : ValidTree K V) (key : K) : ValidTree K V :=
  match h : t.tree.delete key with
  | .ok (_, t') => ⟨t', by
      obtain ⟨g, hg⟩ := t.valid
      obtain ⟨r, t₁, hcall, _, hinv, _⟩ := hg.delete_spec key
      obtain ⟨_, rfl⟩ : _ ∧ t₁ = t' := by
        have heq := hcall.symm.trans h
        simpa using heq
      exact ⟨g, hinv⟩⟩
  | .error _ => absurd h (by
      obtain ⟨g, hg⟩ := t.valid
      obtain ⟨r, t₁, hcall, _⟩ := hg.delete_spec key
      simp [hcall])

variable {t : ValidTree K V} {key : K} {value v : V}

/-- `get` reads the stored pairs. -/
theorem get_eq_some_iff : t.get key = some v ↔ t.tree.Entry key v := by
  obtain ⟨g, hg⟩ := t.valid
  obtain ⟨r, hr, hentry⟩ := hg.get_spec key
  unfold get
  split
  · next r' h =>
    obtain rfl : r = r' := by
      have heq := hr.symm.trans h
      simpa using heq
    exact hentry v
  · next e h => simp [hr] at h

@[simp] theorem get_new : (new : ValidTree K V).get key = none := by
  rw [Option.eq_none_iff_forall_not_mem]
  intro v hv
  exact BTree.not_entry_new key v (get_eq_some_iff.mp hv)

@[simp] theorem get_insert (t : ValidTree K V) (key : K) (value : V) (k : K) :
    (t.insert key value).get k = if k = key then some value else t.get k := by
  obtain ⟨g, hg⟩ := t.valid
  obtain ⟨t₁, g₁, hcall, _, hstores, _⟩ := hg.insert_spec key value
  have htree : (t.insert key value).tree = t₁ := by
    unfold insert
    split
    · next t' h =>
      have heq := hcall.symm.trans h
      simpa [eq_comm] using heq
    · next e h => simp [hcall] at h
  ext v
  rw [get_eq_some_iff, htree, hstores k v]
  by_cases hk : k = key
  · simp [hk, eq_comm]
  · simp [hk, get_eq_some_iff]

@[simp] theorem get_delete (t : ValidTree K V) (key k : K) :
    (t.delete key).get k = if k = key then none else t.get k := by
  obtain ⟨g, hg⟩ := t.valid
  obtain ⟨r, t₁, hcall, _, _, _, hentry⟩ := hg.delete_spec key
  have htree : (t.delete key).tree = t₁ := by
    unfold delete
    split
    · next r' t' h =>
      have heq := hcall.symm.trans h
      obtain ⟨_, rfl⟩ : _ ∧ t₁ = t' := by simpa using heq
      rfl
    · next e h => simp [hcall] at h
  ext v
  rw [get_eq_some_iff, htree, hentry k v]
  by_cases hk : k = key
  · simp [hk]
  · simp [hk, get_eq_some_iff]

end ValidTree

end Oikos.Archon
