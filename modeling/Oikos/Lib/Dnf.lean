/-
Disjunctive normal forms over any atoms: lists of branches, each a conjunction.
-/
import Mathlib.Data.List.Basic

namespace Oikos

open List

universe u

/-- A disjunction of conjunctions. -/
abbrev Dnf (A : Type u) := List (List A)

namespace Dnf

variable {A : Type u} {P Q : A → Prop} {a b : Dnf A} {branch : List A}

/-- Every branch of one form together with every branch of another. -/
def conjoin (a b : Dnf A) : Dnf A :=
  a.flatMap fun left => b.map fun right => left ++ right

def Holds (P : A → Prop) (a : Dnf A) : Prop :=
  ∃ branch ∈ a, ∀ x ∈ branch, P x

@[simp] theorem holds_singleton : Holds P [branch] ↔ ∀ x ∈ branch, P x := by
  simp [Holds]

@[simp] theorem holds_append : Holds P (a ++ b) ↔ Holds P a ∨ Holds P b := by
  simp only [Holds, mem_append, or_and_right, exists_or]

theorem mem_conjoin :
    branch ∈ conjoin a b ↔ ∃ left ∈ a, ∃ right ∈ b, left ++ right = branch := by
  simp [conjoin]

theorem holds_conjoin : Holds P (conjoin a b) ↔ Holds P a ∧ Holds P b := by
  constructor
  · rintro ⟨branch, hbranch, hall⟩
    obtain ⟨left, hleft, right, hright, rfl⟩ := mem_conjoin.mp hbranch
    obtain ⟨hl, hr⟩ := forall_mem_append.mp hall
    exact ⟨⟨left, hleft, hl⟩, ⟨right, hright, hr⟩⟩
  · rintro ⟨⟨left, hleft, hl⟩, ⟨right, hright, hr⟩⟩
    exact ⟨left ++ right, mem_conjoin.mpr ⟨left, hleft, right, hright, rfl⟩,
      forall_mem_append.mpr ⟨hl, hr⟩⟩

theorem holds_foldl_conjoin {I : Type} {part : I → Dnf A} {is : List I} {start : Dnf A}
    (h : ∀ i ∈ is, Holds P (part i)) (hstart : Holds P start) :
    Holds P (is.foldl (fun combined i => conjoin combined (part i)) start) := by
  induction is generalizing start with
  | nil => exact hstart
  | cons i is ih =>
    obtain ⟨hi, his⟩ := forall_mem_cons.mp h
    exact ih his (holds_conjoin.mpr ⟨hstart, hi⟩)

/-- No atom is lost where two forms are put together. -/
theorem mem_flatten_conjoin {x : A} (ha : a ≠ []) (hb : b ≠ []) :
    x ∈ (conjoin a b).flatten ↔ x ∈ a.flatten ∨ x ∈ b.flatten := by
  obtain ⟨left₀, hleft₀⟩ := exists_mem_of_ne_nil _ ha
  obtain ⟨right₀, hright₀⟩ := exists_mem_of_ne_nil _ hb
  simp only [mem_flatten]
  constructor
  · rintro ⟨branch, hbranch, hx⟩
    obtain ⟨left, hleft, right, hright, rfl⟩ := mem_conjoin.mp hbranch
    rcases mem_append.mp hx with hx | hx
    · exact Or.inl ⟨left, hleft, hx⟩
    · exact Or.inr ⟨right, hright, hx⟩
  · rintro (⟨left, hleft, hx⟩ | ⟨right, hright, hx⟩)
    · exact ⟨_, mem_conjoin.mpr ⟨left, hleft, right₀, hright₀, rfl⟩, mem_append_left _ hx⟩
    · exact ⟨_, mem_conjoin.mpr ⟨left₀, hleft₀, right, hright, rfl⟩, mem_append_right _ hx⟩

theorem length_conjoin : (conjoin a b).length = a.length * b.length := by
  simp [conjoin, length_flatMap]

/-- What holds of every atom of two forms holds of every atom of both together. -/
theorem forall_conjoin (ha : ∀ branch ∈ a, ∀ x ∈ branch, Q x)
    (hb : ∀ branch ∈ b, ∀ x ∈ branch, Q x) : ∀ branch ∈ conjoin a b, ∀ x ∈ branch, Q x := by
  intro branch hbranch
  obtain ⟨left, hleft, right, hright, rfl⟩ := mem_conjoin.mp hbranch
  exact forall_mem_append.mpr ⟨ha left hleft, hb right hright⟩

end Dnf

end Oikos
