/-
Runs of a total step function: the states a run passes through, the condition
that every action of it meets, and the rules that carry an invariant along it.
-/
import Mathlib.Data.List.Basic
import Mathlib.Algebra.Order.Ring.Nat

namespace Oikos

open List

universe u v

variable {S : Type u} {A : Type v}

/-- The states a run passes through, the first and the last one included. -/
def visited (step : S → A → S) : S → List A → List S
  | s, [] => [s]
  | s, a :: as => s :: visited step (step s a) as

/-- Every action of a run meets a condition in the state in which it is taken. -/
def Meets (step : S → A → S) (C : S → A → Prop) : S → List A → Prop
  | _, [] => True
  | s, a :: as => C s a ∧ Meets step C (step s a) as

variable {step : S → A → S} {C C' : S → A → Prop} {Inv P : S → Prop} {s t : S} {as bs : List A}

instance decidableMeets [∀ s a, Decidable (C s a)] :
    (s : S) → (as : List A) → Decidable (Meets step C s as)
  | _, [] => inferInstanceAs (Decidable True)
  | s, a :: as =>
    have := decidableMeets (step s a) as
    inferInstanceAs (Decidable (C s a ∧ Meets step C (step s a) as))

theorem meets_append :
    Meets step C s (as ++ bs) ↔ Meets step C s as ∧ Meets step C (as.foldl step s) bs := by
  induction as generalizing s with
  | nil => simp [Meets]
  | cons a as ih =>
    rw [cons_append, Meets, Meets, ih, foldl_cons, and_assoc]

theorem Meets.mono (h : Meets step C s as) (hC : ∀ t a, C t a → C' t a) :
    Meets step C' s as := by
  induction as generalizing s with
  | nil => trivial
  | cons a as ih => exact ⟨hC s a h.1, ih h.2⟩

/-- An invariant that holds at the start and is kept by every action that meets
the condition holds in every state of the run. -/
theorem Meets.forall_visited (h : Meets step C s as) (hs : Inv s)
    (hstep : ∀ t a, Inv t → C t a → Inv (step t a)) : ∀ t ∈ visited step s as, Inv t := by
  induction as generalizing s with
  | nil =>
    intro t ht
    obtain rfl : t = s := by simpa [visited] using ht
    exact hs
  | cons a as ih =>
    intro t ht
    rw [visited, mem_cons] at ht
    rcases ht with rfl | ht
    · exact hs
    · exact ih h.2 (hstep s a hs h.1) t ht

/-- An invariant that holds at the start and is kept by every action holds in every
state of a run. -/
theorem visited_preserve (hs : Inv s) (hstep : ∀ t a, Inv t → Inv (step t a)) :
    ∀ t ∈ visited step s as, Inv t :=
  have hall : Meets step (fun _ _ => True) s as := by
    induction as generalizing s hs with
    | nil => trivial
    | cons a as ih => exact ⟨trivial, ih (hstep s a hs)⟩
  hall.forall_visited hs fun t a ht _ => hstep t a ht

theorem foldl_mem_visited : as.foldl step s ∈ visited step s as := by
  induction as generalizing s with
  | nil => exact mem_singleton_self s
  | cons a as ih => exact mem_cons_of_mem s ih

theorem start_mem_visited : s ∈ visited step s as := by
  cases as with
  | nil => exact mem_singleton_self s
  | cons a as => exact mem_cons_self

theorem Meets.foldl (h : Meets step C s as) (hs : Inv s)
    (hstep : ∀ t a, Inv t → C t a → Inv (step t a)) : Inv (as.foldl step s) :=
  h.forall_visited hs hstep _ foldl_mem_visited

/-- Where a single action keeps `P` exactly when it meets the condition, a run
keeps `P` exactly when all of its actions do. -/
theorem forall_visited_iff_meets (Inv : S → Prop) (hinv : ∀ t a, Inv t → Inv (step t a))
    (hP : ∀ t a, Inv t → P t → (P (step t a) ↔ C t a)) (hs : Inv s) (hPs : P s) :
    (∀ t ∈ visited step s as, P t) ↔ Meets step C s as := by
  induction as generalizing s with
  | nil => simpa [visited, Meets] using hPs
  | cons a as ih =>
    constructor
    · intro hall
      have hnext : P (step s a) := hall _ (mem_cons_of_mem s start_mem_visited)
      have htail : ∀ t ∈ visited step (step s a) as, P t :=
        fun t ht => hall t (mem_cons_of_mem s ht)
      exact ⟨(hP s a hs hPs).mp hnext, (ih (hinv s a hs) hnext).mp htail⟩
    · intro hmeets t ht
      have hnext : P (step s a) := (hP s a hs hPs).mpr hmeets.1
      rw [visited, mem_cons] at ht
      rcases ht with rfl | ht
      · exact hPs
      · exact (ih (hinv s a hs) hnext).mpr hmeets.2 t ht

end Oikos
