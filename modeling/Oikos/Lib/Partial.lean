/-
Runs of a step function that may panic: the condition that every action of a
run meets, and what holds after every part of it.
-/
import Mathlib.Data.List.Basic

namespace Oikos

universe u v

variable {S : Type u} {A : Type v}

/-- The state after a run, if no action of it panics. -/
def perform (step : S → A → Option S) : S → List A → Option S
  | s, [] => some s
  | s, a :: as => (step s a).bind (perform step · as)

/-- Every action of a run meets a condition in the state in which it is taken. -/
def Guarded (step : S → A → Option S) (C : S → A → Prop) : S → List A → Prop
  | _, [] => True
  | s, a :: as => C s a ∧ ∀ s', step s a = some s' → Guarded step C s' as

variable {step : S → A → Option S} {C : S → A → Prop} {Inv P : S → Prop} {s t : S} {a : A}
  {as bs : List A}

theorem perform_cons_eq_some :
    perform step s (a :: as) = some t ↔ ∃ s', step s a = some s' ∧ perform step s' as = some t :=
  Option.bind_eq_some_iff

/-- What every action keeps holds after the run. -/
theorem perform_preserve (hstep : ∀ s a s', Inv s → step s a = some s' → Inv s') (hs : Inv s)
    (h : perform step s as = some t) : Inv t := by
  induction as generalizing s with
  | nil =>
    cases h
    exact hs
  | cons a as ih =>
    obtain ⟨s', ha, h⟩ := perform_cons_eq_some.mp h
    exact ih (hstep s a s' hs ha) h

/-- Where a single action keeps `P` exactly when it meets the condition, every part
of a run keeps `P` exactly when all of its actions do. -/
theorem forall_parts_iff_guarded (Inv : S → Prop)
    (hinv : ∀ s a s', Inv s → step s a = some s' → Inv s')
    (hP : ∀ s a, Inv s → P s → ((∀ s', step s a = some s' → P s') ↔ C s a)) (hs : Inv s)
    (hPs : P s) :
    (∀ before, before <+: as → ∀ t, perform step s before = some t → P t) ↔
      Guarded step C s as := by
  induction as generalizing s with
  | nil =>
    refine ⟨fun _ => trivial, ?_⟩
    intro _ before hbefore t ht
    rw [List.prefix_nil.mp hbefore] at ht
    cases ht
    exact hPs
  | cons a as ih =>
    constructor
    · intro hall
      have hnext : ∀ s', step s a = some s' → P s' := fun s' ha =>
        hall [a] (by simp) s' (perform_cons_eq_some.mpr ⟨s', ha, rfl⟩)
      refine ⟨(hP s a hs hPs).mp hnext, fun s' ha => ?_⟩
      refine (ih (hinv s a s' hs ha) (hnext s' ha)).mp fun before hbefore t ht => ?_
      exact hall (a :: before) ((List.prefix_cons_inj a).mpr hbefore) t
        (perform_cons_eq_some.mpr ⟨s', ha, ht⟩)
    · rintro ⟨ha, hrest⟩ before hbefore t ht
      rcases List.prefix_cons_iff.mp hbefore with rfl | ⟨early, rfl, hearly⟩
      · cases ht
        exact hPs
      · obtain ⟨s', hs', ht⟩ := perform_cons_eq_some.mp ht
        exact (ih (hinv s a s' hs hs') ((hP s a hs hPs).mpr ha s' hs')).mpr (hrest s' hs') early
          hearly t ht

end Oikos
