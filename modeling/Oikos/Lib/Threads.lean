/-
Programs that share a state and take turns: each makes its calls one at a time,
and between two calls of one the others may make any calls that are allowed.
-/
import Mathlib.Logic.Function.Basic
import Mathlib.Logic.Relation

namespace Oikos

open Relation

/-- A program that makes atomic calls and ends with an answer. -/
inductive Prog (C : Type) (R : C → Type) (A : Type) where
  | done (answer : A)
  | call (c : C) (next : R c → Prog C R A)

/-- The shared state, and for each thread its request and what it still has to do. -/
structure Threads (S Q C : Type) (R : C → Type) (A : Type) where
  shared : S
  thread : Nat → Option (Q × Prog C R A)

variable {S Q C A : Type} {R : C → Type} (exec : (c : C) → S → R c → S → Prop)
  (allowed : C → S → Prop) (program : Q → Prog C R A)

/-- What an allowed call does to the shared state. -/
def Moves (s s' : S) : Prop :=
  ∃ c r, allowed c s ∧ exec c s r s'

/-- A thread begins with a request, or makes its next call. -/
inductive Threads.Step : Threads S Q C R A → Threads S Q C R A → Prop
  | begin {t : Threads S Q C R A} (k : Nat) (q : Q) (hfree : t.thread k = none) :
      Step t { t with thread := Function.update t.thread k (some (q, program q)) }
  | call {t : Threads S Q C R A} {k : Nat} {q : Q} {c : C} {next : R c → Prog C R A} {r : R c}
      {s : S} (hk : t.thread k = some (q, .call c next)) (hexec : exec c t.shared r s) :
      Step t ⟨s, Function.update t.thread k (some (q, next r))⟩

/-- However the others move in between, the program makes allowed calls only, and its
answer meets the condition from then on. -/
def Prog.Ensures (post : A → S → Prop) : Prog C R A → S → Prop
  | .done a, s => ∀ s', ReflTransGen (Moves exec allowed) s s' → post a s'
  | .call c next, s => ∀ s', ReflTransGen (Moves exec allowed) s s' →
      allowed c s' ∧ ∀ r s'', exec c s' r s'' → Prog.Ensures post (next r) s''

/-- A slot of a schedule: a thread begins, or makes its next call. -/
inductive Slot (Q : Type) where
  | begin (k : Nat) (q : Q)
  | call (k : Nat)

/-- The threads after a slot, where each call has one result or none; a turn that cannot be
taken is skipped. -/
def Threads.turn (run : (c : C) → S → Option (R c × S)) (t : Threads S Q C R A) :
    Slot Q → Threads S Q C R A
  | .begin k q =>
    match t.thread k with
    | none => { t with thread := Function.update t.thread k (some (q, program q)) }
    | some _ => t
  | .call k =>
    match t.thread k with
    | some (q, .call c next) =>
      match run c t.shared with
      | some (r, s) => ⟨s, Function.update t.thread k (some (q, next r))⟩
      | none => t
    | _ => t

variable {exec allowed program} {post post' : A → S → Prop} {p : Prog C R A} {s s' : S}

theorem Prog.Ensures.moves (h : p.Ensures exec allowed post s)
    (hs : ReflTransGen (Moves exec allowed) s s') : p.Ensures exec allowed post s' := by
  cases p with
  | done a => exact fun t ht => h t (hs.trans ht)
  | call c next => exact fun t ht => h t (hs.trans ht)

theorem Prog.Ensures.mono (h : p.Ensures exec allowed post s)
    (hpost : ∀ a s, post a s → post' a s) : p.Ensures exec allowed post' s := by
  induction p generalizing s with
  | done a => exact fun t ht => hpost a t (h t ht)
  | call c next ih =>
    exact fun t ht => ⟨(h t ht).1, fun r t' hexec => ih r ((h t ht).2 r t' hexec)⟩

section Update

variable {B : Type} {f : Nat → Option B} {k j : Nat} {x y : B}

theorem update_eq_some (h : Function.update f k (some x) j = some y) :
    j = k ∧ x = y ∨ f j = some y := by
  by_cases heq : j = k
  · subst heq
    rw [Function.update_self] at h
    exact .inl ⟨rfl, Option.some.inj h⟩
  · rw [Function.update_of_ne heq] at h
    exact .inr h

theorem of_update_eq_none (h : Function.update f k (some x) j = none) : f j = none := by
  by_cases heq : j = k
  · subst heq
    rw [Function.update_self] at h
    cases h
  · rwa [Function.update_of_ne heq] at h

end Update

/-- A schedule is a run. -/
theorem Threads.step_turns {run : (c : C) → S → Option (R c × S)}
    (hrun : ∀ c s r s', run c s = some (r, s') → exec c s r s') (turns : List (Slot Q))
    (t : Threads S Q C R A) :
    ReflTransGen (Step exec program) t (turns.foldl (turn program run) t) := by
  induction turns generalizing t with
  | nil => exact .refl
  | cons first turns ih =>
    refine .trans ?_ (ih _)
    cases first with
    | begin k q =>
      simp only [turn]
      split
      · next hk => exact .single (.begin k q hk)
      · exact .refl
    | call k =>
      simp only [turn]
      split
      · next hk =>
        split
        · next hsome => exact .single (.call hk (hrun _ _ _ _ hsome))
        · exact .refl
      · exact .refl

/-- What every program ensures from its start, and every thread from where it is, holds
throughout a run; and the shared state has changed by allowed calls only. -/
theorem Threads.ensures {t t' : Threads S Q C R A} (post : Nat → Q → A → S → Prop)
    (hrun : ReflTransGen (Step exec program) t t')
    (hthread : ∀ k q p, t.thread k = some (q, p) → p.Ensures exec allowed (post k q) t.shared)
    (hprogram : ∀ k q s, t.thread k = none → ReflTransGen (Moves exec allowed) t.shared s →
      (program q).Ensures exec allowed (post k q) s) :
    (∀ k q p, t'.thread k = some (q, p) → p.Ensures exec allowed (post k q) t'.shared) ∧
      (∀ k, t'.thread k = none → t.thread k = none) ∧
        ReflTransGen (Moves exec allowed) t.shared t'.shared := by
  induction hrun with
  | refl => exact ⟨hthread, fun _ h => h, .refl⟩
  | tail _ hstep ih =>
    obtain ⟨hall, hnone, hmoves⟩ := ih
    cases hstep with
    | begin k q hfree =>
      refine ⟨fun j q' p' hj => ?_, fun j hj => hnone j (of_update_eq_none hj), hmoves⟩
      rcases update_eq_some hj with ⟨rfl, heq⟩ | hj
      · cases heq
        exact hprogram j q _ (hnone j hfree) hmoves
      · exact hall j q' p' hj
    | @call k q c next r s hk hexec =>
      obtain ⟨hallowed, hnext⟩ := hall k q _ hk _ .refl
      have hmove : ReflTransGen (Moves exec allowed) _ s := .single ⟨c, r, hallowed, hexec⟩
      refine ⟨fun j q' p' hj => ?_, fun j hj => hnone j (of_update_eq_none hj), hmoves.trans hmove⟩
      rcases update_eq_some hj with ⟨rfl, heq⟩ | hj
      · cases heq
        exact hnext _ _ hexec
      · exact (hall j q' p' hj).moves hmove

end Oikos
