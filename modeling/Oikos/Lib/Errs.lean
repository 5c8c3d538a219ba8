/-
The errors that a computation can return.  The rules follow the constructs that
computations are made of; panics and running out of fuel are no errors.
-/
import Oikos.Lib.Vec

namespace Oikos

open List

universe u v w

/-- Every error that the computation returns satisfies `Q`. -/
def Errs {E : Type u} {α : Type v} (Q : E → Prop) (x : Result E α) : Prop :=
  ∀ e, x = .error (.err e) → Q e

namespace Errs

variable {E : Type u} {α β : Type v} {Q : E → Prop} {x : Result E α} {f : α → Result E β}

theorem ok (a : α) : Errs Q (.ok a : Result E α) := by
  intro e h
  cases h

theorem panic : Errs Q (.error .panic : Result E α) := by
  intro e h
  cases h

theorem fuel : Errs Q (.error .fuel : Result E α) := by
  intro e h
  cases h

theorem err {e : E} (h : Q e) : Errs Q (.error (.err e) : Result E α) := by
  intro e' he
  cases he
  exact h

/-- The second part counts only for the values that the first part returns. -/
theorem bind (hx : Errs Q x) (hf : ∀ a, x = .ok a → Errs Q (f a)) : Errs Q (x >>= f) := by
  cases x with
  | ok a => exact hf a rfl
  | error stop =>
    intro e he
    cases he
    exact hx e rfl

theorem mapErr {E' : Type w} {g : E' → E} {y : Result E' α} (h : ∀ e, Q (g e)) :
    Errs Q (mapErr g y) := by
  cases y with
  | ok a => exact ok a
  | error stop =>
    cases stop with
    | err e => exact err (h e)
    | panic => exact panic
    | fuel => exact fuel

/-- Errors that were caught are not returned. -/
theorem catchErr {E' : Type u} {y : Result E' α} :
    Errs Q (catchErr y : Result E (Except E' α)) := by
  cases y with
  | ok a => exact ok _
  | error stop =>
    cases stop with
    | err e => exact ok _
    | panic => exact panic
    | fuel => exact fuel

theorem index (xs : List α) (i : Nat) : Errs Q (index xs i : Result E α) := by
  unfold Oikos.index
  split
  · exact ok _
  · exact panic

theorem setAt (xs : List α) (i : Nat) (a : α) : Errs Q (setAt xs i a : Result E (List α)) := by
  unfold Oikos.setAt
  split
  · exact ok _
  · exact panic

theorem removeAt (xs : List α) (i : Nat) : Errs Q (removeAt xs i : Result E (α × List α)) := by
  unfold Oikos.removeAt
  split
  · exact ok _
  · exact panic

variable {A B S : Type v}

theorem mapM {g : A → Result E B} {as : List A} (h : ∀ a ∈ as, Errs Q (g a)) :
    Errs Q (as.mapM g) := by
  induction as with
  | nil => exact ok []
  | cons a as ih =>
    rw [mapM_cons]
    refine bind (h a mem_cons_self) fun b _ => ?_
    refine bind (ih fun x hx => h x (mem_cons_of_mem a hx)) fun bs _ => ?_
    exact ok _

theorem forM {A : Type} {g : A → Result E Unit} {as : List A} (h : ∀ a ∈ as, Errs Q (g a)) :
    Errs Q (as.forM g) := by
  induction as with
  | nil => exact ok ()
  | cons a as ih =>
    refine bind (h a mem_cons_self) fun _ _ => ?_
    exact ih fun x hx => h x (mem_cons_of_mem a hx)

theorem foldlM {g : S → A → Result E S} {as : List A} {s : S}
    (h : ∀ s, ∀ a ∈ as, Errs Q (g s a)) : Errs Q (as.foldlM g s) := by
  induction as generalizing s with
  | nil => exact ok s
  | cons a as ih =>
    rw [foldlM_cons]
    refine bind (h s a mem_cons_self) fun s' _ => ?_
    exact ih fun s x hx => h s x (mem_cons_of_mem a hx)

theorem collect {g : A → Result E (Option B)} {as : List A} (h : ∀ a ∈ as, Errs Q (g a)) :
    Errs Q (collect g as) := by
  induction as with
  | nil => exact ok []
  | cons a as ih =>
    rw [Oikos.collect]
    refine bind (h a mem_cons_self) fun b _ => ?_
    refine bind (ih fun x hx => h x (mem_cons_of_mem a hx)) fun bs _ => ?_
    exact ok _

/-- The error that ends a sequence of updates, from states that satisfy `P`. -/
theorem forEach {E' : Type u} {g : S → A → Result E S} {P : S → Prop}
    (hstep : ∀ s a s', P s → g s a = .ok s' → P s') (hg : ∀ s a, P s → Errs Q (g s a))
    {as : List A} {s s' : S} {r : Except E Unit} (hs : P s)
    (hrun : (Oikos.forEach g s as : Result E' _) = .ok (s', r)) : ∀ e, r = .error e → Q e := by
  induction as generalizing s with
  | nil =>
    cases hrun
    intro e he
    cases he
  | cons a as ih =>
    unfold Oikos.forEach at hrun
    split at hrun
    · next s₁ hs₁ => exact ih (hstep s a s₁ hs hs₁) hrun
    · next e₁ he₁ =>
      cases hrun
      intro e he
      cases he
      exact hg _ a hs _ he₁
    · cases hrun
    · cases hrun

end Errs

end Oikos
