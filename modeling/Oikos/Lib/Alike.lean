/-
Computations that end alike: both return, with related values, or both stop for the same
reason; or one returns whatever the other one does, and may go on where that one stops.
The rules follow the constructs that computations are made of.
-/
import Oikos.Lib.Run

namespace Oikos

section Extending

universe u v w

/-- `y` returns what `x` returns. -/
def Extends {E : Type u} {A : Type v} (x y : Except E A) : Prop :=
  ∀ a, x = .ok a → y = .ok a

namespace Extends

section Rules

variable {E : Type u} {A B : Type v} {x y : Except E A}

theorem refl (x : Except E A) : Extends x x :=
  fun _ h => h

theorem bind {f g : A → Except E B} (h : Extends x y)
    (hfg : ∀ a, x = .ok a → Extends (f a) (g a)) : Extends (x >>= f) (y >>= g) := by
  intro b hb
  obtain ⟨a, ha, hfa⟩ := bind_eq_ok.mp hb
  exact bind_eq_ok.mpr ⟨a, h a ha, hfg a ha b hfa⟩

end Rules

theorem mapErr {E : Type u} {E' : Type w} {A : Type v} {f : E → E'} {x y : Result E A}
    (h : Extends x y) : Extends (mapErr f x) (mapErr f y) := by
  intro a ha
  cases x with
  | ok b =>
    rw [h b rfl]
    exact ha
  | error stop =>
    cases stop with
    | err e => cases ha
    | panic => cases ha
    | fuel => cases ha

end Extends

end Extending

section Relating

universe u v

/-- The computations return related values, or stop for the same reason. -/
inductive Alike {E : Type u} {A B : Type v} (R : A → B → Prop) : Except E A → Except E B → Prop
  | ok {a : A} {b : B} : R a b → Alike R (.ok a) (.ok b)
  | error (e : E) : Alike R (.error e) (.error e)

/-- Related states with the same result. -/
def WithResult {S T R : Type v} (P : S → T → Prop) (p : S × R) (q : T × R) : Prop :=
  P p.1 q.1 ∧ p.2 = q.2

namespace Alike

section Rules

variable {E : Type u} {A B C D : Type v} {R : A → B → Prop} {Q : C → D → Prop}
  {x : Except E A} {y : Except E B}

theorem refl (x : Except E A) : Alike Eq x x := by
  cases x with
  | ok a => exact ok rfl
  | error e => exact error e

theorem bind {f : A → Except E C} {g : B → Except E D} (h : Alike R x y)
    (hfg : ∀ a b, x = .ok a → y = .ok b → R a b → Alike Q (f a) (g b)) :
    Alike Q (x >>= f) (y >>= g) := by
  cases h with
  | ok hab => exact hfg _ _ rfl rfl hab
  | error e => exact error e

theorem mono {R' : A → B → Prop} (h : Alike R x y) (himp : ∀ a b, R a b → R' a b) :
    Alike R' x y := by
  cases h with
  | ok hab => exact ok (himp _ _ hab)
  | error e => exact error e

theorem map {f : A → C} {g : B → D} (h : Alike R x y) (hfg : ∀ a b, R a b → Q (f a) (g b)) :
    Alike Q (x.map f) (y.map g) := by
  cases h with
  | ok hab => exact ok (hfg _ _ hab)
  | error e => exact error e

end Rules

section Lists

variable {E E' S T A : Type v} {R : S → T → Prop}

/-- Updates that go alike from related states, one after another. -/
theorem forEach {f : S → A → Result E S} {g : T → A → Result E T} {as : List A}
    (hstep : ∀ a ∈ as, ∀ s t, R s t → Alike R (f s a) (g t a)) {s : S} {t : T} (hst : R s t) :
    Alike (WithResult R) (forEach f s as : Result E' _) (forEach g t as) := by
  induction as generalizing s t with
  | nil => exact ok ⟨hst, rfl⟩
  | cons a as ih =>
    have ih := fun {s t} => ih (s := s) (t := t) fun b hb => hstep b (List.mem_cons_of_mem a hb)
    have hone := hstep a List.mem_cons_self s t hst
    unfold Oikos.forEach
    generalize hx : f s a = x at hone ⊢
    generalize hy : g t a = y at hone ⊢
    cases hone with
    | ok hst' => exact ih hst'
    | error stop =>
      cases stop with
      | err e => exact ok ⟨hst, rfl⟩
      | panic => exact error Stop.panic
      | fuel => exact error Stop.fuel

end Lists

end Alike

end Relating

end Oikos
