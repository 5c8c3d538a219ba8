/-
Computations that change a state and may stop; what they changed before they
stopped stays changed.
-/
import Oikos.Lib.Run

namespace Oikos

universe u v

def Effect (S : Type u) (E : Type u) (α : Type u) := S → Result E α × S

namespace Effect

variable {S T E E' α β : Type u}

/-- Go on with the value, unless there is none. -/
def andThen (x : Effect S E α) (f : α → Effect S E β) : Effect S E β := fun s =>
  match x s with
  | (.ok a, s') => f a s'
  | (.error stop, s') => (.error stop, s')

instance : Monad (Effect S E) where
  pure a := fun s => (.ok a, s)
  bind := andThen

/-- A result that does not touch the state. -/
def lift (r : Result E α) : Effect S E α := fun s => (r, s)

def gets (f : S → α) : Effect S E α := fun s => (.ok (f s), s)

/-- Work on a part of the state; errors become those of the whole. -/
def within (part : S → T) (put : T → S → S) (wrap : E → E') (x : Effect T E α) : Effect S E' α :=
  fun s => (Oikos.mapErr wrap (x (part s)).1, put (x (part s)).2 s)

/-- Turn the errors into others. -/
def mapErr (wrap : E → E') (x : Effect S E α) : Effect S E' α :=
  fun s => (Oikos.mapErr wrap (x s).1, (x s).2)

variable {x : Effect S E α} {f : α → Effect S E β} {s s' : S} {a : α} {b : β} {stop : Stop E}

@[simp] theorem pure_apply (a : α) (s : S) : (pure a : Effect S E α) s = (.ok a, s) := rfl

theorem lift_eq {r r' : Result E α} : lift r s = (r', s') ↔ r = r' ∧ s = s' :=
  Prod.mk_inj

theorem bind_of_ok (h : x s = (.ok a, s')) : (x >>= f) s = f a s' := by
  change andThen x f s = f a s'
  rw [andThen, h]

theorem bind_of_error (h : x s = (.error stop, s')) : (x >>= f) s = (.error stop, s') := by
  change andThen x f s = (.error stop, s')
  rw [andThen, h]

/-- A sequence returns a value exactly when both parts do. -/
theorem bind_eq_ok : (x >>= f) s = (.ok b, s') ↔ ∃ a t, x s = (.ok a, t) ∧ f a t = (.ok b, s') := by
  rcases hx : x s with ⟨r, t⟩
  cases r with
  | ok a => simp [bind_of_ok hx]
  | error stop => simp [bind_of_error hx]

/-- Whatever comes of a sequence: the first part stops, or the second takes over. -/
theorem bind_cases {r : Result E β} (h : (x >>= f) s = (r, s')) :
    (∃ stop, x s = (.error stop, s') ∧ r = .error stop) ∨
      ∃ a t, x s = (.ok a, t) ∧ f a t = (r, s') := by
  rcases hx : x s with ⟨first, t⟩
  cases first with
  | ok a =>
    rw [bind_of_ok hx] at h
    exact .inr ⟨a, t, rfl, h⟩
  | error stop =>
    rw [bind_of_error hx] at h
    cases h
    exact .inl ⟨stop, rfl, rfl⟩

/-! ### What a computation leaves alone -/

/-- The computation does not change a part of the state, even where it stops. -/
def Keeps {V : Type v} (view : S → V) (x : Effect S E α) : Prop :=
  ∀ s, view (x s).2 = view s

namespace Keeps

variable {V : Type v} {view : S → V}

theorem pure (a : α) : Keeps view (Pure.pure a : Effect S E α) :=
  fun _ => rfl

theorem lift (r : Result E α) : Keeps view (Effect.lift r : Effect S E α) :=
  fun _ => rfl

theorem bind (hx : Keeps view x) (hf : ∀ a, Keeps view (f a)) : Keeps view (x >>= f) := by
  intro s
  rcases hxs : x s with ⟨r, t⟩
  have ht : view t = view s := by
    rw [← hx s, hxs]
  cases r with
  | ok a => rw [bind_of_ok hxs, hf a t, ht]
  | error stop => rw [bind_of_error hxs, ht]

theorem forM {A : Type u} {g : A → Effect S E PUnit} {as : List A} (h : ∀ a, Keeps view (g a)) :
    Keeps view (as.forM g) := by
  induction as with
  | nil => exact pure _
  | cons a as ih => exact (h a).bind fun _ => ih

end Keeps

end Effect

end Oikos
