/-
Computations that may return an error, panic, or still be running when the
steps granted to them are used up, together with the `loop` construct and its
invariant-and-variant rule.
-/
import Mathlib.Logic.Relation
import Mathlib.Data.List.Forall2
import Mathlib.Algebra.Order.Ring.Nat

namespace Oikos

open List

universe u v w

/-- Why a computation ended without a value: it returned an error, it panicked,
or it was still running when its fuel was used up. -/
inductive Stop (E : Type u) where
  | err (e : E)
  | panic
  | fuel
deriving Repr, DecidableEq

/-- A value, or the reason why there is none. -/
abbrev Result (E : Type u) (α : Type v) := Except (Stop E) α

section Bind

variable {E : Type u} {α : Type v} {β : Type v}

@[simp] theorem ok_bind (x : α) (f : α → Except E β) :
    ((Except.ok x : Except E α) >>= f) = f x := rfl

@[simp] theorem error_bind (e : E) (f : α → Except E β) :
    ((Except.error e : Except E α) >>= f) = .error e := rfl

/-- A sequence returns a value exactly when both parts do. -/
theorem bind_eq_ok {x : Except E α} {f : α → Except E β} {b : β} :
    (x >>= f) = .ok b ↔ ∃ a, x = .ok a ∧ f a = .ok b := by
  cases x <;> simp

/-- A sequence stops where its first part does, or where it goes on to stop. -/
theorem bind_eq_error {x : Except E α} {f : α → Except E β} {e : E} :
    (x >>= f) = .error e ↔ x = .error e ∨ ∃ a, x = .ok a ∧ f a = .error e := by
  cases x <;> simp

/-- Sequences agree when they go on alike from what the first part returns. -/
theorem bind_congr_ok {x : Except E α} {f g : α → Except E β} (h : ∀ a, x = .ok a → f a = g a) :
    (x >>= f) = (x >>= g) := by
  cases x with
  | ok a => exact h a rfl
  | error e => rfl

/-- `?` on a plain result. -/
def ofExcept : Except E α → Result E α
  | .ok x => .ok x
  | .error e => .error (.err e)

/-- `map_err`: panics and running out of fuel are no errors of the computation. -/
def mapErr {E' : Type w} (f : E → E') : Result E α → Result E' α
  | .ok x => .ok x
  | .error (.err e) => .error (.err (f e))
  | .error .panic => .error .panic
  | .error .fuel => .error .fuel

/-- Take the error that a computation returns as its value. -/
def catchErr {E' : Type w} : Result E α → Result E' (Except E α)
  | .ok x => .ok (.ok x)
  | .error (.err e) => .ok (.error e)
  | .error .panic => .error .panic
  | .error .fuel => .error .fuel

theorem catchErr_eq_ok {E' : Type w} {x : Result E α} {r : Except E α}
    (h : (catchErr x : Result E' (Except E α)) = .ok r) :
    (∃ a, r = .ok a ∧ x = .ok a) ∨ ∃ e, r = .error e ∧ x = .error (.err e) := by
  cases x with
  | ok a =>
    cases h
    exact Or.inl ⟨a, rfl, rfl⟩
  | error stop =>
    cases stop with
    | err e =>
      cases h
      exact Or.inr ⟨e, rfl, rfl⟩
    | panic => cases h
    | fuel => cases h

theorem ofExcept_eq_ok {x : Except E α} {a : α} (h : ofExcept x = .ok a) : x = .ok a := by
  cases x with
  | ok b =>
    cases h
    rfl
  | error e => cases h

end Bind

section Stops

variable {E : Type u} {α β : Type v}

/-- If the computation stops, it does so for a reason of this kind. -/
def Stops (P : Stop E → Prop) (x : Result E α) : Prop :=
  ∀ stop, x = .error stop → P stop

namespace Stops

variable {P : Stop E → Prop}

theorem ok (a : α) : Stops P (.ok a : Result E α) := by
  intro stop h
  cases h

theorem error {stop : Stop E} (h : P stop) : Stops P (.error stop : Result E α) := by
  intro stop' h'
  cases h'
  exact h

theorem bind {x : Result E α} {f : α → Result E β} (hx : Stops P x)
    (hf : ∀ a, x = .ok a → Stops P (f a)) : Stops P (x >>= f) := by
  intro stop h
  rcases bind_eq_error.mp h with h | ⟨a, ha, h⟩
  · exact hx stop h
  · exact hf a ha stop h

end Stops

end Stops

/-- One turn of a `loop`: go round again from a new state, or leave it. -/
inductive Turn (S : Type u) (R : Type v) where
  | again (s : S)
  | leave (r : R)
deriving Repr, DecidableEq

section Loop

variable {E : Type u} {S : Type v} {R : Type w}

/-- A `loop` whose body is run at most `n` times. -/
def loop (body : S → Result E (Turn S R)) : Nat → S → Result E R
  | 0, _ => .error .fuel
  | n + 1, s =>
    match body s with
    | .ok (.again s') => loop body n s'
    | .ok (.leave r) => .ok r
    | .error e => .error e

/-- `s'` is the state of the next turn after `s`. -/
def Next (body : S → Result E (Turn S R)) (s s' : S) : Prop :=
  body s = .ok (.again s')

/-- The states in which the loop started at `s` begins a turn. -/
def Visits (body : S → Result E (Turn S R)) : S → S → Prop :=
  Relation.ReflTransGen (Next body)

theorem loop_succ_of_next {body : S → Result E (Turn S R)} {s s' : S}
    (h : Next body s s') (n : Nat) : loop body (n + 1) s = loop body n s' := by
  have hb : body s = .ok (.again s') := h
  simp [loop, hb]

theorem loop_succ_of_leave {body : S → Result E (Turn S R)} {s : S} {r : R}
    (h : body s = .ok (.leave r)) (n : Nat) : loop body (n + 1) s = .ok r := by
  simp [loop, h]

theorem Visits.preserves {body : S → Result E (Turn S R)} {P : S → Prop} {s s' : S}
    (h : Visits body s s') (hs : P s)
    (hstep : ∀ a b, P a → Next body a b → P b) : P s' := by
  induction h with
  | refl => exact hs
  | tail _ hnext ih => exact hstep _ _ ih hnext

/-- The loop rule.  Under the invariant `P` each turn either leaves with a
result that satisfies `Q`, or goes on in a state of smaller variant from which
every satisfactory result is satisfactory for the state it came from. -/
theorem loop_rule (body : S → Result E (Turn S R)) (P : S → Prop) (variant : S → Nat)
    (Q : S → R → Prop)
    (turn : ∀ s, P s →
      (∃ r, body s = .ok (.leave r) ∧ Q s r) ∨
      (∃ s', Next body s s' ∧ P s' ∧ variant s' < variant s ∧ ∀ r, Q s' r → Q s r))
    {n : Nat} {s : S} (hs : P s) (hn : variant s < n) :
    ∃ r, loop body n s = .ok r ∧ Q s r := by
  induction n generalizing s with
  | zero => omega
  | succ n ih =>
    rcases turn s hs with ⟨r, hleave, hq⟩ | ⟨s', hnext, hs', hlt, hback⟩
    · exact ⟨r, loop_succ_of_leave hleave n, hq⟩
    · obtain ⟨r, hr, hq⟩ := ih hs' (by omega)
      exact ⟨r, by rw [loop_succ_of_next hnext, hr], hback r hq⟩

end Loop

section Lists

variable {E : Type u} {S A B : Type v} {as : List A} {bs : List B}

/-- The values that `f` returns for the elements of a list, up to the first
failure. -/
def collect (f : A → Result E (Option B)) : List A → Result E (List B)
  | [] => .ok []
  | a :: as => do
    let b ← f a
    let bs ← collect f as
    .ok (b.toList ++ bs)

theorem collect_congr {f g : A → Result E (Option B)} (h : ∀ a ∈ as, f a = g a) :
    collect f as = collect g as := by
  induction as with
  | nil => rfl
  | cons a as ih =>
    rw [collect, collect, h a mem_cons_self,
      ih fun x hx => h x (mem_cons_of_mem a hx)]

theorem collect_append (f : A → Result E (Option B)) (as more : List A) :
    collect f (as ++ more) =
      (collect f as >>= fun bs => collect f more >>= fun cs => .ok (bs ++ cs)) := by
  induction as with
  | nil =>
    simp only [nil_append, collect, ok_bind]
    cases collect f more <;> rfl
  | cons a as ih =>
    rw [cons_append, collect, collect, ih]
    cases f a with
    | error e => rfl
    | ok b =>
      cases collect f as with
      | error e => rfl
      | ok bs => cases collect f more <;> simp

theorem collect_none {f : A → Result E (Option B)} (h : ∀ a ∈ as, f a = .ok none) :
    collect f as = .ok [] := by
  induction as with
  | nil => rfl
  | cons a as ih =>
    rw [collect, h a mem_cons_self, ih fun x hx => h x (mem_cons_of_mem a hx)]
    rfl

theorem collect_ok {f : A → Result E (Option B)}
    (h : collect f as = .ok bs) : ∀ a ∈ as, ∃ r, f a = .ok r := by
  induction as generalizing bs with
  | nil => simp
  | cons a as ih =>
    simp only [collect, bind_eq_ok] at h
    obtain ⟨b, hb, rest, hrest, _⟩ := h
    intro x hx
    rcases mem_cons.mp hx with rfl | hx
    · exact ⟨b, hb⟩
    · exact ih hrest x hx

theorem collect_of_ok {f : A → Result E (Option B)} (h : ∀ a ∈ as, ∃ r, f a = .ok r) :
    ∃ bs, collect f as = .ok bs := by
  induction as with
  | nil => exact ⟨[], rfl⟩
  | cons a as ih =>
    obtain ⟨b, hb⟩ := h a mem_cons_self
    obtain ⟨bs, hbs⟩ := ih fun x hx => h x (mem_cons_of_mem a hx)
    exact ⟨b.toList ++ bs, by rw [collect, hb, hbs]; rfl⟩

theorem mem_collect {f : A → Result E (Option B)}
    (h : collect f as = .ok bs) (b : B) : b ∈ bs ↔ ∃ a ∈ as, f a = .ok (some b) := by
  induction as generalizing bs with
  | nil =>
    cases h
    simp
  | cons a as ih =>
    simp only [collect, bind_eq_ok] at h
    obtain ⟨r, hr, rest, hrest, hbs⟩ := h
    cases hbs
    rw [mem_append, ih hrest, Option.mem_toList]
    simp [hr]

theorem pairwise_collect {f : A → Result E (Option B)} {R : A → A → Prop}
    {Q : B → B → Prop} (h : collect f as = .ok bs) (hR : as.Pairwise R)
    (hf : ∀ a a' b b', R a a' → f a = .ok (some b) → f a' = .ok (some b') → Q b b') :
    bs.Pairwise Q := by
  induction as generalizing bs with
  | nil =>
    cases h
    exact Pairwise.nil
  | cons a as ih =>
    obtain ⟨ha, has⟩ := pairwise_cons.mp hR
    simp only [collect, bind_eq_ok] at h
    obtain ⟨r, hr, rest, hrest, hbs⟩ := h
    cases hbs
    have hpair := ih hrest has
    cases r with
    | none => simpa using hpair
    | some b =>
      refine pairwise_cons.mpr ⟨?_, hpair⟩
      intro b' hb'
      obtain ⟨a', ha', hfa'⟩ := (mem_collect hrest b').mp hb'
      exact hf a a' b b' (ha a' ha') hr hfa'

variable {f : A → Except E B}

theorem mapM_eq_ok :
    as.mapM f = .ok bs ↔ List.Forall₂ (fun a b => f a = .ok b) as bs := by
  induction as generalizing bs with
  | nil =>
    rw [mapM_nil, forall₂_nil_left_iff]
    exact ⟨fun h => by cases h; rfl, fun h => h ▸ rfl⟩
  | cons a as ih =>
    rw [mapM_cons, bind_eq_ok, forall₂_cons_left_iff]
    constructor
    · rintro ⟨b, hb, h⟩
      obtain ⟨rest, hrest, hbs⟩ := bind_eq_ok.mp h
      cases hbs
      exact ⟨b, rest, hb, ih.mp hrest, rfl⟩
    · rintro ⟨b, rest, hb, hrest, rfl⟩
      exact ⟨b, hb, bind_eq_ok.mpr ⟨rest, ih.mpr hrest, rfl⟩⟩

theorem mapM_getElem? (h : as.mapM f = .ok bs) (k : Nat) :
    (as[k]? = none ∧ bs[k]? = none) ∨
      ∃ a b, as[k]? = some a ∧ bs[k]? = some b ∧ f a = .ok b := by
  have hall := mapM_eq_ok.mp h
  clear h
  induction hall generalizing k with
  | nil => exact Or.inl ⟨rfl, rfl⟩
  | cons hab _ ih =>
    cases k with
    | zero => exact Or.inr ⟨_, _, rfl, rfl, hab⟩
    | succ k => simpa using ih k

theorem mapM_of_ok (h : ∀ a ∈ as, ∃ b, f a = .ok b) : ∃ bs, as.mapM f = .ok bs := by
  induction as with
  | nil => exact ⟨[], rfl⟩
  | cons a as ih =>
    obtain ⟨b, hb⟩ := h a mem_cons_self
    obtain ⟨bs, hbs⟩ := ih fun x hx => h x (mem_cons_of_mem a hx)
    exact ⟨b :: bs, by rw [mapM_cons, hb, ok_bind, hbs, ok_bind]; rfl⟩

theorem mapM_eq_map {g : A → B} (h : ∀ a ∈ as, f a = .ok (g a)) : as.mapM f = .ok (as.map g) := by
  rw [mapM_eq_ok, forall₂_map_right_iff, forall₂_same]
  exact h

theorem exists_of_mem_mapM {b : B}
    (h : as.mapM f = .ok bs) (hb : b ∈ bs) : ∃ a ∈ as, f a = .ok b := by
  obtain ⟨k, hk⟩ := getElem?_of_mem hb
  rcases mapM_getElem? h k with ⟨_, hnone⟩ | ⟨a, b', ha, hb', hf⟩
  · rw [hk] at hnone
    cases hnone
  · rw [hk] at hb'
    cases hb'
    exact ⟨a, mem_of_getElem? ha, hf⟩

theorem mapM_mem {a : A} (h : as.mapM f = .ok bs) (ha : a ∈ as) : ∃ b ∈ bs, f a = .ok b := by
  obtain ⟨k, hk⟩ := getElem?_of_mem ha
  rcases mapM_getElem? h k with ⟨hnone, _⟩ | ⟨a', b, ha', hb, hf⟩
  · rw [hk] at hnone
    cases hnone
  · rw [hk] at ha'
    cases ha'
    exact ⟨b, mem_of_getElem? hb, hf⟩

theorem length_of_mapM (h : as.mapM f = .ok bs) : bs.length = as.length :=
  (mapM_eq_ok.mp h).length_eq.symm

/-- Update a state for each element of a list, up to the first error; the updates
before it stay. -/
def forEach {E' : Type u} (f : S → A → Result E S) : S → List A → Result E' (S × Except E Unit)
  | s, [] => .ok (s, .ok ())
  | s, a :: as =>
    match f s a with
    | .ok s' => forEach f s' as
    | .error (.err e) => .ok (s, .error e)
    | .error .panic => .error .panic
    | .error .fuel => .error .fuel

theorem forEach_preserve {E' : Type u} {f : S → A → Result E S} {P : S → Prop}
    (hstep : ∀ s a s', P s → f s a = .ok s' → P s') {s s' : S}
    {r : Except E Unit} (hs : P s) (hrun : (forEach f s as : Result E' _) = .ok (s', r)) :
    P s' := by
  induction as generalizing s with
  | nil =>
    obtain ⟨rfl, _⟩ : s = s' ∧ .ok () = r := by simpa [forEach] using hrun
    exact hs
  | cons a as ih =>
    unfold forEach at hrun
    split at hrun
    · next s₁ hf => exact ih (hstep s a s₁ hs hf) hrun
    · obtain ⟨rfl, _⟩ : s = s' ∧ _ = r := by simpa using hrun
      exact hs
    · cases hrun
    · cases hrun

end Lists

section Steps

variable {E : Type u} {S : Type v} {A : Type w}

/-- A machine that takes one step for each event. -/
def steps (step : S → A → Result E S) : S → List A → Result E S
  | s, [] => .ok s
  | s, a :: as =>
    match step s a with
    | .ok s' => steps step s' as
    | .error e => .error e

theorem steps_preserve {step : S → A → Result E S} {P : S → Prop}
    (hstep : ∀ s a s', P s → step s a = .ok s' → P s') {as : List A} {s s' : S} (hs : P s)
    (hrun : steps step s as = .ok s') : P s' := by
  induction as generalizing s with
  | nil =>
    obtain rfl : s = s' := by simpa [steps] using hrun
    exact hs
  | cons a as ih =>
    cases ha : step s a with
    | ok s₁ => exact ih (hstep s a s₁ hs ha) (by simpa [steps, ha] using hrun)
    | error e => simp [steps, ha] at hrun

/-- Every event of a run meets a condition in the state in which it happens. -/
def StepsMeet (step : S → A → Result E S) (C : S → A → Prop) : S → List A → Prop
  | _, [] => True
  | s, a :: as => C s a ∧
    match step s a with
    | .ok s' => StepsMeet step C s' as
    | .error _ => True

/-- An invariant that the events keep where they meet the condition holds at the end. -/
theorem StepsMeet.preserve {step : S → A → Result E S} {C : S → A → Prop} {P : S → Prop}
    (hstep : ∀ s a s', P s → C s a → step s a = .ok s' → P s') {as : List A} {s s' : S} (hs : P s)
    (hmeet : StepsMeet step C s as) (hrun : steps step s as = .ok s') : P s' := by
  induction as generalizing s with
  | nil =>
    obtain rfl : s = s' := by simpa [steps] using hrun
    exact hs
  | cons a as ih =>
    cases ha : step s a with
    | ok s₁ =>
      have hrest : StepsMeet step C s₁ as := by simpa [StepsMeet, ha] using hmeet.2
      exact ih (hstep s a s₁ hs hmeet.1 ha) hrest (by simpa [steps, ha] using hrun)
    | error e => simp [steps, ha] at hrun

end Steps

end Oikos
