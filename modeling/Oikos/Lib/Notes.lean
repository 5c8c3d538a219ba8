/-
What a parser takes and what it notes.  The state is a tape: the symbols that are still
to be read, and notes that the parser makes on the way and never looks at.
-/
import Oikos.Lib.Run

namespace Oikos

universe u v

structure Tape (τ ν : Type u) where
  rest : List τ
  notes : List ν

namespace Tape

variable {τ ν : Type u} {ε : Type v}

/-- The next symbol, or this error where there is none. -/
def peek (e : ε) : StateT (Tape τ ν) (Except ε) τ := fun t =>
  match t.rest with
  | [] => .error e
  | x :: _ => .ok (x, t)

/-- The next symbol, taken off. -/
def advance (e : ε) : StateT (Tape τ ν) (Except ε) τ := fun t =>
  match t.rest with
  | [] => .error e
  | x :: rest => .ok (x, { t with rest := rest })

def note (n : ν) : StateT (Tape τ ν) (Except ε) PUnit := fun t =>
  .ok (.unit, { t with notes := t.notes ++ [n] })

end Tape

/-- A condition that the rest of a tape meets when the tape does. -/
class Stays {τ : Type u} (Q : List τ → Prop) : Prop where
  rest : ∀ {xs rest}, Q (xs ++ rest) → Q rest

/-- From a tape that meets `Q` and `P`, a successful run takes symbols off the front and
makes notes, both related to its result by `G`. -/
def Takes {τ ν α : Type u} {ε : Type v} (Q P : List τ → Prop)
    (p : StateT (Tape τ ν) (Except ε) α) (G : α → List ν → List τ → Prop) : Prop :=
  ∀ ⦃t a t'⦄, Q t.rest → P t.rest → p t = .ok (a, t') →
    ∃ ls ns, t.rest = ls ++ t'.rest ∧ t'.notes = t.notes ++ ns ∧ G a ns ls

def NextIs {τ : Type u} (x : τ) (rest : List τ) : Prop :=
  rest.head? = some x

/-- Nothing is known of the tape. -/
def Anywhere {τ : Type u} (_ : List τ) : Prop :=
  True

namespace Takes

variable {τ ν α β : Type u} {ε : Type v} {Q P P' : List τ → Prop}
  {p : StateT (Tape τ ν) (Except ε) α} {f : α → StateT (Tape τ ν) (Except ε) β}
  {G G' : α → List ν → List τ → Prop} {K : β → List ν → List τ → Prop}

theorem pure {a : α} (h : G a [] []) :
    Takes Q P (Pure.pure a : StateT (Tape τ ν) (Except ε) α) G := by
  intro t b t' _ _ hrun
  cases hrun
  exact ⟨[], [], rfl, (List.append_nil _).symm, h⟩

theorem throw {e : ε} : Takes Q P (fun _ => .error e : StateT (Tape τ ν) (Except ε) α) G := by
  intro t a t' _ _ hrun
  cases hrun

theorem mono (hp : Takes Q P p G) (h : ∀ a ns ls, G a ns ls → G' a ns ls) : Takes Q P p G' := by
  intro t a t' hQ hP hrun
  obtain ⟨ls, ns, hrest, hnotes, hG⟩ := hp hQ hP hrun
  exact ⟨ls, ns, hrest, hnotes, h a ns ls hG⟩

theorem pre (hp : Takes Q P' p G) (h : ∀ rest, P rest → P' rest) : Takes Q P p G :=
  fun t _ _ hQ hP hrun => hp hQ (h t.rest hP) hrun

theorem headed {x : τ} (hp : Takes Q (NextIs x) p G) :
    Takes Q (NextIs x) p fun a ns ls => G a ns ls ∧ (ls ≠ [] → ls.head? = some x) := by
  intro t a t' hQ hP hrun
  obtain ⟨ls, ns, hrest, hnotes, hG⟩ := hp hQ hP hrun
  refine ⟨ls, ns, hrest, hnotes, hG, fun hne => ?_⟩
  rw [NextIs, hrest, List.head?_append_of_ne_nil ls hne] at hP
  exact hP

/-- What is taken from a tape that meets `Q` is the front of such a tape. -/
theorem front (hp : Takes Q P p G) :
    Takes Q P p fun a ns ls => G a ns ls ∧ ∃ rest, Q (ls ++ rest) := by
  intro t a t' hQ hP hrun
  obtain ⟨ls, ns, hrest, hnotes, hG⟩ := hp hQ hP hrun
  exact ⟨ls, ns, hrest, hnotes, hG, t'.rest, hrest ▸ hQ⟩

theorem peek {e : ε} {f : τ → StateT (Tape τ ν) (Except ε) β}
    (h : ∀ x, Takes Q (NextIs x) (f x) K) : Takes Q P (Tape.peek e >>= f) K := by
  intro t b t' hQ _ hrun
  obtain ⟨⟨x, t₁⟩, hx, hb⟩ := bind_eq_ok.mp hrun
  unfold Tape.peek at hx
  split at hx
  · cases hx
  · next y rest hrest =>
    cases hx
    exact h _ hQ (by rw [NextIs, hrest]; rfl) hb

theorem note {n : ν} {f : PUnit → StateT (Tape τ ν) (Except ε) β}
    (h : Takes Q Anywhere (f .unit) fun b ns ls => K b (n :: ns) ls) :
    Takes Q P (Tape.note n >>= f) K := by
  intro t b t' hQ _ hrun
  have hb : f .unit { t with notes := t.notes ++ [n] } = .ok (b, t') := hrun
  obtain ⟨ls, ns, hrest, hnotes, hK⟩ := @h { t with notes := t.notes ++ [n] } b t' hQ trivial hb
  exact ⟨ls, n :: ns, hrest, by rw [hnotes, List.append_assoc]; rfl, hK⟩

variable [Stays Q]

theorem bind (hp : Takes Q P p G)
    (hf : ∀ a ns ls, G a ns ls →
      Takes Q Anywhere (f a) fun b ns' ls' => K b (ns ++ ns') (ls ++ ls')) :
    Takes Q P (p >>= f) K := by
  intro t b t' hQ hP hrun
  obtain ⟨⟨a, t₁⟩, ha, hb⟩ := bind_eq_ok.mp hrun
  obtain ⟨ls, ns, hrest, hnotes, hG⟩ := hp hQ hP ha
  obtain ⟨ls', ns', hrest', hnotes', hK⟩ := hf a ns ls hG (Stays.rest (hrest ▸ hQ)) trivial hb
  exact ⟨ls ++ ls', ns ++ ns', by rw [hrest, hrest', List.append_assoc],
    by rw [hnotes', hnotes, List.append_assoc], hK⟩

theorem advance {e : ε} {x : τ} {f : τ → StateT (Tape τ ν) (Except ε) β}
    (h : Takes Q Anywhere (f x) fun b ns ls => K b ns (x :: ls)) :
    Takes Q (NextIs x) (Tape.advance e >>= f) K := by
  intro t b t' hQ hP hrun
  obtain ⟨⟨y, t₁⟩, hy, hb⟩ := bind_eq_ok.mp hrun
  unfold Tape.advance at hy
  split at hy
  · cases hy
  · next z rest hrest =>
    cases hy
    rw [NextIs, hrest] at hP
    cases hP
    rw [hrest] at hQ
    have hrest₁ : Q rest := Stays.rest (show Q ([x] ++ rest) from hQ)
    obtain ⟨ls, ns, hrest', hnotes, hK⟩ := h hrest₁ trivial hb
    exact ⟨x :: ls, ns, hrest.trans (congrArg (List.cons x) hrest'), hnotes, hK⟩

end Takes

end Oikos
