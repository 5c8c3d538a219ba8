/-
Three-valued logic: formulas over leaves that may be unknown, their value by
Kleene's tables, and their value when truth values are put for the unknown
leaves.
-/
import Mathlib.Data.Bool.Basic

namespace Oikos

universe u

/-- Kleene's truth values. -/
inductive Truth where
  | no
  | unknown
  | yes
deriving Repr, DecidableEq

namespace Truth

def ofBool (b : Bool) : Truth :=
  if b then .yes else .no

def not : Truth → Truth
  | .no => .yes
  | .unknown => .unknown
  | .yes => .no

def and : Truth → Truth → Truth
  | .no, _ => .no
  | _, .no => .no
  | .yes, .yes => .yes
  | _, _ => .unknown

def or : Truth → Truth → Truth
  | .yes, _ => .yes
  | _, .yes => .yes
  | .no, .no => .no
  | _, _ => .unknown

/-- The truth value with `b` put for `unknown`. -/
def decided (b : Bool) : Truth → Bool
  | .no => false
  | .unknown => b
  | .yes => true

variable {s t : Truth} {b : Bool}

@[simp] theorem decided_ofBool (c : Bool) : (ofBool b).decided c = b := by
  cases b <;> rfl

@[simp] theorem decided_false : t.decided false = true ↔ t = .yes := by
  cases t <;> simp [decided]

@[simp] theorem decided_true : t.decided true = false ↔ t = .no := by
  cases t <;> simp [decided]

@[simp] theorem not_eq_yes : t.not = .yes ↔ t = .no := by
  cases t <;> simp [not]

@[simp] theorem not_eq_no : t.not = .no ↔ t = .yes := by
  cases t <;> simp [not]

@[simp] theorem and_eq_yes : s.and t = .yes ↔ s = .yes ∧ t = .yes := by
  cases s <;> cases t <;> simp [and]

@[simp] theorem and_eq_no : s.and t = .no ↔ s = .no ∨ t = .no := by
  cases s <;> cases t <;> simp [and]

@[simp] theorem or_eq_yes : s.or t = .yes ↔ s = .yes ∨ t = .yes := by
  cases s <;> cases t <;> simp [or]

@[simp] theorem or_eq_no : s.or t = .no ↔ s = .no ∧ t = .no := by
  cases s <;> cases t <;> simp [or]

end Truth

/-- Formulas over leaves. -/
inductive Formula (L : Type u) where
  | leaf (l : L)
  | and (f g : Formula L)
  | or (f g : Formula L)
  | not (f : Formula L)

namespace Formula

variable {L : Type u} {v : L → Truth}

def leaves : Formula L → List L
  | .leaf l => [l]
  | .and f g => f.leaves ++ g.leaves
  | .or f g => f.leaves ++ g.leaves
  | .not f => f.leaves

/-- The value by Kleene's tables. -/
def kleene (v : L → Truth) : Formula L → Truth
  | .leaf l => v l
  | .and f g => (f.kleene v).and (g.kleene v)
  | .or f g => (f.kleene v).or (g.kleene v)
  | .not f => (f.kleene v).not

/-- The value with `even` put for the unknown leaves under an even number of
negations, and `odd` for those under an odd one. -/
def taking (v : L → Truth) : Bool → Bool → Formula L → Bool
  | even, _, .leaf l => (v l).decided even
  | even, odd, .and f g => f.taking v even odd && g.taking v even odd
  | even, odd, .or f g => f.taking v even odd || g.taking v even odd
  | even, odd, .not f => !f.taking v odd even

/-- Kleene's value is the two-valued one in the worst case and in the best. -/
theorem kleene_eq (f : Formula L) :
    (f.kleene v = .yes ↔ f.taking v false true = true) ∧
      (f.kleene v = .no ↔ f.taking v true false = false) := by
  induction f with
  | leaf l => exact ⟨Truth.decided_false.symm, Truth.decided_true.symm⟩
  | and f g hf hg =>
    constructor
    · rw [kleene, taking, Truth.and_eq_yes, hf.1, hg.1, Bool.and_eq_true]
    · rw [kleene, taking, Truth.and_eq_no, hf.2, hg.2, Bool.and_eq_false_iff]
  | or f g hf hg =>
    constructor
    · rw [kleene, taking, Truth.or_eq_yes, hf.1, hg.1, Bool.or_eq_true]
    · rw [kleene, taking, Truth.or_eq_no, hf.2, hg.2, Bool.or_eq_false_iff]
  | not f hf =>
    constructor
    · rw [kleene, taking, Truth.not_eq_yes, hf.2, Bool.not_eq_true']
    · rw [kleene, taking, Truth.not_eq_no, hf.1, Bool.not_eq_false']

/-- What is put for the unknown leaves under an odd number of negations does not
matter, if those under an even number are taken for false. -/
def Indifferent (v : L → Truth) (f : Formula L) : Prop :=
  f.taking v false false = f.taking v false true

theorem taking_false_iff {f : Formula L} :
    (f.taking v false false = true ↔ f.kleene v = .yes) ↔ f.Indifferent v := by
  rw [(kleene_eq f).1, Indifferent]
  exact Bool.eq_iff_iff.symm

end Formula

end Oikos
