/-
Chains along a partial function that is defined at finitely many keys: they end, unless
they lead into a circle.
-/
import Mathlib.Data.Finset.Card
import Mathlib.Logic.Relation
import Mathlib.Logic.Function.Iterate

namespace Oikos

universe u

variable {K : Type u} (next : K → Option K)

/-- The chain from the key ends within a number of steps. -/
def endsWithin : Nat → K → Bool
  | 0, k => (next k).isNone
  | fuel + 1, k =>
    match next k with
    | none => true
    | some k' => endsWithin fuel k'

def Leads (a b : K) : Prop :=
  next a = some b

/-- The chain from the key leads into a circle. -/
def Circular (k : K) : Prop :=
  ∃ c, Relation.ReflTransGen (Leads next) k c ∧ Relation.TransGen (Leads next) c c

variable {next} {k k' : K} {fuel : Nat}

theorem endsWithin_of_none (h : next k = none) : endsWithin next fuel k = true := by
  cases fuel with
  | zero => rw [endsWithin, h, Option.isNone_none]
  | succ fuel => rw [endsWithin, h]

theorem endsWithin_succ (h : next k = some k') :
    endsWithin next (fuel + 1) k = endsWithin next fuel k' := by
  rw [endsWithin, h]

theorem endsWithin_zero (h : next k = some k') : endsWithin next 0 k = false := by
  rw [endsWithin, h, Option.isNone_some]

theorem Circular.exists_next (h : Circular next k) : ∃ k', next k = some k' ∧ Circular next k' := by
  obtain ⟨c, hpath, hcircle⟩ := h
  rcases hpath.cases_head with rfl | ⟨k', hstep, hpath⟩
  · obtain ⟨k', hstep, hback⟩ := Relation.TransGen.head'_iff.mp hcircle
    exact ⟨k', hstep, k, hback, hcircle⟩
  · exact ⟨k', hstep, c, hpath, hcircle⟩

theorem Circular.mono {next' : K → Option K} (h : ∀ a b, next a = some b → next' a = some b)
    (hcircular : Circular next k) : Circular next' k := by
  obtain ⟨c, hpath, hcircle⟩ := hcircular
  exact ⟨c, Relation.ReflTransGen.mono h _ _ hpath, Relation.TransGen.mono h _ _ hcircle⟩

theorem Circular.endsWithin_eq_false (h : Circular next k) : endsWithin next fuel k = false := by
  induction fuel generalizing k with
  | zero =>
    obtain ⟨k', hstep, _⟩ := h.exists_next
    exact endsWithin_zero hstep
  | succ fuel ih =>
    obtain ⟨k', hstep, hnext⟩ := h.exists_next
    rw [endsWithin_succ hstep]
    exact ih hnext

/-- Steps along the function that stay where there is no next key. -/
def advance (next : K → Option K) (k : K) : K :=
  (next k).getD k

theorem isSome_advance (h : endsWithin next fuel k = false) {i : Nat} (hi : i ≤ fuel) :
    (next ((advance next)^[i] k)).isSome = true := by
  induction fuel generalizing k i with
  | zero =>
    obtain rfl : i = 0 := by omega
    cases hnext : next k with
    | none =>
      rw [endsWithin_of_none hnext] at h
      cases h
    | some k' => simp [hnext]
  | succ fuel ih =>
    cases hnext : next k with
    | none =>
      rw [endsWithin_of_none hnext] at h
      cases h
    | some k' =>
      rw [endsWithin_succ hnext] at h
      cases i with
      | zero => simp [hnext]
      | succ i =>
        have hadvance : advance next k = k' := by rw [advance, hnext, Option.getD_some]
        rw [Function.iterate_succ_apply, hadvance]
        exact ih h (Nat.le_of_succ_le_succ hi)

theorem circular_of_not_endsWithin {keys : List K} (hkeys : ∀ k, (next k).isSome = true → k ∈ keys)
    (hfuel : keys.length ≤ fuel) (h : endsWithin next fuel k = false) : Circular next k := by
  classical
  have hsome : ∀ i ≤ keys.length, (next ((advance next)^[i] k)).isSome = true :=
    fun i hi => isSome_advance h (hi.trans hfuel)
  have hstep : ∀ i ≤ keys.length,
      Leads next ((advance next)^[i] k) ((advance next)^[i + 1] k) := by
    intro i hi
    obtain ⟨k', hk'⟩ := Option.isSome_iff_exists.mp (hsome i hi)
    rw [Function.iterate_succ_apply', Leads, advance, hk', Option.getD_some]
  have hpath : ∀ i m, i + m ≤ keys.length + 1 →
      Relation.ReflTransGen (Leads next) ((advance next)^[i] k) ((advance next)^[i + m] k) := by
    intro i m
    induction m with
    | zero => exact fun _ => .refl
    | succ m ih => exact fun hm => (ih (by omega)).tail (hstep (i + m) (by omega))
  have hcard : keys.toFinset.card < (Finset.range (keys.length + 1)).card := by
    rw [Finset.card_range]
    exact Nat.lt_succ_of_le (List.toFinset_card_le keys)
  obtain ⟨x, hx, y, hy, hne, heq⟩ := Finset.exists_ne_map_eq_of_card_lt_of_maps_to hcard
    (f := fun i => (advance next)^[i] k) fun i hi =>
      List.mem_toFinset.mpr (hkeys _ (hsome i (Nat.le_of_lt_succ (Finset.mem_range.mp hi))))
  obtain ⟨a, b, hab, hb, heq⟩ : ∃ a b, a < b ∧ b ≤ keys.length ∧
      (advance next)^[a] k = (advance next)^[b] k := by
    have hx := Nat.le_of_lt_succ (Finset.mem_range.mp hx)
    have hy := Nat.le_of_lt_succ (Finset.mem_range.mp hy)
    rcases Nat.lt_or_gt_of_ne hne with hlt | hlt
    · exact ⟨x, y, hlt, hy, heq⟩
    · exact ⟨y, x, hlt, hx, heq.symm⟩
  have hfrom : Relation.ReflTransGen (Leads next) k ((advance next)^[a] k) := by
    simpa using hpath 0 a (by omega)
  have hback := hpath (a + 1) (b - (a + 1)) (by omega)
  rw [show a + 1 + (b - (a + 1)) = b by omega, ← heq] at hback
  exact ⟨_, hfrom, .head' (hstep a (by omega)) hback⟩

theorem endsWithin_iff {keys : List K} (hkeys : ∀ k, (next k).isSome = true → k ∈ keys)
    (hfuel : keys.length ≤ fuel) : endsWithin next fuel k = true ↔ ¬Circular next k := by
  constructor
  · intro h hcircular
    rw [hcircular.endsWithin_eq_false] at h
    cases h
  · intro h
    by_contra hends
    exact h (circular_of_not_endsWithin hkeys hfuel (Bool.eq_false_iff.mpr hends))

end Oikos
