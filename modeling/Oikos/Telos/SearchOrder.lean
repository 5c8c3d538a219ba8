/-
What the order of the hash maps decides: never whether a system is refuted, but whether the
search for a model comes to an end, where coefficients are zero, and whether it finds one.
-/
import Oikos.Telos.GenuineModels

namespace Oikos.Telos

open List

/-! ### Coefficients that are zero -/

section Zero

variable {v k : String} {m : OrdMap String Int} {s : Split} {ineq : LinIneq} {ineqs : List LinIneq}
  {u l : VarBound}

end Zero

/-! ### The end of the search -/

section Ends

variable {order : HashOrder} {v k : String} {vars : List String} {ineqs : List LinIneq}

theorem solveModel_of_vars (hvars : order.vars ineqs = v :: vars) (fuel : Nat) :
    solveModel order (fuel + 1) ineqs = (do
      match ← solveModel order fuel (eliminate ineqs v) with
      | none => .ok none
      | some model => .ok ((pickValue (ineqs.foldl (splitOne v) ⟨[], [], []⟩) model).map fun n =>
        model.insert v (asI64 n))) := by
  rw [solveModel]
  generalize order.vars ineqs = vs at hvars ⊢
  subst hvars
  rfl

end Ends

/-! ### What the search finds -/

/-- There is a rational solution. -/
def Feasible (ineqs : List LinIneq) : Prop :=
  ∃ σ : String → ℚ, Meets σ ineqs

/-- The search comes to a variable between whose bounds there is no integer. -/
inductive GivesUp (order : HashOrder) : List LinIneq → Prop where
  | here {ineqs : List LinIneq} {v : String} {vars : List String} {m : Model}
      (hvars : order.vars ineqs = v :: vars) (hrest : Chooses order (eliminate ineqs v) m)
      (hnone : ∀ n, ¬(ineqs.foldl (splitOne v) ⟨[], [], []⟩).Between m n) : GivesUp order ineqs
  | later {ineqs : List LinIneq} {v : String} {vars : List String}
      (hvars : order.vars ineqs = v :: vars) (h : GivesUp order (eliminate ineqs v)) :
      GivesUp order ineqs

section Finds

variable {order : HashOrder} {v : String} {vars : List String} {ineqs : List LinIneq}

theorem feasible_eliminate : Feasible (eliminate ineqs v) ↔ Feasible ineqs := by
  constructor
  · rintro ⟨σ, hσ⟩
    obtain ⟨q, hq⟩ := exists_meets_of_eliminate hσ
    exact ⟨_, hq⟩
  · rintro ⟨σ, hσ⟩
    exact ⟨σ, eliminate_meets hσ⟩

theorem feasible_of_vars_nil (hvars : order.vars ineqs = []) :
    Feasible ineqs ↔ (ineqs.any fun ineq => decide (ineq.c < 0)) = false := by
  have hholds : ∀ σ : String → ℚ, ∀ ineq ∈ ineqs, ineq.Holds σ ↔ ¬ineq.c < 0 := by
    intro σ ineq hineq
    rw [LinIneq.Holds, dot_of_vars_nil hvars hineq, not_lt, Int.cast_nonneg_iff]
  rw [any_eq_false]
  simp only [decide_eq_true_eq]
  constructor
  · rintro ⟨σ, hσ⟩ ineq hineq
    exact (hholds σ ineq hineq).mp (hσ ineq hineq)
  · exact fun h => ⟨fun _ => 0, fun ineq hineq => (hholds _ ineq hineq).mpr (h ineq hineq)⟩

theorem isSome_iff {fuel : Nat} {r : Option Model} (h : solveModel order fuel ineqs = .ok r) :
    r.isSome = true ↔ Feasible ineqs ∧ ¬GivesUp order ineqs := by
  induction fuel generalizing ineqs r with
  | zero => cases h
  | succ fuel ih =>
    cases hvars : order.vars ineqs with
    | nil =>
      have hnot : ¬GivesUp order ineqs := by
        intro hgives
        cases hgives with
        | here hvars' => exact cons_ne_nil _ _ (hvars'.symm.trans hvars)
        | later hvars' => exact cons_ne_nil _ _ (hvars'.symm.trans hvars)
      rw [solveModel, hvars] at h
      obtain rfl := (Except.ok.inj h).symm
      rw [feasible_of_vars_nil hvars, and_iff_left hnot]
      split <;> simp_all
    | cons v vars =>
      rw [solveModel_of_vars hvars] at h
      obtain ⟨r', hrest, h⟩ := bind_eq_ok.mp h
      have hrest' := ih hrest
      rw [feasible_eliminate] at hrest'
      have hlater : ¬GivesUp order ineqs → ¬GivesUp order (eliminate ineqs v) :=
        fun hnot hgives => hnot (.later hvars hgives)
      cases r' with
      | none =>
        cases h
        refine iff_of_false Bool.false_ne_true ?_
        rintro ⟨hfeasible, hnot⟩
        exact Bool.false_ne_true (hrest'.mpr ⟨hfeasible, hlater hnot⟩)
      | some m =>
        obtain ⟨hfeasible, hnot'⟩ := hrest'.mp rfl
        obtain rfl := (Except.ok.inj h).symm
        rw [Option.isSome_map, and_iff_right hfeasible]
        constructor
        · intro hsome hgives
          cases hgives with
          | here hvars' hchosen hnone =>
            obtain ⟨rfl, rfl⟩ := cons_eq_cons.mp (hvars.symm.trans hvars')
            obtain rfl := Option.some.inj ((chooses_iff hrest).mp hchosen)
            rw [(pickValue_eq_none (split_frees v ineqs)).mpr hnone] at hsome
            cases hsome
          | later hvars' hgives =>
            obtain ⟨rfl, rfl⟩ := cons_eq_cons.mp (hvars.symm.trans hvars')
            exact hnot' hgives
        · intro hnot
          by_contra hnone
          have hpick := Option.not_isSome_iff_eq_none.mp hnone
          exact hnot (.here hvars ((chooses_iff hrest).mpr rfl)
            ((pickValue_eq_none (split_frees v ineqs)).mp hpick))

end Finds

/-! ### Refutation -/

/-- Some coefficient is not zero, or there is none; what has only zeros is never absurd. -/
def LinIneq.live (ineq : LinIneq) : Bool :=
  ineq.coeffs.entries.isEmpty || ineq.coeffs.entries.any fun p => decide (p.2 ≠ 0)

def Split.live (s : Split) : Split :=
  { s with rest := s.rest.filter LinIneq.live }

section Refutation

variable {order order' : HashOrder} {v : String} {vs : List String} {s : Split} {ineq : LinIneq}
  {ineqs : List LinIneq} {u l : VarBound} {cs : List Constraint}

end Refutation

/-! ### Orders -/

section Rows

variable {k : String} {rows : List (List String)} {ineqs : List LinIneq}

end Rows

end Oikos.Telos
