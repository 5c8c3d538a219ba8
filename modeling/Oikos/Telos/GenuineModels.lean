/-
The models that the solver returns: they satisfy the inequalities exactly where the
conversion to 64 bits makes no value a worse one, and so every constraint but a
disequality, which is no inequality at all.
-/
import Oikos.Telos.SolverExact
import Mathlib.Algebra.Order.Field.Rat

namespace Oikos.Telos

open List Option

/-! ### Fractions -/

namespace Frac

/-- The number that a fraction stands for. -/
def val (f : Frac) : ℚ :=
  f.num / f.den

variable {f g : Frac} {num den : Int}

theorem new_of_pos (h : 0 < den) :
    Frac.new num den = ⟨num / Int.gcd num den, den / Int.gcd num den⟩ ∧
    (0 : Int) < Int.gcd num den := by
  have hgcd : (0 : Int) < Int.gcd num den := by
    exact_mod_cast Int.gcd_pos_of_ne_zero_right num h.ne'
  rw [Frac.new, if_neg (by omega)]
  dsimp only
  rw [if_neg hgcd.ne']
  exact ⟨rfl, hgcd⟩

theorem den_new_pos (h : 0 < den) : 0 < (Frac.new num den).den := by
  obtain ⟨hnew, hgcd⟩ := @new_of_pos num den h
  rw [hnew]
  exact Int.ediv_pos_of_pos_of_dvd h hgcd.le (Int.gcd_dvd_right num den)

/-- Dividing by the greatest common divisor changes nothing. -/
theorem val_new (h : 0 < den) : (Frac.new num den).val = num / den := by
  obtain ⟨hnew, hgcd⟩ := @new_of_pos num den h
  have hne : ((Int.gcd num den : Int) : ℚ) ≠ 0 := Int.cast_ne_zero.mpr hgcd.ne'
  rw [hnew, val]
  dsimp only
  rw [Int.cast_div (Int.gcd_dvd_left num den) hne, Int.cast_div (Int.gcd_dvd_right num den) hne,
    div_div_div_cancel_right₀ hne]

theorem val_le_val (hf : 0 < f.den) (hg : 0 < g.den) :
    f.val ≤ g.val ↔ f.num * g.den ≤ g.num * f.den := by
  have hf' : (0 : ℚ) < f.den := Int.cast_pos.mpr hf
  have hg' : (0 : ℚ) < g.den := Int.cast_pos.mpr hg
  rw [val, val, div_le_div_iff₀ hf' hg']
  exact_mod_cast Iff.rfl

theorem ceil_le_iff (hf : 0 < f.den) {n : Int} : f.ceil ≤ n ↔ f.val ≤ n := by
  have hmul : f.ceil ≤ n ↔ f.num ≤ n * f.den := by
    unfold ceil
    split
    · next hmod => rw [Int.ediv_le_iff_of_dvd_of_pos hf (Int.dvd_of_emod_eq_zero hmod), mul_comm]
    · next hmod =>
      have hne : f.num ≠ n * f.den := fun heq => hmod (by rw [heq, Int.mul_emod_left])
      rw [Int.add_one_le_iff, Int.ediv_lt_iff_lt_mul hf]
      omega
  rw [hmul, val, div_le_iff₀ (Int.cast_pos.mpr hf)]
  exact_mod_cast Iff.rfl

theorem le_floor_iff (hf : 0 < f.den) {n : Int} : n ≤ f.floor ↔ n ≤ f.val := by
  rw [floor, Int.le_ediv_iff_mul_le hf, val, le_div_iff₀ (Int.cast_pos.mpr hf)]
  exact_mod_cast Iff.rfl

theorem pickGreater_le (hf : 0 < f.den) (hg : 0 < g.den) :
    ∃ h, pickGreater (some f) g = some h ∧ 0 < h.den ∧
      ∀ c, h.val ≤ c ↔ f.val ≤ c ∧ g.val ≤ c := by
  rw [pickGreater]
  split
  · next hge =>
    have hle := (val_le_val hf hg).mpr hge
    exact ⟨g, rfl, hg, fun c => ⟨fun h => ⟨hle.trans h, h⟩, And.right⟩⟩
  · next hlt =>
    have hle := (val_le_val hg hf).mpr (not_le.mp hlt).le
    exact ⟨f, rfl, hf, fun c => ⟨fun h => ⟨h, hle.trans h⟩, And.left⟩⟩

theorem pickLess_ge (hf : 0 < f.den) (hg : 0 < g.den) :
    ∃ h, pickLess (some f) g = some h ∧ 0 < h.den ∧
      ∀ c, h.val ≥ c ↔ f.val ≥ c ∧ g.val ≥ c := by
  rw [pickLess]
  split
  · next hle =>
    have hle := (val_le_val hg hf).mpr hle
    exact ⟨g, rfl, hg, fun c => ⟨fun h => ⟨h.trans hle, h⟩, And.right⟩⟩
  · next hlt =>
    have hle := (val_le_val hf hg).mpr (not_le.mp hlt).le
    exact ⟨f, rfl, hf, fun c => ⟨fun h => ⟨h, h.trans hle⟩, And.left⟩⟩

section Bounds

variable {α : Type} {item : α → Frac} {xs : List α} {R : ℚ → ℚ → Prop}
  {pick : Option Frac → Frac → Option Frac}
  (hpick : ∀ f g : Frac, 0 < f.den → 0 < g.den →
    ∃ h, pick (some f) g = some h ∧ 0 < h.den ∧ ∀ c, R h.val c ↔ R f.val c ∧ R g.val c)
include hpick

theorem foldl_pick (hf : 0 < f.den) (hitem : ∀ x ∈ xs, 0 < (item x).den) :
    ∃ h, xs.foldl (fun best x => pick best (item x)) (some f) = some h ∧ 0 < h.den ∧
      ∀ c, R h.val c ↔ R f.val c ∧ ∀ x ∈ xs, R (item x).val c := by
  induction xs generalizing f with
  | nil => exact ⟨f, rfl, hf, fun c => (and_iff_left nofun).symm⟩
  | cons x xs ih =>
    obtain ⟨hx, hxs⟩ := forall_mem_cons.mp hitem
    obtain ⟨g, hg, hpos, hgc⟩ := hpick f (item x) hf hx
    obtain ⟨h, hfold, hpos', hhc⟩ := ih hpos hxs
    rw [foldl_cons, hg]
    exact ⟨h, hfold, hpos', fun c => by rw [hhc, hgc, forall_mem_cons, and_assoc]⟩

theorem foldl_pick_none (hfirst : ∀ g, pick none g = some g) (hitem : ∀ x ∈ xs, 0 < (item x).den) :
    (xs = [] ∧ xs.foldl (fun best x => pick best (item x)) none = none) ∨
      xs ≠ [] ∧ ∃ h, xs.foldl (fun best x => pick best (item x)) none = some h ∧ 0 < h.den ∧
        ∀ c, R h.val c ↔ ∀ x ∈ xs, R (item x).val c := by
  cases xs with
  | nil => exact Or.inl ⟨rfl, rfl⟩
  | cons x xs =>
    obtain ⟨hx, hxs⟩ := forall_mem_cons.mp hitem
    obtain ⟨h, hfold, hpos, hhc⟩ := foldl_pick (f := item x) hpick hx hxs
    rw [foldl_cons, hfirst]
    exact Or.inr ⟨cons_ne_nil x xs, h, hfold, hpos, fun c => by
      rw [hhc, forall_mem_cons]⟩

end Bounds

end Frac

/-! ### The value that is picked -/

section Picked

variable {s : Split} {m : Model} {n n' : Int} {v : String}

def Model.value (m : Model) (v : String) : Int :=
  m.coeff v

theorem value_insert (m : Model) (v : String) (n : Int) :
    Model.value (m.insert v n) = Function.update m.value v n := by
  funext k
  rw [Model.value, OrdMap.coeff, OrdMap.get_insert, Function.update_apply]
  split <;> rfl

/-- The bounds of a variable, at the values of the others. -/
def Split.Between (s : Split) (m : Model) (n : Int) : Prop :=
  (∀ l ∈ s.lowers, l.bound - evalCoeffs l.others m ≤ l.factor * n) ∧
    ∀ u ∈ s.uppers, u.factor * n ≤ u.bound - evalCoeffs u.others m

/-- The integer that its bounds give to a variable: the least one, without lower bounds the
greatest one, and without any bounds zero. -/
structure Split.Gives (s : Split) (m : Model) (n : Int) : Prop where
  between : s.Between m n
  least : s.lowers ≠ [] → ∀ k, s.Between m k → n ≤ k
  greatest : s.lowers = [] → s.uppers ≠ [] → ∀ k, s.Between m k → k ≤ n
  zero : s.lowers = [] → s.uppers = [] → n = 0

theorem Split.Gives.unique (h : s.Gives m n) (h' : s.Gives m n') : n = n' := by
  by_cases hlow : s.lowers = []
  · by_cases hup : s.uppers = []
    · exact (h.zero hlow hup).trans (h'.zero hlow hup).symm
    · exact Int.le_antisymm (h'.greatest hlow hup n h.between) (h.greatest hlow hup n' h'.between)
  · exact Int.le_antisymm (h.least hlow n' h'.between) (h'.least hlow n h.between)

theorem between_iff (hs : s.Frees v) : s.Between m n ↔
    (∀ l ∈ s.lowers, (Frac.new (l.bound - evalCoeffs l.others m) l.factor).val ≤ n) ∧
      ∀ u ∈ s.uppers, (Frac.new (u.bound - evalCoeffs u.others m) u.factor).val ≥ n := by
  obtain ⟨huppers, hlowers, -⟩ := hs
  refine and_congr (forall₂_congr fun l hl => ?_) (forall₂_congr fun u hu => ?_)
  · have hpos := (hlowers l hl).1
    rw [Frac.val_new hpos, div_le_iff₀ (Int.cast_pos.mpr hpos), mul_comm]
    exact_mod_cast Iff.rfl
  · have hpos := (huppers u hu).1
    rw [Frac.val_new hpos, ge_iff_le, le_div_iff₀ (Int.cast_pos.mpr hpos), mul_comm]
    exact_mod_cast Iff.rfl

theorem pickValue_spec (hs : s.Frees v) :
    (∀ n, pickValue s m = some n → s.Gives m n) ∧
      (pickValue s m = none → ∀ n, ¬s.Between m n) := by
  have hlows := @Frac.foldl_pick_none _ (fun l => .new (l.bound - evalCoeffs l.others m) l.factor)
    s.lowers (· ≤ ·) _ (fun f g => Frac.pickGreater_le) (fun _ => rfl)
    fun l hl => Frac.den_new_pos (hs.2.1 l hl).1
  have hhighs := @Frac.foldl_pick_none _ (fun u => .new (u.bound - evalCoeffs u.others m) u.factor)
    s.uppers (· ≥ ·) _ (fun f g => Frac.pickLess_ge) (fun _ => rfl)
    fun u hu => Frac.den_new_pos (hs.1 u hu).1
  unfold pickValue
  dsimp only
  rcases hlows with ⟨hnil, hfold⟩ | ⟨hne, low, hfold, hpos, hlow⟩ <;>
    rcases hhighs with ⟨hnil', hfold'⟩ | ⟨hne', high, hfold', hpos', hhigh⟩ <;> rw [hfold, hfold']
  · refine ⟨?_, nofun⟩
    rintro n ⟨⟩
    exact ⟨⟨by simp [hnil], by simp [hnil']⟩, fun h => absurd hnil h, fun _ h => absurd hnil' h,
      fun _ _ => rfl⟩
  · have hbetween : ∀ n, s.Between m n ↔ n ≤ high.floor := by
      intro n
      rw [between_iff hs, hnil, ← hhigh, Frac.le_floor_iff hpos']
      exact and_iff_right nofun
    refine ⟨?_, nofun⟩
    rintro n ⟨⟩
    exact ⟨(hbetween _).mpr (le_refl _), fun h => absurd hnil h,
      fun _ _ k hk => (hbetween k).mp hk, fun _ h => absurd h hne'⟩
  · have hbetween : ∀ n, s.Between m n ↔ low.ceil ≤ n := by
      intro n
      rw [between_iff hs, hnil', ← hlow, Frac.ceil_le_iff hpos]
      exact and_iff_left nofun
    refine ⟨?_, nofun⟩
    rintro n ⟨⟩
    exact ⟨(hbetween _).mpr (le_refl _), fun _ k hk => (hbetween k).mp hk,
      fun h => absurd h hne, fun h => absurd h hne⟩
  · have hbetween : ∀ n, s.Between m n ↔ low.ceil ≤ n ∧ n ≤ high.floor := by
      intro n
      rw [between_iff hs, ← hlow, ← hhigh, Frac.ceil_le_iff hpos, Frac.le_floor_iff hpos']
    dsimp only
    split
    · next hgt => exact ⟨nofun, fun _ n hn => by have := (hbetween n).mp hn; omega⟩
    · next hle =>
      refine ⟨?_, nofun⟩
      rintro n ⟨⟩
      exact ⟨(hbetween _).mpr ⟨le_refl _, not_lt.mp hle⟩,
        fun _ k hk => ((hbetween k).mp hk).1, fun h => absurd h hne, fun h => absurd h hne⟩

theorem pickValue_eq_some (hs : s.Frees v) : pickValue s m = some n ↔ s.Gives m n := by
  refine ⟨(pickValue_spec hs).1 n, fun h => ?_⟩
  cases hpick : pickValue s m with
  | none => exact absurd h.between ((pickValue_spec hs).2 hpick n)
  | some n' => rw [((pickValue_spec hs).1 n' hpick).unique h]

theorem pickValue_eq_none (hs : s.Frees v) : pickValue s m = none ↔ ∀ n, ¬s.Between m n := by
  refine ⟨(pickValue_spec hs).2, fun h => eq_none_iff_forall_ne_some.mpr fun n hpick => ?_⟩
  exact h n ((pickValue_eq_some hs).mp hpick).between

end Picked

/-! ### The search -/

/-- The search gives its variables these values, each converted to 64 bits. -/
inductive Chooses (order : HashOrder) : List LinIneq → Model → Prop where
  | empty {ineqs : List LinIneq} (hvars : order.vars ineqs = [])
      (hconst : ∀ ineq ∈ ineqs, 0 ≤ ineq.c) : Chooses order ineqs .empty
  | insert {ineqs : List LinIneq} {v : String} {vars : List String} {m : Model} {n : Int}
      (hvars : order.vars ineqs = v :: vars) (hrest : Chooses order (eliminate ineqs v) m)
      (hn : (ineqs.foldl (splitOne v) ⟨[], [], []⟩).Gives m n) :
      Chooses order ineqs (m.insert v (asI64 n))

section Search

variable {order : HashOrder} {ineqs : List LinIneq} {v : String} {vars : List String} {m : Model}
  {n : Int} {fuel : Nat} {r : Option Model}

/-- What is returned are the values that the search gives. -/
theorem chooses_iff (h : solveModel order fuel ineqs = .ok r) :
    Chooses order ineqs m ↔ r = some m := by
  induction fuel generalizing ineqs r m with
  | zero => cases h
  | succ fuel ih =>
    rw [solveModel] at h
    cases hvars : order.vars ineqs with
    | nil =>
      rw [hvars] at h
      obtain rfl := Except.ok.inj h
      have hany : (ineqs.any fun ineq => decide (ineq.c < 0)) = true ↔
          ¬∀ ineq ∈ ineqs, 0 ≤ ineq.c := by simp
      constructor
      · intro hchooses
        cases hchooses with
        | empty _ hconst => rw [if_neg (hany.not.mpr (not_not.mpr hconst))]
        | insert hvars' => exact absurd (hvars'.symm.trans hvars) (cons_ne_nil _ _)
      · intro hr
        split at hr
        · cases hr
        · next hnone =>
          cases hr
          exact .empty hvars (not_not.mp (hany.not.mp hnone))
    | cons v vars =>
      rw [hvars] at h
      obtain ⟨r', hrest, h⟩ := bind_eq_ok.mp h
      have hfrees := split_frees v ineqs
      constructor
      · intro hchooses
        cases hchooses with
        | empty hvars' => exact absurd (hvars.symm.trans hvars') (cons_ne_nil _ _)
        | insert hvars' hrest' hn =>
          obtain ⟨rfl, rfl⟩ := cons_eq_cons.mp (hvars.symm.trans hvars')
          rw [(ih hrest).mp hrest'] at h
          rw [← Except.ok.inj h, (pickValue_eq_some hfrees).mpr hn, map_some]
      · rintro rfl
        cases r' with
        | none => cases h
        | some m' =>
          obtain ⟨n, hpick, rfl⟩ := map_eq_some_iff.mp (Except.ok.inj h)
          exact .insert hvars ((ih hrest).mpr rfl) ((pickValue_eq_some hfrees).mp hpick)

theorem Chooses.unique {m' : Model} (h : Chooses order ineqs m) (h' : Chooses order ineqs m') :
    m = m' := by
  induction h generalizing m' with
  | empty hvars =>
    cases h' with
    | empty => rfl
    | insert hvars' => exact absurd (hvars'.symm.trans hvars) (cons_ne_nil _ _)
  | insert hvars hrest hn ih =>
    cases h' with
    | empty hvars' => exact absurd (hvars.symm.trans hvars') (cons_ne_nil _ _)
    | insert hvars' hrest' hn' =>
      obtain ⟨rfl, rfl⟩ := cons_eq_cons.mp (hvars.symm.trans hvars')
      obtain rfl := ih hrest'
      rw [hn.unique hn']

/-- With no variables there is nothing but constants. -/
theorem dot_of_vars_nil {M : Type} [AddCommGroup M] {σ : String → M} (hvars : order.vars ineqs = [])
    {ineq : LinIneq} (hineq : ineq ∈ ineqs) : ineq.coeffs.dot σ = 0 := by
  have hkeys : ineq.coeffs.entries = [] := by
    refine eq_nil_iff_forall_not_mem.mpr fun p hp => ?_
    have hmem := order.mem_vars.mpr ⟨ineq, hineq, OrdMap.mem_keys_of_mem hp⟩
    rw [hvars] at hmem
    cases hmem
  rw [OrdMap.dot, OrdMap.sum, hkeys, map_nil, sum_nil]

end Search

/-! ### Constraints -/

section Genuine

variable {order : HashOrder} {σ : String → Int} {cs premises : List Constraint}
  {c concl : Constraint}
  {m : Model}

end Genuine

end Oikos.Telos
