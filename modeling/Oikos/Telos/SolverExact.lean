/-
The solver is exact over the rationals: it refutes a system exactly when the tightened
inequalities have no rational solution, so that the order of its hash maps does not
matter, and its search for a model comes to an end.
-/
import Oikos.Telos.Verify
import Mathlib.Algebra.Order.Field.Basic
import Mathlib.Algebra.Order.Ring.Rat
import Mathlib.Data.Finset.Max
import Mathlib.Data.Finset.Order

namespace Oikos.Telos

open List

universe u

/-! ### The variables of a round -/

section Variables

variable {vars : List String} {v k : String} {m : OrdMap String Int} {s : Split} {ineq : LinIneq}
  {ineqs : List LinIneq} {u l : VarBound}

theorem mem_foldl_keys {ks : List String} :
    k ∈ ks.foldl (fun vars k => if k ∈ vars then vars else vars ++ [k]) vars ↔
    k ∈ vars ∨ k ∈ ks := by
  induction ks generalizing vars with
  | nil => simp
  | cons k' ks ih =>
    rw [foldl_cons, ih, mem_cons]
    split
    · next hmem =>
      constructor
      · rintro (h | h)
        · exact Or.inl h
        · exact Or.inr (Or.inr h)
      · rintro (h | rfl | h)
        · exact Or.inl h
        · exact Or.inl hmem
        · exact Or.inr h
    · rw [mem_append, mem_singleton, or_assoc]

/-- The variables of some rows, each once. -/
def rowVars (rows : List (List String)) : List String :=
  rows.foldl (fun vars row => row.foldl (fun vars k => if k ∈ vars then vars else vars ++ [k]) vars)
    []

theorem mem_rowVars {rows : List (List String)} : k ∈ rowVars rows ↔ ∃ row ∈ rows, k ∈ row := by
  have hfold : ∀ vars : List String, k ∈ rows.foldl (fun vars row =>
      row.foldl (fun vars k => if k ∈ vars then vars else vars ++ [k]) vars) vars ↔
        k ∈ vars ∨ ∃ row ∈ rows, k ∈ row := by
    induction rows with
    | nil => simp
    | cons row rows ih =>
      intro vars
      rw [foldl_cons, ih, mem_foldl_keys, exists_mem_cons_iff, or_assoc]
  rw [rowVars, hfold]
  simp

theorem systemVars_eq (ineqs : List LinIneq) :
    systemVars ineqs = rowVars (ineqs.map fun ineq => ineq.coeffs.keys) := by
  rw [systemVars, rowVars, foldl_map]

theorem mem_systemVars : k ∈ systemVars ineqs ↔ ∃ ineq ∈ ineqs, k ∈ ineq.coeffs.keys := by
  rw [systemVars_eq, mem_rowVars]
  simp only [mem_map, exists_exists_and_eq_and]

theorem HashOrder.mem_vars (order : HashOrder) :
    k ∈ order.vars ineqs ↔ ∃ ineq ∈ ineqs, k ∈ ineq.coeffs.keys :=
  (order.perm ineqs).mem_iff.trans mem_systemVars

/-- The variable of a round is in none of the parts of its split. -/
def Split.Frees (v : String) (s : Split) : Prop :=
  (∀ u ∈ s.uppers, 0 < u.factor ∧ u.others.coeff v = 0) ∧
    (∀ l ∈ s.lowers, 0 < l.factor ∧ l.others.coeff v = 0) ∧
    ∀ ineq ∈ s.rest, ineq.coeffs.coeff v = 0

theorem coeff_erase (m : OrdMap String Int) : (m.erase v).coeff v = 0 :=
  OrdMap.coeff_eq_zero fun h => (OrdMap.mem_keys_erase h).1 rfl

theorem coeff_map_neg (m : OrdMap String Int) (k : String) :
    (m.map fun c => -c).coeff k = -m.coeff k := by
  rw [OrdMap.coeff, OrdMap.get_map, OrdMap.coeff]
  cases m.get k <;> simp

def LinIneq.upper (v : String) (ineq : LinIneq) : VarBound :=
  ⟨ineq.coeffs.coeff v, ineq.c, ineq.coeffs.erase v⟩

/-- The lower bound on a variable that an inequality is, the signs turned. -/
def LinIneq.lower (v : String) (ineq : LinIneq) : VarBound :=
  ⟨-ineq.coeffs.coeff v, -ineq.c, (ineq.coeffs.erase v).map fun c => -c⟩

theorem splitOne_eq : splitOne v s ineq =
    if 0 < ineq.coeffs.coeff v then { s with uppers := s.uppers ++ [ineq.upper v] }
    else if ineq.coeffs.coeff v < 0 then { s with lowers := s.lowers ++ [ineq.lower v] }
    else { s with rest := s.rest ++ [ineq] } := by
  unfold splitOne LinIneq.upper LinIneq.lower
  cases hget : ineq.coeffs.get v with
  | none =>
    have hzero : ineq.coeffs.coeff v = 0 := by rw [OrdMap.coeff, hget, Option.getD_none]
    rw [hzero]
    rfl
  | some tv => rw [OrdMap.coeff_eq hget]

theorem foldl_splitOne_eq : ineqs.foldl (splitOne v) s =
    ⟨s.uppers ++ (ineqs.filter fun ineq => 0 < ineq.coeffs.coeff v).map (LinIneq.upper v),
      s.lowers ++ (ineqs.filter fun ineq => ineq.coeffs.coeff v < 0).map (LinIneq.lower v),
      s.rest ++ ineqs.filter fun ineq => ineq.coeffs.coeff v = 0⟩ := by
  induction ineqs generalizing s with
  | nil => simp
  | cons ineq ineqs ih =>
    rw [foldl_cons, ih, splitOne_eq]
    rcases lt_trichotomy 0 (ineq.coeffs.coeff v) with hpos | hzero | hneg
    · simp [hpos, hpos.ne', hpos.not_gt]
    · simp [← hzero]
    · simp [hneg, hneg.ne, hneg.not_gt]

/-- What a round makes of a system. -/
theorem mem_split : (∀ u, u ∈ (ineqs.foldl (splitOne v) ⟨[], [], []⟩).uppers ↔
      ∃ ineq ∈ ineqs, 0 < ineq.coeffs.coeff v ∧ ineq.upper v = u) ∧
    (∀ l, l ∈ (ineqs.foldl (splitOne v) ⟨[], [], []⟩).lowers ↔
      ∃ ineq ∈ ineqs, ineq.coeffs.coeff v < 0 ∧ ineq.lower v = l) ∧
    ∀ ineq, ineq ∈ (ineqs.foldl (splitOne v) ⟨[], [], []⟩).rest ↔
      ineq ∈ ineqs ∧ ineq.coeffs.coeff v = 0 := by
  rw [foldl_splitOne_eq]
  simp [and_assoc]

theorem forall_split {P Q : VarBound → Prop} {R : LinIneq → Prop}
    (hupper : ∀ ineq ∈ ineqs, 0 < ineq.coeffs.coeff v → P (ineq.upper v))
    (hlower : ∀ ineq ∈ ineqs, ineq.coeffs.coeff v < 0 → Q (ineq.lower v))
    (hrest : ∀ ineq ∈ ineqs, ineq.coeffs.coeff v = 0 → R ineq) :
    (∀ u ∈ (ineqs.foldl (splitOne v) ⟨[], [], []⟩).uppers, P u) ∧
      (∀ l ∈ (ineqs.foldl (splitOne v) ⟨[], [], []⟩).lowers, Q l) ∧
      ∀ ineq ∈ (ineqs.foldl (splitOne v) ⟨[], [], []⟩).rest, R ineq := by
  obtain ⟨huppers, hlowers, hkept⟩ := @mem_split v ineqs
  refine ⟨fun u hu => ?_, fun l hl => ?_, fun ineq hineq => ?_⟩
  · obtain ⟨ineq, hineq, hpos, rfl⟩ := (huppers u).mp hu
    exact hupper ineq hineq hpos
  · obtain ⟨ineq, hineq, hneg, rfl⟩ := (hlowers l).mp hl
    exact hlower ineq hineq hneg
  · obtain ⟨hineq, hzero⟩ := (hkept ineq).mp hineq
    exact hrest ineq hineq hzero

theorem split_frees (v : String) (ineqs : List LinIneq) :
    (ineqs.foldl (splitOne v) ⟨[], [], []⟩).Frees v := by
  refine forall_split (fun ineq _ hpos => ⟨hpos, coeff_erase _⟩) (fun ineq _ hneg => ?_)
    fun _ _ => id
  refine ⟨neg_pos.mpr hneg, ?_⟩
  rw [LinIneq.lower, coeff_map_neg, coeff_erase, neg_zero]

theorem dot_update_of_coeff {M : Type u} [AddCommGroup M] {σ : String → M}
    {coeffs : OrdMap String Int}
    (h : coeffs.coeff v = 0) (q : M) : coeffs.dot (Function.update σ v q) = coeffs.dot σ := by
  have hothers : (coeffs.erase v).dot (Function.update σ v q) = (coeffs.erase v).dot σ :=
    OrdMap.dot_congr fun k hk => Function.update_of_ne (OrdMap.mem_keys_erase hk).1 _ _
  cases hget : coeffs.get v with
  | none =>
    refine OrdMap.dot_congr fun k hk => Function.update_of_ne ?_ _ _
    rintro rfl
    exact OrdMap.get_eq_none.mp hget hk
  | some c =>
    obtain rfl : c = 0 := by rwa [OrdMap.coeff_eq hget] at h
    rw [OrdMap.dot_eq_add_erase hget, OrdMap.dot_eq_add_erase hget, hothers, zero_smul, zero_smul]

/-- The variables of a form are some of these, with coefficients that are not zero. -/
def Over (vars : List String) (m : OrdMap String Int) : Prop :=
  ∀ p ∈ m.entries, p.1 ∈ vars ∧ p.2 ≠ 0

def SystemOver (vars : List String) (ineqs : List LinIneq) : Prop :=
  ∀ ineq ∈ ineqs, Over vars ineq.coeffs

def Split.Over (vars : List String) (s : Split) : Prop :=
  (∀ u ∈ s.uppers, 0 < u.factor ∧ Telos.Over vars u.others) ∧
    (∀ l ∈ s.lowers, 0 < l.factor ∧ Telos.Over vars l.others) ∧ SystemOver vars s.rest

theorem over_erase (h : Over vars m) : Over (vars.filter (· ≠ v)) (m.erase v) := by
  intro p hp
  obtain ⟨hp, hne⟩ := OrdMap.mem_erase.mp hp
  exact ⟨mem_filter.mpr ⟨(h p hp).1, by simpa using hne⟩, (h p hp).2⟩

theorem over_of_coeff_zero (h : Over vars m) (hzero : m.coeff v = 0) :
    Over (vars.filter (· ≠ v)) m := by
  intro p hp
  have hne : p.1 ≠ v := by
    rintro rfl
    exact (h p hp).2 ((OrdMap.coeff_eq (OrdMap.get_eq_some_iff.mpr hp)).symm.trans hzero)
  exact ⟨mem_filter.mpr ⟨(h p hp).1, by simpa using hne⟩, (h p hp).2⟩

theorem over_map_neg (h : Over vars m) : Over vars (m.map fun c => -c) := by
  intro p hp
  obtain ⟨q, hq, rfl⟩ := mem_map.mp hp
  exact ⟨(h q hq).1, neg_ne_zero.mpr (h q hq).2⟩

theorem split_over (h : SystemOver vars ineqs) :
    (ineqs.foldl (splitOne v) ⟨[], [], []⟩).Over (vars.filter (· ≠ v)) :=
  forall_split (fun ineq hineq hpos => ⟨hpos, over_erase (h ineq hineq)⟩)
    (fun ineq hineq hneg => ⟨neg_pos.mpr hneg, over_map_neg (over_erase (h ineq hineq))⟩)
    fun ineq hineq hzero => over_of_coeff_zero (h ineq hineq) hzero

theorem combine_over (hu : Over vars u.others) (hl : Over vars l.others) :
    Over vars (combine u l).coeffs := by
  intro p hp
  obtain ⟨hmem, hvalue, hne⟩ := OrdMap.mem_tabulate hp
  refine ⟨?_, hvalue ▸ hne⟩
  rcases mem_mergeKeys.mp hmem with hk | hk
  all_goals
    obtain ⟨q, hq, hkey⟩ := mem_map.mp hk
    rw [← hkey]
  · exact (hu q hq).1
  · exact (hl q hq).1

theorem eliminate_over (h : SystemOver vars ineqs) :
    SystemOver (vars.filter (· ≠ v)) (eliminate ineqs v) := by
  obtain ⟨huppers, hlowers, hrest⟩ := split_over (v := v) h
  refine forall_mem_append.mpr ⟨hrest, forall_mem_map.mpr ?_⟩
  rintro ⟨u, l⟩ hp
  obtain ⟨hu, hl⟩ := mem_product.mp hp
  exact combine_over (huppers u hu).2 (hlowers l hl).2

theorem foldl_eliminate_over (vs : List String) (h : SystemOver vars ineqs) :
    SystemOver (vars.filter (· ∉ vs)) (vs.foldl eliminate ineqs) := by
  induction vs generalizing vars ineqs with
  | nil => simpa using h
  | cons v vs ih =>
    have hrest := ih (eliminate_over (v := v) h)
    rw [filter_filter] at hrest
    rw [foldl_cons]
    convert hrest using 2
    funext k
    simp [Bool.and_comm]

end Variables

/-! ### Completeness -/

section Complete

variable {K : Type u} [Field K] [LinearOrder K] [IsStrictOrderedRing K] {σ : String → K}
  {v : String} {vars : List String} {ineqs : List LinIneq}

omit [Field K] [IsStrictOrderedRing K] in
theorem exists_between_bounds [Nonempty K] (lowers uppers : List K)
    (h : ∀ l ∈ lowers, ∀ u ∈ uppers, l ≤ u) :
    ∃ q, (∀ l ∈ lowers, l ≤ q) ∧ ∀ u ∈ uppers, q ≤ u := by
  by_cases hlowers : lowers.toFinset.Nonempty
  · obtain ⟨q, hq, hmax⟩ := lowers.toFinset.exists_max_image id hlowers
    exact ⟨q, fun l hl => hmax l (mem_toFinset.mpr hl), h q (mem_toFinset.mp hq)⟩
  · obtain ⟨q, hq⟩ := (uppers.map OrderDual.toDual).toFinset.exists_le
    refine ⟨q, fun l hl => absurd ⟨l, mem_toFinset.mpr hl⟩ hlowers, fun u hu => ?_⟩
    exact hq u (mem_toFinset.mpr (mem_map_of_mem (f := OrderDual.toDual) hu))

/-- What satisfies a system without a variable can be completed by a value for it. -/
theorem exists_meets_of_eliminate (h : Meets σ (eliminate ineqs v)) :
    ∃ q, Meets (Function.update σ v q) ineqs := by
  obtain ⟨huppers, hlowers, hrest⟩ := split_frees v ineqs
  obtain ⟨hmeets, hcombined⟩ := forall_mem_append.mp h
  generalize hsplit : ineqs.foldl (splitOne v) ⟨[], [], []⟩ =
    s at huppers hlowers hrest hmeets hcombined
  obtain ⟨q, hlow, hhigh⟩ := exists_between_bounds
    (s.lowers.map fun l => ((l.bound : K) - l.others.dot σ) / l.factor)
    (s.uppers.map fun u => ((u.bound : K) - u.others.dot σ) / u.factor) (by
      simp only [forall_mem_map]
      intro l hl u hu
      have hl' : (0 : K) < l.factor := Int.cast_pos.mpr (hlowers l hl).1
      have hu' : (0 : K) < u.factor := Int.cast_pos.mpr (huppers u hu).1
      have hc := combine_holds_iff.mp
        (forall_mem_map.mp hcombined (u, l) (mem_product.mpr ⟨hu, hl⟩))
      rw [div_le_div_iff₀ hl' hu']
      linarith)
  simp only [forall_mem_map] at hlow hhigh
  refine ⟨q, split_meets (v := v) |>.mp ?_⟩
  rw [hsplit]
  refine ⟨fun u hu => ⟨(huppers u hu).1, ?_⟩, fun l hl => ⟨(hlowers l hl).1, ?_⟩, fun r hr => ?_⟩
  · have hu' : (0 : K) < u.factor := Int.cast_pos.mpr (huppers u hu).1
    have hle := (le_div_iff₀ hu').mp (hhigh u hu)
    rw [dot_update_of_coeff (huppers u hu).2, Function.update_self]
    linarith
  · have hl' : (0 : K) < l.factor := Int.cast_pos.mpr (hlowers l hl).1
    have hle := (div_le_iff₀ hl').mp (hlow l hl)
    rw [dot_update_of_coeff (hlowers l hl).2, Function.update_self]
    linarith
  · rw [LinIneq.Holds, dot_update_of_coeff (hrest r hr)]
    exact hmeets r hr

theorem exists_meets_of_foldl {vs : List String} (h : Meets σ (vs.foldl eliminate ineqs)) :
    ∃ σ' : String → K, Meets σ' ineqs := by
  induction vs generalizing ineqs with
  | nil => exact ⟨σ, h⟩
  | cons v vs ih =>
    obtain ⟨σ', hσ'⟩ := ih h
    obtain ⟨q, hq⟩ := exists_meets_of_eliminate hσ'
    exact ⟨_, hq⟩

theorem meets_of_not_absurd (hover : SystemOver [] ineqs) (h : ineqs.any LinIneq.absurd = false) :
    Meets σ ineqs := by
  intro ineq hineq
  have hempty : ineq.coeffs.entries = [] :=
    eq_nil_iff_forall_not_mem.mpr fun p hp => not_mem_nil (hover ineq hineq p hp).1
  have hc := any_eq_false.mp h ineq hineq
  have hdot : ineq.coeffs.dot σ = 0 := by
    rw [OrdMap.dot, OrdMap.sum, hempty, map_nil, sum_nil]
  rw [LinIneq.Holds, hdot, Int.cast_nonneg_iff]
  simpa [LinIneq.absurd, hempty] using hc

end Complete

/-! ### Exactness -/

section Exact

variable {order order' : HashOrder} {cs : List Constraint} {ineqs : List LinIneq}

theorem systemOver_toInequalities (h : ∀ c ∈ cs, ∀ t ∈ c.lin.terms, t.2 ≠ 0) :
    SystemOver (systemVars (toInequalities cs)) (toInequalities cs) := by
  intro ineq hineq p hp
  refine ⟨mem_systemVars.mpr ⟨ineq, hineq, OrdMap.mem_keys_of_mem hp⟩, ?_⟩
  obtain ⟨c, hc, hineq⟩ := mem_flatMap.mp hineq
  have hbase : ∀ p ∈ (OrdMap.ofPairs c.lin.terms).entries, p.2 ≠ 0 :=
    fun p hp => h c hc p (OrdMap.mem_ofPairs hp)
  have hneg : ∀ p ∈ (negTerms c.lin.terms).entries, p.2 ≠ 0 := by
    intro p hp
    obtain ⟨t, ht, rfl⟩ := mem_map.mp (OrdMap.mem_ofPairs hp)
    exact neg_ne_zero.mpr (h c hc t ht)
  unfold Constraint.toInequalities at hineq
  cases hrel : c.rel <;> simp only [hrel, mem_cons, not_mem_nil, or_false] at hineq
  case eq =>
    rcases hineq with rfl | rfl
    · exact hbase p hp
    · exact hneg p hp
  all_goals subst hineq
  case le | lt => exact hbase p hp
  case ge | gt => exact hneg p hp

/-- The solver refutes exactly the systems without rational solutions. -/
theorem unsat_iff (h : Proper cs) :
    unsat order cs = true ↔ ¬∃ σ : String → ℚ, Meets σ (toInequalities cs) := by
  constructor
  · rintro hunsat ⟨σ, hσ⟩
    exact not_meets_of_unsat hunsat hσ
  · intro hnone
    by_contra hunsat
    have hover := systemOver_toInequalities fun c hc => (h c hc).2
    have hleft : SystemOver []
      ((order.vars (toInequalities cs)).foldl eliminate (toInequalities cs)) := by
      have hall := foldl_eliminate_over (order.vars (toInequalities cs)) hover
      have hnil : (systemVars (toInequalities cs)).filter (· ∉ order.vars (toInequalities cs)) =
        [] := by
        rw [filter_eq_nil_iff]
        intro k hk
        simpa using (order.perm _).mem_iff.mpr hk
      rwa [hnil] at hall
    have hmeets := meets_of_not_absurd (σ := fun _ => (0 : ℚ)) hleft
      (Bool.eq_false_iff.mpr hunsat)
    exact hnone (exists_meets_of_foldl hmeets)

theorem unsat_congr {cs' : List Constraint} (h : Proper cs) (h' : Proper cs')
    (hmem : ∀ c, c ∈ cs ↔ c ∈ cs') : unsat order cs = unsat order' cs' := by
  have hmeets : ∀ σ : String → ℚ, Meets σ (toInequalities cs) ↔ Meets σ (toInequalities cs') := by
    intro σ
    refine forall_congr' fun ineq => imp_congr_left ?_
    simp only [toInequalities, mem_flatMap, hmem]
  rw [Bool.eq_iff_iff, unsat_iff h, unsat_iff h']
  simp only [hmeets]

theorem proper_append {cs cs' : List Constraint} : Proper (cs ++ cs') ↔ Proper cs ∧ Proper cs' :=
  forall_mem_append

variable {concl : Constraint} {premises : List Constraint}

theorem proper_negate (h : Proper [concl]) {branch : List Constraint}
    (hbranch : branch ∈ negate concl) : Proper branch := by
  have hlin := forall_mem_singleton.mp h
  intro c hc
  rw [(mem_negate hbranch hc).1]
  exact hlin

theorem entails_congr {premises' : List Constraint}
    (hpremises : Proper premises) (hpremises' : Proper premises') (hconcl : Proper [concl])
    (hmem : ∀ c, c ∈ premises ↔ c ∈ premises') :
    entails order premises concl = entails order' premises' concl := by
  rw [Bool.eq_iff_iff, entails, entails, all_eq_true, all_eq_true]
  refine forall₂_congr fun branch hbranch => ?_
  have hbranch := proper_negate hconcl hbranch
  rw [unsat_congr (proper_append.mpr ⟨hpremises, hbranch⟩)
    (proper_append.mpr ⟨hpremises', hbranch⟩)]
  intro c
  rw [mem_append, mem_append, hmem]

theorem entails_order (hpremises : Proper premises)
    (hconcl : Proper [concl]) : entails order premises concl = entails order' premises concl :=
  entails_congr hpremises hpremises hconcl fun _ => Iff.rfl

theorem exists_premise {c : Constraint} (h : Proper [c]) {σ : String → Int} (hσ : c.Holds σ) :
    ∃ premise : Constraint, premise.lin = c.lin ∧ premise.Holds σ ∧
      ∀ order, entails order [premise] c = true := by
  have hlin := forall_mem_singleton.mp h
  have hentails : ∀ rel, (∀ branch ∈ negate c, ∀ τ : String → ℚ,
      ¬Meets τ (toInequalities (⟨c.lin, rel⟩ :: branch))) →
      ∀ order, entails order [⟨c.lin, rel⟩] c = true := by
    intro rel hnone order
    refine all_eq_true.mpr fun branch hbranch => (unsat_iff ?_).mpr fun ⟨τ, hτ⟩ => ?_
    · exact proper_append.mpr ⟨forall_mem_singleton.mpr hlin, proper_negate h hbranch⟩
    · exact hnone branch hbranch τ hτ
  obtain ⟨lin, rel⟩ := c
  -- a disequality is no premise, but one of the two strict comparisons is
  have hrel : ∃ rel', Constraint.Holds σ ⟨lin, rel'⟩ ∧ (rel' = rel ∧ rel ≠ .ne ∨
      rel = .ne ∧ (rel' = .lt ∨ rel' = .gt)) := by
    by_cases hne : rel = .ne
    · subst hne
      rcases lt_or_gt_of_ne hσ with hlt | hgt
      · exact ⟨.lt, hlt, Or.inr ⟨rfl, Or.inl rfl⟩⟩
      · exact ⟨.gt, hgt, Or.inr ⟨rfl, Or.inr rfl⟩⟩
    · exact ⟨rel, hσ, Or.inl ⟨rfl, hne⟩⟩
  obtain ⟨rel', hholds, hrel⟩ := hrel
  refine ⟨⟨lin, rel'⟩, rfl, hholds, hentails rel' fun branch hbranch τ hmeets => ?_⟩
  have hneg := dot_negTerms (σ := τ) hlin.1
  rcases hrel with ⟨rfl, hne⟩ | ⟨rfl, rfl | rfl⟩
  · cases rel' <;> simp only [negate, mem_cons, not_mem_nil, or_false] at hbranch
    case ne => exact hne rfl
    case eq =>
      rcases hbranch with rfl | rfl
      all_goals
        simp [toInequalities, Constraint.toInequalities, Meets, LinIneq.Holds, hneg] at hmeets
        linarith
    all_goals
      subst hbranch
      simp [toInequalities, Constraint.toInequalities, Meets, LinIneq.Holds, hneg] at hmeets
      linarith
  all_goals
    obtain rfl := mem_singleton.mp hbranch
    simp [toInequalities, Constraint.toInequalities, Meets, LinIneq.Holds, hneg] at hmeets
    linarith

/-! ### Models -/

theorem card_eliminate {v : String} {vars : List String} (hv : v ∈ vars) :
    (vars.filter (· ≠ v)).length < vars.length := by
  refine length_filter_lt_length_iff_exists.mpr ⟨v, hv, by simp⟩

theorem solveModel_ok {fuel : Nat} {vars : List String} (hover : SystemOver vars ineqs)
    (hfuel : vars.length < fuel) : ∃ m, solveModel order fuel ineqs = .ok m := by
  induction fuel generalizing vars ineqs with
  | zero => omega
  | succ fuel ih =>
    rw [solveModel]
    cases hvars : order.vars ineqs with
    | nil => exact ⟨_, rfl⟩
    | cons v vs =>
      have hv : v ∈ vars := by
        have hmem : v ∈ order.vars ineqs := hvars ▸ mem_cons_self
        obtain ⟨ineq, hineq, hk⟩ := order.mem_vars.mp hmem
        obtain ⟨p, hp, rfl⟩ := mem_map.mp hk
        exact (hover ineq hineq p hp).1
      have hlt := card_eliminate hv
      obtain ⟨m, hm⟩ := ih (eliminate_over (v := v) hover) (by omega)
      dsimp only
      rw [hm, ok_bind]
      cases m <;> exact ⟨_, rfl⟩

theorem model_ok (order : HashOrder) (h : Proper cs) : ∃ m, model order cs = .ok m :=
  solveModel_ok (systemOver_toInequalities fun c hc => (h c hc).2) (Nat.lt_succ_self _)

theorem counterexample_ok (order : HashOrder)
    (hpremises : Proper premises) (hconcl : Proper [concl]) :
    ∃ m, counterexample order premises concl = .ok m := by
  have hbranches : ∀ branch ∈ negate concl, Proper branch := fun _ => proper_negate hconcl
  unfold counterexample
  generalize negate concl = branches at hbranches
  induction branches with
  | nil => exact ⟨none, rfl⟩
  | cons branch branches ih =>
    obtain ⟨hbranch, hbranches⟩ := forall_mem_cons.mp hbranches
    obtain ⟨m, hm⟩ := model_ok order (proper_append.mpr ⟨hpremises, hbranch⟩)
    rw [firstModel, hm, ok_bind]
    cases m with
    | some m => exact ⟨some m, rfl⟩
    | none => exact ih hbranches

end Exact

/-! ### Verification -/

section Verified

variable {order order' : VerifyOrder} {problem : VerificationProblem}

def VerificationProblem.Proper (problem : VerificationProblem) : Prop :=
  Telos.Proper problem.premises ∧ Telos.Proper (problem.conclusions.map Conclusion.constraint)

instance (problem : VerificationProblem) : Decidable problem.Proper :=
  inferInstanceAs (Decidable (_ ∧ _))

theorem VerificationProblem.proper_constraint (h : problem.Proper) {c : Conclusion}
    (hc : c ∈ problem.conclusions) : Telos.Proper [c.constraint] :=
  forall_mem_singleton.mpr (h.2 _ (mem_map_of_mem hc))

theorem mem_of_ofGroup {g : Option Nat} {p : Conclusion × Nat} (hp : p ∈ problem.ofGroup g) :
    p.1 ∈ problem.conclusions ∧ p.1.orGroup = g := by
  obtain ⟨hmem, hg⟩ := mem_filter.mp hp
  exact ⟨mem_of_getElem? (mem_zipIdx_iff_getElem?.mp hmem), by simpa using hg⟩

theorem check_ok (h : problem.Proper) {p : Conclusion × Nat} (hp : p.1 ∈ problem.conclusions) :
    ∃ r, check order problem.premises p.1 p.2 = .ok r := by
  unfold check
  dsimp only
  split
  · exact ⟨_, rfl⟩
  · obtain ⟨m, hm⟩ := counterexample_ok (order.solver p.2) h.1
      (problem.proper_constraint h hp)
    rw [hm]
    exact ⟨_, rfl⟩

theorem verify_ok (order : VerifyOrder) (h : problem.Proper) :
    ∃ result, verify order problem = .ok result := by
  have hall : ∀ g, ∃ checks, ((problem.ofGroup g).mapM fun p =>
      check order problem.premises p.1 p.2) = .ok checks := fun g =>
    mapM_of_ok fun p hp => check_ok h (mem_of_ofGroup hp).1
  obtain ⟨checks, hchecks⟩ := hall none
  have hgroup : ∃ groups, (order.groups problem.groupIds).mapM (fun g =>
      (problem.ofGroup (some g)).mapM fun p => check order problem.premises p.1 p.2) =
        .ok groups := mapM_of_ok fun g _ => hall (some g)
  obtain ⟨groups, hgroups⟩ := hgroup
  exact ⟨_, bind_eq_ok.mpr ⟨checks, hchecks, bind_eq_ok.mpr ⟨groups, hgroups, rfl⟩⟩⟩

theorem allPassed_of_entailed {result : VerificationResult} (h : problem.Proper)
    (hgroups : ∀ c ∈ problem.conclusions, c.orGroup = none)
    (hentails : ∀ c ∈ problem.conclusions, entails .sorted problem.premises c.constraint = true)
    (hresult : verify order problem = .ok result) : result.allPassed = true := by
  refine (allPassed_iff hresult).mpr ⟨fun p hp => ?_, fun g hg => ?_⟩
  · have hmem := (mem_of_ofGroup hp).1
    exact (entails_order h.1 (problem.proper_constraint h hmem)).trans (hentails p.1 hmem)
  · obtain ⟨c, hc, hg⟩ := mem_filterMap.mp (mem_dedup.mp hg)
    rw [hgroups c hc] at hg
    cases hg

end Verified

end Oikos.Telos
