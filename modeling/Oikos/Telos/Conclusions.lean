/-
Where the conclusions of a problem come from: the ensures clauses of its function and
the invariants of its parameters.
-/
import Oikos.Telos.Premises

namespace Oikos.Telos

open List

section Clauses

variable {bounds : VarBounds} {func : Func} {e : Expr} {location : Span} {dnf : Dnf Constraint}
  {approx : Bool} {group next : Nat} {cs conclusions : List Conclusion}

/-- A clause of one branch makes an ungrouped conclusion of each of its constraints. -/
theorem clauseConclusions_single {branch : List Constraint} :
    clauseConclusions e location [branch] approx group =
      (branch.map fun c => ⟨"ensures: " ++ pretty e, c, true, approx, location, none⟩, group) := rfl

/-- A clause of several branches makes one group, which holds their constraints and no
others. -/
theorem clauseConclusions_group (hdnf : dnf.length ≠ 1)
    (h : clauseConclusions e location dnf approx group = (cs, next)) :
    next = group + 1 ∧ (∀ c ∈ cs, c.orGroup = some group ∧ ∃ branch ∈ dnf, c.constraint ∈ branch) ∧
      ∀ branch ∈ dnf, ∀ c ∈ branch, ∃ concl ∈ cs, concl.constraint = c := by
  unfold clauseConclusions at h
  split at h
  · exact absurd rfl hdnf
  · cases h
    refine ⟨rfl, fun concl hconcl => ?_, fun branch hbranch c hc => ?_⟩
    · obtain ⟨⟨branch, idx⟩, hidx, hconcl⟩ := mem_flatMap.mp hconcl
      obtain ⟨c, hc, rfl⟩ := mem_map.mp hconcl
      exact ⟨rfl, branch, mem_of_getElem? (mem_zipIdx_iff_getElem?.mp hidx), hc⟩
    · obtain ⟨idx, hidx⟩ := getElem?_of_mem hbranch
      have hmem : (branch, idx) ∈ dnf.zipIdx := mem_zipIdx_iff_getElem?.mpr hidx
      exact ⟨_, mem_flatMap.mpr ⟨_, hmem, mem_map_of_mem hc⟩, rfl⟩

/-- A clause's conclusions are among these: without a group if it has one branch, else as
all that is in a group. -/
inductive Contributes (dnf : Dnf Constraint) (conclusions : List Conclusion) : Prop
  | single (branch : List Constraint) (hdnf : dnf = [branch])
      (h : ∀ c ∈ branch, ∃ concl ∈ conclusions, concl.orGroup = none ∧ concl.constraint = c)
  | group (g : Nat) (hdnf : dnf.length ≠ 1)
      (hall : ∀ branch ∈ dnf, ∀ c ∈ branch, ∃ concl ∈ conclusions,
        concl.orGroup = some g ∧ concl.constraint = c)
      (honly : ∀ concl ∈ conclusions, concl.orGroup = some g →
        ∃ branch ∈ dnf, concl.constraint ∈ branch)

/-- The groups of a clause's conclusions have numbers from its own up to the next
clause's. -/
theorem clauseConclusions_groups (h : clauseConclusions e location dnf approx group = (cs, next)) :
    group ≤ next ∧ ∀ c ∈ cs, ∀ g, c.orGroup = some g → group ≤ g ∧ g < next := by
  by_cases hdnf : dnf.length = 1
  · obtain ⟨branch, rfl⟩ := length_eq_one_iff.mp hdnf
    rw [clauseConclusions_single] at h
    cases h
    refine ⟨le_refl _, fun c hc g hg => ?_⟩
    obtain ⟨_, _, rfl⟩ := mem_map.mp hc
    cases hg
  · obtain ⟨rfl, hall, _⟩ := clauseConclusions_group hdnf h
    refine ⟨Nat.le_succ _, fun c hc g hg => ?_⟩
    rw [(hall c hc).1] at hg
    cases hg
    exact ⟨le_refl _, Nat.lt_succ_self _⟩

variable {es : List (Expr × Nat)}

theorem ensuresConclusions_cons {p : Expr × Nat}
    (h : ensuresConclusions bounds func (p :: es) group = .ok conclusions) :
    ∃ dnf approx cs next rest, toConstraintsBoundedDnf bounds postField p.1 = .ok (dnf, approx) ∧
      clauseConclusions p.1 (func.ensuresSpans.getD p.2 func.span) dnf approx group = (cs, next) ∧
        ensuresConclusions bounds func es next = .ok rest ∧ conclusions = cs ++ rest := by
  obtain ⟨⟨dnf, approx⟩, hdnf, h⟩ := bind_eq_ok.mp h
  obtain ⟨rest, hrest, h⟩ := bind_eq_ok.mp h
  cases h
  exact ⟨dnf, approx, _, _, rest, hdnf, rfl, hrest, rfl⟩

theorem ensuresConclusions_groups
    (h : ensuresConclusions bounds func es group = .ok conclusions) :
    ∀ c ∈ conclusions, ∀ g, c.orGroup = some g → group ≤ g := by
  induction es generalizing group conclusions with
  | nil =>
    cases h
    simp
  | cons e es ih =>
    obtain ⟨dnf, approx, cs, next, rest, _, hclause, hrest, rfl⟩ := ensuresConclusions_cons h
    obtain ⟨hle, hcs⟩ := clauseConclusions_groups hclause
    refine forall_mem_append.mpr ⟨fun c hc g hg => (hcs c hc g hg).1, fun c hc g hg => ?_⟩
    exact hle.trans (ih hrest c hc g hg)

/-- What a clause contributes is among its own conclusions. -/
theorem clause_contributes (h : clauseConclusions e location dnf approx group = (cs, next)) :
    Contributes dnf cs := by
  by_cases hdnf : dnf.length = 1
  · obtain ⟨branch, rfl⟩ := length_eq_one_iff.mp hdnf
    rw [clauseConclusions_single] at h
    cases h
    exact .single branch rfl fun c hc => ⟨_, mem_map_of_mem hc, rfl, rfl⟩
  · obtain ⟨_, hall, hback⟩ := clauseConclusions_group hdnf h
    refine .group group hdnf (fun branch hbranch c hc => ?_) fun concl hconcl _ =>
      (hall concl hconcl).2
    obtain ⟨concl, hconcl, rfl⟩ := hback branch hbranch c hc
    exact ⟨concl, hconcl, (hall concl hconcl).1, rfl⟩

/-- Conclusions with other groups take nothing away from what a clause contributes. -/
theorem Contributes.append (h : Contributes dnf conclusions) (before after : List Conclusion)
    (hgroups : ∀ c ∈ before ++ after, ∀ g, c.orGroup = some g →
      ∀ c' ∈ conclusions, c'.orGroup ≠ some g) (hdnf : ∃ branch ∈ dnf, branch ≠ []) :
    Contributes dnf (before ++ conclusions ++ after) := by
  have hmem : ∀ c ∈ conclusions, c ∈ before ++ conclusions ++ after := fun c hc =>
    mem_append_left _ (mem_append_right _ hc)
  cases h with
  | single branch hbranch hall =>
    refine .single branch hbranch fun c hc => ?_
    obtain ⟨concl, hconcl, hc⟩ := hall c hc
    exact ⟨concl, hmem concl hconcl, hc⟩
  | group g hlength hall honly =>
    refine .group g hlength (fun branch hbranch c hc => ?_) fun concl hconcl hg => ?_
    · obtain ⟨concl, hconcl, hc⟩ := hall branch hbranch c hc
      exact ⟨concl, hmem concl hconcl, hc⟩
    · obtain ⟨branch, hbranch, hne⟩ := hdnf
      obtain ⟨c, hc⟩ := exists_mem_of_ne_nil _ hne
      obtain ⟨concl', hconcl', hg', _⟩ := hall branch hbranch c hc
      rw [append_assoc, mem_append, mem_append] at hconcl
      rcases hconcl with hbefore | hmid | hafter
      · exact absurd hg' (hgroups concl (mem_append_left _ hbefore) g hg concl' hconcl')
      · exact honly concl hmid hg
      · exact absurd hg' (hgroups concl (mem_append_right _ hafter) g hg concl' hconcl')

/-- A lowered condition has a branch, and every branch has a constraint. -/
theorem toConstraintsBoundedDnf_nonempty {fieldFn : Naming}
    (h : toConstraintsBoundedDnf bounds fieldFn e = .ok (dnf, approx)) :
    dnf ≠ [] ∧ ∀ branch ∈ dnf, branch ≠ [] := by
  induction e using Expr.operatorInduction generalizing dnf approx with
  | bin op lhs rhs ihl ihr =>
    cases op with
    | or =>
      obtain ⟨⟨left, approxL⟩, hleft, h⟩ := bind_eq_ok.mp h
      obtain ⟨⟨right, approxR⟩, hright, h⟩ := bind_eq_ok.mp h
      cases h
      refine ⟨?_, forall_mem_append.mpr ⟨(ihl hleft).2, (ihr hright).2⟩⟩
      simp [(ihl hleft).1]
    | and =>
      obtain ⟨⟨left, approxL⟩, hleft, h⟩ := bind_eq_ok.mp h
      obtain ⟨⟨right, approxR⟩, hright, h⟩ := bind_eq_ok.mp h
      cases h
      obtain ⟨b, hb⟩ := exists_mem_of_ne_nil _ (ihl hleft).1
      obtain ⟨b', hb'⟩ := exists_mem_of_ne_nil _ (ihr hright).1
      refine ⟨ne_nil_of_mem (Dnf.mem_conjoin.mpr ⟨b, hb, b', hb', rfl⟩), ?_⟩
      intro branch hbranch
      obtain ⟨l, hl, r, _, rfl⟩ := Dnf.mem_conjoin.mp hbranch
      simp [(ihl hleft).2 l hl]
    | eq | ne | lt | le | gt | ge =>
      obtain ⟨⟨c, approxC⟩, hc, h⟩ := bind_eq_ok.mp h
      cases h
      simp
    | add | sub | mul | div => cases h
  | _ => cases h

/-- Every ensures clause contributes to the conclusions made of all of them. -/
theorem ensures_contributes
    (h : ensuresConclusions bounds func es group = .ok conclusions) {p : Expr × Nat} (hp : p ∈ es) :
    ∃ dnf approx, toConstraintsBoundedDnf bounds postField p.1 = .ok (dnf, approx) ∧
      Contributes dnf conclusions := by
  induction es generalizing group conclusions with
  | nil => cases hp
  | cons e es ih =>
    obtain ⟨dnf, approx, cs, next, rest, hdnf, hclause, hrest, rfl⟩ := ensuresConclusions_cons h
    obtain ⟨_, hcs⟩ := clauseConclusions_groups hclause
    have hnew := ensuresConclusions_groups hrest
    rcases mem_cons.mp hp with rfl | hp
    · refine ⟨dnf, approx, hdnf, ?_⟩
      have hall := (clause_contributes hclause).append [] rest ?_ ?_
      · simpa using hall
      · intro c hc g hg c' hc' hg'
        exact absurd (hcs c' hc' g hg').2 (not_lt.mpr (hnew c (by simpa using hc) g hg))
      · obtain ⟨hne, hbranches⟩ := toConstraintsBoundedDnf_nonempty hdnf
        obtain ⟨branch, hbranch⟩ := exists_mem_of_ne_nil _ hne
        exact ⟨branch, hbranch, hbranches branch hbranch⟩
    · obtain ⟨dnf', approx', hdnf', hcontributes⟩ := ih hrest hp
      refine ⟨dnf', approx', hdnf', ?_⟩
      have hall := hcontributes.append cs [] ?_ ?_
      · simpa using hall
      · intro c hc g hg c' hc' hg'
        have hlt := (hcs c (by simpa using hc) g hg).2
        exact absurd hlt (not_lt.mpr (hnew c' hc' g hg'))
      · obtain ⟨hne, hbranches⟩ := toConstraintsBoundedDnf_nonempty hdnf'
        obtain ⟨branch, hbranch⟩ := exists_mem_of_ne_nil _ hne
        exact ⟨branch, hbranch, hbranches branch hbranch⟩

theorem forall_clauseConclusions {Q : Constraint → Prop} (hall : ∀ branch ∈ dnf, ∀ c ∈ branch, Q c)
    (h : clauseConclusions e location dnf approx group = (cs, next)) :
    ∀ c ∈ cs, Q c.constraint := by
  intro c hc
  by_cases hlength : dnf.length = 1
  · obtain ⟨branch, rfl⟩ := length_eq_one_iff.mp hlength
    rw [clauseConclusions_single] at h
    cases h
    obtain ⟨c', hc', rfl⟩ := mem_map.mp hc
    exact hall _ (mem_singleton_self _) c' hc'
  · obtain ⟨branch, hbranch, hmem⟩ := ((clauseConclusions_group hlength h).2.1 c hc).2
    exact hall branch hbranch _ hmem

/-- What holds of every comparison that is lowered holds of the conclusions. -/
theorem forall_ensuresConclusions {Q : Constraint → Prop} (hcompare : ∀ rel lhs rhs c approx,
      compareBounded bounds postField rel lhs rhs = .ok (c, approx) → Q c)
    (h : ensuresConclusions bounds func es group = .ok conclusions) :
    ∀ c ∈ conclusions, Q c.constraint := by
  induction es generalizing group conclusions with
  | nil =>
    cases h
    simp
  | cons e es ih =>
    obtain ⟨dnf, approx, cs, next, rest, hdnf, hclause, hrest, rfl⟩ := ensuresConclusions_cons h
    refine forall_mem_append.mpr ⟨?_, ih hrest⟩
    exact forall_clauseConclusions (forall_toConstraintsBoundedDnf hcompare hdnf) hclause

end Clauses

/-! ### Invariants -/

section Invariants

variable {t : Tables} {bounds : VarBounds} {func : Func} {inv : Invariant} {p : Param}
  {conclusions : List Conclusion} {problem : VerificationProblem} {premises : List Constraint}
  {funcName : String}

/-- The conclusions of an invariant are ungrouped and proper, and cover each of its
clauses. -/
theorem invariantConclusions_eq_ok {cs : List (Expr × Nat)}
    (h : invariantConclusions bounds inv p cs = .ok conclusions) :
    (∀ concl ∈ conclusions, concl.orGroup = none ∧ concl.constraint.lin.Proper) ∧
      ∀ c ∈ cs, ∃ lowered approx,
        toConstraintsBounded bounds postField (instantiate p.name c.1) = .ok (lowered, approx) ∧
          ∀ c' ∈ lowered, ∃ concl ∈ conclusions, concl.constraint = c' := by
  induction cs generalizing conclusions with
  | nil =>
    cases h
    simp
  | cons c cs ih =>
    obtain ⟨⟨lowered, approx⟩, hlowered, h⟩ := bind_eq_ok.mp h
    obtain ⟨rest, hrest, h⟩ := bind_eq_ok.mp h
    cases h
    obtain ⟨hgroups, hall⟩ := ih hrest
    constructor
    · refine forall_mem_append.mpr ⟨fun concl hconcl => ?_, hgroups⟩
      obtain ⟨c', hc', rfl⟩ := mem_map.mp hconcl
      exact ⟨rfl, proper_toConstraintsBounded hlowered c' hc'⟩
    · refine forall_mem_cons.mpr
        ⟨⟨lowered, approx, hlowered, fun c' hc' => ?_⟩, fun c'' hc'' => ?_⟩
      · exact ⟨_, mem_append_left _ (mem_map_of_mem hc'), rfl⟩
      · obtain ⟨lowered', approx', hlowered', hmem⟩ := hall c'' hc''
        refine ⟨lowered', approx', hlowered', fun c' hc' => ?_⟩
        obtain ⟨concl, hconcl, rfl⟩ := hmem c' hc'
        exact ⟨concl, mem_append_right _ hconcl, rfl⟩

/-- The same for the invariants of all parameters. -/
theorem exitConclusions_eq_ok (h : exitConclusions t bounds func.params = .ok conclusions) :
    (∀ concl ∈ conclusions, concl.orGroup = none ∧ concl.constraint.lin.Proper) ∧
      ∀ inv p, (inv, p) ∈ paramInvariants t func.params → ∀ c ∈ inv.constraints, ∃ lowered approx,
        toConstraintsBounded bounds postField (instantiate p.name c) = .ok (lowered, approx) ∧
          ∀ c' ∈ lowered, ∃ concl ∈ conclusions, concl.constraint = c' := by
  obtain ⟨all, hall, h⟩ := bind_eq_ok.mp h
  cases h
  constructor
  · intro concl hconcl
    obtain ⟨group, hgroup, hconcl⟩ := mem_flatten.mp hconcl
    obtain ⟨⟨inv, p⟩, _, hgroup⟩ := exists_of_mem_mapM hall hgroup
    exact (invariantConclusions_eq_ok hgroup).1 concl hconcl
  · intro inv p hp c hc
    obtain ⟨group, hmem, hgroup⟩ := mapM_mem hall hp
    obtain ⟨j, hj⟩ := getElem?_of_mem hc
    have hzip : (c, j) ∈ inv.constraints.zipIdx := mem_zipIdx_iff_getElem?.mpr hj
    obtain ⟨lowered, approx, hlowered, hconcls⟩ := (invariantConclusions_eq_ok hgroup).2 (c, j) hzip
    refine ⟨lowered, approx, hlowered, fun c' hc' => ?_⟩
    obtain ⟨concl, hconcl, rfl⟩ := hconcls c' hc'
    exact ⟨concl, mem_flatten.mpr ⟨group, hmem, hconcl⟩, rfl⟩

theorem buildProblem_eq_ok (h : buildProblem t func funcName premises = .ok problem) :
    problem.premises = premises ∧ ∃ bounds ensures invariants,
      collectVarBounds premises = .ok bounds ∧
        ensuresConclusions bounds func func.ensures.zipIdx 0 = .ok ensures ∧
          exitConclusions t bounds func.params = .ok invariants ∧
            problem.conclusions = ensures ++ invariants := by
  obtain ⟨bounds, hbounds, h⟩ := bind_eq_ok.mp h
  obtain ⟨ensures, hensures, h⟩ := bind_eq_ok.mp h
  obtain ⟨invariants, hinvariants, h⟩ := bind_eq_ok.mp h
  cases h
  exact ⟨rfl, bounds, ensures, invariants, hbounds, hensures, hinvariants, rfl⟩

/-- The forms in the conclusions of a problem are proper. -/
theorem proper_conclusions (h : buildProblem t func funcName premises = .ok problem) :
    ∀ c ∈ problem.conclusions, c.constraint.lin.Proper := by
  obtain ⟨_, bounds, ensures, invariants, _, hensures, hinvariants, heq⟩ := buildProblem_eq_ok h
  rw [heq]
  refine forall_mem_append.mpr ⟨?_, fun c hc => ((exitConclusions_eq_ok hinvariants).1 c hc).2⟩
  exact forall_ensuresConclusions (fun _ _ _ _ _ => compareBounded_proper) hensures

theorem dupFree_conclusions (h : buildProblem t func funcName premises = .ok problem) :
    ∀ c ∈ problem.conclusions, c.constraint.lin.DupFree :=
  fun c hc => (proper_conclusions h c hc).1

/-- Every ensures clause contributes to the conclusions, and each invariant clause is among
them. -/
theorem conclusions_of_buildProblem (h : buildProblem t func funcName premises = .ok problem) :
    (∀ e ∈ func.ensures, ∃ bounds dnf approx, collectVarBounds problem.premises = .ok bounds ∧
      toConstraintsBoundedDnf bounds postField e = .ok (dnf, approx) ∧
        Contributes dnf problem.conclusions) ∧
      ∀ inv p, (inv, p) ∈ paramInvariants t func.params → ∀ c ∈ inv.constraints,
        ∃ bounds lowered approx,
          toConstraintsBounded bounds postField (instantiate p.name c) = .ok (lowered, approx) ∧
            ∀ c' ∈ lowered, ∃ concl ∈ problem.conclusions, concl.orGroup = none ∧
              concl.constraint = c' := by
  obtain ⟨hpremises, bounds, ensures, invariants, hbounds, hensures, hinvariants, heq⟩ :=
    buildProblem_eq_ok h
  obtain ⟨hgroups, hall⟩ := exitConclusions_eq_ok hinvariants
  constructor
  · intro e he
    obtain ⟨k, hk⟩ := getElem?_of_mem he
    have hzip : (e, k) ∈ func.ensures.zipIdx := mem_zipIdx_iff_getElem?.mpr hk
    obtain ⟨dnf, approx, hdnf, hcontributes⟩ := ensures_contributes hensures hzip
    refine ⟨bounds, dnf, approx, hpremises ▸ hbounds, hdnf, ?_⟩
    obtain ⟨hne, hbranches⟩ := toConstraintsBoundedDnf_nonempty hdnf
    obtain ⟨branch, hbranch⟩ := exists_mem_of_ne_nil _ hne
    have happend := hcontributes.append [] invariants ?_
      ⟨branch, hbranch, hbranches branch hbranch⟩
    · rw [heq]
      simpa using happend
    · intro c hc g hg
      rw [(hgroups c (by simpa using hc)).1] at hg
      cases hg
  · intro inv p hp c hc
    obtain ⟨lowered, approx, hlowered, hmem⟩ := hall inv p hp c hc
    refine ⟨bounds, lowered, approx, hlowered, fun c' hc' => ?_⟩
    obtain ⟨concl, hconcl, hc'⟩ := hmem c' hc'
    exact ⟨concl, heq ▸ mem_append_right _ hconcl, (hgroups concl hconcl).1, hc'⟩

end Invariants

end Oikos.Telos
