/-
Several invariant blocks of one type: the last one is in the problems of the
functions, the others lend the names of their fields only.
-/
import Oikos.Telos.Contract

namespace Oikos.Telos

open List

section Blocks

variable {t : Tables} {func : Func} {bounds : VarBounds} {inv : Invariant} {p : Param}
  {conclusions : List Conclusion} {problem : VerificationProblem} {premises : List Constraint}
  {funcName : String} {modules : List Module}

def entryConstraints (p : Param) (e : Expr) : Result String (List Constraint) :=
  toConstraints preField (instantiate p.name e)

def exitConstraints (bounds : VarBounds) (p : Param) (e : Expr) :
    Result String (List Constraint) := do
  let (lowered, _) ← toConstraintsBounded bounds postField (instantiate p.name e)
  .ok lowered

def Assumed (problem : VerificationProblem) (p : Param) (e : Expr) : Prop :=
  ∃ lowered, entryConstraints p e = .ok lowered ∧ ∀ c ∈ lowered, c ∈ problem.premises

/-- The constraint, for the parameter, is to be shown as an invariant after the call. -/
def Maintained (problem : VerificationProblem) (p : Param) (e : Expr) : Prop :=
  ∃ bounds lowered, collectVarBounds problem.premises = .ok bounds ∧
    exitConstraints bounds p e = .ok lowered ∧
      ∀ c ∈ lowered, ∃ concl ∈ problem.conclusions, concl.isEnsures = false ∧ concl.constraint = c

def InLastBlocks (t : Tables) (params : List Param) (problem : VerificationProblem) (p : Param)
    (e : Expr) : Prop :=
  ∃ bounds lowered, collectVarBounds problem.premises = .ok bounds ∧
    exitConstraints bounds p e = .ok lowered ∧
      ∀ c ∈ lowered, ∃ last q, (last, q) ∈ paramInvariants t params ∧ ∃ e' ∈ last.constraints,
        ∃ lowered', exitConstraints bounds q e' = .ok lowered' ∧ c ∈ lowered'

def LastHasAll (modules : List Module) (name : String) : Prop :=
  ∀ inv ∈ allInvariants modules, inv.name = name →
    ∀ last, (allInvariants modules).reverse.find? (fun inv => inv.name = name) = some last →
      ∀ e ∈ inv.constraints, e ∈ last.constraints

theorem mem_invariantConclusions {cs : List (Expr × Nat)}
    (h : invariantConclusions bounds inv p cs = .ok conclusions) {c : Constraint} :
    (∃ concl ∈ conclusions, concl.isEnsures = false ∧ concl.constraint = c) ↔
      ∃ e ∈ cs, ∃ lowered, exitConstraints bounds p e.1 = .ok lowered ∧ c ∈ lowered := by
  induction cs generalizing conclusions with
  | nil =>
    cases h
    simp
  | cons e cs ih =>
    obtain ⟨⟨lowered, approx⟩, hlowered, h⟩ := bind_eq_ok.mp h
    obtain ⟨rest, hrest, h⟩ := bind_eq_ok.mp h
    cases h
    have hexit : exitConstraints bounds p e.1 = .ok lowered := by
      rw [exitConstraints, hlowered]
      rfl
    rw [exists_mem_cons_iff, hexit]
    simp only [mem_append, or_and_right, exists_or, ih hrest, mem_map, Except.ok.injEq,
      exists_eq_left']
    refine or_congr_left ⟨?_, ?_⟩
    · rintro ⟨_, ⟨c', hc', rfl⟩, _, rfl⟩
      exact hc'
    · intro hc
      exact ⟨_, ⟨c, hc, rfl⟩, rfl, rfl⟩

theorem mem_exitConclusions (h : exitConclusions t bounds func.params = .ok conclusions)
    {c : Constraint} :
    (∃ concl ∈ conclusions, concl.isEnsures = false ∧ concl.constraint = c) ↔
      ∃ last q, (last, q) ∈ paramInvariants t func.params ∧ ∃ e ∈ last.constraints, ∃ lowered,
        exitConstraints bounds q e = .ok lowered ∧ c ∈ lowered := by
  obtain ⟨all, hall, h⟩ := bind_eq_ok.mp h
  cases h
  constructor
  · rintro ⟨concl, hconcl, hkind, hc⟩
    obtain ⟨group, hgroup, hconcl⟩ := mem_flatten.mp hconcl
    obtain ⟨⟨last, q⟩, hmem, hgroup⟩ := exists_of_mem_mapM hall hgroup
    obtain ⟨⟨e, j⟩, he, hlowered⟩ := (mem_invariantConclusions hgroup).mp ⟨concl, hconcl, hkind, hc⟩
    exact ⟨last, q, hmem, e, mem_of_getElem? (mem_zipIdx_iff_getElem?.mp he), hlowered⟩
  · rintro ⟨last, q, hmem, e, he, hlowered⟩
    obtain ⟨group, hgroup, hgroup'⟩ := mapM_mem hall hmem
    obtain ⟨j, hj⟩ := getElem?_of_mem he
    obtain ⟨concl, hconcl, hkind⟩ := (mem_invariantConclusions hgroup').mpr
      ⟨(e, j), mem_zipIdx_iff_getElem?.mpr hj, hlowered⟩
    exact ⟨concl, mem_flatten.mpr ⟨group, hgroup, hconcl⟩, hkind⟩

theorem isEnsures_ensuresConclusions {es : List (Expr × Nat)} {group : Nat}
    (h : ensuresConclusions bounds func es group = .ok conclusions) :
    ∀ concl ∈ conclusions, concl.isEnsures = true := by
  induction es generalizing group conclusions with
  | nil =>
    cases h
    simp
  | cons e es ih =>
    obtain ⟨dnf, approx, cs, next, rest, hdnf, hclause, hrest, rfl⟩ := ensuresConclusions_cons h
    refine forall_mem_append.mpr ⟨?_, ih hrest⟩
    unfold clauseConclusions at hclause
    split at hclause
    · cases hclause
      simp
    · cases hclause
      intro concl hconcl
      obtain ⟨⟨branch, idx⟩, _, hconcl⟩ := mem_flatMap.mp hconcl
      obtain ⟨c, _, rfl⟩ := mem_map.mp hconcl
      rfl

theorem mem_conclusions (h : buildProblem t func funcName premises = .ok problem) :
    ∃ bounds, collectVarBounds problem.premises = .ok bounds ∧ ∀ c,
      (∃ concl ∈ problem.conclusions, concl.isEnsures = false ∧ concl.constraint = c) ↔
        ∃ last q, (last, q) ∈ paramInvariants t func.params ∧ ∃ e ∈ last.constraints, ∃ lowered,
          exitConstraints bounds q e = .ok lowered ∧ c ∈ lowered := by
  obtain ⟨bounds, hbounds, h⟩ := bind_eq_ok.mp h
  obtain ⟨ensures, hensures, h⟩ := bind_eq_ok.mp h
  obtain ⟨invariants, hinvariants, h⟩ := bind_eq_ok.mp h
  cases h
  refine ⟨bounds, hbounds, fun c => ?_⟩
  rw [← mem_exitConclusions hinvariants]
  constructor
  · rintro ⟨concl, hconcl, hkind, hc⟩
    rcases mem_append.mp hconcl with hmem | hmem
    · rw [isEnsures_ensuresConclusions hensures concl hmem] at hkind
      cases hkind
    · exact ⟨concl, hmem, hkind, hc⟩
  · rintro ⟨concl, hconcl, hkind⟩
    exact ⟨concl, mem_append_right _ hconcl, hkind⟩

variable {e : Expr} {debug : Expr → String} {order : FieldOrder}
  {problems : List VerificationProblem}

theorem maintained_iff (h : buildProblem t func funcName premises = .ok problem) :
    Maintained problem p e ↔ InLastBlocks t func.params problem p e := by
  obtain ⟨bounds, hbounds, hmem⟩ := mem_conclusions h
  constructor
  · rintro ⟨bounds', lowered, hbounds', hlowered, hall⟩
    rw [hbounds, Except.ok.injEq] at hbounds'
    subst hbounds'
    exact ⟨bounds, lowered, hbounds, hlowered, fun c hc => (hmem c).mp (hall c hc)⟩
  · rintro ⟨bounds', lowered, hbounds', hlowered, hall⟩
    rw [hbounds, Except.ok.injEq] at hbounds'
    subst hbounds'
    exact ⟨bounds, lowered, hbounds, hlowered, fun c hc => (hmem c).mpr (hall c hc)⟩

theorem maintained_of_mem (h : buildProblem t func funcName premises = .ok problem)
    (hinv : (inv, p) ∈ paramInvariants t func.params) (he : e ∈ inv.constraints) :
    Maintained problem p e := by
  obtain ⟨bounds, hbounds, h'⟩ := bind_eq_ok.mp h
  obtain ⟨ensures, _, h'⟩ := bind_eq_ok.mp h'
  obtain ⟨invariants, hinvariants, h'⟩ := bind_eq_ok.mp h'
  obtain ⟨lowered, approx, hlowered, _⟩ := (exitConclusions_eq_ok hinvariants).2 inv p hinv e he
  have hexit : exitConstraints bounds p e = .ok lowered := by
    rw [exitConstraints, hlowered]
    rfl
  obtain ⟨hpremises, _⟩ := buildProblem_eq_ok h
  rw [maintained_iff h]
  refine ⟨bounds, lowered, hpremises ▸ hbounds, hexit, fun c hc => ?_⟩
  exact ⟨inv, p, hinv, e, he, lowered, hexit, hc⟩

theorem assumed_of_mem (h : buildProblems debug order t func = .ok problems)
    (hinv : (inv, p) ∈ paramInvariants t func.params) (he : e ∈ inv.constraints) :
    ∀ problem ∈ problems, Assumed problem p e := by
  intro problem hproblem
  obtain ⟨parts, hall, _⟩ := buildProblems_eq_ok h
  obtain ⟨r, _, b, _, premises, funcName, hpremises, hbuild⟩ := hall problem hproblem
  obtain ⟨all, hall', hinvs⟩ := bind_eq_ok.mp parts.hinvs
  obtain ⟨group, hgroup, hgroup'⟩ := mapM_mem hall' hinv
  obtain ⟨lowered, hmem, hlowered⟩ := mapM_mem hgroup' he
  obtain ⟨frame, _, hpremises⟩ := parts.premises_eq hpremises
  refine ⟨lowered, hlowered, fun c hc => ?_⟩
  have hparts : c ∈ parts.invs := by
    rw [← Except.ok.inj hinvs]
    exact mem_flatten.mpr ⟨lowered, mem_flatten.mpr ⟨group, hgroup, hmem⟩, hc⟩
  rw [(buildProblem_eq_ok hbuild).1, hpremises]
  simp only [mem_append]
  tauto

theorem exists_last (hp : p ∈ func.params) (hinv : inv ∈ allInvariants modules)
    (hname : inv.name = p.ty.name) :
    ∃ last, (allInvariants modules).reverse.find? (fun inv => inv.name = p.ty.name) = some last ∧
      (last, p) ∈ paramInvariants (tables modules) func.params := by
  cases hfind : (allInvariants modules).reverse.find? (fun inv => inv.name = p.ty.name) with
  | none =>
    have hnone := find?_eq_none.mp hfind inv (mem_reverse.mpr hinv)
    exact absurd (decide_eq_true hname) hnone
  | some last =>
    refine ⟨last, rfl, mem_filterMap.mpr ⟨p, hp, ?_⟩⟩
    change Option.map _ ((allInvariants modules).reverse.find? _) = _
    rw [hfind]
    rfl

theorem buildProblems_of_extract (h : extract debug order modules = .ok problems)
    (hfunc : func ∈ allFuncs modules) :
    ∃ built, buildProblems debug order (tables modules) func = .ok built ∧
      ∀ problem ∈ built, problem ∈ problems := by
  obtain ⟨all, hall, h⟩ := bind_eq_ok.mp h
  cases h
  obtain ⟨built, hmem, hbuilt⟩ := mapM_mem hall hfunc
  exact ⟨built, hbuilt, fun problem hproblem => mem_flatten.mpr ⟨built, hmem, hproblem⟩⟩

/-- Where the last block of each name has all constraints of the name, they are all
assumed and maintained; in any case no more is maintained than what is in last blocks. -/
theorem invariants_kept {modules : List Module} (h : extract debug order modules = .ok problems)
    {func : Func} (hfunc : func ∈ allFuncs modules) :
    ∃ built, buildProblems debug order (tables modules) func = .ok built ∧
      (∀ problem ∈ built, problem ∈ problems) ∧
        ((∀ p ∈ func.params, LastHasAll modules p.ty.name) → ∀ problem ∈ built, ∀ p ∈ func.params,
          ∀ inv ∈ typeInvariants modules p, ∀ e ∈ inv.constraints,
            Assumed problem p e ∧ Maintained problem p e) ∧
        ∀ problem ∈ built, ∀ p e,
          Maintained problem p e ↔ InLastBlocks (tables modules) func.params problem p e := by
  obtain ⟨built, hbuilt, hmem⟩ := buildProblems_of_extract h hfunc
  have hproblem : ∀ problem ∈ built, ∃ premises funcName,
      buildProblem (tables modules) func funcName premises = .ok problem := by
    intro problem hproblem
    obtain ⟨parts, hall, _⟩ := buildProblems_eq_ok hbuilt
    obtain ⟨_, _, _, _, premises, funcName, _, hbuild⟩ := hall problem hproblem
    exact ⟨premises, funcName, hbuild⟩
  refine ⟨built, hbuilt, hmem, fun hlast problem hp p hparam inv hinv e he => ?_,
    fun problem hp p e => ?_⟩
  · obtain ⟨hall, hname⟩ := mem_filter.mp hinv
    obtain ⟨last, hfind, hpair⟩ := exists_last hparam hall (of_decide_eq_true hname)
    have he' := hlast p hparam inv hall (of_decide_eq_true hname) last hfind e he
    obtain ⟨premises, funcName, hbuild⟩ := hproblem problem hp
    exact ⟨assumed_of_mem hbuilt hpair he' problem hp, maintained_of_mem hbuild hpair he'⟩
  · obtain ⟨premises, funcName, hbuild⟩ := hproblem problem hp
    exact maintained_iff hbuild

/-- One block, and a function that may not make the balance negative. -/
theorem invariants_kept_deposit :
    Assumed depositProblem ⟨wallet, .named "Wallet"⟩ (.bin .ge (.var balance) (.int 0)) ∧
      Maintained depositProblem ⟨wallet, .named "Wallet"⟩ (.bin .ge (.var balance) (.int 0)) := by
  have hextract : extract pretty .first depositModules = .ok [depositProblem] := by decide +kernel
  have hbuild : buildProblems pretty .first (tables depositModules) depositFunc =
      .ok [depositProblem] := by decide +kernel
  obtain ⟨built, hbuilt, _, hkept, _⟩ :=
    invariants_kept hextract (mem_singleton_self depositFunc)
  rw [hbuild, Except.ok.injEq] at hbuilt
  subst hbuilt
  refine hkept (fun p _ inv hinv hname last hfind e he => ?_) _ (mem_singleton_self _) _
    mem_cons_self walletInvariant (mem_singleton_self _) _ mem_cons_self
  have hmem := mem_reverse.mp (mem_of_find?_eq_some hfind)
  rw [mem_singleton.mp hinv] at he
  rw [mem_singleton.mp hmem]
  exact he

/-- A function with a wallet and nothing else. -/
def idleWallet : Func where
  name := word "idle" (by decide)
  params := [⟨wallet, .named "Wallet"⟩]
  requires := []
  ensures := []
  body := []
  elided := false
  span := ⟨1, 1⟩
  ensuresSpans := []

/-- `limit >= 0` -/
def limitInvariant : Invariant :=
  ⟨"Wallet", [.bin .ge (.var limit) (.int 0)], ⟨2, 1⟩, []⟩

def twoBlocks : List Module :=
  [⟨[.invariant walletInvariant, .invariant limitInvariant, .func idleWallet]⟩]

def idleProblem : VerificationProblem where
  funcName := "idle"
  funcSpan := ⟨1, 1⟩
  premises := [⟨⟨[("w.limit", 1)], 0⟩, .ge⟩, ⟨⟨[("w.balance'", 1), ("w.balance", -1)], 0⟩, .eq⟩,
    ⟨⟨[("w.limit'", 1), ("w.limit", -1)], 0⟩, .eq⟩]
  conclusions := [⟨"invariant Wallet maintained: w.limit >= 0",
    ⟨⟨[("w.limit'", 1)], 0⟩, .ge⟩, false,
    false, ⟨2, 1⟩, none⟩]

/-- The second block of a wallet takes the place of the first. -/
theorem first_block_dropped :
    extract pretty .first twoBlocks = .ok [idleProblem] ∧
      (idleWallet ∈ allFuncs twoBlocks ∧
        buildProblems pretty .first (tables twoBlocks) idleWallet = .ok [idleProblem]) ∧
      walletInvariant ∈ typeInvariants twoBlocks ⟨wallet, .named "Wallet"⟩ ∧
      ¬Assumed idleProblem ⟨wallet, .named "Wallet"⟩ (.bin .ge (.var balance) (.int 0)) := by
  refine ⟨by decide +kernel, ⟨mem_singleton_self _, by decide +kernel⟩,
    mem_filter.mpr ⟨mem_cons_self, rfl⟩, ?_⟩
  rintro ⟨lowered, hlowered, hmem⟩
  have hentry : entryConstraints ⟨wallet, .named "Wallet"⟩ (.bin .ge (.var balance) (.int 0)) =
      .ok [⟨⟨[("w.balance", 1)], 0⟩, .ge⟩] := by decide +kernel
  rw [hentry, Except.ok.injEq] at hlowered
  subst hlowered
  exact absurd (hmem _ (mem_singleton_self _)) (by decide)

end Blocks

end Oikos.Telos
