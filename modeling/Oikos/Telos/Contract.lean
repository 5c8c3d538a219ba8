/-
What passing the verifier says of the code that is emitted for a straight-line body:
from every state that meets the requires clauses it ends in one that meets the ensures
clauses and the invariants.
-/
import Oikos.Telos.Disjunction
import Oikos.Telos.IntervalProducts
import Oikos.Telos.StraightLine
import Oikos.Telos.Unrolling

namespace Oikos.Telos

open List

/-! ### States that an assignment stands for -/

/-- The place has one variable before a body and another one after it. -/
def Place.moves : Place → Bool
  | .field _ _ | .fieldElem _ _ _ => true
  | .var _ | .varElem _ _ => false

theorem Place.name_postField (p : Place) :
    p.name postField = if p.moves then p.name preField ++ "'" else p.name preField := by
  cases p <;> rfl

/-- No two different places in a list share a variable. -/
def Apart (places : List Place) : Prop :=
  ∀ p ∈ places, ∀ q ∈ places, p.plain = q.plain → p = q

instance (places : List Place) : Decidable (Apart places) :=
  inferInstanceAs (Decidable (∀ p ∈ places, ∀ q ∈ places, p.plain = q.plain → p = q))

section Assignment

variable {places : List Place} {p q : Place} {s s' : State}

theorem Place.plain_eq_of_postField (h : p.name postField = q.name postField) :
    p.plain = q.plain := by
  have hmoves : ∀ {p q : Place}, p.moves = true → q.moves = false →
      p.name postField ≠ q.name postField := by
    intro p q hp hq h
    rw [name_postField, name_postField, if_pos hp, if_neg (by simp [hq])] at h
    refine q.quote_not_mem ?_
    rw [← h, String.toList_append]
    simp
  refine Place.plain_eq ?_
  cases hp : p.moves with
  | true =>
    cases hq : q.moves with
    | true =>
      rw [name_postField, name_postField, if_pos hp, if_pos hq] at h
      have htext := congrArg String.toList h
      rw [String.toList_append, String.toList_append] at htext
      exact String.toList_inj.mp (append_cancel_right htext)
    | false => exact absurd h (hmoves hp hq)
  | false =>
    cases hq : q.moves with
    | true => exact absurd h.symm (hmoves hq hp)
    | false =>
      rw [name_postField, name_postField, if_neg (by simp [hp]), if_neg (by simp [hq])] at h
      exact h

theorem Place.postField_eq_preField (h : p.name postField = q.name preField) :
    p.moves = false ∧ p.plain = q.plain := by
  rw [name_postField] at h
  split at h
  · refine absurd ?_ q.quote_not_mem
    rw [← h, String.toList_append]
    simp
  · next hp => exact ⟨Bool.eq_false_iff.mpr hp, Place.plain_eq h⟩

theorem apart_fields (h : Apart places) (hp : p ∈ places ∨ ∃ f, p = fieldPlace f)
    (hq : q ∈ places ∨ ∃ f, q = fieldPlace f) (hplain : p.plain = q.plain) : p = q := by
  have hfield : ∀ {q : Place} {f : FieldRef}, q.plain = fieldPlace f → q = fieldPlace f := by
    intro q f h
    cases q with
    | fieldElem => cases h
    | _ => exact h
  rcases hp with hp | ⟨f, rfl⟩
  · rcases hq with hq | ⟨f', rfl⟩
    · exact h p hp q hq hplain
    · exact hfield hplain
  · exact (hfield hplain.symm).symm

theorem exists_stateAt (h : Apart places) (hkeeps : ∀ p, p.moves = false → s' p = s p) :
    ∃ σ, SameOn places s (stateAt σ preField) ∧ SameOn places s' (stateAt σ postField) ∧
      (∀ f, σ (beforeVar f) = s (fieldPlace f)) ∧ ∀ f, σ (afterVar f) = s' (fieldPlace f) := by
  obtain ⟨σ, hσ⟩ := exists_assignment
    (fun i : {p : Place // p ∈ places ∨ ∃ f, p = fieldPlace f} × Bool =>
      if i.2 then i.1.1.name postField else i.1.1.name preField)
    (fun i => if i.2 then s' i.1.1 else s i.1.1) (by
      rintro ⟨⟨p, hp⟩, after⟩ ⟨⟨q, hq⟩, after'⟩ hname
      have hsame := apart_fields h hp hq
      cases after <;> cases after'
      · exact congrArg s (hsame (Place.plain_eq hname))
      · obtain ⟨hmoves, hplain⟩ := Place.postField_eq_preField hname.symm
        obtain rfl := hsame hplain.symm
        exact (hkeeps p hmoves).symm
      · obtain ⟨hmoves, hplain⟩ := Place.postField_eq_preField hname
        obtain rfl := hsame hplain
        exact hkeeps p hmoves
      · exact congrArg s' (hsame (Place.plain_eq_of_postField hname)))
  exact ⟨σ, fun p hp => hσ (⟨p, Or.inl hp⟩, false), fun p hp => hσ (⟨p, Or.inl hp⟩, true),
    fun f => hσ (⟨fieldPlace f, Or.inr ⟨f, rfl⟩⟩, false),
    fun f => hσ (⟨fieldPlace f, Or.inr ⟨f, rfl⟩⟩, true)⟩

end Assignment

/-! ### Invariants -/

namespace Expr

/-- An expression over numbers, variables and fields, with neither `old` nor an index. -/
def bare : Expr → Bool
  | .int _ | .var _ | .field _ _ => true
  | .unary _ e => e.bare
  | .bin _ lhs rhs => lhs.bare && rhs.bare
  | _ => false

end Expr

def State.within (s : State) (base : Name) : State :=
  fun p =>
    match p with
    | .var v => s (.field base v)
    | p => s p

section Bare

variable {fieldFn : Naming} {e : Expr} {dnf : Dnf Constraint} {s : State}

theorem value_instantiate (h : e.bare = true) (base : Name) (pre pre' : State) :
    value pre s (instantiate base e) = value pre' (s.within base) e := by
  induction e using Expr.operatorInduction with
  | int n => rfl
  | var v => rfl
  | field b f => rfl
  | unary op e ih =>
    cases op
    rw [instantiate, value, value, ih h]
  | bin op lhs rhs ihl ihr =>
    obtain ⟨hl, hr⟩ := Bool.and_eq_true_iff.mp h
    rw [instantiate, value, value, ihl hl, ihr hr]
  | _ => cases h

theorem means_instantiate (h : e.bare = true) (base : Name) (pre pre' : State) :
    Means pre s (instantiate base e) ↔ Means pre' (s.within base) e := by
  induction e using Expr.operatorInduction with
  | bin op lhs rhs ihl ihr =>
    obtain ⟨hl, hr⟩ := Bool.and_eq_true_iff.mp h
    rw [instantiate]
    cases op with
    | or => exact or_congr (ihl hl) (ihr hr)
    | and => exact and_congr (ihl hl) (ihr hr)
    | _ => simp only [Means, relationOf, value_instantiate hl base pre pre',
        value_instantiate hr base pre pre']
  | int | var | field | unary => exact Iff.rfl
  | _ => cases h

theorem unrolls_instantiate (h : e.bare = true) (base : Name) :
    (instantiate base e).Unrolls := by
  induction e using Expr.operatorInduction with
  | bin op lhs rhs ihl ihr =>
    obtain ⟨hl, hr⟩ := Bool.and_eq_true_iff.mp h
    rw [instantiate, Expr.Unrolls]
    exact ⟨ihl hl, ihr hr⟩
  | int | var | field | unary =>
    rw [instantiate, Expr.Unrolls]
    all_goals simp
  | _ => cases h

theorem places_instantiate (h : e.bare = true) (base : Name) :
    ∀ p ∈ (instantiate base e).places, ∃ f, p = fieldPlace f := by
  induction e using Expr.operatorInduction with
  | int n => exact fun p hp => absurd hp not_mem_nil
  | var v =>
    intro p hp
    exact ⟨(base, v), mem_singleton.mp hp⟩
  | field b f =>
    intro p hp
    exact ⟨(b, f), mem_singleton.mp hp⟩
  | unary op e ih => exact ih h
  | bin op lhs rhs ihl ihr =>
    obtain ⟨hl, hr⟩ := Bool.and_eq_true_iff.mp h
    exact forall_mem_append.mpr ⟨ihl hl, ihr hr⟩
  | _ => cases h

theorem affine_of_linearize {l : Linear} (h : linearize fieldFn e = .ok l) : e.affine = true := by
  obtain ⟨⟨l', approx⟩, hl', _⟩ := bind_eq_ok.mp h
  refine affine_of_linearizeWith (fun _ _ _ _ h => ?_) hl'
  cases h

theorem LowersTo.affine (h : LowersTo fieldFn e dnf) : e.affine = true := by
  induction h with
  | or _ _ ihl ihr => exact Bool.and_eq_true_iff.mpr ⟨ihl, ihr⟩
  | and _ _ ihl ihr => exact Bool.and_eq_true_iff.mpr ⟨ihl, ihr⟩
  | @compare op rel lhs rhs c hrel hc =>
    obtain ⟨l, hl, hc⟩ := bind_eq_ok.mp hc
    obtain ⟨r, hr, _⟩ := bind_eq_ok.mp hc
    cases op <;> cases hrel <;>
      exact Bool.and_eq_true_iff.mpr ⟨affine_of_linearize hl, affine_of_linearize hr⟩
  | ifThen | noArm | matchOn | forAll | aggregate => rfl

theorem lowersTo_of_toConstraints {cs : List Constraint} (h : toConstraints fieldFn e = .ok cs) :
    LowersTo fieldFn e [cs] := by
  obtain ⟨dnf, hdnf, h⟩ := bind_eq_ok.mp h
  split at h
  · cases h
    exact lowersTo_of_toConstraintsDnf hdnf
  · cases h

end Bare

/-! ### Products of unknowns -/

theorem comparisons_of_branches {bounds : VarBounds} {fieldFn : Naming} {e : Expr}
    {dnf : Dnf Constraint} {approx : Bool} {σ : String → Int}
    (hconservative : e.conservative = true)
    (hfactors : e.Factors (fun x y => LooksUp σ bounds x ∧ LooksUp σ bounds y ∧
    CornersFit bounds x y)
      fieldFn)
    (h : toConstraintsBoundedDnf bounds fieldFn e = .ok (dnf, approx)) :
    ∀ c ∈ dnf.flatten, ∃ e' ∈ e.comparisons,
      c.Holds σ → Means (stateAt σ preField) (stateAt σ fieldFn) e' := by
  induction e using Expr.operatorInduction generalizing dnf approx with
  | bin op lhs rhs ihl ihr =>
    have hboth : ∀ left right approx approx', lhs.conservative = true → rhs.conservative = true →
        toConstraintsBoundedDnf bounds fieldFn lhs = .ok (left, approx) →
          toConstraintsBoundedDnf bounds fieldFn rhs = .ok (right, approx') →
            ∀ c, c ∈ left.flatten ∨ c ∈ right.flatten →
              ∃ e' ∈ lhs.comparisons ++ rhs.comparisons,
                c.Holds σ → Means (stateAt σ preField) (stateAt σ fieldFn) e' := by
      intro left right approx approx' hcl hcr hleft hright c hc
      rcases hc with hc | hc
      · obtain ⟨e', he', hmeans⟩ := ihl hcl hfactors.1 hleft c hc
        exact ⟨e', mem_append_left _ he', hmeans⟩
      · obtain ⟨e', he', hmeans⟩ := ihr hcr hfactors.2.1 hright c hc
        exact ⟨e', mem_append_right _ he', hmeans⟩
    have hall := fun hdnf => means_of_branches hconservative hfactors h hdnf
    cases op with
    | or =>
      obtain ⟨⟨left, approxL⟩, hleft, h⟩ := bind_eq_ok.mp h
      obtain ⟨⟨right, approxR⟩, hright, h⟩ := bind_eq_ok.mp h
      cases h
      obtain ⟨hcl, hcr⟩ := Bool.and_eq_true_iff.mp hconservative
      exact fun c hc => hboth left right _ _ hcl hcr hleft hright c (by simpa using hc)
    | and =>
      obtain ⟨⟨left, approxL⟩, hleft, h⟩ := bind_eq_ok.mp h
      obtain ⟨⟨right, approxR⟩, hright, h⟩ := bind_eq_ok.mp h
      cases h
      obtain ⟨hcl, hcr⟩ := Bool.and_eq_true_iff.mp hconservative
      refine fun c hc => hboth left right _ _ hcl hcr hleft hright c ?_
      exact (Dnf.mem_flatten_conjoin (toConstraintsBoundedDnf_nonempty hleft).1
        (toConstraintsBoundedDnf_nonempty hright).1).mp hc
    | eq | ne | lt | le | gt | ge =>
      obtain ⟨⟨c, approxC⟩, _, h⟩ := bind_eq_ok.mp h
      cases h
      intro c' hc'
      rw [flatten_singleton, mem_singleton] at hc'
      subst hc'
      refine ⟨_, mem_singleton_self _, fun hholds => hall (Dnf.holds_singleton.mpr ?_)⟩
      exact forall_mem_singleton.mpr hholds
    | add | sub | mul | div => cases h
  | _ => cases h

/-! ### Premises that hold -/

section Hold

variable {t : Tables} {cs : List Constraint} {σ : String → Int} {params : List Param}

theorem holds_requiresLoop {requires : List Expr} {start dnf : Dnf Constraint}
    (h : requires.foldlM (fun dnf r => do
      let branches ← toConstraintsDnf preField r
      .ok (combineDnf dnf branches)) start = .ok dnf)
    (hunrolls : ∀ r ∈ requires, r.Unrolls)
    (hmeans : ∀ r ∈ requires, Means (stateAt σ preField) (stateAt σ preField) r)
    (hstart : start.Holds (Constraint.Holds σ)) : dnf.Holds (Constraint.Holds σ) := by
  induction requires generalizing start with
  | nil =>
    cases h
    exact hstart
  | cons r requires ih =>
    rw [foldlM_cons] at h
    obtain ⟨next, hnext, h⟩ := bind_eq_ok.mp h
    obtain ⟨branches, hbranches, hnext⟩ := bind_eq_ok.mp hnext
    cases hnext
    obtain ⟨hr, hunrolls⟩ := forall_mem_cons.mp hunrolls
    obtain ⟨hmeansR, hmeans⟩ := forall_mem_cons.mp hmeans
    refine ih h hunrolls hmeans (Dnf.holds_conjoin.mpr ⟨hstart, ?_⟩)
    exact holds_of_unrolls (lowersTo_of_toConstraintsDnf hbranches) hr hmeansR

theorem exists_requires {requires : List Expr} {dnf : Dnf Constraint}
    (h : requiresDnf requires = .ok dnf) (hunrolls : ∀ r ∈ requires, r.Unrolls)
    (hmeans : ∀ r ∈ requires, Means (stateAt σ preField) (stateAt σ preField) r) :
    ∃ branch ∈ dnf, Satisfies σ branch :=
  holds_requiresLoop h hunrolls hmeans
    (Dnf.holds_singleton.mpr fun _ h => absurd h not_mem_nil)

theorem satisfies_typeConstraints (h : typeConstraints params = .ok cs)
    (hpositive : ∀ p ∈ params, "Positive".toList.isPrefixOf p.ty.name.toList = true →
      1 ≤ σ p.name.text) : Satisfies σ cs := by
  intro c hc
  obtain ⟨p, hp, hpre, hholds, _⟩ := typeConstraints_eq_ok h hc
  exact (hholds σ).mpr (hpositive p hp hpre)

theorem exists_invConstraints (h : invConstraints t params = .ok cs) {inv : Invariant} {p : Param}
    (hp : (inv, p) ∈ paramInvariants t params) {e : Expr} (he : e ∈ inv.constraints) :
    ∃ lowered, toConstraints preField (instantiate p.name e) = .ok lowered := by
  obtain ⟨all, hall, _⟩ := bind_eq_ok.mp h
  obtain ⟨group, _, hgroup⟩ := mapM_mem hall hp
  obtain ⟨lowered, _, hlowered⟩ := mapM_mem hgroup he
  exact ⟨lowered, hlowered⟩

theorem satisfies_invConstraints (h : invConstraints t params = .ok cs)
    (hmeans : ∀ inv p, (inv, p) ∈ paramInvariants t params → ∀ e ∈ inv.constraints,
      (instantiate p.name e).Unrolls ∧
        Means (stateAt σ preField) (stateAt σ preField) (instantiate p.name e)) :
        Satisfies σ cs := by
  intro c hc
  obtain ⟨inv, p, hp, e, he, lowered, hlowered, hc⟩ := mem_invConstraints h hc
  obtain ⟨hunrolls, hmeans⟩ := hmeans inv p hp e he
  exact Dnf.holds_singleton.mp
    (holds_of_unrolls (lowersTo_of_toConstraints hlowered) hunrolls hmeans) c hc

end Hold

/-! ### The contract -/

/-- What the contract and the body of a function read. -/
def Func.places (func : Func) : List Place :=
  func.params.map (fun p => .var p.name) ++ (func.requires.flatMap Expr.places ++
    (func.ensures.flatMap Expr.places ++ (bodyAssigns func.body).flatMap fun a => a.value.places))

/-- A function of assignments, whose numbers are those of a parsed text. -/
structure Func.StraightLine (func : Func) : Prop where
  body : func.body.all Stmt.straight = true
  literals : ∀ a ∈ bodyAssigns func.body, ∀ n ∈ a.value.literals, 0 ≤ n ∧ n < 2 ^ 63

def typeInvariants (modules : List Module) (p : Param) : List Invariant :=
  (allInvariants modules).filter fun inv => inv.name = p.ty.name

def InvariantsHold (modules : List Module) (func : Func) (s : State) : Prop :=
  ∀ p ∈ func.params, ∀ inv ∈ typeInvariants modules p, ∀ e ∈ inv.constraints,
    Means (s.within p.name) (s.within p.name) e

/-- A state that a call may start from. -/
structure Entry (modules : List Module) (func : Func) (s : State) : Prop where
  requires : ∀ r ∈ func.requires, Means s s r
  positive : ∀ p ∈ func.params, "Positive".toList.isPrefixOf p.ty.name.toList = true →
    1 ≤ s (.var p.name)
  invariants : InvariantsHold modules func s

/-- A state that a call may end in. -/
structure Exit (modules : List Module) (func : Func) (s s' : State) : Prop where
  ensures : ∀ e ∈ func.ensures, Means s s' e
  invariants : InvariantsHold modules func s'

/-- The places of a function have the same values in a state and under an assignment. -/
structure StandsAt (func : Func) (s s' : State) (σ : String → Int) : Prop where
  pre : SameOn func.places s (stateAt σ preField)
  post : SameOn func.places s' (stateAt σ postField)
  before : ∀ f, σ (beforeVar f) = s (fieldPlace f)
  after : ∀ f, σ (afterVar f) = s' (fieldPlace f)

/-- What makes the proof about a straight-line function carry over to the code that is
emitted for it. -/
structure Func.CarriesOver (debug : Expr → String) (order : FieldOrder) (modules : List Module)
    (func : Func) : Prop where
  /-- Each field is assigned once and not read after that. -/
  once : Once ((bodyAssigns func.body).flatMap Assign.accesses)
  /-- No operator of a value needs parentheses, which are not emitted. -/
  flat : ∀ a ∈ bodyAssigns func.body, a.value.dropOld.Flat
  /-- Different places have different variables. -/
  apart : Apart func.places
  unrolls : ∀ r ∈ func.requires, r.Unrolls
  /-- What is taken for granted of called functions is so wherever a call may start. -/
  granted : ∀ calls, callPremises (tables modules) func = .ok calls →
    ∀ s s' σ, Entry modules func s → StandsAt func s s' σ → Satisfies σ calls
  /-- A product of unknowns is approximated on the side where more is harder. -/
  conservative : ∀ e ∈ func.ensures, e.conservative = true
  covered : ∀ e ∈ func.ensures, ∀ problems,
    buildProblems debug order (tables modules) func = .ok problems →
      ∀ problem ∈ problems, ∀ bounds, collectVarBounds problem.premises = .ok bounds →
        e.Factors (Covered problem.premises bounds) postField
  /-- A clause with `||` follows from each of its comparisons. -/
  whole : ∀ e ∈ func.ensures, Whole e
  /-- A type has a single invariant item, which reads nothing but fields of the type. -/
  single : ∀ p ∈ func.params, ∀ inv ∈ typeInvariants modules p,
    ∀ inv' ∈ typeInvariants modules p, inv = inv'
  bare : ∀ p ∈ func.params, ∀ inv ∈ typeInvariants modules p, ∀ e ∈ inv.constraints,
    e.bare = true

section Invariants

variable {modules : List Module} {func : Func} {inv : Invariant} {p : Param}

theorem mem_paramInvariants (h : (inv, p) ∈ paramInvariants (tables modules) func.params) :
    p ∈ func.params ∧ inv ∈ typeInvariants modules p := by
  obtain ⟨q, hq, hinv⟩ := mem_filterMap.mp h
  obtain ⟨inv', hfind, heq⟩ := Option.map_eq_some_iff.mp hinv
  cases heq
  have hname := find?_some hfind
  have hmem := mem_reverse.mp (mem_of_find?_eq_some hfind)
  exact ⟨hq, mem_filter.mpr ⟨hmem, hname⟩⟩

theorem paramInvariants_of_single (hp : p ∈ func.params) (hinv : inv ∈ typeInvariants modules p)
    (hsingle : ∀ inv' ∈ typeInvariants modules p, inv = inv') :
    (inv, p) ∈ paramInvariants (tables modules) func.params := by
  obtain ⟨hmem, hname⟩ := mem_filter.mp hinv
  refine mem_filterMap.mpr ⟨p, hp, ?_⟩
  cases hfind : (tables modules).invariants p.ty.name with
  | none =>
    have hnone := find?_eq_none.mp hfind inv (mem_reverse.mpr hmem)
    exact absurd hname hnone
  | some inv' =>
    have hmem' := mem_reverse.mp (mem_of_find?_eq_some hfind)
    have hname' := find?_some hfind
    obtain rfl := hsingle inv' (mem_filter.mpr ⟨hmem', hname'⟩)
    rfl

end Invariants

section Lowered

variable {debug : Expr → String} {fieldFn : Naming} {branches out : List BodyBranch}

theorem assigns_lowered {assigns : List Assign}
    (h : assigns.foldlM (processAssign debug fieldFn) branches = .ok out) :
    ∀ a ∈ assigns, ∃ c f, assignConstraint debug fieldFn a = .ok (c, f) := by
  induction assigns generalizing branches with
  | nil => exact fun a ha => absurd ha not_mem_nil
  | cons a assigns ih =>
    rw [foldlM_cons] at h
    obtain ⟨mid, hmid, h⟩ := bind_eq_ok.mp h
    obtain ⟨⟨c, f⟩, hc, _⟩ := bind_eq_ok.mp hmid
    exact forall_mem_cons.mpr ⟨⟨c, f, hc⟩, ih h⟩

theorem bodyAssigns_lowered {body : List Stmt} (hstraight : body.all Stmt.straight = true)
    (h : processBodyStmts debug fieldFn body branches = .ok out) :
    ∀ a ∈ bodyAssigns body, ∃ c f, assignConstraint debug fieldFn a = .ok (c, f) := by
  induction body generalizing branches with
  | nil => exact fun a ha => absurd ha not_mem_nil
  | cons stmt body ih =>
    obtain ⟨hstmt, hbody⟩ := Bool.and_eq_true_iff.mp (all_cons ▸ hstraight)
    rw [processBodyStmts] at h
    obtain ⟨mid, hmid, h⟩ := bind_eq_ok.mp h
    rw [bodyAssigns, flatMap_cons]
    refine forall_mem_append.mpr ⟨?_, ih hbody h⟩
    cases stmt with
    | mutateState assigns => exact assigns_lowered hmid
    | assign a =>
      obtain ⟨⟨c, f⟩, hc, _⟩ := bind_eq_ok.mp hmid
      exact forall_mem_singleton.mpr ⟨c, f, hc⟩
    | _ => cases hstmt

theorem printable_of_lowered {a : Assign} {c : Constraint} {f : FieldRef}
    (h : assignConstraint debug fieldFn a = .ok (c, f)) (hflat : a.value.dropOld.Flat)
    (hliterals : ∀ n ∈ a.value.literals, 0 ≤ n ∧ n < 2 ^ 63) : a.Printable := by
  obtain ⟨htarget, _, l, hl, _⟩ := assignConstraint_eq_ok h
  exact ⟨⟨f.1, f.2, htarget⟩, readable_of_linearize hl hliterals, hflat⟩

theorem noMatch_of_straight {body : List Stmt} (h : body.all Stmt.straight = true) :
    noMatch body = true := by
  induction body with
  | nil => rfl
  | cons stmt body ih =>
    obtain ⟨hstmt, hbody⟩ := Bool.and_eq_true_iff.mp (all_cons ▸ h)
    refine Bool.and_eq_true_iff.mpr ⟨?_, ih hbody⟩
    cases stmt <;> first | rfl | cases hstmt

end Lowered

section Met

variable {debug : Expr → String} {other : State → Expr → Int} {order : FieldOrder}
  {modules : List Module} {func : Func} {problems : List VerificationProblem} {s : State}
  {o : Outcome} {σ : String → Int}

namespace StandsAt

variable {s' : State} (h : StandsAt func s s' σ)

include h

theorem requires : ∀ r ∈ func.requires, SameOn r.places s (stateAt σ preField) := by
  intro r hr
  refine h.pre.right.left.mono fun p hp => ?_
  exact mem_flatMap.mpr ⟨r, hr, hp⟩

theorem ensures : ∀ e ∈ func.ensures,
    SameOn e.places s (stateAt σ preField) ∧ SameOn e.places s' (stateAt σ postField) := by
  intro e he
  have hmem : ∀ p ∈ e.places, p ∈ func.ensures.flatMap Expr.places := fun p hp =>
    mem_flatMap.mpr ⟨e, he, hp⟩
  exact ⟨h.pre.right.right.left.mono hmem, h.post.right.right.left.mono hmem⟩

theorem values : ∀ a ∈ bodyAssigns func.body, SameOn a.value.places s (stateAt σ preField) := by
  intro a ha
  refine h.pre.right.right.right.mono fun p hp => ?_
  exact mem_flatMap.mpr ⟨a, ha, hp⟩

theorem param : ∀ p ∈ func.params, σ p.name.text = s (.var p.name) :=
  fun _ hp => h.pre.left _ (mem_map_of_mem hp)

/-- An invariant for a parameter says under the assignment what it says in the states. -/
theorem invariant {e : Expr} (hbare : e.bare = true) (base : Name) :
    (Means (stateAt σ preField) (stateAt σ preField) (instantiate base e) ↔
      Means (s.within base) (s.within base) e) ∧
      (Means (stateAt σ preField) (stateAt σ postField) (instantiate base e) ↔
        Means (s'.within base) (s'.within base) e) := by
  have hfields := places_instantiate hbare base
  have hpre : SameOn (instantiate base e).places s (stateAt σ preField) := by
    intro p hp
    obtain ⟨f, rfl⟩ := hfields p hp
    exact h.before f
  have hpost : SameOn (instantiate base e).places s' (stateAt σ postField) := by
    intro p hp
    obtain ⟨f, rfl⟩ := hfields p hp
    exact h.after f
  constructor
  · rw [← means_congr hpre hpre]
    exact means_instantiate hbare base _ _
  · rw [← means_congr hpre hpost]
    exact means_instantiate hbare base _ _

end StandsAt

theorem exists_standsAt (hstraight : func.StraightLine) (hapart : Apart func.places)
    (ho : runBlock other func.body s = some o) : ∃ σ, StandsAt func s o.state σ := by
  rw [runBlock_straight hstraight.body] at ho
  have hkeeps : ∀ p : Place, p.moves = false → o.state p = s p := by
    intro p hp
    refine runAssigns_keeps ho ?_
    rintro f rfl
    cases hp
  obtain ⟨σ, hpre, hpost, hbefore, hafter⟩ := exists_stateAt hapart hkeeps
  exact ⟨σ, hpre, hpost, hbefore, hafter⟩

theorem agrees_of_standsAt (hstraight : func.StraightLine)
    (h : func.CarriesOver debug order modules) (ho : runBlock other func.body s = some o)
    (hσ : StandsAt func s o.state σ) :
    Agrees σ .start s o := by
  rw [runBlock_straight hstraight.body] at ho
  obtain ⟨haccesses, hskipped⟩ := accesses_of_runAssigns ho
  refine ⟨haccesses ▸ h.once, fun f hf => absurd hf not_mem_nil, fun f _ => hσ.before f,
    fun x hx => ?_, fun f _ => hσ.after f, by rw [hskipped]; rfl⟩
  obtain ⟨⟨a, ha, hmem⟩, hvalue, _⟩ := mem_seen_of_runAssigns ho hx
  rw [hvalue]
  exact hσ.values a ha x.1 hmem

theorem exists_problem (hstraight : func.StraightLine)
    (h : func.CarriesOver debug order modules)
    (hproblems : buildProblems debug order (tables modules) func = .ok problems)
    (hentry : Entry modules func s) (ho : runBlock other func.body s = some o)
    (hσ : StandsAt func s o.state σ) :
    ∃ parts : Parts debug (tables modules) func, ∃ r ∈ parts.requires, ∃ b ∈ parts.branches,
      ∃ problem ∈ problems, ∃ premises funcName, parts.Premises order r b premises ∧
        buildProblem (tables modules) func funcName premises = .ok problem ∧
          Satisfies σ premises := by
  obtain ⟨parts, _, hall⟩ := buildProblems_eq_ok hproblems
  have hagrees := agrees_of_standsAt hstraight h ho hσ
  obtain ⟨b, hb, hcovers⟩ := exists_covering_branch func.body parts.hbranches ho
    (mem_singleton_self _) ⟨fun _ hc => absurd hc not_mem_nil,
      fun _ hc => absurd hc not_mem_nil⟩ hagrees
  obtain ⟨r, hr, hrequires⟩ := exists_requires parts.hrequires h.unrolls fun e he => by
    rw [← means_congr (hσ.requires e he) (hσ.requires e he)]
    exact hentry.requires e he
  obtain ⟨problem, hproblem, premises, funcName, hpremises, hbuild⟩ := hall r hr b hb
  refine ⟨parts, r, hr, b, hb, problem, hproblem, premises, funcName, hpremises, hbuild, ?_⟩
  obtain ⟨frame, hframe, rfl⟩ := parts.premises_eq hpremises
  have hcalls : Satisfies σ parts.calls := h.granted _ parts.hcalls s _ σ hentry hσ
  have htypes : Satisfies σ parts.types := by
    refine satisfies_typeConstraints parts.htypes fun p hp hpre => ?_
    rw [hσ.param p hp]
    exact hentry.positive p hp hpre
  have hinvs : Satisfies σ parts.invs := by
    refine satisfies_invConstraints parts.hinvs fun inv p hp e he => ?_
    obtain ⟨hparam, hinv⟩ := mem_paramInvariants hp
    have hbare := h.bare p hparam inv hinv e he
    exact ⟨unrolls_instantiate hbare p.name,
      (hσ.invariant hbare p.name).1.mpr (hentry.invariants p hparam inv hinv e he)⟩
  have hframes : Satisfies σ frame := by
    intro c hc
    obtain ⟨f, _, hassigned, _, hholds⟩ := frameAxioms_eq_ok hframe hc
    rw [hholds]
    -- a field that the branch does not assign is not written by the run
    have hwritten : .write f ∉ o.accesses := fun hmem => hassigned ((hcovers.2 f).mpr (Or.inr hmem))
    exact (hσ.after f).trans ((runBlock_unwritten _ ho hwritten).trans (hσ.before f).symm)
  simp only [satisfies_append]
  exact ⟨⟨⟨⟨⟨⟨hrequires, hcalls⟩, htypes⟩, hinvs⟩, hcovers.1.1⟩, hcovers.1.2⟩, hframes⟩

theorem exit_of_verified (hstraight : func.StraightLine)
    (h : func.CarriesOver debug order modules)
    (hproblems : buildProblems debug order (tables modules) func = .ok problems)
    (hverified : ∀ problem ∈ problems, ∃ order result,
      verify order problem = .ok result ∧ result.allPassed = true)
    (hentry : Entry modules func s) (ho : runBlock other func.body s = some o) :
    Exit modules func s o.state := by
  obtain ⟨σ, hσ⟩ := exists_standsAt hstraight h.apart ho
  obtain ⟨parts, r, hr, b, hb, problem, hproblem, premises, funcName, hpremises, hbuild, hholds⟩ :=
    exists_problem hstraight h hproblems hentry ho hσ
  obtain ⟨vorder, result, hresult, hpass⟩ := hverified problem hproblem
  have heq := (buildProblem_eq_ok hbuild).1
  have hdup : DupFree problem.premises := heq ▸ (parts.proper hr hb hpremises).dupFree
  have hsat : Satisfies σ problem.premises := heq ▸ hholds
  obtain ⟨hensures, hinvariants⟩ := conclusions_of_buildProblem hbuild
  constructor
  · intro e he
    obtain ⟨bounds, dnf, approx, hbounds, hdnf, hcontributes⟩ := hensures e he
    have hconservative := h.conservative e he
    have hfactors := (h.covered e he problems hproblems problem hproblem bounds hbounds).looksUp
      hbounds hsat
    have hensured : Ensured σ e :=
      ensured_of_lowered hdup (dupFree_conclusions hbuild) hresult hpass
      hsat (h.whole e he) hdnf (means_of_branches hconservative hfactors hdnf)
      (comparisons_of_branches hconservative hfactors hdnf) hcontributes
    obtain ⟨hpre, hpost⟩ := hσ.ensures e he
    exact (means_congr hpre hpost).mpr hensured
  · intro p hp inv hinv e he
    have hmem := paramInvariants_of_single hp hinv (h.single p hp inv hinv)
    obtain ⟨bounds, lowered, approx, hlowered, hall⟩ := hinvariants inv p hmem e he
    obtain ⟨entry, hentryLowered⟩ := exists_invConstraints parts.hinvs hmem he
    have haffine := (lowersTo_of_toConstraints hentryLowered).affine
    refine (hσ.invariant (h.bare p hp inv hinv e he) p.name).2.mp ?_
    rw [← holds_toConstraintsBounded haffine hlowered]
    intro c hc
    obtain ⟨concl, hconcl, hnone, rfl⟩ := hall c hc
    exact (holds_of_verify hdup (dupFree_conclusions hbuild) hresult hpass hsat).1
      concl hconcl hnone

end Met

/-- Where every problem of a straight-line function passes and its proof carries over,
the assignments that are emitted for it lead from every state that meets the requires
clauses, the constraints of types and the invariants to one that meets the ensures
clauses and the invariants. -/
theorem contract_met (debug : Expr → String) (order : FieldOrder) (modules : List Module)
    (all : List VerificationProblem) (hextract : extract debug order modules = .ok all)
    (func : Func)
    (hfunc : func ∈ allFuncs modules) (hstraight : func.StraightLine)
    (hverified : ∀ problems, buildProblems debug order (tables modules) func = .ok problems →
      ∀ problem ∈ problems, ∃ order result,
        verify order problem = .ok result ∧ result.allPassed = true)
    (h : func.CarriesOver debug order modules) (s : State) (hentry : Entry modules func s) :
    ∃ s', runText (renderBody func.body) s = some s' ∧ Exit modules func s s' := by
  obtain ⟨groups, hgroups, _⟩ := bind_eq_ok.mp hextract
  obtain ⟨problems, _, hproblems⟩ := mapM_mem hgroups hfunc
  obtain ⟨parts, _⟩ := buildProblems_eq_ok hproblems
  have hprintable : ∀ a ∈ bodyAssigns func.body, a.Printable := fun a ha => by
    obtain ⟨c, f, hc⟩ := bodyAssigns_lowered hstraight.body parts.hbranches a ha
    exact printable_of_lowered hc (h.flat a ha) (hstraight.literals a ha)
  have hruns : ∃ o, runBlock (fun _ _ => 0) func.body s = some o :=
    exists_runBlock func.body parts.hbranches (noMatch_of_straight hstraight.body) s
  obtain ⟨o, ho⟩ := hruns
  refine ⟨o.state, ?_, exit_of_verified hstraight h hproblems
    (hverified problems hproblems) hentry ho⟩
  rw [runText_renderBody hstraight.body hprintable s, ho]
  rfl

section Examples

def depositFunc : Func where
  name := word "deposit" (by decide)
  params := [⟨wallet, .named "Wallet"⟩, ⟨word "n" (by decide), .named "PositiveInt"⟩]
  requires := [.bin .lt (.var (word "n" (by decide))) (.field wallet limit)]
  ensures := [.bin .gt (.field wallet balance) (.old (.field wallet balance))]
  body := [.assign ⟨.field wallet balance, .add, .var (word "n" (by decide))⟩]
  elided := false
  span := ⟨1, 1⟩
  ensuresSpans := []

/-- `balance >= 0` -/
def walletInvariant : Invariant :=
  ⟨"Wallet", [.bin .ge (.var balance) (.int 0)], ⟨1, 1⟩, []⟩

def depositModules : List Module :=
  [⟨[.invariant walletInvariant, .func depositFunc]⟩]

def depositProblem : VerificationProblem where
  funcName := "deposit"
  funcSpan := ⟨1, 1⟩
  premises := [⟨⟨[("n", 1), ("w.limit", -1)], 0⟩, .lt⟩, ⟨⟨[("n", 1)], -1⟩, .ge⟩,
    ⟨⟨[("w.balance", 1)], 0⟩, .ge⟩, ⟨⟨[("w.balance'", 1), ("w.balance", -1), ("n", -1)], 0⟩, .eq⟩,
    ⟨⟨[("w.limit'", 1), ("w.limit", -1)], 0⟩, .eq⟩]
  conclusions := [⟨"ensures: w.balance > old(w.balance)",
      ⟨⟨[("w.balance'", 1), ("w.balance", -1)], 0⟩, .gt⟩, true, false, ⟨1, 1⟩, none⟩,
    ⟨"invariant Wallet maintained: w.balance >= 0", ⟨⟨[("w.balance'", 1)], 0⟩, .ge⟩, false, false,
      ⟨1, 1⟩, none⟩]

theorem typeInvariants_deposit (p : Param) :
    ∀ inv ∈ typeInvariants depositModules p, inv = walletInvariant := by
  intro inv hinv
  obtain ⟨hmem, _⟩ := mem_filter.mp hinv
  exact mem_singleton.mp hmem

theorem deposit_carriesOver : depositFunc.CarriesOver pretty .first depositModules where
  once := by decide
  flat := forall_mem_singleton.mpr trivial
  apart := by decide
  unrolls := forall_mem_singleton.mpr (by simp [Expr.Unrolls])
  granted calls hcalls := by
    cases hcalls
    exact fun _ _ _ _ _ _ hc => absurd hc not_mem_nil
  conservative := by decide
  covered := forall_mem_singleton.mpr fun _ _ _ _ _ _ => ⟨trivial, trivial, fun h => nomatch h⟩
  whole := forall_mem_singleton.mpr fun h => absurd h Bool.false_ne_true
  single p hp inv hinv inv' hinv' := by
    rw [typeInvariants_deposit p inv hinv, typeInvariants_deposit p inv' hinv']
  bare p hp inv hinv := by
    rw [typeInvariants_deposit p inv hinv]
    exact forall_mem_singleton.mpr rfl

/-- A deposit of one into a wallet of one, with a limit of two. -/
theorem contract_met_deposit :
    let s : State := fun p => if p = .field wallet limit then 2 else 1
    ∃ s', runText "    w.balance += n;\n" s = some s' ∧ Exit depositModules depositFunc s s' := by
  intro s
  have hbuild : buildProblems pretty .first (tables depositModules) depositFunc =
    .ok [depositProblem] := by
    decide +kernel
  have hproper : depositProblem.Proper := by decide
  refine contract_met pretty .first depositModules [depositProblem] (by decide +kernel) depositFunc
    (mem_singleton_self _)
    ⟨rfl, forall_mem_singleton.mpr fun n hn => absurd hn not_mem_nil⟩
    (fun problems hproblems => ?_) deposit_carriesOver s ?_
  · rw [hbuild] at hproblems
    cases hproblems
    obtain ⟨result, hresult⟩ := verify_ok .sorted hproper
    refine forall_mem_singleton.mpr ⟨.sorted, result, hresult, ?_⟩
    exact allPassed_of_entailed hproper (by decide) (by decide) hresult
  · refine ⟨forall_mem_singleton.mpr ⟨1, 2, rfl, rfl, by decide⟩, fun p hp _ => ?_,
      fun p hp inv hinv => ?_⟩
    · exact le_refl 1
    · rw [typeInvariants_deposit p inv hinv]
      refine forall_mem_singleton.mpr ⟨s (.field p.name balance), 0, rfl, rfl, ?_⟩
      dsimp only [s]
      split <;> decide

def fieldA : Name :=
  ⟨"a", .refl true⟩

def fieldB : Name :=
  ⟨"b", .refl true⟩

/-- `w.a = 1; w.b = w.a` is to leave the old value of `w.a` in `w.b`. -/
def copyFunc : Func where
  name := word "copy" (by decide)
  params := [⟨wallet, .named "Wallet"⟩]
  requires := []
  ensures := [.bin .eq (.field wallet fieldB) (.old (.field wallet fieldA))]
  body := [setField fieldA (.int 1), setField fieldB (.field wallet fieldA)]
  elided := false
  span := ⟨1, 1⟩
  ensuresSpans := []

/-- The proof reads `w.a` before the body, the code after its first line. -/
theorem overwritten_field_read :
    let modules : List Module := [⟨[.func copyFunc]⟩]
    let problem : VerificationProblem := ⟨"copy", ⟨1, 1⟩,
      [⟨⟨[("w.a'", 1)], -1⟩, .eq⟩, ⟨⟨[("w.b'", 1), ("w.a", -1)], 0⟩, .eq⟩],
      [⟨"ensures: w.b == old(w.a)", ⟨⟨[("w.b'", 1), ("w.a", -1)], 0⟩, .eq⟩, true, false, ⟨1, 1⟩,
        none⟩]⟩
    extract pretty .first modules = .ok [problem] ∧ copyFunc.StraightLine ∧
      (∀ order, ∃ result, verify order problem = .ok result ∧ result.allPassed = true) ∧
        ∃ s s', Entry modules copyFunc s ∧
          runText "    w.a = 1;\n    w.b = w.a;\n" s = some s' ∧ ¬Exit modules copyFunc s s' := by
  intro modules problem
  have hproper : problem.Proper := by decide
  refine ⟨by decide, ⟨rfl, ?_⟩, fun order => ?_, fun _ => 0,
    State.assign (State.assign (fun _ => 0) (wallet, fieldA) 1) (wallet, fieldB) 1, ?_, ?_,
    fun hexit => ?_⟩
  · exact forall_mem_cons.mpr ⟨forall_mem_singleton.mpr (by decide),
      forall_mem_singleton.mpr fun n hn => absurd hn not_mem_nil⟩
  · obtain ⟨result, hresult⟩ := verify_ok order hproper
    exact ⟨result, hresult, allPassed_of_entailed hproper (by decide) (by decide) hresult⟩
  · refine ⟨fun r hr => absurd hr not_mem_nil, fun p hp hpre => ?_, fun p hp inv hinv => ?_⟩
    · rw [mem_singleton.mp hp] at hpre
      cases hpre
    · cases hinv
  · have hprintable : ∀ a ∈ bodyAssigns copyFunc.body, a.Printable :=
      forall_mem_cons.mpr ⟨⟨⟨wallet, fieldA, rfl⟩, ⟨by decide, by decide⟩, trivial⟩,
        forall_mem_singleton.mpr ⟨⟨wallet, fieldB, rfl⟩, trivial, trivial⟩⟩
    have htext : runText (renderBody copyFunc.body) (fun _ => 0) =
        (runBlock (fun _ _ => 0) copyFunc.body fun _ => 0).map Outcome.state :=
      runText_renderBody rfl hprintable _
    exact htext
  · obtain ⟨x, y, hx, hy, hxy⟩ := hexit.ensures _ (mem_singleton_self _)
    cases hx
    cases hy
    cases hxy

end Examples

end Oikos.Telos
