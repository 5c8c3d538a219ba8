/-
The constraints that telos verifies: linear expressions over named variables,
compared with zero.
-/
import Oikos.Lib.Run
import Mathlib.Algebra.BigOperators.Group.List.Basic
import Mathlib.Data.List.Nodup
import Mathlib.Data.String.Basic
import Mathlib.Tactic.Ring

namespace Oikos.Telos

open List

inductive Relation where
  | le
  | lt
  | ge
  | gt
  | eq
  | ne
deriving Repr, DecidableEq

/-- What a relation says of a number, compared with zero. -/
def Relation.Holds : Relation → Int → Prop
  | .le, n => n ≤ 0
  | .lt, n => n < 0
  | .ge, n => 0 ≤ n
  | .gt, n => 0 < n
  | .eq, n => n = 0
  | .ne, n => n ≠ 0

instance (rel : Relation) (n : Int) : Decidable (rel.Holds n) := by
  cases rel <;> unfold Relation.Holds <;> infer_instance

/-- A number that fits a signed word of 64 bits; arithmetic panics on any other. -/
def i64 {E : Type} (n : Int) : Result E Int :=
  if -2 ^ 63 ≤ n ∧ n < 2 ^ 63 then .ok n else .error .panic

theorem i64_eq_ok {E : Type} {n m : Int} (h : (i64 n : Result E Int) = .ok m) : m = n := by
  unfold i64 at h
  split at h
  · cases h
    rfl
  · cases h

structure Linear where
  terms : List (String × Int)
  constant : Int
deriving Repr, DecidableEq

namespace Linear

variable {E : Type}

def var (name : String) : Linear :=
  ⟨[(name, 1)], 0⟩

def constantOnly (c : Int) : Linear :=
  ⟨[], c⟩

def addTerm : List (String × Int) → String × Int → Result E (List (String × Int))
  | [], t => .ok [t]
  | p :: terms, t =>
    if p.1 = t.1 then do
      let c ← i64 (p.2 + t.2)
      .ok ((p.1, c) :: terms)
    else do
      let rest ← addTerm terms t
      .ok (p :: rest)

def add (l l' : Linear) : Result E Linear := do
  let terms ← l'.terms.foldlM addTerm l.terms
  let constant ← i64 (l.constant + l'.constant)
  .ok ⟨terms.filter fun t => t.2 ≠ 0, constant⟩

def mapCoeffs (f : Int → Int) (terms : List (String × Int)) : Result E (List (String × Int)) :=
  terms.mapM fun t => do
    let c ← i64 (f t.2)
    .ok (t.1, c)

def neg (l : Linear) : Result E Linear := do
  let terms ← mapCoeffs (-·) l.terms
  let constant ← i64 (-l.constant)
  .ok ⟨terms, constant⟩

def sub (l l' : Linear) : Result E Linear := do
  l.add (← l'.neg)

def scale (l : Linear) (k : Int) : Result E Linear := do
  let terms ← mapCoeffs (· * k) l.terms
  let constant ← i64 (l.constant * k)
  .ok ⟨terms, constant⟩

/-- The value of a linear expression under an assignment. -/
def eval (σ : String → Int) (l : Linear) : Int :=
  (l.terms.map fun t => t.2 * σ t.1).sum + l.constant

/-- No variable has two terms. -/
def DupFree (l : Linear) : Prop :=
  (l.terms.map Prod.fst).Nodup

/-- Every term has a variable of its own and a coefficient that is not zero. -/
def Proper (l : Linear) : Prop :=
  l.DupFree ∧ ∀ t ∈ l.terms, t.2 ≠ 0

end Linear

structure Constraint where
  lin : Linear
  rel : Relation
deriving Repr, DecidableEq

def Constraint.Holds (σ : String → Int) (c : Constraint) : Prop :=
  c.rel.Holds (c.lin.eval σ)

def Satisfies (σ : String → Int) (cs : List Constraint) : Prop :=
  ∀ c ∈ cs, c.Holds σ

def DupFree (cs : List Constraint) : Prop :=
  ∀ c ∈ cs, c.lin.DupFree

/-- Every term of the constraints has a variable of its own and a coefficient that is
not zero. -/
def Proper (cs : List Constraint) : Prop :=
  ∀ c ∈ cs, c.lin.DupFree ∧ ∀ t ∈ c.lin.terms, t.2 ≠ 0

instance (cs : List Constraint) : Decidable (Proper cs) :=
  inferInstanceAs (Decidable
    (∀ c ∈ cs, (c.lin.terms.map Prod.fst).Nodup ∧ ∀ t ∈ c.lin.terms, t.2 ≠ 0))

theorem Proper.dupFree {cs : List Constraint} (h : Proper cs) : DupFree cs :=
  fun c hc => (h c hc).1

/-! ### Values -/

namespace Linear

variable {E : Type} {σ : String → Int} {l l' r : Linear} {terms terms' : List (String × Int)}
  {t : String × Int}

@[simp] theorem eval_var (name : String) : (var name).eval σ = σ name := by
  simp [eval, var]

@[simp] theorem eval_constantOnly (c : Int) : (constantOnly c).eval σ = c := by
  simp [eval, constantOnly]

/-- The value of the terms of a linear expression. -/
def sumTerms (σ : String → Int) (terms : List (String × Int)) : Int :=
  (terms.map fun t => t.2 * σ t.1).sum

@[simp] theorem sumTerms_nil : sumTerms σ [] = 0 := rfl

@[simp] theorem sumTerms_cons :
    sumTerms σ (t :: terms) = t.2 * σ t.1 + sumTerms σ terms :=
  sum_cons

theorem sumTerms_addTerm (h : (addTerm terms t : Result E _) = .ok terms') :
    sumTerms σ terms' = sumTerms σ terms + t.2 * σ t.1 := by
  induction terms generalizing terms' with
  | nil =>
    cases h
    simp
  | cons p terms ih =>
    unfold addTerm at h
    split at h
    · next hp =>
      obtain ⟨c, hc, h⟩ := bind_eq_ok.mp h
      cases h
      rw [sumTerms_cons, sumTerms_cons, i64_eq_ok hc, ← hp]
      ring
    · obtain ⟨rest, hrest, h⟩ := bind_eq_ok.mp h
      cases h
      rw [sumTerms_cons, sumTerms_cons, ih hrest, add_assoc]

theorem sumTerms_foldlM {more : List (String × Int)}
    (h : (more.foldlM addTerm terms : Result E _) = .ok terms') :
    sumTerms σ terms' = sumTerms σ terms + sumTerms σ more := by
  induction more generalizing terms with
  | nil =>
    cases h
    simp
  | cons t more ih =>
    rw [foldlM_cons] at h
    obtain ⟨mid, hmid, h⟩ := bind_eq_ok.mp h
    rw [ih h, sumTerms_addTerm hmid, sumTerms_cons, add_assoc]

theorem sumTerms_filter (terms : List (String × Int)) :
    sumTerms σ (terms.filter fun t => t.2 ≠ 0) = sumTerms σ terms := by
  induction terms with
  | nil => rfl
  | cons t terms ih =>
    by_cases ht : t.2 = 0
    · rw [filter_cons_of_neg (by simpa using ht), sumTerms_cons, ih, ht]
      simp
    · rw [filter_cons_of_pos (by simpa using ht), sumTerms_cons, sumTerms_cons, ih]

theorem eval_add (h : (l.add l' : Result E _) = .ok r) : r.eval σ = l.eval σ + l'.eval σ := by
  obtain ⟨terms, hterms, h⟩ := bind_eq_ok.mp h
  obtain ⟨constant, hconstant, h⟩ := bind_eq_ok.mp h
  cases h
  have hsum : sumTerms σ terms = sumTerms σ l.terms + sumTerms σ l'.terms := sumTerms_foldlM hterms
  change sumTerms σ (terms.filter fun t => t.2 ≠ 0) + constant = _
  rw [sumTerms_filter, hsum, i64_eq_ok hconstant]
  unfold eval sumTerms
  ring

theorem ne_zero_of_mem_add (h : (l.add l' : Result E _) = .ok r) (ht : t ∈ r.terms) : t.2 ≠ 0 := by
  obtain ⟨terms, _, h⟩ := bind_eq_ok.mp h
  obtain ⟨constant, _, h⟩ := bind_eq_ok.mp h
  cases h
  simpa using (mem_filter.mp ht).2

theorem ne_zero_of_mem_sub (h : (l.sub l' : Result E _) = .ok r) (ht : t ∈ r.terms) : t.2 ≠ 0 := by
  obtain ⟨neg, _, h⟩ := bind_eq_ok.mp h
  exact ne_zero_of_mem_add h ht

variable {f : Int → Int} {k : Int}

theorem forall₂_mapCoeffs (h : (mapCoeffs f terms : Result E _) = .ok terms') :
    List.Forall₂ (fun t t' => t' = (t.1, f t.2)) terms terms' := by
  refine (mapM_eq_ok.mp h).imp ?_
  intro t t' ht
  obtain ⟨c, hc, ht⟩ := bind_eq_ok.mp ht
  cases ht
  rw [i64_eq_ok hc]

theorem mapCoeffs_eq (h : (mapCoeffs f terms : Result E _) = .ok terms') :
    terms' = terms.map fun t => (t.1, f t.2) := by
  have hall := forall₂_mapCoeffs h
  clear h
  induction hall with
  | nil => rfl
  | cons ht _ ih => rw [map_cons, ht, ih]

theorem sumTerms_map (hf : ∀ c, f c = c * k) (terms : List (String × Int)) :
    sumTerms σ (terms.map fun t => (t.1, f t.2)) = sumTerms σ terms * k := by
  induction terms with
  | nil => simp
  | cons t terms ih =>
    rw [map_cons, sumTerms_cons, sumTerms_cons, ih, hf]
    ring

theorem sumTerms_mapCoeffs (hf : ∀ c, f c = c * k)
    (h : (mapCoeffs f terms : Result E _) = .ok terms') :
    sumTerms σ terms' = sumTerms σ terms * k := by
  rw [mapCoeffs_eq h, sumTerms_map hf]

theorem eval_scale (h : (l.scale k : Result E _) = .ok r) : r.eval σ = l.eval σ * k := by
  obtain ⟨terms, hterms, h⟩ := bind_eq_ok.mp h
  obtain ⟨constant, hconstant, h⟩ := bind_eq_ok.mp h
  cases h
  have hsum : sumTerms σ terms = sumTerms σ l.terms * k := sumTerms_mapCoeffs (fun _ => rfl) hterms
  change sumTerms σ terms + constant = _
  rw [hsum, i64_eq_ok hconstant]
  unfold eval sumTerms
  ring

theorem eval_neg (h : (l.neg : Result E _) = .ok r) : r.eval σ = -l.eval σ := by
  obtain ⟨terms, hterms, h⟩ := bind_eq_ok.mp h
  obtain ⟨constant, hconstant, h⟩ := bind_eq_ok.mp h
  cases h
  have hsum : sumTerms σ terms = sumTerms σ l.terms * -1 :=
    sumTerms_mapCoeffs (fun c => by ring) hterms
  change sumTerms σ terms + constant = _
  rw [hsum, i64_eq_ok hconstant]
  unfold eval sumTerms
  ring

theorem eval_sub (h : (l.sub l' : Result E _) = .ok r) : r.eval σ = l.eval σ - l'.eval σ := by
  obtain ⟨neg, hneg, h⟩ := bind_eq_ok.mp h
  rw [eval_add h, eval_neg hneg, sub_eq_add_neg]

/-! ### Names -/

theorem dupFree_var (name : String) : (var name).DupFree := by
  simp [DupFree, var]

theorem dupFree_constantOnly (c : Int) : (constantOnly c).DupFree := by
  simp [DupFree, constantOnly]

theorem names_addTerm (h : (addTerm terms t : Result E _) = .ok terms') :
    terms'.map Prod.fst =
      if t.1 ∈ terms.map Prod.fst then terms.map Prod.fst else terms.map Prod.fst ++ [t.1] := by
  induction terms generalizing terms' with
  | nil =>
    cases h
    simp
  | cons p terms ih =>
    unfold addTerm at h
    split at h
    · next hp =>
      obtain ⟨c, hc, h⟩ := bind_eq_ok.mp h
      cases h
      simp [hp]
    · next hp =>
      obtain ⟨rest, hrest, h⟩ := bind_eq_ok.mp h
      cases h
      rw [map_cons, ih hrest, map_cons]
      by_cases ht : t.1 ∈ terms.map Prod.fst
      · rw [if_pos ht, if_pos (mem_cons_of_mem _ ht)]
      · have hnew : t.1 ∉ p.1 :: terms.map Prod.fst := by
          rw [mem_cons]
          exact not_or.mpr ⟨Ne.symm hp, ht⟩
        rw [if_neg ht, if_neg hnew, cons_append]

theorem nodup_foldlM {more : List (String × Int)} (hterms : (terms.map Prod.fst).Nodup)
    (h : (more.foldlM addTerm terms : Result E _) = .ok terms') : (terms'.map Prod.fst).Nodup := by
  induction more generalizing terms with
  | nil =>
    cases h
    exact hterms
  | cons t more ih =>
    rw [foldlM_cons] at h
    obtain ⟨mid, hmid, h⟩ := bind_eq_ok.mp h
    refine ih ?_ h
    rw [names_addTerm hmid]
    split
    · exact hterms
    · next hnew =>
      rw [← concat_eq_append]
      exact Nodup.concat hnew hterms

theorem dupFree_add (hl : l.DupFree) (h : (l.add l' : Result E _) = .ok r) : r.DupFree := by
  obtain ⟨terms, hterms, h⟩ := bind_eq_ok.mp h
  obtain ⟨constant, _, h⟩ := bind_eq_ok.mp h
  cases h
  exact (nodup_foldlM hl hterms).sublist (filter_sublist.map Prod.fst)

theorem names_mapCoeffs (h : (mapCoeffs f terms : Result E _) = .ok terms') :
    terms'.map Prod.fst = terms.map Prod.fst := by
  rw [mapCoeffs_eq h, map_map]
  rfl

theorem dupFree_scale (hl : l.DupFree) (h : (l.scale k : Result E _) = .ok r) : r.DupFree := by
  obtain ⟨terms, hterms, h⟩ := bind_eq_ok.mp h
  obtain ⟨constant, _, h⟩ := bind_eq_ok.mp h
  cases h
  rw [DupFree, names_mapCoeffs hterms]
  exact hl

theorem dupFree_sub (hl : l.DupFree) (h : (l.sub l' : Result E _) = .ok r) : r.DupFree := by
  obtain ⟨neg, _, h⟩ := bind_eq_ok.mp h
  exact dupFree_add hl h

theorem proper_add (hl : l.DupFree) (h : (l.add l' : Result E _) = .ok r) : r.Proper :=
  ⟨dupFree_add hl h, fun _ => ne_zero_of_mem_add h⟩

theorem proper_sub (hl : l.DupFree) (h : (l.sub l' : Result E _) = .ok r) : r.Proper :=
  ⟨dupFree_sub hl h, fun _ => ne_zero_of_mem_sub h⟩

theorem dupFree_neg (hl : l.DupFree) (h : (l.neg : Result E _) = .ok r) : r.DupFree := by
  obtain ⟨terms, hterms, h⟩ := bind_eq_ok.mp h
  obtain ⟨constant, _, h⟩ := bind_eq_ok.mp h
  cases h
  rw [DupFree, names_mapCoeffs hterms]
  exact hl

end Linear

theorem satisfies_append {σ : String → Int} {cs cs' : List Constraint} :
    Satisfies σ (cs ++ cs') ↔ Satisfies σ cs ∧ Satisfies σ cs' :=
  forall_mem_append

theorem satisfies_singleton {σ : String → Int} {c : Constraint} : Satisfies σ [c] ↔ c.Holds σ :=
  forall_mem_singleton

end Oikos.Telos
