/-
The locations that an arithmetic expression reads, before and after, and the solver
variables that stand for them: the linear form is exact just where no two locations
share one.
-/
import Oikos.Telos.Names

namespace Oikos.Telos

open List

/-- Only what belongs to a record is assigned. -/
def Place.inRecord : Place → Bool
  | .field _ _ | .fieldElem _ _ _ => true
  | .var _ | .varElem _ _ => false

structure Location where
  after : Bool
  place : Place
deriving DecidableEq

/-- The location that a place is in a state: what is not assigned is the same in both. -/
def Location.of (after : Bool) (p : Place) : Location :=
  ⟨after && p.inRecord, p⟩

def naming (after : Bool) : Naming :=
  if after then postField else preField

def Location.name (x : Location) : String :=
  x.place.name (naming x.after)

abbrev Memory := Location → Int

def Memory.state (m : Memory) (after : Bool) : State :=
  fun p => m (.of after p)

/-- The locations that the value of an expression depends on. -/
def Expr.locations (after : Bool) : Expr → List Location
  | .var v => [.of after (.var v)]
  | .field b f => [.of after (.field b f)]
  | .old e => e.locations false
  | .unary _ e => e.locations after
  | .bin _ lhs rhs => lhs.locations after ++ rhs.locations after
  | .index receiver i => (elemPlace receiver i).toList.map (Location.of after)
  | _ => []

/-- No two of the locations are elements of different fields of one record at one index, or
elements at one index of an array and of a field of a record with its name. -/
def Distinct (locations : List Location) : Prop :=
  ∀ x ∈ locations, ∀ y ∈ locations,
    x.after = y.after → x.place.plain = y.place.plain → x.place = y.place

instance (locations : List Location) : Decidable (Distinct locations) :=
  inferInstanceAs (Decidable (∀ x ∈ locations, ∀ y ∈ locations,
    x.after = y.after → x.place.plain = y.place.plain → x.place = y.place))

/-! ### Names of locations -/

section Names

variable {after : Bool} {x y : Location} {p q : Place}

theorem name_of (after : Bool) (p : Place) :
    (Location.of after p).name = p.name (naming after) := by
  cases p <;> cases after <;> rfl

theorem Place.name_post (h : p.inRecord = true) : p.name postField = p.name preField ++ "'" := by
  cases p with
  | field _ _ | fieldElem _ _ _ => rfl
  | _ => cases h

def Location.Proper (x : Location) : Prop :=
  x.after = true → x.place.inRecord = true

theorem proper_of (after : Bool) (p : Place) : (Location.of after p).Proper :=
  fun h => (Bool.and_eq_true_iff.mp h).2

theorem proper_locations {e : Expr} : ∀ x ∈ e.locations after, x.Proper := by
  induction e using Expr.operatorInduction generalizing after with
  | var v => exact forall_mem_singleton.mpr (proper_of _ _)
  | field b f => exact forall_mem_singleton.mpr (proper_of _ _)
  | old e ih => exact ih
  | unary op e ih => exact ih
  | bin op lhs rhs ihl ihr => exact forall_mem_append.mpr ⟨ihl, ihr⟩
  | index receiver index =>
    intro x hx
    obtain ⟨p, _, rfl⟩ := mem_map.mp hx
    exact proper_of _ _
  | _ => exact fun _ h => nomatch h

/-- Names tell the state and the place up to the field of an element. -/
theorem Location.name_eq_iff (hx : x.Proper) (hy : y.Proper) :
    x.name = y.name ↔ x.after = y.after ∧ x.place.plain = y.place.plain := by
  obtain ⟨a, p⟩ := x
  obtain ⟨b, q⟩ := y
  have hquote : ∀ s t : Place, s.name preField ++ "'" ≠ t.name preField := by
    intro s t h
    refine t.quote_not_mem ?_
    rw [← h, String.toList_append]
    simp
  have hplain : p.plain = q.plain → p.name preField = q.name preField := by
    intro h
    rw [← Place.name_plain p, h, Place.name_plain]
  constructor
  · intro h
    cases a with
    | false =>
      cases b with
      | false => exact ⟨rfl, Place.plain_eq h⟩
      | true =>
        change p.name preField = q.name postField at h
        rw [Place.name_post (hy rfl)] at h
        exact absurd h.symm (hquote q p)
    | true =>
      change p.name postField = _ at h
      rw [Place.name_post (hx rfl)] at h
      cases b with
      | false => exact absurd h (hquote p q)
      | true =>
        change _ = q.name postField at h
        rw [Place.name_post (hy rfl)] at h
        exact ⟨rfl, Place.plain_eq (String.append_left_inj _ |>.mp h)⟩
  · rintro ⟨rfl, h⟩
    cases a with
    | false => exact hplain h
    | true =>
      change p.name postField = q.name postField
      rw [Place.name_post (hx rfl), Place.name_post (hy rfl), hplain h]

theorem names_distinct_iff {locations : List Location} (h : ∀ x ∈ locations, x.Proper) :
    (∀ x ∈ locations, ∀ y ∈ locations, x.name = y.name → x = y) ↔ Distinct locations := by
  refine forall₂_congr fun x hx => forall₂_congr fun y hy => ?_
  rw [Location.name_eq_iff (h x hx) (h y hy), and_imp]
  refine forall₂_congr fun hafter _ => ?_
  obtain ⟨a, p⟩ := x
  obtain ⟨b, q⟩ := y
  obtain rfl : a = b := hafter
  rw [Location.mk.injEq, and_iff_right rfl]

end Names

/-! ### Values -/

section Values

variable {after : Bool} {e : Expr} {l : Linear} {m : Memory} {σ : String → Int}

/-- The values of the variables are those of the locations that they stand for. -/
def Realizes (σ : String → Int) (m : Memory) (locations : List Location) : Prop :=
  ∀ x ∈ locations, σ x.name = m x

theorem realizes_append {xs ys : List Location} :
    Realizes σ m (xs ++ ys) ↔ Realizes σ m xs ∧ Realizes σ m ys :=
  forall_mem_append

theorem value_of_realizes (h : Realizes σ m (e.locations after)) :
    value (stateAt σ preField) (stateAt σ (naming after)) e =
      value (m.state false) (m.state after) e := by
  have hplace : ∀ {after : Bool} {p : Place}, σ (Location.of after p).name = m (.of after p) →
      stateAt σ (naming after) p = m.state after p := by
    intro after p hp
    rw [name_of] at hp
    exact hp
  induction e using Expr.operatorInduction generalizing after with
  | var v => exact congrArg some (hplace (h _ mem_cons_self))
  | field b f => exact congrArg some (hplace (h _ mem_cons_self))
  | old e ih => exact ih h
  | unary op e ih =>
    cases op
    rw [value, ih h, value]
  | bin op lhs rhs ihl ihr =>
    have hparts := realizes_append.mp h
    rw [value, ihl hparts.1, ihr hparts.2, value]
  | index receiver index =>
    rw [value, value]
    cases hp : elemPlace receiver index with
    | none => rfl
    | some p =>
      refine congrArg some (hplace (h _ ?_))
      rw [Expr.locations, hp]
      exact mem_cons_self
  | _ => rfl

theorem eval_of_realizes (hl : linearize (naming after) e = .ok l)
    (h : Realizes σ m (e.locations after)) :
    value (m.state false) (m.state after) e = some (l.eval σ) := by
  rw [← value_of_realizes h]
  exact (linearize_eq_ok hl).1

/-- A linear form is exact just where the locations that it was made from are apart; then
no two of them share a variable. -/
theorem linearize_exact_iff (hl : linearize (naming after) e = .ok l) :
    ((∀ m : Memory, (∃ σ, Realizes σ m (e.locations after)) ∧
        ∀ σ, Realizes σ m (e.locations after) →
          value (m.state false) (m.state after) e = some (l.eval σ)) ↔
          Distinct (e.locations after)) ∧
      ((∀ x ∈ e.locations after, ∀ y ∈ e.locations after, x.name = y.name → x = y) ↔
        Distinct (e.locations after)) := by
  have hproper : ∀ x ∈ e.locations after, x.Proper := proper_locations
  have hdistinct := names_distinct_iff hproper
  refine ⟨⟨fun h => hdistinct.mp fun x hx y hy hname => ?_, fun h m => ⟨?_, ?_⟩⟩, hdistinct⟩
  · -- a memory that holds something else in the second location
    by_contra hne
    obtain ⟨σ, hσ⟩ := (h fun z => if z = x then 1 else 0).1
    have hone : σ x.name = 1 := (hσ x hx).trans (if_pos rfl)
    have hzero : σ y.name = 0 := (hσ y hy).trans (if_neg (Ne.symm hne))
    rw [hname, hzero] at hone
    cases hone
  · obtain ⟨σ, hσ⟩ := exists_assignment (fun x : {x // x ∈ e.locations after} => x.1.name)
      (fun x => m x.1) fun x y hname => congrArg m (hdistinct.mpr h x.1 x.2 y.1 y.2 hname)
    exact ⟨σ, fun x hx => hσ ⟨x, hx⟩⟩
  · exact fun σ => eval_of_realizes hl

end Values

/-! ### Elements of two fields -/

def recordName : Name :=
  ⟨"r", by decide⟩

def element (field : Name) (i : Int) : Expr :=
  .index (.field recordName field) (.int i)

def xsName : Name :=
  ⟨"xs", by decide⟩

def ysName : Name :=
  ⟨"ys", by decide⟩

/-- The difference of two elements of one field is lowered exactly. -/
theorem difference_exact :
    ∃ l, linearize (naming true) (.bin .sub (element xsName 1) (element xsName 0)) = .ok l ∧
      ∀ m : Memory, ∃ σ, value (m.state false) (m.state true)
        (.bin .sub (element xsName 1) (element xsName 0)) = some (l.eval σ) := by
  have hl : linearize (naming true) (.bin .sub (element xsName 1) (element xsName 0)) =
      .ok ⟨[("r.1'", 1), ("r.0'", -1)], 0⟩ := rfl
  refine ⟨_, hl, fun m => ?_⟩
  obtain ⟨⟨σ, hstands⟩, hexact⟩ := (linearize_exact_iff hl).1.mpr (by decide) m
  exact ⟨σ, hexact σ hstands⟩

/-- The difference of elements of two fields is lowered to zero. -/
theorem elements_collide :
    ∃ l, linearize (naming true) (.bin .sub (element xsName 0) (element ysName 0)) = .ok l ∧
      ¬∀ m : Memory, ∃ σ, value (m.state false) (m.state true)
        (.bin .sub (element xsName 0) (element ysName 0)) = some (l.eval σ) := by
  have hl : linearize (naming true) (.bin .sub (element xsName 0) (element ysName 0)) =
      .ok ⟨[], 0⟩ := rfl
  refine ⟨_, hl, fun h => ?_⟩
  obtain ⟨σ, hσ⟩ := h fun x => if x.place = .fieldElem recordName xsName 0 then 1 else 0
  cases hσ

end Oikos.Telos
