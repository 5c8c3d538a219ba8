/-
Running a function body: its statements one after another, each field assignment on the
state that the ones before it left.
-/
import Oikos.Telos.Meaning

namespace Oikos.Telos

instance (rel : Relation) (x y : Int) : Decidable (rel.Compares x y) := by
  cases rel <;> unfold Relation.Compares <;> infer_instance

/-- A field that a run reads or writes. -/
inductive Access where
  | read (f : FieldRef)
  | write (f : FieldRef)
deriving DecidableEq

def Access.field : Access → FieldRef
  | read f | write f => f

/-- What may come after an access: anything but the field that was assigned. -/
def Access.Allows (a a' : Access) : Prop :=
  match a with
  | .write f => a'.field ≠ f
  | .read _ => True

instance (a a' : Access) : Decidable (a.Allows a') := by
  cases a <;> unfold Access.Allows <;> infer_instance

/-- Every field is assigned at most once, and not read after that. -/
def Once (accesses : List Access) : Prop :=
  accesses.Pairwise Access.Allows

instance (accesses : List Access) : Decidable (Once accesses) :=
  inferInstanceAs (Decidable (accesses.Pairwise _))

/-- What a run leaves, and what happened on its way. -/
structure Outcome where
  state : State
  /-- A `return` has ended the run. -/
  returned : Bool
  accesses : List Access
  /-- The variables and elements of arrays that were read, with their values. -/
  seen : List (Place × Int)
  /-- The statements that a `return` has left out. -/
  skipped : List Stmt

namespace Outcome

def idle (s : State) : Outcome :=
  ⟨s, false, [], [], []⟩

/-- One run after another. -/
def append (o o' : Outcome) : Outcome :=
  ⟨o'.state, o'.returned, o.accesses ++ o'.accesses, o.seen ++ o'.seen, o.skipped ++ o'.skipped⟩

end Outcome

/-- The places that an expression reads, with what stands there. -/
def Expr.seen (s : State) : Expr → List (Place × Int)
  | .var v => [(.var v, s (.var v))]
  | .old e | .unary _ e => e.seen s
  | .bin _ lhs rhs => lhs.seen s ++ rhs.seen s
  | .index receiver i =>
    match elemPlace receiver i with
    | some p => [(p, s p)]
    | none => []
  | _ => []

def Expr.reads (e : Expr) : List Access :=
  (collectFields e).map Access.read

def fieldPlace (f : FieldRef) : Place :=
  .field f.1 f.2

def State.assign (s : State) (f : FieldRef) (n : Int) : State :=
  fun p => if p = fieldPlace f then n else s p

/-- After a block its variables are what they were before it. -/
def State.leave (s inner : State) : State :=
  fun p =>
    match p with
    | .field _ _ => inner p
    | _ => s p

/-- An assignment sets its field; anything else as a target ends the run. -/
def runAssign (a : Assign) (s : State) : Option Outcome :=
  match a.target with
  | .field base field => do
    let f : FieldRef := (base, field)
    let n ← value s s a.value
    let accesses := if a.op = .set then [.write f] else [.read f, .write f]
    some ⟨s.assign f (a.op.apply (s (fieldPlace f)) n), false, a.value.reads ++ accesses,
      a.value.seen s, []⟩
  | _ => none

def runAssigns : List Assign → State → Option Outcome
  | [], s => some (.idle s)
  | a :: assigns, s => do
    let o ← runAssign a s
    let o' ← runAssigns assigns o.state
    some (o.append o')

/-- The single comparison that is the condition of an `if`. -/
def runCondition (s : State) : Expr → Option Bool
  | .bin op lhs rhs => do
    let rel ← relationOf op
    let x ← value s s lhs
    let y ← value s s rhs
    some (decide (rel.Compares x y))
  | _ => none

/-- The outcome of an `if` from that of the block it has come to. -/
def Outcome.ofBlock (s : State) (condition : Expr) (o : Outcome) : Outcome :=
  { o with
    state := s.leave o.state, accesses := condition.reads ++ o.accesses,
    seen := condition.seen s ++ o.seen }

section Run

-- what an expression gives that is no arithmetic, such as a call
variable (other : State → Expr → Int)

mutual

def runBlock : List Stmt → State → Option Outcome
  | [], s => some (.idle s)
  | stmt :: stmts, s => do
    let o ← runStmt stmt s
    if o.returned then some { o with skipped := o.skipped ++ stmts }
    else do
      let o' ← runBlock stmts o.state
      some (o.append o')

def runStmt : Stmt → State → Option Outcome
  | .mutateState assigns, s => runAssigns assigns s
  | .assign a, s => runAssign a s
  | .letIn name _ e, s =>
    some ⟨s.bind name ((value s s e).getD (other s e)), false, e.reads, e.seen s, []⟩
  | .ifThen condition thenBody none, s => do
    let holds ← runCondition s condition
    let o ← if holds then runBlock thenBody s else some (.idle s)
    some (o.ofBlock s condition)
  | .ifThen condition thenBody (some elseBody), s => do
    let holds ← runCondition s condition
    let o ← if holds then runBlock thenBody s else runBlock elseBody s
    some (o.ofBlock s condition)
  -- what the arms of a `match` do is not part of this
  | .matchOn _ _, _ => none
  | .ret _, s => some ⟨s, true, [], [], []⟩

end

end Run

mutual

def noMatch : List Stmt → Bool
  | [] => true
  | s :: stmts => s.noMatch && noMatch stmts

def Stmt.noMatch : Stmt → Bool
  | .ifThen _ thenBody none => Telos.noMatch thenBody
  | .ifThen _ thenBody (some elseBody) => Telos.noMatch thenBody && Telos.noMatch elseBody
  | .matchOn _ _ => false
  | _ => true

end

mutual

def assignsIn : List Stmt → Bool
  | [] => false
  | s :: stmts => s.assigns || assignsIn stmts

def Stmt.assigns : Stmt → Bool
  | .mutateState assigns => !assigns.isEmpty
  | .assign _ => true
  | .ifThen _ thenBody none => assignsIn thenBody
  | .ifThen _ thenBody (some elseBody) => assignsIn thenBody || assignsIn elseBody
  -- a `match` that assigns is rejected
  | .matchOn _ _ | .letIn _ _ _ | .ret _ => false

end

/-! ### Induction over statements -/

section Induction

-- a case that one of the two recursions passes on to the other counts as unused
set_option linter.unusedSectionVars false

variable {motive : Stmt → Prop} {B : List Stmt → Prop}
  (mutateState : ∀ assigns, motive (.mutateState assigns)) (assign : ∀ a, motive (.assign a))
  (letIn : ∀ name ty e, motive (.letIn name ty e))
  (ifThen : ∀ condition thenBody elseBody, B thenBody → B (elseBody.getD []) →
    motive (.ifThen condition thenBody elseBody))
  (matchOn : ∀ scrutinee arms, motive (.matchOn scrutinee arms)) (ret : ∀ e, motive (.ret e))
  (nil : B []) (cons : ∀ s stmts, motive s → B stmts → B (s :: stmts))

include mutateState assign letIn ifThen matchOn ret nil cons

mutual

theorem listInduction : (stmts : List Stmt) → B stmts
  | [] => nil
  | s :: stmts => cons s stmts (stmtInduction s) (listInduction stmts)

theorem stmtInduction : (stmt : Stmt) → motive stmt
  | .mutateState assigns => mutateState assigns
  | .assign a => assign a
  | .letIn name ty e => letIn name ty e
  | .ifThen condition thenBody none => ifThen condition thenBody none (listInduction thenBody) nil
  | .ifThen condition thenBody (some elseBody) =>
    ifThen condition thenBody (some elseBody) (listInduction thenBody) (listInduction elseBody)
  | .matchOn scrutinee arms => matchOn scrutinee arms
  | .ret e => ret e

end

theorem blockInduction : (∀ stmt, motive stmt) ∧ ∀ stmts, B stmts :=
  ⟨stmtInduction mutateState assign letIn ifThen matchOn ret nil cons,
    listInduction mutateState assign letIn ifThen matchOn ret nil cons⟩

end Induction

/-! ### What a run leaves -/

section Frame

variable {other : State → Expr → Int} {s : State} {o : Outcome} {f : FieldRef}

@[simp] theorem State.assign_self (s : State) (f : FieldRef) (n : Int) :
    s.assign f n (fieldPlace f) = n :=
  if_pos rfl

theorem State.assign_of_ne {f' : FieldRef} (s : State) (n : Int) (h : f' ≠ f) :
    s.assign f n (fieldPlace f') = s (fieldPlace f') := by
  refine if_neg fun heq => h ?_
  simp only [fieldPlace, Place.field.injEq] at heq
  exact Prod.ext heq.1 heq.2

@[simp] theorem State.leave_field (s inner : State) (f : FieldRef) :
    s.leave inner (fieldPlace f) = inner (fieldPlace f) := rfl

@[simp] theorem State.bind_field (s : State) (v : Name) (n : Int) (f : FieldRef) :
    s.bind v n (fieldPlace f) = s (fieldPlace f) := rfl

theorem runStmt_ifThen {condition : Expr} {thenBody : List Stmt} {elseBody : Option (List Stmt)} :
    runStmt other (.ifThen condition thenBody elseBody) s =
      (runCondition s condition).bind fun holds =>
        (runBlock other (if holds then thenBody else elseBody.getD []) s).bind fun o =>
          some (o.ofBlock s condition) := by
  cases elseBody with
  | none =>
    rw [runStmt]
    refine bind_congr fun holds => ?_
    cases holds <;> rfl
  | some elseBody =>
    rw [runStmt]
    refine bind_congr fun holds => ?_
    cases holds <;> rfl

theorem runAssign_eq_some {a : Assign} (h : runAssign a s = some o) :
    ∃ f n, a.target = .field f.1 f.2 ∧ value s s a.value = some n ∧ o.returned = false ∧
      o.seen = a.value.seen s ∧ o.skipped = [] ∧ (∃ reads, o.accesses = a.value.reads ++ reads ∧
        (reads = [.write f] ∨ reads = [.read f, .write f])) ∧
          o.state = s.assign f (a.op.apply (s (fieldPlace f)) n) := by
  unfold runAssign at h
  split at h
  · next base field htarget =>
    obtain ⟨n, hn, h⟩ := Option.bind_eq_some_iff.mp h
    cases h
    refine ⟨(base, field), n, htarget, hn, rfl, rfl, rfl, ⟨_, rfl, ?_⟩, rfl⟩
    split
    · exact Or.inl rfl
    · exact Or.inr rfl
  · cases h

theorem runAssign_unwritten {a : Assign} (h : runAssign a s = some o)
    (hf : .write f ∉ o.accesses) : o.state (fieldPlace f) = s (fieldPlace f) := by
  obtain ⟨f', n, _, _, _, _, _, ⟨reads, haccesses, hreads⟩, hstate⟩ := runAssign_eq_some h
  rw [hstate]
  refine State.assign_of_ne _ _ fun heq => hf ?_
  rw [haccesses, heq]
  rcases hreads with rfl | rfl <;> simp

theorem runAssigns_unwritten {assigns : List Assign} (h : runAssigns assigns s = some o)
    (hf : .write f ∉ o.accesses) : o.state (fieldPlace f) = s (fieldPlace f) := by
  induction assigns generalizing s o with
  | nil =>
    cases h
    rfl
  | cons a assigns ih =>
    obtain ⟨o₁, h₁, h⟩ := Option.bind_eq_some_iff.mp h
    obtain ⟨o₂, h₂, h⟩ := Option.bind_eq_some_iff.mp h
    cases h
    rw [Outcome.append, List.mem_append, not_or] at hf
    exact (ih h₂ hf.2).trans (runAssign_unwritten h₁ hf.1)

theorem unwritten : (∀ stmt s o, runStmt other stmt s = some o → .write f ∉ o.accesses →
    o.state (fieldPlace f) = s (fieldPlace f)) ∧ ∀ stmts s o, runBlock other stmts s = some o →
      .write f ∉ o.accesses → o.state (fieldPlace f) = s (fieldPlace f) := by
  refine blockInduction
    ?mutateState ?assign ?letIn ?ifThen ?matchOn ?ret ?nil ?cons
  case mutateState => exact fun assigns s o h hf => runAssigns_unwritten h hf
  case assign => exact fun a s o h hf => runAssign_unwritten h hf
  case letIn =>
    intro name ty e s o h _
    cases h
    rfl
  case ifThen =>
    intro condition thenBody elseBody ihthen ihelse s o h hf
    rw [runStmt_ifThen] at h
    obtain ⟨holds, _, h⟩ := Option.bind_eq_some_iff.mp h
    obtain ⟨o', ho', h⟩ := Option.bind_eq_some_iff.mp h
    cases h
    have hinner : .write f ∉ o'.accesses := fun hmem =>
      hf (List.mem_append_right _ hmem)
    cases holds with
    | true => exact ihthen s o' ho' hinner
    | false => exact ihelse s o' ho' hinner
  case matchOn =>
    intro scrutinee arms s o h
    cases h
  case ret =>
    intro e s o h _
    cases h
    rfl
  case nil =>
    intro s o h _
    cases h
    rfl
  case cons =>
    intro stmt stmts ihs ihstmts s o h hf
    obtain ⟨o₁, h₁, h⟩ := Option.bind_eq_some_iff.mp h
    split at h
    · cases h
      exact ihs s o₁ h₁ hf
    · obtain ⟨o₂, h₂, h⟩ := Option.bind_eq_some_iff.mp h
      cases h
      rw [Outcome.append, List.mem_append, not_or] at hf
      exact (ihstmts _ o₂ h₂ hf.2).trans (ihs s o₁ h₁ hf.1)

theorem runStmt_unwritten (stmt : Stmt) (h : runStmt other stmt s = some o)
    (hf : .write f ∉ o.accesses) : o.state (fieldPlace f) = s (fieldPlace f) :=
  unwritten.1 stmt s o h hf

theorem runBlock_unwritten (stmts : List Stmt) (h : runBlock other stmts s = some o)
    (hf : .write f ∉ o.accesses) : o.state (fieldPlace f) = s (fieldPlace f) :=
  unwritten.2 stmts s o h hf

end Frame

end Oikos.Telos
