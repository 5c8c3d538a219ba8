/-
Whether the branches that a body is turned into cover its runs: a run is covered where
what a `return` leaves out assigns nothing, and no name is read with two values.
-/
import Oikos.Telos.Execution
import Oikos.Telos.Names
import Oikos.Telos.Premises

namespace Oikos.Telos

open List

/-- The variables that stand for a field before and after the body. -/
def beforeVar (f : FieldRef) : String :=
  preField f.1.text f.2.text

def afterVar (f : FieldRef) : String :=
  postField f.1.text f.2.text

def BodyBranch.Holds (σ : String → Int) (b : BodyBranch) : Prop :=
  Satisfies σ b.extraPremises ∧ Satisfies σ b.mutations

structure StandsFor (σ : String → Int) (params : List Name) (pre post : State) : Prop where
  params : ∀ v ∈ params, σ v.text = pre (.var v)
  before : ∀ f, σ (beforeVar f) = pre (fieldPlace f)
  after : ∀ f, σ (afterVar f) = post (fieldPlace f)

/-- No variable stands for two values that are read, and a parameter is read with the
value that it has at the start. -/
def OneValue (params : List Name) (pre : State) (seen : List (Place × Int)) : Prop :=
  (∀ x ∈ seen, ∀ y ∈ seen, x.1.name preField = y.1.name preField → x.2 = y.2) ∧
    ∀ x ∈ seen, ∀ v ∈ params, x.1 = .var v → x.2 = pre (.var v)

/-! ### Expressions -/

section Values

variable {σ : String → Int} {s : State} {e : Expr}

/-- The assignment gives everything that an expression reads the value that it has. -/
def ReadsAs (σ : String → Int) (s : State) (e : Expr) : Prop :=
  (∀ f ∈ collectFields e, σ (beforeVar f) = s (fieldPlace f)) ∧
    ∀ x ∈ e.seen s, σ (x.1.name preField) = x.2

theorem value_of_readsAs (h : ReadsAs σ s e) :
    value (stateAt σ preField) (stateAt σ preField) e = value s s e := by
  induction e using Expr.operatorInduction with
  | int n => rfl
  | var v =>
    have hv := h.2 _ (mem_singleton_self _)
    exact congrArg some hv
  | field b f =>
    have hf := h.1 _ (mem_singleton_self _)
    exact congrArg some hf
  | old e ih => exact ih h
  | unary op e ih =>
    cases op
    rw [value, value, ih h]
  | bin op lhs rhs ihl ihr =>
    obtain ⟨hfields, hseen⟩ := h
    obtain ⟨hfl, hfr⟩ := forall_mem_append.mp hfields
    obtain ⟨hsl, hsr⟩ := forall_mem_append.mp hseen
    rw [value, value, ihl ⟨hfl, hsl⟩, ihr ⟨hfr, hsr⟩]
  | index receiver i =>
    rw [value, value]
    cases hp : elemPlace receiver i with
    | none => rfl
    | some p =>
      have hseen : (p, s p) ∈ (Expr.index receiver i).seen s := by
        rw [Expr.seen, hp]
        exact mem_singleton_self _
      exact congrArg some (h.2 _ hseen)
  | _ => rfl

theorem exists_value {fieldFn : Naming} {l : Linear} (h : linearize fieldFn e = .ok l)
    (pre s : State) : ∃ n, value pre s e = some n := by
  obtain ⟨⟨l', approx⟩, hl', hl⟩ := bind_eq_ok.mp h
  clear h hl
  induction e using Expr.operatorInduction generalizing s l' approx fieldFn with
  | old e ih => exact ih pre _ _ hl'
  | unary op e ih =>
    cases op
    obtain ⟨⟨l'', approx'⟩, hl'', _⟩ := bind_eq_ok.mp hl'
    obtain ⟨n, hn⟩ := ih s _ _ hl''
    exact ⟨-n, by rw [value, hn, Option.map_some]⟩
  | bin op lhs rhs ihl ihr =>
    obtain ⟨⟨l₁, approxL⟩, hl₁, hl'⟩ := bind_eq_ok.mp hl'
    obtain ⟨⟨l₂, approxR⟩, hl₂, hl'⟩ := bind_eq_ok.mp hl'
    obtain ⟨x, hx⟩ := ihl s _ _ hl₁
    obtain ⟨y, hy⟩ := ihr s _ _ hl₂
    rw [value, hx, hy, Option.bind_some, Option.bind_some]
    cases op with
    | add | sub | mul => exact ⟨_, rfl⟩
    | div =>
      dsimp only at hl'
      split at hl'
      · next k hk =>
        split at hl'
        · cases hl'
        · next hzero =>
          obtain rfl := asInt_eq_some hk
          obtain rfl : k = y := by simpa [value] using hy
          exact ⟨_, if_neg hzero⟩
      · cases hl'
    | _ => cases hl'
  | index receiver i =>
    obtain ⟨l'', hl'', _⟩ := bind_eq_ok.mp hl'
    obtain ⟨p, hp, _⟩ := indexVar_eq_ok hl''
    exact ⟨s p, by rw [value, hp, Option.map_some]⟩
  | int | var | field => exact ⟨_, rfl⟩
  | _ => cases hl'

theorem runCondition_of_ok {condition : Expr} {diff : Linear} {rel : Relation}
    (h : bodyCondition preField condition = .ok (diff, rel)) (s : State) :
    ∃ holds, runCondition s condition = some holds ∧ (ReadsAs σ s condition →
      (holds = true ↔ Constraint.Holds σ ⟨diff, rel⟩)) := by
  have hmeans := ((bodyCondition_eq_ok h).2 σ).1
  unfold bodyCondition at h
  dsimp only at h
  split at h
  · next op lhs rhs =>
    split at h
    · next rel' hrel =>
      obtain ⟨l, hl, h⟩ := bind_eq_ok.mp h
      obtain ⟨r, hr, h⟩ := bind_eq_ok.mp h
      obtain ⟨diff', hdiff, h⟩ := bind_eq_ok.mp h
      cases h
      obtain ⟨x, hx⟩ := exists_value hl s s
      obtain ⟨y, hy⟩ := exists_value hr s s
      refine ⟨decide (rel.Compares x y), by simp [runCondition, hrel, hx, hy], fun hreads => ?_⟩
      obtain ⟨hfl, hfr⟩ := forall_mem_append.mp hreads.1
      obtain ⟨hsl, hsr⟩ := forall_mem_append.mp hreads.2
      rw [holds_sub_iff (linearize_eq_ok hl).1 (linearize_eq_ok hr).1 hdiff,
        value_of_readsAs ⟨hfl, hsl⟩, value_of_readsAs ⟨hfr, hsr⟩, hx, hy, decide_eq_true_iff]
      simp
    · cases h
  · cases h

end Values

/-! ### Covering a run -/

section Cover

variable {debug : Expr → String} {other : State → Expr → Int} {σ : String → Int}
  {branches out : List BodyBranch} {b : BodyBranch} {s : State} {o o₁ o₂ : Outcome}

/-- The assignment gives what a run reads and writes its value; what the branch has
assigned so far is not touched any more. -/
structure Agrees (σ : String → Int) (b : BodyBranch) (s : State) (o : Outcome) : Prop where
  once : Once o.accesses
  fresh : ∀ f ∈ b.assigned, ∀ a ∈ o.accesses, a.field ≠ f
  fields : ∀ f ∉ b.assigned, σ (beforeVar f) = s (fieldPlace f)
  seen : ∀ x ∈ o.seen, σ (x.1.name preField) = x.2
  written : ∀ f, .write f ∈ o.accesses → σ (afterVar f) = o.state (fieldPlace f)
  skipped : assignsIn o.skipped = false

def Covers (σ : String → Int) (b : BodyBranch) (o : Outcome) (b' : BodyBranch) : Prop :=
  b'.Holds σ ∧ ∀ f, f ∈ b'.assigned ↔ f ∈ b.assigned ∨ .write f ∈ o.accesses

theorem Agrees.readsAs (h : Agrees σ b s o) {e : Expr} (hreads : ∀ a ∈ e.reads, a ∈ o.accesses)
    (hseen : ∀ x ∈ e.seen s, x ∈ o.seen) : ReadsAs σ s e := by
  refine ⟨fun f hf => h.fields f fun hmem => ?_, fun x hx => h.seen x (hseen x hx)⟩
  exact h.fresh f hmem _ (hreads _ (mem_map_of_mem hf)) rfl

theorem assignsIn_append {stmts stmts' : List Stmt} :
    assignsIn (stmts ++ stmts') = (assignsIn stmts || assignsIn stmts') := by
  induction stmts with
  | nil => rfl
  | cons stmt stmts ih => rw [cons_append, assignsIn, assignsIn, ih, Bool.or_assoc]

/-- The first of two runs. -/
theorem Agrees.left (h : Agrees σ b s (o₁.append o₂))
    (hunwritten : ∀ f, .write f ∉ o₂.accesses → o₂.state (fieldPlace f) = o₁.state (fieldPlace f)) :
    Agrees σ b s o₁ where
  once := (pairwise_append.mp h.once).1
  fresh f hf a ha := h.fresh f hf a (mem_append_left _ ha)
  fields := h.fields
  seen x hx := h.seen x (mem_append_left _ hx)
  written f hf := by
    rw [h.written f (mem_append_left _ hf)]
    refine hunwritten f fun hmem => ?_
    exact (pairwise_append.mp h.once).2.2 _ hf _ hmem rfl
  skipped := by
    have hskipped := h.skipped
    rw [Outcome.append, assignsIn_append, Bool.or_eq_false_iff] at hskipped
    exact hskipped.1

theorem Agrees.right (h : Agrees σ b s (o₁.append o₂)) {b₁ : BodyBranch} (hb₁ : Covers σ b o₁ b₁)
    (hunwritten : ∀ f, .write f ∉ o₁.accesses → o₁.state (fieldPlace f) = s (fieldPlace f)) :
    Agrees σ b₁ o₁.state o₂ where
  once := (pairwise_append.mp h.once).2.1
  fresh f hf a ha := by
    rcases (hb₁.2 f).mp hf with hf | hf
    · exact h.fresh f hf a (mem_append_right _ ha)
    · exact (pairwise_append.mp h.once).2.2 _ hf a ha
  fields f hf := by
    rw [hb₁.2 f, not_or] at hf
    rw [hunwritten f hf.2]
    exact h.fields f hf.1
  seen x hx := h.seen x (mem_append_right _ hx)
  written f hf := h.written f (mem_append_right _ hf)
  skipped := by
    have hskipped := h.skipped
    rw [Outcome.append, assignsIn_append, Bool.or_eq_false_iff] at hskipped
    exact hskipped.2

theorem Covers.trans {b₁ b₂ : BodyBranch} (h₁ : Covers σ b o₁ b₁) (h₂ : Covers σ b₁ o₂ b₂) :
    Covers σ b (o₁.append o₂) b₂ := by
  refine ⟨h₂.1, fun f => ?_⟩
  rw [h₂.2 f, h₁.2 f, Outcome.append, mem_append, or_assoc]

variable {c : Constraint} {condition : Expr}

theorem covers_assign {a : Assign} {field : FieldRef}
    (hc : assignConstraint debug preField a = .ok (c, field)) (ho : runAssign a s = some o)
    (hb : b.Holds σ) (h : Agrees σ b s o) : Covers σ b o (b.mutate c field) := by
  obtain ⟨htarget, _, l, hl, hholds⟩ := assignConstraint_eq_ok hc
  obtain ⟨f, n, htarget', hn, _, hseen, _, ⟨reads, haccesses, hreads⟩, hstate⟩ :=
    runAssign_eq_some ho
  obtain rfl : field = f := by
    rw [htarget] at htarget'
    injection htarget' with hbase hf
    exact Prod.ext hbase hf
  have hwrite : .write field ∈ o.accesses := by
    rw [haccesses]
    rcases hreads with rfl | rfl <;> simp
  have hvalue : l.eval σ = n := by
    have hlowered := (linearize_eq_ok (σ := σ) hl).1
    rw [value_of_readsAs (h.readsAs (fun a ha => haccesses ▸ mem_append_left _ ha)
      (fun x hx => hseen ▸ hx)), hn] at hlowered
    exact (Option.some.inj hlowered).symm
  have hbefore : σ (beforeVar field) = s (fieldPlace field) :=
    h.fields field fun hmem => h.fresh field hmem _ hwrite rfl
  refine ⟨⟨hb.1, satisfies_append.mpr ⟨hb.2, satisfies_singleton.mpr ?_⟩⟩, fun f => ?_⟩
  · have hafter := h.written field hwrite
    rw [hstate, State.assign_self] at hafter
    unfold afterVar at hafter
    unfold beforeVar at hbefore
    rw [hholds, hafter, hbefore, hvalue]
  · rw [BodyBranch.mutate, mem_append, mem_singleton, haccesses, mem_append]
    have hvalueReads : .write f ∉ a.value.reads := by simp [Expr.reads]
    rcases hreads with rfl | rfl <;> simp [hvalueReads]

theorem covers_assigns {assigns : List Assign}
    (h : assigns.foldlM (processAssign debug preField) branches = .ok out)
    (ho : runAssigns assigns s = some o) (hmem : b ∈ branches) (hb : b.Holds σ)
    (hagrees : Agrees σ b s o) : ∃ b' ∈ out, Covers σ b o b' := by
  induction assigns generalizing branches b s o with
  | nil =>
    cases h
    cases ho
    exact ⟨b, hmem, hb, by simp [Outcome.idle]⟩
  | cons a assigns ih =>
    rw [foldlM_cons] at h
    obtain ⟨mid, hmid, h⟩ := bind_eq_ok.mp h
    obtain ⟨⟨c, field⟩, hc, hmid⟩ := bind_eq_ok.mp hmid
    cases hmid
    obtain ⟨o₁, ho₁, ho⟩ := Option.bind_eq_some_iff.mp ho
    obtain ⟨o₂, ho₂, ho⟩ := Option.bind_eq_some_iff.mp ho
    cases ho
    have h₁ := covers_assign hc ho₁ hb (hagrees.left fun f => runAssigns_unwritten ho₂)
    have hright := hagrees.right h₁ fun f => runAssign_unwritten ho₁
    obtain ⟨b', hb', h₂⟩ := ih h ho₂ (mem_map_of_mem hmem) h₁.1 hright
    exact ⟨b', hb', h₁.trans h₂⟩

theorem Covers.of_eq {b' : BodyBranch} (hb : b'.Holds σ) (hassigned : b'.assigned = b.assigned)
    (hwrites : ∀ f, .write f ∉ o.accesses) : Covers σ b o b' :=
  ⟨hb, fun f => by simp [hassigned, hwrites f]⟩

theorem processStmt_ifThen {thenBody : List Stmt} {elseBody : Option (List Stmt)}
    (h : processStmt debug preField (.ifThen condition thenBody elseBody) branches = .ok out) :
    ∃ diff rel thenOut elseOut, bodyCondition preField condition = .ok (diff, rel) ∧
      processBodyStmts debug preField thenBody (branches.map (BodyBranch.assume ⟨diff, rel⟩)) =
        .ok thenOut ∧
      processBodyStmts debug preField (elseBody.getD [])
        (branches.map (BodyBranch.assume ⟨diff, negateRelation rel⟩)) = .ok elseOut ∧
      out = thenOut ++ elseOut := by
  cases elseBody with
  | none =>
    rw [processStmt] at h
    obtain ⟨⟨diff, rel⟩, hcond, h⟩ := bind_eq_ok.mp h
    obtain ⟨thenOut, hthen, h⟩ := bind_eq_ok.mp h
    cases h
    exact ⟨diff, rel, thenOut, _, hcond, hthen, rfl, rfl⟩
  | some elseBody =>
    rw [processStmt] at h
    obtain ⟨⟨diff, rel⟩, hcond, h⟩ := bind_eq_ok.mp h
    obtain ⟨thenOut, hthen, h⟩ := bind_eq_ok.mp h
    obtain ⟨elseOut, helse, h⟩ := bind_eq_ok.mp h
    cases h
    exact ⟨diff, rel, thenOut, elseOut, hcond, hthen, helse, rfl⟩

theorem holds_assume {diff : Linear} {rel : Relation} (hb : b.Holds σ)
    (hc : Constraint.Holds σ ⟨diff, rel⟩) : (b.assume ⟨diff, rel⟩).Holds σ :=
  ⟨satisfies_append.mpr ⟨hb.1, satisfies_singleton.mpr hc⟩, hb.2⟩

theorem exists_idle_branch (stmts : List Stmt)
    (h : processBodyStmts debug preField stmts branches = .ok out) (hidle : assignsIn stmts = false)
    (hmem : b ∈ branches) (hb : b.Holds σ) :
    ∃ b' ∈ out, b'.Holds σ ∧ b'.assigned = b.assigned := by
  refine (blockInduction
    (motive := fun stmt => ∀ branches out b, processStmt debug preField stmt branches = .ok out →
      stmt.assigns = false → b ∈ branches → b.Holds σ →
        ∃ b' ∈ out, b'.Holds σ ∧ b'.assigned = b.assigned)
    (B := fun stmts => ∀ branches out b, processBodyStmts debug preField stmts branches = .ok out →
      assignsIn stmts = false → b ∈ branches → b.Holds σ →
        ∃ b' ∈ out, b'.Holds σ ∧ b'.assigned = b.assigned)
    ?mutateState ?assign ?letIn ?ifThen ?matchOn ?ret ?nil ?cons).2 stmts branches out
      b h hidle hmem
    hb
  case mutateState =>
    intro assigns branches out b h hidle hmem hb
    cases assigns with
    | nil =>
      cases h
      exact ⟨b, hmem, hb, rfl⟩
    | cons a assigns => cases hidle
  case assign =>
    intro a branches out b h hidle
    cases hidle
  case letIn | ret =>
    intros
    next h _ hmem hb =>
      cases h
      exact ⟨_, hmem, hb, rfl⟩
  case ifThen =>
    intro condition thenBody elseBody ihthen ihelse branches out b h hidle hmem hb
    obtain ⟨diff, rel, thenOut, elseOut, hcond, hthen, helse, rfl⟩ := processStmt_ifThen h
    have hparts : assignsIn thenBody = false ∧ assignsIn (elseBody.getD []) = false := by
      cases elseBody with
      | none => exact ⟨hidle, rfl⟩
      | some elseBody => exact Bool.or_eq_false_iff.mp hidle
    obtain ⟨htrue, hfalse⟩ := (bodyCondition_eq_ok hcond).2 σ
    by_cases hc : Constraint.Holds σ ⟨diff, rel⟩
    · obtain ⟨b', hb', hholds, hassigned⟩ := ihthen _ thenOut _ hthen hparts.1
        (mem_map_of_mem hmem) (holds_assume hb hc)
      exact ⟨b', mem_append_left _ hb', hholds, hassigned⟩
    · have hneg := hfalse.mpr fun hmeans => hc (htrue.mpr hmeans)
      obtain ⟨b', hb', hholds, hassigned⟩ := ihelse _ elseOut _ helse hparts.2
        (mem_map_of_mem hmem) (holds_assume hb hneg)
      exact ⟨b', mem_append_right _ hb', hholds, hassigned⟩
  case matchOn =>
    intro scrutinee arms branches out b h _ hmem hb
    rw [processStmt] at h
    split at h
    · cases h
    · cases h
      exact ⟨b, hmem, hb, rfl⟩
  case nil =>
    intro branches out b h _ hmem hb
    cases h
    exact ⟨b, hmem, hb, rfl⟩
  case cons =>
    intro stmt stmts ihs ihstmts branches out b h hidle hmem hb
    rw [processBodyStmts] at h
    obtain ⟨mid, hmid, h⟩ := bind_eq_ok.mp h
    obtain ⟨hs, hstmts⟩ := Bool.or_eq_false_iff.mp hidle
    obtain ⟨b₁, hb₁, hholds₁, hassigned₁⟩ := ihs _ mid b hmid hs hmem hb
    obtain ⟨b', hb', hholds, hassigned⟩ := ihstmts _ out b₁ h hstmts hb₁ hholds₁
    exact ⟨b', hb', hholds, hassigned.trans hassigned₁⟩

/-- The inner run of an `if`, once its condition has been read. -/
theorem Agrees.ofBlock (h : Agrees σ b s (o.ofBlock s condition)) :
    Agrees σ (b.assume c) s o where
  once := (pairwise_append.mp h.once).2.1
  fresh f hf a ha := h.fresh f hf a (mem_append_right _ ha)
  fields := h.fields
  seen x hx := h.seen x (mem_append_right _ hx)
  written f hf := h.written f (mem_append_right _ hf)
  skipped := h.skipped

theorem Covers.ofBlock {b' : BodyBranch}
    (h : Covers σ (b.assume c) o b') : Covers σ b (o.ofBlock s condition) b' := by
  refine ⟨h.1, fun f => ?_⟩
  have hreads : .write f ∉ condition.reads := by simp [Expr.reads]
  rw [h.2 f, Outcome.ofBlock, mem_append, or_iff_right hreads]
  rfl

theorem exists_covering_branch (stmts : List Stmt)
    (h : processBodyStmts debug preField stmts branches = .ok out)
    (ho : runBlock other stmts s = some o) (hmem : b ∈ branches) (hb : b.Holds σ)
    (hagrees : Agrees σ b s o) : ∃ b' ∈ out, Covers σ b o b' := by
  refine (blockInduction
    (motive := fun stmt => ∀ branches out b s o,
    processStmt debug preField stmt branches = .ok out →
      runStmt other stmt s = some o → b ∈ branches → b.Holds σ → Agrees σ b s o →
        ∃ b' ∈ out, Covers σ b o b')
    (B := fun stmts => ∀ branches out b s o,
      processBodyStmts debug preField stmts branches = .ok out →
      runBlock other stmts s = some o → b ∈ branches → b.Holds σ → Agrees σ b s o →
        ∃ b' ∈ out, Covers σ b o b')
    ?mutateState ?assign ?letIn ?ifThen ?matchOn ?ret ?nil ?cons).2 stmts branches out b
      s o h ho hmem
    hb hagrees
  case mutateState =>
    intro assigns branches out b s o h ho hmem hb hagrees
    exact covers_assigns h ho hmem hb hagrees
  case assign =>
    intro a branches out b s o h ho hmem hb hagrees
    obtain ⟨⟨c, field⟩, hc, h⟩ := bind_eq_ok.mp h
    cases h
    exact ⟨_, mem_map_of_mem hmem, covers_assign hc ho hb hagrees⟩
  case letIn =>
    intro name ty e branches out b s o h ho hmem hb _
    cases h
    cases ho
    exact ⟨b, hmem, .of_eq hb rfl (by simp [Expr.reads])⟩
  case ifThen =>
    intro condition thenBody elseBody ihthen ihelse branches out b s o h ho hmem hb hagrees
    obtain ⟨diff, rel, thenOut, elseOut, hcond, hthen, helse, rfl⟩ := processStmt_ifThen h
    rw [runStmt_ifThen] at ho
    obtain ⟨holds, hruns, ho⟩ := Option.bind_eq_some_iff.mp ho
    obtain ⟨o', ho', ho⟩ := Option.bind_eq_some_iff.mp ho
    cases ho
    obtain ⟨holds', hruns', hiff⟩ := runCondition_of_ok (σ := σ) hcond s
    rw [hruns] at hruns'
    cases hruns'
    have hiff := hiff (hagrees.readsAs (fun a ha => mem_append_left _ ha)
      fun x hx => mem_append_left _ hx)
    obtain ⟨htrue, hfalse⟩ := (bodyCondition_eq_ok hcond).2 σ
    cases holds with
    | true =>
      obtain ⟨b', hb', hcovers⟩ := ihthen _ thenOut _ s o' hthen ho' (mem_map_of_mem hmem)
        (holds_assume hb (hiff.mp rfl)) hagrees.ofBlock
      exact ⟨b', mem_append_left _ hb', hcovers.ofBlock⟩
    | false =>
      have hnot : ¬Constraint.Holds σ ⟨diff, rel⟩ := fun hc => Bool.false_ne_true (hiff.mpr hc)
      have hneg := hfalse.mpr fun hmeans => hnot (htrue.mpr hmeans)
      obtain ⟨b', hb', hcovers⟩ := ihelse _ elseOut _ s o' helse ho' (mem_map_of_mem hmem)
        (holds_assume hb hneg) hagrees.ofBlock
      exact ⟨b', mem_append_right _ hb', hcovers.ofBlock⟩
  case matchOn =>
    intro scrutinee arms branches out b s o _ ho
    cases ho
  case ret =>
    intro e branches out b s o h ho hmem hb _
    cases h
    cases ho
    exact ⟨b, hmem, .of_eq hb rfl (by simp)⟩
  case nil =>
    intro branches out b s o h ho hmem hb _
    cases h
    cases ho
    exact ⟨b, hmem, .of_eq hb rfl (by simp [Outcome.idle])⟩
  case cons =>
    intro stmt stmts ihs ihstmts branches out b s o h ho hmem hb hagrees
    rw [processBodyStmts] at h
    obtain ⟨mid, hmid, h⟩ := bind_eq_ok.mp h
    obtain ⟨o₁, ho₁, ho⟩ := Option.bind_eq_some_iff.mp ho
    split at ho
    · cases ho
      have hskipped := hagrees.skipped
      rw [assignsIn_append, Bool.or_eq_false_iff] at hskipped
      have hagrees₁ : Agrees σ b s o₁ :=
        ⟨hagrees.once, hagrees.fresh, hagrees.fields, hagrees.seen, hagrees.written, hskipped.1⟩
      obtain ⟨b₁, hb₁, hcovers⟩ := ihs _ mid b s o₁ hmid ho₁ hmem hb hagrees₁
      -- the statements after the `return` have a branch that changes nothing
      obtain ⟨b', hb', hholds, hassigned⟩ := exists_idle_branch stmts h hskipped.2 hb₁ hcovers.1
      exact ⟨b', hb', hholds, fun f => by rw [hassigned]; exact hcovers.2 f⟩
    · obtain ⟨o₂, ho₂, ho⟩ := Option.bind_eq_some_iff.mp ho
      cases ho
      have hleft := hagrees.left fun f => runBlock_unwritten stmts ho₂
      obtain ⟨b₁, hb₁, h₁⟩ := ihs _ mid b s o₁ hmid ho₁ hmem hb hleft
      have hright := hagrees.right h₁ fun f => runStmt_unwritten stmt ho₁
      obtain ⟨b', hb', h₂⟩ := ihstmts _ out b₁ _ o₂ h ho₂ hb₁ h₁.1 hright
      exact ⟨b', hb', h₁.trans h₂⟩

end Cover

/-! ### Every run -/

section Total

variable {debug : Expr → String} {other : State → Expr → Int} {branches out : List BodyBranch}
  {s : State}

theorem exists_runAssign {a : Assign} {c : Constraint} {field : FieldRef}
    (hc : assignConstraint debug preField a = .ok (c, field)) (s : State) :
    ∃ o, runAssign a s = some o := by
  obtain ⟨htarget, _, l, hl, _⟩ := assignConstraint_eq_ok hc
  obtain ⟨n, hn⟩ := exists_value hl s s
  unfold runAssign
  simp only [htarget, hn]
  exact ⟨_, rfl⟩

theorem exists_runAssigns {assigns : List Assign}
    (h : assigns.foldlM (processAssign debug preField) branches = .ok out) (s : State) :
    ∃ o, runAssigns assigns s = some o := by
  induction assigns generalizing branches s with
  | nil => exact ⟨_, rfl⟩
  | cons a assigns ih =>
    rw [foldlM_cons] at h
    obtain ⟨mid, hmid, h⟩ := bind_eq_ok.mp h
    obtain ⟨⟨c, field⟩, hc, _⟩ := bind_eq_ok.mp hmid
    obtain ⟨o₁, ho₁⟩ := exists_runAssign hc s
    obtain ⟨o₂, ho₂⟩ := ih h o₁.state
    exact ⟨o₁.append o₂, by rw [runAssigns, ho₁]; simp [ho₂]⟩

theorem exists_runBlock (stmts : List Stmt)
    (h : processBodyStmts debug preField stmts branches = .ok out) (hmatch : noMatch stmts = true)
    (s : State) : ∃ o, runBlock other stmts s = some o := by
  refine (blockInduction
    (motive := fun stmt => ∀ branches out s, processStmt debug preField stmt branches = .ok out →
      stmt.noMatch = true → ∃ o, runStmt other stmt s = some o)
    (B := fun stmts => ∀ branches out s, processBodyStmts debug preField stmts branches = .ok out →
      noMatch stmts = true → ∃ o, runBlock other stmts s = some o)
    ?mutateState ?assign ?letIn ?ifThen ?matchOn ?ret ?nil ?cons).2 stmts branches out s h hmatch
  case mutateState =>
    intro assigns branches out s h _
    exact exists_runAssigns h s
  case assign =>
    intro a branches out s h _
    obtain ⟨⟨c, field⟩, hc, _⟩ := bind_eq_ok.mp h
    exact exists_runAssign hc s
  case letIn => exact fun name ty e branches out s _ _ => ⟨_, rfl⟩
  case ifThen =>
    intro condition thenBody elseBody ihthen ihelse branches out s h hmatch
    obtain ⟨diff, rel, thenOut, elseOut, hcond, hthen, helse, rfl⟩ := processStmt_ifThen h
    have hparts : noMatch thenBody = true ∧ noMatch (elseBody.getD []) = true := by
      cases elseBody with
      | none => exact ⟨hmatch, rfl⟩
      | some elseBody => exact Bool.and_eq_true_iff.mp hmatch
    obtain ⟨holds, hholds, _⟩ := runCondition_of_ok (σ := fun _ => 0) hcond s
    rw [runStmt_ifThen, hholds, Option.bind_some]
    cases holds with
    | true =>
      obtain ⟨o, ho⟩ := ihthen _ thenOut s hthen hparts.1
      exact ⟨_, by rw [if_pos rfl, ho, Option.bind_some]⟩
    | false =>
      obtain ⟨o, ho⟩ := ihelse _ elseOut s helse hparts.2
      exact ⟨_, by rw [if_neg Bool.false_ne_true, ho, Option.bind_some]⟩
  case matchOn =>
    intro scrutinee arms branches out s _ hmatch
    cases hmatch
  case ret => exact fun e branches out s _ _ => ⟨_, rfl⟩
  case nil => exact fun branches out s _ _ => ⟨_, rfl⟩
  case cons =>
    intro stmt stmts ihs ihstmts branches out s h hmatch
    rw [processBodyStmts] at h
    obtain ⟨mid, hmid, h⟩ := bind_eq_ok.mp h
    obtain ⟨hs, hstmts⟩ := Bool.and_eq_true_iff.mp hmatch
    obtain ⟨o₁, ho₁⟩ := ihs _ mid s hmid hs
    obtain ⟨o₂, ho₂⟩ := ihstmts _ out o₁.state h hstmts
    cases hreturned : o₁.returned with
    | true =>
      exact ⟨_, by rw [runBlock, ho₁, Option.bind_eq_bind, Option.bind_some, if_pos hreturned]⟩
    | false =>
      have hnot : ¬o₁.returned = true := Bool.eq_false_iff.mp hreturned
      exact ⟨o₁.append o₂, by
        rw [runBlock, ho₁, Option.bind_eq_bind, Option.bind_some, if_neg hnot, ho₂]
        rfl⟩

end Total

section Assignments

variable {params : List Name} {pre post : State} {seen : List (Place × Int)}

theorem plain_ne_field {e : Expr} {s : State} {x : Place × Int} (hx : x ∈ e.seen s) (f : FieldRef) :
    x.1.plain ≠ fieldPlace f := by
  induction e using Expr.operatorInduction with
  | var v =>
    obtain rfl := mem_singleton.mp hx
    intro h
    cases h
  | old e ih | unary _ e ih => exact ih hx
  | bin op lhs rhs ihl ihr =>
    rcases mem_append.mp hx with hx | hx
    · exact ihl hx
    · exact ihr hx
  | index receiver i =>
    unfold Expr.seen at hx
    unfold elemPlace at hx
    split at hx
    · next p hp =>
      obtain rfl := mem_singleton.mp hx
      split at hp
      · cases hp
        intro h
        cases h
      · cases hp
        intro h
        cases h
      · cases hp
    · cases hx
  | _ => cases hx

theorem runAssigns_seen {assigns : List Assign} {s : State} {o : Outcome}
    (h : runAssigns assigns s = some o) : ∀ x ∈ o.seen, ∀ f, x.1.plain ≠ fieldPlace f := by
  induction assigns generalizing s o with
  | nil =>
    cases h
    simp [Outcome.idle]
  | cons a assigns ih =>
    obtain ⟨o₁, h₁, h⟩ := Option.bind_eq_some_iff.mp h
    obtain ⟨o₂, h₂, h⟩ := Option.bind_eq_some_iff.mp h
    cases h
    obtain ⟨_, _, _, _, _, hseen, _⟩ := runAssign_eq_some h₁
    refine forall_mem_append.mpr ⟨?_, ih h₂⟩
    rw [hseen]
    exact fun x => plain_ne_field

theorem runBlock_seen {other : State → Expr → Int} (stmts : List Stmt) {s : State} {o : Outcome}
    (h : runBlock other stmts s = some o) : ∀ x ∈ o.seen, ∀ f, x.1.plain ≠ fieldPlace f := by
  refine (blockInduction
    (motive := fun stmt => ∀ s o, runStmt other stmt s = some o →
      ∀ x ∈ o.seen, ∀ f, x.1.plain ≠ fieldPlace f)
    (B := fun stmts => ∀ s o, runBlock other stmts s = some o →
      ∀ x ∈ o.seen, ∀ f, x.1.plain ≠ fieldPlace f)
    ?mutateState ?assign ?letIn ?ifThen ?matchOn ?ret ?nil ?cons).2 stmts s o h
  case mutateState => exact fun assigns s o h => runAssigns_seen h
  case assign =>
    intro a s o h
    obtain ⟨_, _, _, _, _, hseen, _⟩ := runAssign_eq_some h
    rw [hseen]
    exact fun x => plain_ne_field
  case letIn =>
    intro name ty e s o h
    cases h
    exact fun x => plain_ne_field
  case ifThen =>
    intro condition thenBody elseBody ihthen ihelse s o h
    rw [runStmt_ifThen] at h
    obtain ⟨holds, _, h⟩ := Option.bind_eq_some_iff.mp h
    obtain ⟨o', ho', h⟩ := Option.bind_eq_some_iff.mp h
    cases h
    refine forall_mem_append.mpr ⟨fun x => plain_ne_field, ?_⟩
    cases holds with
    | true => exact ihthen s o' ho'
    | false => exact ihelse s o' ho'
  case matchOn =>
    intro scrutinee arms s o h
    cases h
  case ret =>
    intro e s o h
    cases h
    exact fun _ hx => absurd hx not_mem_nil
  case nil =>
    intro s o h
    cases h
    exact fun _ hx => absurd hx not_mem_nil
  case cons =>
    intro stmt stmts ihs ihstmts s o h
    obtain ⟨o₁, h₁, h⟩ := Option.bind_eq_some_iff.mp h
    split at h
    · cases h
      exact ihs s o₁ h₁
    · obtain ⟨o₂, h₂, h⟩ := Option.bind_eq_some_iff.mp h
      cases h
      exact forall_mem_append.mpr ⟨ihs s o₁ h₁, ihstmts _ o₂ h₂⟩

/-- The values that are to be given to the variables that stand for places before a run. -/
inductive Given (params : List Name) (pre : State) (seen : List (Place × Int)) : Place → Int → Prop
  | field (f : FieldRef) : Given params pre seen (fieldPlace f) (pre (fieldPlace f))
  | param {v : Name} (h : v ∈ params) : Given params pre seen (.var v) (pre (.var v))
  | seen {x : Place × Int} (h : x ∈ seen) : Given params pre seen x.1 x.2

theorem Given.unique (hone : OneValue params pre seen)
    (hplain : ∀ x ∈ seen, ∀ f, x.1.plain ≠ fieldPlace f)
    {p q : Place} {n m : Int} (hp : Given params pre seen p n) (hq : Given params pre seen q m)
    (hname : p.name preField = q.name preField) : n = m := by
  have hpq := Place.plain_eq hname
  have hvar : ∀ {p : Place} {v : Name}, p.plain = .var v → p = .var v := by
    intro p v h
    cases p with
    | fieldElem => cases h
    | _ => exact h
  cases hp with
  | field f =>
    cases hq with
    | field f' =>
      simp only [fieldPlace, Place.plain, Place.field.injEq] at hpq
      rw [Prod.ext hpq.1 hpq.2]
    | param h => cases hpq
    | seen h => exact absurd hpq.symm (hplain _ h f)
  | param h =>
    cases hq with
    | field f => cases hpq
    | param h' =>
      cases hpq
      rfl
    | seen h' => exact (hone.2 _ h' _ h (hvar hpq.symm)).symm
  | seen h =>
    cases hq with
    | field f => exact absurd hpq (hplain _ h f)
    | param h' => exact hone.2 _ h _ h' (hvar hpq)
    | seen h' => exact hone.1 _ h _ h' hname

theorem exists_standsFor (hone : OneValue params pre seen)
    (hplain : ∀ x ∈ seen, ∀ f, x.1.plain ≠ fieldPlace f) :
    ∃ σ, StandsFor σ params pre post ∧ ∀ x ∈ seen, σ (x.1.name preField) = x.2 := by
  obtain ⟨σ, hσ⟩ := exists_assignment
    (fun i : {x : Place × Int // Given params pre seen x.1 x.2} ⊕ FieldRef =>
      match i with
      | .inl x => x.1.1.name preField
      | .inr f => afterVar f)
    (fun i =>
      match i with
      | .inl x => x.1.2
      | .inr f => post (fieldPlace f)) (by
      rintro (⟨x, hx⟩ | f) (⟨y, hy⟩ | f') hname
      · exact hx.unique hone hplain hy hname
      · exact absurd hname.symm postField_ne
      · exact absurd hname postField_ne
      · obtain ⟨hbase, hf⟩ := postField_eq hname
        dsimp only
        rw [Prod.ext hbase hf])
  refine ⟨σ, ⟨fun v hv => ?_, fun f => ?_, fun f => hσ (.inr f)⟩, fun x hx => ?_⟩
  · exact hσ (.inl ⟨(.var v, _), .param hv⟩)
  · exact hσ (.inl ⟨(fieldPlace f, _), .field f⟩)
  · exact hσ (.inl ⟨x, .seen hx⟩)

end Assignments

/-- A run of a body of assignments, `if`s, `let`s and `return`s that assigns every field at
most once, and reads none after that, is covered by a branch, unless a `return` leaves out
an assignment or a name is read with two values. -/
theorem body_encoded (debug : Expr → String) (other : State → Expr → Int) (params : List Name)
    (body : List Stmt) (branches : List BodyBranch)
    (hbranches : processBodyStmts debug preField body [.start] = .ok branches)
    (hmatch : noMatch body = true) (pre : State) :
    ∃ o, runBlock other body pre = some o ∧
      (Once o.accesses → assignsIn o.skipped = false → OneValue params pre o.seen →
        ∃ b ∈ branches, ∃ σ, StandsFor σ params pre o.state ∧ Satisfies σ b.extraPremises ∧
          Satisfies σ b.mutations ∧
            ∀ fields frame, frameAxioms fields b = .ok frame → Satisfies σ frame) := by
  have hruns : ∃ o, runBlock other body pre = some o := exists_runBlock body hbranches hmatch pre
  obtain ⟨o, ho⟩ := hruns
  refine ⟨o, ho, fun honce hskipped hone => ?_⟩
  have hstands : ∃ σ, StandsFor σ params pre o.state ∧ ∀ x ∈ o.seen, σ (x.1.name preField) = x.2 :=
    exists_standsFor hone (runBlock_seen body ho)
  obtain ⟨σ, hσ, hseen⟩ := hstands
  have hagrees : Agrees σ .start pre o :=
    ⟨honce, by simp [BodyBranch.start], fun f _ => hσ.before f, hseen,
      fun f _ => hσ.after f, hskipped⟩
  obtain ⟨b, hb, hcovers⟩ := exists_covering_branch body hbranches ho (mem_singleton_self _)
    ⟨by simp [Satisfies, BodyBranch.start], by simp [Satisfies, BodyBranch.start]⟩ hagrees
  refine ⟨b, hb, σ, hσ, hcovers.1.1, hcovers.1.2, fun fields frame hframe c hc => ?_⟩
  obtain ⟨f, _, hassigned, _, hholds⟩ := frameAxioms_eq_ok hframe hc
  rw [hholds]
  -- a field that the branch does not assign is not written by the run
  have hwritten : .write f ∉ o.accesses := fun hmem => hassigned ((hcovers.2 f).mpr (Or.inr hmem))
  exact (hσ.after f).trans ((runBlock_unwritten body ho hwritten).trans (hσ.before f).symm)

section Examples

def wallet : Name :=
  ⟨"w", .refl true⟩

def setField (field : Name) (value : Expr) : Stmt :=
  .assign ⟨.field wallet field, .set, value⟩

def balance : Name :=
  ⟨"balance", by decide⟩

def limit : Name :=
  ⟨"limit", by decide⟩

/-- `if w.balance > 3 { w.limit = w.balance; return } else { w.limit = 3 }` -/
def limitBody : List Stmt :=
  [.ifThen (.bin .gt (.field wallet balance) (.int 3))
    [setField limit (.field wallet balance), .ret none] (some [setField limit (.int 3)])]

def limitBranches : List BodyBranch :=
  [⟨[⟨⟨[("w.balance", 1)], -3⟩, .gt⟩], [⟨⟨[("w.limit'", 1), ("w.balance", -1)], 0⟩, .eq⟩],
      [(wallet, limit)]⟩,
    ⟨[⟨⟨[("w.balance", 1)], -3⟩, .le⟩], [⟨⟨[("w.limit'", 1)], -3⟩, .eq⟩], [(wallet, limit)]⟩]

/-- From a balance of five the first branch covers the run. -/
theorem body_encoded_limit : ∃ b ∈ limitBranches, ∃ σ, σ "w.balance" = 5 ∧ σ "w.limit'" = 5 ∧
    Satisfies σ b.extraPremises ∧ Satisfies σ b.mutations := by
  obtain ⟨o, ho, hcovered⟩ := body_encoded pretty (fun _ _ => 0) [wallet] limitBody limitBranches
    (by decide) (by decide) fun _ => 5
  cases ho
  obtain ⟨b, hb, σ, hσ, hextra, hmutations, _⟩ := hcovered (by decide) (by decide)
    ⟨fun x hx => absurd hx not_mem_nil, fun x hx => absurd hx not_mem_nil⟩
  exact ⟨b, hb, σ, hσ.before (wallet, balance), hσ.after (wallet, limit), hextra, hmutations⟩

/-- `return; w.limit = 3` leaves the field alone, but its only branch says that it is three. -/
theorem return_not_encoded :
    let body := [Stmt.ret none, setField limit (.int 3)]
    let branch : BodyBranch := ⟨[], [⟨⟨[("w.limit'", 1)], -3⟩, .eq⟩], [(wallet, limit)]⟩
    processBodyStmts pretty preField body [.start] = .ok [branch] ∧
      ∃ o, runBlock (fun _ _ => 0) body (fun _ => 0) = some o ∧ Once o.accesses ∧
        ∀ σ, StandsFor σ [wallet] (fun _ => 0) o.state → ¬Satisfies σ branch.mutations := by
  intro body branch
  refine ⟨by decide, ⟨fun _ => 0, true, [], [], [setField limit (.int 3)]⟩, rfl, by decide,
    fun σ hσ hmutations => ?_⟩
  have hlimit : σ "w.limit'" = 0 := hσ.after (wallet, limit)
  have hholds := hmutations _ (mem_singleton_self _)
  simp [Constraint.Holds, Relation.Holds, Linear.eval, hlimit] at hholds

end Examples

end Oikos.Telos
