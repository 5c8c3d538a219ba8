/-
The paths through a function body, one at a time: the branches that the extraction
makes of a body are the paths through it.
-/
import Oikos.Telos.Problems

namespace Oikos.Telos

open List

section Paths

variable (debug : Expr → String) (fieldFn : Naming)

mutual

/-- A path through statements takes a branch to another. -/
inductive Path : List Stmt → BodyBranch → BodyBranch → Prop
  | nil {b} : Path [] b b
  | cons {s stmts b b₁ b₂} (hs : StmtPath s b b₁) (hstmts : Path stmts b₁ b₂) :
      Path (s :: stmts) b b₂

inductive StmtPath : Stmt → BodyBranch → BodyBranch → Prop
  | mutateState {assigns b} {cs : List (Constraint × FieldRef)}
      (h : List.Forall₂ (fun a c => assignConstraint debug fieldFn a = .ok c) assigns cs) :
      StmtPath (.mutateState assigns) b (cs.foldl (fun b c => b.mutate c.1 c.2) b)
  | assign {a c field b} (h : assignConstraint debug fieldFn a = .ok (c, field)) :
      StmtPath (.assign a) b (b.mutate c field)
  | thenPath {condition thenBody elseBody diff rel b b'}
      (hcond : bodyCondition fieldFn condition = .ok (diff, rel))
      (h : Path thenBody (b.assume ⟨diff, rel⟩) b') :
      StmtPath (.ifThen condition thenBody elseBody) b b'
  | elsePath {condition thenBody elseBody diff rel b b'}
      (hcond : bodyCondition fieldFn condition = .ok (diff, rel))
      (h : Path (elseBody.getD []) (b.assume ⟨diff, negateRelation rel⟩) b') :
      StmtPath (.ifThen condition thenBody elseBody) b b'
  | matchOn {scrutinee arms b} : StmtPath (.matchOn scrutinee arms) b b
  | letIn {name ty value b} : StmtPath (.letIn name ty value) b b
  | ret {value b} : StmtPath (.ret value) b b

end

variable {debug fieldFn} {branches out : List BodyBranch} {b' : BodyBranch}
  {f : BodyBranch → BodyBranch}

theorem mem_processAssigns {assigns : List Assign}
    (h : assigns.foldlM (processAssign debug fieldFn) branches = .ok out) :
    ∃ cs, List.Forall₂ (fun a c => assignConstraint debug fieldFn a = .ok c) assigns cs ∧
      out = branches.map fun b => cs.foldl (fun b c => b.mutate c.1 c.2) b := by
  induction assigns generalizing branches with
  | nil =>
    cases h
    exact ⟨[], Forall₂.nil, by simp⟩
  | cons a assigns ih =>
    rw [foldlM_cons] at h
    obtain ⟨mid, hmid, h⟩ := bind_eq_ok.mp h
    obtain ⟨⟨c, field⟩, hc, hmid⟩ := bind_eq_ok.mp hmid
    cases hmid
    obtain ⟨cs, hcs, rfl⟩ := ih h
    refine ⟨(c, field) :: cs, Forall₂.cons hc hcs, ?_⟩
    rw [map_map]
    rfl

theorem forall₂_unique {A B : Type} {g : A → Result String B} {as : List A} {bs bs' : List B}
    (h : List.Forall₂ (fun a b => g a = .ok b) as bs)
    (h' : List.Forall₂ (fun a b => g a = .ok b) as bs') : bs = bs' := by
  have hmap := mapM_eq_ok.mpr h
  rw [mapM_eq_ok.mpr h'] at hmap
  cases hmap
  rfl

theorem mem_ifThen {condition : Expr} {thenBody : List Stmt} {elseBody : Option (List Stmt)}
    {diff : Linear} {rel : Relation} {thenOut elseOut : List BodyBranch}
    (hcond : bodyCondition fieldFn condition = .ok (diff, rel))
    (hthen : ∀ b', b' ∈ thenOut ↔
      ∃ b ∈ branches.map (BodyBranch.assume ⟨diff, rel⟩), Path debug fieldFn thenBody b b')
    (helse : ∀ b', b' ∈ elseOut ↔
      ∃ b ∈ branches.map (BodyBranch.assume ⟨diff, negateRelation rel⟩),
        Path debug fieldFn (elseBody.getD []) b b') :
    b' ∈ thenOut ++ elseOut ↔
      ∃ b ∈ branches, StmtPath debug fieldFn (.ifThen condition thenBody elseBody) b b' := by
  rw [mem_append, hthen, helse]
  constructor
  · rintro (⟨_, hb, hpath⟩ | ⟨_, hb, hpath⟩)
    · obtain ⟨b, hmem, rfl⟩ := mem_map.mp hb
      exact ⟨b, hmem, .thenPath hcond hpath⟩
    · obtain ⟨b, hmem, rfl⟩ := mem_map.mp hb
      exact ⟨b, hmem, .elsePath hcond hpath⟩
  · rintro ⟨b, hb, hpath⟩
    cases hpath with
    | thenPath hcond' hpath =>
      rw [hcond] at hcond'
      cases hcond'
      exact Or.inl ⟨_, mem_map_of_mem hb, hpath⟩
    | elsePath hcond' hpath =>
      rw [hcond] at hcond'
      cases hcond'
      exact Or.inr ⟨_, mem_map_of_mem hb, hpath⟩

mutual

theorem mem_processBodyStmts : (stmts : List Stmt) → (branches out : List BodyBranch) →
    processBodyStmts debug fieldFn stmts branches = .ok out → ∀ b', b' ∈ out ↔
      ∃ b ∈ branches, Path debug fieldFn stmts b b'
  | [], branches, out, h, b' => by
    cases h
    constructor
    · exact fun hb => ⟨b', hb, .nil⟩
    · rintro ⟨b, hb, ⟨⟩⟩
      exact hb
  | s :: stmts, branches, out, h, b' => by
    rw [processBodyStmts] at h
    obtain ⟨mid, hmid, h⟩ := bind_eq_ok.mp h
    rw [mem_processBodyStmts stmts mid out h b']
    constructor
    · rintro ⟨b₁, hb₁, hpath⟩
      obtain ⟨b, hb, hs⟩ := (mem_processStmt s branches mid hmid b₁).mp hb₁
      exact ⟨b, hb, .cons hs hpath⟩
    · rintro ⟨b, hb, ⟨⟩⟩
      next b₁ hs hpath => exact ⟨b₁, (mem_processStmt s branches mid hmid b₁).mpr
        ⟨b, hb, hs⟩, hpath⟩

theorem mem_processStmt : (s : Stmt) → (branches out : List BodyBranch) →
    processStmt debug fieldFn s branches = .ok out → ∀ b', b' ∈ out ↔
      ∃ b ∈ branches, StmtPath debug fieldFn s b b'
  | .mutateState assigns, branches, out, h, b' => by
    rw [processStmt] at h
    obtain ⟨cs, hcs, rfl⟩ := mem_processAssigns h
    rw [mem_map]
    refine exists_congr fun b => and_congr_right fun _ => ⟨?_, ?_⟩
    · rintro rfl
      exact .mutateState hcs
    · rintro ⟨⟩
      next cs' hcs' => rw [forall₂_unique hcs hcs']
  | .assign a, branches, out, h, b' => by
    rw [processStmt] at h
    obtain ⟨⟨c, field⟩, hc, h⟩ := bind_eq_ok.mp h
    cases h
    rw [mem_map]
    refine exists_congr fun b => and_congr_right fun _ => ⟨?_, ?_⟩
    · rintro rfl
      exact .assign hc
    · rintro ⟨⟩
      next c' field' hc' =>
        rw [hc] at hc'
        cases hc'
        rfl
  | .ifThen condition thenBody none, branches, out, h, b' => by
    rw [processStmt] at h
    obtain ⟨⟨diff, rel⟩, hcond, h⟩ := bind_eq_ok.mp h
    obtain ⟨thenOut, hthen, h⟩ := bind_eq_ok.mp h
    cases h
    exact mem_ifThen hcond (mem_processBodyStmts thenBody _ thenOut hthen)
      (mem_processBodyStmts [] _ _ rfl)
  | .ifThen condition thenBody (some elseBody), branches, out, h, b' => by
    rw [processStmt] at h
    obtain ⟨⟨diff, rel⟩, hcond, h⟩ := bind_eq_ok.mp h
    obtain ⟨thenOut, hthen, h⟩ := bind_eq_ok.mp h
    obtain ⟨elseOut, helse, h⟩ := bind_eq_ok.mp h
    cases h
    exact mem_ifThen hcond (mem_processBodyStmts thenBody _ thenOut hthen)
      (mem_processBodyStmts elseBody _ elseOut helse)
  | .matchOn scrutinee arms, branches, out, h, b' => by
    rw [processStmt] at h
    split at h
    · cases h
    · cases h
      exact ⟨fun hb => ⟨b', hb, .matchOn⟩, by rintro ⟨b, hb, ⟨⟩⟩; exact hb⟩
  | .letIn name ty value, branches, out, h, b' => by
    rw [processStmt] at h
    cases h
    exact ⟨fun hb => ⟨b', hb, .letIn⟩, by rintro ⟨b, hb, ⟨⟩⟩; exact hb⟩
  | .ret value, branches, out, h, b' => by
    rw [processStmt] at h
    cases h
    exact ⟨fun hb => ⟨b', hb, .ret⟩, by rintro ⟨b, hb, ⟨⟩⟩; exact hb⟩

end

def KeptByMutate (debug : Expr → String) (fieldFn : Naming) (P : BodyBranch → Prop) : Prop :=
  ∀ a c field b, assignConstraint debug fieldFn a = .ok (c, field) → P b → P (b.mutate c field)

def KeptByAssume (fieldFn : Naming) (P : BodyBranch → Prop) : Prop :=
  ∀ condition diff rel b, bodyCondition fieldFn condition = .ok (diff, rel) → P b →
    P (b.assume ⟨diff, rel⟩) ∧ P (b.assume ⟨diff, negateRelation rel⟩)

variable {P : BodyBranch → Prop}

theorem preserves_foldl_mutate (hmutate : KeptByMutate debug fieldFn P) {assigns : List Assign}
    {cs : List (Constraint × FieldRef)}
    (h : List.Forall₂ (fun a c => assignConstraint debug fieldFn a = .ok c) assigns cs)
    {b : BodyBranch} (hb : P b) : P (cs.foldl (fun b c => b.mutate c.1 c.2) b) := by
  induction h generalizing b with
  | nil => exact hb
  | cons hc _ ih => exact ih (hmutate _ _ _ b hc hb)

mutual

theorem Path.preserves (hmutate : KeptByMutate debug fieldFn P) (hassume : KeptByAssume fieldFn P)
    {stmts : List Stmt} {b b' : BodyBranch} : Path debug fieldFn stmts b b' → P b → P b'
  | .nil, hb => hb
  | .cons hs hstmts, hb => hstmts.preserves hmutate hassume (hs.preserves hmutate hassume hb)

theorem StmtPath.preserves (hmutate : KeptByMutate debug fieldFn P)
    (hassume : KeptByAssume fieldFn P) {s : Stmt} {b b' : BodyBranch} :
    StmtPath debug fieldFn s b b' → P b → P b'
  | .mutateState h, hb => preserves_foldl_mutate hmutate h hb
  | .assign h, hb => hmutate _ _ _ _ h hb
  | .thenPath hcond h, hb => h.preserves hmutate hassume (hassume _ _ _ _ hcond hb).1
  | .elsePath hcond h, hb => h.preserves hmutate hassume (hassume _ _ _ _ hcond hb).2
  | .matchOn, hb => hb
  | .letIn, hb => hb
  | .ret, hb => hb

end

end Paths

end Oikos.Telos
