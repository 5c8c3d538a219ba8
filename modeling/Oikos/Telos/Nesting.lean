/-
Statements inside of other statements: what the Rust backend makes of them there, and
what it makes of them in the body itself.
-/
import Oikos.Telos.Backends

namespace Oikos.Telos

open List

/-! ### Blocks -/

mutual

def Stmt.blocks : Stmt → List (List Stmt)
  | .ifThen _ thenBody none => thenBody :: innerBlocks thenBody
  | .ifThen _ thenBody (some elseBody) =>
    thenBody :: innerBlocks thenBody ++ elseBody :: innerBlocks elseBody
  | .matchOn _ arms => armBlocks arms
  | .mutateState _ | .assign _ | .letIn _ _ _ | .ret _ => []

/-- The blocks nested in the statements, at any depth. -/
def innerBlocks : List Stmt → List (List Stmt)
  | [] => []
  | s :: ss => s.blocks ++ innerBlocks ss

def armBlocks : List (Pattern × List Stmt) → List (List Stmt)
  | [] => []
  | (_, body) :: arms => body :: innerBlocks body ++ armBlocks arms

end

def ownAssigns (stmts : List Stmt) : List Assign :=
  stmts.flatMap Stmt.ownAssigns

/-- The assignments inside of other statements. -/
def nestedAssigns (stmts : List Stmt) : List Assign :=
  (innerBlocks stmts).flatMap ownAssigns

/-- The variable that the outer assignments set first. -/
def firstScalar (stmts : List Stmt) : Option Name :=
  (ownAssigns stmts).findSome? Assign.scalar

/-! ### Code without its layout -/

def isBlank (c : Char) : Bool :=
  c == ' ' || c == '\n'

/-- A text without blanks and line ends. -/
def letters (text : String) : List Char :=
  text.toList.filter fun c => !isBlank c

section Letters

theorem letters_append (a b : String) : letters (a ++ b) = letters a ++ letters b := by
  rw [letters, String.toList_append, filter_append]
  rfl

theorem letters_join (texts : List String) :
    letters (String.join texts) = texts.flatMap letters := by
  induction texts with
  | nil => rfl
  | cons text texts ih => rw [String.join_cons, letters_append, ih, flatMap_cons]

theorem letters_indentation (indent : Nat) : letters (indentation "    " indent) = [] := by
  rw [indentation, letters_join]
  induction indent with
  | zero => rfl
  | succ indent ih => exact ih

theorem letters_pad : letters "    " = [] := by
  decide

theorem letters_newline : letters "\n" = [] := by
  decide

theorem letters_lead (indent : Nat) : letters (indentation "    " indent ++ "    ") = [] := by
  rw [letters_append, letters_indentation, letters_pad]
  rfl

theorem letters_armLead (indent : Nat) :
    letters (indentation "    " indent ++ "        ") = [] := by
  rw [letters_append, letters_indentation]
  decide

theorem letters_semicolon : letters ";\n" = [';'] := by
  decide

/-- Separators are one shorter than ends. -/
theorem length_intercalate (texts : List String) :
    (texts.map letters).flatten.length + texts.length ≤
      (letters ("; ".intercalate texts)).length + 1 := by
  induction texts with
  | nil => simp
  | cons text texts ih =>
    cases texts with
    | nil => simp [String.intercalate_singleton]
    | cons next texts =>
      rw [String.intercalate_cons_cons, letters_append, letters_append, length_append,
        length_append]
      have hsep : (letters "; ").length = 1 := by decide
      rw [map_cons, flatten_cons, length_append, length_cons]
      omega

end Letters

/-! ### The text of a statement -/

section Rendering

attribute [local simp] renderStmtAt renderStmtsIndented renderArmsIndented bodyStmtText

mutual

theorem letters_renderStmtAt : (s : Stmt) → (indent : Nat) →
    letters (renderStmtAt indent s) = letters (renderStmtAt 0 s)
  | .mutateState assigns, indent => by rw [renderStmtAt, renderStmtAt]
  | .assign a, indent => by rw [renderStmtAt, renderStmtAt]
  | .letIn name ty value, indent => by rw [renderStmtAt, renderStmtAt]
  | .ret e, indent => by rw [renderStmtAt, renderStmtAt]
  | .ifThen condition thenBody none, indent => by
    rw [renderStmtAt, renderStmtAt]
    simp only [letters_append, letters_indentation]
    rw [letters_renderStmtsIndented thenBody _ _ (letters_lead indent),
      letters_renderStmtsIndented thenBody _ _ (letters_lead 0)]
  | .ifThen condition thenBody (some elseBody), indent => by
    rw [renderStmtAt, renderStmtAt]
    simp only [letters_append, letters_indentation]
    rw [letters_renderStmtsIndented thenBody _ _ (letters_lead indent),
      letters_renderStmtsIndented thenBody _ _ (letters_lead 0),
      letters_renderStmtsIndented elseBody _ _ (letters_lead indent),
      letters_renderStmtsIndented elseBody _ _ (letters_lead 0)]
  | .matchOn scrutinee arms, indent => by
    rw [renderStmtAt, renderStmtAt]
    simp only [letters_append, letters_indentation]
    rw [letters_renderArmsIndented arms indent, letters_renderArmsIndented arms 0]

theorem letters_renderStmtsIndented : (ss : List Stmt) → (lead : String) → (indent : Nat) →
    letters lead = [] →
    letters (renderStmtsIndented lead indent ss) = ss.flatMap fun s => letters (renderStmtAt 0 s)
  | [], lead, indent, _ => by
    rw [renderStmtsIndented]
    rfl
  | s :: ss, lead, indent, hlead => by
    rw [renderStmtsIndented, flatMap_cons]
    simp only [letters_append, hlead, letters_indentation, letters_newline, nil_append,
      append_nil]
    rw [letters_renderStmtAt s indent, letters_renderStmtsIndented ss lead indent hlead]

theorem letters_renderArmsIndented : (arms : List (Pattern × List Stmt)) → (indent : Nat) →
    letters (renderArmsIndented indent arms) = arms.flatMap fun arm =>
      letters (renderPattern arm.1) ++ letters " => \x7b\n" ++
        (arm.2.flatMap fun s => letters (renderStmtAt 0 s)) ++ letters "\x7d\n"
  | [], indent => by
    rw [renderArmsIndented]
    rfl
  | (p, body) :: arms, indent => by
    rw [renderArmsIndented, flatMap_cons]
    simp only [letters_append, letters_indentation, letters_pad, nil_append]
    rw [letters_renderStmtsIndented body _ _ (letters_armLead indent),
      letters_renderArmsIndented arms indent, append_nil]

end

/-- A statement inside of others. -/
theorem letters_renderStmtIndented (indent : Nat) (s : Stmt) :
    letters (renderStmtIndented indent s) = letters (renderStmtAt 0 s) := by
  rw [renderStmtIndented, letters_append, letters_append, letters_indentation, letters_newline,
    nil_append, append_nil, letters_renderStmtAt]

theorem letters_blockText (indent : Nat) (body : List Stmt) :
    letters (blockText indent body) = body.flatMap fun s => letters (renderStmtAt 0 s) := by
  rw [blockText, letters_join, flatMap_map]
  simp only [letters_renderStmtIndented]

theorem letters_bodyStmtText (scalarOut : Option Name) : (s : Stmt) →
    (∀ assigns, s ≠ .mutateState assigns) → (∀ a, s ≠ .assign a) →
    letters (bodyStmtText scalarOut s) = letters (renderStmtAt 0 s)
  | .mutateState assigns, hs, _ => absurd rfl (hs assigns)
  | .assign a, _, hs => absurd rfl (hs a)
  | .letIn name ty value, _, _ => by
    rw [bodyStmtText, renderStmtAt, letters_append, letters_append, letters_pad, letters_newline,
      nil_append, append_nil]
  | .ret e, _, _ => by
    rw [bodyStmtText, renderStmtAt, letters_append, letters_append, letters_pad, letters_newline,
      nil_append, append_nil]
  | .ifThen condition thenBody elseBody, _, _ => by
    have hif : letters "    if " = letters "if " := by decide
    have hend : letters "    \x7d" = letters "\x7d" := by decide
    cases elseBody with
    | none =>
      rw [bodyStmtText, renderStmtAt]
      simp only [letters_append, letters_indentation, letters_blockText, letters_newline, hif, hend]
      rw [letters_renderStmtsIndented thenBody _ _ (letters_lead 0)]
      simp [letters]
    | some elseBody =>
      rw [bodyStmtText, renderStmtAt]
      simp only [letters_append, letters_indentation, letters_blockText, letters_newline, hif, hend]
      rw [letters_renderStmtsIndented thenBody _ _ (letters_lead 0),
        letters_renderStmtsIndented elseBody _ _ (letters_lead 0)]
      simp only [append_assoc, append_nil]
  | .matchOn scrutinee arms, _, _ => by
    have hmatch : letters "    match " = letters "match " := by decide
    have harm : letters "        " = [] := by decide
    have hclose : letters "        \x7d\n" = letters "\x7d\n" := by decide
    have hend : letters "    \x7d\n" = letters "\x7d" := by decide
    rw [bodyStmtText, renderStmtAt]
    simp only [letters_append, letters_indentation, letters_join, flatMap_map,
      letters_blockText,
      hmatch, harm, hclose, hend, nil_append]
    rw [letters_renderArmsIndented arms 0, append_nil]

end Rendering

/-! ### The same code -/

section Same

variable {scalarOut : Option Name} {last : Bool} {a : Assign}

/-- Inside of others a statement has the code that it has in the body itself, but for
the semicolon after the last statement of a block. -/
def SameCode (scalarOut : Option Name) (last : Bool) (s : Stmt) : Prop :=
  ∀ indent, letters (renderStmtIndented indent s) = letters (bodyStmtText scalarOut s) ∨
    last = true ∧
      letters (renderStmtIndented indent s) ++ [';'] = letters (bodyStmtText scalarOut s)

def Stmt.Plain (scalarOut : Option Name) (last : Bool) : Stmt → Prop
  | .mutateState _ => False
  | .assign a => last = true ∧ ∀ v, a.scalar = some v → scalarOut ≠ some v
  | .letIn _ _ _ | .ifThen _ _ _ | .matchOn _ _ | .ret _ => True

theorem not_sameCode_scalar {v : Name} (hv : a.scalar = some v) (hout : scalarOut = some v) :
    ¬SameCode scalarOut last (.assign a) := by
  obtain ⟨target, op, value⟩ := a
  have htarget : target = .var v := by
    cases target with
    | var w => exact congrArg Expr.var (Option.some.inj hv)
    | _ => cases hv
  intro h
  have hop : (letters op.text).length ≤ 2 := by
    cases op <;> decide
  have hlet : (letters "    let ").length = 3 := by decide
  have heq : (letters " = ").length = 1 := by decide
  have hspace : (letters " ").length = 0 := by decide
  have hsemi : (letters ";\n").length = 1 := by decide
  have hvar : renderExpr (.var v) = v.text := by rw [renderExpr]
  have hinner : letters (renderStmtIndented 0 (.assign ⟨target, op, value⟩)) =
      letters (renderAssign ⟨target, op, value⟩) := by
    rw [letters_renderStmtIndented, renderStmtAt]
  have hbody : bodyStmtText scalarOut (.assign ⟨target, op, value⟩) =
      "    let " ++ v.text ++ " = " ++ renderExpr value ++ ";\n" := by
    simp only [bodyStmtText, hv, hout, if_true]
  have hlen := h 0
  rw [hinner, hbody, renderAssign, htarget, hvar] at hlen
  have hlen' := hlen.imp (congrArg length) fun h => congrArg length h.2
  simp only [letters_append, length_append, length_singleton] at hlen'
  omega

theorem sameCode_assign :
    SameCode scalarOut last (.assign a) ↔
      last = true ∧ ∀ v, a.scalar = some v → scalarOut ≠ some v := by
  by_cases hproduced : ∃ v, a.scalar = some v ∧ scalarOut = some v
  · obtain ⟨v, hv, hout⟩ := hproduced
    exact ⟨fun h => absurd h (not_sameCode_scalar hv hout), fun h => absurd hout (h.2 v hv)⟩
  · have hplain : ∀ v, a.scalar = some v → scalarOut ≠ some v := fun v hv hout =>
      hproduced ⟨v, hv, hout⟩
    have hbody : letters (bodyStmtText scalarOut (.assign a)) =
      letters (renderAssign a) ++ [';'] := by
      have htext : bodyStmtText scalarOut (.assign a) = "    " ++ renderAssign a ++ ";\n" := by
        cases hv : a.scalar with
        | none => simp only [bodyStmtText, hv]
        | some v => simp only [bodyStmtText, hv, hplain v hv, if_false]
      rw [htext, letters_append, letters_append, letters_pad, letters_semicolon, nil_append]
    have hinner : ∀ indent, letters (renderStmtIndented indent (.assign a)) =
        letters (renderAssign a) := by
      intro indent
      rw [letters_renderStmtIndented, renderStmtAt]
    constructor
    · intro h
      refine ⟨(h 0).elim (fun heq => ?_) And.left, hplain⟩
      rw [hinner, hbody] at heq
      exact absurd heq (by simp)
    · rintro ⟨hlast, _⟩ indent
      rw [hinner, hbody]
      exact Or.inr ⟨hlast, rfl⟩

theorem length_assignLines (assigns : List Assign) :
    (letters (String.join (assigns.map fun a => "    " ++ renderAssign a ++ ";\n"))).length =
      ((assigns.map renderAssign).map letters).flatten.length +
      (assigns.map renderAssign).length := by
  induction assigns with
  | nil => rfl
  | cons a assigns ih =>
    have hline : (letters ("    " ++ renderAssign a ++ ";\n")).length =
        (letters (renderAssign a)).length + 1 := by
      rw [letters_append, letters_append, letters_pad, letters_semicolon, nil_append,
        length_append, length_singleton]
    simp only [map_cons, String.join_cons, letters_append, flatten_cons,
      length_append,
      length_cons] at ih hline ⊢
    omega

theorem not_sameCode_mutateState (assigns : List Assign) :
    ¬SameCode scalarOut last (.mutateState assigns) := by
  intro h
  let texts := assigns.map renderAssign
  have hinner : letters (renderStmtIndented 0 (.mutateState assigns)) =
      letters "mutate state \x7b " ++ letters ("; ".intercalate texts) ++ letters " \x7d" := by
    rw [letters_renderStmtIndented, renderStmtAt, letters_append, letters_append]
  have hbody : (letters (bodyStmtText scalarOut (.mutateState assigns))).length =
      (texts.map letters).flatten.length + texts.length := by
    rw [bodyStmtText]
    exact length_assignLines assigns
  have hlen := (h 0).imp (congrArg length) fun h => congrArg length h.2
  have hopen : (letters "mutate state \x7b ").length = 12 := by decide
  have hclose : (letters " \x7d").length = 1 := by decide
  have hseparated := length_intercalate texts
  rw [hinner, length_append, hbody] at hlen
  simp only [length_append, length_singleton] at hlen
  omega

theorem sameCode_iff (s : Stmt) : SameCode scalarOut last s ↔ s.Plain scalarOut last := by
  cases s with
  | mutateState assigns => exact ⟨fun h => not_sameCode_mutateState assigns h, False.elim⟩
  | assign a => exact sameCode_assign
  | letIn | ifThen | matchOn | ret =>
    refine ⟨fun _ => trivial, fun _ indent => Or.inl ?_⟩
    rw [letters_renderStmtIndented]
    exact (letters_bodyStmtText scalarOut _ (fun _ => Stmt.noConfusion) fun _ =>
      Stmt.noConfusion).symm

end Same

/-! ### Functions -/

section Functions

variable {f : SourceFunc} {stmts : List Stmt} {types : TypeFields}

def allAssigns (stmts : List Stmt) : List Assign :=
  ownAssigns stmts ++ nestedAssigns stmts

structure NestingFits (f : SourceFunc) (stmts : List Stmt) (types : TypeFields) : Prop where
  code : ∀ block ∈ innerBlocks stmts, ∀ before s after, block = before ++ s :: after →
    SameCode (analyzeFunc f stmts types).scalarOut after.isEmpty s
  mutated : ∀ name ty mutated fields,
    .struct name ty mutated fields ∈ (analyzeFunc f stmts types).inputs →
      (mutated = true ↔ ∃ a ∈ allAssigns stmts, a.mutated = some name)

def paramFields (types : TypeFields) (p : SourceParam) : List Name :=
  ((types.get p.ty.name).getD []).map Prod.fst

theorem contains_mutated {name : Name} :
    ((ownAssigns stmts).filterMap Assign.mutated).contains name = true ↔
      ∃ a ∈ ownAssigns stmts, a.mutated = some name := by
  rw [contains_iff_mem, mem_filterMap]

theorem mem_inputs {name : Name} {ty : String} {mutated : Bool} {fields : List Name} :
    .struct name ty mutated fields ∈ (analyzeFunc f stmts types).inputs ↔
      ∃ p ∈ f.params, some p.name ≠ firstScalar stmts ∧ paramFields types p ≠ [] ∧
        .struct name ty mutated fields = InputParam.struct p.name p.ty.name
          (((ownAssigns stmts).filterMap Assign.mutated).contains p.name)
          (paramFields types p) := by
  change _ ∈ ((f.params.filter fun p => some p.name != firstScalar stmts).map fun p =>
    if (paramFields types p).isEmpty then InputParam.scalar p.name
    else InputParam.struct p.name p.ty.name
      (((ownAssigns stmts).filterMap Assign.mutated).contains p.name)
      (paramFields types p)) ↔ _
  rw [mem_map]
  constructor
  · rintro ⟨p, hp, heq⟩
    obtain ⟨hmem, hname⟩ := mem_filter.mp hp
    split at heq
    · cases heq
    · next hempty =>
      exact ⟨p, hmem, bne_iff_ne.mp hname, fun h => hempty (List.isEmpty_iff.mpr h), heq.symm⟩
  · rintro ⟨p, hmem, hname, hne, heq⟩
    refine ⟨p, mem_filter.mpr ⟨hmem, bne_iff_ne.mpr hname⟩, ?_⟩
    rw [if_neg (fun h => hne (List.isEmpty_iff.mp h)), heq]

theorem exists_allAssigns {q : Assign → Prop} :
    (∃ a ∈ allAssigns stmts, q a) ↔
      (∃ a ∈ ownAssigns stmts, q a) ∨ ∃ a ∈ nestedAssigns stmts, q a := by
  simp only [allAssigns, mem_append, or_and_right, exists_or]

/-- The code is the same, and the analysis right, exactly where no `mutate state` is
inside of another statement, assignments there are last in their block and not to the
produced scalar, and structs that they assign are assigned in the body itself too. -/
theorem nestingFits_iff (f : SourceFunc) (stmts : List Stmt) (types : TypeFields) :
    NestingFits f stmts types ↔
      (∀ block ∈ innerBlocks stmts, ∀ before s after, block = before ++ s :: after →
        s.Plain (firstScalar stmts) after.isEmpty) ∧
      ∀ p ∈ f.params, some p.name ≠ firstScalar stmts → paramFields types p ≠ [] →
        (∃ a ∈ nestedAssigns stmts, a.mutated = some p.name) →
          ∃ a ∈ ownAssigns stmts, a.mutated = some p.name := by
  constructor
  · intro h
    refine ⟨fun block hblock before s after hsplit => ?_, fun p hp hname hfields hnested => ?_⟩
    · exact (sameCode_iff s).mp (h.code block hblock before s after hsplit)
    · have hflag := h.mutated _ _ _ _ (mem_inputs.mpr ⟨p, hp, hname, hfields, rfl⟩)
      rw [contains_mutated, exists_allAssigns] at hflag
      exact hflag.mpr (Or.inr hnested)
  · rintro ⟨hcode, hstructs⟩
    refine ⟨fun block hblock before s after hsplit => ?_, fun name ty mutated fields hinput => ?_⟩
    · exact (sameCode_iff s).mpr (hcode block hblock before s after hsplit)
    · obtain ⟨p, hp, hname, hfields, heq⟩ := mem_inputs.mp hinput
      cases heq
      rw [contains_mutated, exists_allAssigns]
      exact ⟨Or.inl, fun h => h.elim id (hstructs p hp hname hfields)⟩

/-- `if w.f > 0 { mutate state { w.f += 1 } }` for a wallet with a field. -/
theorem nested_mutateState :
    let w : Name := ⟨"w", by decide⟩
    let body : List Stmt := [.mutateState [⟨.field w w, .add, .int 1⟩]]
    let f : SourceFunc := ⟨[], w, [⟨⟨w, .named "Wallet"⟩, .immutable⟩], none, [], [], [], false,
      ⟨1, 1⟩, [], []⟩
    ¬NestingFits f [.ifThen (.bin .gt (.field w w) (.int 0)) body none]
      (TypeFields.add .empty "Wallet" [(w, .int)]) := by
  intro w body f hfits
  exact not_sameCode_mutateState _ (hfits.code body (mem_singleton_self _) [] _ [] rfl)

end Functions

end Oikos.Telos
