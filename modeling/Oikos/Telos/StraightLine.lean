/-
Straight-line bodies: the assignments that the code generator emits, read back and run
one after another, do what the assignments of the body do.
-/
import Oikos.Telos.ControlFlow
import Oikos.Telos.Printers

namespace Oikos.Telos

open List Option

/-! ### Emitting -/

def Stmt.straight : Stmt → Bool
  | .mutateState _ | .assign _ => true
  | _ => false

def Stmt.assignments : Stmt → List Assign
  | .mutateState assigns => assigns
  | .assign a => [a]
  | _ => []

def bodyAssigns (body : List Stmt) : List Assign :=
  body.flatMap Stmt.assignments

def renderLine (a : Assign) : String :=
  "    " ++ renderAssign a ++ ";\n"

/-- What `render_func` makes of a body of assignments to fields. -/
def renderBody (body : List Stmt) : String :=
  ((bodyAssigns body).map renderLine).foldr (· ++ ·) ""

def runText (text : String) (s : State) : Option State :=
  (readAssigns text).bind fun assigns => (runAssigns assigns s).map Outcome.state

namespace Expr

/-- An expression without `old`, which the code generator leaves out. -/
def dropOld : Expr → Expr
  | .old e => e.dropOld
  | .unary op e => .unary op e.dropOld
  | .bin op lhs rhs => .bin op lhs.dropOld rhs.dropOld
  | e => e

/-- The numbers that are written in an expression. -/
def literals : Expr → List Int
  | .int n => [n]
  | .old e | .unary _ e => e.literals
  | .bin _ lhs rhs => lhs.literals ++ rhs.literals
  | .index _ i => i.literals
  | _ => []

end Expr

section Old

variable {e : Expr} {s : State}

theorem renderExpr_dropOld (e : Expr) : renderExpr e.dropOld = renderExpr e := by
  induction e using Expr.operatorInduction with
  | old e ih => exact ih
  | unary op e ih =>
    cases op
    rw [Expr.dropOld, renderExpr, ih, renderExpr]
  | bin op lhs rhs ihl ihr => rw [Expr.dropOld, renderExpr, ihl, ihr, renderExpr]
  | _ => rfl

theorem value_dropOld (s : State) (e : Expr) : value s s e.dropOld = value s s e := by
  induction e using Expr.operatorInduction with
  | old e ih => exact ih
  | unary op e ih =>
    cases op
    rw [Expr.dropOld, value, ih, value]
  | bin op lhs rhs ihl ihr => rw [Expr.dropOld, value, ihl, ihr, value]
  | _ => rfl

/-- What can be lowered can be read back. -/
theorem readable_of_linearize {fieldFn : Naming} {l : Linear} (h : linearize fieldFn e = .ok l)
    (hliterals : ∀ n ∈ e.literals, 0 ≤ n ∧ n < 2 ^ 63) : e.dropOld.Readable := by
  obtain ⟨⟨l', approx⟩, hl, hlast⟩ := bind_eq_ok.mp h
  clear h hlast
  induction e using Expr.operatorInduction generalizing fieldFn l' approx with
  | int n => exact hliterals n (mem_singleton_self n)
  | old e ih => exact ih hliterals _ _ hl
  | unary op e ih =>
    cases op
    obtain ⟨⟨l'', approx'⟩, hl', _⟩ := bind_eq_ok.mp hl
    exact ih hliterals _ _ hl'
  | bin op lhs rhs ihl ihr =>
    obtain ⟨⟨l₁, approxL⟩, hl₁, hl⟩ := bind_eq_ok.mp hl
    obtain ⟨⟨l₂, approxR⟩, hl₂, _⟩ := bind_eq_ok.mp hl
    obtain ⟨hlhs, hrhs⟩ := forall_mem_append.mp hliterals
    exact ⟨ihl hlhs _ _ hl₁, ihr hrhs _ _ hl₂⟩
  | index receiver i =>
    obtain ⟨l'', hl', _⟩ := bind_eq_ok.mp hl
    obtain ⟨p, hp, _⟩ := indexVar_eq_ok hl'
    unfold elemPlace at hp
    split at hp
    · exact hliterals _ (mem_singleton_self _)
    · exact hliterals _ (mem_singleton_self _)
    · cases hp
  | var | field => trivial
  | _ => cases hl

end Old

/-! ### Values of what is read back -/

def Val.toInt : Val → Option Int
  | .int n => some n
  | .bool _ => none

section Values

variable {e lhs rhs : Expr} {op : BinOp} {s : State}

theorem toInt_neg (x : Option Val) :
    (x.bind Val.neg).bind Val.toInt = (x.bind Val.toInt).map (-·) := by
  rcases x with _ | (x | x) <;> rfl

theorem toInt_combine (op : BinOp) (x y : Option Val) :
    (op.combine x y).bind Val.toInt =
      (x.bind Val.toInt).bind fun n => (y.bind Val.toInt).bind fun m => op.arith n m := by
  rcases x with _ | (x | _ | _) <;> rcases y with _ | (y | _ | _) <;> cases op <;>
    first
    | rfl
    | simp only [BinOp.combine, BinOp.apply, Val.toInt, bind_some, BinOp.arith]
      split <;> rfl

theorem toInt_eval (h : e.Readable) :
    (eval (fun p => .int (s p)) e).bind Val.toInt = value s s e := by
  induction e using Expr.operatorInduction with
  | unary op e ih =>
    cases op
    rw [eval, toInt_neg, ih h, value]
  | bin op lhs rhs ihl ihr => rw [eval, toInt_combine, ihl h.1, ihr h.2, value]
  | index receiver i =>
    rw [eval, value]
    cases elemPlace receiver i <;> rfl
  | int | var | field => rfl
  | _ => exact h.elim

theorem readable_graft (hlhs : lhs.Readable) (hrhs : rhs.Readable) :
    (Expr.graft op lhs rhs).Readable := by
  induction rhs using Expr.operatorInduction with
  | bin op' l r ihl _ =>
    rw [Expr.graft]
    split
    · exact ⟨ihl hrhs.1, hrhs.2⟩
    · exact ⟨hlhs, hrhs⟩
  | _ => exact ⟨hlhs, hrhs⟩

theorem readable_negate (h : e.Readable) : e.negate.Readable := by
  induction e using Expr.operatorInduction with
  | bin op l r ihl _ =>
    rw [Expr.negate]
    split
    · exact ⟨ihl h.1, h.2⟩
    · exact h
  | _ => exact h

theorem readable_regroup (h : e.Readable) : e.regroup.Readable := by
  induction e using Expr.operatorInduction with
  | unary op e ih => exact readable_negate (ih h)
  | bin op lhs rhs ihl ihr => exact readable_graft (ihl h.1) (ihr h.2)
  | _ => exact h

theorem value_regroup (h : e.Readable) (hflat : e.Flat) : value s s e.regroup = value s s e := by
  rw [← toInt_eval (readable_regroup h), eval_regroup hflat, toInt_eval h]

end Values

/-! ### Reading the text back -/

/-- An assignment to a field whose text is read back with the same value. -/
structure Assign.Printable (a : Assign) : Prop where
  target : ∃ b f, a.target = .field b f
  readable : a.value.dropOld.Readable
  flat : a.value.dropOld.Flat

/-- The assignment that the text of one is read as. -/
def Assign.reread (a : Assign) : Assign :=
  { a with value := a.value.dropOld.regroup }

def Assign.tokens (a : Assign) : List Token :=
  a.target.tokens ++ a.op.token :: (a.value.dropOld.tokens ++ [.punct ';'])

section Reread

variable {a : Assign} {assigns : List Assign} {rest : List Char} {ts : List Token}

theorem Lexes.assignOp (h : Lexes rest ts) (op : AssignOp) :
    Lexes (" ".toList ++ (op.text.toList ++ (" ".toList ++ rest))) (op.token :: ts) := by
  have hrest : Lexes (' ' :: rest) ts := h.blank rfl
  refine Lexes.blank ?_ rfl
  cases op
  all_goals
    first
    | exact hrest.token rfl rfl rfl (le_refl _)
    | exact hrest.token rfl rfl rfl (Nat.le_succ _)

theorem Lexes.line (ha : a.Printable) (h : Lexes rest ts) :
    Lexes ((renderLine a).toList ++ rest) (a.tokens ++ ts) := by
  obtain ⟨b, f, htarget⟩ := ha.target
  have hend : Lexes (';' :: '\n' :: rest) (.punct ';' :: ts) :=
    (h.blank (c := '\n') rfl).token rfl rfl rfl (le_refl _)
  have hvalue := (hend.renderExpr ha.readable (breaks_cons rfl)).assignOp a.op
  have hassign := hvalue.renderExpr (e := .field b f) trivial (breaks_cons rfl)
  have hline : Lexes (' ' :: ' ' :: ' ' :: ' ' :: _) _ :=
    (((hassign.blank (c := ' ') rfl).blank (c := ' ') rfl).blank (c := ' ') rfl).blank rfl
  rw [renderExpr_dropOld, ← htarget] at hline
  have htext : (renderLine a).toList ++ rest = ' ' :: ' ' :: ' ' :: ' ' ::
      ((Telos.renderExpr a.target).toList ++ (" ".toList ++ (a.op.text.toList ++ (" ".toList ++
        ((Telos.renderExpr a.value).toList ++ ';' :: '\n' :: rest))))) := by
    rw [renderLine, renderAssign]
    simp only [String.toList_append, append_assoc]
    rfl
  rw [htext]
  simpa only [Assign.tokens, append_assoc, cons_append, nil_append] using hline

theorem lexes_lines (h : ∀ a ∈ assigns, a.Printable) :
    Lexes ((assigns.map renderLine).foldr (· ++ ·) "").toList (assigns.flatMap Assign.tokens) := by
  induction assigns with
  | nil => exact lexes_nil
  | cons a assigns ih =>
    obtain ⟨ha, hassigns⟩ := forall_mem_cons.mp h
    rw [map_cons, foldr_cons, String.toList_append, flatMap_cons]
    exact Lexes.line ha (ih hassigns)

theorem assignOpOf_token (op : AssignOp) : assignOpOf op.token = some op := by
  cases op <;> rfl

theorem parseAssign_tokens (ha : a.Printable) (depth : Nat) (ts : List Token) :
    parseAssign (depth + 2) (a.tokens ++ ts) = some (a.reread, ts) := by
  obtain ⟨b, f, htarget⟩ := ha.target
  have hfield : (Expr.field b f).Readable := trivial
  have hloose : ∀ op : AssignOp, op.token.tightness = 0 := fun op => by cases op <;> rfl
  have hfirst : parseExpr (depth + 2) (a.tokens ++ ts) =
      some (a.target, a.op.token :: (a.value.dropOld.tokens ++ .punct ';' :: ts)) := by
    have hread : parseExpr (depth + 2) ((Expr.field b f).tokens ++ _) = some (.field b f, _) :=
      readsOff_parseExpr hfield trivial depth
        (a.op.token :: (a.value.dropOld.tokens ++ .punct ';' :: ts)) (fun t ht => by
        cases ht
        exact (hloose a.op).symm ▸ Nat.zero_lt_one)
    rw [Assign.tokens, htarget]
    simpa only [append_assoc, cons_append, nil_append] using hread
  have hsecond : parseExpr (depth + 2) (a.value.dropOld.tokens ++ .punct ';' :: ts) =
      some (a.value.dropOld.regroup, .punct ';' :: ts) :=
    readsOff_parseExpr ha.readable ha.flat.layered depth _ (fun t ht => by
      cases ht
      exact Nat.zero_lt_one)
  rw [parseAssign, hfirst, bind_some]
  simp only [assignOpOf_token, bind_some, hsecond, map_some]
  rfl

theorem Assign.tokens_ne_nil (a : Assign) : a.tokens ≠ [] :=
  append_ne_nil_of_right_ne_nil _ (cons_ne_nil _ _)

theorem parseAssigns_tokens (h : ∀ a ∈ assigns, a.Printable) (fuel : Nat)
    (hfuel : assigns.length ≤ fuel) :
    parseAssigns fuel (assigns.flatMap Assign.tokens) = some (assigns.map Assign.reread) := by
  induction assigns generalizing fuel with
  | nil => cases fuel <;> rfl
  | cons a assigns ih =>
    obtain ⟨ha, hassigns⟩ := forall_mem_cons.mp h
    cases fuel with
    | zero => exact absurd hfuel (Nat.not_succ_le_zero _)
    | succ fuel =>
      obtain ⟨t, ts, htokens⟩ := exists_cons_of_ne_nil a.tokens_ne_nil
      have hparse := parseAssign_tokens ha (ts ++ assigns.flatMap Assign.tokens).length
        (assigns.flatMap Assign.tokens)
      rw [htokens, cons_append] at hparse
      rw [flatMap_cons, htokens, cons_append, parseAssigns, hparse, bind_some,
        ih hassigns fuel (Nat.le_of_succ_le_succ hfuel)]
      rfl

theorem length_le_tokens (assigns : List Assign) :
    assigns.length ≤ (assigns.flatMap Assign.tokens).length := by
  induction assigns with
  | nil => exact le_refl _
  | cons a assigns ih =>
    have hpos := length_pos_of_ne_nil a.tokens_ne_nil
    rw [flatMap_cons, length_append, length_cons]
    omega

theorem readAssigns_lines (h : ∀ a ∈ assigns, a.Printable) :
    readAssigns ((assigns.map renderLine).foldr (· ++ ·) "") =
    some (assigns.map Assign.reread) := by
  rw [readAssigns, lexes_lines h _ (le_refl _), bind_some]
  exact parseAssigns_tokens h _ (length_le_tokens assigns)

end Reread

/-! ### Running the text -/

section Run

variable {a : Assign} {assigns : List Assign} {body : List Stmt} {s : State}

theorem runAssign_reread (ha : a.Printable) (s : State) :
    (runAssign a.reread s).map Outcome.state = (runAssign a s).map Outcome.state := by
  obtain ⟨b, f, htarget⟩ := ha.target
  have hvalue : value s s a.reread.value = value s s a.value :=
    (value_regroup ha.readable ha.flat).trans (value_dropOld s a.value)
  have htarget' : a.reread.target = .field b f := htarget
  unfold runAssign
  rw [htarget, htarget']
  dsimp only
  rw [hvalue]
  cases value s s a.value <;> rfl

theorem runAssigns_state (a : Assign) (assigns : List Assign) (s : State) :
    (runAssigns (a :: assigns) s).map Outcome.state =
      ((runAssign a s).map Outcome.state).bind fun s' =>
      (runAssigns assigns s').map Outcome.state := by
  rw [runAssigns]
  cases runAssign a s with
  | none => rfl
  | some o =>
    change ((runAssigns assigns o.state).bind fun o' => some (o.append o')).map Outcome.state =
      (runAssigns assigns o.state).map Outcome.state
    cases runAssigns assigns o.state <;> rfl

theorem runAssigns_reread (h : ∀ a ∈ assigns, a.Printable) (s : State) :
    (runAssigns (assigns.map Assign.reread) s).map Outcome.state =
      (runAssigns assigns s).map Outcome.state := by
  induction assigns generalizing s with
  | nil => rfl
  | cons a assigns ih =>
    obtain ⟨ha, hassigns⟩ := forall_mem_cons.mp h
    rw [map_cons, runAssigns_state, runAssigns_state, runAssign_reread ha]
    exact congrArg (Option.bind _) (funext fun s' => ih hassigns s')

theorem Outcome.append_assoc (o₁ o₂ o₃ : Outcome) :
    (o₁.append o₂).append o₃ = o₁.append (o₂.append o₃) := by
  simp only [Outcome.append, List.append_assoc]

variable {o : Outcome} {other : State → Expr → Int}

theorem Outcome.append_idle (h : o.returned = false) : o.append (.idle o.state) = o := by
  obtain ⟨state, returned, accesses, seen, skipped⟩ := o
  cases h
  simp only [Outcome.append, Outcome.idle, append_nil]

theorem runAssigns_append (assigns assigns' : List Assign) (s : State) :
    runAssigns (assigns ++ assigns') s =
      (runAssigns assigns s).bind fun o => (runAssigns assigns' o.state).map o.append := by
  induction assigns generalizing s with
  | nil => exact Option.map_id'.symm
  | cons a assigns ih =>
    rw [cons_append, runAssigns, runAssigns]
    cases runAssign a s with
    | none => rfl
    | some o₁ =>
      change (runAssigns (assigns ++ assigns') o₁.state).bind (fun o => some (o₁.append o)) =
        ((runAssigns assigns o₁.state).bind fun o => some (o₁.append o)).bind _
      rw [ih, Option.bind_assoc, Option.bind_assoc]
      refine congrArg (Option.bind _) (funext fun o₂ => ?_)
      change ((runAssigns assigns' o₂.state).map o₂.append).bind (fun o => some (o₁.append o)) =
        (runAssigns assigns' o₂.state).map (o₁.append o₂).append
      cases runAssigns assigns' o₂.state with
      | none => rfl
      | some o₃ => exact congrArg some (Outcome.append_assoc o₁ o₂ o₃).symm

theorem runStmt_straight {stmt : Stmt} (h : stmt.straight = true)
    (s : State) : runStmt other stmt s = runAssigns stmt.assignments s := by
  cases stmt with
  | mutateState assigns => rfl
  | assign a =>
    change runAssign a s = (runAssign a s).bind fun o => some (o.append (.idle o.state))
    cases ho : runAssign a s with
    | none => rfl
    | some o =>
      obtain ⟨_, _, _, _, hreturned, _⟩ := runAssign_eq_some ho
      exact congrArg some (Outcome.append_idle hreturned).symm
  | _ => cases h

theorem runAssigns_goes (h : runAssigns assigns s = some o) : o.returned = false := by
  induction assigns generalizing s o with
  | nil =>
    cases h
    rfl
  | cons a assigns ih =>
    obtain ⟨o₁, _, h⟩ := bind_eq_some_iff.mp h
    obtain ⟨o₂, h₂, h⟩ := bind_eq_some_iff.mp h
    cases h
    have hreturned : o₂.returned = false := ih h₂
    exact hreturned

theorem runBlock_straight (h : body.all Stmt.straight = true)
    (s : State) : runBlock other body s = runAssigns (bodyAssigns body) s := by
  induction body generalizing s with
  | nil => rfl
  | cons stmt body ih =>
    obtain ⟨hstmt, hbody⟩ := Bool.and_eq_true_iff.mp (all_cons ▸ h)
    rw [bodyAssigns, flatMap_cons, runAssigns_append, runBlock, runStmt_straight hstmt]
    cases ho : runAssigns stmt.assignments s with
    | none => rfl
    | some o =>
      have hgoes : ¬o.returned = true := Bool.eq_false_iff.mp (runAssigns_goes ho)
      rw [Option.bind_eq_bind, bind_some, if_neg hgoes, ih hbody]
      exact (Option.map_eq_bind (f := o.append)).symm

theorem runText_renderBody (hstraight : body.all Stmt.straight = true)
    (h : ∀ a ∈ bodyAssigns body, a.Printable) (s : State) :
    runText (renderBody body) s = (runBlock other body s).map Outcome.state := by
  rw [runText, renderBody, readAssigns_lines h, bind_some, runAssigns_reread h,
    runBlock_straight hstraight]

/-! ### What a straight-line run reads -/

def Assign.accesses (a : Assign) : List Access :=
  match a.target with
  | .field base field =>
    a.value.reads ++
      if a.op = .set then [.write (base, field)] else [.read (base, field), .write (base, field)]
  | _ => []

theorem accesses_of_runAssigns (h : runAssigns assigns s = some o) :
    o.accesses = assigns.flatMap Assign.accesses ∧ o.skipped = [] := by
  induction assigns generalizing s o with
  | nil =>
    cases h
    exact ⟨rfl, rfl⟩
  | cons a assigns ih =>
    obtain ⟨o₁, h₁, h⟩ := bind_eq_some_iff.mp h
    obtain ⟨o₂, h₂, h⟩ := bind_eq_some_iff.mp h
    cases h
    have hfirst : o₁.accesses = a.accesses ∧ o₁.skipped = [] := by
      unfold runAssign at h₁
      unfold Assign.accesses
      cases htarget : a.target with
      | field base field =>
        rw [htarget] at h₁
        obtain ⟨n, _, h₁⟩ := bind_eq_some_iff.mp h₁
        cases h₁
        exact ⟨rfl, rfl⟩
      | _ =>
        rw [htarget] at h₁
        cases h₁
    obtain ⟨haccesses, hskipped⟩ := ih h₂
    rw [flatMap_cons, ← hfirst.1, ← haccesses]
    refine ⟨rfl, ?_⟩
    change o₁.skipped ++ o₂.skipped = []
    rw [hfirst.2, hskipped]
    rfl

theorem runAssigns_keeps (h : runAssigns assigns s = some o) {p : Place}
    (hp : ∀ f, p ≠ fieldPlace f) : o.state p = s p := by
  induction assigns generalizing s o with
  | nil =>
    cases h
    rfl
  | cons a assigns ih =>
    obtain ⟨o₁, h₁, h⟩ := bind_eq_some_iff.mp h
    obtain ⟨o₂, h₂, h⟩ := bind_eq_some_iff.mp h
    cases h
    obtain ⟨f, n, _, _, _, _, _, _, hstate⟩ := runAssign_eq_some h₁
    have hrest : o₂.state p = o₁.state p := ih h₂
    exact hrest.trans (by rw [hstate]; exact if_neg (hp f))

theorem mem_seen {e : Expr} {x : Place × Int} (h : x ∈ e.seen s) :
    x.1 ∈ e.places ∧ x.2 = s x.1 ∧ ∀ f, x.1 ≠ fieldPlace f := by
  induction e using Expr.operatorInduction with
  | var v =>
    obtain rfl := mem_singleton.mp h
    refine ⟨mem_cons_self, rfl, fun f hf => ?_⟩
    cases hf
  | old e ih | unary _ e ih => exact ih h
  | bin op lhs rhs ihl ihr =>
    rcases mem_append.mp h with h | h
    · exact ⟨mem_append_left _ (ihl h).1, (ihl h).2⟩
    · exact ⟨mem_append_right _ (ihr h).1, (ihr h).2⟩
  | index receiver i =>
    rw [Expr.seen] at h
    rw [Expr.places]
    cases hp : elemPlace receiver i with
    | none =>
      rw [hp] at h
      cases h
    | some p =>
      rw [hp] at h
      obtain rfl := mem_singleton.mp h
      refine ⟨mem_singleton_self _, rfl, fun f hf => ?_⟩
      unfold elemPlace at hp
      split at hp <;> cases hp <;> cases hf
  | _ => cases h

/-- A straight-line run reads variables and elements as they were at the start. -/
theorem mem_seen_of_runAssigns (h : runAssigns assigns s = some o) {x : Place × Int}
    (hx : x ∈ o.seen) :
    (∃ a ∈ assigns, x.1 ∈ a.value.places) ∧ x.2 = s x.1 ∧ ∀ f, x.1 ≠ fieldPlace f := by
  induction assigns generalizing s o with
  | nil =>
    cases h
    cases hx
  | cons a assigns ih =>
    obtain ⟨o₁, h₁, h⟩ := bind_eq_some_iff.mp h
    obtain ⟨o₂, h₂, h⟩ := bind_eq_some_iff.mp h
    cases h
    obtain ⟨f, n, _, _, _, hseen, _, _, hstate⟩ := runAssign_eq_some h₁
    rcases mem_append.mp hx with hx | hx
    · rw [hseen] at hx
      obtain ⟨hmem, hvalue, hfield⟩ := mem_seen hx
      exact ⟨⟨a, mem_cons_self, hmem⟩, hvalue, hfield⟩
    · obtain ⟨⟨a', ha', hmem⟩, hvalue, hfield⟩ := ih h₂ hx
      have hkept : o₁.state x.1 = s x.1 := by
        rw [hstate]
        exact if_neg (hfield f)
      exact ⟨⟨a', mem_cons_of_mem _ ha', hmem⟩, hvalue.trans hkept, hfield⟩

end Run

end Oikos.Telos
