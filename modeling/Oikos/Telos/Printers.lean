/-
When the text of an expression keeps its value: for every printer of `telos-codegen`,
where grouping chains to the left makes no difference and no two things that are read
are printed alike.
-/
import Oikos.Telos.Places
import Oikos.Telos.Rendering

namespace Oikos.Telos

open List

/-! ### Values -/

inductive Val where
  | int (n : Int)
  | bool (b : Bool)
deriving DecidableEq

def Val.neg : Val → Option Val
  | .int n => some (.int (-n))
  | .bool _ => none

def BinOp.apply : BinOp → Val → Val → Option Val
  | .add, .int x, .int y => some (.int (x + y))
  | .sub, .int x, .int y => some (.int (x - y))
  | .mul, .int x, .int y => some (.int (x * y))
  | .div, .int x, .int y => if y = 0 then none else some (.int (x.tdiv y))
  | .eq, .int x, .int y => some (.bool (x == y))
  | .eq, .bool x, .bool y => some (.bool (x == y))
  | .ne, .int x, .int y => some (.bool (x != y))
  | .ne, .bool x, .bool y => some (.bool (x != y))
  | .lt, .int x, .int y => some (.bool (decide (x < y)))
  | .le, .int x, .int y => some (.bool (decide (x ≤ y)))
  | .gt, .int x, .int y => some (.bool (decide (y < x)))
  | .ge, .int x, .int y => some (.bool (decide (y ≤ x)))
  | _, _, _ => none

/-- The value of an operator; the right side of `&&` and `||` counts only where the
left one leaves it open. -/
def BinOp.combine : BinOp → Option Val → Option Val → Option Val
  | .and, some (.bool true), some (.bool y) => some (.bool y)
  | .and, some (.bool false), _ => some (.bool false)
  | .and, _, _ => none
  | .or, some (.bool false), some (.bool y) => some (.bool y)
  | .or, some (.bool true), _ => some (.bool true)
  | .or, _, _ => none
  | op, some x, some y => op.apply x y
  | _, _, _ => none

/-- The value of an expression in a state, over unbounded integers; none for a division
by zero and for operands of the wrong kind. -/
def eval (s : Place → Val) : Expr → Option Val
  | .int n => some (.int n)
  | .var v => some (s (.var v))
  | .field b f => some (s (.field b f))
  | .index receiver index => (elemPlace receiver index).map s
  | .unary .neg e => (eval s e).bind Val.neg
  | .bin op lhs rhs => op.combine (eval s lhs) (eval s rhs)
  | _ => none

/-! ### Grouping to the left -/

namespace Expr

/-- A product in which nothing is divided. -/
def noDiv : Expr → Bool
  | .bin .div _ _ => false
  | .bin .mul lhs rhs => lhs.noDiv && rhs.noDiv
  | .unary _ e => e.noDiv
  | _ => true

/-- The operator may have this right side without parentheses around it. -/
def SitsRight (op : BinOp) (rhs : Expr) : Prop :=
  match op with
  | .or => 1 ≤ rhs.tightness
  | .and => 2 ≤ rhs.tightness
  | .eq | .ne | .lt | .le | .gt | .ge => 4 ≤ rhs.tightness
  | .add => 4 ≤ rhs.tightness
  | .sub => 5 ≤ rhs.tightness
  | .mul => 5 ≤ rhs.tightness ∧ rhs.noDiv = true
  | .div => 6 ≤ rhs.tightness

/-- No parentheses are needed for the value: no operator stands under a tighter one, a
comparison under another, a sum to the right of a minus sign between two operands, a
product or quotient to the right of a division, or a quotient to the right of a product. -/
def Flat : Expr → Prop
  | .unary _ e => e.Flat ∧ 5 ≤ e.tightness
  | .bin op lhs rhs =>
    (lhs.Flat ∧ op.tightness ≤ lhs.tightness ∧ (op.tightness = 3 → lhs.tightness ≠ 3)) ∧
      rhs.Flat ∧ rhs.SitsRight op
  | _ => True

instance (op : BinOp) (rhs : Expr) : Decidable (SitsRight op rhs) :=
  match op with
  | .or => inferInstanceAs (Decidable (1 ≤ rhs.tightness))
  | .and => inferInstanceAs (Decidable (2 ≤ rhs.tightness))
  | .eq | .ne | .lt | .le | .gt | .ge => inferInstanceAs (Decidable (4 ≤ rhs.tightness))
  | .add => inferInstanceAs (Decidable (4 ≤ rhs.tightness))
  | .sub => inferInstanceAs (Decidable (5 ≤ rhs.tightness))
  | .mul => inferInstanceAs (Decidable (5 ≤ rhs.tightness ∧ rhs.noDiv = true))
  | .div => inferInstanceAs (Decidable (6 ≤ rhs.tightness))

instance decidableFlat : (e : Expr) → Decidable e.Flat
  | .unary _ e =>
    have := decidableFlat e
    inferInstanceAs (Decidable (e.Flat ∧ 5 ≤ e.tightness))
  | .bin op lhs rhs =>
    have := decidableFlat lhs
    have := decidableFlat rhs
    inferInstanceAs (Decidable ((lhs.Flat ∧ op.tightness ≤ lhs.tightness ∧
      (op.tightness = 3 → lhs.tightness ≠ 3)) ∧ rhs.Flat ∧ rhs.SitsRight op))
  | .int _ | .var _ | .field _ _ | .old _ | .call _ _ | .methodCall _ _ _ | .index _ _
  | .ifThen _ _ _ | .matchOn _ _ | .tryOn _ | .forAll _ _ _ _ | .aggregate _ _ | .range _ _ =>
    .isTrue trivial

theorem Flat.layered {e : Expr} (h : e.Flat) : e.Layered := by
  induction e using Expr.operatorInduction with
  | unary op e ih => exact ⟨ih h.1, h.2⟩
  | bin op lhs rhs ihl ihr =>
    obtain ⟨⟨hlhs, hle, hcmp⟩, hrhs, hright⟩ := h
    refine ⟨⟨ihl hlhs, hle, hcmp⟩, ihr hrhs, ?_⟩
    cases op <;> simp only [SitsRight, BinOp.tightness] at hright ⊢ <;> omega
  | _ => trivial

theorem noDiv_graft {op : BinOp} {lhs rhs : Expr} (h : (Expr.bin op lhs rhs).noDiv = true) :
    (graft op lhs rhs).noDiv = true := by
  induction rhs using Expr.operatorInduction with
  | bin op' l r ihl _ =>
    rw [graft]
    split
    · next heq =>
      cases op <;> cases op' <;> simp_all [noDiv, BinOp.tightness]
    · exact h
  | _ => exact h

theorem noDiv_negate {e : Expr} (h : e.noDiv = true) : e.negate.noDiv = true := by
  induction e using Expr.operatorInduction with
  | bin op l r ihl _ =>
    rw [negate]
    split
    · cases op <;> simp_all [noDiv, BinOp.tightness]
    · exact h
  | unary op e _ =>
    cases op
    exact h
  | _ => exact h

theorem noDiv_regroup {e : Expr} (h : e.noDiv = true) : e.regroup.noDiv = true := by
  induction e using Expr.operatorInduction with
  | unary op e ih => exact noDiv_negate (ih h)
  | bin op lhs rhs ihl ihr =>
    refine noDiv_graft ?_
    cases op with
    | mul =>
      obtain ⟨hl, hr⟩ := Bool.and_eq_true_iff.mp h
      exact Bool.and_eq_true_iff.mpr ⟨ihl hl, ihr hr⟩
    | div => cases h
    | _ => rfl
  | _ => rfl

theorem SitsRight.regroup {op : BinOp} {rhs : Expr} (h : SitsRight op rhs) (hrhs : rhs.Layered) :
    SitsRight op rhs.regroup := by
  cases op with
  | mul => exact ⟨by rw [tightness_regroup hrhs]; exact h.1, noDiv_regroup h.2⟩
  | _ =>
    simp only [SitsRight, tightness_regroup hrhs]
    exact h

end Expr

section Eval

variable {s : Place → Val} {e lhs rhs : Expr} {op : BinOp}

theorem BinOp.combine_add (op : BinOp) (hop : op.tightness = 4) (x y z : Option Val) :
    op.combine (BinOp.add.combine x y) z = BinOp.add.combine x (op.combine y z) := by
  rcases x with _ | (x | x) <;> rcases y with _ | (y | y) <;> rcases z with _ | (z | z) <;>
    cases op <;> simp_all [BinOp.combine, BinOp.apply, BinOp.tightness] <;> ring

theorem BinOp.combine_mul (x y z : Option Val) :
    BinOp.mul.combine (BinOp.mul.combine x y) z = BinOp.mul.combine x (BinOp.mul.combine y z) := by
  rcases x with _ | (x | x) <;> rcases y with _ | (y | y) <;> rcases z with _ | (z | z) <;>
    simp [BinOp.combine, BinOp.apply, mul_assoc]

theorem BinOp.combine_and (x y z : Option Val) :
    BinOp.and.combine (BinOp.and.combine x y) z = BinOp.and.combine x (BinOp.and.combine y z) := by
  rcases x with _ | (x | _ | _) <;> rcases y with _ | (y | _ | _) <;>
    rcases z with _ | (z | _ | _) <;> rfl

theorem BinOp.combine_or (x y z : Option Val) :
    BinOp.or.combine (BinOp.or.combine x y) z = BinOp.or.combine x (BinOp.or.combine y z) := by
  rcases x with _ | (x | _ | _) <;> rcases y with _ | (y | _ | _) <;>
    rcases z with _ | (z | _ | _) <;> rfl

/-- A minus sign in front of a product or a quotient may stand in front of its left side. -/
theorem BinOp.combine_neg (hop : op.tightness = 5) (x y : Option Val) :
    op.combine (x.bind Val.neg) y = (op.combine x y).bind Val.neg := by
  rcases x with _ | (x | x) <;> rcases y with _ | (y | y) <;> cases op <;>
    simp_all [BinOp.combine, BinOp.apply, BinOp.tightness, Val.neg]
  split <;> simp_all [Val.neg]

/-- A left side may move into a chain of operators that associate with its operator. -/
theorem eval_graft_of_assoc (ok : Expr → Prop)
    (hassoc : ∀ op' l r, op'.tightness = op.tightness → ok (.bin op' l r) → ok l ∧ ∀ x y z,
      op'.combine (op.combine x y) z = op.combine x (op'.combine y z))
    (h : ok rhs) : eval s (Expr.graft op lhs rhs) = eval s (.bin op lhs rhs) := by
  induction rhs using Expr.operatorInduction with
  | bin op' l r ihl _ =>
    rw [Expr.graft]
    split
    · next heq =>
      obtain ⟨hl, hcombine⟩ := hassoc op' l r heq h
      rw [eval, ihl hl, eval, eval, eval, hcombine]
    · rfl
  | _ => rfl

theorem eval_negate : eval s e.negate = eval s (.unary .neg e) := by
  induction e using Expr.operatorInduction with
  | bin op l r ihl _ =>
    rw [Expr.negate]
    split
    · next hop =>
      change op.combine (eval s l.negate) (eval s r) =
        (op.combine (eval s l) (eval s r)).bind Val.neg
      rw [ihl, eval, BinOp.combine_neg hop]
    · rfl
  | _ => rfl

theorem eval_graft (h : Expr.SitsRight op rhs) :
    eval s (Expr.graft op lhs rhs) = eval s (.bin op lhs rhs) := by
  cases op with
  | add =>
    exact eval_graft_of_assoc (fun _ => True)
      (fun op' _ _ hop _ => ⟨trivial, BinOp.combine_add op' hop⟩) trivial
  | mul =>
    refine eval_graft_of_assoc (fun e => e.noDiv = true) ?_ h.2
    intro op' l r hop hok
    cases op' with
    | mul => exact ⟨(Bool.and_eq_true_iff.mp hok).1, BinOp.combine_mul⟩
    | div => cases hok
    | _ => cases hop
  | and =>
    refine eval_graft_of_assoc (fun _ => True) ?_ trivial
    intro op' l r hop _
    cases op' with
    | and => exact ⟨trivial, BinOp.combine_and⟩
    | _ => cases hop
  | or =>
    refine eval_graft_of_assoc (fun _ => True) ?_ trivial
    intro op' l r hop _
    cases op' with
    | or => exact ⟨trivial, BinOp.combine_or⟩
    | _ => cases hop
  | sub => exact congrArg (eval s) (Expr.graft_of_ne (Nat.ne_of_gt h))
  | div => exact congrArg (eval s) (Expr.graft_of_ne (Nat.ne_of_gt h))
  | eq | ne | lt | le | gt | ge =>
    exact congrArg (eval s) (Expr.graft_of_ne (Nat.ne_of_gt h))

/-- Grouping every chain to the left keeps the value of a flat expression. -/
theorem eval_regroup (h : e.Flat) : eval s e.regroup = eval s e := by
  induction e using Expr.operatorInduction with
  | unary op e ih =>
    cases op
    rw [Expr.regroup, eval_negate, eval, ih h.1, eval]
  | bin op lhs rhs ihl ihr =>
    obtain ⟨⟨hlhs, -, -⟩, hrhs, hright⟩ := h
    rw [Expr.regroup, eval_graft (hright.regroup hrhs.layered), eval, ihl hlhs, ihr hrhs, eval]
  | _ => rfl

end Eval

/-! ### The printers -/

def Leaf.expr : Leaf → Expr
  | .word v => .var v
  | .dotted b f => .field b f

def Leaf.place : Leaf → Place
  | .word v => .var v
  | .dotted b f => .field b f

theorem Leaf.renderExpr_expr (l : Leaf) : renderExpr l.expr = l.text := by
  cases l <;> rfl

theorem Leaf.eval_expr (l : Leaf) (s : Place → Val) : eval s l.expr = some (s l.place) := by
  cases l <;> rfl

namespace Expr

/-- Numbers, variables, fields, minus signs and the twelve operators. -/
def Operators : Expr → Prop
  | .int n => 0 ≤ n ∧ n < 2 ^ 63
  | .var _ | .field _ _ => True
  | .unary _ e => e.Operators
  | .bin _ lhs rhs => lhs.Operators ∧ rhs.Operators
  | _ => False

instance decidableOperators : (e : Expr) → Decidable e.Operators
  | .int n => inferInstanceAs (Decidable (0 ≤ n ∧ n < 2 ^ 63))
  | .var _ | .field _ _ => .isTrue trivial
  | .unary _ e => decidableOperators e
  | .bin _ lhs rhs =>
    have := decidableOperators lhs
    have := decidableOperators rhs
    inferInstanceAs (Decidable (lhs.Operators ∧ rhs.Operators))
  | .old _ | .call _ _ | .methodCall _ _ _ | .index _ _ | .ifThen _ _ _ | .matchOn _ _ | .tryOn _
  | .forAll _ _ _ _ | .aggregate _ _ | .range _ _ => .isFalse id

end Expr

namespace Writer

variable {w : Writer} {e : Expr} {s s' : Place → Val}

/-- The expression whose text `render_expr` would make. -/
def rename (w : Writer) : Expr → Expr
  | .var v => (w.var false v).expr
  | .field b f => (w.field false b f).expr
  | .unary op e => .unary op (w.rename e)
  | .bin op lhs rhs => .bin op (w.rename lhs) (w.rename rhs)
  | e => e

/-- Where the text reads what the expression reads from a place. -/
def place (w : Writer) : Place → Place
  | .var v => (w.var false v).place
  | .field b f => (w.field false b f).place
  | p => p

/-- A state for the text, in which all that the expression reads has the same value. -/
def Agrees (w : Writer) (e : Expr) (s s' : Place → Val) : Prop :=
  ∀ p ∈ e.places, s' (w.place p) = s p

/-- Different variables and fields are printed differently. -/
def Distinct (w : Writer) (e : Expr) : Prop :=
  ∀ p ∈ e.places, ∀ q ∈ e.places, w.place p = w.place q → p = q

theorem render_eq (h : e.Operators) : w.render false e = renderExpr (w.rename e) := by
  induction e using Expr.operatorInduction with
  | int n => rfl
  | var v => exact (Leaf.renderExpr_expr _).symm
  | field b f => exact (Leaf.renderExpr_expr _).symm
  | unary op e ih =>
    cases op
    rw [render, ih h, rename, renderExpr]
  | bin op lhs rhs ihl ihr => rw [render, ihl h.1, ihr h.2, rename, renderExpr]
  | _ => exact h.elim

theorem readable_rename (h : e.Operators) : (w.rename e).Readable := by
  induction e using Expr.operatorInduction with
  | int n => exact h
  | var v =>
    rw [rename]
    cases w.var false v <;> trivial
  | field b f =>
    rw [rename]
    cases w.field false b f <;> trivial
  | unary op e ih => exact ih h
  | bin op lhs rhs ihl ihr => exact ⟨ihl h.1, ihr h.2⟩
  | _ => exact h.elim

theorem tightness_rename (w : Writer) (e : Expr) : (w.rename e).tightness = e.tightness := by
  induction e using Expr.operatorInduction with
  | var v =>
    rw [rename]
    cases w.var false v <;> rfl
  | field b f =>
    rw [rename]
    cases w.field false b f <;> rfl
  | unary op e ih => exact congrArg (min 6) ih
  | _ => rfl

theorem noDiv_rename (w : Writer) (e : Expr) : (w.rename e).noDiv = e.noDiv := by
  induction e using Expr.operatorInduction with
  | var v =>
    rw [rename]
    cases w.var false v <;> rfl
  | field b f =>
    rw [rename]
    cases w.field false b f <;> rfl
  | unary op e ih => exact ih
  | bin op lhs rhs ihl ihr =>
    cases op with
    | mul => exact congrArg₂ (· && ·) ihl ihr
    | _ => rfl
  | _ => rfl

theorem flat_rename (w : Writer) (h : e.Flat) : (w.rename e).Flat := by
  induction e using Expr.operatorInduction with
  | var v =>
    rw [rename]
    cases w.var false v <;> trivial
  | field b f =>
    rw [rename]
    cases w.field false b f <;> trivial
  | unary op e ih =>
    rw [rename, Expr.Flat, tightness_rename]
    exact ⟨ih h.1, h.2⟩
  | bin op lhs rhs ihl ihr =>
    obtain ⟨⟨hlhs, hle⟩, hrhs, hright⟩ := h
    have hsits : Expr.SitsRight op (w.rename rhs) := by
      cases op <;> simpa only [Expr.SitsRight, tightness_rename, noDiv_rename] using hright
    rw [rename, Expr.Flat, tightness_rename]
    exact ⟨⟨ihl hlhs, hle⟩, ihr hrhs, hsits⟩
  | _ => trivial

theorem eval_rename (h : e.Operators) (hs : w.Agrees e s s') :
    eval s' (w.rename e) = eval s e := by
  induction e using Expr.operatorInduction with
  | int n => rfl
  | var v => exact (Leaf.eval_expr _ s').trans (congrArg some (hs _ mem_cons_self))
  | field b f => exact (Leaf.eval_expr _ s').trans (congrArg some (hs _ mem_cons_self))
  | unary op e ih =>
    cases op
    rw [rename, eval, ih h hs, eval]
  | bin op lhs rhs ihl ihr =>
    rw [rename, eval, ihl h.1 fun p hp => hs p (mem_append_left _ hp),
      ihr h.2 fun p hp => hs p (mem_append_right _ hp), eval]
  | _ => exact h.elim

/-- What is printed differently can have its value kept. -/
theorem exists_agrees (h : w.Distinct e) (s : Place → Val) : ∃ s', w.Agrees e s s' := by
  refine ⟨fun q => ((e.places.find? fun p => w.place p = q).map s).getD (.int 0), ?_⟩
  intro p hp
  cases hfind : e.places.find? fun p' => w.place p' = w.place p with
  | none => exact absurd (decide_eq_true rfl) (find?_eq_none.mp hfind p hp)
  | some p' =>
    have hmem := mem_of_find?_eq_some hfind
    have hplace : w.place p' = w.place p := by simpa using find?_some hfind
    have hp' : p' = p := h p' hmem p hp hplace
    change ((e.places.find? fun p' => w.place p' = w.place p).map s).getD (.int 0) = s p
    rw [hfind, hp']
    rfl

end Writer

inductive Printer where
  | expr
  | doc
  | inv
  | rustGuard (scalarOut : Option Name) (post : Bool)
  | goGuard (scalarOut : Option Name) (post : Bool)
  | goExpr
  | goInv (recv : Name)

def Printer.text : Printer → Expr → String
  | expr, e => renderExpr e
  | doc, e => renderExprDoc e
  | inv, e => renderInv e
  | rustGuard scalarOut post, e => rustGuardExpr e scalarOut post
  | goGuard scalarOut post, e => goGuardExpr e scalarOut post
  | goExpr, e => goRenderExpr e
  | goInv recv, e => goRenderInv e recv

def Printer.writer : Printer → Writer
  | expr => exprWriter
  | doc => docWriter
  | inv => invWriter
  | rustGuard scalarOut post => rustGuardWriter scalarOut post
  | goGuard scalarOut post => goGuardWriter scalarOut post
  | goExpr => goWriter
  | goInv recv => goInvWriter recv

theorem Printer.text_eq (p : Printer) (e : Expr) : p.text e = p.writer.render false e := by
  cases p with
  | expr => exact renderExpr_eq false e
  | goExpr => exact goRenderExpr_eq false e
  | _ => rfl

/-- Every printer keeps the value of an expression that needs no parentheses and whose
variables and fields it prints differently: its text, read back, has the same value in
every state in which what is read has the same value. -/
theorem rendered_value (p : Printer) {e : Expr} (he : e.Operators) (hflat : e.Flat)
    (hdistinct : p.writer.Distinct e) :
    ∃ e', readBack (p.text e) = some e' ∧ ∀ s, (∃ s', p.writer.Agrees e s s') ∧
      ∀ s', p.writer.Agrees e s s' → eval s' e' = eval s e := by
  have hread := p.writer.readable_rename he
  have hrename := p.writer.flat_rename hflat
  refine ⟨(p.writer.rename e).regroup, ?_, fun s => ⟨Writer.exists_agrees hdistinct s, ?_⟩⟩
  · rw [p.text_eq, Writer.render_eq he]
    exact readBack_renderExpr hread hrename.layered
  · intro s' hs
    rw [eval_regroup hrename, Writer.eval_rename he hs]

/-- `a.limit + 2 * -b <= 9`, printed for Go. -/
theorem rendered_value_bound :
    let a : Name := ⟨"a", by decide⟩
    let b : Name := ⟨"b", by decide⟩
    let limit : Name := ⟨"limit", by decide⟩
    let e : Expr := .bin .le (.bin .add (.field a limit)
    (.bin .mul (.int 2) (.unary .neg (.var b))))
      (.int 9)
    ∃ e', readBack (goRenderExpr e) = some e' ∧ ∀ s, (∃ s', goWriter.Agrees e s s') ∧
      ∀ s', goWriter.Agrees e s s' → eval s' e' = eval s e := by
  intro a b limit e
  have hdistinct : goWriter.Distinct e := by
    have hplaces : e.places = [.field a limit, .var b] := rfl
    intro p hp q hq heq
    rw [hplaces, mem_cons, mem_singleton] at hp hq
    rcases hp with rfl | rfl <;> rcases hq with rfl | rfl <;> first | rfl | cases heq
  exact rendered_value .goExpr (by decide) (by decide) hdistinct

/-- The parentheses of `(a + a) * a` are lost. -/
theorem rendered_sum_in_product :
    let a : Expr := .var ⟨"a", by decide⟩
    let e : Expr := .bin .mul (.bin .add a a) a
    e.Operators ∧ ∃ e', readBack (renderExpr e) = some e' ∧
      eval (fun _ => .int 2) e' ≠ eval (fun _ => .int 2) e := by
  intro a e
  have htext : renderExpr e = renderExpr (.bin .add a (.bin .mul a a)) := by decide
  have hflat : (Expr.bin .add a (.bin .mul a a)).Flat := by decide
  refine ⟨by decide, .bin .add a (.bin .mul a a), ?_, by decide⟩
  rw [htext]
  exact readBack_renderExpr ⟨trivial, trivial, trivial⟩ hflat.layered

end Oikos.Telos
