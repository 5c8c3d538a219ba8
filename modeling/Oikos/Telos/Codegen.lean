/-
The texts that `telos-codegen` makes of expressions and of assignments.
-/
import Oikos.Telos.Names

namespace Oikos.Telos

open List

/-! ### Types and patterns -/

mutual

def renderType : Ty → String
  | .named s =>
    match s with
    | "Float32" => "f32"
    | "Float64" => "f64"
    | "Int" => "i64"
    | "PositiveInt" => "i64"
    | other => other
  | .generic name args => name ++ "<" ++ ", ".intercalate (renderTypes args) ++ ">"
  | .tuple elems => "(" ++ ", ".intercalate (renderTypes elems) ++ ")"
  | .array elem len => "[" ++ renderType elem ++ "; " ++ toString len ++ "]"
  | .slice elem => "[" ++ renderType elem ++ "]"

def renderTypes : List Ty → List String
  | [] => []
  | t :: ts => renderType t :: renderTypes ts

end

mutual

def renderTypeGo : Ty → String
  | .named s =>
    match s with
    | "Float32" => "float32"
    | "Float64" => "float64"
    | "Int" => "int64"
    | "PositiveInt" => "int64"
    | other => other
  | .generic name args => name ++ "<" ++ ", ".intercalate (renderTypesGo args) ++ ">"
  | .tuple elems => "(" ++ ", ".intercalate (renderTypesGo elems) ++ ")"
  | .array elem len => "[" ++ toString len ++ "]" ++ renderTypeGo elem
  | .slice elem => "[]" ++ renderTypeGo elem

def renderTypesGo : List Ty → List String
  | [] => []
  | t :: ts => renderTypeGo t :: renderTypesGo ts

end

mutual

def renderPattern : Pattern → String
  | .literal n => toString n
  | .var v => v.text
  | .constructor name [] => name.text
  | .constructor name (p :: ps) =>
    name.text ++ "(" ++ ", ".intercalate (renderPattern p :: renderPatterns ps) ++ ")"
  | .wildcard => "_"

def renderPatterns : List Pattern → List String
  | [] => []
  | p :: ps => renderPattern p :: renderPatterns ps

end

/-! ### Expressions -/

mutual

def renderExpr : Expr → String
  | .int n => toString n
  | .var v => v.text
  | .field base field => base.text ++ "." ++ field.text
  | .old inner => renderExpr inner
  | .unary .neg e => "-" ++ renderExpr e
  | .bin op lhs rhs => renderExpr lhs ++ " " ++ op.text ++ " " ++ renderExpr rhs
  | .call func args => func ++ "(" ++ ", ".intercalate (renderExprs args) ++ ")"
  | .methodCall receiver method args =>
    renderExpr receiver ++ "." ++ method.text ++ "(" ++ ", ".intercalate (renderExprs args) ++ ")"
  | .index receiver index => renderExpr receiver ++ "[" ++ renderExpr index ++ "]"
  | .ifThen condition thenExpr elseExpr =>
    "if " ++ renderExpr condition ++ " \x7b " ++ renderExpr thenExpr ++ " \x7d else \x7b " ++
      renderExpr elseExpr ++ " \x7d"
  | .matchOn scrutinee arms =>
    "match " ++ renderExpr scrutinee ++ " \x7b " ++ ", ".intercalate (renderArms arms) ++ " \x7d"
  | .tryOn e => renderExpr e ++ "?"
  | .forAll v varTy _ body =>
    "forall " ++ v.text ++ ": " ++ renderType varTy ++ " \x7b " ++ renderExpr body ++ " \x7d"
  | .aggregate op args => op.opName ++ "(" ++ ", ".intercalate (renderExprs args) ++ ")"
  | .range lo hi => renderExpr lo ++ ".." ++ renderExpr hi

def renderExprs : List Expr → List String
  | [] => []
  | e :: es => renderExpr e :: renderExprs es

def renderArms : List (Pattern × Expr) → List String
  | [] => []
  | (p, e) :: arms => (renderPattern p ++ " => " ++ renderExpr e) :: renderArms arms

end

def AssignOp.text : AssignOp → String
  | .set => "="
  | .add => "+="
  | .sub => "-="

def renderAssign (a : Assign) : String :=
  renderExpr a.target ++ " " ++ a.op.text ++ " " ++ renderExpr a.value

def exported (name : String) : String :=
  match name.toList with
  | c :: cs => String.ofList (c.toUpper :: cs)
  | [] => ""

mutual

/-- `render_expr` of the Go backend. -/
def goRenderExpr : Expr → String
  | .int n => toString n
  | .var v => v.text
  | .field base field => base.text ++ "." ++ exported field.text
  | .old inner => goRenderExpr inner
  | .unary .neg e => "-" ++ goRenderExpr e
  | .bin op lhs rhs => goRenderExpr lhs ++ " " ++ op.text ++ " " ++ goRenderExpr rhs
  | .call func args => exported func ++ "(" ++ ", ".intercalate (goRenderExprs args) ++ ")"
  | .methodCall receiver method args =>
    goRenderExpr receiver ++ "." ++ exported method.text ++ "(" ++
      ", ".intercalate (goRenderExprs args) ++ ")"
  | .index receiver index => goRenderExpr receiver ++ "[" ++ goRenderExpr index ++ "]"
  | .ifThen condition thenExpr elseExpr =>
    "(func() int64 \x7b if " ++ goRenderExpr condition ++ " \x7b return " ++
      goRenderExpr thenExpr ++ " \x7d return " ++ goRenderExpr elseExpr ++ " \x7d)()"
  | .tryOn e => goRenderTry e
  | .forAll v varTy _ _ => "/* forall " ++ v.text ++ ": " ++ renderTypeGo varTy ++ " */"
  | .aggregate op args =>
    "/* " ++ op.opName ++ "(" ++ ", ".intercalate (goRenderExprs args) ++ ") */"
  | .matchOn scrutinee arms =>
    "/* unsupported: " ++ renderExpr (.matchOn scrutinee arms) ++ " */"
  | .range lo hi => "/* unsupported: " ++ renderExpr (.range lo hi) ++ " */"

/-- What stands for `?` on a call. -/
def goRenderTry : Expr → String
  | .call func args =>
    "(func() int64 \x7b v, err := " ++ exported func ++ "(" ++
      ", ".intercalate (goRenderExprs args) ++
        "); if err != nil \x7b panic(err) \x7d; return v \x7d)()"
  | .methodCall receiver method args =>
    "(func() int64 \x7b v, err := " ++ goRenderExpr receiver ++ "." ++ exported method.text ++
      "(" ++ ", ".intercalate (goRenderExprs args) ++
        "); if err != nil \x7b panic(err) \x7d; return v \x7d)()"
  | _ => "(func() int64 \x7b panic(\"try on non-call\") \x7d)()"

def goRenderExprs : List Expr → List String
  | [] => []
  | e :: es => goRenderExpr e :: goRenderExprs es

end

/-! ### The other printers -/

/-- What a printer makes of a variable or a field: a word, or two words with a dot. -/
inductive Leaf where
  | word (v : Name)
  | dotted (base field : Name)
deriving DecidableEq

def Leaf.text : Leaf → String
  | .word v => v.text
  | .dotted b f => b.text ++ "." ++ f.text

/-- The ways in which the printers differ; the flag says that an `old` stands around. -/
structure Writer where
  var : Bool → Name → Leaf
  field : Bool → Name → Name → Leaf
  old : String → String
  other : Expr → String

def Writer.render (w : Writer) : Bool → Expr → String
  | _, .int n => toString n
  | inOld, .var v => (w.var inOld v).text
  | inOld, .field base field => (w.field inOld base field).text
  | _, .old inner => w.old (w.render true inner)
  | inOld, .unary .neg e => "-" ++ w.render inOld e
  | inOld, .bin op lhs rhs => w.render inOld lhs ++ " " ++ op.text ++ " " ++ w.render inOld rhs
  | _, other => w.other other

theorem isName_ofList {c : Char} {cs : List Char} (hc : isNameStart c = true)
    (hcs : ∀ d ∈ cs, isNameChar d = true) : isName (String.ofList (c :: cs)) = true := by
  rw [isName, String.toList_ofList]
  exact Bool.and_eq_true_iff.mpr ⟨hc, all_eq_true.mpr hcs⟩

theorem isNameStart_toUpper {c : Char} (h : isNameStart c = true) :
    isNameStart c.toUpper = true := by
  by_cases hlower : 'a'.val ≤ c.val ∧ c.val ≤ 'z'.val
  · have hval : c.toUpper.val = c.val + ('A'.val - 'a'.val) := by
      delta Char.toUpper
      rw [dif_pos hlower]
    have hnat : c.toUpper.val.toNat + 32 = c.val.toNat := by
      obtain ⟨hle, hge⟩ := hlower
      rw [UInt32.le_iff_toNat_le] at hle hge
      have ha : 'a'.val.toNat = 97 := rfl
      have hz : 'z'.val.toNat = 122 := rfl
      have hdiff : ('A'.val - 'a'.val).toNat = 4294967264 := rfl
      rw [hval, UInt32.toNat_add, hdiff]
      omega
    have hupper : c.toUpper.isUpper = true := by
      obtain ⟨hle, hge⟩ := hlower
      rw [UInt32.le_iff_toNat_le] at hle hge
      have ha : 'a'.val.toNat = 97 := rfl
      have hz : 'z'.val.toNat = 122 := rfl
      have hA : 'A'.val.toNat = 65 := rfl
      have hZ : 'Z'.val.toNat = 90 := rfl
      delta Char.isUpper
      simp only [decide_eq_true_eq, UInt32.le_iff_toNat_le, ge_iff_le]
      omega
    have halpha : c.toUpper.isAlpha = true := Bool.or_eq_true_iff.mpr (.inl hupper)
    rw [isNameStart, halpha, Bool.true_or]
  · delta Char.toUpper
    rw [dif_neg hlower]
    exact h

namespace Name

theorem isNameStart_of_cons {v : Name} {c : Char} {cs : List Char} (h : v.text.toList = c :: cs) :
    isNameStart c = true := by
  have hwf := v.wf
  rw [isName, h] at hwf
  exact (Bool.and_eq_true_iff.mp hwf).1

theorem exists_cons (v : Name) : ∃ c cs, v.text.toList = c :: cs := by
  cases htext : v.text.toList with
  | nil =>
    have hwf := v.wf
    rw [isName, htext] at hwf
    cases hwf
  | cons c cs => exact ⟨c, cs, rfl⟩

theorem isName_exported (v : Name) : isName (Telos.exported v.text) = true := by
  obtain ⟨c, cs, htext⟩ := v.exists_cons
  rw [Telos.exported, htext]
  refine isName_ofList (isNameStart_toUpper (isNameStart_of_cons htext)) ?_
  intro d hd
  exact isNameChar_of_mem (htext ▸ mem_cons_of_mem c hd)

def exported (v : Name) : Name :=
  ⟨Telos.exported v.text, v.isName_exported⟩

def self : Name := ⟨"self", by decide⟩

/-- The variable of a guard that holds what the function returned. -/
def ret : Name := ⟨"__ret", by decide⟩

theorem isName_old (base field : Name) :
    isName ("__old_" ++ base.text ++ "_" ++ field.text) = true := by
  have htext : ("__old_" ++ base.text ++ "_" ++ field.text).toList =
      '_' :: ("_old_".toList ++ base.text.toList ++ "_".toList ++ field.text.toList) := by
    rw [String.toList_append, String.toList_append, String.toList_append]
    rfl
  rw [isName, htext]
  refine Bool.and_eq_true_iff.mpr ⟨by decide, all_eq_true.mpr fun d hd => ?_⟩
  rcases mem_append.mp hd with hd | hd
  · rcases mem_append.mp hd with hd | hd
    · rcases mem_append.mp hd with hd | hd
      · exact all_eq_true.mp (by decide : "_old_".toList.all isNameChar = true) d hd
      · exact isNameChar_of_mem hd
    · exact all_eq_true.mp (by decide : "_".toList.all isNameChar = true) d hd
  · exact isNameChar_of_mem hd

/-- The variable of a guard that holds what a field was before the call. -/
def old (base field : Name) : Name :=
  ⟨"__old_" ++ base.text ++ "_" ++ field.text, isName_old base field⟩

end Name

def exprWriter : Writer where
  var _ v := .word v
  field _ base field := .dotted base field
  old text := text
  other := renderExpr

def docWriter : Writer where
  var _ v := .word v
  field _ base field := .dotted base field
  old text := "old(" ++ text ++ ")"
  other := renderExpr

def invWriter : Writer where
  var _ v := .dotted .self v
  field _ _ field := .dotted .self field
  old text := text
  other := renderExpr

def rustGuardWriter (scalarOut : Option Name) (post : Bool) : Writer where
  var inOld v := if post && !inOld && scalarOut == some v then .word .ret else .word v
  field inOld base field := if inOld then .word (.old base field) else .dotted base field
  old text := text
  other := renderExpr

def goGuardWriter (scalarOut : Option Name) (post : Bool) : Writer where
  var inOld v := if post && !inOld && scalarOut == some v then .word .ret else .word v
  field inOld base field := if inOld then .word (.old base field) else .dotted base field.exported
  old text := text
  other := goRenderExpr

def goWriter : Writer where
  var _ v := .word v
  field _ base field := .dotted base field.exported
  old text := text
  other := goRenderExpr

def goInvWriter (recv : Name) : Writer where
  var _ v := .dotted recv v.exported
  field _ _ field := .dotted recv field.exported
  old text := text
  other := goRenderExpr

/-- `render_expr`, with `old` kept. -/
def renderExprDoc : Expr → String :=
  docWriter.render false

def renderInv : Expr → String :=
  invWriter.render false

def rustGuardExpr (e : Expr) (scalarOut : Option Name) (post : Bool) : String :=
  (rustGuardWriter scalarOut post).render false e

def goGuardExpr (e : Expr) (scalarOut : Option Name) (post : Bool) : String :=
  (goGuardWriter scalarOut post).render false e

/-- `render_inv` of the Go backend. -/
def goRenderInv (e : Expr) (recv : Name) : String :=
  (goInvWriter recv).render false e

/-- `render_expr` prints operators as the other printers do. -/
theorem renderExpr_eq (inOld : Bool) (e : Expr) : renderExpr e = exprWriter.render inOld e := by
  induction e using Expr.operatorInduction generalizing inOld with
  | old e ih =>
    rw [renderExpr, ih true]
    rfl
  | unary op e ih =>
    cases op
    rw [renderExpr, ih inOld]
    rfl
  | bin op lhs rhs ihl ihr =>
    rw [renderExpr, ihl inOld, ihr inOld]
    rfl
  | int n => rfl
  | var v => rfl
  | field b f => rfl
  | _ => rfl

theorem goRenderExpr_eq (inOld : Bool) (e : Expr) : goRenderExpr e = goWriter.render inOld e := by
  induction e using Expr.operatorInduction generalizing inOld with
  | old e ih => exact ih true
  | unary op e ih =>
    cases op
    exact congrArg ("-" ++ ·) (ih inOld)
  | bin op lhs rhs ihl ihr =>
    change goRenderExpr lhs ++ " " ++ op.text ++ " " ++ goRenderExpr rhs = _
    rw [ihl inOld, ihr inOld]
    rfl
  | _ => rfl

end Oikos.Telos
