/-
Modules written back as tokens, without parentheses, commas and semicolons.  The clauses
of a function stand in the order of their places in the source.
-/
import Mathlib.Data.List.Sort
import Oikos.Telos.Parser

namespace Oikos.Telos.Parser

/-! ### The tokens of a source -/

def Token.isSeparator : Token → Bool
  | .lParen | .rParen | .comma | .semicolon | .eof => true
  | _ => false

/-- The tokens without parentheses, commas, semicolons and the end. -/
def bare (tokens : List Token) : List Token :=
  tokens.filter fun t => !t.isSeparator

/-- The tokens of a text without the separators. -/
def sourceTokens (lexemes : List Lexeme) : List Token :=
  bare (lexemes.map Lexeme.token)

/-- The tokens that a text is read as; none if it cannot be read. -/
def textTokens (text : String) : List Token :=
  match lex text with
  | .ok lexemes => sourceTokens lexemes
  | .error _ => []

/-! ### Types, patterns and expressions -/

def natToken (n : Nat) : Token :=
  .int (Fin.ofNat _ n)

/-- A negative number is written with a minus sign in front. -/
def writeInt (n : Int) : List Token :=
  if n < 0 then [.minus, natToken n.natAbs] else [natToken n.natAbs]

mutual

def writeTy : Ty → List Token
  | .named s => textTokens s
  | .generic s args => textTokens s ++ .lt :: (writeTys args ++ [.gt])
  | .tuple elems => writeTys elems
  | .array elem len => .lSquare :: (writeTy elem ++ [natToken len, .rSquare])
  | .slice elem => .lSquare :: (writeTy elem ++ [.rSquare])

def writeTys : List Ty → List Token
  | [] => []
  | t :: ts => writeTy t ++ writeTys ts

end

mutual

/-- The brackets and commas of a pattern are separators. -/
def writePattern : Pattern → List Token
  | .literal n => writeInt n
  | .var v => [wordToken v]
  | .constructor name fields => wordToken name :: writePatterns fields
  | .wildcard => [.underScore]

def writePatterns : List Pattern → List Token
  | [] => []
  | p :: ps => writePattern p ++ writePatterns ps

end

def binOpToken : BinOp → Token
  | .add => .plus
  | .sub => .minus
  | .mul => .star
  | .div => .slash
  | .eq => .eqEq
  | .ne => .ne
  | .lt => .lt
  | .le => .le
  | .gt => .gt
  | .ge => .ge
  | .and => .and
  | .or => .or

mutual

def writeExpr : Expr → List Token
  | .int n => writeInt n
  | .var v => [wordToken v]
  | .field base field => [wordToken base, .dot, wordToken field]
  | .old e => .kw .old :: writeExpr e
  | .unary .neg e => .minus :: writeExpr e
  | .bin op lhs rhs => writeExpr lhs ++ binOpToken op :: writeExpr rhs
  | .call func args => textTokens func ++ writeExprs args
  | .methodCall receiver method args =>
    writeExpr receiver ++ .dot :: wordToken method :: writeExprs args
  | .index receiver index => writeExpr receiver ++ .lSquare :: (writeExpr index ++ [.rSquare])
  | .ifThen condition thenExpr elseExpr =>
    .kw .ifKw :: (writeExpr condition ++ .lBrace :: (writeExpr thenExpr ++
      .rBrace :: .kw .elseKw :: .lBrace :: (writeExpr elseExpr ++ [.rBrace])))
  | .matchOn scrutinee arms =>
    .kw .matchKw :: (writeExpr scrutinee ++ .lBrace :: (writeExprArms arms ++ [.rBrace]))
  | .tryOn e => writeExpr e ++ [.question]
  | .forAll v varTy none body =>
    .kw .forall_ :: wordToken v :: .colon :: (writeTy varTy ++
      .lBrace :: (writeExpr body ++ [.rBrace]))
  | .forAll v varTy (some domain) body =>
    .kw .forall_ :: wordToken v :: .colon :: (writeTy varTy ++
      .kw .inKw :: (writeExpr domain ++ .lBrace :: (writeExpr body ++ [.rBrace])))
  | .aggregate op args => textTokens op.opName ++ writeExprs args
  | .range lo hi => writeExpr lo ++ .dotDot :: writeExpr hi

def writeExprs : List Expr → List Token
  | [] => []
  | e :: es => writeExpr e ++ writeExprs es

def writeExprArms : List (Pattern × Expr) → List Token
  | [] => []
  | (p, e) :: arms => writePattern p ++ .fatArrow :: (writeExpr e ++ writeExprArms arms)

end

/-! ### Statements -/

def assignOpToken : AssignOp → Token
  | .set => .assign
  | .add => .plusAssign
  | .sub => .minusAssign

def writeAssign (a : Assign) : List Token :=
  writeExpr a.target ++ assignOpToken a.op :: writeExpr a.value

/-- An arm of one statement needs no braces. -/
def armBody (count : Nat) (body : List Token) : List Token :=
  if count = 1 then body else .lBrace :: (body ++ [.rBrace])

mutual

def writeStmt : Stmt → List Token
  | .mutateState assigns =>
    .kw .mutate :: .kw .state :: .lBrace :: (assigns.flatMap writeAssign ++ [.rBrace])
  | .assign a => writeAssign a
  | .letIn name none value => .kw .letKw :: wordToken name :: .assign :: writeExpr value
  | .letIn name (some ty) value =>
    .kw .letKw :: wordToken name :: .colon :: (writeTy ty ++ .assign :: writeExpr value)
  | .ifThen condition thenBody none =>
    .kw .ifKw :: (writeExpr condition ++ .lBrace :: (writeStmts thenBody ++ [.rBrace]))
  | .ifThen condition thenBody (some elseBody) =>
    .kw .ifKw :: (writeExpr condition ++ .lBrace :: (writeStmts thenBody ++
      .rBrace :: .kw .elseKw :: .lBrace :: (writeStmts elseBody ++ [.rBrace])))
  | .matchOn scrutinee arms =>
    .kw .matchKw :: (writeExpr scrutinee ++ .lBrace :: (writeStmtArms arms ++ [.rBrace]))
  | .ret none => [.kw .returnKw]
  | .ret (some e) => .kw .returnKw :: writeExpr e

def writeStmts : List Stmt → List Token
  | [] => []
  | s :: ss => writeStmt s ++ writeStmts ss

def writeStmtArms : List (Pattern × List Stmt) → List Token
  | [] => []
  | (p, body) :: arms =>
    writePattern p ++ .fatArrow :: (armBody body.length (writeStmts body) ++ writeStmtArms arms)

end

/-! ### Items -/

def writeArg : Arg → List Token
  | .flag f => [wordToken f]
  | .kv key (.int n) => wordToken key :: .assign :: writeInt n
  | .kv key (.ident v) => [wordToken key, .assign, wordToken v]

def writeAttribute (a : Attribute) : List Token :=
  .at_ :: wordToken a.name :: a.args.flatMap writeArg

def writeInvariant (inv : Invariant) : List Token :=
  .kw .invariant :: (textTokens inv.name ++ .lBrace :: (writeExprs inv.constraints ++ [.rBrace]))

def writeField (f : FieldDef) : List Token :=
  wordToken f.name :: .colon :: writeTy f.ty

def writeStruct (sd : StructDef) : List Token :=
  .kw .struct :: wordToken sd.name :: .lBrace :: (sd.fields.flatMap writeField ++ [.rBrace])

/-- Braces only around fields. -/
def writeVariant (v : VariantDef) : List Token :=
  wordToken v.name ::
    if v.fields.isEmpty then [] else .lBrace :: (v.fields.flatMap writeField ++ [.rBrace])

def writeEnum (ed : EnumDef) : List Token :=
  .kw .enum :: wordToken ed.name :: .lBrace :: (ed.variants.flatMap writeVariant ++ [.rBrace])

def writeParam (p : SourceParam) : List Token :=
  (match p.mutability with
    | .mutable => [.kw .mut]
    | .immutable => []) ++ wordToken p.name :: .colon :: writeTy p.ty

/-- What stands at the first place does not come after what stands at the second one. -/
def InOrder (c d : Span × List Token) : Prop :=
  c.1.line < d.1.line ∨ (c.1.line = d.1.line ∧ c.1.col ≤ d.1.col)

instance : DecidableRel InOrder := fun c d =>
  inferInstanceAs (Decidable (c.1.line < d.1.line ∨ (c.1.line = d.1.line ∧ c.1.col ≤ d.1.col)))

/-- Clauses with the positions at which they stand in the source. -/
def placedClauses (k : Keyword) (spans : List Span) (clauses : List Expr) :
    List (Span × List Token) :=
  spans.zip (clauses.map fun e => .kw k :: writeExpr e)

/-- The clauses in the order in which they stand in the source. -/
def writeClauses (requires ensures : List Expr) (requiresSpans ensuresSpans : List Span) :
    List Token :=
  ((placedClauses .requires requiresSpans requires ++
    placedClauses .ensures ensuresSpans ensures).insertionSort InOrder).flatMap Prod.snd

def writeReturnTy : Option Ty → List Token
  | none => []
  | some ty => .arrow :: writeTy ty

/-- A function without a body ends with a semicolon. -/
def writeBody (elided : Bool) (body : List Stmt) : List Token :=
  if elided then [] else .lBrace :: (writeStmts body ++ [.rBrace])

def writeFunc (f : SourceFunc) : List Token :=
  f.attributes.flatMap writeAttribute ++ .kw .func :: wordToken f.name ::
    (f.params.flatMap writeParam ++ (writeReturnTy f.returnTy ++
      (writeClauses f.requires f.ensures f.requiresSpans f.ensuresSpans ++
        writeBody f.elided f.body)))

def writeItem : SourceItem → List Token
  | .invariant inv => writeInvariant inv
  | .func f => writeFunc f
  | .struct sd => writeStruct sd
  | .enum ed => writeEnum ed

/-- The tokens of a module, but for separators. -/
def writeModule (m : SourceModule) : List Token :=
  m.attributes.flatMap writeAttribute ++ .kw .module :: wordToken m.name :: .lBrace ::
    (m.items.flatMap writeItem ++ [.rBrace])

end Oikos.Telos.Parser
