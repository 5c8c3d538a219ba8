/-
The recursive-descent parser of `telos-parser`.  It notes each branch in which the tree
does not keep what was read; nothing else depends on these notes.
-/
import Oikos.Lib.Notes
import Oikos.Telos.Lexer
import Oikos.Telos.Source

namespace Oikos.Telos.Parser

/-- The branches in which a tree does not keep what was read: an expression that is made
an assignment, a callee that is made a text which shows an operand as dots or in angle
brackets, arguments of a call that is called in turn, braces around the only statement of
an arm, the sign of a zero in a pattern, and the braces of a variant without fields. -/
inductive Slip where
  | expressionStatement
  | garbledCallee
  | droppedArguments
  | armBraces
  | negativeZero
  | variantBraces
deriving Repr, DecidableEq

/-- A parser of lexemes that leaves notes. -/
abbrev Parse :=
  StateT (Tape Lexeme Slip) (Result String)

section Basics

variable {α : Type}

def outOfFuel : Parse α :=
  fun _ => .error .fuel

def reject (message : String) : Parse α :=
  fun _ => .error (.err message)

def peek : Parse Lexeme :=
  Tape.peek .panic

def advance : Parse Lexeme :=
  Tape.advance .panic

def noteIf (c : Bool) (slip : Slip) : Parse Unit :=
  if c then Tape.note slip else pure ()

def expect (expected : Token) : Parse Unit := do
  let l ← peek
  if l.token = expected then do
    let _ ← advance
    pure ()
  else reject ("expected " ++ expected.display ++ ", found " ++ l.token.display)

def expectIdent : Parse Name := do
  let l ← peek
  match l.token with
  | .ident i => do
    let _ ← advance
    pure i.name
  | other => reject ("expected identifier, found " ++ other.display)

/-- Keywords may name attributes. -/
def expectIdentOrKeyword : Parse Name := do
  let l ← peek
  match l.token with
  | .ident i => do
    let _ ← advance
    pure i.name
  | .kw .state => do
    let _ ← advance
    pure ⟨"state", by decide⟩
  | other => reject ("expected identifier, found " ++ other.display)

/-- Take a separator that may be left out. -/
def skip (tok : Token) : Parse Unit := do
  let l ← peek
  if l.token = tok then do
    let _ ← advance
    pure ()
  else pure ()

/-- Items up to a token, which is left. -/
def untilToken (stop : Token) (item : Parse α) : Nat → Parse (List α)
  | 0 => outOfFuel
  | fuel + 1 => do
    let l ← peek
    if l.token = stop then pure []
    else do
      let a ← item
      let as ← untilToken stop item fuel
      pure (a :: as)

/-- Items as long as this token stands in front of one. -/
def whileToken (start : Token) (item : Parse α) : Nat → Parse (List α)
  | 0 => outOfFuel
  | fuel + 1 => do
    let l ← peek
    if l.token = start then do
      let a ← item
      let as ← whileToken start item fuel
      pure (a :: as)
    else pure []

def commaList (item : Parse α) : Nat → Parse (List α)
  | 0 => outOfFuel
  | fuel + 1 => do
    let a ← item
    let l ← peek
    if l.token = .comma then do
      let _ ← advance
      let as ← commaList item fuel
      pure (a :: as)
    else pure [a]

/-- An optional list up to a closing parenthesis. -/
def closedList (item : Parse α) (fuel : Nat) : Parse (List α) := do
  let l ← peek
  if l.token = .rParen then do
    expect .rParen
    pure []
  else do
    let as ← commaList item fuel
    expect .rParen
    pure as

end Basics

/-! ### Types and patterns -/

def parseTypeAt (ty : Parse Ty) (fuel : Nat) : Parse Ty := do
  let l ← peek
  match l.token with
  | .kw .result => do
    let _ ← advance
    expect .lt
    let ok ← ty
    expect .comma
    let err ← ty
    expect .gt
    pure (.generic "Result" [ok, err])
  | .lParen => do
    let _ ← advance
    let elems ← commaList ty fuel
    expect .rParen
    match elems with
    | [t] => pure t
    | elems => pure (.tuple elems)
  | .lSquare => do
    let _ ← advance
    let elem ← ty
    let next ← peek
    if next.token = .semicolon then do
      let _ ← advance
      let len ← peek
      match len.token with
      | .int n => do
        let _ ← advance
        expect .rSquare
        pure (.array elem n)
      | other => reject ("expected array length, found " ++ other.display)
    else do
      expect .rSquare
      pure (.slice elem)
  | .ident i => do
    let _ ← advance
    let next ← peek
    if next.token = .lt then do
      let _ ← advance
      let args ← commaList ty fuel
      expect .gt
      pure (.generic i.name.text args)
    else pure (.named i.name.text)
  | other => reject ("expected type, found " ++ other.display)

def parseType : Nat → Parse Ty
  | 0 => outOfFuel
  | fuel + 1 => parseTypeAt (parseType fuel) fuel

def parsePatternAt (pattern : Parse Pattern) (fuel : Nat) : Parse Pattern := do
  let l ← peek
  match l.token with
  | .int n => do
    let _ ← advance
    pure (.literal n.val)
  | .minus => do
    let _ ← advance
    let next ← peek
    match next.token with
    | .int n => do
      noteIf (n.val == 0) .negativeZero
      expect (.int n)
      pure (.literal (-n.val))
    | _ => reject "expected integer after `-` in pattern"
  | .ident i => do
    let _ ← advance
    let next ← peek
    if next.token = .lParen then do
      let _ ← advance
      let fields ← closedList pattern fuel
      pure (.constructor i.name fields)
    else pure (.var i.name)
  | .underScore => do
    let _ ← advance
    pure .wildcard
  | other => reject ("expected pattern, found " ++ other.display)

def parsePattern : Nat → Parse Pattern
  | 0 => outOfFuel
  | fuel + 1 => parsePatternAt (parsePattern fuel) fuel

/-! ### Expressions -/

/-- `pretty_simple`: the text of an expression in a message, and of a callee. -/
def prettySimple : Expr → String
  | .int n => toString n
  | .var v => v.text
  | .field base field => base.text ++ "." ++ field.text
  | .old e => "old(" ++ prettySimple e ++ ")"
  | .unary _ _ => "<expr>"
  | .bin _ _ _ => "<expr>"
  | .call func _ => func ++ "(...)"
  | .methodCall receiver method _ => prettySimple receiver ++ "." ++ method.text ++ "(...)"
  | .index receiver _ => prettySimple receiver ++ "[...]"
  | .ifThen _ _ _ => "<if-expr>"
  | .matchOn _ _ => "<match-expr>"
  | .tryOn e => prettySimple e ++ "?"
  | .forAll _ _ _ _ => "<forall>"
  | .aggregate op _ => op.opName ++ "(...)"
  | .range _ _ => "<range>"

/-- The text of `prettySimple` shows all of the expression. -/
def plain : Expr → Bool
  | .int _ | .var _ | .field _ _ => true
  | .old e | .tryOn e => plain e
  | _ => false

def orOp : Token → Option BinOp
  | .or => some .or
  | _ => none

def andOp : Token → Option BinOp
  | .and => some .and
  | _ => none

def cmpOp : Token → Option BinOp
  | .eqEq => some .eq
  | .ne => some .ne
  | .lt => some .lt
  | .le => some .le
  | .gt => some .gt
  | .ge => some .ge
  | _ => none

def addOp : Token → Option BinOp
  | .plus => some .add
  | .minus => some .sub
  | _ => none

def mulOp : Token → Option BinOp
  | .star => some .mul
  | .slash => some .div
  | _ => none

/-- Operands joined to the left. -/
def binLoop (opOf : Token → Option BinOp) (operand : Parse Expr) : Nat → Expr → Parse Expr
  | 0, _ => outOfFuel
  | fuel + 1, lhs => do
    let l ← peek
    match opOf l.token with
    | some op => do
      let _ ← advance
      let rhs ← operand
      binLoop opOf operand fuel (.bin op lhs rhs)
    | none => pure lhs

/-- Operands with operators of one level between them, to the left. -/
def binChain (opOf : Token → Option BinOp) (operand : Parse Expr) (fuel : Nat) : Parse Expr := do
  let lhs ← operand
  binLoop opOf operand fuel lhs

/-- The names that stand for an aggregate if they are called. -/
def aggregateOp : String → Option AggregateOp
  | "sum" => some .sum
  | "min" => some .min
  | "max" => some .max
  | "count" => some .count
  | _ => none

section Nested

variable (expr : Parse Expr)

def parenthesized : Parse Expr := do
  expect .lParen
  let e ← expr
  expect .rParen
  pure e

def braced : Parse Expr := do
  expect .lBrace
  let e ← expr
  expect .rBrace
  pure e

def parseIfExpr : Parse Expr := do
  expect (.kw .ifKw)
  let condition ← expr
  let thenExpr ← braced expr
  expect (.kw .elseKw)
  let elseExpr ← braced expr
  pure (.ifThen condition thenExpr elseExpr)

def parseExprArm (fuel : Nat) : Parse (Pattern × Expr) := do
  let pattern ← parsePattern fuel
  expect .fatArrow
  let e ← expr
  skip .comma
  pure (pattern, e)

def parseMatchExpr (fuel : Nat) : Parse Expr := do
  expect (.kw .matchKw)
  let scrutinee ← expr
  expect .lBrace
  let arms ← untilToken .rBrace (parseExprArm expr fuel) fuel
  expect .rBrace
  pure (.matchOn scrutinee arms)

def parseForallExpr (fuel : Nat) : Parse Expr := do
  expect (.kw .forall_)
  let var ← expectIdent
  expect .colon
  let varTy ← parseType fuel
  let l ← peek
  if l.token = .kw .inKw then do
    let _ ← advance
    let domain ← expr
    let body ← braced expr
    pure (.forAll var varTy (some domain) body)
  else do
    let body ← braced expr
    pure (.forAll var varTy none body)

def parseIdentRest (fuel : Nat) (name : Name) : Parse Expr := do
  let next ← peek
  match (if next.token = .lParen then aggregateOp name.text else none) with
  | some op => do
    expect .lParen
    let args ← closedList expr fuel
    pure (.aggregate op args)
  | none =>
    if next.token = .dot then do
      let _ ← advance
      let field ← expectIdent
      pure (.field name field)
    else pure (.var name)

def parsePrimary (fuel : Nat) : Parse Expr := do
  let l ← peek
  match l.token with
  | .int n => do
    let _ ← advance
    pure (.int n.val)
  | .kw .old => do
    let _ ← advance
    let e ← parenthesized expr
    pure (.old e)
  | .lParen => parenthesized expr
  | .kw .ifKw => parseIfExpr expr
  | .kw .matchKw => parseMatchExpr expr fuel
  | .kw .forall_ => parseForallExpr expr fuel
  | .kw .result => do
    let _ ← advance
    pure (.var ⟨"Result", by decide⟩)
  | .kw .ok => do
    let _ ← advance
    let e ← parenthesized expr
    pure (.call "Ok" [e])
  | .kw .err => do
    let _ ← advance
    let e ← parenthesized expr
    pure (.call "Err" [e])
  | .ident i => do
    let _ ← advance
    parseIdentRest expr fuel i.name
  | other => reject ("expected expression, found " ++ other.display)

/-- What a call makes of the expression in front of it, if it may be called. -/
def callOf (args : List Expr) : Expr → Option Expr
  | .var name => some (.call name.text args)
  | .field base field => some (.methodCall (.var base) field args)
  | .methodCall receiver method _ =>
    some (.call (prettySimple receiver ++ "." ++ method.text) args)
  | _ => none

/-- What the parser loses of a chained call. -/
def noteCall : Expr → Parse Unit
  | .methodCall receiver _ inner =>
    if plain receiver then noteIf (!inner.isEmpty) .droppedArguments
    else Tape.note .garbledCallee
  | _ => pure ()

/-- A field of anything but a variable becomes a call without arguments. -/
def fieldOf (field : Name) : Expr → Expr
  | .var name => .field name field
  | other => .methodCall other field []

def postfixLoop : Nat → Expr → Parse Expr
  | 0, _ => outOfFuel
  | fuel + 1, e => do
    let l ← peek
    match l.token with
    | .lParen => do
      noteCall e
      expect .lParen
      let args ← closedList expr fuel
      match callOf args e with
      | some call => postfixLoop fuel call
      | none => reject ("cannot call non-function expression `" ++ prettySimple e ++ "`")
    | .dot => do
      let _ ← advance
      let field ← expectIdent
      postfixLoop fuel (fieldOf field e)
    | .lSquare => do
      let _ ← advance
      let index ← expr
      expect .rSquare
      postfixLoop fuel (.index e index)
    | .question => do
      let _ ← advance
      postfixLoop fuel (.tryOn e)
    | .dotDot => do
      let _ ← advance
      let hi ← expr
      postfixLoop fuel (.range e hi)
    | _ => pure e

def parsePostfix (fuel : Nat) : Parse Expr := do
  let e ← parsePrimary expr fuel
  postfixLoop expr fuel e

def parseUnary (fuel : Nat) : Nat → Parse Expr
  | 0 => outOfFuel
  | n + 1 => do
    let l ← peek
    if l.token = .minus then do
      let _ ← advance
      let e ← parseUnary fuel n
      pure (.unary .neg e)
    else parsePostfix expr fuel

def parseMul (fuel : Nat) : Parse Expr :=
  binChain mulOp (parseUnary expr fuel fuel) fuel

def parseAdd (fuel : Nat) : Parse Expr :=
  binChain addOp (parseMul expr fuel) fuel

/-- At most one comparison. -/
def parseCmp (fuel : Nat) : Parse Expr := do
  let lhs ← parseAdd expr fuel
  let l ← peek
  match cmpOp l.token with
  | some op => do
    let _ ← advance
    let rhs ← parseAdd expr fuel
    pure (.bin op lhs rhs)
  | none => pure lhs

def parseAnd (fuel : Nat) : Parse Expr :=
  binChain andOp (parseCmp expr fuel) fuel

def parseOr (fuel : Nat) : Parse Expr :=
  binChain orOp (parseAnd expr fuel) fuel

end Nested

def parseExpr : Nat → Parse Expr
  | 0 => outOfFuel
  | fuel + 1 => parseOr (parseExpr fuel) fuel

/-! ### Statements -/

def assignOp : Token → Option AssignOp
  | .assign => some .set
  | .plusAssign => some .add
  | .minusAssign => some .sub
  | _ => none

/-- The tokens after which `return` has a value. -/
def atExprStart : Token → Bool
  | .int _ | .ident _ | .kw .old | .lParen | .minus | .kw .ifKw | .kw .matchKw | .kw .forall_
  | .kw .result | .kw .ok | .kw .err => true
  | _ => false

def parseAssign (fuel : Nat) : Parse Assign := do
  let target ← parseExpr fuel
  let l ← peek
  match assignOp l.token with
  | some op => do
    let _ ← advance
    let value ← parseExpr fuel
    skip .semicolon
    pure ⟨target, op, value⟩
  | none => reject ("expected assignment operator, found " ++ l.token.display)

section Nested

variable (stmt : Parse Stmt)

/-- The statements up to the closing brace. -/
def blockRest (fuel : Nat) : Parse (List Stmt) := do
  let body ← untilToken .rBrace stmt fuel
  expect .rBrace
  pure body

def parseIfStmt (fuel : Nat) : Parse Stmt := do
  expect (.kw .ifKw)
  let condition ← parseExpr fuel
  expect .lBrace
  let thenBody ← blockRest stmt fuel
  let l ← peek
  if l.token = .kw .elseKw then do
    let _ ← advance
    expect .lBrace
    let body ← blockRest stmt fuel
    pure (.ifThen condition thenBody (some body))
  else pure (.ifThen condition thenBody none)

def parseStmtArm (fuel : Nat) : Parse (Pattern × List Stmt) := do
  let pattern ← parsePattern fuel
  expect .fatArrow
  let l ← peek
  if l.token = .lBrace then do
    let _ ← advance
    let body ← blockRest stmt fuel
    noteIf (body.length == 1) .armBraces
    pure (pattern, body)
  else do
    let s ← stmt
    pure (pattern, [s])

def parseMatchStmt (fuel : Nat) : Parse Stmt := do
  expect (.kw .matchKw)
  let scrutinee ← parseExpr fuel
  expect .lBrace
  let arms ← untilToken .rBrace (parseStmtArm stmt fuel) fuel
  expect .rBrace
  pure (.matchOn scrutinee arms)

def parseLet (fuel : Nat) : Parse Stmt := do
  expect (.kw .letKw)
  let name ← expectIdent
  let l ← peek
  if l.token = .colon then do
    let _ ← advance
    let ty ← parseType fuel
    expect .assign
    let value ← parseExpr fuel
    skip .semicolon
    pure (.letIn name (some ty) value)
  else do
    expect .assign
    let value ← parseExpr fuel
    skip .semicolon
    pure (.letIn name none value)

def parseReturn (fuel : Nat) : Parse Stmt := do
  expect (.kw .returnKw)
  let l ← peek
  if atExprStart l.token then do
    let e ← parseExpr fuel
    skip .semicolon
    pure (.ret (some e))
  else do
    skip .semicolon
    pure (.ret none)

def parseMutate (fuel : Nat) : Parse Stmt := do
  expect (.kw .mutate)
  expect (.kw .state)
  expect .lBrace
  let assigns ← untilToken .rBrace (parseAssign fuel) fuel
  expect .rBrace
  pure (.mutateState assigns)

def parseExprStmt (fuel : Nat) : Parse Stmt := do
  let e ← parseExpr fuel
  let l ← peek
  match assignOp l.token with
  | some op => do
    let _ ← advance
    let value ← parseExpr fuel
    skip .semicolon
    pure (.assign ⟨e, op, value⟩)
  | none => do
    Tape.note .expressionStatement
    skip .semicolon
    pure (.assign ⟨e, .set, .int 0⟩)

def parseStmtAt (fuel : Nat) : Parse Stmt := do
  let l ← peek
  match l.token with
  | .kw .mutate => parseMutate fuel
  | .kw .letKw => parseLet fuel
  | .kw .ifKw => parseIfStmt stmt fuel
  | .kw .matchKw => parseMatchStmt stmt fuel
  | .kw .returnKw => parseReturn fuel
  | _ => parseExprStmt fuel

end Nested

def parseStmt : Nat → Parse Stmt
  | 0 => outOfFuel
  | fuel + 1 => parseStmtAt (parseStmt fuel) fuel

/-! ### Items -/

section Items

variable (index : LineIndex) (fuel : Nat)

def currentSpan : Parse Span := do
  let l ← peek
  pure (index.spanAt l.start)

def parseArg : Parse Arg := do
  let key ← expectIdent
  let l ← peek
  if l.token = .assign then do
    let _ ← advance
    let next ← peek
    match next.token with
    | .int n => do
      let _ ← advance
      pure (.kv key (.int n.val))
    | .ident i => do
      let _ ← advance
      pure (.kv key (.ident i.name))
    | other => reject ("expected literal in attribute, found " ++ other.display)
  else pure (.flag key)

def parseAttribute : Parse Attribute := do
  expect .at_
  let name ← expectIdentOrKeyword
  let l ← peek
  if l.token = .lParen then do
    let _ ← advance
    let args ← closedList parseArg fuel
    pure ⟨name, args⟩
  else pure ⟨name, []⟩

def parseConstraint : Parse (Expr × Span) := do
  let span ← currentSpan index
  let e ← parseExpr fuel
  skip .semicolon
  pure (e, span)

def parseInvariant : Parse Invariant := do
  let span ← currentSpan index
  expect (.kw .invariant)
  let name ← expectIdent
  expect .lBrace
  let constraints ← untilToken .rBrace (parseConstraint index fuel) fuel
  expect .rBrace
  pure ⟨name.text, constraints.map Prod.fst, span, constraints.map Prod.snd⟩

def parseField : Parse FieldDef := do
  let name ← expectIdent
  expect .colon
  let ty ← parseType fuel
  skip .comma
  pure ⟨name, ty⟩

def parseStructDef : Parse StructDef := do
  expect (.kw .struct)
  let name ← expectIdent
  expect .lBrace
  let fields ← untilToken .rBrace (parseField fuel) fuel
  expect .rBrace
  pure ⟨name, fields⟩

def parseVariant : Parse VariantDef := do
  let name ← expectIdent
  let l ← peek
  if l.token = .lBrace then do
    let _ ← advance
    let fields ← untilToken .rBrace (parseField fuel) fuel
    expect .rBrace
    noteIf fields.isEmpty .variantBraces
    skip .comma
    pure ⟨name, fields⟩
  else do
    skip .comma
    pure ⟨name, []⟩

def parseEnumDef : Parse EnumDef := do
  expect (.kw .enum)
  let name ← expectIdent
  expect .lBrace
  let variants ← untilToken .rBrace (parseVariant fuel) fuel
  expect .rBrace
  pure ⟨name, variants⟩

def parseParam : Parse SourceParam := do
  let l ← peek
  let mutability ← (if l.token = .kw .mut then do
      let _ ← advance
      pure .mutable
    else pure .immutable : Parse ParamMutability)
  let name ← expectIdent
  expect .colon
  let ty ← parseType fuel
  pure { name := name, ty := ty, mutability := mutability }

/-- The clauses of a function with their positions. -/
structure Clauses where
  requires : List Expr
  ensures : List Expr
  requiresSpans : List Span
  ensuresSpans : List Span

def parseClauses : Nat → Parse Clauses
  | 0 => outOfFuel
  | n + 1 => do
    let l ← peek
    if l.token = .kw .requires then do
      let _ ← advance
      let span ← currentSpan index
      let e ← parseExpr fuel
      let c ← parseClauses n
      pure { c with requires := e :: c.requires, requiresSpans := span :: c.requiresSpans }
    else if l.token = .kw .ensures then do
      let _ ← advance
      let span ← currentSpan index
      let e ← parseExpr fuel
      let c ← parseClauses n
      pure { c with ensures := e :: c.ensures, ensuresSpans := span :: c.ensuresSpans }
    else pure ⟨[], [], [], []⟩

def parseReturnTy : Parse (Option Ty) := do
  let l ← peek
  if l.token = .arrow then do
    let _ ← advance
    let ty ← parseType fuel
    pure (some ty)
  else pure none

def parseBody : Parse (Option (List Stmt)) := do
  let l ← peek
  if l.token = .semicolon then do
    let _ ← advance
    pure none
  else do
    expect .lBrace
    let body ← blockRest (parseStmt fuel) fuel
    pure (some body)

def parseFunc (attributes : List Attribute) : Parse SourceFunc := do
  let span ← currentSpan index
  expect (.kw .func)
  let name ← expectIdent
  expect .lParen
  let params ← closedList (parseParam fuel) fuel
  let returnTy ← parseReturnTy fuel
  let c ← parseClauses index fuel fuel
  let body ← parseBody fuel
  pure
    { attributes := attributes
      name := name
      params := params
      returnTy := returnTy
      requires := c.requires
      ensures := c.ensures
      body := body.getD []
      elided := body.isNone
      span := span
      requiresSpans := c.requiresSpans
      ensuresSpans := c.ensuresSpans }

/-- Attributes stand only before a function. -/
def noAttributes {α : Type} (attributes : List Attribute) (what : String) (item : Parse α) :
    Parse α :=
  if attributes.isEmpty then item
  else reject ("attributes are not supported on `" ++ what ++ "` items")

def parseItem : Parse SourceItem := do
  let attributes ← whileToken .at_ (parseAttribute fuel) fuel
  let l ← peek
  match l.token with
  | .kw .invariant => noAttributes attributes "invariant" do
      let inv ← parseInvariant index fuel
      pure (.invariant inv)
  | .kw .func => do
    let f ← parseFunc index fuel attributes
    pure (.func f)
  | .kw .struct => noAttributes attributes "struct" do
      let sd ← parseStructDef fuel
      pure (.struct sd)
  | .kw .enum => noAttributes attributes "enum" do
      let ed ← parseEnumDef fuel
      pure (.enum ed)
  | other => reject ("expected `invariant`, `func`, `struct`, or `enum`, found " ++ other.display)

def parseModule : Parse SourceModule := do
  let attributes ← whileToken .at_ (parseAttribute fuel) fuel
  expect (.kw .module)
  let name ← expectIdent
  expect .lBrace
  let items ← untilToken .rBrace (parseItem index fuel) fuel
  expect .rBrace
  pure ⟨attributes, name, items⟩

end Items

/-- Modules up to the end of the source. -/
def parse (fuel : Nat) (src : String) : Result String (List SourceModule × List Slip) := do
  let lexemes ← lex src
  let (modules, tape) ←
    untilToken .eof (parseModule (.new src) fuel) fuel ⟨lexemes, []⟩
  .ok (modules, tape.notes)

end Oikos.Telos.Parser
