/-
The recursive-descent parser of `tpt-eidos-parser`.
-/
import Oikos.Eidos.Lexer

namespace Oikos.Eidos

/-- A parser with the tokens that are left. -/
abbrev Parse :=
  StateT (List Tok) (Result ParseError)

/-- The deepest nesting of expressions. -/
def maxParseDepth : Nat :=
  64

namespace Parser

/-- `n as u64` of a length: a number that is no natural number, or is above the range of `u64`,
is no length, and what rounds to the end of the range becomes the last word. -/
def lengthOf (n : F64) : Option UInt64 :=
  if n.isFinite ∧ n.value.den = 1 ∧ 0 ≤ n.value.num ∧ n.value.num ≤ 2 ^ 64 then
    some (UInt64.ofNat (min n.value.num.toNat (2 ^ 64 - 1)))
  else none

section Basics

variable {α : Type} (p : Platform)

def outOfFuel : Parse α :=
  fun _ => .error .fuel

def reject (e : ParseError) : Parse α :=
  fun _ => .error (.err e)

def peek : Parse (Option Tok) :=
  fun ts => .ok (ts.head?, ts)

def peek2 : Parse (Option Tok) :=
  fun ts => .ok (ts.tail.head?, ts)

def advance : Parse (Option Tok) :=
  fun ts => .ok (ts.head?, ts.tail)

/-- Where something else was expected: a token, or the end of the input. -/
def unexpected (expected : String) : Option Tok → Parse α
  | some t => reject (.unexpectedToken (t.debug p ++ " (expected " ++ expected ++ ")"))
  | none => reject .unexpectedEof

/-- This token must stand next. -/
def eat (t : Tok) : Parse Unit := do
  let next ← peek
  if next = some t then do
    let _ ← advance
    pure ()
  else unexpected p (t.debug p) next

def eatIdent : Parse String := do
  match ← advance with
  | some (.ident s) => pure s
  | other => unexpected p "identifier" other

/-- Take a separator that may be left out. -/
def skip (t : Tok) : Parse Unit := do
  let next ← peek
  if next = some t then do
    let _ ← advance
    pure ()
  else pure ()

/-- One item or more with commas between them. -/
def commaList (item : Parse α) : Nat → Parse (List α)
  | 0 => outOfFuel
  | fuel + 1 => do
    let a ← item
    let next ← peek
    if next = some .comma then do
      let _ ← advance
      let as ← commaList item fuel
      pure (a :: as)
    else pure [a]

/-- An optional list up to the closing token. -/
def closedList (close : Tok) (item : Parse α) (fuel : Nat) : Parse (List α) := do
  let next ← peek
  if next = some close then do
    eat p close
    pure []
  else do
    let as ← commaList item fuel
    eat p close
    pure as

end Basics

/-! ### Types and patterns -/

section Inside

variable (p : Platform) (ty : Parse Ty) (expr : Parse Expr)

def parseTypeAt : Parse Ty := do
  let next ← peek
  let after ← peek2
  if next = some .lBrace then do
    let _ ← advance
    let bind ← eatIdent p
    eat p .colon
    let inner ← ty
    eat p .pipe
    let pred ← expr
    eat p .rBrace
    pure (.refine bind inner pred)
  else if next = some .array ∧ after = some .lt then do
    let _ ← advance
    let _ ← advance
    let inner ← ty
    eat p .comma
    let n ← advance
    match n with
    | some (.num n) =>
      match lengthOf n with
      | some length => do
        eat p .gt
        pure (.array inner length)
      | none => reject (.message "Array length must be a non-negative integer in range")
    | other => unexpected p "length" other
  else do
    match ← advance with
    | some (.ident s) => pure (if isBaseType s then .base s else .named s)
    | other => unexpected p "type" other

def parseParamPattern : Nat → Parse Pattern
  | 0 => outOfFuel
  | fuel + 1 => do
    let next ← peek
    if next = some .lParen then do
      let _ ← advance
      let inner ← closedList p .rParen (parseParamPattern fuel) fuel
      pure (.tuple inner)
    else do
      let v ← eatIdent p
      pure (.var v)

/-! ### Expressions -/

def andOp : Tok → Option BinOp
  | .and => some .and
  | _ => none

def orOp : Tok → Option BinOp
  | .or => some .or
  | _ => none

def cmpOp : Tok → Option BinOp
  | .lt => some .lt
  | .gt => some .gt
  | .le => some .le
  | .ge => some .ge
  | .eqEq => some .eq
  | .ne => some .ne
  | _ => none

def addOp : Tok → Option BinOp
  | .plus => some .add
  | .minus => some .sub
  | _ => none

def mulOp : Tok → Option BinOp
  | .star => some .mul
  | .slash => some .div
  | .percent => some .rem
  | _ => none

def unaryOp : Tok → Option UnOp
  | .minus => some .neg
  | .not => some .not
  | _ => none

/-- Operands behind the first one, as long as operators follow; they group to the left. -/
def binLoop (opOf : Tok → Option BinOp) (operand : Parse Expr) : Nat → Expr → Parse Expr
  | 0, _ => outOfFuel
  | fuel + 1, a => do
    let next ← peek
    match next.bind opOf with
    | none => pure a
    | some op => do
      let _ ← advance
      let b ← operand
      binLoop opOf operand fuel (.bin op a b)

def binChain (opOf : Tok → Option BinOp) (operand : Parse Expr) (fuel : Nat) : Parse Expr := do
  let a ← operand
  binLoop opOf operand fuel a

def parseField : Parse (String × Expr) := do
  let fname ← eatIdent p
  eat p .colon
  let fval ← expr
  pure (fname, fval)

def parsePrimary (fuel : Nat) : Parse Expr := do
  match ← advance with
  | some (.num n) => pure (.num n)
  | some (.ident s) =>
    if s = "true" then pure (.bool true)
    else if s = "false" then pure (.bool false)
    else if s = "Array" then reject (.message "Array<T,N> used as a value is not supported")
    else pure (.var s)
  | some .lBracket => do
    let elems ← closedList p .rBracket expr fuel
    pure (.arrayLit elems)
  | some .lBrace => do
    let fields ← closedList p .rBrace (parseField p expr) fuel
    pure (.record fields)
  | some .lParen => do
    let e ← expr
    eat p .rParen
    pure e
  | some .pipe => do
    let params ← closedList p .pipe (parseParamPattern p fuel) fuel
    let body ← expr
    pure (.lambda params body)
  | other => unexpected p "primary" other

/-- The arguments of a method, which may be left out with their parentheses. -/
def parseMethodArgs (fuel : Nat) : Parse (List Expr) := do
  let next ← peek
  if next = some .lParen then do
    let _ ← advance
    closedList p .rParen expr fuel
  else pure []

def postfixLoop (fuel : Nat) : Nat → Expr → Parse Expr
  | 0, _ => outOfFuel
  | rounds + 1, e => do
    let next ← peek
    if next = some .dot then do
      let _ ← advance
      let name ← eatIdent p
      let args ← parseMethodArgs p expr fuel
      postfixLoop fuel rounds (.method e name args)
    else if next = some .lParen then do
      let _ ← advance
      let args ← closedList p .rParen expr fuel
      match e with
      | .var f => postfixLoop fuel rounds (.call f args)
      | _ => reject (.message "call target must be a name")
    else if next = some .as_ then do
      let _ ← advance
      let t ← ty
      postfixLoop fuel rounds (.cast e t)
    else pure e

def parsePostfix (fuel : Nat) : Parse Expr := do
  let e ← parsePrimary p expr fuel
  postfixLoop p ty expr fuel fuel e

def parseUnary (fuel : Nat) : Nat → Parse Expr
  | 0 => outOfFuel
  | signs + 1 => do
    let next ← peek
    match next.bind unaryOp with
    | some op => do
      let _ ← advance
      let a ← parseUnary fuel signs
      pure (.un op a)
    | none => parsePostfix p ty expr fuel

def parseMul (fuel : Nat) : Parse Expr :=
  binChain mulOp (parseUnary p ty expr fuel fuel) fuel

def parseAdd (fuel : Nat) : Parse Expr :=
  binChain addOp (parseMul p ty expr fuel) fuel

/-- Comparisons do not group. -/
def parseCmp (fuel : Nat) : Parse Expr := do
  let a ← parseAdd p ty expr fuel
  let next ← peek
  match next.bind cmpOp with
  | none => pure a
  | some op => do
    let _ ← advance
    let b ← parseAdd p ty expr fuel
    pure (.bin op a b)

def parseAnd (fuel : Nat) : Parse Expr :=
  binChain andOp (parseCmp p ty expr fuel) fuel

def parseOr (fuel : Nat) : Parse Expr :=
  binChain orOp (parseAnd p ty expr fuel) fuel

/-- A block of an `if`, whose expression may end in a semicolon. -/
def parseBlock : Parse Expr := do
  eat p .lBrace
  let e ← expr
  skip .semi
  eat p .rBrace
  pure e

/-- The forms that a keyword begins, or an expression. -/
def parseLetIfReturn (fuel : Nat) : Parse Expr := do
  let next ← peek
  if next = some .let_ then do
    let _ ← advance
    let name ← eatIdent p
    eat p .eq
    let value ← expr
    eat p .semi
    let body ← expr
    pure (.letIn name value body)
  else if next = some .if_ then do
    let _ ← advance
    let cond ← expr
    let then_ ← parseBlock p expr
    eat p .else_
    let els ← parseBlock p expr
    pure (.ifThen cond then_ els)
  else if next = some .return_ then do
    let _ ← advance
    let e ← expr
    skip .semi
    pure (.ret e)
  else parseOr p ty expr fuel

end Inside

mutual

def parseType (p : Platform) : Nat → Nat → Parse Ty
  | 0, _ => outOfFuel
  | fuel + 1, depth => parseTypeAt p (parseType p fuel depth) (parseExpr p fuel depth)

/-- An expression inside others of this depth. -/
def parseExpr (p : Platform) : Nat → Nat → Parse Expr
  | 0, _ => outOfFuel
  | fuel + 1, depth =>
    if depth + 1 > maxParseDepth then reject (.message "maximum parse depth exceeded")
    else parseLetIfReturn p (parseType p fuel (depth + 1)) (parseExpr p fuel (depth + 1)) fuel

end

/-! ### Modules -/

section Items

variable (p : Platform) (fuel : Nat)

def parseParam : Parse (String × Ty) := do
  let pname ← eatIdent p
  eat p .colon
  let pty ← parseType p fuel 0
  pure (pname, pty)

def parseRequires : Parse (Option Expr) := do
  let next ← peek
  if next = some .requires then do
    let _ ← advance
    let e ← parseExpr p fuel 0
    pure (some e)
  else pure none

def parseEnsures : Parse (Option Expr) := do
  let next ← peek
  if next = some .ensures then do
    let _ ← advance
    eat p .pipe
    let b ← eatIdent p
    eat p .pipe
    let body ← parseExpr p fuel 0
    pure (some (.lambda [.var b] body))
  else pure none

def parseEffects : Parse (List String) := do
  let next ← peek
  if next = some .effects then do
    let _ ← advance
    eat p .lBracket
    closedList p .rBracket (eatIdent p) fuel
  else pure []

/-- The effects of a function are read, but nothing that is modelled looks at them. -/
def parseFun : Parse Fun := do
  let name ← eatIdent p
  eat p .lParen
  let params ← closedList p .rParen (parseParam p fuel) fuel
  eat p .arrow
  let ret ← parseType p fuel 0
  let requires ← parseRequires p fuel
  let ensures ← parseEnsures p fuel
  let _ ← parseEffects p fuel
  let body ← parseBlock p (parseExpr p fuel 0)
  pure ⟨name, params, ret, requires, ensures, body⟩

/-- What the error messages show of a token that may be missing. -/
def debugPeek : Option Tok → String
  | some t => "Some(" ++ t.debug p ++ ")"
  | none => "None"

def parseItem : Parse Item := do
  let next ← peek
  if next = some .type then do
    let _ ← advance
    let name ← eatIdent p
    eat p .eq
    let ty ← parseType p fuel 0
    skip .semi
    pure (.typeAlias name ty)
  else if next = some .fn then do
    let _ ← advance
    let f ← parseFun p fuel
    pure (.fn f)
  else reject (.unexpectedToken (debugPeek p next ++ " (expected item)"))

def parseItems : Nat → Parse (List Item)
  | 0 => outOfFuel
  | rounds + 1 => do
    let next ← peek
    if next = none then pure []
    else do
      let item ← parseItem p fuel
      let items ← parseItems rounds
      pure (item :: items)

def parseModule : Parse Module := do
  let items ← parseItems p fuel fuel
  pure ⟨items⟩

end Items

/-- A sequence goes on from what its first part leaves. -/
theorem run_bind {α β : Type} {q : Parse α} {f : α → Parse β} {a : α} {ts rest : List Tok}
    (h : q ts = .ok (a, rest)) : (q >>= f) ts = f a rest := by
  change (q ts >>= fun r => f r.1 r.2) = _
  rw [h]
  rfl

end Parser

section Sources

variable (u : Unicode) (p : Platform) (fuel : Nat)

/-- A module that takes up the whole source. -/
def parse (source : String) : Result ParseError Module := do
  let toks ← ofExcept (Lexer.run u source)
  let (m, rest) ← Parser.parseModule p fuel toks
  match rest.head? with
  | none => .ok m
  | some t => .error (.err (.unexpectedToken (Parser.debugPeek p (some t))))

/-- The function whose value is the expression. -/
def wrapped (source : String) : String :=
  "fn _() -> f64 \x7b return " ++ source ++ "; \x7d"

/-- An expression is read as the value of a function. There always is a first item, and the
source would panic without one. -/
def parseExpr (source : String) : Result ParseError Expr := do
  let m ← parse u p fuel (wrapped source)
  match m.items with
  | [] => .error .panic
  | .fn ⟨_, _, _, _, _, .ret e⟩ :: _ => .ok e
  | _ => .error (.err (.message "internal: parse_expr failed"))

end Sources

end Oikos.Eidos
