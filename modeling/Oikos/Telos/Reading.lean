/-
The grammar of telos expressions over words, numbers, fields, elements and operators,
as far as a text is read back from it. No word of a text is taken for a keyword: the
text is one of Rust or Go.
-/
import Mathlib.Data.List.TakeWhile
import Oikos.Lib.Substring
import Oikos.Telos.Codegen

namespace Oikos.Telos

inductive Token where
  | word (v : Name)
  | int (n : Int)
  | bin (op : BinOp)
  | lparen
  | rparen
  | lsquare
  | rsquare
  | dot
  | dotDot
  | plusAssign
  | minusAssign
  | assign
  | arrow
  | fatArrow
  | question
  | punct (c : Char)
deriving DecidableEq

/-! ### The lexer -/

def twoCharToken : Char → Char → Option Token
  | '+', '=' => some .plusAssign
  | '-', '=' => some .minusAssign
  | '=', '=' => some (.bin .eq)
  | '!', '=' => some (.bin .ne)
  | '<', '=' => some (.bin .le)
  | '>', '=' => some (.bin .ge)
  | '&', '&' => some (.bin .and)
  | '|', '|' => some (.bin .or)
  | '-', '>' => some .arrow
  | '=', '>' => some .fatArrow
  | '.', '.' => some .dotDot
  | _, _ => none

def charToken : Char → Option Token
  | '(' => some .lparen
  | ')' => some .rparen
  | '[' => some .lsquare
  | ']' => some .rsquare
  | '.' => some .dot
  | '=' => some .assign
  | '+' => some (.bin .add)
  | '-' => some (.bin .sub)
  | '*' => some (.bin .mul)
  | '/' => some (.bin .div)
  | '<' => some (.bin .lt)
  | '>' => some (.bin .gt)
  | '?' => some .question
  | '@' => some (.punct '@')
  | '\x7b' => some (.punct '\x7b')
  | '\x7d' => some (.punct '\x7d')
  | ',' => some (.punct ',')
  | ':' => some (.punct ':')
  | ';' => some (.punct ';')
  | _ => none

/-- The number that digits stand for, if it fits a signed word of 64 bits. -/
def intToken (digits : List Char) : Option Token :=
  (parseDigits digits).bind fun n => if n < 2 ^ 63 then some (.int n) else none

theorem isName_takeWhile {c : Char} {cs : List Char} (hc : isNameStart c = true) :
    isName (String.ofList (c :: cs.takeWhile isNameChar)) = true :=
  isName_ofList hc fun _ hd => List.mem_takeWhile_imp hd

def scan (c : Char) (cs : List Char) : Option (Token × List Char) :=
  if hc : isNameStart c = true then
    some (.word ⟨String.ofList (c :: cs.takeWhile isNameChar), isName_takeWhile hc⟩,
      cs.dropWhile isNameChar)
  else if c.isDigit then
    (intToken (c :: cs.takeWhile Char.isDigit)).map (·, cs.dropWhile Char.isDigit)
  else
    match cs.head?.bind (twoCharToken c) with
    | some t => some (t, cs.tail)
    | none => (charToken c).map (·, cs)

def lex : Nat → List Char → Option (List Token)
  | _, [] => some []
  | 0, _ :: _ => none
  | fuel + 1, c :: cs =>
    if c.isWhitespace then lex fuel cs
    else if c == '/' && cs.head? == some '/' then lex fuel (cs.dropWhile (· != '\n'))
    else (scan c cs).bind fun r => (lex fuel r.2).map (r.1 :: ·)

/-! ### The parser -/

/-- How tightly an operator binds, from 1 for the loosest. -/
def BinOp.tightness : BinOp → Nat
  | .or => 1
  | .and => 2
  | .eq | .ne | .lt | .le | .gt | .ge => 3
  | .add | .sub => 4
  | .mul | .div => 5

def binOpAt (k : Nat) : Token → Option (Expr → Expr → Expr)
  | .bin op => if op.tightness = k then some (.bin op) else none
  | _ => none

def parsePrimary (inner : Reader Token Expr) : Reader Token Expr
  | .int n :: ts => some (.int n, ts)
  | .word b :: .dot :: .word f :: ts => some (.field b f, ts)
  | .word v :: ts => some (.var v, ts)
  | .lparen :: ts => (inner ts).bind fun r =>
    match r.2 with
    | .rparen :: rest => some (r.1, rest)
    | _ => none
  | _ => none

/-- Fields and elements; a call, a range or a `?` is none of the expressions read here. -/
def parsePostfixLoop (inner : Reader Token Expr) : Nat → Expr → Reader Token Expr
  | fuel + 1, e, .dot :: .word f :: ts =>
    parsePostfixLoop inner fuel
      (match e with
      | .var b => .field b f
      | other => .methodCall other f []) ts
  | fuel + 1, e, .lsquare :: ts => (inner ts).bind fun r =>
    match r.2 with
    | .rsquare :: rest => parsePostfixLoop inner fuel (.index e r.1) rest
    | _ => none
  | _, _, .dot :: _ | _, _, .lsquare :: _ | _, _, .lparen :: _ | _, _, .question :: _
  | _, _, .dotDot :: _ => none
  | _, e, ts => some (e, ts)

def parsePostfix (inner : Reader Token Expr) : Reader Token Expr :=
  fun ts => (parsePrimary inner ts).bind fun r => parsePostfixLoop inner ts.length r.1 r.2

def parseUnary (inner : Reader Token Expr) : Reader Token Expr
  | .bin .sub :: ts => (parseUnary inner ts).map fun r => (.unary .neg r.1, r.2)
  | ts => parsePostfix inner ts

def parseMul (inner : Reader Token Expr) : Reader Token Expr :=
  leftAssoc (binOpAt 5) (parseUnary inner)

def parseAdd (inner : Reader Token Expr) : Reader Token Expr :=
  leftAssoc (binOpAt 4) (parseMul inner)

/-- A comparison is no side of another one. -/
def parseCmp (inner : Reader Token Expr) : Reader Token Expr :=
  fun ts => (parseAdd inner ts).bind fun l =>
    match l.2 with
    | [] => some l
    | t :: rest =>
      match binOpAt 3 t with
      | none => some l
      | some op => (parseAdd inner rest).map fun r => (op l.1 r.1, r.2)

def parseAnd (inner : Reader Token Expr) : Reader Token Expr :=
  leftAssoc (binOpAt 2) (parseCmp inner)

def parseOr (inner : Reader Token Expr) : Reader Token Expr :=
  leftAssoc (binOpAt 1) (parseAnd inner)

def parseExpr : Nat → Reader Token Expr
  | 0 => fun _ => none
  | depth + 1 => parseOr (parseExpr depth)

/-- The expression that a text is read as, with no token left over. -/
def readBack (text : String) : Option Expr :=
  let cs := text.toList
  (lex cs.length cs).bind fun ts =>
    (parseExpr (ts.length + 1) ts).bind fun r => if r.2 = [] then some r.1 else none

/-! ### Assignments -/

def AssignOp.token : AssignOp → Token
  | .set => .assign
  | .add => .plusAssign
  | .sub => .minusAssign

def assignOpOf : Token → Option AssignOp
  | .assign => some .set
  | .plusAssign => some .add
  | .minusAssign => some .sub
  | _ => none

/-- A semicolon may end an assignment. -/
def skipSemicolon : List Token → List Token
  | .punct ';' :: ts => ts
  | ts => ts

def parseAssign (depth : Nat) : Reader Token Assign :=
  fun ts => (parseExpr depth ts).bind fun target =>
    match target.2 with
    | [] => none
    | t :: rest =>
      (assignOpOf t).bind fun op =>
        (parseExpr depth rest).map fun value =>
          (⟨target.1, op, value.1⟩, skipSemicolon value.2)

def parseAssigns : Nat → List Token → Option (List Assign)
  | _, [] => some []
  | 0, _ :: _ => none
  | fuel + 1, t :: ts =>
    (parseAssign (ts.length + 2) (t :: ts)).bind fun r => (parseAssigns fuel r.2).map (r.1 :: ·)

def readAssigns (text : String) : Option (List Assign) :=
  let cs := text.toList
  (lex cs.length cs).bind fun ts => parseAssigns ts.length ts

end Oikos.Telos
