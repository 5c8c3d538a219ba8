/-
The tokenizer of `telos-parser`, and the lines and columns of offsets.
-/
import Oikos.Lib.GoText
import Oikos.Telos.Codegen
import Mathlib.Data.List.TakeWhile

namespace Oikos.Telos.Parser

inductive Keyword where
  | module
  | invariant
  | func
  | requires
  | ensures
  | mutate
  | state
  | old
  | letKw
  | mut
  | ifKw
  | elseKw
  | matchKw
  | struct
  | enum
  | forall_
  | inKw
  | pure
  | returnKw
  | result
  | ok
  | err
deriving Repr, DecidableEq

namespace Keyword

def all : List Keyword :=
  [.module, .invariant, .func, .requires, .ensures, .mutate, .state, .old, .letKw, .mut, .ifKw,
    .elseKw, .matchKw, .struct, .enum, .forall_, .inKw, .pure, .returnKw, .result, .ok, .err]

def text : Keyword → String
  | .module => "module"
  | .invariant => "invariant"
  | .func => "func"
  | .requires => "requires"
  | .ensures => "ensures"
  | .mutate => "mutate"
  | .state => "state"
  | .old => "old"
  | .letKw => "let"
  | .mut => "mut"
  | .ifKw => "if"
  | .elseKw => "else"
  | .matchKw => "match"
  | .struct => "struct"
  | .enum => "enum"
  | .forall_ => "forall"
  | .inKw => "in"
  | .pure => "pure"
  | .returnKw => "return"
  | .result => "Result"
  | .ok => "Ok"
  | .err => "Err"

end Keyword

def keyword? (text : String) : Option Keyword :=
  Keyword.all.find? (·.text == text)

structure Ident where
  name : Name
  free : keyword? name.text = none ∧ name.text ≠ "_"
deriving DecidableEq

/-- The integer of `int` is a non-negative word of 64 bits, as the lexer makes it. -/
inductive Token where
  | ident (i : Ident)
  | int (n : Fin (2 ^ 63))
  | at_
  | lParen
  | rParen
  | lBrace
  | rBrace
  | lSquare
  | rSquare
  | comma
  | colon
  | dot
  | semicolon
  | assign
  | plusAssign
  | minusAssign
  | plus
  | minus
  | star
  | slash
  | eqEq
  | ne
  | lt
  | le
  | gt
  | ge
  | and
  | or
  | arrow
  | fatArrow
  | question
  | dotDot
  | underScore
  | kw (k : Keyword)
  | eof
deriving DecidableEq

/-- What the error messages show of a token. -/
def Token.display : Token → String
  | .ident i => "identifier `" ++ i.name.text ++ "`"
  | .int n => "integer `" ++ toString n.val ++ "`"
  | .at_ => "`@`"
  | .lParen => "`(`"
  | .rParen => "`)`"
  | .lBrace => "`\x7b`"
  | .rBrace => "`\x7d`"
  | .lSquare => "`[`"
  | .rSquare => "`]`"
  | .comma => "`,`"
  | .colon => "`:`"
  | .dot => "`.`"
  | .semicolon => "`;`"
  | .assign => "`=`"
  | .plusAssign => "`+=`"
  | .minusAssign => "`-=`"
  | .plus => "`+`"
  | .minus => "`-`"
  | .star => "`*`"
  | .slash => "`/`"
  | .eqEq => "`==`"
  | .ne => "`!=`"
  | .lt => "`<`"
  | .le => "`<=`"
  | .gt => "`>`"
  | .ge => "`>=`"
  | .and => "`&&`"
  | .or => "`||`"
  | .arrow => "`->`"
  | .fatArrow => "`=>`"
  | .question => "`?`"
  | .dotDot => "`..`"
  | .underScore => "`_`"
  | .kw k => "`" ++ k.text ++ "`"
  | .eof => "`end of file`"

/-- A token with the offset of its first character and the one after its last. -/
structure Lexeme where
  token : Token
  start : Nat
  stop : Nat
deriving DecidableEq

/-! ### Tokens -/

def wordToken (v : Name) : Token :=
  match h : keyword? v.text with
  | some k => .kw k
  | none => if hu : v.text = "_" then .underScore else .ident ⟨v, h, hu⟩

def twoCharToken : Char → Char → Option Token
  | '+', '=' => some .plusAssign
  | '-', '=' => some .minusAssign
  | '=', '=' => some .eqEq
  | '!', '=' => some .ne
  | '<', '=' => some .le
  | '>', '=' => some .ge
  | '&', '&' => some .and
  | '|', '|' => some .or
  | '-', '>' => some .arrow
  | '=', '>' => some .fatArrow
  | '.', '.' => some .dotDot
  | _, _ => none

def charToken : Char → Option Token
  | '@' => some .at_
  | '(' => some .lParen
  | ')' => some .rParen
  | '\x7b' => some .lBrace
  | '\x7d' => some .rBrace
  | '[' => some .lSquare
  | ']' => some .rSquare
  | ',' => some .comma
  | ':' => some .colon
  | '.' => some .dot
  | ';' => some .semicolon
  | '=' => some .assign
  | '+' => some .plus
  | '-' => some .minus
  | '*' => some .star
  | '/' => some .slash
  | '<' => some .lt
  | '>' => some .gt
  | '?' => some .question
  | _ => none

def lexOne (offset : Nat) (c : Char) (cs : List Char) : Result String (Option Token × Nat) :=
  if isWhitespace c then .ok (none, 0)
  else if c = '/' ∧ cs.head? = some '/' then .ok (none, (cs.takeWhile (· != '\n')).length)
  else if hstart : isNameStart c = true then
    let more := cs.takeWhile isNameChar
    .ok (some (wordToken ⟨String.ofList (c :: more),
      isName_ofList hstart fun _ hd => List.mem_takeWhile_imp hd⟩), more.length)
  else if c.isDigit then
    let digits := c :: cs.takeWhile Char.isDigit
    if h : Nat.ofDigitChars 10 digits 0 < 2 ^ 63 then
      .ok (some (.int ⟨Nat.ofDigitChars 10 digits 0, h⟩), digits.length - 1)
    else fail ("line/col: integer literal `" ++ String.ofList digits ++ "` out of range")
  else
    match cs.head?.bind (twoCharToken c) with
    | some tok => .ok (some tok, 1)
    | none =>
      match charToken c with
      | some tok => .ok (some tok, 0)
      | none =>
        fail ("unexpected character `" ++ String.singleton c ++ "` at offset " ++ toString offset)

/-- The lexemes of characters of which the first `skip` belong to an earlier round. -/
def lexFrom : Nat → Nat → List Char → Result String (List Lexeme)
  | _, offset, [] => .ok [⟨.eof, offset, offset⟩]
  | skip + 1, offset, _ :: cs => lexFrom skip (offset + 1) cs
  | 0, offset, c :: cs => do
    let (tok, n) ← lexOne offset c cs
    let lexemes ← lexFrom n (offset + 1) cs
    .ok (tok.toList.map (⟨·, offset, offset + 1 + n⟩) ++ lexemes)

def lex (src : String) : Result String (List Lexeme) :=
  lexFrom 0 0 src.toList

/-! ### Lines and columns -/

/-- The offset of the first character of each line. -/
structure LineIndex where
  lineStarts : List Nat

def startsAfter : Nat → List Char → List Nat
  | _, [] => []
  | offset, c :: cs =>
    if c = '\n' then (offset + 1) :: startsAfter (offset + 1) cs else startsAfter (offset + 1) cs

def LineIndex.new (src : String) : LineIndex where
  lineStarts := 0 :: startsAfter 0 src.toList

/-- The last line that starts at or before an offset; the starts are sorted, so that a
binary search finds as many before it. -/
def LineIndex.spanAt (index : LineIndex) (offset : Nat) : Span :=
  let lineIdx := index.lineStarts.countP (· ≤ offset) - 1
  let lineStart := index.lineStarts.getD lineIdx 0
  ⟨lineIdx + 1, offset - lineStart + 1⟩

end Oikos.Telos.Parser
