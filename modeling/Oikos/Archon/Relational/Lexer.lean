/-
The tokenizer of the SQL parser.  Positions count characters where the source
counts bytes: a token starts and ends between characters, so its width is what
it moves the position by in either count.
-/
import Oikos.Lib.Run
import Oikos.Archon.Relational.Ast

namespace Oikos.Archon.Relational

/-! ### Numbers as text -/

section Numbers

/-- The number that a run of decimal digits stands for. -/
def digitsValue (ds : List Char) : Nat :=
  Nat.ofDigitChars 10 ds 0

/-- `i64::from_str`, on the sign and the digits of a text. -/
def i64FromStr (negative : Bool) (ds : List Char) : Option Int64 :=
  if ds.isEmpty then none
  else if negative then
    if 9223372036854775808 < digitsValue ds then none
    else some (Int64.ofInt (-(digitsValue ds : Int)))
  else
    if 9223372036854775808 ≤ digitsValue ds then none
    else some (Int64.ofInt (digitsValue ds))

/-- The text that an integer is displayed as. -/
def displayInt (v : Int64) : List Char :=
  if v.toInt < 0 then '-' :: Nat.toDigits 10 v.toInt.natAbs else Nat.toDigits 10 v.toInt.natAbs

/-- A quotient rounded to the nearest integer, ties to even. -/
def roundHalfEven (num den : Nat) : Nat :=
  let q := num / den
  let r := num % den
  if den < 2 * r || (2 * r == den && q % 2 == 1) then q + 1 else q

/-- The bits of the 32-bit float nearest to `num / den`. -/
def f32Magnitude (num den : Nat) : Nat :=
  if num = 0 then 0
  else
    let a := num.log2
    let b := den.log2
    let exponent : Int := if den * 2 ^ a ≤ num * 2 ^ b then (a : Int) - b else (a : Int) - b - 1
    let k := max exponent (-126)
    -- `k - 23` is the exponent of the last place
    let q := roundHalfEven (num * 2 ^ (23 - k).toNat) (den * 2 ^ (k - 23).toNat)
    min ((k + 126).toNat * 8388608 + q) 2139095040

/-- The exponent of a number in scientific notation. -/
def f32Exponent : List Char → Option Int
  | [] => some 0
  | c :: cs =>
    if c = 'e' || c = 'E' then
      let negative := cs.head? == some '-'
      let ds := if negative || cs.head? == some '+' then cs.tail else cs
      if ds.isEmpty || !ds.all Char.isDigit then none
      else some (if negative then -(digitsValue ds : Int) else digitsValue ds)
    else none

/-- The bits of an unsigned float. -/
def f32Unsigned (text : List Char) : Option Nat :=
  let whole := text.takeWhile Char.isDigit
  let after := text.dropWhile Char.isDigit
  let dotted := after.head? == some '.'
  let frac := if dotted then after.tail.takeWhile Char.isDigit else []
  let rest := if dotted then after.tail.dropWhile Char.isDigit else after
  if whole.isEmpty && frac.isEmpty then
    let name := String.ofList (text.map Char.toLower)
    if name = "nan" then some 2143289344
    else if name = "inf" || name = "infinity" then some 2139095040
    else none
  else do
    let exponent ← f32Exponent rest
    let scale := exponent - frac.length
    some (f32Magnitude (digitsValue (whole ++ frac) * 10 ^ scale.toNat) (10 ^ (-scale).toNat))

/-- `f32::from_str`. -/
def f32FromStr (text : List Char) : Option F32 := do
  let negative := text.head? == some '-'
  let bits ← f32Unsigned (if negative || text.head? == some '+' then text.tail else text)
  some ⟨UInt32.ofNat (if negative then bits + 2147483648 else bits)⟩

end Numbers

/-! ### Tokens -/

structure ParseError where
  message : String
deriving Repr, DecidableEq

inductive Tok where
  | ident (s : String)
  | int (v : Int64)
  | float (x : F32)
  | text (s : String)
  | star
  | comma
  | dot
  | op (op : CmpOp)
  | param
  | lparen
  | rparen
  | lbracket
  | eof
deriving Repr, DecidableEq

structure Lexer where
  s : List Char
  pos : Nat
deriving Repr, DecidableEq

namespace Lexer

def new (input : String) : Lexer :=
  ⟨input.toList, 0⟩

/-- The characters from the position on. -/
def rest (lx : Lexer) : List Char :=
  lx.s.drop lx.pos

/-- Move to where `rem` is left of the input. -/
def seek (lx : Lexer) (rem : List Char) : Lexer :=
  ⟨lx.s, lx.s.length - rem.length⟩

end Lexer

abbrev Parse (α : Type) := StateT Lexer (Except (Stop ParseError)) α

def fail {α : Type} (message : String) : Parse α :=
  throw (.err ⟨message⟩)

def outOfFuel {α : Type} : Parse α :=
  throw .fuel

def isAsciiWhitespace (c : Char) : Bool :=
  [9, 10, 12, 13, 32].contains c.toNat

/-- The character that encloses a text literal. -/
def quote : Char := Char.ofNat 39

/-- The tokens of one character. -/
def symbol (c : Char) : Option Tok :=
  if c = '*' then some .star
  else if c = ',' then some .comma
  else if c = '(' then some .lparen
  else if c = ')' then some .rparen
  else if c = '.' then some .dot
  else if c = '[' then some .lbracket
  else if c = '=' then some (.op .eq)
  else if c = '?' then some .param
  else none

def scanFraction : List Char → Option (List Char × List Char)
  | [] => none
  | c :: cs =>
    let frac := cs.takeWhile Char.isDigit
    let rem := cs.dropWhile Char.isDigit
    if c ≠ '.' || frac.isEmpty || rem.head?.any Char.isAlpha then none else some (frac, rem)

def signText (negative : Bool) : List Char :=
  if negative then ['-'] else []

def scanDigits (negative : Bool) (cs : List Char) : Except String (Tok × List Char) :=
  let ds := cs.takeWhile Char.isDigit
  let after := cs.dropWhile Char.isDigit
  match scanFraction after with
  | some (frac, rem) =>
    match f32FromStr (signText negative ++ ds ++ '.' :: frac) with
    | some x => .ok (.float x, rem)
    | none => .error "invalid float"
  | none =>
    match i64FromStr negative ds with
    | some v => .ok (.int v, after)
    | none => .error "invalid integer"

def scanNumber (cs : List Char) : Except String (Tok × List Char) :=
  if cs.head? = some '-' then scanDigits true cs.tail else scanDigits false cs

def isWordChar (c : Char) : Bool :=
  c.isAlphanum || c == '_'

/-- The token that starts with `c`, and the characters after it. -/
def scan (c : Char) (cs : List Char) : Except String (Tok × List Char) :=
  match symbol c with
  | some t => .ok (t, cs)
  | none =>
    if c = '<' then
      if cs.head? = some '=' then .ok (.op .le, cs.tail)
      else if cs.head? = some '>' then .ok (.op .ne, cs.tail)
      else .ok (.op .lt, cs)
    else if c = '>' then
      if cs.head? = some '=' then .ok (.op .ge, cs.tail) else .ok (.op .gt, cs)
    else if c = '!' then
      if cs.head? = some '=' then .ok (.op .ne, cs.tail) else .error "unexpected '!'"
    else if c = quote then
      if cs.contains quote then
        .ok (.text (String.ofList (cs.takeWhile (· != quote))), (cs.dropWhile (· != quote)).tail)
      else .error "unterminated text literal"
    else if c.isDigit || c == '-' then scanNumber (c :: cs)
    else if c.isAlpha || c == '_' then
      .ok (.ident (String.ofList (c :: cs.takeWhile isWordChar)), cs.dropWhile isWordChar)
    else
      -- the source shows the first byte of the character
      .error ("unexpected character '" ++
        String.ofList [Char.ofNat ((String.utf8EncodeChar c).headD 0).toNat] ++ "'")

def nextTok : Parse Tok := fun lx =>
  match lx.rest.dropWhile isAsciiWhitespace with
  | [] => .ok (.eof, lx.seek [])
  | c :: cs =>
    match scan c cs with
    | .ok (t, rem) => .ok (t, lx.seek rem)
    | .error message => .error (.err ⟨message⟩)

/-- The width that `push_back` takes a token to have. -/
def Tok.width : Tok → Nat
  | .ident s => s.length
  | .int v => (displayInt v).length
  | .float _ => 0
  | .text s => s.length + 2
  | .op .le => 2
  | .op .ne => 2
  | .op .ge => 2
  | .eof => 0
  | _ => 1

/-- Un-read a token.  The position is never smaller than the width: the token
was read before. -/
def pushBack (t : Tok) : Parse Unit := fun lx =>
  .ok ((), ⟨lx.s, lx.pos - t.width⟩)

/-! ### Words -/

def eqIgnoreCase (a b : String) : Bool :=
  a.toList.length == b.toList.length &&
    (a.toList.zip b.toList).all fun p => p.1.toLower == p.2.toLower

/-- The token is this keyword. -/
def Tok.isWord (w : String) : Tok → Bool
  | .ident s => eqIgnoreCase s w
  | _ => false

def toAsciiLowercase (s : String) : String :=
  String.ofList (s.toList.map Char.toLower)

def isKw (s : String) : Bool :=
  ["select", "insert", "update", "delete", "from", "where", "set", "order", "limit", "group",
    "having", "join", "on", "create", "view", "drop", "begin", "commit", "rollback", "not",
    "exists"].contains (toAsciiLowercase s)

/-- A name, possibly qualified: `a`, `t.a`. -/
def expectIdent : Nat → String → Parse String
  | 0, _ => outOfFuel
  | fuel + 1, what => do
    match ← nextTok with
    | .ident name =>
      let next ← nextTok
      if next = .dot then
        let field ← expectIdent fuel "field name after '.'"
        pure (name ++ "." ++ field)
      else
        pushBack next
        pure name
    | _ => fail ("expected " ++ what)

def expectKw (expected : String) : Parse Unit := do
  let tok ← nextTok
  if tok.isWord expected then pure () else fail ("expected " ++ expected)

def expectInt (what : String) : Parse Int64 := do
  match ← nextTok with
  | .int v => pure v
  | _ => fail ("expected integer " ++ what)

def expectTok (expected : Tok) (what : String) : Parse Unit := do
  let tok ← nextTok
  if tok = expected then pure () else fail ("expected " ++ what)

/-- The input must end here. -/
def expectEof (message : String) : Parse Unit := do
  let tok ← nextTok
  if tok = .eof then pure () else fail message

end Oikos.Archon.Relational
