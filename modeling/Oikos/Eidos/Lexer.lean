/-
The tokenizer of `tpt-eidos-parser`.
-/
import Oikos.Lib.GoText
import Oikos.Lib.Run
import Oikos.Eidos.Syntax
import Mathlib.Data.List.TakeWhile

namespace Oikos.Eidos

open List

inductive ParseError where
  | unexpectedEof
  | unexpectedToken (s : String)
  | invalidNumber (s : String)
  | message (s : String)
deriving Repr, DecidableEq

inductive Tok where
  | ident (s : String)
  | num (n : F64)
  | fn
  | type
  | requires
  | ensures
  | effects
  | let_
  | if_
  | else_
  | return_
  | as_
  | array
  | lParen
  | rParen
  | lBrace
  | rBrace
  | lBracket
  | rBracket
  | comma
  | semi
  | colon
  | eq
  | arrow
  | pipe
  | dot
  | le
  | ge
  | eqEq
  | ne
  | lt
  | gt
  | plus
  | minus
  | star
  | slash
  | percent
  | and
  | or
  | not
deriving DecidableEq

/-- What the error messages show of a token. -/
def Tok.debug (p : Platform) : Tok → String
  | .ident s => "Ident(" ++ p.debugString s ++ ")"
  | .num n => "Num(" ++ p.debugFloat n ++ ")"
  | .fn => "Fn"
  | .type => "Type"
  | .requires => "Requires"
  | .ensures => "Ensures"
  | .effects => "Effects"
  | .let_ => "Let"
  | .if_ => "If"
  | .else_ => "Else"
  | .return_ => "Return"
  | .as_ => "As"
  | .array => "Array"
  | .lParen => "LParen"
  | .rParen => "RParen"
  | .lBrace => "LBrace"
  | .rBrace => "RBrace"
  | .lBracket => "LBracket"
  | .rBracket => "RBracket"
  | .comma => "Comma"
  | .semi => "Semi"
  | .colon => "Colon"
  | .eq => "Eq"
  | .arrow => "Arrow"
  | .pipe => "Pipe"
  | .dot => "Dot"
  | .le => "Le"
  | .ge => "Ge"
  | .eqEq => "EqEq"
  | .ne => "Ne"
  | .lt => "Lt"
  | .gt => "Gt"
  | .plus => "Plus"
  | .minus => "Minus"
  | .star => "Star"
  | .slash => "Slash"
  | .percent => "Percent"
  | .and => "And"
  | .or => "Or"
  | .not => "Not"

def baseTypes : List String :=
  ["f64", "f32", "i64", "i32", "i8", "u64", "u32", "u8", "bool", "char", "Unit"]

def isBaseType (s : String) : Bool :=
  baseTypes.contains s

def keywords : List (String × Tok) :=
  [("fn", .fn), ("type", .type), ("requires", .requires), ("ensures", .ensures),
    ("effects", .effects), ("let", .let_), ("if", .if_), ("else", .else_), ("return", .return_),
    ("as", .as_), ("Array", .array)]

def keyword (s : String) : Option Tok :=
  keywords.lookup s

/-! ### Characters -/

/-- The characters with the Unicode property `Alphabetic`, and the numeric ones, of which only
those of ASCII are known here. -/
structure Unicode where
  isAlphabetic : Char → Bool
  isNumeric : Char → Bool
  ascii : ∀ c : Char, c.toNat < 128 → isAlphabetic c = c.isAlpha ∧ isNumeric c = c.isDigit
  notSpace : ∀ c, isAlphabetic c = true → isWhitespace c = false

namespace Unicode

variable (u : Unicode)

def isAlphanumeric (c : Char) : Bool :=
  u.isAlphabetic c || u.isNumeric c

/-- A name may begin with the character. -/
def startsName (c : Char) : Bool :=
  u.isAlphabetic c || c == '_'

/-- A name may go on with the character. -/
def inName (c : Char) : Bool :=
  u.isAlphanumeric c || c == '_'

end Unicode

/-! ### Numbers -/

/-- A number may go on with the character. -/
def inNumber (c : Char) : Bool :=
  c.isDigit || c == '.'

/-- `str::parse` on digits and points: a point at most, and a digit at least. -/
def parseF64 (cs : List Char) : Option F64 :=
  let whole := cs.takeWhile Char.isDigit
  match cs.dropWhile Char.isDigit with
  | [] => if whole.isEmpty then none else some (F64.round false (Nat.ofDigitChars 10 whole 0 : Nat))
  | c :: frac =>
    let digits := whole ++ frac
    if c = '.' ∧ frac.all Char.isDigit ∧ digits ≠ [] then
      some (F64.round false ((Nat.ofDigitChars 10 digits 0 : Nat) / 10 ^ frac.length))
    else none

/-! ### Tokens -/

def twoCharToken (c d : Char) : Option Tok :=
  if c = '-' ∧ d = '>' then some .arrow
  else if c = '!' ∧ d = '=' then some .ne
  else if c = '=' ∧ d = '=' then some .eqEq
  else if c = '<' ∧ d = '=' then some .le
  else if c = '>' ∧ d = '=' then some .ge
  else if c = '&' ∧ d = '&' then some .and
  else none

/-- There is no token for `||`, and none for a single ampersand. -/
def charToken : Char → Option Tok
  | '(' => some .lParen
  | ')' => some .rParen
  | '\x7b' => some .lBrace
  | '\x7d' => some .rBrace
  | '[' => some .lBracket
  | ']' => some .rBracket
  | ',' => some .comma
  | ';' => some .semi
  | ':' => some .colon
  | '|' => some .pipe
  | '.' => some .dot
  | '+' => some .plus
  | '!' => some .not
  | '-' => some .minus
  | '*' => some .star
  | '/' => some .slash
  | '%' => some .percent
  | '=' => some .eq
  | '<' => some .lt
  | '>' => some .gt
  | _ => none

def wordTok (s : String) : Tok :=
  (keyword s).getD (.ident s)

namespace Lexer

variable (u : Unicode)

/-- One round at a character: the token, if there is one, and how many of the characters
after it belong to the round. -/
def lexOne (c : Char) (cs : List Char) : Except ParseError (Option Tok × Nat) :=
  if isWhitespace c then .ok (none, 0)
  else if c = '/' ∧ cs.head? = some '/' then .ok (none, (cs.takeWhile (· != '\n')).length)
  else if c.isDigit ∨ c = '.' ∧ cs.head?.any Char.isDigit then
    let more := cs.takeWhile inNumber
    match parseF64 (c :: more) with
    | some v => .ok (some (.num v), more.length)
    | none => .error (.invalidNumber (String.ofList (c :: more)))
  else if u.startsName c then
    let more := cs.takeWhile u.inName
    .ok (some (wordTok (String.ofList (c :: more))), more.length)
  else
    match cs.head?.bind (twoCharToken c) with
    | some tok => .ok (some tok, 1)
    | none =>
      match charToken c with
      | some tok => .ok (some tok, 0)
      | none => .error (.unexpectedToken (String.singleton c))

/-- The tokens of characters of which the first `skip` belong to an earlier round. -/
def lexFrom : Nat → List Char → Except ParseError (List Tok)
  | _, [] => .ok []
  | skip + 1, _ :: cs => lexFrom skip cs
  | 0, c :: cs => do
    let (tok, n) ← lexOne u c cs
    let toks ← lexFrom n cs
    .ok (tok.toList ++ toks)

def run (src : String) : Except ParseError (List Tok) :=
  lexFrom u 0 src.toList

end Lexer

/-! ### Rounds -/

namespace Unicode

variable {u : Unicode} {c : Char}

theorem startsName_of_ascii (hc : c.toNat < 128) : u.startsName c = (c.isAlpha || c == '_') := by
  rw [startsName, (u.ascii c hc).1]

theorem inName_of_ascii (hc : c.toNat < 128) :
    u.inName c = (c.isAlpha || c.isDigit || c == '_') := by
  rw [inName, isAlphanumeric, (u.ascii c hc).1, (u.ascii c hc).2]

theorem notSpace_of_startsName (h : u.startsName c = true) : isWhitespace c = false := by
  rcases Bool.or_eq_true_iff.mp h with halpha | hunder
  · exact u.notSpace c halpha
  · rw [beq_iff_eq.mp hunder]
    decide

/-- What begins a name is no ASCII character but a letter and the underscore. -/
theorem ne_of_startsName {d : Char} (h : u.startsName c = true) (hd : d.toNat < 128)
    (hother : (d.isAlpha || d == '_') = false) : c ≠ d := by
  rintro rfl
  rw [startsName_of_ascii hd, hother] at h
  cases h

theorem isDigit_of_startsName (h : u.startsName c = true) : c.isDigit = false := by
  by_contra hdigit
  rw [Bool.not_eq_false] at hdigit
  have hrange : 48 ≤ c.toNat ∧ c.toNat ≤ 57 := by
    simpa [Char.isDigit, UInt32.le_iff_toNat_le] using hdigit
  rw [startsName_of_ascii (by omega), Bool.or_eq_true_iff] at h
  rcases h with halpha | hunder
  · delta Char.isAlpha Char.isUpper Char.isLower at halpha
    simp only [Bool.or_eq_true, Bool.and_eq_true,
      decide_eq_true_eq, UInt32.le_iff_toNat_le, ge_iff_le] at halpha
    change (65 ≤ c.toNat ∧ c.toNat ≤ 90) ∨ (97 ≤ c.toNat ∧ c.toNat ≤ 122) at halpha
    omega
  · rw [beq_iff_eq.mp hunder] at hrange
    exact absurd hrange.2 (by decide)

end Unicode

/-- All characters go on, and what follows does not. -/
theorem takeWhile_stops {α : Type} {p : α → Bool} {xs rest : List α} (hall : ∀ x ∈ xs, p x = true)
    (hrest : ∀ x ∈ rest.head?, p x = false) : (xs ++ rest).takeWhile p = xs := by
  rw [takeWhile_append_of_pos hall]
  cases rest with
  | nil => simp
  | cons x rest => simp [hrest x rfl]

namespace Lexer

variable {u : Unicode} {c : Char} {cs rest : List Char} {t : Tok}

@[simp] theorem lexFrom_zero_nil : lexFrom u 0 [] = .ok [] :=
  rfl

theorem lexFrom_skip (xs : List Char) : lexFrom u xs.length (xs ++ cs) = lexFrom u 0 cs := by
  induction xs with
  | nil => rfl
  | cons x xs ih => exact ih

theorem lexFrom_round {xs : List Char} {tok : Option Tok}
    (h : lexOne u c (xs ++ cs) = .ok (tok, xs.length)) :
    lexFrom u 0 (c :: (xs ++ cs)) = (lexFrom u 0 cs).map (tok.toList ++ ·) := by
  rw [lexFrom, h, ok_bind]
  dsimp only
  rw [lexFrom_skip]
  cases lexFrom u 0 cs with
  | ok toks => rfl
  | error e => rfl

theorem lexFrom_space : lexFrom u 0 (' ' :: cs) = lexFrom u 0 cs := by
  refine (@lexFrom_round u ' ' cs [] none rfl).trans ?_
  cases lexFrom u 0 cs with
  | ok toks => rfl
  | error e => rfl

theorem lexOne_name (hstart : u.startsName c = true) (hmore : ∀ d ∈ cs, u.inName d = true)
    (hrest : ∀ d ∈ rest.head?, u.inName d = false) :
    lexOne u c (cs ++ rest) =
      .ok (some (wordTok (String.ofList (c :: cs))), cs.length) := by
  have hslash : c ≠ '/' := Unicode.ne_of_startsName hstart (by decide) (by decide)
  have hdot : c ≠ '.' := Unicode.ne_of_startsName hstart (by decide) (by decide)
  have hnumber : ¬(c.isDigit = true ∨ c = '.' ∧ (cs ++ rest).head?.any Char.isDigit = true) := by
    rw [Unicode.isDigit_of_startsName hstart]
    exact fun h => h.elim nofun fun h => hdot h.1
  rw [lexOne, if_neg (by rw [Unicode.notSpace_of_startsName hstart]; exact Bool.false_ne_true),
    if_neg fun h => hslash h.1, if_neg hnumber, if_pos hstart]
  dsimp only
  rw [takeWhile_stops hmore hrest]

theorem lexFrom_name (hstart : u.startsName c = true) (hmore : ∀ d ∈ cs, u.inName d = true)
    (hrest : ∀ d ∈ rest.head?, u.inName d = false) :
    lexFrom u 0 (c :: (cs ++ rest)) =
      (lexFrom u 0 rest).map ([wordTok (String.ofList (c :: cs))] ++ ·) :=
  lexFrom_round (lexOne_name hstart hmore hrest)

/-- A character that is neither blank nor part of a name or of a number. -/
def IsSymbol (c : Char) : Prop :=
  c.toNat < 128 ∧ isWhitespace c = false ∧ c.isDigit = false ∧ c.isAlpha = false ∧ c ≠ '_'

theorem lexOne_symbol (hc : IsSymbol c) (hslash : ¬(c = '/' ∧ cs.head? = some '/'))
    (hdot : ¬(c = '.' ∧ cs.head?.any Char.isDigit = true)) :
    lexOne u c cs =
      match cs.head?.bind (twoCharToken c) with
      | some tok => .ok (some tok, 1)
      | none =>
        match charToken c with
        | some tok => .ok (some tok, 0)
        | none => .error (.unexpectedToken (String.singleton c)) := by
  obtain ⟨hascii, hspace, hdigit, halpha, hunder⟩ := hc
  have hname : u.startsName c = false := by
    rw [Unicode.startsName_of_ascii hascii, halpha, beq_eq_false_iff_ne.mpr hunder]
    rfl
  have hnumber : ¬(c.isDigit = true ∨ c = '.' ∧ cs.head?.any Char.isDigit = true) := by
    rw [hdigit]
    exact fun h => h.elim nofun hdot
  rw [lexOne, if_neg (by rw [hspace]; exact Bool.false_ne_true), if_neg hslash, if_neg hnumber,
    if_neg (by rw [hname]; exact Bool.false_ne_true)]

theorem lexFrom_two {d : Char} (hc : IsSymbol c) (hslash : c ≠ '/') (hdot : c ≠ '.')
    (htwo : twoCharToken c d = some t) :
    lexFrom u 0 (c :: d :: cs) = (lexFrom u 0 cs).map ([t] ++ ·) := by
  refine @lexFrom_round u c cs [d] (some t) ?_
  rw [lexOne_symbol hc (fun h => hslash h.1) fun h => hdot h.1]
  simp [htwo]

theorem lexFrom_one (hc : IsSymbol c) (hslash : ¬(c = '/' ∧ cs.head? = some '/'))
    (hdot : ¬(c = '.' ∧ cs.head?.any Char.isDigit = true))
    (htwo : ∀ d ∈ cs.head?, twoCharToken c d = none) (hone : charToken c = some t) :
    lexFrom u 0 (c :: cs) = (lexFrom u 0 cs).map ([t] ++ ·) := by
  refine @lexFrom_round u c cs [] (some t) ?_
  have hnone : cs.head?.bind (twoCharToken c) = none := by
    cases cs with
    | nil => rfl
    | cons d cs => exact htwo d rfl
  rw [nil_append, lexOne_symbol hc hslash hdot, hnone]
  dsimp only
  rw [hone]
  rfl

/-- The characters of which symbols are made. -/
def symbolChars : List Char :=
  ['(', ')', '\x7b', '\x7d', '[', ']', ',', ';', ':', '|', '.', '+', '!', '-', '*', '/',
    '%', '=', '<',
    '>', '&']

theorem isSymbol_of_mem (h : c ∈ symbolChars) : IsSymbol c := by
  have hall : symbolChars.all (fun d => decide (d.toNat < 128) && !isWhitespace d && !d.isDigit &&
      !d.isAlpha && d != '_') = true := by
    decide
  simpa [IsSymbol, and_assoc] using all_eq_true.mp hall c h

/-! ### Texts of tokens -/

/-- The characters that may follow a name or a number. -/
def endChars : List Char :=
  ['(', ')', ']', '\x7d', ' ', ',', ':', '|', ';']

/-- A name and a number may stand in front of these characters. -/
def Ends (cs : List Char) : Prop :=
  ∀ d ∈ cs.head?, d ∈ endChars

/-- The characters have these tokens in front of what satisfies `E`. -/
def Spells (u : Unicode) (E : List Char → Prop) (cs : List Char) (toks : List Tok) : Prop :=
  ∀ rest, E rest → lexFrom u 0 (cs ++ rest) = (lexFrom u 0 rest).map (toks ++ ·)

/-- Anything may follow. -/
def Any (_ : List Char) : Prop :=
  True

def inAsciiName (d : Char) : Bool :=
  decide (d.toNat < 128) && (d.isAlpha || d.isDigit || d == '_')

theorem inName_of_mem_endChars {d : Char} (h : d ∈ endChars) : u.inName d = false := by
  have hall : endChars.all (fun d => decide (d.toNat < 128) && !inAsciiName d) = true := by
    decide
  obtain ⟨hascii, hname⟩ := Bool.and_eq_true_iff.mp (all_eq_true.mp hall d h)
  rw [inAsciiName, hascii, Bool.true_and, Bool.not_eq_true'] at hname
  rw [Unicode.inName_of_ascii (of_decide_eq_true hascii), hname]

theorem inNumber_of_mem_endChars {d : Char} (h : d ∈ endChars) : inNumber d = false := by
  have hall : endChars.all (fun d => !inNumber d) = true := by
    decide
  simpa using all_eq_true.mp hall d h

namespace Spells

variable {E E' : List Char → Prop} {cs' : List Char} {toks toks' : List Tok}

theorem nil : Spells u Any [] [] := by
  intro rest _
  rw [nil_append]
  cases lexFrom u 0 rest with
  | ok ts => rfl
  | error e => rfl

theorem append (h : Spells u E cs toks) (h' : Spells u E' cs' toks')
    (hE : ∀ rest, E' rest → E (cs' ++ rest)) : Spells u E' (cs ++ cs') (toks ++ toks') := by
  intro rest hrest
  rw [append_assoc, h (cs' ++ rest) (hE rest hrest), h' rest hrest]
  cases lexFrom u 0 rest with
  | ok ts =>
    change Except.ok (toks ++ (toks' ++ ts)) = Except.ok (toks ++ toks' ++ ts)
    rw [append_assoc]
  | error e => rfl

/-- What anything may follow. -/
theorem before (h : Spells u Any cs toks) (h' : Spells u E cs' toks') :
    Spells u E (cs ++ cs') (toks ++ toks') :=
  h.append h' fun _ _ => trivial

theorem upTo {d : Char} (hd : d ∈ endChars) (h : Spells u Ends cs toks)
    (h' : Spells u E (d :: cs') toks') : Spells u E (cs ++ d :: cs') (toks ++ toks') := by
  refine h.append h' fun rest _ e he => ?_
  cases he
  exact hd

theorem weaken (h : Spells u Any cs toks) : Spells u Ends cs toks :=
  fun rest _ => h rest trivial

theorem space (h : Spells u E cs toks) : Spells u E (' ' :: cs) toks := by
  intro rest hrest
  rw [cons_append, lexFrom_space, h rest hrest]

theorem symbol (hc : c ∈ symbolChars) (hfree : c ∉ ['/', '.', '-', '!', '=', '<', '>', '&'])
    (hone : charToken c = some t) : Spells u Any [c] [t] := by
  intro rest _
  simp only [mem_cons, not_mem_nil, or_false, not_or] at hfree
  refine lexFrom_one (isSymbol_of_mem hc) (fun h => hfree.1 h.1) (fun h => hfree.2.1 h.1)
    (fun d _ => ?_) hone
  simp [twoCharToken, hfree]

theorem symbolSpace (hc : c ∈ symbolChars) (hone : charToken c = some t) :
    Spells u Any [c, ' '] [t] := by
  intro rest _
  have hone := @lexFrom_one u c (' ' :: rest) t (isSymbol_of_mem hc) (fun h => nomatch h.2)
    (fun h => nomatch h.2)
    (fun d hd => by cases hd; simp [twoCharToken]) hone
  refine hone.trans ?_
  rw [lexFrom_space]

theorem two {d : Char} (hc : c ∈ symbolChars) (hfree : c ∉ ['/', '.'])
    (htwo : twoCharToken c d = some t) : Spells u Any [c, d] [t] := by
  intro rest _
  simp only [mem_cons, not_mem_nil, or_false, not_or] at hfree
  exact lexFrom_two (isSymbol_of_mem hc) hfree.1 hfree.2 htwo

theorem name (hstart : u.startsName c = true) (hmore : ∀ d ∈ cs, u.inName d = true) :
    Spells u Ends (c :: cs) [wordTok (String.ofList (c :: cs))] :=
  fun _ hrest => lexFrom_name hstart hmore fun d hd => inName_of_mem_endChars (hrest d hd)

theorem asciiName (hstart : c.toNat < 128 ∧ (c.isAlpha || c == '_') = true)
    (hmore : cs.all inAsciiName = true) (htok : wordTok (String.ofList (c :: cs)) = t) :
    Spells u Ends (c :: cs) [t] := by
  rw [← htok]
  refine name ?_ fun d hd => ?_
  · rw [Unicode.startsName_of_ascii hstart.1, hstart.2]
  · obtain ⟨hascii, hname⟩ := Bool.and_eq_true_iff.mp (all_eq_true.mp hmore d hd)
    rw [Unicode.inName_of_ascii (of_decide_eq_true hascii), hname]

end Spells

end Lexer

end Oikos.Eidos
