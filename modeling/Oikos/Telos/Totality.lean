/-
The parser comes to an end: on lexemes of which only the last is the end of the file every
production takes a token or fails, none reads past the end, and no loop goes round more
often than there are tokens.
-/
import Oikos.Lib.Progress
import Oikos.Telos.Parser

namespace Oikos.Telos.Parser

/-- The token is not the end of the file. -/
def Token.Inner : Token → Prop
  | .eof => False
  | _ => True

theorem Token.inner_of_ne {tok : Token} (h : tok ≠ .eof) : tok.Inner := by
  cases tok with
  | eof => exact absurd rfl h
  | _ => exact trivial

/-- The last lexeme, and no other, is the end of the file. -/
class Sealed (whole : List Lexeme) : Prop where
  last : ∀ l, [l] <:+ whole → l.token = .eof

/-- From fewer lexemes than `n` the parser takes some, or fails. -/
def Consumes {α : Type} (whole : List Lexeme) (P : List Lexeme → Prop) (n : Nat) (p : Parse α) :
    Prop :=
  Progress whole P n 1 p fun _ => True

/-- From fewer lexemes than `n` the parser returns, or fails. -/
def Finishes {α : Type} (whole : List Lexeme) (P : List Lexeme → Prop) (n : Nat) (p : Parse α) :
    Prop :=
  Progress whole P n 0 p fun _ => True

section Rules

variable {α β : Type} {whole : List Lexeme} {P : List Lexeme → Prop} {n m : Nat} {l : Lexeme}
  {p : Parse α} {f : α → Parse β} {tok : Token} {message : String}

theorem Consumes.finishes (h : Consumes whole P n p) : Finishes whole P n p :=
  Progress.weaken h

namespace Finishes

theorem pure {a : α} : Finishes whole P n (pure a : Parse α) :=
  Progress.pure trivial

theorem reject : Finishes whole P n (Parser.reject message : Parse α) :=
  Progress.throw

theorem anywhere (h : Finishes whole Anywhere n p) : Finishes whole P n p :=
  Progress.anywhere h

theorem mono (h : Finishes whole P n p) (hm : m ≤ n) : Finishes whole P m p :=
  Progress.mono h hm

theorem peek {f : Lexeme → Parse β} (hf : ∀ l, Finishes whole (NextIs l) n (f l)) :
    Finishes whole P n (Parser.peek >>= f) :=
  Progress.peek hf

/-- One part behind another. -/
theorem next (hp : Finishes whole P n p) (hf : ∀ a, Finishes whole Anywhere n (f a)) :
    Finishes whole P n (p >>= f) :=
  Progress.bind hp fun a _ => hf a

theorem noteIf {c : Bool} {slip : Slip} : Finishes whole P n (Parser.noteIf c slip) := by
  cases c with
  | false => exact .pure
  | true => exact Progress.note (Progress.pure trivial)

end Finishes

namespace Consumes

theorem reject : Consumes whole P n (Parser.reject message : Parse α) :=
  Progress.throw

/-- There are no lexemes to be read. -/
theorem one (hn : n ≤ 1) : Consumes whole P n p :=
  Progress.one hn

theorem anywhere (h : Consumes whole Anywhere n p) : Consumes whole P n p :=
  Progress.anywhere h

theorem mono (h : Consumes whole P n p) (hm : m ≤ n) : Consumes whole P m p :=
  Progress.mono h hm

theorem peek {f : Lexeme → Parse β} (hf : ∀ l, Consumes whole (NextIs l) n (f l)) :
    Consumes whole P n (Parser.peek >>= f) :=
  Progress.peek hf

/-- What follows begins with fewer lexemes. -/
theorem next (hp : Consumes whole P n p) (hf : ∀ a, Finishes whole Anywhere (n - 1) (f a)) :
    Consumes whole P n (p >>= f) :=
  Progress.first hp fun a _ => hf a

end Consumes

variable [hsealed : Sealed whole]

theorem Consumes.advance {f : Lexeme → Parse β} (htok : l.token = tok) (hinner : tok.Inner)
    (hf : Finishes whole Anywhere (n - 1) (f l)) :
    Consumes whole (NextIs l) n (Parser.advance >>= f) := by
  refine Progress.advance (fun hlast => ?_) hf
  rw [← htok, hsealed.last l hlast] at hinner
  exact hinner

theorem Finishes.advance {f : Lexeme → Parse β} (htok : l.token = tok) (hinner : tok.Inner)
    (hf : Finishes whole Anywhere n (f l)) :
    Finishes whole (NextIs l) n (Parser.advance >>= f) :=
  (Consumes.advance htok hinner (hf.mono (Nat.sub_le n 1))).finishes

theorem consumes_expect (hinner : tok.Inner) : Consumes whole P n (expect tok) := by
  refine .peek fun l => ?_
  split
  · next htok => exact .advance htok hinner .pure
  · exact .reject

theorem consumes_ident : Consumes whole P n expectIdent := by
  refine .peek fun l => ?_
  split
  · next i htok => exact .advance htok trivial .pure
  · exact .reject

theorem consumes_identOrKeyword : Consumes whole P n expectIdentOrKeyword := by
  refine .peek fun l => ?_
  split
  · next i htok => exact .advance htok trivial .pure
  · next htok => exact .advance htok trivial .pure
  · exact .reject

theorem finishes_skip (hinner : tok.Inner) : Finishes whole P n (skip tok) := by
  refine .peek fun l => ?_
  split
  · next htok => exact .advance htok hinner .pure
  · exact .pure

theorem Consumes.expect {f : Unit → Parse β} (hinner : tok.Inner)
    (hf : Finishes whole Anywhere (n - 1) (f ())) : Consumes whole P n (Parser.expect tok >>= f) :=
  (consumes_expect hinner).next fun _ => hf

theorem Finishes.expect {f : Unit → Parse β} (hinner : tok.Inner)
    (hf : Finishes whole Anywhere n (f ())) : Finishes whole P n (Parser.expect tok >>= f) :=
  (consumes_expect hinner).finishes.next fun _ => hf

theorem Finishes.skip {f : Unit → Parse β} (hinner : tok.Inner)
    (hf : Finishes whole Anywhere n (f ())) : Finishes whole P n (Parser.skip tok >>= f) :=
  (finishes_skip hinner).next fun _ => hf

theorem Finishes.ident {f : Name → Parse β} (hf : ∀ v, Finishes whole Anywhere n (f v)) :
    Finishes whole P n (expectIdent >>= f) :=
  consumes_ident.finishes.next hf

end Rules

/-! ### Loops -/

section Loops

variable {α : Type} {whole : List Lexeme} {P : List Lexeme → Prop} {n fuel : Nat} {item : Parse α}

theorem finishes_untilToken {stop : Token} (hn : n ≤ fuel)
    (hitem : Consumes whole Anywhere n item) : Finishes whole P n (untilToken stop item fuel) := by
  induction fuel generalizing P n with
  | zero => exact (Consumes.one (by omega)).finishes
  | succ fuel ih =>
    refine .peek fun l => ?_
    split
    · exact .pure
    · refine (hitem.anywhere.next fun a => ?_).finishes
      exact (ih (by omega) (hitem.mono (Nat.sub_le n 1))).next fun as => .pure

theorem finishes_whileToken {start : Token} (hn : n ≤ fuel)
    (hitem : Consumes whole Anywhere n item) : Finishes whole P n (whileToken start item fuel) := by
  induction fuel generalizing P n with
  | zero => exact (Consumes.one (by omega)).finishes
  | succ fuel ih =>
    refine .peek fun l => ?_
    split
    · refine (hitem.anywhere.next fun a => ?_).finishes
      exact (ih (by omega) (hitem.mono (Nat.sub_le n 1))).next fun as => .pure
    · exact .pure

variable [Sealed whole]

theorem consumes_commaList (hn : n ≤ fuel) (hitem : Consumes whole Anywhere n item) :
    Consumes whole P n (commaList item fuel) := by
  induction fuel generalizing P n with
  | zero => exact .one (by omega)
  | succ fuel ih =>
    refine hitem.anywhere.next fun a => .peek fun l => ?_
    split
    · next htok =>
      refine .advance htok trivial ?_
      exact (ih (by omega) (hitem.mono (Nat.sub_le n 1))).finishes.next fun as => .pure
    · exact .pure

theorem consumes_closedList (hn : n ≤ fuel) (hitem : Consumes whole Anywhere n item) :
    Consumes whole P n (closedList item fuel) := by
  refine .peek fun l => ?_
  split
  · exact .expect trivial .pure
  · exact (consumes_commaList hn hitem).next fun as => .expect trivial .pure

end Loops

/-! ### Types and patterns -/

section Phrases

variable {whole : List Lexeme} {P : List Lexeme → Prop} {fuel : Nat} [Sealed whole]

theorem consumes_typeAt {ty : Parse Ty} (hty : Consumes whole Anywhere fuel ty) :
    Consumes whole P (fuel + 1) (parseTypeAt ty fuel) := by
  refine .peek fun l => ?_
  split
  · next htok =>
    refine .advance htok trivial (.expect trivial (hty.finishes.next fun ok => .expect trivial ?_))
    exact hty.finishes.next fun err => .expect trivial .pure
  · next htok =>
    refine .advance htok trivial
      ((consumes_commaList (le_refl fuel) hty).finishes.next fun elems => ?_)
    refine .expect trivial ?_
    split <;> exact .pure
  · next htok =>
    refine .advance htok trivial (hty.finishes.next fun elem => .peek fun next => ?_)
    split
    · next hsemicolon =>
      refine .advance hsemicolon trivial (.peek fun len => ?_)
      split
      · next n hlen => exact .advance hlen trivial (.expect trivial .pure)
      · exact .reject
    · exact .expect trivial .pure
  · next i htok =>
    refine .advance htok trivial (.peek fun next => ?_)
    split
    · next hlt =>
      refine .advance hlt trivial
        ((consumes_commaList (le_refl fuel) hty).finishes.next fun args => ?_)
      exact .expect trivial .pure
    · exact .pure
  · exact .reject

theorem consumes_type (fuel : Nat) : Consumes whole P fuel (parseType fuel) := by
  induction fuel generalizing P with
  | zero => exact .one (Nat.zero_le 1)
  | succ fuel ih => exact consumes_typeAt ih

theorem consumes_patternAt {pattern : Parse Pattern}
    (hpattern : Consumes whole Anywhere fuel pattern) :
    Consumes whole P (fuel + 1) (parsePatternAt pattern fuel) := by
  refine .peek fun l => ?_
  cases htok : l.token with
  | int n => exact .advance htok trivial .pure
  | minus =>
    refine .advance htok trivial (.peek fun next => ?_)
    cases next.token with
    | int n => exact Finishes.noteIf.next fun _ => .expect trivial .pure
    | _ => exact .reject
  | ident i =>
    refine .advance htok trivial (.peek fun next => ?_)
    split
    · next hparen =>
      refine .advance hparen trivial ?_
      exact (consumes_closedList (le_refl fuel) hpattern).finishes.next fun fields => .pure
    · exact .pure
  | underScore => exact .advance htok trivial .pure
  | _ => exact .reject

theorem consumes_pattern (fuel : Nat) : Consumes whole P fuel (parsePattern fuel) := by
  induction fuel generalizing P with
  | zero => exact .one (Nat.zero_le 1)
  | succ fuel ih => exact consumes_patternAt ih

end Phrases

/-! ### Expressions -/

section Expressions

variable {whole : List Lexeme} {P : List Lexeme → Prop} {n : Nat} [Sealed whole]

omit [Sealed whole] in
/-- The end of the file is no operator. -/
theorem inner_of_op {γ : Type} {opOf : Token → Option γ} (hop : opOf .eof = none) {tok : Token}
    {op : γ} (h : opOf tok = some op) : tok.Inner := by
  refine Token.inner_of_ne ?_
  rintro rfl
  rw [hop] at h
  cases h

theorem finishes_binLoop {opOf : Token → Option BinOp} (hop : opOf .eof = none)
    {operand : Parse Expr}
    {fuel : Nat} (hn : n ≤ fuel) (hoperand : Consumes whole Anywhere n operand) (lhs : Expr) :
    Finishes whole P n (binLoop opOf operand fuel lhs) := by
  induction fuel generalizing P n lhs with
  | zero => exact (Consumes.one (by omega)).finishes
  | succ fuel ih =>
    refine .peek fun l => ?_
    split
    · next op hl =>
      have hrest : Finishes whole Anywhere (n - 1) (operand >>= fun rhs =>
          binLoop opOf operand fuel (.bin op lhs rhs)) :=
        (hoperand.mono (Nat.sub_le n 1)).finishes.next fun rhs =>
          ih (by omega) (hoperand.mono (Nat.sub_le n 1)) _
      exact (Consumes.advance rfl (inner_of_op hop hl) hrest).finishes
    · exact .pure

theorem consumes_binChain {opOf : Token → Option BinOp} (hop : opOf .eof = none)
    {operand : Parse Expr} {fuel : Nat} (hn : n ≤ fuel + 1)
    (hoperand : Consumes whole Anywhere n operand) :
    Consumes whole P n (binChain opOf operand fuel) := by
  refine hoperand.anywhere.next fun lhs => ?_
  exact finishes_binLoop hop (by omega) (hoperand.mono (Nat.sub_le n 1)) lhs

variable {expr : Parse Expr} {fuel : Nat} (hexpr : Consumes whole Anywhere fuel expr)
include hexpr

theorem consumes_parenthesized : Consumes whole P (fuel + 1) (parenthesized expr) :=
  .expect trivial (hexpr.finishes.next fun _ => .expect trivial .pure)

theorem consumes_braced : Consumes whole P (fuel + 1) (braced expr) :=
  .expect trivial (hexpr.finishes.next fun _ => .expect trivial .pure)

theorem finishes_braced : Finishes whole P fuel (braced expr) :=
  (consumes_braced hexpr).finishes.mono (Nat.le_succ fuel)

theorem consumes_ifExpr : Consumes whole P (fuel + 1) (parseIfExpr expr) := by
  refine .expect trivial (hexpr.finishes.next fun condition => ?_)
  refine (finishes_braced hexpr).next fun thenExpr => .expect trivial ?_
  exact (finishes_braced hexpr).next fun elseExpr => .pure

theorem consumes_exprArm : Consumes whole P fuel (parseExprArm expr fuel) := by
  refine (consumes_pattern fuel).next fun pattern => .expect trivial ?_
  exact (hexpr.finishes.mono (Nat.sub_le fuel 1)).next fun e => .skip trivial .pure

theorem consumes_matchExpr : Consumes whole P (fuel + 1) (parseMatchExpr expr fuel) := by
  refine .expect trivial (hexpr.finishes.next fun scrutinee => .expect trivial ?_)
  exact (finishes_untilToken (le_refl fuel) (consumes_exprArm hexpr)).next fun arms =>
    .expect trivial .pure

theorem consumes_forallExpr : Consumes whole P (fuel + 1) (parseForallExpr expr fuel) := by
  refine .expect trivial (.ident fun var => .expect trivial ?_)
  refine (consumes_type fuel).finishes.next fun varTy => .peek fun l => ?_
  split
  · next htok =>
    refine .advance htok trivial (hexpr.finishes.next fun domain => ?_)
    exact (finishes_braced hexpr).next fun body => .pure
  · exact (finishes_braced hexpr).anywhere.next fun body => .pure

theorem finishes_args : Finishes whole P fuel (closedList expr fuel) :=
  (consumes_closedList (le_refl fuel) hexpr).finishes

theorem finishes_identRest (v : Name) : Finishes whole P fuel (parseIdentRest expr fuel v) := by
  refine .peek fun next => ?_
  split
  · exact .expect trivial ((finishes_args hexpr).next fun args => .pure)
  · split
    · next hdot => exact .advance hdot trivial (.ident fun field => .pure)
    · exact .pure

theorem consumes_primary : Consumes whole P (fuel + 1) (parsePrimary expr fuel) := by
  have hparen : Finishes whole Anywhere fuel (parenthesized expr) :=
    (consumes_parenthesized hexpr).finishes.mono (Nat.le_succ fuel)
  refine .peek fun l => ?_
  cases htok : l.token with
  | int n => exact .advance htok trivial .pure
  | lParen => exact consumes_parenthesized hexpr
  | ident i => exact .advance htok trivial (finishes_identRest hexpr i.name)
  | kw k =>
    cases k with
    | old => exact .advance htok trivial (hparen.next fun e => .pure)
    | ifKw => exact consumes_ifExpr hexpr
    | matchKw => exact consumes_matchExpr hexpr
    | forall_ => exact consumes_forallExpr hexpr
    | result => exact .advance htok trivial .pure
    | ok => exact .advance htok trivial (hparen.next fun e => .pure)
    | err => exact .advance htok trivial (hparen.next fun e => .pure)
    | _ => exact .reject
  | _ => exact .reject

omit [Sealed whole] hexpr in
theorem finishes_noteCall (e : Expr) : Finishes whole P n (noteCall e) := by
  unfold noteCall
  split
  · split
    · exact .noteIf
    · exact Progress.note (Progress.pure trivial)
  · exact .pure

/-- Each round takes at least the token that it begins with. -/
theorem finishes_postfixLoop {m : Nat} (hn : n ≤ m) (hm : m ≤ fuel) (e : Expr) :
    Finishes whole P n (postfixLoop expr m e) := by
  induction m generalizing P n e with
  | zero => exact (Consumes.one (by omega)).finishes
  | succ m ih =>
    have hless : Consumes whole Anywhere (n - 1) expr := hexpr.mono (by omega)
    have hrest : ∀ e, Finishes whole Anywhere (n - 1) (postfixLoop expr m e) := fun e =>
      ih (by omega) (by omega) e
    refine .peek fun l => ?_
    split
    · refine (finishes_noteCall e).next fun _ => Consumes.finishes ?_
      refine .expect trivial ?_
      refine (consumes_closedList (by omega) hless).finishes.next fun args => ?_
      split
      · exact hrest _
      · exact .reject
    · next htok => exact (Consumes.advance htok trivial (.ident fun field => hrest _)).finishes
    · next htok =>
      refine (Consumes.advance htok trivial ?_).finishes
      exact hless.finishes.next fun index => .expect trivial (hrest _)
    · next htok => exact (Consumes.advance htok trivial (hrest _)).finishes
    · next htok =>
      exact (Consumes.advance htok trivial (hless.finishes.next fun hi => hrest _)).finishes
    · exact .pure

theorem consumes_tails : Consumes whole P (fuel + 1) (parsePostfix expr fuel) :=
  (consumes_primary hexpr).next fun e => finishes_postfixLoop hexpr (le_refl fuel) (le_refl fuel) e

theorem consumes_unary {m : Nat} (hn : n ≤ m + 1) (hm : n ≤ fuel + 1) :
    Consumes whole P n (parseUnary expr fuel m) := by
  induction m generalizing P n with
  | zero => exact .one hn
  | succ m ih =>
    refine .peek fun l => ?_
    split
    · next htok =>
      refine .advance htok trivial ?_
      exact (ih (by omega) (by omega)).finishes.next fun e => .pure
    · exact (consumes_tails hexpr).mono hm

theorem consumes_mul : Consumes whole P (fuel + 1) (parseMul expr fuel) :=
  consumes_binChain rfl (le_refl _) (consumes_unary hexpr (le_refl _) (le_refl _))

theorem consumes_add : Consumes whole P (fuel + 1) (parseAdd expr fuel) :=
  consumes_binChain rfl (le_refl _) (consumes_mul hexpr)

theorem consumes_cmp : Consumes whole P (fuel + 1) (parseCmp expr fuel) := by
  refine (consumes_add hexpr).next fun lhs => .peek fun l => ?_
  split
  · next op hop =>
    have hright : Finishes whole Anywhere fuel (parseAdd expr fuel) :=
      (consumes_add hexpr).finishes.mono (Nat.le_succ fuel)
    exact .advance rfl (inner_of_op rfl hop) (hright.next fun rhs => .pure)
  · exact .pure

theorem consumes_and : Consumes whole P (fuel + 1) (parseAnd expr fuel) :=
  consumes_binChain rfl (le_refl _) (consumes_cmp hexpr)

theorem consumes_or : Consumes whole P (fuel + 1) (parseOr expr fuel) :=
  consumes_binChain rfl (le_refl _) (consumes_and hexpr)

end Expressions

theorem consumes_expr {whole : List Lexeme} {P : List Lexeme → Prop} [Sealed whole] (fuel : Nat) :
    Consumes whole P fuel (parseExpr fuel) := by
  induction fuel generalizing P with
  | zero => exact .one (Nat.zero_le 1)
  | succ fuel ih => exact consumes_or ih

/-! ### Statements -/

section Statements

variable {whole : List Lexeme} {P : List Lexeme → Prop} {fuel : Nat} [Sealed whole]

theorem finishes_expr : Finishes whole P (fuel - 1) (parseExpr fuel) :=
  (consumes_expr fuel).finishes.mono (Nat.sub_le fuel 1)

theorem finishes_type : Finishes whole P (fuel - 1) (parseType fuel) :=
  (consumes_type fuel).finishes.mono (Nat.sub_le fuel 1)

theorem consumes_assign : Consumes whole P fuel (parseAssign fuel) := by
  refine (consumes_expr fuel).next fun target => .peek fun l => ?_
  split
  · next op hop =>
    exact .advance rfl (inner_of_op rfl hop) (finishes_expr.next fun value => .skip trivial .pure)
  · exact .reject

theorem consumes_exprStmt : Consumes whole P fuel (parseExprStmt fuel) := by
  refine (consumes_expr fuel).next fun e => .peek fun l => ?_
  split
  · next op hop =>
    exact .advance rfl (inner_of_op rfl hop) (finishes_expr.next fun value => .skip trivial .pure)
  · exact Progress.note (Finishes.skip trivial .pure)

theorem consumes_let : Consumes whole P fuel (parseLet fuel) := by
  refine .expect trivial (.ident fun name => .peek fun l => ?_)
  split
  · next htok =>
    refine .advance htok trivial (finishes_type.next fun ty => .expect trivial ?_)
    exact finishes_expr.next fun value => .skip trivial .pure
  · exact .expect trivial (finishes_expr.next fun value => .skip trivial .pure)

theorem consumes_return : Consumes whole P fuel (parseReturn fuel) := by
  refine .expect trivial (.peek fun l => ?_)
  split
  · exact finishes_expr.next fun e => .skip trivial .pure
  · exact .skip trivial .pure

theorem consumes_mutate : Consumes whole P fuel (parseMutate fuel) := by
  refine .expect trivial (.expect trivial (.expect trivial ?_))
  refine (finishes_untilToken (Nat.sub_le fuel 1) ?_).next fun assigns => .expect trivial .pure
  exact consumes_assign.mono (Nat.sub_le fuel 1)

variable {stmt : Parse Stmt} (hstmt : Consumes whole Anywhere (fuel - 1) stmt)
include hstmt

theorem finishes_blockRest : Finishes whole P (fuel - 1) (blockRest stmt fuel) :=
  (finishes_untilToken (Nat.sub_le fuel 1) hstmt).next fun _ => .expect trivial .pure

theorem consumes_ifStmt : Consumes whole P fuel (parseIfStmt stmt fuel) := by
  refine .expect trivial (finishes_expr.next fun condition => .expect trivial ?_)
  refine (finishes_blockRest hstmt).next fun thenBody => .peek fun l => ?_
  split
  · next htok =>
    exact .advance htok trivial
      (.expect trivial ((finishes_blockRest hstmt).next fun body => .pure))
  · exact .pure

theorem consumes_stmtArm : Consumes whole P fuel (parseStmtArm stmt fuel) := by
  refine (consumes_pattern fuel).next fun pattern => .expect trivial (.peek fun l => ?_)
  split
  · next htok =>
    refine .advance htok trivial ((finishes_blockRest hstmt).next fun body => ?_)
    exact Finishes.noteIf.next fun _ => .pure
  · exact hstmt.finishes.anywhere.next fun s => .pure

theorem consumes_matchStmt : Consumes whole P fuel (parseMatchStmt stmt fuel) := by
  refine .expect trivial (finishes_expr.next fun scrutinee => .expect trivial ?_)
  refine (finishes_untilToken (Nat.sub_le fuel 1) ?_).next fun arms => .expect trivial .pure
  exact (consumes_stmtArm hstmt).mono (Nat.sub_le fuel 1)

theorem consumes_stmtAt : Consumes whole P fuel (parseStmtAt stmt fuel) := by
  refine .peek fun l => ?_
  split
  · exact consumes_mutate
  · exact consumes_let
  · exact consumes_ifStmt hstmt
  · exact consumes_matchStmt hstmt
  · exact consumes_return
  · exact consumes_exprStmt

end Statements

theorem consumes_stmt {whole : List Lexeme} {P : List Lexeme → Prop} [Sealed whole] (fuel : Nat) :
    Consumes whole P (fuel - 1) (parseStmt fuel) := by
  induction fuel generalizing P with
  | zero => exact .one (Nat.zero_le 1)
  | succ fuel ih => exact consumes_stmtAt ih

/-! ### Items -/

section Items

variable {whole : List Lexeme} {P : List Lexeme → Prop} {index : LineIndex} {fuel : Nat}
  [Sealed whole]

theorem consumes_arg : Consumes whole P fuel parseArg := by
  refine consumes_ident.next fun key => .peek fun l => ?_
  split
  · next htok =>
    refine .advance htok trivial (.peek fun next => ?_)
    cases hnext : next.token with
    | int n => exact .advance hnext trivial .pure
    | ident i => exact .advance hnext trivial .pure
    | _ => exact .reject
  · exact .pure

theorem consumes_attribute : Consumes whole P fuel (parseAttribute fuel) := by
  refine .expect trivial (consumes_identOrKeyword.finishes.next fun name => .peek fun l => ?_)
  split
  · next htok =>
    refine .advance htok trivial ?_
    exact (consumes_closedList (Nat.sub_le fuel 1) consumes_arg).finishes.next fun args => .pure
  · exact .pure

theorem finishes_attributes :
    Finishes whole P fuel (whileToken .at_ (parseAttribute fuel) fuel) :=
  finishes_whileToken (le_refl fuel) consumes_attribute

theorem consumes_field : Consumes whole P fuel (parseField fuel) :=
  consumes_ident.next fun _ => .expect trivial (finishes_type.next fun _ => .skip trivial .pure)

theorem finishes_fields {stop : Token} :
    Finishes whole P (fuel - 1) (untilToken stop (parseField fuel) fuel) :=
  finishes_untilToken (Nat.sub_le fuel 1) (consumes_field.mono (Nat.sub_le fuel 1))

theorem consumes_struct : Consumes whole P fuel (parseStructDef fuel) :=
  .expect trivial (.ident fun _ => .expect trivial
    (finishes_fields.next fun _ => .expect trivial .pure))

theorem consumes_variant : Consumes whole P fuel (parseVariant fuel) := by
  refine consumes_ident.next fun name => .peek fun l => ?_
  split
  · next htok =>
    refine .advance htok trivial (finishes_fields.next fun fields => .expect trivial ?_)
    exact Finishes.noteIf.next fun _ => .skip trivial .pure
  · exact .skip trivial .pure

theorem consumes_enum : Consumes whole P fuel (parseEnumDef fuel) := by
  refine .expect trivial (.ident fun name => .expect trivial ?_)
  refine (finishes_untilToken (Nat.sub_le fuel 1) ?_).next fun variants => .expect trivial .pure
  exact consumes_variant.mono (Nat.sub_le fuel 1)

theorem consumes_param : Consumes whole P fuel (parseParam fuel) := by
  have hmutability : ∀ l, Finishes whole (NextIs l) fuel (if l.token = .kw .mut then do
      let _ ← advance
      pure .mutable
    else pure .immutable : Parse ParamMutability) := by
    intro l
    split
    · next htok => exact .advance htok trivial .pure
    · exact .pure
  refine .peek fun l => Progress.bind (hmutability l) fun m _ => ?_
  exact consumes_ident.next fun name => .expect trivial (finishes_type.next fun ty => .pure)

omit [Sealed whole] in
theorem finishes_currentSpan {n : Nat} : Finishes whole P n (currentSpan index) :=
  .peek fun _ => .pure

theorem consumes_constraint : Consumes whole P fuel (parseConstraint index fuel) :=
  Progress.bind finishes_currentSpan fun _ _ =>
    (consumes_expr fuel).next fun _ => .skip trivial .pure

theorem consumes_invariant : Consumes whole P fuel (parseInvariant index fuel) := by
  refine Progress.bind finishes_currentSpan fun span _ => Consumes.expect trivial
    (.ident fun name => ?_)
  refine .expect trivial ((finishes_untilToken (Nat.sub_le fuel 1) ?_).next fun constraints =>
    .expect trivial .pure)
  exact consumes_constraint.mono (Nat.sub_le fuel 1)

theorem finishes_clauses {n m : Nat} (hn : n ≤ m) (hm : n ≤ fuel) :
    Finishes whole P n (parseClauses index fuel m) := by
  induction m generalizing P n with
  | zero => exact (Consumes.one (by omega)).finishes
  | succ m ih =>
    have hrest : Finishes whole Anywhere (n - 1) (parseClauses index fuel m) :=
      ih (by omega) (by omega)
    have hexpr : Finishes whole Anywhere (n - 1) (parseExpr fuel) :=
      (consumes_expr fuel).finishes.mono (by omega)
    refine .peek fun l => ?_
    split
    · next htok =>
      refine (Consumes.advance htok trivial (finishes_currentSpan.next fun span => ?_)).finishes
      exact hexpr.next fun e => hrest.next fun c => .pure
    · split
      · next htok =>
        refine (Consumes.advance htok trivial (finishes_currentSpan.next fun span => ?_)).finishes
        exact hexpr.next fun e => hrest.next fun c => .pure
      · exact .pure

theorem finishes_returnTy : Finishes whole P (fuel - 1) (parseReturnTy fuel) := by
  refine .peek fun l => ?_
  split
  · next htok => exact .advance htok trivial (finishes_type.next fun ty => .pure)
  · exact .pure

theorem finishes_body : Finishes whole P (fuel - 1) (parseBody fuel) := by
  refine .peek fun l => ?_
  split
  · next htok => exact .advance htok trivial .pure
  · exact .expect trivial ((finishes_blockRest (consumes_stmt fuel)).next fun body => .pure)

theorem consumes_func (attributes : List Attribute) :
    Consumes whole P fuel (parseFunc index fuel attributes) := by
  refine Progress.bind finishes_currentSpan fun span _ => Consumes.expect trivial
    (.ident fun name => ?_)
  refine .expect trivial ((consumes_closedList (Nat.sub_le fuel 1) ?_).finishes.next
    fun params => ?_)
  · exact consumes_param.mono (Nat.sub_le fuel 1)
  · refine finishes_returnTy.next fun returnTy => ?_
    refine (finishes_clauses (Nat.sub_le fuel 1) (Nat.sub_le fuel 1)).next fun c => ?_
    exact finishes_body.next fun body => .pure

omit [Sealed whole] in
theorem consumes_noAttributes {α : Type} {attributes : List Attribute} {what : String}
    {item : Parse α} (hitem : Consumes whole P fuel item) :
    Consumes whole P fuel (noAttributes attributes what item) := by
  rw [noAttributes]
  split
  · exact hitem
  · exact .reject

theorem consumes_item : Consumes whole P fuel (parseItem index fuel) := by
  refine Progress.bind finishes_attributes fun attributes _ => Consumes.peek fun l => ?_
  split
  · exact consumes_noAttributes (consumes_invariant.next fun inv => .pure)
  · exact (consumes_func attributes).next fun f => .pure
  · exact consumes_noAttributes (consumes_struct.next fun sd => .pure)
  · exact consumes_noAttributes (consumes_enum.next fun ed => .pure)
  · exact .reject

theorem consumes_module : Consumes whole P fuel (parseModule index fuel) := by
  refine Progress.bind finishes_attributes fun attributes _ => Consumes.expect trivial
    (.ident fun name => ?_)
  refine .expect trivial ((finishes_untilToken (Nat.sub_le fuel 1) ?_).next fun items =>
    .expect trivial .pure)
  exact consumes_item.mono (Nat.sub_le fuel 1)

end Items

end Oikos.Telos.Parser
