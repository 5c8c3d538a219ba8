/-
The grammar of expressions and types over tokens, with the levels at which operators bind.
The parser takes what the grammar says and nothing else.
-/
import Oikos.Lib.Brackets
import Oikos.Lib.Reads
import Oikos.Eidos.Parser

namespace Oikos.Eidos

open List Option

/-! ### The grammar -/

/-- How tightly an expression binds, from a whole one to one that needs no parentheses. -/
inductive Level where
  | full
  | or
  | and
  | cmp
  | add
  | mul
  | unary
  | postfix_
  | primary
deriving Repr, DecidableEq

namespace Level

def tighter : Level → Option Level
  | full => some or
  | or => some and
  | and => some cmp
  | cmp => some add
  | add => some mul
  | mul => some unary
  | unary => some postfix_
  | postfix_ => some primary
  | primary => none

/-- The operators of a level, which group to the left. -/
def chainOp : Level → Tok → Option BinOp
  | or => Parser.orOp
  | and => Parser.andOp
  | add => Parser.addOp
  | mul => Parser.mulOp
  | _ => fun _ => none

end Level

/-- What the grammar speaks about; a list has commas between its parts. -/
inductive Phrase where
  | expr (level : Level) (e : Expr)
  | block (e : Expr)
  | field (name : String) (e : Expr)
  | pattern (q : Pattern)
  | type (t : Ty)
  | list (parts : List Phrase)

def Phrase.exprs (es : List Expr) : Phrase :=
  .list (es.map (.expr .full))

def Phrase.fields (fields : List (String × Expr)) : Phrase :=
  .list (fields.map fun f => .field f.1 f.2)

def Phrase.patterns (params : List Pattern) : Phrase :=
  .list (params.map .pattern)

/-- A semicolon that may be left out. -/
def MaybeSemi (ls : List Tok) : Prop :=
  ls = [] ∨ ls = [Tok.semi]

inductive Derives : Phrase → List Tok → Prop
  | letIn {name value lv body lb} : Derives (.expr .full value) lv →
      Derives (.expr .full body) lb →
      Derives (.expr .full (.letIn name value body))
      (Tok.let_ :: .ident name :: .eq :: (lv ++ Tok.semi :: lb))
  | ifThen {cond lc then_ lt els le} : Derives (.expr .full cond) lc → Derives (.block then_) lt →
      Derives (.block els) le →
      Derives (.expr .full (.ifThen cond then_ els)) (Tok.if_ :: (lc ++ (lt ++ Tok.else_ :: le)))
  | block {e ls m} : Derives (.expr .full e) ls → MaybeSemi m →
      Derives (.block e) (Tok.lBrace :: (ls ++ (m ++ [Tok.rBrace])))
  | ret {e ls m} : Derives (.expr .full e) ls → MaybeSemi m →
      Derives (.expr .full (.ret e)) (Tok.return_ :: (ls ++ m))
  | tight {level inner e ls} : level.tighter = some inner → Derives (.expr inner e) ls →
      Derives (.expr level e) ls
  | chain {level inner t op a la b lb} : level.chainOp t = some op → level.tighter = some inner →
      Derives (.expr level a) la → Derives (.expr inner b) lb →
      Derives (.expr level (.bin op a b)) (la ++ t :: lb)
  | cmp {t op a la b lb} : Parser.cmpOp t = some op → Derives (.expr .add a) la →
      Derives (.expr .add b) lb → Derives (.expr .cmp (.bin op a b)) (la ++ t :: lb)
  | un {t op a ls} : Parser.unaryOp t = some op → Derives (.expr .unary a) ls →
      Derives (.expr .unary (.un op a)) (t :: ls)
  | method {recv lr name} : Derives (.expr .postfix_ recv) lr →
      Derives (.expr .postfix_ (.method recv name [])) (lr ++ [Tok.dot, .ident name])
  | methodArgs {recv lr name args la} : Derives (.expr .postfix_ recv) lr →
      Derives (.exprs args) la →
      Derives (.expr .postfix_ (.method recv name args))
        (lr ++ Tok.dot :: .ident name :: .lParen :: (la ++ [Tok.rParen]))
  | call {f lf args la} : Derives (.expr .postfix_ (.var f)) lf → Derives (.exprs args) la →
      Derives (.expr .postfix_ (.call f args)) (lf ++ Tok.lParen :: (la ++ [Tok.rParen]))
  | cast {value lv t lt} : Derives (.expr .postfix_ value) lv → Derives (.type t) lt →
      Derives (.expr .postfix_ (.cast value t)) (lv ++ Tok.as_ :: lt)
  | num {n} : Derives (.expr .primary (.num n)) [Tok.num n]
  | true_ : Derives (.expr .primary (.bool true)) [Tok.ident "true"]
  | false_ : Derives (.expr .primary (.bool false)) [Tok.ident "false"]
  | var {s} : s ≠ "true" → s ≠ "false" → Derives (.expr .primary (.var s)) [Tok.ident s]
  | arrayLit {es ls} : Derives (.exprs es) ls →
      Derives (.expr .primary (.arrayLit es)) (Tok.lBracket :: (ls ++ [Tok.rBracket]))
  | record {fields ls} : Derives (.fields fields) ls →
      Derives (.expr .primary (.record fields)) (Tok.lBrace :: (ls ++ [Tok.rBrace]))
  | paren {e ls} : Derives (.expr .full e) ls →
      Derives (.expr .primary e) (Tok.lParen :: (ls ++ [Tok.rParen]))
  | lambda {params lp body lb} : Derives (.patterns params) lp → Derives (.expr .full body) lb →
      Derives (.expr .primary (.lambda params body)) (Tok.pipe :: (lp ++ Tok.pipe :: lb))
  | field {name e ls} : Derives (.expr .full e) ls →
      Derives (.field name e) (Tok.ident name :: .colon :: ls)
  | patternVar {s} : Derives (.pattern (.var s)) [Tok.ident s]
  | patternTuple {ps ls} : Derives (.patterns ps) ls →
      Derives (.pattern (.tuple ps)) (Tok.lParen :: (ls ++ [Tok.rParen]))
  | refine {bind t lt pred lq} : Derives (.type t) lt → Derives (.expr .full pred) lq →
      Derives (.type (.refine bind t pred))
        (Tok.lBrace :: .ident bind :: .colon :: (lt ++ Tok.pipe :: (lq ++ [Tok.rBrace])))
  | arrayType {t lt n length} : Derives (.type t) lt → Parser.lengthOf n = some length →
      Derives (.type (.array t length)) (Tok.array :: .lt :: (lt ++ [Tok.comma, .num n, .gt]))
  | base {s} : isBaseType s = true → Derives (.type (.base s)) [Tok.ident s]
  | named {s} : isBaseType s = false → Derives (.type (.named s)) [Tok.ident s]
  | noParts : Derives (.list []) []
  | onePart {part ls} : Derives part ls → Derives (.list [part]) ls
  | parts {part ls next parts ms} : Derives part ls → Derives (.list (next :: parts)) ms →
      Derives (.list (part :: next :: parts)) (ls ++ Tok.comma :: ms)

/-! ### What the parser takes -/

namespace Parser

/-- A successful run takes tokens off the front that are related to its result. -/
def Takes {α : Type} (p : Parse α) (G : α → List Tok → Prop) : Prop :=
  Reads Eq (fun _ => Eq) p G

/-- The tokens begin with this one. -/
def Peeked (next : Option Tok) (s ms : List Tok) : Prop :=
  s = ms ∧ s.head? = next

/-- The tokens begin with these two. -/
def Ahead (next after : Option Tok) (s ms : List Tok) : Prop :=
  Peeked next s ms ∧ s.tail.head? = after

section Basics

variable {α β : Type} {p : Parse α} {f : Option Tok → Parse β} {next : Option Tok}
  {G : α → List Tok → Prop} {K : β → List Tok → Prop} {E : List Tok → List Tok → Prop}
  {platform : Platform} {t : Tok}

theorem reads_outOfFuel : Reads E (fun _ => Eq) outOfFuel G :=
  fun _ _ _ _ _ h => nomatch h

theorem reads_reject {e : ParseError} : Reads E (fun _ => Eq) (reject e) G :=
  fun _ _ _ _ _ h => nomatch h

theorem reads_unexpected {expected : String} :
    Reads E (fun _ => Eq) (unexpected platform expected next) G := by
  cases next <;> exact reads_reject

theorem takes_peek (h : ∀ next, Reads (Peeked next) (fun _ => Eq) (f next) K) :
    Takes (peek >>= f) K := by
  rintro ts _ b s' rfl hrun
  exact h ts.head? ⟨rfl, rfl⟩ hrun

theorem reads_advance (h : Takes (f (some t)) fun b ls => K b (t :: ls)) :
    Reads (Peeked (some t)) (fun _ => Eq) (advance >>= f) K := by
  rintro ts _ b s' ⟨rfl, hnext⟩ hrun
  obtain ⟨rest, rfl⟩ : ∃ rest, ts = t :: rest := head?_eq_some_iff.mp hnext
  obtain ⟨ls, left, rfl, hF, hK⟩ := h rfl hrun
  exact ⟨t :: ls, left, rfl, hF, hK⟩

theorem reads_peek2 (h : ∀ after, Reads (Ahead next after) (fun _ => Eq) (f after) K) :
    Reads (Peeked next) (fun _ => Eq) (peek2 >>= f) K :=
  fun ts _ _ _ hpeeked hrun => h ts.tail.head? ⟨hpeeked, rfl⟩ hrun

theorem reads_advance_first {after : Option Tok}
    (h : Reads (Peeked after) (fun _ => Eq) (f (some t)) fun b ls => K b (t :: ls)) :
    Reads (Ahead (some t) after) (fun _ => Eq) (advance >>= f) K := by
  rintro ts _ b s' ⟨⟨rfl, hnext⟩, hafter⟩ hrun
  obtain ⟨rest, rfl⟩ : ∃ rest, ts = t :: rest := head?_eq_some_iff.mp hnext
  obtain ⟨ls, left, hls, hF, hK⟩ := h ⟨rfl, hafter⟩ hrun
  exact ⟨t :: ls, left, congrArg (t :: ·) hls, hF, hK⟩

theorem takes_advance (hsome : ∀ t, Takes (f (some t)) fun b ls => K b (t :: ls))
    (hnone : Takes (f none) K) : Takes (advance >>= f) K := by
  rintro ts _ b s' rfl hrun
  cases ts with
  | nil => exact hnone rfl hrun
  | cons t ts => exact reads_advance (hsome t) ⟨rfl, rfl⟩ hrun

theorem reads_back (h : Takes p G) : Reads (Peeked next) (fun _ => Eq) p G :=
  h.pre fun _ _ hpeeked => hpeeked.1

theorem takes_eat : Takes (eat platform t) fun _ ls => ls = [t] := by
  apply takes_peek
  intro next
  split
  · rename_i hnext
    cases hnext
    exact reads_advance (Reads.done rfl)
  · exact reads_unexpected

/-- A token that has to be there. -/
theorem takes_eat_then {q : Parse β} (h : Takes q fun b ls => K b (t :: ls)) :
    Takes (eat platform t >>= fun _ => q) K := by
  apply takes_eat.bind
  rintro _ _ rfl
  exact h

theorem takes_eatIdent : Takes (eatIdent platform) fun s ls => ls = [Tok.ident s] := by
  apply takes_advance
  · intro t
    cases t with
    | ident s => exact Reads.done rfl
    | _ => exact reads_unexpected
  · exact reads_unexpected

theorem takes_eatIdent_then {q : String → Parse β}
    (h : ∀ s, Takes (q s) fun b ls => K b (Tok.ident s :: ls)) :
    Takes (eatIdent platform >>= q) K := by
  apply takes_eatIdent.bind
  rintro s _ rfl
  exact h s

theorem takes_skip : Takes (skip .semi) fun _ ls => MaybeSemi ls := by
  apply takes_peek
  intro next
  split
  · rename_i hnext
    cases hnext
    exact reads_advance (Reads.done (Or.inr rfl))
  · exact reads_back (Reads.done (Or.inl rfl))

end Basics

section Lists

variable {α : Type} {item : Parse α} {part : α → Phrase} {fuel : Nat} {platform : Platform}

theorem takes_commaList (hitem : Takes item fun a ls => Derives (part a) ls) :
    Takes (commaList item fuel) fun as ls => Derives (.list (as.map part)) ls ∧ as ≠ [] := by
  induction fuel with
  | zero => exact reads_outOfFuel
  | succ fuel ih =>
    apply hitem.bind
    intro a la ha
    apply takes_peek
    intro next
    split
    · rename_i hnext
      cases hnext
      apply reads_advance
      apply ih.bind
      rintro as ls ⟨has, hne⟩
      apply Reads.done
      cases as with
      | nil => exact absurd rfl hne
      | cons a' as =>
        rw [append_nil]
        exact ⟨.parts ha has, cons_ne_nil _ _⟩
    · apply reads_back
      apply Reads.done
      rw [append_nil]
      exact ⟨.onePart ha, cons_ne_nil _ _⟩

theorem takes_closedList {close : Tok} (hitem : Takes item fun a ls => Derives (part a) ls) :
    Takes (closedList platform close item fuel) fun as ls =>
      ∃ inner, ls = inner ++ [close] ∧ Derives (.list (as.map part)) inner := by
  apply takes_peek
  intro next
  split
  · apply reads_back
    apply takes_eat_then
    exact Reads.done ⟨[], rfl, .noParts⟩
  · apply reads_back
    apply (takes_commaList hitem).bind
    rintro as inner ⟨has, -⟩
    apply takes_eat_then
    exact Reads.done ⟨inner, rfl, has⟩

end Lists

/-! ### Types and patterns -/

section Inside

variable {p : Platform} {ty : Parse Ty} {expr : Parse Expr} {fuel : Nat}

theorem takes_paramPattern : Takes (parseParamPattern p fuel) fun q ls => Derives
    (.pattern q) ls := by
  induction fuel with
  | zero => exact reads_outOfFuel
  | succ fuel ih =>
    apply takes_peek
    intro next
    split
    · rename_i hnext
      cases hnext
      apply reads_advance
      apply (takes_closedList ih).bind
      rintro ps _ ⟨inner, rfl, hps⟩
      apply Reads.done
      rw [append_nil]
      exact .patternTuple hps
    · apply reads_back
      apply takes_eatIdent_then
      intro v
      exact Reads.done .patternVar

variable (hty : Takes ty fun t ls => Derives (.type t) ls)
  (hexpr : Takes expr fun e ls => Derives (.expr .full e) ls)

section Types

include hty hexpr

theorem takes_typeAt : Takes (parseTypeAt p ty expr) fun t ls => Derives (.type t) ls := by
  apply takes_peek
  intro next
  apply reads_peek2
  intro after
  split
  · -- a refinement
    rename_i hnext
    cases hnext
    apply reads_advance_first
    apply reads_back
    apply takes_eatIdent_then
    intro bind
    apply takes_eat_then
    apply hty.bind
    intro inner lt ht
    apply takes_eat_then
    apply hexpr.bind
    intro pred lq hq
    apply takes_eat_then
    apply Reads.done
    exact .refine ht hq
  · split
    · -- an array
      rename_i hboth
      obtain ⟨hnext, hafter⟩ := hboth
      cases hnext
      cases hafter
      apply reads_advance_first
      apply reads_advance
      apply hty.bind
      intro inner lt ht
      apply takes_eat_then
      apply takes_advance
      · intro t
        cases t with
        | num n =>
          dsimp only
          split
          · rename_i length hlength
            apply takes_eat_then
            exact Reads.done (.arrayType ht hlength)
          · exact reads_reject
        | _ => exact reads_unexpected
      · exact reads_unexpected
    · refine Reads.pre (fun _ _ hahead => hahead.1.1) (takes_advance ?_ reads_unexpected)
      intro t
      cases t with
      | ident s =>
        apply Reads.done
        cases hbase : isBaseType s with
        | true => exact .base hbase
        | false => exact .named hbase
      | _ => exact reads_unexpected

end Types

theorem takes_binLoop {level inner : Level} {operand : Parse Expr} {rounds : Nat} {a : Expr}
    {la : List Tok} (htighter : level.tighter = some inner)
    (hoperand : Takes operand fun e ls => Derives (.expr inner e) ls)
    (ha : Derives (.expr level a) la) :
    Takes (binLoop level.chainOp operand rounds a) fun e ls => Derives (.expr level e)
    (la ++ ls) := by
  induction rounds generalizing a la with
  | zero => exact reads_outOfFuel
  | succ rounds ih =>
    apply takes_peek
    intro next
    cases next with
    | none =>
      apply reads_back
      apply Reads.done
      rw [append_nil]
      exact ha
    | some t =>
      cases hop : level.chainOp t with
      | none =>
        simp only [bind_some, hop]
        apply reads_back
        apply Reads.done
        rw [append_nil]
        exact ha
      | some op =>
        simp only [bind_some, hop]
        apply reads_advance
        apply hoperand.bind
        intro b lb hb
        apply (ih (.chain hop htighter ha hb)).mono
        intro e ls he
        simpa using he

theorem takes_binChain {operand : Parse Expr} (level : Level) {inner : Level}
    (htighter : level.tighter = some inner)
    (hoperand : Takes operand fun e ls => Derives (.expr inner e) ls) :
    Takes (binChain level.chainOp operand fuel) fun e ls => Derives (.expr level e) ls := by
  apply hoperand.bind
  intro a la ha
  exact takes_binLoop htighter hoperand (.tight htighter ha)

section Expressions

include hexpr

theorem takes_exprs {close : Tok} :
    Takes (closedList p close expr fuel) fun es ls =>
      ∃ inner, ls = inner ++ [close] ∧ Derives (.exprs es) inner :=
  takes_closedList hexpr

theorem takes_field : Takes (parseField p expr) fun f ls => Derives (.field f.1 f.2) ls := by
  apply takes_eatIdent_then
  intro name
  apply takes_eat_then
  apply hexpr.bind
  intro e ls he
  apply Reads.done
  rw [append_nil]
  exact .field he

theorem takes_primary : Takes (parsePrimary p expr fuel) fun e ls => Derives
    (.expr .primary e) ls := by
  apply takes_advance
  · intro t
    cases t with
    | num n => exact Reads.done .num
    | ident s =>
      dsimp only
      split
      · rename_i htrue
        cases htrue
        exact Reads.done .true_
      · split
        · rename_i hfalse
          cases hfalse
          exact Reads.done .false_
        · split
          · exact reads_reject
          · rename_i htrue hfalse _
            exact Reads.done (.var htrue hfalse)
    | lBracket =>
      apply (takes_exprs hexpr).bind
      rintro es _ ⟨inner, rfl, hes⟩
      apply Reads.done
      rw [append_nil]
      exact .arrayLit hes
    | lBrace =>
      apply (takes_closedList (takes_field hexpr)).bind
      rintro fields _ ⟨inner, rfl, hfields⟩
      apply Reads.done
      rw [append_nil]
      exact .record hfields
    | lParen =>
      apply hexpr.bind
      intro e ls he
      apply takes_eat_then
      exact Reads.done (.paren he)
    | pipe =>
      apply (takes_closedList takes_paramPattern).bind
      rintro params _ ⟨lp, rfl, hparams⟩
      apply hexpr.bind
      intro body lb hbody
      apply Reads.done
      simpa using Derives.lambda hparams hbody
    | _ => exact reads_unexpected
  · exact reads_unexpected

theorem takes_methodArgs :
    Takes (parseMethodArgs p expr fuel) fun args ls =>
      (args = [] ∧ ls = []) ∨ ∃ inner, ls = .lParen :: (inner ++ [Tok.rParen]) ∧
        Derives (.exprs args) inner := by
  apply takes_peek
  intro next
  split
  · rename_i hnext
    cases hnext
    apply reads_advance
    apply (takes_exprs hexpr).mono
    rintro args _ ⟨inner, rfl, hargs⟩
    exact Or.inr ⟨inner, rfl, hargs⟩
  · apply reads_back
    exact Reads.done (Or.inl ⟨rfl, rfl⟩)

include hty

theorem takes_postfixLoop {rounds : Nat} {e : Expr} {le : List Tok}
    (he : Derives (.expr .postfix_ e) le) :
    Takes (postfixLoop p ty expr fuel rounds e) fun e' ls => Derives (.expr .postfix_ e')
    (le ++ ls) := by
  induction rounds generalizing e le with
  | zero => exact reads_outOfFuel
  | succ rounds ih =>
    apply takes_peek
    intro next
    split
    · -- a method
      rename_i hnext
      cases hnext
      apply reads_advance
      apply takes_eatIdent_then
      intro name
      apply (takes_methodArgs hexpr).bind
      rintro args _ (⟨rfl, rfl⟩ | ⟨inner, rfl, hargs⟩)
      · apply (ih (.method he)).mono
        intro e' ls he'
        simpa using he'
      · apply (ih (.methodArgs he hargs)).mono
        intro e' ls he'
        simpa using he'
    · split
      · -- arguments
        rename_i hnext
        cases hnext
        apply reads_advance
        apply (takes_exprs hexpr).bind
        rintro args _ ⟨inner, rfl, hargs⟩
        cases e with
        | var f =>
          apply (ih (.call he hargs)).mono
          intro e' ls he'
          simpa using he'
        | _ => exact reads_reject
      · split
        · -- a cast
          rename_i hnext
          cases hnext
          apply reads_advance
          apply hty.bind
          intro t lt ht
          apply (ih (.cast he ht)).mono
          intro e' ls he'
          simpa using he'
        · apply reads_back
          apply Reads.done
          rw [append_nil]
          exact he

theorem takes_postfixed : Takes (parsePostfix p ty expr fuel) fun e ls => Derives
    (.expr .postfix_ e) ls := by
  apply (takes_primary hexpr).bind
  intro e le he
  exact takes_postfixLoop hty hexpr (.tight rfl he)

theorem takes_unary {signs : Nat} :
    Takes (parseUnary p ty expr fuel signs) fun e ls => Derives (.expr .unary e) ls := by
  induction signs with
  | zero => exact reads_outOfFuel
  | succ signs ih =>
    have hpostfixed : Takes (parsePostfix p ty expr fuel) fun e ls => Derives (.expr .unary e) ls :=
      (takes_postfixed hty hexpr).mono fun _ _ he => .tight rfl he
    apply takes_peek
    intro next
    cases next with
    | none => exact reads_back hpostfixed
    | some t =>
      cases hop : unaryOp t with
      | none =>
        simp only [bind_some, hop]
        exact reads_back hpostfixed
      | some op =>
        simp only [bind_some, hop]
        apply reads_advance
        apply ih.bind
        intro a la ha
        apply Reads.done
        rw [append_nil]
        exact .un hop ha

theorem takes_add : Takes (parseAdd p ty expr fuel) fun e ls => Derives (.expr .add e) ls :=
  takes_binChain .add rfl (takes_binChain .mul rfl (takes_unary hty hexpr))

theorem takes_cmp : Takes (parseCmp p ty expr fuel) fun e ls => Derives (.expr .cmp e) ls := by
  apply (takes_add hty hexpr).bind
  intro a la ha
  apply takes_peek
  intro next
  cases next with
  | none =>
    apply reads_back
    apply Reads.done
    rw [append_nil]
    exact .tight rfl ha
  | some t =>
    cases hop : cmpOp t with
    | none =>
      simp only [bind_some, hop]
      apply reads_back
      apply Reads.done
      rw [append_nil]
      exact .tight rfl ha
    | some op =>
      simp only [bind_some, hop]
      apply reads_advance
      apply (takes_add hty hexpr).bind
      intro b lb hb
      apply Reads.done
      rw [append_nil]
      exact .cmp hop ha hb

theorem takes_or : Takes (parseOr p ty expr fuel) fun e ls => Derives (.expr .or e) ls :=
  takes_binChain .or rfl (takes_binChain .and rfl (takes_cmp hty hexpr))

omit hty in
theorem takes_block : Takes (parseBlock p expr) fun e ls => Derives (.block e) ls := by
  apply takes_eat_then
  apply hexpr.bind
  intro e ls he
  apply takes_skip.bind
  intro _ m hm
  apply takes_eat_then
  apply Reads.done
  exact .block he hm

theorem takes_letIfReturn :
    Takes (parseLetIfReturn p ty expr fuel) fun e ls => Derives (.expr .full e) ls := by
  apply takes_peek
  intro next
  split
  · rename_i hnext
    cases hnext
    apply reads_advance
    apply takes_eatIdent_then
    intro name
    apply takes_eat_then
    apply hexpr.bind
    intro value lv hvalue
    apply takes_eat_then
    apply hexpr.bind
    intro body lb hbody
    apply Reads.done
    rw [append_nil]
    exact .letIn hvalue hbody
  · split
    · rename_i hnext
      cases hnext
      apply reads_advance
      apply hexpr.bind
      intro cond lc hcond
      apply (takes_block hexpr).bind
      intro then_ lt hthen
      apply takes_eat_then
      apply (takes_block hexpr).bind
      intro els le hels
      apply Reads.done
      rw [append_nil]
      exact .ifThen hcond hthen hels
    · split
      · rename_i hnext
        cases hnext
        apply reads_advance
        apply hexpr.bind
        intro e ls he
        apply takes_skip.bind
        intro _ m hm
        apply Reads.done
        rw [append_nil]
        exact .ret he hm
      · apply reads_back
        exact (takes_or hty hexpr).mono fun _ _ he => .tight rfl he

end Expressions

end Inside

theorem takes_type_expr {p : Platform} (fuel : Nat) :
    ∀ depth, (Takes (parseType p fuel depth) fun t ls => Derives (.type t) ls) ∧
      Takes (parseExpr p fuel depth) fun e ls => Derives (.expr .full e) ls := by
  induction fuel with
  | zero => exact fun _ => ⟨reads_outOfFuel, reads_outOfFuel⟩
  | succ fuel ih =>
    intro depth
    constructor
    · exact takes_typeAt (ih depth).1 (ih depth).2
    · rw [parseExpr]
      split
      · exact reads_reject
      · exact takes_letIfReturn (ih (depth + 1)).1 (ih (depth + 1)).2

theorem takes_expr {p : Platform} {fuel depth : Nat} :
    Takes (parseExpr p fuel depth) fun e ls => Derives (.expr .full e) ls :=
  (takes_type_expr fuel depth).2

end Parser

end Oikos.Eidos
