/-
Expressions as SQL text.  A plain expression is written out either with
parentheses around every part or with no more of them than its operators need:
`NOT` binds tighter than `AND`, `AND` tighter than `OR`, and both associate to
the left.  The expression parser returns the expression from either text.
-/
import Oikos.Archon.Relational.ParserComplete

namespace Oikos.Archon.Relational

open List

/-! ### Lexemes as text -/

namespace Lexeme

def text : Lexeme → List Char
  | .tok _ text => text
  | .bracket content => '[' :: (content ++ [']'])

def word (s : String) : Lexeme :=
  .tok (.ident s) s.toList

def int (v : Int64) : Lexeme :=
  .tok (.int v) (displayInt v)

def quoted (s : String) : Lexeme :=
  .tok (.text s) (quote :: (s.toList ++ [quote]))

def lparen : Lexeme :=
  .tok .lparen ['(']

def rparen : Lexeme :=
  .tok .rparen [')']

def comma : Lexeme :=
  .tok .comma [',']

end Lexeme

/-- No blank follows an opening parenthesis or precedes a closing one or a comma. -/
def gap (m k : Lexeme) : List Char :=
  if m = .lparen ∨ k = .rparen ∨ k = .comma then [] else [' ']

/-- The lexemes one after the other. -/
def spell : List Lexeme → List Char
  | [] => []
  | [m] => m.text
  | m :: k :: ms => m.text ++ (gap m k ++ spell (k :: ms))

/-- What may follow a lexeme without changing it. -/
def Loose (rem : List Char) : Prop :=
  ∀ c, rem.head? = some c → c = ' ' ∨ c = ')' ∨ c = ','

structure Spelled (m : Lexeme) : Prop where
  settled : m.Settled
  reads : ∀ rem, Loose rem → lexeme (m.text ++ rem) = some (m, rem)

variable {ms : List Lexeme} {rem : List Char} {s : String} {e : Expr}

theorem tokens_blank_cons {cs : List Char} (h : Tokens cs ms) : Tokens (' ' :: cs) ms := by
  rw [← tokens_dropWhile] at h ⊢
  exact h

theorem lexeme_of_scan {c : Char} {cs text : List Char} {t : Tok}
    (hblank : isAsciiWhitespace c = false) (hbracket : c ≠ '[')
    (hscan : scan c (cs ++ rem) = .ok (t, rem)) (htext : text = c :: cs) :
    lexeme (text ++ rem) = some (.tok t text, rem):= by
  have hdrop : (c :: (cs ++ rem)).dropWhile isAsciiWhitespace = c :: (cs ++ rem) := by
    simp [hblank]
  have htake : (c :: (cs ++ rem)).take ((c :: (cs ++ rem)).length - rem.length) = c :: cs := by
    rw [← cons_append, length_append, Nat.add_sub_cancel]
    exact take_left
  rw [htext, cons_append]
  simp only [lexeme, hdrop, hbracket, if_false, hscan, htake]

theorem lexeme_lparen (rem : List Char) :
    lexeme (Lexeme.lparen.text ++ rem) = some (.lparen, rem) :=
  lexeme_of_scan (c := '(') rfl (by decide) rfl rfl

theorem spelled_lparen : Spelled .lparen :=
  ⟨trivial, fun rem _ => lexeme_lparen rem⟩

theorem spelled_rparen : Spelled .rparen :=
  ⟨trivial, fun _ _ => lexeme_of_scan (c := ')') rfl (by decide) rfl rfl⟩

theorem spelled_comma : Spelled .comma :=
  ⟨trivial, fun _ _ => lexeme_of_scan (c := ',') rfl (by decide) rfl rfl⟩

theorem spell_cons (m : Lexeme) (ms : List Lexeme) : ∃ rem, spell (m :: ms) = m.text ++ rem := by
  cases ms with
  | nil => exact ⟨[], (append_nil _).symm⟩
  | cons k ms => exact ⟨_, rfl⟩

theorem loose_gap {m : Lexeme} (hm : m ≠ .lparen) (k : Lexeme) (ms : List Lexeme) :
    Loose (gap m k ++ spell (k :: ms)) := by
  obtain ⟨rem, hrem⟩ := spell_cons k ms
  unfold gap
  split
  · rename_i hclose
    rcases hclose with h | rfl | rfl
    · exact absurd h hm
    · rw [hrem]
      rintro c ⟨⟩
      exact .inr (.inl rfl)
    · rw [hrem]
      rintro c ⟨⟩
      exact .inr (.inr rfl)
  · rintro c ⟨⟩
    exact .inl rfl

theorem tokens_spell (h : ∀ m ∈ ms, Spelled m) : Tokens (spell ms) ms := by
  induction ms with
  | nil => exact tokens_nil.mpr rfl
  | cons m ms ih =>
    have hm := h m mem_cons_self
    have hms := ih fun k hk => h k (mem_cons_of_mem m hk)
    cases ms with
    | nil =>
      refine tokens_cons.mpr ⟨[], ?_, tokens_nil.mpr rfl⟩
      have hread := hm.reads [] nofun
      rw [append_nil] at hread
      exact hread
    | cons k ms =>
      refine tokens_cons.mpr ⟨gap m k ++ spell (k :: ms), ?_, ?_⟩
      · by_cases hopen : m = .lparen
        · rw [hopen]
          exact lexeme_lparen _
        · exact hm.reads _ (loose_gap hopen k ms)
      · unfold gap
        split
        · exact hms
        · exact tokens_blank_cons hms

/-! ### Words, integers and texts -/

theorem loose_stops (h : Loose rem) (c : Char) (hc : rem.head? = some c) :
    isWordChar c = false ∧ c.isDigit = false := by
  rcases h c hc with rfl | rfl | rfl <;> decide

theorem spelled_word (h : IsWordText s) : Spelled (.word s) := by
  obtain ⟨c, cs, hs, hc, hcs⟩ := h
  refine ⟨trivial, fun rem hrem => ?_⟩
  obtain ⟨htake, hdrop⟩ := takeWhile_append_stop hcs fun d hd => (loose_stops hrem d hd).1
  have hscan : scan c (cs ++ rem) = .ok (.ident s, rem) := by
    rw [scan_word hc, htake, hdrop, ← hs, String.ofList_toList]
  have hblank : isAsciiWhitespace c = false := by
    apply isWordChar_not_blank
    simp only [isWordChar, Char.isAlphanum, Bool.or_eq_true] at hc ⊢
    exact hc.imp .inl id
  have hbracket : c ≠ '[' := by
    rintro rfl
    cases hc
  exact lexeme_of_scan hblank hbracket hscan hs

theorem readsInt_display (v : Int64) (hrem : Loose rem) :
    ReadsInt (decide (v.toInt < 0)) (Nat.toDigits 10 v.toInt.natAbs) rem v := by
  have hlow : -9223372036854775808 ≤ v.toInt := Int64.le_toInt v
  have hhigh : v.toInt < 9223372036854775808 := Int64.toInt_lt v
  refine ⟨fun c => Nat.isDigit_of_mem_toDigits (by omega) (by omega),
    fun c hc => (loose_stops hrem c hc).2, ?_, ?_⟩
  · cases rem with
    | nil => rfl
    | cons c rem =>
      have hdot : c ≠ '.' := by
        rcases hrem c rfl with rfl | rfl | rfl <;> decide
      simp [scanFraction, hdot]
  · simp only [i64FromStr, List.isEmpty_iff, Nat.toDigits_ne_nil, if_false, digitsValue_toDigits,
      decide_eq_true_eq]
    by_cases hneg : v.toInt < 0
    · have hvalue : -(v.toInt.natAbs : Int) = v.toInt := by omega
      rw [if_pos hneg, if_neg (by omega), hvalue, Int64.ofInt_toInt]
    · have hvalue : (v.toInt.natAbs : Int) = v.toInt := by omega
      rw [if_neg hneg, if_neg (by omega), hvalue, Int64.ofInt_toInt]

theorem spelled_int (v : Int64) : Spelled (.int v) := by
  refine ⟨rfl, fun rem hrem => ?_⟩
  have hread := lexeme_int (readsInt_display v hrem)
  have hdisplay : signText (decide (v.toInt < 0)) ++ Nat.toDigits 10 v.toInt.natAbs =
    displayInt v := by
    by_cases hneg : v.toInt < 0 <;> simp [displayInt, signText, hneg]
  rw [hdisplay] at hread
  exact hread

theorem spelled_quoted (h : QuoteFree s) : Spelled (.quoted s) := by
  refine ⟨trivial, fun rem _ => ?_⟩
  have hquote : ∀ cs : List Char, scan quote cs =
      if cs.contains quote then
        .ok (.text (String.ofList (cs.takeWhile (· != quote))), (cs.dropWhile (· != quote)).tail)
      else .error "unterminated text literal" := fun _ => rfl
  obtain ⟨htake, hdrop⟩ : (s.toList ++ quote :: rem).takeWhile (· != quote) = s.toList ∧
      (s.toList ++ quote :: rem).dropWhile (· != quote) = quote :: rem := by
    apply takeWhile_append_stop
    · intro c hc
      exact bne_iff_ne.mpr fun heq => h (heq ▸ hc)
    · rintro c ⟨⟩
      decide
  have hscan : scan quote (s.toList ++ [quote] ++ rem) = .ok (.text s, rem) := by
    rw [append_assoc, singleton_append, hquote, htake, hdrop, String.ofList_toList,
      if_pos (by simp)]
    rfl
  exact lexeme_of_scan (c := quote) (by decide) (by decide) hscan rfl

/-! ### Operators -/

def CmpOp.text : CmpOp → List Char
  | .eq => ['=']
  | .ne => ['!', '=']
  | .lt => ['<']
  | .le => ['<', '=']
  | .gt => ['>']
  | .ge => ['>', '=']

def CmpOp.lexeme (op : CmpOp) : Lexeme :=
  .tok (.op op) op.text

theorem spelled_op (op : CmpOp) : Spelled op.lexeme := by
  refine ⟨trivial, fun rem hrem => ?_⟩
  have hnot : ∀ c, c ≠ ' ' ∧ c ≠ ')' ∧ c ≠ ',' → rem.head? ≠ some c := by
    intro c ⟨hspace, hparen, hcomma⟩ hc
    rcases hrem c hc with h | h | h
    · exact hspace h
    · exact hparen h
    · exact hcomma h
  have hequals := hnot '=' (by decide)
  have hlt : scan '<' rem = .ok (.op .lt, rem) := by
    have hif : scan '<' rem = if rem.head? = some '=' then .ok (.op .le, rem.tail)
        else if rem.head? = some '>' then .ok (.op .ne, rem.tail) else .ok (.op .lt, rem) := rfl
    rw [hif, if_neg hequals, if_neg (hnot '>' (by decide))]
  have hgt : scan '>' rem = .ok (.op .gt, rem) := by
    have hif : scan '>' rem = if rem.head? = some '=' then .ok (.op .ge, rem.tail)
        else .ok (.op .gt, rem) := rfl
    rw [hif, if_neg hequals]
  cases op with
  | eq => exact lexeme_of_scan (c := '=') rfl (by decide) rfl rfl
  | ne => exact lexeme_of_scan (c := '!') rfl (by decide) rfl rfl
  | le => exact lexeme_of_scan (c := '<') rfl (by decide) rfl rfl
  | ge => exact lexeme_of_scan (c := '>') rfl (by decide) rfl rfl
  | lt => exact lexeme_of_scan rfl (by decide) (show scan '<' ([] ++ rem) = _ from hlt) rfl
  | gt => exact lexeme_of_scan rfl (by decide) (show scan '>' ([] ++ rem) = _ from hgt) rfl

/-! ### Expressions -/

def Literal.lexeme : Literal → Lexeme
  | .int v => .int v
  | .text s => .quoted s
  | _ => .word "NULL"

/-- Integers separated by commas. -/
def listedInts : List Int64 → List Lexeme
  | [] => []
  | [v] => [.int v]
  | v :: w :: vs => .int v :: .comma :: listedInts (w :: vs)

def bracketed (ms : List Lexeme) : List Lexeme :=
  .lparen :: (ms ++ [.rparen])

namespace Expr

def test : Expr → List Lexeme
  | .cmp column op value => [.word column, op.lexeme, value.lexeme]
  | .cmpColumn left op right => [.word left, op.lexeme, .word right]
  | .isNull column negated =>
    if negated then [.word column, .word "IS", .word "NOT", .word "NULL"]
    else [.word column, .word "IS", .word "NULL"]
  | .like column pattern => [.word column, .word "LIKE", .quoted pattern]
  | .inInt column values => .word column :: .word "IN" :: bracketed (listedInts values)
  | .betweenInt column low high =>
    [.word column, .word "BETWEEN", .int low, .word "AND", .int high]
  | _ => []

/-- The expression with parentheses around every part of it. -/
def parenthesised : Expr → List Lexeme
  | .and l r => bracketed (l.parenthesised ++ .word "AND" :: r.parenthesised)
  | .or l r => bracketed (l.parenthesised ++ .word "OR" :: r.parenthesised)
  | .not inner => bracketed (.word "NOT" :: inner.parenthesised)
  | e => bracketed e.test

/-- The expression where one of this rank is expected: a disjunction is put in
parentheses under `AND` and `NOT`, and so is a conjunction under `NOT` and to
the right of `AND`. -/
def bare : Rank → Expr → List Lexeme
  | rank, .or l r =>
    let ms := l.bare .disj ++ .word "OR" :: r.bare .conj
    match rank with
    | .disj => ms
    | _ => bracketed ms
  | rank, .and l r =>
    let ms := l.bare .conj ++ .word "AND" :: r.bare .unary
    match rank with
    | .unary => bracketed ms
    | _ => ms
  | _, .not inner => .word "NOT" :: inner.bare .unary
  | _, e => e.test

end Expr

/-- A keyword. -/
theorem isWord_word {w : String} (h : eqIgnoreCase s w = true) : (Lexeme.word s).IsWord w :=
  ⟨s, _, rfl, h⟩

theorem derives_bracketed {q : List (List Clause)}
    (h : Derives (.expr .disj e) ms q) : Derives (.expr .unary e) (bracketed ms) q :=
  .paren ⟨_, rfl⟩ h ⟨_, rfl⟩

theorem derives_at {q : List (List Clause)}
    (h : Derives (.expr .unary e) ms q) (rank : Rank) : Derives (.expr rank e) ms q := by
  cases rank with
  | disj => exact .disj (.conj h)
  | conj => exact .conj h
  | unary => exact h

theorem sepBy_listedInts {values : List Int64} (h : values ≠ []) :
    SepBy (Lexeme.Is .comma) (fun v ms => ∃ m, ms = [m] ∧ m.Is (.int v)) values
    (listedInts values) := by
  induction values with
  | nil => exact absurd rfl h
  | cons v vs ih =>
    cases vs with
    | nil => exact .one ⟨.int v, rfl, _, rfl⟩
    | cons w vs =>
      have hfirst : ∃ m, [Lexeme.int v] = [m] ∧ m.Is (.int v) := ⟨.int v, rfl, _, rfl⟩
      exact .cons hfirst ⟨_, rfl⟩ (ih (cons_ne_nil w vs))

theorem name_word {p : String → Bool} (h : p s = true) : Name p s [.word s] :=
  .one ⟨_, rfl⟩ h

theorem derives_test (he : e.Plain) (hleaf : e.test ≠ []) :
    Derives (.expr .unary e) e.test [] := by
  cases e with
  | cmp column op value =>
    have hname : Name columnWord column _ := name_word he.1.2.1
    cases value with
    | int v => exact .cmpInt hname ⟨_, rfl⟩ ⟨_, rfl⟩
    | text s => exact .cmpText hname ⟨_, rfl⟩ ⟨_, rfl⟩
    | vector v => exact he.2.elim
    | null => exact he.2.elim
  | cmpColumn left op right =>
    exact .cmpColumn (name_word he.1.2.1) ⟨_, rfl⟩ (name_word he.2.2.2)
  | isNull column negated =>
    cases negated with
    | true =>
      exact .isNotNull (name_word he.2.1) (isWord_word (by decide)) (isWord_word (by decide))
        (isWord_word (by decide))
    | false => exact .isNull (name_word he.2.1) (isWord_word (by decide)) (isWord_word (by decide))
  | like column pattern => exact .like (name_word he.1.2.1) (isWord_word (by decide)) ⟨_, rfl⟩
  | inInt column values =>
    exact .inInt (name_word he.1.2.1) (isWord_word (by decide)) ⟨_, rfl⟩ (sepBy_listedInts he.2)
      ⟨_, rfl⟩
  | betweenInt column low high =>
    exact .between (name_word he.2.1) (isWord_word (by decide)) ⟨_, rfl⟩ (isWord_word (by decide))
      ⟨_, rfl⟩
  | _ => exact absurd rfl hleaf

theorem plain_induction {P : ∀ e : Expr, e.Plain → Prop}
    (htest : ∀ (e : Expr) (he : e.Plain), e.test ≠ [] → P e he)
    (hand : ∀ (l r : Expr) (hl : l.Plain) (hr : r.Plain), P l hl → P r hr → P (.and l r) ⟨hl, hr⟩)
    (hor : ∀ (l r : Expr) (hl : l.Plain) (hr : r.Plain), P l hl → P r hr → P (.or l r) ⟨hl, hr⟩)
    (hnot : ∀ (inner : Expr) (he : inner.Plain), P inner he → P (.not inner) he) :
    ∀ (e : Expr) (he : e.Plain), P e he
  | .and l r, he => hand l r he.1 he.2 (plain_induction htest hand hor hnot l he.1)
      (plain_induction htest hand hor hnot r he.2)
  | .or l r, he => hor l r he.1 he.2 (plain_induction htest hand hor hnot l he.1)
      (plain_induction htest hand hor hnot r he.2)
  | .not inner, he => hnot inner he (plain_induction htest hand hor hnot inner he)
  | .cmp .., he => htest _ he (cons_ne_nil _ _)
  | .cmpColumn .., he => htest _ he (cons_ne_nil _ _)
  | .isNull _ negated, he => htest _ he (by cases negated <;> exact cons_ne_nil _ _)
  | .like .., he => htest _ he (cons_ne_nil _ _)
  | .inInt .., he => htest _ he (cons_ne_nil _ _)
  | .betweenInt .., he => htest _ he (cons_ne_nil _ _)
  | .exists _, he => he.elim
  | .inSubquery .., he => he.elim
  | .scalarCmp .., he => he.elim
  | .agg .., he => he.elim

theorem test_forms (h : e.test ≠ []) :
    e.parenthesised = bracketed e.test ∧ ∀ rank, e.bare rank = e.test := by
  cases e with
  | and l r => exact absurd rfl h
  | or l r => exact absurd rfl h
  | not inner => exact absurd rfl h
  | _ => exact ⟨rfl, fun _ => rfl⟩

theorem derives_parenthesised (e : Expr) (he : e.Plain) :
    Derives (.expr .unary e) e.parenthesised [] := by
  induction e, he using plain_induction with
  | htest e he hleaf =>
    rw [(test_forms hleaf).1]
    exact derives_bracketed (derives_at (derives_test he hleaf) .disj)
  | hand l r _ _ ihl ihr =>
    apply derives_bracketed
    exact .disj (.and (derives_at ihl .conj) (isWord_word (by decide)) ihr)
  | hor l r _ _ ihl ihr =>
    apply derives_bracketed
    exact .or (derives_at ihl .disj) (isWord_word (by decide)) (derives_at ihr .conj)
  | hnot inner _ ih =>
    apply derives_bracketed
    exact derives_at (.not (isWord_word (by decide)) ih) .disj

theorem derives_bare (e : Expr) (he : e.Plain) (rank : Rank) :
    Derives (.expr rank e) (e.bare rank) [] := by
  induction e, he using plain_induction generalizing rank with
  | htest e he hleaf =>
    rw [(test_forms hleaf).2]
    exact derives_at (derives_test he hleaf) rank
  | hor l r _ _ ihl ihr =>
    have hor : Derives (.expr .disj (.or l r)) (l.bare .disj ++ .word "OR" :: r.bare .conj) [] :=
      .or (ihl .disj) (isWord_word (by decide)) (ihr .conj)
    cases rank with
    | disj => exact hor
    | conj => exact derives_at (derives_bracketed hor) .conj
    | unary => exact derives_bracketed hor
  | hand l r _ _ ihl ihr =>
    have hand : Derives (.expr .conj (.and l r))
      (l.bare .conj ++ .word "AND" :: r.bare .unary) [] :=
      .and (ihl .conj) (isWord_word (by decide)) (ihr .unary)
    cases rank with
    | disj => exact .disj hand
    | conj => exact hand
    | unary => exact derives_bracketed (.disj hand)
  | hnot inner _ ih => exact derives_at (.not (isWord_word (by decide)) (ih .unary)) rank

/-! ### Reading the text back -/

theorem spelled_literal {value : Literal} (h : value.Plain) : Spelled value.lexeme := by
  cases value with
  | int v => exact spelled_int v
  | text s => exact spelled_quoted h
  | vector v => exact h.elim
  | null => exact h.elim

theorem spelled_bracketed (h : ∀ m ∈ ms, Spelled m) : ∀ m ∈ bracketed ms, Spelled m := by
  intro m hm
  simp only [bracketed, mem_cons, mem_append, not_mem_nil, or_false] at hm
  rcases hm with rfl | hm | rfl
  · exact spelled_lparen
  · exact h m hm
  · exact spelled_rparen

theorem spelled_listedInts (values : List Int64) : ∀ m ∈ listedInts values, Spelled m := by
  induction values with
  | nil => exact fun _ hm => by cases hm
  | cons v vs ih =>
    cases vs with
    | nil =>
      intro m hm
      rw [mem_singleton.mp hm]
      exact spelled_int v
    | cons w vs =>
      intro m hm
      rcases mem_cons.mp hm with rfl | hm
      · exact spelled_int v
      · rcases mem_cons.mp hm with rfl | hm
        · exact spelled_comma
        · exact ih m hm

theorem spelled_keyword {s : String}
    (hs : s ∈ ["AND", "OR", "NOT", "IS", "NULL", "LIKE", "IN", "BETWEEN"]) : Spelled (.word s) := by
  apply spelled_word
  simp only [mem_cons, not_mem_nil, or_false] at hs
  rcases hs with rfl | rfl | rfl | rfl | rfl | rfl | rfl | rfl
  all_goals exact ⟨_, _, rfl, rfl, all_eq_true.mp rfl⟩

theorem spelled_identifier (h : IsIdentifier s) : Spelled (.word s) :=
  spelled_word h.1

theorem spelled_test (he : e.Plain) : ∀ m ∈ e.test, Spelled m := by
  have hkeyword := @spelled_keyword
  cases e with
  | cmp column op value =>
    simp only [Expr.test, forall_mem_cons]
    exact ⟨spelled_identifier he.1, spelled_op op, spelled_literal he.2, nofun⟩
  | cmpColumn left op right =>
    simp only [Expr.test, forall_mem_cons]
    exact ⟨spelled_identifier he.1, spelled_op op, spelled_identifier he.2, nofun⟩
  | isNull column negated =>
    cases negated with
    | true =>
      simp only [Expr.test, if_true, forall_mem_cons]
      exact ⟨spelled_identifier he, hkeyword (by simp), hkeyword (by simp), hkeyword (by simp),
        nofun⟩
    | false =>
      simp only [Expr.test, Bool.false_eq_true, if_false, forall_mem_cons]
      exact ⟨spelled_identifier he, hkeyword (by simp), hkeyword (by simp), nofun⟩
  | like column pattern =>
    simp only [Expr.test, forall_mem_cons]
    exact ⟨spelled_identifier he.1, hkeyword (by simp), spelled_quoted he.2, nofun⟩
  | inInt column values =>
    simp only [Expr.test, forall_mem_cons]
    exact ⟨spelled_identifier he.1, hkeyword (by simp),
      spelled_bracketed (spelled_listedInts values)⟩
  | betweenInt column low high =>
    simp only [Expr.test, forall_mem_cons]
    exact ⟨spelled_identifier he, hkeyword (by simp), spelled_int low, hkeyword (by simp),
      spelled_int high, nofun⟩
  | _ => exact nofun

/-- Two operands and the keyword between them. -/
theorem spelled_joined {ll lr : List Lexeme} (hl : ∀ m ∈ ll, Spelled m)
    (hs : Spelled (.word s)) (hr : ∀ m ∈ lr, Spelled m) :
    ∀ m ∈ ll ++ .word s :: lr, Spelled m := by
  rw [forall_mem_append, forall_mem_cons]
  exact ⟨hl, hs, hr⟩

theorem spelled_parenthesised (e : Expr) (he : e.Plain) : ∀ m ∈ e.parenthesised, Spelled m := by
  induction e, he using plain_induction with
  | htest e he hleaf =>
    rw [(test_forms hleaf).1]
    exact spelled_bracketed (spelled_test he)
  | hand l r _ _ ihl ihr =>
    exact spelled_bracketed (spelled_joined ihl (spelled_keyword (by simp)) ihr)
  | hor l r _ _ ihl ihr =>
    exact spelled_bracketed (spelled_joined ihl (spelled_keyword (by simp)) ihr)
  | hnot inner _ ih =>
    exact spelled_bracketed (forall_mem_cons.mpr ⟨spelled_keyword (by simp), ih⟩)

theorem spelled_bare (e : Expr) (he : e.Plain) (rank : Rank) : ∀ m ∈ e.bare rank, Spelled m := by
  induction e, he using plain_induction generalizing rank with
  | htest e he hleaf =>
    rw [(test_forms hleaf).2]
    exact spelled_test he
  | hand l r _ _ ihl ihr =>
    have hjoined := spelled_joined (ihl .conj) (spelled_keyword (s := "AND") (by simp)) (ihr .unary)
    cases rank with
    | unary => exact spelled_bracketed hjoined
    | _ => exact hjoined
  | hor l r _ _ ihl ihr =>
    have hjoined := spelled_joined (ihl .disj) (spelled_keyword (s := "OR") (by simp)) (ihr .conj)
    cases rank with
    | disj => exact hjoined
    | _ => exact spelled_bracketed hjoined
  | hnot inner _ ih => exact forall_mem_cons.mpr ⟨spelled_keyword (by simp), ih .unary⟩

namespace Expr

def toSql (e : Expr) : String :=
  String.ofList (spell e.parenthesised)

/-- The SQL text with no redundant parentheses. -/
def toBareSql (e : Expr) : String :=
  String.ofList (spell (e.bare .disj))

end Expr

theorem parseExpr_spell (he : e.Plain)
    (h : Derives (.expr .disj e) ms []) (hms : ∀ m ∈ ms, Spelled m) {fuel : Nat}
    (hfuel : ms.length < fuel) :
    ∃ lx, parseExpr fuel (Lexer.new (String.ofList (spell ms))) = .ok (e, lx) ∧ lx.rest = [] := by
  apply parseExpr_complete he h _ hfuel
  refine ⟨fun m hm => (hms m hm).settled, ?_⟩
  simp only [Lexer.rest, Lexer.new, String.toList_ofList, drop_zero]
  exact tokens_spell hms

/-- A plain expression is parsed back from its text with all parentheses and from
its text without redundant ones, and the whole text is read. -/
theorem parseExpr_toSql (e : Expr) (he : e.Plain) (fuel : Nat)
    (hfuel : e.parenthesised.length < fuel ∧ (e.bare .disj).length < fuel) :
    (∃ lx, parseExpr fuel (Lexer.new e.toSql) = .ok (e, lx) ∧ lx.rest = []) ∧
      ∃ lx, parseExpr fuel (Lexer.new e.toBareSql) = .ok (e, lx) ∧ lx.rest = [] :=
  ⟨parseExpr_spell he (derives_at (derives_parenthesised e he) .disj) (spelled_parenthesised e he)
      hfuel.1,
    parseExpr_spell he (derives_bare e he .disj) (spelled_bare e he .disj) hfuel.2⟩

theorem isIdentifier_a : IsIdentifier "a" :=
  ⟨⟨'a', [], rfl, by decide, nofun⟩, by decide, by decide⟩

/-- `NOT a = 1 AND a IS NULL` is a conjunction. -/
theorem parseExpr_toSql_not_and :
    (∃ lx, parseExpr 20 (Lexer.new "((NOT (a = 1)) AND (a IS NULL))") =
      .ok (.and (.not (.cmp "a" .eq (.int 1))) (.isNull "a" false), lx) ∧ lx.rest = []) ∧
    ∃ lx, parseExpr 20 (Lexer.new "NOT a = 1 AND a IS NULL") =
      .ok (.and (.not (.cmp "a" .eq (.int 1))) (.isNull "a" false), lx) ∧ lx.rest = [] :=
  parseExpr_toSql (.and (.not (.cmp "a" .eq (.int 1))) (.isNull "a" false))
    ⟨⟨isIdentifier_a, trivial⟩, isIdentifier_a⟩ 20 (by decide)

/-- Without parentheses `NOT` is read before `AND`, `AND` before `OR`, and operands
from the left. -/
example (p q r : Expr) : (Expr.or (.and (.not p) q) r).bare .disj =
    (.word "NOT" :: p.bare .unary ++ .word "AND" :: q.bare .unary) ++ .word "OR" :: r.bare .conj :=
  rfl

example (p q r : Expr) : (Expr.or (.or p q) r).bare .disj =
    (p.bare .disj ++ .word "OR" :: q.bare .conj) ++ .word "OR" :: r.bare .conj :=
  rfl

end Oikos.Archon.Relational
