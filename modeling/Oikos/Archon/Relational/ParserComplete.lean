/-
What the grammar says the parser reads: from the lexemes of an expression
without subqueries the expression parser returns that expression, whatever the
spelling of its keywords, the blanks between its lexemes and the parentheses
around its parts.
-/
import Oikos.Archon.Relational.Grammar

namespace Oikos.Archon.Relational

open List

/-! ### Lexemes that are next -/

def Lexeme.Settled : Lexeme → Prop
  | .tok (.float _) _ => False
  | .tok (.int v) text => text = displayInt v
  | .tok _ _ => True
  | .bracket _ => False

/-- These lexemes are left of the input. -/
def Ahead (lx : Lexer) (ms : List Lexeme) : Prop :=
  (∀ m ∈ ms, m.Settled) ∧ Tokens lx.rest ms

/-- These lexemes are left, and if there are none the input has been read up to
its last character. -/
def Ended (lx : Lexer) (ms : List Lexeme) : Prop :=
  Ahead lx ms ∧ (ms = [] → lx.rest = [])

/-- The token that the lexemes start with. -/
def front : List Lexeme → Tok
  | [] => .eof
  | .tok t _ :: _ => t
  | .bracket _ :: _ => .lbracket

section Ahead

variable {lx : Lexer} {m : Lexeme} {ms rest ls : List Lexeme} {t : Tok}

theorem Lexeme.Settled.not_padded {v : Int64} {text : List Char}
    (h : Lexeme.Settled (.tok (.int v) text)) : ¬ Lexeme.Padded (.tok (.int v) text) := by
  rintro ⟨_, _, ⟨⟩, _, hlen⟩
  exact hlen (congrArg length h)

/-- What is left after a token that can be pushed back is at the end of the text. -/
theorem scan_suffix {c : Char} {cs rem text : List Char} (h : scan c cs = .ok (t, rem))
    (ht : Lexeme.Settled (.tok t text)) : rem <:+ c :: cs := by
  cases hnumber : t.isNumber with
  | false =>
    obtain ⟨front, hfront, -⟩ := scan_splits h hnumber
    exact hfront ▸ suffix_append front rem
  | true =>
    cases t with
    | int v =>
      obtain ⟨negative, ds, hcs, -⟩ := (scan_spec h).2.2 v rfl
      exact hcs ▸ suffix_append _ rem
    | float x => exact ht.elim
    | _ => cases hnumber

theorem nextTok_ahead (h : Ahead lx ms) :
    ∃ lx', nextTok lx = .ok (front ms, lx') ∧ Ended (lx'.back (front ms).width) ms ∧
      ∀ m rest, ms = m :: rest → Ahead lx' rest := by
  obtain ⟨hsettled, htokens⟩ := h
  cases ms with
  | nil =>
    have hempty : ((lx.seek []).back Tok.eof.width).rest = [] := Lexer.rest_seek nil_suffix
    refine ⟨lx.seek [], nextTok_blank (tokens_nil.mp htokens),
      ⟨⟨hsettled, ?_⟩, fun _ => hempty⟩, ?_⟩
    · rw [front, hempty]
      exact tokens_nil.mpr rfl
    · intro m rest hnil
      cases hnil
  | cons m rest =>
    have hm := hsettled m mem_cons_self
    cases m with
    | bracket content => exact hm.elim
    | tok t text =>
      obtain ⟨rem, hlexeme, hrest⟩ := tokens_cons.mp htokens
      obtain ⟨c, cs, hdrop, hscan, -, -⟩ := lexeme_eq_tok hlexeme
      have hnext := nextTok_scan hdrop hscan
      refine ⟨lx.seek rem, hnext, ⟨⟨hsettled, ?_⟩, nofun⟩, ?_⟩
      · cases hnumber : t.isNumber with
        | false => exact tokens_back htokens hnext hnumber
        | true =>
          cases t with
          | int v =>
            obtain hback | ⟨hpadded, -⟩ := tokens_back_int htokens hnext
            · rw [← (hm : text = displayInt v)] at hback
              exact hback
            · exact absurd hpadded hm.not_padded
          | float x => exact hm.elim
          | _ => cases hnumber
      · rintro m rest ⟨⟩
        refine ⟨fun k hk => hsettled k (mem_cons_of_mem _ hk), ?_⟩
        rw [Lexer.rest_seek]
        · exact hrest
        · exact (scan_suffix hscan hm).trans (hdrop ▸ dropWhile_suffix _)

/-! ### Reading and peeking -/

variable {α : Type} {f : Tok → Parse α} {p : Parse α} {a : α} {H : Lexer → List Lexeme → Prop}

/-- A token is read. -/
theorem takes_next (hm : m.Is t) (hf : Accepts Ahead H (f t) a ls rest) :
    Accepts Ahead H (nextTok >>= f) a (m :: ls) rest := by
  obtain ⟨text, rfl⟩ := hm
  intro lx hlx
  obtain ⟨lx₁, hnext, -, hafter⟩ := nextTok_ahead hlx
  obtain ⟨lx₂, hrun, hleft⟩ := hf lx₁ (hafter _ _ rfl)
  exact ⟨lx₂, bind_eq_ok.mpr ⟨(t, lx₁), hnext, hrun⟩, hleft⟩

/-- A keyword is read. -/
theorem takes_word {w : String} (hm : m.IsWord w)
    (hf : ∀ t, t.isWord w = true → Accepts Ahead H (f t) a ls rest) :
    Accepts Ahead H (nextTok >>= f) a (m :: ls) rest := by
  obtain ⟨s, text, rfl, hword⟩ := hm
  exact takes_next ⟨text, rfl⟩ (hf (.ident s) hword)

theorem takes_peek (hf : f (front (ls ++ rest)) = pushBack (front (ls ++ rest)) >>= fun _ => p)
    (hp : Accepts Ahead H p a ls rest) : Accepts Ahead H (nextTok >>= f) a ls rest := by
  intro lx hlx
  obtain ⟨lx₁, hnext, hback, -⟩ := nextTok_ahead hlx
  obtain ⟨lx₂, hrun, hleft⟩ := hp _ hback.1
  refine ⟨lx₂, bind_eq_ok.mpr ⟨(front (ls ++ rest), lx₁), hnext, ?_⟩, hleft⟩
  change f (front (ls ++ rest)) lx₁ = _
  rw [hf]
  exact hrun

theorem takes_stop (hf : f (front rest) = pushBack (front rest) >>= fun _ => pure a) :
    Accepts Ahead Ended (nextTok >>= f) a [] rest := by
  intro lx hlx
  obtain ⟨lx₁, hnext, hback, -⟩ := nextTok_ahead hlx
  refine ⟨_, bind_eq_ok.mpr ⟨(front rest, lx₁), hnext, ?_⟩, hback⟩
  change f (front rest) lx₁ = _
  rw [hf]
  rfl

theorem takes_ahead (h : Accepts Ahead Ended p a ls rest) : Accepts Ahead Ahead p a ls rest :=
  h.post fun _ hended => hended.1

variable {what : String} {values : List Int64} {k : Lexeme}

theorem expectTok_takes (hm : m.Is t) : Accepts Ahead Ahead (expectTok t what) () [m] rest := by
  apply takes_next hm
  rw [if_pos rfl]
  exact Accepts.pure

theorem expectKw_takes {w : String} (hm : m.IsWord w) :
    Accepts Ahead Ahead (expectKw w) () [m] rest := by
  apply takes_word hm
  intro t hword
  rw [if_pos hword]
  exact Accepts.pure

theorem expectInt_takes {v : Int64} (hm : m.Is (.int v)) :
    Accepts Ahead Ahead (expectInt what) v [m] rest :=
  takes_next hm Accepts.pure

/-! ### Names -/

variable {q : String → Bool} {s : String} {fuel : Nat}

theorem expectIdent_takes (h : Name q s ls) (hfuel : ls.length ≤ fuel)
    (hrest : front rest ≠ .dot) : Accepts Ahead Ahead (expectIdent fuel what) s ls rest := by
  induction h generalizing fuel what with
  | one hm _ =>
    cases fuel with
    | zero => cases hfuel
    | succ fuel =>
      apply takes_next hm
      apply takes_ahead
      apply takes_stop
      rw [if_neg hrest]
  | field hm _ hd hname ih =>
    cases fuel with
    | zero => cases hfuel
    | succ fuel =>
      simp only [length_cons] at hfuel
      apply takes_next hm
      apply takes_next hd
      rw [if_pos rfl]
      exact (ih (by omega)).last Accepts.pure

theorem qualifiedRest_takes (h : Name q s ls) (hfuel : ls.length ≤ fuel + 1)
    (hrest : front rest ≠ .dot) : ∃ m first tail, ls = m :: tail ∧ m.Is (.ident first) ∧
      q first = true ∧ Accepts Ahead Ahead (qualifiedRest fuel first) s tail rest := by
  cases h with
  | one hm hq =>
    refine ⟨_, s, [], rfl, hm, hq, takes_ahead (takes_stop ?_)⟩
    rw [if_neg hrest]
  | @field _ m first d field ls hm hq hd hname =>
    simp only [length_cons] at hfuel
    refine ⟨m, first, d :: ls, rfl, hm, hq, takes_next hd ?_⟩
    rw [if_pos rfl]
    exact (expectIdent_takes hname (by omega) hrest).last Accepts.pure

/-! ### Lists of integers -/

theorem closedList_takes {message : String} {acc : List Int64} {r : Lexeme}
    (h : SepBy (Lexeme.Is .comma) (fun v ms => ∃ m, ms = [m] ∧ m.Is (.int v)) values ls)
    (hr : r.Is .rparen) (hfuel : ls.length ≤ fuel) :
    Accepts Ahead Ahead (closedList (expectInt what) message fuel acc) (acc ++ values) (ls ++ [r])
      rest := by
  induction h generalizing fuel acc with
  | one hitem =>
    obtain ⟨m, rfl, hm⟩ := hitem
    cases fuel with
    | zero => cases hfuel
    | succ fuel =>
      apply (expectInt_takes hm).bind
      apply takes_next hr
      exact Accepts.pure
  | @cons v ls comma values more hitem hcomma _ ih =>
    obtain ⟨m, rfl, hm⟩ := hitem
    cases fuel with
    | zero => cases hfuel
    | succ fuel =>
      simp only [length_append, length_cons, length_nil] at hfuel
      have hmore : Accepts Ahead Ahead (closedList (expectInt what) message fuel (acc ++ [v]))
          (acc ++ [v] ++ values) (more ++ [r]) rest := ih (by omega)
      rw [append_assoc] at hmore
      rw [append_assoc]
      apply (expectInt_takes hm).bind
      apply takes_next hcomma
      rw [if_pos rfl]
      exact hmore

/-! ### Keywords -/

theorem columnWord_spec (h : columnWord s = true) : isKw s = false ∧ aggregateFunc s = none ∧
    eqIgnoreCase s "exists" = false ∧ eqIgnoreCase s "not" = false := by
  simp only [columnWord, Bool.and_eq_true, Bool.not_eq_true', Option.isNone_iff_eq_none] at h
  have hkw : ∀ w, isKw w = true → eqIgnoreCase s w = false := by
    intro w hw
    cases hsw : eqIgnoreCase s w with
    | false => rfl
    | true =>
      have hsame : isKw s = isKw w := by
        unfold isKw
        rw [eqIgnoreCase_iff.mp hsw]
      rw [hsame, hw] at h
      cases h.1
  exact ⟨h.1, h.2, hkw "exists" (by decide), hkw "not" (by decide)⟩

/-! ### What is said of a column -/

variable {n : Nested} {column : String} {e : Expr} {tests : List Lexeme}

theorem isNull_takes {w : Lexeme} (hk : k.IsWord "is") (hw : w.IsWord "null") :
    Accepts Ahead Ahead (parseColumnTest fuel n column) (.isNull column false) [k, w] rest := by
  apply takes_word hk
  intro t ht
  rw [if_pos ht]
  apply takes_word hw
  intro t ht
  rw [if_neg (by rw [isWord_other ht (by decide)]; decide), if_pos ht]
  exact Accepts.pure

theorem isNotNull_takes {v w : Lexeme} (hk : k.IsWord "is") (hv : v.IsWord "not")
    (hw : w.IsWord "null") :
    Accepts Ahead Ahead (parseColumnTest fuel n column) (.isNull column true) [k, v, w] rest := by
  apply takes_word hk
  intro t ht
  rw [if_pos ht]
  apply takes_word hv
  intro t ht
  rw [if_pos ht]
  exact (expectKw_takes hw).last Accepts.pure

theorem like_takes {m : Lexeme} {pattern : String} (hk : k.IsWord "like")
    (hm : m.Is (.text pattern)) :
    Accepts Ahead Ahead (parseColumnTest fuel n column) (.like column pattern) [k, m] rest := by
  apply takes_word hk
  intro t ht
  rw [if_neg (by rw [isWord_other ht (by decide)]; decide), if_pos ht]
  exact takes_next hm Accepts.pure

theorem between_takes {l a h : Lexeme} {low high : Int64} (hk : k.IsWord "between")
    (hl : l.Is (.int low)) (ha : a.IsWord "and") (hh : h.Is (.int high)) :
    Accepts Ahead Ahead (parseColumnTest fuel n column) (.betweenInt column low high) [k, l, a, h]
      rest := by
  apply takes_word hk
  intro t ht
  rw [if_neg (by rw [isWord_other ht (by decide)]; decide),
    if_neg (by rw [isWord_other ht (by decide)]; decide), if_pos ht]
  apply (expectInt_takes hl).bind
  apply (expectKw_takes ha).bind
  exact (expectInt_takes hh).last Accepts.pure

theorem front_values
    (h : SepBy (Lexeme.Is .comma) (fun v ms => ∃ m, ms = [m] ∧ m.Is (.int v)) values ls)
    (tail : List Lexeme) : ∃ v, front (ls ++ tail) = .int v := by
  cases h with
  | one hitem =>
    obtain ⟨_, rfl, text, rfl⟩ := hitem
    exact ⟨_, rfl⟩
  | cons hitem =>
    obtain ⟨_, rfl, text, rfl⟩ := hitem
    exact ⟨_, rfl⟩

theorem inInt_takes {l r : Lexeme} (hk : k.IsWord "in") (hl : l.Is .lparen)
    (hvalues : SepBy (Lexeme.Is .comma) (fun v ms => ∃ m, ms = [m] ∧ m.Is (.int v)) values ls)
    (hr : r.Is .rparen) (hfuel : ls.length ≤ fuel) :
    Accepts Ahead Ahead (parseColumnTest fuel n column) (.inInt column values)
      (k :: l :: (ls ++ [r])) rest := by
  apply takes_word hk
  intro t ht
  rw [if_neg (by rw [isWord_other ht (by decide)]; decide),
    if_neg (by rw [isWord_other ht (by decide)]; decide),
    if_neg (by rw [isWord_other ht (by decide)]; decide), if_pos ht]
  change Accepts Ahead Ahead (parseIn fuel n column) _ ([l] ++ (ls ++ [r])) rest
  apply (expectTok_takes hl).bind
  obtain ⟨v, hv⟩ := front_values hvalues ([r] ++ rest)
  rw [← append_assoc] at hv
  have hlist : Accepts Ahead Ahead
      (closedList (expectInt "value in IN list") "expected ',' or ')' in IN list" fuel []) values
      (ls ++ [r]) rest := closedList_takes hvalues hr hfuel
  have hparse : Accepts Ahead Ahead
      (closedList (expectInt "value in IN list") "expected ',' or ')' in IN list" fuel [] >>=
        fun values => pure (Expr.inInt column values)) (.inInt column values) (ls ++ [r]) rest :=
    hlist.last Accepts.pure
  apply takes_peek _ hparse
  rw [hv]
  rfl

theorem op_takes {o : Lexeme} {op : CmpOp} (ho : o.Is (.op op))
    (h : Accepts Ahead Ahead (parseOperand fuel n column op) e ls rest) :
    Accepts Ahead Ahead (parseColumnTest fuel n column) e (o :: ls) rest := by
  apply takes_next ho
  exact h

theorem eqNull_takes {m : Lexeme} (hm : m.IsWord "null") :
    Accepts Ahead Ahead (parseOperand fuel n column .eq) (.isNull column false) [m] rest := by
  obtain ⟨s, text, rfl, hs⟩ := hm
  apply takes_next ⟨text, rfl⟩
  dsimp only
  rw [if_pos hs]
  exact Accepts.pure

theorem neNull_takes {m : Lexeme} (hm : m.IsWord "null") :
    Accepts Ahead Ahead (parseOperand fuel n column .ne) (.isNull column true) [m] rest := by
  obtain ⟨s, text, rfl, hs⟩ := hm
  apply takes_next ⟨text, rfl⟩
  dsimp only
  rw [if_pos hs]
  exact Accepts.pure

theorem cmpColumn_takes {op : CmpOp} {right : String} (h : Name valueWord right ls)
    (hfuel : ls.length ≤ fuel + 1) (hrest : front rest ≠ .dot) :
    Accepts Ahead Ahead (parseOperand fuel n column op) (.cmpColumn column op right) ls rest := by
  obtain ⟨m, first, tail, rfl, hm, hfirst, htail⟩ := qualifiedRest_takes h hfuel hrest
  simp only [valueWord, Bool.not_eq_true'] at hfirst
  apply takes_next hm
  dsimp only
  rw [if_neg (by rw [hfirst]; decide)]
  exact htail.last Accepts.pure

/-! ### Expressions -/

theorem primary_takes (hname : Name columnWord column ls) (hfuel : ls.length ≤ fuel + 1)
    (htests : front (tests ++ rest) ≠ .dot)
    (htest : Accepts Ahead Ahead (parseColumnTest fuel n column) e tests rest) :
    Accepts Ahead Ahead (parsePrimaryExpr fuel n) e (ls ++ tests) rest := by
  obtain ⟨m, first, tail, rfl, hm, hfirst, htail⟩ := qualifiedRest_takes hname hfuel htests
  obtain ⟨hkw, hagg, hexists, -⟩ := columnWord_spec hfirst
  apply takes_next hm
  dsimp only
  rw [if_neg (by rw [hexists]; decide), hagg]
  dsimp only
  rw [if_neg (by rw [hkw]; decide)]
  exact htail.bind htest

/-- An operand that does not start with `NOT`. -/
theorem parseNot_takes {p : Parse Expr} {k : Nat} (hnot : (front (ls ++ rest)).isWord "not" = false)
    (hp : Accepts Ahead Ahead p e ls rest) :
    Accepts Ahead Ahead (parseNot p (k + 1)) e ls rest := by
  apply takes_peek _ hp
  rw [hnot]
  rfl

/-- Operands joined by a keyword are read by the loop: from `ls` it gets to `e`,
in fewer rounds than there are lexemes. -/
def Chains (keyword : String) (join : Expr → Expr → Expr) (operand : Parse Expr) (e : Expr)
    (ls rest : List Lexeme) : Prop :=
  ∃ rounds < ls.length, ∀ fuel lx, Ahead lx (ls ++ rest) → ∃ lx',
    (operand >>= chain keyword join operand (rounds + fuel)) lx =
      chain keyword join operand fuel e lx' ∧ Ahead lx' rest

variable {keyword : String} {join : Expr → Expr → Expr} {operand : Parse Expr} {l r : Expr}

theorem Chains.one (hne : 0 < ls.length) (h : Accepts Ahead Ahead operand e ls rest) :
    Chains keyword join operand e ls rest := by
  refine ⟨0, hne, fun fuel lx hlx => ?_⟩
  obtain ⟨lx', hrun, hleft⟩ := h lx hlx
  refine ⟨lx', ?_, hleft⟩
  rw [zero_add]
  change (operand lx >>= _) = _
  rw [hrun]
  rfl

theorem chain_round {lx lx₁ lx₂ : Lexer} (hnext : nextTok lx = .ok (t, lx₁))
    (ht : t.isWord keyword = true) (hright : operand lx₁ = .ok (r, lx₂)) (fuel : Nat) :
    chain keyword join operand (fuel + 1) e lx =
    chain keyword join operand fuel (join e r) lx₂ := by
  simp only [chain, bind, StateT.bind, Except.bind, hnext, ht, if_true, hright]

theorem Chains.more {lr : List Lexeme} (hl : Chains keyword join operand l ls (k :: (lr ++ rest)))
    (hk : k.IsWord keyword) (hr : Accepts Ahead Ahead operand r lr rest) :
    Chains keyword join operand (join l r) (ls ++ k :: lr) rest := by
  obtain ⟨rounds, hlt, hchain⟩ := hl
  refine ⟨rounds + 1, ?_, fun fuel lx hlx => ?_⟩
  · simp only [length_append, length_cons]
    omega
  · rw [append_assoc] at hlx
    obtain ⟨lx₁, hrun, hnext⟩ := hchain (fuel + 1) lx hlx
    obtain ⟨s, text, rfl, hword⟩ := hk
    obtain ⟨lx₂, htok, -, hafter⟩ := nextTok_ahead hnext
    obtain ⟨lx₃, hright, hleft⟩ := hr lx₂ (hafter _ _ rfl)
    refine ⟨lx₃, ?_, hleft⟩
    rw [add_assoc, add_comm 1 fuel, hrun]
    exact chain_round htok hword hright fuel

theorem Chains.stop (h : Chains keyword join operand e ls rest)
    (hrest : (front rest).isWord keyword = false) (hfuel : ls.length ≤ fuel) :
    Accepts Ahead Ended (operand >>= chain keyword join operand fuel) e ls rest := by
  obtain ⟨rounds, hlt, hchain⟩ := h
  intro lx hlx
  obtain ⟨k, rfl⟩ : ∃ k, fuel = rounds + (k + 1) := ⟨fuel - rounds - 1, by omega⟩
  obtain ⟨lx₁, hrun, hnext⟩ := hchain (k + 1) lx hlx
  have hstop : Accepts Ahead Ended (chain keyword join operand (k + 1) e) e [] rest := by
    apply takes_stop
    rw [hrest]
    rfl
  rw [hrun]
  exact hstop lx₁ hnext

end Ahead

/-! ### Plain expressions -/

/-- A word of the language that is no keyword of a statement, no aggregate name
and not `NULL`. -/
def IsIdentifier (s : String) : Prop :=
  (∃ c cs, s.toList = c :: cs ∧ (c.isAlpha || c == '_') = true ∧ ∀ d ∈ cs, isWordChar d = true) ∧
    columnWord s = true ∧ valueWord s = true

/-- A text that can stand between quotes. -/
def QuoteFree (s : String) : Prop :=
  quote ∉ s.toList

/-- An integer or a text that can stand between quotes. -/
def Literal.Plain : Literal → Prop
  | .int _ => True
  | .text s => QuoteFree s
  | _ => False

/-- An expression over identifiers, without subqueries and aggregate calls. -/
def Expr.Plain : Expr → Prop
  | .cmp column _ value => IsIdentifier column ∧ value.Plain
  | .cmpColumn left _ right => IsIdentifier left ∧ IsIdentifier right
  | .isNull column _ => IsIdentifier column
  | .like column pattern => IsIdentifier column ∧ QuoteFree pattern
  | .inInt column values => IsIdentifier column ∧ values ≠ []
  | .betweenInt column _ _ => IsIdentifier column
  | .and l r => l.Plain ∧ r.Plain
  | .or l r => l.Plain ∧ r.Plain
  | .not inner => inner.Plain
  | _ => False

theorem not_identifier_alias (func : AggregateFunc) (column : String) :
    ¬ IsIdentifier (aggDefaultAlias func column) := by
  rintro ⟨⟨c, cs, hchars, hc, hcs⟩, hcolumn, -⟩
  have hword : ∀ d ∈ (aggDefaultAlias func column).toList, isWordChar d = true := by
    rw [hchars]
    intro d hd
    rcases mem_cons.mp hd with rfl | hd
    · simp only [isWordChar, Char.isAlphanum, Bool.or_eq_true, beq_iff_eq] at hc ⊢
      exact hc.imp .inl id
    · exact hcs d hd
  by_cases hstar : (column == "*") = true
  · have hagg := (columnWord_spec hcolumn).2.1
    simp only [aggDefaultAlias, hstar, if_true] at hagg
    cases func <;> exact absurd hagg (by decide)
  · have hparen := hword '(' (by
      simp only [aggDefaultAlias, hstar, Bool.false_eq_true, if_false, String.toList_append,
        mem_append]
      exact .inl (.inl (.inr (by decide))))
    exact absurd hparen (by decide)

def ParsesPhrase : Phrase → List Lexeme → Prop
  | .expr rank e, ls => e.Plain → 0 < ls.length ∧
      ∀ fuel, ls.length ≤ fuel → ∀ rest, front rest ≠ .dot →
        match rank with
        | .unary => ∀ k, ls.length ≤ k →
            Accepts Ahead Ahead (parseNot (parsePrimaryExpr fuel (nested fuel)) k) e ls rest
        | .conj => Chains "and" .and (parseNot (parsePrimaryExpr fuel (nested fuel)) fuel) e ls rest
        | .disj => (front rest).isWord "and" = false →
            Chains "or" .or (parseAnd fuel (nested fuel)) e ls rest
  | _, _ => True

section ParsesPhrase

variable {column : String} {e : Expr} {ls tests rest : List Lexeme}

theorem parsed_test (hname : Name columnWord column ls)
    (htest : ∀ fuel n rest, tests.length ≤ fuel → front rest ≠ .dot →
      front (tests ++ rest) ≠ .dot ∧
        Accepts Ahead Ahead (parseColumnTest fuel n column) e tests rest) :
    ParsesPhrase (.expr .unary e) (ls ++ tests) := by
  have hstart : ∃ m tail s, ls = m :: tail ∧ m.Is (.ident s) ∧ columnWord s = true := by
    cases hname with
    | one hm hs => exact ⟨_, [], _, rfl, hm, hs⟩
    | field hm hs _ _ => exact ⟨_, _, _, rfl, hm, hs⟩
  obtain ⟨m, tail, s, rfl, ⟨text, rfl⟩, hs⟩ := hstart
  intro _
  refine ⟨by simp, fun fuel hfuel rest hrest k hk => ?_⟩
  simp only [cons_append, length_cons, length_append] at hfuel hk
  obtain ⟨hdot, htakes⟩ := htest fuel (nested fuel) rest (by omega) hrest
  obtain ⟨k, rfl⟩ : ∃ j, k = j + 1 := ⟨k - 1, by omega⟩
  apply parseNot_takes
  · exact (columnWord_spec hs).2.2.2
  · exact primary_takes hname (by simp only [length_cons]; omega) hdot htakes

theorem front_word {k : Lexeme} {w : String} (hk : k.IsWord w) (ls : List Lexeme) :
    front (k :: ls) ≠ .dot ∧ (front (k :: ls)).isWord w = true := by
  obtain ⟨s, text, rfl, hword⟩ := hk
  exact ⟨nofun, hword⟩

theorem front_is {m : Lexeme} {t : Tok} (hm : m.Is t) (ls : List Lexeme) : front (m :: ls) = t := by
  obtain ⟨text, rfl⟩ := hm
  rfl

theorem parsed_or {l r : Expr} {k : Lexeme} {ll lr : List Lexeme}
    (hl : ParsesPhrase (.expr .disj l) ll)
    (hk : k.IsWord "or") (hr : ParsesPhrase (.expr .conj r) lr) :
    ParsesPhrase (.expr .disj (.or l r)) (ll ++ k :: lr) := by
  rintro ⟨hleft, hright⟩
  obtain ⟨hll, hl⟩ := hl hleft
  obtain ⟨_, hr⟩ := hr hright
  refine ⟨by simp only [length_append]; omega, fun fuel hfuel rest hrest hand => ?_⟩
  simp only [length_append, length_cons] at hfuel
  obtain ⟨hdot, hword⟩ := front_word hk (lr ++ rest)
  have hfirst := hl fuel (by omega) (k :: (lr ++ rest)) hdot (isWord_other hword (by decide))
  have hoperand := (hr fuel (by omega) rest hrest).stop hand (by omega : lr.length ≤ fuel)
  exact hfirst.more hk (takes_ahead hoperand)

theorem parsed_disj (h : ParsesPhrase (.expr .conj e) ls) : ParsesPhrase (.expr .disj e) ls := by
  intro he
  obtain ⟨hne, h⟩ := h he
  refine ⟨hne, fun fuel hfuel rest hrest hand => ?_⟩
  exact Chains.one hne (takes_ahead ((h fuel hfuel rest hrest).stop hand hfuel))

theorem parsed_and {l r : Expr} {k : Lexeme} {ll lr : List Lexeme}
    (hl : ParsesPhrase (.expr .conj l) ll)
    (hk : k.IsWord "and") (hr : ParsesPhrase (.expr .unary r) lr) :
    ParsesPhrase (.expr .conj (.and l r)) (ll ++ k :: lr) := by
  rintro ⟨hleft, hright⟩
  obtain ⟨hll, hl⟩ := hl hleft
  obtain ⟨_, hr⟩ := hr hright
  refine ⟨by simp only [length_append]; omega, fun fuel hfuel rest hrest => ?_⟩
  simp only [length_append, length_cons] at hfuel
  have hfirst := hl fuel (by omega) (k :: (lr ++ rest)) (front_word hk (lr ++ rest)).1
  exact hfirst.more hk (hr fuel (by omega) rest hrest fuel (by omega))

theorem parsed_conj (h : ParsesPhrase (.expr .unary e) ls) : ParsesPhrase (.expr .conj e) ls := by
  intro he
  obtain ⟨hne, h⟩ := h he
  exact ⟨hne, fun fuel hfuel rest hrest => Chains.one hne (h fuel hfuel rest hrest fuel hfuel)⟩

theorem parsed_not {k : Lexeme} (hk : k.IsWord "not") (h : ParsesPhrase (.expr .unary e) ls) :
    ParsesPhrase (.expr .unary (.not e)) (k :: ls) := by
  intro he
  obtain ⟨_, h⟩ := h he
  refine ⟨by simp, fun fuel hfuel rest hrest j hj => ?_⟩
  simp only [length_cons] at hfuel hj
  obtain ⟨j, rfl⟩ : ∃ i, j = i + 1 := ⟨j - 1, by omega⟩
  apply takes_word hk
  intro t ht
  rw [if_pos ht]
  exact (h fuel (by omega) rest hrest j (by omega)).last Accepts.pure

theorem parsed_paren {l r : Lexeme} (hl : l.Is .lparen) (h : ParsesPhrase (.expr .disj e) ls)
    (hr : r.Is .rparen) : ParsesPhrase (.expr .unary e) (l :: (ls ++ [r])) := by
  intro he
  obtain ⟨_, h⟩ := h he
  refine ⟨by simp, fun fuel hfuel rest hrest k hk => ?_⟩
  simp only [length_cons, length_append, length_nil] at hfuel hk
  obtain ⟨fuel, rfl⟩ : ∃ j, fuel = j + 1 := ⟨fuel - 1, by omega⟩
  obtain ⟨k, rfl⟩ : ∃ j, k = j + 1 := ⟨k - 1, by omega⟩
  have hfront := front_is hr rest
  have hinner := h fuel (by omega) ([r] ++ rest) (by rw [singleton_append, hfront]; decide)
    (by rw [singleton_append, hfront]; decide)
  have hexpr := hinner.stop (by rw [singleton_append, hfront]; decide)
    (by omega : ls.length ≤ fuel)
  apply parseNot_takes
  · rw [cons_append, front_is hl]
    decide
  · apply takes_next hl
    exact (takes_ahead hexpr).bind ((expectTok_takes hr).last Accepts.pure)

end ParsesPhrase

theorem parsed_of_derives {phrase : Phrase} {ls : List Lexeme} {q : List (List Clause)}
    (h : Derives phrase ls q) : ParsesPhrase phrase ls := by
  induction h with
  | or _ hk _ ihl ihr => exact parsed_or ihl hk ihr
  | disj _ ih => exact parsed_disj ih
  | and _ hk _ ihl ihr => exact parsed_and ihl hk ihr
  | conj _ ih => exact parsed_conj ih
  | not hk _ ih => exact parsed_not hk ih
  | paren hl _ hr ih => exact parsed_paren hl ih hr
  | aggCmp _ _ _ => exact fun he => absurd he.1 (not_identifier_alias _ _)
  | isNull hname hk hn =>
    apply parsed_test hname
    exact fun fuel n rest _ _ => ⟨(front_word hk _).1, isNull_takes hk hn⟩
  | isNotNull hname hk hw hn =>
    apply parsed_test hname
    exact fun fuel n rest _ _ => ⟨(front_word hk _).1, isNotNull_takes hk hw hn⟩
  | eqNull hname ho hn =>
    apply parsed_test hname
    exact fun fuel n rest _ _ => ⟨by rw [cons_append, front_is ho]; nofun,
      op_takes ho (eqNull_takes hn)⟩
  | neNull hname ho hn =>
    apply parsed_test hname
    exact fun fuel n rest _ _ => ⟨by rw [cons_append, front_is ho]; nofun,
      op_takes ho (neNull_takes hn)⟩
  | like hname hk hm =>
    apply parsed_test hname
    exact fun fuel n rest _ _ => ⟨(front_word hk _).1, like_takes hk hm⟩
  | between hname hk hl ha hh =>
    apply parsed_test hname
    exact fun fuel n rest _ _ => ⟨(front_word hk _).1, between_takes hk hl ha hh⟩
  | inInt hname hk hl hvalues hr =>
    apply parsed_test hname
    intro fuel n rest hfuel _
    simp only [length_cons, length_append] at hfuel
    exact ⟨(front_word hk _).1, inInt_takes hk hl hvalues hr (by omega)⟩
  | cmpInt hname ho hm =>
    apply parsed_test hname
    exact fun fuel n rest _ _ => ⟨by rw [cons_append, front_is ho]; nofun,
      op_takes ho (takes_next hm Accepts.pure)⟩
  | cmpText hname ho hm =>
    apply parsed_test hname
    exact fun fuel n rest _ _ => ⟨by rw [cons_append, front_is ho]; nofun,
      op_takes ho (takes_next hm Accepts.pure)⟩
  | cmpColumn hname ho hright =>
    apply parsed_test hname
    intro fuel n rest hfuel hrest
    simp only [length_cons] at hfuel
    exact ⟨by rw [cons_append, front_is ho]; nofun,
      op_takes ho (cmpColumn_takes hright (by omega) hrest)⟩
  | «exists» => exact fun he => he.elim
  | agg _ => exact fun he => he.elim
  | inSubquery => exact fun he => he.elim
  | scalarCmp => exact fun he => he.elim
  | _ => trivial

theorem parseExpr_complete {e : Expr} (he : e.Plain) {ls : List Lexeme} {q : List (List Clause)}
    (h : Derives (.expr .disj e) ls q) {lx : Lexer} (hlx : Ahead lx ls) {fuel : Nat}
    (hfuel : ls.length < fuel) :
    ∃ lx', parseExpr fuel lx = .ok (e, lx') ∧ lx'.rest = [] := by
  obtain ⟨_, hparse⟩ := parsed_of_derives h he
  obtain ⟨fuel, rfl⟩ : ∃ k, fuel = k + 1 := ⟨fuel - 1, by omega⟩
  have hchain := hparse fuel (by omega) [] (by decide) (by decide)
  have hstop := hchain.stop (by decide) (by omega : ls.length ≤ fuel)
  obtain ⟨lx', hrun, hended⟩ := hstop lx (by rw [append_nil]; exact hlx)
  exact ⟨lx', hrun, hended.2 rfl⟩

end Oikos.Archon.Relational
