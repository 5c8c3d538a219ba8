/-
The text of a callee: read as tokens it is what was called, where the text shows all of
it; a text with dots or angle brackets for an operand stands in no source.

Parsers that write back what they read.  What such a parser takes compares with what is
written of its result by a relation that composes piece by piece, so that a rule for every
basic parser is enough to follow a production.
-/
import Oikos.Telos.Phrases

namespace Oikos.Telos.Parser

open List

def Named (text : String) : Prop :=
  ∃ tokens, Phrase text.toList tokens ∧ .assign ∉ tokens

/-- The numbers and callees that the text of an expression shows are those that the parser
makes. -/
def Sane : Expr → Prop
  | .int n => 0 ≤ n ∧ n < 2 ^ 63
  | .old e | .tryOn e | .index e _ => Sane e
  | .call func _ => Named func
  | .methodCall receiver _ _ => Sane receiver
  | _ => True

/-- The tokens of the text of an expression. -/
structure Shown (e : Expr) (tokens : List Token) : Prop where
  phrase : Phrase (prettySimple e).toList tokens
  noAssign : .assign ∉ tokens
  exact : plain e = true → bare tokens = writeExpr e
  garbled : plain e = false → ∀ t, ¬Opens t → ¬Legal (bare tokens ++ [t])

section Units

variable {text : String} {tokens : List Token} {v : Name}

theorem named_name (v : Name) : Named v.text :=
  ⟨[wordToken v], .name v, fun h => wordToken_ne_assign (mem_singleton.mp h).symm⟩

theorem phrase_lt (v : Name) : Phrase ('<' :: v.text.toList) [.lt, wordToken v] :=
  .charName v (by decide) (fun d hd => by
    have : d ≠ '=' := by
      rintro rfl
      exact absurd hd (by decide)
    simp [twoCharToken, this]) rfl

theorem phrase_dash (v : Name) : Phrase ('-' :: v.text.toList) [.minus, wordToken v] :=
  .charName v (by decide) (fun d hd => by
    have heq : d ≠ '=' := by
      rintro rfl
      exact absurd hd (by decide)
    have hgt : d ≠ '>' := by
      rintro rfl
      exact absurd hd (by decide)
    simp [twoCharToken, heq, hgt]) rfl

theorem phrase_bracketed (v : Name) :
    Phrase ('<' :: v.text.toList ++ ['>']) ([.lt, wordToken v] ++ [.gt]) :=
  (phrase_lt v).append (.char (by decide) (by decide) rfl) (breaks_cons (by decide))

theorem phrase_bracketedTwo (v w : Name) :
    Phrase ('<' :: v.text.toList ++ '-' :: w.text.toList ++ ['>'])
      ([.lt, wordToken v] ++ [.minus, wordToken w] ++ [.gt]) := by
  have hwords := (phrase_lt v).append (phrase_dash w) (breaks_cons (by decide))
  exact hwords.append (.char (by decide) (by decide) rfl) (breaks_cons (by decide))

theorem phrase_dot (v : Name) : Phrase ('.' :: v.text.toList) [.dot, wordToken v] :=
  .charName v (by decide) (fun d hd => by
    have : d ≠ '.' := by
      rintro rfl
      exact absurd hd (by decide)
    simp [twoCharToken, this]) rfl

theorem phrase_dots {c : Char} {tok : Token} (hc : c ∈ [')', ']']) (htok : charToken c = some tok) :
    Phrase ['.', '.', '.', c] [.dotDot, .dot, tok] := by
  have hne : c ≠ '.' := by
    rintro rfl
    exact absurd hc (by decide)
  have hclose : Phrase [c] [tok] := by
    rcases mem_cons.mp hc with rfl | hc
    · exact .char (by decide) (by decide) htok
    · obtain rfl := mem_singleton.mp hc
      exact .char (by decide) (by decide) htok
  have hdot : Phrase ['.', c] [.dot, tok] :=
    @Phrase.round _ _ '.' [] .dot (fun offset rest _ => lexOne_char (by decide)
      (by simp [twoCharToken, hne]) rfl) hclose
  exact @Phrase.round _ _ '.' ['.'] .dotDot (fun _ _ _ => rfl) hdot

theorem phrase_call (h : Phrase text.toList tokens) :
    Phrase (text ++ "(...)").toList (tokens ++ [.lParen, .dotDot, .dot, .rParen]) := by
  have hopen : Phrase ['('] [.lParen] := .char (by decide) (by decide) rfl
  have hdots : Phrase ['.', '.', '.', ')'] [.dotDot, .dot, .rParen] :=
    phrase_dots (by decide) rfl
  rw [String.toList_append]
  exact h.append (hopen.append hdots (breaks_cons (by decide))) (breaks_cons (by decide))

theorem phrase_index (h : Phrase text.toList tokens) :
    Phrase (text ++ "[...]").toList (tokens ++ [.lSquare, .dotDot, .dot, .rSquare]) := by
  have hopen : Phrase ['['] [.lSquare] := .char (by decide) (by decide) rfl
  have hdots : Phrase ['.', '.', '.', ']'] [.dotDot, .dot, .rSquare] :=
    phrase_dots (by decide) rfl
  rw [String.toList_append]
  exact h.append (hopen.append hdots (breaks_cons (by decide))) (breaks_cons (by decide))

theorem phrase_member (h : Phrase text.toList tokens) (v : Name) :
    Phrase (text ++ "." ++ v.text).toList (tokens ++ [.dot, wordToken v]) := by
  rw [String.toList_append, String.toList_append, append_assoc]
  exact h.append (phrase_dot v) (breaks_cons (by decide))

end Units

theorem not_legal_of_pair {before after : List Token} {t u : Token} (h : ¬Joins t u) :
    ¬Legal (before ++ t :: u :: after) := fun hlegal =>
  h (isChain_cons_cons.mp hlegal.right_of_append).1

namespace Shown

variable {e : Expr} {tokens : List Token} {v : Name}

theorem word (hplain : plain e = true) (h : prettySimple e = v.text)
    (hwrite : writeExpr e = [wordToken v]) : Shown e [wordToken v] where
  phrase := h ▸ .name v
  noAssign hmem := wordToken_ne_assign (mem_singleton.mp hmem).symm
  exact _ := by rw [hwrite, bare_wordToken]
  garbled hgarbled := by
    rw [hplain] at hgarbled
    cases hgarbled

theorem int {n : Int} (h : 0 ≤ n ∧ n < 2 ^ 63) : ∃ tokens, Shown (.int n) tokens := by
  obtain ⟨m, rfl⟩ := Int.eq_ofNat_of_zero_le h.1
  have hm : m < 2 ^ 63 := by omega
  have htoken : natToken m = .int ⟨m, hm⟩ := congrArg Token.int (Fin.ext (Nat.mod_eq_of_lt hm))
  refine ⟨[.int ⟨m, hm⟩], ?_, by simp, fun _ => ?_, nofun⟩
  · rw [prettySimple, toList_toString_natCast]
    exact .digits ⟨m, hm⟩
  · rw [writeExpr, writeInt, if_neg (by omega), Int.natAbs_natCast, htoken]
    rfl

theorem field (base field : Name) :
    Shown (.field base field) ([wordToken base] ++ [.dot, wordToken field]) where
  phrase := phrase_member (.name base) field
  noAssign := by simp [wordToken_ne_assign.symm]
  exact _ := by
    rw [bare_append, bare_wordToken, bare_cons_of_keep rfl, bare_wordToken]
    rfl
  garbled := nofun

theorem of_pair {text : String} {t u : Token} {before after : List Token}
    (htext : prettySimple e = text) (hplain : plain e = false) (h : Phrase text.toList tokens)
    (hassign : .assign ∉ tokens) (hbare : bare tokens = before ++ t :: u :: after)
    (hjoin : ¬Joins t u) : Shown e tokens where
  phrase := htext ▸ h
  noAssign := hassign
  exact hexact := by
    rw [hplain] at hexact
    cases hexact
  garbled _ v _ := by
    rw [hbare, append_assoc]
    exact not_legal_of_pair hjoin

theorem of_bracket {text : String} (htext : prettySimple e = text) (hplain : plain e = false)
    (h : Phrase text.toList (tokens ++ [.gt])) (hassign : .assign ∉ tokens) :
    Shown e (tokens ++ [.gt]) where
  phrase := htext ▸ h
  noAssign hmem := (mem_append.mp hmem).elim hassign (by simp)
  exact hexact := by
    rw [hplain] at hexact
    cases hexact
  garbled _ v hv := by
    have hsplit : bare (tokens ++ [.gt]) ++ [v] = bare tokens ++ .gt :: v :: [] := by
      rw [bare_append, bare_cons_of_keep rfl, append_assoc]
      rfl
    rw [hsplit]
    exact not_legal_of_pair fun hjoin => hjoin.elim (fun hcloses => hcloses.1 rfl) hv

theorem bracketed (v : Name) (htext : prettySimple e = "<" ++ v.text ++ ">")
    (hplain : plain e = false) : Shown e ([.lt, wordToken v] ++ [.gt]) := by
  refine of_bracket htext hplain ?_ (by simp [wordToken_ne_assign.symm])
  rw [String.toList_append, String.toList_append]
  exact phrase_bracketed v

theorem bracketedTwo (v w : Name) (htext : prettySimple e = "<" ++ v.text ++ "-" ++ w.text ++ ">")
    (hplain : plain e = false) :
    Shown e ([.lt, wordToken v] ++ [.minus, wordToken w] ++ [.gt]) := by
  refine of_bracket htext hplain ?_ (by simp [wordToken_ne_assign.symm])
  have hsplit : ("<" ++ v.text ++ "-" ++ w.text ++ ">").toList =
      '<' :: v.text.toList ++ '-' :: w.text.toList ++ ['>'] := by
    simp [String.toList_append]
  rw [hsplit]
  exact phrase_bracketedTwo v w

theorem call {text : String} (htext : prettySimple e = text ++ "(...)") (hplain : plain e = false)
    (h : Phrase text.toList tokens) (hassign : .assign ∉ tokens) :
    Shown e (tokens ++ [.lParen, .dotDot, .dot, .rParen]) :=
  of_pair htext hplain (phrase_call h) (by simp [hassign]) (bare_append ..)
    (by decide : ¬Joins .dotDot .dot)

theorem index {receiver index : Expr} (h : Shown receiver tokens) :
    Shown (.index receiver index) (tokens ++ [.lSquare, .dotDot, .dot, .rSquare]) := by
  have hbare : bare (tokens ++ [.lSquare, .dotDot, .dot, .rSquare]) =
      (bare tokens ++ [.lSquare]) ++ .dotDot :: .dot :: [.rSquare] := by
    rw [bare_append, append_assoc]
    rfl
  exact of_pair rfl rfl (phrase_index h.phrase) (by simp [h.noAssign]) hbare
    (by decide : ¬Joins .dotDot .dot)

theorem old (h : Shown e tokens) :
    Shown (.old e) (.kw .old :: .lParen :: (tokens ++ [.rParen])) := by
  have hbare : bare (.kw .old :: .lParen :: (tokens ++ [.rParen])) = .kw .old :: bare tokens := by
    rw [bare_cons_of_keep rfl, bare_cons_of_drop rfl, bare_append]
    exact congrArg _ (append_nil _)
  constructor
  · have hclose : Phrase ((prettySimple e).toList ++ [')']) (tokens ++ [.rParen]) :=
      h.phrase.append (.char (by decide) (by decide) rfl) (breaks_cons (by decide))
    have hopen : Phrase ('(' :: ([] ++ ((prettySimple e).toList ++ [')'])))
        (.lParen :: (tokens ++ [.rParen])) := by
      refine @Phrase.round _ _ '(' [] .lParen (fun _ _ _ => lexOne_char (by decide) ?_ rfl) hclose
      cases ([] ++ ((prettySimple e).toList ++ [')'] ++ _) : List Char) with
      | nil => rfl
      | cons d ds => rfl
    have hword : Phrase "old".toList [.kw .old] := Phrase.name ⟨"old", by decide⟩
    rw [prettySimple, String.toList_append, String.toList_append, append_assoc]
    exact hword.append hopen (breaks_cons (by decide))
  · simp [h.noAssign]
  · intro hplain
    rw [hbare, h.exact hplain]
    rfl
  · intro hplain t ht
    rw [hbare]
    exact not_legal_append (s := [.kw .old]) (Or.inr (h.garbled hplain t ht))

theorem tryOn (h : Shown e tokens) : Shown (.tryOn e) (tokens ++ [.question]) where
  phrase := by
    rw [prettySimple, String.toList_append]
    exact h.phrase.append (.char (by decide) (by decide) rfl) (breaks_cons (by decide))
  noAssign := by simp [h.noAssign]
  exact hplain := by
    rw [bare_append, h.exact hplain]
    rfl
  garbled hplain t _ := by
    rw [bare_append]
    exact not_legal_append (Or.inl (h.garbled hplain .question (by decide)))

end Shown

theorem exists_shown : (e : Expr) → Sane e → ∃ tokens, Shown e tokens
  | .int _, h => Shown.int h
  | .var v, _ => ⟨_, .word rfl rfl (by rw [writeExpr])⟩
  | .field b f, _ => ⟨_, .field b f⟩
  | .old e, h =>
    have ⟨_, hshown⟩ := exists_shown e h
    ⟨_, hshown.old⟩
  | .tryOn e, h =>
    have ⟨_, hshown⟩ := exists_shown e h
    ⟨_, hshown.tryOn⟩
  | .index receiver _, h =>
    have ⟨_, hshown⟩ := exists_shown receiver h
    ⟨_, hshown.index⟩
  | .methodCall receiver method _, h =>
    have ⟨_, hshown⟩ := exists_shown receiver h
    ⟨_, .call rfl rfl (phrase_member hshown.phrase method)
      (by simp [hshown.noAssign, wordToken_ne_assign.symm])⟩
  | .call _ _, h =>
    have ⟨_, hphrase, hassign⟩ := h
    ⟨_, .call rfl rfl hphrase hassign⟩
  | .aggregate op _, _ => by
    have hname : ∃ v : Name, v.text = op.opName := by
      cases op with
      | sum => exact ⟨⟨"sum", by decide⟩, rfl⟩
      | min => exact ⟨⟨"min", by decide⟩, rfl⟩
      | max => exact ⟨⟨"max", by decide⟩, rfl⟩
      | count => exact ⟨⟨"count", by decide⟩, rfl⟩
    obtain ⟨v, hv⟩ := hname
    have hphrase : Phrase op.opName.toList [wordToken v] := hv ▸ .name v
    exact ⟨_, .call rfl rfl hphrase (by simp [wordToken_ne_assign.symm])⟩
  | .unary _ _, _ => ⟨_, .bracketed ⟨"expr", by decide⟩ rfl rfl⟩
  | .bin _ _ _, _ => ⟨_, .bracketed ⟨"expr", by decide⟩ rfl rfl⟩
  | .forAll _ _ _ _, _ => ⟨_, .bracketed ⟨"forall", by decide⟩ rfl rfl⟩
  | .range _ _, _ => ⟨_, .bracketed ⟨"range", by decide⟩ rfl rfl⟩
  | .ifThen _ _ _, _ => ⟨_, .bracketedTwo ⟨"if", by decide⟩ ⟨"expr", by decide⟩ rfl rfl⟩
  | .matchOn _ _, _ => ⟨_, .bracketedTwo ⟨"match", by decide⟩ ⟨"expr", by decide⟩ rfl rfl⟩

/-! ### Callees -/

/-- The text that a call makes of the call of a method in front of it. -/
def calleeText (receiver : Expr) (method : Name) : String :=
  prettySimple receiver ++ "." ++ method.text

section Callee

variable {receiver : Expr} (method : Name)

theorem Sane.callee (h : Sane receiver) :
    ∃ tokens, Shown receiver tokens ∧
      Phrase (calleeText receiver method).toList (tokens ++ [.dot, wordToken method]) ∧
      textTokens (calleeText receiver method) = bare tokens ++ [.dot, wordToken method] := by
  obtain ⟨tokens, hshown⟩ := exists_shown receiver h
  have hphrase := phrase_member hshown.phrase method
  refine ⟨tokens, hshown, hphrase, ?_⟩
  rw [calleeText, hphrase.textTokens, bare_append, bare_cons_of_keep rfl, bare_wordToken]

theorem Sane.named_callee (h : Sane receiver) : Named (calleeText receiver method) := by
  obtain ⟨tokens, hshown, hphrase, -⟩ := h.callee method
  exact ⟨_, hphrase, by simp [hshown.noAssign, wordToken_ne_assign.symm]⟩

theorem Sane.textTokens_callee (h : Sane receiver) (hplain : plain receiver = true) :
    textTokens (calleeText receiver method) = writeExpr receiver ++ [.dot, wordToken method] := by
  obtain ⟨tokens, hshown, -, htokens⟩ := h.callee method
  rw [htokens, hshown.exact hplain]

theorem Sane.callee_not_legal (h : Sane receiver) (hplain : plain receiver = false) :
    ¬Legal (textTokens (calleeText receiver method)) := by
  obtain ⟨tokens, hshown, -, htokens⟩ := h.callee method
  have hsplit : bare tokens ++ [.dot, wordToken method] =
      (bare tokens ++ [.dot]) ++ [wordToken method] := by
    rw [append_assoc]
    rfl
  rw [htokens, hsplit]
  exact not_legal_append (Or.inl (hshown.garbled hplain .dot (by decide)))

end Callee

theorem Named.noAssign {text : String} (h : Named text) : .assign ∉ textTokens text := by
  obtain ⟨tokens, hphrase, hassign⟩ := h
  rw [hphrase.textTokens]
  exact fun hmem => hassign (mem_of_mem_filter hmem)

/-- Pieces that are read, written and noted one behind the other. -/
class Composes (R : List Token → List Token → List Slip → Prop) : Prop where
  nil : R [] [] []
  append : ∀ {s w notes s' w' notes'},
    R s w notes → R s' w' notes' → R (s ++ s') (w ++ w') (notes ++ notes')
  token : ∀ {t}, Opens t → t ≠ .assign → R [t] [t] []

instance : Composes Kept where
  nil := .nil
  append := .append
  token h _ := .token h

instance : Composes Quiet where
  nil := .nil
  append := .append
  token := .token

/-- Nothing is said of the tokens. -/
def Unrelated (_ _ : List Token) (_ : List Slip) : Prop :=
  True

instance : Composes Unrelated where
  nil := trivial
  append _ _ := trivial
  token _ _ := trivial

/-- The lexemes stand one behind the other. -/
def Ordered (ls : List Lexeme) : Prop :=
  ls.Pairwise (·.start < ·.start)

instance : Stays Ordered where
  rest h := (List.pairwise_append.mp h).2.1

/-- What a successful run takes compares by `R` with some tokens, and `G` relates both to
its result. -/
def Keeps {α : Type} (R : List Token → List Token → List Slip → Prop) (P : List Lexeme → Prop)
    (p : Parse α) (G : α → List Token → List Token → List Slip → Prop) : Prop :=
  Takes Ordered P p fun a notes ls =>
    ∃ w, R (sourceTokens ls) w notes ∧ G a (sourceTokens ls) w notes

@[simp] theorem sourceTokens_nil : sourceTokens [] = [] := rfl

@[simp] theorem sourceTokens_append {ls ls' : List Lexeme} :
    sourceTokens (ls ++ ls') = sourceTokens ls ++ sourceTokens ls' := by
  rw [sourceTokens, map_append, bare_append]
  rfl

theorem sourceTokens_cons {l : Lexeme} {ls : List Lexeme} :
    sourceTokens (l :: ls) = bare [l.token] ++ sourceTokens ls :=
  @sourceTokens_append [l] ls

/-! ### Single tokens -/

section Silent

variable {P : List Lexeme → Prop}

theorem takes_expect {tok : Token} :
    Takes Ordered P (expect tok) fun _ notes ls => notes = [] ∧ sourceTokens ls = bare [tok] := by
  refine Takes.peek fun l => ?_
  split
  · next htok =>
    exact Takes.advance (Takes.pure ⟨rfl, congrArg (fun t => bare [t]) htok⟩)
  · exact Takes.throw

theorem takes_expectIdent :
    Takes Ordered P expectIdent fun v notes ls =>
      notes = [] ∧ sourceTokens ls = [wordToken v] := by
  refine Takes.peek fun l => ?_
  split
  · next i htok =>
    refine Takes.advance (Takes.pure ⟨rfl, ?_⟩)
    rw [wordToken_ident, sourceTokens_cons, htok]
    rfl
  · exact Takes.throw

theorem takes_expectIdentOrKeyword :
    Takes Ordered P expectIdentOrKeyword fun v notes ls =>
      notes = [] ∧ sourceTokens ls = [wordToken v] := by
  refine Takes.peek fun l => ?_
  split
  · next i htok =>
    refine Takes.advance (Takes.pure ⟨rfl, ?_⟩)
    rw [wordToken_ident, sourceTokens_cons, htok]
    rfl
  · next htok =>
    refine Takes.advance (Takes.pure ⟨rfl, ?_⟩)
    rw [sourceTokens_cons, htok]
    rfl
  · exact Takes.throw

theorem takes_skip {tok : Token} (htok : tok.isSeparator = true) :
    Takes Ordered P (skip tok) fun _ notes ls => notes = [] ∧ sourceTokens ls = [] := by
  refine Takes.peek fun l => ?_
  split
  · next heq =>
    refine Takes.advance (Takes.pure ⟨rfl, ?_⟩)
    rw [sourceTokens_cons, heq, bare_cons_of_drop htok]
    rfl
  · exact Takes.pure ⟨rfl, rfl⟩

theorem takes_noteIf {c : Bool} {slip : Slip} :
    Takes Ordered P (noteIf c slip) fun _ notes ls =>
      notes = (if c then [slip] else []) ∧ sourceTokens ls = [] := by
  cases c with
  | false => exact Takes.pure ⟨rfl, rfl⟩
  | true => exact Takes.note (Takes.pure ⟨rfl, rfl⟩)

end Silent

/-! ### Rules -/

namespace Keeps

variable {α β : Type} {R : List Token → List Token → List Slip → Prop}
  {P : List Lexeme → Prop} {p : Parse α} {f : α → Parse β}
  {G G' : α → List Token → List Token → List Slip → Prop}
  {K : β → List Token → List Token → List Slip → Prop}

theorem reject {message : String} : Keeps R P (Parser.reject message) G :=
  Takes.throw

theorem outOfFuel : Keeps R P Parser.outOfFuel G :=
  Takes.throw

theorem mono (hp : Keeps R P p G)
    (h : ∀ a s w notes, R s w notes → G a s w notes → G' a s w notes) :
    Keeps R P p G' :=
  Takes.mono hp fun a notes _ ⟨w, hR, hG⟩ => ⟨w, hR, h a _ w notes hR hG⟩

theorem kept (hp : Keeps Quiet P p G) : Keeps Kept P p G :=
  Takes.mono hp fun _ _ _ ⟨w, hR, hG⟩ => ⟨w, hR.toKept, hG⟩

theorem anywhere (hp : Keeps R Anywhere p G) : Keeps R P p G :=
  Takes.pre hp fun _ _ => trivial

/-- The relation is moved to what is said of the result. -/
theorem unrelated (hp : Keeps R P p G) :
    Keeps Unrelated P p fun a s w notes => R s w notes ∧ G a s w notes :=
  Takes.mono hp fun _ _ _ ⟨w, hR, hG⟩ => ⟨w, trivial, hR, hG⟩

/-- It is moved back. -/
theorem related (hp : Keeps Unrelated P p fun a s _ notes => ∃ w, R s w notes ∧ G a s w notes) :
    Keeps R P p G :=
  Takes.mono hp fun _ _ _ ⟨_, _, hG⟩ => hG

theorem peek {f : Lexeme → Parse β} (h : ∀ l, Keeps R (NextIs l) (f l) K) :
    Keeps R P (Parser.peek >>= f) K :=
  Takes.peek h

variable [Composes R]

theorem pure {a : α} (h : G a [] [] []) : Keeps R P (Pure.pure a) G :=
  Takes.pure ⟨[], Composes.nil, h⟩

theorem bind (hp : Keeps R P p G)
    (hf : ∀ a s w notes, R s w notes → G a s w notes →
      Keeps R Anywhere (f a) fun b s' w' notes' => K b (s ++ s') (w ++ w') (notes ++ notes')) :
    Keeps R P (p >>= f) K := by
  refine Takes.bind hp fun a notes ls ⟨w, hR, hG⟩ => ?_
  refine Takes.mono (hf a _ w notes hR hG) fun b notes' ls' ⟨w', hR', hK⟩ => ?_
  rw [sourceTokens_append]
  exact ⟨w ++ w', Composes.append hR hR', hK⟩

/-- The result of another parser is made over. -/
theorem map {g : α → β} (hp : Keeps R P p G)
    (h : ∀ a s w notes, R s w notes → G a s w notes → K (g a) s w notes) :
    Keeps R P (p >>= fun a => Pure.pure (g a)) K := by
  refine bind hp fun a s w notes hR hG => pure ?_
  rw [append_nil, append_nil, append_nil]
  exact h a s w notes hR hG

theorem silent {g : α → List Token}
    (hp : Takes Ordered P p fun a notes ls => notes = [] ∧ sourceTokens ls = g a)
    (hR : ∀ a, R (g a) (g a) []) (hf : ∀ a, Keeps R Anywhere (f a) fun b s w notes =>
      K b (g a ++ s) (g a ++ w) notes) : Keeps R P (p >>= f) K := by
  refine Takes.bind hp fun a _ _ ⟨hnotes, hls⟩ => ?_
  refine Takes.mono (hf a) fun b notes' ls' ⟨w', hR', hK⟩ => ?_
  rw [sourceTokens_append, hls, hnotes]
  exact ⟨g a ++ w', Composes.append (hR a) hR', hK⟩

theorem expect {tok : Token} {f : Unit → Parse β} (hR : R (bare [tok]) (bare [tok]) [])
    (hf : Keeps R Anywhere (f ()) fun b s w notes =>
      K b (bare [tok] ++ s) (bare [tok] ++ w) notes) :
    Keeps R P (Parser.expect tok >>= f) K :=
  silent takes_expect (fun _ => hR) fun _ => hf

theorem word (v : Name) : R [wordToken v] [wordToken v] [] :=
  Composes.token opens_wordToken wordToken_ne_assign

theorem ident {f : Name → Parse β} (hf : ∀ v, Keeps R Anywhere (f v) fun b s w notes =>
    K b ([wordToken v] ++ s) ([wordToken v] ++ w) notes) : Keeps R P (expectIdent >>= f) K :=
  silent takes_expectIdent word hf

theorem identOrKeyword {f : Name → Parse β} (hf : ∀ v, Keeps R Anywhere (f v) fun b s w notes =>
    K b ([wordToken v] ++ s) ([wordToken v] ++ w) notes) :
    Keeps R P (expectIdentOrKeyword >>= f) K :=
  silent takes_expectIdentOrKeyword word hf

theorem skip {tok : Token} {f : Unit → Parse β} (htok : tok.isSeparator = true)
    (hf : Keeps R Anywhere (f ()) K) : Keeps R P (Parser.skip tok >>= f) K :=
  silent (takes_skip htok) (fun _ => Composes.nil) fun _ => hf

theorem advance {l : Lexeme} {tok : Token} {f : Lexeme → Parse β} (htok : l.token = tok)
    (hR : R (bare [tok]) (bare [tok]) [])
    (hf : Keeps R Anywhere (f l) fun b s w notes =>
      K b (bare [tok] ++ s) (bare [tok] ++ w) notes) :
    Keeps R (NextIs l) (Parser.advance >>= f) K := by
  refine Takes.advance (Takes.mono hf fun b notes ls ⟨w, hR', hK⟩ => ?_)
  rw [sourceTokens_cons, htok]
  exact ⟨bare [tok] ++ w, Composes.append hR hR', hK⟩

theorem note {slip : Slip} {w₀ : List Token} {f : PUnit → Parse β} (hR : R [] w₀ [slip])
    (hf : Keeps R Anywhere (f .unit) fun b s w notes => K b s (w₀ ++ w) ([slip] ++ notes)) :
    Keeps R P (Tape.note slip >>= f) K :=
  Takes.note (Takes.mono hf fun _ _ _ ⟨w, hR', hK⟩ => ⟨w₀ ++ w, Composes.append hR hR', hK⟩)

omit [Composes R] in
theorem noteIf {c : Bool} {slip : Slip} {f : Unit → Parse β}
    (hf : Keeps Unrelated Anywhere (f ()) fun b s w notes =>
      K b s w ((if c then [slip] else []) ++ notes)) :
    Keeps Unrelated P (Parser.noteIf c slip >>= f) K := by
  refine Takes.bind takes_noteIf fun _ _ ls ⟨hnotes, hls⟩ => ?_
  refine Takes.mono hf fun b notes' ls' ⟨w, _, hK⟩ => ⟨w, trivial, ?_⟩
  rw [sourceTokens_append, hls, hnotes]
  exact hK

end Keeps

/-! ### Lists -/

section Lists

variable {α : Type} {R : List Token → List Token → List Slip → Prop} [Composes R]
  {P : List Lexeme → Prop} {item : Parse α}
  {G : α → List Token → List Token → List Slip → Prop}
  {L : List α → List Token → List Token → List Slip → Prop}

/-- The relation of a list, item by item. -/
structure Listwise (G : α → List Token → List Token → List Slip → Prop)
    (L : List α → List Token → List Token → List Slip → Prop) : Prop where
  nil : L [] [] [] []
  cons : ∀ {a s w notes as s' w' notes'}, G a s w notes → L as s' w' notes' →
    L (a :: as) (s ++ s') (w ++ w') (notes ++ notes')

theorem Listwise.singleton (hL : Listwise G L) {a : α} {s w : List Token} {notes : List Slip}
    (h : G a s w notes) : L [a] s w notes := by
  have := hL.cons h hL.nil
  rwa [append_nil, append_nil, append_nil] at this

theorem listwise_flatMap (write : α → List Token) :
    Listwise (fun a _ w _ => w = write a) fun as _ w _ => w = as.flatMap write where
  nil := rfl
  cons hw hws := by rw [hw, hws, flatMap_cons]

theorem keeps_untilToken (hL : Listwise G L) (hitem : Keeps R Anywhere item G) {stop : Token}
    (fuel : Nat) : Keeps R P (untilToken stop item fuel) L := by
  induction fuel generalizing P with
  | zero => exact .outOfFuel
  | succ fuel ih =>
    refine .peek fun l => ?_
    split
    · exact .pure hL.nil
    · refine .bind hitem.anywhere fun a s w notes _ hG => ?_
      exact .map ih fun as s' w' notes' _ hL' => hL.cons hG hL'

theorem keeps_whileToken (hL : Listwise G L) (hitem : Keeps R Anywhere item G) {start : Token}
    (fuel : Nat) : Keeps R P (whileToken start item fuel) L := by
  induction fuel generalizing P with
  | zero => exact .outOfFuel
  | succ fuel ih =>
    refine .peek fun l => ?_
    split
    · refine .bind hitem.anywhere fun a s w notes _ hG => ?_
      exact .map ih fun as s' w' notes' _ hL' => hL.cons hG hL'
    · exact .pure hL.nil

theorem keeps_commaList (hL : Listwise G L) (hitem : Keeps R Anywhere item G) (fuel : Nat) :
    Keeps R P (commaList item fuel) L := by
  induction fuel generalizing P with
  | zero => exact .outOfFuel
  | succ fuel ih =>
    refine .bind hitem.anywhere fun a s w notes _ hG => ?_
    refine .peek fun l => ?_
    split
    · next htok =>
      refine .advance htok Composes.nil ?_
      exact .map ih fun as s' w' notes' _ hL' => hL.cons hG hL'
    · refine .pure ?_
      rw [append_nil, append_nil, append_nil]
      exact hL.singleton hG

theorem keeps_closedList (hL : Listwise G L) (hitem : Keeps R Anywhere item G) (fuel : Nat) :
    Keeps R P (closedList item fuel) L := by
  have hparen : R (bare [.rParen]) (bare [.rParen]) [] := Composes.nil
  refine .peek fun l => ?_
  split
  · exact .expect hparen (.pure hL.nil)
  · refine .bind (keeps_commaList hL hitem fuel) fun as s w notes _ hL' => ?_
    have hnone : bare [.rParen] = [] := rfl
    refine .expect hparen (.pure ?_)
    rw [hnone, append_nil, append_nil, append_nil, append_nil]
    exact hL'

end Lists

end Oikos.Telos.Parser
